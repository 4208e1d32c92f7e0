/-
A fragment of the x86-64 machine: the instructions that enter and leave the
kernel, and those that move words between registers and the stack.

A state has the registers, `rip`, `rflags`, the two GS bases, the mode and the
memory.  What stays fixed while code runs is the `Platform`: the instruction at
each address with the address after it, which bytes user code may read and which
it may write, and the two registers that `syscall` reads.  An access of user code
or an instruction that would fault has no next state.  Accesses of kernel code are
taken not to fault: the memory it uses is taken to be mapped.

* `exec` — one instruction; `next` — the instruction at `rip`;
* `Located` — instructions that stand one after another;
* `inWord_user`, `inWord_userWrite` — the bytes of a word that user code may access.
-/
import ZuluOs.ByteMemory
import ZuluOs.Paging

open ByteMemory

/-- The general registers. -/
inductive Reg
  | rax | rbx | rcx | rdx | rsi | rdi | rbp | rsp
  | r8 | r9 | r10 | r11 | r12 | r13 | r14 | r15
deriving DecidableEq, Repr

/-- The instructions, with the words of their operands. -/
inductive Instr
  | push (src : Reg)
  | pop (dst : Reg)
  | mov (dst src : Reg)
  | movImm (dst : Reg) (value : Word)
  | storeGs (offset : Word) (src : Reg)
  | loadGs (dst : Reg) (offset : Word)
  | swapgs
  | syscall
  | sysretq
  | call (target : Word)
  | leave
  | ret
deriving DecidableEq

/-- What the code runs on and does not change. -/
structure Platform where
  /-- The instruction at an address, and the address after it. -/
  code : Word → Option (Instr × Word)
  /-- The bytes that user code may read. -/
  user : Word → Bool
  /-- The bytes that it may write. -/
  userWrite : Word → Bool
  user_of_userWrite : ∀ x, userWrite x = true → user x = true
  lstar : Word
  sfmask : Word

namespace Platform

variable {p : Platform}

/-- User code may read all eight bytes of the word at `a`. -/
def UserWord (p : Platform) (a : Word) : Prop :=
  ∀ i < 8, p.user (a + BitVec.ofNat 64 i) = true

/-- User code may write all eight bytes of the word at `a`. -/
def WritableWord (p : Platform) (a : Word) : Prop :=
  ∀ i < 8, p.userWrite (a + BitVec.ofNat 64 i) = true

instance (p : Platform) : DecidablePred p.UserWord :=
  fun _ => inferInstanceAs (Decidable (∀ i < 8, _))

instance (p : Platform) : DecidablePred p.WritableWord :=
  fun _ => inferInstanceAs (Decidable (∀ i < 8, _))

theorem WritableWord.userWord {a : Word} (h : p.WritableWord a) : p.UserWord a :=
  fun i hi => p.user_of_userWrite _ (h i hi)

theorem userWrite_eq_false {x : Word} (h : p.user x = false) : p.userWrite x = false := by
  rw [← Bool.not_eq_true]
  intro hx
  rw [p.user_of_userWrite x hx] at h
  cases h

end Platform

/-- The state of the processor and the memory. -/
structure Cpu where
  regs : Reg → Word
  rip : Word
  rflags : Word
  gsBase : Word
  kernelGsBase : Word
  userMode : Bool
  mem : ByteMemory

namespace Cpu

/-! ### Parts of an instruction -/

def set (c : Cpu) (r : Reg) (v : Word) : Cpu := { c with regs := Function.update c.regs r v }

def write (c : Cpu) (a v : Word) : Cpu := { c with mem := writeWord c.mem a v }

def goto (c : Cpu) (a : Word) : Cpu := { c with rip := a }

def swap (c : Cpu) : Cpu := { c with gsBase := c.kernelGsBase, kernelGsBase := c.gsBase }

/-- The mode and the flags change together. -/
def switch (c : Cpu) (userMode : Bool) (rflags : Word) : Cpu :=
  { c with userMode := userMode, rflags := rflags }

section fields

variable (c : Cpu) (r : Reg) (a v : Word) (m : Bool)

@[simp] theorem set_regs_self : (c.set r v).regs r = v := Function.update_self ..
@[simp] theorem set_regs_of_ne {r r' : Reg} (h : r' ≠ r) : (c.set r v).regs r' = c.regs r' :=
  Function.update_of_ne h ..
@[simp] theorem set_rip : (c.set r v).rip = c.rip := rfl
@[simp] theorem set_rflags : (c.set r v).rflags = c.rflags := rfl
@[simp] theorem set_gsBase : (c.set r v).gsBase = c.gsBase := rfl
@[simp] theorem set_kernelGsBase : (c.set r v).kernelGsBase = c.kernelGsBase := rfl
@[simp] theorem set_userMode : (c.set r v).userMode = c.userMode := rfl
@[simp] theorem set_mem : (c.set r v).mem = c.mem := rfl

@[simp] theorem write_regs : (c.write a v).regs = c.regs := rfl
@[simp] theorem write_rip : (c.write a v).rip = c.rip := rfl
@[simp] theorem write_rflags : (c.write a v).rflags = c.rflags := rfl
@[simp] theorem write_gsBase : (c.write a v).gsBase = c.gsBase := rfl
@[simp] theorem write_kernelGsBase : (c.write a v).kernelGsBase = c.kernelGsBase := rfl
@[simp] theorem write_userMode : (c.write a v).userMode = c.userMode := rfl
@[simp] theorem write_mem : (c.write a v).mem = writeWord c.mem a v := rfl

@[simp] theorem goto_regs : (c.goto a).regs = c.regs := rfl
@[simp] theorem goto_rip : (c.goto a).rip = a := rfl
@[simp] theorem goto_rflags : (c.goto a).rflags = c.rflags := rfl
@[simp] theorem goto_gsBase : (c.goto a).gsBase = c.gsBase := rfl
@[simp] theorem goto_kernelGsBase : (c.goto a).kernelGsBase = c.kernelGsBase := rfl
@[simp] theorem goto_userMode : (c.goto a).userMode = c.userMode := rfl
@[simp] theorem goto_mem : (c.goto a).mem = c.mem := rfl

@[simp] theorem swap_regs : c.swap.regs = c.regs := rfl
@[simp] theorem swap_rip : c.swap.rip = c.rip := rfl
@[simp] theorem swap_rflags : c.swap.rflags = c.rflags := rfl
@[simp] theorem swap_gsBase : c.swap.gsBase = c.kernelGsBase := rfl
@[simp] theorem swap_kernelGsBase : c.swap.kernelGsBase = c.gsBase := rfl
@[simp] theorem swap_userMode : c.swap.userMode = c.userMode := rfl
@[simp] theorem swap_mem : c.swap.mem = c.mem := rfl

@[simp] theorem switch_regs : (c.switch m v).regs = c.regs := rfl
@[simp] theorem switch_rip : (c.switch m v).rip = c.rip := rfl
@[simp] theorem switch_rflags : (c.switch m v).rflags = v := rfl
@[simp] theorem switch_gsBase : (c.switch m v).gsBase = c.gsBase := rfl
@[simp] theorem switch_kernelGsBase : (c.switch m v).kernelGsBase = c.kernelGsBase := rfl
@[simp] theorem switch_userMode : (c.switch m v).userMode = m := rfl
@[simp] theorem switch_mem : (c.switch m v).mem = c.mem := rfl

end fields

/-! ### Instructions -/

variable {p : Platform} {c c' : Cpu} {a b : Word}

/-- The load of the word at `a` does not fault. -/
def Access (p : Platform) (c : Cpu) (a : Word) : Prop := c.userMode = true → p.UserWord a

/-- The store of a word at `a` does not fault. -/
def StoreAccess (p : Platform) (c : Cpu) (a : Word) : Prop :=
  c.userMode = true → p.WritableWord a

instance : DecidablePred (Access p c) := fun _ => inferInstanceAs (Decidable (_ → _))

instance : DecidablePred (StoreAccess p c) := fun _ => inferInstanceAs (Decidable (_ → _))

/-- The flags that `sysretq` loads; bit 1 is always set. -/
def sysretFlags (r11 : Word) : Word := (r11 &&& 0x3C7FD7) ||| 2

/-- Execute an instruction that is followed by the address `after`. -/
def exec (p : Platform) (c : Cpu) (after : Word) : Instr → Option Cpu
  | .push src =>
    let top := c.regs .rsp - 8#64
    if StoreAccess p c top then some (((c.write top (c.regs src)).set .rsp top).goto after) else none
  | .pop dst =>
    let top := c.regs .rsp
    if Access p c top then
      some (((c.set .rsp (top + 8#64)).set dst (readWord c.mem top)).goto after)
    else none
  | .mov dst src => some ((c.set dst (c.regs src)).goto after)
  | .movImm dst value => some ((c.set dst value).goto after)
  | .storeGs offset src =>
    if StoreAccess p c (c.gsBase + offset) then
      some ((c.write (c.gsBase + offset) (c.regs src)).goto after)
    else none
  | .loadGs dst offset =>
    if Access p c (c.gsBase + offset) then
      some ((c.set dst (readWord c.mem (c.gsBase + offset))).goto after)
    else none
  | .swapgs => if c.userMode = true then none else some (c.swap.goto after)
  | .syscall =>
    some ((((c.set .rcx after).set .r11 c.rflags).switch false (c.rflags &&& ~~~p.sfmask)).goto
      p.lstar)
  | .sysretq =>
    -- a return address that is not canonical faults before the mode changes
    if c.userMode = false ∧ Canonical (c.regs .rcx).toNat then
      some ((c.switch true (sysretFlags (c.regs .r11))).goto (c.regs .rcx))
    else none
  | .call target =>
    let top := c.regs .rsp - 8#64
    if StoreAccess p c top then some (((c.write top after).set .rsp top).goto target) else none
  | .leave =>
    let frame := c.regs .rbp
    if Access p c frame then
      some (((c.set .rsp (frame + 8#64)).set .rbp (readWord c.mem frame)).goto after)
    else none
  | .ret =>
    let top := c.regs .rsp
    if Access p c top then some ((c.set .rsp (top + 8#64)).goto (readWord c.mem top)) else none

/-- The instruction at `rip`. -/
def next (p : Platform) (c : Cpu) : Option Cpu := do
  let (i, after) ← p.code c.rip
  exec p c after i

theorem next_of_code {i : Instr} (h : p.code c.rip = some (i, a)) : next p c = exec p c a i := by
  rw [next, h]
  rfl

/-- The instructions stand one after another from `a` on. -/
def Located (p : Platform) : Word → List Instr → Prop
  | _, [] => True
  | a, i :: is => ∃ b, p.code a = some (i, b) ∧ Located p b is

theorem access_of_kernel (h : c.userMode = false) : Access p c a :=
  fun h' => absurd (h.symm.trans h') Bool.false_ne_true

theorem storeAccess_of_kernel (h : c.userMode = false) : StoreAccess p c a :=
  fun h' => absurd (h.symm.trans h') Bool.false_ne_true

/-- A byte of a word, by its distance from the start. -/
theorem byte_of_inWord {x : Word} (hx : InWord a x) :
    ∃ i < 8, a + BitVec.ofNat 64 i = x := by
  refine ⟨(x - a).toNat, hx, ?_⟩
  rw [BitVec.ofNat_toNat, BitVec.setWidth_eq, BitVec.add_comm, BitVec.sub_add_cancel]

theorem inWord_user (h : p.UserWord a) {x : Word} (hx : InWord a x) : p.user x = true := by
  obtain ⟨i, hi, rfl⟩ := byte_of_inWord hx
  exact h i hi

theorem inWord_userWrite (h : p.WritableWord a) {x : Word} (hx : InWord a x) :
    p.userWrite x = true := by
  obtain ⟨i, hi, rfl⟩ := byte_of_inWord hx
  exact h i hi

end Cpu
