/-
`breakpoint_handler` of `interrupts.rs`, on the machine of `Cpu.lean`.

The handler is written in assembly: it saves `r10` and `r11`, calls `my_write`,
which is any code that keeps to the System V convention (`MyWriteReturns`), and
ends with `iretq`.  `int3` enters it through the gate of `Exceptions.lean`.

* `readWord_pushWords` — the words of a frame are read back;
* `handler_calls`, `handler_returns` — the two straight pieces of code;
* `breakpoint_resumes` — the code after `int3` goes on with its own `rip`, `rsp`,
  flags, `r10`, `r11` and saved registers, and with what `my_write` left in the
  others; and `my_write` is never called with the stack aligned as System V
  wants it.
-/
import ZuluOs.Exceptions
import ZuluOs.SyscallEntry

open ByteMemory Transition Exceptions SyscallEntry

namespace Breakpoint

/-! ### The code -/

/-- `breakpoint_handler` once `my_write` is back, up to its `iretq`. -/
def breakpointHandlerExit : List Instr := [.pop .r11, .pop .r10]

/-- `breakpoint_handler` up to its `iretq`, with the address of `my_write`. -/
def breakpointHandler (myWrite : Word) : List Instr :=
  [.push .r10, .push .r11, .call myWrite] ++ breakpointHandlerExit

/-- The instructions stand one after another from `a` on, and `z` is the address
after them. -/
def Spans (p : Platform) : Word → List Instr → Word → Prop
  | a, [], z => a = z
  | a, i :: is, z => ∃ b, p.code a = some (i, b) ∧ Spans p b is z

/-- The flags that `iretq` loads in kernel mode. -/
def iretFlags (w : Word) : Word := (w &&& 0x3F7FD7) ||| 2

/-- The flags that an interrupt gate clears: interrupts, single steps, nested
tasks and resumption. -/
def gateFlags : Word := 0x14300

end Breakpoint

namespace Cpu

open Breakpoint

/-- The code that `int3` interrupts, which goes on at `after`. -/
def context (c : Cpu) (after cs ss : Word) : Context :=
  ⟨⟨after, cs, c.rflags, c.regs .rsp, ss⟩, c.userMode, c.mem⟩

/-- The processor when a handler starts. -/
def entering (c : Cpu) (e : Entry) (handler : Word) : Cpu :=
  { (c.set .rsp e.rsp).goto handler with
    rflags := c.rflags &&& ~~~gateFlags
    userMode := false
    mem := e.mem }

theorem entering_rsp (c : Cpu) (e : Entry) (handler : Word) :
    (c.entering e handler).regs .rsp = e.rsp := set_regs_self c .rsp e.rsp

theorem entering_regs_of_ne (c : Cpu) (e : Entry) (handler : Word) {r : Reg} (h : r ≠ .rsp) :
    (c.entering e handler).regs r = c.regs r := set_regs_of_ne c e.rsp h

/-- `iretq`: the frame is popped, and its code segment says which mode follows. -/
def iretq (c : Cpu) : Option Cpu :=
  let rsp := c.regs .rsp
  if Canonical (readWord c.mem rsp).toNat then
    some (((c.set .rsp (readWord c.mem (rsp + 24#64))).switch
      (readWord c.mem (rsp + 8#64) &&& 3#64 != 0#64)
      (iretFlags (readWord c.mem (rsp + 16#64)))).goto (readWord c.mem rsp))
  else none

end Cpu

namespace Breakpoint

/-- The contract of `my_write`, called in `e` and back in `b`: the two words the
handler has pushed and the five of the frame are left alone. -/
structure MyWriteReturns (e b : Cpu) : Prop where
  rip : b.rip = readWord e.mem (e.regs .rsp)
  rsp : b.regs .rsp = e.regs .rsp + 8#64
  saved : ∀ r ∈ savedRegs, b.regs r = e.regs r
  userMode : b.userMode = e.userMode
  words : ∀ i < 7, readWord b.mem (e.regs .rsp + .ofNat 64 (8 * (i + 1)))
    = readWord e.mem (e.regs .rsp + .ofNat 64 (8 * (i + 1)))

/-! ### The frame -/

/-- The words that were pushed are read back. -/
theorem readWord_pushWords {ws : List Word} {top w : Word} {mem : ByteMemory} {k : ℕ}
    (hlen : 8 * ws.length < 2 ^ 63) (hk : ws[k]? = some w) :
    readWord (pushWords ws top mem) (top - .ofNat 64 (8 * (k + 1))) = w := by
  induction ws generalizing top mem k with
  | nil => cases hk
  | cons v ws ih =>
    rw [List.length_cons] at hlen
    rw [pushWords]
    cases k with
    | zero =>
      -- what is pushed after it goes below it
      obtain rfl := Option.some.inj hk
      have hword : readWord (pushWords ws (top - 8#64) (writeWord mem (top - 8#64) v)) (top - 8#64)
          = readWord (writeWord mem (top - 8#64) v) (top - 8#64) := by
        refine readWord_congr fun x hx => pushWords_of_ne fun i hi hle heq => ?_
        change (x - (top - 8#64)).toNat < 8 at hx
        rw [heq] at hx
        bv_omega
      exact hword.trans readWord_writeWord_self
    | succ k =>
      have hsub : top - .ofNat 64 (8 * (k + 1 + 1)) = top - 8#64 - .ofNat 64 (8 * (k + 1)) := by
        rw [show 8 * (k + 1 + 1) = 8 + 8 * (k + 1) by omega, BitVec.ofNat_add]
        ring
      rw [hsub]
      exact ih (by omega) hk

variable {m : Machine} {p : Platform} {c s b t : Cpu} {e : Entry}
  {after cs ss handler myWrite iret : Word}

/-- Where there is room for `n` bytes there is room for fewer. -/
theorem pushFault_of_le {pt : PageTable} {top : Word} {n k : ℕ} (hk : k ≤ n)
    (h : pushFault pt (top - .ofNat 64 n) n = none) :
    pushFault pt (top - .ofNat 64 k) k = none := by
  unfold pushFault at h
  split at h
  · next hcanon =>
    split at h
    · next hwritable =>
      have hsame : ∀ i, top - .ofNat 64 k + .ofNat 64 i
          = top - .ofNat 64 n + .ofNat 64 (n - k + i) := by
        intro i
        rw [show n = n - k + k by omega, BitVec.ofNat_add, BitVec.ofNat_add,
          show n - k + k - k = n - k by omega]
        ring
      refine (if_pos fun i hi => ?_).trans (if_pos fun i hi => ?_)
      · rw [hsame]
        exact hcanon _ (by omega)
      · rw [hsame]
        exact hwritable _ (by omega)
    · cases h
  · cases h

/-- Where `int3` puts the frame, if there is room. -/
theorem deliver_int3 (hkernel : c.userMode = false)
    (hroom : pushFault m.pt (alignDown (c.regs .rsp) - 40#64) 40 = none) :
    ∃ e, m.deliver ⟨.breakpoint, 0⟩ (c.context after cs ss) = .ok e ∧
      e.rsp = alignDown (c.regs .rsp) - 40#64 ∧ e.mem
        = pushWords [ss, c.regs .rsp, c.rflags, cs, after] (alignDown (c.regs .rsp)) c.mem := by
  have hstack : m.stackFor ⟨.breakpointHandler, none⟩ (c.context after cs ss) = c.regs .rsp := by
    rw [Machine.stackFor]
    simp [Cpu.context, hkernel]
  have hwords : frameWords ⟨.breakpoint, 0⟩ (c.context after cs ss).frame
      = [ss, c.regs .rsp, c.rflags, cs, after] := rfl
  rw [Machine.deliver]
  dsimp only [IDT]
  rw [if_neg (by simp [Cpu.context, hkernel]), hstack, hwords]
  dsimp only [List.length]
  rw [hroom]
  exact ⟨_, rfl, rfl, rfl⟩

/-! ### Straight pieces of code -/

/-- The handler up to its `call`: `s` is at the handler and `d` at `my_write`,
which returns to `back`. -/
structure Called (myWrite back : Word) (s d : Cpu) : Prop where
  rip : d.rip = myWrite
  userMode : d.userMode = false
  rsp : d.regs .rsp = s.regs .rsp - 24#64
  others : ∀ r ≠ .rsp, d.regs r = s.regs r
  mem : d.mem = writeWord (writeWord (writeWord s.mem (s.regs .rsp - 8#64) (s.regs .r10))
    (s.regs .rsp - 16#64) (s.regs .r11)) (s.regs .rsp - 24#64) back

theorem handler_calls (hcode : Spans p s.rip (breakpointHandler myWrite) iret)
    (hmy : p.code myWrite = none) (hmode : s.userMode = false) :
    ∃ back d, Spans p back breakpointHandlerExit iret ∧ Called myWrite back s d ∧
      RunsUntil (Cpu.next p) (·.rip = myWrite) s d := by
  obtain ⟨a₁, h₀, a₂, h₁, a₃, h₂, hexit⟩ := hcode
  have hne : ∀ {c : Cpu} {i : Instr × Word}, p.code c.rip = some i → ¬ c.rip = myWrite := by
    intro c i h hrip
    rw [hrip, hmy] at h
    cases h
  refine ⟨a₃, _, hexit, ?_,
    runsUntil_exec h₀ (hne h₀) (if_pos (Cpu.storeAccess_of_kernel hmode)) <|
    runsUntil_exec h₁ (hne h₁) (if_pos (Cpu.storeAccess_of_kernel hmode)) <|
    runsUntil_exec h₂ (hne h₂) (if_pos (Cpu.storeAccess_of_kernel hmode)) <| .here rfl⟩
  constructor
  case others =>
    intro r hr
    simp [hr]
  all_goals simp [hmode, sub_eight_sub_eight, sub_sixteen_sub_eight]

/-- The handler after its `call`: `my_write` is back in `b`, and `t` is at the
`iretq`. -/
structure Popped (iret : Word) (b t : Cpu) : Prop where
  rip : t.rip = iret
  r11 : t.regs .r11 = readWord b.mem (b.regs .rsp)
  r10 : t.regs .r10 = readWord b.mem (b.regs .rsp + 8#64)
  rsp : t.regs .rsp = b.regs .rsp + 16#64
  others : ∀ r ∉ [Reg.rsp, .r10, .r11], t.regs r = b.regs r
  mem : t.mem = b.mem

theorem handler_returns (hcode : Spans p b.rip breakpointHandlerExit iret)
    (hiret : p.code iret = none) (hmode : b.userMode = false) :
    ∃ t, Popped iret b t ∧ RunsUntil (Cpu.next p) (·.rip = iret) b t := by
  obtain ⟨a₁, h₀, a₂, h₁, rfl⟩ := hcode
  have hne : ∀ {c : Cpu} {i : Instr × Word}, p.code c.rip = some i → ¬ c.rip = a₂ := by
    intro c i h hrip
    rw [hrip, hiret] at h
    cases h
  refine ⟨_, ?_,
    runsUntil_exec h₀ (hne h₀) (if_pos (Cpu.access_of_kernel hmode)) <|
    runsUntil_exec h₁ (hne h₁) (if_pos (Cpu.access_of_kernel hmode)) <| .here rfl⟩
  constructor
  case others =>
    intro r hr
    simp only [List.mem_cons, List.not_mem_nil, or_false, not_or] at hr
    simp [hr]
  all_goals simp [add_eight_add_eight]

/-! ### The way back -/

theorem alignDown_dvd (a : Word) : 16 ∣ (alignDown a).toNat := by
  have hle := Nat.mod_le a.toNat 16
  have hlt := a.isLt
  unfold alignDown
  refine Nat.dvd_of_mod_eq_zero ?_
  rw [BitVec.toNat_sub, BitVec.toNat_ofNat]
  omega

/-- The words of the frame, when `my_write` is back. -/
theorem readWord_frame {top back : Word} {ws : List Word} {mem : ByteMemory} {d : Cpu}
    (hrsp : s.regs .rsp = top - 40#64) (hmem : s.mem = pushWords ws top mem)
    (hlen : ws.length = 5) (hd : Called myWrite back s d) (hb : MyWriteReturns d b) {k : ℕ}
    {w : Word} (hk : ws[k]? = some w) : readWord b.mem (top - .ofNat 64 (8 * (k + 1))) = w := by
  have hlt : k < 5 := hlen ▸ (List.getElem?_eq_some_iff.mp hk).1
  have haddr : top - .ofNat 64 (8 * (k + 1)) = d.regs .rsp + .ofNat 64 (8 * (6 - k + 1)) := by
    rw [hd.rsp, hrsp]
    bv_omega
  -- the three words that the handler has pushed since are below the frame
  have hbelow : ∀ a ∈ [s.regs .rsp - 8#64, s.regs .rsp - 16#64, s.regs .rsp - 24#64],
      Apart a (top - .ofNat 64 (8 * (k + 1))) := by
    intro a ha
    rw [hrsp] at ha
    simp only [List.mem_cons, List.not_mem_nil, or_false] at ha
    rcases ha with rfl | rfl | rfl <;> exact apart_of_le (by bv_omega) (by bv_omega)
  have hword : readWord b.mem (top - .ofNat 64 (8 * (k + 1)))
      = readWord d.mem (top - .ofNat 64 (8 * (k + 1))) := by
    rw [haddr]
    exact hb.words (6 - k) (by omega)
  rw [hword, hd.mem, readWord_writeWord_of_apart (hbelow _ (by simp)),
    readWord_writeWord_of_apart (hbelow _ (by simp)),
    readWord_writeWord_of_apart (hbelow _ (by simp)), hmem]
  exact readWord_pushWords (by omega) hk

/-- The two words the handler has pushed, when `my_write` is back. -/
theorem readWord_saved {back : Word} {d : Cpu} (hd : Called myWrite back s d)
    (hb : MyWriteReturns d b) :
    readWord b.mem (b.regs .rsp) = s.regs .r11 ∧
      readWord b.mem (b.regs .rsp + 8#64) = s.regs .r10 := by
  obtain ⟨h₁, h₂, h₃⟩ := apart_slots (s.regs .rsp)
  have hr11 : b.regs .rsp = s.regs .rsp - 16#64 := by
    rw [hb.rsp, hd.rsp]
    bv_omega
  have hr10 : b.regs .rsp + 8#64 = s.regs .rsp - 8#64 := by
    rw [hr11]
    bv_omega
  have hword₁ : readWord b.mem (b.regs .rsp) = readWord d.mem (s.regs .rsp - 16#64) := by
    rw [← hr11, hb.rsp]
    exact hb.words 0 (by omega)
  have hword₂ : readWord b.mem (b.regs .rsp + 8#64) = readWord d.mem (s.regs .rsp - 8#64) := by
    rw [← hr10, hb.rsp, add_eight_add_eight]
    exact hb.words 1 (by omega)
  rw [hword₁, hword₂, hd.mem]
  constructor
  · rw [readWord_writeWord_of_apart h₁, readWord_writeWord_self]
  · rw [readWord_writeWord_of_apart h₂, readWord_writeWord_of_apart h₃, readWord_writeWord_self]

theorem saved_kept : ∀ r ∈ savedRegs, r ∉ [Reg.rsp, .r10, .r11] ∧ r ≠ .rsp := by
  decide

/-- How the interrupted code `c` goes on in `u`, when `my_write` was back in `b`. -/
structure Resumed (c : Cpu) (after : Word) (b u : Cpu) : Prop where
  rip : u.rip = after
  rsp : u.regs .rsp = c.regs .rsp
  rflags : u.rflags = c.rflags
  userMode : u.userMode = false
  kept : ∀ r ∈ [Reg.r10, .r11] ++ savedRegs, u.regs r = c.regs r
  others : ∀ r ∉ [Reg.rsp, .r10, .r11], u.regs r = b.regs r
  mem : u.mem = b.mem

/-- **Breakpoints in the kernel.**  If there is room on the stack for the frame, the
two registers and the return address, `my_write` is called with the registers of
the code that executed `int3`, on a stack that is never aligned as System V wants
it; and when it returns, that code goes on after its `int3` with its own `rsp`,
flags, `r10`, `r11` and the registers that `my_write` saves.  In the others it finds
what `my_write` left there. -/
theorem breakpoint_resumes (hcode : Spans p handler (breakpointHandler myWrite) iret)
    (hmy : p.code myWrite = none) (hiret : p.code iret = none) (hkernel : c.userMode = false)
    (hcs : cs &&& 3#64 = 0#64) (hafter : Canonical after.toNat)
    (hflags : iretFlags c.rflags = c.rflags)
    (hroom : pushFault m.pt (alignDown (c.regs .rsp) - 64#64) 64 = none) :
    ∃ e d, m.deliver ⟨.breakpoint, 0⟩ (c.context after cs ss) = .ok e ∧
      RunsUntil (Cpu.next p) (·.rip = myWrite) (c.entering e handler) d ∧
      (∀ r ≠ .rsp, d.regs r = c.regs r) ∧ ¬ 16 ∣ (d.regs .rsp + 8#64).toNat ∧
      ∀ b, MyWriteReturns d b → ∃ t u, RunsUntil (Cpu.next p) (·.rip = iret) b t ∧
        t.iretq = some u ∧ Resumed c after b u := by
  obtain ⟨e, he, hrsp, hmem⟩ := deliver_int3 hkernel (pushFault_of_le (by decide) hroom)
  obtain ⟨back, d, hexit, hd, hrun⟩ :=
    handler_calls (s := c.entering e handler) hcode hmy rfl
  have hsp : (c.entering e handler).regs .rsp = alignDown (c.regs .rsp) - 40#64 :=
    (c.entering_rsp e handler).trans hrsp
  have hregs : ∀ r ≠ .rsp, d.regs r = c.regs r :=
    fun r hr => (hd.others r hr).trans (c.entering_regs_of_ne e handler hr)
  refine ⟨e, d, he, hrun, hregs, ?_, fun b hb => ?_⟩
  · have hdvd := alignDown_dvd (c.regs .rsp)
    rw [hd.rsp, hsp]
    generalize alignDown (c.regs .rsp) = top at hdvd
    bv_omega
  have hback : b.rip = back := by
    rw [hb.rip, hd.rsp, hd.mem, readWord_writeWord_self]
  obtain ⟨t, ht, hreturn⟩ := handler_returns (hback ▸ hexit) hiret (hb.userMode.trans hd.userMode)
  obtain ⟨hr11, hr10⟩ := readWord_saved hd hb
  have htop : t.regs .rsp = alignDown (c.regs .rsp) - 40#64 := by
    rw [ht.rsp, hb.rsp, hd.rsp, hsp]
    bv_omega
  -- `iretq` finds the frame as `int3` has pushed it
  have hframe : ∀ (k n : ℕ) (w : Word), [ss, c.regs .rsp, c.rflags, cs, after][k]? = some w →
      40 = n + 8 * (k + 1) → readWord t.mem (t.regs .rsp + .ofNat 64 n) = w := by
    intro k n w hk hn
    have haddr : t.regs .rsp + .ofNat 64 n
        = alignDown (c.regs .rsp) - .ofNat 64 (8 * (k + 1)) := by
      rw [htop]
      bv_omega
    rw [haddr, ht.mem]
    exact readWord_frame hsp hmem rfl hd hb hk
  have hrip : readWord t.mem (t.regs .rsp) = after := by
    rw [← BitVec.add_zero (t.regs .rsp)]
    exact hframe 4 0 after rfl rfl
  have hiretq : t.iretq = some (((t.set .rsp (c.regs .rsp)).switch false c.rflags).goto after) := by
    rw [Cpu.iretq, hrip, if_pos hafter, hframe 1 24 _ rfl rfl, hframe 2 16 _ rfl rfl, hframe 3 8 _ rfl rfl,
      hcs, hflags]
    rfl
  have hothers : ∀ r ∉ [Reg.rsp, .r10, .r11],
      (((t.set .rsp (c.regs .rsp)).switch false c.rflags).goto after).regs r = b.regs r := by
    intro r hr
    rw [Cpu.goto_regs, Cpu.switch_regs, Cpu.set_regs_of_ne _ _ (List.ne_of_not_mem_cons hr)]
    exact ht.others r hr
  refine ⟨t, _, hreturn, hiretq, ?_⟩
  constructor
  case kept =>
    intro r hr
    rcases List.mem_append.mp hr with hpushed | hsaved
    · simp only [List.mem_cons, List.not_mem_nil, or_false] at hpushed
      rcases hpushed with rfl | rfl
      · simp [ht.r10, hr10, Cpu.entering_regs_of_ne]
      · simp [ht.r11, hr11, Cpu.entering_regs_of_ne]
    · obtain ⟨hnot, hne⟩ := saved_kept r hsaved
      rw [hothers r hnot, hb.saved r hsaved, hregs r hne]
  case others => exact hothers
  case mem => exact ht.mem
  all_goals simp

/-- The handler at `0x9000`, and its `iretq` at `0x9005`. -/
def handlerPlatform : Platform where
  code := layOut [(0x9000#64, breakpointHandler 0xA000#64)]
  user _ := false
  userWrite _ := false
  user_of_userWrite _ h := h
  lstar := 0#64
  sfmask := 0#64

/-- The kernel on the privileged stack, in front of an `int3`. -/
def kernelCpu : Cpu where
  regs r := if r = .rsp then 0x20E000#64 else 7#64
  rip := 0x1000#64
  rflags := 2#64
  gsBase := 0#64
  kernelGsBase := 0#64
  userMode := false
  mem _ := 0#8

theorem myWriteReturns_ret (e : Cpu) :
    MyWriteReturns e ((e.set .rsp (e.regs .rsp + 8#64)).goto (readWord e.mem (e.regs .rsp))) := by
  constructor
  case saved => simp [savedRegs]
  all_goals simp

theorem breakpoint_resumes_int3 :
    ∃ e d b t u, (sampleMachine arraysTable).deliver ⟨.breakpoint, 0⟩
        (kernelCpu.context 0x1001#64 8#64 0#64) = .ok e ∧
      RunsUntil (Cpu.next handlerPlatform) (·.rip = 0xA000#64) (kernelCpu.entering e 0x9000#64) d ∧
      ¬ 16 ∣ (d.regs .rsp + 8#64).toNat ∧ MyWriteReturns d b ∧
      RunsUntil (Cpu.next handlerPlatform) (·.rip = 0x9005#64) b t ∧ t.iretq = some u ∧
      u.rip = 0x1001#64 := by
  obtain ⟨e, d, he, hrun, -, haligned, hback⟩ := @breakpoint_resumes (sampleMachine arraysTable)
    handlerPlatform kernelCpu 0x1001#64 8#64 0#64 0x9000#64 0xA000#64 0x9005#64
    ⟨_, rfl, _, rfl, _, rfl, _, rfl, _, rfl, rfl⟩ rfl rfl rfl rfl (.inl (by decide)) (by decide)
    (by decide +kernel)
  obtain ⟨t, u, hreturn, hiretq, hu⟩ := hback _ (myWriteReturns_ret d)
  exact ⟨e, d, _, t, u, he, hrun, haligned, myWriteReturns_ret d, hreturn, hiretq, hu.rip⟩

end Breakpoint
