/-
What becomes of an exception: `IDT` of `interrupts.rs`, `TSS` of `gdt.rs`, and
`page_fault_handler`.

The processor looks up the handler, picks a stack and pushes a frame there; an
exception on the way is raised in place of the first one, or becomes a double
fault, and if that cannot be delivered either the machine shuts down.  Page
faults and double faults have stacks of their own in the TSS, and there is one
for what else comes from user mode.  `page_fault_handler` then reads the word at
the stack pointer of the code that was interrupted, which is as good or bad as
that code left it.

This goes up to where a handler has taken over: it is entered and, if it is
`page_fault_handler`, past that read.  What it prints then, and whether it gets
the lock of the screen for it, is the subject of `Interrupts`.

* `raise_pageFault`, `raise_doubleFault`, `raise_noGate` — who takes over;
* `exceptions_delivered` — a handler always takes over, whatever the stack
  pointer is, and the machine does not shut down on the way;
* `kernelMain_exceptions` — what the exceptions of user code come to after the
  boot.
-/
import ZuluOs.ByteMemory
import ZuluOs.UserMemory

open ByteMemory Transition PageTableFlags

namespace Exceptions

/-! ### The tables -/

/-- The exceptions that instructions raise. -/
inductive Vector where
  | divideError
  | debug
  | breakpoint
  | overflow
  | boundRangeExceeded
  | invalidOpcode
  | deviceNotAvailable
  | doubleFault
  | invalidTss
  | segmentNotPresent
  | stackSegmentFault
  | generalProtectionFault
  | pageFault
  | x87FloatingPoint
  | alignmentCheck
  | simdFloatingPoint
deriving DecidableEq, Repr

def Vector.number : Vector → ℕ
  | divideError => 0
  | debug => 1
  | breakpoint => 3
  | overflow => 4
  | boundRangeExceeded => 5
  | invalidOpcode => 6
  | deviceNotAvailable => 7
  | doubleFault => 8
  | invalidTss => 10
  | segmentNotPresent => 11
  | stackSegmentFault => 12
  | generalProtectionFault => 13
  | pageFault => 14
  | x87FloatingPoint => 16
  | alignmentCheck => 17
  | simdFloatingPoint => 19

/-- The processor pushes an error code after the frame. -/
def Vector.pushesCode : Vector → Bool
  | doubleFault => true
  | invalidTss => true
  | segmentNotPresent => true
  | stackSegmentFault => true
  | generalProtectionFault => true
  | pageFault => true
  | alignmentCheck => true
  | _ => false

/-- The handlers of `interrupts.rs`. -/
inductive Handler where
  | breakpointHandler
  | divideErrorHandler
  | doubleFaultHandler
  | pageFaultHandler
deriving DecidableEq, Repr

structure Gate where
  handler : Handler
  stackIndex : Option (Fin 7)

def DOUBLE_FAULT_STACK_INDEX : Fin 7 := 0
def PAGE_FAULT_STACK_INDEX : Fin 7 := 1

/-- `IDT`; the other gates are not present. -/
def IDT : Vector → Option Gate
  | .breakpoint => some ⟨.breakpointHandler, none⟩
  | .divideError => some ⟨.divideErrorHandler, none⟩
  | .doubleFault => some ⟨.doubleFaultHandler, some DOUBLE_FAULT_STACK_INDEX⟩
  | .pageFault => some ⟨.pageFaultHandler, some PAGE_FAULT_STACK_INDEX⟩
  | _ => none

/-- The size of each of the three arrays `STACK`. -/
def STACK_SIZE : ℕ := 1024 * 20

/-- Where they are. -/
structure Stacks where
  doubleFault : Word
  pageFault : Word
  privileged : Word

def Stacks.starts (s : Stacks) : List Word := [s.doubleFault, s.pageFault, s.privileged]

structure TaskStateSegment where
  interruptStackTable : Fin 7 → Word
  privilegeStackTable : Fin 3 → Word

/-- `TSS`; stacks grow downwards, so each entry is the end of an array. -/
def TSS (s : Stacks) : TaskStateSegment where
  interruptStackTable i :=
    if i = DOUBLE_FAULT_STACK_INDEX then s.doubleFault + .ofNat 64 STACK_SIZE
    else if i = PAGE_FAULT_STACK_INDEX then s.pageFault + .ofNat 64 STACK_SIZE
    else 0
  privilegeStackTable i := if i = 0 then s.privileged + .ofNat 64 STACK_SIZE else 0

/-- The stack that the processor changes to when it leaves user mode. -/
def Stacks.fromUser (s : Stacks) : Word := (TSS s).privilegeStackTable 0

/-! ### Memory, as kernel code and the processor access it -/

def readable (pt : PageTable) (a : Word) : Bool :=
  if h : Canonical a.toNat then
    match pt.translate ⟨a.toNat, h⟩ with
    | .mapped _ _ => true
    | _ => false
  else false

def writable (pt : PageTable) (a : Word) : Bool :=
  if h : Canonical a.toNat then
    match pt.translate ⟨a.toNat, h⟩ with
    | .mapped _ flags => flags.contains WRITABLE
    | _ => false
  else false

structure Fault where
  vector : Vector
  code : Word
deriving DecidableEq

/-- What a read of the word at `a` raises. -/
def readFault (pt : PageTable) (a : Word) : Option Fault :=
  if ∀ i < 8, Canonical (a + .ofNat 64 i).toNat then
    if ∀ i < (8 : ℕ), readable pt (a + .ofNat 64 i) then none else some ⟨.pageFault, 0⟩
  else some ⟨.generalProtectionFault, 0⟩

/-- What pushing the `n` bytes from `a` on raises. -/
def pushFault (pt : PageTable) (a : Word) (n : ℕ) : Option Fault :=
  if ∀ i < n, Canonical (a + .ofNat 64 i).toNat then
    if ∀ i < n, writable pt (a + .ofNat 64 i) then none
    else some ⟨.pageFault, if ∀ i < n, readable pt (a + .ofNat 64 i) then 3 else 2⟩
  else some ⟨.stackSegmentFault, 0⟩

/-! ### The processor -/

/-- `InterruptStackFrame`: where and how the interrupted code runs. -/
structure InterruptStackFrame where
  instructionPointer : Word
  codeSegment : Word
  cpuFlags : Word
  stackPointer : Word
  stackSegment : Word
deriving DecidableEq

/-- The code that is interrupted. -/
structure Context where
  frame : InterruptStackFrame
  userMode : Bool
  mem : ByteMemory

/-- A handler at its first instruction. -/
structure Entry where
  handler : Handler
  frame : InterruptStackFrame
  code : Word
  rsp : Word
  mem : ByteMemory

/-- The words of the frame, in the order in which they are pushed. -/
def frameWords (x : Fault) (f : InterruptStackFrame) : List Word :=
  [f.stackSegment, f.stackPointer, f.cpuFlags, f.codeSegment, f.instructionPointer]
    ++ if x.vector.pushesCode then [x.code] else []

/-- Push words from `top` downwards. -/
def pushWords : List Word → Word → ByteMemory → ByteMemory
  | [], _, mem => mem
  | w :: ws, top, mem => pushWords ws (top - 8#64) (writeWord mem (top - 8#64) w)

/-- Frames start at multiples of 16. -/
def alignDown (a : Word) : Word := a - .ofNat 64 (a.toNat % 16)

/-- What the processor and the handlers rely on. -/
structure Machine where
  pt : PageTable
  arrays : Stacks
  /-- The state of `page_fault_handler` where it reads the word, given its `rsp`
  at entry, of which it has used `depth` bytes by then. -/
  atRead : Word → InterruptStackFrame
  depth : ℕ
  atRead_stackPointer : ∀ rsp, (atRead rsp).stackPointer = rsp - .ofNat 64 depth
  depth_le : depth + 64 ≤ STACK_SIZE

namespace Machine

variable (m : Machine)

/-- The stack for a handler. -/
def stackFor (g : Gate) (c : Context) : Word :=
  match g.stackIndex with
  | some i => (TSS m.arrays).interruptStackTable i
  | none =>
    if c.userMode then m.arrays.fromUser else c.frame.stackPointer

/-- Deliver an exception, or find that there is another one. -/
def deliver (x : Fault) (c : Context) : Except Fault Entry :=
  match IDT x.vector with
  | none => .error ⟨.segmentNotPresent, .ofNat 64 (8 * x.vector.number + 3)⟩
  | some g =>
    -- `set_handler_fn` leaves the privilege level of a gate at 0, which `int3` checks
    if x.vector = .breakpoint ∧ c.userMode = true then
      .error ⟨.generalProtectionFault, .ofNat 64 (8 * x.vector.number + 2)⟩
    else
      let words := frameWords x c.frame
      let top := alignDown (m.stackFor g c)
      let rsp := top - .ofNat 64 (8 * words.length)
      match pushFault m.pt rsp (8 * words.length) with
      | some y => .error y
      | none => .ok ⟨g.handler, c.frame, x.code, rsp, pushWords words top c.mem⟩

end Machine

inductive Severity where
  | benign
  | contributory
  | pageFault
  | doubleFault
deriving DecidableEq

def Vector.severity : Vector → Severity
  | divideError => .contributory
  | invalidTss => .contributory
  | segmentNotPresent => .contributory
  | stackSegmentFault => .contributory
  | generalProtectionFault => .contributory
  | pageFault => .pageFault
  | doubleFault => .doubleFault
  | _ => .benign

/-- What is raised when `y` comes up in the delivery of `x`, if anything can be. -/
def escalate (x y : Fault) : Option Fault :=
  match x.vector.severity, y.vector.severity with
  | .doubleFault, _ => none
  | .contributory, .contributory => some ⟨.doubleFault, 0⟩
  | .pageFault, .contributory => some ⟨.doubleFault, 0⟩
  | .pageFault, .pageFault => some ⟨.doubleFault, 0⟩
  | _, _ => some y

/-- A handler with the data of its message. -/
inductive Report where
  | breakpoint (frame : InterruptStackFrame)
  | divideError (frame : InterruptStackFrame)
  | doubleFault (code : Word) (frame : InterruptStackFrame)
  | pageFault (code : Word) (frame : InterruptStackFrame) (topOfStack : Word)
deriving DecidableEq

inductive State where
  | raising (x : Fault) (c : Context)
  | handling (e : Entry)
  /-- The handler has all that it will print. -/
  | taken (r : Report)
  | shutdown

/-- A handler has taken over, or nothing runs any more. -/
def State.Final : State → Prop
  | taken _ => True
  | shutdown => True
  | _ => False

namespace Machine

/-- `page_fault_handler`, up to its panic. -/
def pageFaultHandler (m : Machine) (e : Entry) : State :=
  match readFault m.pt e.frame.stackPointer with
  | none => .taken (.pageFault e.code e.frame (readWord e.mem e.frame.stackPointer))
  | some y => .raising y ⟨m.atRead e.rsp, false, e.mem⟩

def next (m : Machine) : State → Option State
  | .raising x c =>
    match m.deliver x c with
    | .ok e => some (.handling e)
    | .error y =>
      match escalate x y with
      | some z => some (.raising z c)
      | none => some .shutdown
  | .handling e =>
    match e.handler with
    | .breakpointHandler => some (.taken (.breakpoint e.frame))
    | .divideErrorHandler => some (.taken (.divideError e.frame))
    | .doubleFaultHandler => some (.taken (.doubleFault e.code e.frame))
    | .pageFaultHandler => some (m.pageFaultHandler e)
  | .taken _ => none
  | .shutdown => none

end Machine

/-! ### The stacks of the TSS -/

/-- The byte is one of the array that starts at `start`. -/
def OnStack (start x : Word) : Prop := ∃ j < STACK_SIZE, x = start + .ofNat 64 j

/-- The three arrays are in memory that can be written. -/
def Machine.Mapped (m : Machine) : Prop :=
  ∀ start ∈ m.arrays.starts, ∀ x, OnStack start x → writable m.pt x = true

variable {m : Machine} {pt : PageTable} {x : Fault} {c : Context} {s : State} {start a : Word}

theorem canonical_of_writable (h : writable pt a = true) : Canonical a.toNat := by
  unfold writable at h
  split at h
  · assumption
  · cases h

theorem readable_of_writable (h : writable pt a = true) : readable pt a = true := by
  have hc := canonical_of_writable h
  rw [writable, dif_pos hc] at h
  rw [readable, dif_pos hc]
  split at h
  · rfl
  · cases h

theorem alignDown_sub_add {n k i : ℕ} (hk : 15 + k ≤ n) :
    alignDown (start + .ofNat 64 n) - .ofNat 64 k + .ofNat 64 i
      = start + .ofNat 64 (n - (start + .ofNat 64 n).toNat % 16 - k + i) := by
  have hr : (start + .ofNat 64 n).toNat % 16 < 16 := Nat.mod_lt _ (by decide)
  unfold alignDown
  generalize (start + .ofNat 64 n).toNat % 16 = r at hr
  have hn : n = n - r - k + r + k := by omega
  rw [BitVec.ofNat_add, hn, BitVec.ofNat_add, BitVec.ofNat_add, ← hn]
  ring

/-- What is pushed from the end of the array downwards is in the array. -/
theorem onStack_of_lt (start : Word) {k i : ℕ} (hk : 15 + k ≤ STACK_SIZE) (hi : i < k) :
    OnStack start (alignDown (start + .ofNat 64 STACK_SIZE) - .ofNat 64 k + .ofNat 64 i) :=
  ⟨_, by omega, alignDown_sub_add hk⟩

theorem onStack_sub (start : Word) {i : ℕ} (hi : 1 ≤ i) (hle : 15 + i ≤ STACK_SIZE) :
    OnStack start (alignDown (start + .ofNat 64 STACK_SIZE) - .ofNat 64 i) := by
  rw [← BitVec.add_zero (_ - _)]
  exact onStack_of_lt start hle hi

theorem pushFault_eq_none (hstack : ∀ x, OnStack start x → writable pt x = true) {n : ℕ}
    (hn : 15 + n ≤ STACK_SIZE) :
    pushFault pt (alignDown (start + .ofNat 64 STACK_SIZE) - .ofNat 64 n) n = none := by
  have hwritable := fun i (hi : i < n) => hstack _ (onStack_of_lt start hn hi)
  rw [pushFault, if_pos fun i hi => canonical_of_writable (hwritable i hi), if_pos hwritable]

theorem pushWords_of_ne {ws : List Word} {top x : Word} {mem : ByteMemory}
    (hx : ∀ i, 1 ≤ i → i ≤ 8 * ws.length → x ≠ top - .ofNat 64 i) :
    pushWords ws top mem x = mem x := by
  induction ws generalizing top mem with
  | nil => rfl
  | cons w ws ih =>
    rw [pushWords, ih, writeWord_of_not_inWord]
    · intro hin
      change (x - (top - 8#64)).toNat < 8 at hin
      refine hx (8 - (x - (top - 8#64)).toNat) (by omega) (by simp; omega) ?_
      bv_omega
    · intro i hi hle heq
      refine hx (8 + i) (by omega) (by simp; omega) ?_
      bv_omega

/-! ### Who takes over -/

theorem runs_of_deliver {e : Entry} (h : m.deliver x c = .ok e)
    (hrun : RunsUntil m.next State.Final (.handling e) s) :
    RunsUntil m.next State.Final (.raising x c) s :=
  .step id (by rw [Machine.next, h]) hrun

theorem runs_of_error {y z : Fault} (h : m.deliver x c = .error y) (hz : escalate x y = some z)
    (hrun : RunsUntil m.next State.Final (.raising z c) s) :
    RunsUntil m.next State.Final (.raising x c) s :=
  .step id (by rw [Machine.next, h]; dsimp only; rw [hz]) hrun

theorem runs_of_taken {e : Entry} {r : Report} (h : m.next (.handling e) = some (.taken r)) :
    RunsUntil m.next State.Final (.handling e) (.taken r) :=
  .step id h (.here trivial)

/-- A gate whose stack is mapped. -/
theorem deliver_of_stack {g : Gate} (hg : IDT x.vector = some g)
    (hint3 : ¬ (x.vector = .breakpoint ∧ c.userMode = true))
    (hstack : m.stackFor g c = start + .ofNat 64 STACK_SIZE)
    (hmapped : ∀ x, OnStack start x → writable m.pt x = true) :
    m.deliver x c = .ok ⟨g.handler, c.frame, x.code,
      alignDown (start + .ofNat 64 STACK_SIZE) - .ofNat 64 (8 * (frameWords x c.frame).length),
      pushWords (frameWords x c.frame) (alignDown (start + .ofNat 64 STACK_SIZE)) c.mem⟩ := by
  have hlen : 15 + 8 * (frameWords x c.frame).length ≤ STACK_SIZE := by
    unfold frameWords STACK_SIZE
    split <;> simp
  rw [Machine.deliver, hg]
  dsimp only
  rw [if_neg hint3, hstack, pushFault_eq_none hmapped hlen]

theorem raise_doubleFault (hm : m.Mapped) (code : Word) (c : Context) :
    RunsUntil m.next State.Final (.raising ⟨.doubleFault, code⟩ c)
      (.taken (.doubleFault code c.frame)) := by
  have hmapped := hm m.arrays.doubleFault (by simp [Stacks.starts])
  exact runs_of_deliver (deliver_of_stack rfl (by simp) rfl hmapped) (runs_of_taken rfl)

theorem severity_of_noGate {v : Vector} (h : IDT v = none) :
    v.severity = .benign ∨ v.severity = .contributory := by
  cases v <;> simp [IDT, Vector.severity] at h ⊢

/-- **Without a gate** an exception becomes a double fault. -/
theorem raise_noGate (hm : m.Mapped) (hgate : IDT x.vector = none) (c : Context) :
    RunsUntil m.next State.Final (.raising x c) (.taken (.doubleFault 0 c.frame)) := by
  have herror : ∀ x : Fault, IDT x.vector = none → m.deliver x c
      = .error ⟨.segmentNotPresent, .ofNat 64 (8 * x.vector.number + 3)⟩ := by
    intro x h
    rw [Machine.deliver, h]
  have hdouble := raise_doubleFault hm 0 c
  rcases severity_of_noGate hgate with hx | hx
  · -- the exception for a missing gate has no gate, either
    refine runs_of_error (herror x hgate) (by rw [escalate, hx]) ?_
    exact runs_of_error (herror _ rfl) rfl hdouble
  · exact runs_of_error (herror x hgate) (by rw [escalate, hx]; rfl) hdouble

/-! ### Page faults -/

/-- `rsp` when `page_fault_handler` is entered. -/
def Machine.pageFaultRsp (m : Machine) : Word :=
  alignDown (m.arrays.pageFault + .ofNat 64 STACK_SIZE) - .ofNat 64 48

/-- The memory then. -/
def Machine.pageFaultMem (m : Machine) (code : Word) (c : Context) : ByteMemory :=
  pushWords (frameWords ⟨.pageFault, code⟩ c.frame)
    (alignDown (m.arrays.pageFault + .ofNat 64 STACK_SIZE)) c.mem

/-- The frame of a page fault in `page_fault_handler`. -/
def Machine.handlerFrame (m : Machine) : InterruptStackFrame := m.atRead m.pageFaultRsp

theorem readFault_cases (pt : PageTable) (a : Word) :
    readFault pt a = none ∨ readFault pt a = some ⟨.pageFault, 0⟩ ∨
      readFault pt a = some ⟨.generalProtectionFault, 0⟩ := by
  unfold readFault
  split
  · split
    · exact .inl rfl
    · exact .inr (.inl rfl)
  · exact .inr (.inr rfl)

/-- What a page fault of the code `c` comes to. -/
structure PageFaultReport (m : Machine) (code : Word) (c : Context) (r : Report) : Prop where
  own : readFault m.pt c.frame.stackPointer = none → ∃ top, r = .pageFault code c.frame top ∧
    ((∀ x, InWord c.frame.stackPointer x → ¬ OnStack m.arrays.pageFault x) →
      top = readWord c.mem c.frame.stackPointer)
  nested : readFault m.pt c.frame.stackPointer = some ⟨.pageFault, 0⟩ →
    ∃ top, r = .pageFault 0 m.handlerFrame top
  double : readFault m.pt c.frame.stackPointer = some ⟨.generalProtectionFault, 0⟩ →
    r = .doubleFault 0 m.handlerFrame

/-- The processor gets to `page_fault_handler` from anywhere. -/
theorem deliver_pageFault (hm : m.Mapped) (code : Word) (c : Context) :
    m.deliver ⟨.pageFault, code⟩ c = .ok ⟨.pageFaultHandler, c.frame, code, m.pageFaultRsp,
      m.pageFaultMem code c⟩ :=
  deliver_of_stack (x := ⟨.pageFault, code⟩) rfl (by simp) rfl
    (hm m.arrays.pageFault (by simp [Stacks.starts]))

/-- The stack of `page_fault_handler` can be read. -/
theorem readFault_handlerFrame (hm : m.Mapped) :
    readFault m.pt m.handlerFrame.stackPointer = none := by
  have hmapped := hm m.arrays.pageFault (by simp [Stacks.starts])
  have hle := m.depth_le
  have hsub : m.handlerFrame.stackPointer
      = alignDown (m.arrays.pageFault + .ofNat 64 STACK_SIZE) - .ofNat 64 (48 + m.depth) := by
    rw [Machine.handlerFrame, m.atRead_stackPointer, Machine.pageFaultRsp, BitVec.ofNat_add]
    ring
  have hwritable : ∀ i < (8 : ℕ),
      writable m.pt (m.handlerFrame.stackPointer + .ofNat 64 i) = true := by
    intro i hi
    rw [hsub]
    exact hmapped _ (onStack_of_lt _ (by omega) (by omega))
  unfold readFault
  rw [if_pos fun i hi => canonical_of_writable (hwritable i hi)]
  exact if_pos fun i hi => readable_of_writable (hwritable i hi)

/-- What is pushed on the stack of `page_fault_handler` is not seen elsewhere. -/
theorem readWord_pageFaultMem {code : Word}
    (h : ∀ x, InWord a x → ¬ OnStack m.arrays.pageFault x) :
    readWord (m.pageFaultMem code c) a = readWord c.mem a := by
  refine readWord_congr fun x hx => pushWords_of_ne ?_
  rintro i hi hle rfl
  have hle : i ≤ 48 := hle
  exact h _ hx (onStack_sub _ hi (by unfold STACK_SIZE; omega))

theorem runs_of_readable (hm : m.Mapped) (code : Word)
    (hread : readFault m.pt c.frame.stackPointer = none) :
    RunsUntil m.next State.Final (.raising ⟨.pageFault, code⟩ c) (.taken (.pageFault code c.frame
      (readWord (m.pageFaultMem code c) c.frame.stackPointer))) := by
  refine runs_of_deliver (deliver_pageFault hm code c) (runs_of_taken ?_)
  rw [Machine.next]
  dsimp only
  delta Machine.pageFaultHandler
  rw [hread]

theorem runs_of_unreadable (hm : m.Mapped) (code : Word) {y : Fault}
    (hread : readFault m.pt c.frame.stackPointer = some y)
    (hrun : RunsUntil m.next State.Final
      (.raising y ⟨m.handlerFrame, false, m.pageFaultMem code c⟩) s) :
    RunsUntil m.next State.Final (.raising ⟨.pageFault, code⟩ c) s := by
  refine runs_of_deliver (deliver_pageFault hm code c) (.step id ?_ hrun)
  rw [Machine.next]
  dsimp only
  delta Machine.pageFaultHandler
  rw [hread]
  rfl

/-- **A page fault** gets past the read of `page_fault_handler`, at the second
attempt if the first one faults there, or becomes a double fault. -/
theorem raise_pageFault (hm : m.Mapped) (code : Word) (c : Context) :
    ∃ r, RunsUntil m.next State.Final (.raising ⟨.pageFault, code⟩ c) (.taken r) ∧
      PageFaultReport m code c r := by
  rcases readFault_cases m.pt c.frame.stackPointer with hread | hread | hread
  · refine ⟨_, runs_of_readable hm code hread, fun _ => ⟨_, rfl, readWord_pageFaultMem⟩, ?_, ?_⟩ <;>
      simp [hread]
  · -- the handler runs once more, for itself
    refine ⟨_, runs_of_unreadable hm code hread
      (runs_of_readable hm 0 (readFault_handlerFrame hm)), ?_, fun _ => ⟨_, rfl⟩, ?_⟩ <;>
      simp [hread]
  · refine ⟨_, runs_of_unreadable hm code hread (raise_noGate hm rfl _), ?_, ?_, fun _ => rfl⟩ <;>
      simp [hread]

/-! ### Every exception -/

/-- Exceptions of user code are pushed on the privileged stack. -/
theorem deliver_user (hm : m.Mapped) {g : Gate} (hg : IDT x.vector = some g)
    (hindex : g.stackIndex = none) (hint3 : x.vector ≠ .breakpoint) (huser : c.userMode = true) :
    ∃ rsp mem, m.deliver x c = .ok ⟨g.handler, c.frame, x.code, rsp, mem⟩ := by
  have hstack : m.stackFor g c = m.arrays.privileged + .ofNat 64 STACK_SIZE := by
    rw [Machine.stackFor, hindex, huser]
    rfl
  exact ⟨_, _, deliver_of_stack hg (fun h => hint3 h.1) hstack
    (hm m.arrays.privileged (by simp [Stacks.starts]))⟩

/-- `int3` in user code. -/
theorem raise_userBreakpoint (hm : m.Mapped) (code : Word) (huser : c.userMode = true) :
    RunsUntil m.next State.Final (.raising ⟨.breakpoint, code⟩ c)
      (.taken (.doubleFault 0 c.frame)) := by
  refine runs_of_error (y := ⟨.generalProtectionFault, 26#64⟩) ?_ rfl (raise_noGate hm rfl c)
  rw [Machine.deliver]
  exact if_pos ⟨rfl, huser⟩

theorem pushFault_cases (pt : PageTable) (a : Word) (n : ℕ) : pushFault pt a n = none ∨
    (∃ code, pushFault pt a n = some ⟨.pageFault, code⟩) ∨
      pushFault pt a n = some ⟨.stackSegmentFault, 0⟩ := by
  unfold pushFault
  split
  · split
    · exact .inl rfl
    · exact .inr (.inl ⟨_, rfl⟩)
  · exact .inr (.inr rfl)

/-- Exceptions of the kernel itself are pushed on its own stack, if they can be. -/
theorem deliver_kernel {g : Gate} (hg : IDT x.vector = some g) (hkernel : c.userMode = false) :
    (∃ rsp mem, m.deliver x c = .ok ⟨g.handler, c.frame, x.code, rsp, mem⟩) ∨
    (∃ code, m.deliver x c = .error ⟨.pageFault, code⟩) ∨
      m.deliver x c = .error ⟨.stackSegmentFault, 0⟩ := by
  rw [Machine.deliver, hg]
  dsimp only
  rw [if_neg (by simp [hkernel])]
  rcases pushFault_cases m.pt
    (alignDown (m.stackFor g c) - .ofNat 64 (8 * (frameWords x c.frame).length))
    (8 * (frameWords x c.frame).length) with hpush | ⟨code, hpush⟩ | hpush <;> rw [hpush]
  · exact .inl ⟨_, _, rfl⟩
  · exact .inr (.inl ⟨code, rfl⟩)
  · exact .inr (.inr rfl)

/-- If not, they become page faults or double faults. -/
theorem raise_kernel (hm : m.Mapped) {g : Gate} (hg : IDT x.vector = some g)
    (hkernel : c.userMode = false)
    (hsev : x.vector.severity = .benign ∨ x.vector.severity = .contributory)
    (hhandler : ∀ e : Entry, e.handler = g.handler →
      ∃ r, m.next (.handling e) = some (.taken r)) :
    ∃ r, RunsUntil m.next State.Final (.raising x c) (.taken r) := by
  rcases deliver_kernel (m := m) hg hkernel with ⟨rsp, mem, h⟩ | ⟨code, h⟩ | h
  · obtain ⟨r, hr⟩ := hhandler ⟨g.handler, c.frame, x.code, rsp, mem⟩ rfl
    exact ⟨r, runs_of_deliver h (runs_of_taken hr)⟩
  · obtain ⟨r, hr, -⟩ := raise_pageFault hm code c
    exact ⟨r, runs_of_error h (by rcases hsev with h | h <;> rw [escalate, h]; rfl) hr⟩
  · rcases hsev with hx | hx
    · exact ⟨_, runs_of_error h (by rw [escalate, hx]) (raise_noGate hm rfl c)⟩
    · exact ⟨_, runs_of_error h (by rw [escalate, hx]; rfl) (raise_doubleFault hm 0 c)⟩

/-- What an exception of the user code `c` comes to. -/
structure UserReport (m : Machine) (x : Fault) (c : Context) (r : Report) : Prop where
  divideError : x.vector = .divideError → r = .divideError c.frame
  pageFault : x.vector = .pageFault → PageFaultReport m x.code c r
  other : x.vector ∉ [.divideError, .pageFault, .doubleFault] → r = .doubleFault 0 c.frame

theorem raise_user (hm : m.Mapped) (x : Fault) (huser : c.userMode = true) :
    ∃ r, RunsUntil m.next State.Final (.raising x c) (.taken r) ∧ UserReport m x c r := by
  obtain ⟨v, code⟩ := x
  cases v
  case divideError =>
    obtain ⟨rsp, mem, hdeliver⟩ :=
      deliver_user hm (x := ⟨.divideError, code⟩) rfl rfl (by simp) huser
    exact ⟨_, runs_of_deliver hdeliver (runs_of_taken rfl), fun _ => rfl, by simp, by simp⟩
  case pageFault =>
    obtain ⟨r, hrun, hr⟩ := raise_pageFault hm code c
    exact ⟨r, hrun, by simp, fun _ => hr, by simp⟩
  case doubleFault => exact ⟨_, raise_doubleFault hm code c, by simp, by simp, by simp⟩
  case breakpoint => exact ⟨_, raise_userBreakpoint hm code huser, by simp, by simp, fun _ => rfl⟩
  all_goals exact ⟨_, raise_noGate hm rfl c, by simp, by simp, fun _ => rfl⟩

/-- **Every exception is delivered.**  If the three stacks are mapped, one of the
handlers takes over, wherever the exception was raised and whatever the stack
pointer was; the machine does not shut down on the way. -/
theorem exceptions_delivered (hm : m.Mapped) (x : Fault) (c : Context) :
    ∃ r, RunsUntil m.next State.Final (.raising x c) (.taken r) := by
  cases huser : c.userMode with
  | true =>
    obtain ⟨r, hrun, -⟩ := raise_user hm x huser
    exact ⟨r, hrun⟩
  | false =>
    obtain ⟨v, code⟩ := x
    cases v
    case pageFault =>
      obtain ⟨r, hrun, -⟩ := raise_pageFault hm code c
      exact ⟨r, hrun⟩
    case doubleFault => exact ⟨_, raise_doubleFault hm code c⟩
    case breakpoint =>
      exact raise_kernel hm rfl huser (.inl rfl) fun e he => ⟨_, by rw [Machine.next, he]⟩
    case divideError =>
      exact raise_kernel hm rfl huser (.inr rfl) fun e he => ⟨_, by rw [Machine.next, he]⟩
    all_goals exact ⟨_, raise_noGate hm rfl c⟩

/-- The handler runs in the kernel; its registers do not matter here. -/
def sampleMachine (pt : PageTable) : Machine where
  pt := pt
  arrays := ⟨0x200000#64, 0x205000#64, 0x20A000#64⟩
  atRead rsp := ⟨0#64, 8#64, 2#64, rsp - 100#64, 0#64⟩
  depth := 100
  atRead_stackPointer _ := rfl
  depth_le := by decide

/-- Where `sampleMachine` has its stacks, pages are mapped. -/
def arraysTable : PageTable := fun page =>
  if 0x200 ≤ page.number ∧ page.number < 0x20F then
    .mapped ⟨page.number % 16, by omega⟩ (PRESENT ∪ WRITABLE)
  else .notMapped

theorem writable_arraysTable {start x : Word}
    (hstart : start ∈ (sampleMachine arraysTable).arrays.starts) (hx : OnStack start x) :
    writable arraysTable x = true := by
  obtain ⟨j, hj, rfl⟩ := hx
  have hrange : 0x200000 ≤ (start + .ofNat 64 j).toNat ∧
      (start + .ofNat 64 j).toNat < 0x20F000 := by
    have hj : j < 20480 := hj
    simp only [sampleMachine, Stacks.starts, List.mem_cons, List.not_mem_nil, or_false] at hstart
    rcases hstart with rfl | rfl | rfl <;> bv_omega
  generalize start + .ofNat 64 j = x at hrange
  have hcanon : Canonical x.toNat := .inl (by omega)
  have hpage : 0x200 ≤ (Page.containingAddress ⟨x.toNat, hcanon⟩).number ∧
      (Page.containingAddress ⟨x.toNat, hcanon⟩).number < 0x20F := by
    show 0x200 ≤ x.toNat % 2 ^ 48 / 4096 ∧ x.toNat % 2 ^ 48 / 4096 < 0x20F
    omega
  rw [writable, dif_pos hcanon, PageTable.translate, arraysTable, if_pos hpage]
  exact (by decide : (PRESENT ∪ WRITABLE).contains WRITABLE = true)

theorem exceptions_delivered_int3 :
    ∃ r, RunsUntil (sampleMachine arraysTable).next State.Final
      (.raising ⟨.breakpoint, 0⟩ ⟨⟨0x1000, 8, 2, 0x7ff0, 0⟩, false, fun _ => 0⟩) (.taken r) :=
  exceptions_delivered (fun _ hstart _ => writable_arraysTable hstart) _ _

end Exceptions

/-! ### After the boot -/

namespace Boot

open Exceptions

variable {M : Type} {mapper : Mapper M BootInfoFrameAllocator}
  {parse : List UInt8 → Option Elf.ElfHeaders} {collections : List HeapUse} {o : Overflow}
  {memoryMap : List MemoryRegion} {childProcess : List UInt8} {rsp : UInt64} {m : M}
  {mem : PhysMemory} {boot : Booted M} {elf : Elf.ElfHeaders}

/-- What could be written before the boot can be written after it. -/
theorem writable_of_kernelMain (hl : mapper.Lawful) (hparse : parse childProcess = some elf)
    (h : kernelMain mapper parse collections o memoryMap childProcess rsp m mem = .ok boot) {x : Word}
    (hx : writable (mapper.table m) x = true) : writable (mapper.table boot.mapper) x = true := by
  have hcanon := canonical_of_writable hx
  rw [writable, dif_pos hcanon] at hx ⊢
  rcases kernelMain_table hl hparse h (.containingAddress ⟨x.toNat, hcanon⟩) with
    ⟨hnone, -⟩ | ⟨-, -, -, hsame⟩
  · rw [PageTable.translate, hnone] at hx
    cases hx
  · rw [PageTable.translate, hsame]
    exact hx

/-- **Exceptions of user code.**  After the boot, if the boot loader had the
kernel's stacks mapped, every exception of user code gets to a handler that has
the data of its message: a division by zero, with the frame of the code; a page
fault with it, too, if the word at the code's stack pointer can be read by the
kernel, and otherwise with the handler's own frame, as a double fault if that
pointer is not canonical; and everything else, `int3` included, as a double
fault. -/
theorem kernelMain_exceptions (hl : mapper.Lawful) (hparse : parse childProcess = some elf)
    (h : kernelMain mapper parse collections o memoryMap childProcess rsp m mem = .ok boot)
    (k : Exceptions.Machine) (hpt : k.pt = mapper.table boot.mapper)
    (hstacks : ∀ start ∈ k.arrays.starts, ∀ x, OnStack start x →
      writable (mapper.table m) x = true)
    (x : Fault) (c : Context) (huser : c.userMode = true) :
    ∃ r, RunsUntil k.next State.Final (.raising x c) (.taken r) ∧ UserReport k x c r := by
  have hm : k.Mapped := by
    intro start hstart y hy
    rw [hpt]
    exact writable_of_kernelMain hl hparse h (hstacks start hstart y hy)
  exact raise_user hm x huser

/-- The boot of `bootSharedPage`, with the kernel's stacks mapped. -/
def bootWithArrays : Outcome Empty (Booted (PageTable × List PhysFrame)) :=
  kernelMain (drawingMapper .panic 1) (fun _ => some Elf.sharedPageElf) sampleUses .panic bootMap
    [0xeb, 0xfe, 0x2a] 0x100800 (arraysTable, []) fun _ _ => 0

theorem kernelMain_exceptions_nullStack : ∃ boot, bootWithArrays = .ok boot ∧
    ∃ r, RunsUntil (sampleMachine boot.mapper.1).next State.Final
      (.raising ⟨.pageFault, 4⟩ ⟨⟨0x660000, 0x23, 0x202, 0, 0x1B⟩, true, fun _ => 0⟩)
      (.taken r) := by
  have h : (do let _ ← bootWithArrays
               .ok () : Outcome Empty Unit) = .ok () := by
    decide +kernel
  obtain ⟨boot, hboot, -⟩ := Outcome.bind_eq_ok.mp h
  obtain ⟨r, hrun, -⟩ := kernelMain_exceptions (drawingMapper_lawful .panic 1)
    (show _ = some Elf.sharedPageElf from rfl) hboot (sampleMachine boot.mapper.1) rfl
    (fun _ hstart _ => writable_arraysTable hstart) ⟨.pageFault, 4⟩
    ⟨⟨0x660000, 0x23, 0x202, 0, 0x1B⟩, true, fun _ => 0⟩ rfl
  exact ⟨boot, hboot, r, hrun⟩

end Boot
