/-
The context that system calls run in: `syscall::init` of
`kernel/src/syscall/mod.rs`, and the stack of `syscall_handler`.

"Interrupts are always disabled for the duration of syscalls.  This allows us to
have only one kernel stack": `init` adds the interrupt flag to `SFMASK`, so
`syscall` clears it.  From there on no instruction of `syscall_handler` sets it
before the mode is user mode again, where `sysretq` takes the flags from `r11`;
and what it finds there is what user code ran with.

* `exec_masked` — one instruction keeps the interrupts off in kernel mode;
* `reaches_masked` — and so does a run of them;
* `session_kernelStack` — every call of every session runs on the same stack,
  aligned as System V wants it iff the kernel was booted on an aligned one.
-/
import ZuluOs.SyscallEntry

open ByteMemory Transition

/-- `RFlags::INTERRUPT_FLAG` is bit 9. -/
def interruptBit : ℕ := 9

/-- The processor takes interrupts. -/
def Cpu.interrupts (c : Cpu) : Bool := c.rflags.getLsbD interruptBit

namespace SyscallEntry

variable {p p₀ : Platform} {pl : Placement p} {c d : Cpu} {handler : Word} {calls : List Call}

/-- `syscall::init`, with what it writes to the registers that `syscall` reads. -/
def init {ε : Type} (handler : Word) (p : Platform) : Outcome ε Platform := do
  let syscallRip ← VirtAddr.new handler.toNat
  let flagsToClear := p.sfmask ||| BitVec.twoPow 64 interruptBit
  .ok { p with sfmask := flagsToClear, lstar := BitVec.ofNat 64 syscallRip.addr }

theorem init_sfmask (h : (init handler p₀ : Outcome Empty _) = .ok p) :
    p.sfmask.getLsbD interruptBit = true := by
  simp only [init, Outcome.bind_eq_ok, Outcome.ok.injEq] at h
  obtain ⟨_, -, rfl⟩ := h
  simp [interruptBit]

/-! ### One instruction, and a run -/

/-- In kernel mode no interrupts are taken. -/
def Masked (c : Cpu) : Prop := c.userMode = false → c.interrupts = false

/-- An instruction that leaves the mode and the flags alone. -/
theorem Masked.of_eq (hc : Masked c) (hmode : d.userMode = c.userMode)
    (hflags : d.rflags = c.rflags) : Masked d := by
  intro hd
  rw [Cpu.interrupts, hflags]
  exact hc (hmode.symm.trans hd)

/-- **One instruction**: `syscall` clears the flag, `sysretq` leaves kernel mode,
and the others change neither the mode nor the flags. -/
theorem exec_masked (hmask : p.sfmask.getLsbD interruptBit = true) {after : Word} {i : Instr}
    (hc : Masked c) (h : Cpu.exec p c after i = some d) : Masked d := by
  cases i with
  | syscall =>
    obtain rfl := Option.some.inj h
    intro _
    simp only [Cpu.interrupts, Cpu.goto_rflags, Cpu.switch_rflags, BitVec.getLsbD_and,
      BitVec.getLsbD_not, hmask, Bool.not_true, Bool.and_false]
  | sysretq =>
    obtain ⟨-, h⟩ := Option.ite_none_right_eq_some.mp h
    obtain rfl := Option.some.inj h
    intro hmode
    cases hmode
  | mov dst src =>
    obtain rfl := Option.some.inj h
    exact hc.of_eq rfl rfl
  | movImm dst value =>
    obtain rfl := Option.some.inj h
    exact hc.of_eq rfl rfl
  | swapgs =>
    obtain ⟨-, h⟩ := Option.ite_none_left_eq_some.mp h
    obtain rfl := Option.some.inj h
    exact hc.of_eq rfl rfl
  | push | pop | storeGs | loadGs | call | leave | ret =>
    obtain ⟨-, h⟩ := Option.ite_none_right_eq_some.mp h
    obtain rfl := Option.some.inj h
    exact hc.of_eq rfl rfl

/-- The machine gets from one state to another on its own. -/
def Reaches (p : Platform) : Cpu → Cpu → Prop :=
  Relation.ReflTransGen fun c d => Cpu.next p c = some d

theorem reaches_masked (hmask : p.sfmask.getLsbD interruptBit = true) (hc : Masked c)
    (h : Reaches p c d) : Masked d := by
  induction h with
  | refl => exact hc
  | tail _ hstep ih =>
    obtain ⟨⟨i, after⟩, -, hexec⟩ := Option.bind_eq_some_iff.mp hstep
    exact exec_masked hmask ih hexec

theorem reaches_of_runsUntil {stop : Cpu → Prop} (h : RunsUntil (Cpu.next p) stop c d) :
    Reaches p c d := by
  induction h with
  | here => exact .refl
  | step _ hnext _ ih => exact .head hnext ih

/-! ### One call -/

/-- The states of a call on its way to `syscall_handler_inner` and back. -/
def Call.Visits (p : Platform) (r : Call) (s : Cpu) : Prop :=
  (Reaches p r.entry s ∧ Reaches p s r.passed) ∨ (Reaches p r.returned s ∧ Reaches p s r.exit)

/-- `sysretq` keeps the interrupt flag of `r11`. -/
theorem interrupts_sysretFlags (w : Word) :
    (Cpu.sysretFlags w).getLsbD interruptBit = w.getLsbD interruptBit := by
  simp [Cpu.sysretFlags, interruptBit]

/-- The flag as a call leaves it to user code. -/
theorem Call.RoundTrip.interrupts {r : Call} (hr : r.RoundTrip pl) :
    r.exit.interrupts = r.entry.interrupts := by
  rw [Cpu.interrupts, hr.rflags, interrupts_sysretFlags, Cpu.interrupts]

/-- A call does not take interrupts on its way. -/
theorem Call.Runs.masked (hmask : p.sfmask.getLsbD interruptBit = true) {r : Call}
    (hr : r.Runs pl) (hflag : r.returned.interrupts = r.passed.interrupts) {s : Cpu}
    (hs : r.Visits p s) : Masked s := by
  have hentry : Masked r.entry := by
    intro h
    rw [hr.userMode] at h
    cases h
  rcases hs with ⟨hs, -⟩ | ⟨hs, -⟩
  · exact reaches_masked hmask hentry hs
  · have hpassed := reaches_masked hmask hentry (reaches_of_runsUntil hr.passes)
    refine reaches_masked hmask (fun hmode => ?_) hs
    rw [hflag]
    exact hpassed (hr.inner.userMode.symm.trans hmode)

/-- User code starts at the stub, with a stack it may use. -/
theorem sampleBoot_atStub : ∃ c,
    RunsUntil (Cpu.next samplePlatform) (·.userMode = true) sampleBoot c ∧
      Ready samplePlacement c ∧ Cpu.Located samplePlatform c.rip syscallStub ∧
      samplePlatform.WritableWord (c.regs .rsp - 8#64) ∧ samplePlatform.UserWord (c.regs .rsp) := by
  obtain ⟨c, hrun, hready, hrip, hrsp, -⟩ := sampleBoot_entering.enters
  refine ⟨c, hrun, hready, ?_, ?_, ?_⟩
  · rw [hrip]
    exact ⟨_, rfl, _, rfl, _, rfl, _, rfl, _, rfl, _, rfl, trivial⟩
  · rw [hrsp]
    decide
  · rw [hrsp]
    decide

/-! ### The stack -/

theorem Call.Runs.reachesInner {r : Call} (hr : r.Runs pl) (hc : Ready pl r.entry) :
    Passed pl r.entry r.passed := by
  obtain ⟨e, hrun, he⟩ := reaches_inner hc hr.stub hr.frame
  obtain rfl := hrun.unique hr.passes
  exact he

/-- **One kernel stack.**  However many calls were made before, each call of a
session enters `syscall_handler_inner` with the same stack pointer; what is above
the return address is a multiple of 16 iff the stack pointer that
`init_thread_data` was given is. -/
theorem session_kernelStack {p : Platform} (pl : Placement p) {boot c d : Cpu}
    {calls : List Call} (hboot : Entering pl boot)
    (henter : RunsUntil (Cpu.next p) (·.userMode = true) boot c) (hs : Session pl c calls d) :
    ∀ r ∈ calls, r.passed.regs .rsp = pl.kernelRsp - 24#64 ∧
      (16 ∣ (r.passed.regs .rsp + 8#64).toNat ↔ 16 ∣ pl.kernelRsp.toNat) := by
  obtain ⟨c', hrun, hready, -⟩ := hboot.enters
  obtain rfl := hrun.unique henter
  induction hs with
  | start => simp
  | user _ _ ih => exact ih
  | call hbefore hr ih =>
    refine List.forall_mem_cons.mpr ⟨?_, ih⟩
    have hrsp := (hr.reachesInner (hbefore.ready hready).1).rsp
    refine ⟨hrsp, ?_⟩
    rw [hrsp]
    generalize pl.kernelRsp = k
    constructor <;> intro h <;> bv_omega

theorem session_kernelStack_firstCall : ∃ c r,
    RunsUntil (Cpu.next samplePlatform) (·.userMode = true) sampleBoot c ∧
    Session samplePlacement c [r] r.exit ∧ r.passed.regs .rsp = 0x2FFE8#64 := by
  obtain ⟨c, hrun, hready, hstub, hframe, huser⟩ := sampleBoot_atStub
  obtain ⟨e, -, hcall⟩ := hready.exists_call hstub hframe huser
  obtain ⟨x, hx⟩ := hcall _ (innerReturns_ret samplePlacement e)
  have hs := Session.call .start hx
  exact ⟨c, _, hrun, hs,
    (session_kernelStack samplePlacement sampleBoot_entering hrun hs _ List.mem_cons_self).1⟩

end SyscallEntry
