/-
Interrupts and system calls: "Interrupts are always disabled for the duration of
syscalls" (`syscall/mod.rs`).

`syscall_handler_inner` is code in the sense of `Interrupts` here: after its
checks it prints, each time with interrupts masked around it, or panics, or it
is in `process::exit`, which enables interrupts before it halts.  It is entered
with the flag that `syscall` has left, and gives back the flag that it ends with.

User code cannot change the interrupt flag (the I/O privilege level is 0).

* `innerItems_texts` — its prints are those of the reference;
* `inner_completes` — and with the screen free it comes to its end;
* `inner_flag_iff` — interrupts are off in every state of it, whatever exceptions
  there are, iff the call is not `Exit`;
* `session_interrupts` — over every session, interrupts are on where user code
  runs and off in kernel mode, from `syscall` to `sysretq`; the call that is made
  next has them off throughout unless it is `Exit`.
-/
import ZuluOs.Interrupts
import ZuluOs.SyscallContext
import ZuluOs.SyscallSession

open ByteMemory Transition Preemption Interrupts Syscalls VgaBuffer

namespace Interrupts

variable {P : Type} {pics : Controllers P} {s : State Lock Effect (Device P)}

theorem Item.code_of_text {item : Item} {bytes : List UInt8} (h : item.text = some bytes) :
    item.code = masked (critical .WRITER (bytes.map .writeByte)) := by
  cases item with
  | print text | printBytes text =>
    obtain rfl := Option.some.inj h
    rfl
  | _ => cases h

/-- With the screen free, prints go through one after another. -/
theorem exec_prints (pics : Controllers P) {items : List Item}
    (hprints : ∀ item ∈ items, ∃ text, item.text = some text)
    (hfree : s.held .WRITER = false) (hcode : s.running.code = items.flatMap Item.code) :
    ∃ n u, exec (core pics).step s (List.replicate n .run) = some u ∧ u.flag = s.flag ∧
      u.below = s.below ∧ u.running.code = [] ∧
      (s.device.writer.writeBytes (items.filterMap Item.text).flatten : Outcome Empty Writer)
        = .ok u.device.writer := by
  induction items generalizing s with
  | nil => exact ⟨0, s, rfl, rfl, rfl, hcode, rfl⟩
  | cons item items ih =>
    obtain ⟨⟨text, htext⟩, hprints⟩ := List.forall_mem_cons.mp hprints
    rw [List.flatMap_cons, Item.code_of_text htext] at hcode
    have hfirst := exec_masked (core pics) hcode hfree
    obtain ⟨n, u, hrun, hflag, hbelow, hend, hwriter⟩ := ih hprints (s := { s with
      device := (text.map .writeByte).foldl (core pics).perform s.device
      running := ⟨items.flatMap Item.code, s.running.saved⟩ }) hfree rfl
    have hboth := exec_append_eq_some.mpr ⟨_, hfirst, hrun⟩
    rw [← List.replicate_add] at hboth
    refine ⟨_, u, hboth, hflag, hbelow, hend, ?_⟩
    rw [Writer.writeBytes_eq, writer_foldl, foldl_onScreen, shown_writeBytes] at hwriter
    rw [Writer.writeBytes_eq, List.filterMap_cons_some htext, List.flatten_cons, List.foldl_append]
    exact hwriter

theorem setFlag_mem_masked {b : Bool} {l : Lock} {es : List Effect} :
    .setFlag b ∉ masked (critical l es) := by
  simp [masked, critical]

theorem setFlag_mem_items {items : List Item} :
    .setFlag true ∈ items.flatMap Item.code ↔ .enableInterrupts ∈ items := by
  have hitem : ∀ item : Item, .setFlag true ∈ item.code ↔ item = .enableInterrupts := by
    intro item
    cases item with
    | print | printBytes | serialPrint =>
      exact iff_of_false setFlag_mem_masked (by simp)
    | _ => simp [Item.code]
  rw [List.mem_flatMap]
  constructor
  · rintro ⟨item, hmem, hset⟩
    rwa [← (hitem item).mp hset]
  · intro hmem
    exact ⟨_, hmem, (hitem _).mpr rfl⟩

/-- The handlers of exceptions leave the flag alone. -/
theorem setFlag_mem_exception (x : Exception) : .setFlag true ∉ x.handler := by
  obtain ⟨n, rest, hhandler, hrest⟩ := x.handler_eq
  have hprint : .setFlag true ∉ print x.text := setFlag_mem_masked
  rw [hhandler]
  rcases hrest with rfl | rfl <;> simp [hprint, List.mem_replicate]

end Interrupts

namespace SyscallEntry

variable {P : Type} {pics : Controllers P} {p p₀ : Platform} {pl : Placement p} {o : Overflow}
variable {pt : PageTable} {c d e : Cpu} {r : Call} {message : List UInt8} {view : ℕ → UInt8}
variable {num arg0 ptr bytes : UInt64}

/-! ### The code of `syscall_handler_inner` -/

/-- The panic handler. -/
def panicItems (message : List UInt8) : List Item := [.print message, .hltLoop]

/-- `expect("kernel returned too large return value")` -/
def expectSmall (message : List UInt8) (val : ℕ) : List Item :=
  if val ≤ isizeMax then [] else panicItems message

/-- `syscall_handler_inner` from where the call is resolved; `view` is the memory
that `io::write` reads. -/
def innerItems (message : List UInt8) (view : ℕ → UInt8) :
    Outcome Error Syscalls.Call → List Item
  | .ok (.read _ bytes) => .print readLine :: expectSmall message bytes.len
  | .ok (.write _ bytes) =>
    .print writeLine ::
      .printBytes ((List.range bytes.len).map fun i => view (bytes.byteAddr i)) ::
      expectSmall message bytes.len
  | .ok (.exit _) => [.enableInterrupts, .hltLoop]
  | .err _ => []
  | .stop _ => panicItems message

/-- The call that `syscall_handler_inner` finds in the registers. -/
def resolved (o : Overflow) (pt : PageTable) (e : Cpu) : Outcome Error Syscalls.Call :=
  resolve o pt (e.arg .rdi) (e.arg .rsi) (e.arg .rdx) (e.arg .rcx)

/-- `syscall_handler_inner` is entered in `e`; devices and locks are as they may be. -/
structure Starts (o : Overflow) (pt : PageTable) (e : Cpu) (message : List UInt8)
    (s : State Lock Effect (Device P)) : Prop where
  flag : s.flag = e.interrupts
  running : s.running
    = ⟨(innerItems message (byteOf e.mem) (resolved o pt e)).flatMap Item.code, []⟩
  below : s.below = []

/-- A state that `syscall_handler_inner` gets to, or a handler above it. -/
def Inside (pics : Controllers P) (o : Overflow) (pt : PageTable) (e : Cpu)
    (u : State Lock Effect (Device P)) : Prop :=
  ∃ message s as, Starts o pt e message s ∧ exec (core pics).step s as = some u

/-- What it prints is what the reference has. -/
theorem innerItems_texts (message : List UInt8) (view : ℕ → UInt8) (arg0 : UInt64) (hexit : num ≠ 3)
    (hrange : num = 1 ∨ num = 2 →
      1 ≤ ptr.toNat ∧ 1 ≤ bytes.toNat ∧ ptr.toNat + bytes.toNat ≤ 2 ^ 47) :
    (∀ item ∈ innerItems message view (resolve o pt num arg0 ptr bytes),
      ∃ text, item.text = some text) ∧
    ((innerItems message view (resolve o pt num arg0 ptr bytes)).filterMap Item.text).flatten
      = (reply pt view num ptr bytes).2 := by
  have hsmall : ptr.toNat + bytes.toNat ≤ 2 ^ 47 → expectSmall message bytes.toNat = [] := by
    intro hlow
    refine if_pos ?_
    unfold isizeMax
    omega
  rcases resolve_reply o pt view arg0 hexit hrange with
    ⟨hlow, hcall, hreply⟩ | ⟨hlow, -, hcall, hreply⟩ | ⟨e, hcall, hreply⟩
  · rw [hcall, hreply, innerItems, hsmall hlow]
    exact ⟨by simp [Item.text], show readLine.map displayed ++ [] = readLine by decide +kernel⟩
  · rw [hcall, hreply, innerItems, hsmall hlow]
    refine ⟨by simp [Item.text], ?_⟩
    have hshown : writeLine.map displayed = writeLine := by decide +kernel
    have hread : (List.range bytes.toNat).map
        (fun i => view ((⟨ptr.toNat, bytes.toNat⟩ : UserSlice).byteAddr i))
          = rangeBytes view ptr.toNat bytes.toNat :=
      List.map_congr_left fun i hi => congrArg view (byteAddr_of_low hlow (List.mem_range.mp hi))
    rw [hread]
    show writeLine.map displayed ++ (_ ++ []) = _
    rw [hshown, List.append_nil]
  · rw [hcall, hreply]
    exact ⟨by simp [innerItems], rfl⟩

/-- **It comes to its end**, and leaves its text, if nothing was being printed. -/
theorem inner_completes (pics : Controllers P) {s : State Lock Effect (Device P)}
    (hs : Starts o pt e message s)
    (hfree : s.held .WRITER = false) (hexit : e.arg .rdi ≠ 3) (hrange : InRange e) :
    ∃ u, Inside pics o pt e u ∧ u.running.code = [] ∧ u.below = [] ∧ u.flag = s.flag ∧
      (s.device.writer.writeBytes (reply pt (byteOf e.mem) (e.arg .rdi) (e.arg .rdx)
        (e.arg .rcx)).2 : Outcome Empty Writer) = .ok u.device.writer := by
  obtain ⟨hprints, htexts⟩ := innerItems_texts (o := o) message (byteOf e.mem) (e.arg .rsi)
    hexit hrange
  obtain ⟨n, u, hrun, hflag, hbelow, hend, hwriter⟩ :=
    exec_prints pics hprints hfree (congrArg Context.code hs.running)
  rw [htexts] at hwriter
  exact ⟨u, ⟨message, s, _, hs, hrun⟩, hend, hbelow.trans hs.below, hflag, hwriter⟩

/-! ### The flag in `syscall_handler_inner` -/

theorem enableInterrupts_mem_innerItems (call : Outcome Error Syscalls.Call) :
    .enableInterrupts ∈ innerItems message view call ↔ ∃ code, call = .ok (.exit code) := by
  have hpanic : .enableInterrupts ∉ panicItems message := by simp [panicItems]
  have hsmall : ∀ val, .enableInterrupts ∉ expectSmall message val := by
    intro val
    rw [expectSmall]
    split
    · simp
    · exact hpanic
  cases call with
  | ok call =>
    cases call with
    | read => simp [innerItems, hsmall]
    | write => simp [innerItems, hsmall]
    | exit => simp [innerItems]
  | err => simp [innerItems]
  | stop => exact iff_of_false hpanic (by simp)

theorem resolve_eq_exit_iff :
    (∃ code, resolve o pt num arg0 ptr bytes = .ok (.exit code)) ↔ num = 3 := by
  constructor
  · rintro ⟨code, h⟩
    by_contra hexit
    by_cases h₁ : num = 1
    · rw [h₁, resolve_read, withUserSliceMut, Outcome.bind_eq_ok] at h
      obtain ⟨_, -, h⟩ := h
      cases h
    · by_cases h₂ : num = 2
      · rw [h₂, resolve_write, withUserSlice, Outcome.bind_eq_ok] at h
        obtain ⟨_, -, h⟩ := h
        cases h
      · rw [resolve_unknown h₁ h₂ hexit] at h
        cases h
  · rintro rfl
    exact ⟨_, resolve_exit⟩

theorem innerItems_exit (hexit : e.arg .rdi = 3) :
    innerItems message view (resolved o pt e) = [.enableInterrupts, .hltLoop] := by
  rw [resolved, hexit, resolve_exit]
  rfl

/-- **Interrupts stay off exactly in calls other than `Exit`**: those have no
operation that sets the flag, and `Exit` begins with one. -/
theorem inner_flag_iff (pics : Controllers P) (o : Overflow) (pt : PageTable)
    (hoff : e.interrupts = false) :
    (∀ u, Inside pics o pt e u → u.flag = false) ↔ e.arg .rdi ≠ 3 := by
  constructor
  · intro hall hexit
    let s : State Lock Effect (Device P) := ⟨e.interrupts, fun _ => false,
      ⟨default, [], pics.idle⟩, ⟨[.setFlag true, .halt], []⟩, []⟩
    have hstarts : Starts o pt e [] s := by
      refine ⟨rfl, ?_, rfl⟩
      rw [innerItems_exit hexit]
      rfl
    cases hall _ ⟨[], s, [.run], hstarts, rfl⟩
  · rintro hexit u ⟨message, s, as, hs, hrun⟩
    have hclosed : Closed s := by
      refine ⟨hs.flag.trans hoff, ⟨?_, ?_⟩, ?_⟩
      · rw [hs.running]
        simp
      · rw [hs.running, setFlag_mem_items, enableInterrupts_mem_innerItems, resolved,
          resolve_eq_exit_iff]
        exact hexit
      · rw [hs.below]
        simp
    exact (exec_closed setFlag_mem_exception hclosed hrun).flag

/-! ### Sessions -/

/-- The call is a run of the machine, in which `syscall_handler_inner` has run its
code and leaves the flag that this has left. -/
structure Call.Performed (pics : Controllers P) (pl : Placement p) (o : Overflow)
    (pt : PageTable) (r : Call) : Prop where
  runs : r.Runs pl
  inner : ∃ u, Inside pics o pt r.passed u ∧ u.running.code = [] ∧ u.below = [] ∧
    r.returned.interrupts = u.flag

/-- User code, which leaves the flag alone, and calls in any order. -/
inductive FlagSession (pics : Controllers P) (pl : Placement p) (o : Overflow) (pt : PageTable)
    (c : Cpu) : List Call → Cpu → Prop
  | start : FlagSession pics pl o pt c [] c
  | user {calls d d'} : FlagSession pics pl o pt c calls d → UserStep p d d' →
      d'.interrupts = d.interrupts → FlagSession pics pl o pt c calls d'
  | call {calls r} : FlagSession pics pl o pt c calls r.entry → r.Performed pics pl o pt →
      FlagSession pics pl o pt c (r :: calls) r.exit

variable {calls : List Call}

theorem FlagSession.session (h : FlagSession pics pl o pt c calls d) : Session pl c calls d := by
  induction h with
  | start => exact .start
  | user _ hstep _ ih => exact .user ih hstep
  | call _ hr ih => exact .call ih hr.runs

/-- `exit` does not come back. -/
theorem Call.Performed.not_exit (hr : r.Performed pics pl o pt) : r.passed.arg .rdi ≠ 3 := by
  intro hexit
  obtain ⟨u, ⟨message, s, as, hs, hrun⟩, hcode, hbelow, -⟩ := hr.inner
  have hhalts : .halt ∈ s.first.2.code := by
    rw [State.first_of_nil hs.below, hs.running, innerItems_exit hexit]
    simp [Item.code]
  have hhalts := exec_first_halt_mem hhalts hrun
  rw [State.first_of_nil hbelow, hcode] at hhalts
  cases hhalts

/-- Interrupts are off where `syscall_handler_inner` is entered. -/
theorem passed_interrupts (hmask : p.sfmask.getLsbD interruptBit = true)
    (hmode : c.userMode = true) (hpasses : RunsUntil (Cpu.next p) (·.rip = pl.inner) c e)
    (he : Passed pl c e) : e.interrupts = false := by
  refine reaches_masked hmask (fun h => ?_) (reaches_of_runsUntil hpasses) he.userMode
  rw [hmode] at h
  cases h

/-- Interrupts over a session, once user code runs with them. -/
theorem FlagSession.interrupts (hmask : p.sfmask.getLsbD interruptBit = true)
    (hs : FlagSession pics pl o pt c calls d) (hready : Ready pl c) (hon : c.interrupts = true) :
    (d.userMode = true ∧ d.interrupts = true) ∧
      ∀ r ∈ calls, r.entry.interrupts = true ∧
        (∀ s, r.Visits p s → s.userMode = false → s.interrupts = false) ∧
        ∀ u, Inside pics o pt r.passed u → u.flag = false := by
  induction hs with
  | start => exact ⟨⟨hready.userMode, hon⟩, by simp⟩
  | user _ hstep hflag ih => exact ⟨⟨hstep.after, hflag.trans ih.1.2⟩, ih.2⟩
  | @call calls r hbefore hr ih =>
    have hentry := (hbefore.session.ready hready).1
    have htrip := hr.runs.roundTrip hentry
    have hpassed : r.passed.interrupts = false :=
      passed_interrupts hmask hentry.userMode hr.runs.passes (hr.runs.reachesInner hentry)
    have hinner := (inner_flag_iff pics o pt hpassed).mpr hr.not_exit
    have hreturned : r.returned.interrupts = r.passed.interrupts := by
      obtain ⟨u, hu, -, -, hflag⟩ := hr.inner
      rw [hflag, hinner u hu, hpassed]
    refine ⟨⟨htrip.userMode, htrip.interrupts.trans ih.1.2⟩, List.forall_mem_cons.mpr ⟨?_, ih.2⟩⟩
    exact ⟨ih.1.2, fun s hs => hr.runs.masked hmask hreturned hs, hinner⟩

/-- A call other than `Exit` can be made, and comes back with interrupts off. -/
theorem Ready.exists_performed (pics : Controllers P) (o : Overflow) (pt : PageTable)
    (hd : Ready pl d) (hstub : Cpu.Located p d.rip syscallStub)
    (hpasses : RunsUntil (Cpu.next p) (·.rip = pl.inner) d e)
    (hoff : e.interrupts = false) (hframe : p.WritableWord (d.regs .rsp - 8#64))
    (huser : p.UserWord (d.regs .rsp)) (hexit : e.arg .rdi ≠ 3) (hrange : InRange e) {b : Cpu}
    (hb : InnerReturns pl e b) (hflag : b.interrupts = false) :
    ∃ x, Call.Performed pics pl o pt ⟨d, e, b, x⟩ := by
  obtain ⟨e', hpasses', hcall⟩ := hd.exists_call hstub hframe huser
  obtain rfl := hpasses.unique hpasses'
  obtain ⟨x, hx⟩ := hcall b hb
  let s : State Lock Effect (Device P) := ⟨e.interrupts, fun _ => false,
    ⟨default, [], pics.idle⟩,
    ⟨(innerItems [] (byteOf e.mem) (resolved o pt e)).flatMap Item.code, []⟩, []⟩
  have hstarts : Starts o pt e [] s := ⟨rfl, rfl, rfl⟩
  obtain ⟨u, hu, hcode, hbelow, huflag, -⟩ := inner_completes pics hstarts rfl hexit hrange
  exact ⟨x, hx, u, hu, hcode, hbelow, hflag.trans (huflag.trans hoff).symm⟩

/-- **Interrupts over whole sessions.**  After `enter_user_mode`, user code runs
with interrupts, and a system call that comes back is in kernel mode only without
them: on its way to `syscall_handler_inner`, in there, and on its way back.  The
next call gets there without them, too, and then has them off in every state iff
it is not `Exit`; it can come back if it has a slice of the lower half, or none. -/
theorem session_interrupts {p p₀ : Platform} (pl : Placement p) {boot c d : Cpu} {handler : Word}
    {calls : List Call} (hinit : (init handler p₀ : Outcome Empty _) = .ok p)
    (hboot : Entering pl boot) (henter : RunsUntil (Cpu.next p) (·.userMode = true) boot c)
    (hs : FlagSession pics pl o pt c calls d) :
    (d.userMode = true ∧ d.interrupts = true) ∧
    (∀ r ∈ calls, r.entry.interrupts = true ∧
      (∀ s, r.Visits p s → s.userMode = false → s.interrupts = false) ∧
      ∀ u, Inside pics o pt r.passed u → u.flag = false) ∧
    (Cpu.Located p d.rip syscallStub → p.WritableWord (d.regs .rsp - 8#64) →
      ∃ e, RunsUntil (Cpu.next p) (·.rip = pl.inner) d e ∧ e.interrupts = false ∧
        ((∀ u, Inside pics o pt e u → u.flag = false) ↔ d.arg .rdi ≠ 3) ∧
        (p.UserWord (d.regs .rsp) → d.arg .rdi ≠ 3 → InRange d → ∀ b, InnerReturns pl e b →
          b.interrupts = false → ∃ x, Call.Performed pics pl o pt ⟨d, e, b, x⟩)) := by
  have hmask := init_sfmask hinit
  obtain ⟨c', hrun, hready, -, -, hflags⟩ := hboot.enters
  obtain rfl := hrun.unique henter
  have hon : c'.interrupts = true := by
    rw [Cpu.interrupts, hflags]
    decide
  obtain ⟨huser, hcalls⟩ := hs.interrupts hmask hready hon
  refine ⟨huser, hcalls, fun hstub hframe => ?_⟩
  have hd := (hs.session.ready hready).1
  obtain ⟨e, hpasses, he⟩ := reaches_inner hd hstub hframe
  have hoff := passed_interrupts hmask hd.userMode hpasses he
  have hargs : ∀ q ∈ argumentRegs, e.arg q = d.arg q :=
    fun q hq => congrArg UInt64.ofBitVec (he.arguments q hq)
  rw [← hargs .rdi (by decide), InRange, ← hargs .rdi (by decide), ← hargs .rdx (by decide),
    ← hargs .rcx (by decide)]
  refine ⟨e, hpasses, hoff, inner_flag_iff pics o pt hoff, ?_⟩
  intro huser hexit hrange b hb hflag
  exact hd.exists_performed pics o pt hstub hpasses hoff hframe huser hexit hrange hb hflag

theorem session_interrupts_firstCall : ∃ c r,
    RunsUntil (Cpu.next samplePlatform) (·.userMode = true) sampleBoot c ∧
    FlagSession sampleControllers samplePlacement .panic sampleTable c [r] r.exit ∧
    r.exit.interrupts = true ∧ r.Visits samplePlatform r.passed ∧
    r.passed.interrupts = false := by
  obtain ⟨c, hrun, hready, hstub, -, -⟩ := sampleBoot_atStub
  have hinit : (init 0x8000#64 { samplePlatform with sfmask := 0, lstar := 0 } : Outcome Empty _)
      = .ok samplePlatform := by
    rw [init, VirtAddr.new_of_canonical (show Canonical (0x8000#64).toNat by decide)]
    rfl
  have hstep : UserStep samplePlatform c (sampleCall c) :=
    ⟨hready.userMode, hready.userMode, rfl, rfl, fun _ _ => rfl⟩
  have hrange : InRange (sampleCall c) :=
    fun _ => show 1 ≤ (0x5000 : UInt64).toNat ∧ 1 ≤ (4 : UInt64).toNat ∧
      (0x5000 : UInt64).toNat + (4 : UInt64).toNat ≤ 2 ^ 47 by decide
  have hs : FlagSession sampleControllers samplePlacement .panic sampleTable c [] (sampleCall c) :=
    .user .start hstep rfl
  obtain ⟨-, -, hnext⟩ := session_interrupts samplePlacement hinit sampleBoot_entering hrun hs
  obtain ⟨e, hpasses, hoff, -, hperformed⟩ := hnext hstub
    (show samplePlatform.WritableWord (0x5800#64 - 8#64) by decide)
  obtain ⟨x, hx⟩ := hperformed (show samplePlatform.UserWord 0x5800#64 by decide)
    (show (2 : UInt64) ≠ 3 by decide) hrange _ (innerReturns_ret samplePlacement e) hoff
  have hs' := FlagSession.call hs hx
  obtain ⟨⟨-, hexit⟩, -⟩ := session_interrupts samplePlacement hinit sampleBoot_entering hrun hs'
  exact ⟨c, _, hrun, hs', hexit, .inl ⟨reaches_of_runsUntil hpasses, .refl⟩, hoff⟩

end SyscallEntry
