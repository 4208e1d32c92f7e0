/-
Sessions with the screen: what the calls of a program come back with, and what
they leave behind.

Here `syscall_handler_inner` is its model: it gets the six argument registers
and reads user memory through the page table, and what it returns is in `rax`
when it is back.  The reference is `reply`, on the registers and the memory the
program had when it called the stub.  The stub pushes `rbp` before the kernel
looks at the memory, so that one word is as the stub has left it.

* `Call.Runs.passed_mem`, `Call.Runs.exit_mem` — user memory over a call;
* `Call.Answered.reply` — one call is answered as the reference says;
* `session_replies` — so is every call of every session, and the screen shows
  the texts of the calls in their order.
-/
import ZuluOs.SyscallEntry
import ZuluOs.SyscallReplies

open ByteMemory Transition Syscalls VgaBuffer

/-- A register as an argument or a result. -/
def Cpu.arg (c : Cpu) (r : Reg) : UInt64 := .ofBitVec (c.regs r)

namespace SyscallEntry

/-- The byte at an address. -/
def byteOf (mem : ByteMemory) (a : ℕ) : UInt8 := .ofBitVec (mem (.ofNat 64 a))

/-- User code finds in `mem` what is in its frames. -/
def Views (pt : PageTable) (pm : PhysMemory) (mem : ByteMemory) : Prop :=
  ∀ a, Accessible pt .readOnly a → pt.byteAt pm a = byteOf mem a

variable {p : Platform} {pl : Placement p} {o : Overflow} {pt : PageTable} {c d : Cpu}
  {r : Call} {w w' w₀ : Writer} {x : Word}

/-- The call is answered by `syscall_handler_inner`, which stores nothing in
user memory and takes the writer from `w` to `w'`. -/
structure Call.Answered (pl : Placement p) (o : Overflow) (pt : PageTable) (r : Call)
    (w w' : Writer) : Prop where
  runs : r.Runs pl
  handler : ∃ pm, Views pt pm r.passed.mem ∧
    syscallHandlerInner o pt pm (r.passed.arg .rdi) (r.passed.arg .rsi) (r.passed.arg .rdx)
      (r.passed.arg .rcx) (r.passed.arg .r8) (r.passed.arg .r9) w = .ok (r.returned.arg .rax, w')
  mem : ∀ x, p.user x = true → r.returned.mem x = r.passed.mem x

/-- User code and answered calls in any order, with the writer. -/
inductive ScreenSession (pl : Placement p) (o : Overflow) (pt : PageTable) (c : Cpu)
    (w₀ : Writer) : List Call → Cpu → Writer → Prop
  | start : ScreenSession pl o pt c w₀ [] c w₀
  | user {calls d d' w} : ScreenSession pl o pt c w₀ calls d w → UserStep p d d' →
      ScreenSession pl o pt c w₀ calls d' w
  | call {calls r w w'} : ScreenSession pl o pt c w₀ calls r.entry w →
      r.Answered pl o pt w w' → ScreenSession pl o pt c w₀ (r :: calls) r.exit w'

/-- User memory as the stub leaves it: `rbp` is pushed. -/
def Call.memory (r : Call) : ByteMemory :=
  writeWord r.entry.mem (r.entry.regs .rsp - 8#64) (r.entry.regs .rbp)

/-- The answer of the reference, and the text. -/
noncomputable def Call.reply (pt : PageTable) (r : Call) : UInt64 × List UInt8 :=
  Syscalls.reply pt (byteOf r.memory) (r.entry.arg .rdi) (r.entry.arg .rdx) (r.entry.arg .rcx)

/-- A range, if the call takes one, is a non-empty one of the lower half above
address 0: what a slice of the program can be. -/
def InRange (c : Cpu) : Prop := c.arg .rdi = 1 ∨ c.arg .rdi = 2 →
  1 ≤ (c.arg .rdx).toNat ∧ 1 ≤ (c.arg .rcx).toNat ∧
    (c.arg .rdx).toNat + (c.arg .rcx).toNat ≤ 2 ^ 47

/-! ### User memory over a call -/

theorem not_inWord_hidden (pl : Placement p) (hx : p.user x = true) {a : Word}
    (ha : a ∈ [pl.threadData, pl.threadData + 8#64, pl.kernelRsp - 8#64, pl.kernelRsp - 16#64,
      pl.kernelRsp - 24#64]) : ¬ InWord a x := by
  intro hin
  rw [pl.hidden a ha x hin] at hx
  cases hx

/-- Up to `syscall_handler_inner`: the rest of what is stored goes to the
kernel's own words. -/
theorem Call.Runs.passed_mem (hr : r.Runs pl) (hc : Ready pl r.entry) (hx : p.user x = true) :
    r.passed.mem x = r.memory x := by
  obtain ⟨after, s, -, hs, hrun⟩ := stub_enters pl hr.stub fun _ => hr.frame
  have hk : readWord s.mem pl.threadData = pl.kernelRsp := by
    rw [hs.mem, readWord_writeWord_of_apart (user_apart pl hr.frame.userWord (by simp)).symm,
      hc.kernelRsp]
  obtain ⟨back, e, -, he, hcall⟩ :=
    handler_calls hs.rip hs.userMode (hs.kernelGsBase.trans hc.kernelGsBase) hk
  obtain rfl := (hrun e hcall).unique hr.passes
  rw [he.mem, writeWord_of_not_inWord (not_inWord_hidden pl hx (by simp)),
    writeWord_of_not_inWord (not_inWord_hidden pl hx (by simp)),
    writeWord_of_not_inWord (not_inWord_hidden pl hx (by simp)),
    writeWord_of_not_inWord (not_inWord_hidden pl hx (by simp)), hs.mem, Call.memory]

/-- From there on: only the kernel's stack pointer is stored. -/
theorem Call.Runs.exit_mem (hr : r.Runs pl) (hc : Ready pl r.entry) (hx : p.user x = true) :
    r.exit.mem x = r.returned.mem x := by
  obtain ⟨e, hrun, he⟩ := reaches_inner hc hr.stub hr.frame
  obtain rfl := hrun.unique hr.passes
  have hb := hr.inner
  obtain ⟨a₁, hleave, a₂, hret, -⟩ := he.after
  have hslot : readWord r.returned.mem (r.returned.regs .rsp + 8#64)
      = readWord r.passed.mem (pl.kernelRsp - 8#64) := by
    rw [hb.slots _ (by simp [hb.rsp, add_eight_add_eight]), hb.rsp, he.rsp]
    congr 1
    bv_omega
  have hexit : Cpu.Located p r.returned.rip syscallHandlerExit := by
    rw [hb.rip, he.rsp]
    exact he.back
  have hcanon : Canonical (readWord r.returned.mem (r.returned.regs .rsp + 8#64)).toNat := by
    rw [hslot]
    exact pl.canonical _ _ hleave
  obtain ⟨d, hd, hresume⟩ := handler_resumes pl hexit (hb.userMode.trans he.userMode)
    (hb.gsBase.trans he.gsBase) hcanon
  have hcode : p.code d.rip = some (.leave, a₁) := by rw [hd.rip, hslot, hleave]
  have hrbp : d.regs .rbp = r.entry.regs .rsp - 8#64 := by
    rw [hd.others .rbp (by simp), hb.saved .rbp (by simp [savedRegs]), he.rbp]
  -- `leave` and `ret` store nothing
  obtain ⟨f, hback, hnext⟩ := hr.returns
  obtain rfl := (hresume _ (runsUntil_exec hcode (not_atRet hcode (by simp))
    (if_pos fun _ => hrbp ▸ hr.frame.userWord) (.here ⟨a₂, hret⟩))).unique hback
  rw [Cpu.next_of_code hret, Cpu.exec] at hnext
  obtain ⟨-, hnext⟩ := Option.ite_none_right_eq_some.mp hnext
  rw [← Option.some_inj.mp hnext]
  show d.mem x = _
  rw [hd.mem, writeWord_of_not_inWord (not_inWord_hidden pl hx (by simp))]

/-! ### One call -/

/-- User code may read and write what the table says. -/
structure UserTable (p : Platform) (pt : PageTable) : Prop where
  user : ∀ x, p.user x = true ↔ Accessible pt .readOnly x.toNat
  userWrite : ∀ x, p.userWrite x = true ↔ Accessible pt .readWrite x.toNat

theorem UserTable.user_ofNat (hpt : UserTable p pt) {a : ℕ} (ha : Accessible pt .readOnly a) :
    p.user (.ofNat 64 a) = true := by
  obtain ⟨v, rfl, -⟩ := id ha
  rw [hpt.user, BitVec.toNat_ofNat, Nat.mod_eq_of_lt v.addr_lt]
  exact ha

theorem rangeBytes_congr {view view' : ℕ → UInt8} {ptr bytes : ℕ}
    (h : ∀ a, ptr ≤ a → a < ptr + bytes → view a = view' a) :
    rangeBytes view ptr bytes = rangeBytes view' ptr bytes := by
  refine List.map_congr_left fun i hi => h _ (by omega) ?_
  have := List.mem_range.mp hi
  omega

/-- Memory in which user pages have frames of their own can hold whatever user
code finds. -/
theorem exists_views
    (hframes : ∀ p q frame flags flags', pt p = .mapped frame flags →
      flags.contains .USER_ACCESSIBLE = true → pt q = .mapped frame flags' →
      flags'.contains .USER_ACCESSIBLE = true → p = q) (mem : ByteMemory) :
    ∃ pm, Views pt pm mem := by
  classical
  -- the byte that a user page has in the frame
  let Holds : PhysFrame → ℕ → VirtAddr → Prop := fun frame i v => v.addr % 4096 = i ∧ ∃ flags,
    pt (.containingAddress v) = .mapped frame flags ∧ flags.contains .USER_ACCESSIBLE = true
  refine ⟨fun frame i => if h : ∃ v, Holds frame i v then byteOf mem h.choose.addr else 0, ?_⟩
  rintro a ⟨v, rfl, frame, flags, hmap, huser, -⟩
  have h : ∃ v', Holds frame (v.addr % 4096) v' := ⟨v, rfl, flags, hmap, huser⟩
  obtain ⟨hoffset, flags', hmap', huser'⟩ := h.choose_spec
  rw [PageTable.byteAt, PageTable.loadByte_ok hmap, dif_pos h,
    Page.containingAddress_inj (hframes _ _ _ _ _ hmap' huser' hmap huser) hoffset]

/-- The reference looks at accessible bytes only. -/
theorem reply_congr {view view' : ℕ → UInt8}
    (h : ∀ a, Accessible pt .readOnly a → view a = view' a) (num ptr bytes : UInt64) :
    Syscalls.reply pt view num ptr bytes = Syscalls.reply pt view' num ptr bytes := by
  unfold Syscalls.reply
  by_cases hacc : RangeAccessible pt .readOnly ptr.toNat bytes.toNat
  · rw [rangeBytes_congr fun a hstart hend => h a (hacc a hstart hend)]
  · rw [if_neg hacc, if_neg hacc]

theorem handler_exit {pm : PhysMemory} {arg0 arg1 arg2 arg3 arg4 v : UInt64} :
    syscallHandlerInner o pt pm 3 arg0 arg1 arg2 arg3 arg4 w ≠ .ok (v, w') := by
  rw [syscallHandlerInner, resolve_exit]
  intro h
  cases h

/-- **A call is answered as the reference says**, leaves its text on the screen
and user memory as the stub has left it. -/
theorem Call.Answered.replies (hr : r.Answered pl o pt w w') (hc : Ready pl r.entry)
    (hpt : UserTable p pt) (hrange : InRange r.entry) :
    r.exit.arg .rax = (r.reply pt).1 ∧
      (w.writeBytes (r.reply pt).2 : Outcome Error Writer) = .ok w' ∧
      ∀ x, p.user x = true → r.exit.mem x = r.memory x := by
  have htrip := hr.runs.roundTrip hc
  obtain ⟨pm, hviews, hhandler⟩ := hr.handler
  have hargs : ∀ q ∈ argumentRegs, r.passed.arg q = r.entry.arg q :=
    fun q hq => congrArg UInt64.ofBitVec (htrip.arguments q hq)
  rw [hargs .rdi (by decide), hargs .rdx (by decide), hargs .rcx (by decide)] at hhandler
  have hexit : r.entry.arg .rdi ≠ 3 := by
    intro h
    rw [h] at hhandler
    exact handler_exit hhandler
  have hmem : ∀ a, Accessible pt .readOnly a → pt.byteAt pm a = byteOf r.memory a := by
    intro a ha
    rw [hviews a ha, byteOf, hr.runs.passed_mem hc (hpt.user_ofNat ha), byteOf]
  obtain ⟨w₁, hw₁, hreply⟩ := syscallHandlerInner_reply o pt pm (r.entry.arg .rdi)
    (r.passed.arg .rsi) (r.entry.arg .rdx) (r.entry.arg .rcx) (r.passed.arg .r8)
    (r.passed.arg .r9) w hexit hrange
  obtain ⟨hrax, rfl⟩ := Prod.mk.inj (Outcome.ok.inj (hhandler.symm.trans hreply))
  rw [reply_congr hmem] at hrax hw₁
  refine ⟨?_, hw₁, fun x hx => ?_⟩
  · rw [Cpu.arg, htrip.result]
    exact hrax
  · rw [hr.runs.exit_mem hc hx, hr.mem x hx, hr.runs.passed_mem hc hx]

/-! ### Sessions -/

variable {calls : List Call}

theorem ScreenSession.session (h : ScreenSession pl o pt c w₀ calls d w) :
    Session pl c calls d := by
  induction h with
  | start => exact .start
  | user _ hstep ih => exact .user ih hstep
  | call _ hr ih => exact .call ih hr.runs

/-- The texts of the calls, the first one first; `calls` has the last one first. -/
noncomputable def texts (pt : PageTable) (calls : List Call) : List UInt8 :=
  calls.reverse.flatMap fun r => (r.reply pt).2

theorem texts_cons (pt : PageTable) (r : Call) (calls : List Call) :
    texts pt (r :: calls) = texts pt calls ++ (r.reply pt).2 := by
  rw [texts, List.reverse_cons, List.flatMap_append, List.flatMap_singleton, texts]

/-- What every step of a session adds to the screen. -/
theorem ScreenSession.replies (h : ScreenSession pl o pt c w₀ calls d w) (hc : Ready pl c)
    (hpt : UserTable p pt) (hrange : ∀ r ∈ calls, InRange r.entry) :
    (∀ r ∈ calls, r.exit.arg .rax = (r.reply pt).1 ∧
      ∀ x, p.user x = true → r.exit.mem x = r.memory x) ∧
    ∀ rest, w.terminal rest = w₀.terminal (texts pt calls ++ rest) := by
  induction h with
  | start => exact ⟨by simp, fun rest => rfl⟩
  | user _ _ ih => exact ih hrange
  | @call calls r w w' hs hr ih =>
    obtain ⟨hfirst, hrest⟩ := List.forall_mem_cons.mp hrange
    obtain ⟨hcalls, hscreen⟩ := ih hrest
    obtain ⟨hrax, hw', hmem⟩ := hr.replies (hs.session.ready hc).1 hpt hfirst
    refine ⟨List.forall_mem_cons.mpr ⟨⟨hrax, hmem⟩, hcalls⟩, fun rest => ?_⟩
    obtain ⟨w₁, hw₁, hshow⟩ := w.writeBytes_append_terminal (ε := Error) (r.reply pt).2 rest
    obtain rfl := Outcome.ok.inj (hw'.symm.trans hw₁)
    rw [hshow, hscreen, texts_cons, List.append_assoc]

/-- A `syscall_handler_inner` that returns at once with `v`. -/
theorem innerReturns_answer (pl : Placement p) (e : Cpu) (v : Word) :
    InnerReturns pl e (((e.set .rax v).set .rsp (e.regs .rsp + 8#64)).goto
      (readWord e.mem (e.regs .rsp))) := by
  constructor
  case saved => simp [savedRegs]
  all_goals simp

/-- A call other than `Exit` can be made, and is answered. -/
theorem Ready.exists_answered (hd : Ready pl d) (hstub : Cpu.Located p d.rip syscallStub)
    (hframe : p.WritableWord (d.regs .rsp - 8#64)) (huser : p.UserWord (d.regs .rsp))
    (hrange : InRange d) (hexit : d.arg .rdi ≠ 3) :
    ∃ e, RunsUntil (Cpu.next p) (·.rip = pl.inner) d e ∧
      ∀ pm, Views pt pm e.mem → ∃ (r : Call) (w' : Writer),
        r.entry = d ∧ r.Answered pl o pt w w' := by
  obtain ⟨e, hrun, hcall⟩ := hd.exists_call hstub hframe huser
  refine ⟨e, hrun, fun pm hviews => ?_⟩
  obtain ⟨e', hrun', he⟩ := reaches_inner hd hstub hframe
  obtain rfl := hrun.unique hrun'
  have hargs : ∀ q ∈ argumentRegs, e.arg q = d.arg q :=
    fun q hq => congrArg UInt64.ofBitVec (he.arguments q hq)
  obtain ⟨w', -, hreply⟩ := syscallHandlerInner_reply o pt pm (d.arg .rdi) (e.arg .rsi)
    (d.arg .rdx) (d.arg .rcx) (e.arg .r8) (e.arg .r9) w hexit hrange
  rw [← hargs .rdi (by decide), ← hargs .rdx (by decide), ← hargs .rcx (by decide)] at hreply
  generalize Syscalls.reply _ _ _ _ _ = answer at hreply
  obtain ⟨x, hx⟩ := hcall _ (innerReturns_answer pl e answer.1.toBitVec)
  refine ⟨_, w', rfl, hx, ⟨pm, hviews, hreply.trans ?_⟩, fun x _ => rfl⟩
  simp [Cpu.arg]

/-- **Every call of every session is answered as the reference says.**  After
`enter_user_mode`, whatever user code does in between, if the ranges of the calls
are slices of the lower half, each call returns what the reference gives for its
registers and its memory, leaves user memory as the stub has left it, and adds its
text to the screen; and one more call of that kind can be made and is answered,
unless it is `Exit`. -/
theorem session_replies {boot : Cpu} (pl : Placement p) (hboot : Entering pl boot)
    (henter : RunsUntil (Cpu.next p) (·.userMode = true) boot c) (hpt : UserTable p pt)
    (hs : ScreenSession pl o pt c w₀ calls d w) (hrange : ∀ r ∈ calls, InRange r.entry) :
    (∀ r ∈ calls, r.exit.arg .rax = (r.reply pt).1 ∧
      ∀ x, p.user x = true → r.exit.mem x = r.memory x) ∧
    (w.rows, w.columnPosition) = w₀.terminal (texts pt calls) ∧
    (Cpu.Located p d.rip syscallStub → p.WritableWord (d.regs .rsp - 8#64) →
      p.UserWord (d.regs .rsp) → InRange d → d.arg .rdi ≠ 3 →
        ∃ e, RunsUntil (Cpu.next p) (·.rip = pl.inner) d e ∧
          ∀ pm, Views pt pm e.mem → ∃ (r : Call) (w' : Writer),
            r.entry = d ∧ r.Answered pl o pt w w') := by
  obtain ⟨c', hrun, hready, -⟩ := hboot.enters
  obtain rfl := hrun.unique henter
  obtain ⟨hcalls, hscreen⟩ := hs.replies hready hpt hrange
  refine ⟨hcalls, ?_, (hs.session.ready hready).1.exists_answered⟩
  rw [← w.terminal_nil, hscreen [], List.append_nil]

/-! ### A session with one `Write` -/

theorem sampleFrame_lt (page : Page) : page.number < 2 ^ 40 :=
  page.number_lt.trans (by decide)

/-- Two pages, each in the frame of its own number. -/
def sampleTable : PageTable := fun page =>
  if page.number = 4 ∨ page.number = 5 then
    .mapped ⟨page.number, sampleFrame_lt page⟩ (.PRESENT ∪ .USER_ACCESSIBLE ∪ .WRITABLE)
  else .notMapped

theorem accessible_sampleTable {access : ReadAccess} {a : ℕ} :
    Accessible sampleTable access a ↔ 0x4000 ≤ a ∧ a < 0x6000 := by
  constructor
  · rintro ⟨v, rfl, frame, flags, hmap, -⟩
    change (if _ then _ else _) = _ at hmap
    split at hmap
    · next hpage =>
      change v.addr % 2 ^ 48 / 4096 = 4 ∨ v.addr % 2 ^ 48 / 4096 = 5 at hpage
      have hcanon := v.canonical
      unfold Canonical at hcanon
      omega
    · cases hmap
  · rintro ⟨hlo, hhi⟩
    have hpage : a % 2 ^ 48 / 4096 = 4 ∨ a % 2 ^ 48 / 4096 = 5 := by omega
    exact ⟨⟨a, .inl (by omega)⟩, rfl, _, _, if_pos hpage, by decide, fun _ => by decide⟩

theorem sampleTable_user : UserTable samplePlatform sampleTable where
  user x := by
    rw [accessible_sampleTable]
    exact decide_eq_true_iff
  userWrite x := by
    rw [accessible_sampleTable]
    exact decide_eq_true_iff

theorem number_of_sampleTable {page : Page} {frame : PhysFrame} {flags : PageTableFlags}
    (h : sampleTable page = .mapped frame flags) : frame.number = page.number := by
  change (if _ then _ else _) = _ at h
  split at h
  · obtain ⟨rfl, -⟩ := TranslateResult.mapped.inj h
    rfl
  · cases h

theorem sampleTable_views (mem : ByteMemory) : ∃ pm, Views sampleTable pm mem := by
  refine exists_views (fun p q frame flags flags' hp _ hq _ => Page.ext ?_) mem
  rw [← number_of_sampleTable hp, number_of_sampleTable hq]

/-- `write(0, bytes)`, with four bytes at `0x5000`. -/
def sampleCall (c : Cpu) : Cpu :=
  { c with regs := fun r => match r with
    | .rdi => 2#64
    | .rdx => 0x5000#64
    | .rcx => 4#64
    | .rsp => 0x5800#64
    | _ => 0#64 }

theorem session_replies_write : ∃ c r w,
    RunsUntil (Cpu.next samplePlatform) (·.userMode = true) sampleBoot c ∧
    ScreenSession samplePlacement .panic sampleTable c default [r] r.exit w ∧
    r.exit.arg .rax = 4 ∧
    (w.rows, w.columnPosition) = (default : Writer).terminal (texts sampleTable [r]) := by
  obtain ⟨c, hrun, hready, hrip, -, -⟩ := sampleBoot_entering.enters
  have hstub : Cpu.Located samplePlatform (sampleCall c).rip syscallStub := by
    show Cpu.Located samplePlatform c.rip syscallStub
    rw [hrip]
    exact ⟨_, rfl, _, rfl, _, rfl, _, rfl, _, rfl, _, rfl, trivial⟩
  have hstep : UserStep samplePlatform c (sampleCall c) :=
    ⟨hready.userMode, hready.userMode, rfl, rfl, fun _ _ => rfl⟩
  have hrange : InRange (sampleCall c) :=
    fun _ => show 1 ≤ (0x5000 : UInt64).toNat ∧ 1 ≤ (4 : UInt64).toNat ∧
      (0x5000 : UInt64).toNat + (4 : UInt64).toNat ≤ 2 ^ 47 by decide
  have hs : ScreenSession samplePlacement .panic sampleTable c default [] (sampleCall c) default :=
    .user .start hstep
  obtain ⟨-, -, hnext⟩ := session_replies samplePlacement sampleBoot_entering hrun
    sampleTable_user hs (by simp)
  obtain ⟨e, -, hanswer⟩ := hnext hstub
    (show samplePlatform.WritableWord (0x5800#64 - 8#64) by decide)
    (show samplePlatform.UserWord 0x5800#64 by decide) hrange (show (2 : UInt64) ≠ 3 by decide)
  obtain ⟨pm, hviews⟩ := sampleTable_views e.mem
  obtain ⟨r, w, hentry, hr⟩ := hanswer pm hviews
  have hs' := ScreenSession.call (hentry ▸ hs) hr
  obtain ⟨hcalls, hscreen, -⟩ := session_replies samplePlacement sampleBoot_entering hrun
    sampleTable_user hs' (by simpa [hentry] using hrange)
  refine ⟨c, r, w, hrun, hs', ?_, hscreen⟩
  have hacc : RangeAccessible sampleTable .readOnly 0x5000 4 :=
    fun a hlo hhi => accessible_sampleTable.mpr ⟨by omega, by omega⟩
  have hnum : (sampleCall c).arg .rdi = 2 := rfl
  rw [(hcalls r (by simp)).1, Call.reply, hentry, Syscalls.reply, hnum, if_neg (by decide),
    if_pos rfl]
  exact congrArg Prod.fst (if_pos hacc)

end SyscallEntry
