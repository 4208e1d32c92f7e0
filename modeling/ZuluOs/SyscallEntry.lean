/-
The way of a system call: the stubs of `syscall/src/lib.rs`, `syscall_handler`
of `kernel/src/syscall/handler.rs` and `enter_user_mode` of `main.rs`.

`syscall_handler_inner` is any code that keeps to `InnerReturns`: the System V
convention, and no writes to `ThreadData`, to the words the handler has pushed
or to the frame of the stub (`io::read` and `io::write` store nothing through
the slices they get).  Between system calls user code does what user code can
(`UserStep`).

* `stub_enters`, `handler_calls`, `handler_resumes` — the straight pieces of code;
* `reaches_inner`, `reaches_ret` — a call up to `syscall_handler_inner`, and
  from there up to the `ret` of the stub;
* `Session.ready` — user code always finds the kernel ready for the next call;
* `session_round_trips` — every call of every session is a round trip, and a
  session can always be continued by another one.
-/
import ZuluOs.Cpu
import ZuluOs.Transition

open ByteMemory Transition

namespace SyscallEntry

/-! ### The code -/

/-- The body that `syscall!` gives to each of `syscall_0` .. `syscall_5`. -/
def syscallStub : List Instr :=
  [.push .rbp, .mov .rbp .rsp, .mov .r10 .rcx, .syscall, .leave, .ret]

/-- `offset_of!(ThreadData, kernel_rsp)` -/
def kernelRspOffset : Word := 0#64

/-- `offset_of!(ThreadData, user_tmp_rsp)` -/
def userTmpRspOffset : Word := 8#64

/-- What `syscall_handler` does once `syscall_handler_inner` is back. -/
def syscallHandlerExit : List Instr :=
  [.pop .r11, .pop .rcx, .storeGs kernelRspOffset .rsp, .loadGs .rsp userTmpRspOffset,
    .swapgs, .sysretq]

/-- `syscall_handler`, with the address of `syscall_handler_inner`. -/
def syscallHandler (inner : Word) : List Instr :=
  [.swapgs, .storeGs userTmpRspOffset .rsp, .loadGs .rsp kernelRspOffset, .push .rcx,
    .push .r11, .mov .rcx .r10, .call inner] ++ syscallHandlerExit

/-- `user_mode_flags`: the interrupt flag and the bit that is always set. -/
def userModeFlags : Word := 0x200 ||| 2

/-- `enter_user_mode` -/
def enterUserMode : List Instr :=
  [.mov .rcx .rdi, .movImm .r11 userModeFlags, .mov .rsp .rsi, .mov .rbp .rsi, .swapgs, .sysretq]

/-! ### The system -/

/-- The registers in which System V passes the number and the five arguments. -/
def argumentRegs : List Reg := [.rdi, .rsi, .rdx, .rcx, .r8, .r9]

/-- The registers, `rsp` apart, that a System V function keeps. -/
def savedRegs : List Reg := [.rbp, .rbx, .r12, .r13, .r14, .r15]

/-- Where the kernel's side is: its code, its `ThreadData` and its stack, none
of which user code can access. -/
structure Placement (p : Platform) where
  threadData : Word
  kernelRsp : Word
  inner : Word
  handler : Cpu.Located p p.lstar (syscallHandler inner)
  -- `syscall_handler_inner` is known by its contract only
  inner_code : p.code inner = none
  canonical : ∀ a e, p.code a = some e → Canonical a.toNat
  hidden : ∀ a ∈ [threadData, threadData + 8#64, kernelRsp - 8#64, kernelRsp - 16#64,
    kernelRsp - 24#64], ∀ x, InWord a x → p.user x = false
  apart : ∀ a ∈ [kernelRsp - 8#64, kernelRsp - 16#64, kernelRsp - 24#64],
    Apart a threadData ∧ Apart a (threadData + 8#64)

variable {p : Platform}

/-- The contract of `syscall_handler_inner`, called in `e` and back in `b`. -/
structure InnerReturns (pl : Placement p) (e b : Cpu) : Prop where
  rip : b.rip = readWord e.mem (e.regs .rsp)
  rsp : b.regs .rsp = e.regs .rsp + 8#64
  saved : ∀ r ∈ savedRegs, b.regs r = e.regs r
  userMode : b.userMode = e.userMode
  gsBase : b.gsBase = e.gsBase
  kernelGsBase : b.kernelGsBase = e.kernelGsBase
  threadData : ∀ a ∈ [pl.threadData, pl.threadData + 8#64], readWord b.mem a = readWord e.mem a
  slots : ∀ a ∈ [e.regs .rsp + 8#64, e.regs .rsp + 16#64], readWord b.mem a = readWord e.mem a
  frame : ∀ a ∈ [e.regs .rbp, e.regs .rbp + 8#64], readWord b.mem a = readWord e.mem a

/-- What user code can do on its own: anything to the registers, the flags and
the memory it may write; it does not change the GS bases. -/
structure UserStep (p : Platform) (c d : Cpu) : Prop where
  before : c.userMode = true
  after : d.userMode = true
  gsBase : d.gsBase = c.gsBase
  kernelGsBase : d.kernelGsBase = c.kernelGsBase
  mem : ∀ x, p.userWrite x = false → d.mem x = c.mem x

/-- A system call: the states at the first instruction of the stub, at the
first one of `syscall_handler_inner`, where that is back, and after the `ret`
of the stub. -/
structure Call where
  entry : Cpu
  passed : Cpu
  returned : Cpu
  exit : Cpu

/-- The next instruction is a `ret`. -/
def AtRet (p : Platform) (c : Cpu) : Prop := ∃ a, p.code c.rip = some (.ret, a)

/-- The call is a run of the machine, with `syscall_handler_inner` in between. -/
structure Call.Runs (pl : Placement p) (r : Call) : Prop where
  userMode : r.entry.userMode = true
  stub : Cpu.Located p r.entry.rip syscallStub
  passes : RunsUntil (Cpu.next p) (·.rip = pl.inner) r.entry r.passed
  inner : InnerReturns pl r.passed r.returned
  returns : ∃ c, RunsUntil (Cpu.next p) (AtRet p) r.returned c ∧ Cpu.next p c = some r.exit

/-- User code and system calls in any order from `c` on, with the calls so far. -/
inductive Session (pl : Placement p) (c : Cpu) : List Call → Cpu → Prop
  | start : Session pl c [] c
  | user {calls d d'} : Session pl c calls d → UserStep p d d' → Session pl c calls d'
  | call {calls r} : Session pl c calls r.entry → r.Runs pl → Session pl c (r :: calls) r.exit

/-- What the caller of the stub and `syscall_handler_inner` rely on. -/
structure Call.RoundTrip (pl : Placement p) (r : Call) : Prop where
  arguments : ∀ q ∈ argumentRegs, r.passed.regs q = r.entry.regs q
  result : r.exit.regs .rax = r.returned.regs .rax
  rip : r.exit.rip = readWord r.entry.mem (r.entry.regs .rsp)
  -- the return address is popped, which is where the caller's `rsp` was
  rsp : r.exit.regs .rsp = r.entry.regs .rsp + 8#64
  saved : ∀ q ∈ savedRegs, r.exit.regs q = r.entry.regs q
  rflags : r.exit.rflags = Cpu.sysretFlags r.entry.rflags
  userMode : r.exit.userMode = true
  gsBase : r.exit.gsBase = r.entry.gsBase
  kernelGsBase : r.exit.kernelGsBase = r.entry.kernelGsBase
  kernelRsp : readWord r.exit.mem pl.threadData = readWord r.entry.mem pl.threadData

/-- User code runs, and the kernel's GS base and stack pointer are in place. -/
structure Ready (pl : Placement p) (c : Cpu) : Prop where
  userMode : c.userMode = true
  kernelGsBase : c.kernelGsBase = pl.threadData
  kernelRsp : readWord c.mem pl.threadData = pl.kernelRsp

/-! ### Straight pieces of code -/

variable {pl : Placement p} {c d e b s : Cpu} {a after : Word}

theorem runsUntil_exec {stop : Cpu → Prop} {i : Instr} {t : Cpu}
    (hcode : p.code c.rip = some (i, a)) (hstop : ¬ stop c) (hexec : Cpu.exec p c a i = some d)
    (hrest : RunsUntil (Cpu.next p) stop d t) : RunsUntil (Cpu.next p) stop c t :=
  .step hstop ((Cpu.next_of_code hcode).trans hexec) hrest

theorem rip_ne_inner (pl : Placement p) {i : Instr × Word} (h : p.code c.rip = some i) :
    ¬ c.rip = pl.inner := by
  intro hrip
  rw [hrip, pl.inner_code] at h
  exact absurd h (by simp)

theorem not_atRet {i : Instr} (h : p.code c.rip = some (i, a)) (hi : i ≠ .ret) : ¬ AtRet p c := by
  rintro ⟨a', h'⟩
  rw [h, Option.some_inj, Prod.mk.injEq] at h'
  exact hi h'.1

/-- The stub up to its `syscall`: `c` is at the stub, `s` at the handler. -/
structure Entered (p : Platform) (after : Word) (c s : Cpu) : Prop where
  rip : s.rip = p.lstar
  userMode : s.userMode = false
  gsBase : s.gsBase = c.gsBase
  kernelGsBase : s.kernelGsBase = c.kernelGsBase
  rsp : s.regs .rsp = c.regs .rsp - 8#64
  rbp : s.regs .rbp = c.regs .rsp - 8#64
  rcx : s.regs .rcx = after
  r10 : s.regs .r10 = c.regs .rcx
  r11 : s.regs .r11 = c.rflags
  others : ∀ r ∉ [Reg.rsp, .rbp, .rcx, .r10, .r11], s.regs r = c.regs r
  mem : s.mem = writeWord c.mem (c.regs .rsp - 8#64) (c.regs .rbp)

theorem stub_enters (pl : Placement p) (hstub : Cpu.Located p c.rip syscallStub)
    (hacc : Cpu.StoreAccess p c (c.regs .rsp - 8#64)) :
    ∃ after s, Cpu.Located p after [.leave, .ret] ∧ Entered p after c s ∧
      ∀ e, RunsUntil (Cpu.next p) (·.rip = pl.inner) s e →
        RunsUntil (Cpu.next p) (·.rip = pl.inner) c e := by
  obtain ⟨a₁, h₀, a₂, h₁, a₃, h₂, a₄, h₃, hrest⟩ := hstub
  refine ⟨a₄, _, hrest, ?_, fun e he =>
    runsUntil_exec h₀ (rip_ne_inner pl h₀) (if_pos hacc) <|
    runsUntil_exec h₁ (rip_ne_inner pl h₁) rfl <|
    runsUntil_exec h₂ (rip_ne_inner pl h₂) rfl <|
    runsUntil_exec h₃ (rip_ne_inner pl h₃) rfl he⟩
  constructor
  case others =>
    intro r hr
    simp only [List.mem_cons, List.not_mem_nil, or_false, not_or] at hr
    simp [hr]
  all_goals simp

/-- The handler up to its `call`: `s` is at the handler, `e` at
`syscall_handler_inner`, which returns to `back`. -/
structure Called (pl : Placement p) (back : Word) (s e : Cpu) : Prop where
  rip : e.rip = pl.inner
  userMode : e.userMode = false
  gsBase : e.gsBase = s.kernelGsBase
  kernelGsBase : e.kernelGsBase = s.gsBase
  rsp : e.regs .rsp = pl.kernelRsp - 24#64
  rcx : e.regs .rcx = s.regs .r10
  others : ∀ r ∉ [Reg.rsp, .rcx], e.regs r = s.regs r
  mem : e.mem = writeWord (writeWord (writeWord
    (writeWord s.mem (pl.threadData + 8#64) (s.regs .rsp))
      (pl.kernelRsp - 8#64) (s.regs .rcx)) (pl.kernelRsp - 16#64) (s.regs .r11))
        (pl.kernelRsp - 24#64) back

theorem sub_eight_sub_eight (a : Word) : a - 8#64 - 8#64 = a - 16#64 := by bv_omega

theorem sub_sixteen_sub_eight (a : Word) : a - 16#64 - 8#64 = a - 24#64 := by bv_omega

theorem handler_calls (hrip : s.rip = p.lstar) (hmode : s.userMode = false)
    (hgs : s.kernelGsBase = pl.threadData) (hk : readWord s.mem pl.threadData = pl.kernelRsp) :
    ∃ back e, Cpu.Located p back syscallHandlerExit ∧ Called pl back s e ∧
      RunsUntil (Cpu.next p) (·.rip = pl.inner) s e := by
  obtain ⟨a₁, h₀, a₂, h₁, a₃, h₂, a₄, h₃, a₅, h₄, a₆, h₅, a₇, h₆, hexit⟩ := pl.handler
  rw [← hrip] at h₀
  refine ⟨a₇, _, hexit, ?_,
    runsUntil_exec h₀ (rip_ne_inner pl h₀) (if_neg (by simp [hmode])) <|
    runsUntil_exec h₁ (rip_ne_inner pl h₁) (if_pos (Cpu.storeAccess_of_kernel hmode)) <|
    runsUntil_exec h₂ (rip_ne_inner pl h₂) (if_pos (Cpu.access_of_kernel hmode)) <|
    runsUntil_exec h₃ (rip_ne_inner pl h₃) (if_pos (Cpu.storeAccess_of_kernel hmode)) <|
    runsUntil_exec h₄ (rip_ne_inner pl h₄) (if_pos (Cpu.storeAccess_of_kernel hmode)) <|
    runsUntil_exec h₅ (rip_ne_inner pl h₅) rfl <|
    runsUntil_exec h₆ (rip_ne_inner pl h₆) (if_pos (Cpu.storeAccess_of_kernel hmode)) <|
    .here rfl⟩
  -- saving the user's `rsp` leaves the word next to it, which is loaded then
  have hload : readWord (writeWord s.mem (pl.threadData + 8#64) (s.regs .rsp)) pl.threadData =
      pl.kernelRsp := by
    rw [readWord_writeWord_of_apart (apart_add_eight _).symm, hk]
  constructor
  case others =>
    intro r hr
    simp only [List.mem_cons, List.not_mem_nil, or_false, not_or] at hr
    simp [hr]
  all_goals
    simp [hmode, hgs, hload, userTmpRspOffset, kernelRspOffset, sub_eight_sub_eight,
      sub_sixteen_sub_eight]

/-- The handler after its `call`: `syscall_handler_inner` is back in `b`, and
user code goes on in `d`. -/
structure Resumed (pl : Placement p) (b d : Cpu) : Prop where
  rip : d.rip = readWord b.mem (b.regs .rsp + 8#64)
  userMode : d.userMode = true
  rflags : d.rflags = Cpu.sysretFlags (readWord b.mem (b.regs .rsp))
  gsBase : d.gsBase = b.kernelGsBase
  kernelGsBase : d.kernelGsBase = b.gsBase
  rsp : d.regs .rsp = readWord b.mem (pl.threadData + 8#64)
  others : ∀ r ∉ [Reg.rsp, .rcx, .r11], d.regs r = b.regs r
  mem : d.mem = writeWord b.mem pl.threadData (b.regs .rsp + 16#64)

theorem add_eight_add_eight (a : Word) : a + 8#64 + 8#64 = a + 16#64 := by bv_omega

theorem handler_resumes (pl : Placement p) (hexit : Cpu.Located p b.rip syscallHandlerExit)
    (hmode : b.userMode = false) (hgs : b.gsBase = pl.threadData)
    (hcanon : Canonical (readWord b.mem (b.regs .rsp + 8#64)).toNat) :
    ∃ d, Resumed pl b d ∧ ∀ t, RunsUntil (Cpu.next p) (AtRet p) d t →
      RunsUntil (Cpu.next p) (AtRet p) b t := by
  obtain ⟨a₁, h₀, a₂, h₁, a₃, h₂, a₄, h₃, a₅, h₄, a₆, h₅, -⟩ := hexit
  refine ⟨_, ?_, fun t ht =>
    runsUntil_exec h₀ (not_atRet h₀ (by simp)) (if_pos (Cpu.access_of_kernel hmode)) <|
    runsUntil_exec h₁ (not_atRet h₁ (by simp)) (if_pos (Cpu.access_of_kernel hmode)) <|
    runsUntil_exec h₂ (not_atRet h₂ (by simp)) (if_pos (Cpu.storeAccess_of_kernel hmode)) <|
    runsUntil_exec h₃ (not_atRet h₃ (by simp)) (if_pos (Cpu.access_of_kernel hmode)) <|
    runsUntil_exec h₄ (not_atRet h₄ (by simp)) (if_neg (by simp [hmode])) <|
    runsUntil_exec h₅ (not_atRet h₅ (by simp)) (if_pos ⟨hmode, by simpa using hcanon⟩) ht⟩
  -- storing the kernel's `rsp` leaves the user's, which is loaded then
  have hload : ∀ v, readWord (writeWord b.mem pl.threadData v) (pl.threadData + 8#64) =
      readWord b.mem (pl.threadData + 8#64) :=
    fun v => readWord_writeWord_of_apart (apart_add_eight _)
  constructor
  case others =>
    intro r hr
    simp only [List.mem_cons, List.not_mem_nil, or_false, not_or] at hr
    simp [hr]
  all_goals
    simp [hgs, hload, userTmpRspOffset, kernelRspOffset, add_eight_add_eight]

/-! ### A call up to `syscall_handler_inner` -/

/-- The code on the way keeps what System V saves, `rbp` apart. -/
theorem saved_untouched : ∀ r ∈ savedRegs, r ≠ .rbp →
    r ∉ [Reg.rsp, .rbp, .rcx, .r10, .r11] ∧ r ∉ [Reg.rsp, .rcx] ∧ r ∉ [Reg.rsp, .rcx, .r11] := by
  decide

theorem user_apart (pl : Placement p) (ha : p.UserWord a) {w : Word}
    (hw : w ∈ [pl.threadData, pl.threadData + 8#64, pl.kernelRsp - 8#64, pl.kernelRsp - 16#64,
      pl.kernelRsp - 24#64]) : Apart w a := by
  refine (apart_of_bytes (P := (p.user · = true)) (fun x hx => Cpu.inWord_user ha hx) ?_).symm
  intro x hx huser
  rw [pl.hidden w hw x hx] at huser
  exact Bool.false_ne_true huser

/-- `c` is at the stub and `e` at `syscall_handler_inner`. -/
structure Passed (pl : Placement p) (c e : Cpu) : Prop where
  arguments : ∀ r ∈ argumentRegs, e.regs r = c.regs r
  saved : ∀ r ∈ savedRegs, r ≠ .rbp → e.regs r = c.regs r
  rbp : e.regs .rbp = c.regs .rsp - 8#64
  rsp : e.regs .rsp = pl.kernelRsp - 24#64
  userMode : e.userMode = false
  gsBase : e.gsBase = pl.threadData
  kernelGsBase : e.kernelGsBase = c.gsBase
  back : Cpu.Located p (readWord e.mem (pl.kernelRsp - 24#64)) syscallHandlerExit
  flags : readWord e.mem (pl.kernelRsp - 16#64) = c.rflags
  after : Cpu.Located p (readWord e.mem (pl.kernelRsp - 8#64)) [.leave, .ret]
  userRsp : readWord e.mem (pl.threadData + 8#64) = c.regs .rsp - 8#64
  frame : readWord e.mem (c.regs .rsp - 8#64) = c.regs .rbp
  ret : p.UserWord (c.regs .rsp) → readWord e.mem (c.regs .rsp) = readWord c.mem (c.regs .rsp)

theorem Called.readWord_user {back : Word} (h : Called pl back s e) (ha : p.UserWord a) :
    readWord e.mem a = readWord s.mem a := by
  rw [h.mem, readWord_writeWord_of_apart (user_apart pl ha (by simp)),
    readWord_writeWord_of_apart (user_apart pl ha (by simp)),
    readWord_writeWord_of_apart (user_apart pl ha (by simp)),
    readWord_writeWord_of_apart (user_apart pl ha (by simp))]

/-- The three pushed words lie next to each other. -/
theorem apart_slots (k : Word) :
    Apart (k - 24#64) (k - 16#64) ∧ Apart (k - 24#64) (k - 8#64) ∧
      Apart (k - 16#64) (k - 8#64) :=
  ⟨apart_of_le (by bv_omega) (by bv_omega), apart_of_le (by bv_omega) (by bv_omega),
    apart_of_le (by bv_omega) (by bv_omega)⟩

theorem Called.readWord_slots {back : Word} (h : Called pl back s e) :
    readWord e.mem (pl.kernelRsp - 24#64) = back ∧
      readWord e.mem (pl.kernelRsp - 16#64) = s.regs .r11 ∧
      readWord e.mem (pl.kernelRsp - 8#64) = s.regs .rcx ∧
      readWord e.mem (pl.threadData + 8#64) = s.regs .rsp := by
  obtain ⟨h₁, h₂, h₃⟩ := apart_slots pl.kernelRsp
  rw [h.mem]
  refine ⟨readWord_writeWord_self, ?_, ?_, ?_⟩
  · rw [readWord_writeWord_of_apart h₁, readWord_writeWord_self]
  · rw [readWord_writeWord_of_apart h₂, readWord_writeWord_of_apart h₃, readWord_writeWord_self]
  · rw [readWord_writeWord_of_apart (pl.apart _ (by simp)).2,
      readWord_writeWord_of_apart (pl.apart _ (by simp)).2,
      readWord_writeWord_of_apart (pl.apart _ (by simp)).2, readWord_writeWord_self]

/-- A stub whose `push` does not fault gets to `syscall_handler_inner`. -/
theorem reaches_inner (hc : Ready pl c) (hstub : Cpu.Located p c.rip syscallStub)
    (hframe : p.WritableWord (c.regs .rsp - 8#64)) :
    ∃ e, RunsUntil (Cpu.next p) (·.rip = pl.inner) c e ∧ Passed pl c e := by
  obtain ⟨after, s, hafter, hs, hrun⟩ := stub_enters pl hstub fun _ => hframe
  have hk : readWord s.mem pl.threadData = pl.kernelRsp := by
    rw [hs.mem, readWord_writeWord_of_apart (user_apart pl hframe.userWord (by simp)).symm,
      hc.kernelRsp]
  obtain ⟨back, e, hback, he, hcall⟩ :=
    handler_calls hs.rip hs.userMode (hs.kernelGsBase.trans hc.kernelGsBase) hk
  obtain ⟨hslot₃, hslot₂, hslot₁, hsaved⟩ := he.readWord_slots
  refine ⟨e, hrun e hcall, ?_⟩
  constructor
  case arguments =>
    -- `r10` carries the argument whose register `syscall` overwrites
    have hrcx : e.regs .rcx = c.regs .rcx := he.rcx.trans hs.r10
    have hothers : ∀ r ∉ [Reg.rsp, .rbp, .rcx, .r10, .r11], e.regs r = c.regs r := by
      intro r hr
      rw [he.others r (by simp_all), hs.others r hr]
    simp [argumentRegs, hrcx, hothers]
  case saved =>
    intro r hr hne
    obtain ⟨hstub', hhandler, -⟩ := saved_untouched r hr hne
    rw [he.others r hhandler, hs.others r hstub']
  case rbp => rw [he.others .rbp (by simp), hs.rbp]
  case rsp => exact he.rsp
  case userMode => exact he.userMode
  case gsBase => rw [he.gsBase, hs.kernelGsBase, hc.kernelGsBase]
  case kernelGsBase => rw [he.kernelGsBase, hs.gsBase]
  case back => rw [hslot₃]; exact hback
  case flags => rw [hslot₂, hs.r11]
  case after => rw [hslot₁, hs.rcx]; exact hafter
  case userRsp => rw [hsaved, hs.rsp]
  case frame => rw [he.readWord_user hframe.userWord, hs.mem, readWord_writeWord_self]
  case ret =>
    intro huser
    rw [he.readWord_user huser, hs.mem, readWord_writeWord_of_apart (apart_sub_eight _)]

/-! ### A call back to user code -/

/-- `c` is at the stub, `syscall_handler_inner` was back in `b`, and `d` is at
the `ret` of the stub. -/
structure Returned (pl : Placement p) (c b d : Cpu) : Prop where
  atRet : AtRet p d
  result : d.regs .rax = b.regs .rax
  saved : ∀ r ∈ savedRegs, d.regs r = c.regs r
  rsp : d.regs .rsp = c.regs .rsp
  rflags : d.rflags = Cpu.sysretFlags c.rflags
  userMode : d.userMode = true
  gsBase : d.gsBase = c.gsBase
  kernelGsBase : d.kernelGsBase = pl.threadData
  kernelRsp : readWord d.mem pl.threadData = pl.kernelRsp
  ret : p.UserWord (c.regs .rsp) → readWord d.mem (c.regs .rsp) = readWord c.mem (c.regs .rsp)

theorem reaches_ret (he : Passed pl c e) (hb : InnerReturns pl e b)
    (hframe : p.UserWord (c.regs .rsp - 8#64)) :
    ∃ d, RunsUntil (Cpu.next p) (AtRet p) b d ∧ Returned pl c b d := by
  have hrsp : b.regs .rsp = pl.kernelRsp - 16#64 := by
    rw [hb.rsp, he.rsp]
    bv_omega
  have hrsp₈ : b.regs .rsp + 8#64 = pl.kernelRsp - 8#64 := by
    rw [hrsp]
    bv_omega
  have hrsp₁₆ : b.regs .rsp + 16#64 = pl.kernelRsp := by
    rw [hrsp]
    bv_omega
  -- the two words the handler pops are the ones it pushed
  have hflags : readWord b.mem (b.regs .rsp) = c.rflags := by
    rw [hb.slots _ (by simp [hb.rsp]), hrsp, he.flags]
  have hslot : readWord b.mem (b.regs .rsp + 8#64) = readWord e.mem (pl.kernelRsp - 8#64) := by
    rw [hb.slots _ (by simp [hb.rsp, add_eight_add_eight]), hrsp₈]
  have hexit : Cpu.Located p b.rip syscallHandlerExit := by
    rw [hb.rip, he.rsp]
    exact he.back
  obtain ⟨a₁, hleave, a₂, hret, -⟩ := he.after
  have hcanon : Canonical (readWord b.mem (b.regs .rsp + 8#64)).toNat := by
    rw [hslot]
    exact pl.canonical _ _ hleave
  obtain ⟨d, hd, hrun⟩ := handler_resumes pl hexit (hb.userMode.trans he.userMode)
    (hb.gsBase.trans he.gsBase) hcanon
  have hrbp : d.regs .rbp = c.regs .rsp - 8#64 := by
    rw [hd.others .rbp (by simp), hb.saved .rbp (by simp [savedRegs]), he.rbp]
  have hcode : p.code d.rip = some (.leave, a₁) := by rw [hd.rip, hslot, hleave]
  have hmem : ∀ a, p.UserWord a → readWord d.mem a = readWord b.mem a := by
    intro a ha
    rw [hd.mem, readWord_writeWord_of_apart (user_apart pl ha (by simp))]
  have hold : readWord d.mem (d.regs .rbp) = c.regs .rbp := by
    rw [hrbp, hmem _ hframe, hb.frame _ (by simp [he.rbp]), he.frame]
  refine ⟨_, hrun _ (runsUntil_exec hcode (not_atRet hcode (by simp))
    (if_pos fun _ => hrbp ▸ hframe) (.here ⟨a₂, hret⟩)), ?_⟩
  constructor
  case atRet => exact ⟨a₂, hret⟩
  case result => simp [hd.others .rax (by simp)]
  case saved =>
    have hsaved : ∀ r ∈ savedRegs, r ≠ .rbp → d.regs r = c.regs r := by
      intro r hr hne
      obtain ⟨-, -, hexit'⟩ := saved_untouched r hr hne
      rw [hd.others r hexit', hb.saved r hr, he.saved r hr hne]
    simp only [savedRegs, List.forall_mem_cons] at hsaved ⊢
    simp_all
  case rsp =>
    simp only [Cpu.goto_regs, ne_eq, reduceCtorEq, not_false_eq_true, Cpu.set_regs_of_ne,
      Cpu.set_regs_self, hrbp]
    bv_omega
  case rflags => simp [hd.rflags, hflags]
  case userMode => simp [hd.userMode]
  case gsBase => simp [hd.gsBase, hb.kernelGsBase, he.kernelGsBase]
  case kernelGsBase => simp [hd.kernelGsBase, hb.gsBase, he.gsBase]
  case kernelRsp => simp [hd.mem, readWord_writeWord_self, hrsp₁₆]
  case ret =>
    intro huser
    have hword : e.regs .rbp + 8#64 = c.regs .rsp := by
      rw [he.rbp]
      bv_omega
    show readWord d.mem (c.regs .rsp) = _
    rw [hmem _ huser, hb.frame _ (by simp [hword]), he.ret huser]

/-- The `ret` of the stub. -/
theorem Returned.roundTrip {r : Call} (hc : Ready pl r.entry) (he : Passed pl r.entry r.passed)
    (hd : Returned pl r.entry r.returned d) (hx : Cpu.next p d = some r.exit) :
    r.RoundTrip pl := by
  obtain ⟨a, hcode⟩ := hd.atRet
  rw [Cpu.next_of_code hcode, Cpu.exec] at hx
  obtain ⟨hacc, hx⟩ := Option.ite_none_right_eq_some.mp hx
  rw [Option.some_inj] at hx
  have huser : p.UserWord (r.entry.regs .rsp) := hd.rsp ▸ hacc hd.userMode
  have hregs : ∀ q ≠ Reg.rsp, r.exit.regs q = d.regs q := by
    intro q hq
    simp [← hx, hq]
  constructor
  case arguments => exact he.arguments
  case result => rw [hregs .rax (by simp), hd.result]
  case rip => simp [← hx, hd.rsp, hd.ret huser]
  case rsp => simp [← hx, hd.rsp]
  case saved =>
    intro q hq
    rw [hregs q (by rintro rfl; simp [savedRegs] at hq), hd.saved q hq]
  case rflags => simp [← hx, hd.rflags]
  case userMode => simp [← hx, hd.userMode]
  case gsBase => simp [← hx, hd.gsBase]
  case kernelGsBase => simp [← hx, hd.kernelGsBase, hc.kernelGsBase]
  case kernelRsp => simp [← hx, hd.kernelRsp, hc.kernelRsp]

/-! ### Sessions -/

/-- A stub that has started has pushed to memory user code may write. -/
theorem Call.Runs.frame {r : Call} (hr : r.Runs pl) :
    p.WritableWord (r.entry.regs .rsp - 8#64) := by
  obtain ⟨a, hcode, -⟩ := hr.stub
  obtain ⟨t, ht⟩ := hr.passes.exists_next (rip_ne_inner pl hcode)
  rw [Cpu.next_of_code hcode, Cpu.exec] at ht
  exact (Option.ite_none_right_eq_some.mp ht).1 hr.userMode

theorem Call.Runs.roundTrip {r : Call} (hr : r.Runs pl) (hc : Ready pl r.entry) :
    r.RoundTrip pl := by
  obtain ⟨e, hrun, he⟩ := reaches_inner hc hr.stub hr.frame
  obtain rfl := hrun.unique hr.passes
  obtain ⟨d, hback, hd⟩ := reaches_ret he hr.inner hr.frame.userWord
  obtain ⟨d', hback', hexit⟩ := hr.returns
  obtain rfl := hback.unique hback'
  exact hd.roundTrip hc he hexit

theorem Call.RoundTrip.ready {r : Call} (hr : r.RoundTrip pl) (hc : Ready pl r.entry) :
    Ready pl r.exit :=
  ⟨hr.userMode, hr.kernelGsBase.trans hc.kernelGsBase, hr.kernelRsp.trans hc.kernelRsp⟩

theorem UserStep.ready (hstep : UserStep p c d) (hc : Ready pl c) : Ready pl d := by
  refine ⟨hstep.after, hstep.kernelGsBase.trans hc.kernelGsBase, ?_⟩
  have hkept : ∀ x, InWord pl.threadData x → d.mem x = c.mem x := fun x hx =>
    hstep.mem x (Platform.userWrite_eq_false (pl.hidden _ (by simp) x hx))
  rw [readWord_congr hkept, hc.kernelRsp]

/-- What every step of a session keeps, and what every call in it is. -/
theorem Session.ready {calls : List Call} (hc : Ready pl c) (h : Session pl c calls d) :
    Ready pl d ∧ ∀ r ∈ calls, r.RoundTrip pl := by
  induction h with
  | start => exact ⟨hc, by simp⟩
  | user _ hstep ih => exact ⟨hstep.ready ih.1, ih.2⟩
  | call _ hr ih =>
    have htrip := hr.roundTrip ih.1
    exact ⟨htrip.ready ih.1, List.forall_mem_cons.mpr ⟨htrip, ih.2⟩⟩

/-- A call that user code has the two stack words for can be made and completed. -/
theorem Ready.exists_call (hc : Ready pl c) (hstub : Cpu.Located p c.rip syscallStub)
    (hframe : p.WritableWord (c.regs .rsp - 8#64)) (huser : p.UserWord (c.regs .rsp)) :
    ∃ e, RunsUntil (Cpu.next p) (·.rip = pl.inner) c e ∧
      ∀ b, InnerReturns pl e b → ∃ x, Call.Runs pl ⟨c, e, b, x⟩ := by
  obtain ⟨e, hrun, he⟩ := reaches_inner hc hstub hframe
  refine ⟨e, hrun, fun b hb => ?_⟩
  obtain ⟨d, hback, hd⟩ := reaches_ret he hb hframe.userWord
  obtain ⟨a, hcode⟩ := hd.atRet
  exact ⟨_, hc.userMode, hstub, hrun, hb, d, hback,
    (Cpu.next_of_code hcode).trans (if_pos fun _ => hd.rsp ▸ huser)⟩

/-- `kernel_main` is about to run `enter_user_mode`: `init_thread_data` has set
the GS base. -/
structure Entering (pl : Placement p) (c : Cpu) : Prop where
  code : Cpu.Located p c.rip enterUserMode
  userMode : c.userMode = false
  gsBase : c.gsBase = pl.threadData
  kernelRsp : readWord c.mem pl.threadData = pl.kernelRsp
  entryPoint : Canonical (c.regs .rdi).toNat

/-- `enter_user_mode` goes to its first argument with the stack of the second. -/
theorem Entering.enters (hc : Entering pl c) :
    ∃ d, RunsUntil (Cpu.next p) (·.userMode = true) c d ∧ Ready pl d ∧
      d.rip = c.regs .rdi ∧ d.regs .rsp = c.regs .rsi ∧ d.rflags = userModeFlags := by
  obtain ⟨a₁, h₀, a₂, h₁, a₃, h₂, a₄, h₃, a₅, h₄, a₆, h₅, -⟩ := hc.code
  have hkernel : ∀ {s : Cpu}, s.userMode = false → ¬ s.userMode = true := by simp
  have hm := hc.userMode
  refine ⟨_, runsUntil_exec h₀ (hkernel hm) rfl <| runsUntil_exec h₁ (hkernel hm) rfl <|
    runsUntil_exec h₂ (hkernel hm) rfl <| runsUntil_exec h₃ (hkernel hm) rfl <|
    runsUntil_exec h₄ (hkernel hm) (if_neg (hkernel hm)) <|
    runsUntil_exec h₅ (hkernel hm) (if_pos ⟨hm, by simpa using hc.entryPoint⟩) (.here rfl),
    ⟨rfl, hc.gsBase, hc.kernelRsp⟩, ?_, ?_, ?_⟩
  · simp
  · simp
  · simp [Cpu.sysretFlags, userModeFlags]

/-- **Every system call of every session is a round trip.** After
`enter_user_mode`, whatever user code does in between, each call hands
`syscall_handler_inner` what the stub was given and returns its result to the
caller of the stub, with everything the caller and the kernel rely on in place;
and where user code may write the word below its stack pointer and read the one at
it, one more call can be made and, once `syscall_handler_inner` returns, completes. -/
theorem session_round_trips {p : Platform} (pl : Placement p) {boot c d : Cpu}
    {calls : List Call} (hboot : Entering pl boot)
    (henter : RunsUntil (Cpu.next p) (·.userMode = true) boot c) (hs : Session pl c calls d) :
    (∀ r ∈ calls, r.RoundTrip pl) ∧
      (Cpu.Located p d.rip syscallStub → p.WritableWord (d.regs .rsp - 8#64) →
        p.UserWord (d.regs .rsp) →
          ∃ e, RunsUntil (Cpu.next p) (·.rip = pl.inner) d e ∧
            ∀ b, InnerReturns pl e b → ∃ x, Call.Runs pl ⟨d, e, b, x⟩) := by
  obtain ⟨c', hrun, hready, -⟩ := hboot.enters
  obtain rfl := hrun.unique henter
  obtain ⟨hd, htrips⟩ := hs.ready hready
  exact ⟨htrips, hd.exists_call⟩

/-! ### A session with one call -/

/-- A `syscall_handler_inner` that returns at once keeps to its contract. -/
theorem innerReturns_ret (pl : Placement p) (e : Cpu) :
    InnerReturns pl e
      ((e.set .rsp (e.regs .rsp + 8#64)).goto (readWord e.mem (e.regs .rsp))) := by
  constructor
  case saved => simp [savedRegs]
  all_goals simp

/-- Blocks of instructions at fixed addresses, one byte an instruction. -/
def layOut (blocks : List (Word × List Instr)) (a : Word) : Option (Instr × Word) :=
  if a.toNat < 2 ^ 47 then
    (blocks.findSome? fun (start, is) => is[(a - start).toNat]?).map fun i => (i, a + 1#64)
  else none

/-- The stub at `0x1000`, the handler at `0x8000`, `enter_user_mode` at `0x9000`. -/
def samplePlatform : Platform where
  code := layOut [(0x1000#64, syscallStub), (0x8000#64, syscallHandler 0xA000#64),
    (0x9000#64, enterUserMode)]
  user := fun a => decide (0x4000 ≤ a.toNat ∧ a.toNat < 0x6000)
  userWrite := fun a => decide (0x4000 ≤ a.toNat ∧ a.toNat < 0x6000)
  user_of_userWrite := fun _ h => h
  lstar := 0x8000#64
  sfmask := 0x200#64

def samplePlacement : Placement samplePlatform where
  threadData := 0x20000#64
  kernelRsp := 0x30000#64
  inner := 0xA000#64
  handler := ⟨_, rfl, _, rfl, _, rfl, _, rfl, _, rfl, _, rfl, _, rfl, _, rfl, _, rfl, _, rfl,
    _, rfl, _, rfl, _, rfl, trivial⟩
  inner_code := rfl
  canonical := by
    intro a e h
    exact .inl (Option.ite_none_right_eq_some.mp h).1
  hidden := by
    intro a ha x hx
    have hx' : (x - a).toNat < 8 := hx
    refine decide_eq_false ?_
    simp only [List.mem_cons, List.not_mem_nil, or_false] at ha
    rcases ha with rfl | rfl | rfl | rfl | rfl <;> bv_omega
  apart := by
    intro a ha
    simp only [List.mem_cons, List.not_mem_nil, or_false] at ha
    rcases ha with rfl | rfl | rfl <;>
      exact ⟨apart_of_le (by decide) (by decide), apart_of_le (by decide) (by decide)⟩

/-- `enter_user_mode(0x1000, 0x5000)` -/
def sampleBoot : Cpu where
  regs := fun r => match r with
    | .rdi => 0x1000#64
    | .rsi => 0x5000#64
    | _ => 0#64
  rip := 0x9000#64
  rflags := 2#64
  gsBase := 0x20000#64
  kernelGsBase := 0#64
  userMode := false
  mem := writeWord (fun _ => 0#8) 0x20000#64 0x30000#64

theorem sampleBoot_entering : Entering samplePlacement sampleBoot where
  code := ⟨_, rfl, _, rfl, _, rfl, _, rfl, _, rfl, _, rfl, trivial⟩
  userMode := rfl
  gsBase := rfl
  kernelRsp := readWord_writeWord_self
  entryPoint := by decide

theorem session_round_trips_firstCall :
    ∃ c r, RunsUntil (Cpu.next samplePlatform) (·.userMode = true) sampleBoot c ∧
      Session samplePlacement c [r] r.exit ∧ r.RoundTrip samplePlacement := by
  obtain ⟨c, hrun, hready, hrip, hrsp, -⟩ := sampleBoot_entering.enters
  have hstub : Cpu.Located samplePlatform c.rip syscallStub := by
    rw [hrip]
    exact ⟨_, rfl, _, rfl, _, rfl, _, rfl, _, rfl, _, rfl, trivial⟩
  have hframe : samplePlatform.WritableWord (c.regs .rsp - 8#64) := by
    rw [hrsp]
    decide
  have huser : samplePlatform.UserWord (c.regs .rsp) := by
    rw [hrsp]
    decide
  obtain ⟨e, -, hcall⟩ := hready.exists_call hstub hframe huser
  obtain ⟨x, hx⟩ := hcall _ (innerReturns_ret samplePlacement e)
  have hs := Session.call .start hx
  exact ⟨c, _, hrun, hs,
    (session_round_trips samplePlacement sampleBoot_entering hrun hs).1 _ (by simp)⟩

end SyscallEntry
