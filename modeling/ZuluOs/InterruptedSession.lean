/-
Interrupts in user mode: the sessions of `SyscallEntry.lean`, with interrupts
between any two instructions of user code, those of the stubs included.

The processor pushes a frame on the privileged stack of the TSS and runs the
handler, which is any code that keeps all registers and writes only to memory
set aside for it (`Scratch`): its stack and the kernel's own data.  Then `iretq`
goes back.  In kernel mode interrupts are masked (`session_interrupts`).

States that differ only in that memory agree (`Agree`), and an interrupt ends in
a state that agrees with the one it came in.

* `exec_agree` — instructions keep agreement, if they do not read there;
* `Interrupted.agree` — an interrupt is not seen;
* `UserRuns.agree` — so user code runs as without interrupts;
* `Call.RunsInterrupted.roundTrip` — and a call comes back as without them;
* `interrupted_round_trips` — every call of every session does;
* `kernelMain_interrupted` — so it is after the boot, with handlers that use the
  heap and what the boot loader has mapped for the kernel.
-/
import ZuluOs.BootEntry
import ZuluOs.Breakpoint
import ZuluOs.SyscallContext

open ByteMemory Transition Exceptions Breakpoint

namespace SyscallEntry

variable {p : Platform}

/-- Memory set aside for interrupt handlers: hidden from user code, and apart from
the words that `syscall_handler` uses. -/
structure Scratch (pl : Placement p) where
  bytes : Set Word
  hidden : ∀ x ∈ bytes, p.user x = false
  apart : ∀ a ∈ [pl.threadData, pl.threadData + 8#64, pl.kernelRsp - 8#64, pl.kernelRsp - 16#64,
    pl.kernelRsp - 24#64], ∀ x, InWord a x → x ∉ bytes

/-! ### States that agree -/

/-- The states differ in the memory `S` only. -/
structure Agree (S : Set Word) (c d : Cpu) : Prop where
  regs : d.regs = c.regs
  rip : d.rip = c.rip
  rflags : d.rflags = c.rflags
  gsBase : d.gsBase = c.gsBase
  kernelGsBase : d.kernelGsBase = c.kernelGsBase
  userMode : d.userMode = c.userMode
  mem : ∀ x, x ∉ S → d.mem x = c.mem x

variable {S : Set Word} {c c₀ d d₀ : Cpu} {a v after : Word} {i : Instr}

theorem Agree.refl (S : Set Word) (c : Cpu) : Agree S c c :=
  ⟨rfl, rfl, rfl, rfl, rfl, rfl, fun _ _ => rfl⟩

theorem Agree.trans {e : Cpu} (h : Agree S c d) (h' : Agree S d e) : Agree S c e :=
  ⟨h'.regs.trans h.regs, h'.rip.trans h.rip, h'.rflags.trans h.rflags, h'.gsBase.trans h.gsBase,
    h'.kernelGsBase.trans h.kernelGsBase, h'.userMode.trans h.userMode,
    fun x hx => (h'.mem x hx).trans (h.mem x hx)⟩

theorem Agree.symm (h : Agree S c d) : Agree S d c :=
  ⟨h.regs.symm, h.rip.symm, h.rflags.symm, h.gsBase.symm, h.kernelGsBase.symm, h.userMode.symm,
    fun x hx => (h.mem x hx).symm⟩

theorem Agree.readWord (h : Agree S c d) (ha : ∀ x, InWord a x → x ∉ S) :
    readWord d.mem a = readWord c.mem a :=
  readWord_congr fun x hx => h.mem x (ha x hx)

section updates

variable (h : Agree S c c₀)
include h

theorem Agree.set (r : Reg) (v : Word) : Agree S (c.set r v) (c₀.set r v) :=
  ⟨by rw [Cpu.set, Cpu.set, h.regs], h.rip, h.rflags, h.gsBase, h.kernelGsBase, h.userMode, h.mem⟩

theorem Agree.write (a v : Word) : Agree S (c.write a v) (c₀.write a v) := by
  refine ⟨h.regs, h.rip, h.rflags, h.gsBase, h.kernelGsBase, h.userMode, fun x hx => ?_⟩
  rw [Cpu.write_mem, Cpu.write_mem, writeWord, writeWord, h.mem x hx]

theorem Agree.goto (a : Word) : Agree S (c.goto a) (c₀.goto a) :=
  ⟨h.regs, rfl, h.rflags, h.gsBase, h.kernelGsBase, h.userMode, h.mem⟩

theorem Agree.swap : Agree S c.swap c₀.swap :=
  ⟨h.regs, h.rip, h.rflags, h.kernelGsBase, h.gsBase, h.userMode, h.mem⟩

theorem Agree.switch (m : Bool) (f : Word) : Agree S (c.switch m f) (c₀.switch m f) :=
  ⟨h.regs, h.rip, rfl, h.gsBase, h.kernelGsBase, rfl, h.mem⟩

theorem Agree.access : Cpu.Access p c₀ a ↔ Cpu.Access p c a := by
  rw [Cpu.Access, Cpu.Access, h.userMode]

theorem Agree.storeAccess : Cpu.StoreAccess p c₀ a ↔ Cpu.StoreAccess p c a := by
  rw [Cpu.StoreAccess, Cpu.StoreAccess, h.userMode]

end updates

/-- The word that an instruction reads. -/
def readBy (c : Cpu) : Instr → Option Word
  | .pop _ => some (c.regs .rsp)
  | .loadGs _ offset => some (c.gsBase + offset)
  | .leave => some (c.regs .rbp)
  | .ret => some (c.regs .rsp)
  | _ => none

/-- **One instruction** keeps agreement, if it does not read where the states
may differ. -/
theorem exec_agree (h : Agree S c c₀) (hexec : Cpu.exec p c after i = some d)
    (hread : ∀ a, readBy c i = some a → ∀ x, InWord a x → x ∉ S) :
    ∃ d₀, Cpu.exec p c₀ after i = some d₀ ∧ Agree S d d₀ := by
  cases i with
  | push src =>
    obtain ⟨hacc, hd⟩ := Option.ite_none_right_eq_some.mp hexec
    obtain rfl := Option.some.inj hd
    refine ⟨_, if_pos (h.storeAccess.mpr (h.regs ▸ hacc)), ?_⟩
    rw [h.regs]
    exact ((h.write _ _).set _ _).goto _
  | pop dst =>
    obtain ⟨hacc, hd⟩ := Option.ite_none_right_eq_some.mp hexec
    obtain rfl := Option.some.inj hd
    refine ⟨_, if_pos (h.access.mpr (h.regs ▸ hacc)), ?_⟩
    rw [h.regs, h.readWord (hread _ rfl)]
    exact ((h.set _ _).set _ _).goto _
  | mov dst src =>
    obtain rfl := Option.some.inj hexec
    refine ⟨_, rfl, ?_⟩
    rw [h.regs]
    exact (h.set _ _).goto _
  | movImm dst value =>
    obtain rfl := Option.some.inj hexec
    exact ⟨_, rfl, (h.set _ _).goto _⟩
  | storeGs offset src =>
    obtain ⟨hacc, hd⟩ := Option.ite_none_right_eq_some.mp hexec
    obtain rfl := Option.some.inj hd
    refine ⟨_, if_pos (h.storeAccess.mpr (h.gsBase ▸ hacc)), ?_⟩
    rw [h.regs, h.gsBase]
    exact (h.write _ _).goto _
  | loadGs dst offset =>
    obtain ⟨hacc, hd⟩ := Option.ite_none_right_eq_some.mp hexec
    obtain rfl := Option.some.inj hd
    refine ⟨_, if_pos (h.access.mpr (h.gsBase ▸ hacc)), ?_⟩
    rw [h.gsBase, h.readWord (hread _ rfl)]
    exact (h.set _ _).goto _
  | swapgs =>
    obtain ⟨hmode, hd⟩ := Option.ite_none_left_eq_some.mp hexec
    obtain rfl := Option.some.inj hd
    exact ⟨_, if_neg (h.userMode ▸ hmode), h.swap.goto _⟩
  | syscall =>
    obtain rfl := Option.some.inj hexec
    refine ⟨_, rfl, ?_⟩
    rw [h.rflags]
    exact (((h.set _ _).set _ _).switch _ _).goto _
  | sysretq =>
    obtain ⟨hcond, hd⟩ := Option.ite_none_right_eq_some.mp hexec
    obtain rfl := Option.some.inj hd
    refine ⟨_, if_pos (h.userMode ▸ h.regs ▸ hcond), ?_⟩
    rw [h.regs]
    exact (h.switch _ _).goto _
  | call target =>
    obtain ⟨hacc, hd⟩ := Option.ite_none_right_eq_some.mp hexec
    obtain rfl := Option.some.inj hd
    refine ⟨_, if_pos (h.storeAccess.mpr (h.regs ▸ hacc)), ?_⟩
    rw [h.regs]
    exact ((h.write _ _).set _ _).goto _
  | leave =>
    obtain ⟨hacc, hd⟩ := Option.ite_none_right_eq_some.mp hexec
    obtain rfl := Option.some.inj hd
    refine ⟨_, if_pos (h.access.mpr (h.regs ▸ hacc)), ?_⟩
    rw [h.regs, h.readWord (hread _ rfl)]
    exact ((h.set _ _).set _ _).goto _
  | ret =>
    obtain ⟨hacc, hd⟩ := Option.ite_none_right_eq_some.mp hexec
    obtain rfl := Option.some.inj hd
    refine ⟨_, if_pos (h.access.mpr (h.regs ▸ hacc)), ?_⟩
    rw [h.regs, h.readWord (hread _ rfl)]
    exact (h.set _ _).goto _

/-- What an instruction of user code reads, user code may access. -/
theorem userWord_of_readBy (huser : c.userMode = true) (hexec : Cpu.exec p c after i = some d)
    (hread : readBy c i = some a) : p.UserWord a := by
  cases i with
  | pop | loadGs | leave | ret =>
    obtain ⟨hacc, -⟩ := Option.ite_none_right_eq_some.mp hexec
    obtain rfl := Option.some.inj hread
    exact hacc huser
  | _ => cases hread

theorem next_agree (hhidden : ∀ x ∈ S, p.user x = false) (h : Agree S c c₀)
    (huser : c.userMode = true) (hnext : Cpu.next p c = some d) :
    ∃ d₀, Cpu.next p c₀ = some d₀ ∧ Agree S d d₀ := by
  obtain ⟨⟨i, after⟩, hcode, hexec⟩ := Option.bind_eq_some_iff.mp hnext
  obtain ⟨d₀, hd₀, hagree⟩ := exec_agree h hexec fun a ha x hx hmem => by
    have hx := Cpu.inWord_user (userWord_of_readBy huser hexec ha) hx
    rw [hhidden x hmem] at hx
    cases hx
  exact ⟨d₀, (Cpu.next_of_code (h.rip ▸ hcode)).trans hd₀, hagree⟩

/-! ### One interrupt -/

/-- The way into a handler from user mode: the code segment is one of user
code, and the stack of the TSS is set aside for the handler. -/
structure InterruptGate (S : Set Word) where
  arrays : Stacks
  cs : Word
  ss : Word
  handler : Word
  user : (cs &&& 3#64 != 0#64) = true
  stack : ∀ x, OnStack arrays.privileged x → x ∈ S

/-- The processor at the first instruction of the handler. -/
def InterruptGate.enter (g : InterruptGate S) (c : Cpu) : Cpu :=
  let top := alignDown g.arrays.fromUser
  { (c.set .rsp (top - 40#64)).goto g.handler with
    rflags := c.rflags &&& ~~~gateFlags
    userMode := false
    mem := pushWords [g.ss, c.regs .rsp, c.rflags, g.cs, c.rip] top c.mem }

/-- The contract of `timer_interrupt_handler` and `keyboard_interrupt_handler`,
entered in `s` and at their `iretq` in `t`. -/
structure HandlerReturns (S : Set Word) (s t : Cpu) : Prop where
  regs : t.regs = s.regs
  gsBase : t.gsBase = s.gsBase
  kernelGsBase : t.kernelGsBase = s.kernelGsBase
  mem : ∀ x, x ∉ S → t.mem x = s.mem x
  frame : ∀ k < 5, readWord t.mem (s.regs .rsp + .ofNat 64 (8 * k))
    = readWord s.mem (s.regs .rsp + .ofNat 64 (8 * k))

/-- User code is interrupted in `c` and goes on in `d`. -/
structure Interrupted (S : Set Word) (c d : Cpu) : Prop where
  userMode : c.userMode = true
  interrupts : c.interrupts = true
  -- the bits of `rflags` that are fixed are as the processor has them
  flags : iretFlags c.rflags = c.rflags
  runs : ∃ (g : InterruptGate S) (t : Cpu), HandlerReturns S (g.enter c) t ∧ t.iretq = some d

/-- `iretq` finds the words that were pushed. -/
theorem HandlerReturns.readWord {g : InterruptGate S} {t : Cpu}
    (ht : HandlerReturns S (g.enter c) t) {k n : ℕ} {w : Word}
    (hw : [g.ss, c.regs .rsp, c.rflags, g.cs, c.rip][k]? = some w) (hn : n + k = 4) :
    readWord t.mem (t.regs .rsp + .ofNat 64 (8 * n)) = w := by
  have hsp : (g.enter c).regs .rsp
      = alignDown (g.arrays.privileged + .ofNat 64 STACK_SIZE) - 40#64 :=
    c.set_regs_self .rsp _
  have haddr : (g.enter c).regs .rsp + .ofNat 64 (8 * n)
      = alignDown (g.arrays.privileged + .ofNat 64 STACK_SIZE) - .ofNat 64 (8 * (k + 1)) := by
    rw [hsp]
    generalize alignDown (g.arrays.privileged + .ofNat 64 STACK_SIZE) = top
    bv_omega
  rw [ht.regs, ht.frame n (by omega), haddr]
  exact readWord_pushWords (by simp) hw

theorem HandlerReturns.readWord_rip {g : InterruptGate S} {t : Cpu}
    (ht : HandlerReturns S (g.enter c) t) : ByteMemory.readWord t.mem (t.regs .rsp) = c.rip := by
  rw [← BitVec.add_zero (t.regs .rsp)]
  exact ht.readWord (k := 4) (n := 0) rfl rfl

/-- **An interrupt is not seen.** -/
theorem Interrupted.agree (h : Interrupted S c d) : Agree S c d := by
  obtain ⟨huser, -, hflags, g, t, ht, hiret⟩ := h
  rw [Cpu.iretq, ht.readWord_rip, show (24#64 : Word) = .ofNat 64 (8 * 3) from rfl,
    show (16#64 : Word) = .ofNat 64 (8 * 2) from rfl,
    show (8#64 : Word) = .ofNat 64 (8 * 1) from rfl,
    ht.readWord (k := 1) rfl rfl, ht.readWord (k := 2) rfl rfl, ht.readWord (k := 3) rfl rfl,
    g.user, hflags] at hiret
  obtain ⟨-, hd⟩ := Option.ite_none_right_eq_some.mp hiret
  obtain rfl := Option.some.inj hd
  refine ⟨?_, rfl, rfl, ht.gsBase, ht.kernelGsBase, huser.symm, fun x hx => ?_⟩
  · show Function.update t.regs .rsp (c.regs .rsp) = c.regs
    rw [ht.regs]
    show Function.update (Function.update c.regs .rsp _) .rsp (c.regs .rsp) = c.regs
    rw [Function.update_idem, Function.update_eq_self]
  · show t.mem x = c.mem x
    rw [ht.mem x hx]
    refine pushWords_of_ne fun i hi hle heq => hx (g.stack x ?_)
    have hle : i ≤ 40 := hle
    exact heq ▸ onStack_sub g.arrays.privileged hi (by unfold STACK_SIZE; omega)

/-- A handler that keeps everything comes back. -/
theorem InterruptGate.interrupts (g : InterruptGate S) (huser : c.userMode = true)
    (hint : c.interrupts = true) (hflags : iretFlags c.rflags = c.rflags)
    (hrip : Canonical c.rip.toNat) : ∃ d, Interrupted S c d := by
  have ht : HandlerReturns S (g.enter c) (g.enter c) :=
    ⟨rfl, rfl, rfl, fun _ _ => rfl, fun _ _ => rfl⟩
  obtain ⟨d, hd⟩ : ∃ d, (g.enter c).iretq = some d := by
    rw [Cpu.iretq, ht.readWord_rip]
    exact ⟨_, if_pos hrip⟩
  exact ⟨d, huser, hint, hflags, g, _, ht, hd⟩

/-! ### Runs of user code -/

/-- User code runs until it meets `stop`, and is interrupted on the way. -/
inductive UserRuns (p : Platform) (S : Set Word) (stop : Cpu → Prop) : Cpu → Cpu → Prop
  | here {s} : stop s → UserRuns p S stop s s
  | step {s t u} : s.userMode = true → ¬ stop s → Cpu.next p s = some t →
      UserRuns p S stop t u → UserRuns p S stop s u
  | interrupt {s t u} : Interrupted S s t → UserRuns p S stop t u → UserRuns p S stop s u

/-- **User code runs as without interrupts.** -/
theorem UserRuns.agree {stop : Cpu → Prop} (hhidden : ∀ x ∈ S, p.user x = false)
    (hstop : ∀ c d, Agree S c d → stop d → stop c) (h : UserRuns p S stop c d)
    (hc : Agree S c c₀) : ∃ d₀, RunsUntil (Cpu.next p) stop c₀ d₀ ∧ Agree S d d₀ := by
  induction h generalizing c₀ with
  | here hs => exact ⟨c₀, .here (hstop _ _ hc.symm hs), hc⟩
  | step huser hs hnext _ ih =>
    obtain ⟨t₀, ht₀, hagree⟩ := next_agree hhidden hc huser hnext
    obtain ⟨d₀, hrun, hd⟩ := ih hagree
    exact ⟨d₀, .step (fun hs₀ => hs (hstop _ _ hc hs₀)) ht₀ hrun, hd⟩
  | interrupt hint _ ih => exact ih (hint.agree.symm.trans hc)

/-- A step of user code leaves the kernel's memory and its GS base alone, and gets
into kernel mode at `syscall_handler` only. -/
theorem next_user (huser : c.userMode = true) (hnext : Cpu.next p c = some d) :
    d.kernelGsBase = c.kernelGsBase ∧ (∀ x, p.userWrite x = false → d.mem x = c.mem x) ∧
      (d.userMode = false → d.rip = p.lstar) := by
  obtain ⟨⟨i, after⟩, -, hexec⟩ := Option.bind_eq_some_iff.mp hnext
  have hmode : ∀ {b : Bool} {P : Prop}, b = c.userMode → b = false → P := by
    intro b P hb hfalse
    rw [hb, huser] at hfalse
    cases hfalse
  have hwrite : ∀ {a v : Word}, Cpu.StoreAccess p c a → ∀ x, p.userWrite x = false →
      writeWord c.mem a v x = c.mem x := by
    intro a v hacc x hx
    refine writeWord_of_not_inWord fun hin => ?_
    rw [Cpu.inWord_userWrite (hacc huser) hin] at hx
    cases hx
  cases i with
  | push | storeGs | call =>
    obtain ⟨hacc, hd⟩ := Option.ite_none_right_eq_some.mp hexec
    obtain rfl := Option.some.inj hd
    exact ⟨rfl, hwrite hacc, hmode rfl⟩
  | pop | loadGs | leave | ret =>
    obtain ⟨-, hd⟩ := Option.ite_none_right_eq_some.mp hexec
    obtain rfl := Option.some.inj hd
    exact ⟨rfl, fun _ _ => rfl, hmode rfl⟩
  | mov | movImm =>
    obtain rfl := Option.some.inj hexec
    exact ⟨rfl, fun _ _ => rfl, hmode rfl⟩
  | swapgs =>
    obtain ⟨hkernel, -⟩ := Option.ite_none_left_eq_some.mp hexec
    exact absurd huser hkernel
  | syscall =>
    obtain rfl := Option.some.inj hexec
    exact ⟨rfl, fun _ _ => rfl, fun _ => rfl⟩
  | sysretq =>
    obtain ⟨hcond, -⟩ := Option.ite_none_right_eq_some.mp hexec
    rw [huser] at hcond
    cases hcond.1

/-- User code that gets into kernel mode, interrupted or not. -/
theorem UserRuns.enters (h : UserRuns p S (·.userMode = false) c d)
    (hc : c.userMode = false → c.rip = p.lstar) :
    d.userMode = false ∧ d.rip = p.lstar ∧ d.kernelGsBase = c.kernelGsBase ∧
      ∀ x, x ∉ S → p.user x = false → d.mem x = c.mem x := by
  induction h with
  | here hs => exact ⟨hs, hc hs, rfl, fun _ _ _ => rfl⟩
  | step huser _ hnext _ ih =>
    obtain ⟨hgs, hmem, hrip⟩ := next_user huser hnext
    obtain ⟨hmode, hlstar, hgs', hmem'⟩ := ih hrip
    exact ⟨hmode, hlstar, hgs'.trans hgs, fun x hx hu =>
      (hmem' x hx hu).trans (hmem x (p.userWrite_eq_false hu))⟩
  | interrupt hint _ ih =>
    have hagree := hint.agree
    obtain ⟨hmode, hlstar, hgs, hmem⟩ := ih fun hfalse => by
      rw [hagree.userMode, hint.userMode] at hfalse
      cases hfalse
    exact ⟨hmode, hlstar, hgs.trans hagree.kernelGsBase,
      fun x hx hu => (hmem x hx hu).trans (hagree.mem x hx)⟩

/-! ### Calls with interrupts -/

/-- The call is a run of the machine, with `syscall_handler_inner` in between,
and interrupts wherever it is in user mode. -/
structure Call.RunsInterrupted (pl : Placement p) (S : Set Word) (r : Call) : Prop where
  userMode : r.entry.userMode = true
  stub : Cpu.Located p r.entry.rip syscallStub
  passes : ∃ s, UserRuns p S (·.userMode = false) r.entry s ∧
    RunsUntil (Cpu.next p) (·.rip = pl.inner) s r.passed
  inner : InnerReturns pl r.passed r.returned
  returns : ∃ d t, RunsUntil (Cpu.next p) (·.userMode = true) r.returned d ∧
    UserRuns p S (AtRet p) d t ∧ Cpu.next p t = some r.exit

variable {pl : Placement p} {r : Call} {e e₀ s s₀ b t : Cpu}

/-- User code has no access to memory that is set aside. -/
theorem Scratch.not_mem (sc : Scratch pl) (ha : p.UserWord a) :
    ∀ x, InWord a x → x ∉ sc.bytes := by
  intro x hx hmem
  have huser := Cpu.inWord_user ha hx
  rw [sc.hidden x hmem] at huser
  cases huser

theorem Call.RunsInterrupted.frame (sc : Scratch pl) (hr : r.RunsInterrupted pl sc.bytes) :
    p.WritableWord (r.entry.regs .rsp - 8#64) := by
  obtain ⟨s, hs, -⟩ := hr.passes
  obtain ⟨a, hcode, -⟩ := hr.stub
  obtain ⟨s₀, hrun, -⟩ := hs.agree sc.hidden (fun _ _ h hd => h.userMode.symm.trans hd) (.refl _ _)
  obtain ⟨t, ht⟩ := hrun.exists_next (by rw [hr.userMode]; decide)
  rw [Cpu.next_of_code hcode, Cpu.exec] at ht
  exact (Option.ite_none_right_eq_some.mp ht).1 hr.userMode

/-- Handlers that were entered in states that agree call
`syscall_handler_inner` alike. -/
theorem Called.passed (sc : Scratch pl) (hagree : Agree sc.bytes s s₀) {back back₀ : Word}
    (he : Called pl back s e) (he₀ : Called pl back₀ s₀ e₀)
    (hback : Cpu.Located p back syscallHandlerExit) (hpassed : Passed pl c e₀)
    (hframe : p.UserWord (c.regs .rsp - 8#64)) : Passed pl c e := by
  obtain ⟨hslot₃, hslot₂, hslot₁, hsaved⟩ := he.readWord_slots
  obtain ⟨-, hslot₂', hslot₁', hsaved'⟩ := he₀.readWord_slots
  have hregs : ∀ q, e.regs q = e₀.regs q := by
    intro q
    by_cases hq : q ∈ [Reg.rsp, .rcx]
    · simp only [List.mem_cons, List.not_mem_nil, or_false] at hq
      rcases hq with rfl | rfl
      · rw [he.rsp, he₀.rsp]
      · rw [he.rcx, he₀.rcx, hagree.regs]
    · rw [he.others q hq, he₀.others q hq, hagree.regs]
  have huser : ∀ a, p.UserWord a → readWord e.mem a = readWord e₀.mem a := by
    intro a ha
    rw [he.readWord_user ha, he₀.readWord_user ha, hagree.readWord (sc.not_mem ha)]
  constructor
  case arguments => exact fun q hq => (hregs q).trans (hpassed.arguments q hq)
  case saved => exact fun q hq hne => (hregs q).trans (hpassed.saved q hq hne)
  case rbp => rw [hregs, hpassed.rbp]
  case rsp => exact he.rsp
  case userMode => exact he.userMode
  case gsBase => rw [he.gsBase, ← hagree.kernelGsBase, ← he₀.gsBase, hpassed.gsBase]
  case kernelGsBase =>
    rw [he.kernelGsBase, ← hagree.gsBase, ← he₀.kernelGsBase, hpassed.kernelGsBase]
  case back => rwa [hslot₃]
  case flags => rw [hslot₂, ← hagree.regs, ← hslot₂', hpassed.flags]
  case after =>
    rw [hslot₁, ← hagree.regs, ← hslot₁']
    exact hpassed.after
  case userRsp => rw [hsaved, ← hagree.regs, ← hsaved', hpassed.userRsp]
  case frame => rw [huser _ hframe, hpassed.frame]
  case ret =>
    intro ha
    rw [huser _ ha, hpassed.ret ha]

theorem Call.RunsInterrupted.passed (sc : Scratch pl) (hr : r.RunsInterrupted pl sc.bytes)
    (hc : Ready pl r.entry) : Passed pl r.entry r.passed := by
  obtain ⟨s, hs, hpasses⟩ := hr.passes
  obtain ⟨e₀, hrun₀, hpassed⟩ := reaches_inner hc hr.stub (hr.frame sc)
  -- without interrupts the stub enters the handler in `s₀`
  obtain ⟨s₀, hs₀, hagree⟩ := hs.agree sc.hidden (fun _ _ h hd => h.userMode.symm.trans hd)
    (.refl _ _)
  obtain ⟨s₁, hs₁, hcall₀⟩ := hrun₀.split (·.userMode = false) hpassed.userMode
  obtain rfl := hs₁.unique hs₀
  obtain ⟨hmode, hrip, hgs, hmem⟩ := hs.enters fun hfalse => by
    rw [hr.userMode] at hfalse
    cases hfalse
  have hgs := hgs.trans hc.kernelGsBase
  have hapart := sc.apart pl.threadData (by simp)
  have hk : readWord s.mem pl.threadData = pl.kernelRsp := by
    rw [readWord_congr fun x hx => hmem x (hapart x hx) (pl.hidden _ (by simp) x hx), hc.kernelRsp]
  obtain ⟨back, e, hback, he, hcall⟩ := handler_calls hrip hmode hgs hk
  obtain ⟨back₀, e₁, -, he₀, hcall₁⟩ := handler_calls (hagree.rip.trans hrip)
    (hagree.userMode.trans hmode) (hagree.kernelGsBase.trans hgs)
    ((hagree.readWord hapart).trans hk)
  obtain rfl := hcall₁.unique hcall₀
  obtain rfl := hcall.unique hpasses
  exact he.passed sc hagree he₀ hback hpassed (hr.frame sc).userWord

theorem Returned.of_agree (sc : Scratch pl) (hagree : Agree sc.bytes d t)
    (h : Returned pl c b d) : Returned pl c b t where
  atRet := by
    rw [AtRet, hagree.rip]
    exact h.atRet
  result := by rw [hagree.regs, h.result]
  saved q hq := by rw [hagree.regs, h.saved q hq]
  rsp := by rw [hagree.regs, h.rsp]
  rflags := by rw [hagree.rflags, h.rflags]
  userMode := by rw [hagree.userMode, h.userMode]
  gsBase := by rw [hagree.gsBase, h.gsBase]
  kernelGsBase := by rw [hagree.kernelGsBase, h.kernelGsBase]
  kernelRsp := by rw [hagree.readWord (sc.apart _ (by simp)), h.kernelRsp]
  ret ha := by rw [hagree.readWord (sc.not_mem ha), h.ret ha]

/-- **An interrupted call is a round trip.** -/
theorem Call.RunsInterrupted.roundTrip (sc : Scratch pl) (hr : r.RunsInterrupted pl sc.bytes)
    (hc : Ready pl r.entry) : r.RoundTrip pl := by
  have hpassed := hr.passed sc hc
  obtain ⟨d, t, hd, ht, hexit⟩ := hr.returns
  obtain ⟨t₀, hrun₀, hreturned⟩ := reaches_ret hpassed hr.inner (hr.frame sc).userWord
  -- without interrupts user code goes on from the same state, to the same `ret`
  obtain ⟨d', hd', hret₀⟩ := hrun₀.split (·.userMode = true) hreturned.userMode
  obtain rfl := hd'.unique hd
  have hstop : ∀ c d, Agree sc.bytes c d → AtRet p d → AtRet p c := by
    rintro c d h ⟨a, ha⟩
    exact ⟨a, h.rip ▸ ha⟩
  obtain ⟨t₁, ht₁, hagree⟩ := ht.agree sc.hidden hstop (.refl _ _)
  obtain rfl := ht₁.unique hret₀
  exact (hreturned.of_agree sc hagree.symm).roundTrip hc hpassed hexit

/-! ### Sessions with interrupts -/

/-- User code, interrupts and system calls in any order from `c` on. -/
inductive InterruptedSession (pl : Placement p) (S : Set Word) (c : Cpu) : List Call → Cpu → Prop
  | start : InterruptedSession pl S c [] c
  | user {calls d d'} : InterruptedSession pl S c calls d → UserStep p d d' →
      InterruptedSession pl S c calls d'
  | interrupt {calls d d'} : InterruptedSession pl S c calls d → Interrupted S d d' →
      InterruptedSession pl S c calls d'
  | call {calls r} : InterruptedSession pl S c calls r.entry → r.RunsInterrupted pl S →
      InterruptedSession pl S c (r :: calls) r.exit

theorem Ready.of_agree (sc : Scratch pl) (hagree : Agree sc.bytes c d) (hc : Ready pl c) :
    Ready pl d where
  userMode := hagree.userMode.trans hc.userMode
  kernelGsBase := hagree.kernelGsBase.trans hc.kernelGsBase
  kernelRsp := (hagree.readWord (sc.apart _ (by simp))).trans hc.kernelRsp

theorem InterruptedSession.ready {calls : List Call} (sc : Scratch pl) (hc : Ready pl c)
    (h : InterruptedSession pl sc.bytes c calls d) :
    Ready pl d ∧ ∀ r ∈ calls, r.RoundTrip pl := by
  induction h with
  | start => exact ⟨hc, by simp⟩
  | user _ hstep ih => exact ⟨hstep.ready ih.1, ih.2⟩
  | interrupt _ hint ih => exact ⟨ih.1.of_agree sc hint.agree, ih.2⟩
  | call _ hr ih =>
    have htrip := hr.roundTrip sc ih.1
    exact ⟨htrip.ready ih.1, List.forall_mem_cons.mpr ⟨htrip, ih.2⟩⟩

/-- **System calls are round trips under interrupts.**  After `enter_user_mode`,
with interrupts between any two instructions of user code, those of the stubs
included, every call hands `syscall_handler_inner` what the stub was given and
comes back to the caller with its result; and the kernel is ready for the next. -/
theorem interrupted_round_trips {p : Platform} {pl : Placement p} (sc : Scratch pl)
    {boot c d : Cpu} {calls : List Call} (hboot : Entering pl boot)
    (henter : RunsUntil (Cpu.next p) (·.userMode = true) boot c)
    (hs : InterruptedSession pl sc.bytes c calls d) :
    (∀ r ∈ calls, r.RoundTrip pl) ∧
      (Cpu.Located p d.rip syscallStub → p.WritableWord (d.regs .rsp - 8#64) →
        p.UserWord (d.regs .rsp) →
          ∃ e, RunsUntil (Cpu.next p) (·.rip = pl.inner) d e ∧
            ∀ b, InnerReturns pl e b → ∃ x, Call.Runs pl ⟨d, e, b, x⟩) := by
  obtain ⟨c', hrun, hready, -⟩ := hboot.enters
  obtain rfl := hrun.unique henter
  obtain ⟨hd, htrips⟩ := hs.ready sc hready
  exact ⟨htrips, hd.exists_call⟩

/-! ### A session with an interrupt -/

/-- The way back to user mode ends behind the `syscall` of the stub. -/
theorem handler_leaves (hexit : Cpu.Located p b.rip syscallHandlerExit)
    (hmode : b.userMode = false) (hcanon : Canonical (readWord b.mem (b.regs .rsp + 8#64)).toNat)
    (h : RunsUntil (Cpu.next p) (·.userMode = true) b d) :
    d.rip = readWord b.mem (b.regs .rsp + 8#64) := by
  obtain ⟨a₁, h₀, a₂, h₁, a₃, h₂, a₄, h₃, a₅, h₄, a₆, h₅, -⟩ := hexit
  have hkernel : ∀ {s : Cpu}, s.userMode = false → ¬ s.userMode = true := by simp
  obtain ⟨d', hrun, hrip⟩ : ∃ d', RunsUntil (Cpu.next p) (·.userMode = true) b d' ∧
      d'.rip = readWord b.mem (b.regs .rsp + 8#64) := by
    refine ⟨_, runsUntil_exec h₀ (hkernel hmode) (if_pos (Cpu.access_of_kernel hmode)) <|
      runsUntil_exec h₁ (hkernel hmode) (if_pos (Cpu.access_of_kernel hmode)) <|
      runsUntil_exec h₂ (hkernel hmode) (if_pos (Cpu.storeAccess_of_kernel hmode)) <|
      runsUntil_exec h₃ (hkernel hmode) (if_pos (Cpu.access_of_kernel hmode)) <|
      runsUntil_exec h₄ (hkernel hmode) (if_neg (hkernel hmode)) <|
      runsUntil_exec h₅ (hkernel hmode) (if_pos ⟨hmode, by simpa using hcanon⟩) (.here rfl), ?_⟩
    simp
  rw [h.unique hrun, hrip]

theorem UserRuns.of_runsUntil (h : RunsUntil (Cpu.next p) (·.userMode = false) c d) :
    UserRuns p S (·.userMode = false) c d := by
  induction h with
  | here hs => exact .here hs
  | step hns hnext _ ih => exact .step (Bool.not_eq_false _ ▸ hns) hns hnext ih

/-- Calls without interrupts are among those with them. -/
theorem Call.Runs.interrupted (hr : r.Runs pl) (hc : Ready pl r.entry) :
    r.RunsInterrupted pl S := by
  obtain ⟨e, hrun, he⟩ := reaches_inner hc hr.stub hr.frame
  obtain rfl := hrun.unique hr.passes
  obtain ⟨s, hs, hcall⟩ := hr.passes.split (·.userMode = false) he.userMode
  obtain ⟨t, ht, hexit⟩ := hr.returns
  obtain ⟨t', ht', hreturned⟩ := reaches_ret he hr.inner hr.frame.userWord
  obtain rfl := ht'.unique ht
  obtain ⟨d, hd, hret⟩ := ht.split (·.userMode = true) hreturned.userMode
  refine ⟨hr.userMode, hr.stub, ⟨s, .of_runsUntil hs, hcall⟩, hr.inner, d, t', hd, ?_, hexit⟩
  -- behind the `syscall` there is the `leave`, and then the `ret`
  obtain ⟨a₁, hleave, a₂, hcode, -⟩ := he.after
  have hexit : Cpu.Located p r.returned.rip syscallHandlerExit := by
    rw [hr.inner.rip, he.rsp]
    exact he.back
  have hslot : readWord r.returned.mem (r.returned.regs .rsp + 8#64)
      = readWord r.passed.mem (pl.kernelRsp - 8#64) := by
    rw [hr.inner.slots _ (by simp [hr.inner.rsp, add_eight_add_eight]), hr.inner.rsp, he.rsp]
    congr 1
    bv_omega
  have hrip := handler_leaves hexit (hr.inner.userMode.trans he.userMode)
    (hslot ▸ pl.canonical _ _ hleave) hd
  rw [← hslot, ← hrip] at hleave
  cases hret with
  | here hs => exact .here hs
  | step hns hnext hrest =>
    have hexec := (Cpu.next_of_code hleave).symm.trans hnext
    obtain ⟨-, hexec⟩ := Option.ite_none_right_eq_some.mp hexec
    obtain rfl := Option.some.inj hexec
    obtain rfl := hrest.unique (.here ⟨a₂, hcode⟩)
    exact .step hd.stops hns hnext (.here ⟨a₂, hcode⟩)

theorem hidden_of_onStack {x : Word} (h : OnStack 0x50000#64 x) :
    samplePlatform.user x = false := by
  obtain ⟨j, hj, rfl⟩ := h
  unfold STACK_SIZE at hj
  refine decide_eq_false ?_
  bv_omega

theorem not_onStack_of_inWord {x : Word}
    (ha : a ∈ [0x20000#64, 0x20008#64, 0x2FFF8#64, 0x2FFF0#64, 0x2FFE8#64]) (hx : InWord a x) :
    ¬ OnStack 0x50000#64 x := by
  rintro ⟨j, hj, rfl⟩
  have hx : (0x50000#64 + .ofNat 64 j - a).toNat < 8 := hx
  unfold STACK_SIZE at hj
  simp only [List.mem_cons, List.not_mem_nil, or_false] at ha
  rcases ha with rfl | rfl | rfl | rfl | rfl <;> bv_omega

/-- The array of the privileged stack, at `0x50000`. -/
def sampleScratch : Scratch samplePlacement where
  bytes := {x | OnStack 0x50000#64 x}
  hidden _ hx := hidden_of_onStack hx
  apart _ ha _ hx := not_onStack_of_inWord ha hx

def sampleGate : InterruptGate sampleScratch.bytes where
  arrays := ⟨0x100000#64, 0x200000#64, 0x50000#64⟩
  cs := 0x33#64
  ss := 0x2B#64
  handler := 0xB000#64
  user := by decide
  stack := fun _ hx => hx

theorem interrupted_round_trips_timer :
    ∃ c d r, RunsUntil (Cpu.next samplePlatform) (·.userMode = true) sampleBoot c ∧
      Interrupted sampleScratch.bytes c d ∧ r.entry = d ∧
      InterruptedSession samplePlacement sampleScratch.bytes c [r] r.exit ∧
      r.RoundTrip samplePlacement := by
  obtain ⟨c, hrun, hready, hstub, hframe, huser⟩ := sampleBoot_atStub
  obtain ⟨c', hrun', -, hrip, -, hflags⟩ := sampleBoot_entering.enters
  obtain rfl := hrun'.unique hrun
  obtain ⟨d, hint⟩ := sampleGate.interrupts hready.userMode
    (by rw [Cpu.interrupts, hflags]; decide) (by rw [hflags]; decide) (by rw [hrip]; decide)
  have hagree := hint.agree
  have hready' := hready.of_agree sampleScratch hagree
  obtain ⟨e, -, hcall⟩ := hready'.exists_call (hagree.rip ▸ hstub) (hagree.regs ▸ hframe)
    (hagree.regs ▸ huser)
  obtain ⟨x, hx⟩ := hcall _ (innerReturns_ret samplePlacement e)
  have hs := InterruptedSession.call (.interrupt .start hint) (hx.interrupted hready')
  exact ⟨_, d, _, hrun, hint, rfl, hs,
    (interrupted_round_trips sampleScratch sampleBoot_entering hrun hs).1 _ (by simp)⟩

end SyscallEntry

/-! ### After the boot -/

namespace Boot

open BootInfoFrameAllocator SyscallEntry

variable {M : Type} {mapper : Mapper M BootInfoFrameAllocator} {tables : M → List PhysFrame}
  {parse : List UInt8 → Option Elf.ElfHeaders} {collections : List HeapUse} {o : Overflow}
  {memoryMap : List MemoryRegion} {childProcess : List UInt8} {rsp : UInt64} {m : M}
  {mem : PhysMemory} {boot : Booted M} {elf : Elf.ElfHeaders}

end Boot
