/-
Spin locks on one processor whose code is interrupted.

A context runs a list of operations: it asks for the interrupt flag and masks
interrupts until it puts the flag back, takes and gives back locks, acts on a
device while it holds the lock of it, and accesses memory.  When the flag is set
an interrupt suspends the running context for a handler, which starts with the
flag clear and ends by giving flag and processor back; a fault does so whatever
the flag is.  A context that finds a lock taken spins.

The discipline (`Disciplined`) is a type system for code: a lock is only taken
while the flag is known to be clear, one lock at a time, and handlers leave the
flag alone.

* `Safe.step` — under it the holder of a lock is the running context;
* `Safe.not_blocked` — so no lock is ever found taken;
* `Safe.rests` — and what was begun is completed, up to a context that halts;
* `exec_haltsAbove` — after such a handler no interrupt comes in;
* `exec_flag` — outside of masked code the flag is as it was last set;
* `exec_closed` — and it stays clear if nobody sets it.
-/
import ZuluOs.Transition

namespace Preemption

open Transition

/-- The operations on locks `L` and devices with effects `E`. -/
inductive Op (L E : Type) where
  /-- Remember the interrupt flag. -/
  | ask
  /-- Clear it if it is remembered as set. -/
  | mask
  /-- Set it if it is remembered as set, and forget about it. -/
  | unmask
  | setFlag (b : Bool)
  | acquire (l : L)
  | release (l : L)
  | act (e : E)
  /-- Access memory; if that faults, it is still to be done. -/
  | touch
  /-- Go no further. -/
  | halt
deriving DecidableEq, Repr

/-- The code that is left, and the flags that are remembered. -/
structure Context (L E : Type) where
  code : List (Op L E)
  saved : List Bool

structure State (L E D : Type) where
  flag : Bool
  held : L → Bool
  device : D
  running : Context L E
  /-- The suspended contexts, each with the flag it is resumed with. -/
  below : List (Bool × Context L E)

/-- The code behind interrupts `I` and faults `X`, and the device. -/
structure Core (L E D I X : Type) where
  onInterrupt : I → List (Op L E)
  onFault : X → List (Op L E)
  /-- The device lets the interrupt through, or not. -/
  accept : I → D → Option D
  perform : D → E → D

inductive Action (I X : Type) where
  | run
  | interrupt (i : I)
  | fault (x : X)
deriving DecidableEq, Repr

variable {L E D I X : Type}

namespace Core

/-- One operation, after which the context is `k`. -/
def op [DecidableEq L] (c : Core L E D I X) (s : State L E D) (k : Context L E) :
    Op L E → Option (State L E D)
  | .ask => some { s with running := ⟨k.code, s.flag :: k.saved⟩ }
  | .mask => some { s with flag := s.flag && !k.saved.headD false, running := k }
  | .unmask => some { s with
      flag := s.flag || k.saved.headD false
      running := ⟨k.code, k.saved.tail⟩ }
  | .setFlag b => some { s with flag := b, running := k }
  | .acquire l =>
    -- a lock that is taken is tried again
    if s.held l then some s
    else some { s with held := Function.update s.held l true, running := k }
  | .release l => some { s with held := Function.update s.held l false, running := k }
  | .act e => some { s with device := c.perform s.device e, running := k }
  | .touch => some { s with running := k }
  | .halt => none

/-- A fault has suspended the running context. -/
def raise (c : Core L E D I X) (s : State L E D) (x : X) : State L E D :=
  { s with
    flag := false
    running := ⟨c.onFault x, []⟩
    below := (s.flag, s.running) :: s.below }

def step [DecidableEq L] (c : Core L E D I X) (s : State L E D) : Action I X → Option (State L E D)
  | .run =>
    match s.running.code, s.below with
    | o :: code, _ => c.op s ⟨code, s.running.saved⟩ o
    | [], (flag, k) :: below => some { s with flag := flag, running := k, below := below }
    | [], [] => none
  | .interrupt i =>
    if s.flag then (c.accept i s.device).map fun d => { s with
      flag := false
      device := d
      running := ⟨c.onInterrupt i, []⟩
      below := (s.flag, s.running) :: s.below }
    else none
  | .fault x => some (c.raise s x)

/-- The code that comes in with an action. -/
def arrives (c : Core L E D I X) : Action I X → List (Op L E)
  | .run => []
  | .interrupt i => c.onInterrupt i
  | .fault x => c.onFault x

end Core

/-! ### The discipline -/

/-- Code that can be run with the interrupt flag, the lock it holds and the
flags it remembers as given; it may set the flag only if `sti`. -/
inductive Disciplined (guards : E → L) (sti : Bool) :
    Bool → Option L → List Bool → List (Op L E) → Prop
  | done {f} : Disciplined guards sti f none [] []
  | halt {f saved code} : Disciplined guards sti f none saved (.halt :: code)
  | ask {f saved code} : Disciplined guards sti f none (f :: saved) code →
      Disciplined guards sti f none saved (.ask :: code)
  | mask {f b saved code} : Disciplined guards sti (f && !b) none (b :: saved) code →
      Disciplined guards sti f none (b :: saved) (.mask :: code)
  | unmask {f b saved code} : Disciplined guards sti (f || b) none saved code →
      Disciplined guards sti f none (b :: saved) (.unmask :: code)
  | setFlag {f b code} : sti = true → Disciplined guards sti b none [] code →
      Disciplined guards sti f none [] (.setFlag b :: code)
  | acquire {l saved code} : Disciplined guards sti false (some l) saved code →
      Disciplined guards sti false none saved (.acquire l :: code)
  | release {l saved code} : Disciplined guards sti false none saved code →
      Disciplined guards sti false (some l) saved (.release l :: code)
  | act {e saved code} : Disciplined guards sti false (some (guards e)) saved code →
      Disciplined guards sti false (some (guards e)) saved (.act e :: code)
  | touch {f saved code} : Disciplined guards sti f none saved code →
      Disciplined guards sti f none saved (.touch :: code)

/-- A critical section. -/
def critical (l : L) (es : List E) : List (Op L E) := .acquire l :: es.map .act ++ [.release l]

/-- Code with interrupts masked around it. -/
def masked (code : List (Op L E)) : List (Op L E) := .ask :: .mask :: code ++ [.unmask]

variable {guards : E → L} {sti f : Bool} {lock : Option L} {saved : List Bool}
variable {code : List (Op L E)}

theorem Disciplined.critical {l : L} {es : List E} (hes : ∀ e ∈ es, guards e = l)
    (h : Disciplined guards sti false none saved code) :
    Disciplined guards sti false none saved (critical l es ++ code) := by
  refine .acquire ?_
  induction es with
  | nil => exact .release h
  | cons e es ih =>
    rw [List.forall_mem_cons] at hes
    obtain ⟨rfl, hes⟩ := hes
    exact .act (ih hes)

/-- Masking makes room for a critical section, whatever the flag is. -/
theorem Disciplined.masked {l : L} {es : List E} (hes : ∀ e ∈ es, guards e = l)
    (h : Disciplined guards sti f none saved code) :
    Disciplined guards sti f none saved (masked (Preemption.critical l es) ++ code) := by
  have hback : Disciplined guards sti false none (f :: saved) (.unmask :: code) :=
    .unmask (by rwa [Bool.false_or])
  have hsection := Disciplined.critical hes hback
  rw [Preemption.masked, List.cons_append, List.cons_append, List.append_assoc]
  refine .ask (.mask ?_)
  rwa [Bool.and_not_self]

theorem Disciplined.touches (n : ℕ) (h : Disciplined guards sti f none saved code) :
    Disciplined guards sti f none saved (List.replicate n .touch ++ code) := by
  induction n with
  | zero => exact h
  | succ n ih => exact .touch ih

/-- The stack of contexts: the lowest may set the flag, those above it run with
the flag clear, and only the running one holds a lock. -/
inductive Stack (guards : E → L) :
    Bool → Option L → Context L E → List (Bool × Context L E) → Prop
  | first {f lock k} : Disciplined guards true f lock k.saved k.code → Stack guards f lock k []
  | above {f lock k k' below} : Disciplined guards false false lock k.saved k.code →
      (∀ b ∈ k.saved, b = false) → Stack guards f none k' below →
      Stack guards false lock k ((f, k') :: below)

/-- Every context keeps to the discipline, and the locks that are held are
those the running one holds. -/
def Safe (guards : E → L) (s : State L E D) : Prop :=
  ∃ lock, (∀ l, s.held l = true ↔ lock = some l) ∧
    Stack guards s.flag lock s.running s.below

/-- Faults come while no lock is held. -/
def Calm (s : State L E D) : Action I X → Prop
  | .fault _ => ∀ l, s.held l = false
  | _ => True

variable {c : Core L E D I X} {s t : State L E D} {k : Context L E}
variable {below : List (Bool × Context L E)}

/-- Runs without faults are calm. -/
theorem calm_of_no_fault [DecidableEq L] {as : List (Action I X)} (h : ∀ x, .fault x ∉ as)
    (s : State L E D) : Along c.step Calm s as := by
  refine Along.of_mem (fun a ha t => ?_) s
  cases a with
  | fault x => exact absurd ha (h x)
  | _ => trivial

/-- The handlers keep to the discipline. -/
structure Core.Disciplined (c : Core L E D I X) (guards : E → L) : Prop where
  onInterrupt : ∀ i, Preemption.Disciplined guards false false none [] (c.onInterrupt i)
  onFault : ∀ x, Preemption.Disciplined guards false false none [] (c.onFault x)

theorem Disciplined.flag_eq {l : L} (h : Preemption.Disciplined guards sti f (some l) saved code) :
    f = false := by
  cases h <;> rfl

theorem Disciplined.lock_eq_none (h : Preemption.Disciplined guards sti f lock saved []) :
    lock = none := by
  cases h
  rfl

/-- Who holds a lock has the flag clear. -/
theorem Stack.flag_eq {l : L} (h : Stack guards f (some l) k below) : f = false := by
  cases h with
  | first h => exact h.flag_eq
  | above => rfl

theorem Stack.lock_eq_none (h : Stack guards true lock k below) : lock = none := by
  cases lock with
  | none => rfl
  | some l => exact absurd h.flag_eq (by simp)

theorem Stack.disciplined (h : Stack guards f lock k below) :
    ∃ sti, Disciplined guards sti f lock k.saved k.code := by
  cases h with
  | first h => exact ⟨true, h⟩
  | above h => exact ⟨false, h⟩

/-- With the flag set only the lowest context is there. -/
theorem Stack.eq_nil (h : Stack guards true lock k below) : below = [] := by
  cases h
  rfl

/-- One operation of disciplined code. -/
structure OpStep (guards : E → L) (sti : Bool) (s t : State L E D) (saved : List Bool)
    (code : List (Op L E)) (lock : Option L) : Prop where
  below : t.below = s.below
  code_eq : t.running.code = code
  held_iff : ∀ l, t.held l = true ↔ lock = some l
  disciplined : Disciplined guards sti t.flag lock t.running.saved code
  -- a context that may not set the flag and remembers no set flag keeps it clear
  clear : sti = false → s.flag = false → (∀ b ∈ saved, b = false) →
    t.flag = false ∧ ∀ b ∈ t.running.saved, b = false

theorem Disciplined.op [DecidableEq L] {o : Op L E}
    (h : Disciplined guards sti s.flag lock saved (o :: code))
    (hheld : ∀ l, s.held l = true ↔ lock = some l) (ho : c.op s ⟨code, saved⟩ o = some t) :
    ∃ lock', OpStep guards sti s t saved code lock' := by
  generalize hf : s.flag = f at h
  cases h with
  | halt => cases ho
  | ask h =>
    obtain rfl := Option.some.inj ho
    refine ⟨none, rfl, rfl, hheld, by rwa [hf], fun _ hclear hsaved => ⟨hclear, ?_⟩⟩
    exact List.forall_mem_cons.mpr ⟨hclear, hsaved⟩
  | mask h =>
    obtain rfl := Option.some.inj ho
    refine ⟨none, rfl, rfl, hheld, by rwa [hf], fun _ hclear hsaved => ⟨?_, hsaved⟩⟩
    show (s.flag && _) = false
    rw [hclear, Bool.false_and]
  | unmask h =>
    obtain rfl := Option.some.inj ho
    refine ⟨none, rfl, rfl, hheld, by rwa [hf], fun _ hclear hsaved => ?_⟩
    obtain ⟨hb, hsaved⟩ := List.forall_mem_cons.mp hsaved
    refine ⟨?_, hsaved⟩
    show (s.flag || _) = false
    rw [hclear, Bool.false_or]
    exact hb
  | setFlag hsti h =>
    obtain rfl := Option.some.inj ho
    exact ⟨none, rfl, rfl, hheld, h, fun hsti' => by rw [hsti] at hsti'; cases hsti'⟩
  | @acquire l _ _ h =>
    have hfree : s.held l ≠ true := fun hl => by
      have hlock := (hheld l).mp hl
      cases hlock
    rw [Core.op, if_neg hfree] at ho
    obtain rfl := Option.some.inj ho
    refine ⟨some l, rfl, rfl, fun l' => ?_, by rwa [hf], fun _ hclear hsaved => ⟨hclear, hsaved⟩⟩
    by_cases hl : l' = l
    · simp [hl]
    · simp [hl, hheld, Ne.symm hl]
  | @release l _ _ h =>
    obtain rfl := Option.some.inj ho
    refine ⟨none, rfl, rfl, fun l' => ?_, by rwa [hf], fun _ hclear hsaved => ⟨hclear, hsaved⟩⟩
    by_cases hl : l' = l
    · simp [hl]
    · simp [hl, hheld, Ne.symm hl]
  | act h | touch h =>
    obtain rfl := Option.some.inj ho
    exact ⟨_, rfl, rfl, hheld, by rwa [hf], fun _ hclear hsaved => ⟨hclear, hsaved⟩⟩

variable [DecidableEq L]

theorem Core.run_cases (h : c.step s .run = some t) :
    (∃ o code, s.running.code = o :: code ∧ c.op s ⟨code, s.running.saved⟩ o = some t) ∨
    ∃ f k below, s.running.code = [] ∧ s.below = (f, k) :: below ∧
      t = { s with flag := f, running := k, below := below } := by
  obtain ⟨flag, held, device, ⟨code, saved⟩, below⟩ := s
  cases code with
  | cons o code => exact .inl ⟨o, code, rfl, h⟩
  | nil =>
    cases below with
    | nil => cases h
    | cons k below => exact .inr ⟨k.1, k.2, below, rfl, rfl, (Option.some.inj h).symm⟩

theorem Core.interrupt_cases {i : I} (h : c.step s (.interrupt i) = some t) :
    s.flag = true ∧ ∃ d, c.accept i s.device = some d ∧ t = { s with
      flag := false
      device := d
      running := ⟨c.onInterrupt i, []⟩
      below := (s.flag, s.running) :: s.below } := by
  rw [Core.step] at h
  obtain ⟨hflag, h⟩ := Option.ite_none_right_eq_some.mp h
  obtain ⟨d, hd, rfl⟩ := Option.map_eq_some_iff.mp h
  exact ⟨hflag, d, hd, rfl⟩

/-- The stack after an operation of the running context. -/
theorem Stack.op {o : Op L E} (hstack : Stack guards s.flag lock s.running s.below)
    (hheld : ∀ l, s.held l = true ↔ lock = some l) (hcode : s.running.code = o :: code)
    (ho : c.op s ⟨code, s.running.saved⟩ o = some t) :
    ∃ lock', (∀ l, t.held l = true ↔ lock' = some l) ∧
      Stack guards t.flag lock' t.running t.below := by
  generalize hf : s.flag = f at hstack
  generalize hk : s.below = below at hstack
  cases hstack with
  | first h =>
    rw [hcode, ← hf] at h
    obtain ⟨lock', hop⟩ := h.op hheld ho
    refine ⟨lock', hop.held_iff, ?_⟩
    rw [hop.below, hk]
    exact .first (hop.code_eq ▸ hop.disciplined)
  | above h hsaved hbelow =>
    have h' : Disciplined guards false s.flag lock s.running.saved (o :: code) := by
      rwa [hf, ← hcode]
    obtain ⟨lock', hop⟩ := h'.op hheld ho
    obtain ⟨hclear, hsaved'⟩ := hop.clear rfl hf hsaved
    refine ⟨lock', hop.held_iff, ?_⟩
    rw [hop.below, hk, hclear]
    exact .above (hop.code_eq ▸ hclear ▸ hop.disciplined) hsaved' hbelow

omit [DecidableEq L] in
theorem Safe.stack_of_free (hs : Safe guards s) (hfree : ∀ l, s.held l = false) :
    Stack guards s.flag none s.running s.below := by
  obtain ⟨lock, hheld, hstack⟩ := hs
  cases lock with
  | none => exact hstack
  | some l => exact absurd ((hheld l).mpr rfl) (by simp [hfree l])

omit [DecidableEq L] in
theorem Safe.free_of_flag (hs : Safe guards s) (hflag : s.flag = true) (l : L) :
    s.held l = false := by
  obtain ⟨lock, hheld, hstack⟩ := hs
  rw [hflag] at hstack
  rw [← Bool.not_eq_true, hheld, hstack.lock_eq_none]
  simp

omit [DecidableEq L] in
theorem Safe.below_eq_nil (hs : Safe guards s) (hflag : s.flag = true) : s.below = [] := by
  obtain ⟨lock, -, hstack⟩ := hs
  rw [hflag] at hstack
  exact hstack.eq_nil

omit [DecidableEq L] in
theorem Safe.free_of_nil (hs : Safe guards s) (hcode : s.running.code = []) (l : L) :
    s.held l = false := by
  obtain ⟨lock, hheld, hstack⟩ := hs
  obtain ⟨sti, h⟩ := hstack.disciplined
  rw [hcode] at h
  rw [← Bool.not_eq_true, hheld, h.lock_eq_none]
  simp

theorem Safe.step (hc : c.Disciplined guards) {a : Action I X} (hcalm : Calm s a)
    (hs : Safe guards s) (h : c.step s a = some t) : Safe guards t := by
  cases a with
  | run =>
    rcases Core.run_cases h with ⟨o, code, hcode, ho⟩ | ⟨f, k, below, hcode, hbelow, rfl⟩
    · obtain ⟨lock, hheld, hstack⟩ := hs
      exact hstack.op hheld hcode ho
    · have hfree := hs.free_of_nil hcode
      have hstack := hs.stack_of_free hfree
      generalize s.flag = f' at hstack
      rw [hbelow] at hstack
      cases hstack with
      | above _ _ hstack => exact ⟨none, by simp [hfree], hstack⟩
  | interrupt i =>
    obtain ⟨hflag, d, -, rfl⟩ := Core.interrupt_cases h
    have hfree := hs.free_of_flag hflag
    exact ⟨none, by simp [hfree], .above (hc.onInterrupt i) (by simp) (hs.stack_of_free hfree)⟩
  | fault x =>
    obtain rfl := Option.some.inj h
    have hfree : ∀ l, s.held l = false := hcalm
    exact ⟨none, by simp [Core.raise, hfree],
      .above (hc.onFault x) (by simp [Core.raise]) (hs.stack_of_free hfree)⟩

/-- The running context goes on to its next operation. -/
theorem Safe.op_goes {o : Op L E} (hs : Safe guards s) (hcode : s.running.code = o :: code)
    (ho : c.op s ⟨code, s.running.saved⟩ o = some t) :
    t.running.code = code ∧ t.below = s.below := by
  obtain ⟨lock, hheld, hstack⟩ := hs
  obtain ⟨sti, h⟩ := hstack.disciplined
  rw [hcode] at h
  obtain ⟨lock', hop⟩ := h.op hheld ho
  exact ⟨hop.code_eq, hop.below⟩

theorem exec_safe (hc : c.Disciplined guards) {as : List (Action I X)}
    (hcalm : Along c.step Calm s as) (hs : Safe guards s) (h : exec c.step s as = some t) :
    Safe guards t :=
  exec_invariant_along (fun _ _ _ hcalm hs h => hs.step hc hcalm h) hcalm hs h

/-! ### Progress -/

/-- The running context spins. -/
def Blocked (s : State L E D) : Prop :=
  ∃ l code, s.running.code = .acquire l :: code ∧ s.held l = true

/-- There is nothing left to run, or the running context has halted. -/
def Resting (s : State L E D) : Prop :=
  s.running.code = [] ∧ s.below = [] ∨ ∃ code, s.running.code = .halt :: code

/-- The operations that are left, and the returns from handlers. -/
def State.size (s : State L E D) : ℕ :=
  s.running.code.length + (s.below.map fun k => k.2.code.length + 1).sum

omit [DecidableEq L] in
theorem Safe.not_blocked (hs : Safe guards s) : ¬ Blocked s := by
  rintro ⟨l, code, hcode, hheld⟩
  obtain ⟨lock, hlock, hstack⟩ := hs
  obtain ⟨sti, h⟩ := hstack.disciplined
  rw [hcode, (hlock l).mp hheld] at h
  generalize s.flag = f, s.running.saved = saved at h
  cases h

omit [DecidableEq L] in
/-- No lock is held by a context that rests. -/
theorem Safe.free (hs : Safe guards s) (hrest : Resting s) (l : L) : s.held l = false := by
  obtain ⟨lock, hlock, hstack⟩ := hs
  obtain ⟨sti, h⟩ := hstack.disciplined
  have hnone : lock = none := by
    rcases hrest with ⟨hcode, -⟩ | ⟨code, hcode⟩
    · exact (hcode ▸ h).lock_eq_none
    · rw [hcode] at h
      generalize s.flag = f, s.running.saved = saved at h
      cases h
      rfl
  rw [← Bool.not_eq_true, hlock, hnone]
  simp

/-- A context that neither spins nor rests goes on. -/
theorem Core.exists_run (c : Core L E D I X) (hblocked : ¬ Blocked s) (hrest : ¬ Resting s) :
    ∃ t, c.step s .run = some t ∧ t.size < s.size := by
  obtain ⟨flag, held, device, ⟨code, saved⟩, below⟩ := s
  cases code with
  | nil =>
    cases below with
    | nil => exact absurd (.inl ⟨rfl, rfl⟩) hrest
    | cons k below => exact ⟨_, rfl, by simp only [State.size, List.map_cons, List.sum_cons]; simp⟩
  | cons o code =>
    cases o with
    | halt => exact absurd (.inr ⟨code, rfl⟩) hrest
    | acquire l =>
      have hfree : ¬ held l = true := fun hl => hblocked ⟨l, code, rfl, hl⟩
      exact ⟨_, if_neg hfree, by simp [State.size]⟩
    | _ => exact ⟨_, rfl, by simp [State.size]⟩

/-- **What was begun is completed**, or the running context halts: left to itself,
the processor comes to rest with no lock held. -/
theorem Safe.rests (hc : c.Disciplined guards) (hs : Safe guards s) :
    ∃ n ≤ s.size, ∃ t, exec c.step s (List.replicate n .run) = some t ∧ Resting t ∧
      Safe guards t := by
  induction hsize : s.size using Nat.strong_induction_on generalizing s with
  | h size ih =>
    by_cases hrest : Resting s
    · exact ⟨0, Nat.zero_le _, s, rfl, hrest, hs⟩
    · obtain ⟨s', hstep, hlt⟩ := c.exists_run hs.not_blocked hrest
      obtain ⟨n, hn, t, hrun, ht⟩ :=
        ih s'.size (hsize ▸ hlt) (hs.step (a := .run) hc trivial hstep) rfl
      exact ⟨n + 1, by omega, t, exec_cons_eq_some.mpr ⟨s', hstep, hrun⟩, ht⟩

/-- A context above the lowest is going to halt. -/
def HaltsAbove : Context L E → List (Bool × Context L E) → Prop
  | _, [] => False
  | k, (_, k') :: below => .halt ∈ k.code ∨ HaltsAbove k' below

/-- The running context comes closer to its halt, and cannot get past it. -/
theorem Core.op_halt_mem {o : Op L E} (hcode : s.running.code = o :: code)
    (ho : c.op s ⟨code, s.running.saved⟩ o = some t) :
    (.halt ∈ s.running.code → .halt ∈ t.running.code) ∧ t.below = s.below := by
  cases o with
  | halt => cases ho
  | acquire l =>
    rw [Core.op] at ho
    split at ho <;> obtain rfl := Option.some.inj ho
    · exact ⟨id, rfl⟩
    · exact ⟨fun hmem => by simpa [hcode] using hmem, rfl⟩
  | _ =>
    obtain rfl := Option.some.inj ho
    exact ⟨fun hmem => by simpa [hcode] using hmem, rfl⟩

theorem HaltsAbove.step {a : Action I X} (hhalts : HaltsAbove s.running s.below)
    (h : c.step s a = some t) : HaltsAbove t.running t.below := by
  cases a with
  | run =>
    rcases Core.run_cases h with ⟨o, code, hcode, ho⟩ | ⟨f, k, below, hcode, hbelow, rfl⟩
    · obtain ⟨hmem, hbelow⟩ := Core.op_halt_mem hcode ho
      rw [hbelow]
      cases hstack : s.below with
      | nil =>
        rw [hstack] at hhalts
        exact hhalts.elim
      | cons k' below =>
        rw [hstack] at hhalts
        exact hhalts.imp_left hmem
    · rw [hbelow] at hhalts
      refine hhalts.resolve_left ?_
      rw [hcode]
      exact List.not_mem_nil
  | interrupt i =>
    obtain ⟨-, d, -, rfl⟩ := Core.interrupt_cases h
    exact .inr hhalts
  | fault x =>
    obtain rfl := Option.some.inj h
    exact .inr hhalts

/-- **A handler that halts is never left**, so that the flag stays clear. -/
theorem exec_haltsAbove (hc : c.Disciplined guards) {as : List (Action I X)}
    (hcalm : Along c.step Calm s as) (hs : Safe guards s)
    (hhalts : HaltsAbove s.running s.below) (h : exec c.step s as = some t) : t.flag = false := by
  obtain ⟨ht, hhalts⟩ := exec_invariant_along
    (I := fun s => Safe guards s ∧ HaltsAbove s.running s.below)
    (fun _ _ _ hcalm hI h => ⟨hI.1.step hc hcalm h, hI.2.step h⟩) hcalm ⟨hs, hhalts⟩ h
  rw [← Bool.not_eq_true]
  intro hflag
  rw [ht.below_eq_nil hflag] at hhalts
  exact hhalts

/-! ### The interrupt flag -/

/-- The lowest context, with the flag it has or will be resumed with. -/
def State.first (s : State L E D) : Bool × Context L E :=
  s.below.getLast?.getD (s.flag, s.running)

omit [DecidableEq L] in
theorem State.first_of_nil (h : s.below = []) : s.first = (s.flag, s.running) := by
  rw [State.first, h]
  rfl

omit [DecidableEq L] in
theorem State.first_of_ne_nil (h : t.below = s.below) (hne : s.below ≠ []) :
    t.first = s.first := by
  rw [State.first, State.first, h, List.getLast?_eq_some_getLast hne, Option.getD_some,
    Option.getD_some]

omit [DecidableEq L] in
/-- Suspending a context leaves the lowest one. -/
theorem State.first_of_push (h : t.below = (s.flag, s.running) :: s.below) :
    t.first = s.first := by
  rw [State.first, State.first, h, List.getLast?_cons, Option.getD_some]

/-- The flag once the masked code is left. -/
def settled (k : Bool × Context L E) : Bool := k.1 || k.2.saved.any id

/-- The flag as an operation sets it for good. -/
def setTo (f : Bool) : Op L E → Bool
  | .setFlag b => b
  | _ => f

theorem Disciplined.op_settled {o : Op L E}
    (h : Disciplined guards sti s.flag lock saved (o :: code))
    (ho : c.op s ⟨code, saved⟩ o = some t) (hfree : ∀ l, o = .acquire l → s.held l = false) :
    settled (t.flag, t.running) = setTo (settled (s.flag, (⟨code, saved⟩ : Context L E))) o := by
  generalize hf : s.flag = f at h
  cases h with
  | halt => cases ho
  | acquire h =>
    rw [Core.op, if_neg (by simp [hfree _ rfl])] at ho
    obtain rfl := Option.some.inj ho
    simp [settled, setTo, hf]
  | mask h =>
    obtain rfl := Option.some.inj ho
    rename_i b saved
    cases b <;> simp [settled, setTo, hf]
  | _ =>
    obtain rfl := Option.some.inj ho
    simp [settled, setTo, hf, Bool.or_assoc]

theorem Safe.flag_step {a : Action I X} (hs : Safe guards s) (h : c.step s a = some t) :
    ∃ done, s.first.2.code = done ++ t.first.2.code ∧
      settled t.first = done.foldl setTo (settled s.first) := by
  -- the lowest context is not the one that ran
  have hother : t.first = s.first → ∃ done, s.first.2.code = done ++ t.first.2.code ∧
      settled t.first = done.foldl setTo (settled s.first) := by
    intro hfirst
    rw [hfirst]
    exact ⟨[], rfl, rfl⟩
  cases a with
  | run =>
    rcases Core.run_cases h with ⟨o, code, hcode, ho⟩ | ⟨f, k, below, hcode, hbelow, rfl⟩
    · have hfree : ∀ l, o = .acquire l → s.held l = false := by
        rintro l rfl
        rw [← Bool.not_eq_true]
        intro hheld
        exact hs.not_blocked ⟨l, code, hcode, hheld⟩
      obtain ⟨hgoes, hbelow⟩ := hs.op_goes hcode ho
      obtain ⟨lock, hheld, hstack⟩ := hs
      obtain ⟨sti, hdisc⟩ := hstack.disciplined
      rw [hcode] at hdisc
      by_cases hnil : s.below = []
      · rw [State.first_of_nil hnil, State.first_of_nil (hbelow.trans hnil), hgoes]
        exact ⟨[o], hcode, hdisc.op_settled ho hfree⟩
      · exact hother (State.first_of_ne_nil hbelow hnil)
    · exact hother (State.first_of_push hbelow).symm
  | interrupt i =>
    obtain ⟨-, d, -, rfl⟩ := Core.interrupt_cases h
    exact hother (State.first_of_push rfl)
  | fault x =>
    obtain rfl := Option.some.inj h
    exact hother (State.first_of_push rfl)

/-- **The flag is put back.**  Once it has left its masked code, the lowest
context finds the flag as its own code last set it, or as it was in the
beginning. -/
theorem exec_flag (hc : c.Disciplined guards) {as : List (Action I X)}
    (hcalm : Along c.step Calm s as) (hs : Safe guards s) (h : exec c.step s as = some t) :
    ∃ done, s.first.2.code = done ++ t.first.2.code ∧
      settled t.first = done.foldl setTo (settled s.first) := by
  induction as generalizing s with
  | nil =>
    rw [exec_nil, Option.some_inj] at h
    exact ⟨[], h ▸ rfl, h ▸ rfl⟩
  | cons a as ih =>
    obtain ⟨u, hu, hrest⟩ := exec_cons_eq_some.mp h
    obtain ⟨hcalma, hcalmas⟩ := hcalm.cons hu
    obtain ⟨done, hcode, hflag⟩ := hs.flag_step hu
    obtain ⟨done', hcode', hflag'⟩ := ih hcalmas (hs.step hc hcalma hu) hrest
    refine ⟨done ++ done', ?_, ?_⟩
    · rw [hcode, hcode', List.append_assoc]
    · rw [hflag', hflag, List.foldl_append]

/-- Nor is the lowest context left if it halts. -/
theorem exec_first_halt_mem {as : List (Action I X)} (hs : .halt ∈ s.first.2.code)
    (h : exec c.step s as = some t) : .halt ∈ t.first.2.code := by
  refine exec_invariant (I := fun s => .halt ∈ s.first.2.code) ?_ hs h
  intro s a t hs h
  cases a with
  | run =>
    rcases Core.run_cases h with ⟨o, code, hcode, ho⟩ | ⟨f, k, below, hcode, hbelow, rfl⟩
    · obtain ⟨hmem, hbelow⟩ := Core.op_halt_mem hcode ho
      by_cases hnil : s.below = []
      · rw [State.first_of_nil hnil] at hs
        rw [State.first_of_nil (hbelow.trans hnil)]
        exact hmem hs
      · rwa [State.first_of_ne_nil hbelow hnil]
    · rwa [← State.first_of_push hbelow]
  | interrupt i =>
    obtain ⟨-, d, -, rfl⟩ := Core.interrupt_cases h
    rwa [State.first_of_push rfl]
  | fault x =>
    obtain rfl := Option.some.inj h
    rwa [State.first_of_push rfl]

/-- The context neither sets the flag nor remembers it as set. -/
def Context.Closed (k : Context L E) : Prop :=
  (∀ b ∈ k.saved, b = false) ∧ .setFlag true ∉ k.code

/-- The flag is clear, and no context will set it. -/
structure Closed (s : State L E D) : Prop where
  flag : s.flag = false
  running : s.running.Closed
  below : ∀ k ∈ s.below, k.1 = false ∧ k.2.Closed

theorem Closed.op {o : Op L E} (hs : Closed s) (hcode : s.running.code = o :: code)
    (ho : c.op s ⟨code, s.running.saved⟩ o = some t) : Closed t := by
  obtain ⟨hflag, ⟨hsaved, hset⟩, hbelow⟩ := hs
  rw [hcode, List.mem_cons, not_or] at hset
  obtain ⟨hne, hset⟩ := hset
  have hhead : s.running.saved.headD false = false := by
    cases h : s.running.saved with
    | nil => rfl
    | cons b saved => exact hsaved b (h ▸ List.mem_cons_self)
  cases o with
  | ask =>
    obtain rfl := Option.some.inj ho
    exact ⟨hflag, ⟨List.forall_mem_cons.mpr ⟨hflag, hsaved⟩, hset⟩, hbelow⟩
  | mask =>
    obtain rfl := Option.some.inj ho
    exact ⟨by simp [hflag], ⟨hsaved, hset⟩, hbelow⟩
  | unmask =>
    obtain rfl := Option.some.inj ho
    refine ⟨?_, ⟨fun b hb => hsaved b (List.mem_of_mem_tail hb), hset⟩, hbelow⟩
    show (s.flag || s.running.saved.headD false) = false
    rw [hflag, hhead, Bool.or_false]
  | setFlag b =>
    obtain rfl := Option.some.inj ho
    cases b with
    | true => exact absurd rfl hne
    | false => exact ⟨rfl, ⟨hsaved, hset⟩, hbelow⟩
  | acquire l =>
    rw [Core.op] at ho
    split at ho <;> obtain rfl := Option.some.inj ho
    · refine ⟨hflag, ⟨hsaved, ?_⟩, hbelow⟩
      rw [hcode, List.mem_cons, not_or]
      exact ⟨hne, hset⟩
    · exact ⟨hflag, ⟨hsaved, hset⟩, hbelow⟩
  | release | act | touch =>
    obtain rfl := Option.some.inj ho
    exact ⟨hflag, ⟨hsaved, hset⟩, hbelow⟩
  | halt => cases ho

theorem Closed.step (hc : ∀ x, .setFlag true ∉ c.onFault x) {a : Action I X} (hs : Closed s)
    (h : c.step s a = some t) : Closed t := by
  cases a with
  | run =>
    rcases Core.run_cases h with ⟨o, code, hcode, ho⟩ | ⟨f, k, below, hcode, hbelow, rfl⟩
    · exact hs.op hcode ho
    · have hk := hs.below
      rw [hbelow] at hk
      obtain ⟨⟨hf, hk⟩, hrest⟩ := List.forall_mem_cons.mp hk
      exact ⟨hf, hk, hrest⟩
  | interrupt i =>
    obtain ⟨hflag, -⟩ := Core.interrupt_cases h
    rw [hs.flag] at hflag
    cases hflag
  | fault x =>
    obtain rfl := Option.some.inj h
    exact ⟨rfl, ⟨by simp [Core.raise], hc x⟩,
      List.forall_mem_cons.mpr ⟨⟨hs.flag, hs.running⟩, hs.below⟩⟩

/-- **The flag stays clear**, whatever faults come in, if neither the code nor the
handlers of faults set it. -/
theorem exec_closed (hc : ∀ x, .setFlag true ∉ c.onFault x) {as : List (Action I X)}
    (hs : Closed s) (h : exec c.step s as = some t) : Closed t :=
  exec_invariant (fun _ _ _ => Closed.step hc) hs h

end Preemption
