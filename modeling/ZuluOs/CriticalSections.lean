/-
Critical sections of code that is interrupted, as the device sees them.

* `exec_serial` — what the device goes through is a sequence of whole critical
  sections, those of the lowest context in the order of its code;
* `exec_masked` — one of them runs through from every state in which its lock is
  free;
* `Doomed.exec` — and never from a state in which it is taken and interrupts are
  off, even if there are faults whose handlers want the lock, too.
-/
import ZuluOs.Preemption

namespace Preemption

open Transition

variable {L E D I X : Type} {guards : E → L} {sti f : Bool} {lock : Option L}
variable {saved : List Bool} {code : List (Op L E)}
variable {c : Core L E D I X} {s t : State L E D} {k : Context L E}
variable {below : List (Bool × Context L E)} [DecidableEq L]

/-! ### Critical sections in sequence -/

/-- The effects code is about to have, up to its next other operation. -/
def acts : List (Op L E) → List E
  | .act e :: code => e :: acts code
  | _ => []

/-- The critical sections that code begins. -/
def sections : List (Op L E) → List (L × List E)
  | [] => []
  | .acquire l :: code => (l, acts code) :: sections code
  | _ :: code => sections code

/-- The critical section an operation begins. -/
def begins (code : List (Op L E)) : Op L E → List (L × List E)
  | .acquire l => [(l, acts code)]
  | _ => []

omit [DecidableEq L] in
theorem sections_cons (o : Op L E) (code : List (Op L E)) :
    sections (o :: code) = begins code o ++ sections code := by
  cases o <;> rfl

omit [DecidableEq L] in
theorem sections_critical (l : L) (es : List E) (code : List (Op L E)) :
    sections (critical l es ++ code) = (l, es) :: sections code := by
  have hacts : acts (es.map .act ++ .release l :: code) = es := by
    induction es with
    | nil => rfl
    | cons e es ih => exact congrArg (e :: ·) ih
  have hskip : sections (es.map .act ++ .release l :: code) = sections code := by
    clear hacts
    induction es with
    | nil => rfl
    | cons e es ih => exact ih
  show sections (.acquire l :: (es.map .act ++ [.release l] ++ code)) = _
  rw [List.append_assoc, List.singleton_append, sections, hacts, hskip]

omit [DecidableEq L] in
theorem sections_masked (l : L) (es : List E) (code : List (Op L E)) :
    sections (masked (critical l es) ++ code) = (l, es) :: sections code := by
  show sections (critical l es ++ [.unmask] ++ code) = _
  rw [List.append_assoc, sections_critical]
  rfl

omit [DecidableEq L] in
theorem sections_touches (n : ℕ) (code : List (Op L E)) :
    sections (List.replicate n .touch ++ code) = sections code := by
  induction n with
  | zero => rfl
  | succ n ih => exact ih

omit [DecidableEq L] in
theorem Disciplined.acts_eq_nil (h : Disciplined guards sti f none saved code) :
    acts code = [] := by
  cases h <;> rfl

omit [DecidableEq L] in
theorem Disciplined.acts_guards {l : L} (h : Disciplined guards sti f (some l) saved code) :
    ∀ e ∈ acts code, guards e = l := by
  generalize hlock : some l = lock at h
  induction h with
  | act _ ih =>
    obtain rfl := Option.some.inj hlock
    exact List.forall_mem_cons.mpr ⟨rfl, ih rfl⟩
  | _ => simp [acts]

omit [DecidableEq L] in
/-- A critical section acts on the device of its lock. -/
theorem Disciplined.begins_guards {o : Op L E}
    (h : Disciplined guards sti f lock saved (o :: code)) :
    ∀ x ∈ begins code o, ∀ e ∈ x.2, guards e = x.1 := by
  cases h with
  | acquire h => simpa [begins] using h.acts_guards
  | _ => simp [begins]

/-- The critical sections of all contexts that are not begun yet. -/
def State.remaining (s : State L E D) : List (L × List E) :=
  sections s.running.code ++ s.below.flatMap fun k => sections k.2.code

section Serial

-- the part of the device that interrupts leave alone
variable {V : Type} (guards : E → L) (π : D → V) (put : V → E → V)

/-- The device, once the running context has left its critical section. -/
def State.finish (s : State L E D) : V := (acts s.running.code).foldl put (π s.device)

/-- From `s` to `t` the device goes through the critical sections `order`, of
which the marked ones are those of the lowest context. -/
structure Serial (c : Core L E D I X) (s : State L E D) (as : List (Action I X))
    (t : State L E D) (order : List (Bool × L × List E)) : Prop where
  view : t.finish π put = order.foldl (fun v x => x.2.2.foldl put v) (s.finish π put)
  program : sections s.first.2.code = (order.filter (·.1)).map (·.2) ++ sections t.first.2.code
  all : (order.map (·.2) ++ t.remaining).Perm
    (s.remaining ++ as.flatMap fun a => sections (c.arrives a))
  guarded : ∀ x ∈ order, ∀ e ∈ x.2.2, guards e = x.2.1

variable {guards π put}

omit [DecidableEq L] in
theorem Serial.refl (c : Core L E D I X) (s : State L E D) : Serial guards π put c s [] s [] where
  view := rfl
  program := rfl
  all := by simp
  guarded := by simp

omit [DecidableEq L] in
theorem Serial.trans {u : State L E D} {as bs : List (Action I X)}
    {order order' : List (Bool × L × List E)} (h : Serial guards π put c s as t order)
    (h' : Serial guards π put c t bs u order') : Serial guards π put c s (as ++ bs) u (order ++ order') where
  view := by rw [h'.view, h.view, List.foldl_append]
  program := by
    rw [h.program, h'.program, List.filter_append, List.map_append, List.append_assoc]
  all := by
    rw [List.map_append, List.flatMap_append, List.append_assoc, ← List.append_assoc s.remaining]
    refine (h'.all.append_left _).trans ?_
    rw [← List.append_assoc]
    exact h.all.append_right _
  guarded := List.forall_mem_append.mpr ⟨h.guarded, h'.guarded⟩

omit [DecidableEq L] in
/-- Without a lock there is nothing to finish. -/
theorem Safe.finish_eq (hs : Safe guards s) (hfree : ∀ l, s.held l = false) :
    s.finish π put = π s.device := by
  obtain ⟨sti, hcode⟩ := (hs.stack_of_free hfree).disciplined
  rw [State.finish, hcode.acts_eq_nil]
  rfl

theorem Disciplined.op_view (hperform : ∀ d e, π (c.perform d e) = put (π d) e) {o : Op L E}
    (h : Disciplined guards sti s.flag lock saved (o :: code))
    (hheld : ∀ l, s.held l = true ↔ lock = some l) (ho : c.op s ⟨code, saved⟩ o = some t) :
    t.finish π put = (begins code o).foldl (fun v x => x.2.foldl put v)
      ((acts (o :: code)).foldl put (π s.device)) := by
  generalize s.flag = f at h
  cases h with
  | halt => cases ho
  | @acquire l _ _ h =>
    have hfree : s.held l ≠ true := fun hl => by
      have hlock := (hheld l).mp hl
      cases hlock
    rw [Core.op, if_neg hfree] at ho
    obtain rfl := Option.some.inj ho
    rfl
  | act h =>
    obtain rfl := Option.some.inj ho
    show (acts code).foldl put (π (c.perform _ _)) = _
    rw [hperform]
    rfl
  | _ =>
    -- the code after it is in no critical section
    obtain rfl := Option.some.inj ho
    rename_i h
    rw [State.finish, h.acts_eq_nil]
    rfl

theorem Safe.serial_op (hperform : ∀ d e, π (c.perform d e) = put (π d) e) {o : Op L E}
    (hs : Safe guards s) (hcode : s.running.code = o :: code)
    (ho : c.op s ⟨code, s.running.saved⟩ o = some t) :
    Serial guards π put c s [.run] t ((begins code o).map fun x => (s.below.isEmpty, x)) := by
  obtain ⟨hgoes, hbelow⟩ := hs.op_goes hcode ho
  obtain ⟨lock, hheld, hstack⟩ := hs
  obtain ⟨sti, h⟩ := hstack.disciplined
  rw [hcode] at h
  constructor
  case view =>
    rw [List.foldl_map, State.finish.eq_def π put s, hcode]
    exact h.op_view hperform hheld ho
  case program =>
    by_cases hnil : s.below = []
    · rw [State.first_of_nil hnil, State.first_of_nil (hbelow.trans hnil), hgoes, hcode,
        sections_cons, hnil, List.filter_map, List.map_map]
      simp [Function.comp_def]
    · rw [State.first_of_ne_nil hbelow hnil]
      simp [hnil]
  case all =>
    rw [List.map_map, State.remaining, State.remaining, hbelow, hgoes, hcode, sections_cons]
    simp [Function.comp_def, Core.arrives, sections]
  case guarded =>
    rw [List.forall_mem_map]
    exact h.begins_guards

omit [DecidableEq L] in
/-- No lock is held, and the processor goes from one context to another. -/
theorem Safe.serial_switch {a : Action I X} (hs : Safe guards s) (ht : Safe guards t)
    (hfree : ∀ l, s.held l = false) (hheld : t.held = s.held) (hview : π t.device = π s.device)
    (hfirst : t.first = s.first)
    (hall : t.remaining.Perm (s.remaining ++ sections (c.arrives a))) :
    Serial guards π put c s [a] t [] where
  view := by
    rw [hs.finish_eq hfree, ht.finish_eq (hheld ▸ hfree), hview]
    rfl
  program := by rw [hfirst]; rfl
  all := by simpa using hall
  guarded := by simp

theorem Safe.serial_step (hc : c.Disciplined guards)
    (hperform : ∀ d e, π (c.perform d e) = put (π d) e)
    (haccept : ∀ i d d', c.accept i d = some d' → π d' = π d) {a : Action I X}
    (hcalm : Calm s a) (hs : Safe guards s) (h : c.step s a = some t) :
    ∃ order, Serial guards π put c s [a] t order := by
  have hsafe := hs.step hc hcalm h
  cases a with
  | run =>
    rcases Core.run_cases h with ⟨o, code, hcode, ho⟩ | ⟨f, k, below, hcode, hbelow, rfl⟩
    · exact ⟨_, hs.serial_op hperform hcode ho⟩
    · refine ⟨[], hs.serial_switch hsafe (hs.free_of_nil hcode) rfl rfl ?_ ?_⟩
      · exact (State.first_of_push hbelow).symm
      · simp [State.remaining, hcode, hbelow, sections, Core.arrives]
  | interrupt i =>
    obtain ⟨hflag, d, hd, rfl⟩ := Core.interrupt_cases h
    refine ⟨[], hs.serial_switch hsafe (hs.free_of_flag hflag) rfl (haccept i _ _ hd) ?_ ?_⟩
    · exact State.first_of_push rfl
    · show (sections (c.onInterrupt i) ++ s.remaining).Perm _
      exact List.perm_append_comm
  | fault x =>
    obtain rfl := Option.some.inj h
    refine ⟨[], hs.serial_switch hsafe hcalm rfl rfl ?_ ?_⟩
    · exact State.first_of_push rfl
    · show (sections (c.onFault x) ++ s.remaining).Perm _
      exact List.perm_append_comm

/-- **Critical sections in sequence.**  Over every run the device goes through
whole critical sections, each begun once; those of the lowest context in the
order of its code. -/
theorem exec_serial (hc : c.Disciplined guards)
    (hperform : ∀ d e, π (c.perform d e) = put (π d) e)
    (haccept : ∀ i d d', c.accept i d = some d' → π d' = π d) {as : List (Action I X)}
    (hcalm : Along c.step Calm s as) (hs : Safe guards s) (h : exec c.step s as = some t) :
    ∃ order, Serial guards π put c s as t order := by
  induction as generalizing s with
  | nil =>
    rw [exec_nil, Option.some_inj] at h
    exact ⟨[], h ▸ Serial.refl c s⟩
  | cons a as ih =>
    obtain ⟨u, hu, hrest⟩ := exec_cons_eq_some.mp h
    obtain ⟨hcalma, hcalmas⟩ := hcalm.cons hu
    obtain ⟨order, hstep⟩ := hs.serial_step hc hperform haccept hcalma hu
    obtain ⟨order', hrun⟩ := ih hcalmas (hs.step hc hcalma hu) hrest
    exact ⟨order ++ order', hstep.trans hrun⟩

end Serial

/-! ### One critical section -/

theorem exec_acts (c : Core L E D I X) (es : List E) (hcode : s.running.code = es.map .act ++ code) :
    exec c.step s (List.replicate es.length .run) = some { s with
      device := es.foldl c.perform s.device
      running := ⟨code, s.running.saved⟩ } := by
  induction es generalizing s with
  | nil =>
    obtain ⟨flag, held, device, ⟨code', saved⟩, below⟩ := s
    obtain rfl : code' = code := hcode
    rfl
  | cons e es ih =>
    have hstep : c.step s .run = some { s with
        device := c.perform s.device e
        running := ⟨es.map .act ++ code, s.running.saved⟩ } := by
      rw [Core.step, hcode]
      rfl
    exact exec_cons_eq_some.mpr ⟨_, hstep, ih rfl⟩

theorem exec_touches (c : Core L E D I X) (n : ℕ)
    (hcode : s.running.code = List.replicate n .touch ++ code) :
    exec c.step s (List.replicate n .run)
      = some { s with running := ⟨code, s.running.saved⟩ } := by
  induction n generalizing s with
  | zero =>
    obtain ⟨flag, held, device, ⟨code', saved⟩, below⟩ := s
    obtain rfl : code' = code := hcode
    rfl
  | succ n ih =>
    have hstep : c.step s .run = some { s with
        running := ⟨List.replicate n .touch ++ code, s.running.saved⟩ } := by
      rw [Core.step, hcode]
      rfl
    exact exec_cons_eq_some.mpr ⟨_, hstep, ih rfl⟩

/-- With its lock free a masked critical section runs to its end, from every
state, and leaves flag and locks as they were. -/
theorem exec_masked (c : Core L E D I X) {l : L} {es : List E}
    (hcode : s.running.code = masked (critical l es) ++ code) (hfree : s.held l = false) :
    exec c.step s (List.replicate (es.length + 5) .run) = some { s with
      device := es.foldl c.perform s.device
      running := ⟨code, s.running.saved⟩ } := by
  obtain ⟨flag, held, device, ⟨code', saved⟩, below⟩ := s
  obtain rfl : code' = masked (critical l es) ++ code := hcode
  have hfree : held l = false := hfree
  let inside : State L E D := ⟨flag && !flag, Function.update held l true, device,
    ⟨es.map .act ++ .release l :: .unmask :: code, flag :: saved⟩, below⟩
  have henter : exec c.step ⟨flag, held, device, ⟨masked (critical l es) ++ code, saved⟩, below⟩
      (List.replicate 3 .run) = some inside := by
    have hlock : ¬ held l = true := by
      rw [hfree]
      simp
    refine exec_cons_eq_some.mpr ⟨_, rfl, exec_cons_eq_some.mpr ⟨_, rfl, exec_cons_eq_some.mpr
      ⟨inside, (if_neg hlock).trans ?_, rfl⟩⟩⟩
    simp [inside]
  have hleave : exec c.step { inside with
        device := es.foldl c.perform device
        running := ⟨.release l :: .unmask :: code, flag :: saved⟩ } (List.replicate 2 .run)
      = some ⟨flag, held, es.foldl c.perform device, ⟨code, saved⟩, below⟩ := by
    refine exec_cons_eq_some.mpr ⟨_, rfl, exec_cons_eq_some.mpr ⟨_, rfl, ?_⟩⟩
    have hheld : Function.update (Function.update held l true) l false = held := by
      rw [Function.update_idem, ← hfree, Function.update_eq_self]
    simp [inside, hheld]
  rw [show es.length + 5 = 3 + (es.length + 2) by omega, List.replicate_add, List.replicate_add]
  exact exec_append_eq_some.mpr ⟨inside, henter,
    exec_append_eq_some.mpr ⟨_, exec_acts c es rfl, hleave⟩⟩

/-- Code that, after some accesses to memory, masks interrupts and takes the lock. -/
def Wants (l : L) (code : List (Op L E)) : Prop :=
  ∃ n code', code = List.replicate n .touch ++ .ask :: .mask :: .acquire l :: code'

/-- The running context has interrupts off, and is about to take a lock that
is taken. -/
def Doomed (l : L) (s : State L E D) : Prop :=
  s.flag = false ∧ s.held l = true ∧ (Wants l s.running.code ∨ ∃ code,
    s.running.code = .mask :: .acquire l :: code ∨ s.running.code = .acquire l :: code)

omit [DecidableEq L] in
theorem Doomed.sections_ne_nil {l : L} (hs : Doomed l s) : sections s.running.code ≠ [] := by
  rcases hs.2.2 with ⟨n, code, hcode⟩ | ⟨code, hcode | hcode⟩ <;> rw [hcode]
  · rw [sections_touches]
    exact List.cons_ne_nil _ _
  · exact List.cons_ne_nil _ _
  · exact List.cons_ne_nil _ _

theorem Doomed.step {l : L} (hc : ∀ x, Wants l (c.onFault x)) {a : Action I X}
    (hs : Doomed l s) (h : c.step s a = some t) : Doomed l t ∧ t.device = s.device := by
  obtain ⟨hflag, hheld, hcode⟩ := hs
  cases a with
  | fault x =>
    obtain rfl := Option.some.inj h
    exact ⟨⟨rfl, hheld, .inl (hc x)⟩, rfl⟩
  | interrupt i =>
    obtain ⟨hset, -⟩ := Core.interrupt_cases h
    rw [hflag] at hset
    cases hset
  | run =>
    rcases hcode with ⟨n, code, hcode⟩ | ⟨code, hcode | hcode⟩
    · cases n with
      | zero =>
        rw [Core.step, hcode] at h
        obtain rfl := Option.some.inj h
        exact ⟨⟨hflag, hheld, .inr ⟨code, .inl rfl⟩⟩, rfl⟩
      | succ n =>
        rw [Core.step, hcode] at h
        obtain rfl := Option.some.inj h
        exact ⟨⟨hflag, hheld, .inl ⟨n, code, rfl⟩⟩, rfl⟩
    · rw [Core.step, hcode] at h
      obtain rfl := Option.some.inj h
      refine ⟨⟨?_, hheld, .inr ⟨code, .inr rfl⟩⟩, rfl⟩
      show (s.flag && _) = false
      rw [hflag, Bool.false_and]
    · rw [Core.step, hcode] at h
      obtain rfl := Option.some.inj ((if_pos hheld).symm.trans h)
      exact ⟨⟨hflag, hheld, .inr ⟨code, .inr hcode⟩⟩, rfl⟩

/-- It will be so for ever, and nothing happens to the device. -/
theorem Doomed.exec {l : L} (hc : ∀ x, Wants l (c.onFault x)) {as : List (Action I X)}
    (hs : Doomed l s) (h : exec c.step s as = some t) : Doomed l t ∧ t.device = s.device := by
  refine exec_invariant (I := fun t => Doomed l t ∧ t.device = s.device) ?_ ⟨hs, rfl⟩ h
  rintro u a v ⟨hu, hdevice⟩ hstep
  obtain ⟨hv, hsame⟩ := hu.step hc hstep
  exact ⟨hv, hsame.trans hdevice⟩

end Preemption
