/-
Runs of labelled transition systems.

A system is a partial step function `step : σ → α → Option σ`: `step s a` is
the state after action `a`, or `none` when `a` cannot happen in `s`.  `exec`
runs a list of actions, so an interleaving is a list and "every reachable
state" is "every state `exec` returns".

* `exec_invariant` — what every step preserves, every run preserves;
* `exec_invariant_along` — the same when only the steps that meet a side
  condition preserve it, for the runs that meet it all along (`Along`);
* `exec_simulation_along` — if each such step of one system is a run of
  another, up to a map of states, then so is each such run;
* `exec_map_along` — and with the same actions, if each step is a step;
* `collect_bound` — what a step raises by no more than one event of its own, a
  run raises by no more than the number of its events;
* `RunsUntil.unique` — a machine that runs on its own until it stops, stops in
  one state;
* `RunsUntil.of_reaches` — and from every state on the way;
* `RunsUntil.split` — a run can be cut where it first meets what it ends in.
-/
import Mathlib

namespace Transition

variable {σ τ α β : Type*}

/-- Run a list of actions. -/
def exec (step : σ → α → Option σ) : σ → List α → Option σ
  | s, [] => some s
  | s, a :: as => (step s a).bind fun s' => exec step s' as

@[simp] theorem exec_nil (step : σ → α → Option σ) (s : σ) : exec step s [] = some s := rfl

theorem exec_cons_eq_some {step : σ → α → Option σ} {s s' : σ} {a : α} {as : List α} :
    exec step s (a :: as) = some s' ↔ ∃ t, step s a = some t ∧ exec step t as = some s' := by
  rw [exec, Option.bind_eq_some_iff]

theorem exec_append (step : σ → α → Option σ) (s : σ) (as bs : List α) :
    exec step s (as ++ bs) = (exec step s as).bind fun t => exec step t bs := by
  induction as generalizing s with
  | nil => rfl
  | cons a as ih =>
    rw [List.cons_append, exec, exec]
    cases step s a with
    | none => rfl
    | some t => exact ih t

/-- Every action of the run meets `P` in the state it is taken in. -/
def Along (step : σ → α → Option σ) (P : σ → α → Prop) : σ → List α → Prop
  | _, [] => True
  | s, a :: as => P s a ∧ match step s a with
    | some t => Along step P t as
    | none => True

instance Along.instDecidable (step : σ → α → Option σ) (P : σ → α → Prop)
    [∀ s a, Decidable (P s a)] : ∀ s as, Decidable (Along step P s as)
  | _, [] => .isTrue trivial
  | s, a :: as =>
    have : Decidable (match step s a with
        | some t => Along step P t as
        | none => True) :=
      match step s a with
      | some t => Along.instDecidable step P t as
      | none => .isTrue trivial
    inferInstanceAs (Decidable (_ ∧ _))

theorem Along.cons {step : σ → α → Option σ} {P : σ → α → Prop} {s t : σ} {a : α} {as : List α}
    (h : Along step P s (a :: as)) (hstep : step s a = some t) :
    P s a ∧ Along step P t as := by
  rw [Along, hstep] at h
  exact h

/-- The invariant rule for runs that meet a side condition. -/
theorem exec_invariant_along {step : σ → α → Option σ} {P : σ → α → Prop} {I : σ → Prop}
    (hstep : ∀ s a s', P s a → I s → step s a = some s' → I s')
    {s s' : σ} {as : List α} (hP : Along step P s as) (hI : I s)
    (h : exec step s as = some s') : I s' := by
  induction as generalizing s with
  | nil =>
    rw [exec_nil, Option.some_inj] at h
    exact h ▸ hI
  | cons a as ih =>
    obtain ⟨t, ht, hrest⟩ := exec_cons_eq_some.mp h
    obtain ⟨hPa, hPas⟩ := hP.cons ht
    exact ih hPas (hstep s a t hPa hI ht) hrest

theorem Along.of_forall {step : σ → α → Option σ} {P : σ → α → Prop} (h : ∀ s a, P s a)
    (s : σ) (as : List α) : Along step P s as := by
  induction as generalizing s with
  | nil => trivial
  | cons a as ih =>
    refine ⟨h s a, ?_⟩
    split
    · exact ih _
    · trivial

theorem Along.of_mem {step : σ → α → Option σ} {P : σ → α → Prop} {as : List α}
    (h : ∀ a ∈ as, ∀ s, P s a) (s : σ) : Along step P s as := by
  induction as generalizing s with
  | nil => trivial
  | cons a as ih =>
    refine ⟨h a List.mem_cons_self s, ?_⟩
    split
    · exact ih (fun b hb => h b (List.mem_cons_of_mem a hb)) _
    · trivial

/-- A run that is cut in two. -/
theorem Along.of_append {step : σ → α → Option σ} {P : σ → α → Prop} {s t : σ} {as bs : List α}
    (h : Along step P s (as ++ bs)) (ht : exec step s as = some t) :
    Along step P s as ∧ Along step P t bs := by
  induction as generalizing s with
  | nil =>
    rw [exec_nil, Option.some_inj] at ht
    exact ⟨trivial, ht ▸ h⟩
  | cons a as ih =>
    obtain ⟨u, hu, hrest⟩ := exec_cons_eq_some.mp ht
    obtain ⟨hPa, hPas⟩ := h.cons hu
    obtain ⟨hleft, hright⟩ := ih hPas hrest
    refine ⟨⟨hPa, ?_⟩, hright⟩
    rw [hu]
    exact hleft

/-- The invariant rule. -/
theorem exec_invariant {step : σ → α → Option σ} {I : σ → Prop}
    (hstep : ∀ s a s', I s → step s a = some s' → I s')
    {s s' : σ} {as : List α} (hI : I s) (h : exec step s as = some s') : I s' :=
  exec_invariant_along (P := fun _ _ => True) (fun s a s' _ => hstep s a s')
    (Along.of_forall (fun _ _ => trivial) s as) hI h

/-- A system whose every step is a run of another one, seen through `π`, only
makes runs of the other one, as long as it keeps to the side condition. -/
theorem exec_simulation_along {step : σ → α → Option σ} {step' : τ → β → Option τ}
    {P : σ → α → Prop} (π : σ → τ)
    (hstep : ∀ s a s', P s a → step s a = some s' → ∃ bs, exec step' (π s) bs = some (π s'))
    {s s' : σ} {as : List α} (hP : Along step P s as) (h : exec step s as = some s') :
    ∃ bs, exec step' (π s) bs = some (π s') := by
  induction as generalizing s with
  | nil =>
    rw [exec_nil, Option.some_inj] at h
    exact ⟨[], by rw [h, exec_nil]⟩
  | cons a as ih =>
    obtain ⟨t, ht, hrest⟩ := exec_cons_eq_some.mp h
    obtain ⟨hPa, hPas⟩ := hP.cons ht
    obtain ⟨bs, hbs⟩ := hstep s a t hPa ht
    obtain ⟨cs, hcs⟩ := ih hPas hrest
    exact ⟨bs ++ cs, by rw [exec_append, hbs, Option.bind_some, hcs]⟩

/-- A map of states that takes steps to steps takes runs to runs; the steps may
rely on an invariant. -/
theorem exec_map_along {step : σ → α → Option σ} {step' : τ → α → Option τ} {P : σ → α → Prop}
    {I : σ → Prop} (f : σ → τ)
    (hstep : ∀ s a s', P s a → I s → step s a = some s' → I s' ∧ step' (f s) a = some (f s'))
    {s s' : σ} {as : List α} (hP : Along step P s as) (hI : I s) (h : exec step s as = some s') :
    I s' ∧ exec step' (f s) as = some (f s') := by
  induction as generalizing s with
  | nil =>
    rw [exec_nil, Option.some_inj] at h
    subst h
    exact ⟨hI, rfl⟩
  | cons a as ih =>
    obtain ⟨t, ht, hrest⟩ := exec_cons_eq_some.mp h
    obtain ⟨hPa, hPas⟩ := hP.cons ht
    obtain ⟨hIt, hmap⟩ := hstep s a t hPa hI ht
    obtain ⟨hIs', hrun⟩ := ih hPas hIt hrest
    exact ⟨hIs', exec_cons_eq_some.mpr ⟨f t, hmap, hrun⟩⟩

theorem exec_append_eq_some {step : σ → α → Option σ} {s u : σ} {as bs : List α} :
    exec step s (as ++ bs) = some u ↔ ∃ t, exec step s as = some t ∧ exec step t bs = some u := by
  rw [exec_append, Option.bind_eq_some_iff]

/-! ### What happens along a run -/

/-- What holds where a step is possible, and at the end, holds at the start. -/
theorem exec_backward {step : σ → α → Option σ} {P : σ → Prop}
    (hP : ∀ s a s', step s a = some s' → P s) {s s' : σ} {as : List α}
    (h : exec step s as = some s') (hs' : P s') : P s := by
  cases as with
  | nil =>
    rw [exec_nil, Option.some_inj] at h
    exact h ▸ hs'
  | cons a as =>
    obtain ⟨t, ht, -⟩ := exec_cons_eq_some.mp h
    exact hP s a t ht

/-- What `f` tells of the steps of a run, in order. -/
def collect (step : σ → α → Option σ) (f : σ → α → Option β) : σ → List α → List β
  | _, [] => []
  | s, a :: as => (f s a).toList ++ match step s a with
    | some t => collect step f t as
    | none => []

theorem collect_cons {step : σ → α → Option σ} (f : σ → α → Option β) {s t : σ} {a : α}
    (as : List α) (h : step s a = some t) :
    collect step f s (a :: as) = (f s a).toList ++ collect step f t as := by
  rw [collect, h]

/-- If a step raises `φ` by no more than what `f` tells of it, then so does a
run; the steps may rely on an invariant. -/
theorem collect_bound {step : σ → α → Option σ} {f : σ → α → Option β} {I : σ → Prop} (φ : σ → ℕ)
    (hstep : ∀ s a s', I s → step s a = some s' → I s' ∧ φ s' ≤ φ s + (f s a).toList.length)
    {s s' : σ} {as : List α} (hI : I s) (h : exec step s as = some s') :
    I s' ∧ φ s' ≤ φ s + (collect step f s as).length := by
  induction as generalizing s with
  | nil =>
    rw [exec_nil, Option.some_inj] at h
    subst h
    exact ⟨hI, Nat.le_add_right _ _⟩
  | cons a as ih =>
    obtain ⟨t, ht, hrest⟩ := exec_cons_eq_some.mp h
    obtain ⟨hIt, hle⟩ := hstep s a t hI ht
    obtain ⟨hIs', hle'⟩ := ih hIt hrest
    refine ⟨hIs', ?_⟩
    rw [collect_cons _ _ ht, List.length_append]
    omega

/-! ### Machines that run on their own -/

/-- From `s` the machine runs on until it first meets `stop`, in `u`. -/
inductive RunsUntil (next : σ → Option σ) (stop : σ → Prop) : σ → σ → Prop
  | here {s} : stop s → RunsUntil next stop s s
  | step {s t u} : ¬ stop s → next s = some t → RunsUntil next stop t u →
      RunsUntil next stop s u

theorem RunsUntil.unique {next : σ → Option σ} {stop : σ → Prop} {s u v : σ}
    (hu : RunsUntil next stop s u) (hv : RunsUntil next stop s v) : u = v := by
  induction hu with
  | here hs =>
    cases hv with
    | here => rfl
    | step hns => exact absurd hs hns
  | step hns ht _ ih =>
    cases hv with
    | here hs => exact absurd hs hns
    | step _ ht' hrest =>
      rw [ht, Option.some_inj] at ht'
      exact ih (ht' ▸ hrest)

/-- A machine that has not stopped yet has taken a step. -/
theorem RunsUntil.exists_next {next : σ → Option σ} {stop : σ → Prop} {s u : σ}
    (h : RunsUntil next stop s u) (hs : ¬ stop s) : ∃ t, next s = some t := by
  cases h with
  | here hstop => exact absurd hstop hs
  | step _ ht _ => exact ⟨_, ht⟩

theorem RunsUntil.stops {next : σ → Option σ} {stop : σ → Prop} {s u : σ}
    (h : RunsUntil next stop s u) : stop u := by
  induction h with
  | here hs => exact hs
  | step _ _ _ ih => exact ih

/-- A run that ends where `mid` holds can be cut where it first does. -/
theorem RunsUntil.split {next : σ → Option σ} {stop : σ → Prop} {s u : σ}
    (h : RunsUntil next stop s u) (mid : σ → Prop) (hu : mid u) :
    ∃ t, RunsUntil next mid s t ∧ RunsUntil next stop t u := by
  induction h with
  | here hs => exact ⟨_, .here hu, .here hs⟩
  | @step s t u hns ht hrest ih =>
    by_cases hmid : mid s
    · exact ⟨s, .here hmid, .step hns ht hrest⟩
    · obtain ⟨m, hm, hrest⟩ := ih hu
      exact ⟨m, .step hmid ht hm, hrest⟩

/-- On the way to the stop the machine is always going to stop there. -/
theorem RunsUntil.of_reaches {next : σ → Option σ} {stop : σ → Prop} {s t u : σ}
    (h : RunsUntil next stop s u) (hstop : ∀ s, stop s → next s = none)
    (hreach : Relation.ReflTransGen (fun a b => next a = some b) s t) :
    RunsUntil next stop t u := by
  induction hreach with
  | refl => exact h
  | tail _ hnext ih =>
    cases ih with
    | here hs =>
      rw [hstop _ hs] at hnext
      cases hnext
    | step _ ht hrest =>
      rw [ht, Option.some_inj] at hnext
      exact hnext ▸ hrest

end Transition
