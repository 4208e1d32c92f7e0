/-
Queues served in turn.

Clients stand in a queue, each with the number of times it is going to come
back.  The first one is served; if it comes back, it goes to the end of the
queue with one time less, and else it is done.

* `exists_serves` — the queue runs empty;
* `Serves.turns_eq` — each client is served once more than it comes back, and
  is done the last time;
* `Serves.finished_perm` — every client is done once;
* `Serves.finished_pairwise` — clients that come back less often are done
  earlier, and among those that come back equally often the earlier in the
  queue.
-/
import Mathlib

namespace RoundRobin

variable {α κ : Type*}

/-- The log of serving a queue until it is empty: who was served, and whether
it was then done. -/
inductive Serves : List (α × ℕ) → List (α × Bool) → Prop
  | nil : Serves [] []
  | done {x : α} {queue : List (α × ℕ)} {log : List (α × Bool)} :
    Serves queue log → Serves ((x, 0) :: queue) ((x, true) :: log)
  | again {x : α} {k : ℕ} {queue : List (α × ℕ)} {log : List (α × Bool)} :
    Serves (queue ++ [(x, k)]) log → Serves ((x, k + 1) :: queue) ((x, false) :: log)

/-- The turns that are still to come. -/
def work (queue : List (α × ℕ)) : ℕ := (queue.map fun c => c.2 + 1).sum

/-- The queue runs empty: every turn is one less to come. -/
theorem exists_serves (queue : List (α × ℕ)) : ∃ log, Serves queue log := by
  induction hwork : work queue using Nat.strong_induction_on generalizing queue with
  | _ n ih =>
    subst hwork
    match queue with
    | [] => exact ⟨[], .nil⟩
    | (x, 0) :: rest =>
      obtain ⟨log, hlog⟩ := ih (work rest) (by simp [work]) rest rfl
      exact ⟨_, .done hlog⟩
    | (x, k + 1) :: rest =>
      obtain ⟨log, hlog⟩ := ih (work (rest ++ [(x, k)])) (by simp [work]; omega) _ rfl
      exact ⟨_, .again hlog⟩

/-- The clients that are done, in the order in which they are. -/
def finished (log : List (α × Bool)) : List α := (log.filter (·.2)).map (·.1)

namespace Serves

variable {queue : List (α × ℕ)} {log : List (α × Bool)}

theorem finished_perm (h : Serves queue log) : (finished log).Perm (queue.map (·.1)) := by
  induction h with
  | nil => exact .nil
  | done _ ih => exact ih.cons _
  | again _ ih =>
    rw [List.map_append, List.map_cons, List.map_nil] at ih
    exact ih.trans (List.perm_append_singleton _ _)

/-- Only who is in the queue is served. -/
theorem mem_queue (h : Serves queue log) {x : α} {b : Bool} (hx : (x, b) ∈ log) :
    x ∈ queue.map (·.1) := by
  induction h with
  | nil => exact absurd hx List.not_mem_nil
  | done _ ih =>
    rcases List.mem_cons.mp hx with heq | hx
    · rw [Prod.mk.injEq] at heq
      exact heq.1 ▸ List.mem_cons_self
    · exact List.mem_cons_of_mem _ (ih hx)
  | again _ ih =>
    rcases List.mem_cons.mp hx with heq | hx
    · rw [Prod.mk.injEq] at heq
      exact heq.1 ▸ List.mem_cons_self
    · have hmem := ih hx
      rw [List.map_append, List.mem_append, List.map_cons, List.map_nil, List.mem_singleton] at hmem
      exact List.mem_cons.mpr hmem.symm

theorem key_ne {key : α → κ} {x y : α} {k l : ℕ}
    (hkeys : (((y, l) :: queue).map fun c => key c.1).Nodup) (hx : (x, k) ∈ queue) :
    key y ≠ key x := by
  intro heq
  exact (List.nodup_cons.mp hkeys).1 (List.mem_map.mpr ⟨(x, k), hx, heq.symm⟩)

/-- The turns of one client, which a key tells from all others. -/
theorem turns_eq [DecidableEq κ] (key : α → κ) (h : Serves queue log)
    (hkeys : (queue.map fun c => key c.1).Nodup) {x : α} {k : ℕ} (hx : (x, k) ∈ queue) :
    (log.filter fun e => key e.1 = key x).map (·.2) = List.replicate k false ++ [true] := by
  induction h generalizing k with
  | nil => exact absurd hx List.not_mem_nil
  | @done y queue log hlog ih =>
    obtain ⟨hy, hrest⟩ := List.nodup_cons.mp hkeys
    rcases List.mem_cons.mp hx with heq | hx
    · -- its own last turn: it does not occur any more
      obtain ⟨rfl, rfl⟩ := Prod.mk.inj heq
      have hnone : log.filter (fun e => key e.1 = key x) = [] := by
        refine List.filter_eq_nil_iff.mpr ?_
        intro e he hkey
        obtain ⟨c, hc, hce⟩ := List.mem_map.mp (hlog.mem_queue he)
        refine hy (List.mem_map.mpr ⟨c, hc, ?_⟩)
        rw [hce]
        exact of_decide_eq_true hkey
      rw [List.filter_cons_of_pos (by simp), hnone]
      rfl
    · rw [List.filter_cons_of_neg (by simpa using key_ne hkeys hx), ih hrest hx]
  | @again y l queue log hlog ih =>
    have hperm : ((queue ++ [(y, l)]).map fun c => key c.1).Perm
        (((y, l + 1) :: queue).map fun c => key c.1) := by
      rw [List.map_append, List.map_cons, List.map_nil, List.map_cons]
      exact List.perm_append_singleton _ _
    have ih := fun {k} => ih (k := k) (hperm.nodup_iff.mpr hkeys)
    rcases List.mem_cons.mp hx with heq | hx
    · obtain ⟨rfl, rfl⟩ := Prod.mk.inj heq
      rw [List.filter_cons_of_pos (by simp), List.map_cons,
        ih (List.mem_append_right _ List.mem_cons_self), List.replicate_succ, List.cons_append]
    · rw [List.filter_cons_of_neg (by simpa using key_ne hkeys hx),
        ih (List.mem_append_left _ hx)]

/-- The order in which the queue will be done: of two clients the one that
comes back less often, and the earlier one if they come back equally often. -/
def Predicts (R : α → α → Prop) (queue : List (α × ℕ)) : Prop :=
  queue.Pairwise fun c d => if c.2 ≤ d.2 then R c.1 d.1 else R d.1 c.1

/-- **Order of completion.** -/
theorem finished_pairwise {R : α → α → Prop} (h : Serves queue log) (hR : Predicts R queue) :
    (finished log).Pairwise R := by
  induction h with
  | nil => exact .nil
  | done hlog ih =>
    obtain ⟨hfirst, hrest⟩ := List.pairwise_cons.mp hR
    refine List.pairwise_cons.mpr ⟨?_, ih hrest⟩
    intro y hy
    obtain ⟨c, hc, rfl⟩ := List.mem_map.mp (hlog.finished_perm.mem_iff.mp hy)
    exact (if_pos (Nat.zero_le _)).mp (hfirst c hc)
  | @again x k queue log _ ih =>
    obtain ⟨hfirst, hrest⟩ := List.pairwise_cons.mp hR
    refine ih (List.pairwise_append.mpr ⟨hrest, List.pairwise_singleton _ _, ?_⟩)
    -- from the front with `k + 1` to come, or from the end with `k`: the same order
    intro c hc d hd
    obtain rfl := List.mem_singleton.mp hd
    have horder := hfirst c hc
    dsimp only at horder ⊢
    by_cases hle : c.2 ≤ k
    · rw [if_pos hle]
      rwa [if_neg (by omega)] at horder
    · rw [if_neg hle]
      rwa [if_pos (by omega)] at horder

end Serves

end RoundRobin
