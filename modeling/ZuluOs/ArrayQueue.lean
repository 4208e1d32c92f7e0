/-
Bounded FIFO queues, as `crossbeam_queue::ArrayQueue` behaves.

The capacity is part of the type and the contents never exceed it, so a queue
that is too long cannot be built.

* `push_eq_some`, `push_eq_none` — a push appends, or finds the queue full;
* `pop_eq_some`, `pop_eq_none` — a pop takes the oldest element, or finds none.
-/
import Mathlib

/-- A queue of at most `cap` elements, the oldest one first. -/
@[ext] structure ArrayQueue (α : Type) (cap : ℕ) where
  elems : List α
  length_le : elems.length ≤ cap
deriving DecidableEq

namespace ArrayQueue

variable {α : Type} {cap : ℕ}

/-- `ArrayQueue::new` -/
def empty : ArrayQueue α cap := ⟨[], Nat.zero_le _⟩

/-- `push`, `none` where the queue is full. -/
def push (q : ArrayQueue α cap) (x : α) : Option (ArrayQueue α cap) :=
  if h : q.elems.length < cap then some ⟨q.elems ++ [x], by simpa using h⟩ else none

/-- `pop`, `none` where the queue is empty. -/
def pop (q : ArrayQueue α cap) : Option (α × ArrayQueue α cap) :=
  match q with
  | ⟨[], _⟩ => none
  | ⟨x :: xs, h⟩ => some (x, ⟨xs, (Nat.le_succ _).trans h⟩)

theorem push_eq_some {q q' : ArrayQueue α cap} {x : α} :
    q.push x = some q' ↔ q.elems.length < cap ∧ q'.elems = q.elems ++ [x] := by
  unfold push
  by_cases h : q.elems.length < cap
  · rw [dif_pos h, Option.some.injEq]
    exact ⟨fun hq => ⟨h, hq ▸ rfl⟩, fun hq => ArrayQueue.ext hq.2.symm⟩
  · rw [dif_neg h]
    exact ⟨nofun, fun hq => absurd hq.1 h⟩

theorem push_eq_none {q : ArrayQueue α cap} {x : α} :
    q.push x = none ↔ q.elems.length = cap := by
  have hle := q.length_le
  unfold push
  by_cases h : q.elems.length < cap
  · rw [dif_pos h]
    exact ⟨nofun, fun hq => absurd hq (by omega)⟩
  · rw [dif_neg h]
    exact ⟨fun _ => by omega, fun _ => rfl⟩

theorem pop_eq_some {q q' : ArrayQueue α cap} {x : α} :
    q.pop = some (x, q') ↔ q.elems = x :: q'.elems := by
  obtain ⟨xs, h⟩ := q
  cases xs with
  | nil => simp [pop]
  | cons y ys =>
    simp only [pop, Option.some.injEq, Prod.mk.injEq, List.cons.injEq]
    exact ⟨fun hq => ⟨hq.1, hq.2 ▸ rfl⟩, fun hq => ⟨hq.1, ArrayQueue.ext hq.2⟩⟩

theorem pop_eq_none {q : ArrayQueue α cap} : q.pop = none ↔ q.elems = [] := by
  obtain ⟨xs, h⟩ := q
  cases xs <;> simp [pop]

end ArrayQueue
