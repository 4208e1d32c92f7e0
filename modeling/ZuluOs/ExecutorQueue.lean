/-
How full the executor's queue gets.

`task_queue` has room for `MAX_TASKS` ids, one for each live task.  But ids are
pushed once per wake: a waker that is called twice before its task is popped,
or called after its task has completed, takes a place that no live task
accounts for, and so does a task that completes while its id is queued.

* `queue_overflows` — a single task that wakes itself 129 times in one poll
  finds the queue full;
* `queue_never_full` — in a run without such wakes and completions the ids in
  the queue are distinct and live, and 128 places are enough.
-/
import ZuluOs.Executor

open Transition

namespace Executor

namespace Machine

/-- The id that an action pushes. -/
def pushes (s : Machine) : Action → Option TaskId
  | .advance =>
    match s.pc with
    | .spawning id => some id
    | _ => none
  | .wake w => some w.id
  | _ => none

/-- The task that an action removes. -/
def removes (s : Machine) : Action → Option TaskId
  | .advance =>
    match s.pc with
    | .ready _ id => some id
    | _ => none
  | _ => none

/-- Only ids of live tasks are pushed, and only while they are not queued, and
no task is removed while its id is queued. -/
def QueuesOnce (s : Machine) (a : Action) : Prop :=
  (∀ id ∈ s.pushes a, id ∈ s.tasks ∧ id ∉ s.taskQueue.elems) ∧
  ∀ id ∈ s.removes a, id ∉ s.taskQueue.elems

instance (s : Machine) (a : Action) : Decidable (s.QueuesOnce a) :=
  inferInstanceAs (Decidable (_ ∧ _))

/-- The ids in the queue are distinct and live, and it has not overflowed. -/
structure QueueFits (s : Machine) : Prop where
  nodup : s.taskQueue.elems.Nodup
  live : ∀ id ∈ s.taskQueue.elems, id ∈ s.tasks
  notFull : s.pc ≠ .panicked .queueFull

/-- One more id of a live task finds room. -/
theorem QueueFits.room {s : Machine} (hI : QueueFits s) (hcard : s.tasks.card ≤ MAX_TASKS)
    {id : TaskId} (hid : id ∈ s.tasks) (hnew : id ∉ s.taskQueue.elems) :
    s.taskQueue.push id ≠ none := by
  rw [ne_eq, ArrayQueue.push_eq_none]
  have hnodup : (id :: s.taskQueue.elems).Nodup := List.nodup_cons.mpr ⟨hnew, hI.nodup⟩
  have hsub : (id :: s.taskQueue.elems).toFinset ⊆ s.tasks := by
    intro x hx
    rw [List.mem_toFinset, List.mem_cons] at hx
    rcases hx with rfl | hx
    · exact hid
    · exact hI.live x hx
  have hle := Finset.card_le_card hsub
  rw [List.toFinset_card_of_nodup hnodup, List.length_cons] at hle
  omega

theorem QueueFits.push {s s' : Machine} (hI : QueueFits s) {id : TaskId} (hid : id ∈ s.tasks)
    (hnew : id ∉ s.taskQueue.elems) (hqueue : s.taskQueue.push id = some s'.taskQueue)
    (htasks : s'.tasks = s.tasks) (hpc : s'.pc ≠ .panicked .queueFull) : QueueFits s' := by
  obtain ⟨-, hq⟩ := ArrayQueue.push_eq_some.mp hqueue
  refine ⟨?_, fun x hx => ?_, hpc⟩
  · rw [hq, List.nodup_append]
    refine ⟨hI.nodup, List.nodup_singleton id, fun x hx y hy hxy => hnew ?_⟩
    rw [List.mem_singleton] at hy
    rwa [← hy, ← hxy]
  · rw [hq, List.mem_append, List.mem_singleton] at hx
    rw [htasks]
    rcases hx with hx | rfl
    · exact hI.live x hx
    · exact hid

/-- Where the queue stays and no task goes, the queue still fits. -/
theorem QueueFits.of_queue {s s' : Machine} (hI : QueueFits s)
    (hqueue : s'.taskQueue = s.taskQueue) (htasks : s.tasks ⊆ s'.tasks)
    (hpc : s'.pc ≠ .panicked .queueFull) : QueueFits s' :=
  ⟨hqueue ▸ hI.nodup, fun id hid => htasks (hI.live id (hqueue ▸ hid)), hpc⟩

/-- **A step that queues once keeps the queue in bounds.** -/
theorem QueueFits.step {s s' : Machine} {a : Action} (hI : QueueFits s)
    (hcard : s.tasks.card ≤ MAX_TASKS) (honce : s.QueuesOnce a) (h : Step s a s') :
    QueueFits s' := by
  cases h
  case newTask => exact hI.of_queue rfl subset_rfl hI.notFull
  case spawn => exact hI.of_queue rfl (Finset.subset_insert _ _) (by simp)
  case spawnTwice => exact hI.of_queue rfl (Finset.subset_insert _ _) (by simp)
  case pushed hpc hq =>
    obtain ⟨hid, hnew⟩ := honce.1 _ (by rw [pushes, hpc]; rfl)
    exact hI.push hid hnew hq rfl (by simp)
  case wake hq =>
    obtain ⟨hid, hnew⟩ := honce.1 _ rfl
    exact hI.push hid hnew hq rfl hI.notFull
  case pop hq =>
    rw [ArrayQueue.pop_eq_some] at hq
    have hnodup := hI.nodup
    have hlive := hI.live
    rw [hq] at hnodup hlive
    exact ⟨(List.nodup_cons.mp hnodup).2, fun x hx => hlive x (List.mem_cons_of_mem _ hx),
      by simp⟩
  case popNone r _ _ => cases r <;> exact hI.of_queue rfl subset_rfl (by simp)
  case startPoll => exact hI.of_queue rfl subset_rfl (by simp [Machine.startPoll])
  case remove hpc =>
    -- the task that goes is not queued, so the queued ones stay live
    have hnew := honce.2 _ (by rw [removes, hpc]; rfl)
    refine ⟨hI.nodup, fun x hx => Finset.mem_erase.mpr ⟨?_, hI.live x hx⟩, by simp [removeTask]⟩
    rintro rfl
    exact hnew hx
  case queueFull id _ hq ha _ _ =>
    have hpush : s.pushes a = some id := by
      rcases ha with ⟨rfl, hpc⟩ | ⟨w, -, rfl, rfl⟩
      · rw [pushes, hpc]
      · rfl
    obtain ⟨hid, hnew⟩ := honce.1 id hpush
    exact absurd hq (hI.room hcard hid hnew)
  -- the other steps touch neither the queue nor the tasks
  all_goals exact hI.of_queue rfl subset_rfl (by simp)

end Machine

/-- **The queue never overflows** in a run with at most `MAX_TASKS` live tasks
in which each push is of a live task's id that is not queued, and no task is
removed while its id is queued. -/
theorem queue_never_full (acts : List Action) (s : Machine)
    (hrun : exec Machine.step .init acts = some s)
    (honce : Along Machine.step (fun s a => s.tasks.card ≤ MAX_TASKS ∧ s.QueuesOnce a)
      .init acts) :
    s.pc ≠ .panicked .queueFull := by
  have hinit : Machine.init.QueueFits := ⟨List.nodup_nil, nofun, by decide⟩
  exact (exec_invariant_along (fun _ _ _ hP (hI : Machine.QueueFits _) hstep =>
    hI.step hP.1 hP.2 (.of_step hstep)) honce hinit hrun).notFull

/-- One task, polled once, that wakes itself 129 times. -/
def overflowRun : List Action :=
  [.newTask, .spawn 0, .advance, .call true, .advance, .advance] ++
    List.replicate 129 (.wake ⟨0⟩)

/-- The queue overflows with a single live task. -/
theorem queue_overflows :
    Along Machine.step (fun s _ => s.tasks.card ≤ 1) .init overflowRun ∧
    ∃ s, exec Machine.step .init overflowRun = some s ∧ s.pc = .panicked .queueFull := by
  refine ⟨by decide +kernel, ?_⟩
  have h : (exec Machine.step .init overflowRun).map (·.pc) = some (.panicked .queueFull) := by
    decide +kernel
  exact Option.map_eq_some_iff.mp h

theorem queue_never_full_selfWake :
    Along Machine.step (fun s a => s.tasks.card ≤ MAX_TASKS ∧ s.QueuesOnce a) .init selfWakeRun ∧
    ∃ s, exec Machine.step .init selfWakeRun = some s ∧ s.pc ≠ .panicked .queueFull :=
  ⟨by decide, _, rfl, queue_never_full selfWakeRun _ rfl (by decide)⟩

end Executor
