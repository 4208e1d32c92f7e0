/-
How long a task waits for its turn.

`task_queue` is a FIFO queue: ids are taken from it in the order in which they
were pushed.  A task that is due has a rank: four steps for
each id before its own, and the steps up to the next `pop`.  Each step of the
executor's own thread in `run` lowers the rank, and nothing that other code
does in between raises it.

* `Awaits.own`, `Awaits.other` — a step of the thread lowers the rank, any other
  step keeps it;
* `polled_in_time` — in `run`, a due task is polled within `4 * MAX_TASKS + 1`
  steps of the thread.
-/
import ZuluOs.ExecutorQueue

open Transition

namespace Executor

/-- The thread is in `run`. -/
def Pc.inRun : Pc → Bool
  | loopHead inRun => inRun
  | popped inRun _ => inRun
  | polling inRun _ _ => inRun
  | ready inRun _ => inRun
  | idle => true
  | checking => true
  | haltNext => true
  | enableNext => true
  | halted => true
  | _ => false

/-- How many steps of the thread there are at most up to the next `pop`, that
one included, while the queue is not empty. -/
def Pc.untilPop : Pc → ℕ
  | loopHead _ => 1
  | ready _ _ => 2
  | enableNext => 2
  | polling _ _ _ => 3
  | checking => 3
  | popped _ _ => 4
  | idle => 4
  | _ => 0

/-- The step is one of the executor's thread: its own code, or a poll that
returns. -/
def Action.own : Action → Bool
  | advance => true
  | finishPoll _ => true
  | _ => false

namespace Machine

/-- The task whose poll an action starts. -/
def polls (s : Machine) : Action → Option TaskId
  | .advance =>
    match s.pc with
    | .popped _ id => if id ∈ s.tasks then some id else none
    | _ => none
  | _ => none

/-! ### Waiting -/

/-- The task is live, and has its turn or is at most `n` steps of the thread
away from being popped. -/
structure Awaits (s : Machine) (id : TaskId) (n : ℕ) : Prop where
  live : id ∈ s.tasks
  inRun : s.pc.inRun = true
  turn : s.pc = .popped true id ∨
    0 < s.pc.untilPop ∧ ∃ i, s.taskQueue.elems[i]? = some id ∧ 4 * i + s.pc.untilPop ≤ n

variable {s s' : Machine} {a : Action} {id : TaskId} {n : ℕ}

/-- The thread gets closer to the next `pop`. -/
theorem Awaits.closer (h : s.Awaits id n) {pc pc' : Pc} (hpc : s.pc = pc) (hpc' : s'.pc = pc')
    (hturn : pc ≠ .popped true id) (hlive : id ∈ s'.tasks)
    (hqueue : s'.taskQueue = s.taskQueue) (hrun : pc'.inRun = pc.inRun)
    (hdist : 0 < pc'.untilPop ∧ pc'.untilPop < pc.untilPop) :
    ∃ k, n = k + 1 ∧ s'.Awaits id k := by
  subst hpc hpc'
  obtain ⟨-, i, hi, hle⟩ := h.turn.resolve_left hturn
  exact ⟨n - 1, by omega, hlive, hrun.trans h.inRun, .inr ⟨hdist.1, i, hqueue ▸ hi, by omega⟩⟩

/-- The ids before that of the task get fewer. -/
theorem Awaits.pop (h : s.Awaits id n) {inRun : Bool} {id' : TaskId}
    {q : ArrayQueue TaskId MAX_TASKS} (hpc : s.pc = .loopHead inRun)
    (hq : s.taskQueue.pop = some (id', q)) :
    ∃ k, n = k + 1 ∧ Awaits { s with taskQueue := q, pc := .popped inRun id' } id k := by
  obtain ⟨-, i, hi, hle⟩ := h.turn.resolve_left (by simp [hpc])
  have hrun := h.inRun
  rw [hpc] at hrun hle
  change inRun = true at hrun
  change 4 * i + 1 ≤ n at hle
  subst hrun
  rw [ArrayQueue.pop_eq_some.mp hq] at hi
  cases i with
  | zero =>
    obtain rfl := Option.some.inj hi
    exact ⟨n - 1, by omega, h.live, rfl, .inl rfl⟩
  | succ i => exact ⟨n - 1, by omega, h.live, rfl, .inr ⟨Nat.succ_pos 3, i, hi, by
      show 4 * i + 4 ≤ n - 1
      omega⟩⟩

/-- **A step of the thread** polls the task, or gets closer to it, unless it
removes the task. -/
theorem Awaits.own (h : s.Awaits id n) (hstep : Step s a s') (hown : a.own = true)
    (hfull : s'.pc ≠ .panicked .queueFull) :
    s.polls a = some id ∨ s.removes a = some id ∨ ∃ k, n = k + 1 ∧ s'.Awaits id k := by
  have hrun := h.inRun
  cases hstep with
  | newTask | spawn | spawnTwice | call | wake | interrupt => cases hown
  | queueFull _ _ _ _ hpc => exact absurd hpc hfull
  | pushed hpc hq =>
    rw [hpc] at hrun
    cases hrun
  | pop hpc hq => exact .inr (.inr (h.pop hpc hq))
  | popNone hpc hq =>
    obtain ⟨-, i, hi, -⟩ := h.turn.resolve_left (by simp [hpc])
    rw [ArrayQueue.pop_eq_none.mp hq] at hi
    cases hi
  | @startPoll inRun id' hpc hid =>
    by_cases hturn : s.pc = .popped true id
    · left
      rw [polls, hturn]
      exact if_pos h.live
    · exact .inr (.inr (h.closer hpc rfl (hpc ▸ hturn) h.live rfl rfl
        (by simp [Pc.untilPop, Machine.startPoll])))
  | alreadyStopped hpc hid =>
    refine .inr (.inr (h.closer hpc rfl ?_ h.live rfl rfl (by simp [Pc.untilPop])))
    rintro ⟨rfl, rfl⟩
    exact hid h.live
  | finishReady hpc | finishPending hpc | disable hpc | isNotEmpty hpc hq | enable hpc =>
    exact .inr (.inr (h.closer hpc rfl (by simp) h.live rfl rfl (by simp [Pc.untilPop])))
  | @remove inRun id' hpc =>
    by_cases hid : id = id'
    · exact .inr (.inl (by rw [removes, hpc, hid]))
    · exact .inr (.inr (h.closer hpc rfl (by simp) (Finset.mem_erase.mpr ⟨hid, h.live⟩) rfl rfl
        (by simp [Pc.untilPop, removeTask])))
  | isEmpty hpc hq =>
    obtain ⟨-, i, hi, -⟩ := h.turn.resolve_left (by simp [hpc])
    rw [hq] at hi
    cases hi
  | enableAndHlt hpc =>
    obtain ⟨hpos, -⟩ := h.turn.resolve_left (by simp [hpc])
    rw [hpc] at hpos
    cases hpos

/-- **Any other step** leaves the task where it is. -/
theorem Awaits.other (h : s.Awaits id n) (hstep : Step s a s') (hown : a.own = false)
    (hfull : s'.pc ≠ .panicked .queueFull) : s'.Awaits id n := by
  obtain ⟨hlive, hrun, hturn⟩ := h
  cases hstep with
  | newTask => exact ⟨hlive, hrun, hturn⟩
  | wake hw hint hpc hq =>
    -- the id of the waker is pushed behind the others
    refine ⟨hlive, hrun, hturn.imp_right ?_⟩
    rintro ⟨hpos, i, hi, hle⟩
    refine ⟨hpos, i, ?_, hle⟩
    rw [(ArrayQueue.push_eq_some.mp hq).2,
      List.getElem?_append_left (List.getElem?_eq_some_iff.mp hi).1]
    exact hi
  | queueFull _ _ _ _ hpc => exact absurd hpc hfull
  | spawn hpc | spawnTwice hpc | call hpc =>
    rw [hpc] at hrun
    cases hrun
  | interrupt hpc => simp [hpc, Pc.untilPop] at hturn
  | pushed | pop | popNone | startPoll | alreadyStopped | finishReady | finishPending | remove
    | disable | isEmpty | isNotEmpty | enableAndHlt | enable => cases hown

theorem not_full_of_exec {acts : List Action} (hrun : exec Machine.step s acts = some s')
    (hfull : s'.pc ≠ .panicked .queueFull) : s.pc ≠ .panicked .queueFull :=
  exec_backward (P := fun s => s.pc ≠ .panicked .queueFull)
    (fun _ _ _ h => (Step.of_step h).not_panicked _) hrun hfull

/-- Over a run, the task is reached before the thread has made more steps. -/
theorem Awaits.run {acts : List Action} (h : s.Awaits id n)
    (hrun : exec Machine.step s acts = some s') (hfull : s'.pc ≠ .panicked .queueFull)
    (hsteps : n < (acts.filter Action.own).length) :
    id ∈ collect Machine.step polls s acts ∨ id ∈ collect Machine.step removes s acts := by
  induction acts generalizing s n with
  | nil => exact absurd hsteps (Nat.not_lt_zero n)
  | cons a acts ih =>
    obtain ⟨t, ht, hrest⟩ := exec_cons_eq_some.mp hrun
    have hstep := Step.of_step ht
    have hfull' := not_full_of_exec hrest hfull
    rw [collect_cons _ _ ht, collect_cons _ _ ht, List.mem_append, List.mem_append]
    cases hown : a.own with
    | true =>
      rw [List.filter_cons_of_pos hown, List.length_cons] at hsteps
      rcases h.own hstep hown hfull' with hpoll | hremove | ⟨k, rfl, hk⟩
      · exact .inl (.inl (by simp [hpoll]))
      · exact .inr (.inl (by simp [hremove]))
      · exact (ih hk hrest (by omega)).imp .inr .inr
    | false =>
      rw [List.filter_cons_of_neg (by simp [hown])] at hsteps
      exact (ih (h.other hstep hown hfull') hrest hsteps).imp .inr .inr

theorem noLostWake_of_exec {acts : List Action} (hrun : exec Machine.step .init acts = some s)
    (hfull : s.pc ≠ .panicked .queueFull) : s.NoLostWake := by
  refine exec_invariant (I := fun s => s.pc ≠ .panicked .queueFull → s.NoLostWake)
    (fun s a s' hI hstep hfull => ?_) (fun _ => init_noLostWake) hrun hfull
  have hstep := Step.of_step hstep
  exact (hI (hstep.not_panicked _)).step hstep hfull

/-- A task that is due is in the queue or has its turn. -/
theorem NoLostWake.awaits (hI : s.NoLostWake) (hrun : s.pc.inRun = true)
    (hdue : s.Outstanding id) : s.Awaits id (4 * MAX_TASKS) := by
  refine ⟨hdue.1, hrun, ?_⟩
  rcases hI.queued id hdue with hqueued | hhand
  · obtain ⟨i, hi, hid⟩ := List.mem_iff_getElem.mp hqueued
    have hpos : 0 < s.pc.untilPop ∧ s.pc.untilPop ≤ 4 := by
      cases hpc : s.pc
      case haltNext =>
        rw [hI.drained (.inl hpc)] at hqueued
        cases hqueued
      case halted =>
        rw [hI.drained (.inr hpc)] at hqueued
        cases hqueued
      all_goals simp_all [Pc.inRun, Pc.untilPop]
    have hlt := hi.trans_le s.taskQueue.length_le
    exact .inr ⟨hpos.1, i, by rw [List.getElem?_eq_getElem hi, hid], by omega⟩
  · left
    cases hpc : s.pc <;> simp_all [Pc.inRun, Pc.inHand]

end Machine

/-- **No task starves.**  While `run` is running, a task that is due is polled
before its thread has made more than `4 * MAX_TASKS` steps, whatever is woken
in between, unless a poll that was under way completes it. -/
theorem polled_in_time (before after : List Action) (s s' : Machine) (id : TaskId)
    (hbefore : exec Machine.step .init before = some s) (hrun : s.pc.inRun = true)
    (hdue : s.Outstanding id) (hafter : exec Machine.step s after = some s')
    (hfull : s'.pc ≠ .panicked .queueFull)
    (hsteps : 4 * MAX_TASKS < (after.filter Action.own).length) :
    id ∈ collect Machine.step Machine.polls s after ∨
      id ∈ collect Machine.step Machine.removes s after := by
  have hI := Machine.noLostWake_of_exec hbefore (Machine.not_full_of_exec hafter hfull)
  exact (hI.awaits hrun hdue).run hafter hfull hsteps

/-- A task is spawned and `run` is called. -/
def callRun : List Action := [.newTask, .spawn 0, .advance, .call true]

/-- A task that wakes itself in each of its polls. -/
def busyRun : List Action :=
  (List.replicate 171 [Action.advance, .advance, .wake ⟨0⟩, .finishPoll false]).flatten

theorem polled_in_time_busy :
    ∃ s s', exec Machine.step .init callRun = some s ∧ exec Machine.step s busyRun = some s' ∧
      (0 ∈ collect Machine.step Machine.polls s busyRun ∨
        0 ∈ collect Machine.step Machine.removes s busyRun) := by
  obtain ⟨s', hrun, hpc⟩ : ∃ s', exec Machine.step .init (callRun ++ busyRun) = some s' ∧
      s'.pc = .loopHead true :=
    Option.map_eq_some_iff.mp (show _ = some (Pc.loopHead true) by decide +kernel)
  obtain ⟨s, hbefore, hafter⟩ := exec_append_eq_some.mp hrun
  have hdue : s.pc.inRun = true ∧ s.Outstanding 0 := by
    obtain rfl := Option.some.inj (hbefore.symm.trans rfl)
    exact ⟨rfl, by decide, .inl (by decide)⟩
  exact ⟨s, s', hbefore, hafter, polled_in_time callRun busyRun s s' 0 hbefore hdue.1 hdue.2 hafter
    (by rw [hpc]; decide) (by decide +kernel)⟩

end Executor
