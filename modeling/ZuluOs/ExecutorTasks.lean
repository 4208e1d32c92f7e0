/-
The executor's books: `tasks` and `waker_cache` against what has happened.

`tasks` is to hold the tasks that were spawned and are not done, and
`waker_cache` wakers of such tasks, each under its own id.  The queue does not
matter for this: it may hold ids twice, and ids of tasks that are done.  What
does matter is that no id is given out twice, so the books are kept as long as
`TaskId::new` has not been called more than `2 ^ 64` times.

Between the `Ready` of a poll and the removal of its task the task is still in
`tasks` (`Pc.retiring`); at the head of the loop there is no such task.

* `Books` — the invariant;
* `Books.step` — every step keeps it, unless it finds the queue full;
* `tasks_eq` — so it holds in every run, and no task is polled once it is done.
-/
import ZuluOs.Executor

open Transition

namespace Executor

/-- The task whose poll has returned `Ready` and that is removed next. -/
def Pc.retiring : Pc → Option TaskId
  | ready _ id => some id
  | _ => none

namespace Machine

/-- What is always so, as long as ids are not used twice. -/
structure Books (s : Machine) : Prop where
  nodup : s.unspawned.Nodup
  unspawned_lt : ∀ id ∈ s.unspawned, id < s.nextId
  spawned_lt : ∀ id ∈ s.spawned, id < s.nextId
  fresh : ∀ id ∈ s.unspawned, id ∉ s.spawned
  finished : ∀ id ∈ s.finished, id ∈ s.spawned
  live : ∀ id, id ∈ s.tasks ↔ id ∈ s.spawned ∧ (id ∈ s.finished → s.pc.retiring = some id)
  retiring : ∀ id, s.pc.retiring = some id → id ∈ s.finished
  cached : ∀ id w, s.wakerCache id = some w → id ∈ s.tasks ∧ w.id = id
  polled : ∀ inRun id w, s.pc = .polling inRun id w → id ∈ s.tasks ∧ w.id = id

theorem init_books : Books init where
  nodup := List.nodup_nil
  unspawned_lt := by simp [init]
  spawned_lt := by simp [init]
  fresh := by simp [init]
  finished := by simp [init]
  live := by simp [init, Executor.new]
  retiring := by simp [init, Pc.retiring]
  cached := by simp [init, Executor.new]
  polled := by simp [init]

namespace Books

variable {s s' : Machine} {inRun : Bool} {id : TaskId}

/-- A step that only moves the thread, away from any poll, or only touches the
queue. -/
theorem of_same (hI : Books s) (hnext : s'.nextId = s.nextId) (hnew : s'.unspawned = s.unspawned)
    (hspawned : s'.spawned = s.spawned) (hfinished : s'.finished = s.finished)
    (htasks : s'.tasks = s.tasks) (hcache : s'.wakerCache = s.wakerCache)
    (hretiring : s'.pc.retiring = s.pc.retiring)
    (hpolling : ∀ inRun id w, s'.pc = .polling inRun id w → s.pc = .polling inRun id w) :
    Books s' := by
  obtain ⟨h₁, h₂, h₃, h₄, h₅, h₆, h₇, h₈, h₉⟩ := hI
  constructor
  · rwa [hnew]
  · rwa [hnew, hnext]
  · rwa [hspawned, hnext]
  · rwa [hnew, hspawned]
  · rwa [hfinished, hspawned]
  · rwa [htasks, hspawned, hfinished, hretiring]
  · rwa [hretiring, hfinished]
  · rwa [hcache, htasks]
  · intro inRun id w hpc
    rw [htasks]
    exact h₉ inRun id w (hpolling inRun id w hpc)

/-- Where no task is about to be removed, `tasks` are those not done. -/
theorem mem_tasks (hI : Books s) (hpc : s.pc.retiring = none) :
    id ∈ s.tasks ↔ id ∈ s.spawned ∧ id ∉ s.finished := by
  rw [hI.live, hpc]
  simp

/-- A new id is none of the old ones, before the counter wraps. -/
theorem newTask (hI : Books s) (hids : s.nextId + 1 ≤ 2 ^ 64) :
    Books { s with nextId := s.nextId + 1, unspawned := s.nextId % 2 ^ 64 :: s.unspawned } := by
  have hmod : s.nextId % 2 ^ 64 = s.nextId := Nat.mod_eq_of_lt hids
  rw [hmod]
  refine ⟨?_, ?_, ?_, ?_, hI.finished, hI.live, hI.retiring, hI.cached, hI.polled⟩
  · refine List.nodup_cons.mpr ⟨?_, hI.nodup⟩
    intro hmem
    exact lt_irrefl _ (hI.unspawned_lt _ hmem)
  · intro id hid
    rcases List.mem_cons.mp hid with rfl | hid
    · exact Nat.lt_succ_self _
    · exact Nat.lt_succ_of_lt (hI.unspawned_lt id hid)
  · intro id hid
    exact Nat.lt_succ_of_lt (hI.spawned_lt id hid)
  · intro id hid hspawned
    rcases List.mem_cons.mp hid with rfl | hid
    · exact lt_irrefl _ (hI.spawned_lt _ hspawned)
    · exact hI.fresh id hid hspawned

theorem insertTask (hI : Books s) (hpc : s.pc = .caller) (hid : id ∈ s.unspawned) :
    Books { s.insertTask id with pc := .spawning id } := by
  have hfresh := hI.fresh id hid
  have hretiring : s.pc.retiring = none := by rw [hpc]; rfl
  have hunfinished : id ∉ s.finished := fun h => hfresh (hI.finished id h)
  refine ⟨hI.nodup.erase id, ?_, ?_, ?_, ?_, ?_, ?_, ?_, ?_⟩
  · intro x hx
    exact hI.unspawned_lt x (List.mem_of_mem_erase hx)
  · intro x hx
    rcases Finset.mem_insert.mp hx with rfl | hx
    · exact hI.unspawned_lt x hid
    · exact hI.spawned_lt x hx
  · intro x hx hspawned
    obtain ⟨hne, hx⟩ := hI.nodup.mem_erase_iff.mp hx
    rcases Finset.mem_insert.mp hspawned with rfl | hspawned
    · exact hne rfl
    · exact hI.fresh x hx hspawned
  · intro x hx
    exact Finset.mem_insert_of_mem (hI.finished x hx)
  · intro x
    show x ∈ insert id s.tasks ↔ x ∈ insert id s.spawned ∧ (x ∈ s.finished → none = some x)
    rw [Finset.mem_insert, Finset.mem_insert, hI.mem_tasks hretiring]
    by_cases hx : x = id
    · subst hx
      simp [hunfinished]
    · simp [hx]
  · intro x hx
    cases hx
  · intro x w hx
    obtain ⟨hlive, hw⟩ := hI.cached x w hx
    exact ⟨Finset.mem_insert_of_mem hlive, hw⟩
  · intro _ _ _ h
    cases h

theorem startPoll (hI : Books s) (hpc : s.pc = .popped inRun id) (hid : id ∈ s.tasks) :
    Books (s.startPoll inRun id) := by
  have hretiring : s.pc.retiring = none := by rw [hpc]; rfl
  have hwaker : ((s.wakerCache id).getD ⟨id⟩).id = id := by
    cases hw : s.wakerCache id with
    | none => rfl
    | some w => exact (hI.cached id w hw).2
  refine ⟨hI.nodup, hI.unspawned_lt, hI.spawned_lt, hI.fresh, hI.finished, ?_, ?_, ?_, ?_⟩
  · intro x
    have hlive := hI.live x
    rwa [hretiring] at hlive
  · intro x hx
    cases hx
  · intro x w hx
    change Function.update s.wakerCache id (some ((s.wakerCache id).getD ⟨id⟩)) x = some w at hx
    by_cases hxid : x = id
    · subst hxid
      rw [Function.update_self, Option.some.injEq] at hx
      exact ⟨hid, hx ▸ hwaker⟩
    · rw [Function.update_of_ne hxid] at hx
      exact hI.cached x w hx
  · intro r x w hx
    obtain ⟨-, rfl, rfl⟩ := Pc.polling.inj hx
    exact ⟨hid, hwaker⟩

theorem finishReady (hI : Books s) {w : TaskWaker} (hpc : s.pc = .polling inRun id w) :
    Books { s with finished := insert id s.finished, pc := .ready inRun id } := by
  have hretiring : s.pc.retiring = none := by rw [hpc]; rfl
  obtain ⟨hid, -⟩ := hI.polled inRun id w hpc
  have hspawned := ((hI.mem_tasks hretiring).mp hid).1
  refine ⟨hI.nodup, hI.unspawned_lt, hI.spawned_lt, hI.fresh, ?_, ?_, ?_, hI.cached, ?_⟩
  · intro x hx
    rcases Finset.mem_insert.mp hx with rfl | hx
    · exact hspawned
    · exact hI.finished x hx
  · intro x
    show x ∈ s.tasks ↔ x ∈ s.spawned ∧ (x ∈ insert id s.finished → some id = some x)
    rw [hI.mem_tasks hretiring, Finset.mem_insert, Option.some.injEq]
    by_cases hx : x = id
    · subst hx
      exact iff_of_true ((hI.mem_tasks hretiring).mp hid) ⟨hspawned, fun _ => rfl⟩
    · simp [hx, Ne.symm hx]
  · intro x hx
    obtain rfl := Option.some.inj hx
    exact Finset.mem_insert_self _ _
  · intro _ _ _ h
    cases h

theorem removeTask (hI : Books s) (hpc : s.pc = .ready inRun id) :
    Books (s.removeTask inRun id) := by
  have hretiring : s.pc.retiring = some id := by rw [hpc]; rfl
  have hdone := hI.retiring id hretiring
  refine ⟨hI.nodup, hI.unspawned_lt, hI.spawned_lt, hI.fresh, hI.finished, ?_, ?_, ?_, ?_⟩
  · intro x
    show x ∈ s.tasks.erase id ↔ x ∈ s.spawned ∧ (x ∈ s.finished → none = some x)
    rw [Finset.mem_erase, hI.live, hretiring, Option.some.injEq]
    constructor
    · rintro ⟨hx, hspawned, hfinished⟩
      exact ⟨hspawned, fun h => absurd (hfinished h).symm hx⟩
    · rintro ⟨hspawned, hfinished⟩
      refine ⟨?_, hspawned, fun h => by cases hfinished h⟩
      rintro rfl
      cases hfinished hdone
  · intro x hx
    cases hx
  · intro x w hx
    change Function.update s.wakerCache id none x = some w at hx
    by_cases hxid : x = id
    · subst hxid
      rw [Function.update_self] at hx
      cases hx
    · rw [Function.update_of_ne hxid] at hx
      obtain ⟨hlive, hw⟩ := hI.cached x w hx
      exact ⟨Finset.mem_erase.mpr ⟨hxid, hlive⟩, hw⟩
  · intro _ _ _ h
    cases h

/-- **A step keeps the books**, unless it finds the queue full. -/
theorem step {a : Action} (hI : Books s) (h : Step s a s') (hids : s'.nextId ≤ 2 ^ 64)
    (hfull : s'.pc ≠ .panicked .queueFull) : Books s' := by
  cases h with
  | newTask hpc => exact hI.newTask hids
  | spawn hpc hid hnew => exact hI.insertTask hpc hid
  | spawnTwice hpc hid hold =>
    -- a task that was not spawned yet is not among the tasks
    exact absurd ((hI.live _).mp hold).1 (hI.fresh _ hid)
  | pushed hpc hq => exact hI.of_same rfl rfl rfl rfl rfl rfl (by rw [hpc]; rfl) (by simp)
  | call hpc => exact hI.of_same rfl rfl rfl rfl rfl rfl (by rw [hpc]; rfl) (by simp)
  | pop hpc hq => exact hI.of_same rfl rfl rfl rfl rfl rfl (by rw [hpc]; rfl) (by simp)
  | @popNone inRun hpc hq =>
    cases inRun <;> exact hI.of_same rfl rfl rfl rfl rfl rfl (by rw [hpc]; rfl) (by simp)
  | startPoll hpc hid => exact hI.startPoll hpc hid
  | alreadyStopped hpc hid =>
    exact hI.of_same rfl rfl rfl rfl rfl rfl (by rw [hpc]; rfl) (by simp)
  | finishReady hpc => exact hI.finishReady hpc
  | finishPending hpc => exact hI.of_same rfl rfl rfl rfl rfl rfl (by rw [hpc]; rfl) (by simp)
  | remove hpc => exact hI.removeTask hpc
  | disable hpc => exact hI.of_same rfl rfl rfl rfl rfl rfl (by rw [hpc]; rfl) (by simp)
  | isEmpty hpc hq => exact hI.of_same rfl rfl rfl rfl rfl rfl (by rw [hpc]; rfl) (by simp)
  | isNotEmpty hpc hq => exact hI.of_same rfl rfl rfl rfl rfl rfl (by rw [hpc]; rfl) (by simp)
  | enableAndHlt hpc => exact hI.of_same rfl rfl rfl rfl rfl rfl (by rw [hpc]; rfl) (by simp)
  | enable hpc => exact hI.of_same rfl rfl rfl rfl rfl rfl (by rw [hpc]; rfl) (by simp)
  | wake hw hint hrun hq => exact hI.of_same rfl rfl rfl rfl rfl rfl rfl fun _ _ _ h => h
  | interrupt hpc => exact hI.of_same rfl rfl rfl rfl rfl rfl (by rw [hpc]; rfl) (by simp)
  | queueFull ha hrun hq htasks hpc => exact absurd hpc hfull

end Books

/-- The counter of ids never goes down. -/
theorem Step.nextId_le {s s' : Machine} {a : Action} (h : Step s a s')
    (hfull : s'.pc ≠ .panicked .queueFull) : s.nextId ≤ s'.nextId := by
  cases h
  case newTask => exact Nat.le_succ _
  case queueFull hpc => exact absurd hpc hfull
  all_goals exact le_rfl

end Machine

/-- **The executor's books over whole runs.**  At the head of the loop, `tasks`
are the spawned ones whose poll has not returned `Ready`, and each cached waker
is that of a task in `tasks`, for its own key.  A task that is polled is one of
`tasks`, its poll has not returned `Ready` before, and the waker it gets is its
own. -/
theorem tasks_eq (acts : List Action) (s : Machine)
    (hrun : exec Machine.step .init acts = some s) (hids : s.nextId < 2 ^ 64) :
    (∀ inRun, s.pc = .loopHead inRun →
      s.tasks = s.spawned \ s.finished ∧
      ∀ id w, s.wakerCache id = some w → id ∈ s.tasks ∧ w.id = id) ∧
    ∀ inRun id w, s.pc = .polling inRun id w → id ∈ s.tasks ∧ id ∉ s.finished ∧ w.id = id := by
  have hI : s.pc = .panicked .queueFull ∨ (s.nextId ≤ 2 ^ 64 → s.Books) := by
    refine exec_invariant
      (I := fun s => s.pc = .panicked .queueFull ∨ (s.nextId ≤ 2 ^ 64 → s.Books)) ?_
      (.inr fun _ => Machine.init_books) hrun
    intro s a s' hI hstep
    have hstep := Machine.Step.of_step hstep
    by_cases hfull : s'.pc = .panicked .queueFull
    · exact .inl hfull
    · right
      intro hids
      have hI := hI.resolve_left (hstep.not_panicked _)
      exact (hI ((hstep.nextId_le hfull).trans hids)).step hstep hids hfull
  refine ⟨?_, ?_⟩
  · intro inRun hpc
    have hI := hI.resolve_left (by simp [hpc]) hids.le
    refine ⟨?_, hI.cached⟩
    ext id
    rw [hI.mem_tasks (by rw [hpc]; rfl), Finset.mem_sdiff]
  · intro inRun id w hpc
    have hI := hI.resolve_left (by simp [hpc]) hids.le
    obtain ⟨hid, hw⟩ := hI.polled inRun id w hpc
    exact ⟨hid, ((hI.mem_tasks (by rw [hpc]; rfl)).mp hid).2, hw⟩

/-- One task that wakes itself and is done, up to the head of the loop: its id
is still queued. -/
def staleWakeRun : List Action :=
  [.newTask, .spawn 0, .advance, .call true, .advance, .advance, .wake ⟨0⟩, .finishPoll true,
    .advance]

theorem tasks_eq_staleWake :
    ∃ s, exec Machine.step .init staleWakeRun = some s ∧ s.pc = .loopHead true ∧
      s.taskQueue.elems = [0] ∧ s.finished = {0} ∧ s.tasks = s.spawned \ s.finished :=
  ⟨_, rfl, rfl, rfl, rfl, ((tasks_eq staleWakeRun _ rfl (by decide)).1 true rfl).1⟩

end Executor
