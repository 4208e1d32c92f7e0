/-
The task executor: `task/executor.rs`, with `TaskId` of `task/mod.rs` and
`wait_for_interrupts_if` of `sys.rs`.

The executor's thread moves through the program points `Pc`.  Between any two
of its steps an interrupt handler may call any waker that exists, as long as
interrupts are enabled; what a future does while it is polled is to call
wakers, too, and to return.  `step` is this system as a partial function of the
action taken, and `Step` lists everything a step can do.

* `Step.of_step` — what `step` does is listed;
* `NoLostWake` — a wake that is due is in the queue or in hand, interrupts are
  masked during the idle check, and the queue is empty when the halt begins;
* `no_lost_wake` — so no wake is lost in any interleaving.
-/
import ZuluOs.ArrayQueue
import ZuluOs.Transition

open Transition

namespace Executor

/-- `TaskId` -/
abbrev TaskId := ℕ

/-- `MAX_TASKS` -/
def MAX_TASKS : ℕ := 128

/-- `TaskWaker`; its queue is that of the executor. -/
structure TaskWaker where
  id : TaskId
deriving DecidableEq

/-- The panics of the executor. -/
inductive Panic where
  /-- `expect("Task queue full")` -/
  | queueFull
  /-- `panic!("Task ID overflow")` -/
  | taskIdOverflow (id : TaskId)
deriving DecidableEq

/-- Where the executor's thread is.  `inRun` tells whether `run_ready_tasks`
was called by `run`. -/
inductive Pc where
  /-- Outside the executor. -/
  | caller
  /-- `spawn` has inserted the task and is about to push its id. -/
  | spawning (id : TaskId)
  /-- The head of the loop of `run_ready_tasks`. -/
  | loopHead (inRun : Bool)
  /-- An id was popped; its task is looked up next. -/
  | popped (inRun : Bool) (id : TaskId)
  /-- `task.poll(&mut context)` is running. -/
  | polling (inRun : Bool) (id : TaskId) (waker : TaskWaker)
  /-- The poll returned `Ready`; the task is removed next. -/
  | ready (inRun : Bool) (id : TaskId)
  /-- `sleep_if_idle` was called. -/
  | idle
  /-- Interrupts are disabled; `is_empty` is asked next. -/
  | checking
  /-- The queue was empty: `enable_and_hlt` is next. -/
  | haltNext
  /-- The queue was not empty: `enable` is next. -/
  | enableNext
  | halted
  | panicked (p : Panic)
deriving DecidableEq

/-- The task that `spawn` is just inserting, or the one that `run_ready_tasks`
has popped and is about to poll. -/
def Pc.inHand : Pc → Option TaskId
  | spawning id => some id
  | popped _ id => some id
  | panicked (.taskIdOverflow id) => some id
  | _ => none

/-- Control is with code outside the executor: its caller, or a future. -/
def Pc.outside : Pc → Bool
  | caller => true
  | polling _ _ _ => true
  | _ => false

/-- The code of the kernel is running. -/
def Pc.running : Pc → Bool
  | halted => false
  | panicked _ => false
  | _ => true

end Executor

open Executor in
/-- `Executor`; a task is known by its id. -/
structure Executor where
  tasks : Finset TaskId
  taskQueue : ArrayQueue TaskId MAX_TASKS
  wakerCache : TaskId → Option TaskWaker

namespace Executor

/-- `Executor::new` -/
def new : Executor := ⟨∅, .empty, fun _ => none⟩

/-- The executor, its thread, and the wakers and tasks around it. -/
structure Machine extends Executor where
  pc : Pc
  interrupts : Bool
  /-- The wakers that were made; anyone may hold clones of them. -/
  wakers : Finset TaskWaker
  /-- How often `TaskId::new` was called. -/
  nextId : ℕ
  /-- Tasks that were made and not yet spawned. -/
  unspawned : List TaskId
  -- what happened so far, which no code reads
  spawned : Finset TaskId
  finished : Finset TaskId
  /-- Polled since they were spawned. -/
  polled : Finset TaskId
  /-- Woken after the start of their last poll. -/
  woken : Finset TaskId

/-- What may happen next. -/
inductive Action where
  /-- `Task::new` -/
  | newTask
  /-- A call of `spawn`. -/
  | spawn (id : TaskId)
  /-- A call of `run`, or of `run_ready_tasks` alone. -/
  | call (inRun : Bool)
  /-- The next step of the executor's own code. -/
  | advance
  /-- The future that is polled returns. -/
  | finishPoll (ready : Bool)
  /-- A clone of a waker is called. -/
  | wake (waker : TaskWaker)
  /-- An interrupt ends the halt. -/
  | interrupt
deriving DecidableEq

namespace Machine

/-- Before the first task is made. -/
def init : Machine :=
  ⟨.new, .caller, true, ∅, 0, [], ∅, ∅, ∅, ∅⟩

/-- `task_queue.push(id).expect("Task queue full")`, and on to `pc`. -/
def push (s : Machine) (id : TaskId) (pc : Pc) : Machine :=
  match s.taskQueue.push id with
  | some q => { s with taskQueue := q, pc := pc }
  | none => { s with pc := .panicked .queueFull }

/-- `TaskWaker::wake_task`, wherever the thread is. -/
def wakeTask (s : Machine) (waker : TaskWaker) : Machine :=
  { s with woken := insert waker.id s.woken }.push waker.id s.pc

/-- `self.tasks.insert(id, task)` -/
def insertTask (s : Machine) (id : TaskId) : Machine :=
  { s with
    tasks := insert id s.tasks
    unspawned := s.unspawned.erase id
    spawned := insert id s.spawned
    polled := s.polled.erase id
    woken := s.woken.erase id }

/-- Take the waker from the cache, or make it, and poll the task. -/
def startPoll (s : Machine) (inRun : Bool) (id : TaskId) : Machine :=
  let waker := (s.wakerCache id).getD ⟨id⟩
  { s with
    wakerCache := Function.update s.wakerCache id (some waker)
    pc := .polling inRun id waker
    wakers := insert waker s.wakers
    polled := insert id s.polled
    woken := s.woken.erase id }

/-- Remove a task that is done from `tasks` and from `waker_cache`. -/
def removeTask (s : Machine) (inRun : Bool) (id : TaskId) : Machine :=
  { s with
    tasks := s.tasks.erase id
    wakerCache := Function.update s.wakerCache id none
    pc := .loopHead inRun }

/-- The next step of the executor's own code. -/
def advance (s : Machine) : Option Machine :=
  match s.pc with
  | .spawning id => some (s.push id .caller)
  | .loopHead inRun =>
    match s.taskQueue.pop with
    | some (id, q) => some { s with taskQueue := q, pc := .popped inRun id }
    | none => some { s with pc := if inRun then .idle else .caller }
  | .popped inRun id =>
    if id ∈ s.tasks then some (s.startPoll inRun id)
    else some { s with pc := .loopHead inRun }
  | .ready inRun id => some (s.removeTask inRun id)
  | .idle => some { s with interrupts := false, pc := .checking }
  | .checking =>
    some { s with pc := if s.taskQueue.elems = [] then .haltNext else .enableNext }
  | .haltNext => some { s with interrupts := true, pc := .halted }
  | .enableNext => some { s with interrupts := true, pc := .loopHead true }
  | _ => none

/-- One action, `none` where it is not possible. -/
def step (s : Machine) : Action → Option Machine
  | .newTask =>
    if s.pc.outside then
      some { s with nextId := s.nextId + 1, unspawned := s.nextId % 2 ^ 64 :: s.unspawned }
    else none
  | .spawn id =>
    if s.pc = .caller ∧ id ∈ s.unspawned then
      if id ∈ s.tasks then some { s.insertTask id with pc := .panicked (.taskIdOverflow id) }
      else some { s.insertTask id with pc := .spawning id }
    else none
  | .call inRun => if s.pc = .caller then some { s with pc := .loopHead inRun } else none
  | .advance => s.advance
  | .finishPoll ready =>
    match s.pc with
    | .polling inRun id _ =>
      if ready then some { s with finished := insert id s.finished, pc := .ready inRun id }
      else some { s with pc := .loopHead inRun }
    | _ => none
  | .wake waker =>
    if waker ∈ s.wakers ∧ s.interrupts = true ∧ s.pc.running then
      some (s.wakeTask waker)
    else none
  | .interrupt => if s.pc = .halted then some { s with pc := .loopHead true } else none

/-- Everything a step can do. -/
inductive Step (s : Machine) : Action → Machine → Prop
  | newTask (hpc : s.pc.outside = true) :
    Step s .newTask { s with
      nextId := s.nextId + 1
      unspawned := s.nextId % 2 ^ 64 :: s.unspawned }
  | spawn {id : TaskId} (hpc : s.pc = .caller) (hid : id ∈ s.unspawned) (hnew : id ∉ s.tasks) :
    Step s (.spawn id) { s.insertTask id with pc := .spawning id }
  | spawnTwice {id : TaskId} (hpc : s.pc = .caller) (hid : id ∈ s.unspawned)
      (hold : id ∈ s.tasks) :
    Step s (.spawn id) { s.insertTask id with pc := .panicked (.taskIdOverflow id) }
  | pushed {id : TaskId} {q : ArrayQueue TaskId MAX_TASKS} (hpc : s.pc = .spawning id)
      (hq : s.taskQueue.push id = some q) :
    Step s .advance { s with taskQueue := q, pc := .caller }
  | call {inRun : Bool} (hpc : s.pc = .caller) :
    Step s (.call inRun) { s with pc := .loopHead inRun }
  | pop {inRun : Bool} {id : TaskId} {q : ArrayQueue TaskId MAX_TASKS}
      (hpc : s.pc = .loopHead inRun) (hq : s.taskQueue.pop = some (id, q)) :
    Step s .advance { s with taskQueue := q, pc := .popped inRun id }
  | popNone {inRun : Bool} (hpc : s.pc = .loopHead inRun) (hq : s.taskQueue.pop = none) :
    Step s .advance { s with pc := if inRun then .idle else .caller }
  | startPoll {inRun : Bool} {id : TaskId} (hpc : s.pc = .popped inRun id) (hid : id ∈ s.tasks) :
    Step s .advance (s.startPoll inRun id)
  | alreadyStopped {inRun : Bool} {id : TaskId} (hpc : s.pc = .popped inRun id)
      (hid : id ∉ s.tasks) :
    Step s .advance { s with pc := .loopHead inRun }
  | finishReady {inRun : Bool} {id : TaskId} {waker : TaskWaker}
      (hpc : s.pc = .polling inRun id waker) :
    Step s (.finishPoll true) { s with
      finished := insert id s.finished
      pc := .ready inRun id }
  | finishPending {inRun : Bool} {id : TaskId} {waker : TaskWaker}
      (hpc : s.pc = .polling inRun id waker) :
    Step s (.finishPoll false) { s with pc := .loopHead inRun }
  | remove {inRun : Bool} {id : TaskId} (hpc : s.pc = .ready inRun id) :
    Step s .advance (s.removeTask inRun id)
  | disable (hpc : s.pc = .idle) :
    Step s .advance { s with interrupts := false, pc := .checking }
  | isEmpty (hpc : s.pc = .checking) (hq : s.taskQueue.elems = []) :
    Step s .advance { s with pc := .haltNext }
  | isNotEmpty (hpc : s.pc = .checking) (hq : s.taskQueue.elems ≠ []) :
    Step s .advance { s with pc := .enableNext }
  | enableAndHlt (hpc : s.pc = .haltNext) :
    Step s .advance { s with interrupts := true, pc := .halted }
  | enable (hpc : s.pc = .enableNext) :
    Step s .advance { s with interrupts := true, pc := .loopHead true }
  | wake {waker : TaskWaker} {q : ArrayQueue TaskId MAX_TASKS} (hw : waker ∈ s.wakers)
      (hint : s.interrupts = true) (hrun : s.pc.running = true)
      (hq : s.taskQueue.push waker.id = some q) :
    Step s (.wake waker) { s with taskQueue := q, woken := insert waker.id s.woken }
  | interrupt (hpc : s.pc = .halted) :
    Step s .interrupt { s with pc := .loopHead true }
  /-- The queue was full, in `spawn` or in a waker. -/
  | queueFull {a : Action} {id : TaskId} {s' : Machine}
      (ha : a = .advance ∧ s.pc = .spawning id ∨ ∃ w ∈ s.wakers, a = .wake w ∧ id = w.id)
      (hrun : s.pc.running = true) (hq : s.taskQueue.push id = none) (htasks : s'.tasks = s.tasks)
      (hpc : s'.pc = .panicked .queueFull) :
    Step s a s'

theorem Step.of_advance {s s' : Machine} (h : s.advance = some s') : Step s .advance s' := by
  unfold advance at h
  split at h <;> rename_i hpc
  · rw [push, Option.some.injEq] at h
    split at h
    · exact h ▸ .pushed hpc ‹_›
    · exact .queueFull (.inl ⟨rfl, hpc⟩) (by rw [hpc]; rfl) ‹_› (h ▸ rfl) (h ▸ rfl)
  · split at h
    · exact Option.some.inj h ▸ .pop hpc ‹_›
    · exact Option.some.inj h ▸ .popNone hpc ‹_›
  · split at h
    · exact Option.some.inj h ▸ .startPoll hpc ‹_›
    · exact Option.some.inj h ▸ .alreadyStopped hpc ‹_›
  · exact Option.some.inj h ▸ .remove hpc
  · exact Option.some.inj h ▸ .disable hpc
  · obtain rfl := Option.some.inj h
    by_cases hq : s.taskQueue.elems = []
    · rw [if_pos hq]
      exact .isEmpty hpc hq
    · rw [if_neg hq]
      exact .isNotEmpty hpc hq
  · exact Option.some.inj h ▸ .enableAndHlt hpc
  · exact Option.some.inj h ▸ .enable hpc
  · cases h

theorem Step.of_step {s s' : Machine} {a : Action} (h : s.step a = some s') : Step s a s' := by
  cases a with
  | newTask =>
    rw [step] at h
    split at h
    · exact Option.some.inj h ▸ .newTask ‹_›
    · cases h
  | spawn id =>
    rw [step] at h
    split at h
    · obtain ⟨hpc, hid⟩ := ‹_ ∧ _›
      split at h
      · exact Option.some.inj h ▸ .spawnTwice hpc hid ‹_›
      · exact Option.some.inj h ▸ .spawn hpc hid ‹_›
    · cases h
  | call inRun =>
    rw [step] at h
    split at h
    · exact Option.some.inj h ▸ .call ‹_›
    · cases h
  | advance => exact Step.of_advance h
  | finishPoll ready =>
    rw [step] at h
    split at h
    · cases ready with
      | true => exact Option.some.inj h ▸ .finishReady ‹_›
      | false => exact Option.some.inj h ▸ .finishPending ‹_›
    · cases h
  | wake w =>
    rw [step] at h
    split at h
    · obtain ⟨hw, hint, hrun⟩ := ‹_ ∧ _ ∧ _›
      rw [wakeTask, push, Option.some.injEq] at h
      split at h
      · exact h ▸ .wake hw hint hrun ‹_›
      · exact .queueFull (.inr ⟨w, hw, rfl, rfl⟩) hrun ‹_› (h ▸ rfl) (h ▸ rfl)
    · cases h
  | interrupt =>
    rw [step] at h
    split at h
    · exact Option.some.inj h ▸ .interrupt ‹_›
    · cases h

/-- A panic is the end. -/
theorem Step.not_panicked {s s' : Machine} {a : Action} (h : Step s a s') (p : Panic) :
    s.pc ≠ .panicked p := by
  intro hp
  cases h <;> simp_all [Pc.outside, Pc.running]

/-! ### No lost wake-up -/

/-- The task is live and was not polled since it was spawned, or its waker was
called after the start of its last poll. -/
def Outstanding (s : Machine) (id : TaskId) : Prop :=
  id ∈ s.tasks ∧ (id ∉ s.polled ∨ id ∈ s.woken)

/-- Interrupts are to stay out at this point. -/
def Masked (pc : Pc) : Prop := pc = .checking ∨ pc = .haltNext ∨ pc = .enableNext

/-- What every state has in which the queue has not overflowed. -/
structure NoLostWake (s : Machine) : Prop where
  queued : ∀ id, s.Outstanding id → id ∈ s.taskQueue.elems ∨ s.pc.inHand = some id
  masked : Masked s.pc → s.interrupts = false
  drained : s.pc = .haltNext ∨ s.pc = .halted → s.taskQueue.elems = []

/-- The common case: no task becomes due, none leaves the queue, and none is
in hand before; where the thread goes, nothing more is asked for. -/
theorem NoLostWake.of_pc {s s' : Machine} (hI : NoLostWake s) (hhand : s.pc.inHand = none)
    (hdue : ∀ id, s'.Outstanding id → s.Outstanding id) (hqueue : s'.taskQueue = s.taskQueue)
    (hmask : Masked s'.pc → s'.interrupts = false)
    (hdrain : s'.pc = .haltNext ∨ s'.pc = .halted → s.taskQueue.elems = []) :
    NoLostWake s' := by
  refine ⟨fun id hid => .inl ?_, hmask, fun h => hqueue ▸ hdrain h⟩
  rw [hqueue]
  exact (hI.queued id (hdue id hid)).resolve_right (by simp [hhand])

/-- A task that is being inserted is due, and in hand. -/
theorem NoLostWake.insertTask {s : Machine} (hI : NoLostWake s) (hpc : s.pc = .caller)
    {id : TaskId} {pc : Pc} (hpc' : pc = .spawning id ∨ pc = .panicked (.taskIdOverflow id)) :
    NoLostWake { s.insertTask id with pc := pc } := by
  have hhand : pc.inHand = some id := by
    rcases hpc' with rfl | rfl <;> rfl
  refine ⟨fun x hx => ?_, ?_, ?_⟩
  · by_cases hxid : x = id
    · exact .inr (hxid ▸ hhand)
    · have hdue : s.Outstanding x := by
        simpa [Outstanding, Machine.insertTask, hxid] using hx
      exact .inl ((hI.queued x hdue).resolve_right (by simp [hpc, Pc.inHand]))
  · rcases hpc' with rfl | rfl <;> simp [Masked]
  · rcases hpc' with rfl | rfl <;> simp

/-- A poll takes the task in hand off the list of the due ones. -/
theorem NoLostWake.startPoll {s : Machine} (hI : NoLostWake s) {inRun : Bool} {id : TaskId}
    (hpc : s.pc = .popped inRun id) : NoLostWake (s.startPoll inRun id) := by
  refine ⟨fun x hx => .inl ?_, by simp [Masked, Machine.startPoll], by simp [Machine.startPoll]⟩
  have hxid : x ≠ id := by
    rintro rfl
    simp [Outstanding, Machine.startPoll] at hx
  have hdue : s.Outstanding x := by
    simpa [Outstanding, Machine.startPoll, hxid] using hx
  exact (hI.queued x hdue).resolve_right (by simp [hpc, Pc.inHand, hxid.symm])

/-- A wake makes its task due and queues it.  None comes in once the queue was
found empty. -/
theorem NoLostWake.wake {s : Machine} (hI : NoLostWake s) {w : TaskWaker}
    {q : ArrayQueue TaskId MAX_TASKS} (hint : s.interrupts = true) (hrun : s.pc.running = true)
    (hq : s.taskQueue.push w.id = some q) :
    NoLostWake { s with taskQueue := q, woken := insert w.id s.woken } := by
  obtain ⟨-, hq⟩ := ArrayQueue.push_eq_some.mp hq
  refine ⟨fun x hx => ?_, hI.masked, fun h => ?_⟩
  · dsimp only
    rw [hq, List.mem_append, List.mem_singleton]
    by_cases hxw : x = w.id
    · exact .inl (.inr hxw)
    · have hdue : s.Outstanding x := by
        simpa [Outstanding, hxw] using hx
      exact (hI.queued x hdue).imp_left .inl
  · rcases h with h | h
    · have hmasked := hI.masked (.inr (.inl h))
      rw [hint] at hmasked
      cases hmasked
    · rw [h] at hrun
      cases hrun

/-- **A step keeps every due wake**, unless it finds the queue full. -/
theorem NoLostWake.step {s s' : Machine} {a : Action} (hI : NoLostWake s) (h : Step s a s')
    (hfull : s'.pc ≠ .panicked .queueFull) : NoLostWake s' := by
  cases h with
  | newTask hpc => exact ⟨hI.queued, hI.masked, hI.drained⟩
  | spawn hpc hid hnew => exact hI.insertTask hpc (.inl rfl)
  | spawnTwice hpc hid hold => exact hI.insertTask hpc (.inr rfl)
  | @pushed id q hpc hq =>
    obtain ⟨-, hq⟩ := ArrayQueue.push_eq_some.mp hq
    refine ⟨fun x hx => .inl ?_, by simp [Masked], by simp⟩
    dsimp only
    rw [hq, List.mem_append, List.mem_singleton]
    rcases hI.queued x hx with h | h
    · exact .inl h
    · rw [hpc] at h
      exact .inr (Option.some.inj h).symm
  | call hpc => exact hI.of_pc (by rw [hpc]; rfl) (fun _ h => h) rfl (by simp [Masked]) (by simp)
  | @pop inRun id q hpc hq =>
    rw [ArrayQueue.pop_eq_some] at hq
    refine ⟨fun x hx => ?_, by simp [Masked], by simp⟩
    have hmem := (hI.queued x hx).resolve_right (by simp [hpc, Pc.inHand])
    rw [hq, List.mem_cons] at hmem
    rcases hmem with rfl | hmem
    · exact .inr rfl
    · exact .inl hmem
  | popNone hpc hq =>
    exact hI.of_pc (by rw [hpc]; rfl) (fun _ h => h) rfl (by split <;> simp [Masked])
      (by split <;> simp)
  | startPoll hpc hid => exact hI.startPoll hpc
  | alreadyStopped hpc hid =>
    refine ⟨fun x hx => .inl ?_, by simp [Masked], by simp⟩
    -- the id in hand is that of a task that has ended, so it is not due
    refine (hI.queued x hx).resolve_right fun h => hid ?_
    rw [hpc] at h
    exact Option.some.inj h ▸ hx.1
  | finishReady hpc =>
    exact hI.of_pc (by rw [hpc]; rfl) (fun _ h => h) rfl (by simp [Masked]) (by simp)
  | finishPending hpc =>
    exact hI.of_pc (by rw [hpc]; rfl) (fun _ h => h) rfl (by simp [Masked]) (by simp)
  | remove hpc =>
    refine hI.of_pc (by rw [hpc]; rfl) (fun x hx => ?_) rfl (by simp [Masked, removeTask])
      (by simp [removeTask])
    exact ⟨Finset.mem_of_mem_erase hx.1, hx.2⟩
  | disable hpc => exact hI.of_pc (by rw [hpc]; rfl) (fun _ h => h) rfl (fun _ => rfl) (by simp)
  | isEmpty hpc hq =>
    exact hI.of_pc (by rw [hpc]; rfl) (fun _ h => h) rfl
      (fun _ => hI.masked (.inl hpc)) (fun _ => hq)
  | isNotEmpty hpc hq =>
    exact hI.of_pc (by rw [hpc]; rfl) (fun _ h => h) rfl
      (fun _ => hI.masked (.inl hpc)) (by simp)
  | enableAndHlt hpc =>
    exact hI.of_pc (by rw [hpc]; rfl) (fun _ h => h) rfl (by simp [Masked])
      (fun _ => hI.drained (.inl hpc))
  | enable hpc => exact hI.of_pc (by rw [hpc]; rfl) (fun _ h => h) rfl (by simp [Masked]) (by simp)
  | wake hw hint hrun hq => exact hI.wake hint hrun hq
  | interrupt hpc =>
    exact hI.of_pc (by rw [hpc]; rfl) (fun _ h => h) rfl (by simp [Masked]) (by simp)
  | queueFull ha hrun hq htasks hpc => exact absurd hpc hfull

theorem init_noLostWake : NoLostWake init :=
  ⟨fun _ h => absurd h.1 (Finset.notMem_empty _), by simp [Masked, init], by simp [init]⟩

end Machine

/-- **No lost wake-up.**  As long as the queue has not overflowed, each task
that is due is queued or in hand, and the halt begins only when none is due. -/
theorem no_lost_wake (acts : List Action) (s : Machine)
    (hrun : exec Machine.step .init acts = some s) (hfull : s.pc ≠ .panicked .queueFull) :
    (∀ id, s.Outstanding id → id ∈ s.taskQueue.elems ∨ s.pc.inHand = some id) ∧
    (s.pc = .haltNext ∨ s.pc = .halted → ∀ id, ¬ s.Outstanding id) := by
  have hI : s.pc = .panicked .queueFull ∨ s.NoLostWake := by
    refine exec_invariant (I := fun s => s.pc = .panicked .queueFull ∨ s.NoLostWake)
      (fun s a s' hI hstep => ?_) (.inr Machine.init_noLostWake) hrun
    by_cases hfull : s'.pc = .panicked .queueFull
    · exact .inl hfull
    · rcases hI with hpc | hI
      · exact absurd hpc ((Machine.Step.of_step hstep).not_panicked _)
      · exact .inr (hI.step (.of_step hstep) hfull)
  have hI := hI.resolve_left hfull
  refine ⟨hI.queued, fun hpc id hid => ?_⟩
  rcases hI.queued id hid with h | h
  · rw [hI.drained hpc] at h
    cases h
  · rcases hpc with hpc | hpc <;> rw [hpc] at h <;> cases h

/-- One task that wakes itself once, up to the halt. -/
def selfWakeRun : List Action :=
  [.newTask, .spawn 0, .advance, .call true, .advance, .advance, .wake ⟨0⟩, .finishPoll false,
    .advance, .advance, .finishPoll false, .advance, .advance, .advance]

theorem no_lost_wake_selfWake :
    ∃ s, exec Machine.step .init selfWakeRun = some s ∧ s.pc = .haltNext ∧
      ∀ id, ¬ s.Outstanding id :=
  ⟨_, rfl, rfl, (no_lost_wake selfWakeRun _ rfl (by decide)).2 (.inl rfl)⟩

end Executor
