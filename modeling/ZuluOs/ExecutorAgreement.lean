/-
The two executors agree.

`Executor` keeps its tasks in a map and passes their ids through a bounded
queue, to which a task comes back when its own waker is called; `SimpleExecutor`
passes the tasks themselves through a deque.  If every future calls its own
waker once in each poll that returns `Pending`, and no waker is called
otherwise, then nothing is left to choice: `Driven` is the machine of
`Executor.lean` with the tasks whose futures do that, and `Driven.next` is what
happens next.

* `exec_spawns` — up to 128 tasks are spawned, and wait in order;
* `Mirrors` — the queue of ids is that of the simple executor;
* `Mirrors.polls`, `Polls.pending`, `Polls.ready` — a turn of the simple
  executor is four steps of the machine;
* `executors_agree` — so both poll the same tasks in the same order, with the
  same results, and `run_ready_tasks` returns without a panic.
-/
import ZuluOs.SimpleExecutor

open Transition

namespace Executor

/-! ### Spawning -/

/-- Interrupts are enabled, except for the idle check and after a panic. -/
def Machine.Unmasked (s : Machine) : Prop :=
  s.interrupts = true ∨ Masked s.pc ∨ ∃ p, s.pc = .panicked p

theorem Machine.Unmasked.step {s s' : Machine} {a : Action} (hI : Unmasked s) (h : Step s a s') :
    Unmasked s' := by
  have hon : ¬ Masked s.pc → s.interrupts = true := by
    intro hmasked
    rcases hI with hint | hmask | ⟨p, hp⟩
    · exact hint
    · exact absurd hmask hmasked
    · exact absurd hp (h.not_panicked p)
  cases h with
  | disable hpc => exact .inr (.inl (.inl rfl))
  | isEmpty hpc hq => exact .inr (.inl (.inr (.inl rfl)))
  | isNotEmpty hpc hq => exact .inr (.inl (.inr (.inr rfl)))
  | enableAndHlt hpc => exact .inl rfl
  | enable hpc => exact .inl rfl
  | wake hw hint hrun hq => exact .inl hint
  | queueFull ha hrun hq htasks hpc => exact .inr (.inr ⟨_, hpc⟩)
  | newTask hpc =>
    refine .inl (hon ?_)
    rintro (hm | hm | hm) <;> rw [hm] at hpc <;> cases hpc
  | _ hpc =>
    -- the thread was outside the idle check, and has not touched the flag
    refine .inl (hon ?_)
    rw [hpc]
    simp [Masked]

theorem interrupts_of_caller {acts : List Action} {s : Machine}
    (hrun : exec Machine.step .init acts = some s) (hpc : s.pc = .caller) :
    s.interrupts = true := by
  have hI := exec_invariant (I := Machine.Unmasked) (fun _ _ _ hI h => hI.step (.of_step h))
    (.inl rfl) hrun
  rcases hI with hint | hmask | ⟨p, hp⟩
  · exact hint
  · rcases hmask with h | h | h <;> rw [hpc] at h <;> cases h
  · rw [hpc] at hp
    cases hp

/-- Calls of `spawn`, one after the other. -/
def spawns (ids : List TaskId) : List Action := ids.flatMap fun id => [.spawn id, .advance]

/-- One task: it is in `tasks`, and the last in the queue. -/
theorem exec_spawn {m : Machine} {id : TaskId} (hpc : m.pc = .caller) (hmade : id ∈ m.unspawned)
    (hnew : id ∉ m.tasks) (hroom : m.taskQueue.elems.length < MAX_TASKS) :
    ∃ m', exec Machine.step m [.spawn id, .advance] = some m' ∧ m'.pc = .caller ∧
      m'.interrupts = m.interrupts ∧ m'.wakerCache = m.wakerCache ∧
      m'.unspawned = m.unspawned.erase id ∧ m'.tasks = insert id m.tasks ∧
      m'.taskQueue.elems = m.taskQueue.elems ++ [id] := by
  obtain ⟨q, hq⟩ : ∃ q, m.taskQueue.push id = some q :=
    ⟨⟨m.taskQueue.elems ++ [id], by simpa using hroom⟩, ArrayQueue.push_eq_some.mpr ⟨hroom, rfl⟩⟩
  have hspawn : m.step (.spawn id) = some { m.insertTask id with pc := .spawning id } := by
    rw [Machine.step, if_pos ⟨hpc, hmade⟩, if_neg hnew]
  have hpush : Machine.step { m.insertTask id with pc := .spawning id } .advance =
      some { m.insertTask id with taskQueue := q, pc := .caller } := by
    have hq : (m.insertTask id).taskQueue.push id = some q := hq
    rw [Machine.step, Machine.advance]
    dsimp only
    rw [Machine.push]
    dsimp only
    rw [hq]
  refine ⟨_, exec_cons_eq_some.mpr ⟨_, hspawn, exec_cons_eq_some.mpr ⟨_, hpush, rfl⟩⟩, rfl, rfl, rfl,
    rfl, rfl, ?_⟩
  exact (ArrayQueue.push_eq_some.mp hq).2

/-- All of them, as long as there is room. -/
theorem exec_spawns {m : Machine} (ids : List TaskId) (hpc : m.pc = .caller)
    (hmade : ∀ id ∈ ids, id ∈ m.unspawned) (hnew : ∀ id ∈ ids, id ∉ m.tasks) (hnodup : ids.Nodup)
    (hroom : m.taskQueue.elems.length + ids.length ≤ MAX_TASKS) :
    ∃ m', exec Machine.step m (spawns ids) = some m' ∧ m'.pc = .caller ∧
      m'.interrupts = m.interrupts ∧ m'.wakerCache = m.wakerCache ∧
      (∀ id ∈ ids, id ∈ m'.tasks) ∧ m.tasks ⊆ m'.tasks ∧
      m'.taskQueue.elems = m.taskQueue.elems ++ ids := by
  induction ids generalizing m with
  | nil => exact ⟨m, rfl, hpc, rfl, rfl, by simp, subset_rfl, (List.append_nil _).symm⟩
  | cons id ids ih =>
    rw [List.length_cons] at hroom
    obtain ⟨hid, hnodup⟩ := List.nodup_cons.mp hnodup
    obtain ⟨m₁, hrun₁, hpc₁, hint₁, hcache₁, hmade₁, htasks₁, hqueue₁⟩ :=
      exec_spawn hpc (hmade id List.mem_cons_self) (hnew id List.mem_cons_self) (by omega)
    have hmade₂ : ∀ x ∈ ids, x ∈ m₁.unspawned := by
      intro x hx
      rw [hmade₁]
      have hne : x ≠ id := fun heq => hid (heq ▸ hx)
      exact (List.mem_erase_of_ne hne).mpr (hmade x (List.mem_cons_of_mem _ hx))
    have hnew₂ : ∀ x ∈ ids, x ∉ m₁.tasks := by
      intro x hx hmem
      rw [htasks₁] at hmem
      rcases Finset.mem_insert.mp hmem with heq | hmem
      · exact hid (heq ▸ hx)
      · exact hnew x (List.mem_cons_of_mem _ hx) hmem
    obtain ⟨m', hrun, hpc', hint, hcache, hlive, hsub, hqueue⟩ := ih hpc₁ hmade₂ hnew₂ hnodup (by
      rw [hqueue₁, List.length_append, List.length_singleton]
      omega)
    rw [htasks₁] at hsub
    refine ⟨m', exec_append_eq_some.mpr ⟨m₁, hrun₁, hrun⟩, hpc', hint.trans hint₁,
      hcache.trans hcache₁, ?_, (Finset.subset_insert _ _).trans hsub, ?_⟩
    · intro x hx
      rcases List.mem_cons.mp hx with rfl | hx
      · exact hsub (Finset.mem_insert_self _ _)
      · exact hlive x hx
    · rw [hqueue, hqueue₁, List.append_assoc, List.singleton_append]

/-! ### Futures that wake themselves -/

/-- The machine with the tasks themselves, and the log of the polls. -/
structure Driven where
  machine : Machine
  task : TaskId → Task
  log : List (TaskId × Poll)

namespace Driven

/-- What happens next: the executor's own code goes on.  A future that is
polled returns, and if it returns `Pending` it has called its waker once. -/
def action (d : Driven) : Option Action :=
  match d.machine.pc with
  | .caller => none
  | .polling _ id waker =>
    match (d.task id).poll with
    | (.ready, _) => some (.finishPoll true)
    | (.pending, _) => if id ∈ d.machine.woken then some (.finishPoll false) else some (.wake waker)
  | _ => some .advance

/-- The tasks and the log after an action: a poll is made when it returns. -/
def after (d : Driven) (a : Action) (m : Machine) : Driven :=
  match a with
  | .finishPoll _ =>
    match d.machine.pc with
    | .polling _ id _ =>
      ⟨m, Function.update d.task id (d.task id).poll.2, d.log ++ [(id, (d.task id).poll.1)]⟩
    | _ => { d with machine := m }
  | _ => { d with machine := m }

def next (d : Driven) : Option Driven :=
  d.action.bind fun a => (d.machine.step a).map (d.after a)

/-- The call returns, with `d'`. -/
def Returns (d d' : Driven) : Prop := RunsUntil next (fun d => d.machine.pc = .caller) d d'

variable {d : Driven} {id : TaskId} {waker : TaskWaker} {q : ArrayQueue TaskId MAX_TASKS}

theorem next_eq {a : Action} {m : Machine} (ha : d.action = some a)
    (hm : d.machine.step a = some m) : d.next = some (d.after a m) := by
  rw [next, ha, Option.bind_some, hm, Option.map_some]

theorem next_pop (hpc : d.machine.pc = .loopHead false)
    (hq : d.machine.taskQueue.pop = some (id, q)) :
    d.next = some { d with machine := { d.machine with taskQueue := q, pc := .popped false id } } := by
  refine next_eq (a := .advance) (by rw [action, hpc]) ?_
  rw [Machine.step, Machine.advance, hpc]
  dsimp only
  rw [hq]

theorem next_popNone (hpc : d.machine.pc = .loopHead false) (hq : d.machine.taskQueue.pop = none) :
    d.next = some { d with machine := { d.machine with pc := .caller } } := by
  refine next_eq (a := .advance) (by rw [action, hpc]) ?_
  rw [Machine.step, Machine.advance, hpc]
  dsimp only
  rw [hq]
  rfl

theorem next_startPoll (hpc : d.machine.pc = .popped false id) (hid : id ∈ d.machine.tasks) :
    d.next = some { d with machine := d.machine.startPoll false id } := by
  refine next_eq (a := .advance) (by rw [action, hpc]) ?_
  rw [Machine.step, Machine.advance, hpc]
  exact if_pos hid

theorem next_remove (hpc : d.machine.pc = .ready false id) :
    d.next = some { d with machine := d.machine.removeTask false id } := by
  refine next_eq (a := .advance) (by rw [action, hpc]) ?_
  rw [Machine.step, Machine.advance, hpc]

theorem next_wake {t' : Task} (hpc : d.machine.pc = .polling false id waker)
    (hpoll : (d.task id).poll = (.pending, t')) (hwoken : id ∉ d.machine.woken)
    (hwaker : waker ∈ d.machine.wakers) (hint : d.machine.interrupts = true)
    (hq : d.machine.taskQueue.push waker.id = some q) :
    d.next = some { d with machine := { d.machine with
      taskQueue := q
      woken := insert waker.id d.machine.woken } } := by
  have ha : d.action = some (.wake waker) := by
    rw [action, hpc]
    dsimp only
    rw [hpoll]
    exact if_neg hwoken
  have hrunning : d.machine.pc.running = true := by
    rw [hpc]
    rfl
  refine next_eq ha ?_
  rw [Machine.step, if_pos ⟨hwaker, hint, hrunning⟩, Machine.wakeTask, Machine.push]
  dsimp only
  rw [hq]

theorem next_finishPending {t' : Task} (hpc : d.machine.pc = .polling false id waker)
    (hpoll : (d.task id).poll = (.pending, t')) (hwoken : id ∈ d.machine.woken) :
    d.next = some ⟨{ d.machine with pc := .loopHead false }, Function.update d.task id t',
      d.log ++ [(id, Poll.pending)]⟩ := by
  have ha : d.action = some (.finishPoll false) := by
    rw [action, hpc]
    dsimp only
    rw [hpoll]
    exact if_pos hwoken
  have hm : d.machine.step (.finishPoll false) = some { d.machine with pc := .loopHead false } := by
    rw [Machine.step, hpc]
    rfl
  rw [next_eq ha hm, after, hpc]
  dsimp only
  rw [hpoll]

theorem next_finishReady {t' : Task} (hpc : d.machine.pc = .polling false id waker)
    (hpoll : (d.task id).poll = (.ready, t')) :
    d.next = some ⟨{ d.machine with
      finished := insert id d.machine.finished
      pc := .ready false id }, Function.update d.task id t', d.log ++ [(id, Poll.ready)]⟩ := by
  have ha : d.action = some (.finishPoll true) := by
    rw [action, hpc]
    dsimp only
    rw [hpoll]
  have hm : d.machine.step (.finishPoll true) = some { d.machine with
      finished := insert id d.machine.finished
      pc := .ready false id } := by
    rw [Machine.step, hpc]
    rfl
  rw [next_eq ha hm, after, hpc]
  dsimp only
  rw [hpoll]

theorem next_caller (hpc : d.machine.pc = .caller) : d.next = none := by
  rw [next, action, hpc]
  rfl

theorem next_panicked {p : Panic} (hpc : d.machine.pc = .panicked p) : d.next = none := by
  have hm : d.machine.step .advance = none := by
    rw [Machine.step, Machine.advance, hpc]
  rw [next, action, hpc]
  dsimp only
  rw [Option.bind_some, hm, Option.map_none]

end Driven

/-! ### Turn by turn -/

/-- At the head of the loop the ids in the queue are those of the simple
executor's tasks, and all of them are in `tasks`, at the same poll. -/
structure Mirrors (d : Driven) (queue : List Task) : Prop where
  pc_eq : d.machine.pc = .loopHead false
  interrupts : d.machine.interrupts = true
  elems_eq : d.machine.taskQueue.elems = queue.map Task.id
  live : ∀ t ∈ queue, t.id ∈ d.machine.tasks
  task_eq : ∀ t ∈ queue, d.task t.id = t
  cached : ∀ id waker, d.machine.wakerCache id = some waker → waker = ⟨id⟩
  nodup : (queue.map Task.id).Nodup

/-- The same while `t` is polled, and its waker is still to be called. -/
structure Polls (d : Driven) (t : Task) (rest : List Task) : Prop where
  pc_eq : d.machine.pc = .polling false t.id ⟨t.id⟩
  interrupts : d.machine.interrupts = true
  elems_eq : d.machine.taskQueue.elems = rest.map Task.id
  room : d.machine.taskQueue.elems.length < MAX_TASKS
  live : ∀ s ∈ t :: rest, s.id ∈ d.machine.tasks
  task_eq : ∀ s ∈ t :: rest, d.task s.id = s
  cached : ∀ id waker, d.machine.wakerCache id = some waker → waker = ⟨id⟩
  waker_mem : ⟨t.id⟩ ∈ d.machine.wakers
  not_woken : t.id ∉ d.machine.woken
  nodup : ((t :: rest).map Task.id).Nodup

variable {d : Driven} {t t' : Task} {rest : List Task}

/-- The first two steps of a turn: the id is popped, and its task is polled. -/
theorem Mirrors.polls (h : Mirrors d (t :: rest)) : ∃ d' : Driven,
    (∀ u, d'.Returns u → d.Returns u) ∧ Polls d' t rest ∧ d'.log = d.log := by
  have helems : d.machine.taskQueue.elems = t.id :: rest.map Task.id := h.elems_eq
  have hle := d.machine.taskQueue.length_le
  rw [helems, List.length_cons] at hle
  let q : ArrayQueue TaskId MAX_TASKS := ⟨rest.map Task.id, by omega⟩
  have hpop : d.machine.taskQueue.pop = some (t.id, q) := ArrayQueue.pop_eq_some.mpr helems
  have hwaker : (d.machine.wakerCache t.id).getD ⟨t.id⟩ = ⟨t.id⟩ := by
    cases hcache : d.machine.wakerCache t.id with
    | none => rfl
    | some waker => exact h.cached t.id waker hcache
  let d₁ : Driven := { d with machine := { d.machine with taskQueue := q, pc := .popped false t.id } }
  let d₂ : Driven := { d₁ with machine := d₁.machine.startPoll false t.id }
  have hstart : d₁.next = some d₂ := Driven.next_startPoll rfl (h.live t List.mem_cons_self)
  refine ⟨d₂, ?_, ?_, rfl⟩
  · intro u hu
    refine .step (by simp [h.pc_eq]) (Driven.next_pop h.pc_eq hpop) ?_
    exact .step (by simp) hstart hu
  · refine ⟨congrArg (Pc.polling false t.id) hwaker, h.interrupts, rfl, hle, h.live, h.task_eq, ?_,
      ?_, Finset.notMem_erase _ _, h.nodup⟩
    · -- the cache has got the waker of `t`, if it did not have it
      intro id waker hcache
      have hcache : Function.update d.machine.wakerCache t.id
          (some ((d.machine.wakerCache t.id).getD ⟨t.id⟩)) id = some waker := hcache
      by_cases hid : id = t.id
      · rw [hid, Function.update_self, hwaker, Option.some_inj] at hcache
        rw [hid, hcache]
      · rw [Function.update_of_ne hid] at hcache
        exact h.cached id waker hcache
    · show (⟨t.id⟩ : TaskWaker) ∈ insert _ d.machine.wakers
      rw [hwaker]
      exact Finset.mem_insert_self _ _

theorem Polls.id_ne (h : Polls d t rest) {s : Task} (hs : s ∈ rest) : s.id ≠ t.id := by
  intro heq
  exact (List.nodup_cons.mp h.nodup).1 (heq ▸ List.mem_map_of_mem hs)

/-- A future that returns `Pending` calls its waker, so that its task goes to
the end of the queue. -/
theorem Polls.pending (h : Polls d t rest) (hpoll : t.poll = (.pending, t')) : ∃ d' : Driven,
    (∀ u, d'.Returns u → d.Returns u) ∧ Mirrors d' (rest ++ [t']) ∧
      d'.log = d.log ++ [(t.id, Poll.pending)] := by
  have hid : t'.id = t.id := by
    rw [← show t.poll.2 = t' from congrArg Prod.snd hpoll]
    rfl
  have htask : (d.task t.id).poll = (.pending, t') := by
    rw [h.task_eq t List.mem_cons_self, hpoll]
  obtain ⟨q, hq⟩ : ∃ q, d.machine.taskQueue.push t.id = some q :=
    ⟨⟨_, by simpa using h.room⟩, ArrayQueue.push_eq_some.mpr ⟨h.room, rfl⟩⟩
  let d₁ : Driven := { d with machine := { d.machine with
    taskQueue := q
    woken := insert t.id d.machine.woken } }
  have hwake : d.next = some d₁ :=
    Driven.next_wake h.pc_eq htask h.not_woken h.waker_mem h.interrupts hq
  let d₂ : Driven := ⟨{ d₁.machine with pc := .loopHead false }, Function.update d.task t.id t',
    d.log ++ [(t.id, .pending)]⟩
  have hfinish : d₁.next = some d₂ :=
    Driven.next_finishPending h.pc_eq htask (Finset.mem_insert_self _ _)
  refine ⟨d₂, ?_, ?_, rfl⟩
  · intro u hu
    refine .step (by simp [h.pc_eq]) hwake ?_
    exact .step (by simp [d₁, h.pc_eq]) hfinish hu
  · refine ⟨rfl, h.interrupts, ?_, ?_, ?_, h.cached, ?_⟩
    · show q.elems = _
      rw [(ArrayQueue.push_eq_some.mp hq).2, h.elems_eq, List.map_append, List.map_cons,
        List.map_nil, hid]
    · intro s hs
      show s.id ∈ d.machine.tasks
      rcases List.mem_append.mp hs with hs | hs
      · exact h.live s (List.mem_cons_of_mem _ hs)
      · rw [List.mem_singleton.mp hs, hid]
        exact h.live t List.mem_cons_self
    · intro s hs
      show Function.update d.task t.id t' s.id = s
      rcases List.mem_append.mp hs with hs | hs
      · rw [Function.update_of_ne (h.id_ne hs), h.task_eq s (List.mem_cons_of_mem _ hs)]
      · rw [List.mem_singleton.mp hs, hid, Function.update_self]
    · rw [List.map_append, List.map_cons, List.map_nil, hid]
      exact (List.perm_append_singleton _ _).nodup_iff.mpr h.nodup

/-- A task whose future returns `Ready` is removed. -/
theorem Polls.ready (h : Polls d t rest) (hpoll : t.poll = (.ready, t')) : ∃ d' : Driven,
    (∀ u, d'.Returns u → d.Returns u) ∧ Mirrors d' rest ∧
      d'.log = d.log ++ [(t.id, Poll.ready)] := by
  have htask : (d.task t.id).poll = (.ready, t') := by
    rw [h.task_eq t List.mem_cons_self, hpoll]
  let d₁ : Driven := ⟨{ d.machine with
    finished := insert t.id d.machine.finished
    pc := .ready false t.id }, Function.update d.task t.id t', d.log ++ [(t.id, .ready)]⟩
  have hfinish : d.next = some d₁ := Driven.next_finishReady h.pc_eq htask
  let d₂ : Driven := { d₁ with machine := d₁.machine.removeTask false t.id }
  have hremove : d₁.next = some d₂ := Driven.next_remove rfl
  refine ⟨d₂, ?_, ?_, rfl⟩
  · intro u hu
    refine .step (by simp [h.pc_eq]) hfinish ?_
    exact .step (by simp [d₁]) hremove hu
  · refine ⟨rfl, h.interrupts, h.elems_eq, ?_, ?_, ?_, (List.nodup_cons.mp h.nodup).2⟩
    · intro s hs
      show s.id ∈ d.machine.tasks.erase t.id
      exact Finset.mem_erase.mpr ⟨h.id_ne hs, h.live s (List.mem_cons_of_mem _ hs)⟩
    · intro s hs
      show Function.update d.task t.id t' s.id = s
      rw [Function.update_of_ne (h.id_ne hs), h.task_eq s (List.mem_cons_of_mem _ hs)]
    · intro id waker hcache
      have hcache : Function.update d.machine.wakerCache t.id none id = some waker := hcache
      by_cases hid : id = t.id
      · rw [hid, Function.update_self] at hcache
        cases hcache
      · rw [Function.update_of_ne hid] at hcache
        exact h.cached id waker hcache

/-- Where the simple executor's queue is empty, `run_ready_tasks` returns. -/
theorem Mirrors.returns (h : Mirrors d []) : ∃ d', d.Returns d' ∧ d'.log = d.log := by
  have hpop : d.machine.taskQueue.pop = none := ArrayQueue.pop_eq_none.mpr h.elems_eq
  exact ⟨_, .step (by simp [h.pc_eq]) (Driven.next_popNone h.pc_eq hpop) (.here rfl), rfl⟩

/-- What the log of the machine has of a poll. -/
def Polled.entry (p : Polled) : TaskId × Poll := (p.id, p.result)

/-- **Simulation**: a run of the simple executor is one of the executor. -/
theorem returns_of_runs {e e' : SimpleExecutor} (h : e.Runs e') {d : Driven}
    (hmirrors : Mirrors d (e.taskQueue.map (·.2))) (hlog : d.log = e.log.map Polled.entry) :
    ∃ d', d.Returns d' ∧ d'.log = e'.log.map Polled.entry := by
  induction h generalizing d with
  | here hempty =>
    rw [hempty] at hmirrors
    obtain ⟨d', hreturns, hsame⟩ := hmirrors.returns
    exact ⟨d', hreturns, hsame.trans hlog⟩
  | @step e e₁ e' hne hturn _ ih =>
    rw [SimpleExecutor.turn] at hturn
    split at hturn
    · cases hturn
    · rename_i position task rest hqueue
      rw [hqueue, List.map_cons] at hmirrors
      obtain ⟨d₁, hreturns₁, hpolls, hlog₁⟩ := hmirrors.polls
      split at hturn
      · rename_i task' hpoll
        obtain rfl := Option.some.inj hturn
        obtain ⟨d₂, hreturns₂, hmirrors₂, hlog₂⟩ := hpolls.ready hpoll
        obtain ⟨d', hd', hlog'⟩ := ih hmirrors₂ (by rw [hlog₂, hlog₁, hlog, List.map_append]; rfl)
        exact ⟨d', hreturns₁ d' (hreturns₂ d' hd'), hlog'⟩
      · rename_i task' hpoll
        obtain rfl := Option.some.inj hturn
        obtain ⟨d₂, hreturns₂, hmirrors₂, hlog₂⟩ := hpolls.pending hpoll
        obtain ⟨d', hd', hlog'⟩ := ih (by rw [List.map_append]; exact hmirrors₂)
          (by rw [hlog₂, hlog₁, hlog, List.map_append]; rfl)
        exact ⟨d', hreturns₁ d' (hreturns₂ d' hd'), hlog'⟩

/-- **The executors agree.**  Up to 128 tasks, each of which is `Ready` at some
time, are spawned on a new executor.  If their futures call their own waker
once in each poll that returns `Pending`, `run_ready_tasks` returns, nothing
panics on the way, and the polls and their results are those of the simple
executor. -/
theorem executors_agree (tasks : List Task) (hlen : tasks.length ≤ MAX_TASKS)
    (hready : ∀ t ∈ tasks, ∃ n, t.ReadyOn n) (hids : (tasks.map Task.id).Nodup)
    (acts : List Action) (m : Machine) (hreach : exec Machine.step .init acts = some m)
    (hpc : m.pc = .caller) (hnew : m.toExecutor = .new) (hmade : ∀ t ∈ tasks, t.id ∈ m.unspawned)
    (task : TaskId → Task) (htask : ∀ t ∈ tasks, task t.id = t) :
    ∃ (m₁ : Machine) (d : Driven) (e : SimpleExecutor),
      exec Machine.step m (spawns (tasks.map Task.id) ++ [Action.call false]) = some m₁ ∧
      Driven.Returns ⟨m₁, task, []⟩ d ∧
      (∀ d', Relation.ReflTransGen (fun a b => Driven.next a = some b) ⟨m₁, task, []⟩ d' →
        ∀ p, d'.machine.pc ≠ .panicked p) ∧
      (SimpleExecutor.spawnAll tasks).Runs e ∧ d.log = e.log.map fun p => (p.id, p.result) := by
  have hint := interrupts_of_caller hreach hpc
  have htasks : m.tasks = ∅ := congrArg Executor.tasks hnew
  have hcache : m.wakerCache = fun _ => none := congrArg Executor.wakerCache hnew
  have hqueue : m.taskQueue.elems = [] := congrArg (fun e => e.taskQueue.elems) hnew
  obtain ⟨m', hspawns, hpc', hint', hcache', hlive, -, helems⟩ := exec_spawns (tasks.map Task.id) hpc
    (by simpa using hmade) (by simp [htasks]) hids
    (by rw [hqueue, List.length_map, List.length_nil, Nat.zero_add]; exact hlen)
  have hcall : m'.step (.call false) = some { m' with pc := .loopHead false } := by
    rw [Machine.step, if_pos hpc']
  have hentries : (SimpleExecutor.spawnAll tasks).taskQueue.map (·.2) = tasks := by
    rw [SimpleExecutor.spawnAll_eq]
    refine List.ext_getElem (by simp) ?_
    intro i hi hi'
    simp
  have hmirrors : Mirrors ⟨{ m' with pc := .loopHead false }, task, []⟩ tasks := by
    refine ⟨rfl, hint'.trans hint, ?_, ?_, htask, ?_, hids⟩
    · exact helems.trans (by rw [hqueue, List.nil_append])
    · intro t ht
      exact hlive t.id (List.mem_map_of_mem ht)
    · intro id waker hsome
      rw [show m'.wakerCache = fun _ => none from hcache'.trans hcache] at hsome
      cases hsome
  obtain ⟨e, hruns⟩ := SimpleExecutor.exists_runs (e := SimpleExecutor.spawnAll tasks) (by
    intro entry hentry
    exact hready entry.2 (hentries ▸ List.mem_map_of_mem hentry))
  obtain ⟨d, hreturns, hlog⟩ := returns_of_runs hruns (by rw [hentries]; exact hmirrors)
    (by rw [SimpleExecutor.spawnAll_eq]; rfl)
  refine ⟨_, d, e, exec_append_eq_some.mpr ⟨m', hspawns, exec_cons_eq_some.mpr ⟨_, hcall, rfl⟩⟩,
    hreturns, ?_, hruns, hlog⟩
  intro d' hreach p hpanic
  have hreturns' := hreturns.of_reaches (fun _ => Driven.next_caller) hreach
  obtain ⟨d'', hnext⟩ := hreturns'.exists_next (by rw [hpanic]; simp)
  rw [Driven.next_panicked hpanic] at hnext
  cases hnext

theorem executors_agree_two : ∃ (m₁ : Machine) (d : Driven) (e : SimpleExecutor),
    exec Machine.step .init ([Action.newTask, .newTask] ++ (spawns [0, 1] ++ [Action.call false]))
      = some m₁ ∧
    Driven.Returns ⟨m₁, fun id => .readyAt id (2 - id), []⟩ d ∧
    (SimpleExecutor.spawnAll [.readyAt 0 2, .readyAt 1 1]).Runs e ∧
    d.log = e.log.map fun p => (p.id, p.result) := by
  obtain ⟨m₁, d, e, hspawns, hreturns, -, hruns, hlog⟩ :=
    executors_agree [.readyAt 0 2, .readyAt 1 1] (by decide) (by
      intro t ht
      rcases List.mem_pair.mp ht with rfl | rfl
      · exact ⟨2, Task.readyOn_readyAt 0 (by decide)⟩
      · exact ⟨1, Task.readyOn_readyAt 1 (by decide)⟩) (by decide) [.newTask, .newTask]
      { Machine.init with nextId := 2, unspawned := [1, 0] } rfl rfl rfl (by simp [Task.readyAt])
      (fun id => .readyAt id (2 - id)) (by simp [Task.readyAt])
  exact ⟨m₁, d, e, hspawns, hreturns, hruns, hlog⟩

end Executor
