/-
The simple executor: `task/simple_executor.rs`, with `Task` of `task/mod.rs`.

A future is known by what its polls return, the first, the second and so on;
its waker does nothing here.  The place at which a task was spawned and the log
of the polls are there to speak about, and no code reads them.

* `runs_of_serves` — the executor serves its queue in turn, where a task comes
  back as often as its future returns `Pending`;
* `simpleExecutor_completes` — `run` returns, polls each task up to its first
  `Ready`, and completes the tasks in the order of their numbers of polls, and
  of their places among equals.
-/
import ZuluOs.Executor
import ZuluOs.RoundRobin

open Transition

namespace Executor

/-- `Poll<()>` -/
inductive Poll where
  | ready
  | pending
deriving DecidableEq

/-- `Task`; `future n` is what the `n`-th poll returns, and `polls` is the
number of those that were made. -/
structure Task where
  id : TaskId
  future : ℕ → Poll
  polls : ℕ

namespace Task

/-- `Task::poll` -/
def poll (t : Task) : Poll × Task := (t.future (t.polls + 1), { t with polls := t.polls + 1 })

/-- The task first returns `Ready` on the `n`-th poll from now. -/
structure ReadyOn (t : Task) (n : ℕ) : Prop where
  pos : 0 < n
  ready : t.future (t.polls + n) = .ready
  pending : ∀ k, 0 < k → k < n → t.future (t.polls + k) = .pending

theorem ReadyOn.poll_one {t : Task} (h : t.ReadyOn 1) : t.poll.1 = .ready := h.ready

theorem ReadyOn.poll_succ {t : Task} {n : ℕ} (h : t.ReadyOn (n + 2)) :
    t.poll.1 = .pending ∧ t.poll.2.ReadyOn (n + 1) := by
  refine ⟨h.pending 1 (by omega) (by omega), ?_⟩
  have hshift : ∀ k, t.polls + 1 + k = t.polls + (k + 1) := by omega
  constructor
  · omega
  · show t.future (t.polls + 1 + (n + 1)) = .ready
    rw [hshift]
    exact h.ready
  · intro k hpos hlt
    show t.future (t.polls + 1 + k) = .pending
    rw [hshift]
    exact h.pending (k + 1) (by omega) (by omega)

/-- A task that is new and first returns `Ready` on its `n`-th poll. -/
def readyAt (id : TaskId) (n : ℕ) : Task := ⟨id, fun k => if k = n then .ready else .pending, 0⟩

theorem readyOn_readyAt (id : TaskId) {n : ℕ} (hn : 0 < n) : (readyAt id n).ReadyOn n where
  pos := hn
  ready := by simp [readyAt]
  pending := by
    intro k _ hlt
    simp [readyAt, Nat.ne_of_lt hlt]

end Task

/-- A poll that was made: of which task, and what it returned. -/
structure Polled where
  position : ℕ
  id : TaskId
  result : Poll
deriving DecidableEq

/-- `SimpleExecutor` -/
structure SimpleExecutor where
  /-- Each task with the place at which it was spawned. -/
  taskQueue : List (ℕ × Task)
  spawned : ℕ
  log : List Polled

namespace SimpleExecutor

/-- `SimpleExecutor::new` -/
def new : SimpleExecutor := ⟨[], 0, []⟩

/-- `SimpleExecutor::spawn` -/
def spawn (e : SimpleExecutor) (task : Task) : SimpleExecutor :=
  { e with taskQueue := e.taskQueue ++ [(e.spawned, task)], spawned := e.spawned + 1 }

/-- One turn of the loop of `run`, `none` where the queue is empty. -/
def turn (e : SimpleExecutor) : Option SimpleExecutor :=
  match e.taskQueue with
  | [] => none
  | (position, task) :: rest =>
    match task.poll with
    | (.ready, _) =>
      some { e with taskQueue := rest, log := e.log ++ [⟨position, task.id, .ready⟩] }
    | (.pending, task') =>
      some { e with
        taskQueue := rest ++ [(position, task')]
        log := e.log ++ [⟨position, task.id, .pending⟩] }

theorem turn_ready {e : SimpleExecutor} {position : ℕ} {task : Task} {rest : List (ℕ × Task)}
    (hq : e.taskQueue = (position, task) :: rest) (hpoll : task.poll.1 = .ready) :
    e.turn =
      some { e with taskQueue := rest, log := e.log ++ [⟨position, task.id, .ready⟩] } := by
  have hpoll : task.poll = (.ready, task.poll.2) := Prod.ext hpoll rfl
  rw [turn, hq]
  dsimp only
  rw [hpoll]

theorem turn_pending {e : SimpleExecutor} {position : ℕ} {task : Task} {rest : List (ℕ × Task)}
    (hq : e.taskQueue = (position, task) :: rest) (hpoll : task.poll.1 = .pending) :
    e.turn = some { e with
      taskQueue := rest ++ [(position, task.poll.2)]
      log := e.log ++ [⟨position, task.id, .pending⟩] } := by
  have hpoll : task.poll = (.pending, task.poll.2) := Prod.ext hpoll rfl
  rw [turn, hq]
  dsimp only
  rw [hpoll]

/-- `SimpleExecutor::run`, which returns with `e'`. -/
def Runs (e e' : SimpleExecutor) : Prop := RunsUntil turn (fun e => e.taskQueue = []) e e'

/-- A new executor with the tasks spawned in order. -/
def spawnAll (tasks : List Task) : SimpleExecutor := tasks.foldl spawn new

theorem spawnAll_eq (tasks : List Task) :
    spawnAll tasks = ⟨tasks.mapIdx fun i t => (i, t), tasks.length, []⟩ := by
  have hfold : ∀ (tasks : List Task) (e : SimpleExecutor), tasks.foldl spawn e =
      ⟨e.taskQueue ++ tasks.mapIdx fun i t => (e.spawned + i, t), e.spawned + tasks.length,
        e.log⟩ := by
    intro tasks
    induction tasks with
    | nil =>
      intro e
      simp
    | cons t tasks ih =>
      intro e
      rw [List.foldl_cons, ih, List.mapIdx_cons, spawn, List.length_cons]
      simp only [List.append_assoc, List.singleton_append, Nat.add_zero, Nat.add_assoc,
        Nat.add_comm 1]
  rw [spawnAll, hfold]
  simp [new]

/-- A task in the queue as a client that comes back `k` times. -/
def Client (entry : ℕ × Task) (client : (ℕ × TaskId) × ℕ) : Prop :=
  client.1 = (entry.1, entry.2.id) ∧ entry.2.ReadyOn (client.2 + 1)

/-- A turn of a client as a poll. -/
def polledOf (served : (ℕ × TaskId) × Bool) : Polled :=
  ⟨served.1.1, served.1.2, if served.2 then .ready else .pending⟩

/-- The executor serves its queue in turn. -/
theorem runs_of_serves {clients : List ((ℕ × TaskId) × ℕ)} {served : List ((ℕ × TaskId) × Bool)}
    (h : RoundRobin.Serves clients served) {e : SimpleExecutor}
    (hqueue : List.Forall₂ Client e.taskQueue clients) :
    e.Runs { e with taskQueue := [], log := e.log ++ served.map polledOf } := by
  induction h generalizing e with
  | nil =>
    obtain ⟨queue, spawned, log⟩ := e
    obtain rfl := List.forall₂_nil_right_iff.mp hqueue
    rw [List.map_nil, List.append_nil]
    exact .here rfl
  | @done x clients served _ ih =>
    obtain ⟨⟨position, task⟩, rest, ⟨rfl, hready⟩, hrest, hq⟩ :=
      List.forall₂_cons_right_iff.mp hqueue
    refine .step (by simp [hq]) (turn_ready hq hready.poll_one) ?_
    have hruns := ih (e := { e with
      taskQueue := rest
      log := e.log ++ [⟨position, task.id, .ready⟩] }) hrest
    dsimp only at hruns
    rwa [List.append_assoc] at hruns
  | @again x k clients served _ ih =>
    obtain ⟨⟨position, task⟩, rest, ⟨rfl, hready⟩, hrest, hq⟩ :=
      List.forall₂_cons_right_iff.mp hqueue
    obtain ⟨hpending, hready⟩ := hready.poll_succ
    refine .step (by simp [hq]) (turn_pending hq hpending) ?_
    have hruns := ih (e := { e with
      taskQueue := rest ++ [(position, task.poll.2)]
      log := e.log ++ [⟨position, task.id, .pending⟩] })
      (List.rel_append hrest (.cons ⟨rfl, hready⟩ .nil))
    dsimp only at hruns
    rwa [List.append_assoc] at hruns

theorem exists_clients {queue : List (ℕ × Task)} (h : ∀ entry ∈ queue, ∃ n, entry.2.ReadyOn n) :
    ∃ clients, List.Forall₂ Client queue clients := by
  induction queue with
  | nil => exact ⟨[], .nil⟩
  | cons entry queue ih =>
    obtain ⟨n, hn⟩ := h entry List.mem_cons_self
    obtain ⟨clients, hclients⟩ := ih fun other hother => h other (List.mem_cons_of_mem _ hother)
    refine ⟨((entry.1, entry.2.id), n - 1) :: clients, .cons ⟨rfl, ?_⟩ hclients⟩
    rwa [Nat.sub_add_cancel hn.pos]

/-- `run` returns if every task is `Ready` at some time. -/
theorem exists_runs {e : SimpleExecutor} (h : ∀ entry ∈ e.taskQueue, ∃ n, entry.2.ReadyOn n) :
    ∃ e', e.Runs e' := by
  obtain ⟨clients, hclients⟩ := exists_clients h
  obtain ⟨served, hserves⟩ := RoundRobin.exists_serves clients
  exact ⟨_, runs_of_serves hserves hclients⟩

/-- The places of the tasks that completed, in the order in which they did. -/
def completed (log : List Polled) : List ℕ :=
  (log.filter fun p => p.result = .ready).map Polled.position

theorem completed_map_polledOf (served : List ((ℕ × TaskId) × Bool)) :
    completed (served.map polledOf) = (RoundRobin.finished served).map (·.1) := by
  rw [completed, RoundRobin.finished, List.filter_map, List.map_map, List.map_map]
  congr 1
  refine List.filter_congr ?_
  rintro ⟨x, _ | _⟩ - <;> rfl

/-- The results of the polls of the task at place `i`. -/
def resultsOf (i : ℕ) (log : List Polled) : List Poll :=
  (log.filter fun p => p.position = i).map Polled.result

theorem resultsOf_map_polledOf (i : ℕ) (served : List ((ℕ × TaskId) × Bool)) :
    resultsOf i (served.map polledOf) = ((served.filter fun s => s.1.1 = i).map (·.2)).map
      fun b => if b then Poll.ready else .pending := by
  rw [resultsOf, List.filter_map, List.map_map, List.map_map]
  rfl

/-- The tasks as clients, where the task at place `i` needs `n i` polls. -/
def clientsOf (n : ℕ → ℕ) (tasks : List Task) : List ((ℕ × TaskId) × ℕ) :=
  tasks.mapIdx fun i t => ((i, t.id), n i - 1)

theorem forall₂_clientsOf {n : ℕ → ℕ} {tasks : List Task}
    (h : ∀ (i : ℕ) (t : Task), tasks[i]? = some t → t.ReadyOn (n i)) :
    List.Forall₂ Client (tasks.mapIdx fun i t => (i, t)) (clientsOf n tasks) := by
  rw [List.forall₂_iff_get]
  refine ⟨by simp [clientsOf], ?_⟩
  intro i hi hi'
  rw [List.length_mapIdx] at hi
  have hready := h i tasks[i] (List.getElem?_eq_getElem hi)
  have hpos := hready.pos
  have hpolls : n i - 1 + 1 = n i := by omega
  refine ⟨by simp [clientsOf], ?_⟩
  simpa [clientsOf, hpolls] using hready

theorem map_position_clientsOf (n : ℕ → ℕ) (tasks : List Task) :
    (clientsOf n tasks).map (fun c => c.1.1) = List.range tasks.length := by
  refine List.ext_getElem (by simp [clientsOf]) ?_
  intro i hi hi'
  simp [clientsOf]

end SimpleExecutor

/-- The lexicographic order of numbers of polls and places. -/
def Precedes (n : ℕ → ℕ) (i j : ℕ) : Prop := n i < n j ∨ n i = n j ∧ i < j

instance (n : ℕ → ℕ) (i j : ℕ) : Decidable (Precedes n i j) := inferInstanceAs (Decidable (_ ∨ _))

open SimpleExecutor in
theorem predicts_clientsOf {n : ℕ → ℕ} {tasks : List Task}
    (h : ∀ (i : ℕ) (t : Task), tasks[i]? = some t → t.ReadyOn (n i)) :
    RoundRobin.Serves.Predicts (fun x y => Precedes n x.1 y.1) (clientsOf n tasks) := by
  rw [RoundRobin.Serves.Predicts, List.pairwise_iff_getElem]
  intro i j hi hj hij
  rw [clientsOf, List.length_mapIdx] at hi hj
  have hposi := (h i tasks[i] (List.getElem?_eq_getElem hi)).pos
  have hposj := (h j tasks[j] (List.getElem?_eq_getElem hj)).pos
  simp only [clientsOf, List.getElem_mapIdx, Precedes]
  split <;> omega

open SimpleExecutor in
/-- **The simple executor completes every task.**  If the task at place `i`
first returns `Ready` on its `n i`-th poll, `run` returns; each task was polled
`n i` times, and only the last poll returned `Ready`; nothing else was polled;
and the tasks completed in the order of `(n i, i)`. -/
theorem simpleExecutor_completes (tasks : List Task) (n : ℕ → ℕ)
    (h : ∀ (i : ℕ) (t : Task), tasks[i]? = some t → t.ReadyOn (n i)) :
    ∃ e, (spawnAll tasks).Runs e ∧
      (∀ i < tasks.length,
        resultsOf i e.log = List.replicate (n i - 1) Poll.pending ++ [Poll.ready]) ∧
      (∀ p ∈ e.log, ∃ t, tasks[p.position]? = some t ∧ t.id = p.id) ∧
      (completed e.log).Perm (List.range tasks.length) ∧
      (completed e.log).Pairwise (Precedes n) := by
  obtain ⟨served, hserves⟩ := RoundRobin.exists_serves (clientsOf n tasks)
  have hruns := runs_of_serves hserves (e := spawnAll tasks) (by
    rw [spawnAll_eq]
    exact forall₂_clientsOf h)
  have hlog : (spawnAll tasks).log ++ served.map polledOf = served.map polledOf := by
    rw [spawnAll_eq, List.nil_append]
  rw [hlog] at hruns
  refine ⟨_, hruns, ?_, ?_, ?_, ?_⟩
  · intro i hi
    have hmem : ((i, tasks[i].id), n i - 1) ∈ clientsOf n tasks :=
      List.mem_mapIdx.mpr ⟨i, hi, rfl⟩
    have hnodup : ((clientsOf n tasks).map fun c => c.1.1).Nodup := by
      rw [map_position_clientsOf]
      exact List.nodup_range
    dsimp only
    rw [resultsOf_map_polledOf, hserves.turns_eq Prod.fst hnodup hmem]
    simp
  · intro p hp
    obtain ⟨⟨x, b⟩, hx, rfl⟩ := List.mem_map.mp hp
    obtain ⟨c, hc, rfl⟩ := List.mem_map.mp (hserves.mem_queue hx)
    obtain ⟨i, hi, rfl⟩ := List.mem_mapIdx.mp hc
    exact ⟨tasks[i], List.getElem?_eq_getElem hi, rfl⟩
  · dsimp only
    rw [completed_map_polledOf, ← map_position_clientsOf n tasks]
    have hperm := hserves.finished_perm.map Prod.fst
    rwa [List.map_map] at hperm
  · dsimp only
    rw [completed_map_polledOf, List.pairwise_map]
    exact hserves.finished_pairwise (predicts_clientsOf h)

open SimpleExecutor in
theorem simpleExecutor_completes_two : ∃ e, (spawnAll [.readyAt 7 2, .readyAt 8 1]).Runs e ∧
    resultsOf 0 e.log = [.pending, .ready] ∧ resultsOf 1 e.log = [.ready] ∧
    (completed e.log).Perm [0, 1] ∧ (completed e.log).Pairwise (Precedes fun i => 2 - i) := by
  obtain ⟨e, hruns, hresults, -, hperm, hpairwise⟩ :=
    simpleExecutor_completes [.readyAt 7 2, .readyAt 8 1] (fun i => 2 - i) (by
      intro i t ht
      match i with
      | 0 => exact Option.some.inj ht ▸ Task.readyOn_readyAt 7 (by decide)
      | 1 => exact Option.some.inj ht ▸ Task.readyOn_readyAt 8 (by decide)
      | i + 2 => cases ht)
  exact ⟨e, hruns, hresults 0 (by decide), hresults 1 (by decide), hperm, hpairwise⟩

end Executor
