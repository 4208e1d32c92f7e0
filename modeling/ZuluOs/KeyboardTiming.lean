/-
The keyboard pipeline under load: how full the task queue gets, and how long a
scancode waits.

A poll of the task can leave more than one wake behind.  A scancode that comes
in after `WAKER.register`, before the second `pop` or between that and
`WAKER.take`, wakes the task, which is running; if the second `pop` has found a
scancode, `WAKER.take` then finds the slot empty, the task registers its waker
once more, and the next scancode can do the same.  Nothing else makes the queue
grow: every other wake uses up the one registration of a poll, and the poll was
popped for it.

* `load_step` — ids in the queue, wakers in the slot and registrations to come
  only grow where `WAKER.take` finds the slot empty;
* `taskQueue_overflows_iff` — so 128 times fill the queue, and fewer do not;
* `Reads.step` — each step of the thread brings the next scancode closer, and no
  other step takes it away;
* `read_in_time` — in `run`, what has been accepted is yielded within 261 steps
  of the thread.
-/
import ZuluOs.ExecutorFairness
import ZuluOs.Keyboard

open Transition Executor

namespace Keyboard

/-- The poll is going to register its waker, if it finds no scancode. -/
def StreamPc.claims : StreamPc → ℕ
  | starting => 1
  | firstPop => 1
  | register => 1
  | yield _ => 1
  | _ => 0

theorem StreamPc.claims_le (pc : StreamPc) : pc.claims ≤ 1 := by
  cases pc <;> simp [claims]

namespace System

/-! ### How full the task queue gets -/

/-- A poll is to come, or under way and not past its registration; the panic
stands for the id that did not fit. -/
def claims (s : System) : ℕ :=
  match s.executor.pc with
  | .popped _ _ => 1
  | .polling _ _ _ => s.pc.claims
  | .panicked _ => 1
  | _ => 0

/-- The ids in the task queue and those that may still be put there. -/
def load (s : System) : ℕ :=
  s.executor.taskQueue.elems.length + s.waker.toList.length + s.claims

/-- The scancode that the second `pop` has found, where one has come in after
`WAKER.register`, up to this `WAKER.take`, and taken the waker. -/
def raced (s : System) : Action → Option UInt8
  | .stream =>
    match s.pc, s.waker with
    | .take b, none => some b
    | _, _ => none
  | _ => none

theorem Delivered.not_spawning {s : System} (hI : Delivered s) (id : TaskId) :
    s.executor.pc ≠ .spawning id := by
  intro hpc
  obtain ⟨r, hpopped⟩ := hI.alone.inHand id (by rw [hpc]; rfl)
  rw [hpc] at hpopped
  cases hpopped

/-- The steps of the executor. -/
theorem load_executor {s : System} (hI : Delivered s) {a : Executor.Action} {e : Machine}
    (ha : ownAction a = true) (h : Machine.Step s.executor a e) (pc : StreamPc) :
    load { s with executor := e, pc := pc } ≤ s.load := by
  cases h with
  | newTask | spawn | spawnTwice | finishReady | finishPending | wake => cases ha
  | pushed hspawn => exact absurd hspawn (hI.not_spawning _)
  | queueFull hcause =>
    rcases hcause with ⟨-, hspawn⟩ | ⟨w, -, rfl, -⟩
    · exact absurd hspawn (hI.not_spawning _)
    · cases ha
  | remove hready => exact absurd hready (hI.alone.notReady _ _)
  | pop hhead hq => simp [load, claims, hhead, ArrayQueue.pop_eq_some.mp hq]
  | @popNone r hhead hq => cases r <;> simp [load, claims, hhead]
  | startPoll hpopped hid => simpa [load, claims, hpopped, Machine.startPoll] using pc.claims_le
  | alreadyStopped hpopped hid => simp [load, claims, hpopped]
  | call hpc | disable hpc | isEmpty hpc | isNotEmpty hpc | enableAndHlt hpc | enable hpc
    | interrupt hpc => simp [load, claims, hpc]

/-- Both pops of `poll_next`. -/
theorem load_popScancode {s : System} {r : Bool} {id : TaskId} {w : TaskWaker}
    (hpoll : s.executor.pc = .polling r id w) {found : UInt8 → StreamPc} {empty : StreamPc}
    (hfound : ∀ b, (found b).claims ≤ s.pc.claims) (hempty : empty.claims ≤ s.pc.claims)
    {q : ArrayQueue UInt8 128} (hq : s.scancodeQueue = some q) :
    load (s.popScancode found empty) ≤ s.load := by
  rcases popScancode_cases hq found empty with ⟨b, q', -, heq⟩ | ⟨-, heq⟩ <;> rw [heq]
  · simpa [load, claims, hpoll] using hfound b
  · simpa [load, claims, hpoll] using hempty

/-- The steps of the task. -/
theorem load_stream {s s' : System} (hI : Delivered s) {r : Bool} {id : TaskId} {w : TaskWaker}
    (hpoll : s.executor.pc = .polling r id w) (h : s.stream w = some s') :
    s'.load ≤ s.load + (s.raced .stream).toList.length := by
  have hqueue : s.pc ≠ .unstarted → s.pc ≠ .starting → ∃ q, s.scancodeQueue = some q := by
    intro hunstarted hstarting
    rw [← Option.ne_none_iff_exists']
    intro hnone
    exact (hI.started.mp hnone).elim hunstarted hstarting
  cases hpc : s.pc <;> rw [System.stream, hpc] at h
  case starting =>
    obtain rfl := Option.some.inj h
    simp [load, claims, hpoll, hpc, StreamPc.claims]
  case firstPop =>
    obtain rfl := Option.some.inj h
    obtain ⟨q, hq⟩ := hqueue (by simp [hpc]) (by simp [hpc])
    exact (load_popScancode hpoll (by simp [hpc, StreamPc.claims])
      (by simp [hpc, StreamPc.claims]) hq).trans (Nat.le_add_right _ _)
  case register =>
    -- the slot has room for one waker, whatever it held
    obtain rfl := Option.some.inj h
    simp [load, claims, hpoll, hpc, StreamPc.claims]
    omega
  case secondPop =>
    obtain rfl := Option.some.inj h
    obtain ⟨q, hq⟩ := hqueue (by simp [hpc]) (by simp [hpc])
    exact (load_popScancode hpoll (by simp [hpc, StreamPc.claims])
      (by simp [hpc, StreamPc.claims]) hq).trans (Nat.le_add_right _ _)
  case take b =>
    -- the waker is taken back, unless a scancode has been faster
    obtain rfl := Option.some.inj h
    cases hw : s.waker <;> simp [load, claims, hpoll, hpc, hw, StreamPc.claims, raced]
  case yield b =>
    obtain rfl := Option.some.inj h
    simp [load, claims, hpoll, hpc, StreamPc.claims]
  case pending =>
    obtain ⟨e, he, rfl⟩ := Option.map_eq_some_iff.mp h
    rw [Machine.step, hpoll] at he
    obtain rfl := Option.some.inj he
    simp [load, claims, hpoll, hpc, StreamPc.claims]
  case unstarted => cases h
  case suspended => cases h
  case panicked => cases h

theorem wakeTask_cases (e : Machine) (w : TaskWaker) :
    (∃ q, q.elems = e.taskQueue.elems ++ [w.id] ∧
      e.wakeTask w = { e with taskQueue := q, woken := insert w.id e.woken }) ∨
    e.taskQueue.elems.length = MAX_TASKS ∧ (e.wakeTask w).taskQueue = e.taskQueue ∧
      (e.wakeTask w).pc = .panicked .queueFull := by
  unfold Machine.wakeTask Machine.push
  split
  · exact .inl ⟨_, (ArrayQueue.push_eq_some.mp ‹_›).2, rfl⟩
  · exact .inr ⟨ArrayQueue.push_eq_none.mp ‹_›, rfl, rfl⟩

/-- `add_scancode` -/
theorem load_addScancode (s : System) (b : UInt8) : (s.addScancode b).load ≤ s.load := by
  rcases addScancode_cases s b with heq | ⟨q, q', hq, hq', ⟨-, heq⟩ | ⟨w, hw, heq⟩⟩ <;> rw [heq]
  · rfl
  · -- a waker in the slot becomes an id in the queue, or the panic
    rcases wakeTask_cases s.executor w with ⟨q, hq, hwake⟩ | ⟨-, hqueue, hpc⟩
    · simp [load, claims, hw, hwake, hq]
    · simp [load, claims, hw, hqueue, hpc]

theorem popScancode_executor (s : System) (found : UInt8 → StreamPc) (empty : StreamPc) :
    (s.popScancode found empty).executor = s.executor := by
  unfold popScancode
  split
  · rfl
  · split <;> rfl

/-- A step of the task leaves the executor alone or returns to it. -/
theorem stream_executor {s s' : System} {w : TaskWaker} (h : s.stream w = some s') :
    s'.executor = s.executor ∨ s.executor.step (.finishPoll false) = some s'.executor := by
  cases hpc : s.pc <;> rw [System.stream, hpc] at h
  case pending =>
    obtain ⟨e, he, rfl⟩ := Option.map_eq_some_iff.mp h
    exact .inr he
  case firstPop | secondPop =>
    obtain rfl := Option.some.inj h
    exact .inl (popScancode_executor s _ _)
  case starting | register | take | yield =>
    obtain rfl := Option.some.inj h
    exact .inl rfl
  case unstarted | suspended | panicked => cases h

/-- Only `add_scancode` finds the task queue full. -/
theorem length_of_overflow {s s' : System} {a : Action} (hI : Delivered s)
    (h : s.step a = some s') (hfull : s'.executor.pc = .panicked .queueFull) :
    s'.executor.taskQueue.elems.length = MAX_TASKS := by
  have hbefore := not_overflowed h
  cases a with
  | executor a =>
    rw [System.step] at h
    split at h
    · obtain ⟨e, he, rfl⟩ := Option.map_eq_some_iff.mp h
      cases Machine.Step.of_step he with
      | queueFull hcause =>
        rcases hcause with ⟨-, hspawn⟩ | ⟨w, -, rfl, -⟩
        · exact absurd hspawn (hI.not_spawning _)
        · cases ‹ownAction _ = true›
      | @popNone r => cases r <;> cases hfull
      | newTask | wake => exact absurd hfull hbefore
      | _ => cases hfull
    · cases h
  | stream =>
    rw [System.step] at h
    split at h
    · rename_i hpoll
      rcases stream_executor h with heq | hstep
      · exact absurd (heq ▸ hfull) hbefore
      · rw [Machine.step, hpoll] at hstep
        rw [← Option.some.inj hstep] at hfull
        cases hfull
    · cases h
  | scancode b =>
    rw [System.step] at h
    split at h
    · obtain rfl := Option.some.inj h
      rcases addScancode_cases s b with heq | ⟨q, q', -, -, ⟨-, heq⟩ | ⟨w, -, heq⟩⟩ <;>
        rw [heq] at hfull ⊢
      · exact absurd hfull hbefore
      · exact absurd hfull hbefore
      · rcases wakeTask_cases s.executor w with ⟨q, -, hwake⟩ | ⟨hlen, hqueue, -⟩
        · rw [hwake] at hfull
          exact absurd hfull hbefore
        · exact hqueue ▸ hlen
    · cases h

/-- The system is as it should be until the task queue is found full. -/
structure Sound (s : System) : Prop where
  delivered : s.executor.pc ≠ .panicked .queueFull → Delivered s
  full : s.executor.pc = .panicked .queueFull →
    s.executor.taskQueue.elems.length = MAX_TASKS

theorem Sound.init : Sound init := ⟨fun _ => .init, nofun⟩

/-- **A step raises the load** only if it is a `WAKER.take` before which a scancode
has come in and taken the waker. -/
theorem load_step {s s' : System} {a : Action} (hI : Sound s) (h : s.step a = some s') :
    Sound s' ∧ s'.load ≤ s.load + (s.raced a).toList.length := by
  have hI : Delivered s := hI.delivered (not_overflowed h)
  refine ⟨⟨hI.step h, length_of_overflow hI h⟩, ?_⟩
  cases a with
  | executor a =>
    rw [System.step] at h
    split at h
    · obtain ⟨e, he, rfl⟩ := Option.map_eq_some_iff.mp h
      exact load_executor hI ‹_› (.of_step he) _
    · cases h
  | stream =>
    rw [System.step] at h
    split at h
    · exact load_stream hI ‹_› h
    · cases h
  | scancode b =>
    rw [System.step] at h
    split at h
    · obtain rfl := Option.some.inj h
      exact load_addScancode s b
    · cases h

theorem load_run {s : System} {acts : List Action} (h : exec System.step .init acts = some s) :
    Sound s ∧ s.load ≤ 1 + (collect System.step System.raced .init acts).length :=
  collect_bound load (fun _ _ _ => load_step) .init h

end System

/-- A scancode that comes in between `WAKER.register` and the second `pop`,
with the steps of the task around it. -/
def racedKey : List Action :=
  [.stream, .stream, .scancode 0x1e, .stream, .stream, .stream]

/-- 128 such scancodes in one poll, and one more. -/
def overflowRun : List Action :=
  [.executor (.call true), .executor .advance, .executor .advance, .stream]
    ++ (List.replicate 128 racedKey).flatten ++ [.stream, .stream, .scancode 0x1e]

/-- **How full the task queue gets.**  It holds at most one id more than there were
calls of `WAKER.take` that found the slot empty, because a scancode had come in
since `WAKER.register`; and `n` of them are enough to find it full iff `128 ≤ n`. -/
theorem taskQueue_overflows_iff :
    (∀ acts s, exec System.step .init acts = some s → s.executor.taskQueue.elems.length
      ≤ 1 + (collect System.step System.raced .init acts).length) ∧
    ∀ n, (∃ acts s, exec System.step .init acts = some s ∧
        s.executor.pc = .panicked .queueFull ∧
        (collect System.step System.raced .init acts).length ≤ n) ↔ MAX_TASKS ≤ n := by
  refine ⟨fun acts s h => ?_, fun n => ⟨?_, fun hn => ?_⟩⟩
  · have hle := (System.load_run h).2
    rw [System.load] at hle
    omega
  · rintro ⟨acts, s, h, hfull, hn⟩
    obtain ⟨hsound, hle⟩ := System.load_run h
    have hlen := hsound.full hfull
    have hclaims : s.claims = 1 := by rw [System.claims, hfull]
    rw [System.load] at hle
    omega
  · have hrun : (exec System.step .init overflowRun).map (·.executor.pc)
        = some (.panicked .queueFull) := by decide +kernel
    have hraced : (collect System.step System.raced .init overflowRun).length = MAX_TASKS := by
      decide +kernel
    obtain ⟨s, hs, hfull⟩ := Option.map_eq_some_iff.mp hrun
    exact ⟨overflowRun, s, hs, hfull, hraced.trans_le hn⟩

/-! ### How long a scancode waits -/

/-- The step is one of the executor's thread. -/
def Action.own : Action → Bool
  | executor a => a.own
  | stream => true
  | scancode _ => false

namespace System

/-- Every id that is queued or was popped is that of the task. -/
structure OneId (e : Machine) : Prop where
  queued : ∀ id ∈ e.taskQueue.elems, id = 0
  popped : ∀ r id, e.pc = .popped r id → id = 0

/-- The executor makes at most one step, and is only woken for the task. -/
theorem Delivered.executor_step {s s' : System} {a : Action} (hI : Delivered s)
    (h : s.step a = some s') : s'.executor = s.executor ∨
      ∃ b, Machine.Step s.executor b s'.executor ∧ ∀ w, b = .wake w → w = ⟨0⟩ := by
  cases a with
  | executor a =>
    rw [System.step] at h
    split at h
    · obtain ⟨e, he, rfl⟩ := Option.map_eq_some_iff.mp h
      refine .inr ⟨a, .of_step he, ?_⟩
      rintro w rfl
      cases ‹ownAction _ = true›
    · cases h
  | stream =>
    rw [System.step] at h
    split at h
    · rcases stream_executor h with heq | hstep
      · exact .inl heq
      · refine .inr ⟨_, .of_step hstep, fun w hw => ?_⟩
        cases hw
    · cases h
  | scancode b =>
    rw [System.step] at h
    split at h
    · obtain ⟨hint, hrun⟩ := ‹_ ∧ _›
      obtain rfl := Option.some.inj h
      rcases addScancode_cases s b with heq | ⟨q, q', -, -, ⟨-, heq⟩ | ⟨w, hw, heq⟩⟩ <;> rw [heq]
      · exact .inl rfl
      · exact .inl rfl
      · obtain ⟨rfl, hmem⟩ := hI.slot w hw
        refine .inr ⟨.wake ⟨0⟩, .of_step ?_, fun w h => (Executor.Action.wake.inj h).symm⟩
        rw [Machine.step, if_pos ⟨hmem, hint, hrun⟩]
    · cases h

theorem OneId.step {e e' : Machine} {a : Executor.Action} (hI : OneId e)
    (h : Machine.Step e a e') (hspawn : ∀ id, e.pc ≠ .spawning id)
    (hwake : ∀ w, a = .wake w → w = ⟨0⟩) (hfull : e'.pc ≠ .panicked .queueFull) : OneId e' := by
  cases h with
  | pushed hpc => exact absurd hpc (hspawn _)
  | queueFull _ _ _ _ hpc => exact absurd hpc hfull
  | pop hpc hq =>
    have hmem := ArrayQueue.pop_eq_some.mp hq
    refine ⟨fun id hid => hI.queued id (hmem ▸ List.mem_cons_of_mem _ hid), fun r id h => ?_⟩
    obtain ⟨-, rfl⟩ := Pc.popped.inj h
    exact hI.queued _ (hmem ▸ List.mem_cons_self)
  | @popNone r => cases r <;> exact ⟨hI.queued, nofun⟩
  | wake hw hint hrun hq =>
    refine ⟨fun id hid => ?_, hI.popped⟩
    rw [(ArrayQueue.push_eq_some.mp hq).2, List.mem_append, List.mem_singleton] at hid
    rcases hid with hid | rfl
    · exact hI.queued id hid
    · rw [hwake _ rfl]
  | newTask => exact ⟨hI.queued, hI.popped⟩
  | _ => exact ⟨hI.queued, nofun⟩

theorem inRun_step {e e' : Machine} {a : Executor.Action} (h : Machine.Step e a e')
    (hrun : e.pc.inRun = true) (hfull : e'.pc ≠ .panicked .queueFull) : e'.pc.inRun = true := by
  cases h with
  | queueFull _ _ _ _ hpc => exact absurd hpc hfull
  | newTask | wake => exact hrun
  | spawn hpc | spawnTwice hpc | pushed hpc | call hpc =>
    rw [hpc] at hrun
    cases hrun
  | popNone hpc =>
    rw [hpc] at hrun
    cases hrun
    rfl
  | pop hpc | startPoll hpc | alreadyStopped hpc | finishReady hpc | finishPending hpc
    | remove hpc =>
    rw [hpc] at hrun
    exact hrun
  | disable | isEmpty | isNotEmpty | enableAndHlt | enable | interrupt => rfl

/-- The steps of the thread up to the next `pop` of a scancode, while there are
any; what is in flight is yielded on the way. -/
def distance (s : System) : ℕ :=
  match s.pc with
  | .firstPop => 0
  | .starting => 1
  | .yield _ => 1
  | .secondPop => 1
  | .take _ => 2
  | .register => 2
  | .pending => 3
  | _ =>
    match s.executor.pc with
    | .popped _ _ => 1
    | .loopHead _ => 2
    | .enableNext => 3
    | .checking => 4
    | .idle => 5
    | _ => 0

/-- The steps of the thread until the first `k` scancodes are yielded. -/
def rank (s : System) (k : ℕ) : ℕ := 2 * (k - s.popped.length) + s.distance

/-- The first `k` scancodes are yielded after at most `n` steps of the thread. -/
structure Reads (s : System) (k n : ℕ) : Prop where
  delivered : Delivered s
  oneId : OneId s.executor
  inRun : s.executor.pc.inRun = true
  accepted : k ≤ s.accepted.length
  rank : k ≤ s.yielded.length ∨ s.rank k ≤ n

variable {s s' : System} {a : Action} {k n : ℕ}

/-- Scancodes that are neither yielded nor in flight are in the queue. -/
theorem Reads.unread (h : s.Reads k n) (hk : ¬ k ≤ s.yielded.length) (hnone : s.pc.inFlight = []) :
    s.popped.length < k ∧ s.contents ≠ [] := by
  have hflight := h.delivered.inFlight
  rw [hnone, List.append_nil] at hflight
  have horder := congrArg List.length h.delivered.order
  rw [List.length_append] at horder
  have hle := h.accepted
  rw [hflight] at horder ⊢
  refine ⟨by omega, fun hempty => ?_⟩
  rw [hempty, List.length_nil] at horder
  omega

/-- Between two polls they have woken the task. -/
theorem Reads.queued (h : s.Reads k n) (hk : ¬ k ≤ s.yielded.length)
    (hrest : s.pc = .unstarted ∨ s.pc = .suspended) : s.pc = .suspended ∧
      (s.executor.taskQueue.elems ≠ [] ∨ ∃ r, s.executor.pc = .popped r 0) := by
  obtain ⟨-, hcontents⟩ := h.unread hk (by rcases hrest with h | h <;> rw [h] <;> rfl)
  have hsusp : s.pc = .suspended := by
    refine hrest.resolve_left fun hpc => hcontents ?_
    rw [contents, h.delivered.started.mpr (.inl hpc)]
  refine ⟨hsusp, ?_⟩
  have hdue : s.executor.Outstanding 0 := by
    refine ⟨?_, .inr (h.delivered.due (.inr hsusp) hcontents)⟩
    rw [h.delivered.alone.tasks_eq]
    exact Finset.mem_singleton_self 0
  rcases h.delivered.alone.noLostWake.queued 0 hdue with hq | hhand
  · exact .inl (List.ne_nil_of_mem hq)
  · exact .inr (h.delivered.alone.inHand 0 hhand)

/-- **A step of the executor** brings the next poll closer. -/
theorem Reads.rank_executor (h : s.Reads k n) (hk : ¬ k ≤ s.yielded.length) {e : Machine}
    {b : Executor.Action} (hown : ownAction b = true) (hstep : Machine.Step s.executor b e)
    (hfull : e.pc ≠ .panicked .queueFull) :
    System.rank { s with
      executor := e
      pc := match e.pc with
        | .polling _ _ _ => s.pc.enter
        | _ => s.pc } k < s.rank k := by
  obtain ⟨hidle, -⟩ := own_step h.delivered.alone hstep hown hfull
  obtain ⟨hsusp, hqueued⟩ := h.queued hk (h.delivered.rests fun r w => hidle r 0 w)
  have hrun := h.inRun
  have hdrained := h.delivered.alone.noLostWake.drained
  cases hstep with
  | newTask | spawn | spawnTwice | finishReady | finishPending | wake => cases hown
  | pushed hpc | call hpc =>
    rw [hpc] at hrun
    cases hrun
  | queueFull _ _ _ _ hpc => exact absurd hpc hfull
  | remove hpc => exact absurd hpc (h.delivered.alone.notReady _ _)
  | pop hpc hq => simp [System.rank, distance, hsusp, hpc]
  | popNone hpc hq => simp [ArrayQueue.pop_eq_none.mp hq, hpc] at hqueued
  | startPoll hpc hid =>
    simp [System.rank, distance, hsusp, hpc, Machine.startPoll, StreamPc.enter]
  | alreadyStopped hpc hid =>
    obtain rfl := h.oneId.popped _ _ hpc
    rw [h.delivered.alone.tasks_eq] at hid
    exact absurd (Finset.mem_singleton_self 0) hid
  | disable hpc => simp [System.rank, distance, hsusp, hpc]
  | isEmpty hpc hq => simp [hq, hpc] at hqueued
  | isNotEmpty hpc hq => simp [System.rank, distance, hsusp, hpc]
  | enable hpc => simp [System.rank, distance, hsusp, hpc]
  | enableAndHlt hpc => simp [hdrained (.inl hpc), hpc] at hqueued
  | interrupt hpc => simp [hdrained (.inr hpc), hpc] at hqueued

/-- Both pops of `poll_next` find a scancode. -/
theorem Reads.rank_popScancode (h : s.Reads k n) (hk : ¬ k ≤ s.yielded.length)
    (hnone : s.pc.inFlight = []) {found : UInt8 → StreamPc} {empty : StreamPc} :
    ∃ b, (s.popScancode found empty).popped = s.popped ++ [b] ∧
      (s.popScancode found empty).pc = found b ∧ s.popped.length < k := by
  obtain ⟨hlt, hcontents⟩ := h.unread hk hnone
  cases hq : s.scancodeQueue with
  | none =>
    rw [contents, hq] at hcontents
    exact absurd rfl hcontents
  | some q =>
    rcases popScancode_cases hq found empty with ⟨b, q', -, heq⟩ | ⟨hempty, -⟩
    · exact ⟨b, by rw [heq], by rw [heq], hlt⟩
    · rw [contents_eq hq] at hcontents
      exact absurd hempty hcontents

/-- **A step of the task** brings the next scancode closer. -/
theorem Reads.rank_stream (h : s.Reads k n) (hk : ¬ k ≤ s.yielded.length) {r : Bool} {id : TaskId}
    {w : TaskWaker} (hpoll : s.executor.pc = .polling r id w) (hstep : s.stream w = some s') :
    s'.rank k < s.rank k := by
  cases hpc : s.pc <;> rw [System.stream, hpc] at hstep
  case starting | register | take | yield =>
    obtain rfl := Option.some.inj hstep
    simp [System.rank, distance, hpc]
  case firstPop | secondPop =>
    obtain rfl := Option.some.inj hstep
    obtain ⟨b, hpopped, hpc', hlt⟩ := h.rank_popScancode hk (by rw [hpc]; rfl)
    rw [System.rank, System.rank, hpopped, distance, distance, hpc', hpc, List.length_append,
      List.length_singleton]
    dsimp only
    omega
  case pending =>
    obtain ⟨e, he, rfl⟩ := Option.map_eq_some_iff.mp hstep
    rw [Machine.step, hpoll] at he
    obtain rfl := Option.some.inj he
    simp [System.rank, distance, hpc]
  case unstarted | suspended | panicked => cases hstep

theorem popScancode_history (s : System) (found : UInt8 → StreamPc) (empty : StreamPc) :
    (s.popScancode found empty).accepted = s.accepted ∧
      (s.popScancode found empty).yielded = s.yielded := by
  unfold popScancode
  split
  · exact ⟨rfl, rfl⟩
  · split <;> exact ⟨rfl, rfl⟩

/-- What was accepted or yielded once stays so. -/
theorem history_step (h : s.step a = some s') :
    s.accepted <+: s'.accepted ∧ s.yielded <+: s'.yielded := by
  cases a with
  | executor a =>
    rw [System.step] at h
    split at h
    · obtain ⟨e, -, rfl⟩ := Option.map_eq_some_iff.mp h
      exact ⟨List.prefix_rfl, List.prefix_rfl⟩
    · cases h
  | stream =>
    rw [System.step] at h
    split at h
    · cases hpc : s.pc <;> rw [System.stream, hpc] at h
      case firstPop | secondPop =>
        obtain rfl := Option.some.inj h
        obtain ⟨haccepted, hyielded⟩ := popScancode_history s _ _
        exact ⟨haccepted ▸ List.prefix_rfl, hyielded ▸ List.prefix_rfl⟩
      case yield =>
        obtain rfl := Option.some.inj h
        exact ⟨List.prefix_rfl, List.prefix_append _ _⟩
      case pending =>
        obtain ⟨e, -, rfl⟩ := Option.map_eq_some_iff.mp h
        exact ⟨List.prefix_rfl, List.prefix_rfl⟩
      case starting | register | take =>
        obtain rfl := Option.some.inj h
        exact ⟨List.prefix_rfl, List.prefix_rfl⟩
      case unstarted | suspended | panicked => cases h
    · cases h
  | scancode b =>
    rw [System.step] at h
    split at h
    · obtain rfl := Option.some.inj h
      rcases addScancode_cases s b with heq | ⟨q, q', -, -, ⟨-, heq⟩ | ⟨w, -, heq⟩⟩ <;> rw [heq]
      · exact ⟨List.prefix_rfl, List.prefix_rfl⟩
      · exact ⟨List.prefix_append _ _, List.prefix_rfl⟩
      · exact ⟨List.prefix_append _ _, List.prefix_rfl⟩
    · cases h

/-- A scancode that comes in waits behind the others. -/
theorem rank_addScancode (b : UInt8)
    (hfull : (s.addScancode b).executor.pc ≠ .panicked .queueFull) :
    (s.addScancode b).rank k = s.rank k := by
  rcases addScancode_cases s b with heq | ⟨q, q', -, -, ⟨-, heq⟩ | ⟨w, -, heq⟩⟩ <;>
    rw [heq] at hfull ⊢
  · rfl
  · rw [System.rank, System.rank, distance, distance, (wakeTask_fields hfull).1]

/-- **Every step** of the thread lowers the rank, and no other step raises it. -/
theorem Reads.step (h : s.Reads k n) (hstep : s.step a = some s')
    (hfull : s'.executor.pc ≠ .panicked .queueFull) :
    s'.Reads k (n - if a.own then 1 else 0) := by
  obtain ⟨haccepted, hyielded⟩ := history_step hstep
  have hexec : OneId s'.executor ∧ s'.executor.pc.inRun = true := by
    rcases h.delivered.executor_step hstep with heq | ⟨b, hb, hwake⟩
    · exact heq ▸ ⟨h.oneId, h.inRun⟩
    · exact ⟨h.oneId.step hb h.delivered.not_spawning hwake hfull, inRun_step hb h.inRun hfull⟩
  refine ⟨h.delivered.step hstep hfull, hexec.1, hexec.2, h.accepted.trans haccepted.length_le, ?_⟩
  by_cases hk : k ≤ s.yielded.length
  · exact .inl (hk.trans hyielded.length_le)
  have hle := h.rank.resolve_left hk
  have hone : (if a.own then 1 else 0) ≤ 1 := by split <;> omega
  right
  cases a with
  | executor b =>
    rw [System.step] at hstep
    split at hstep
    · obtain ⟨e, he, rfl⟩ := Option.map_eq_some_iff.mp hstep
      have hlt := h.rank_executor hk ‹_› (.of_step he) hfull
      exact Nat.le_sub_of_add_le ((Nat.add_le_add_left hone _).trans (hlt.trans_le hle))
    · cases hstep
  | stream =>
    rw [System.step] at hstep
    split at hstep
    · have hlt := h.rank_stream hk ‹_› hstep
      exact Nat.le_sub_of_add_le ((Nat.add_le_add_left hone _).trans (hlt.trans_le hle))
    · cases hstep
  | scancode b =>
    rw [System.step] at hstep
    split at hstep
    · obtain rfl := Option.some.inj hstep
      rw [rank_addScancode b hfull]
      exact hle
    · cases hstep

theorem Reads.run {acts : List Action} (h : s.Reads k n)
    (hrun : exec System.step s acts = some s') (hfull : s'.executor.pc ≠ .panicked .queueFull) :
    s'.Reads k (n - (acts.filter Action.own).length) := by
  induction acts generalizing s n with
  | nil =>
    rw [exec_nil, Option.some_inj] at hrun
    exact hrun ▸ h
  | cons a acts ih =>
    obtain ⟨t, ht, hrest⟩ := exec_cons_eq_some.mp hrun
    have hfull' : t.executor.pc ≠ .panicked .queueFull :=
      exec_backward (P := fun s => s.executor.pc ≠ .panicked .queueFull)
        (fun _ _ _ => not_overflowed) hrest hfull
    have hrest := ih (h.step ht hfull') hrest
    cases hown : a.own with
    | true =>
      rw [hown, if_pos rfl, Nat.sub_sub, Nat.add_comm] at hrest
      rw [List.filter_cons_of_pos hown]
      exact hrest
    | false =>
      rw [hown, if_neg Bool.false_ne_true, Nat.sub_zero] at hrest
      rw [List.filter_cons_of_neg (by rw [hown]; exact Bool.false_ne_true)]
      exact hrest

/-- At rank zero nothing is in flight. -/
theorem Reads.done (h : s.Reads k 0) : k ≤ s.yielded.length := by
  refine h.rank.elim id fun hrank => ?_
  have hdistance : s.distance = 0 ∧ k ≤ s.popped.length := by
    rw [System.rank] at hrank
    omega
  have hnone : s.pc.inFlight = [] := by
    have hzero := hdistance.1
    cases hpc : s.pc <;> simp [distance, hpc, StreamPc.inFlight] at hzero ⊢
  have hflight := h.delivered.inFlight
  rw [hnone, List.append_nil] at hflight
  exact hflight ▸ hdistance.2

theorem distance_le (s : System) : s.distance ≤ 5 := by
  rw [distance]
  generalize s.pc = pc, s.executor.pc = e
  cases pc <;> cases e <;> simp

theorem reads_of_exec {acts : List Action} (h : exec System.step .init acts = some s)
    (hrun : s.executor.pc.inRun = true) (hfull : s.executor.pc ≠ .panicked .queueFull) :
    s.Reads s.accepted.length 261 := by
  obtain ⟨hI, hone⟩ : Delivered s ∧ OneId s.executor := by
    refine exec_invariant
      (I := fun s => s.executor.pc ≠ .panicked .queueFull → Delivered s ∧ OneId s.executor)
      (fun s a s' hI hstep hfull => ?_) (fun _ => ⟨.init, ?_⟩) h hfull
    · obtain ⟨hI, hone⟩ := hI (not_overflowed hstep)
      refine ⟨hI.step hstep hfull, ?_⟩
      rcases hI.executor_step hstep with heq | ⟨b, hb, hwake⟩
      · exact heq ▸ hone
      · exact hone.step hb hI.not_spawning hwake hfull
    · exact ⟨by decide, nofun⟩
  refine ⟨hI, hone, hrun, le_rfl, .inr ?_⟩
  have horder := congrArg List.length hI.order
  rw [List.length_append] at horder
  have hcontents : s.contents.length ≤ 128 := by
    unfold contents
    split
    · exact ArrayQueue.length_le _
    · exact Nat.zero_le _
  have hdistance := s.distance_le
  rw [System.rank]
  omega

end System

/-- **Scancodes are read in time.**  While `run` is running, whatever has been
accepted is yielded, in order, once the thread has made 261 more steps. -/
theorem read_in_time (before after : List Action) (s s' : System)
    (hbefore : exec System.step .init before = some s) (hrun : s.executor.pc.inRun = true)
    (hafter : exec System.step s after = some s')
    (hfull : s'.executor.pc ≠ .panicked .queueFull)
    (hsteps : 261 ≤ (after.filter Action.own).length) : s.accepted <+: s'.yielded := by
  have hstart : s.executor.pc ≠ .panicked .queueFull :=
    exec_backward (P := fun s => s.executor.pc ≠ .panicked .queueFull)
      (fun _ _ _ => System.not_overflowed) hafter hfull
  have hreads := (System.reads_of_exec hbefore hrun hstart).run hafter hfull
  rw [Nat.sub_eq_zero_of_le hsteps] at hreads
  have haccepted : s.accepted <+: s'.accepted :=
    exec_invariant (I := fun t => s.accepted <+: t.accepted)
      (fun _ _ _ hI hstep => hI.trans (System.history_step hstep).1) List.prefix_rfl hafter
  -- what is yielded is the first part of what was accepted
  have hyielded : s'.yielded <+: s'.accepted := by
    rw [← hreads.delivered.order, hreads.delivered.inFlight, List.append_assoc]
    exact List.prefix_append _ _
  exact List.prefix_of_prefix_length_le haccepted hyielded hreads.done

/-- The last key is read, and the second wake finds nothing more. -/
def lastKeyRun : List Action :=
  [.executor .advance, .executor .advance, .stream, .stream, .stream, .stream, .stream, .stream,
    .executor .advance, .executor .advance, .stream, .stream, .stream, .stream]

/-- The queue is found empty, the CPU halts, and an interrupt ends the halt. -/
def idleRun : List Action :=
  [.executor .advance, .executor .advance, .executor .advance, .executor .advance,
    .executor .interrupt]

theorem read_in_time_threeKeys :
    ∃ s s', exec System.step .init threeKeysRun = some s ∧
      exec System.step s (lastKeyRun ++ (List.replicate 62 idleRun).flatten) = some s' ∧
      s.accepted = [0x1e, 0x30, 0x20] ∧ s.accepted <+: s'.yielded := by
  have h : (exec System.step .init
      (threeKeysRun ++ (lastKeyRun ++ (List.replicate 62 idleRun).flatten))).map
      (·.executor.pc) = some (.loopHead true) := by decide +kernel
  obtain ⟨s', hrun, hpc⟩ := Option.map_eq_some_iff.mp h
  obtain ⟨s, hbefore, hafter⟩ := exec_append_eq_some.mp hrun
  have hs : s.executor.pc.inRun = true ∧ s.accepted = [0x1e, 0x30, 0x20] := by
    have h : (exec System.step .init threeKeysRun).map
        (fun s => (s.executor.pc.inRun, s.accepted)) = some (true, [0x1e, 0x30, 0x20]) := by
      decide +kernel
    rw [hbefore] at h
    exact Prod.mk.inj (Option.some.inj h)
  exact ⟨s, s', hbefore, hafter, hs.2, read_in_time threeKeysRun _ s s' hbefore hs.1 hafter
    (by rw [hpc]; nofun) (by decide +kernel)⟩

end Keyboard
