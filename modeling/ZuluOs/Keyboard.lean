/-
The keyboard pipeline: `task/keyboard.rs` on the executor.

One task runs `print_keypresses`.  Its stream takes scancodes from
`SCANCODE_QUEUE`; the keyboard interrupt puts them there and wakes the task
through the single slot of `WAKER`.  The interrupt runs `add_scancode` to its
end at any point between two steps of `poll_next` or of the executor.

The register-then-check-again order is what makes this work.  Once a waker is
registered, a scancode either finds it in the slot and wakes the task, or finds
the slot empty because an earlier scancode has done so since; so a stream that
goes to sleep is woken by whatever comes in (`Delivered`).

* `Delivered.step` — every step keeps that;
* `keyboard_pipeline` — no scancode is lost, doubled or reordered, and none is
  left unread when the CPU halts.
-/
import ZuluOs.Executor

open Transition Executor

namespace Keyboard

/-- Where `print_keypresses` is. -/
inductive StreamPc where
  /-- Not polled yet. -/
  | unstarted
  /-- `ScancodeStream::new` is next. -/
  | starting
  /-- `poll_next` has been entered. -/
  | firstPop
  /-- The fast path found nothing. -/
  | register
  | secondPop
  /-- `WAKER.take` is next. -/
  | take (scancode : UInt8)
  /-- `poll_next` has returned the scancode, and the loop body runs. -/
  | yield (scancode : UInt8)
  /-- `poll_next` has returned `Pending`. -/
  | pending
  /-- Between two polls of the task. -/
  | suspended
  /-- `queue.unwrap()` has failed. -/
  | panicked
deriving DecidableEq

namespace StreamPc

/-- The task is entered by a poll. -/
def enter : StreamPc → StreamPc
  | unstarted => starting
  | suspended => firstPop
  | pc => pc

/-- The scancode that was popped and is not yielded yet. -/
def inFlight : StreamPc → List UInt8
  | take b => [b]
  | yield b => [b]
  | _ => []

/-- A waker was registered in this poll, or in the last one. -/
def armed : StreamPc → Bool
  | secondPop => true
  | pending => true
  | suspended => true
  | _ => false

/-- No poll of the task is running. -/
def resting : StreamPc → Bool
  | unstarted => true
  | suspended => true
  | _ => false

end StreamPc

/-- The executor, the two statics of the module, and the stream. -/
structure System where
  executor : Machine
  scancodeQueue : Option (ArrayQueue UInt8 128)
  waker : Option TaskWaker
  pc : StreamPc
  -- what happened so far, which no code reads
  accepted : List UInt8
  popped : List UInt8
  yielded : List UInt8

inductive Action where
  /-- The executor takes a step, or is called, or its halt ends. -/
  | executor (a : Executor.Action)
  /-- The task takes a step. -/
  | stream
  /-- The keyboard interrupt. -/
  | scancode (b : UInt8)

namespace System

/-- An executor on which one task was spawned. -/
def oneTask : Machine :=
  { Machine.init with
    tasks := {0}
    taskQueue := ⟨[0], by decide⟩
    nextId := 1
    spawned := {0} }

example : exec Machine.step .init [.newTask, .spawn 0, .advance] = some oneTask := rfl

def init : System := ⟨oneTask, none, none, .unstarted, [], [], []⟩

/-- The actions the executor takes by itself. -/
def ownAction : Executor.Action → Bool
  | .call _ => true
  | .advance => true
  | .interrupt => true
  | _ => false

/-- `queue.pop()`, and on to `found` or `empty`. -/
def popScancode (s : System) (found : UInt8 → StreamPc) (empty : StreamPc) : System :=
  match s.scancodeQueue with
  | none => { s with pc := .panicked }
  | some q =>
    match q.pop with
    | some (b, q) => { s with
        scancodeQueue := some q
        popped := s.popped ++ [b]
        pc := found b }
    | none => { s with pc := empty }

/-- `WAKER.wake()` -/
def wake (s : System) : System :=
  match s.waker with
  | some w => { s with waker := none, executor := s.executor.wakeTask w }
  | none => s

/-- `add_scancode` -/
def addScancode (s : System) (b : UInt8) : System :=
  match s.scancodeQueue with
  | none => s
  | some q =>
    match q.push b with
    | some q => { s with scancodeQueue := some q, accepted := s.accepted ++ [b] }.wake
    | none => s

/-- The next step of the task, which is polled with `cx.waker()`. -/
def stream (s : System) (cxWaker : TaskWaker) : Option System :=
  match s.pc with
  | .starting => some { s with
      scancodeQueue := some (s.scancodeQueue.getD .empty)
      pc := .firstPop }
  | .firstPop => some (s.popScancode .yield .register)
  | .register => some { s with waker := some cxWaker, pc := .secondPop }
  | .secondPop => some (s.popScancode .take .pending)
  | .take b => some { s with waker := none, pc := .yield b }
  | .yield b => some { s with yielded := s.yielded ++ [b], pc := .firstPop }
  | .pending => (s.executor.step (.finishPoll false)).map fun e => { s with
      executor := e
      pc := .suspended }
  | _ => none

def step (s : System) : Action → Option System
  | .executor a =>
    if ownAction a then
      (s.executor.step a).map fun e => { s with
        executor := e
        pc := match e.pc with
          | .polling _ _ _ => s.pc.enter
          | _ => s.pc }
    else none
  | .stream =>
    match s.executor.pc with
    | .polling _ _ w => s.stream w
    | _ => none
  | .scancode b =>
    if s.executor.interrupts = true ∧ s.executor.pc.running then some (s.addScancode b) else none

/-! ### The executor's part -/

/-- What holds of an executor whose only task never ends. -/
structure Alone (e : Machine) : Prop where
  tasks_eq : e.tasks = {0}
  cached : ∀ w, e.wakerCache 0 = some w → w = ⟨0⟩
  inHand : ∀ id, e.pc.inHand = some id → ∃ r, e.pc = .popped r id
  notReady : ∀ r id, e.pc ≠ .ready r id
  polling : ∀ r id w, e.pc = .polling r id w → id = 0 ∧ w = ⟨0⟩ ∧ w ∈ e.wakers
  noLostWake : e.NoLostWake

/-- The thread has no task in hand, polls none and removes none. -/
def settled : Pc → Bool
  | .spawning _ => false
  | .popped _ _ => false
  | .polling _ _ _ => false
  | .ready _ _ => false
  | .panicked _ => false
  | _ => true

theorem settled_spec {pc : Pc} (h : settled pc = true) :
    pc.inHand = none ∧ (∀ r id, pc ≠ .ready r id) ∧ ∀ r id w, pc ≠ .polling r id w := by
  cases pc <;> simp [settled, Pc.inHand] at h ⊢

/-- A step that settles the thread and leaves the task and its waker. -/
theorem Alone.of_settled {e e' : Machine} (hI : Alone e) (hwake : e'.NoLostWake)
    (htasks : e'.tasks = e.tasks) (hcache : e'.wakerCache = e.wakerCache)
    (hpc : settled e'.pc = true) : Alone e' := by
  obtain ⟨hhand, hready, hpoll⟩ := settled_spec hpc
  refine ⟨htasks ▸ hI.tasks_eq, hcache ▸ hI.cached, ?_, hready, ?_, hwake⟩
  · intro id h
    rw [hhand] at h
    cases h
  · intro r id w h
    exact absurd h (hpoll r id w)

theorem Alone.step {e e' : Machine} {a : Executor.Action} (hI : Alone e)
    (h : Machine.Step e a e') (hspawn : ∀ id, a ≠ .spawn id) (hready : a ≠ .finishPoll true)
    (hfull : e'.pc ≠ .panicked .queueFull) : Alone e' := by
  have hwake := hI.noLostWake.step h hfull
  cases h
  case newTask => exact ⟨hI.tasks_eq, hI.cached, hI.inHand, hI.notReady, hI.polling, hwake⟩
  case spawn => exact absurd rfl (hspawn _)
  case spawnTwice => exact absurd rfl (hspawn _)
  case finishReady => exact absurd rfl hready
  case remove hpc => exact absurd hpc (hI.notReady _ _)
  case queueFull hpc => exact absurd hpc hfull
  case wake => exact ⟨hI.tasks_eq, hI.cached, hI.inHand, hI.notReady, hI.polling, hwake⟩
  case pop =>
    refine ⟨hI.tasks_eq, hI.cached, ?_, by simp, by simp, hwake⟩
    intro id h
    exact ⟨_, by rw [Option.some.inj h]⟩
  case popNone r _ _ => cases r <;> exact hI.of_settled hwake rfl rfl rfl
  case startPoll r id hpc hid =>
    -- the popped id is that of the one task, and its waker is the cached one, or new
    obtain rfl : id = 0 := by
      rw [hI.tasks_eq] at hid
      exact Finset.mem_singleton.mp hid
    have hw : (e.wakerCache 0).getD ⟨0⟩ = ⟨0⟩ := by
      cases hc : e.wakerCache 0 with
      | none => rfl
      | some w => exact hI.cached w hc
    refine ⟨hI.tasks_eq, ?_, by simp [Machine.startPoll, Pc.inHand],
      by simp [Machine.startPoll], ?_, hwake⟩
    · intro w hc
      rw [Machine.startPoll, hw] at hc
      dsimp only at hc
      rw [Function.update_self] at hc
      exact (Option.some.inj hc).symm
    · intro r' id' w h
      cases h
      exact ⟨rfl, hw, Finset.mem_insert_self _ _⟩
  -- every other step settles the thread
  all_goals exact hI.of_settled hwake rfl rfl rfl

/-- The executor's own steps do not start inside a poll; they start one, or
leave the wakers and the wakes as they are. -/
theorem own_step {e e' : Machine} {a : Executor.Action} (hI : Alone e) (h : Machine.Step e a e')
    (ha : ownAction a = true) (hfull : e'.pc ≠ .panicked .queueFull) :
    (∀ r id w, e.pc ≠ .polling r id w) ∧ e.wakers ⊆ e'.wakers ∧
    ((∃ r id w, e'.pc = .polling r id w) ∨
      (∀ r id w, e'.pc ≠ .polling r id w) ∧ e'.woken = e.woken) := by
  have hidle : ∀ r id w, e.pc ≠ .polling r id w := by
    cases h <;> simp_all [ownAction]
  refine ⟨hidle, ?_⟩
  cases h
  case newTask => cases ha
  case spawn => cases ha
  case spawnTwice => cases ha
  case finishReady => cases ha
  case finishPending => cases ha
  case wake => cases ha
  case remove hpc => exact absurd hpc (hI.notReady _ _)
  case queueFull hpc => exact absurd hpc hfull
  case startPoll => exact ⟨Finset.subset_insert _ _, .inl ⟨_, _, _, rfl⟩⟩
  case popNone r _ _ => cases r <;> exact ⟨subset_rfl, .inr ⟨by simp, rfl⟩⟩
  all_goals exact ⟨subset_rfl, .inr ⟨by simp, rfl⟩⟩

theorem wakeTask_fields {e : Machine} {w : TaskWaker}
    (hfull : (e.wakeTask w).pc ≠ .panicked .queueFull) :
    (e.wakeTask w).pc = e.pc ∧ (e.wakeTask w).wakers = e.wakers ∧
      (e.wakeTask w).woken = insert w.id e.woken := by
  unfold Machine.wakeTask Machine.push at *
  split at hfull
  · simp
  · exact absurd rfl hfull

/-! ### Delivery -/

/-- What is in `SCANCODE_QUEUE`. -/
def contents (s : System) : List UInt8 :=
  match s.scancodeQueue with
  | some q => q.elems
  | none => []

/-- What every state has in which the task queue has not overflowed. -/
structure Delivered (s : System) : Prop where
  alone : Alone s.executor
  resting : s.pc.resting = true → ∀ r id w, s.executor.pc ≠ .polling r id w
  active : s.pc.resting = false → ∃ r id w, s.executor.pc = .polling r id w
  started : s.scancodeQueue = none ↔ s.pc = .unstarted ∨ s.pc = .starting
  notPanicked : s.pc ≠ .panicked
  slot : ∀ w, s.waker = some w → w = ⟨0⟩ ∧ w ∈ s.executor.wakers
  order : s.popped ++ s.contents = s.accepted
  inFlight : s.popped = s.yielded ++ s.pc.inFlight
  armed : s.pc.armed = true → s.waker = some ⟨0⟩ ∨ 0 ∈ s.executor.woken
  due : s.pc = .pending ∨ s.pc = .suspended → s.contents ≠ [] → 0 ∈ s.executor.woken

theorem Delivered.init : Delivered init where
  alone := by
    refine ⟨rfl, ?_, ?_, ?_, ?_, ?_, ?_, ?_⟩ <;>
      simp [System.init, oneTask, Machine.init, Executor.new, Machine.Masked, Pc.inHand,
        Machine.Outstanding]
  resting := by simp [System.init, oneTask, Machine.init]
  active := by simp [System.init, StreamPc.resting]
  started := by simp [System.init]
  notPanicked := by simp [System.init]
  slot := by simp [System.init]
  order := rfl
  inFlight := rfl
  armed := by simp [System.init, StreamPc.armed]
  due := by simp [System.init]

/-- Outside a poll of the task, the task rests. -/
theorem Delivered.rests {s : System} (hI : Delivered s)
    (hidle : ∀ r w, s.executor.pc ≠ .polling r 0 w) : s.pc = .unstarted ∨ s.pc = .suspended := by
  have hrest : s.pc.resting = true := by
    by_contra hact
    obtain ⟨r, id, w, hpc⟩ := hI.active (Bool.not_eq_true _ ▸ hact)
    obtain ⟨rfl, -⟩ := hI.alone.polling r id w hpc
    exact hidle r w hpc
  cases hpc : s.pc <;> simp [hpc, StreamPc.resting] at hrest ⊢

theorem Delivered.executor {s : System} (hI : Delivered s) {a : Executor.Action} {e : Machine}
    (ha : ownAction a = true) (h : Machine.Step s.executor a e)
    (hfull : e.pc ≠ .panicked .queueFull) :
    Delivered { s with
      executor := e
      pc := match e.pc with
        | .polling _ _ _ => s.pc.enter
        | _ => s.pc } := by
  have halone : Alone e := hI.alone.step h (by rintro id rfl; cases ha) (by rintro rfl; cases ha)
    hfull
  obtain ⟨hidle, hwakers, hnext⟩ := own_step hI.alone h ha hfull
  have hrest := hI.rests fun r w => hidle r 0 w
  have hslot : ∀ w, s.waker = some w → w = ⟨0⟩ ∧ w ∈ e.wakers :=
    fun w hw => ⟨(hI.slot w hw).1, hwakers (hI.slot w hw).2⟩
  rcases hnext with ⟨r, id, w, hpoll⟩ | ⟨hnopoll, hwoken⟩
  · -- a poll begins: nothing is asked of the waker until the stream has looked again
    have henter : (match e.pc with
        | .polling _ _ _ => s.pc.enter
        | _ => s.pc) = s.pc.enter := by
      rw [hpoll]
    rw [henter]
    have hflight := hI.inFlight
    have hstarted := hI.started
    rcases hrest with hpc | hpc
    all_goals
      rw [hpc] at hflight hstarted ⊢
      exact ⟨halone, by simp [StreamPc.enter, StreamPc.resting], fun _ => ⟨r, id, w, hpoll⟩,
        by simpa [StreamPc.enter] using hstarted, by simp [StreamPc.enter], hslot, hI.order,
        hflight, by simp [StreamPc.enter, StreamPc.armed], by simp [StreamPc.enter]⟩
  · have hsame : (match e.pc with
        | .polling _ _ _ => s.pc.enter
        | _ => s.pc) = s.pc := by
      split
      · exact absurd ‹_› (hnopoll _ _ _)
      · rfl
    rw [hsame]
    refine ⟨halone, fun _ => hnopoll, ?_, hI.started, hI.notPanicked, hslot, hI.order,
      hI.inFlight, hwoken ▸ hI.armed, hwoken ▸ hI.due⟩
    intro hact
    rcases hrest with hpc | hpc <;> rw [hpc] at hact <;> cases hact

/-- Steps of the task inside a poll that leave the executor alone. -/
theorem Delivered.of_stream {s s' : System} (hI : Delivered s)
    (hexec : s'.executor = s.executor) (hbefore : s.pc.resting = false)
    (hafter : s'.pc.resting = false) (hpanic : s'.pc ≠ .panicked)
    (hstarted : s'.scancodeQueue = none ↔ s'.pc = .starting)
    (hslot : ∀ w, s'.waker = some w → w = ⟨0⟩ ∧ w ∈ s.executor.wakers)
    (horder : s'.popped ++ s'.contents = s.popped ++ s.contents)
    (haccepted : s'.accepted = s.accepted)
    (hflight : s'.popped = s'.yielded ++ s'.pc.inFlight)
    (harmed : s'.pc.armed = true → s'.waker = some ⟨0⟩ ∨ 0 ∈ s.executor.woken)
    (hdue : s'.pc = .pending → s'.contents = []) : Delivered s' := by
  have hpc : s'.pc ≠ .unstarted ∧ s'.pc ≠ .suspended := by
    constructor <;> intro h <;> rw [h] at hafter <;> cases hafter
  refine ⟨hexec ▸ hI.alone, fun h => ?_, fun _ => hexec ▸ hI.active hbefore, ?_, hpanic,
    hexec ▸ hslot, ?_, hflight, hexec ▸ harmed, ?_⟩
  · rw [hafter] at h
    cases h
  · rw [hstarted]
    exact ⟨.inr, fun h => h.resolve_left hpc.1⟩
  · rw [horder, haccepted, hI.order]
  · rintro (h | h) hne
    · exact absurd (hdue h) hne
    · exact absurd h hpc.2

/-- Where the stream does not rely on a waker, nothing is asked of it. -/
theorem Delivered.of_unarmed {s s' : System} (hI : Delivered s)
    (hexec : s'.executor = s.executor) (hbefore : s.pc.resting = false)
    (hafter : s'.pc.resting = false) (hpanic : s'.pc ≠ .panicked) (hunarmed : s'.pc.armed = false)
    (hstarted : s'.scancodeQueue = none ↔ s'.pc = .starting)
    (hslot : ∀ w, s'.waker = some w → w = ⟨0⟩ ∧ w ∈ s.executor.wakers)
    (horder : s'.popped ++ s'.contents = s.popped ++ s.contents)
    (haccepted : s'.accepted = s.accepted)
    (hflight : s'.popped = s'.yielded ++ s'.pc.inFlight) : Delivered s' := by
  refine hI.of_stream hexec hbefore hafter hpanic hstarted hslot horder haccepted hflight ?_ ?_
  · intro h
    rw [hunarmed] at h
    cases h
  · intro h
    rw [h] at hunarmed
    cases hunarmed

theorem contents_eq {s : System} {q : ArrayQueue UInt8 128} (h : s.scancodeQueue = some q) :
    s.contents = q.elems := by
  rw [contents, h]

theorem popScancode_cases {s : System} {q : ArrayQueue UInt8 128} (hq : s.scancodeQueue = some q)
    (found : UInt8 → StreamPc) (empty : StreamPc) :
    (∃ b q', q.elems = b :: q'.elems ∧ s.popScancode found empty = { s with
      scancodeQueue := some q'
      popped := s.popped ++ [b]
      pc := found b }) ∨
    q.elems = [] ∧ s.popScancode found empty = { s with pc := empty } := by
  unfold System.popScancode
  cases hpop : q.pop with
  | some bq =>
    left
    exact ⟨bq.1, bq.2, ArrayQueue.pop_eq_some.mp hpop, by rw [hq]; dsimp only; rw [hpop]⟩
  | none =>
    right
    exact ⟨ArrayQueue.pop_eq_none.mp hpop, by rw [hq]; dsimp only; rw [hpop]⟩

/-- Both pops of `poll_next`. -/
theorem Delivered.popScancode {s : System} (hI : Delivered s) (hactive : s.pc.resting = false)
    (hstarted : s.pc ≠ .starting) (hnone : s.pc.inFlight = []) {found : UInt8 → StreamPc}
    {empty : StreamPc} (hfound : ∀ b, found b = .yield b ∨ found b = .take b)
    (hempty : empty = .register ∨ empty = .pending ∧ s.pc.armed = true) :
    Delivered (s.popScancode found empty) := by
  obtain ⟨q, hq⟩ : ∃ q, s.scancodeQueue = some q := by
    rw [← Option.ne_none_iff_exists']
    intro hnone
    rcases hI.started.mp hnone with h | h
    · rw [h] at hactive
      cases hactive
    · exact hstarted h
  have hflight : s.popped = s.yielded := by
    rw [hI.inFlight, hnone, List.append_nil]
  rcases popScancode_cases hq found empty with ⟨b, q', hpop, heq⟩ | ⟨hpop, heq⟩ <;> rw [heq]
  · have horder : s.popped ++ [b] ++ q'.elems = s.popped ++ s.contents := by
      rw [contents_eq hq, hpop, List.append_assoc, List.singleton_append]
    rcases hfound b with hb | hb
    all_goals
      rw [hb]
      exact hI.of_unarmed rfl hactive rfl (by simp) rfl (by simp) hI.slot horder rfl
        (congrArg (· ++ [b]) hflight)
  · rcases hempty with rfl | ⟨rfl, harmed⟩
    · exact hI.of_unarmed rfl hactive rfl (by simp) rfl (by simp [hq]) hI.slot rfl rfl
        (by simpa [StreamPc.inFlight] using hflight)
    · -- the stream goes to sleep only if nothing came in since it was armed
      exact hI.of_stream rfl hactive rfl (by simp) (by simp [hq]) hI.slot rfl rfl
        (by simpa [StreamPc.inFlight] using hflight) (fun _ => hI.armed harmed)
        (fun _ => (contents_eq hq).trans hpop)

theorem Delivered.stream {s s' : System} (hI : Delivered s) {r : Bool} {id : TaskId}
    {w : TaskWaker} (hpoll : s.executor.pc = .polling r id w) (h : s.stream w = some s') :
    Delivered s' := by
  obtain ⟨_, hcx, hw⟩ := hI.alone.polling r id w hpoll
  subst hcx
  have hactive : s.pc.resting = false := by
    by_contra hrest
    exact hI.resting (Bool.not_eq_false _ ▸ hrest) r id _ hpoll
  have hflight := hI.inFlight
  cases hpc : s.pc <;> rw [System.stream, hpc] at h <;> rw [hpc] at hflight hactive
  case starting =>
    -- `ScancodeStream::new` finds the queue uninitialised, and makes an empty one
    obtain rfl := Option.some.inj h
    have hnone := hI.started.mpr (.inr hpc)
    refine hI.of_unarmed rfl (hpc ▸ hactive) rfl (by simp) rfl (by simp) hI.slot ?_ rfl hflight
    rw [contents_eq rfl, contents, hnone]
    rfl
  case firstPop =>
    obtain rfl := Option.some.inj h
    exact hI.popScancode (hpc ▸ hactive) (by simp [hpc]) (by rw [hpc]; rfl) (fun _ => .inl rfl)
      (.inl rfl)
  case register =>
    obtain rfl := Option.some.inj h
    refine hI.of_stream rfl (hpc ▸ hactive) rfl (by simp) (by simp [hI.started, hpc]) ?_ rfl rfl
      hflight (fun _ => .inl rfl) (by simp)
    intro w h
    cases h
    exact ⟨rfl, hw⟩
  case secondPop =>
    obtain rfl := Option.some.inj h
    exact hI.popScancode (hpc ▸ hactive) (by simp [hpc]) (by rw [hpc]; rfl) (fun _ => .inr rfl)
      (.inr ⟨rfl, by rw [hpc]; rfl⟩)
  case take b =>
    obtain rfl := Option.some.inj h
    exact hI.of_unarmed rfl (hpc ▸ hactive) rfl (by simp) rfl (by simp [hI.started, hpc])
      (by simp) rfl rfl hflight
  case yield b =>
    obtain rfl := Option.some.inj h
    refine hI.of_unarmed rfl (hpc ▸ hactive) rfl (by simp) rfl (by simp [hI.started, hpc]) hI.slot
      rfl rfl ?_
    rw [hflight]
    exact (List.append_nil _).symm
  case pending =>
    -- the poll returns; what the stream knows about its waker is kept
    obtain ⟨e, he, rfl⟩ := Option.map_eq_some_iff.mp h
    rw [Machine.step, hpoll] at he
    obtain rfl := Option.some.inj he
    exact ⟨hI.alone.step (.finishPending hpoll) (by simp) (by simp) (by simp), by simp,
      by simp [StreamPc.resting], by simp [hI.started, hpc], by simp, hI.slot, hI.order, hflight,
      fun _ => hI.armed (by rw [hpc]; rfl), fun _ => hI.due (.inl hpc)⟩
  case unstarted => cases h
  case suspended => cases h
  case panicked => cases h

/-- `add_scancode` does nothing, or queues the scancode and wakes whom it finds
in the slot. -/
theorem addScancode_cases (s : System) (b : UInt8) :
    s.addScancode b = s ∨
    ∃ q q', s.scancodeQueue = some q ∧ q'.elems = q.elems ++ [b] ∧
      ((s.waker = none ∧ s.addScancode b
        = { s with scancodeQueue := some q', accepted := s.accepted ++ [b] }) ∨
      ∃ w, s.waker = some w ∧ s.addScancode b = { s with
        scancodeQueue := some q'
        accepted := s.accepted ++ [b]
        waker := none
        executor := s.executor.wakeTask w }) := by
  obtain ⟨e, queue, waker, pc, accepted, popped, yielded⟩ := s
  cases queue with
  | none => exact .inl rfl
  | some q =>
    cases hpush : q.push b with
    | none =>
      left
      simp only [addScancode, hpush]
    | some q' =>
      right
      refine ⟨q, q', rfl, (ArrayQueue.push_eq_some.mp hpush).2, ?_⟩
      cases waker with
      | none => exact .inl ⟨rfl, by simp only [addScancode, hpush, wake]⟩
      | some w => exact .inr ⟨w, rfl, by simp only [addScancode, hpush, wake]⟩

theorem Delivered.scancode {s : System} (hI : Delivered s) {b : UInt8}
    (hint : s.executor.interrupts = true) (hrun : s.executor.pc.running = true)
    (hfull : (s.addScancode b).executor.pc ≠ .panicked .queueFull) :
    Delivered (s.addScancode b) := by
  rcases addScancode_cases s b with heq | ⟨q, q', hq, hq', hwaker⟩
  · -- not initialised, or full: nothing changes, and the task is due as it was before
    rw [heq]
    exact hI
  have hstarted : ¬ (s.pc = .unstarted ∨ s.pc = .starting) := by
    rw [← hI.started, hq]
    simp
  have horder : s.popped ++ q'.elems = s.accepted ++ [b] := by
    rw [hq', ← hI.order, contents_eq hq, List.append_assoc]
  rcases hwaker with ⟨hnone, heq⟩ | ⟨w, hw, heq⟩
  · -- the slot is empty: if the stream is armed, an earlier scancode has woken the task
    have harmed : s.pc.armed = true → 0 ∈ s.executor.woken := by
      intro h
      refine (hI.armed h).resolve_left ?_
      rw [hnone]
      simp
    rw [heq]
    refine ⟨hI.alone, hI.resting, hI.active, by simpa using hstarted, hI.notPanicked, hI.slot,
      horder, hI.inFlight, fun h => .inr (harmed h), fun h _ => harmed ?_⟩
    rcases h with h | h <;> rw [h] <;> rfl
  · obtain ⟨rfl, hmem⟩ := hI.slot w hw
    rw [heq] at hfull ⊢
    have hstep : s.executor.step (.wake ⟨0⟩) = some (s.executor.wakeTask ⟨0⟩) := by
      rw [Machine.step, if_pos ⟨hmem, hint, hrun⟩]
    obtain ⟨hpc, -, hwoken⟩ := wakeTask_fields hfull
    have hdue : 0 ∈ (s.executor.wakeTask ⟨0⟩).woken := by
      rw [hwoken]
      exact Finset.mem_insert_self _ _
    refine ⟨hI.alone.step (.of_step hstep) (by simp) (by simp) hfull, ?_, ?_,
      by simpa using hstarted, hI.notPanicked, by simp, horder, hI.inFlight,
      fun _ => .inr hdue, fun _ _ => hdue⟩
    · dsimp only
      rw [hpc]
      exact hI.resting
    · dsimp only
      rw [hpc]
      exact hI.active

/-- **A step of the system keeps delivery**, unless the task queue overflows. -/
theorem Delivered.step {s s' : System} {a : Action} (hI : Delivered s) (h : s.step a = some s')
    (hfull : s'.executor.pc ≠ .panicked .queueFull) : Delivered s' := by
  cases a with
  | executor a =>
    rw [System.step] at h
    split at h
    · obtain ⟨e, he, rfl⟩ := Option.map_eq_some_iff.mp h
      exact hI.executor ‹_› (.of_step he) hfull
    · cases h
  | stream =>
    rw [System.step] at h
    split at h
    · exact hI.stream ‹_› h
    · cases h
  | scancode b =>
    rw [System.step] at h
    split at h
    · obtain rfl := Option.some.inj h
      exact hI.scancode (‹_ ∧ _›).1 (‹_ ∧ _›).2 hfull
    · cases h

/-- An overflow is the end. -/
theorem not_overflowed {s s' : System} {a : Action} (h : s.step a = some s') :
    s.executor.pc ≠ .panicked .queueFull := by
  intro hfull
  cases a with
  | executor a =>
    rw [System.step] at h
    split at h
    · obtain ⟨e, he, -⟩ := Option.map_eq_some_iff.mp h
      exact (Machine.Step.of_step he).not_panicked _ hfull
    · cases h
  | stream =>
    rw [System.step, hfull] at h
    cases h
  | scancode b =>
    rw [System.step, hfull] at h
    split at h
    · cases (‹_ ∧ _›).2
    · cases h

end System

/-- **The keyboard pipeline.**  As long as the task queue has not overflowed,
the scancodes popped so far, of which all are yielded but the one in flight,
and those in the queue are the accepted ones, in order; unread scancodes mean
that the task is queued or that a poll of it is on its way; and the CPU never
halts with unread ones. -/
theorem keyboard_pipeline (acts : List Action) (s : System)
    (hrun : exec System.step .init acts = some s)
    (hfull : s.executor.pc ≠ .panicked .queueFull)
    (q : ArrayQueue UInt8 128) (hq : s.scancodeQueue = some q) :
    s.popped ++ q.elems = s.accepted ∧ s.popped = s.yielded ++ s.pc.inFlight ∧
    (q.elems ≠ [] → (∀ r, s.executor.pc ≠ .popped r 0) →
      (∀ r w, s.executor.pc ≠ .polling r 0 w) → 0 ∈ s.executor.taskQueue.elems) ∧
    (s.executor.pc = .haltNext ∨ s.executor.pc = .halted → q.elems = []) := by
  have hI : s.executor.pc = .panicked .queueFull ∨ s.Delivered := by
    refine exec_invariant (I := fun s => s.executor.pc = .panicked .queueFull ∨ s.Delivered)
      (fun s a s' hI hstep => ?_) (.inr .init) hrun
    by_cases hfull : s'.executor.pc = .panicked .queueFull
    · exact .inl hfull
    · exact .inr ((hI.resolve_left (System.not_overflowed hstep)).step hstep hfull)
  have hI := hI.resolve_left hfull
  have hqueued : q.elems ≠ [] → (∀ r, s.executor.pc ≠ .popped r 0) →
      (∀ r w, s.executor.pc ≠ .polling r 0 w) → 0 ∈ s.executor.taskQueue.elems := by
    intro hne hpopped hpolling
    -- the stream sleeps, and was woken after it went to sleep
    have hsusp : s.pc = .suspended := by
      refine (hI.rests hpolling).resolve_left fun hpc => ?_
      have hnone := hI.started.mpr (.inl hpc)
      rw [hq] at hnone
      cases hnone
    have hdue : s.executor.Outstanding 0 := by
      refine ⟨?_, .inr (hI.due (.inr hsusp) ?_)⟩
      · rw [hI.alone.tasks_eq]
        exact Finset.mem_singleton_self 0
      · rwa [System.contents_eq hq]
    rcases hI.alone.noLostWake.queued 0 hdue with h | h
    · exact h
    · obtain ⟨r, hpc⟩ := hI.alone.inHand 0 h
      exact absurd hpc (hpopped r)
  refine ⟨?_, hI.inFlight, hqueued, fun hhalt => ?_⟩
  · rw [← System.contents_eq hq]
    exact hI.order
  · by_contra hne
    have hmem := hqueued hne (by rcases hhalt with h | h <;> simp [h])
      (by rcases hhalt with h | h <;> simp [h])
    rw [hI.alone.noLostWake.drained hhalt] at hmem
    cases hmem

/-- A scancode before the waker is registered, one before it is taken, and one
after the poll. -/
def threeKeysRun : List Action :=
  [.executor (.call true), .executor .advance, .executor .advance, .stream, .stream,
    .scancode 0x1e, .stream, .stream, .scancode 0x30, .stream, .stream, .stream, .stream, .stream,
    .stream, .stream, .stream, .scancode 0x20]

theorem keyboard_pipeline_threeKeys :
    ∃ s q, exec System.step .init threeKeysRun = some s ∧ s.scancodeQueue = some q ∧
      q.elems = [0x20] ∧ s.executor.pc = .loopHead true ∧
      s.popped ++ q.elems = s.accepted ∧ 0 ∈ s.executor.taskQueue.elems := by
  have h : (exec System.step .init threeKeysRun).map
      (fun s => (s.scancodeQueue.map (·.elems), s.executor.pc))
      = some (some [0x20], .loopHead true) := by decide +kernel
  obtain ⟨s, hrun, hs⟩ := Option.map_eq_some_iff.mp h
  obtain ⟨hqueue, hpc⟩ := Prod.mk.inj hs
  obtain ⟨q, hq, helems⟩ := Option.map_eq_some_iff.mp hqueue
  obtain ⟨horder, -, hqueued, -⟩ := keyboard_pipeline threeKeysRun s hrun (by simp [hpc]) q hq
  exact ⟨s, q, hrun, hq, helems, hpc, horder,
    hqueued (by simp [helems]) (by simp [hpc]) (by simp [hpc])⟩

end Keyboard
