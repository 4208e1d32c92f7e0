/-
The kernel heap under concurrency: any number of threads call `alloc` and
`dealloc` of `allocator/bump.rs`, and their atomic steps interleave freely.

`alloc` is one `fetch_add`.  `dealloc` is a load of `next`, a comparison and a
`compare_exchange`, with other threads' steps in between: `next` may have
left and come back (ABA) before the exchange succeeds.  The first `alloc` that
returns null ends in `alloc_error_handler`, which halts the system.

What makes this safe is that a block on its way through `dealloc` keeps its
bytes reserved: all reserved blocks are apart and end at or below `next`
(`Reserved`).  So when the exchange finds `next` at the end of the block, that
block is the topmost one whatever happened meanwhile, and every other reserved
block ends at or below its start (`Block.Apart.le_of_top`).

* `exec_shared` — the calls of one thread, as `BumpAllocator` models them, are
  runs of its atomic steps;
* `Reserved.step` — every atomic step keeps the invariant;
* `live_blocks_disjoint` — in every reachable state live blocks are disjoint.
-/
import ZuluOs.BumpAllocator

open Transition

namespace Block

/-- One past the last byte reserved for the block. -/
def stop (b : Block) : ℕ := b.ptr + b.layout.rounded

/-- The bytes of the block, as its owner knows them. -/
def bytes (b : Block) : Set ℕ := Set.Ico b.ptr (b.ptr + b.layout.size)

/-- The reserved bytes of two blocks do not meet. -/
def Apart (b c : Block) : Prop := b.stop ≤ c.ptr ∨ c.stop ≤ b.ptr

theorem Apart.symm {b c : Block} (h : b.Apart c) : c.Apart b := Or.symm h

theorem Apart.disjoint {b c : Block} (h : b.Apart c) : Disjoint b.bytes c.bytes := by
  rw [Set.disjoint_left]
  intro x hb hc
  have hb' := b.layout.size_le_rounded
  have hc' := c.layout.size_le_rounded
  simp only [bytes, Set.mem_Ico] at hb hc
  unfold Apart stop at h
  omega

/-- Of two blocks that are apart, one that ends no later than the other ends
before the other starts. -/
theorem Apart.le_of_top {b c : Block} (h : b.Apart c) (hsize : 0 < c.layout.size)
    (hstop : c.stop ≤ b.stop) : c.stop ≤ b.ptr := by
  have hc' := c.layout.size_le_rounded
  unfold Apart stop at *
  omega

end Block

/-- Where a thread is in its call to `dealloc`. -/
inductive Thread where
  | idle
  /-- `dealloc` has been entered. -/
  | entered (b : Block)
  /-- `current_ptr` has been loaded. -/
  | loaded (b : Block) (currentPtr : ℕ)
  /-- The block ends at `current_ptr`; the exchange is next. -/
  | matched (b : Block) (currentPtr : ℕ)
deriving DecidableEq

namespace Thread

/-- The block a thread is freeing. -/
def held : Thread → Option Block
  | idle => none
  | entered b => some b
  | loaded b _ => some b
  | matched b _ => some b

end Thread

/-- The shared allocator, the live blocks, and the threads that run on it. -/
structure SharedHeap (ι : Type) where
  bump : BumpAllocator
  live : List Block
  thread : ι → Thread
  halted : Bool

/-- The atomic steps, each by the thread that makes it. -/
inductive Atomic (ι : Type) where
  | alloc (t : ι) (layout : Layout)
  | dealloc (t : ι) (b : Block)
  | load (t : ι)
  | compare (t : ι)
  | exchange (t : ι)

namespace SharedHeap

variable {ι : Type} [DecidableEq ι]

/-- The heap right after `init`. -/
def init (heapStart heapSize : ℕ) : SharedHeap ι :=
  ⟨⟨heapStart, heapStart + heapSize, heapStart⟩, [], fun _ => .idle, false⟩

/-- Move one thread on. -/
def setThread (s : SharedHeap ι) (t : ι) (th : Thread) : SharedHeap ι :=
  { s with thread := Function.update s.thread t th }

/-- What is seen of a thread after one has moved on: the new state there, and
the old one everywhere else. -/
theorem setThread_cases {β : Type} (view : Thread → β) {s : SharedHeap ι} {t u : ι} {th : Thread}
    {x : β} (h : view ((s.setThread t th).thread u) = x) :
    u = t ∧ view th = x ∨ u ≠ t ∧ view (s.thread u) = x := by
  by_cases hut : u = t
  · subst hut
    rw [show (s.setThread u th).thread u = th from Function.update_self ..] at h
    exact .inl ⟨rfl, h⟩
  · rw [show (s.setThread t th).thread u = s.thread u from Function.update_of_ne hut ..] at h
    exact .inr ⟨hut, h⟩

/-- One atomic step; a null block or a panic halts the system. -/
def step (o : Overflow) (s : SharedHeap ι) : Atomic ι → Option (SharedHeap ι)
  | .alloc t layout =>
    if s.halted = false ∧ s.thread t = .idle ∧ 0 < layout.size then
      match (s.bump.alloc o layout : Outcome Empty _) with
      | .ok (ptr, bump) =>
        -- null: `alloc_error_handler` is next
        some { s with
          bump := bump
          live := if ptr = 0 then s.live else ⟨ptr, layout⟩ :: s.live
          halted := ptr = 0 }
      | _ => some { s with halted := true }
    else none
  | .dealloc t b =>
    if s.halted = false ∧ s.thread t = .idle ∧ b ∈ s.live then
      some ({ s with live := s.live.erase b }.setThread t (.entered b))
    else none
  | .load t =>
    match s.halted, s.thread t with
    | false, .entered b => some (s.setThread t (.loaded b s.bump.next))
    | _, _ => none
  | .compare t =>
    match s.halted, s.thread t with
    | false, .loaded b currentPtr =>
      match (do o.addU64 b.ptr (← alignUp o b.layout.size b.layout.align) : Outcome Empty ℕ) with
      | .ok blockEnd =>
        some (s.setThread t (if blockEnd = currentPtr then .matched b currentPtr else .idle))
      | _ => some { s with halted := true }
    | _, _ => none
  | .exchange t =>
    match s.halted, s.thread t with
    | false, .matched b currentPtr =>
      match (do o.subU64 currentPtr (← alignUp o b.layout.size b.layout.align) :
          Outcome Empty ℕ) with
      | .ok new => some ({ s with bump := s.bump.compareExchange currentPtr new }.setThread t .idle)
      | _ => some { s with halted := true }
    | _, _ => none

/-- Everything one atomic step can do, as long as nothing panics. -/
theorem step_cases {o : Overflow} {s s' : SharedHeap ι} {a : Atomic ι}
    (hstep : s.step o a = some s') : s.halted = false ∧
    ((∃ t layout, a = .alloc t layout ∧ 0 < layout.size ∧
        s' = { s with
          bump := s.bump.fetchAdd layout.rounded
          live := if s.bump.newPtr = 0 then s.live else ⟨s.bump.newPtr, layout⟩ :: s.live
          halted := s.bump.newPtr = 0 }) ∨
      (∃ t b, a = .dealloc t b ∧ s.thread t = .idle ∧ b ∈ s.live ∧
        s' = { s with live := s.live.erase b }.setThread t (.entered b)) ∨
      (∃ t b, a = .load t ∧ s.thread t = .entered b ∧
        s' = s.setThread t (.loaded b s.bump.next)) ∨
      (∃ t b currentPtr blockEnd, a = .compare t ∧ s.thread t = .loaded b currentPtr ∧
        (o.addU64 b.ptr b.layout.rounded : Outcome Empty ℕ) = .ok blockEnd ∧
        s' = s.setThread t (if blockEnd = currentPtr then .matched b currentPtr else .idle)) ∨
      (∃ t b currentPtr new, a = .exchange t ∧ s.thread t = .matched b currentPtr ∧
        (o.subU64 currentPtr b.layout.rounded : Outcome Empty ℕ) = .ok new ∧
        s' = { s with bump := s.bump.compareExchange currentPtr new }.setThread t .idle) ∨
      s' = { s with halted := true }) := by
  cases a with
  | alloc t layout =>
    rw [step, BumpAllocator.alloc_eq] at hstep
    split at hstep
    · obtain ⟨hh, -, hsize⟩ := ‹_ ∧ _ ∧ _›
      exact ⟨hh, .inl ⟨t, layout, rfl, hsize, (Option.some.inj hstep).symm⟩⟩
    · cases hstep
  | dealloc t b =>
    rw [step] at hstep
    split at hstep
    · obtain ⟨hh, hidle, hb⟩ := ‹_ ∧ _ ∧ _›
      exact ⟨hh, .inr (.inl ⟨t, b, rfl, hidle, hb, (Option.some.inj hstep).symm⟩)⟩
    · cases hstep
  | load t =>
    rw [step] at hstep
    split at hstep
    · exact ⟨‹_›, .inr (.inr (.inl ⟨t, _, rfl, ‹_›, (Option.some.inj hstep).symm⟩))⟩
    · cases hstep
  | compare t =>
    rw [step] at hstep
    split at hstep
    · rw [alignUp_layout, Outcome.ok_bind] at hstep
      refine ⟨‹_›, .inr (.inr (.inr ?_))⟩
      split at hstep
      · exact .inl ⟨t, _, _, _, rfl, ‹_›, ‹_›, (Option.some.inj hstep).symm⟩
      · exact .inr (.inr (Option.some.inj hstep).symm)
    · cases hstep
  | exchange t =>
    rw [step] at hstep
    split at hstep
    · rw [alignUp_layout, Outcome.ok_bind] at hstep
      refine ⟨‹_›, .inr (.inr (.inr (.inr ?_)))⟩
      split at hstep
      · exact .inl ⟨t, _, _, _, rfl, ‹_›, ‹_›, (Option.some.inj hstep).symm⟩
      · exact .inr (Option.some.inj hstep).symm
    · cases hstep

/-! ### The calls of one thread -/

/-- A heap between two calls: no thread is inside `dealloc`. -/
def shared (h : Heap) : SharedHeap ι := ⟨h.bump, h.live, fun _ => .idle, false⟩

/-- The call does not run into `alloc_error_handler`. -/
def Served (h : Heap) : Op → Prop
  | .alloc _ => h.bump.newPtr ≠ 0
  | .dealloc _ => True

theorem setThread_setThread (s : SharedHeap ι) (t : ι) (th th' : Thread) :
    (s.setThread t th).setThread t th' = s.setThread t th' := by
  rw [setThread, setThread, setThread, Function.update_idem]

theorem shared_setThread_idle (h : Heap) (t : ι) :
    (shared h).setThread t .idle = shared h := by
  rw [setThread, shared, Function.update_eq_self_iff.mpr rfl]

theorem step_load {o : Overflow} {s : SharedHeap ι} {t : ι} {b : Block}
    (hrun : s.halted = false) (ht : s.thread t = .entered b) :
    s.step o (.load t) = some (s.setThread t (.loaded b s.bump.next)) := by
  simp only [step, hrun, ht]

theorem step_compare {o : Overflow} {s : SharedHeap ι} {t : ι} {b : Block}
    {currentPtr blockEnd : ℕ} (hrun : s.halted = false) (ht : s.thread t = .loaded b currentPtr)
    (hend : (o.addU64 b.ptr b.layout.rounded : Outcome Empty ℕ) = .ok blockEnd) :
    s.step o (.compare t)
      = some (s.setThread t (if blockEnd = currentPtr then .matched b currentPtr else .idle)) := by
  simp only [step, hrun, ht, alignUp_layout, Outcome.ok_bind, hend]

theorem step_exchange {o : Overflow} {s : SharedHeap ι} {t : ι} {b : Block} {currentPtr new : ℕ}
    (hrun : s.halted = false) (ht : s.thread t = .matched b currentPtr)
    (hnew : (o.subU64 currentPtr b.layout.rounded : Outcome Empty ℕ) = .ok new) :
    s.step o (.exchange t)
      = some ({ s with bump := s.bump.compareExchange currentPtr new }.setThread t .idle) := by
  simp only [step, hrun, ht, alignUp_layout, Outcome.ok_bind, hnew]

/-- `dealloc` is its load, its comparison and, if that succeeds, its exchange. -/
theorem exec_dealloc {o : Overflow} {h : Heap} {b : Block} {bump : BumpAllocator} (t : ι)
    (hb : b ∈ h.live) (hbump : (h.bump.dealloc o b.ptr b.layout : Outcome Empty _) = .ok bump) :
    ∃ acts, exec (step o) (shared h) acts = some (shared ⟨bump, h.live.erase b⟩ : SharedHeap ι) := by
  -- no other thread moves, so the value loaded is still there at the exchange
  set g : Heap := ⟨h.bump, h.live.erase b⟩
  have henter : (shared h).step o (.dealloc t b) = some ((shared g).setThread t (.entered b)) :=
    if_pos ⟨rfl, rfl, hb⟩
  have hload := step_load (o := o) (s := (shared g).setThread t (.entered b)) rfl
    (Function.update_self ..)
  rw [setThread_setThread] at hload
  rw [BumpAllocator.dealloc, alignUp_layout, Outcome.ok_bind, Outcome.bind_eq_ok] at hbump
  obtain ⟨blockEnd, hend, hbump⟩ := hbump
  have hcompare := step_compare (s := (shared g).setThread t (.loaded b h.bump.next)) rfl
    (Function.update_self ..) hend
  rw [setThread_setThread] at hcompare
  split at hbump
  · rw [Outcome.bind_eq_ok] at hbump
    obtain ⟨new, hnew, hbump⟩ := hbump
    rw [if_pos ‹_›] at hcompare
    have hexchange := step_exchange (s := (shared g).setThread t (.matched b h.bump.next)) rfl
      (Function.update_self ..) hnew
    obtain rfl := Outcome.ok.inj hbump
    refine ⟨[.dealloc t b, .load t, .compare t, .exchange t],
      exec_cons_eq_some.mpr ⟨_, henter, exec_cons_eq_some.mpr ⟨_, hload,
        exec_cons_eq_some.mpr ⟨_, hcompare, exec_cons_eq_some.mpr ⟨_, hexchange, ?_⟩⟩⟩⟩⟩
    change some (((shared ⟨_, h.live.erase b⟩).setThread t _).setThread t .idle) = _
    rw [setThread_setThread, shared_setThread_idle]
    rfl
  · obtain rfl := Outcome.ok.inj hbump
    rw [if_neg ‹_›, shared_setThread_idle] at hcompare
    exact ⟨[.dealloc t b, .load t, .compare t],
      exec_cons_eq_some.mpr ⟨_, henter, exec_cons_eq_some.mpr ⟨_, hload,
        exec_cons_eq_some.mpr ⟨_, hcompare, exec_nil ..⟩⟩⟩⟩

/-- **A call is a run of atomic steps.** -/
theorem step_shared {o : Overflow} {h h' : Heap} {op : Op} (t : ι) (hserved : Served h op)
    (hstep : h.step o op = some h') :
    ∃ acts, exec (step o) (shared h) acts = some (shared h' : SharedHeap ι) := by
  rcases Heap.step_cases hstep with ⟨layout, rfl, hsize, rfl⟩ | ⟨b, rfl, hb, bump, hbump, rfl⟩
  · refine ⟨[.alloc t layout], ?_⟩
    have hptr : h.bump.newPtr ≠ 0 := hserved
    rw [exec_cons_eq_some]
    refine ⟨_, ?_, exec_nil ..⟩
    rw [step, if_pos ⟨rfl, rfl, hsize⟩]
    simp [shared, BumpAllocator.alloc_eq, hptr]
  · exact exec_dealloc t hb hbump

/-- **The calls of one thread are runs of its atomic steps**, up to the first
`alloc` that returns null. -/
theorem exec_shared {o : Overflow} {heapStart heapSize : ℕ} {h : Heap} {ops : List Op} (t : ι)
    (hserved : Along (Heap.step o) Served (Heap.init heapStart heapSize) ops)
    (hrun : exec (Heap.step o) (Heap.init heapStart heapSize) ops = some h) :
    ∃ acts, exec (step o) (init heapStart heapSize) acts = some (shared h : SharedHeap ι) :=
  exec_simulation_along shared (fun _ _ _ => step_shared t) hserved hrun

/-! ### The invariant -/

/-- A live block, or one that a thread is freeing, keeps its bytes reserved:
reserved blocks are apart and end at or below `next`. -/
structure Reserved (heapEnd : ℕ) (s : SharedHeap ι) : Prop where
  end_eq : s.bump.heapEnd = heapEnd
  next_lt : s.bump.next < heapEnd + 2 ^ 63
  live_below : ∀ b ∈ s.live, 0 < b.layout.size ∧ b.stop ≤ s.bump.next
  held_below : ∀ t b, (s.thread t).held = some b → 0 < b.layout.size ∧ b.stop ≤ s.bump.next
  live_apart : s.live.Pairwise Block.Apart
  held_live : ∀ t b, (s.thread t).held = some b → ∀ c ∈ s.live, b.Apart c
  held_apart : ∀ t u b c, t ≠ u → (s.thread t).held = some b → (s.thread u).held = some c →
    b.Apart c
  matched_stop : ∀ t b currentPtr, s.thread t = .matched b currentPtr → b.stop = currentPtr

omit [DecidableEq ι] in
theorem Reserved.init {heapStart heapSize : ℕ} :
    Reserved (heapStart + heapSize) (init heapStart heapSize : SharedHeap ι) where
  end_eq := rfl
  next_lt := show heapStart < heapStart + heapSize + 2 ^ 63 by omega
  live_below := by simp [SharedHeap.init]
  held_below := by simp [SharedHeap.init, Thread.held]
  live_apart := List.Pairwise.nil
  held_live := by simp [SharedHeap.init, Thread.held]
  held_apart := by simp [SharedHeap.init, Thread.held]
  matched_stop := by simp [SharedHeap.init]

omit [DecidableEq ι] in
/-- A new block starts at `next`, above every reserved one. -/
theorem Reserved.alloc {heapEnd : ℕ} {s : SharedHeap ι} (hI : Reserved heapEnd s)
    (hend : heapEnd < 2 ^ 63) {layout : Layout} (hsize : 0 < layout.size)
    (hptr : s.bump.newPtr ≠ 0) (halted : Bool) :
    Reserved heapEnd { s with
      bump := s.bump.fetchAdd layout.rounded
      live := ⟨s.bump.newPtr, layout⟩ :: s.live
      halted := halted } := by
  obtain ⟨hnew, hle⟩ := BumpAllocator.newPtr_of_ne_zero hptr
  rw [hI.end_eq] at hle
  have hlt := layout.rounded_lt
  have hnext : (s.bump.fetchAdd layout.rounded).next = s.bump.next + layout.rounded :=
    Nat.mod_eq_of_lt (by omega)
  have hapart : ∀ b : Block, b.stop ≤ s.bump.next → b.Apart ⟨s.bump.newPtr, layout⟩ :=
    fun b hb => .inl (hb.trans hnew.ge)
  refine ⟨hI.end_eq, ?_, ?_, ?_, ?_, ?_, hI.held_apart, hI.matched_stop⟩ <;> dsimp only
  · rw [hnext]
    omega
  · rw [hnext]
    intro b hb
    rcases List.mem_cons.mp hb with rfl | hb
    · exact ⟨hsize, by rw [Block.stop, hnew]⟩
    · exact ⟨(hI.live_below b hb).1, (hI.live_below b hb).2.trans (Nat.le_add_right ..)⟩
  · rw [hnext]
    intro t b hb
    exact ⟨(hI.held_below t b hb).1, (hI.held_below t b hb).2.trans (Nat.le_add_right ..)⟩
  · refine List.pairwise_cons.mpr ⟨fun b hb => ?_, hI.live_apart⟩
    exact (hapart b (hI.live_below b hb).2).symm
  · intro t b hb c hc
    rcases List.mem_cons.mp hc with rfl | hc
    · exact hapart b (hI.held_below t b hb).2
    · exact hI.held_live t b hb c hc

/-- A block that enters `dealloc` stays reserved, now by the thread. -/
theorem Reserved.dealloc {heapEnd : ℕ} {s : SharedHeap ι} (hI : Reserved heapEnd s) {t : ι}
    {b : Block} (hidle : s.thread t = .idle) (hb : b ∈ s.live) :
    Reserved heapEnd ({ s with live := s.live.erase b }.setThread t (.entered b)) := by
  have hperm := List.perm_cons_erase hb
  obtain ⟨hfront, hrest⟩ :=
    List.pairwise_cons.mp ((hperm.pairwise_iff Block.Apart.symm).mp hI.live_apart)
  have hmem : ∀ c ∈ s.live.erase b, c ∈ s.live := fun c => List.mem_of_mem_erase
  refine ⟨hI.end_eq, hI.next_lt, fun c hc => hI.live_below c (hmem c hc), ?_, hrest, ?_, ?_, ?_⟩
  · intro u c hu
    rcases setThread_cases Thread.held hu with ⟨rfl, ⟨⟩⟩ | ⟨-, hu'⟩
    · exact hI.live_below b hb
    · exact hI.held_below u c hu'
  · intro u c hu d hd
    rcases setThread_cases Thread.held hu with ⟨rfl, ⟨⟩⟩ | ⟨-, hu'⟩
    · exact hfront d hd
    · exact hI.held_live u c hu' d (hmem d hd)
  · intro u v c d huv hu hv
    rcases setThread_cases Thread.held hu with ⟨rfl, ⟨⟩⟩ | ⟨-, hu'⟩ <;>
      rcases setThread_cases Thread.held hv with ⟨rfl, ⟨⟩⟩ | ⟨-, hv'⟩
    · exact absurd rfl huv
    · exact (hI.held_live v d hv' b hb).symm
    · exact hI.held_live u c hu' b hb
    · exact hI.held_apart u v c d huv hu' hv'
  · intro u c currentPtr hu
    rcases setThread_cases id hu with ⟨-, ⟨⟩⟩ | ⟨-, hu'⟩
    exact hI.matched_stop u c currentPtr hu'

/-- A thread may move on with the block it holds, or drop it. -/
theorem Reserved.setThread {heapEnd : ℕ} {s : SharedHeap ι} (hI : Reserved heapEnd s) {t : ι}
    {th : Thread} (hheld : ∀ b, th.held = some b → (s.thread t).held = some b)
    (hmatched : ∀ b currentPtr, th = .matched b currentPtr → b.stop = currentPtr) :
    Reserved heapEnd (s.setThread t th) := by
  have hsub : ∀ u b, ((s.setThread t th).thread u).held = some b →
      (s.thread u).held = some b := by
    intro u b hu
    rcases setThread_cases Thread.held hu with ⟨rfl, hu'⟩ | ⟨-, hu'⟩
    · exact hheld b hu'
    · exact hu'
  refine ⟨hI.end_eq, hI.next_lt, hI.live_below, fun u b hu => hI.held_below u b (hsub u b hu),
    hI.live_apart, fun u b hu => hI.held_live u b (hsub u b hu),
    fun u v b c huv hu hv => hI.held_apart u v b c huv (hsub u b hu) (hsub v c hv), ?_⟩
  intro u b currentPtr hu
  rcases setThread_cases id hu with ⟨-, hu'⟩ | ⟨-, hu'⟩
  · exact hmatched b currentPtr hu'
  · exact hI.matched_stop u b currentPtr hu'

/-- The exchange succeeds only while the block is the topmost reserved one,
so `next` may fall to its start. -/
theorem Reserved.exchange {heapEnd : ℕ} {s : SharedHeap ι} (hI : Reserved heapEnd s) {t : ι}
    {b : Block} {currentPtr new : ℕ} (hmatched : s.thread t = .matched b currentPtr)
    (hnew : new + b.layout.rounded = currentPtr) :
    Reserved heapEnd ({ s with bump := s.bump.compareExchange currentPtr new }.setThread t .idle) := by
  have hheld : (s.thread t).held = some b := by rw [hmatched, Thread.held]
  have hstop := hI.matched_stop t b currentPtr hmatched
  by_cases hcur : s.bump.next = currentPtr
  · have hptr : new = b.ptr := by
      unfold Block.stop at hstop
      omega
    subst hptr
    rw [BumpAllocator.compareExchange, if_pos hcur]
    -- every other reserved block ends below the one that goes
    have hbelow : ∀ c : Block, b.Apart c → 0 < c.layout.size ∧ c.stop ≤ s.bump.next →
        0 < c.layout.size ∧ c.stop ≤ b.ptr :=
      fun c hc h => ⟨h.1, hc.le_of_top h.1 (h.2.trans (by omega))⟩
    set s₁ : SharedHeap ι := { s with bump := { s.bump with next := b.ptr } }
    have hothers : ∀ u c, ((s₁.setThread t .idle).thread u).held = some c →
        u ≠ t ∧ (s.thread u).held = some c := by
      intro u c hu
      rcases setThread_cases Thread.held hu with ⟨-, ⟨⟩⟩ | hu'
      exact hu'
    refine ⟨hI.end_eq, ?_, ?_, ?_, hI.live_apart, ?_, ?_, ?_⟩
    · have := hI.next_lt
      change b.ptr < heapEnd + 2 ^ 63
      omega
    · exact fun c hc => hbelow c (hI.held_live t b hheld c hc) (hI.live_below c hc)
    · intro u c hu
      obtain ⟨hut, hu⟩ := hothers u c hu
      exact hbelow c (hI.held_apart t u b c hut.symm hheld hu) (hI.held_below u c hu)
    · exact fun u c hu => hI.held_live u c (hothers u c hu).2
    · exact fun u v c d huv hu hv =>
        hI.held_apart u v c d huv (hothers u c hu).2 (hothers v d hv).2
    · intro u c currentPtr hu
      rcases setThread_cases id hu with ⟨-, ⟨⟩⟩ | ⟨-, hu'⟩
      exact hI.matched_stop u c currentPtr hu'
  · rw [BumpAllocator.compareExchange, if_neg hcur]
    exact hI.setThread (by simp [Thread.held]) (by simp)

/-- **Every atomic step keeps what is reserved reserved.** -/
theorem Reserved.step {o : Overflow} {heapEnd : ℕ} (hend : heapEnd < 2 ^ 63)
    {s s' : SharedHeap ι} {a : Atomic ι} (hI : Reserved heapEnd s)
    (hstep : s.step o a = some s') (hrunning : s'.halted = false) : Reserved heapEnd s' := by
  obtain ⟨hhalted, hcases⟩ := step_cases hstep
  rcases hcases with ⟨t, layout, -, hsize, rfl⟩ | ⟨t, b, -, hidle, hb, rfl⟩ |
    ⟨t, b, -, ht, rfl⟩ | ⟨t, b, currentPtr, blockEnd, -, ht, hadd, rfl⟩ |
    ⟨t, b, currentPtr, new, -, ht, hsub, rfl⟩ | rfl
  · have hptr : s.bump.newPtr ≠ 0 := of_decide_eq_false hrunning
    rw [if_neg hptr]
    exact hI.alloc hend hsize hptr _
  · exact hI.dealloc hidle hb
  · exact hI.setThread (by simp [ht, Thread.held]) (by simp)
  · have hbelow := (hI.held_below t b (by rw [ht, Thread.held])).2
    have hnext := hI.next_lt
    rw [o.addU64_of_lt (by unfold Block.stop at hbelow; omega)] at hadd
    obtain rfl := Outcome.ok.inj hadd
    split
    · refine hI.setThread (by simp [ht, Thread.held]) ?_
      rintro b currentPtr ⟨⟩
      assumption
    · exact hI.setThread (by simp [Thread.held]) (by simp)
  · have hstop := hI.matched_stop t b currentPtr ht
    unfold Block.stop at hstop
    rw [o.subU64_of_le (by omega)] at hsub
    obtain rfl := Outcome.ok.inj hsub
    exact hI.exchange ht (by omega)
  · cases hrunning

/-- The step that halts leaves the live blocks alone. -/
theorem live_of_halted {o : Overflow} {s s' : SharedHeap ι} {a : Atomic ι}
    (hstep : s.step o a = some s') (hhalted : s'.halted = true) : s'.live = s.live := by
  obtain ⟨hrunning, hcases⟩ := step_cases hstep
  rcases hcases with ⟨t, layout, -, hsize, rfl⟩ | ⟨t, b, -, hidle, hb, rfl⟩ |
    ⟨t, b, -, ht, rfl⟩ | ⟨t, b, currentPtr, blockEnd, -, ht, hadd, rfl⟩ |
    ⟨t, b, currentPtr, new, -, ht, hsub, rfl⟩ | rfl
  · exact if_pos (of_decide_eq_true hhalted)
  · exact absurd hhalted (by simp [setThread, hrunning])
  all_goals rfl

/-- What every reachable state has, the halted ones included. -/
def BlocksApart (heapEnd : ℕ) (s : SharedHeap ι) : Prop :=
  s.live.Pairwise Block.Apart ∧ (s.halted = false → Reserved heapEnd s)

theorem BlocksApart.step {o : Overflow} {heapEnd : ℕ} (hend : heapEnd < 2 ^ 63)
    {s s' : SharedHeap ι} {a : Atomic ι} (hI : BlocksApart heapEnd s)
    (hstep : s.step o a = some s') : BlocksApart heapEnd s' := by
  have hI := hI.2 (step_cases hstep).1
  cases hhalted : s'.halted with
  | false =>
    have hI' := hI.step hend hstep hhalted
    exact ⟨hI'.live_apart, fun _ => hI'⟩
  | true =>
    refine ⟨?_, fun h => absurd hhalted (by simp [h])⟩
    rw [live_of_halted hstep hhalted]
    exact hI.live_apart

/-- **Heap blocks never overlap**, for any number of threads and any
interleaving of their atomic steps. -/
theorem live_blocks_disjoint (o : Overflow) (heapStart heapSize : ℕ)
    (hsize : heapStart + heapSize < 2 ^ 63) (acts : List (Atomic ι)) (s : SharedHeap ι)
    (hrun : exec (step o) (init heapStart heapSize) acts = some s) :
    s.live.Pairwise fun b c => Disjoint b.bytes c.bytes := by
  have hI : BlocksApart (heapStart + heapSize) s :=
    exec_invariant (fun _ _ _ => BlocksApart.step hsize)
      ⟨List.Pairwise.nil, fun _ => Reserved.init⟩ hrun
  exact hI.1.imp fun hbc => hbc.disjoint

/-- One thread is about to exchange when the other makes `next` leave and come
back; the first block is then freed and its bytes are handed out again. -/
def abaRun : List (Atomic Bool) :=
  let b : Block := ⟨HEAP_START, .u64⟩
  let c : Block := ⟨HEAP_START + 8, .u64⟩
  [.alloc true .u64, .dealloc true b, .load true, .compare true,
    .alloc false .u64, .dealloc false c, .load false, .compare false, .exchange false,
    .exchange true, .alloc true .u64, .alloc false .u64]

theorem live_blocks_disjoint_aba :
    ∃ s, exec (step .wrap) (init HEAP_START HEAP_SIZE) abaRun = some s ∧
      s.live = [⟨HEAP_START + 8, .u64⟩, ⟨HEAP_START, .u64⟩] ∧
      s.live.Pairwise fun b c => Disjoint b.bytes c.bytes :=
  ⟨_, rfl, rfl, live_blocks_disjoint .wrap HEAP_START HEAP_SIZE (by decide) abaRun _ rfl⟩

end SharedHeap
