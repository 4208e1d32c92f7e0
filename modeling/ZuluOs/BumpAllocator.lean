/-
The kernel heap: `BumpAllocator` of `allocator/bump.rs` and `align_up` of
`allocator/mod.rs`.

`alloc` bumps `next` by the rounded size and only then looks at where the
block starts; `dealloc` moves `next` back when the block is the last one.
This file models the calls as one thread makes them, and runs of calls as
lists of operations on a `Heap`, the allocator with its live blocks.

* `alignUp_layout` — on a valid layout `align_up` rounds the size up, and
  overflows nowhere;
* `alloc_eq` — what `alloc` does;
* `Heap.step_cases` — what one call can do to a heap;
* `Heap.step_addresses` — and to the addresses it holds;
* `alloc_contained_iff` — in a run whose requests have fitted so far, a block
  lies in the heap iff its request fits too.
-/
import ZuluOs.Outcome
import ZuluOs.Transition

open Transition

/-- `HEAP_START` and `HEAP_SIZE` -/
def HEAP_START : ℕ := 0x444444440000
def HEAP_SIZE : ℕ := 100 * 1024

/-! ### Layouts -/

/-- A valid `core::alloc::Layout`: the alignment is a power of two, and the
size rounded up to it does not exceed `isize::MAX`. -/
structure Layout where
  size : ℕ
  align : ℕ
  isPowerOfTwo : ∃ k < 64, align = 2 ^ k
  size_le : size + align ≤ 2 ^ 63
deriving DecidableEq

namespace Layout

/-- `Layout::array::<u8>(n)` -/
def bytes (n : ℕ) (h : n < 2 ^ 63) : Layout := ⟨n, 1, ⟨0, by decide⟩, h⟩

/-- `Layout::new::<u64>()` -/
def u64 : Layout := ⟨8, 8, ⟨3, by decide⟩, by decide⟩

/-- The size rounded up to the alignment. -/
def rounded (l : Layout) : ℕ := (l.size + l.align - 1) / l.align * l.align

theorem align_pos (l : Layout) : 0 < l.align := by
  obtain ⟨k, -, hk⟩ := l.isPowerOfTwo
  rw [hk]
  exact Nat.two_pow_pos k

theorem size_le_rounded (l : Layout) : l.size ≤ l.rounded := by
  have hpos := l.align_pos
  have hmod := Nat.mod_lt (l.size + l.align - 1) hpos
  have hdiv := Nat.div_add_mod' (l.size + l.align - 1) l.align
  unfold rounded
  omega

theorem rounded_lt (l : Layout) : l.rounded < 2 ^ 63 := by
  have hpos := l.align_pos
  have hle := Nat.div_mul_le_self (l.size + l.align - 1) l.align
  have hsize := l.size_le
  unfold rounded
  omega

end Layout

variable {ε : Type}

/-- `align_up` -/
def alignUp (o : Overflow) (value align : ℕ) : Outcome ε ℕ := do
  let sum ← o.addU64 value align
  let top ← o.subU64 sum 1
  let mask ← o.subU64 align 1
  .ok (top &&& notU64 mask)

/-- **`align_up` rounds up**, and nothing overflows on a valid layout. -/
theorem alignUp_layout (o : Overflow) (l : Layout) :
    (alignUp o l.size l.align : Outcome ε ℕ) = .ok l.rounded := by
  have hpos := l.align_pos
  have hsize := l.size_le
  rw [alignUp, o.addU64_of_lt (by omega), Outcome.ok_bind, o.subU64_of_le (by omega),
    Outcome.ok_bind, o.subU64_of_le hpos, Outcome.ok_bind, Layout.rounded]
  obtain ⟨k, hk, halign⟩ := l.isPowerOfTwo
  rw [halign] at hsize ⊢
  rw [and_notU64_two_pow (by omega) hk]

/-! ### The allocator -/

/-- `BumpAllocator`; a null pointer is `0`. -/
structure BumpAllocator where
  heapStart : ℕ
  heapEnd : ℕ
  next : ℕ
deriving DecidableEq, Repr

namespace BumpAllocator

/-- `init` -/
def init (o : Overflow) (heapStart heapSize : ℕ) : Outcome ε BumpAllocator := do
  let heapEnd ← o.addU64 heapStart heapSize
  .ok ⟨heapStart, heapEnd, heapStart⟩

/-- `next.fetch_add(size)`: atomics wrap in every build. -/
def fetchAdd (a : BumpAllocator) (size : ℕ) : BumpAllocator :=
  { a with next := (a.next + size) % 2 ^ 64 }

/-- `next.compare_exchange(current, new)` -/
def compareExchange (a : BumpAllocator) (current new : ℕ) : BumpAllocator :=
  if a.next = current then { a with next := new } else a

/-- The pointer `alloc` returns, read off the value `fetch_add` found. -/
def newPtr (a : BumpAllocator) : ℕ := if a.heapEnd < a.next then 0 else a.next

/-- `alloc` -/
def alloc (o : Overflow) (a : BumpAllocator) (layout : Layout) :
    Outcome ε (ℕ × BumpAllocator) := do
  let size ← alignUp o layout.size layout.align
  .ok (a.newPtr, a.fetchAdd size)

/-- `dealloc` -/
def dealloc (o : Overflow) (a : BumpAllocator) (ptr : ℕ) (layout : Layout) :
    Outcome ε BumpAllocator := do
  let size ← alignUp o layout.size layout.align
  let currentPtr := a.next
  let blockEnd ← o.addU64 ptr size
  if blockEnd = currentPtr then do
    let new ← o.subU64 currentPtr size
    .ok (a.compareExchange currentPtr new)
  else .ok a

theorem alloc_eq (o : Overflow) (a : BumpAllocator) (layout : Layout) :
    (a.alloc o layout : Outcome ε _)
      = .ok (a.newPtr, a.fetchAdd layout.rounded) := by
  rw [alloc, alignUp_layout, Outcome.ok_bind]

theorem newPtr_of_ne_zero {a : BumpAllocator} (h : a.newPtr ≠ 0) :
    a.newPtr = a.next ∧ a.next ≤ a.heapEnd := by
  unfold newPtr at *
  split at h
  · exact absurd rfl h
  · rw [if_neg ‹_›]
    exact ⟨rfl, by omega⟩

/-- A `dealloc` that returns leaves the allocator as it was, or moves `next`
back to the start of the block. -/
theorem dealloc_cases {o : Overflow} {a a' : BumpAllocator} {ptr : ℕ} {layout : Layout}
    (hptr : ptr < 2 ^ 64) (h : (a.dealloc o ptr layout : Outcome ε _) = .ok a') :
    a' = a ∨ (ptr + layout.rounded) % 2 ^ 64 = a.next ∧ a' = { a with next := ptr } := by
  have hlt := layout.rounded_lt
  rw [dealloc, alignUp_layout, Outcome.ok_bind, Outcome.bind_eq_ok] at h
  obtain ⟨blockEnd, hend, h⟩ := h
  split at h
  · rename_i hcur
    subst hcur
    rw [Outcome.bind_eq_ok] at h
    obtain ⟨new, hnew, h⟩ := h
    rw [compareExchange, if_pos rfl] at h
    obtain rfl := Outcome.ok.inj h
    right
    by_cases hover : ptr + layout.rounded < 2 ^ 64
    · rw [o.addU64_of_lt hover] at hend
      obtain hend := Outcome.ok.inj hend
      rw [o.subU64_of_le (by omega)] at hnew
      obtain rfl := Outcome.ok.inj hnew
      refine ⟨by omega, ?_⟩
      rw [← hend, Nat.add_sub_cancel]
    · -- the end wraps, and so does the subtraction that undoes it
      cases o with
      | panic =>
        rw [Overflow.addU64_panic, if_neg hover] at hend
        cases hend
      | wrap =>
        rw [Overflow.addU64_wrap] at hend
        obtain hend := Outcome.ok.inj hend
        rw [Overflow.subU64, if_neg (by omega), Overflow.overflowed] at hnew
        obtain rfl := Outcome.ok.inj hnew
        refine ⟨by omega, ?_⟩
        congr 1
        omega
  · left
    exact (Outcome.ok.inj h).symm

end BumpAllocator

/-! ### Runs of calls -/

/-- A block: what `alloc` returned, and the layout it was asked for. -/
structure Block where
  ptr : ℕ
  layout : Layout
deriving DecidableEq

/-- The allocator with the blocks that are live: returned and not yet passed
to `dealloc`. -/
structure Heap where
  bump : BumpAllocator
  live : List Block
deriving DecidableEq

/-- The calls a program makes. -/
inductive Op where
  | alloc (layout : Layout)
  | dealloc (b : Block)

namespace Heap

/-- The heap right after `init`. -/
def init (heapStart heapSize : ℕ) : Heap :=
  ⟨⟨heapStart, heapStart + heapSize, heapStart⟩, []⟩

/-- The heap starts where `BumpAllocator::init` leaves the allocator. -/
theorem init_bump (o : Overflow) {heapStart heapSize : ℕ} (h : heapStart + heapSize < 2 ^ 64) :
    (BumpAllocator.init o heapStart heapSize : Outcome ε BumpAllocator)
      = .ok (init heapStart heapSize).bump := by
  rw [BumpAllocator.init, o.addU64_of_lt h, Outcome.ok_bind, init]

/-- One call, by the contract of `GlobalAlloc`: layouts have a size, and only
live blocks are freed, with their own layout. -/
def step (o : Overflow) (h : Heap) : Op → Option Heap
  | .alloc layout =>
    if 0 < layout.size then
      match (h.bump.alloc o layout : Outcome Empty _) with
      | .ok (ptr, bump) =>
        some ⟨bump, if ptr = 0 then h.live else ⟨ptr, layout⟩ :: h.live⟩
      | _ => none
    else none
  | .dealloc b =>
    if b ∈ h.live then
      match (h.bump.dealloc o b.ptr b.layout : Outcome Empty _) with
      | .ok bump => some ⟨bump, h.live.erase b⟩
      | _ => none
    else none

/-- Everything one call can do. -/
theorem step_cases {o : Overflow} {h h' : Heap} {op : Op} (hstep : h.step o op = some h') :
    (∃ layout, op = .alloc layout ∧ 0 < layout.size ∧
      h' = ⟨h.bump.fetchAdd layout.rounded,
        if h.bump.newPtr = 0 then h.live else ⟨h.bump.newPtr, layout⟩ :: h.live⟩) ∨
    (∃ b, op = .dealloc b ∧ b ∈ h.live ∧
      ∃ bump, (h.bump.dealloc o b.ptr b.layout : Outcome Empty _) = .ok bump ∧
        h' = ⟨bump, h.live.erase b⟩) := by
  cases op with
  | alloc layout =>
    rw [step, BumpAllocator.alloc_eq] at hstep
    split at hstep
    · exact .inl ⟨layout, rfl, ‹_›, (Option.some.inj hstep).symm⟩
    · cases hstep
  | dealloc b =>
    rw [step] at hstep
    split at hstep
    · split at hstep
      · exact .inr ⟨b, rfl, ‹_›, _, ‹_›, (Option.some.inj hstep).symm⟩
      · cases hstep
    · cases hstep

/-- What holds of `next` and of the live blocks holds after a call, if it holds
of where the call puts `next`; and the bounds of the heap stay. -/
theorem step_addresses {o : Overflow} {h h' : Heap} {op : Op} {P : ℕ → Prop}
    (hword : ∀ b ∈ h.live, b.ptr < 2 ^ 64) (hnext : P h.bump.next) (hlive : ∀ b ∈ h.live, P b.ptr)
    (hadd : ∀ layout, op = .alloc layout → P ((h.bump.next + layout.rounded) % 2 ^ 64))
    (hstep : h.step o op = some h') :
    (h'.bump.heapStart = h.bump.heapStart ∧ h'.bump.heapEnd = h.bump.heapEnd) ∧
      P h'.bump.next ∧ ∀ b ∈ h'.live, P b.ptr := by
  rcases step_cases hstep with ⟨layout, rfl, -, rfl⟩ | ⟨b, rfl, hb, bump, hbump, rfl⟩
  · refine ⟨⟨rfl, rfl⟩, hadd layout rfl, ?_⟩
    intro b hb
    dsimp only at hb
    split at hb
    · exact hlive b hb
    · rcases List.mem_cons.mp hb with rfl | hb
      · rw [(BumpAllocator.newPtr_of_ne_zero ‹_›).1]
        exact hnext
      · exact hlive b hb
  · have hrest : ∀ c ∈ h.live.erase b, P c.ptr :=
      fun c hc => hlive c (List.mem_of_mem_erase hc)
    rcases BumpAllocator.dealloc_cases (hword b hb) hbump with rfl | ⟨-, rfl⟩
    · exact ⟨⟨rfl, rfl⟩, hnext, hrest⟩
    · exact ⟨⟨rfl, rfl⟩, hlive b hb, hrest⟩

/-- There is room for the request, if it is going to be served at all. -/
def HasRoom (a : BumpAllocator) (layout : Layout) : Prop :=
  0 < a.next → a.next ≤ a.heapEnd → a.next + layout.size ≤ a.heapEnd

instance (a : BumpAllocator) (layout : Layout) : Decidable (HasRoom a layout) :=
  inferInstanceAs (Decidable (_ → _ → _))

/-- The requests the bounds test is good for: those with room, which do not
wrap the counter to below the heap. -/
def Fits (h : Heap) : Op → Prop
  | .alloc layout => HasRoom h.bump layout ∧
      h.bump.heapStart ≤ (h.bump.next + layout.rounded) % 2 ^ 64
  | .dealloc _ => True

instance (h : Heap) : ∀ op, Decidable (h.Fits op)
  | .alloc _ => inferInstanceAs (Decidable (_ ∧ _))
  | .dealloc _ => inferInstanceAs (Decidable True)

/-- What requests that fit keep up: the bounds stay, and neither `next` nor a
live block is below the heap. -/
structure Above (heapStart heapEnd : ℕ) (h : Heap) : Prop where
  start_eq : h.bump.heapStart = heapStart
  end_eq : h.bump.heapEnd = heapEnd
  next_mem : heapStart ≤ h.bump.next ∧ h.bump.next < 2 ^ 64
  live_mem : ∀ b ∈ h.live, heapStart ≤ b.ptr ∧ b.ptr < 2 ^ 64

theorem Above.init {heapStart heapSize : ℕ} (h : heapStart + heapSize < 2 ^ 64) :
    Above heapStart (heapStart + heapSize) (init heapStart heapSize) where
  start_eq := rfl
  end_eq := rfl
  next_mem := ⟨le_rfl, show heapStart < 2 ^ 64 by omega⟩
  live_mem := by simp [Heap.init]

/-- A call that fits keeps the heap above its start. -/
theorem Above.step {o : Overflow} {heapStart heapEnd : ℕ} {h h' : Heap} {op : Op}
    (hfits : h.Fits op) (hI : Above heapStart heapEnd h) (hstep : h.step o op = some h') :
    Above heapStart heapEnd h' := by
  obtain ⟨hs, he, hnext, hlive⟩ := hI
  obtain ⟨⟨hs', he'⟩, hnext', hlive'⟩ := step_addresses (P := fun x => heapStart ≤ x ∧ x < 2 ^ 64)
    (fun b hb => (hlive b hb).2) hnext hlive (by
      rintro layout rfl
      exact ⟨hs ▸ hfits.2, Nat.mod_lt _ (by decide)⟩) hstep
  exact ⟨hs'.trans hs, he'.trans he, hnext', hlive'⟩

end Heap

/-- **Heap containment, exactly.**  In a run whose requests have fitted so
far, a non-null block lies in the heap iff there was room for it. -/
theorem alloc_contained_iff (o : Overflow) (heapStart heapSize : ℕ)
    (hsize : heapStart + heapSize < 2 ^ 64) (ops : List Op) (h : Heap)
    (hrun : exec (Heap.step o) (Heap.init heapStart heapSize) ops = some h)
    (hfits : Along (Heap.step o) Heap.Fits (Heap.init heapStart heapSize) ops)
    (layout : Layout) (ptr : ℕ) (bump : BumpAllocator)
    (halloc : (h.bump.alloc o layout : Outcome Empty _) = .ok (ptr, bump)) :
    (ptr ≠ 0 → heapStart ≤ ptr ∧ ptr + layout.size ≤ heapStart + heapSize) ↔
      Heap.HasRoom h.bump layout := by
  obtain ⟨-, he, hnext, -⟩ := exec_invariant_along (fun _ _ _ => Heap.Above.step) hfits
    (Heap.Above.init hsize) hrun
  rw [BumpAllocator.alloc_eq, Outcome.ok.injEq, Prod.mk.injEq] at halloc
  obtain ⟨rfl, -⟩ := halloc
  rw [Heap.HasRoom, BumpAllocator.newPtr, he]
  split <;> omega

/-- A request of one byte more than the whole heap is served from a fresh
heap. -/
theorem alloc_not_contained :
    (Heap.init HEAP_START HEAP_SIZE).bump.alloc .panic (Layout.bytes (HEAP_SIZE + 1) (by decide))
      = (.ok (HEAP_START, ⟨HEAP_START, HEAP_START + HEAP_SIZE, HEAP_START + (HEAP_SIZE + 1)⟩) :
        Outcome Empty _) ∧
    ¬ HEAP_START + (HEAP_SIZE + 1) ≤ HEAP_START + HEAP_SIZE := by
  decide

theorem alloc_contained_iff_second :
    Along (Heap.step .panic) Heap.Fits (Heap.init HEAP_START HEAP_SIZE) [.alloc .u64] ∧
    ((HEAP_START + 8 ≠ 0 → HEAP_START ≤ HEAP_START + 8 ∧
        HEAP_START + 8 + 8 ≤ HEAP_START + HEAP_SIZE) ↔
      Heap.HasRoom ⟨HEAP_START, HEAP_START + HEAP_SIZE, HEAP_START + 8⟩ .u64) :=
  ⟨by decide, alloc_contained_iff .panic HEAP_START HEAP_SIZE (by decide) [.alloc .u64]
    ⟨⟨HEAP_START, HEAP_START + HEAP_SIZE, HEAP_START + 8⟩, [⟨HEAP_START, .u64⟩]⟩
    (by decide) (by decide) .u64 (HEAP_START + 8)
    ⟨HEAP_START, HEAP_START + HEAP_SIZE, HEAP_START + 16⟩ (by decide)⟩
