/-
Runs of the kernel heap: where blocks are placed, what a failed request leaves
behind, and what comes back.

`alloc` rounds the size of a request to its own alignment, and adds it to
`next` before it looks whether there was room.  So the place of a block depends
on the sizes of all requests before it, those that failed included; and only
`dealloc` of the last block takes anything back.

* `alloc_aligned_iff` — the layouts a program may use, so that every block is
  aligned: each alignment divides every rounded size;
* `failed_alloc_harmless_iff` — a failed request goes unnoticed only if it was
  for no bytes (or the heap ends at address 0);
* `stack_reclaims` — used as a stack, the heap gets everything back.
-/
import ZuluOs.BumpAllocator

open Transition

namespace Layout

theorem rounded_eq_zero_iff (l : Layout) : l.rounded = 0 ↔ l.size = 0 := by
  constructor
  · intro h
    have hle := l.size_le_rounded
    omega
  · intro h
    have hpos := l.align_pos
    rw [rounded, h, Nat.zero_add, Nat.div_eq_of_lt (by omega), Nat.zero_mul]

/-- An alignment up to a power of two divides it. -/
theorem align_dvd {l : Layout} {n : ℕ} (h : l.align ≤ 2 ^ n) : l.align ∣ 2 ^ n := by
  obtain ⟨k, -, hk⟩ := l.isPowerOfTwo
  rw [hk] at h ⊢
  exact pow_dvd_pow 2 ((Nat.pow_le_pow_iff_right (by decide)).mp h)

end Layout

namespace Heap

/-- All addresses are words, and the end of the heap stays where it is. -/
structure InWords (heapEnd : ℕ) (h : Heap) : Prop where
  end_eq : h.bump.heapEnd = heapEnd
  next_lt : h.bump.next < 2 ^ 64
  live_lt : ∀ b ∈ h.live, b.ptr < 2 ^ 64

theorem InWords.init {heapStart heapSize : ℕ} (h : heapStart + heapSize < 2 ^ 64) :
    InWords (heapStart + heapSize) (init heapStart heapSize) where
  end_eq := rfl
  next_lt := show heapStart < 2 ^ 64 by omega
  live_lt := by simp [Heap.init]

theorem InWords.step {o : Overflow} {heapEnd : ℕ} {h h' : Heap} {op : Op}
    (hI : InWords heapEnd h) (hstep : h.step o op = some h') : InWords heapEnd h' := by
  obtain ⟨hend, hnext, hlive⟩ := hI
  obtain ⟨⟨-, hend'⟩, hnext', hlive'⟩ := step_addresses (P := fun x => x < 2 ^ 64) hlive hnext hlive
    (fun _ _ => Nat.mod_lt _ (by decide)) hstep
  exact ⟨hend'.trans hend, hnext', hlive'⟩

/-! ### Alignment -/

/-- `next` and the live blocks are multiples of `n`. -/
structure Multiples (n : ℕ) (h : Heap) : Prop where
  next_dvd : n ∣ h.bump.next
  live_dvd : ∀ b ∈ h.live, n ∣ b.ptr

/-- The sizes that are added to `next` are multiples of `n`. -/
def AddsMultiple (n : ℕ) : Op → Prop
  | .alloc layout => n ∣ layout.rounded
  | .dealloc _ => True

theorem Multiples.step {o : Overflow} {n heapEnd : ℕ} {h h' : Heap} {op : Op} (hn : n ∣ 2 ^ 64)
    (hop : AddsMultiple n op) (hI : InWords heapEnd h ∧ Multiples n h)
    (hstep : h.step o op = some h') : InWords heapEnd h' ∧ Multiples n h' := by
  obtain ⟨hwords, hnext, hlive⟩ := hI
  obtain ⟨-, hnext', hlive'⟩ := step_addresses (P := fun x => n ∣ x) hwords.live_lt hnext hlive (by
    rintro layout rfl
    exact (Nat.dvd_mod_iff hn).mpr (dvd_add hnext hop)) hstep
  exact ⟨hwords.step hstep, hnext', hlive'⟩

theorem dvd_next_of_exec {o : Overflow} {n heapStart heapSize : ℕ} {h : Heap} {ops : List Op}
    (hn : n ∣ 2 ^ 64) (hsize : heapStart + heapSize < 2 ^ 64) (hstart : n ∣ heapStart)
    (hops : ∀ l, .alloc l ∈ ops → n ∣ l.rounded)
    (hrun : exec (step o) (init heapStart heapSize) ops = some h) : n ∣ h.bump.next := by
  have halong : Along (step o) (fun _ op => AddsMultiple n op) (init heapStart heapSize) ops := by
    refine Along.of_mem ?_ _
    intro op hop _
    cases op with
    | alloc l => exact hops l hop
    | dealloc b => trivial
  have hinit : Multiples n (init heapStart heapSize) := ⟨hstart, by simp [init]⟩
  exact (exec_invariant_along (fun _ _ _ => Multiples.step hn) halong
    ⟨InWords.init hsize, hinit⟩ hrun).2.next_dvd

end Heap

/-- **Alignment, exactly.**  Programs with the layouts of `L` get aligned blocks
only, on every page-aligned heap and in every run, iff the alignment of each of
their layouts divides the rounded size of each. -/
theorem alloc_aligned_iff (o : Overflow) (L : Set Layout) (hL : ∀ l ∈ L, l.align ≤ 4096) :
    (∀ heapStart heapSize, 4096 ∣ heapStart → heapStart + heapSize < 2 ^ 64 → ∀ ops h,
      (∀ l, .alloc l ∈ ops → l ∈ L) →
      exec (Heap.step o) (Heap.init heapStart heapSize) ops = some h →
      ∀ l ∈ L, ∀ ptr bump, (h.bump.alloc o l : Outcome Empty _) = .ok (ptr, bump) →
        ptr ≠ 0 → l.align ∣ ptr) ↔
    ∀ l ∈ L, ∀ l' ∈ L, l.align ∣ l'.rounded := by
  have hpage : ∀ l ∈ L, l.align ∣ 4096 := fun l hl => Layout.align_dvd (n := 12) (hL l hl)
  constructor
  · intro haligned l hl l' hl'
    -- one block of `l'`, which fills the heap, and then one of `l`
    by_cases hzero : l'.size = 0
    · rw [l'.rounded_eq_zero_iff.mpr hzero]
      exact dvd_zero _
    · have hlt := l'.rounded_lt
      have hrun : exec (Heap.step o) (Heap.init 4096 l'.rounded) [.alloc l'] =
          some ⟨⟨4096, 4096 + l'.rounded, 4096 + l'.rounded⟩, [⟨4096, l'⟩]⟩ := by
        rw [exec_cons_eq_some]
        refine ⟨_, ?_, rfl⟩
        rw [Heap.step, if_pos (by omega), BumpAllocator.alloc_eq]
        simp [Heap.init, BumpAllocator.newPtr, BumpAllocator.fetchAdd]
        omega
      have hptr : (⟨4096, 4096 + l'.rounded, 4096 + l'.rounded⟩ : BumpAllocator).newPtr =
          4096 + l'.rounded := by
        simp [BumpAllocator.newPtr]
      have hdvd := haligned 4096 l'.rounded (dvd_refl _) (by omega) _ _ (by simpa using hl') hrun
        l hl _ _ (BumpAllocator.alloc_eq ..) (by rw [hptr]; omega)
      rw [hptr] at hdvd
      exact (Nat.dvd_add_right (hpage l hl)).mp hdvd
  · intro hdvd heapStart heapSize hstart hsize ops h hops hrun l hl ptr bump halloc hptr
    rw [BumpAllocator.alloc_eq, Outcome.ok.injEq, Prod.mk.injEq] at halloc
    obtain ⟨rfl, -⟩ := halloc
    rw [(BumpAllocator.newPtr_of_ne_zero hptr).1]
    exact Heap.dvd_next_of_exec ((hpage l hl).trans (by decide)) hsize ((hpage l hl).trans hstart)
      (fun l' hl' => hdvd l hl l' (hops l' hl')) hrun

/-- A word after a byte is not aligned. -/
theorem alloc_misaligned : ∃ h,
    exec (Heap.step .panic) (Heap.init HEAP_START HEAP_SIZE) [.alloc (.bytes 1 (by decide))]
      = some h ∧
    (h.bump.alloc .panic .u64 : Outcome Empty _) = .ok (HEAP_START + 1,
      ⟨HEAP_START, HEAP_START + HEAP_SIZE, HEAP_START + 9⟩) ∧
    ¬ Layout.u64.align ∣ HEAP_START + 1 :=
  ⟨_, rfl, by decide, by decide⟩

theorem alloc_aligned_iff_words : ∃ h,
    exec (Heap.step .panic) (Heap.init HEAP_START HEAP_SIZE) [.alloc .u64] = some h ∧
    h.bump.newPtr = HEAP_START + 8 ∧ Layout.u64.align ∣ h.bump.newPtr := by
  have hdvd : ∀ l ∈ ({.u64} : Set Layout), ∀ l' ∈ ({.u64} : Set Layout),
      l.align ∣ l'.rounded := by
    rintro _ rfl _ rfl
    decide
  have haligned := (alloc_aligned_iff .panic {.u64} (by rintro _ rfl; decide)).mpr hdvd
  refine ⟨_, rfl, rfl, ?_⟩
  exact haligned HEAP_START HEAP_SIZE (by decide) (by decide) [.alloc .u64] _ (by simp) rfl .u64 rfl
    _ _ (BumpAllocator.alloc_eq ..) (by decide)

/-! ### Failed requests -/

namespace Heap

/-- What a call returns: the pointer of an `alloc`, nothing for a `dealloc`. -/
def answer (o : Overflow) (h : Heap) : Op → ℕ
  | .alloc layout =>
    match (h.bump.alloc o layout : Outcome Empty _) with
    | .ok (ptr, _) => ptr
    | _ => 0
  | .dealloc _ => 0

/-- What a sequence of calls returns; `none` if one of them panics, or is not
allowed by the contract of `GlobalAlloc`. -/
def results (o : Overflow) (h : Heap) : List Op → Option (List ℕ)
  | [] => some []
  | op :: ops => do
    let h' ← h.step o op
    let rest ← results o h' ops
    some (h.answer o op :: rest)

theorem answer_alloc (o : Overflow) (h : Heap) (layout : Layout) :
    h.answer o (.alloc layout) = h.bump.newPtr := by
  rw [answer, BumpAllocator.alloc_eq]

theorem results_cons_of_some {o : Overflow} {h h' : Heap} {op : Op} (hstep : h.step o op = some h')
    (ops : List Op) :
    results o h (op :: ops) = (results o h' ops).map (h.answer o op :: ·) := by
  rw [results, hstep, Option.bind_eq_bind, Option.bind_some]
  cases results o h' ops with
  | none => rfl
  | some rest => rfl

theorem results_cons_of_none {o : Overflow} {h : Heap} {op : Op} (hstep : h.step o op = none)
    (ops : List Op) : results o h (op :: ops) = none := by
  rw [results, hstep]
  rfl

theorem results_append {o : Overflow} {h h' : Heap} {ops : List Op}
    (hrun : exec (step o) h ops = some h') (ops' : List Op) : ∃ first : List ℕ, first.length = ops.length ∧
      results o h (ops ++ ops') = (results o h' ops').map (first ++ ·) := by
  induction ops generalizing h with
  | nil =>
    rw [exec_nil, Option.some_inj] at hrun
    exact ⟨[], rfl, by simp [hrun]⟩
  | cons op ops ih =>
    obtain ⟨t, ht, hrest⟩ := exec_cons_eq_some.mp hrun
    obtain ⟨first, hlen, hfirst⟩ := ih hrest
    refine ⟨h.answer o op :: first, by simp [hlen], ?_⟩
    rw [List.cons_append, results_cons_of_some ht, hfirst, Option.map_map]
    rfl

theorem step_alloc {o : Overflow} {h : Heap} {layout : Layout} (hpos : 0 < layout.size) :
    h.step o (.alloc layout) = some ⟨h.bump.fetchAdd layout.rounded,
      if h.bump.newPtr = 0 then h.live else ⟨h.bump.newPtr, layout⟩ :: h.live⟩ := by
  rw [step, if_pos hpos, BumpAllocator.alloc_eq]

theorem rounded_bytes {n : ℕ} (h : n < 2 ^ 63) : (Layout.bytes n h).rounded = n := by
  simp [Layout.rounded, Layout.bytes]

/-- Requests for bytes move `next` on by any amount, from every heap. -/
theorem exists_advance (k : ℕ) : ∃ ops : List Op, ∀ (o : Overflow) (h : Heap),
    h.bump.next < 2 ^ 64 → ∃ h', exec (step o) h ops = some h' ∧
      h'.bump.next = (h.bump.next + k) % 2 ^ 64 ∧ h'.bump.heapEnd = h.bump.heapEnd := by
  -- the largest size that is left and that a layout can have, again and again
  induction k using Nat.strong_induction_on with
  | _ k ih =>
    by_cases hk : k = 0
    · refine ⟨[], fun o h hlt => ⟨h, rfl, ?_, rfl⟩⟩
      rw [hk, Nat.add_zero, Nat.mod_eq_of_lt hlt]
    · have hn : min k (2 ^ 63 - 1) < 2 ^ 63 := by omega
      obtain ⟨ops, hops⟩ := ih (k - min k (2 ^ 63 - 1)) (by omega)
      refine ⟨.alloc (.bytes _ hn) :: ops, fun o h hlt => ?_⟩
      obtain ⟨h', hrun, hnext, hend⟩ := hops o ⟨h.bump.fetchAdd (Layout.bytes _ hn).rounded,
        if h.bump.newPtr = 0 then h.live else ⟨h.bump.newPtr, .bytes _ hn⟩ :: h.live⟩
        (Nat.mod_lt _ (by decide))
      have hpos : 0 < min k (2 ^ 63 - 1) := by omega
      refine ⟨h', exec_cons_eq_some.mpr ⟨_, step_alloc hpos, hrun⟩, ?_, hend⟩
      rw [hnext, rounded_bytes]
      show ((h.bump.next + min k (2 ^ 63 - 1)) % 2 ^ 64 + (k - min k (2 ^ 63 - 1))) % 2 ^ 64 = _
      rw [Nat.mod_add_mod]
      congr 1
      omega

/-- No request is ever served. -/
structure Barren (h : Heap) : Prop where
  end_eq : h.bump.heapEnd = 0
  live_eq : h.live = []

theorem Barren.newPtr_eq {h : Heap} (hb : Barren h) : h.bump.newPtr = 0 := by
  rw [BumpAllocator.newPtr, hb.end_eq]
  split <;> omega

theorem Barren.step {o : Overflow} {h h' : Heap} {op : Op} (hb : Barren h)
    (hstep : h.step o op = some h') : Barren h' := by
  rcases step_cases hstep with ⟨layout, rfl, -, rfl⟩ | ⟨b, rfl, hmem, -⟩
  · refine ⟨hb.end_eq, ?_⟩
    rw [if_pos hb.newPtr_eq, hb.live_eq]
  · rw [hb.live_eq] at hmem
    exact absurd hmem List.not_mem_nil

theorem Barren.results_eq {o : Overflow} {h h' : Heap} (hb : Barren h) (hb' : Barren h')
    (ops : List Op) : results o h ops = results o h' ops := by
  induction ops generalizing h h' with
  | nil => rfl
  | cons op ops ih =>
    cases op with
    | alloc layout =>
      by_cases hpos : 0 < layout.size
      · have hstep : h.step o (.alloc layout) = _ := step_alloc hpos
        have hstep' : h'.step o (.alloc layout) = _ := step_alloc hpos
        rw [results_cons_of_some hstep, results_cons_of_some hstep',
          ih (hb.step hstep) (hb'.step hstep'), answer_alloc, answer_alloc, hb.newPtr_eq,
          hb'.newPtr_eq]
      · have hnone : ∀ g : Heap, g.step o (.alloc layout) = none := fun g => if_neg hpos
        rw [results_cons_of_none (hnone h), results_cons_of_none (hnone h')]
    | dealloc b =>
      have hnone : ∀ {g : Heap}, Barren g → g.step o (.dealloc b) = none := by
        intro g hg
        rw [Heap.step, hg.live_eq, if_neg List.not_mem_nil]
      rw [results_cons_of_none (hnone hb), results_cons_of_none (hnone hb')]

/-- Two heaps with the same end show themselves to be different, once `next`
of one of them is brought to the end. -/
theorem exists_results_ne {o : Overflow} {h h' : Heap} {heapEnd : ℕ} (hw : InWords heapEnd h)
    (hw' : InWords heapEnd h') (hend : 0 < heapEnd) (hlt : heapEnd < 2 ^ 64)
    (hne : h.bump.next ≠ h'.bump.next) : ∃ later, results o h later ≠ results o h' later := by
  obtain ⟨ops, hops⟩ := exists_advance (heapEnd + 2 ^ 64 - h.bump.next)
  obtain ⟨h₁, hrun₁, hnext₁, hend₁⟩ := hops o h hw.next_lt
  obtain ⟨h₂, hrun₂, hnext₂, hend₂⟩ := hops o h' hw'.next_lt
  refine ⟨ops ++ [.alloc .u64], ?_⟩
  obtain ⟨first₁, hlen₁, hres₁⟩ := results_append hrun₁ [.alloc .u64]
  obtain ⟨first₂, hlen₂, hres₂⟩ := results_append hrun₂ [.alloc .u64]
  have hone : ∀ g : Heap, results o g [.alloc .u64] = some [g.bump.newPtr] := by
    intro g
    rw [results_cons_of_some (step_alloc (by decide)), answer_alloc]
    rfl
  -- the first heap now serves the request at its end, the second does not
  have hptr₁ : h₁.bump.newPtr = heapEnd := by
    have hlt₁ := hw.next_lt
    rw [BumpAllocator.newPtr, hend₁, hw.end_eq, hnext₁]
    split <;> omega
  have hptr₂ : h₂.bump.newPtr ≠ heapEnd := by
    have hlt₁ := hw.next_lt
    have hlt₂ := hw'.next_lt
    rw [BumpAllocator.newPtr, hend₂, hw'.end_eq, hnext₂]
    split <;> omega
  rw [hres₁, hres₂, hone, hone, hptr₁]
  intro heq
  have happ : first₁ ++ [heapEnd] = first₂ ++ [h₂.bump.newPtr] := Option.some.inj heq
  have hlast := (List.append_inj happ (hlen₁.trans hlen₂.symm)).2
  exact hptr₂ (List.singleton_inj.mp hlast).symm

end Heap

/-- **What a failed request leaves behind, exactly.**  After a request that got
a null pointer all later calls return what they would have without it, iff the
request was for no bytes or the heap ends at address 0. -/
theorem failed_alloc_harmless_iff (o : Overflow) (heapStart heapSize : ℕ)
    (hsize : heapStart + heapSize < 2 ^ 64) (ops : List Op) (h : Heap)
    (hrun : exec (Heap.step o) (Heap.init heapStart heapSize) ops = some h)
    (layout : Layout) (bump : BumpAllocator)
    (hnull : (h.bump.alloc o layout : Outcome Empty _) = .ok (0, bump)) :
    (∀ later, Heap.results o ⟨bump, h.live⟩ later = Heap.results o h later) ↔
      layout.size = 0 ∨ heapStart + heapSize = 0 := by
  have hwords := exec_invariant (fun _ _ _ => Heap.InWords.step) (Heap.InWords.init hsize) hrun
  have hlt := hwords.next_lt
  rw [BumpAllocator.alloc_eq, Outcome.ok.injEq, Prod.mk.injEq] at hnull
  obtain ⟨-, rfl⟩ := hnull
  constructor
  · intro hsame
    by_contra hcon
    obtain ⟨hpos, hend⟩ := not_or.mp hcon
    have hwords' : Heap.InWords (heapStart + heapSize) ⟨h.bump.fetchAdd layout.rounded, h.live⟩ :=
      ⟨hwords.end_eq, Nat.mod_lt _ (by decide), hwords.live_lt⟩
    have hne : (h.bump.next + layout.rounded) % 2 ^ 64 ≠ h.bump.next := by
      have hround := layout.rounded_lt
      have hround_pos := Nat.pos_of_ne_zero (mt layout.rounded_eq_zero_iff.mp hpos)
      omega
    obtain ⟨later, hlater⟩ := Heap.exists_results_ne (o := o) hwords' hwords
      (Nat.pos_of_ne_zero hend) hsize hne
    exact hlater (hsame later)
  · rintro (hzero | hend) later
    · -- nothing is added to `next`
      have hsame : h.bump.fetchAdd layout.rounded = h.bump := by
        rw [layout.rounded_eq_zero_iff.mpr hzero, BumpAllocator.fetchAdd, Nat.add_zero,
          Nat.mod_eq_of_lt hlt]
      rw [hsame]
    · have hbarren := exec_invariant (fun _ _ _ => Heap.Barren.step)
        (show Heap.Barren (Heap.init heapStart heapSize) from ⟨hend, rfl⟩) hrun
      have hbarren' : Heap.Barren ⟨h.bump.fetchAdd layout.rounded, h.live⟩ :=
        ⟨hbarren.end_eq, hbarren.live_eq⟩
      exact hbarren'.results_eq hbarren later

/-- The heap is given away with one byte too much, the next request fails, and
the first block is freed: without the failed request its place is used again,
with it nothing is left. -/
theorem failed_alloc_noticed : ∃ h bump,
    exec (Heap.step .panic) (Heap.init HEAP_START HEAP_SIZE)
      [.alloc (.bytes (HEAP_SIZE + 1) (by decide))] = some h ∧
    (h.bump.alloc .panic .u64 : Outcome Empty _) = .ok (0, bump) ∧
    ∃ later, Heap.results .panic h later = some [0, HEAP_START] ∧
      Heap.results .panic ⟨bump, h.live⟩ later = some [0, 0] :=
  ⟨_, _, rfl, rfl, [.dealloc ⟨HEAP_START, .bytes (HEAP_SIZE + 1) (by decide)⟩, .alloc .u64],
    by decide, by decide⟩

theorem failed_alloc_harmless_iff_full : ∃ h bump,
    exec (Heap.step .panic) (Heap.init HEAP_START HEAP_SIZE)
      [.alloc (.bytes (HEAP_SIZE + 1) (by decide))] = some h ∧
    (h.bump.alloc .panic .u64 : Outcome Empty _) = .ok (0, bump) ∧
    ¬ ∀ later, Heap.results .panic ⟨bump, h.live⟩ later = Heap.results .panic h later := by
  refine ⟨_, _, rfl, rfl, ?_⟩
  rw [failed_alloc_harmless_iff .panic HEAP_START HEAP_SIZE (by decide)
    [.alloc (.bytes (HEAP_SIZE + 1) (by decide))] _ rfl .u64 _ rfl]
  decide

/-! ### Stacks of blocks -/

/-- The calls of a program that frees what it opened last. -/
inductive StackOp where
  | alloc (layout : Layout)
  | free

/-- The layouts of the open blocks, the latest first. -/
def openStep (opened : List Layout) : StackOp → Option (List Layout)
  | .alloc layout => some (layout :: opened)
  | .free =>
    match opened with
    | [] => none
    | _ :: rest => some rest

/-- The rounded sizes of the open blocks together. -/
def total (opened : List Layout) : ℕ := (opened.map Layout.rounded).sum

/-- No more than `room` is open, and no block is empty. -/
def WithinRoom (room : ℕ) (opened : List Layout) : StackOp → Prop
  | .alloc layout => 0 < layout.size ∧ total (layout :: opened) ≤ room
  | .free => True

instance (room : ℕ) (opened : List Layout) : ∀ op, Decidable (WithinRoom room opened op)
  | .alloc _ => inferInstanceAs (Decidable (_ ∧ _))
  | .free => inferInstanceAs (Decidable True)

theorem total_cons (layout : Layout) (opened : List Layout) :
    total (layout :: opened) = layout.rounded + total opened := by
  rw [total, List.map_cons, List.sum_cons, total]

namespace Heap

/-- The call on the heap: `free` is `dealloc` of the latest live block. -/
def stackStep (o : Overflow) (h : Heap) : StackOp → Option Heap
  | .alloc layout => h.step o (.alloc layout)
  | .free => h.live.head?.bind fun b => h.step o (.dealloc b)

/-- The open blocks, one after the other from `start`. -/
def placed (start : ℕ) : List Layout → List Block
  | [] => []
  | layout :: rest => ⟨start + total rest, layout⟩ :: placed start rest

/-- The heap `⟨a, live⟩` with more blocks open. -/
def pile (a : BumpAllocator) (live : List Block) (opened : List Layout) : Heap :=
  ⟨{ a with next := a.next + total opened }, placed a.next opened ++ live⟩

theorem pile_newPtr {a : BumpAllocator} {live : List Block} {opened : List Layout}
    (h : a.next + total opened ≤ a.heapEnd) :
    (pile a live opened).bump.newPtr = a.next + total opened := by
  exact if_neg (Nat.not_lt.mpr h)

theorem pile_live_cons (a : BumpAllocator) (live : List Block) (layout : Layout)
    (opened : List Layout) : (pile a live (layout :: opened)).live =
      ⟨a.next + total opened, layout⟩ :: (pile a live opened).live := rfl

theorem stackStep_pile {o : Overflow} {a : BumpAllocator} {live : List Block}
    (hpos : 0 < a.next) (hend : a.next ≤ a.heapEnd) (hword : a.heapEnd < 2 ^ 64)
    (opened : List Layout) (op : StackOp) (opened' : List Layout)
    (hroom : WithinRoom (a.heapEnd - a.next) opened op) (htotal : total opened ≤ a.heapEnd - a.next)
    (hstep : openStep opened op = some opened') :
    total opened' ≤ a.heapEnd - a.next ∧
      (pile a live opened).stackStep o op = some (pile a live opened') := by
  cases op with
  | alloc layout =>
    obtain rfl := Option.some.inj hstep
    obtain ⟨hsize, hle⟩ := hroom
    refine ⟨hle, ?_⟩
    rw [total_cons] at hle
    have hptr : (pile a live opened).bump.newPtr = a.next + total opened := pile_newPtr (by omega)
    rw [stackStep, step_alloc hsize, if_neg (by omega), hptr, pile, pile, placed,
      BumpAllocator.fetchAdd, List.cons_append, total_cons]
    congr 3
    dsimp only
    omega
  | free =>
    cases opened with
    | nil => cases hstep
    | cons layout rest =>
      obtain rfl := Option.some.inj hstep
      rw [total_cons] at htotal
      refine ⟨by omega, ?_⟩
      -- the end of the block is `next`, so that `dealloc` takes it back
      have hdealloc : ((pile a live (layout :: rest)).bump.dealloc o (a.next + total rest) layout :
          Outcome Empty _) = .ok { a with next := a.next + total rest } := by
        rw [BumpAllocator.dealloc, alignUp_layout, Outcome.ok_bind, o.addU64_of_lt (by omega),
          Outcome.ok_bind, pile, total_cons, if_pos (by dsimp only; omega),
          o.subU64_of_le (by dsimp only; omega), Outcome.ok_bind, BumpAllocator.compareExchange,
          if_pos rfl]
        congr 2
        dsimp only
        omega
      rw [stackStep, pile_live_cons, List.head?_cons, Option.bind_some, step, pile_live_cons,
        if_pos List.mem_cons_self, hdealloc, List.erase_cons_head]
      rfl

end Heap

/-- **Stacks come back.**  A program that frees what it opened last, and never
has more open than there is room from `next` on, gets every block it asks for,
between `next` and the end of the heap, and leaves the heap as it found it. -/
theorem stack_reclaims (o : Overflow) (a : BumpAllocator) (live : List Block)
    (hstart : 0 < a.heapStart) (hnext : a.heapStart ≤ a.next) (hend : a.next ≤ a.heapEnd)
    (hword : a.heapEnd < 2 ^ 64) (ops : List StackOp) (hops : exec openStep [] ops = some [])
    (hroom : Along openStep (WithinRoom (a.heapEnd - a.next)) [] ops) :
    (∀ (before : List StackOp) (layout : Layout) (after : List StackOp),
      ops = before ++ StackOp.alloc layout :: after →
      ∃ (h : Heap) (ptr : ℕ) (bump : BumpAllocator),
        exec (Heap.stackStep o) ⟨a, live⟩ before = some h ∧
        (h.bump.alloc o layout : Outcome Empty _) = .ok (ptr, bump) ∧
        ptr ≠ 0 ∧ a.next ≤ ptr ∧ ptr + layout.size ≤ a.heapEnd) ∧
    exec (Heap.stackStep o) ⟨a, live⟩ ops = some ⟨a, live⟩ := by
  have hpile : ∀ {ops opened}, Along openStep (WithinRoom (a.heapEnd - a.next)) [] ops →
      exec openStep [] ops = some opened →
      total opened ≤ a.heapEnd - a.next ∧
        exec (Heap.stackStep o) ⟨a, live⟩ ops = some (Heap.pile a live opened) := by
    intro ops opened halong hrun
    exact exec_map_along (I := fun opened => total opened ≤ a.heapEnd - a.next) (Heap.pile a live)
      (Heap.stackStep_pile (by omega) hend hword) halong (Nat.zero_le _) hrun
  refine ⟨?_, (hpile hroom hops).2⟩
  rintro before layout after rfl
  obtain ⟨opened, hbefore, hafter⟩ := exec_append_eq_some.mp hops
  obtain ⟨halong, hrest⟩ := hroom.of_append hbefore
  obtain ⟨htotal, hrun⟩ := hpile halong hbefore
  obtain ⟨-, hle⟩ := hrest.1
  have hsize := layout.size_le_rounded
  rw [total_cons] at hle
  refine ⟨_, _, _, hrun, BumpAllocator.alloc_eq .., ?_⟩
  rw [Heap.pile_newPtr (by omega)]
  omega

theorem stack_reclaims_nested :
    exec (Heap.stackStep .panic) (Heap.init HEAP_START HEAP_SIZE)
      [.alloc (.bytes 3 (by decide)), .alloc .u64, .free, .alloc (.bytes 5 (by decide)), .free, .free]
      = some (Heap.init HEAP_START HEAP_SIZE) :=
  (stack_reclaims .panic ⟨HEAP_START, HEAP_START + HEAP_SIZE, HEAP_START⟩ [] (by decide)
    (by decide) (by decide) (by decide) _ (by decide) (by decide)).2
