/-
Mapping loops that run to their end.

A loop that maps pages fails when the allocator is out of frames, when a page is
mapped already, or when `map_to` fails.  `map_to` needs frames for the page
tables it has to make: at most one for each level below the top, which is the
`k` of `Mapper.Serves`.

* `drawingMapper_serves` — the mapper that always draws `k` frames serves with `k`;
* `Mapper.Serves.mapsFresh` — one page, for `k + 1` frames;
* `mapLoop_returns` — a loop over unmapped pages, for `k + 1` frames each.
-/
import ZuluOs.FrameOwnership

open BootInfoFrameAllocator

variable {ε M : Type} {memoryMap : List MemoryRegion} {n k : ℕ} {a a' : BootInfoFrameAllocator}

/-- The allocator has `n` more frames. -/
structure Supply (memoryMap : List MemoryRegion) (n : ℕ) (a : BootInfoFrameAllocator) : Prop where
  map_eq : a.memoryMap = memoryMap
  enough : a.next + n ≤ (usableFrames memoryMap).length

theorem Supply.mono (h : Supply memoryMap n a) {n' : ℕ} (hle : n' ≤ n) : Supply memoryMap n' a :=
  ⟨h.map_eq, by have := h.enough; omega⟩

/-- What is assumed of a mapper whose calls succeed: `map_to` maps an unmapped
page if the allocator has `k` more frames, and draws no more than those;
`update_flags` goes through on a mapped page. -/
structure Mapper.Serves (mapper : Mapper M BootInfoFrameAllocator) (memoryMap : List MemoryRegion)
    (k : ℕ) : Prop where
  mapTo : ∀ {n m a page}, mapper.table m page = .notMapped → Supply memoryMap (k + n) a →
    ∀ frame flags, ∃ m' a', mapper.mapTo m a page frame flags = .ok (m', a') ∧
      Supply memoryMap n a'
  updateFlags : ∀ {m page frame old}, mapper.table m page = .mapped frame old →
    ∀ flags, ∃ m', mapper.updateFlags m page flags = .ok m'

theorem drawingMapper_serves (o : Overflow) (k : ℕ) (hdisj : DisjointRegions memoryMap) :
    (drawingMapper o k).Serves memoryMap k where
  mapTo {n m a page} hfree hsupply frame flags := by
    obtain ⟨map, next⟩ := a
    obtain ⟨rfl, henough⟩ := hsupply
    have hlen := length_usableFrames hdisj
    dsimp only at henough hlen hdisj
    -- every frame of the next `k` is there
    obtain ⟨drawn, hdrawn⟩ : ∃ drawn,
        Outcome.mapEach (.okOr MapToError.frameAllocationFailed)
          ((List.range' next k).map ((usableFrames map)[·]?)) = .ok drawn := by
      refine Outcome.mapEach_total fun f hf => ?_
      obtain ⟨i, hi, rfl⟩ := List.mem_map.mp hf
      have hi := List.mem_range'_1.mp hi
      exact ⟨_, congrArg (Outcome.okOr _) (List.getElem?_eq_getElem (by omega))⟩
    have htable : (tableMapper.mapTo m.1 (⟨map, next + k⟩ : BootInfoFrameAllocator) page frame flags)
        = .ok (Function.update m.1 page (.mapped frame flags), ⟨map, next + k⟩) := by
      have hfree : m.1 page = .notMapped := hfree
      simp only [tableMapper, hfree]
    refine ⟨(Function.update m.1 page (.mapped frame flags), m.2 ++ drawn), ⟨map, next + k⟩, ?_,
      rfl, by dsimp only; omega⟩
    simp only [drawingMapper]
    rw [allocateFrames_eq o (by omega), Outcome.ok_bind]
    dsimp only
    rw [hdrawn, Outcome.ok_bind, htable, Outcome.ok_bind]
  updateFlags {m page frame old} hmapped flags := by
    have hmapped : m.1 page = .mapped frame old := hmapped
    simp only [drawingMapper, tableMapper, hmapped, Outcome.ok_bind]
    exact ⟨_, rfl⟩

section

variable {mapper : Mapper M BootInfoFrameAllocator} {o : Overflow} {m : M} {page : Page}

/-- One page: a frame for it, and those of the page tables. -/
theorem Mapper.Serves.mapsFresh (hs : mapper.Serves memoryMap k) (hl : mapper.Lawful)
    (hdisj : DisjointRegions memoryMap) (hfree : mapper.table m page = .notMapped)
    (hsupply : Supply memoryMap (k + 1 + n) a) (flags : PageTableFlags) :
    ∃ frame a₁ m' a', (a.allocateFrame o : Outcome ε _) = .ok (some frame, a₁) ∧
      mapper.mapTo m a₁ page frame flags = .ok (m', a') ∧
      (∀ p ≠ page, mapper.table m' p = mapper.table m p) ∧ Supply memoryMap n a' := by
  obtain ⟨map, next⟩ := a
  obtain ⟨rfl, henough⟩ := hsupply
  have hlen := length_usableFrames hdisj
  dsimp only at henough hlen
  have hsupply : Supply map (k + n) ⟨map, next + 1⟩ := ⟨rfl, by dsimp only; omega⟩
  obtain ⟨m', a', hmap, hleft⟩ := hs.mapTo hfree hsupply
    ((usableFrames map)[next]) flags
  refine ⟨_, _, m', a', ?_, hmap, ?_, hleft⟩
  · rw [allocateFrame_eq o (by omega), List.getElem?_eq_getElem (by omega)]
  · intro p hp
    rw [(hl.mapTo_ok hmap).2, Function.update_of_ne hp]

/-- **A mapping loop returns** if its pages are distinct and not mapped yet and
there are `k + 1` frames for each of them. -/
theorem mapLoop_returns {α : Type} (key : α → Page)
    {body : M × BootInfoFrameAllocator → α → Outcome ε (M × BootInfoFrameAllocator)}
    (hbody : ∀ {m a x n}, mapper.table m (key x) = .notMapped → Supply memoryMap (k + 1 + n) a →
      ∃ m' a', body (m, a) x = .ok (m', a') ∧
        (∀ p ≠ key x, mapper.table m' p = mapper.table m p) ∧ Supply memoryMap n a')
    {xs : List α} (hkeys : xs.Pairwise fun x y => key x ≠ key y)
    (hfree : ∀ x ∈ xs, mapper.table m (key x) = .notMapped)
    (hsupply : Supply memoryMap (xs.length * (k + 1) + n) a) :
    ∃ m' a', xs.foldlM body (m, a) = .ok (m', a') ∧ Supply memoryMap n a' := by
  -- the pages that are left are distinct and not mapped, and there are frames for them
  let I (xs : List α) (st : M × BootInfoFrameAllocator) : Prop :=
    (xs.Pairwise fun x y => key x ≠ key y) ∧
      (∀ x ∈ xs, mapper.table st.1 (key x) = .notMapped) ∧
      Supply memoryMap (xs.length * (k + 1) + n) st.2
  have hstep : ∀ x xs st, I (x :: xs) st → ∃ st', body st x = .ok st' ∧ I xs st' := by
    rintro x xs ⟨m, a⟩ ⟨hkeys, hfree, hsupply⟩
    obtain ⟨hx, hkeys⟩ := List.pairwise_cons.mp hkeys
    obtain ⟨hfirst, hfree⟩ := List.forall_mem_cons.mp hfree
    have hcount : (x :: xs).length * (k + 1) + n = k + 1 + (xs.length * (k + 1) + n) := by
      rw [List.length_cons, Nat.succ_mul]
      omega
    rw [hcount] at hsupply
    obtain ⟨m', a', hrun, hsame, hleft⟩ := hbody hfirst hsupply
    refine ⟨(m', a'), hrun, hkeys, ?_, hleft⟩
    intro y hy
    rw [hsame _ (hx y hy).symm]
    exact hfree y hy
  obtain ⟨⟨m', a'⟩, hrun, -, -, hleft⟩ := Outcome.foldlM_exists I hstep
    (show I xs (m, a) from ⟨hkeys, hfree, hsupply⟩)
  rw [List.length_nil, Nat.zero_mul, Nat.zero_add] at hleft
  exact ⟨m', a', hrun, hleft⟩

end
