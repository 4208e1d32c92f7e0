/-
Who owns which frame: one frame allocator behind several mapping loops.

`map_to` is handed the frame for the page it maps, and draws the frames of the
page tables it has to make from the allocator that is passed to it
(`Mapper.Draws`).  How many it draws is the mapper's affair.

The allocator walks one list of distinct frames, so a frame is known by the
call that returned it: `Handed memoryMap n₀ n f` says that `f` was handed out
by a call after the first `n₀` and up to the first `n`.

* `Owned` — the pages mapped so far have frames of their own, which are no
  page tables either;
* `Owned.mapFresh` — mapping one more page to a new frame keeps that, whatever
  `map_to` draws meanwhile;
* `Owned.updateFlags` — so does a change of flags.
-/
import ZuluOs.FrameAllocator
import ZuluOs.Mapper

open BootInfoFrameAllocator

variable {ε M : Type} {memoryMap : List MemoryRegion}

/-! ### Frames by the call that returned them -/

/-- The frame was handed out by a call after the first `n₀` and up to the
first `n`. -/
def Handed (memoryMap : List MemoryRegion) (n₀ n : ℕ) (f : PhysFrame) : Prop :=
  ∃ i, n₀ ≤ i ∧ i < n ∧ (usableFrames memoryMap)[i]? = some f

namespace Handed

variable {n₀ n n' : ℕ} {f : PhysFrame}

theorem mono (h : Handed memoryMap n₀ n f) {k₀ k : ℕ} (hk₀ : k₀ ≤ n₀) (hk : n ≤ k) :
    Handed memoryMap k₀ k f := by
  obtain ⟨i, hi₀, hi, hf⟩ := h
  exact ⟨i, hk₀.trans hi₀, hi.trans_le hk, hf⟩

theorem usable (h : Handed memoryMap n₀ n f) : Usable memoryMap f := by
  obtain ⟨i, -, -, hf⟩ := h
  exact mem_usableFrames.mp (List.mem_of_getElem? hf)

/-- No frame is handed out twice. -/
theorem not_again (hdisj : DisjointRegions memoryMap) (h : Handed memoryMap n₀ n f) :
    ¬ Handed memoryMap n n' f := by
  rintro ⟨j, hj, -, hf'⟩
  obtain ⟨i, -, hi, hf⟩ := h
  obtain ⟨hlt, -⟩ := List.getElem?_eq_some_iff.mp hf
  have hij := (List.getElem?_inj hlt (nodup_usableFrames hdisj)).mp (hf.trans hf'.symm)
  omega

end Handed

/-- The frame is one that the allocator has not handed out yet. -/
def BootInfoFrameAllocator.Free (a : BootInfoFrameAllocator) (f : PhysFrame) : Prop :=
  Handed a.memoryMap a.next (usableFrames a.memoryMap).length f

/-- The allocator has handed out frames only, and no more than there are. -/
structure InStock (memoryMap : List MemoryRegion) (a : BootInfoFrameAllocator) : Prop where
  map_eq : a.memoryMap = memoryMap
  next_le : a.next ≤ (usableFrames memoryMap).length

/-- An allocator that returns a frame was in stock. -/
theorem InStock.of_allocateFrame {o : Overflow} {a a' : BootInfoFrameAllocator} {f : PhysFrame}
    (h : (a.allocateFrame o : Outcome ε _) = .ok (some f, a')) : InStock a.memoryMap a := by
  rw [BootInfoFrameAllocator.allocateFrame, Outcome.nth_eq_ok fun addr => frameAt_eq,
    Outcome.ok_bind, Outcome.bind_eq_ok] at h
  obtain ⟨next, -, h⟩ := h
  obtain ⟨hf, -⟩ := Prod.mk.inj (Outcome.ok.inj h)
  rw [← List.getElem?_map] at hf
  obtain ⟨hlt, -⟩ := List.getElem?_eq_some_iff.mp hf
  exact ⟨rfl, hlt.le⟩

/-- One call that returns a frame. -/
theorem InStock.allocateFrame {o : Overflow} {a a' : BootInfoFrameAllocator} {f : PhysFrame}
    (hdisj : DisjointRegions memoryMap) (hI : InStock memoryMap a)
    (h : (a.allocateFrame o : Outcome ε _) = .ok (some f, a')) :
    InStock memoryMap a' ∧ a'.next = a.next + 1 ∧ Handed memoryMap a.next a'.next f := by
  obtain ⟨map, next⟩ := a
  obtain ⟨rfl, hle⟩ := hI
  have hlen := length_usableFrames hdisj
  dsimp only at hle hlen h ⊢
  rw [allocateFrame_eq o (by omega), Outcome.ok.injEq, Prod.mk.injEq] at h
  obtain ⟨hf, rfl⟩ := h
  obtain ⟨hlt, -⟩ := List.getElem?_eq_some_iff.mp hf
  exact ⟨⟨rfl, hlt⟩, rfl, next, le_rfl, Nat.lt_succ_self next, hf⟩

/-- Any number of calls that all return a frame. -/
theorem InStock.allocateFrames {o : Overflow} {a a' : BootInfoFrameAllocator}
    {drawn : List PhysFrame} (hdisj : DisjointRegions memoryMap) (hI : InStock memoryMap a)
    (h : (allocateFrames o drawn.length a : Outcome ε _) = .ok (drawn.map some, a')) :
    InStock memoryMap a' ∧ a.next ≤ a'.next ∧
      ∀ f ∈ drawn, Handed memoryMap a.next a'.next f := by
  induction drawn generalizing a with
  | nil =>
    obtain ⟨-, rfl⟩ := Prod.mk.inj (Outcome.ok.inj h)
    exact ⟨hI, le_rfl, by simp⟩
  | cons g drawn ih =>
    simp only [List.length_cons, BootInfoFrameAllocator.allocateFrames, Outcome.bind_eq_ok,
      Outcome.ok.injEq, Prod.mk.injEq, List.map_cons, List.cons.injEq] at h
    obtain ⟨⟨f, a₁⟩, hfirst, ⟨fs, a₂⟩, hrest, ⟨rfl, rfl⟩, rfl⟩ := h
    obtain ⟨hI₁, hnext, hg⟩ := hI.allocateFrame hdisj hfirst
    obtain ⟨hI₂, hle, hdrawn⟩ := ih hI₁ hrest
    refine ⟨hI₂, by omega, ?_⟩
    intro f hf
    rcases List.mem_cons.mp hf with rfl | hf
    · exact hg.mono le_rfl hle
    · exact (hdrawn f hf).mono (by omega) le_rfl

/-! ### The mapper's own frames -/

/-- What is assumed of the frames `map_to` uses for page tables: it draws them
from the allocator that is passed to it, any number of them, and draws no
others.  `tables` lists those drawn so far. -/
structure Mapper.Draws (mapper : Mapper M BootInfoFrameAllocator) (o : Overflow)
    (tables : M → List PhysFrame) : Prop where
  mapTo_ok : ∀ {m a page frame flags m' a'},
    mapper.mapTo m a page frame flags = .ok (m', a') →
    ∃ drawn : List PhysFrame,
      (allocateFrames o drawn.length a : Outcome MapToError _) = .ok (drawn.map some, a') ∧
        tables m' = tables m ++ drawn
  updateFlags_ok : ∀ {m page flags m'}, mapper.updateFlags m page flags = .ok m' →
    tables m' = tables m

/-- The plain mapper draws none. -/
theorem tableMapper_draws (o : Overflow) : (tableMapper : Mapper PageTable _).Draws o fun _ => [] where
  mapTo_ok h := ⟨[], tableMapper_allocator h ▸ rfl, rfl⟩
  updateFlags_ok _ := rfl

/-- The plain mapper, made to draw `k` frames for page tables in every call. -/
def drawingMapper (o : Overflow) (k : ℕ) :
    Mapper (PageTable × List PhysFrame) BootInfoFrameAllocator where
  table m := m.1
  mapTo m a page frame flags := do
    let (frames, a) ← allocateFrames o k a
    let drawn ← .mapEach (.okOr .frameAllocationFailed) frames
    let (table, a) ← tableMapper.mapTo m.1 a page frame flags
    .ok ((table, m.2 ++ drawn), a)
  updateFlags m page flags := do
    let table ← (tableMapper : Mapper PageTable BootInfoFrameAllocator).updateFlags m.1 page flags
    .ok (table, m.2)

theorem length_allocateFrames {o : Overflow} {k : ℕ} {a a' : BootInfoFrameAllocator}
    {frames : List (Option PhysFrame)}
    (h : (allocateFrames o k a : Outcome ε _) = .ok (frames, a')) : frames.length = k := by
  induction k generalizing a a' frames with
  | zero =>
    obtain ⟨rfl, -⟩ := Prod.mk.inj (Outcome.ok.inj h)
    rfl
  | succ k ih =>
    simp only [allocateFrames, Outcome.bind_eq_ok, Outcome.ok.injEq, Prod.mk.injEq] at h
    obtain ⟨_, -, ⟨rest, a₂⟩, hrest, rfl, -⟩ := h
    rw [List.length_cons, ih hrest]

theorem drawingMapper_lawful (o : Overflow) (k : ℕ) : (drawingMapper o k).Lawful where
  mapTo_ok {m a page frame flags m' a'} h := by
    simp only [drawingMapper, Outcome.bind_eq_ok, Outcome.ok.injEq] at h
    obtain ⟨_, -, _, -, ⟨table, a₂⟩, hmap, h⟩ := h
    obtain ⟨rfl, -⟩ := Prod.mk.inj h
    exact tableMapper_lawful.mapTo_ok hmap
  updateFlags_ok {m page flags m'} h := by
    simp only [drawingMapper, Outcome.bind_eq_ok, Outcome.ok.injEq] at h
    obtain ⟨table, hupdate, rfl⟩ := h
    exact tableMapper_lawful.updateFlags_ok hupdate

theorem drawingMapper_draws (o : Overflow) (k : ℕ) : (drawingMapper o k).Draws o Prod.snd where
  mapTo_ok {m a page frame flags m' a'} h := by
    simp only [drawingMapper, Outcome.bind_eq_ok, Outcome.ok.injEq, Outcome.mapEach_eq_ok,
      Outcome.okOr_eq_ok] at h
    obtain ⟨⟨frames, a₁⟩, hframes, drawn, hdrawn, ⟨table, a₂⟩, hmap, h⟩ := h
    obtain ⟨rfl, rfl⟩ := Prod.mk.inj h
    obtain rfl : frames = drawn.map some := by
      rw [← List.forall₂_eq_eq_eq, List.forall₂_map_right_iff]
      exact hdrawn
    refine ⟨drawn, ?_, rfl⟩
    obtain rfl := tableMapper_allocator hmap
    have hlen := length_allocateFrames hframes
    rw [List.length_map] at hlen
    rwa [hlen]
  updateFlags_ok {m page flags m'} h := by
    simp only [drawingMapper, Outcome.bind_eq_ok, Outcome.ok.injEq] at h
    obtain ⟨table, -, rfl⟩ := h
    rfl

/-- What the body of each mapping loop does when it succeeds: allocate a frame
and map the page to it. -/
def MapsFresh (ε : Type) (mapper : Mapper M BootInfoFrameAllocator) (o : Overflow) (page : Page)
    (m : M) (a : BootInfoFrameAllocator) (m' : M) (a' : BootInfoFrameAllocator) : Prop :=
  ∃ frame a₁ flags, (a.allocateFrame o : Outcome ε _) = .ok (some frame, a₁) ∧
    mapper.mapTo m a₁ page frame flags = .ok (m', a')

/-- Since the `n₀`-th call of the allocator, when `tables₀` were the page-table
frames, `pages` were mapped to frames of their own. -/
structure Owned (memoryMap : List MemoryRegion) (mapper : Mapper M BootInfoFrameAllocator)
    (tables : M → List PhysFrame) (n₀ : ℕ) (tables₀ : List PhysFrame) (pages : List Page)
    (m : M) (a : BootInfoFrameAllocator) : Prop where
  inStock : InStock memoryMap a
  start_le : n₀ ≤ a.next
  drawn : ∃ drawn, tables m = tables₀ ++ drawn ∧
    ∀ f ∈ drawn, Handed memoryMap n₀ a.next f
  backed : ∀ p ∈ pages, ∃ frame flags, mapper.table m p = .mapped frame flags ∧
    Handed memoryMap n₀ a.next frame ∧
      ∀ drawn, tables m = tables₀ ++ drawn → frame ∉ drawn
  apart : ∀ p ∈ pages, ∀ q ∈ pages, ∀ {frame flags flags'},
    mapper.table m p = .mapped frame flags →
    mapper.table m q = .mapped frame flags' → p = q

namespace Owned

variable {mapper : Mapper M BootInfoFrameAllocator} {o : Overflow} {tables : M → List PhysFrame}
  {n₀ : ℕ} {tables₀ : List PhysFrame} {pages : List Page} {m m' : M}
  {a a' : BootInfoFrameAllocator}

theorem nil (h : InStock memoryMap a) :
    Owned memoryMap mapper tables a.next (tables m) [] m a where
  inStock := h
  start_le := le_rfl
  drawn := ⟨[], (List.append_nil _).symm, by simp⟩
  backed := by simp
  apart := by simp

/-- No page has a frame that was handed out later. -/
theorem table_ne (hdisj : DisjointRegions memoryMap)
    (hI : Owned memoryMap mapper tables n₀ tables₀ pages m a) {frame : PhysFrame} {n : ℕ}
    (hframe : Handed memoryMap a.next n frame) {p : Page} (hp : p ∈ pages)
    (flags : PageTableFlags) : mapper.table m p ≠ .mapped frame flags := by
  intro hpf
  obtain ⟨f, fl, hp', hf, -⟩ := hI.backed p hp
  rw [hpf, TranslateResult.mapped.injEq] at hp'
  obtain ⟨rfl, -⟩ := hp'
  exact hf.not_again hdisj hframe

/-- An unmapped page is none of the pages. -/
theorem ne_of_notMapped (hI : Owned memoryMap mapper tables n₀ tables₀ pages m a) {page : Page}
    (hpage : mapper.table m page = .notMapped) {p : Page} (hp : p ∈ pages) : p ≠ page := by
  rintro rfl
  obtain ⟨f, fl, hp', -⟩ := hI.backed p hp
  rw [hpage] at hp'
  cases hp'

/-- **One more page.**  The new frame was never handed out before, and what
`map_to` draws comes after it. -/
theorem mapFresh (hl : mapper.Lawful) (hd : mapper.Draws o tables)
    (hdisj : DisjointRegions memoryMap) {page : Page}
    (hI : Owned memoryMap mapper tables n₀ tables₀ pages m a)
    (h : MapsFresh ε mapper o page m a m' a') :
    Owned memoryMap mapper tables n₀ tables₀ (page :: pages) m' a' := by
  obtain ⟨frame, a₁, flags, halloc, hmap⟩ := h
  obtain ⟨hunmapped, htable⟩ := hl.mapTo_ok hmap
  obtain ⟨new, hdraws, htables⟩ := hd.mapTo_ok hmap
  obtain ⟨hstock₁, hnext₁, hframe⟩ := hI.inStock.allocateFrame hdisj halloc
  obtain ⟨hstock', hle, hnew⟩ := hstock₁.allocateFrames hdisj hdraws
  obtain ⟨drawn, hdrawn, hdrawnHanded⟩ := hI.drawn
  have hstart := hI.start_le
  -- the page-table frames of now are the old ones and those just drawn
  have hsplit : ∀ drawn', tables m' = tables₀ ++ drawn' → drawn' = drawn ++ new := by
    intro drawn' h
    rw [htables, hdrawn, List.append_assoc] at h
    exact (List.append_cancel_left h).symm
  have hsame : ∀ p ∈ pages, mapper.table m' p = mapper.table m p := by
    intro p hp
    rw [htable, Function.update_of_ne (hI.ne_of_notMapped hunmapped hp)]
  have hhere : mapper.table m' page = .mapped frame flags := by
    rw [htable, Function.update_self]
  refine ⟨hstock', by omega, ⟨drawn ++ new, by rw [htables, hdrawn, List.append_assoc], ?_⟩, ?_, ?_⟩
  · intro f hf
    rcases List.mem_append.mp hf with hf | hf
    · exact (hdrawnHanded f hf).mono le_rfl (by omega)
    · exact (hnew f hf).mono (by omega) le_rfl
  · intro p hp
    rcases List.mem_cons.mp hp with rfl | hp
    · refine ⟨frame, flags, hhere, hframe.mono hstart hle, ?_⟩
      intro drawn' h hmem
      rw [hsplit drawn' h, List.mem_append] at hmem
      rcases hmem with hmem | hmem
      · exact (hdrawnHanded frame hmem).not_again hdisj hframe
      · exact hframe.not_again hdisj (hnew frame hmem)
    · obtain ⟨f, fl, hp', hf, hnot⟩ := hI.backed p hp
      refine ⟨f, fl, by rw [hsame p hp, hp'], hf.mono le_rfl (by omega), ?_⟩
      intro drawn' h hmem
      rw [hsplit drawn' h, List.mem_append] at hmem
      rcases hmem with hmem | hmem
      · exact hnot drawn hdrawn hmem
      · exact hf.not_again hdisj ((hnew f hmem).mono (by omega) le_rfl)
  · intro p hp q hq f fl fl' hpf hqf
    rcases List.mem_cons.mp hp with rfl | hp' <;> rcases List.mem_cons.mp hq with rfl | hq'
    · rfl
    · rw [hhere, TranslateResult.mapped.injEq] at hpf
      obtain ⟨rfl, -⟩ := hpf
      rw [hsame q hq'] at hqf
      exact absurd hqf (hI.table_ne hdisj hframe hq' fl')
    · rw [hhere, TranslateResult.mapped.injEq] at hqf
      obtain ⟨rfl, -⟩ := hqf
      rw [hsame p hp'] at hpf
      exact absurd hpf (hI.table_ne hdisj hframe hp' fl)
    · rw [hsame p hp'] at hpf
      rw [hsame q hq'] at hqf
      exact hI.apart p hp' q hq' hpf hqf

/-- The allocator and the tables are what they were, and so are the frames. -/
theorem updateFlags (hl : mapper.Lawful) (hd : mapper.Draws o tables) {page : Page}
    {flags : PageTableFlags} (hI : Owned memoryMap mapper tables n₀ tables₀ pages m a)
    (h : mapper.updateFlags m page flags = .ok m') :
    Owned memoryMap mapper tables n₀ tables₀ pages m' a := by
  obtain ⟨frame, old, hmapped, htable⟩ := hl.updateFlags_ok h
  have htables := hd.updateFlags_ok h
  -- an entry has the frame it had
  have hback : ∀ {p f fl}, mapper.table m' p = .mapped f fl →
      ∃ fl', mapper.table m p = .mapped f fl' := by
    intro p f fl hp
    rw [htable] at hp
    by_cases hpage : p = page
    · subst hpage
      rw [Function.update_self, TranslateResult.mapped.injEq] at hp
      exact ⟨old, hp.1 ▸ hmapped⟩
    · rw [Function.update_of_ne hpage] at hp
      exact ⟨fl, hp⟩
  refine ⟨hI.inStock, hI.start_le, htables ▸ hI.drawn, ?_, ?_⟩
  · intro p hp
    obtain ⟨f, fl, hpf, hf, hnot⟩ := hI.backed p hp
    rw [htables]
    by_cases hpage : p = page
    · subst hpage
      rw [hmapped, TranslateResult.mapped.injEq] at hpf
      refine ⟨frame, flags, by rw [htable, Function.update_self], hpf.1 ▸ hf, hpf.1 ▸ hnot⟩
    · exact ⟨f, fl, by rw [htable, Function.update_of_ne hpage, hpf], hf, hnot⟩
  · intro p hp q hq f fl fl' hpf hqf
    obtain ⟨_, hpf'⟩ := hback hpf
    obtain ⟨_, hqf'⟩ := hback hqf
    exact hI.apart p hp q hq hpf' hqf'

/-- **A mapping loop** adds its pages. -/
theorem mapLoop {α : Type} (hl : mapper.Lawful) (hd : mapper.Draws o tables)
    (hdisj : DisjointRegions memoryMap) {key : α → Page}
    {body : M × BootInfoFrameAllocator → α → Outcome ε (M × BootInfoFrameAllocator)}
    (hbody : ∀ {m a x m' a'}, body (m, a) x = .ok (m', a') →
      MapsFresh ε mapper o (key x) m a m' a')
    {xs : List α} (hI : Owned memoryMap mapper tables n₀ tables₀ pages m a)
    (h : xs.foldlM body (m, a) = .ok (m', a')) :
    Owned memoryMap mapper tables n₀ tables₀ ((xs.map key).reverse ++ pages) m' a' := by
  induction xs generalizing m a pages with
  | nil =>
    obtain ⟨rfl, rfl⟩ := Prod.mk.inj (Outcome.ok.inj h)
    exact hI
  | cons x xs ih =>
    rw [List.foldlM_cons, Outcome.bind_eq_ok] at h
    obtain ⟨⟨m₁, a₁⟩, hfirst, hrest⟩ := h
    have hI₁ := ih (hI.mapFresh hl hd hdisj (hbody hfirst)) hrest
    rwa [List.map_cons, List.reverse_cons, List.append_assoc, List.singleton_append]

end Owned
