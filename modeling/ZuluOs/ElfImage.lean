/-
Where the image of a loaded file lies.

The pages that `elf::load` maps are those of the segments' `pages()`
(`InImage`).  The mapping loop and the protection loop leave the frame of a
page alone once it is mapped, so the copy in between and a read afterwards
meet at the same frames (`load_copy`), and the frames are the image's own
(`load_owned`).

Every segment is moved by the same displacement, which brings the last
executable one to `LOAD_TEXT_SECTION_AT` (`relocate_eq_ok`, `load_segments`).
So the image is a matter of the program headers alone: where a segment goes
(`ElfHeaders.start`), and which pages `pages()` makes of it
(`ElfHeaders.Walks`).

* `inImage_iff_walks` — the image, read off the headers;
* `load_nullPage_iff` — page 0 stays unmapped iff no segment is moved to it;
* `load_pages_iff` — the pages mapped are those with a byte of a segment, iff
  every byte has an address, a segment that ends at a page boundary is followed
  by another one, and one that ends at the top of memory is covered by others;
* `load_alignment_iff` — a segment keeps its alignment iff the displacement is
  a multiple of it.
-/
import ZuluOs.ElfPermissions
import ZuluOs.FrameOwnership
import ZuluOs.UserSlice

namespace Elf

open PageTableFlags

/-- The page is one of the pages of a segment. -/
def InImage (o : Overflow) (file : ElfFile) (page : Page) : Prop :=
  ∃ s ∈ file.segments, covers o page s = true

instance (o : Overflow) (file : ElfFile) (page : Page) : Decidable (InImage o file page) :=
  inferInstanceAs (Decidable (∃ s ∈ file.segments, covers o page s = true))

/-- The pages of a segment, by number. -/
theorem covers_iff {o : Overflow} {page : Page} {s : ElfSegment} :
    covers o page s = true ↔
      ∃ last, (s.addr.start.add o s.addr.len : Outcome Empty _) = .ok last ∧
        (Page.containingAddress s.addr.start).number ≤ page.number ∧
          page.number ≤ (Page.containingAddress last).number := by
  rw [covers, VirtualMapDestination.pages]
  cases s.addr.start.add o s.addr.len with
  | ok last => simp [Page.mem_rangeInclusive]
  | err e => simp
  | stop st => simp

/-! ### The passes of a load, page by page -/

section

variable {M A : Type} {mapper : Mapper M A}
  {allocateFrame : A → Outcome Empty (Option PhysFrame × A)}
  {parse : List UInt8 → Option ElfHeaders} {o : Overflow} {bytes : List UInt8} {m m' : M}
  {a a' : A} {mem mem' : PhysMemory} {file : ElfFile}

/-- The first pass has an entry for the pages of the image. -/
theorem getElem?_pagesToMap_isSome {pages : PageMap}
    (h : (pagesToMap o file.segments : Outcome Empty _) = .ok pages) (page : Page) :
    (∃ flags, (page, flags) ∈ pages.toList) ↔ InImage o file page := by
  simp only [Std.TreeMap.mem_toList_iff_getElem?_eq_some, getElem?_pagesToMap h]
  cases hcov : (file.segments.filter (covers o page)).map (·.flags) with
  | nil =>
    rw [List.map_eq_nil_iff, List.filter_eq_nil_iff] at hcov
    refine iff_of_false ?_ ?_
    · rintro ⟨flags, hflags⟩
      cases hflags
    · rintro ⟨s, hs, hpage⟩
      exact hcov s hs hpage
  | cons f fs =>
    refine iff_of_true ⟨_, mergedFlags_cons f fs⟩ ?_
    have hmem : f ∈ (file.segments.filter (covers o page)).map (·.flags) := by
      rw [hcov]
      exact List.mem_cons_self
    obtain ⟨s, hs, -⟩ := List.mem_map.mp hmem
    exact ⟨s, List.mem_filter.mp hs⟩

/-- The passes of a load over one list of pages, those of the image. -/
theorem load_passes
    (hload : load mapper allocateFrame parse o bytes m a mem = .ok (file, m', a', mem')) :
    ∃ (pages : List (Page × PageTableFlags)) (m₁ : M),
      (∀ page, (∃ flags, (page, flags) ∈ pages) ↔ InImage o file page) ∧
      (pages.Pairwise fun x y => x.1 ≠ y.1) ∧
      mapPages mapper allocateFrame pages (m, a) = .ok (m₁, a') ∧
      (copySegments o bytes (mapper.table m₁) file.segments mem : Outcome Empty _) = .ok mem' ∧
      (protectPages mapper pages m₁ : Outcome Empty _) = .ok m' := by
  obtain ⟨elf, segments, entryPoint, textAddr, offset, pages, m₁, -, -, -, -, -, -, hpages, hmap,
    hcopy, hprotect⟩ := load_eq_ok hload
  exact ⟨pages.toList, m₁, getElem?_pagesToMap_isSome hpages, pairwise_toList pages, hmap, hcopy,
    hprotect⟩

/-- The end of every segment could be computed. -/
theorem load_ends
    (hload : load mapper allocateFrame parse o bytes m a mem = .ok (file, m', a', mem'))
    {s : ElfSegment} (hs : s ∈ file.segments) :
    ∃ last, (s.addr.start.add o s.addr.len : Outcome Empty _) = .ok last := by
  obtain ⟨elf, segments, entryPoint, textAddr, offset, pages, m₁, -, -, -, -, -, -, hpages, -⟩ :=
    load_eq_ok hload
  obtain ⟨before, after, hstep⟩ := Outcome.foldlM_ok_mem hpages hs
  simp only [VirtualMapDestination.pages, Outcome.bind_eq_ok] at hstep
  obtain ⟨_, ⟨last, hlast, -⟩, -⟩ := hstep
  exact ⟨last, hlast⟩

/-- **The copy in the middle.**  Pages of the image were unmapped, and have the
same frame during the copy and afterwards; all others keep their entry. -/
theorem load_copy (hl : mapper.Lawful)
    (hload : load mapper allocateFrame parse o bytes m a mem = .ok (file, m', a', mem')) :
    ∃ m₁, (copySegments o bytes (mapper.table m₁) file.segments mem : Outcome Empty _) = .ok mem' ∧
      (∀ p, InImage o file p → mapper.table m p = .notMapped ∧ ∃ frame flags flags',
        mapper.table m₁ p = .mapped frame flags ∧ mapper.table m' p = .mapped frame flags') ∧
      ∀ p, ¬ InImage o file p →
        mapper.table m₁ p = mapper.table m p ∧ mapper.table m' p = mapper.table m p := by
  obtain ⟨pages, m₁, himage, hkeys, hmap, hcopy, hprotect⟩ := load_passes hload
  refine ⟨m₁, hcopy, ?_, ?_⟩
  · intro p hp
    obtain ⟨flags, hmem⟩ := (himage p).mpr hp
    obtain ⟨hold, frame, hduring, hafter⟩ := mapped_protected hl hkeys hmap hprotect hmem
    exact ⟨hold, frame, _, _, hduring, hafter⟩
  · intro p hp
    refine not_mapped_protected hl hkeys hmap hprotect ?_
    intro flags hmem
    exact hp ((himage p).mp ⟨flags, hmem⟩)

/-- A load maps the pages of the image, and no others. -/
theorem load_maps_iff (hl : mapper.Lawful)
    (hload : load mapper allocateFrame parse o bytes m a mem = .ok (file, m', a', mem'))
    (p : Page) :
    (mapper.table m p = .notMapped ∧ ∃ frame flags, mapper.table m' p = .mapped frame flags) ↔
      InImage o file p := by
  obtain ⟨m₁, -, himage, hother⟩ := load_copy hl hload
  constructor
  · rintro ⟨hold, frame, flags, hnew⟩
    by_contra hp
    rw [(hother p hp).2, hold] at hnew
    cases hnew
  · intro hp
    obtain ⟨hold, frame, -, flags, -, hnew⟩ := himage p hp
    exact ⟨hold, frame, flags, hnew⟩

end

/-! ### The frames of the image -/

theorem mapPage_fresh {M : Type} {mapper : Mapper M BootInfoFrameAllocator} {o : Overflow}
    {m m' : M} {a a' : BootInfoFrameAllocator} {x : Page × PageTableFlags}
    (h : (mapPage mapper (BootInfoFrameAllocator.allocateFrame o) (m, a) x : Outcome Empty _)
      = .ok (m', a')) : MapsFresh Empty mapper o x.1 m a m' a' := by
  simp only [mapPage, Outcome.bind_eq_ok, Outcome.unwrap_eq_ok, Outcome.unwrapResult_eq_ok] at h
  obtain ⟨⟨f, a₁⟩, halloc, frame, rfl, hmap⟩ := h
  exact ⟨frame, a₁, _, halloc, hmap⟩

/-- **The image has frames of its own**, apart from each other, from those of
the pages mapped before by the same allocator, and from the page tables. -/
theorem load_owned {M : Type} {mapper : Mapper M BootInfoFrameAllocator}
    {parse : List UInt8 → Option ElfHeaders} {o : Overflow} {bytes : List UInt8} {m m' : M}
    {a a' : BootInfoFrameAllocator} {mem mem' : PhysMemory} {file : ElfFile}
    {tables : M → List PhysFrame} {memoryMap : List MemoryRegion} {n₀ : ℕ}
    {tables₀ : List PhysFrame} {pages₀ : List Page} (hl : mapper.Lawful)
    (hd : mapper.Draws o tables) (hdisj : BootInfoFrameAllocator.DisjointRegions memoryMap)
    (hI : Owned memoryMap mapper tables n₀ tables₀ pages₀ m a)
    (hload : (load mapper (BootInfoFrameAllocator.allocateFrame o) parse o bytes m a mem :
      Outcome Empty _) = .ok (file, m', a', mem')) :
    ∃ pages, Owned memoryMap mapper tables n₀ tables₀ pages m' a' ∧
      ∀ p, p ∈ pages ↔ InImage o file p ∨ p ∈ pages₀ := by
  obtain ⟨pages, m₁, himage, -, hmap, -, hprotect⟩ := load_passes hload
  have hI₁ := hI.mapLoop hl hd hdisj mapPage_fresh hmap
  refine ⟨(pages.map Prod.fst).reverse ++ pages₀, ?_, ?_⟩
  · refine Outcome.foldlM_ok_induction
      (fun m => Owned memoryMap mapper tables n₀ tables₀ _ m a') ?_ hI₁ hprotect
    intro x _ m₂ m₃ hI₂ hstep
    rw [protectPage] at hstep
    split at hstep
    · exact hI₂.updateFlags hl hd (Outcome.unwrapResult_eq_ok.mp hstep)
    · exact Outcome.ok.inj hstep ▸ hI₂
  · intro p
    rw [List.mem_append, List.mem_reverse, List.mem_map, ← himage p]
    refine or_congr_left ⟨?_, ?_⟩
    · rintro ⟨x, hx, rfl⟩
      exact ⟨x.2, hx⟩
    · rintro ⟨flags, hx⟩
      exact ⟨(p, flags), hx, rfl⟩

section

variable {M : Type} {mapper : Mapper M BootInfoFrameAllocator}
  {parse : List UInt8 → Option ElfHeaders} {o : Overflow} {bytes : List UInt8} {m m' : M}
  {a a' : BootInfoFrameAllocator} {mem mem' : PhysMemory} {file : ElfFile}
  {tables : M → List PhysFrame}

/-- The pages of the image, with the frames that the allocator handed out for
them. -/
theorem load_ownedImage (hl : mapper.Lawful) (hd : mapper.Draws o tables)
    (hdisj : BootInfoFrameAllocator.DisjointRegions a.memoryMap)
    (hload : (load mapper (BootInfoFrameAllocator.allocateFrame o) parse o bytes m a mem :
      Outcome Empty _) = .ok (file, m', a', mem')) {p : Page} (hp : InImage o file p) :
    ∃ pages, Owned a.memoryMap mapper tables a.next (tables m) pages m' a' ∧
      ∀ q, InImage o file q → q ∈ pages := by
  -- the allocator returned a frame for the first page
  have hstock : InStock a.memoryMap a := by
    obtain ⟨pages, m₁, himage, -, hmap, -⟩ := load_passes hload
    obtain ⟨flags₀, hmem⟩ := (himage p).mpr hp
    cases pages with
    | nil => cases hmem
    | cons x pages =>
      rw [mapPages, List.foldlM_cons, Outcome.bind_eq_ok] at hmap
      obtain ⟨⟨m₂, a₂⟩, hfirst, -⟩ := hmap
      obtain ⟨frame₀, a₁, -, halloc, -⟩ := mapPage_fresh hfirst
      exact .of_allocateFrame halloc
  obtain ⟨pages, hI, hpages⟩ := load_owned hl hd hdisj (Owned.nil hstock) hload
  exact ⟨pages, hI, fun q hq => (hpages q).mpr (.inl hq)⟩

/-- No two pages of the image share a frame, if the memory map is valid. -/
theorem load_apart (hl : mapper.Lawful) (hd : mapper.Draws o tables)
    (hdisj : BootInfoFrameAllocator.DisjointRegions a.memoryMap)
    (hload : (load mapper (BootInfoFrameAllocator.allocateFrame o) parse o bytes m a mem :
      Outcome Empty _) = .ok (file, m', a', mem')) {p q : Page} (hp : InImage o file p)
    (hq : InImage o file q) {frame : PhysFrame} {flags flags' : PageTableFlags}
    (hpf : mapper.table m' p = .mapped frame flags)
    (hqf : mapper.table m' q = .mapped frame flags') : p = q := by
  obtain ⟨pages, hI, hpages⟩ := load_ownedImage hl hd hdisj hload hp
  exact hI.apart p (hpages p hp) q (hpages q hq) hpf hqf

/-- The frames of the image were free before. -/
theorem load_free (hl : mapper.Lawful) (hd : mapper.Draws o tables)
    (hdisj : BootInfoFrameAllocator.DisjointRegions a.memoryMap)
    (hload : (load mapper (BootInfoFrameAllocator.allocateFrame o) parse o bytes m a mem :
      Outcome Empty _) = .ok (file, m', a', mem')) {p : Page} (hp : InImage o file p)
    {frame : PhysFrame} {flags : PageTableFlags} (hpf : mapper.table m' p = .mapped frame flags) :
    a.Free frame := by
  obtain ⟨pages, hI, hpages⟩ := load_ownedImage hl hd hdisj hload hp
  obtain ⟨frame', flags', hmapped, hhanded, -⟩ := hI.backed p (hpages p hp)
  rw [hpf, TranslateResult.mapped.injEq] at hmapped
  obtain ⟨rfl, -⟩ := hmapped
  exact hhanded.mono le_rfl hI.inStock.next_le

end

/-! ### Where the segments are moved -/

/-- The last executable header that is kept: its segment goes to
`LOAD_TEXT_SECTION_AT`. -/
def textHeader (elf : ElfHeaders) : Option ProgramHeader64 :=
  ((elf.programHeaders.filter (·.kept)).filter fun h => h.pFlags &&& PF_X ≠ 0).getLast?

/-- How far every segment is moved. -/
def displacement (text : ProgramHeader64) : ℤ :=
  LOAD_TEXT_SECTION_AT - VirtAddr.signExtend text.pVaddr.toNat

/-- The segment that `load` makes of a kept header. -/
structure Relocated (o : Overflow) (text h : ProgramHeader64) (s : ElfSegment) : Prop where
  kept : h.kept = true
  canonical : Canonical (VirtAddr.signExtend h.pVaddr.toNat)
  ty : ElfSegmentType.tryFrom h.pType = some s.ty
  align : s.align = h.pAlign.toNat
  flags : s.flags = parseSegmentFlags h
  fileStart : s.fileStart = h.pOffset.toNat
  fileEnd : (o.addU64 h.pOffset.toNat h.pFilesz.toNat : Outcome Empty ℕ) = .ok s.fileEnd
  originalStart : s.addr.originalStart = h.pVaddr.toNat
  len : s.addr.len = h.pMemsz.toNat
  start : s.addr.start.addr = VirtAddr.signExtend
    ((VirtAddr.signExtend h.pVaddr.toNat + displacement text) % 2 ^ 64).toNat

theorem ProgramHeader64.pMemsz_pos {h : ProgramHeader64} (hkept : h.kept = true) :
    0 < h.pMemsz.toNat := by
  rw [ProgramHeader64.kept, Bool.and_eq_true, decide_eq_true_iff, ne_eq,
    ← UInt64.toNat_inj] at hkept
  exact Nat.pos_of_ne_zero hkept.2

theorem wrapI64_modEq (x : ℤ) : Overflow.wrapI64 x ≡ x [ZMOD 2 ^ 64] := by
  unfold Overflow.wrapI64 Int.ModEq
  omega

theorem ofI64_modEq {ε : Type} {o : Overflow} {x y : ℤ} (h : (o.ofI64 x : Outcome ε ℤ) = .ok y) :
    y ≡ x [ZMOD 2 ^ 64] := by
  unfold Overflow.ofI64 at h
  split at h
  · exact Outcome.ok.inj h ▸ rfl
  · cases o with
    | panic => cases h
    | wrap =>
      obtain rfl := Outcome.ok.inj h
      exact wrapI64_modEq x

/-- **One displacement for all**, modulo the word size, in either profile. -/
theorem relocate_eq_ok {ε : Type} {o : Overflow} {textAddr : ℕ} {offset : ℤ} {src dst : VirtAddr}
    (hoffset : (offsetToApply o textAddr : Outcome ε ℤ) = .ok offset)
    (h : (relocate o offset src : Outcome ε VirtAddr) = .ok dst) :
    dst.addr = VirtAddr.signExtend
      ((src.addr + (LOAD_TEXT_SECTION_AT - textAddr : ℤ)) % 2 ^ 64).toNat := by
  simp only [relocate, Outcome.bind_eq_ok, VirtAddr.new_eq_ok] at h
  obtain ⟨sum, hsum, hdst⟩ := h
  have hoffset : offset ≡ LOAD_TEXT_SECTION_AT - textAddr [ZMOD 2 ^ 64] :=
    (ofI64_modEq hoffset).trans ((wrapI64_modEq _).sub (wrapI64_modEq _))
  have hsum : sum ≡ src.addr + (LOAD_TEXT_SECTION_AT - textAddr : ℤ) [ZMOD 2 ^ 64] :=
    (ofI64_modEq hsum).trans ((wrapI64_modEq _).add hoffset)
  rw [hdst, hsum.eq]

/-- The segment that decides the displacement is that of the text header. -/
theorem defaultTextAddr_eq {ε : Type} {o : Overflow} {headers : List ProgramHeader64}
    {segments : List ElfSegment}
    (h : List.Forall₂ (fun h s => (parseSegment o h : Outcome ε _) = .ok (some s))
      headers segments) :
    defaultTextAddr segments = (headers.filter fun h => h.pFlags &&& PF_X ≠ 0).getLast?.map
      fun h => VirtAddr.signExtend h.pVaddr.toNat := by
  -- with any address so far, which the headers from here on may replace
  have hfold : ∀ addr, segments.foldl (fun addr s =>
      if !s.flags.contains .NO_EXECUTE then some s.addr.start.addr else addr) addr =
        ((headers.filter fun h => h.pFlags &&& PF_X ≠ 0).getLast?.map
          fun h => VirtAddr.signExtend h.pVaddr.toNat).or addr := by
    induction h with
    | nil =>
      intro addr
      rfl
    | @cons h s headers segments hs _ ih =>
      intro addr
      obtain ⟨-, hflags, -, -, -, -, hstart, -⟩ := parseSegment_eq_some.mp hs
      have hexec : (!s.flags.contains .NO_EXECUTE) = decide (h.pFlags &&& PF_X ≠ 0) := by
        rw [hflags, Bool.eq_iff_iff, Bool.not_eq_true', ← Bool.not_eq_true,
          (contains_parseSegmentFlags h).2.2, decide_eq_true_iff]
      rw [List.foldl_cons, ih, List.filter_cons, hexec, VirtAddr.new_eq_ok.mp hstart]
      by_cases hx : h.pFlags &&& PF_X = 0
      · simp [hx]
      · rw [if_pos (by simp [hx]), if_pos (by simp [hx]), List.getLast?_cons]
        cases (headers.filter fun h => h.pFlags &&& PF_X ≠ 0).getLast? with
        | none => simp
        | some t => simp
  rw [defaultTextAddr, hfold none, Option.or_none]

/-- Reading and moving: each kept header gives its segment. -/
theorem relocated_segments {o : Overflow} {headers : List ProgramHeader64}
    {segments : List ElfSegment} {entryPoint : VirtAddr} {file : ElfFile} {offset : ℤ}
    {text : ProgramHeader64}
    (hsegments : (parseSegments o headers : Outcome Empty _) = .ok segments)
    (hoffset : (offsetToApply o (VirtAddr.signExtend text.pVaddr.toNat) : Outcome Empty ℤ)
      = .ok offset)
    (hremap : (ElfFile.remap (relocate o offset) ⟨segments, entryPoint⟩ : Outcome Empty _)
      = .ok file) :
    List.Forall₂ (Relocated o text) (headers.filter (·.kept)) file.segments := by
  refine (segments_eq_ok hsegments hremap).imp ?_
  rintro h s ⟨s₀, hs₀, hs⟩
  obtain ⟨hkept, hflags, halign, hty, hfileStart, hfileEnd, hstart, hlen, horiginal⟩ :=
    parseSegment_eq_some.mp hs₀
  simp only [ElfSegment.remap, Outcome.bind_eq_ok, Outcome.ok.injEq] at hs
  obtain ⟨start, hmoved, rfl⟩ := hs
  have hstart := VirtAddr.new_eq_ok.mp hstart
  refine ⟨hkept, hstart ▸ s₀.addr.start.canonical, hty, halign, hflags, hfileStart, hfileEnd,
    horiginal, hlen, ?_⟩
  rw [← hstart]
  exact relocate_eq_ok hoffset hmoved

/-- The segments of a loaded file. -/
theorem load_segments {M A : Type} {mapper : Mapper M A}
    {allocateFrame : A → Outcome Empty (Option PhysFrame × A)}
    {parse : List UInt8 → Option ElfHeaders} {o : Overflow} {bytes : List UInt8} {m m' : M}
    {a a' : A} {mem mem' : PhysMemory} {file : ElfFile} {elf : ElfHeaders}
    (hparse : parse bytes = some elf)
    (hload : load mapper allocateFrame parse o bytes m a mem = .ok (file, m', a', mem')) :
    ∃ text, textHeader elf = some text ∧
      List.Forall₂ (Relocated o text) (elf.programHeaders.filter (·.kept)) file.segments := by
  obtain ⟨elf', segments, entryPoint, textAddr, offset, pages, m₁, hparse', hsegments, -, htext,
    hoffset, hremap, -⟩ := load_eq_ok hload
  obtain rfl := Option.some.inj (hparse.symm.trans hparse')
  rw [defaultTextAddr_eq (parseSegments_eq_ok hsegments), Option.map_eq_some_iff] at htext
  obtain ⟨text, htext, rfl⟩ := htext
  exact ⟨text, htext, relocated_segments hsegments hoffset hremap⟩

/-! ### The image in terms of the headers -/

/-- Where `load` moves the segment of a header. -/
def ElfHeaders.start (elf : ElfHeaders) (h : ProgramHeader64) : ℕ :=
  (textHeader elf).elim 0 fun text => VirtAddr.signExtend
    ((VirtAddr.signExtend h.pVaddr.toNat + displacement text) % 2 ^ 64).toNat

/-- The page is one of `pages()`: from the page of the first byte to that of the
address after the last one. -/
def ElfHeaders.Walks (elf : ElfHeaders) (h : ProgramHeader64) (page : Page) : Prop :=
  elf.start h % 2 ^ 48 / 4096 ≤ page.number ∧
    page.number ≤ (elf.start h + h.pMemsz.toNat) % 2 ^ 48 / 4096

/-- The page has a byte of `[start, start + p_memsz)`. -/
def ElfHeaders.HoldsByte (elf : ElfHeaders) (h : ProgramHeader64) (page : Page) : Prop :=
  ∃ v : VirtAddr, elf.start h ≤ v.addr ∧ v.addr < elf.start h + h.pMemsz.toNat ∧
    Page.containingAddress v = page

theorem Relocated.start_eq_start {o : Overflow} {elf : ElfHeaders} {text h : ProgramHeader64}
    {s : ElfSegment} (hs : Relocated o text h s) (htext : textHeader elf = some text) :
    s.addr.start.addr = elf.start h := by
  rw [hs.start, ElfHeaders.start, htext]
  rfl

/-- The pages of a segment whose end could be computed. -/
theorem covers_iff_walks {o : Overflow} {elf : ElfHeaders} {text h : ProgramHeader64}
    {s : ElfSegment} {last : VirtAddr} (hs : Relocated o text h s)
    (htext : textHeader elf = some text)
    (hlast : (s.addr.start.add o s.addr.len : Outcome Empty _) = .ok last) {page : Page} :
    covers o page s = true ↔ elf.Walks h page := by
  obtain ⟨e, he, hext⟩ := VirtAddr.add_eq_ok.mp hlast
  -- neither the wrap of the sum nor its sign extension changes the page number
  have hmod : e % 2 ^ 48 = (s.addr.start.addr + s.addr.len) % 2 ^ 48 := by
    cases o with
    | panic =>
      rw [Overflow.addU64_panic] at he
      split at he
      · rw [← Outcome.ok.inj he]
      · cases he
    | wrap =>
      rw [Overflow.addU64_wrap] at he
      obtain rfl := Outcome.ok.inj he
      omega
  have hcases := VirtAddr.signExtend_cases e
  rw [covers_iff, hlast, ElfHeaders.Walks, ← hs.start_eq_start htext, ← hs.len, ← hmod]
  simp only [Outcome.ok.injEq, exists_eq_left', Page.containingAddress, hext]
  omega

section

variable {M A : Type} {mapper : Mapper M A}
  {allocateFrame : A → Outcome Empty (Option PhysFrame × A)}
  {parse : List UInt8 → Option ElfHeaders} {o : Overflow} {bytes : List UInt8} {m m' : M}
  {a a' : A} {mem mem' : PhysMemory} {file : ElfFile} {elf : ElfHeaders}

/-- Each kept header has its segment in the loaded file, with the pages that
the header says. -/
theorem load_header (hparse : parse bytes = some elf)
    (hload : load mapper allocateFrame parse o bytes m a mem = .ok (file, m', a', mem'))
    {h : ProgramHeader64} (hh : h ∈ elf.programHeaders) (hkept : h.kept = true) :
    ∃ s ∈ file.segments, ∃ text, Relocated o text h s ∧ s.addr.start.addr = elf.start h ∧
      ∀ page, covers o page s = true ↔ elf.Walks h page := by
  obtain ⟨text, htext, hsegments⟩ := load_segments hparse hload
  obtain ⟨s, hs, hrel⟩ := forall₂_mem_left hsegments (List.mem_filter.mpr ⟨hh, hkept⟩)
  obtain ⟨last, hlast⟩ := load_ends hload hs
  exact ⟨s, hs, text, hrel, hrel.start_eq_start htext, fun page => covers_iff_walks hrel htext hlast⟩

/-- And each segment of the file its header. -/
theorem load_header_of_mem (hparse : parse bytes = some elf)
    (hload : load mapper allocateFrame parse o bytes m a mem = .ok (file, m', a', mem'))
    {s : ElfSegment} (hs : s ∈ file.segments) :
    ∃ h ∈ elf.programHeaders, h.kept = true ∧ ∃ text, Relocated o text h s ∧
      s.addr.start.addr = elf.start h ∧ ∀ page, covers o page s = true ↔ elf.Walks h page := by
  obtain ⟨text, htext, hsegments⟩ := load_segments hparse hload
  obtain ⟨h, hh, hrel⟩ := forall₂_mem_right hsegments hs
  obtain ⟨hh, hkept⟩ := List.mem_filter.mp hh
  obtain ⟨last, hlast⟩ := load_ends hload hs
  exact ⟨h, hh, hkept, text, hrel, hrel.start_eq_start htext,
    fun page => covers_iff_walks hrel htext hlast⟩

/-- **The image, read off the headers.** -/
theorem inImage_iff_walks (hparse : parse bytes = some elf)
    (hload : load mapper allocateFrame parse o bytes m a mem = .ok (file, m', a', mem'))
    (page : Page) :
    InImage o file page ↔ ∃ h ∈ elf.programHeaders, h.kept = true ∧ elf.Walks h page := by
  constructor
  · rintro ⟨s, hs, hpage⟩
    obtain ⟨h, hh, hkept, text, -, -, hcovers⟩ := load_header_of_mem hparse hload hs
    exact ⟨h, hh, hkept, (hcovers page).mp hpage⟩
  · rintro ⟨h, hh, hkept, hpage⟩
    obtain ⟨s, hs, text, -, -, hcovers⟩ := load_header hparse hload hh hkept
    exact ⟨s, hs, (hcovers page).mpr hpage⟩

/-- A segment is moved to an address. -/
theorem canonical_start (hparse : parse bytes = some elf)
    (hload : load mapper allocateFrame parse o bytes m a mem = .ok (file, m', a', mem'))
    {h : ProgramHeader64} (hh : h ∈ elf.programHeaders) (hkept : h.kept = true) :
    Canonical (elf.start h) := by
  obtain ⟨s, -, text, -, hstart, -⟩ := load_header hparse hload hh hkept
  exact hstart ▸ s.addr.start.canonical

end

/-! ### Page 0 -/

section

variable {M A : Type} {mapper : Mapper M A}
  {allocateFrame : A → Outcome Empty (Option PhysFrame × A)}
  {parse : List UInt8 → Option ElfHeaders}

/-- A segment has page 0 iff it starts there. -/
theorem walks_nullPage {elf : ElfHeaders} {h : ProgramHeader64} (hcanon : Canonical (elf.start h)) :
    elf.Walks h (.ofNumber 0) ↔ elf.start h < 4096 := by
  unfold ElfHeaders.Walks Page.ofNumber
  unfold Canonical at hcanon
  dsimp only
  omega

/-- **The null page.**  Of a page table without page 0, a load makes one without
page 0, and with no user slice at address 0, iff no kept header has its segment
moved to start below `0x1000`. -/
theorem load_nullPage_iff (hl : mapper.Lawful) (o : Overflow) (bytes : List UInt8) (m m' : M)
    (a a' : A) (mem mem' : PhysMemory) (file : ElfFile) (elf : ElfHeaders)
    (hnull : ∀ frame flags, mapper.table m (.ofNumber 0) ≠ .mapped frame flags)
    (hparse : parse bytes = some elf)
    (hload : load mapper allocateFrame parse o bytes m a mem = .ok (file, m', a', mem')) :
    ((∀ frame flags, mapper.table m' (.ofNumber 0) ≠ .mapped frame flags) ∧
      ∀ o' ptr n s, Syscalls.constructUserSlice o' (mapper.table m') ptr n = .ok s ∨
        Syscalls.constructUserSliceMut o' (mapper.table m') ptr n = .ok s →
          0 < s.len → s.ptr ≠ 0) ↔
    ∀ h ∈ elf.programHeaders, h.kept = true → 4096 ≤ elf.start h := by
  obtain ⟨m₁, -, himage, hother⟩ := load_copy hl hload
  have hiff := inImage_iff_walks hparse hload (.ofNumber 0)
  constructor
  · rintro ⟨hunmapped, -⟩ h hh hkept
    by_contra hlow
    have hwalks := (walks_nullPage (canonical_start hparse hload hh hkept)).mpr
      (Nat.lt_of_not_le hlow)
    obtain ⟨-, frame, -, flags, -, hmapped⟩ := himage _ (hiff.mpr ⟨h, hh, hkept, hwalks⟩)
    exact hunmapped frame flags hmapped
  · intro hstarts
    have hnot : ¬ InImage o file (.ofNumber 0) := by
      intro hpage
      obtain ⟨h, hh, hkept, hwalks⟩ := hiff.mp hpage
      exact absurd ((walks_nullPage (canonical_start hparse hload hh hkept)).mp hwalks)
        (Nat.not_lt.mpr (hstarts h hh hkept))
    refine ⟨(hother _ hnot).2 ▸ hnull, ?_⟩
    -- a null slice is never an `Ok`, whatever is mapped
    intro o' ptr n s hs _
    rcases hs with hs | hs
    · obtain ⟨rfl, hne, -⟩ := Syscalls.constructUserRange_eq_ok.mp hs
      exact hne
    · obtain ⟨rfl, hne, -⟩ := Syscalls.constructUserRange_eq_ok.mp hs
      exact hne

end

/-- Load a file with these headers, taking frames from the sample map. -/
def loadInto (elf : ElfHeaders) (bytes : List UInt8) (m : PageTable) (mem : PhysMemory) :
    Outcome Empty (ElfFile × PageTable × BootInfoFrameAllocator × PhysMemory) :=
  load tableMapper (BootInfoFrameAllocator.allocateFrame .panic) (fun _ => some elf) .panic bytes m
    (.init BootInfoFrameAllocator.sampleMap) mem

/-- Text at `0x661000` and data at `0x1010`: both move down by one page. -/
def lowDataElf : ElfHeaders where
  eEntry := 0x661000
  programHeaders :=
    [⟨1, PF_R ||| PF_X, 0, 0x661000, 2, 0x10, 1⟩, ⟨1, PF_R, 2, 0x1010, 1, 0x10, 1⟩]

/-- The data go to page 0, which a user slice at address 0 then has: with
overflow checks it makes the kernel panic. -/
theorem load_maps_nullPage : ∃ file m a mem frame flags,
    loadInto lowDataElf [0xeb, 0xfe, 0x2a] (fun _ => .notMapped) (fun _ _ => 0)
      = .ok (file, m, a, mem) ∧
    m (.ofNumber 0) = .mapped frame flags ∧
    Syscalls.constructUserSlice .panic m 0 1 = .stop .panic := by
  obtain ⟨file, m, a, mem, hload, hview⟩ :=
    exists_of_view
      (x := loadInto lowDataElf [0xeb, 0xfe, 0x2a] (fun _ => .notMapped) (fun _ _ => 0))
      (b := (.mapped ⟨0x10, by decide⟩ (PRESENT ∪ USER_ACCESSIBLE ∪ NO_EXECUTE), .stop .panic))
      (fun _ m _ => (m (.ofNumber 0), Syscalls.constructUserSlice .panic m 0 1)) (by decide +kernel)
  obtain ⟨hentry, hslice⟩ := Prod.mk.inj hview
  exact ⟨file, m, a, mem, _, _, hload, hentry, hslice⟩

theorem load_nullPage_iff_sharedPage : ∃ m a mem,
    loadSharedPage = .ok (sharedPageFile, m, a, mem) ∧
    (∀ frame flags, m (.ofNumber 0) ≠ .mapped frame flags) ∧
    ∀ o ptr n s, Syscalls.constructUserSlice o m ptr n = .ok s ∨
      Syscalls.constructUserSliceMut o m ptr n = .ok s → 0 < s.len → s.ptr ≠ 0 := by
  obtain ⟨m, a, mem, hload, -⟩ := loadSharedPage_eq_ok
  have h := (load_nullPage_iff tableMapper_lawful .panic _ _ m _ a _ mem sharedPageFile
    sharedPageElf (fun _ _ h => by cases h) rfl hload).mpr (by decide)
  exact ⟨m, a, mem, hload, h⟩

/-! ### The pages with a byte of a segment -/

/-- Every byte of the segment has an address: the segment does not reach over
the end of the address space, nor from the lower half into the hole. -/
def ElfHeaders.Addressable (elf : ElfHeaders) (h : ProgramHeader64) : Prop :=
  elf.start h + h.pMemsz.toNat ≤ 2 ^ 64 ∧
    (elf.start h < 2 ^ 47 → elf.start h + h.pMemsz.toNat ≤ 2 ^ 47)

/-- What it takes for one segment that the pages mapped are those with a byte
of a segment: the page that starts where it ends has a byte of one; and if it
ends at the top of memory, where `pages()` is empty, its own pages are among
those of others. -/
structure ElfHeaders.Exact (elf : ElfHeaders) (h : ProgramHeader64) : Prop where
  addressable : elf.Addressable h
  next : 4096 ∣ elf.start h + h.pMemsz.toNat → elf.start h + h.pMemsz.toNat < 2 ^ 64 →
    ∃ t ∈ elf.programHeaders, t.kept = true ∧
      elf.HoldsByte t (.ofNumber ((elf.start h + h.pMemsz.toNat) % 2 ^ 48 / 4096))
  top : elf.start h + h.pMemsz.toNat = 2 ^ 64 → ∀ page, elf.HoldsByte h page →
    ∃ t ∈ elf.programHeaders, t.kept = true ∧ elf.Walks t page

section

variable {elf : ElfHeaders} {h : ProgramHeader64} {page : Page}

/-- A segment has only addresses iff it does not leave its half. -/
theorem addressable_iff (hcanon : Canonical (elf.start h)) :
    elf.Addressable h ↔ ∀ i < h.pMemsz.toNat, Canonical (elf.start h + i) := by
  unfold ElfHeaders.Addressable
  unfold Canonical at hcanon ⊢
  constructor
  · rintro ⟨htop, hhole⟩ i hi
    omega
  · intro hall
    constructor
    · by_contra hlong
      have := hall (2 ^ 64 - elf.start h) (by omega)
      omega
    · intro hlow
      by_contra hlong
      have := hall (2 ^ 47 - elf.start h) (by omega)
      omega

/-- **The pages of a segment** that ends below the top of memory: those with a
byte of it, and the page that starts where it ends. -/
theorem walks_iff_holdsByte (hcanon : Canonical (elf.start h)) (hlen : 0 < h.pMemsz.toNat)
    (haddr : elf.Addressable h) (htop : elf.start h + h.pMemsz.toNat < 2 ^ 64) :
    elf.Walks h page ↔ elf.HoldsByte h page ∨
      4096 ∣ elf.start h + h.pMemsz.toNat ∧
        page = .ofNumber ((elf.start h + h.pMemsz.toNat) % 2 ^ 48 / 4096) := by
  have hlast : Canonical (elf.start h + h.pMemsz.toNat - 1) := by
    have h := (addressable_iff hcanon).mp haddr (h.pMemsz.toNat - 1) (by omega)
    rwa [← Nat.add_sub_assoc hlen] at h
  unfold ElfHeaders.Addressable at haddr
  unfold Canonical at hcanon
  have hholds : elf.HoldsByte h page ↔
      page ∈ Page.rangeInclusive (.containingAddress ⟨elf.start h, hcanon⟩)
        (.containingAddress ⟨_, hlast⟩) := by
    rw [Page.mem_rangeInclusive_iff_exists
      (show elf.start h ≤ elf.start h + h.pMemsz.toNat - 1 by omega) (by dsimp only; omega)]
    refine exists_congr fun v => and_congr_right fun _ => and_congr_left fun _ => ?_
    show _ < _ ↔ _ ≤ _ - 1
    omega
  rw [hholds, Page.mem_rangeInclusive, ElfHeaders.Walks, Page.ext_iff]
  simp only [Page.containingAddress, Page.ofNumber]
  have hlt := page.number_lt
  constructor
  · rintro ⟨hfirst, hpage⟩
    by_cases hin : page.number ≤ (elf.start h + h.pMemsz.toNat - 1) % 2 ^ 48 / 4096
    · exact .inl ⟨hfirst, hin⟩
    · refine .inr ⟨?_, ?_⟩
      · omega
      · omega
  · rintro (⟨hfirst, hpage⟩ | ⟨hdvd, hpage⟩)
    · exact ⟨hfirst, by omega⟩
    · omega

/-- A segment that ends at the top of memory has no pages. -/
theorem not_walks_top (hcanon : Canonical (elf.start h)) (hlt : h.pMemsz.toNat < 2 ^ 64)
    (haddr : elf.Addressable h) (htop : elf.start h + h.pMemsz.toNat = 2 ^ 64) :
    ¬ elf.Walks h page := by
  unfold ElfHeaders.Walks
  unfold ElfHeaders.Addressable at haddr
  unfold Canonical at hcanon
  rw [htop]
  omega

end

section

variable {M A : Type} {mapper : Mapper M A}
  {allocateFrame : A → Outcome Empty (Option PhysFrame × A)}
  {parse : List UInt8 → Option ElfHeaders}

/-- **Page coverage.**  The pages a load maps are those with a byte of a kept
segment, and every such byte is on one of them, iff all kept headers are
exact. -/
theorem load_pages_iff (hl : mapper.Lawful) (o : Overflow) (bytes : List UInt8) (m m' : M)
    (a a' : A) (mem mem' : PhysMemory) (file : ElfFile) (elf : ElfHeaders)
    (hparse : parse bytes = some elf)
    (hload : load mapper allocateFrame parse o bytes m a mem = .ok (file, m', a', mem')) :
    ((∀ page, (mapper.table m page = .notMapped ∧
          ∃ frame flags, mapper.table m' page = .mapped frame flags) ↔
        ∃ h ∈ elf.programHeaders, h.kept = true ∧ elf.HoldsByte h page) ∧
      ∀ h ∈ elf.programHeaders, h.kept = true → ∀ i < h.pMemsz.toNat,
        ∃ v : VirtAddr, v.addr = elf.start h + i ∧
          mapper.table m (.containingAddress v) = .notMapped ∧
          ∃ frame flags, mapper.table m' (.containingAddress v) = .mapped frame flags) ↔
    ∀ h ∈ elf.programHeaders, h.kept = true → elf.Exact h := by
  simp only [load_maps_iff hl hload, inImage_iff_walks hparse hload]
  have hcanon : ∀ h ∈ elf.programHeaders, h.kept = true → Canonical (elf.start h) :=
    fun h => canonical_start hparse hload
  constructor
  · rintro ⟨hexact, hbytes⟩ h hh hkept
    have haddr : elf.Addressable h := by
      refine (addressable_iff (hcanon h hh hkept)).mpr fun i hi => ?_
      obtain ⟨v, hv, -⟩ := hbytes h hh hkept i hi
      exact hv ▸ v.canonical
    refine ⟨haddr, ?_, ?_⟩
    · intro hdvd htop
      refine (hexact _).mp ⟨h, hh, hkept, ?_⟩
      exact (walks_iff_holdsByte (hcanon h hh hkept) (ProgramHeader64.pMemsz_pos hkept) haddr htop).mpr
        (.inr ⟨hdvd, rfl⟩)
    · intro _ page hpage
      exact (hexact page).mpr ⟨h, hh, hkept, hpage⟩
  · intro hall
    -- a page of a segment has a byte of one
    have hforward : ∀ h ∈ elf.programHeaders, h.kept = true → ∀ page, elf.Walks h page →
        ∃ t ∈ elf.programHeaders, t.kept = true ∧ elf.HoldsByte t page := by
      intro h hh hkept page hpage
      obtain ⟨haddr, hnext, -⟩ := hall h hh hkept
      have htop : elf.start h + h.pMemsz.toNat < 2 ^ 64 := by
        refine lt_of_le_of_ne haddr.1 fun htop => ?_
        exact not_walks_top (hcanon h hh hkept) h.pMemsz.toNat_lt haddr htop hpage
      rcases (walks_iff_holdsByte (hcanon h hh hkept) (ProgramHeader64.pMemsz_pos hkept) haddr htop).mp hpage with
        hbyte | ⟨hdvd, rfl⟩
      · exact ⟨h, hh, hkept, hbyte⟩
      · exact hnext hdvd htop
    -- and a page with a byte of a segment is a page of one
    have hbackward : ∀ h ∈ elf.programHeaders, h.kept = true → ∀ page, elf.HoldsByte h page →
        ∃ t ∈ elf.programHeaders, t.kept = true ∧ elf.Walks t page := by
      intro h hh hkept page hpage
      obtain ⟨haddr, -, htop⟩ := hall h hh hkept
      rcases haddr.1.lt_or_eq with hlt | heq
      · exact ⟨h, hh, hkept, (walks_iff_holdsByte (hcanon h hh hkept) (ProgramHeader64.pMemsz_pos hkept) haddr hlt).mpr
          (.inl hpage)⟩
      · exact htop heq page hpage
    refine ⟨fun page => ⟨?_, ?_⟩, ?_⟩
    · rintro ⟨h, hh, hkept, hpage⟩
      exact hforward h hh hkept page hpage
    · rintro ⟨h, hh, hkept, hpage⟩
      exact hbackward h hh hkept page hpage
    · intro h hh hkept i hi
      have hbyte := (addressable_iff (hcanon h hh hkept)).mp (hall h hh hkept).addressable i hi
      refine ⟨⟨_, hbyte⟩, rfl, hbackward h hh hkept _ ⟨⟨_, hbyte⟩, ?_, ?_, rfl⟩⟩
      · exact Nat.le_add_right _ _
      · exact Nat.add_lt_add_left hi _

end

/-- A text segment of one whole page. -/
def fullPageElf : ElfHeaders where
  eEntry := 0x1000
  programHeaders := [⟨1, PF_R ||| PF_X, 0, 0x1000, 2, 0x1000, 0x1000⟩]

/-- The page after the text is mapped, too, and holds no byte of it. -/
theorem load_maps_extra_page : ∃ file m a mem frame flags,
    loadInto fullPageElf [0xeb, 0xfe] (fun _ => .notMapped) (fun _ _ => 0)
      = .ok (file, m, a, mem) ∧
    m (.ofNumber 0x661) = .mapped frame flags ∧
    ¬ ∃ h ∈ fullPageElf.programHeaders, h.kept = true ∧
      fullPageElf.HoldsByte h (.ofNumber 0x661) := by
  obtain ⟨file, m, a, mem, hload, hentry⟩ :=
    exists_of_view
      (x := loadInto fullPageElf [0xeb, 0xfe] (fun _ => .notMapped) (fun _ _ => 0))
      (b := .mapped ⟨0x11, by decide⟩ (PRESENT ∪ USER_ACCESSIBLE))
      (fun _ m _ => m (.ofNumber 0x661)) (by decide +kernel)
  refine ⟨file, m, a, mem, _, _, hload, hentry, ?_⟩
  rintro ⟨h, hh, -, v, hstart, hend, hpage⟩
  obtain rfl := List.mem_singleton.mp hh
  have hnumber : v.addr % 2 ^ 48 / 4096 = 0x661 := congrArg Page.number hpage
  change 0x660000 ≤ v.addr at hstart
  change v.addr < 0x660000 + 0x1000 at hend
  omega

theorem load_pages_iff_sharedPage : ∃ m a mem,
    loadSharedPage = .ok (sharedPageFile, m, a, mem) ∧
    ∀ page, (∃ frame flags, m page = .mapped frame flags) ↔
      ∃ h ∈ sharedPageElf.programHeaders, h.kept = true ∧ sharedPageElf.HoldsByte h page := by
  obtain ⟨m, a, mem, hload, -⟩ := loadSharedPage_eq_ok
  have h := load_pages_iff tableMapper_lawful .panic _ _ m _ a _ mem sharedPageFile sharedPageElf
    rfl hload
  -- no segment ends at a page boundary, and all of them are low
  have hends : ∀ h ∈ sharedPageElf.programHeaders,
      ¬ 4096 ∣ sharedPageElf.start h + h.pMemsz.toNat ∧
        sharedPageElf.start h + h.pMemsz.toNat ≤ 2 ^ 47 := by
    decide
  obtain ⟨hpages, -⟩ := h.mpr fun h hh _ => by
    obtain ⟨hdvd, hlow⟩ := hends h hh
    refine ⟨⟨hlow.trans (by decide), fun _ => hlow⟩, fun hdvd' => absurd hdvd' hdvd, fun htop => ?_⟩
    omega
  refine ⟨m, a, mem, hload, fun page => ?_⟩
  rw [← hpages page]
  exact (and_iff_right rfl).symm

/-! ### Alignment -/

theorem signExtend_modEq (a : ℕ) : (VirtAddr.signExtend a : ℤ) ≡ a [ZMOD 2 ^ 48] := by
  have h := VirtAddr.signExtend_cases a
  unfold Int.ModEq
  omega

theorem Relocated.start_modEq {o : Overflow} {text h : ProgramHeader64} {s : ElfSegment}
    (hs : Relocated o text h s) :
    (s.addr.start.addr : ℤ) ≡ s.addr.originalStart + displacement text [ZMOD 2 ^ 48] := by
  have hnonneg := Int.emod_nonneg (VirtAddr.signExtend h.pVaddr.toNat + displacement text)
    (show (2 ^ 64 : ℤ) ≠ 0 by decide)
  rw [hs.start, hs.originalStart]
  refine (signExtend_modEq _).trans ?_
  rw [Int.toNat_of_nonneg hnonneg]
  refine Int.ModEq.trans ?_ ((signExtend_modEq _).add_right _)
  exact Int.ModEq.of_dvd (by decide) (Int.mod_modEq _ (2 ^ 64))

/-- Two addresses of segments are not far enough apart for an alignment beyond
`2 ^ 48`. -/
theorem Relocated.displacement_eq_zero {o : Overflow} {text h : ProgramHeader64} {s : ElfSegment}
    (hs : Relocated o text h s) (htext : Canonical (VirtAddr.signExtend text.pVaddr.toNat))
    (heq : (s.addr.start.addr : ℤ) ≡ s.addr.originalStart [ZMOD 2 ^ 49]) :
    displacement text = 0 ∧ Canonical s.addr.originalStart := by
  have hstart := hs.start
  have hcanon := hs.canonical
  have hcases := VirtAddr.signExtend_cases h.pVaddr.toNat
  have hcases' := VirtAddr.signExtend_cases
    ((VirtAddr.signExtend h.pVaddr.toNat + displacement text) % 2 ^ 64).toNat
  rw [hs.originalStart] at heq ⊢
  unfold displacement LOAD_TEXT_SECTION_AT at *
  unfold Canonical at *
  unfold Int.ModEq at heq
  omega

theorem Relocated.start_eq {o : Overflow} {text h : ProgramHeader64} {s : ElfSegment}
    (hs : Relocated o text h s) (htext : Canonical (VirtAddr.signExtend text.pVaddr.toNat))
    (hdvd : (2 ^ 49 : ℤ) ∣ displacement text) (hcanon : Canonical s.addr.originalStart) :
    s.addr.start.addr = s.addr.originalStart := by
  have hzero : displacement text = 0 := by
    unfold displacement LOAD_TEXT_SECTION_AT at *
    unfold Canonical at htext
    omega
  rw [hs.originalStart] at hcanon ⊢
  have hlt := VirtAddr.addr_lt ⟨_, hcanon⟩
  rw [hs.start, hzero, add_zero, VirtAddr.signExtend_of_canonical hcanon,
    Int.emod_eq_of_lt (by omega) (by exact_mod_cast hlt), Int.toNat_natCast,
    VirtAddr.signExtend_of_canonical hcanon]

section

variable {M A : Type} {mapper : Mapper M A}
  {allocateFrame : A → Outcome Empty (Option PhysFrame × A)}
  {parse : List UInt8 → Option ElfHeaders}

/-- **Alignment.**  A segment whose `p_align` is a power of two keeps its
address modulo `p_align` iff the displacement, which is that of the text, is a
multiple of it.  (Beyond `2 ^ 48`, the address must not be one that
`VirtAddr::new` extends, either.) -/
theorem load_alignment_iff (o : Overflow) (bytes : List UInt8) (m m' : M) (a a' : A)
    (mem mem' : PhysMemory) (file : ElfFile) (elf : ElfHeaders) (hparse : parse bytes = some elf)
    (hload : load mapper allocateFrame parse o bytes m a mem = .ok (file, m', a', mem')) :
    ∃ text, textHeader elf = some text ∧ ∀ s ∈ file.segments, ∀ k, s.align = 2 ^ k →
      (s.addr.start.addr ≡ s.addr.originalStart [MOD s.align] ↔
        (s.align : ℤ) ∣ displacement text ∧
          (s.align ≤ 2 ^ 48 ∨ Canonical s.addr.originalStart)) := by
  obtain ⟨text, htext, hsegments⟩ := load_segments hparse hload
  refine ⟨text, htext, ?_⟩
  intro s hs k hk
  obtain ⟨h, -, hh⟩ := forall₂_mem_right hsegments hs
  obtain ⟨_, -, htext'⟩ := forall₂_mem_left hsegments
    (List.mem_filter.mp (List.mem_of_getLast? htext)).1
  rw [← Int.natCast_modEq_iff, hk, Nat.cast_pow, Nat.cast_ofNat]
  by_cases hsmall : k ≤ 48
  · have hmod : (s.addr.start.addr : ℤ) ≡ s.addr.originalStart + displacement text [ZMOD 2 ^ k] :=
      hh.start_modEq.of_dvd (pow_dvd_pow 2 hsmall)
    constructor
    · intro heq
      have hdvd := Int.modEq_iff_dvd.mp (heq.symm.trans hmod)
      rw [add_sub_cancel_left] at hdvd
      exact ⟨hdvd, .inl (Nat.pow_le_pow_right (by decide) hsmall)⟩
    · rintro ⟨hdvd, -⟩
      refine hmod.trans (Int.modEq_iff_dvd.mpr ?_)
      rwa [sub_add_cancel_left, dvd_neg]
  · -- no displacement but 0 is a multiple of such an alignment
    have hdvd : (2 ^ 49 : ℤ) ∣ 2 ^ k := pow_dvd_pow 2 (by omega)
    constructor
    · intro heq
      obtain ⟨hzero, hcanon⟩ := hh.displacement_eq_zero htext'.canonical (heq.of_dvd hdvd)
      exact ⟨hzero ▸ dvd_zero _, .inr hcanon⟩
    · rintro ⟨hD, hcanon⟩
      have hlarge : ¬ 2 ^ k ≤ 2 ^ 48 := (Nat.pow_lt_pow_right (by decide) (by omega)).not_ge
      rw [hh.start_eq htext'.canonical (hdvd.trans hD) (hcanon.resolve_left hlarge)]

end

/-- Text that starts at `0x1010` in a page-aligned segment: the offset in the
file agrees with the address modulo the alignment. -/
def offPageElf : ElfHeaders where
  eEntry := 0x1010
  programHeaders := [⟨1, PF_R ||| PF_X, 0x10, 0x1010, 2, 0x10, 0x1000⟩]

/-- The text as it is loaded. -/
def offPageFile : ElfFile where
  segments :=
    [⟨.load, 0x1000, PRESENT ∪ USER_ACCESSIBLE, 0x10, 0x12, ⟨textPage.startAddress, 0x10, 0x1010⟩⟩]
  entryPoint := textPage.startAddress

/-- The text is moved from offset `0x10` in a page to the start of one. -/
theorem load_breaks_alignment : ∃ m a mem,
    loadInto offPageElf (List.replicate 0x12 0x90) (fun _ => .notMapped) (fun _ _ => 0)
      = .ok (offPageFile, m, a, mem) ∧
    (∀ h ∈ offPageElf.programHeaders, h.kept = true ∧ h.pAlign = 2 ^ 12 ∧
      h.pVaddr % h.pAlign = h.pOffset % h.pAlign) ∧
    ∃ s ∈ offPageFile.segments, ¬ s.addr.start.addr ≡ s.addr.originalStart [MOD s.align] := by
  obtain ⟨file, m, a, mem, hload, rfl⟩ :=
    exists_of_view
      (x := loadInto offPageElf (List.replicate 0x12 0x90) (fun _ => .notMapped) (fun _ _ => 0))
      (b := offPageFile) (fun file _ _ => file) (by decide +kernel)
  exact ⟨m, a, mem, hload, by decide, _, List.mem_cons_self, by decide⟩

theorem load_alignment_iff_sharedPage : ∃ text, textHeader sharedPageElf = some text ∧
    ∀ s ∈ sharedPageFile.segments, s.addr.start.addr ≡ s.addr.originalStart [MOD s.align] := by
  obtain ⟨m, a, mem, hload, -⟩ := loadSharedPage_eq_ok
  obtain ⟨text, htext, h⟩ :=
    load_alignment_iff .panic _ _ m _ a _ mem sharedPageFile sharedPageElf rfl hload
  refine ⟨text, htext, fun s hs => (h s hs 12 ?_).mpr ?_⟩
  · revert s
    decide
  · obtain rfl := Option.some.inj (htext.symm.trans rfl)
    revert s
    decide

end Elf
