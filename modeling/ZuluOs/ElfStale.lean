/-
The part of a segment that is not in the file.

A segment with `p_filesz < p_memsz` asks for zeros after its contents.  The copy
loop stores the contents and nothing else, and the frames come from the allocator
as they are, so these bytes are what was left in the frames.

A file is judged over all the machines it may be loaded on.  The one that tells
the files apart has every frame full of `0xff`, frames for every page the file
may ask for, and all other pages mapped to frames of their own (`spreadTable`), so
that no store of the copy loop reaches a byte by a second address.

* `load_spread` — a file that can be loaded at all can be loaded there, and no two
  pages share a frame afterwards;
* `load_rest` — a byte that is not in the file keeps what its frame held;
* `load_zeroed_iff` — so it reads as zero on every machine only if there is none.
-/
import ZuluOs.ElfReturns

namespace Elf

open PageTableFlags BootInfoFrameAllocator

/-! ### The headers that are copied -/

/-- The headers whose contents the copy loop copies. -/
def ElfHeaders.loadHeaders (elf : ElfHeaders) : List ProgramHeader64 :=
  elf.programHeaders.filter fun h => h.kept && ElfSegmentType.tryFrom h.pType == some .load

theorem ElfHeaders.mem_loadHeaders {elf : ElfHeaders} {h : ProgramHeader64} :
    h ∈ elf.loadHeaders ↔ h ∈ elf.programHeaders ∧ h.kept = true ∧
      ElfSegmentType.tryFrom h.pType = some .load := by
  rw [loadHeaders, List.mem_filter, Bool.and_eq_true, beq_iff_eq]

/-- The `Load` segments have no more bytes in the file than in memory, and do
not meet once they are moved; addresses are taken modulo `2 ^ 64`. -/
structure ElfHeaders.Apart (elf : ElfHeaders) : Prop where
  size : ∀ h ∈ elf.loadHeaders, h.pFilesz.toNat ≤ h.pMemsz.toNat
  ranges : elf.loadHeaders.Pairwise fun h t => ∀ i < h.pMemsz.toNat, ∀ j < t.pMemsz.toNat,
    (elf.start h + i) % 2 ^ 64 ≠ (elf.start t + j) % 2 ^ 64

/-- The address of one byte is that of no other. -/
theorem ElfHeaders.Apart.unique {elf : ElfHeaders} (hapart : elf.Apart) {h t : ProgramHeader64}
    (hh : h ∈ elf.loadHeaders) (ht : t ∈ elf.loadHeaders) {i j : ℕ} (hi : i < h.pMemsz.toNat)
    (hj : j < t.pMemsz.toNat)
    (haddr : (elf.start h + i) % 2 ^ 64 = (elf.start t + j) % 2 ^ 64) : h = t ∧ i = j := by
  by_cases hht : h = t
  · subst hht
    have hlt := h.pMemsz.toNat_lt
    exact ⟨rfl, by omega⟩
  · have hsymm : Std.Symm fun h t : ProgramHeader64 => ∀ i < h.pMemsz.toNat,
        ∀ j < t.pMemsz.toNat, (elf.start h + i) % 2 ^ 64 ≠ (elf.start t + j) % 2 ^ 64 :=
      ⟨fun _ _ h i hi j hj => (h j hj i hi).symm⟩
    exact absurd haddr (hapart.ranges.forall hh ht hht i hi j hj)

/-! ### A machine for every file -/

/-- One usable region with as many frames as there are pages. -/
def wideMap : List MemoryRegion :=
  [⟨0, 2 ^ 48, .usable, by decide, by decide, by decide, by decide⟩]

theorem disjointRegions_wideMap : DisjointRegions wideMap :=
  List.pairwise_singleton _ _

theorem length_wideMap : (usableFrames wideMap).length = 2 ^ 36 := by
  simp [usableFrames, usableAddrs, wideMap, MemoryRegion.frameAddresses]

theorem number_lt_of_wideMap {f : PhysFrame} (h : Usable wideMap f) : f.number < 2 ^ 36 := by
  obtain ⟨r, hr, -, -, hend⟩ := h
  obtain rfl := List.mem_singleton.mp hr
  change f.number * 4096 + 4096 ≤ 2 ^ 48 at hend
  omega

theorem spread_lt (page : Page) : 2 ^ 36 + page.number < 2 ^ 40 := by
  have h := page.number_lt
  omega

/-- The given pages are not mapped; every other one has a frame of its own, which
is not in `wideMap`. -/
def spreadTable (pages : List Page) : PageTable := fun page =>
  if page ∈ pages then .notMapped
  else .mapped ⟨2 ^ 36 + page.number, spread_lt page⟩ (PRESENT ∪ WRITABLE)

/-- There are no more pages than that. -/
theorem length_pages_le {pages : List (Page × PageTableFlags)}
    (hkeys : pages.Pairwise fun x y => x.1 ≠ y.1) : pages.length ≤ 2 ^ 36 := by
  have hnodup : (pages.map fun x => x.1.number).Nodup := by
    rw [List.Nodup, List.pairwise_map]
    exact hkeys.imp fun hne heq => hne (Page.ext heq)
  have hsub : (pages.map fun x => x.1.number) ⊆ List.range (2 ^ 36) := by
    intro n hn
    obtain ⟨x, -, rfl⟩ := List.mem_map.mp hn
    exact List.mem_range.mpr x.1.number_lt
  have hle := (List.subperm_of_subset hnodup hsub).length_le
  rwa [List.length_map, List.length_range] at hle

section

variable {M : Type} {mapper : Mapper M BootInfoFrameAllocator}
  {parse : List UInt8 → Option ElfHeaders} {o : Overflow} {bytes : List UInt8} {m m' : M}
  {a a' : BootInfoFrameAllocator} {mem mem' : PhysMemory} {file : ElfFile} {elf : ElfHeaders}
  {tables : M → List PhysFrame}

/-- A copy that has returned once returns wherever all pages are writable. -/
theorem copySegments_spread {pt : PageTable} (pt' : PageTable) {segments : List ElfSegment}
    (hcopy : (copySegments o bytes pt segments mem : Outcome Empty _) = .ok mem')
    (hwritable : ∀ page, ∃ frame flags,
      pt' page = .mapped frame flags ∧ flags.contains WRITABLE = true) (mem₀ : PhysMemory) :
    ∃ mem₁, (copySegments o bytes pt' segments mem₀ : Outcome Empty _) = .ok mem₁ := by
  obtain ⟨hcopyable, hstores⟩ := copySegments_eq_ok.mp hcopy
  obtain ⟨mem₁, hstores'⟩ : ∃ mem₁, (pt'.storeBytes (copyWrites bytes segments) mem₀ :
      Outcome Empty _) = .ok mem₁ := by
    refine Outcome.foldlM_total (fun w hw mem => ?_) mem₀
    -- a store that was made had a canonical address
    obtain ⟨frame, ⟨addr, hcanon⟩, hv, -⟩ := PageTable.backs_of_storeBytes hstores hw
    dsimp only at hv
    subst hv
    obtain ⟨frame', flags, hmapped, hw⟩ := hwritable (.containingAddress ⟨w.1, hcanon⟩)
    rw [PageTable.storeByte, dif_pos hcanon, PageTable.translate, hmapped]
    exact ⟨_, if_pos hw⟩
  exact ⟨mem₁, copySegments_eq_ok.mpr ⟨hcopyable, hstores'⟩⟩

/-- **A file that can be loaded can be loaded there**, whatever the frames hold. -/
theorem load_spread (mem₀ : PhysMemory)
    (hload : (load mapper (allocateFrame o) parse o bytes m a mem : Outcome Empty _)
      = .ok (file, m', a', mem')) :
    ∃ pages m₁ a₁ mem₁, (∀ page, page ∈ pages ↔ InImage o file page) ∧
      (load (drawingMapper o 0) (allocateFrame o) parse o bytes (spreadTable pages, [])
        (.init wideMap) mem₀ : Outcome Empty _) = .ok (file, m₁, a₁, mem₁) := by
  obtain ⟨elf, segments, entryPoint, textAddr, offset, pages, m₂, hparse, hsegments, hentry, htext,
    hoffset, hfile, hpages, -, hcopy, -⟩ := load_eq_ok hload
  have hkeys := pairwise_toList pages
  have hl := drawingMapper_lawful o 0
  have hserves := drawingMapper_serves o 0 disjointRegions_wideMap
  set keys := pages.toList.map Prod.fst
  have hfree : ∀ x ∈ pages.toList, spreadTable keys x.1 = .notMapped :=
    fun x hx => if_pos (List.mem_map_of_mem hx)
  have hsupply : Supply wideMap (pages.toList.length * (0 + 1)) (.init wideMap) := by
    refine ⟨rfl, ?_⟩
    rw [length_wideMap, Nat.zero_add, Nat.mul_one]
    exact (Nat.zero_add _).trans_le (length_pages_le hkeys)
  obtain ⟨m₁, a₁, hmap⟩ := mapPages_returns (o := o) (m := (spreadTable keys, [])) hl hserves
    disjointRegions_wideMap hkeys hfree hsupply
  obtain ⟨hother, hmapped⟩ := mapPages_table hl hkeys hmap
  obtain ⟨mem₁, hcopy₁⟩ := copySegments_spread ((drawingMapper o 0).table m₁) hcopy (by
    intro page
    by_cases hpage : page ∈ keys
    · obtain ⟨x, hx, rfl⟩ := List.mem_map.mp hpage
      obtain ⟨-, frame, hentry⟩ := hmapped x hx
      refine ⟨frame, _, hentry, ?_⟩
      rw [WRITABLE, contains_union_bit _ _ (by decide), Bool.or_eq_true]
      exact .inr (by decide)
    · refine ⟨_, _, (hother page ?_).trans (if_neg hpage), by decide⟩
      rintro x hx rfl
      exact hpage (List.mem_map_of_mem hx)) mem₀
  obtain ⟨m₂, hprotect⟩ := protectPages_returns hl hserves (m := m₁) fun x hx => by
    obtain ⟨-, frame, hentry⟩ := hmapped x hx
    exact ⟨frame, _, hentry⟩
  refine ⟨keys, m₂, a₁, mem₁, ?_, load_of_passes hparse hsegments hentry htext hoffset hfile hpages
    hmap hcopy₁ hprotect⟩
  intro page
  rw [← getElem?_pagesToMap_isSome hpages page, List.mem_map]
  constructor
  · rintro ⟨x, hx, rfl⟩
    exact ⟨x.2, hx⟩
  · rintro ⟨flags, hx⟩
    exact ⟨_, hx, rfl⟩

/-- And no two pages share a frame afterwards. -/
theorem load_spread_apart {pages : List Page} {m₁ : PageTable × List PhysFrame}
    {a₁ : BootInfoFrameAllocator} {mem₀ mem₁ : PhysMemory}
    (hpages : ∀ page, page ∈ pages ↔ InImage o file page)
    (hload : (load (drawingMapper o 0) (allocateFrame o) parse o bytes (spreadTable pages, [])
      (.init wideMap) mem₀ : Outcome Empty _) = .ok (file, m₁, a₁, mem₁))
    {p q : Page} {frame : PhysFrame} {flags flags' : PageTableFlags}
    (hp : m₁.1 p = .mapped frame flags) (hq : m₁.1 q = .mapped frame flags') : p = q := by
  have hl := drawingMapper_lawful o 0
  have hd := drawingMapper_draws o 0
  -- a page of the image has a frame of the region, another one its own above it
  have himage : ∀ {r : Page} {flags : PageTableFlags}, m₁.1 r = .mapped frame flags →
      InImage o file r → frame.number < 2 ^ 36 := fun hr hin =>
    number_lt_of_wideMap (load_free hl hd disjointRegions_wideMap hload hin hr).usable
  have hother : ∀ {r : Page} {flags : PageTableFlags}, m₁.1 r = .mapped frame flags →
      ¬ InImage o file r → frame.number = 2 ^ 36 + r.number := by
    intro r flags hr hin
    obtain ⟨_, -, -, hkept⟩ := load_copy hl hload
    have hsame : m₁.1 r = spreadTable pages r := (hkept r hin).2
    rw [hsame, spreadTable, if_neg (mt (hpages r).mp hin)] at hr
    exact congrArg PhysFrame.number (TranslateResult.mapped.inj hr).1.symm
  by_cases hpi : InImage o file p
  · by_cases hqi : InImage o file q
    · exact load_apart hl hd disjointRegions_wideMap hload hpi hqi hp hq
    · have hlt := himage hp hpi
      have heq := hother hq hqi
      omega
  · by_cases hqi : InImage o file q
    · have hlt := himage hq hqi
      have heq := hother hp hpi
      omega
    · have heq := hother hp hpi
      have heq' := hother hq hqi
      exact Page.ext (by omega)

/-! ### What is left in the frames -/

/-- **The rest of a segment is not touched**, if no two pages share a frame. -/
theorem load_rest (hl : mapper.Lawful) (hparse : parse bytes = some elf) (hapart : elf.Apart)
    (hload : (load mapper (allocateFrame o) parse o bytes m a mem : Outcome Empty _)
      = .ok (file, m', a', mem'))
    (hframes : ∀ p q frame flags flags', mapper.table m' p = .mapped frame flags →
      mapper.table m' q = .mapped frame flags' → p = q)
    {h : ProgramHeader64} (hh : h ∈ elf.loadHeaders) {i : ℕ} (hi : h.pFilesz.toNat ≤ i)
    (hi' : i < h.pMemsz.toNat) {frame : PhysFrame} {k : ℕ}
    (hback : (mapper.table m').Backs ((elf.start h + i) % 2 ^ 64) frame k) :
    mem' frame k = mem frame k := by
  obtain ⟨m₁, hstores, hcopyable, hbacks⟩ := load_stores hl hload
  refine PageTable.storeBytes_other hstores ?_
  intro w hw hback'
  obtain ⟨v, hv, ⟨flags, hvf⟩, rfl⟩ := hback
  obtain ⟨v', hv', ⟨flags', hvf'⟩, hoffset⟩ := (hbacks _ _ _).mp hback'
  -- the store would be to the same address
  obtain rfl : v = v' := Page.containingAddress_inj (hframes _ _ _ _ _ hvf hvf') (by omega)
  -- but it is one of the contents of its segment
  obtain ⟨s, hs, hws⟩ := List.mem_flatMap.mp hw
  obtain ⟨hty, j, hj, haddr, -⟩ := mem_segmentWrites.mp hws
  obtain ⟨t, ht, htkept, text, hrel, hstart, -⟩ := load_header_of_mem hparse hload hs
  rw [hrel.fileLen_eq (hcopyable s hs hty)] at hj
  have ht : t ∈ elf.loadHeaders :=
    ElfHeaders.mem_loadHeaders.mpr ⟨ht, htkept, hrel.ty.trans (congrArg some hty)⟩
  have hsize := hapart.size t ht
  obtain ⟨rfl, rfl⟩ := hapart.unique hh ht hi' (show j < _ by omega)
    (by rw [← hv, hv', haddr, hstart])
  omega

/-- On every machine the file may be loaded on, the bytes of the `Load` segments
that are not in the file read as zero. -/
def ElfHeaders.Zeroed (elf : ElfHeaders) (o : Overflow) (parse : List UInt8 → Option ElfHeaders)
    (bytes : List UInt8) : Prop :=
  ∀ (M : Type) (mapper : Mapper M BootInfoFrameAllocator) (tables : M → List PhysFrame),
    mapper.Lawful → mapper.Draws o tables → ∀ m a mem file m' a' mem',
    DisjointRegions a.memoryMap →
    (load mapper (allocateFrame o) parse o bytes m a mem : Outcome Empty _)
      = .ok (file, m', a', mem') →
    ∀ h ∈ elf.loadHeaders, ∀ i, h.pFilesz.toNat ≤ i → i < h.pMemsz.toNat →
      ((mapper.table m').loadByte mem' ((elf.start h + i) % 2 ^ 64) : Outcome Empty _) = .ok 0

/-- **Zero-initialised data.**  A file that can be loaded, with `Load` segments
that do not meet and have no more bytes in the file than in memory, has its rest
zeroed on every machine iff there is none: every `Load` segment is all in the
file. -/
theorem load_zeroed_iff (hparse : parse bytes = some elf) (hapart : elf.Apart)
    (hload : (load mapper (allocateFrame o) parse o bytes m a mem : Outcome Empty _)
      = .ok (file, m', a', mem')) :
    elf.Zeroed o parse bytes ↔ ∀ h ∈ elf.loadHeaders, h.pFilesz = h.pMemsz := by
  constructor
  · intro hzeroed h hh
    by_contra hne
    have hlt : h.pFilesz.toNat < h.pMemsz.toNat :=
      Nat.lt_of_le_of_ne (hapart.size h hh) fun heq => hne (UInt64.toNat_inj.mp heq)
    -- the machine whose frames hold no zero
    obtain ⟨pages, m₁, a₁, mem₁, hpages, hload₁⟩ := load_spread (fun _ _ => 0xff) hload
    have hzero := hzeroed _ _ _ (drawingMapper_lawful o 0) (drawingMapper_draws o 0) _ _ _ _ _ _ _
      disjointRegions_wideMap hload₁ h hh h.pFilesz.toNat le_rfl hlt
    obtain ⟨frame, hback, hbyte⟩ := PageTable.backs_of_loadByte hzero
    rw [load_rest (drawingMapper_lawful o 0) hparse hapart hload₁
      (fun _ _ _ _ _ => load_spread_apart hpages hload₁) hh le_rfl hlt hback] at hbyte
    cases hbyte
  · intro hfull M mapper tables _ _ m a mem file m' a' mem' _ _ h hh i hi hi'
    rw [hfull h hh] at hi
    omega

end

/-- The rest of the text reads as what was in the frame. -/
theorem load_keeps_stale_bytes : ∃ m a mem,
    loadInto sharedPageElf [0xeb, 0xfe, 0x2a] (fun _ => .notMapped) (fun _ _ => 0xff)
      = .ok (sharedPageFile, m, a, mem) ∧
    ∃ h ∈ sharedPageElf.loadHeaders, h.pFilesz.toNat ≤ 2 ∧ 2 < h.pMemsz.toNat ∧
      (m.loadByte mem ((sharedPageElf.start h + 2) % 2 ^ 64) : Outcome Empty _) = .ok 0xff := by
  obtain ⟨file, m, a, mem, hload, hview⟩ :=
    exists_of_view
      (x := loadInto sharedPageElf [0xeb, 0xfe, 0x2a] (fun _ => .notMapped) (fun _ _ => 0xff))
      (b := (sharedPageFile, .ok 0xff))
      (fun file m mem => (file, (m.loadByte mem 0x660002 : Outcome Empty _))) (by decide +kernel)
  obtain ⟨rfl, hbyte⟩ := Prod.mk.inj hview
  exact ⟨m, a, mem, hload, ⟨1, PF_R ||| PF_X, 0, 0x1000, 2, 0x10, 0x1000⟩, by decide, by decide,
    by decide, hbyte⟩

/-- A text of two bytes, both in the file. -/
def wholeElf : ElfHeaders where
  eEntry := 0x1000
  programHeaders := [⟨1, PF_R ||| PF_X, 0, 0x1000, 2, 2, 0x1000⟩]

theorem load_zeroed_iff_both :
    ¬ sharedPageElf.Zeroed .panic (fun _ => some sharedPageElf) [0xeb, 0xfe, 0x2a] ∧
      wholeElf.Zeroed .panic (fun _ => some wholeElf) [0xeb, 0xfe] := by
  have hshared : sharedPageElf.Apart := by
    refine ⟨by decide, ?_⟩
    have hheaders : sharedPageElf.loadHeaders = sharedPageElf.programHeaders := by decide
    rw [hheaders, sharedPageElf, List.pairwise_pair]
    decide
  have hwhole : wholeElf.Apart := ⟨by decide, List.pairwise_singleton _ _⟩
  obtain ⟨m, a, mem, hload, -⟩ := loadSharedPage_eq_ok
  obtain ⟨file, m', a', mem', hload', -⟩ :=
    exists_of_view (x := loadInto wholeElf [0xeb, 0xfe] (fun _ => .notMapped) fun _ _ => 0)
      (b := ()) (fun _ _ _ => ()) (by decide +kernel)
  refine ⟨fun hzeroed => ?_, (load_zeroed_iff rfl hwhole hload').mpr (by decide)⟩
  exact absurd ((load_zeroed_iff rfl hshared hload).mp hzeroed) (by decide)

end Elf
