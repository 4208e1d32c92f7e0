/-
A load that returns.

The other modules on `elf::load` say what a load that returned has done.  Here
is when it returns, in terms of the file alone (`Loadable`): an executable
segment is there, every address is one of the lower half and is moved to one,
and the contents are in the file and in their segments, none of which starts at
address 0.  The pages the file
needs are a function of its headers, too (`imagePages`); they have to be
unmapped, with frames for them in the allocator.

The passes are followed one by one.  Each has a lemma that says that it returns
and what the next one needs of its result.

* `readAndMoved` — the headers are read and every segment is moved;
* `pagesToMap_returns`, `mapPages_returns`, `copySegments_returns`,
  `protectPages_returns` — the four passes;
* `load_returns` — the load.
-/
import ZuluOs.ElfContents
import ZuluOs.FrameSupply

namespace Elf

open PageTableFlags BootInfoFrameAllocator

/-! ### The files that can be loaded -/

/-- The address is one of the lower half, and so is where it is moved to, and
`len` bytes further. -/
def MovesLow (text : ProgramHeader64) (addr len : ℕ) : Prop :=
  addr < 2 ^ 47 ∧ 0 ≤ addr + displacement text ∧ addr + displacement text + len < 2 ^ 47

instance (text : ProgramHeader64) (addr len : ℕ) : Decidable (MovesLow text addr len) :=
  inferInstanceAs (Decidable (_ ∧ _))

/-- What a load needs of one header. -/
structure ProgramHeader64.Fits (h text : ProgramHeader64) (bytes : List UInt8) : Prop where
  moves : MovesLow text h.pVaddr.toNat h.pMemsz.toNat
  range_lt : h.pOffset.toNat + h.pFilesz.toNat < 2 ^ 64
  -- only the contents of a `Load` segment are copied
  contents : ElfSegmentType.tryFrom h.pType = some .load →
    h.pOffset.toNat + h.pFilesz.toNat ≤ bytes.length ∧ h.pFilesz.toNat ≤ h.pMemsz.toNat ∧
      h.pVaddr.toNat + displacement text ≠ 0

/-- What a load needs of a file. -/
structure Loadable (elf : ElfHeaders) (bytes : List UInt8) (text : ProgramHeader64) : Prop where
  text_eq : textHeader elf = some text
  entry : MovesLow text elf.eEntry.toNat 0
  headers : ∀ h ∈ elf.programHeaders.filter (·.kept), h.Fits text bytes

/-- The pages of the segment of a header. -/
def headerPages (text h : ProgramHeader64) : List Page :=
  let start := (h.pVaddr.toNat + displacement text).toNat
  Page.rangeInclusive (.ofNumber (start / 4096)) (.ofNumber ((start + h.pMemsz.toNat) / 4096))

/-- The pages of the image. -/
def imagePages (text : ProgramHeader64) (elf : ElfHeaders) : List Page :=
  ((elf.programHeaders.filter (·.kept)).flatMap (headerPages text)).dedup

section

variable {o : Overflow} {elf : ElfHeaders} {bytes : List UInt8} {text h : ProgramHeader64}
  {s : ElfSegment} {segments : List ElfSegment} {file : ElfFile}

/-! ### Reading and moving -/

theorem parseSegment_returns (hfits : h.kept = true → h.Fits text bytes) :
    ∃ parsed, (parseSegment o h : Outcome Empty _) = .ok parsed := by
  unfold ProgramHeader64.kept at hfits
  unfold parseSegment
  cases hty : ElfSegmentType.tryFrom h.pType with
  | none => exact ⟨none, rfl⟩
  | some parsedTy =>
    dsimp only
    by_cases hnull : parsedTy = .null
    · exact ⟨none, if_pos hnull⟩
    by_cases hmem : h.pMemsz = 0
    · exact ⟨none, by rw [if_neg hnull, if_pos hmem]⟩
    have hfits := hfits (by simp [hty, hnull, hmem])
    rw [if_neg hnull, if_neg hmem, VirtAddr.new_of_canonical (.inl hfits.moves.1), Outcome.ok_bind,
      o.addU64_of_lt hfits.range_lt, Outcome.ok_bind]
    exact ⟨_, rfl⟩

theorem parseSegments_returns {headers : List ProgramHeader64}
    (hfits : ∀ h ∈ headers.filter (·.kept), h.Fits text bytes) :
    ∃ segments, (parseSegments o headers : Outcome Empty _) = .ok segments := by
  induction headers with
  | nil => exact ⟨[], rfl⟩
  | cons h headers ih =>
    obtain ⟨parsed, hparsed⟩ := parseSegment_returns (o := o) (h := h)
      fun hkept => hfits h (List.mem_filter.mpr ⟨List.mem_cons_self, hkept⟩)
    obtain ⟨segments, hrest⟩ := ih fun h' hh' => hfits h'
      (List.mem_filter.mpr ⟨List.mem_cons_of_mem h (List.mem_filter.mp hh').1,
        (List.mem_filter.mp hh').2⟩)
    exact ⟨parsed.toList ++ segments, by
      rw [parseSegments, hparsed, Outcome.ok_bind, hrest, Outcome.ok_bind]⟩

theorem MovesLow.signExtend {addr len : ℕ} (h : MovesLow text addr len) :
    VirtAddr.signExtend addr = addr :=
  VirtAddr.signExtend_of_canonical (.inl h.1)

theorem offsetToApply_eq {addr : ℕ} (haddr : addr < 2 ^ 47) :
    (offsetToApply o addr : Outcome Empty ℤ) = .ok (LOAD_TEXT_SECTION_AT - addr) := by
  have hwrap : Overflow.wrapI64 LOAD_TEXT_SECTION_AT - Overflow.wrapI64 addr
      = LOAD_TEXT_SECTION_AT - addr := by
    unfold Overflow.wrapI64 LOAD_TEXT_SECTION_AT
    omega
  rw [offsetToApply, hwrap, Overflow.ofI64, if_pos]
  unfold LOAD_TEXT_SECTION_AT
  omega

theorem relocate_returns (src : VirtAddr) {len : ℕ} (hmoves : MovesLow text src.addr len) :
    ∃ dst, (relocate o (displacement text) src : Outcome Empty _) = .ok dst ∧
      (dst.addr : ℤ) = src.addr + displacement text := by
  obtain ⟨hlow, hnonneg, hlt⟩ := hmoves
  have hwrap : Overflow.wrapI64 src.addr + displacement text = src.addr + displacement text := by
    unfold Overflow.wrapI64
    omega
  have hcanon : Canonical ((src.addr + displacement text) % 2 ^ 64).toNat := by
    refine .inl ?_
    omega
  refine ⟨⟨_, hcanon⟩, ?_, ?_⟩
  · rw [relocate, hwrap, Overflow.ofI64, if_pos (by omega), Outcome.ok_bind,
      VirtAddr.new_of_canonical hcanon]
  · dsimp only
    omega

/-- **The headers are read and moved.** -/
theorem readAndMoved (hloadable : Loadable elf bytes text) :
    ∃ segments entryPoint file,
      (parseSegments o elf.programHeaders : Outcome Empty _) = .ok segments ∧
      (VirtAddr.new elf.eEntry.toNat : Outcome Empty _) = .ok entryPoint ∧
      defaultTextAddr segments = some text.pVaddr.toNat ∧
      (offsetToApply o text.pVaddr.toNat : Outcome Empty _) = .ok (displacement text) ∧
      (ElfFile.remap (relocate o (displacement text)) ⟨segments, entryPoint⟩ : Outcome Empty _)
        = .ok file ∧
      List.Forall₂ (Relocated o text) (elf.programHeaders.filter (·.kept)) file.segments ∧
      (file.entryPoint.addr : ℤ) = elf.eEntry.toNat + displacement text := by
  obtain ⟨segments, hsegments⟩ := parseSegments_returns (o := o) hloadable.headers
  have hparsed := parseSegments_eq_ok hsegments
  -- the text header is one of those kept, so its address is not changed by `VirtAddr::new`
  have htext := (hloadable.headers text
    (List.mem_filter.mp (List.mem_of_getLast? hloadable.text_eq)).1).moves
  have haddr : defaultTextAddr segments = some text.pVaddr.toNat := by
    rw [defaultTextAddr_eq hparsed]
    refine Option.map_eq_some_iff.mpr ⟨text, hloadable.text_eq, htext.signExtend⟩
  have hoffset : (offsetToApply o text.pVaddr.toNat : Outcome Empty _) = .ok (displacement text) := by
    rw [offsetToApply_eq htext.1, displacement, htext.signExtend]
  have hentry := VirtAddr.new_of_canonical (ε := Empty) (.inl hloadable.entry.1)
  obtain ⟨entry, hmoved, haddr'⟩ := relocate_returns (o := o) ⟨_, .inl hloadable.entry.1⟩
    hloadable.entry
  obtain ⟨moved, hmap⟩ : ∃ moved, Outcome.mapEach (ElfSegment.remap (relocate o (displacement text)))
      segments = (.ok moved : Outcome Empty _) := by
    refine Outcome.mapEach_total fun s hs => ?_
    obtain ⟨h, hh, hs⟩ := forall₂_mem_right hparsed hs
    obtain ⟨-, -, -, -, -, -, hstart, -⟩ := parseSegment_eq_some.mp hs
    have hmoves := (hloadable.headers h hh).moves
    have hstart : s.addr.start.addr = h.pVaddr.toNat :=
      (VirtAddr.new_eq_ok.mp hstart).trans hmoves.signExtend
    obtain ⟨start, hmoved, -⟩ := relocate_returns (o := o) s.addr.start (hstart ▸ hmoves)
    rw [ElfSegment.remap, hmoved, Outcome.ok_bind]
    exact ⟨_, rfl⟩
  have hremap : (ElfFile.remap (relocate o (displacement text))
      ⟨segments, ⟨_, .inl hloadable.entry.1⟩⟩ : Outcome Empty _) = .ok ⟨moved, entry⟩ := by
    rw [ElfFile.remap, hmoved, Outcome.ok_bind, hmap, Outcome.ok_bind]
  refine ⟨segments, _, _, hsegments, hentry, haddr, hoffset, hremap, ?_, haddr'⟩
  exact relocated_segments hsegments (htext.signExtend.symm ▸ hoffset) hremap

/-- Where the segment of a header is. -/
theorem Relocated.placed (hs : Relocated o text h s) (hfits : h.Fits text bytes) :
    (s.addr.start.addr : ℤ) = h.pVaddr.toNat + displacement text ∧
      s.addr.start.addr + s.addr.len < 2 ^ 47 := by
  obtain ⟨hlow, hnonneg, hlt⟩ := hfits.moves
  have hstart := hs.start
  rw [hfits.moves.signExtend, Int.emod_eq_of_lt hnonneg (by omega),
    VirtAddr.signExtend_of_canonical (.inl (by omega))] at hstart
  rw [hs.len]
  omega

/-! ### The pages -/

theorem Relocated.last (hs : Relocated o text h s) (hfits : h.Fits text bytes) :
    ∃ last, (s.addr.start.add o s.addr.len : Outcome Empty _) = .ok last ∧
      last.addr = s.addr.start.addr + s.addr.len :=
  ⟨_, VirtAddr.add_of_canonical o (.inl (hs.placed hfits).2), rfl⟩

theorem mem_headerPages (hs : Relocated o text h s) (hfits : h.Fits text bytes) {page : Page} :
    page ∈ headerPages text h ↔ covers o page s = true := by
  obtain ⟨hstart, hlt⟩ := hs.placed hfits
  obtain ⟨last, hlast, haddr⟩ := hs.last hfits
  rw [headerPages, ← hstart, Int.toNat_natCast, Page.mem_rangeInclusive, covers_iff, hlast]
  simp only [Outcome.ok.injEq, exists_eq_left', Page.containingAddress, Page.ofNumber, haddr,
    hs.len] at hlt ⊢
  omega

/-- They are those of the segments. -/
theorem mem_imagePages (hheaders : ∀ h ∈ elf.programHeaders.filter (·.kept), h.Fits text bytes)
    (hsegments :
      List.Forall₂ (Relocated o text) (elf.programHeaders.filter (·.kept)) file.segments)
    {page : Page} : page ∈ imagePages text elf ↔ InImage o file page := by
  rw [imagePages, List.mem_dedup, List.mem_flatMap]
  constructor
  · rintro ⟨h, hh, hpage⟩
    obtain ⟨s, hs, hrel⟩ := forall₂_mem_left hsegments hh
    exact ⟨s, hs, (mem_headerPages hrel (hheaders h hh)).mp hpage⟩
  · rintro ⟨s, hs, hcov⟩
    obtain ⟨h, hh, hrel⟩ := forall₂_mem_right hsegments hs
    exact ⟨h, hh, (mem_headerPages hrel (hheaders h hh)).mpr hcov⟩

/-- The first pass returns, with the pages of the image. -/
theorem pagesToMap_returns (hheaders : ∀ h ∈ elf.programHeaders.filter (·.kept), h.Fits text bytes)
    (hsegments :
      List.Forall₂ (Relocated o text) (elf.programHeaders.filter (·.kept)) file.segments) :
    ∃ pages, (pagesToMap o file.segments : Outcome Empty _) = .ok pages ∧
      ∀ x ∈ pages.toList, x.1 ∈ imagePages text elf := by
  obtain ⟨pages, hpages⟩ : ∃ pages, (pagesToMap o file.segments : Outcome Empty _) = .ok pages := by
    refine Outcome.foldlM_total (fun s hs pages => ?_) ∅
    obtain ⟨h, hh, hs⟩ := forall₂_mem_right hsegments hs
    obtain ⟨last, hlast, -⟩ := hs.last (hheaders h hh)
    rw [VirtualMapDestination.pages, hlast, Outcome.ok_bind, Outcome.ok_bind]
    exact ⟨_, rfl⟩
  refine ⟨pages, hpages, ?_⟩
  rintro ⟨page, flags⟩ hx
  exact (mem_imagePages hheaders hsegments).mpr
    ((getElem?_pagesToMap_isSome hpages page).mp ⟨flags, hx⟩)

/-- There are no more of them than pages of the image. -/
theorem length_le_imagePages {pages : List (Page × PageTableFlags)}
    (hkeys : pages.Pairwise fun x y => x.1 ≠ y.1)
    (himage : ∀ x ∈ pages, x.1 ∈ imagePages text elf) :
    pages.length ≤ (imagePages text elf).length := by
  have hnodup : (pages.map Prod.fst).Nodup := List.pairwise_map.mpr hkeys
  have hsubset : pages.map Prod.fst ⊆ imagePages text elf := by
    intro page hpage
    obtain ⟨x, hx, rfl⟩ := List.mem_map.mp hpage
    exact himage x hx
  simpa using (hnodup.subperm hsubset).length_le

end

/-! ### The passes over the page table -/

section

variable {M : Type} {mapper : Mapper M BootInfoFrameAllocator} {memoryMap : List MemoryRegion}
  {k : ℕ} {o : Overflow} {elf : ElfHeaders} {bytes : List UInt8} {text : ProgramHeader64}
  {parse : List UInt8 → Option ElfHeaders} {m m' : M} {a a' : BootInfoFrameAllocator}
  {mem : PhysMemory} {file : ElfFile} {pages : List (Page × PageTableFlags)}

/-- The mapping loop returns. -/
theorem mapPages_returns (hl : mapper.Lawful) (hserves : mapper.Serves memoryMap k)
    (hdisj : DisjointRegions memoryMap) (hkeys : pages.Pairwise fun x y => x.1 ≠ y.1)
    (hfree : ∀ x ∈ pages, mapper.table m x.1 = .notMapped)
    (hsupply : Supply memoryMap (pages.length * (k + 1)) a) :
    ∃ m' a', (mapPages mapper (allocateFrame o) pages (m, a) : Outcome Empty _) = .ok (m', a') := by
  have hbody : ∀ {m a} {x : Page × PageTableFlags} {n}, mapper.table m x.1 = .notMapped →
      Supply memoryMap (k + 1 + n) a → ∃ m' a',
        (mapPage mapper (allocateFrame o) (m, a) x : Outcome Empty _) = .ok (m', a') ∧
          (∀ p ≠ x.1, mapper.table m' p = mapper.table m p) ∧ Supply memoryMap n a' := by
    intro m a x n hunmapped hsupply
    obtain ⟨frame, a₁, m', a', halloc, hmap, hsame, hleft⟩ :=
      hserves.mapsFresh (ε := Empty) (o := o) hl hdisj hunmapped hsupply (x.2 ∪ WRITABLE)
    refine ⟨m', a', ?_, hsame, hleft⟩
    simp only [mapPage, halloc, Outcome.ok_bind, Outcome.unwrap, hmap, Outcome.unwrapResult]
  obtain ⟨m', a', hrun, -⟩ := mapLoop_returns Prod.fst (n := 0) hbody hkeys hfree hsupply
  exact ⟨m', a', hrun⟩

/-- The copy loop returns: its stores are made to pages of the image, which
are all writable at that time. -/
theorem copySegments_returns (pt : PageTable) (mem : PhysMemory)
    (hheaders : ∀ h ∈ elf.programHeaders.filter (·.kept), h.Fits text bytes)
    (hsegments :
      List.Forall₂ (Relocated o text) (elf.programHeaders.filter (·.kept)) file.segments)
    (hwritable : ∀ page, InImage o file page →
      ∃ frame flags, pt page = .mapped frame flags ∧ flags.contains WRITABLE = true) :
    ∃ mem', (copySegments o bytes pt file.segments mem : Outcome Empty _) = .ok mem' := by
  have hcopyable : ∀ s ∈ file.segments, s.ty = .load →
      s.Copyable o bytes ∧ s.fileLen ≤ s.addr.len := by
    intro s hs hty
    obtain ⟨h, hh, hs'⟩ := forall₂_mem_right hsegments hs
    have hfits := hheaders h hh
    obtain ⟨hin, hsize, hnull⟩ := hfits.contents (hs'.ty.trans (congrArg some hty))
    have hplaced := (hs'.placed hfits).1
    have hend := hs'.fileEnd
    rw [o.addU64_of_lt hfits.range_lt, Outcome.ok.injEq] at hend
    have hstart := hs'.fileStart
    have hlen := hs'.len
    rw [ElfSegment.fileLen]
    exact ⟨⟨by omega, by omega, fun h => by omega⟩, by omega⟩
  obtain ⟨mem', hstores⟩ : ∃ mem', (pt.storeBytes (copyWrites bytes file.segments) mem :
      Outcome Empty _) = .ok mem' := by
    refine Outcome.foldlM_total (fun w hw mem => ?_) mem
    obtain ⟨s, hs, hw⟩ := List.mem_flatMap.mp hw
    obtain ⟨hty, i, hi, haddr, -⟩ := mem_segmentWrites.mp hw
    obtain ⟨h, hh, hs'⟩ := forall₂_mem_right hsegments hs
    obtain ⟨last, hlast, -⟩ := hs'.last (hheaders h hh)
    have hlt := (hs'.placed (hheaders h hh)).2
    have hsize := (hcopyable s hs hty).2
    rw [Nat.mod_eq_of_lt (by omega)] at haddr
    have hcanon : Canonical (s.addr.start.addr + i) := .inl (by omega)
    obtain ⟨frame, flags, hmapped, hw⟩ := hwritable (.containingAddress ⟨_, hcanon⟩)
      ⟨s, hs, covers_of_le hlast (by omega) (Nat.le_add_right _ _) (show _ + i ≤ _ by omega)⟩
    rw [haddr, PageTable.storeByte, dif_pos hcanon, PageTable.translate, hmapped]
    exact ⟨_, if_pos hw⟩
  exact ⟨mem', copySegments_eq_ok.mpr ⟨fun s hs hty => (hcopyable s hs hty).1, hstores⟩⟩

/-- The last loop returns: it changes pages that are mapped. -/
theorem protectPages_returns (hl : mapper.Lawful) (hserves : mapper.Serves memoryMap k)
    (hmapped : ∀ x ∈ pages, ∃ frame flags, mapper.table m x.1 = .mapped frame flags) :
    ∃ m', (protectPages mapper pages m : Outcome Empty _) = .ok m' := by
  let I (pages : List (Page × PageTableFlags)) (m : M) : Prop :=
    ∀ x ∈ pages, ∃ frame flags, mapper.table m x.1 = .mapped frame flags
  have hstep : ∀ x pages m, I (x :: pages) m →
      ∃ m', (protectPage mapper m x : Outcome Empty _) = .ok m' ∧ I pages m' := by
    intro x pages m hI
    obtain ⟨⟨frame, old, hfirst⟩, hrest⟩ := List.forall_mem_cons.mp hI
    unfold protectPage
    split
    · obtain ⟨m', hrun⟩ := hserves.updateFlags hfirst x.2
      refine ⟨m', by rw [hrun, Outcome.unwrapResult], ?_⟩
      intro y hy
      obtain ⟨frame', old', -, hnew⟩ := hl.updateFlags_ok hrun
      rw [hnew]
      by_cases hxy : y.1 = x.1
      · exact ⟨frame', x.2, by rw [hxy, Function.update_self]⟩
      · rw [Function.update_of_ne hxy]
        exact hrest y hy
    · exact ⟨m, rfl, hrest⟩
  obtain ⟨m', hrun, -⟩ := Outcome.foldlM_exists I hstep hmapped
  exact ⟨m', hrun⟩

/-- **A load returns**, with the entry point moved as the text is, if the file
is loadable, the pages of its image are not mapped yet, and the allocator has a
frame for each of them and for the page tables they need. -/
theorem load_returns (mem : PhysMemory) (hl : mapper.Lawful) (hserves : mapper.Serves memoryMap k)
    (hdisj : DisjointRegions memoryMap) (hparse : parse bytes = some elf)
    (hloadable : Loadable elf bytes text)
    (hfree : ∀ page ∈ imagePages text elf, mapper.table m page = .notMapped)
    (hsupply : Supply memoryMap ((imagePages text elf).length * (k + 1)) a) :
    ∃ file m' a' mem', (load mapper (allocateFrame o) parse o bytes m a mem : Outcome Empty _)
      = .ok (file, m', a', mem') ∧
        (file.entryPoint.addr : ℤ) = elf.eEntry.toNat + displacement text := by
  obtain ⟨segments, entryPoint, file, hsegments, hentry, htext, hoffset, hremap, hrel, haddr⟩ :=
    readAndMoved (o := o) hloadable
  obtain ⟨pages, hpages, himage⟩ := pagesToMap_returns hloadable.headers hrel
  have hkeys := pairwise_toList pages
  obtain ⟨m₁, a₁, hmap⟩ := mapPages_returns (o := o) hl hserves hdisj hkeys
    (fun x hx => hfree _ (himage x hx))
    (hsupply.mono (Nat.mul_le_mul_right _ (length_le_imagePages hkeys himage)))
  have htable := (mapPages_table hl hkeys hmap).2
  obtain ⟨mem', hcopy⟩ := copySegments_returns (mapper.table m₁) mem hloadable.headers hrel (by
    intro page hpage
    obtain ⟨flags, hx⟩ := (getElem?_pagesToMap_isSome hpages page).mpr hpage
    obtain ⟨-, frame, hmapped⟩ := htable _ hx
    refine ⟨frame, _, hmapped, ?_⟩
    rw [WRITABLE, contains_union_bit _ _ (by decide), Bool.or_eq_true]
    exact .inr (by decide))
  obtain ⟨m', hprotect⟩ := protectPages_returns hl hserves (m := m₁) fun x hx => by
    obtain ⟨-, frame, hmapped⟩ := htable x hx
    exact ⟨frame, _, hmapped⟩
  exact ⟨file, m', a₁, mem', load_of_passes hparse hsegments hentry htext hoffset hremap hpages hmap
    hcopy hprotect, haddr⟩

end

end Elf
