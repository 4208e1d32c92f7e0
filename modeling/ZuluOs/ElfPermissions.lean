/-
The page table that `elf::load` leaves.

The merge goes through the segments once, header by header, and each page sees
only the segments that cover it: its entry is a fold of `mergeFlags` over their
flags (`getElem?_pagesToMap`).  The mapping loop and the protection loop visit
each page once.  So, page by page:

* `load_table` — a page that no kept header covers keeps its entry; one that
  some cover was unmapped and gets their merged flags;
* `load_permissions` — a page of the image is writable, and user accessible,
  iff one of its headers says so, and older mappings stay;
* `load_executable_iff` — a page is executable iff the *last* of its headers
  is, which agrees with "iff one of them is" only under a condition.
-/
import ZuluOs.ElfLoad
import ZuluOs.FrameAllocator

namespace Elf

open PageTableFlags

/-! ### Merging flags -/

/-- The entry of a page after one more segment. -/
def joinFlags : Option PageTableFlags → PageTableFlags → Option PageTableFlags
  | some current, new => some (mergeFlags current new)
  | none, new => some new

/-- The entry of a page covered by segments with these flags, in this order. -/
def mergedFlags (flags : List PageTableFlags) : Option PageTableFlags :=
  flags.foldl joinFlags none

/-- All flags but `NO_EXECUTE` accumulate. -/
theorem contains_mergeFlags (current new : PageTableFlags) {i : ℕ} (hi : i < 63) :
    (mergeFlags current new).contains (bit i)
      = (current.contains (bit i) || new.contains (bit i)) := by
  unfold mergeFlags
  dsimp only
  split
  · rw [NO_EXECUTE, contains_remove_bit _ (by omega), contains_union_bit _ _ (by omega),
      decide_eq_false (by omega), Bool.not_false, Bool.and_true]
  · exact contains_union_bit _ _ (by omega)

/-- `NO_EXECUTE` is overwritten: the test that should keep a page executable
looks at `current` after the union. -/
theorem noExecute_mergeFlags (current new : PageTableFlags) :
    (mergeFlags current new).contains NO_EXECUTE = new.contains NO_EXECUTE := by
  unfold mergeFlags NO_EXECUTE
  dsimp only
  rw [contains_union_bit _ _ (by decide)]
  cases hnew : new.contains (bit 63) with
  | false => simp [contains_remove_bit _ (show 63 < 64 by decide)]
  | true => simp [contains_union_bit _ _ (show 63 < 64 by decide), hnew]

theorem foldl_joinFlags_some (flags : List PageTableFlags) (current : PageTableFlags) :
    flags.foldl joinFlags (some current) = some (flags.foldl mergeFlags current) := by
  induction flags generalizing current with
  | nil => rfl
  | cons f flags ih => exact ih (mergeFlags current f)

theorem mergedFlags_cons (f : PageTableFlags) (flags : List PageTableFlags) :
    mergedFlags (f :: flags) = some (flags.foldl mergeFlags f) :=
  foldl_joinFlags_some flags f

/-- A merged page has the flags of every segment, `NO_EXECUTE` apart. -/
theorem contains_mergedFlags {flags : List PageTableFlags} {merged : PageTableFlags}
    (h : mergedFlags flags = some merged) {i : ℕ} (hi : i < 63) :
    merged.contains (bit i) = flags.any (·.contains (bit i)) := by
  have hfold : ∀ (flags : List PageTableFlags) (current : PageTableFlags),
      (flags.foldl mergeFlags current).contains (bit i)
        = (current.contains (bit i) || flags.any (·.contains (bit i))) := by
    intro flags
    induction flags with
    | nil => simp
    | cons f flags ih =>
      intro current
      rw [List.foldl_cons, ih, contains_mergeFlags _ _ hi, List.any_cons, Bool.or_assoc]
  cases flags with
  | nil => cases h
  | cons f flags =>
    rw [mergedFlags_cons, Option.some.injEq] at h
    rw [← h, hfold, List.any_cons]

/-- A merged page has `NO_EXECUTE` iff its last segment has. -/
theorem noExecute_mergedFlags {flags : List PageTableFlags} {merged : PageTableFlags}
    (h : mergedFlags flags = some merged) :
    ∃ last, flags.getLast? = some last ∧
      merged.contains NO_EXECUTE = last.contains NO_EXECUTE := by
  induction flags using List.reverseRecOn with
  | nil => cases h
  | append_singleton flags last ih =>
    refine ⟨last, List.getLast?_concat, ?_⟩
    rw [mergedFlags, List.foldl_append, List.foldl_cons, List.foldl_nil] at h
    cases hinit : flags.foldl joinFlags none with
    | none =>
      rw [hinit, joinFlags, Option.some.injEq] at h
      rw [h]
    | some current =>
      rw [hinit, joinFlags, Option.some.injEq] at h
      rw [← h, noExecute_mergeFlags]

/-! ### The flags of one header -/

theorem contains_parseSegmentFlags (h : ProgramHeader64) :
    ((parseSegmentFlags h).contains USER_ACCESSIBLE = true ↔ h.pFlags &&& PF_R ≠ 0) ∧
    ((parseSegmentFlags h).contains WRITABLE = true ↔ h.pFlags &&& PF_W ≠ 0) ∧
    ((parseSegmentFlags h).contains NO_EXECUTE = true ↔ h.pFlags &&& PF_X = 0) := by
  unfold parseSegmentFlags
  dsimp only
  by_cases hr : h.pFlags &&& PF_R = 0 <;> by_cases hw : h.pFlags &&& PF_W = 0 <;>
    by_cases hx : h.pFlags &&& PF_X = 0 <;>
    simp only [hr, hw, hx, ne_eq, not_true_eq_false, not_false_eq_true, if_true, if_false] <;>
    decide

/-! ### The first pass, page by page -/

/-- `segment.addr.pages()` contains the page. -/
def covers (o : Overflow) (page : Page) (s : ElfSegment) : Bool :=
  match (s.addr.pages o : Outcome Empty _) with
  | .ok range => page ∈ range
  | _ => false

theorem covers_eq {o : Overflow} {s : ElfSegment} {range : List Page}
    (h : (s.addr.pages o : Outcome Empty _) = .ok range) (page : Page) :
    covers o page s = decide (page ∈ range) := by
  rw [covers, h]

theorem pages_nodup {o : Overflow} {d : VirtualMapDestination} {range : List Page}
    (h : (d.pages o : Outcome Empty _) = .ok range) : range.Nodup := by
  simp only [VirtualMapDestination.pages, Outcome.bind_eq_ok, Outcome.ok.injEq] at h
  obtain ⟨last, -, rfl⟩ := h
  exact Page.nodup_rangeInclusive _ _

theorem getElem?_addPage (flags : PageTableFlags) (pages : PageMap) (p q : Page) :
    (addPage flags pages p)[q]? = if p = q then joinFlags pages[q]? flags else pages[q]? := by
  rw [addPage, Std.TreeMap.getElem?_alter]
  by_cases hpq : p = q
  · subst hpq
    rw [if_pos Std.ReflCmp.compare_self, if_pos rfl]
    cases pages[p]? <;> rfl
  · rw [if_neg (fun h => hpq (Std.LawfulEqCmp.eq_of_compare h)), if_neg hpq]

/-- A range of pages adds the segment's flags once to each page in it. -/
theorem getElem?_foldl_addPage (flags : PageTableFlags) {range : List Page} (hnodup : range.Nodup)
    (pages : PageMap) (q : Page) : (range.foldl (addPage flags) pages)[q]? =
      if q ∈ range then joinFlags pages[q]? flags else pages[q]? := by
  induction range generalizing pages with
  | nil => rfl
  | cons p range ih =>
    obtain ⟨hp, hnodup⟩ := List.nodup_cons.mp hnodup
    rw [List.foldl_cons, ih hnodup, getElem?_addPage]
    by_cases hpq : p = q
    · subst hpq
      rw [if_neg hp, if_pos rfl, if_pos List.mem_cons_self]
    · rw [if_neg hpq]
      simp only [List.mem_cons, Ne.symm hpq, false_or]

/-- **The merged entry of a page** is a fold over the segments that cover it. -/
theorem getElem?_pagesToMap {o : Overflow} {segments : List ElfSegment} {pages : PageMap}
    (h : (pagesToMap o segments : Outcome Empty _) = .ok pages) (page : Page) :
    pages[page]? = mergedFlags ((segments.filter (covers o page)).map (·.flags)) := by
  have hfold : ∀ (segments : List ElfSegment) (pages₀ pages : PageMap),
      (segments.foldlM (fun pages s => do
        let range ← s.addr.pages o
        .ok (range.foldl (addPage s.flags) pages)) pages₀ : Outcome Empty PageMap) = .ok pages →
      pages[page]? = ((segments.filter (covers o page)).map (·.flags)).foldl joinFlags
        pages₀[page]? := by
    intro segments
    induction segments with
    | nil =>
      intro pages₀ pages h
      obtain rfl := Outcome.ok.inj h
      rfl
    | cons s segments ih =>
      intro pages₀ pages h
      simp only [List.foldlM_cons, Outcome.bind_eq_ok, Outcome.ok.injEq] at h
      obtain ⟨_, ⟨range, hrange, rfl⟩, hrest⟩ := h
      rw [ih _ _ hrest, getElem?_foldl_addPage _ (pages_nodup hrange), List.filter_cons,
        covers_eq hrange]
      by_cases hmem : page ∈ range
      · simp only [hmem, if_true, decide_true, List.map_cons, List.foldl_cons]
      · simp only [hmem, if_false, decide_false, Bool.false_eq_true]
  rw [hfold segments ∅ pages h, Std.TreeMap.getElem?_emptyc, mergedFlags]

/-! ### The whole load, page by page -/

/-- The kept headers whose segments cover the page, in the order of the file. -/
def coveringHeaders (o : Overflow) (elf : ElfHeaders) (file : ElfFile) (page : Page) :
    List ProgramHeader64 :=
  (((elf.programHeaders.filter (·.kept)).zip file.segments).filter
    fun hs => covers o page hs.2).map Prod.fst

theorem map_flags_covering {headers : List ProgramHeader64} {segments : List ElfSegment}
    (h : List.Forall₂ (fun h s => s.flags = parseSegmentFlags h) headers segments)
    (p : ElfSegment → Bool) :
    (((headers.zip segments).filter fun hs => p hs.2).map Prod.fst).map parseSegmentFlags
      = (segments.filter p).map (·.flags) := by
  induction h with
  | nil => rfl
  | @cons header s _ _ hflags _ ih =>
    rw [List.zip_cons_cons, List.filter_cons, List.filter_cons]
    cases p s with
    | false => simpa using ih
    | true => simpa [hflags] using ih

section

variable {M A : Type} {mapper : Mapper M A}
  {allocateFrame : A → Outcome Empty (Option PhysFrame × A)}
  {parse : List UInt8 → Option ElfHeaders}

/-- The mapping loop adds each page, writable. -/
theorem mapPages_table (hl : mapper.Lawful) {pages : List (Page × PageTableFlags)}
    (hkeys : pages.Pairwise fun x y => x.1 ≠ y.1) {m m' : M} {a a' : A}
    (h : mapPages mapper allocateFrame pages (m, a) = .ok (m', a')) :
    (∀ page, (∀ x ∈ pages, page ≠ x.1) → mapper.table m' page = mapper.table m page) ∧
    ∀ x ∈ pages, mapper.table m x.1 = .notMapped ∧
      ∃ frame, mapper.table m' x.1 = .mapped frame (x.2 ∪ WRITABLE) := by
  refine Outcome.foldlM_pointwise (fun st => mapper.table st.1) Prod.fst
    (fun x old new => old = .notMapped ∧ ∃ frame, new = .mapped frame (x.2 ∪ WRITABLE))
    (fun x _ st st' hstep => ?_) hkeys h
  simp only [mapPage, Outcome.bind_eq_ok, Outcome.unwrap_eq_ok,
    Outcome.unwrapResult_eq_ok] at hstep
  obtain ⟨⟨_, a₁⟩, -, frame, -, hmap⟩ := hstep
  obtain ⟨hold, hnew⟩ := hl.mapTo_ok hmap
  refine ⟨fun k hk => ?_, hold, frame, ?_⟩
  · rw [hnew, Function.update_of_ne hk]
  · rw [hnew, Function.update_self]

/-- The last loop gives each page that is not to be writable its own flags. -/
theorem protectPages_table (hl : mapper.Lawful) {pages : List (Page × PageTableFlags)}
    (hkeys : pages.Pairwise fun x y => x.1 ≠ y.1) {m m' : M}
    (h : (protectPages mapper pages m : Outcome Empty _) = .ok m') :
    (∀ page, (∀ x ∈ pages, page ≠ x.1) → mapper.table m' page = mapper.table m page) ∧
    ∀ x ∈ pages, if x.2.contains WRITABLE then mapper.table m' x.1 = mapper.table m x.1
      else ∃ frame old, mapper.table m x.1 = .mapped frame old ∧
        mapper.table m' x.1 = .mapped frame x.2 := by
  refine Outcome.foldlM_pointwise mapper.table Prod.fst
    (fun x old new => if x.2.contains WRITABLE then new = old
      else ∃ frame flags, old = .mapped frame flags ∧ new = .mapped frame x.2)
    (fun x _ m m' hstep => ?_) hkeys h
  cases hw : x.2.contains WRITABLE with
  | true =>
    rw [protectPage, hw, if_neg (by decide), Outcome.ok.injEq] at hstep
    subst hstep
    exact ⟨fun _ _ => rfl, rfl⟩
  | false =>
    rw [protectPage, hw, if_pos (by decide), Outcome.unwrapResult_eq_ok] at hstep
    obtain ⟨frame, old, hold, hnew⟩ := hl.updateFlags_ok hstep
    refine ⟨fun k hk => ?_, frame, old, hold, ?_⟩
    · rw [hnew, Function.update_of_ne hk]
    · rw [hnew, Function.update_self]

/-- A page is mapped as writable, and then left so or given its own flags. -/
theorem mapped_protected (hl : mapper.Lawful) {pages : List (Page × PageTableFlags)}
    (hkeys : pages.Pairwise fun x y => x.1 ≠ y.1) {m m₁ m' : M} {a a' : A}
    (hmap : mapPages mapper allocateFrame pages (m, a) = .ok (m₁, a'))
    (hprotect : (protectPages mapper pages m₁ : Outcome Empty _) = .ok m') {page : Page}
    {flags : PageTableFlags} (hmem : (page, flags) ∈ pages) :
    mapper.table m page = .notMapped ∧ ∃ frame,
      mapper.table m₁ page = .mapped frame (flags ∪ WRITABLE) ∧
      mapper.table m' page = .mapped frame flags := by
  obtain ⟨hold, frame, hmapped⟩ := (mapPages_table hl hkeys hmap).2 _ hmem
  have hfinal := (protectPages_table hl hkeys hprotect).2 _ hmem
  dsimp only at hold hmapped hfinal
  refine ⟨hold, frame, hmapped, ?_⟩
  split at hfinal
  · rw [hfinal, hmapped, union_eq_left ‹_›]
  · obtain ⟨frame', old, hbefore, hafter⟩ := hfinal
    rw [hmapped, TranslateResult.mapped.injEq] at hbefore
    rw [hafter, hbefore.1]

/-- Neither loop has a turn for any other page. -/
theorem not_mapped_protected (hl : mapper.Lawful) {pages : List (Page × PageTableFlags)}
    (hkeys : pages.Pairwise fun x y => x.1 ≠ y.1) {m m₁ m' : M} {a a' : A}
    (hmap : mapPages mapper allocateFrame pages (m, a) = .ok (m₁, a'))
    (hprotect : (protectPages mapper pages m₁ : Outcome Empty _) = .ok m') {page : Page}
    (hpage : ∀ flags, (page, flags) ∉ pages) :
    mapper.table m₁ page = mapper.table m page ∧ mapper.table m' page = mapper.table m page := by
  have hnot : ∀ x ∈ pages, page ≠ x.1 := by
    rintro ⟨p, flags⟩ hx rfl
    exact hpage flags hx
  have hsame := (mapPages_table hl hkeys hmap).1 page hnot
  exact ⟨hsame, ((protectPages_table hl hkeys hprotect).1 page hnot).trans hsame⟩

theorem pairwise_toList (pages : PageMap) : pages.toList.Pairwise fun x y => x.1 ≠ y.1 :=
  pages.distinct_keys_toList.imp fun hxy h => hxy (by rw [h]; exact Std.ReflCmp.compare_self)

/-- **The table after a load.**  A page that no kept header covers keeps its
entry; one that some cover was unmapped, and gets their merged flags. -/
theorem load_table (hl : mapper.Lawful) {o : Overflow} {bytes : List UInt8} {m m' : M} {a a' : A}
    {mem mem' : PhysMemory} {file : ElfFile} {elf : ElfHeaders} (hparse : parse bytes = some elf)
    (hload : load mapper allocateFrame parse o bytes m a mem = .ok (file, m', a', mem'))
    (page : Page) :
    (coveringHeaders o elf file page = [] ∧ mapper.table m' page = mapper.table m page) ∨
    ∃ flags frame,
      mergedFlags ((coveringHeaders o elf file page).map parseSegmentFlags) = some flags ∧
      mapper.table m page = .notMapped ∧ mapper.table m' page = .mapped frame flags := by
  obtain ⟨elf', segments, entryPoint, textAddr, offset, pages, m₁, hparse', hsegments, -, -, -,
    hremap, hpages, hmap, -, hprotect⟩ := load_eq_ok hload
  obtain rfl := Option.some.inj (hparse.symm.trans hparse')
  -- the entry of the merge pass, by way of the segments the headers became
  have hflags : mergedFlags ((coveringHeaders o elf file page).map parseSegmentFlags)
      = pages[page]? := by
    rw [getElem?_pagesToMap hpages, coveringHeaders, map_flags_covering]
    refine (segments_eq_ok hsegments hremap).imp fun h s ⟨s₀, hs₀, hs⟩ => ?_
    rw [remap_flags hs, (parseSegment_eq_some.mp hs₀).2.1]
  have hkeys := pairwise_toList pages
  cases hpage : pages[page]? with
  | none =>
    left
    have hnot : ∀ flags, (page, flags) ∉ pages.toList := by
      intro flags hx
      rw [Std.TreeMap.mem_toList_iff_getElem?_eq_some, hpage] at hx
      cases hx
    refine ⟨?_, (not_mapped_protected hl hkeys hmap hprotect hnot).2⟩
    rw [hpage] at hflags
    cases hcov : coveringHeaders o elf file page with
    | nil => rfl
    | cons h hs =>
      rw [hcov, List.map_cons, mergedFlags_cons] at hflags
      cases hflags
  | some flags =>
    right
    have hmem : (page, flags) ∈ pages.toList :=
      Std.TreeMap.mem_toList_iff_getElem?_eq_some.mpr hpage
    obtain ⟨hold, frame, -, hnew⟩ := mapped_protected hl hkeys hmap hprotect hmem
    exact ⟨flags, frame, by rw [hflags, hpage], hold, hnew⟩

/-- **Write and user permissions.**  A page that kept headers cover was unmapped,
and becomes writable, and user accessible, iff one of them says so; every other
page, and so every older mapping, stays as it was.  This takes the `Vec` and the
`BTreeMap` of `load` to be out of reach of its own stores, which need not stay in
the image (`load_writes_outside`). -/
theorem load_permissions (hl : mapper.Lawful) (o : Overflow) (bytes : List UInt8) (m m' : M)
    (a a' : A) (mem mem' : PhysMemory) (file : ElfFile) (elf : ElfHeaders)
    (hparse : parse bytes = some elf)
    (hload : load mapper allocateFrame parse o bytes m a mem = .ok (file, m', a', mem'))
    (page : Page) :
    (coveringHeaders o elf file page ≠ [] →
      mapper.table m page = .notMapped ∧
      ∃ frame flags, mapper.table m' page = .mapped frame flags ∧
        (flags.contains WRITABLE = true ↔
          ∃ h ∈ coveringHeaders o elf file page, h.pFlags &&& PF_W ≠ 0) ∧
        (flags.contains USER_ACCESSIBLE = true ↔
          ∃ h ∈ coveringHeaders o elf file page, h.pFlags &&& PF_R ≠ 0)) ∧
    (coveringHeaders o elf file page = [] → mapper.table m' page = mapper.table m page) ∧
    (mapper.table m page ≠ .notMapped → mapper.table m' page = mapper.table m page) := by
  rcases load_table hl hparse hload page with ⟨hcov, hsame⟩ | ⟨flags, frame, hflags, hold, hnew⟩
  · exact ⟨fun h => absurd hcov h, fun _ => hsame, fun _ => hsame⟩
  · refine ⟨fun _ => ⟨hold, frame, flags, hnew, ?_, ?_⟩, fun hcov => ?_, fun h => absurd hold h⟩
    · rw [WRITABLE, contains_mergedFlags hflags (by decide), List.any_map, List.any_eq_true]
      exact exists_congr fun h => and_congr_right fun _ => (contains_parseSegmentFlags h).2.1
    · rw [USER_ACCESSIBLE, contains_mergedFlags hflags (by decide), List.any_map,
        List.any_eq_true]
      exact exists_congr fun h => and_congr_right fun _ => (contains_parseSegmentFlags h).1
    · rw [hcov] at hflags
      cases hflags

/-- **Execute permission.**  A page that the load maps is executable iff some
kept header that covers it is, exactly if the last of these headers is
executable or none of them is.  As before, the stores of `load` are taken not to
reach its own `Vec` and `BTreeMap`. -/
theorem load_executable_iff (hl : mapper.Lawful) (o : Overflow) (bytes : List UInt8) (m m' : M)
    (a a' : A) (mem mem' : PhysMemory) (file : ElfFile) (elf : ElfHeaders)
    (hparse : parse bytes = some elf)
    (hload : load mapper allocateFrame parse o bytes m a mem = .ok (file, m', a', mem'))
    (page : Page) (hold : mapper.table m page = .notMapped) (frame : PhysFrame)
    (flags : PageTableFlags) (hnew : mapper.table m' page = .mapped frame flags) :
    (flags.contains NO_EXECUTE = false ↔
      ∃ h ∈ coveringHeaders o elf file page, h.pFlags &&& PF_X ≠ 0) ↔
    ((∃ h, (coveringHeaders o elf file page).getLast? = some h ∧ h.pFlags &&& PF_X ≠ 0) ∨
      ∀ h ∈ coveringHeaders o elf file page, h.pFlags &&& PF_X = 0) := by
  rcases load_table hl hparse hload page with ⟨-, hsame⟩ | ⟨flags', frame', hflags, -, hnew'⟩
  · rw [hnew, hold] at hsame
    cases hsame
  · rw [hnew, TranslateResult.mapped.injEq] at hnew'
    obtain ⟨-, rfl⟩ := hnew'
    obtain ⟨last, hlast, hnx⟩ := noExecute_mergedFlags hflags
    rw [List.getLast?_map, Option.map_eq_some_iff] at hlast
    obtain ⟨h, hh, rfl⟩ := hlast
    have hexec : flags.contains NO_EXECUTE = false ↔ h.pFlags &&& PF_X ≠ 0 := by
      rw [hnx, ne_eq, ← (contains_parseSegmentFlags h).2.2, Bool.not_eq_true]
    rw [hexec, hh]
    by_cases hx : h.pFlags &&& PF_X = 0
    · simp [hx]
    · have hmem := List.mem_of_getLast? hh
      simp only [hx, ne_eq, not_false_eq_true, true_iff, Option.some.injEq]
      exact ⟨fun _ => .inl ⟨h, rfl, hx⟩, fun _ => ⟨h, hmem, hx⟩⟩

end

/-- A text segment, and read-only data on the page where the text ends. -/
def sharedPageElf : ElfHeaders where
  eEntry := 0x1000
  programHeaders :=
    [⟨1, PF_R ||| PF_X, 0, 0x1000, 2, 0x10, 0x1000⟩, ⟨1, PF_R, 2, 0x1800, 1, 0x10, 0x1000⟩]

/-- The page both are moved to. -/
def textPage : Page := Page.ofNumber 0x660

/-- The two segments as they are loaded. -/
def sharedPageFile : ElfFile where
  segments :=
    [⟨.load, 0x1000, PRESENT ∪ USER_ACCESSIBLE, 0, 2, ⟨textPage.startAddress, 0x10, 0x1000⟩⟩,
      ⟨.load, 0x1000, PRESENT ∪ USER_ACCESSIBLE ∪ NO_EXECUTE, 2, 3,
        ⟨⟨0x660800, by decide⟩, 0x10, 0x1800⟩⟩]
  entryPoint := textPage.startAddress

/-- What can be seen of a load is seen of one that returns. -/
theorem exists_of_view {M A β : Type} {x : Outcome Empty (ElfFile × M × A × PhysMemory)}
    (view : ElfFile → M → PhysMemory → β) {b : β}
    (h : (x >>= fun r => .ok (view r.1 r.2.1 r.2.2.2)) = .ok b) :
    ∃ file m a mem, x = .ok (file, m, a, mem) ∧ view file m mem = b := by
  obtain ⟨⟨file, m, a, mem⟩, hx, hview⟩ := Outcome.bind_eq_ok.mp h
  exact ⟨file, m, a, mem, hx, Outcome.ok.inj hview⟩

/-- Load the file into an empty address space. -/
def loadSharedPage : Outcome Empty (ElfFile × PageTable × BootInfoFrameAllocator × PhysMemory) :=
  load tableMapper (BootInfoFrameAllocator.allocateFrame .panic) (fun _ => some sharedPageElf)
    .panic [0xeb, 0xfe, 0x2a] (fun _ => .notMapped) (.init BootInfoFrameAllocator.sampleMap)
    fun _ _ => 0

theorem loadSharedPage_eq_ok : ∃ m a mem, loadSharedPage = .ok (sharedPageFile, m, a, mem) ∧
    m textPage = .mapped ⟨0x10, by decide⟩ (PRESENT ∪ USER_ACCESSIBLE ∪ NO_EXECUTE) := by
  obtain ⟨file, m, a, mem, hload, hview⟩ :=
    exists_of_view (x := loadSharedPage)
      (b := (sharedPageFile, .mapped ⟨0x10, by decide⟩ (PRESENT ∪ USER_ACCESSIBLE ∪ NO_EXECUTE)))
      (fun file m _ => (file, m textPage)) (by decide +kernel)
  obtain ⟨rfl, hentry⟩ := Prod.mk.inj hview
  exact ⟨m, a, mem, hload, hentry⟩

/-- The text is executable, and the page it is loaded to is not. -/
theorem load_loses_executable :
    ∃ m a mem, loadSharedPage = .ok (sharedPageFile, m, a, mem) ∧
      (∃ h ∈ coveringHeaders .panic sharedPageElf sharedPageFile textPage,
        h.pFlags &&& PF_X ≠ 0) ∧
      ∃ frame flags, m textPage = .mapped frame flags ∧ flags.contains NO_EXECUTE = true := by
  obtain ⟨m, a, mem, hload, hentry⟩ := loadSharedPage_eq_ok
  exact ⟨m, a, mem, hload, by decide, _, _, hentry, by decide⟩

theorem load_executable_iff_sharedPage :
    ∃ m a mem frame flags, loadSharedPage = .ok (sharedPageFile, m, a, mem) ∧
      m textPage = .mapped frame flags ∧
      ((flags.contains NO_EXECUTE = false ↔
        ∃ h ∈ coveringHeaders .panic sharedPageElf sharedPageFile textPage,
          h.pFlags &&& PF_X ≠ 0) ↔
      ((∃ h, (coveringHeaders .panic sharedPageElf sharedPageFile textPage).getLast? = some h ∧
          h.pFlags &&& PF_X ≠ 0) ∨
        ∀ h ∈ coveringHeaders .panic sharedPageElf sharedPageFile textPage,
          h.pFlags &&& PF_X = 0)) := by
  obtain ⟨m, a, mem, hload, hentry⟩ := loadSharedPage_eq_ok
  exact ⟨m, a, mem, _, _, hload, hentry,
    load_executable_iff tableMapper_lawful .panic _ _ m _ a _ mem sharedPageFile sharedPageElf rfl
      hload textPage rfl _ _ hentry⟩

theorem load_permissions_sharedPage :
    ∃ m a mem, loadSharedPage = .ok (sharedPageFile, m, a, mem) ∧
      coveringHeaders .panic sharedPageElf sharedPageFile textPage ≠ [] ∧
      ∃ frame flags, m textPage = .mapped frame flags ∧
        (flags.contains WRITABLE = true ↔
          ∃ h ∈ coveringHeaders .panic sharedPageElf sharedPageFile textPage,
            h.pFlags &&& PF_W ≠ 0) := by
  obtain ⟨m, a, mem, hload, -⟩ := loadSharedPage_eq_ok
  have hcov : coveringHeaders .panic sharedPageElf sharedPageFile textPage ≠ [] := by decide
  obtain ⟨-, frame, flags, hmapped, hw, -⟩ :=
    (load_permissions tableMapper_lawful .panic _ _ m _ a _ mem sharedPageFile sharedPageElf rfl
      hload textPage).1 hcov
  exact ⟨m, a, mem, hload, hcov, frame, flags, hmapped, hw⟩

end Elf
