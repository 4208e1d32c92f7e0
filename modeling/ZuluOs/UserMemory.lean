/-
User memory after the boot: what `kernel_main` leaves accessible to user code,
and what the system calls accept from it.

The page table the boot starts from is the boot loader's, which has no page for
user code.  What is accessible in the end is the user stack and the pages of the
image that some segment makes readable; of these, the stack and what some
segment makes writable can be written.

* `kernelMain_table` — the table after the boot, page by page;
* `userEntry_iff` — the flags of a page that user code may access;
* `accessible_iff` — the bytes it may access;
* `kernelMain_writableExecutable_iff` — the pages that it may both write and
  execute;
* `kernelMain_userSlices` — the slices that `construct_user_slice` and
  `construct_user_slice_mut` accept then; none of them touches the kernel heap;
* `kernelMain_write` — a program that writes a part of its own file to the
  screen sees it there.
-/
import ZuluOs.Boot
import ZuluOs.ElfContents
import ZuluOs.SyscallReplies

open BootInfoFrameAllocator PageTableFlags Syscalls VgaBuffer

/-! ### One load -/

namespace Elf

variable {M : Type} {mapper : Mapper M BootInfoFrameAllocator}
  {parse : List UInt8 → Option ElfHeaders} {o : Overflow} {bytes : List UInt8} {m m' : M}
  {a a' : BootInfoFrameAllocator} {mem mem' : PhysMemory} {file : ElfFile} {elf : ElfHeaders}

/-- A page has the flags of every segment that covers it. -/
theorem load_flags (hl : mapper.Lawful) (hparse : parse bytes = some elf)
    (hload : (load mapper (BootInfoFrameAllocator.allocateFrame o) parse o bytes m a mem :
      Outcome Empty _) = .ok (file, m', a', mem')) {s : ElfSegment} (hs : s ∈ file.segments)
    {page : Page} (hcovers : covers o page s = true) :
    ∃ frame flags, mapper.table m' page = .mapped frame flags ∧
      (s.flags.contains USER_ACCESSIBLE = true → flags.contains USER_ACCESSIBLE = true) := by
  obtain ⟨elf', segments, _, _, _, _, _, hparse', hsegments, -, -, -, hremap, -⟩ :=
    load_eq_ok hload
  obtain rfl := Option.some.inj (hparse.symm.trans hparse')
  have hcov : (coveringHeaders o elf file page).map parseSegmentFlags
      = (file.segments.filter (covers o page)).map (·.flags) := by
    refine map_flags_covering ((segments_eq_ok hsegments hremap).imp ?_) _
    rintro h s ⟨s₀, hs₀, hs⟩
    rw [remap_flags hs, (parseSegment_eq_some.mp hs₀).2.1]
  have hmem : s.flags ∈ (coveringHeaders o elf file page).map parseSegmentFlags := by
    rw [hcov]
    exact List.mem_map_of_mem (List.mem_filter.mpr ⟨hs, hcovers⟩)
  rcases load_table hl hparse hload page with ⟨hnil, -⟩ | ⟨flags, frame, hflags, -, hnew⟩
  · rw [hnil] at hmem
    cases hmem
  · refine ⟨frame, flags, hnew, fun huser => ?_⟩
    rw [USER_ACCESSIBLE, contains_mergedFlags hflags (by decide), List.any_eq_true]
    exact ⟨_, hmem, huser⟩

theorem sharedPageFile_fileRange :
    sharedPageFile.loadSegments.Pairwise fun s t => Disjoint s.fileRange t.fileRange := by
  refine sharedPageFile_memRange.imp_of_mem ?_
  intro s t hs ht hst
  have hfits := (sharedPageFile_fits s hs).1
  have hfits' := (sharedPageFile_fits t ht).1
  exact hst.mono (Set.Ico_subset_Ico_right (by omega)) (Set.Ico_subset_Ico_right (by omega))

end Elf

namespace Boot

variable {ε M : Type} {mapper : Mapper M BootInfoFrameAllocator}
  {parse : List UInt8 → Option Elf.ElfHeaders} {collections : List HeapUse} {o : Overflow}
  {memoryMap : List MemoryRegion} {childProcess : List UInt8} {rsp : UInt64} {m m' : M}
  {a a' : BootInfoFrameAllocator} {mem : PhysMemory} {boot : Booted M} {elf : Elf.ElfHeaders}
  {page : Page}

/-! ### The table, page by page -/

/-- The entry a call of `map_to` makes. -/
theorem mapTo_table (hl : mapper.Lawful) {frame : PhysFrame} {flags : PageTableFlags}
    (h : mapper.mapTo m a page frame flags = .ok (m', a')) :
    (∀ k, k ≠ page → mapper.table m' k = mapper.table m k) ∧
      mapper.table m page = .notMapped ∧
      ∃ frame, mapper.table m' page = .mapped frame flags := by
  obtain ⟨hold, hnew⟩ := hl.mapTo_ok h
  refine ⟨fun k hk => ?_, hold, frame, ?_⟩
  · rw [hnew, Function.update_of_ne hk]
  · rw [hnew, Function.update_self]

theorem mapHeapPages_table (hl : mapper.Lawful)
    (h : kernelHeap.foldlM (mapHeapPage mapper o) (m, a) = .ok (m', a')) :
    (∀ page, (∀ p ∈ kernelHeap, page ≠ p) → mapper.table m' page = mapper.table m page) ∧
      ∀ p ∈ kernelHeap, mapper.table m p = .notMapped ∧
        ∃ frame, mapper.table m' p = .mapped frame (PRESENT ∪ WRITABLE) := by
  refine Outcome.foldlM_pointwise (fun st => mapper.table st.1) id
    (fun _ old new => old = .notMapped ∧ ∃ frame, new = .mapped frame (PRESENT ∪ WRITABLE))
    (fun page _ st st' hstep => ?_) (List.nodup_append.mp nodup_bootPages).1 h
  simp only [mapHeapPage, Outcome.bind_eq_ok, Outcome.okOr_eq_ok] at hstep
  obtain ⟨_, -, frame, -, hmap⟩ := hstep
  exact mapTo_table hl hmap

theorem mapStackPages_table (hl : mapper.Lawful)
    (h : (stackPages.foldlM (mapStackPage mapper o) (m, a) : Outcome Empty _) = .ok (m', a')) :
    (∀ page, (∀ p ∈ stackPages, page ≠ p) → mapper.table m' page = mapper.table m page) ∧
      ∀ p ∈ stackPages, mapper.table m p = .notMapped ∧ ∃ frame,
        mapper.table m' p = .mapped frame (PRESENT ∪ USER_ACCESSIBLE ∪ WRITABLE) := by
  refine Outcome.foldlM_pointwise (fun st => mapper.table st.1) id
    (fun _ old new => old = .notMapped ∧
      ∃ frame, new = .mapped frame (PRESENT ∪ USER_ACCESSIBLE ∪ WRITABLE))
    (fun page _ st st' hstep => ?_) (List.nodup_append.mp nodup_bootPages).2.1 h
  simp only [mapStackPage, Outcome.bind_eq_ok, Outcome.unwrap_eq_ok,
    Outcome.unwrapResult_eq_ok] at hstep
  obtain ⟨_, -, frame, -, hmap⟩ := hstep
  exact mapTo_table hl hmap

/-- **The table after the boot.**  A page of the heap is the kernel's, a page of
the stack is the user's, a page of the image has the flags of its headers; these
were not mapped before.  Every other page is as the boot loader left it. -/
theorem kernelMain_table (hl : mapper.Lawful) (hparse : parse childProcess = some elf)
    (h : kernelMain mapper parse collections o memoryMap childProcess rsp m mem = .ok boot) (page : Page) :
    (mapper.table m page = .notMapped ∧
      ((page ∈ kernelHeap ∧ Elf.coveringHeaders o elf boot.bin page = [] ∧
        ∃ frame, mapper.table boot.mapper page = .mapped frame (PRESENT ∪ WRITABLE)) ∨
      (page ∈ stackPages ∧ Elf.coveringHeaders o elf boot.bin page = [] ∧
        ∃ frame, mapper.table boot.mapper page
          = .mapped frame (PRESENT ∪ USER_ACCESSIBLE ∪ WRITABLE)) ∨
      (page ∉ kernelHeap ∧ page ∉ stackPages ∧ ∃ flags frame,
        Elf.mergedFlags ((Elf.coveringHeaders o elf boot.bin page).map Elf.parseSegmentFlags)
          = some flags ∧ mapper.table boot.mapper page = .mapped frame flags))) ∨
    (page ∉ kernelHeap ∧ page ∉ stackPages ∧ Elf.coveringHeaders o elf boot.bin page = [] ∧
      mapper.table boot.mapper page = mapper.table m page) := by
  obtain ⟨m₁, a₁, m₂, a₂, mem₁, hheap, hstack, hload⟩ := kernelMain_eq_ok h
  obtain ⟨hrest₁, hpages₁⟩ := mapHeapPages_table hl hheap
  obtain ⟨hrest₂, hpages₂⟩ := mapStackPages_table hl hstack
  have hsame₁ : page ∉ kernelHeap → mapper.table m₁ page = mapper.table m page :=
    fun hh => hrest₁ page fun p hp => (ne_of_mem_of_not_mem hp hh).symm
  have hsame₂ : page ∉ stackPages → mapper.table m₂ page = mapper.table m₁ page :=
    fun hs => hrest₂ page fun p hp => (ne_of_mem_of_not_mem hp hs).symm
  by_cases hs : page ∈ stackPages
  · -- mapped before the load, and so left alone by it
    obtain ⟨hbefore, frame, hmapped⟩ := hpages₂ page hs
    have hh : page ∉ kernelHeap := fun hh =>
      (List.nodup_append.mp nodup_bootPages).2.2 page hh page hs rfl
    rcases Elf.load_table hl hparse hload page with ⟨hcov, hsame⟩ | ⟨_, _, -, hold, -⟩
    · exact .inl ⟨(hsame₁ hh).symm.trans hbefore,
        .inr (.inl ⟨hs, hcov, frame, hsame.trans hmapped⟩)⟩
    · rw [hmapped] at hold
      cases hold
  · rcases Elf.load_table hl hparse hload page with
      ⟨hcov, hsame⟩ | ⟨flags, frame, hflags, hold, hnew⟩
    · by_cases hh : page ∈ kernelHeap
      · obtain ⟨hbefore, frame, hmapped⟩ := hpages₁ page hh
        exact .inl ⟨hbefore, .inl ⟨hh, hcov, frame, (hsame.trans (hsame₂ hs)).trans hmapped⟩⟩
      · exact .inr ⟨hh, hs, hcov, (hsame.trans (hsame₂ hs)).trans (hsame₁ hh)⟩
    · have hh : page ∉ kernelHeap := by
        intro hh
        obtain ⟨-, _, hmapped⟩ := hpages₁ page hh
        rw [hsame₂ hs, hmapped] at hold
        cases hold
      exact .inl ⟨((hsame₂ hs).trans (hsame₁ hh)).symm.trans hold,
        .inr (.inr ⟨hh, hs, flags, frame, hflags, hnew⟩)⟩

/-! ### What user code may access -/

/-- The pages the boot leaves to user code: those of the stack, and those of the
image that some header makes readable, and writable for writing. -/
def UserPage (o : Overflow) (elf : Elf.ElfHeaders) (boot : Booted M) (access : ReadAccess)
    (page : Page) : Prop :=
  page ∈ stackPages ∨
    (∃ h ∈ Elf.coveringHeaders o elf boot.bin page, h.pFlags &&& Elf.PF_R ≠ 0) ∧
      (access = .readWrite →
        ∃ h ∈ Elf.coveringHeaders o elf boot.bin page, h.pFlags &&& Elf.PF_W ≠ 0)

/-- The boot loader maps nothing for user code. -/
def NoUserPages (pt : PageTable) : Prop :=
  ∀ page frame flags, pt page = .mapped frame flags → flags.contains USER_ACCESSIBLE = false

/-- The flags of a page of the image are those of its headers. -/
theorem merged_iff {headers : List Elf.ProgramHeader64} {flags : PageTableFlags}
    (h : Elf.mergedFlags (headers.map Elf.parseSegmentFlags) = some flags) :
    (flags.contains USER_ACCESSIBLE = true ↔ ∃ h ∈ headers, h.pFlags &&& Elf.PF_R ≠ 0) ∧
      (flags.contains WRITABLE = true ↔ ∃ h ∈ headers, h.pFlags &&& Elf.PF_W ≠ 0) ∧
      (flags.contains NO_EXECUTE = false ↔
        ∃ last, headers.getLast? = some last ∧ last.pFlags &&& Elf.PF_X ≠ 0) := by
  refine ⟨?_, ?_, ?_⟩
  · rw [USER_ACCESSIBLE, Elf.contains_mergedFlags h (by decide), List.any_map, List.any_eq_true]
    exact exists_congr fun h => and_congr_right fun _ => (Elf.contains_parseSegmentFlags h).1
  · rw [WRITABLE, Elf.contains_mergedFlags h (by decide), List.any_map, List.any_eq_true]
    exact exists_congr fun h => and_congr_right fun _ => (Elf.contains_parseSegmentFlags h).2.1
  · obtain ⟨flag, hlast, hflag⟩ := Elf.noExecute_mergedFlags h
    rw [List.getLast?_map, Option.map_eq_some_iff] at hlast
    obtain ⟨last, hlast, rfl⟩ := hlast
    simp [hlast, hflag, ← Bool.not_eq_true, (Elf.contains_parseSegmentFlags last).2.2]

theorem exists_mergedFlags {headers : List Elf.ProgramHeader64}
    {P : Elf.ProgramHeader64 → Prop} (h : ∃ h ∈ headers, P h) :
    ∃ flags, Elf.mergedFlags (headers.map Elf.parseSegmentFlags) = some flags := by
  cases headers with
  | nil => simp at h
  | cons h₀ headers => exact ⟨_, Elf.mergedFlags_cons _ _⟩

/-- **The user pages after the boot**: those of the stack, and those of the image
that their headers make accessible, with the flags they have. -/
theorem userEntry_iff (hl : mapper.Lawful) (hparse : parse childProcess = some elf)
    (hkernel : NoUserPages (mapper.table m))
    (h : kernelMain mapper parse collections o memoryMap childProcess rsp m mem = .ok boot)
    (P : PageTableFlags → Prop) (page : Page) :
    (∃ frame flags, mapper.table boot.mapper page = .mapped frame flags ∧
      flags.contains USER_ACCESSIBLE = true ∧ P flags) ↔
    (page ∈ stackPages ∧ P (PRESENT ∪ USER_ACCESSIBLE ∪ WRITABLE)) ∨
      ∃ flags, Elf.mergedFlags ((Elf.coveringHeaders o elf boot.bin page).map
        Elf.parseSegmentFlags) = some flags ∧ flags.contains USER_ACCESSIBLE = true ∧ P flags := by
  rcases kernelMain_table hl hparse h page with
    ⟨-, ⟨hpage, hcov, frame, hmapped⟩ | ⟨hpage, hcov, frame, hmapped⟩ |
      ⟨-, hpage, flags, frame, hflags, hmapped⟩⟩ | ⟨-, hpage, hcov, hsame⟩
  · have hstack : page ∉ stackPages := fun hs =>
      (List.nodup_append.mp nodup_bootPages).2.2 page hpage page hs rfl
    have huser : (PRESENT ∪ WRITABLE).contains USER_ACCESSIBLE = false := by decide
    simp [hmapped, hcov, hstack, huser, Elf.mergedFlags]
  · have huser : (PRESENT ∪ USER_ACCESSIBLE ∪ WRITABLE).contains USER_ACCESSIBLE = true := by
      decide
    simp [hmapped, hcov, hpage, huser, Elf.mergedFlags]
  · simp [hmapped, hflags, hpage]
  · -- a page of the boot loader's is not user accessible, and has no header
    have huser : ¬ ∃ frame flags, mapper.table m page = .mapped frame flags ∧
        flags.contains USER_ACCESSIBLE = true ∧ P flags := by
      rintro ⟨frame, flags, hentry, huser, -⟩
      rw [hkernel _ _ _ hentry] at huser
      cases huser
    rw [hsame, iff_false_left huser]
    simp [hcov, hpage, Elf.mergedFlags]

/-- The kernel heap is not left to user code. -/
theorem not_userPage_heap (hl : mapper.Lawful) (hparse : parse childProcess = some elf)
    (h : kernelMain mapper parse collections o memoryMap childProcess rsp m mem = .ok boot)
    (access : ReadAccess) (hpage : page ∈ kernelHeap) : ¬ UserPage o elf boot access page := by
  rcases kernelMain_table hl hparse h page with
    ⟨-, ⟨-, hcov, -⟩ | ⟨hs, -, -⟩ | ⟨hno, -⟩⟩ | ⟨hno, -⟩
  · rintro (hs | ⟨⟨_, hmem, -⟩, -⟩)
    · exact (List.nodup_append.mp nodup_bootPages).2.2 page hpage page hs rfl
    · rw [hcov] at hmem
      cases hmem
  · exact absurd rfl ((List.nodup_append.mp nodup_bootPages).2.2 page hpage page hs)
  · exact absurd hpage hno
  · exact absurd hpage hno

/-- **Accessible memory after the boot**: the bytes on its user pages. -/
theorem accessible_iff (hl : mapper.Lawful) (hparse : parse childProcess = some elf)
    (hkernel : NoUserPages (mapper.table m))
    (h : kernelMain mapper parse collections o memoryMap childProcess rsp m mem = .ok boot)
    (access : ReadAccess) (addr : ℕ) :
    Accessible (mapper.table boot.mapper) access addr ↔
      ∃ v : VirtAddr, v.addr = addr ∧ UserPage o elf boot access (.containingAddress v) := by
  refine exists_congr fun v => and_congr_right fun _ => ?_
  show (∃ frame flags, mapper.table boot.mapper (.containingAddress v) = .mapped frame flags ∧
    flags.contains USER_ACCESSIBLE = true ∧
      (access = .readWrite → flags.contains WRITABLE = true)) ↔ _
  rw [userEntry_iff hl hparse hkernel h fun flags =>
    access = .readWrite → flags.contains WRITABLE = true]
  refine or_congr (and_iff_left fun _ => by decide) ?_
  constructor
  · rintro ⟨flags, hflags, huser, hwritable⟩
    obtain ⟨hread, hwrite, -⟩ := merged_iff hflags
    exact ⟨hread.mp huser, fun ha => hwrite.mp (hwritable ha)⟩
  · rintro ⟨hread, hwrite⟩
    obtain ⟨flags, hflags⟩ := exists_mergedFlags hread
    obtain ⟨huser, hwritable, -⟩ := merged_iff hflags
    exact ⟨flags, hflags, huser.mpr hread, fun ha => hwritable.mpr (hwrite ha)⟩

/-! ### Writable and executable -/

/-- **Where user code can write and execute.**  After the boot these are the
pages of the stack, and those of the image that some header makes readable, some
header makes writable, and whose last header is executable.  The stores of `load`
are taken not to reach its own `Vec` and `BTreeMap` (`Elf.load_writes_outside`). -/
theorem kernelMain_writableExecutable_iff (hl : mapper.Lawful)
    (hparse : parse childProcess = some elf) (hkernel : NoUserPages (mapper.table m))
    (h : kernelMain mapper parse collections o memoryMap childProcess rsp m mem = .ok boot) (page : Page) :
    (∃ frame flags, mapper.table boot.mapper page = .mapped frame flags ∧
      flags.contains USER_ACCESSIBLE = true ∧ flags.contains WRITABLE = true ∧
        flags.contains NO_EXECUTE = false) ↔
    page ∈ stackPages ∨
      (∃ h ∈ Elf.coveringHeaders o elf boot.bin page, h.pFlags &&& Elf.PF_R ≠ 0) ∧
      (∃ h ∈ Elf.coveringHeaders o elf boot.bin page, h.pFlags &&& Elf.PF_W ≠ 0) ∧
      ∃ last, (Elf.coveringHeaders o elf boot.bin page).getLast? = some last ∧
        last.pFlags &&& Elf.PF_X ≠ 0 := by
  rw [userEntry_iff hl hparse hkernel h fun flags =>
    flags.contains WRITABLE = true ∧ flags.contains NO_EXECUTE = false]
  refine or_congr (and_iff_left (by decide)) ?_
  constructor
  · rintro ⟨flags, hflags, huser, hwritable, hexec⟩
    obtain ⟨hread, hwrite, hlast⟩ := merged_iff hflags
    exact ⟨hread.mp huser, hwrite.mp hwritable, hlast.mp hexec⟩
  · rintro ⟨hread, hwrite, hlast⟩
    obtain ⟨flags, hflags⟩ := exists_mergedFlags hread
    obtain ⟨huser, hwritable, hexec⟩ := merged_iff hflags
    exact ⟨flags, hflags, huser.mpr hread, hwritable.mpr hwrite, hexec.mpr hlast⟩

theorem kernelMain_writableExecutable_iff_sharedPage : ∃ boot, bootSharedPage = .ok boot ∧
    ∃ frame flags, boot.mapper.1 (.ofNumber 0xDEADB) = .mapped frame flags ∧
      flags.contains USER_ACCESSIBLE = true ∧ flags.contains WRITABLE = true ∧
        flags.contains NO_EXECUTE = false := by
  obtain ⟨boot, hboot, hbin⟩ := bootSharedPage_eq_ok
  have hkernel : NoUserPages ((drawingMapper .panic 1).table (fun _ => .notMapped, [])) :=
    fun _ _ _ h => by cases h
  exact ⟨boot, hboot, (kernelMain_writableExecutable_iff (drawingMapper_lawful .panic 1)
    (show _ = some Elf.sharedPageElf from rfl) hkernel hboot (.ofNumber 0xDEADB)).mpr
    (.inl (by decide +kernel))⟩

/-! ### User slices -/

/-- User code may access every byte of a range after the boot. -/
def UserRange (o : Overflow) (elf : Elf.ElfHeaders) (boot : Booted M) (access : ReadAccess)
    (ptr bytes : ℕ) : Prop :=
  ∀ addr, ptr ≤ addr → addr < ptr + bytes →
    ∃ v : VirtAddr, v.addr = addr ∧ UserPage o elf boot access (.containingAddress v)

/-- **User slices after the boot.**  Of the non-empty ranges of the lower half
`construct_user_slice` accepts those that do not start at address 0 and lie in the
stack and in the readable part of the image, `construct_user_slice_mut` those that
can also be written; both turn down a range with a byte of the kernel heap. -/
theorem kernelMain_userSlices (hl : mapper.Lawful) (hparse : parse childProcess = some elf)
    (hkernel : NoUserPages (mapper.table m))
    (h : kernelMain mapper parse collections o memoryMap childProcess rsp m mem = .ok boot)
    (ptr bytes : UInt64) (hbytes : 1 ≤ bytes.toNat) (hlow : ptr.toNat + bytes.toNat ≤ 2 ^ 47) :
    ((∃ s, constructUserSlice o (mapper.table boot.mapper) ptr bytes = .ok s) ↔
      ptr ≠ 0 ∧ UserRange o elf boot .readOnly ptr.toNat bytes.toNat) ∧
    ((∃ s, constructUserSliceMut o (mapper.table boot.mapper) ptr bytes = .ok s) ↔
      ptr ≠ 0 ∧ UserRange o elf boot .readWrite ptr.toNat bytes.toNat) ∧
    ∀ addr, HEAP_START ≤ addr → addr < HEAP_START + HEAP_SIZE →
      ptr.toNat ≤ addr → addr < ptr.toNat + bytes.toNat →
      constructUserSlice o (mapper.table boot.mapper) ptr bytes = .err .invalidArgument ∧
      constructUserSliceMut o (mapper.table boot.mapper) ptr bytes = .err .invalidArgument := by
  have hexact : ∀ access,
      (∃ s, constructUserRange access o (mapper.table boot.mapper) ptr bytes = .ok s) ↔
        ptr ≠ 0 ∧ UserRange o elf boot access ptr.toNat bytes.toNat := by
    intro access
    have hrange : RangeAccessible (mapper.table boot.mapper) access ptr.toNat bytes.toNat ↔
        UserRange o elf boot access ptr.toNat bytes.toNat :=
      forall_congr' fun addr => forall₂_congr fun _ _ =>
        accessible_iff hl hparse hkernel h access addr
    have hnull : ptr ≠ 0 ↔ ptr.toNat ≠ 0 := not_congr UInt64.toNat_inj.symm
    rw [← hrange, hnull]
    by_cases hall : RangeAccessible (mapper.table boot.mapper) access ptr.toNat bytes.toNat
    · rw [(constructUserRange_lower hbytes hlow).1 hall]
      simp [sliceFromRawParts_eq_ok, hall]
    · rw [(constructUserRange_lower hbytes hlow).2 hall]
      simp [hall]
  refine ⟨hexact .readOnly, hexact .readWrite, ?_⟩
  intro addr hstart hend hptr hlast
  have hno : ∀ access,
      ¬ RangeAccessible (mapper.table boot.mapper) access ptr.toNat bytes.toNat := by
    intro access hall
    obtain ⟨v, rfl, hpage⟩ :=
      (accessible_iff hl hparse hkernel h access addr).mp (hall addr hptr hlast)
    refine not_userPage_heap hl hparse h access ?_ hpage
    exact mem_kernelHeap.mpr ⟨v, hstart, by omega, rfl⟩
  exact ⟨(constructUserRange_lower hbytes hlow).2 (hno _),
    (constructUserRange_lower hbytes hlow).2 (hno _)⟩

theorem kernelMain_userSlices_sharedPage : ∃ boot, bootSharedPage = .ok boot ∧
    (∃ s, constructUserSlice .panic boot.mapper.1 0x660000 0x10 = .ok s) ∧
    constructUserSlice .panic boot.mapper.1 0x444444440000 1 = .err .invalidArgument := by
  obtain ⟨boot, hboot, hbin⟩ := bootSharedPage_eq_ok
  have hkernel : NoUserPages ((drawingMapper .panic 1).table (fun _ => .notMapped, [])) :=
    fun _ _ _ h => by cases h
  have hslices := kernelMain_userSlices (drawingMapper_lawful .panic 1)
    (show _ = some Elf.sharedPageElf from rfl) hkernel hboot
  refine ⟨boot, hboot, ?_, ?_⟩
  · refine (hslices 0x660000 0x10 (by decide) (by decide)).1.mpr ⟨by decide, ?_⟩
    intro addr hstart hend
    change 0x660000 ≤ addr at hstart
    change addr < 0x660000 + 0x10 at hend
    refine ⟨⟨addr, .inl (by omega)⟩, rfl, .inr ⟨?_, by simp⟩⟩
    have hpage : Page.containingAddress ⟨addr, .inl (by omega)⟩ = Elf.textPage := by
      refine Page.ext ?_
      show addr % 2 ^ 48 / 4096 = 0x660
      omega
    rw [hpage, hbin]
    decide
  · exact ((hslices 0x444444440000 1 (by decide) (by decide)).2.2 0x444444440000 (by decide)
      (by decide) (by decide) (by decide)).1

/-! ### A program that writes its own file -/

/-- **A program that writes its own file.**  Let the `Load` segments lie in the
lower half, with no more bytes in the file than in memory and contents that do not
meet.  After the boot, a `Write` of a part of the file that a readable segment has
in memory above address 0 returns the number of its bytes and puts them on the
screen, as long as the program has not changed them there. -/
theorem kernelMain_write {tables : M → List PhysFrame} (hl : mapper.Lawful)
    (hd : mapper.Draws o tables) (hdisj : DisjointRegions memoryMap)
    (hparse : parse childProcess = some elf)
    (h : kernelMain mapper parse collections o memoryMap childProcess rsp m mem = .ok boot)
    (hfits : ∀ s ∈ boot.bin.loadSegments,
      s.fileLen ≤ s.addr.len ∧ s.addr.start.addr + s.addr.len ≤ 2 ^ 47)
    (hfiles : boot.bin.loadSegments.Pairwise fun s t => Disjoint s.fileRange t.fileRange)
    {s : Elf.ElfSegment} (hs : s ∈ boot.bin.loadSegments)
    (huser : s.flags.contains USER_ACCESSIBLE = true) {i n : ℕ} (hn : 1 ≤ n)
    (hin : i + n ≤ s.fileLen) (hnull : 1 ≤ s.addr.start.addr + i) {mem' : PhysMemory}
    (hkept : ∀ k < n, (mapper.table boot.mapper).byteAt mem' (s.addr.start.addr + i + k)
      = (mapper.table boot.mapper).byteAt boot.memory (s.addr.start.addr + i + k))
    (arg0 arg3 arg4 : UInt64) (w : Writer) :
    ∃ w', syscallHandlerInner o (mapper.table boot.mapper) mem' 2 arg0
        (.ofNat (s.addr.start.addr + i)) (.ofNat n) arg3 arg4 w = .ok (.ofNat n, w') ∧
      (w'.rows, w'.columnPosition)
        = w.terminal (writeLine ++ (childProcess.drop (s.fileStart + i)).take n) := by
  obtain ⟨m₁, a₁, m₂, a₂, mem₁, hheap, hstack, hload⟩ := kernelMain_eq_ok h
  have hmap : a₂.memoryMap = memoryMap := by
    have hinit : InStock memoryMap (.init memoryMap) := ⟨rfl, Nat.zero_le _⟩
    have hI₁ := (Owned.nil hinit).mapLoop (m := m) hl hd hdisj mapHeapPage_fresh hheap
    exact (hI₁.mapLoop hl hd hdisj mapStackPage_fresh hstack).inStock.map_eq
  obtain ⟨hsegment, -⟩ := Elf.mem_loadSegments.mp hs
  obtain ⟨hsize, hlow⟩ := hfits s hs
  have hptr : (UInt64.ofNat (s.addr.start.addr + i)).toNat = s.addr.start.addr + i :=
    UInt64.toNat_ofNat_of_lt' (show _ < 2 ^ 64 by omega)
  have hlen : (UInt64.ofNat n).toNat = n := UInt64.toNat_ofNat_of_lt' (show _ < 2 ^ 64 by omega)
  -- the range is on pages of the segment
  have hacc : RangeAccessible (mapper.table boot.mapper) .readOnly (s.addr.start.addr + i) n := by
    intro addr hstart hend
    obtain ⟨last, hlast⟩ := Elf.load_ends hload hsegment
    have hcovers : Elf.covers o (.containingAddress ⟨addr, .inl (by omega)⟩) s = true :=
      Elf.covers_of_le hlast (by omega) (show _ ≤ addr by omega) (show addr ≤ _ by omega)
    obtain ⟨frame, flags, hmapped, hflags⟩ := Elf.load_flags hl hparse hload hsegment hcovers
    exact ⟨_, rfl, frame, flags, hmapped, hflags huser, by simp⟩
  -- and holds what the load has copied there
  have hbytes : rangeBytes ((mapper.table boot.mapper).byteAt mem') (s.addr.start.addr + i) n
      = (childProcess.drop (s.fileStart + i)).take n := by
    refine List.ext_getElem? fun k => ?_
    by_cases hk : k < n
    · obtain ⟨b, hb, hread⟩ := Elf.load_reads hl hd (hmap ▸ hdisj) hload
        (fun s hs => (hfits s hs).1) (fun s hs => (hfits s hs).2.trans_lt (by decide)) hfiles hs
        (show i + k < _ by omega)
      rw [List.getElem?_take_of_lt hk, List.getElem?_drop, rangeBytes, List.getElem?_map,
        List.getElem?_range hk, Option.map_some, hkept k hk, Nat.add_assoc, Nat.add_assoc, hb,
        PageTable.byteAt, hread]
    · rw [List.getElem?_eq_none (by simp [rangeBytes]; omega),
        List.getElem?_eq_none (by rw [List.length_take]; omega)]
  obtain ⟨w', hw', hhandler⟩ := syscallHandlerInner_reply o (mapper.table boot.mapper) mem' 2 arg0
    (.ofNat (s.addr.start.addr + i)) (.ofNat n) arg3 arg4 w (by decide)
    (fun _ => by rw [hptr, hlen]; omega)
  have hreply : reply (mapper.table boot.mapper) ((mapper.table boot.mapper).byteAt mem') 2
      (.ofNat (s.addr.start.addr + i)) (.ofNat n)
      = (.ofNat n, writeLine ++ (childProcess.drop (s.fileStart + i)).take n) := by
    rw [reply, if_neg (by decide), if_pos rfl, hptr, hlen, if_pos hacc, hbytes]
  rw [hreply] at hw' hhandler
  obtain ⟨w₁, hw₁, hshow⟩ := w.writeBytes_terminal (ε := Error)
    (writeLine ++ (childProcess.drop (s.fileStart + i)).take n)
  obtain rfl := Outcome.ok.inj (hw'.symm.trans hw₁)
  exact ⟨w', hhandler, hshow⟩

theorem kernelMain_write_sharedPage : ∃ boot, bootSharedPage = .ok boot ∧
    ∃ w', syscallHandlerInner .panic boot.mapper.1 boot.memory 2 0 0x660000 2 0 0 default
        = .ok (2, w') ∧
      (w'.rows, w'.columnPosition)
        = (default : Writer).terminal (writeLine ++ [0xeb, 0xfe]) := by
  obtain ⟨boot, hboot, hbin⟩ := bootSharedPage_eq_ok
  have hdisj : DisjointRegions bootMap := List.pairwise_singleton _ _
  have hfits : ∀ s ∈ boot.bin.loadSegments,
      s.fileLen ≤ s.addr.len ∧ s.addr.start.addr + s.addr.len ≤ 2 ^ 47 := by
    rw [hbin]
    decide
  have hfiles : boot.bin.loadSegments.Pairwise fun s t => Disjoint s.fileRange t.fileRange := by
    rw [hbin]
    exact Elf.sharedPageFile_fileRange
  have hs : Elf.sharedPageFile.segments.head (by decide) ∈ boot.bin.loadSegments := by
    rw [hbin]
    decide
  exact ⟨boot, hboot, kernelMain_write (drawingMapper_lawful .panic 1)
    (drawingMapper_draws .panic 1) hdisj (show _ = some Elf.sharedPageElf from rfl) hboot hfits
    hfiles hs
    (by decide) (i := 0) (n := 2) (by decide) (by decide) (by decide) (fun _ _ => rfl) 0 0 0
    default⟩

end Boot
