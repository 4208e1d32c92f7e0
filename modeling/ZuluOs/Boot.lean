/-
The boot, from `kernel_main` of `main.rs` up to `enter_user_mode`.

One frame allocator is threaded through three mapping loops: the kernel heap
(`init_kernel_heap` of `allocator/mod.rs`), the user stack, and the image that
`elf::load` makes.  Each call of `map_to` in between may draw page-table frames
from it.

The heap is used twice.  `init_thread_data` puts a box on it, and `load` keeps its
segments in a `Vec` and its pages in a `BTreeMap`.  What these collections of the
`alloc` crate do with the heap is a parameter (`HeapUse`): blocks they allocate and
free, and bytes they store there.  Stores of the copy loop that leave the image are
taken not to reach these blocks.

* `kernelMain_eq_ok` — a boot that gets there went through the three loops;
* `kernelMain_frames` — every page of the three groups has a usable frame of
  its own, which no other page and no page table has.
-/
import ZuluOs.BumpAllocator
import ZuluOs.ElfImage

open BootInfoFrameAllocator PageTableFlags

namespace Boot

variable {ε M : Type}

/-! ### The kernel heap -/

/-- The `page_range` of `init_kernel_heap`. -/
def heapPages (o : Overflow) : Outcome ε (List Page) := do
  let heapStart ← VirtAddr.new HEAP_START
  let heapEnd ← (← heapStart.add o HEAP_SIZE).sub o 1
  let heapStartPage := Page.containingAddress heapStart
  let heapEndPage := Page.containingAddress heapEnd
  .ok (Page.rangeInclusive heapStartPage heapEndPage)

/-- One turn of the loop of `init_kernel_heap`. -/
def mapHeapPage (mapper : Mapper M BootInfoFrameAllocator) (o : Overflow)
    (state : M × BootInfoFrameAllocator) (page : Page) :
    Outcome MapToError (M × BootInfoFrameAllocator) := do
  let (m, a) := state
  let (frame, a) ← a.allocateFrame o
  let frame ← .okOr .frameAllocationFailed frame
  let flags := PRESENT ∪ WRITABLE
  mapper.mapTo m a page frame flags

/-- `init_kernel_heap`, with the allocator it initialises. -/
def initKernelHeap (mapper : Mapper M BootInfoFrameAllocator) (o : Overflow)
    (state : M × BootInfoFrameAllocator) :
    Outcome MapToError (M × BootInfoFrameAllocator × BumpAllocator) := do
  let pageRange ← heapPages o
  let (m, a) ← pageRange.foldlM (mapHeapPage mapper o) state
  let allocator ← BumpAllocator.init o HEAP_START HEAP_SIZE
  .ok (m, a, allocator)

/-! ### The thread data -/

/-- The eight bytes of a word, in memory order. -/
def leBytes (w : UInt64) : List UInt8 :=
  (List.range 8).map fun i => (w >>> UInt64.ofNat (8 * i)).toUInt8

/-- `Layout::new::<ThreadData>()`: two words. -/
def threadDataLayout : Layout := ⟨16, 8, Layout.u64.isPowerOfTwo, by decide⟩

/-- `init_thread_data`, called with `kernel_rsp: NonZeroU64::new(rsp)` and
`user_tmp_rsp: None`; the box is what the GS base points to. -/
def initThreadData (o : Overflow) (pt : PageTable) (mem : PhysMemory) (heap : BumpAllocator)
    (rsp : UInt64) : Outcome ε (VirtAddr × PhysMemory × BumpAllocator) := do
  let (ptr, heap) ← heap.alloc o threadDataLayout
  -- a box that cannot be allocated ends in `alloc_error_handler`
  if ptr = 0 then .stop .panic
  else do
    let mem ← (leBytes rsp ++ leBytes 0).zipIdx.foldlM
      (fun mem (b, i) => pt.storeByte mem (ptr + i) b) mem
    let threadData ← VirtAddr.new ptr
    .ok (threadData, mem, heap)

/-! ### The collections of the load -/

/-- One use that a collection makes of the heap.  Its blocks are counted from the
latest one. -/
inductive HeapUse where
  | alloc (layout : Layout) (nonempty : 0 < layout.size)
  | dealloc (k : ℕ)
  | write (k i : ℕ) (byte : UInt8)

/-- A use of the heap, with the memory and the blocks of the collections.  What
names no block, or no byte of it, is not made. -/
def useHeap (o : Overflow) (pt : PageTable) (state : PhysMemory × Heap) :
    HeapUse → Outcome ε (PhysMemory × Heap)
  | .alloc layout _ => do
    let (mem, heap) := state
    let (ptr, bump) ← heap.bump.alloc o layout
    -- `alloc_error_handler`
    if ptr = 0 then .stop .panic
    else .ok (mem, ⟨bump, ⟨ptr, layout⟩ :: heap.live⟩)
  | .dealloc k =>
    let (mem, heap) := state
    match heap.live[k]? with
    | some b => do
      let bump ← heap.bump.dealloc o b.ptr b.layout
      .ok (mem, ⟨bump, heap.live.erase b⟩)
    | none => .ok state
  | .write k i byte =>
    let (mem, heap) := state
    match heap.live[k]? with
    | some b =>
      if i < b.layout.size then do
        let mem ← pt.storeByte mem (b.ptr + i) byte
        .ok (mem, heap)
      else .ok state
    | none => .ok state

/-! ### The user stack -/

/-- The lowest page of the user stack, its size, and its pages. -/
def lowestStackPage : Outcome ε Page := do
  .ok (.containingAddress (← VirtAddr.new 0xDEADBEEF))

def stackSize : ℕ := 4096 * 4

def userStack (o : Overflow) : Outcome ε (List Page) := do
  let lowest ← lowestStackPage
  let highest := Page.containingAddress (← lowest.startAddress.add o stackSize)
  .ok (Page.range lowest highest)

/-- One turn of the loop over the user stack. -/
def mapStackPage (mapper : Mapper M BootInfoFrameAllocator) (o : Overflow)
    (state : M × BootInfoFrameAllocator) (page : Page) :
    Outcome ε (M × BootInfoFrameAllocator) := do
  let (m, a) := state
  let (frame, a) ← a.allocateFrame o
  let frame ← .unwrap frame
  let flags := PRESENT ∪ USER_ACCESSIBLE ∪ WRITABLE
  .unwrapResult (mapper.mapTo m a page frame flags)

/-! ### `kernel_main` -/

/-- What `kernel_main` has set up when it calls `enter_user_mode` with
`bin.entry_point` and `top_of_stack`. -/
structure Booted (M : Type) where
  mapper : M
  frameAllocator : BootInfoFrameAllocator
  memory : PhysMemory
  /-- The allocator, and the blocks of the collections. -/
  heap : Heap
  gsBase : VirtAddr
  bin : Elf.ElfFile
  topOfStack : ℕ

/-- `kernel_main`, from `BootInfoFrameAllocator::init` to the arguments of
`enter_user_mode`; `collections` is what the `Vec` and the `BTreeMap` of `load` do
with the heap. -/
def kernelMain (mapper : Mapper M BootInfoFrameAllocator)
    (parse : List UInt8 → Option Elf.ElfHeaders) (collections : List HeapUse) (o : Overflow)
    (memoryMap : List MemoryRegion) (childProcess : List UInt8) (rsp : UInt64) (m : M)
    (mem : PhysMemory) : Outcome Empty (Booted M) := do
  let frameAllocator := BootInfoFrameAllocator.init memoryMap
  let (m, frameAllocator, heap) ← .unwrapResult (initKernelHeap mapper o (m, frameAllocator))
  let (gsBase, mem, heap) ← initThreadData o (mapper.table m) mem heap rsp
  let stack ← userStack o
  let (m, frameAllocator) ← stack.foldlM (mapStackPage mapper o) (m, frameAllocator)
  -- they are filled before the first page is mapped; to free one stores nothing
  let (mem, heap) ← collections.foldlM (useHeap o (mapper.table m)) (mem, ⟨heap, []⟩)
  let (bin, m, frameAllocator, mem) ←
    Elf.load mapper (BootInfoFrameAllocator.allocateFrame o) parse o childProcess m
      frameAllocator mem
  let topOfStack ← o.addU64 (← lowestStackPage).startAddress.addr stackSize
  .ok ⟨m, frameAllocator, mem, heap, gsBase, bin, topOfStack⟩

/-! ### The pages of the three groups -/

/-- The pages of the kernel heap. -/
def kernelHeap : List Page := Page.rangeInclusive (.ofNumber 0x444444440) (.ofNumber 0x444444458)

/-- The pages of the user stack. -/
def stackPages : List Page := Page.range (.ofNumber 0xDEADB) (.ofNumber 0xDEADF)

theorem nodup_bootPages : (kernelHeap ++ stackPages).Nodup := by decide +kernel

theorem heapPages_eq (o : Overflow) : (heapPages o : Outcome ε _) = .ok kernelHeap := by
  rw [heapPages, VirtAddr.new_of_canonical (show Canonical HEAP_START by decide),
    Outcome.ok_bind,
    VirtAddr.add_of_canonical o (show Canonical (HEAP_START + HEAP_SIZE) by decide),
    Outcome.ok_bind,
    VirtAddr.sub_of_canonical o (show 1 ≤ HEAP_START + HEAP_SIZE by decide)
      (show Canonical (HEAP_START + HEAP_SIZE - 1) by decide), Outcome.ok_bind]
  exact congrArg Outcome.ok (congrArg₂ Page.rangeInclusive (by decide) (by decide))

/-- They are those with a byte of the heap. -/
theorem mem_kernelHeap {page : Page} : page ∈ kernelHeap ↔ ∃ v : VirtAddr,
    HEAP_START ≤ v.addr ∧ v.addr ≤ HEAP_START + HEAP_SIZE - 1 ∧
      Page.containingAddress v = page := by
  have hpages : kernelHeap = Page.rangeInclusive
      (.containingAddress ⟨HEAP_START, by decide⟩)
      (.containingAddress ⟨HEAP_START + HEAP_SIZE - 1, by decide⟩) :=
    congrArg₂ Page.rangeInclusive (by decide) (by decide)
  rw [hpages]
  exact Page.mem_rangeInclusive_iff_exists (by decide) (by decide)

theorem lowestStackPage_eq : (lowestStackPage : Outcome ε _) = .ok (.ofNumber 0xDEADB) := by
  rw [lowestStackPage, VirtAddr.new_of_canonical (show Canonical 0xDEADBEEF by decide),
    Outcome.ok_bind]
  exact congrArg Outcome.ok (by decide)

theorem userStack_eq (o : Overflow) : (userStack o : Outcome ε _) = .ok stackPages := by
  rw [userStack, lowestStackPage_eq, Outcome.ok_bind,
    VirtAddr.add_of_canonical o
      (show Canonical ((Page.ofNumber 0xDEADB).startAddress.addr + stackSize) by decide),
    Outcome.ok_bind]
  exact congrArg Outcome.ok (congrArg (Page.range _) (by decide))

/-! ### Frames over the whole boot -/

section

variable {mapper : Mapper M BootInfoFrameAllocator} {parse : List UInt8 → Option Elf.ElfHeaders}
  {collections : List HeapUse} {o : Overflow} {memoryMap : List MemoryRegion}
  {childProcess : List UInt8} {rsp : UInt64} {m m' : M} {a a' : BootInfoFrameAllocator} {mem : PhysMemory} {boot : Booted M} {page : Page}

/-- A boot that reaches `enter_user_mode` went through the three loops. -/
theorem kernelMain_eq_ok
    (h : kernelMain mapper parse collections o memoryMap childProcess rsp m mem = .ok boot) :
    ∃ m₁ a₁ m₂ a₂ mem₁,
      kernelHeap.foldlM (mapHeapPage mapper o) (m, .init memoryMap) = .ok (m₁, a₁) ∧
      (stackPages.foldlM (mapStackPage mapper o) (m₁, a₁) : Outcome Empty _) = .ok (m₂, a₂) ∧
      (Elf.load mapper (BootInfoFrameAllocator.allocateFrame o) parse o childProcess m₂ a₂ mem₁ :
        Outcome Empty _) = .ok (boot.bin, boot.mapper, boot.frameAllocator, boot.memory) := by
  simp only [kernelMain, initKernelHeap, heapPages_eq, userStack_eq, Outcome.ok_bind,
    Outcome.bind_eq_ok, Outcome.unwrapResult_eq_ok, Outcome.ok.injEq] at h
  obtain ⟨_, ⟨⟨m₁, a₁⟩, hheap, heap, -, rfl⟩, ⟨gsBase, mem₀, heap₀⟩, -, ⟨m₂, a₂⟩, hstack,
    ⟨mem₁, heap₁⟩, -, ⟨bin, m₃, a₃, mem₂⟩, hload, _, -, _, -, rfl⟩ := h
  exact ⟨m₁, a₁, m₂, a₂, mem₁, hheap, hstack, hload⟩

theorem mapHeapPage_fresh (h : mapHeapPage mapper o (m, a) page = .ok (m', a')) :
    MapsFresh MapToError mapper o page m a m' a' := by
  simp only [mapHeapPage, Outcome.bind_eq_ok, Outcome.okOr_eq_ok] at h
  obtain ⟨⟨f, a₁⟩, halloc, frame, rfl, hmap⟩ := h
  exact ⟨frame, a₁, _, halloc, hmap⟩

theorem mapStackPage_fresh
    (h : (mapStackPage mapper o (m, a) page : Outcome Empty _) = .ok (m', a')) :
    MapsFresh Empty mapper o page m a m' a' := by
  simp only [mapStackPage, Outcome.bind_eq_ok, Outcome.unwrap_eq_ok,
    Outcome.unwrapResult_eq_ok] at h
  obtain ⟨⟨f, a₁⟩, halloc, frame, rfl, hmap⟩ := h
  exact ⟨frame, a₁, _, halloc, hmap⟩

/-- The pages of the kernel heap, of the user stack and of the image. -/
def BootPage (o : Overflow) (boot : Booted M) (page : Page) : Prop :=
  page ∈ kernelHeap ∨ page ∈ stackPages ∨ Elf.InImage o boot.bin page

/-- **Frame ownership over the boot.**  The three groups of pages do not meet.
Every page in them is mapped to a usable frame that no other page of theirs is
mapped to, and that `map_to` did not draw for a page table. -/
theorem kernelMain_frames (tables : M → List PhysFrame) (hl : mapper.Lawful)
    (hd : mapper.Draws o tables) (hdisj : DisjointRegions memoryMap)
    (h : kernelMain mapper parse collections o memoryMap childProcess rsp m mem = .ok boot) :
    (kernelHeap ++ stackPages).Nodup ∧
    (∀ page ∈ kernelHeap ++ stackPages, ¬ Elf.InImage o boot.bin page) ∧
    ∃ drawn, tables boot.mapper = tables m ++ drawn ∧
      (∀ page, BootPage o boot page → ∃ frame flags,
        mapper.table boot.mapper page = .mapped frame flags ∧ Usable memoryMap frame ∧
          frame ∉ drawn) ∧
      ∀ p q, BootPage o boot p → BootPage o boot q → ∀ frame flags flags',
        mapper.table boot.mapper p = .mapped frame flags →
        mapper.table boot.mapper q = .mapped frame flags' → p = q := by
  obtain ⟨m₁, a₁, m₂, a₂, mem₁, hheap, hstack, hload⟩ := kernelMain_eq_ok h
  have hinit : InStock memoryMap (.init memoryMap) := ⟨rfl, Nat.zero_le _⟩
  -- the same allocator, from its first frame on, through the three loops
  have hI₁ := (Owned.nil hinit).mapLoop (m := m) hl hd hdisj mapHeapPage_fresh hheap
  have hI₂ := hI₁.mapLoop hl hd hdisj mapStackPage_fresh hstack
  obtain ⟨pages, hI₃, hpages⟩ := Elf.load_owned hl hd hdisj hI₂ hload
  have hmem : ∀ page, BootPage o boot page → page ∈ pages := by
    intro page hpage
    rw [hpages, List.mem_append, List.mem_append, List.mem_reverse, List.mem_reverse, List.map_id',
      List.map_id']
    rcases hpage with hpage | hpage | hpage
    · exact .inr (.inr (.inl hpage))
    · exact .inr (.inl hpage)
    · exact .inl hpage
  refine ⟨nodup_bootPages, ?_, ?_⟩
  · -- a page of the image was not mapped when the load began
    intro page hpage himage
    obtain ⟨_, -, hunmapped, -⟩ := Elf.load_copy hl hload
    have hbefore := (hunmapped page himage).1
    have hin : page ∈ (stackPages.map id).reverse ++ ((kernelHeap.map id).reverse ++ []) := by
      simpa [or_comm] using hpage
    obtain ⟨frame, flags, hmapped, -⟩ := hI₂.backed page hin
    rw [hbefore] at hmapped
    cases hmapped
  · obtain ⟨drawn, hdrawn, -⟩ := hI₃.drawn
    refine ⟨drawn, hdrawn, ?_, ?_⟩
    · intro page hpage
      obtain ⟨frame, flags, hmapped, hframe, hnot⟩ := hI₃.backed page (hmem page hpage)
      exact ⟨frame, flags, hmapped, hframe.usable, hnot drawn hdrawn⟩
    · intro p q hp hq frame flags flags' hpf hqf
      exact hI₃.apart p (hmem p hp) q (hmem q hq) hpf hqf

end

/-- One usable region of 64 frames. -/
def bootMap : List MemoryRegion :=
  [⟨0x100000, 0x140000, .usable, by decide, by decide, by decide, by decide⟩]

/-- One block, of which a byte is written. -/
def sampleUses : List HeapUse := [.alloc .u64 (by decide), .write 0 0 0x2a]

/-- Boot with the file of two segments and a mapper that draws one frame in
each call. -/
def bootSharedPage : Outcome Empty (Booted (PageTable × List PhysFrame)) :=
  kernelMain (drawingMapper .panic 1) (fun _ => some Elf.sharedPageElf) sampleUses .panic bootMap
    [0xeb, 0xfe, 0x2a] 0 (fun _ => .notMapped, []) fun _ _ => 0

theorem bootSharedPage_eq_ok :
    ∃ boot, bootSharedPage = .ok boot ∧ boot.bin = Elf.sharedPageFile := by
  have h : (do let boot ← bootSharedPage
               .ok boot.bin : Outcome Empty Elf.ElfFile) = .ok Elf.sharedPageFile := by
    decide +kernel
  rw [Outcome.bind_eq_ok] at h
  obtain ⟨boot, hboot, hbin⟩ := h
  exact ⟨boot, hboot, Outcome.ok.inj hbin⟩

theorem kernelMain_frames_sharedPage :
    ∃ boot, bootSharedPage = .ok boot ∧ ∃ frame flags,
      boot.mapper.1 Elf.textPage = .mapped frame flags ∧ Usable bootMap frame ∧
        frame ∉ boot.mapper.2 := by
  obtain ⟨boot, hboot, hbin⟩ := bootSharedPage_eq_ok
  have hdisj : DisjointRegions bootMap := List.pairwise_singleton _ _
  obtain ⟨-, -, drawn, hdrawn, hframes, -⟩ :=
    kernelMain_frames Prod.snd (drawingMapper_lawful .panic 1) (drawingMapper_draws .panic 1) hdisj
      hboot
  have htext : BootPage .panic boot Elf.textPage := by
    refine .inr (.inr ?_)
    rw [hbin]
    decide
  obtain ⟨frame, flags, hmapped, husable, hnot⟩ := hframes Elf.textPage htext
  rw [List.nil_append] at hdrawn
  exact ⟨boot, hboot, frame, flags, hmapped, husable, hdrawn ▸ hnot⟩

end Boot
