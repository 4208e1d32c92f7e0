/-
A boot that reaches user mode.

`kernel_main` unwraps whatever goes wrong, so the question is when nothing does.
The heap and the stack always have the same 29 pages; those of the image are
known from the headers of the child process (`Elf.imagePages`).  If none of
these pages is in use and the memory map has frames for them and for their page
tables, the heap has room for the collections of the load, and the child process
is a file that can be loaded, every loop runs to its end.

* `mapHeapPages_returns`, `initThreadData_returns`, `mapStackPages_returns` —
  the stages before the load;
* `kernelMain_returns`, `kernelMain_needs` — the pages are enough, and needed;
* `kernelMain_returns_iff` — so the boot reaches user mode iff they are free.
-/
import ZuluOs.BootHeap
import ZuluOs.ElfReturns

open BootInfoFrameAllocator PageTableFlags

namespace Boot

variable {M : Type} {mapper : Mapper M BootInfoFrameAllocator}
  {parse : List UInt8 → Option Elf.ElfHeaders} {collections : List HeapUse} {o : Overflow}
  {memoryMap : List MemoryRegion} {childProcess : List UInt8} {rsp : UInt64} {m : M}
  {a : BootInfoFrameAllocator} {mem : PhysMemory} {elf : Elf.ElfHeaders}
  {text : Elf.ProgramHeader64} {k n : ℕ}

/-! ### The stages before the load -/

theorem mapHeapPages_returns (hl : mapper.Lawful) (hserves : mapper.Serves memoryMap k)
    (hdisj : DisjointRegions memoryMap)
    (hfree : ∀ page ∈ kernelHeap, mapper.table m page = .notMapped)
    (hsupply : Supply memoryMap (kernelHeap.length * (k + 1) + n) a) :
    ∃ m' a', kernelHeap.foldlM (mapHeapPage mapper o) (m, a) = .ok (m', a') ∧
      Supply memoryMap n a' := by
  refine mapLoop_returns id ?_ (List.nodup_append.mp nodup_bootPages).1 hfree hsupply
  intro m a page n hunmapped hsupply
  obtain ⟨frame, a₁, m', a', halloc, hmap, hsame, hleft⟩ :=
    hserves.mapsFresh (ε := MapToError) (o := o) hl hdisj hunmapped hsupply (PRESENT ∪ WRITABLE)
  refine ⟨m', a', ?_, hsame, hleft⟩
  simp only [mapHeapPage, halloc, Outcome.ok_bind, Outcome.okOr]
  exact hmap

theorem mapStackPages_returns (hl : mapper.Lawful) (hserves : mapper.Serves memoryMap k)
    (hdisj : DisjointRegions memoryMap)
    (hfree : ∀ page ∈ stackPages, mapper.table m page = .notMapped)
    (hsupply : Supply memoryMap (stackPages.length * (k + 1) + n) a) :
    ∃ m' a', (stackPages.foldlM (mapStackPage mapper o) (m, a) : Outcome Empty _) = .ok (m', a') ∧
      Supply memoryMap n a' := by
  refine mapLoop_returns id ?_ (List.nodup_append.mp nodup_bootPages).2.1 hfree hsupply
  intro m a page n hunmapped hsupply
  obtain ⟨frame, a₁, m', a', halloc, hmap, hsame, hleft⟩ :=
    hserves.mapsFresh (ε := Empty) (o := o) hl hdisj hunmapped hsupply
      (PRESENT ∪ USER_ACCESSIBLE ∪ WRITABLE)
  refine ⟨m', a', ?_, hsame, hleft⟩
  simp only [id_eq] at hmap
  simp only [mapStackPage, halloc, Outcome.ok_bind, Outcome.unwrap, hmap, Outcome.unwrapResult]

/-- The box is allocated and filled, once its page is mapped. -/
theorem initThreadData_returns (mem : PhysMemory) (rsp : UInt64) {pt : PageTable}
    (hheap : ∀ page ∈ kernelHeap, ∃ frame, pt page = .mapped frame (PRESENT ∪ WRITABLE)) :
    ∃ gsBase mem' heap,
      (initThreadData o pt mem newHeap rsp : Outcome Empty _) = .ok (gsBase, mem', heap) := by
  have hptr : newHeap.newPtr = HEAP_START := by decide
  have hstart : Canonical HEAP_START := by decide
  obtain ⟨mem', hstores⟩ : ∃ mem', (pt.storeBytes (threadDataWrites rsp) mem : Outcome Empty _)
      = .ok mem' := by
    refine Outcome.foldlM_total (fun w hw mem => ?_) mem
    obtain ⟨hlo, hhi⟩ := addr_of_mem_box hw
    have hbounds := heap_bounds
    exact storeByte_returns hheap hlo (by omega) w.2 mem
  rw [PageTable.storeBytes, threadDataWrites, List.foldlM_map] at hstores
  rw [initThreadData, BumpAllocator.alloc_eq, Outcome.ok_bind, hptr]
  dsimp only
  rw [if_neg (by decide), VirtAddr.new_of_canonical hstart]
  exact ⟨_, mem', _, Outcome.bind_eq_ok.mpr ⟨mem', hstores, rfl⟩⟩

/-! ### The boot -/

/-- With a child process that can be loaded, and room for the collections, the boot
returns if the pages it needs are not in use and the memory map has `k + 1` frames
for each of them. -/
theorem kernelMain_returns (hl : mapper.Lawful) (hserves : mapper.Serves memoryMap k)
    (hdisj : DisjointRegions memoryMap) (hparse : parse childProcess = some elf)
    (hloadable : Elf.Loadable elf childProcess text)
    (hroom : 16 + requested collections ≤ HEAP_SIZE)
    (hapart : ∀ page ∈ kernelHeap ++ stackPages, page ∉ Elf.imagePages text elf)
    (hfree : ∀ page ∈ kernelHeap ++ stackPages ++ Elf.imagePages text elf,
      mapper.table m page = .notMapped)
    (hframes : (29 + (Elf.imagePages text elf).length) * (k + 1) ≤ (usableFrames memoryMap).length) :
    ∃ boot, kernelMain mapper parse collections o memoryMap childProcess rsp m mem = .ok boot ∧
      (boot.bin.entryPoint.addr : ℤ) = elf.eEntry.toNat + Elf.displacement text := by
  simp only [List.forall_mem_append] at hfree hapart
  obtain ⟨⟨hfree₁, hfree₂⟩, hfree₃⟩ := hfree
  obtain ⟨hapart₁, hapart₂⟩ := hapart
  have hnodup := (List.nodup_append.mp nodup_bootPages).2.2
  have hsupply : Supply memoryMap (kernelHeap.length * (k + 1) + (stackPages.length * (k + 1)
      + (Elf.imagePages text elf).length * (k + 1))) (.init memoryMap) := by
    refine ⟨rfl, ?_⟩
    have hlen : kernelHeap.length = 25 ∧ stackPages.length = 4 := by decide +kernel
    rw [hlen.1, hlen.2, ← Nat.add_mul, ← Nat.add_mul, ← Nat.add_assoc]
    exact (Nat.zero_add _).trans_le hframes
  -- the heap, and the box on its first page
  obtain ⟨m₁, a₁, hheap, hsupply₁⟩ := mapHeapPages_returns (o := o) hl hserves hdisj hfree₁ hsupply
  obtain ⟨hrest₁, hpages₁⟩ := mapHeapPages_table hl hheap
  obtain ⟨gsBase, mem₁, heap, hbox⟩ := initThreadData_returns (o := o) mem rsp
    fun page hpage => (hpages₁ page hpage).2
  -- the stack, which the heap has left unmapped
  have hfree₂' : ∀ page ∈ stackPages, mapper.table m₁ page = .notMapped := by
    intro page hpage
    rw [hrest₁ page fun p hp heq => hnodup p hp page hpage heq.symm]
    exact hfree₂ page hpage
  obtain ⟨m₂, a₂, hstack, hsupply₂⟩ :=
    mapStackPages_returns (o := o) hl hserves hdisj hfree₂' hsupply₁
  -- the collections, on pages of the heap that the stack has left mapped
  have hheap₂ : ∀ page ∈ kernelHeap, ∃ frame,
      mapper.table m₂ page = .mapped frame (PRESENT ∪ WRITABLE) := by
    intro page hpage
    rw [(mapStackPages_table hl hstack).1 page fun p hp heq => hnodup page hpage p hp heq]
    exact (hpages₁ page hpage).2
  obtain ⟨-, rfl, -⟩ := initThreadData_eq_ok hbox
  obtain ⟨⟨mem₂, heap⟩, huses⟩ : ∃ st, (collections.foldlM (useHeap o (mapper.table m₂))
      (mem₁, ⟨heapWithBox, []⟩) : Outcome Empty _) = .ok st :=
    uses_return Behind.init (by omega) hheap₂
  -- and the image, which both have
  have hfree₃' : ∀ page ∈ Elf.imagePages text elf, mapper.table m₂ page = .notMapped := by
    intro page hpage
    rw [(mapStackPages_table hl hstack).1 page fun p hp heq => hapart₂ p hp (heq ▸ hpage),
      hrest₁ page fun p hp heq => hapart₁ p hp (heq ▸ hpage)]
    exact hfree₃ page hpage
  obtain ⟨bin, m₃, a₃, mem₃, hload, hentry⟩ := Elf.load_returns (o := o) mem₂ hl hserves
    hdisj hparse hloadable hfree₃' hsupply₂
  have hinit : (initKernelHeap mapper o (m, .init memoryMap)) = .ok (m₁, a₁, newHeap) := by
    rw [initKernelHeap, heapPages_eq, Outcome.ok_bind, hheap, Outcome.ok_bind]
    dsimp only
    rw [init_eq, Outcome.ok_bind]
  refine ⟨⟨m₃, a₃, mem₃, heap, gsBase, bin, 0xDEADF000⟩, ?_, hentry⟩
  refine Outcome.bind_eq_ok.mpr ⟨_, Outcome.unwrapResult_eq_ok.mpr hinit, ?_⟩
  refine Outcome.bind_eq_ok.mpr ⟨_, hbox, ?_⟩
  refine Outcome.bind_eq_ok.mpr ⟨_, userStack_eq o, ?_⟩
  refine Outcome.bind_eq_ok.mpr ⟨_, hstack, ?_⟩
  refine Outcome.bind_eq_ok.mpr ⟨_, huses, ?_⟩
  refine Outcome.bind_eq_ok.mpr ⟨_, hload, ?_⟩
  refine Outcome.bind_eq_ok.mpr ⟨_, lowestStackPage_eq, ?_⟩
  exact Outcome.bind_eq_ok.mpr ⟨_, topOfStack_eq, rfl⟩

/-- No page that the boot maps was in use, and no two of them are the same. -/
theorem kernelMain_needs (hl : mapper.Lawful) (hparse : parse childProcess = some elf)
    (hloadable : Elf.Loadable elf childProcess text) {boot : Booted M}
    (h : kernelMain mapper parse collections o memoryMap childProcess rsp m mem = .ok boot) :
    (∀ page ∈ kernelHeap ++ stackPages, page ∉ Elf.imagePages text elf) ∧
      ∀ page ∈ kernelHeap ++ stackPages ++ Elf.imagePages text elf,
        mapper.table m page = .notMapped := by
  obtain ⟨m₁, a₁, m₂, a₂, mem₁, hheap, hstack, hload⟩ := kernelMain_eq_ok h
  obtain ⟨hrest₁, hpages₁⟩ := mapHeapPages_table hl hheap
  obtain ⟨hrest₂, hpages₂⟩ := mapStackPages_table hl hstack
  have hnodup := (List.nodup_append.mp nodup_bootPages).2.2
  -- the pages of the image are those that the headers say, and unmapped up to the load
  obtain ⟨text', htext, hsegments⟩ := Elf.load_segments hparse hload
  obtain rfl := Option.some.inj (hloadable.text_eq.symm.trans htext)
  obtain ⟨_, -, himage, -⟩ := Elf.load_copy hl hload
  have hbefore : ∀ page ∈ Elf.imagePages text elf, mapper.table m₂ page = .notMapped :=
    fun page hpage => (himage page ((Elf.mem_imagePages hloadable.headers hsegments).mp hpage)).1
  have hsame : ∀ page ∉ stackPages, mapper.table m₂ page = mapper.table m₁ page :=
    fun page hpage => hrest₂ page fun p hp heq => hpage (heq ▸ hp)
  have hstackFree : ∀ page ∈ stackPages, page ∉ Elf.imagePages text elf := by
    intro page hpage hin
    obtain ⟨-, frame, hmapped⟩ := hpages₂ page hpage
    rw [hbefore page hin] at hmapped
    cases hmapped
  have hheapFree : ∀ page ∈ kernelHeap, page ∉ Elf.imagePages text elf := by
    intro page hpage hin
    obtain ⟨-, frame, hmapped⟩ := hpages₁ page hpage
    rw [← hsame page fun hs => hnodup page hpage page hs rfl, hbefore page hin] at hmapped
    cases hmapped
  refine ⟨List.forall_mem_append.mpr ⟨hheapFree, hstackFree⟩, ?_⟩
  rw [List.forall_mem_append, List.forall_mem_append]
  refine ⟨⟨fun page hpage => (hpages₁ page hpage).1, fun page hpage => ?_⟩, fun page hpage => ?_⟩
  · rw [← hrest₁ page fun p hp heq => hnodup p hp page hpage heq.symm]
    exact (hpages₂ page hpage).1
  · rw [← hrest₁ page fun p hp heq => hheapFree p hp (heq ▸ hpage),
      ← hsame page fun hs => hstackFree page hs hpage]
    exact hbefore page hpage

/-- **The boot reaches user mode**, at the entry point of the child process moved
as its text is, iff the pages of the heap, of the stack and of the image are
different pages that are not in use; given a child process that can be loaded,
room on the heap for what the load allocates there, and `k + 1` frames for each
page. -/
theorem kernelMain_returns_iff (hl : mapper.Lawful) (hserves : mapper.Serves memoryMap k)
    (hdisj : DisjointRegions memoryMap) (hparse : parse childProcess = some elf)
    (hloadable : Elf.Loadable elf childProcess text)
    (hroom : 16 + requested collections ≤ HEAP_SIZE)
    (hframes : (29 + (Elf.imagePages text elf).length) * (k + 1) ≤ (usableFrames memoryMap).length) :
    (∃ boot, kernelMain mapper parse collections o memoryMap childProcess rsp m mem = .ok boot ∧
      (boot.bin.entryPoint.addr : ℤ) = elf.eEntry.toNat + Elf.displacement text) ↔
    (∀ page ∈ kernelHeap ++ stackPages, page ∉ Elf.imagePages text elf) ∧
      ∀ page ∈ kernelHeap ++ stackPages ++ Elf.imagePages text elf,
        mapper.table m page = .notMapped := by
  constructor
  · rintro ⟨boot, h, -⟩
    exact kernelMain_needs hl hparse hloadable h
  · rintro ⟨hapart, hfree⟩
    exact kernelMain_returns hl hserves hdisj hparse hloadable hroom hapart hfree hframes

/-- The file of two segments can be loaded. -/
theorem loadable_sharedPage : Elf.Loadable Elf.sharedPageElf [0xeb, 0xfe, 0x2a]
    ⟨1, Elf.PF_R ||| Elf.PF_X, 0, 0x1000, 2, 0x10, 0x1000⟩ where
  text_eq := by decide
  entry := by decide
  headers := by
    have hfits : ∀ h ∈ Elf.sharedPageElf.programHeaders.filter (·.kept),
        Elf.MovesLow ⟨1, Elf.PF_R ||| Elf.PF_X, 0, 0x1000, 2, 0x10, 0x1000⟩ h.pVaddr.toNat
            h.pMemsz.toNat ∧
          h.pOffset.toNat + h.pFilesz.toNat ≤ 3 ∧ h.pFilesz.toNat ≤ h.pMemsz.toNat ∧
          h.pVaddr.toNat + Elf.displacement
            ⟨1, Elf.PF_R ||| Elf.PF_X, 0, 0x1000, 2, 0x10, 0x1000⟩ ≠ 0 := by
      decide
    intro h hh
    obtain ⟨hmoves, hrange, hsize, hnull⟩ := hfits h hh
    exact ⟨hmoves, by omega, fun _ => ⟨hrange, hsize, hnull⟩⟩

theorem kernelMain_returns_iff_sharedPage :
    ∃ boot, bootSharedPage = .ok boot ∧ (boot.bin.entryPoint.addr : ℤ) = 0x660000 := by
  have hdisj : DisjointRegions bootMap := List.pairwise_singleton _ _
  exact (kernelMain_returns_iff (drawingMapper_lawful .panic 1)
    (drawingMapper_serves .panic 1 hdisj) hdisj rfl loadable_sharedPage (by decide)
    (by decide +kernel)).mpr ⟨by decide +kernel, fun _ _ => rfl⟩

end Boot
