/-
The kernel heap over the boot.

`init_thread_data` puts the kernel's `rsp` in a box on the new heap and points the
GS base to it, before the user stack is mapped and the program is loaded.  The
collections of the load then take blocks behind it, and store to them.  As long as
they ask for no more than there is left, they stay in the heap and behind the box.

* `useHeap_cases` — everything one use of the heap can do;
* `Behind.uses` — the blocks are behind the box, within what was asked for, and
  nothing else is stored to;
* `useHeap_returns` — and there is room for them;
* `kernelMain_threadData` — the box is the first block of the heap, and keeps
  its contents;
* `kernelMain_fresh` — what nobody has asked for, and the user stack, are not
  cleared;
* `kernelMain_boxLeaked` — and the box is never handed out again.
-/
import ZuluOs.BumpThreads
import ZuluOs.UserMemory

open BootInfoFrameAllocator PageTableFlags Transition

namespace Boot

variable {M : Type} {mapper : Mapper M BootInfoFrameAllocator}
  {parse : List UInt8 → Option Elf.ElfHeaders} {collections : List HeapUse} {o : Overflow}
  {memoryMap : List MemoryRegion} {childProcess : List UInt8} {rsp : UInt64} {m : M}
  {mem mem' : PhysMemory} {boot : Booted M} {elf : Elf.ElfHeaders} {tables : M → List PhysFrame}

/-! ### The box -/

/-- The stores that fill the box. -/
def threadDataWrites (rsp : UInt64) : List (ℕ × UInt8) :=
  (leBytes rsp ++ leBytes 0).zipIdx.map fun (b, i) => (HEAP_START + i, b)

/-- `ALLOCATOR` after `init_kernel_heap`, and after `init_thread_data`. -/
def newHeap : BumpAllocator := ⟨HEAP_START, HEAP_START + HEAP_SIZE, HEAP_START⟩

def heapWithBox : BumpAllocator := newHeap.fetchAdd threadDataLayout.rounded

/-- The block of the box. -/
def threadDataBlock : Block := ⟨HEAP_START, threadDataLayout⟩

/-- The heap starts and ends on a page. -/
theorem heap_bounds : HEAP_START = 0x444444440000 ∧ HEAP_START + HEAP_SIZE = 0x444444459000 := by
  decide

theorem init_eq {ε : Type} :
    (BumpAllocator.init o HEAP_START HEAP_SIZE : Outcome ε _) = .ok newHeap := by
  rw [BumpAllocator.init, o.addU64_of_lt (by decide), Outcome.ok_bind]
  rfl

/-- The first block of the heap is at its start. -/
theorem initThreadData_eq_ok {ε : Type} {pt : PageTable} {heap : BumpAllocator} {gsBase : VirtAddr}
    (h : (initThreadData o pt mem newHeap rsp : Outcome ε _) = .ok (gsBase, mem', heap)) :
    gsBase.addr = HEAP_START ∧ heap = heapWithBox ∧
      (pt.storeBytes (threadDataWrites rsp) mem : Outcome ε _) = .ok mem' := by
  have hptr : newHeap.newPtr = HEAP_START := by decide
  rw [initThreadData, BumpAllocator.alloc_eq, Outcome.ok_bind, hptr] at h
  dsimp only at h
  rw [if_neg (by decide), VirtAddr.new_of_canonical (show Canonical HEAP_START by decide)] at h
  simp only [Outcome.bind_eq_ok, Outcome.ok_bind, Outcome.ok.injEq, Prod.mk.injEq] at h
  obtain ⟨_, hstores, rfl, rfl, rfl⟩ := h
  refine ⟨rfl, rfl, ?_⟩
  rw [PageTable.storeBytes, threadDataWrites, List.foldlM_map]
  exact hstores

theorem topOfStack_eq {ε : Type} :
    (o.addU64 (Page.ofNumber 0xDEADB).startAddress.addr stackSize : Outcome ε ℕ)
      = .ok 0xDEADF000 := by
  rw [o.addU64_of_lt (by decide)]
  exact congrArg Outcome.ok (by decide)

/-- A boot, with the box and the collections between its loops. -/
theorem kernelMain_box
    (h : kernelMain mapper parse collections o memoryMap childProcess rsp m mem = .ok boot) :
    ∃ m₁ a₁ m₂ a₂ mem₁ mem₂,
      kernelHeap.foldlM (mapHeapPage mapper o) (m, .init memoryMap) = .ok (m₁, a₁) ∧
      (stackPages.foldlM (mapStackPage mapper o) (m₁, a₁) : Outcome Empty _) = .ok (m₂, a₂) ∧
      (Elf.load mapper (BootInfoFrameAllocator.allocateFrame o) parse o childProcess m₂ a₂ mem₂ :
        Outcome Empty _) = .ok (boot.bin, boot.mapper, boot.frameAllocator, boot.memory) ∧
      ((mapper.table m₁).storeBytes (threadDataWrites rsp) mem : Outcome Empty _) = .ok mem₁ ∧
      (collections.foldlM (useHeap o (mapper.table m₂)) (mem₁, ⟨heapWithBox, []⟩) :
        Outcome Empty _) = .ok (mem₂, boot.heap) ∧
      boot.gsBase.addr = HEAP_START ∧ boot.topOfStack = 0xDEADF000 := by
  simp only [kernelMain, initKernelHeap, heapPages_eq, userStack_eq, init_eq, lowestStackPage_eq,
    topOfStack_eq, Outcome.ok_bind, Outcome.bind_eq_ok, Outcome.unwrapResult_eq_ok,
    Outcome.ok.injEq] at h
  obtain ⟨_, ⟨⟨m₁, a₁⟩, hheap, rfl⟩, ⟨gsBase, mem₁, heap⟩, hbox, ⟨m₂, a₂⟩, hstack,
    ⟨mem₂, heap'⟩, huses, ⟨bin, m₃, a₃, mem₃⟩, hload, rfl⟩ := h
  obtain ⟨hbase, rfl, hstores⟩ := initThreadData_eq_ok hbox
  exact ⟨m₁, a₁, m₂, a₂, mem₁, mem₂, hheap, hstack, hload, hstores, huses, hbase, rfl⟩

theorem mem_threadDataWrites {w : ℕ × UInt8} : w ∈ threadDataWrites rsp ↔
    ∃ i, w.1 = HEAP_START + i ∧ (leBytes rsp ++ leBytes 0)[i]? = some w.2 := by
  obtain ⟨a, b⟩ := w
  simp only [threadDataWrites, List.mem_map, List.mem_zipIdx_iff_getElem?, Prod.exists,
    Prod.mk.injEq]
  constructor
  · rintro ⟨b, i, hb, rfl, rfl⟩
    exact ⟨i, rfl, hb⟩
  · rintro ⟨i, rfl, hb⟩
    exact ⟨b, i, hb, rfl, rfl⟩

theorem lt_of_mem_box {i : ℕ} {b : UInt8} (h : (leBytes rsp ++ leBytes 0)[i]? = some b) :
    i < 16 :=
  (List.getElem?_eq_some_iff.mp h).1

/-- The bytes of the box. -/
theorem addr_of_mem_box {w : ℕ × UInt8} (hw : w ∈ threadDataWrites rsp) :
    HEAP_START ≤ w.1 ∧ w.1 < HEAP_START + 16 := by
  obtain ⟨i, hi, hb⟩ := mem_threadDataWrites.mp hw
  have hlt := lt_of_mem_box hb
  omega

/-- The box is on one page, which its stores go over once. -/
theorem pairwise_threadDataWrites (pt : PageTable) (rsp : UInt64) :
    (threadDataWrites rsp).Pairwise fun w w' =>
      ∀ frame i, pt.Backs w.1 frame i → ¬ pt.Backs w'.1 frame i := by
  have hnodup : (threadDataWrites rsp).Pairwise fun w w' => w.1 ≠ w'.1 := by
    rw [← List.pairwise_map (f := Prod.fst), threadDataWrites, List.map_map]
    show ((List.zipIdx _).map ((fun i => HEAP_START + i) ∘ Prod.snd)).Nodup
    rw [← List.map_map, List.zipIdx_map_snd]
    exact (List.nodup_range' 1).map (add_right_injective HEAP_START)
  refine hnodup.imp_of_mem ?_
  rintro w w' hw hw' hne frame i ⟨v, hv, -, rfl⟩ ⟨v', hv', -, hoffset⟩
  obtain ⟨hlo, hhi⟩ := addr_of_mem_box hw
  obtain ⟨hlo', hhi'⟩ := addr_of_mem_box hw'
  unfold HEAP_START at hlo hhi hlo' hhi'
  omega

/-- The bytes of the heap are on its pages. -/
theorem mem_kernelHeap_of_range {x : ℕ} (hlo : HEAP_START ≤ x) (hhi : x < HEAP_START + HEAP_SIZE)
    {v : VirtAddr} (hv : v.addr = x) : Page.containingAddress v ∈ kernelHeap :=
  mem_kernelHeap.mpr ⟨v, hv ▸ hlo, by omega, rfl⟩

/-- A byte of the heap can be stored to, once its page is mapped. -/
theorem storeByte_returns {pt : PageTable}
    (hheap : ∀ page ∈ kernelHeap, ∃ frame, pt page = .mapped frame (PRESENT ∪ WRITABLE)) {x : ℕ}
    (hlo : HEAP_START ≤ x) (hhi : x < HEAP_START + HEAP_SIZE) (b : UInt8) (mem : PhysMemory) :
    ∃ mem', (pt.storeByte mem x b : Outcome Empty _) = .ok mem' := by
  have hcanon : Canonical x := by
    rw [heap_bounds.2] at hhi
    exact .inl (by omega)
  obtain ⟨frame, hmapped⟩ := hheap _ (mem_kernelHeap_of_range hlo hhi (v := ⟨x, hcanon⟩) rfl)
  rw [PageTable.storeByte, dif_pos hcanon, PageTable.translate, hmapped]
  exact ⟨_, if_pos (by decide)⟩

/-! ### One use of the heap -/

variable {pt : PageTable} {heap heap' : Heap} {u : HeapUse} {limit : ℕ}

/-- Everything one use can do. -/
theorem useHeap_cases (h : (useHeap o pt (mem, heap) u : Outcome Empty _) = .ok (mem', heap')) :
    (∃ layout hsize, u = .alloc layout hsize ∧ heap.bump.newPtr ≠ 0 ∧ mem' = mem ∧
      heap' = ⟨heap.bump.fetchAdd layout.rounded,
        ⟨heap.bump.newPtr, layout⟩ :: heap.live⟩) ∨
    (∃ k b bump, u = .dealloc k ∧ b ∈ heap.live ∧
      (heap.bump.dealloc o b.ptr b.layout : Outcome Empty _) = .ok bump ∧ mem' = mem ∧
      heap' = ⟨bump, heap.live.erase b⟩) ∨
    (∃ k i byte b, u = .write k i byte ∧ b ∈ heap.live ∧ i < b.layout.size ∧
      (pt.storeByte mem (b.ptr + i) byte : Outcome Empty _) = .ok mem' ∧ heap' = heap) ∨
    mem' = mem ∧ heap' = heap := by
  have hsame : (.ok (mem, heap) : Outcome Empty _) = .ok (mem', heap') →
      mem' = mem ∧ heap' = heap := by
    intro h
    obtain ⟨rfl, rfl⟩ := Prod.mk.inj (Outcome.ok.inj h)
    exact ⟨rfl, rfl⟩
  cases u with
  | alloc layout hsize =>
    rw [useHeap, BumpAllocator.alloc_eq, Outcome.ok_bind] at h
    dsimp only at h
    split at h
    · cases h
    · obtain ⟨rfl, rfl⟩ := Prod.mk.inj (Outcome.ok.inj h)
      exact .inl ⟨layout, hsize, rfl, ‹_›, rfl, rfl⟩
  | dealloc k =>
    rw [useHeap] at h
    split at h
    · next b hb =>
      rw [Outcome.bind_eq_ok] at h
      obtain ⟨bump, hbump, h⟩ := h
      obtain ⟨rfl, rfl⟩ := Prod.mk.inj (Outcome.ok.inj h)
      exact .inr (.inl ⟨k, b, bump, rfl, List.mem_of_getElem? hb, hbump, rfl, rfl⟩)
    · exact .inr (.inr (.inr (hsame h)))
  | write k i byte =>
    rw [useHeap] at h
    split at h
    · next b hb =>
      split at h
      · rw [Outcome.bind_eq_ok] at h
        obtain ⟨mem₁, hstore, h⟩ := h
        obtain ⟨rfl, rfl⟩ := Prod.mk.inj (Outcome.ok.inj h)
        exact .inr (.inr (.inl
          ⟨k, i, byte, b, rfl, List.mem_of_getElem? hb, ‹_›, hstore, rfl⟩))
      · exact .inr (.inr (.inr (hsame h)))
    · exact .inr (.inr (.inr (hsame h)))

/-- The bytes a use takes from the heap. -/
def HeapUse.request : HeapUse → ℕ
  | .alloc layout _ => layout.rounded
  | _ => 0

def requested (uses : List HeapUse) : ℕ := (uses.map HeapUse.request).sum

/-- The blocks of the collections are behind the box and end at or below `limit`. -/
structure Behind (limit : ℕ) (heap : Heap) : Prop where
  end_eq : heap.bump.heapEnd = HEAP_START + HEAP_SIZE
  next_mem : HEAP_START + 16 ≤ heap.bump.next ∧ heap.bump.next ≤ limit
  live_mem : ∀ b ∈ heap.live, HEAP_START + 16 ≤ b.ptr ∧ b.ptr + b.layout.size ≤ limit

theorem Behind.init : Behind (HEAP_START + 16) ⟨heapWithBox, []⟩ :=
  ⟨by decide, by decide, fun _ hb => by cases hb⟩

/-- A use keeps the blocks behind the box, and stores to them only. -/
theorem Behind.use (hI : Behind limit heap) (hroom : limit + u.request ≤ HEAP_START + HEAP_SIZE)
    (h : (useHeap o pt (mem, heap) u : Outcome Empty _) = .ok (mem', heap')) :
    Behind (limit + u.request) heap' ∧ ∀ frame i,
      (∀ x, HEAP_START + 16 ≤ x → x < limit → ¬ pt.Backs x frame i) →
        mem' frame i = mem frame i := by
  obtain ⟨hend, ⟨hlo, hhi⟩, hlive⟩ := hI
  rw [heap_bounds.2] at hroom
  rcases useHeap_cases h with ⟨layout, hsize, rfl, hptr, rfl, rfl⟩ |
    ⟨k, b, bump, rfl, hb, hbump, rfl, rfl⟩ | ⟨k, j, byte, b, rfl, hb, hj, hstore, rfl⟩ | ⟨rfl, rfl⟩
  · change limit + layout.rounded ≤ _ at hroom
    have hnext : (heap.bump.fetchAdd layout.rounded).next = heap.bump.next + layout.rounded :=
      Nat.mod_eq_of_lt (by omega)
    refine ⟨⟨hend, ?_, List.forall_mem_cons.mpr ⟨?_, fun b hb => ?_⟩⟩, fun _ _ _ => rfl⟩
    · show HEAP_START + 16 ≤ (heap.bump.fetchAdd layout.rounded).next ∧
        (heap.bump.fetchAdd layout.rounded).next ≤ limit + layout.rounded
      omega
    · have hle := layout.size_le_rounded
      show HEAP_START + 16 ≤ heap.bump.newPtr ∧
        heap.bump.newPtr + layout.size ≤ limit + layout.rounded
      rw [(BumpAllocator.newPtr_of_ne_zero hptr).1]
      omega
    · obtain ⟨hstart, hstop⟩ := hlive b hb
      exact ⟨hstart, hstop.trans (Nat.le_add_right _ _)⟩
  · obtain ⟨hstart, hstop⟩ := hlive b hb
    have hrest : ∀ c ∈ heap.live.erase b, HEAP_START + 16 ≤ c.ptr ∧ c.ptr + c.layout.size ≤ limit :=
      fun c hc => hlive c (List.mem_of_mem_erase hc)
    rcases BumpAllocator.dealloc_cases (show b.ptr < 2 ^ 64 by omega) hbump with rfl | ⟨-, rfl⟩
    · exact ⟨⟨hend, ⟨hlo, hhi⟩, hrest⟩, fun _ _ _ => rfl⟩
    · exact ⟨⟨hend, ⟨hstart, show b.ptr ≤ limit by omega⟩, hrest⟩, fun _ _ _ => rfl⟩
  · obtain ⟨hstart, hstop⟩ := hlive b hb
    refine ⟨⟨hend, ⟨hlo, hhi⟩, hlive⟩, fun frame i hother => ?_⟩
    have hstores : (pt.storeBytes [(b.ptr + j, byte)] mem : Outcome Empty _) = .ok mem' := by
      rw [PageTable.storeBytes, List.foldlM_cons, hstore]
      rfl
    refine PageTable.storeBytes_other hstores ?_
    intro w hw
    obtain rfl := List.mem_singleton.mp hw
    exact hother _ (show _ ≤ b.ptr + j by omega) (show b.ptr + j < _ by omega)
  · exact ⟨⟨hend, ⟨hlo, hhi.trans (Nat.le_add_right _ _)⟩, fun b hb =>
      ⟨(hlive b hb).1, (hlive b hb).2.trans (Nat.le_add_right _ _)⟩⟩, fun _ _ _ => rfl⟩

/-- **All uses of the heap**: they stay behind the box, within what was asked for. -/
theorem Behind.uses {uses : List HeapUse} (hI : Behind limit heap)
    (hroom : limit + requested uses ≤ HEAP_START + HEAP_SIZE)
    (h : (uses.foldlM (useHeap o pt) (mem, heap) : Outcome Empty _) = .ok (mem', heap')) :
    Behind (limit + requested uses) heap' ∧ ∀ frame i,
      (∀ x, HEAP_START + 16 ≤ x → x < limit + requested uses → ¬ pt.Backs x frame i) →
        mem' frame i = mem frame i := by
  induction uses generalizing limit mem heap with
  | nil =>
    obtain ⟨rfl, rfl⟩ := Prod.mk.inj (Outcome.ok.inj h)
    exact ⟨hI, fun _ _ _ => rfl⟩
  | cons u uses ih =>
    rw [List.foldlM_cons, Outcome.bind_eq_ok] at h
    obtain ⟨⟨mem₁, heap₁⟩, hfirst, hrest⟩ := h
    have hsum : limit + requested (u :: uses) = limit + u.request + requested uses := by
      rw [requested, List.map_cons, List.sum_cons, ← Nat.add_assoc]
      rfl
    rw [hsum] at hroom ⊢
    obtain ⟨hI₁, hkept₁⟩ := hI.use (by omega) hfirst
    obtain ⟨hI₂, hkept₂⟩ := ih hI₁ hroom hrest
    refine ⟨hI₂, fun frame i hother => ?_⟩
    rw [hkept₂ frame i hother, hkept₁ frame i fun x hlo hhi => hother x hlo (by omega)]

/-- One use for which there is room can be made. -/
theorem useHeap_returns (hI : Behind limit heap)
    (hroom : limit + u.request ≤ HEAP_START + HEAP_SIZE)
    (hheap : ∀ page ∈ kernelHeap, ∃ frame, pt page = .mapped frame (PRESENT ∪ WRITABLE)) :
    ∃ st, (useHeap o pt (mem, heap) u : Outcome Empty _) = .ok st := by
  obtain ⟨hend, ⟨hlo, hhi⟩, hlive⟩ := hI
  have hbounds := heap_bounds
  cases u with
  | alloc layout hsize =>
    have hptr : heap.bump.newPtr ≠ 0 := by
      rw [BumpAllocator.newPtr, hend, if_neg (by omega)]
      omega
    rw [useHeap, BumpAllocator.alloc_eq, Outcome.ok_bind]
    exact ⟨_, if_neg hptr⟩
  | dealloc k =>
    rw [useHeap]
    split
    · next b hb =>
      obtain ⟨hstart, hstop⟩ := hlive b (List.mem_of_getElem? hb)
      have hlt := b.layout.rounded_lt
      rw [BumpAllocator.dealloc, alignUp_layout, Outcome.ok_bind, o.addU64_of_lt (by omega),
        Outcome.ok_bind]
      split
      · rw [o.subU64_of_le (by omega)]
        exact ⟨_, rfl⟩
      · exact ⟨_, rfl⟩
    · exact ⟨_, rfl⟩
  | write k i byte =>
    rw [useHeap]
    split
    · next b hb =>
      obtain ⟨hstart, hstop⟩ := hlive b (List.mem_of_getElem? hb)
      split
      · obtain ⟨mem₁, hstore⟩ := storeByte_returns hheap (x := b.ptr + i) (by omega) (by omega)
          byte mem
        rw [hstore]
        exact ⟨_, rfl⟩
      · exact ⟨_, rfl⟩
    · exact ⟨_, rfl⟩

theorem uses_return {uses : List HeapUse} (hI : Behind limit heap)
    (hroom : limit + requested uses ≤ HEAP_START + HEAP_SIZE)
    (hheap : ∀ page ∈ kernelHeap, ∃ frame, pt page = .mapped frame (PRESENT ∪ WRITABLE)) :
    ∃ st, (uses.foldlM (useHeap o pt) (mem, heap) : Outcome Empty _) = .ok st := by
  induction uses generalizing limit mem heap with
  | nil => exact ⟨_, rfl⟩
  | cons u uses ih =>
    have hsum : limit + requested (u :: uses) = limit + u.request + requested uses := by
      rw [requested, List.map_cons, List.sum_cons, ← Nat.add_assoc]
      rfl
    rw [hsum] at hroom
    obtain ⟨⟨mem₁, heap₁⟩, hfirst⟩ := useHeap_returns (o := o) hI
      (show limit + u.request ≤ _ by omega) hheap
    obtain ⟨st, hrest⟩ := ih (hI.use (by omega) hfirst).1 hroom
    exact ⟨st, by rw [List.foldlM_cons, hfirst]; exact hrest⟩

/-! ### What the boot keeps -/

theorem mem_stackPages {page : Page} : page ∈ stackPages ↔ ∃ v : VirtAddr,
    0xDEADB000 ≤ v.addr ∧ v.addr ≤ 0xDEADEFFF ∧ Page.containingAddress v = page := by
  have hpages : stackPages = Page.rangeInclusive (.containingAddress ⟨0xDEADB000, by decide⟩)
      (.containingAddress ⟨0xDEADEFFF, by decide⟩) := by
    decide
  rw [hpages]
  exact Page.mem_rangeInclusive_iff_exists (by decide) (by decide)

/-- The box is filled through a table that has the pages of the heap where they
stay, and what follows leaves the heap and the stack alone, the blocks of the
collections apart.  No two of these pages share a frame. -/
theorem kernelMain_kept (hl : mapper.Lawful) (hd : mapper.Draws o tables)
    (hdisj : DisjointRegions memoryMap)
    (h : kernelMain mapper parse collections o memoryMap childProcess rsp m mem = .ok boot)
    (hfits : ∀ s ∈ boot.bin.loadSegments,
      s.fileLen ≤ s.addr.len ∧ s.addr.start.addr + s.addr.len < 2 ^ 64)
    (hroom : 16 + requested collections ≤ HEAP_SIZE) :
    ∃ m₁ mem₁,
      ((mapper.table m₁).storeBytes (threadDataWrites rsp) mem : Outcome Empty _) = .ok mem₁ ∧
      (∀ page ∈ kernelHeap, mapper.table boot.mapper page = mapper.table m₁ page) ∧
      (∀ page ∈ kernelHeap ++ stackPages, ∃ frame flags,
        mapper.table boot.mapper page = .mapped frame flags ∧ ∀ i,
          (∀ x, HEAP_START + 16 ≤ x → x < HEAP_START + 16 + requested collections →
            ¬ (mapper.table boot.mapper).Backs x frame i) →
          boot.memory frame i = mem₁ frame i) ∧
      ∀ p ∈ kernelHeap ++ stackPages, ∀ q ∈ kernelHeap ++ stackPages, ∀ frame flags flags',
        mapper.table boot.mapper p = .mapped frame flags →
        mapper.table boot.mapper q = .mapped frame flags' → p = q := by
  obtain ⟨m₁, a₁, m₂, a₂, mem₁, mem₂, hheap, hstack, hload, hstores, huses, -, -⟩ :=
    kernelMain_box h
  obtain ⟨-, hpages₁⟩ := mapHeapPages_table hl hheap
  obtain ⟨hrest₂, hpages₂⟩ := mapStackPages_table hl hstack
  have hsame : ∀ page ∈ kernelHeap, mapper.table m₂ page = mapper.table m₁ page :=
    fun page hpage => hrest₂ page fun p hp heq =>
      (List.nodup_append.mp nodup_bootPages).2.2 page hpage p hp heq
  -- a page that is mapped is none of the image
  have hnot : ∀ page ∈ kernelHeap ++ stackPages, ¬ Elf.InImage o boot.bin page := by
    obtain ⟨_, -, himage, -⟩ := Elf.load_copy hl hload
    intro page hpage hin
    have hbefore := (himage page hin).1
    rcases List.mem_append.mp hpage with hpage | hpage
    · obtain ⟨-, _, hmapped⟩ := hpages₁ page hpage
      rw [hsame page hpage, hmapped] at hbefore
      cases hbefore
    · obtain ⟨-, _, hmapped⟩ := hpages₂ page hpage
      rw [hmapped] at hbefore
      cases hbefore
  have hinit : InStock memoryMap (.init memoryMap) := ⟨rfl, Nat.zero_le _⟩
  have hI₁ := (Owned.nil hinit).mapLoop (m := m) hl hd hdisj mapHeapPage_fresh hheap
  have hI₂ := hI₁.mapLoop hl hd hdisj mapStackPage_fresh hstack
  obtain ⟨pages, hI₃, hpages⟩ := Elf.load_owned hl hd hdisj hI₂ hload
  have hmem : ∀ page ∈ kernelHeap ++ stackPages, page ∈ pages := by
    intro page hpage
    refine (hpages page).mpr (.inr ?_)
    simpa [or_comm] using hpage
  have hloaded : ∀ page ∈ kernelHeap, mapper.table boot.mapper page = mapper.table m₂ page := by
    intro page hpage
    obtain ⟨_, -, -, hother⟩ := Elf.load_copy hl hload
    exact (hother page (hnot page (List.mem_append_left _ hpage))).2
  refine ⟨m₁, mem₁, hstores, fun page hpage => (hloaded page hpage).trans (hsame page hpage), ?_,
    ?_⟩
  · intro page hpage
    obtain ⟨frame, flags, hmapped, -⟩ := hI₃.backed page (hmem page hpage)
    refine ⟨frame, flags, hmapped, fun i hother => ?_⟩
    have hroom' : HEAP_START + 16 + requested collections ≤ HEAP_START + HEAP_SIZE := by omega
    have hcollected : mem₂ frame i = mem₁ frame i := by
      refine (Behind.init.uses hroom' huses).2 frame i fun x hlo hhi hback => hother x hlo hhi ?_
      obtain ⟨v, hv, ⟨flags', hentry⟩, hi⟩ := hback
      have hin := mem_kernelHeap_of_range (by omega) (hhi.trans_le hroom') hv
      exact ⟨v, hv, ⟨flags', (hloaded _ hin).trans hentry⟩, hi⟩
    -- the load stores to the frames of the image only
    obtain ⟨m₃, hcopy, -, hbacks⟩ := Elf.load_stores hl hload
    refine (PageTable.storeBytes_other hcopy ?_).trans hcollected
    intro w hw hback
    obtain ⟨v, hv, hin⟩ := Elf.inImage_of_fits hl hload (fun s hs => (hfits s hs).1)
      (fun s hs => (hfits s hs).2) hw
    obtain ⟨v', hv', ⟨flags', hmapped'⟩, -⟩ := (hbacks _ _ _).mp hback
    obtain rfl : v = v' := VirtAddr.ext (hv.trans hv'.symm)
    have heq := hI₃.apart _ (hmem page hpage) _ ((hpages _).mpr (.inl hin)) hmapped hmapped'
    exact hnot page hpage (heq ▸ hin)
  · intro p hp q hq frame flags flags' hpf hqf
    exact hI₃.apart p (hmem p hp) q (hmem q hq) hpf hqf

/-- A byte of the heap or of the stack, after the boot: only one address has it. -/
theorem kernelMain_byte (hl : mapper.Lawful) (hd : mapper.Draws o tables)
    (hdisj : DisjointRegions memoryMap)
    (h : kernelMain mapper parse collections o memoryMap childProcess rsp m mem = .ok boot)
    (hfits : ∀ s ∈ boot.bin.loadSegments,
      s.fileLen ≤ s.addr.len ∧ s.addr.start.addr + s.addr.len < 2 ^ 64)
    (hroom : 16 + requested collections ≤ HEAP_SIZE) :
    ∃ m₁ mem₁,
      ((mapper.table m₁).storeBytes (threadDataWrites rsp) mem : Outcome Empty _) = .ok mem₁ ∧
      (∀ page ∈ kernelHeap, mapper.table boot.mapper page = mapper.table m₁ page) ∧
      ∀ v : VirtAddr, Page.containingAddress v ∈ kernelHeap ++ stackPages →
        (v.addr < HEAP_START + 16 ∨ HEAP_START + 16 + requested collections ≤ v.addr) →
        ∃ frame, (mapper.table boot.mapper).Backs v.addr frame (v.addr % 4096) ∧
          boot.memory frame (v.addr % 4096) = mem₁ frame (v.addr % 4096) ∧
          ∀ x, HEAP_START ≤ x → x < HEAP_START + HEAP_SIZE →
            (mapper.table m₁).Backs x frame (v.addr % 4096) → x = v.addr := by
  obtain ⟨m₁, mem₁, hstores, hsame, hkept, hapart⟩ := kernelMain_kept hl hd hdisj h hfits hroom
  refine ⟨m₁, mem₁, hstores, hsame, fun v hpage hv => ?_⟩
  obtain ⟨frame, flags, hmapped, hmemory⟩ := hkept _ hpage
  have hone : ∀ x, HEAP_START ≤ x → x < HEAP_START + HEAP_SIZE →
      (mapper.table boot.mapper).Backs x frame (v.addr % 4096) → x = v.addr := by
    rintro x hlo hhi ⟨v', rfl, ⟨flags', hmapped'⟩, hoffset⟩
    have hin := mem_kernelHeap_of_range hlo hhi (v := v') rfl
    have heq := hapart _ (List.mem_append_left _ hin) _ hpage _ _ _ hmapped' hmapped
    exact congrArg VirtAddr.addr (Page.containingAddress_inj heq hoffset.symm)
  refine ⟨frame, ⟨v, rfl, ⟨flags, hmapped⟩, rfl⟩, hmemory _ fun x hlo hhi hback => ?_, ?_⟩
  · have heq := hone x (by omega) (by omega) hback
    omega
  · rintro x hlo hhi ⟨v', rfl, ⟨flags', hmapped'⟩, hoffset⟩
    have hin := mem_kernelHeap_of_range hlo hhi (v := v') rfl
    exact hone _ hlo hhi ⟨v', rfl, ⟨flags', (hsame _ hin).trans hmapped'⟩, hoffset⟩

/-- **The box survives the boot.**  Through the table that `kernel_main` leaves,
the box reads as it was filled. -/
theorem kernelMain_threadData (hl : mapper.Lawful) (hd : mapper.Draws o tables)
    (hdisj : DisjointRegions memoryMap)
    (h : kernelMain mapper parse collections o memoryMap childProcess rsp m mem = .ok boot)
    (hfits : ∀ s ∈ boot.bin.loadSegments,
      s.fileLen ≤ s.addr.len ∧ s.addr.start.addr + s.addr.len < 2 ^ 64)
    (hroom : 16 + requested collections ≤ HEAP_SIZE)
    {w : ℕ × UInt8} (hw : w ∈ threadDataWrites rsp) :
    ((mapper.table boot.mapper).loadByte boot.memory w.1 : Outcome Empty _) = .ok w.2 := by
  obtain ⟨m₁, mem₁, hstores, hsame, hkept⟩ := kernelMain_byte hl hd hdisj h hfits hroom
  obtain ⟨hlo, hhi⟩ := addr_of_mem_box hw
  have hsize : w.1 < HEAP_START + HEAP_SIZE := by
    have := heap_bounds
    omega
  -- the frame of the byte when it was stored is the one it has now
  obtain ⟨frame, hframe⟩ := PageTable.backs_of_storeBytes hstores hw
  have hbyte := PageTable.storeBytes_mem hstores (pairwise_threadDataWrites _ rsp) hw hframe
  obtain ⟨v, hv, ⟨flags, hmapped⟩, -⟩ := hframe
  have hpage := mem_kernelHeap_of_range hlo hsize hv
  obtain ⟨frame', hback, hmemory, -⟩ :=
    hkept v (List.mem_append_left _ hpage) (.inl (hv ▸ hhi))
  rw [hv] at hback hmemory
  obtain ⟨v', hv', ⟨flags', hmapped'⟩, -⟩ := id hback
  obtain rfl : v' = v := VirtAddr.ext (hv'.trans hv.symm)
  obtain ⟨rfl, -⟩ :=
    TranslateResult.mapped.inj (hmapped'.symm.trans ((hsame _ hpage).trans hmapped))
  rw [hback.loadByte, hmemory, hbyte]

/-- **Fresh pages are not cleared.**  Every byte of the user stack, and every byte
of the kernel heap behind what has been asked of it, is, when user code is entered,
what its frame held before the boot. -/
theorem kernelMain_fresh (hl : mapper.Lawful) (hd : mapper.Draws o tables)
    (hdisj : DisjointRegions memoryMap)
    (h : kernelMain mapper parse collections o memoryMap childProcess rsp m mem = .ok boot)
    (hfits : ∀ s ∈ boot.bin.loadSegments,
      s.fileLen ≤ s.addr.len ∧ s.addr.start.addr + s.addr.len < 2 ^ 64)
    (hroom : 16 + requested collections ≤ HEAP_SIZE) {x : ℕ}
    (hx : 0xDEADB000 ≤ x ∧ x < 0xDEADF000 ∨
      HEAP_START + 16 + requested collections ≤ x ∧ x < HEAP_START + HEAP_SIZE) :
    ∃ frame, (mapper.table boot.mapper).Backs x frame (x % 4096) ∧
      boot.memory frame (x % 4096) = mem frame (x % 4096) := by
  obtain ⟨m₁, mem₁, hstores, -, hkept⟩ := kernelMain_byte hl hd hdisj h hfits hroom
  obtain ⟨hstart, hend⟩ := heap_bounds
  have hcanon : Canonical x := .inl (by omega)
  have hpage : Page.containingAddress ⟨x, hcanon⟩ ∈ kernelHeap ++ stackPages := by
    rcases hx with ⟨hlo, hhi⟩ | ⟨hlo, hhi⟩
    · exact List.mem_append_right _ (mem_stackPages.mpr ⟨_, hlo, Nat.le_of_lt_succ hhi, rfl⟩)
    · exact List.mem_append_left _ (mem_kernelHeap_of_range (by omega) hhi rfl)
  obtain ⟨frame, hback, hmemory, hone⟩ := hkept ⟨x, hcanon⟩ hpage (by show x < _ ∨ _ ≤ x; omega)
  refine ⟨frame, hback, hmemory.trans (PageTable.storeBytes_other hstores ?_)⟩
  -- a store to the same byte is one to the same address, where the box is not
  intro w hw hstore
  obtain ⟨hlo, hhi⟩ := addr_of_mem_box hw
  have heq : w.1 = x := hone w.1 hlo (by omega) hstore
  omega

theorem kernelMain_fresh_sharedPage : ∃ boot, bootSharedPage = .ok boot ∧
    ∃ frame, boot.mapper.1.Backs 0x444444440018 frame 0x18 ∧ boot.memory frame 0x18 = 0 := by
  obtain ⟨boot, hboot, hbin⟩ := bootSharedPage_eq_ok
  have hfits : ∀ s ∈ boot.bin.loadSegments,
      s.fileLen ≤ s.addr.len ∧ s.addr.start.addr + s.addr.len < 2 ^ 64 := by
    rw [hbin]
    exact Elf.sharedPageFile_fits
  have hdisj : DisjointRegions bootMap := List.pairwise_singleton _ _
  exact ⟨boot, hboot, kernelMain_fresh (drawingMapper_lawful .panic 1)
    (drawingMapper_draws .panic 1) hdisj hboot hfits (by decide) (.inr (by decide))⟩

/-! ### The heap from then on -/

/-- The heap with all blocks of the boot, the box the oldest of them. -/
def withBox (heap : Heap) : Heap := ⟨heap.bump, heap.live ++ [threadDataBlock]⟩

/-- The heap that `kernel_main` leaves to the threads of the kernel. -/
def Booted.sharedHeap (boot : Booted M) (ι : Type) : SharedHeap ι :=
  SharedHeap.shared (withBox boot.heap)

/-- A use of the heap is at most one call of its allocator, which takes and frees
no byte of the box. -/
theorem useHeap_step (h : (useHeap o pt (mem, heap) u : Outcome Empty _) = .ok (mem', heap')) :
    heap' = heap ∨ ∃ op, SharedHeap.Served (withBox heap) op ∧
      (withBox heap).step o op = some (withBox heap') := by
  rcases useHeap_cases h with ⟨layout, hsize, -, hptr, -, rfl⟩ | ⟨k, b, bump, -, hb, hbump, -, rfl⟩ |
    ⟨_, _, _, _, -, -, -, -, rfl⟩ | ⟨-, rfl⟩
  · refine .inr ⟨.alloc layout, hptr, ?_⟩
    simp only [Heap.step, BumpAllocator.alloc_eq, withBox, if_pos hsize, if_neg hptr,
      List.cons_append]
  · refine .inr ⟨.dealloc b, trivial, ?_⟩
    simp only [Heap.step, withBox, if_pos (List.mem_append_left _ hb), hbump,
      List.erase_append_left _ hb]
  · exact .inl rfl
  · exact .inl rfl

theorem useHeap_blocksApart
    (h : (useHeap o pt (mem, heap) u : Outcome Empty _) = .ok (mem', heap'))
    (hI : SharedHeap.BlocksApart (HEAP_START + HEAP_SIZE)
      (SharedHeap.shared (withBox heap) : SharedHeap Unit)) :
    SharedHeap.BlocksApart (HEAP_START + HEAP_SIZE)
      (SharedHeap.shared (withBox heap') : SharedHeap Unit) := by
  rcases useHeap_step h with rfl | ⟨op, hserved, hstep⟩
  · exact hI
  · obtain ⟨acts, hrun⟩ := SharedHeap.step_shared () hserved hstep
    exact exec_invariant (fun _ _ _ => SharedHeap.BlocksApart.step (by decide)) hI hrun

/-- Between two calls it does not matter whose threads these are. -/
theorem blocksApart_shared {ι : Type} {heapEnd : ℕ}
    (hI : SharedHeap.BlocksApart heapEnd (SharedHeap.shared heap : SharedHeap Unit)) :
    SharedHeap.BlocksApart heapEnd (SharedHeap.shared heap : SharedHeap ι) := by
  obtain ⟨hend, hnext, hbelow, -, hapart, -⟩ := hI.2 rfl
  have hnone : ∀ t b, ((SharedHeap.shared heap : SharedHeap ι).thread t).held = some b → False := by
    intro t b h
    cases h
  refine ⟨hapart, fun _ => ⟨hend, hnext, hbelow, fun t b h => (hnone t b h).elim, hapart,
    fun t b h => (hnone t b h).elim, fun t _ b _ _ h => (hnone t b h).elim, ?_⟩⟩
  intro t b currentPtr h
  cases h

theorem kernelMain_blocksApart {ι : Type}
    (h : kernelMain mapper parse collections o memoryMap childProcess rsp m mem = .ok boot) :
    SharedHeap.BlocksApart (HEAP_START + HEAP_SIZE) (boot.sharedHeap ι) := by
  obtain ⟨_, _, m₂, _, mem₁, _, -, -, -, -, huses, -⟩ := kernelMain_box h
  have hinit : SharedHeap.Reserved (HEAP_START + HEAP_SIZE)
      (SharedHeap.init HEAP_START HEAP_SIZE : SharedHeap Unit) := .init
  have hbox := hinit.alloc (by decide) (show 0 < threadDataLayout.size by decide)
    (show newHeap.newPtr ≠ 0 by decide) false
  have hI₀ : SharedHeap.BlocksApart (HEAP_START + HEAP_SIZE)
      (SharedHeap.shared (withBox ⟨heapWithBox, []⟩) : SharedHeap Unit) :=
    ⟨hbox.live_apart, fun _ => hbox⟩
  refine blocksApart_shared ?_
  exact Outcome.foldlM_ok_induction (fun st => SharedHeap.BlocksApart (HEAP_START + HEAP_SIZE)
    (SharedHeap.shared (withBox st.2) : SharedHeap Unit))
    (fun _ _ _ _ hI huse => useHeap_blocksApart huse hI) hI₀ huses

/-- A live block stays live until it is passed to `dealloc`. -/
theorem mem_live_step {ι : Type} [DecidableEq ι] {b : Block} {s s' : SharedHeap ι} {a : Atomic ι}
    (hfree : ∀ t, a ≠ .dealloc t b) (hb : b ∈ s.live) (hstep : s.step o a = some s') :
    b ∈ s'.live := by
  obtain ⟨-, ⟨t, layout, rfl, -, rfl⟩ | ⟨t, c, rfl, -, -, rfl⟩ | ⟨t, c, -, -, rfl⟩ |
    ⟨t, c, _, _, -, -, -, rfl⟩ | ⟨t, c, _, _, -, -, -, rfl⟩ | rfl⟩ := SharedHeap.step_cases hstep
  · dsimp only
    split
    · exact hb
    · exact List.mem_cons_of_mem _ hb
  · have hne : b ≠ c := fun heq => hfree t (by rw [heq])
    exact (List.mem_erase_of_ne hne).mpr hb
  all_goals exact hb

/-- **The thread data are never handed out again.**  `init_thread_data` leaks the
box.  However many threads allocate and free blocks from then on, in whatever
order their atomic steps are made, no live block has a byte of it. -/
theorem kernelMain_boxLeaked {ι : Type} [DecidableEq ι] (acts : List (Atomic ι))
    (s : SharedHeap ι)
    (h : kernelMain mapper parse collections o memoryMap childProcess rsp m mem = .ok boot)
    (hrun : exec (SharedHeap.step o) (boot.sharedHeap ι) acts = some s)
    (hleaked : ∀ t, Atomic.dealloc t threadDataBlock ∉ acts) :
    ∃ others, s.live.Perm (threadDataBlock :: others) ∧ ∀ b ∈ others,
      Disjoint b.bytes (Set.Ico boot.gsBase.addr (boot.gsBase.addr + 16)) := by
  obtain ⟨_, _, _, _, _, _, -, -, -, -, -, hbase, -⟩ := kernelMain_box h
  have hI := exec_invariant (fun _ _ _ => SharedHeap.BlocksApart.step (by decide))
    (kernelMain_blocksApart h) hrun
  have hkept : ∀ a ∈ acts, ∀ s : SharedHeap ι, ∀ t, a ≠ .dealloc t threadDataBlock := by
    rintro _ ha - t rfl
    exact hleaked t ha
  have hbox : threadDataBlock ∈ s.live :=
    exec_invariant_along (P := fun _ a => ∀ t, a ≠ .dealloc t threadDataBlock)
      (I := fun s => threadDataBlock ∈ s.live) (fun _ _ _ => mem_live_step)
      (Along.of_mem hkept _) (List.mem_append_right _ List.mem_cons_self) hrun
  obtain ⟨before, after, hlive⟩ := List.append_of_mem hbox
  have hperm : s.live.Perm (threadDataBlock :: (before ++ after)) := by
    rw [hlive]
    exact List.perm_middle
  refine ⟨before ++ after, hperm, fun b hb => ?_⟩
  have hapart := (List.pairwise_cons.mp (hperm.pairwise hI.1 fun h => h.symm)).1 b hb
  rw [hbase]
  exact hapart.disjoint.symm

theorem kernelMain_boxLeaked_sharedPage : ∃ boot, bootSharedPage = .ok boot ∧
    ∃ s : SharedHeap Bool,
      exec (SharedHeap.step .panic) (boot.sharedHeap Bool) [.alloc true .u64] = some s ∧
      ∃ others, s.live.Perm (threadDataBlock :: others) ∧ ∀ b ∈ others,
        Disjoint b.bytes (Set.Ico boot.gsBase.addr (boot.gsBase.addr + 16)) := by
  obtain ⟨boot, hboot, -⟩ := bootSharedPage_eq_ok
  have hstep : ∃ s, (boot.sharedHeap Bool).step .panic (.alloc true .u64) = some s := by
    rw [SharedHeap.step, if_pos ⟨rfl, rfl, by decide⟩, BumpAllocator.alloc_eq]
    exact ⟨_, rfl⟩
  obtain ⟨s, hstep⟩ := hstep
  have hrun : exec (SharedHeap.step .panic) (boot.sharedHeap Bool) [.alloc true .u64] = some s :=
    exec_cons_eq_some.mpr ⟨s, hstep, exec_nil ..⟩
  exact ⟨boot, hboot, s, hrun, kernelMain_boxLeaked _ s hboot hrun (by simp)⟩

end Boot
