/-
The page-table services that `elf::load` is given: an `OffsetPageTable` of the
`x86_64` crate and a frame allocator.

Neither is code of this repository.  A `Mapper` is any implementation of the
two calls over any state, seen through the table it maintains; what is assumed
of it is `Mapper.Lawful`.  Page-table frames are part of the mapper's state and
apart from the memory that pages are backed by.

* `tableMapper` — the plain implementation, which is lawful (`tableMapper_lawful`);
* `PageTable.storeByte` — a write by kernel code through a page table;
* `PageTable.storeBytes_other`, `PageTable.storeBytes_mem` — what a sequence of
  writes leaves alone, and what it leaves behind.
-/
import ZuluOs.Paging

/-- `x86_64::structures::paging::mapper::MapToError` -/
inductive MapToError where
  | frameAllocationFailed
  | parentEntryHugePage
  | pageAlreadyMapped (frame : PhysFrame)
deriving DecidableEq

/-- `x86_64::structures::paging::mapper::FlagUpdateError` -/
inductive FlagUpdateError where
  | pageNotMapped
  | parentEntryHugePage
deriving DecidableEq

/-- `Mapper<Size4KiB>`: `M` is the state of the page tables, `A` that of the
frame allocator `map_to` may draw page-table frames from. -/
structure Mapper (M A : Type) where
  table : M → PageTable
  mapTo : M → A → Page → PhysFrame → PageTableFlags → Outcome MapToError (M × A)
  updateFlags : M → Page → PageTableFlags → Outcome FlagUpdateError M

variable {M A : Type}

/-- What is assumed of the mapper: `map_to` succeeds on unmapped pages only and
adds exactly that leaf entry; `update_flags` replaces that page's flags only. -/
structure Mapper.Lawful (mapper : Mapper M A) : Prop where
  mapTo_ok : ∀ {m a page frame flags m' a'},
    mapper.mapTo m a page frame flags = .ok (m', a') →
    mapper.table m page = .notMapped ∧
      mapper.table m' = Function.update (mapper.table m) page (.mapped frame flags)
  updateFlags_ok : ∀ {m page flags m'}, mapper.updateFlags m page flags = .ok m' →
    ∃ frame old, mapper.table m page = .mapped frame old ∧
      mapper.table m' = Function.update (mapper.table m) page (.mapped frame flags)

/-- The mapper whose state is the table itself. -/
def tableMapper : Mapper PageTable A where
  table m := m
  mapTo m a page frame flags :=
    match m page with
    | .notMapped => .ok (Function.update m page (.mapped frame flags), a)
    | .invalidFrameAddress _ => .err .parentEntryHugePage
    | .mapped old _ => .err (.pageAlreadyMapped old)
  updateFlags m page flags :=
    match m page with
    | .mapped frame _ => .ok (Function.update m page (.mapped frame flags))
    | .invalidFrameAddress _ => .err .parentEntryHugePage
    | .notMapped => .err .pageNotMapped

theorem tableMapper_lawful : (tableMapper : Mapper PageTable A).Lawful where
  mapTo_ok {m a page frame flags m' a'} h := by
    unfold tableMapper at h
    dsimp only at h
    split at h
    · obtain ⟨rfl, -⟩ := Prod.mk.inj (Outcome.ok.inj h)
      exact ⟨‹_›, rfl⟩
    · cases h
    · cases h
  updateFlags_ok {m page flags m'} h := by
    unfold tableMapper at h
    dsimp only at h
    split at h
    · obtain rfl := Outcome.ok.inj h
      exact ⟨_, _, ‹_›, rfl⟩
    · cases h
    · cases h

/-- The plain mapper draws no frames. -/
theorem tableMapper_allocator {m m' : PageTable} {a a' : A} {page : Page} {frame : PhysFrame}
    {flags : PageTableFlags} (h : tableMapper.mapTo m a page frame flags = .ok (m', a')) :
    a' = a := by
  unfold tableMapper at h
  dsimp only at h
  split at h
  · exact (Prod.mk.inj (Outcome.ok.inj h)).2.symm
  · cases h
  · cases h

/-- A write of one byte by kernel code: it faults unless the address is
canonical, mapped and writable (`CR0.WP` is set). -/
def PageTable.storeByte {ε : Type} (pt : PageTable) (mem : PhysMemory) (a : ℕ) (b : UInt8) :
    Outcome ε PhysMemory :=
  if h : Canonical a then
    match pt.translate ⟨a, h⟩ with
    | .mapped frame flags =>
      if flags.contains .WRITABLE then
        .ok (Function.update mem frame (Function.update (mem frame) (a % 4096) b))
      else .stop .fault
    | _ => .stop .fault
  else .stop .fault

/-! ### What stores leave -/

namespace PageTable

variable {ε : Type} {pt : PageTable} {mem mem' : PhysMemory} {a : ℕ} {frame : PhysFrame} {i : ℕ}

/-- The byte at the address is byte `i` of the frame. -/
def Backs (pt : PageTable) (a : ℕ) (frame : PhysFrame) (i : ℕ) : Prop :=
  ∃ v : VirtAddr, v.addr = a ∧ (∃ flags, pt.translate v = .mapped frame flags) ∧ i = a % 4096

theorem Backs.unique {frame' : PhysFrame} {i' : ℕ} (h : pt.Backs a frame i)
    (h' : pt.Backs a frame' i') : frame = frame' ∧ i = i' := by
  obtain ⟨v, rfl, ⟨flags, hv⟩, rfl⟩ := h
  obtain ⟨w, hw, ⟨flags', hw'⟩, rfl⟩ := h'
  obtain rfl : w = v := VirtAddr.ext hw
  rw [hv, TranslateResult.mapped.injEq] at hw'
  exact ⟨hw'.1, rfl⟩

theorem Backs.loadByte (h : pt.Backs a frame i) :
    (pt.loadByte mem a : Outcome ε UInt8) = .ok (mem frame i) := by
  obtain ⟨v, rfl, ⟨flags, hv⟩, rfl⟩ := h
  exact loadByte_ok hv

theorem backs_of_loadByte {b : UInt8} (h : (pt.loadByte mem a : Outcome ε UInt8) = .ok b) :
    ∃ frame, pt.Backs a frame (a % 4096) ∧ mem frame (a % 4096) = b := by
  have hcanon := canonical_of_loadByte h
  rw [PageTable.loadByte, dif_pos hcanon] at h
  split at h
  · next frame flags hframe =>
    exact ⟨frame, ⟨⟨a, hcanon⟩, rfl, ⟨flags, hframe⟩, rfl⟩, Outcome.ok.inj h⟩
  · cases h

/-- A store that returns wrote the byte that backs the address. -/
theorem storeByte_eq_ok {b : UInt8} (h : (pt.storeByte mem a b : Outcome ε _) = .ok mem') :
    ∃ frame, pt.Backs a frame (a % 4096) ∧
      mem' = Function.update mem frame (Function.update (mem frame) (a % 4096) b) := by
  unfold storeByte at h
  split at h
  · next hcanon =>
    split at h
    · next frame flags hframe =>
      split at h
      · exact ⟨frame, ⟨⟨a, hcanon⟩, rfl, ⟨flags, hframe⟩, rfl⟩, (Outcome.ok.inj h).symm⟩
      · cases h
    · cases h
  · cases h

/-- A sequence of stores. -/
def storeBytes (pt : PageTable) (ws : List (ℕ × UInt8)) (mem : PhysMemory) :
    Outcome ε PhysMemory :=
  ws.foldlM (fun mem w => pt.storeByte mem w.1 w.2) mem

theorem backs_of_storeBytes {ws : List (ℕ × UInt8)}
    (h : (pt.storeBytes ws mem : Outcome ε _) = .ok mem') {w : ℕ × UInt8} (hw : w ∈ ws) :
    ∃ frame, pt.Backs w.1 frame (w.1 % 4096) := by
  obtain ⟨_, _, hstep⟩ := Outcome.foldlM_ok_mem h hw
  obtain ⟨frame, hframe, -⟩ := storeByte_eq_ok hstep
  exact ⟨frame, hframe⟩

/-- What no store writes to is left alone. -/
theorem storeBytes_other {ws : List (ℕ × UInt8)}
    (h : (pt.storeBytes ws mem : Outcome ε _) = .ok mem')
    (hother : ∀ w ∈ ws, ¬ pt.Backs w.1 frame i) : mem' frame i = mem frame i := by
  refine Outcome.foldlM_ok_induction (fun mem₁ => mem₁ frame i = mem frame i) ?_ rfl h
  intro w hw mem₁ mem₂ hsame hstep
  obtain ⟨frame', hframe', rfl⟩ := storeByte_eq_ok hstep
  rw [← hsame]
  by_cases hf : frame = frame'
  · subst hf
    have hi : i ≠ w.1 % 4096 := by
      rintro rfl
      exact hother w hw hframe'
    rw [Function.update_self, Function.update_of_ne hi]
  · rw [Function.update_of_ne hf]

/-- Where no later store writes to the same byte, each store is seen. -/
theorem storeBytes_mem {ws : List (ℕ × UInt8)}
    (h : (pt.storeBytes ws mem : Outcome ε _) = .ok mem')
    (hpair : ws.Pairwise fun w w' => ∀ frame i, pt.Backs w.1 frame i → ¬ pt.Backs w'.1 frame i)
    {w : ℕ × UInt8} (hw : w ∈ ws) (hframe : pt.Backs w.1 frame i) : mem' frame i = w.2 := by
  induction ws generalizing mem with
  | nil => cases hw
  | cons w₀ ws ih =>
    obtain ⟨hfirst, hpair⟩ := List.pairwise_cons.mp hpair
    rw [storeBytes, List.foldlM_cons, Outcome.bind_eq_ok] at h
    obtain ⟨mem₁, hstep, hrest⟩ := h
    rcases List.mem_cons.mp hw with rfl | hw
    · have hkept : mem' frame i = mem₁ frame i :=
        storeBytes_other hrest fun w' hw' => hfirst w' hw' frame i hframe
      obtain ⟨frame', hframe', rfl⟩ := storeByte_eq_ok hstep
      obtain ⟨rfl, rfl⟩ := hframe.unique hframe'
      rw [hkept, Function.update_self, Function.update_self]
    · exact ih hrest hpair hw

end PageTable
