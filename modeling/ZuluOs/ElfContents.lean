/-
The bytes of a loaded file.

The copy loop of `elf::load` is one sequence of byte stores (`copyWrites`),
made through the table of the mapping loop.  Its frames are those of the final
table (`load_stores`), so what the stores leave is what a read finds afterwards.

The pages are mapped for `p_memsz` bytes and the stores are made for
`p_filesz` bytes.  A store at offset `i ≤ p_memsz` meets a page of its own
segment (`covers_of_le`); nothing stops one beyond.

The `Vec` of segments and the `BTreeMap` of pages that `load` works with are
values here.  In the kernel they are on the heap, which a store beyond the
image may reach as well.

* `load_writes_iff` — the stores stay in the image iff those beyond `p_memsz`
  meet pages of other segments;
* `load_contents` — a read in the file-backed part gives the file's byte.
-/
import ZuluOs.ElfImage

namespace Elf

open PageTableFlags BootInfoFrameAllocator

/-! ### The stores of the copy loop -/

/-- `file_range.len()` -/
def ElfSegment.fileLen (s : ElfSegment) : ℕ := s.fileEnd - s.fileStart

/-- The stores made for one segment, in order. -/
def segmentWrites (bytes : List UInt8) (s : ElfSegment) : List (ℕ × UInt8) :=
  if s.ty = .load then
    ((bytes.drop s.fileStart).take s.fileLen).zipIdx.map fun (b, i) =>
      ((s.addr.start.addr + i) % 2 ^ 64, b)
  else []

/-- The stores of the whole loop. -/
def copyWrites (bytes : List UInt8) (segments : List ElfSegment) : List (ℕ × UInt8) :=
  segments.flatMap (segmentWrites bytes)

/-- What the copy asks of a segment before it stores anything. -/
def ElfSegment.Copyable (o : Overflow) (bytes : List UInt8) (s : ElfSegment) : Prop :=
  s.fileStart ≤ s.fileEnd ∧ s.fileEnd ≤ bytes.length ∧ ¬ (o = .panic ∧ s.addr.start.addr = 0)

theorem copySegment_eq_ok {ε : Type} {o : Overflow} {bytes : List UInt8} {pt : PageTable}
    {mem mem' : PhysMemory} {s : ElfSegment} :
    (copySegment o bytes pt mem s : Outcome ε _) = .ok mem' ↔
      (s.ty = .load → s.Copyable o bytes) ∧
        (pt.storeBytes (segmentWrites bytes s) mem : Outcome ε _) = .ok mem' := by
  unfold copySegment segmentWrites ElfSegment.Copyable ElfSegment.fileLen
  by_cases hty : s.ty = .load
  · rw [if_pos hty, if_pos hty, PageTable.storeBytes, List.foldlM_map]
    by_cases hrange : s.fileStart ≤ s.fileEnd ∧ s.fileEnd ≤ bytes.length
    · by_cases hnull : o = .panic ∧ s.addr.start.addr = 0
      · simp [hty, hrange, hnull]
      · simp only [hty, hrange, hnull, and_self, if_true, if_false, not_false_eq_true, true_and,
          forall_const]
    · rw [if_neg hrange]
      refine iff_of_false (by simp) fun h => hrange ?_
      exact ⟨(h.1 hty).1, (h.1 hty).2.1⟩
  · rw [if_neg hty, if_neg hty]
    simp [hty, PageTable.storeBytes]

/-- The copy loop is one sequence of stores, from ranges of the file. -/
theorem copySegments_eq_ok {ε : Type} {o : Overflow} {bytes : List UInt8} {pt : PageTable}
    {mem mem' : PhysMemory} {segments : List ElfSegment} :
    (copySegments o bytes pt segments mem : Outcome ε _) = .ok mem' ↔
      (∀ s ∈ segments, s.ty = .load → s.Copyable o bytes) ∧
        (pt.storeBytes (copyWrites bytes segments) mem : Outcome ε _) = .ok mem' := by
  induction segments generalizing mem with
  | nil => simp [copySegments, copyWrites, PageTable.storeBytes]
  | cons s segments ih =>
    rw [copySegments, List.foldlM_cons, Outcome.bind_eq_ok, List.forall_mem_cons, copyWrites,
      List.flatMap_cons, PageTable.storeBytes, List.foldlM_append, Outcome.bind_eq_ok]
    simp only [copySegment_eq_ok]
    constructor
    · rintro ⟨mem₁, ⟨hfirst, hstores⟩, hrest⟩
      obtain ⟨hcopyable, hstores'⟩ := ih.mp hrest
      exact ⟨⟨hfirst, hcopyable⟩, mem₁, hstores, hstores'⟩
    · rintro ⟨⟨hfirst, hcopyable⟩, mem₁, hstores, hstores'⟩
      exact ⟨mem₁, ⟨hfirst, hstores⟩, ih.mpr ⟨hcopyable, hstores'⟩⟩

theorem mem_segmentWrites {bytes : List UInt8} {s : ElfSegment} {w : ℕ × UInt8} :
    w ∈ segmentWrites bytes s ↔ s.ty = .load ∧ ∃ i < s.fileLen,
      w.1 = (s.addr.start.addr + i) % 2 ^ 64 ∧ bytes[s.fileStart + i]? = some w.2 := by
  obtain ⟨a, b⟩ := w
  unfold segmentWrites
  by_cases hty : s.ty = .load
  · rw [if_pos hty]
    simp only [List.mem_map, List.mem_zipIdx_iff_getElem?, hty, true_and, Prod.exists,
      Prod.mk.injEq]
    constructor
    · rintro ⟨b, i, hb, rfl, rfl⟩
      rw [List.getElem?_take] at hb
      split at hb
      · next hi => exact ⟨i, hi, rfl, List.getElem?_drop ▸ hb⟩
      · cases hb
    · rintro ⟨i, hi, rfl, hb⟩
      refine ⟨b, i, ?_, rfl, rfl⟩
      rw [List.getElem?_take_of_lt hi, List.getElem?_drop]
      exact hb
  · simp [hty]

/-! ### Pages of the image, and their frames -/

/-- An address from the start of a segment to its end is on a page of it,
unless the end wraps. -/
theorem covers_of_le {o : Overflow} {s : ElfSegment} {last v : VirtAddr}
    (hlast : (s.addr.start.add o s.addr.len : Outcome Empty _) = .ok last)
    (hwrap : s.addr.start.addr + s.addr.len < 2 ^ 64) (hstart : s.addr.start.addr ≤ v.addr)
    (hend : v.addr ≤ s.addr.start.addr + s.addr.len) :
    covers o (.containingAddress v) s = true := by
  have hs := s.addr.start.canonical
  have hv := v.canonical
  have hl := last.canonical
  obtain ⟨e, he, hext⟩ := VirtAddr.add_eq_ok.mp hlast
  rw [o.addU64_of_lt hwrap] at he
  obtain rfl := Outcome.ok.inj he
  have hcases := VirtAddr.signExtend_cases (s.addr.start.addr + s.addr.len)
  refine covers_iff.mpr ⟨last, hlast, ?_⟩
  simp only [Page.containingAddress]
  unfold Canonical at hs hv hl
  omega

section

variable {M A : Type} {mapper : Mapper M A}
  {allocateFrame : A → Outcome Empty (Option PhysFrame × A)}
  {parse : List UInt8 → Option ElfHeaders} {o : Overflow} {bytes : List UInt8} {m m' : M}
  {a a' : A} {mem mem' : PhysMemory} {file : ElfFile}

/-- **A load as its stores**: through the table it leaves, the memory it leaves
is that of its stores. -/
theorem load_stores (hl : mapper.Lawful)
    (hload : load mapper allocateFrame parse o bytes m a mem = .ok (file, m', a', mem')) :
    ∃ m₁, ((mapper.table m₁).storeBytes (copyWrites bytes file.segments) mem : Outcome Empty _)
        = .ok mem' ∧
      (∀ s ∈ file.segments, s.ty = .load → s.Copyable o bytes) ∧
      ∀ addr frame i,
        (mapper.table m₁).Backs addr frame i ↔ (mapper.table m').Backs addr frame i := by
  obtain ⟨m₁, hcopy, himage, hother⟩ := load_copy hl hload
  obtain ⟨hcopyable, hstores⟩ := copySegments_eq_ok.mp hcopy
  refine ⟨m₁, hstores, hcopyable, ?_⟩
  intro addr frame i
  refine exists_congr fun v => and_congr_right fun _ => and_congr_left fun _ => ?_
  show (∃ flags, mapper.table m₁ (.containingAddress v) = _) ↔
    ∃ flags, mapper.table m' (.containingAddress v) = _
  by_cases hv : InImage o file (.containingAddress v)
  · obtain ⟨-, frame', flags₁, flags₂, h₁, h₂⟩ := himage _ hv
    rw [h₁, h₂]
    simp
  · rw [(hother _ hv).1, (hother _ hv).2]

/-! ### Where the stores go -/

/-- The stores that may leave the pages of their own segment: beyond `p_memsz`
bytes, or in a segment whose end wraps (which overflow checks rule out). -/
def ElfSegment.Beyond (s : ElfSegment) (i : ℕ) : Prop :=
  s.addr.len < i ∨ 2 ^ 64 ≤ s.addr.start.addr + s.addr.len

/-- The page of a store that returned, in the pages of its own segment. -/
theorem covers_of_write {s : ElfSegment} (hs : s ∈ file.segments) {i : ℕ} (hi : ¬ s.Beyond i)
    (hload : load mapper allocateFrame parse o bytes m a mem = .ok (file, m', a', mem'))
    {v : VirtAddr} (hv : v.addr = (s.addr.start.addr + i) % 2 ^ 64) :
    InImage o file (.containingAddress v) := by
  obtain ⟨last, hlast⟩ := load_ends hload hs
  unfold ElfSegment.Beyond at hi
  rw [Nat.mod_eq_of_lt (by omega)] at hv
  exact ⟨s, hs, covers_of_le hlast (by omega) (by omega) (by omega)⟩

/-- The stores are made to the image if those beyond their segments are. -/
theorem inImage_of_mem_copyWrites (hl : mapper.Lawful)
    (hload : load mapper allocateFrame parse o bytes m a mem = .ok (file, m', a', mem'))
    (hbeyond : ∀ s ∈ file.segments, s.ty = .load → ∀ i < s.fileLen, s.Beyond i →
      ∀ v : VirtAddr, v.addr = (s.addr.start.addr + i) % 2 ^ 64 →
        InImage o file (.containingAddress v)) {w : ℕ × UInt8}
    (hw : w ∈ copyWrites bytes file.segments) :
    ∃ v : VirtAddr, v.addr = w.1 ∧ InImage o file (.containingAddress v) := by
  obtain ⟨m₁, hstores, -⟩ := load_stores hl hload
  obtain ⟨s, hs, hws⟩ := List.mem_flatMap.mp hw
  obtain ⟨hty, i, hi, haddr, -⟩ := mem_segmentWrites.mp hws
  obtain ⟨frame, v, hv, -⟩ := PageTable.backs_of_storeBytes hstores hw
  refine ⟨v, hv, ?_⟩
  by_cases hout : s.Beyond i
  · exact hbeyond s hs hty i hi hout v (hv.trans haddr)
  · exact covers_of_write hs hout hload (hv.trans haddr)

/-- Each byte of a segment's contents is stored. -/
theorem mem_copyWrites {s : ElfSegment} (hs : s ∈ file.segments) (hty : s.ty = .load)
    (hcopyable : s.Copyable o bytes) {i : ℕ} (hi : i < s.fileLen) :
    ∃ b, bytes[s.fileStart + i]? = some b ∧
      ((s.addr.start.addr + i) % 2 ^ 64, b) ∈ copyWrites bytes file.segments := by
  have hlt : s.fileStart + i < bytes.length := by
    unfold ElfSegment.fileLen at hi
    have hend := hcopyable.2.1
    omega
  have hb := List.getElem?_eq_getElem hlt
  exact ⟨_, hb, List.mem_flatMap.mpr ⟨s, hs, mem_segmentWrites.mpr ⟨hty, i, hi, rfl, hb⟩⟩⟩

/-- The contents of a segment that is copied have `p_filesz` bytes: a range
that wraps is not in the file. -/
theorem Relocated.fileLen_eq {text h : ProgramHeader64} {s : ElfSegment}
    (hs : Relocated o text h s) (hcopyable : s.Copyable o bytes) :
    s.fileLen = h.pFilesz.toNat := by
  have hend := hs.fileEnd
  have hlt := h.pFilesz.toNat_lt
  obtain ⟨hle, -⟩ := hcopyable
  rw [hs.fileStart] at hle
  rw [ElfSegment.fileLen, hs.fileStart]
  cases o with
  | panic =>
    rw [Overflow.addU64_panic] at hend
    split at hend
    · rw [← Outcome.ok.inj hend]
      omega
    · cases hend
  | wrap =>
    rw [Overflow.addU64_wrap, Outcome.ok.injEq] at hend
    omega

end

/-- The number of a page does not depend on the wrap of the address. -/
theorem page_of_wrapped {v : VirtAddr} {x : ℕ} (hv : v.addr = x % 2 ^ 64) :
    Page.containingAddress v = .ofNumber (x % 2 ^ 48 / 4096) := by
  refine Page.ext ?_
  show v.addr % 2 ^ 48 / 4096 = x % 2 ^ 48 / 4096 % 2 ^ 36
  rw [hv]
  omega

/-- The stores that may leave the pages of their own segment: beyond `p_memsz`
bytes, or in a segment whose end wraps (which overflow checks rule out). -/
def ElfHeaders.Overruns (elf : ElfHeaders) (h : ProgramHeader64) (i : ℕ) : Prop :=
  h.pMemsz.toNat < i ∨ 2 ^ 64 ≤ elf.start h + h.pMemsz.toNat

section

variable {M : Type} {mapper : Mapper M BootInfoFrameAllocator}
  {parse : List UInt8 → Option ElfHeaders} {o : Overflow} {bytes : List UInt8} {m m' : M}
  {a a' : BootInfoFrameAllocator} {mem mem' : PhysMemory} {file : ElfFile} {elf : ElfHeaders}
  {tables : M → List PhysFrame}

/-- The stores are made to the image if those that overrun their segment meet
pages of other segments. -/
theorem inImage_of_overruns (hl : mapper.Lawful) (hparse : parse bytes = some elf)
    (hload : (load mapper (BootInfoFrameAllocator.allocateFrame o) parse o bytes m a mem :
      Outcome Empty _) = .ok (file, m', a', mem'))
    (hover : ∀ h ∈ elf.programHeaders, h.kept = true →
      ElfSegmentType.tryFrom h.pType = some .load → ∀ i < h.pFilesz.toNat, elf.Overruns h i →
        ∃ t ∈ elf.programHeaders, t.kept = true ∧
          elf.Walks t (.ofNumber ((elf.start h + i) % 2 ^ 48 / 4096)))
    {w : ℕ × UInt8} (hw : w ∈ copyWrites bytes file.segments) :
    ∃ v : VirtAddr, v.addr = w.1 ∧ InImage o file (.containingAddress v) := by
  obtain ⟨m₁, -, hcopyable, -⟩ := load_stores hl hload
  refine inImage_of_mem_copyWrites hl hload ?_ hw
  intro s hs hty i hi hbeyond v hv
  obtain ⟨h, hh, hkept, text, hrel, hstart, -⟩ := load_header_of_mem hparse hload hs
  rw [hrel.fileLen_eq (hcopyable s hs hty)] at hi
  rw [ElfSegment.Beyond, hrel.len, hstart] at hbeyond
  obtain ⟨t, ht, htkept, hwalks⟩ :=
    hover h hh hkept (hrel.ty.trans (congrArg some hty)) i hi hbeyond
  refine (inImage_iff_walks hparse hload _).mpr ⟨t, ht, htkept, ?_⟩
  rwa [page_of_wrapped hv, hstart]

/-- **The stores of a load stay in its own image**, and change no frame that a
page was mapped to before (other than one that the allocator still had), iff
every store that overruns its segment meets a page between the first and the
end page of some kept segment. -/
theorem load_writes_iff (hl : mapper.Lawful) (hd : mapper.Draws o tables)
    (hdisj : DisjointRegions a.memoryMap) (hparse : parse bytes = some elf)
    (hload : (load mapper (BootInfoFrameAllocator.allocateFrame o) parse o bytes m a mem :
      Outcome Empty _) = .ok (file, m', a', mem')) :
    ((∀ w ∈ copyWrites bytes file.segments, ∃ v : VirtAddr, v.addr = w.1 ∧
        mapper.table m (.containingAddress v) = .notMapped ∧
        ∃ frame flags, mapper.table m' (.containingAddress v) = .mapped frame flags) ∧
      ∀ page frame flags, mapper.table m page = .mapped frame flags → ¬ a.Free frame →
        mem' frame = mem frame) ↔
    ∀ h ∈ elf.programHeaders, h.kept = true → ElfSegmentType.tryFrom h.pType = some .load →
      ∀ i < h.pFilesz.toNat, elf.Overruns h i →
        ∃ t ∈ elf.programHeaders, t.kept = true ∧
          elf.Walks t (.ofNumber ((elf.start h + i) % 2 ^ 48 / 4096)) := by
  obtain ⟨m₁, hstores, hcopyable, hbacks⟩ := load_stores hl hload
  simp only [load_maps_iff hl hload]
  constructor
  · rintro ⟨hwrites, -⟩ h hh hkept hty i hi -
    obtain ⟨s, hs, text, hrel, hstart, -⟩ := load_header hparse hload hh hkept
    have hsty : s.ty = .load := Option.some.inj (hrel.ty.symm.trans hty)
    obtain ⟨b, -, hw⟩ := mem_copyWrites hs hsty (hcopyable s hs hsty)
      (hi.trans_eq (hrel.fileLen_eq (hcopyable s hs hsty)).symm)
    obtain ⟨v, hv, hpage⟩ := hwrites _ hw
    obtain ⟨t, ht, htkept, hwalks⟩ := (inImage_iff_walks hparse hload _).mp hpage
    refine ⟨t, ht, htkept, ?_⟩
    rwa [page_of_wrapped hv, hstart] at hwalks
  · intro hover
    refine ⟨fun w hw => inImage_of_overruns hl hparse hload hover hw, ?_⟩
    intro page frame flags _ hfree
    funext i
    refine PageTable.storeBytes_other hstores ?_
    intro w hw hback
    obtain ⟨v, hv, hpage⟩ := inImage_of_overruns hl hparse hload hover hw
    obtain ⟨v', hv', ⟨flags', hmapped⟩, -⟩ := (hbacks _ _ _).mp hback
    obtain rfl : v = v' := VirtAddr.ext (hv.trans hv'.symm)
    -- the store went to a frame of the image, which the allocator had not handed out
    exact hfree (load_free hl hd hdisj hload hpage hmapped)

end

/-- The data have 4 bytes of memory at `0x2ff8` and 16 in the file. -/
def overrunElf : ElfHeaders where
  eEntry := 0x1000
  programHeaders :=
    [⟨1, PF_R ||| PF_X, 0, 0x1000, 2, 0x10, 1⟩, ⟨1, PF_R, 2, 0x2ff8, 0x10, 4, 1⟩]

def overrunBytes : List UInt8 := [0xeb, 0xfe] ++ List.replicate 0x10 0x2a

/-- A kernel page just above the page of the data. -/
def overrunTable : PageTable := fun page =>
  if page = .ofNumber 0x662 then .mapped ⟨0x99, by decide⟩ (PRESENT ∪ WRITABLE) else .notMapped

/-- The copy runs over the end of the image into the kernel page. -/
theorem load_writes_outside : ∃ file m a mem,
    loadInto overrunElf overrunBytes overrunTable (fun _ _ => 0) = .ok (file, m, a, mem) ∧
    (0x662000, 0x2a) ∈ copyWrites overrunBytes file.segments ∧
    overrunTable (.ofNumber 0x662) ≠ .notMapped ∧
    overrunTable (.ofNumber 0x662) = m (.ofNumber 0x662) ∧ mem ⟨0x99, by decide⟩ 0 = 0x2a := by
  obtain ⟨file, m, a, mem, hload, hview⟩ :=
    exists_of_view (x := loadInto overrunElf overrunBytes overrunTable (fun _ _ => 0))
      (b := (true, overrunTable (.ofNumber 0x662), 0x2a))
      (fun file m mem => (decide ((0x662000, 0x2a) ∈ copyWrites overrunBytes file.segments),
        m (.ofNumber 0x662), mem ⟨0x99, by decide⟩ 0)) (by decide +kernel)
  obtain ⟨hwrite, hview⟩ := Prod.mk.inj hview
  obtain ⟨hentry, hbyte⟩ := Prod.mk.inj hview
  exact ⟨file, m, a, mem, hload, of_decide_eq_true hwrite, by decide, hentry.symm, hbyte⟩

theorem load_writes_iff_sharedPage : ∃ m a mem,
    loadSharedPage = .ok (sharedPageFile, m, a, mem) ∧
    ∀ w ∈ copyWrites [0xeb, 0xfe, 0x2a] sharedPageFile.segments, ∃ v : VirtAddr, v.addr = w.1 ∧
      ∃ frame flags, m (.containingAddress v) = .mapped frame flags := by
  obtain ⟨m, a, mem, hload, -⟩ := loadSharedPage_eq_ok
  have hfits : ∀ h ∈ sharedPageElf.programHeaders, h.pFilesz.toNat ≤ h.pMemsz.toNat ∧
      sharedPageElf.start h + h.pMemsz.toNat < 2 ^ 64 := by
    decide
  obtain ⟨hwrites, -⟩ := (load_writes_iff tableMapper_lawful (tableMapper_draws .panic)
    disjointRegions_sampleMap rfl hload).mpr fun h hh _ _ i hi hover => by
      unfold ElfHeaders.Overruns at hover
      obtain ⟨hlen, hwrap⟩ := hfits h hh
      omega
  refine ⟨m, a, mem, hload, fun w hw => ?_⟩
  obtain ⟨v, hv, -, hmapped⟩ := hwrites w hw
  exact ⟨v, hv, hmapped⟩

/-! ### What a read finds -/

/-- The file-backed addresses of a segment, and all of them. -/
def ElfSegment.fileRange (s : ElfSegment) : Set ℕ :=
  Set.Ico s.addr.start.addr (s.addr.start.addr + s.fileLen)

def ElfSegment.memRange (s : ElfSegment) : Set ℕ :=
  Set.Ico s.addr.start.addr (s.addr.start.addr + s.addr.len)

/-- The segments that are copied. -/
def ElfFile.loadSegments (file : ElfFile) : List ElfSegment :=
  file.segments.filter (·.ty = .load)

theorem mem_loadSegments {file : ElfFile} {s : ElfSegment} :
    s ∈ file.loadSegments ↔ s ∈ file.segments ∧ s.ty = .load := by
  rw [ElfFile.loadSegments, List.mem_filter, decide_eq_true_iff]

/-- No address is stored to twice. -/
theorem pairwise_copyWrites {file : ElfFile} (bytes : List UInt8)
    (hwrap : ∀ s ∈ file.loadSegments, s.addr.start.addr + s.fileLen ≤ 2 ^ 64)
    (hdisj : file.loadSegments.Pairwise fun s t => Disjoint s.fileRange t.fileRange) :
    (copyWrites bytes file.segments).Pairwise fun w w' => w.1 ≠ w'.1 := by
  rw [copyWrites, List.pairwise_flatMap]
  constructor
  · intro s hs
    unfold segmentWrites
    split
    · next hty =>
      have hend := hwrap s (mem_loadSegments.mpr ⟨hs, hty⟩)
      have hlen := List.length_take_le s.fileLen (bytes.drop s.fileStart)
      rw [← List.pairwise_map (f := Prod.fst), List.map_map]
      -- the addresses are those of the indices
      show ((List.zipIdx _).map ((fun i => (s.addr.start.addr + i) % 2 ^ 64) ∘ Prod.snd)).Nodup
      rw [← List.map_map, List.zipIdx_map_snd]
      refine (List.nodup_map_iff_inj_on (List.nodup_range' 1)).mpr ?_
      intro i hi j hj hij
      rw [List.mem_range'_1] at hi hj
      rw [Nat.mod_eq_of_lt (by omega), Nat.mod_eq_of_lt (by omega)] at hij
      omega
    · exact List.Pairwise.nil
  · rw [ElfFile.loadSegments, List.pairwise_filter] at hdisj
    refine hdisj.imp_of_mem ?_
    intro s t hs ht hst w hw w' hw' heq
    obtain ⟨hty, i, hi, haddr, -⟩ := mem_segmentWrites.mp hw
    obtain ⟨hty', j, hj, haddr', -⟩ := mem_segmentWrites.mp hw'
    have hends := hwrap s (mem_loadSegments.mpr ⟨hs, hty⟩)
    have hendt := hwrap t (mem_loadSegments.mpr ⟨ht, hty'⟩)
    rw [haddr, haddr', Nat.mod_eq_of_lt (by omega), Nat.mod_eq_of_lt (by omega)] at heq
    refine Set.disjoint_left.mp (hst (by simp [hty]) (by simp [hty'])) ⟨Nat.le_add_right _ i, ?_⟩
      ⟨?_, ?_⟩
    · omega
    · omega
    · omega

section

variable {M : Type} {mapper : Mapper M BootInfoFrameAllocator}
  {parse : List UInt8 → Option ElfHeaders} {o : Overflow} {bytes : List UInt8} {m m' : M}
  {a a' : BootInfoFrameAllocator} {mem mem' : PhysMemory} {file : ElfFile}
  {tables : M → List PhysFrame}

/-- Two addresses of the image are not backed by the same byte. -/
theorem backs_inj (hl : mapper.Lawful) (hd : mapper.Draws o tables)
    (hdisj : DisjointRegions a.memoryMap)
    (hload : (load mapper (BootInfoFrameAllocator.allocateFrame o) parse o bytes m a mem :
      Outcome Empty _) = .ok (file, m', a', mem')) {v w : VirtAddr}
    (hv : InImage o file (.containingAddress v)) (hw : InImage o file (.containingAddress w))
    {frame : PhysFrame} {i : ℕ} (hvf : (mapper.table m').Backs v.addr frame i)
    (hwf : (mapper.table m').Backs w.addr frame i) : v = w := by
  obtain ⟨v', hv', ⟨flags, hvf⟩, rfl⟩ := hvf
  obtain ⟨w', hw', ⟨flags', hwf⟩, hoffset⟩ := hwf
  obtain rfl : v' = v := VirtAddr.ext hv'
  obtain rfl : w' = w := VirtAddr.ext hw'
  exact Page.containingAddress_inj (load_apart hl hd hdisj hload hv hw hvf hwf) hoffset

/-- With overflow checks, no end wraps. -/
theorem end_lt_of_checks
    (hload : (load mapper (BootInfoFrameAllocator.allocateFrame o) parse .panic bytes m a mem :
      Outcome Empty _) = .ok (file, m', a', mem')) {s : ElfSegment} (hs : s ∈ file.segments) :
    s.addr.start.addr + s.addr.len < 2 ^ 64 := by
  obtain ⟨last, hlast⟩ := load_ends hload hs
  obtain ⟨e, he, -⟩ := VirtAddr.add_eq_ok.mp hlast
  rw [Overflow.addU64_panic] at he
  split at he
  · assumption
  · cases he

/-- Segments with no more bytes in the file than in memory are stored to their
own pages. -/
theorem not_beyond {s : ElfSegment} (hsize : s.fileLen ≤ s.addr.len)
    (hwrap : s.addr.start.addr + s.addr.len < 2 ^ 64) {i : ℕ} (hi : i < s.fileLen) :
    ¬ s.Beyond i := by
  unfold ElfSegment.Beyond
  omega

/-- So all their stores are in the image. -/
theorem inImage_of_fits (hl : mapper.Lawful)
    (hload : (load mapper (BootInfoFrameAllocator.allocateFrame o) parse o bytes m a mem :
      Outcome Empty _) = .ok (file, m', a', mem'))
    (hsize : ∀ s ∈ file.loadSegments, s.fileLen ≤ s.addr.len)
    (hwrap : ∀ s ∈ file.loadSegments, s.addr.start.addr + s.addr.len < 2 ^ 64)
    {w : ℕ × UInt8} (hw : w ∈ copyWrites bytes file.segments) :
    ∃ v : VirtAddr, v.addr = w.1 ∧ InImage o file (.containingAddress v) := by
  refine inImage_of_mem_copyWrites hl hload ?_ hw
  intro s hs hty i hi hout v _
  have hs := mem_loadSegments.mpr ⟨hs, hty⟩
  exact absurd hout (not_beyond (hsize s hs) (hwrap s hs) hi)

/-- No store is overwritten by a later one, if the file-backed ranges do not
meet. -/
theorem pairwise_backs (hl : mapper.Lawful) (hd : mapper.Draws o tables)
    (hdisj : DisjointRegions a.memoryMap)
    (hload : (load mapper (BootInfoFrameAllocator.allocateFrame o) parse o bytes m a mem :
      Outcome Empty _) = .ok (file, m', a', mem'))
    (hsize : ∀ s ∈ file.loadSegments, s.fileLen ≤ s.addr.len)
    (hwrap : ∀ s ∈ file.loadSegments, s.addr.start.addr + s.addr.len < 2 ^ 64)
    (hfiles : file.loadSegments.Pairwise fun s t => Disjoint s.fileRange t.fileRange) :
    (copyWrites bytes file.segments).Pairwise fun w w' =>
      ∀ frame i, (mapper.table m').Backs w.1 frame i → ¬ (mapper.table m').Backs w'.1 frame i := by
  have hends : ∀ s ∈ file.loadSegments, s.addr.start.addr + s.fileLen ≤ 2 ^ 64 := by
    intro s hs
    have hend := hwrap s hs
    have hfit := hsize s hs
    omega
  refine (pairwise_copyWrites bytes hends hfiles).imp_of_mem ?_
  intro w w' hw hw' hne frame i hback hback'
  obtain ⟨v, hv, hpage⟩ := inImage_of_fits hl hload hsize hwrap hw
  obtain ⟨v', hv', hpage'⟩ := inImage_of_fits hl hload hsize hwrap hw'
  have heq := backs_inj hl hd hdisj hload hpage hpage' (hv ▸ hback) (hv' ▸ hback')
  exact hne (hv.symm.trans ((congrArg VirtAddr.addr heq).trans hv'))

/-- Where no end wraps, the file-backed part of a segment reads as the file, if
the file-backed ranges fit their segments and do not meet. -/
theorem load_reads (hl : mapper.Lawful) (hd : mapper.Draws o tables)
    (hdisj : DisjointRegions a.memoryMap)
    (hload : (load mapper (BootInfoFrameAllocator.allocateFrame o) parse o bytes m a mem :
      Outcome Empty _) = .ok (file, m', a', mem'))
    (hsize : ∀ s ∈ file.loadSegments, s.fileLen ≤ s.addr.len)
    (hwrap : ∀ s ∈ file.loadSegments, s.addr.start.addr + s.addr.len < 2 ^ 64)
    (hfiles : file.loadSegments.Pairwise fun s t => Disjoint s.fileRange t.fileRange)
    {s : ElfSegment} (hs : s ∈ file.loadSegments) {i : ℕ} (hi : i < s.fileLen) :
    ∃ b, bytes[s.fileStart + i]? = some b ∧
      ((mapper.table m').loadByte mem' (s.addr.start.addr + i) : Outcome Empty _) = .ok b := by
  obtain ⟨m₁, hstores, hcopyable, hbacks⟩ := load_stores hl hload
  -- the frames during the copy are those of the final table
  have hpair : (copyWrites bytes file.segments).Pairwise fun w w' =>
      ∀ frame i, (mapper.table m₁).Backs w.1 frame i → ¬ (mapper.table m₁).Backs w'.1 frame i := by
    simp only [hbacks]
    exact pairwise_backs hl hd hdisj hload hsize hwrap hfiles
  obtain ⟨hmem, hty⟩ := mem_loadSegments.mp hs
  obtain ⟨b, hb, hw⟩ := mem_copyWrites hmem hty (hcopyable s hmem hty) hi
  have hlt : s.addr.start.addr + i < 2 ^ 64 := by
    have hend := hwrap s hs
    have hfit := hsize s hs
    omega
  rw [Nat.mod_eq_of_lt hlt] at hw
  refine ⟨b, hb, ?_⟩
  obtain ⟨frame, hframe⟩ := PageTable.backs_of_storeBytes hstores hw
  rw [((hbacks _ _ _).mp hframe).loadByte]
  exact congrArg Outcome.ok (PageTable.storeBytes_mem hstores hpair hw hframe)

/-- **File-backed contents.**  With overflow checks and a valid memory map, a
read through the final table gives the bytes of the file, if the file-backed
ranges fit their segments and do not meet. -/
theorem load_contents (hl : mapper.Lawful) (hd : mapper.Draws .panic tables)
    (hdisj : DisjointRegions a.memoryMap)
    (hload : (load mapper (BootInfoFrameAllocator.allocateFrame .panic) parse .panic bytes m a mem :
      Outcome Empty _) = .ok (file, m', a', mem'))
    (hsize : ∀ s ∈ file.loadSegments, s.fileLen ≤ s.addr.len)
    (hfiles : file.loadSegments.Pairwise fun s t => Disjoint s.fileRange t.fileRange) :
    ∀ s ∈ file.loadSegments, ∀ i < s.fileLen, ∃ b, bytes[s.fileStart + i]? = some b ∧
      ((mapper.table m').loadByte mem' (s.addr.start.addr + i) : Outcome Empty _) = .ok b := by
  have hwrap : ∀ s ∈ file.loadSegments, s.addr.start.addr + s.addr.len < 2 ^ 64 :=
    fun s hs => end_lt_of_checks hload (mem_loadSegments.mp hs).1
  intro s hs i hi
  exact load_reads hl hd hdisj hload hsize hwrap hfiles hs hi

end

theorem sharedPageFile_fits : ∀ s ∈ sharedPageFile.loadSegments,
    s.fileLen ≤ s.addr.len ∧ s.addr.start.addr + s.addr.len < 2 ^ 64 := by
  decide

theorem sharedPageFile_memRange :
    sharedPageFile.loadSegments.Pairwise fun s t => Disjoint s.memRange t.memRange := by
  have hsegments : sharedPageFile.loadSegments = sharedPageFile.segments := by decide
  rw [hsegments, sharedPageFile, List.pairwise_pair, Set.disjoint_left]
  rintro x ⟨-, hx⟩ ⟨hx', -⟩
  change x < 0x660000 + 0x10 at hx
  change 0x660800 ≤ x at hx'
  omega

theorem load_contents_sharedPage : ∃ m a mem,
    loadSharedPage = .ok (sharedPageFile, m, a, mem) ∧
    ∀ s ∈ sharedPageFile.loadSegments, ∀ i < s.fileLen, ∃ b,
      [0xeb, 0xfe, 0x2a][s.fileStart + i]? = some b ∧
        (m.loadByte mem (s.addr.start.addr + i) : Outcome Empty _) = .ok b := by
  obtain ⟨m, a, mem, hload, -⟩ := loadSharedPage_eq_ok
  have hfiles : sharedPageFile.loadSegments.Pairwise fun s t =>
      Disjoint s.fileRange t.fileRange := by
    refine sharedPageFile_memRange.imp_of_mem ?_
    intro s t hs ht hst
    have hfits := (sharedPageFile_fits s hs).1
    have hfits' := (sharedPageFile_fits t ht).1
    exact hst.mono (Set.Ico_subset_Ico_right (by omega)) (Set.Ico_subset_Ico_right (by omega))
  exact ⟨m, a, mem, hload, load_contents tableMapper_lawful (tableMapper_draws .panic)
    disjointRegions_sampleMap hload (fun s hs => (sharedPageFile_fits s hs).1) hfiles⟩

end Elf
