/-
The ELF loader: `elf/types.rs` and `elf::load` of `elf/mod.rs`.

The loader keeps the segments it knows, moves them so that the text starts at
`LOAD_TEXT_SECTION_AT`, and then makes four passes: it merges the flags of the
segments page by page, maps every page writable, copies the file contents, and
drops write access from the pages that are not to have it.  Each pass is a
function of its own here, and `load` runs them in order.

Parsing the headers is the `object` crate's work: `parse` is any function from
the bytes of a file to its entry point and program headers.

* `parseSegments_eq_ok` — the segments are those of the kept headers, in order;
* `load_eq_ok`, `load_of_passes` — a load that returns went through every pass.
-/
import ZuluOs.Mapper

namespace Elf

variable {ε : Type}

/-! ### Types -/

/-- `ElfSegmentType` -/
inductive ElfSegmentType where
  | null
  | load
  | dynamic
  | interp
  | note
  | shlib
  | phdr
  | tls
  | loos
  | gnuEhFrame
  | gnuStack
  | gnuRelo
  | hios
  | loproc
  | hiproc
deriving DecidableEq, Repr

namespace ElfSegmentType

/-- The discriminants: the `PT_*` constants. -/
def asU32 : ElfSegmentType → UInt32
  | null => 0
  | load => 1
  | dynamic => 2
  | interp => 3
  | note => 4
  | shlib => 5
  | phdr => 6
  | tls => 7
  | loos => 0x60000000
  | gnuEhFrame => 0x6474e550
  | gnuStack => 0x6474e551
  | gnuRelo => 0x6474e552
  | hios => 0x6fffffff
  | loproc => 0x70000000
  | hiproc => 0x7fffffff

/-- `TryFromPrimitive` -/
def tryFrom (ty : UInt32) : Option ElfSegmentType :=
  [null, load, dynamic, interp, note, shlib, phdr, tls, loos, gnuEhFrame, gnuStack, gnuRelo,
    hios, loproc, hiproc].find? (·.asU32 == ty)

end ElfSegmentType

/-- `object::elf::ProgramHeader64`, less the physical address. -/
structure ProgramHeader64 where
  pType : UInt32
  pFlags : UInt32
  pOffset : UInt64
  pVaddr : UInt64
  pFilesz : UInt64
  pMemsz : UInt64
  pAlign : UInt64
deriving DecidableEq, Repr

/-- What `load` reads of a parsed file. -/
structure ElfHeaders where
  eEntry : UInt64
  programHeaders : List ProgramHeader64

def PF_X : UInt32 := 1
def PF_W : UInt32 := 2
def PF_R : UInt32 := 4

/-- `VirtualMapDestination` -/
structure VirtualMapDestination where
  start : VirtAddr
  len : ℕ
  originalStart : ℕ
deriving DecidableEq

/-- `ElfSegment`; `file_range` is `fileStart..fileEnd`. -/
structure ElfSegment where
  ty : ElfSegmentType
  align : ℕ
  flags : PageTableFlags
  fileStart : ℕ
  fileEnd : ℕ
  addr : VirtualMapDestination
deriving DecidableEq

/-- `ElfFile` -/
structure ElfFile where
  segments : List ElfSegment
  entryPoint : VirtAddr
deriving DecidableEq

/-- `VirtualMapDestination::pages` -/
def VirtualMapDestination.pages (o : Overflow) (d : VirtualMapDestination) :
    Outcome ε (List Page) := do
  let virtualPageStart := Page.containingAddress d.start
  let virtualPageEnd := Page.containingAddress (← d.start.add o d.len)
  .ok (Page.rangeInclusive virtualPageStart virtualPageEnd)

/-- `VirtualMapDestination::remap`, on the segment it is part of. -/
def ElfSegment.remap (f : VirtAddr → Outcome ε VirtAddr) (s : ElfSegment) :
    Outcome ε ElfSegment := do
  let start ← f s.addr.start
  .ok { s with addr := { s.addr with start := start } }

/-- `ElfFile::remap` -/
def ElfFile.remap (f : VirtAddr → Outcome ε VirtAddr) (file : ElfFile) :
    Outcome ε ElfFile := do
  let entryPoint ← f file.entryPoint
  let segments ← Outcome.mapEach (ElfSegment.remap f) file.segments
  .ok ⟨segments, entryPoint⟩

/-! ### Reading the segments -/

/-- `parse_segment_flags` -/
def parseSegmentFlags (section_ : ProgramHeader64) : PageTableFlags :=
  let flags : PageTableFlags := .PRESENT
  let flags := if section_.pFlags &&& PF_R ≠ 0 then flags ∪ .USER_ACCESSIBLE else flags
  let flags := if section_.pFlags &&& PF_W ≠ 0 then flags ∪ .WRITABLE else flags
  if section_.pFlags &&& PF_X = 0 then flags ∪ .NO_EXECUTE else flags

/-- One turn of the loop over the program headers, `none` where it continues. -/
def parseSegment (o : Overflow) (segment : ProgramHeader64) : Outcome ε (Option ElfSegment) :=
  match ElfSegmentType.tryFrom segment.pType with
  | none => .ok none
  | some parsedTy =>
    if parsedTy = .null then .ok none
    else if segment.pMemsz = 0 then .ok none
    else do
      let start ← VirtAddr.new segment.pVaddr.toNat
      let fileEnd ← o.addU64 segment.pOffset.toNat segment.pFilesz.toNat
      .ok (some {
        ty := parsedTy
        align := segment.pAlign.toNat
        flags := parseSegmentFlags segment
        fileStart := segment.pOffset.toNat
        fileEnd := fileEnd
        addr := ⟨start, segment.pMemsz.toNat, segment.pVaddr.toNat⟩ })

/-- The headers that give a segment: known type, not `Null`, not empty. -/
def ProgramHeader64.kept (h : ProgramHeader64) : Bool :=
  (ElfSegmentType.tryFrom h.pType).any (· ≠ .null) && h.pMemsz ≠ 0

/-- The loop over the program headers. -/
def parseSegments (o : Overflow) : List ProgramHeader64 → Outcome ε (List ElfSegment)
  | [] => .ok []
  | segment :: rest => do
    let parsed ← parseSegment o segment
    let segments ← parseSegments o rest
    .ok (parsed.toList ++ segments)

theorem parseSegment_eq_some {o : Overflow} {h : ProgramHeader64} {s : ElfSegment} :
    (parseSegment o h : Outcome ε _) = .ok (some s) ↔
      h.kept = true ∧ s.flags = parseSegmentFlags h ∧ s.align = h.pAlign.toNat ∧
      ElfSegmentType.tryFrom h.pType = some s.ty ∧ s.fileStart = h.pOffset.toNat ∧
      (o.addU64 h.pOffset.toNat h.pFilesz.toNat : Outcome ε ℕ) = .ok s.fileEnd ∧
      (VirtAddr.new h.pVaddr.toNat : Outcome ε VirtAddr) = .ok s.addr.start ∧
      s.addr.len = h.pMemsz.toNat ∧ s.addr.originalStart = h.pVaddr.toNat := by
  obtain ⟨ty, align, flags, fileStart, fileEnd, start, len, originalStart⟩ := s
  unfold parseSegment ProgramHeader64.kept
  cases hty : ElfSegmentType.tryFrom h.pType with
  | none => simp
  | some parsedTy =>
    by_cases hnull : parsedTy = .null
    · simp [hnull]
    by_cases hmem : h.pMemsz = 0
    · simp [hmem]
    simp only [hnull, hmem, if_false, Outcome.bind_eq_ok, Outcome.ok.injEq, Option.some.injEq,
      ElfSegment.mk.injEq, VirtualMapDestination.mk.injEq, Option.any_some, ne_eq,
      not_false_eq_true, decide_true, Bool.and_self, true_and]
    constructor
    · rintro ⟨start', hstart, fileEnd', hend, rfl, rfl, rfl, rfl, rfl, rfl, rfl, rfl⟩
      exact ⟨rfl, rfl, rfl, rfl, hend, hstart, rfl, rfl⟩
    · rintro ⟨rfl, rfl, rfl, rfl, hend, hstart, rfl, rfl⟩
      exact ⟨start, hstart, fileEnd, hend, rfl, rfl, rfl, rfl, rfl, rfl, rfl, rfl⟩

theorem not_kept_of_parseSegment {o : Overflow} {h : ProgramHeader64}
    (hp : (parseSegment o h : Outcome ε _) = .ok none) : h.kept = false := by
  unfold parseSegment at hp
  unfold ProgramHeader64.kept
  cases hty : ElfSegmentType.tryFrom h.pType with
  | none => rfl
  | some parsedTy =>
    by_cases hnull : parsedTy = .null
    · simp [hnull]
    by_cases hmem : h.pMemsz = 0
    · simp [hmem]
    rw [hty] at hp
    simp [hnull, hmem, Outcome.bind_eq_ok] at hp

/-- The segments are those of the kept headers, in order. -/
theorem parseSegments_eq_ok {o : Overflow} {headers : List ProgramHeader64}
    {segments : List ElfSegment}
    (h : (parseSegments o headers : Outcome ε _) = .ok segments) :
    List.Forall₂ (fun h s => (parseSegment o h : Outcome ε _) = .ok (some s))
      (headers.filter (·.kept)) segments := by
  induction headers generalizing segments with
  | nil =>
    obtain rfl := Outcome.ok.inj h
    exact List.Forall₂.nil
  | cons header headers ih =>
    simp only [parseSegments, Outcome.bind_eq_ok, Outcome.ok.injEq] at h
    obtain ⟨parsed, hparsed, rest, hrest, rfl⟩ := h
    cases parsed with
    | none =>
      rw [List.filter_cons_of_neg (by simp [not_kept_of_parseSegment hparsed])]
      exact ih hrest
    | some s =>
      rw [List.filter_cons_of_pos (parseSegment_eq_some.mp hparsed).1]
      exact List.Forall₂.cons hparsed (ih hrest)

/-! ### Relocation -/

/-- `LOAD_TEXT_SECTION_AT` -/
def LOAD_TEXT_SECTION_AT : ℕ := 0x660000

/-- `default_text_addr`: where the last executable segment starts. -/
def defaultTextAddr (segments : List ElfSegment) : Option ℕ :=
  segments.foldl (fun addr s =>
    if !s.flags.contains .NO_EXECUTE then some s.addr.start.addr else addr) none

/-- `offset_to_apply` -/
def offsetToApply (o : Overflow) (textAddr : ℕ) : Outcome ε ℤ :=
  o.ofI64 (Overflow.wrapI64 LOAD_TEXT_SECTION_AT - Overflow.wrapI64 textAddr)

/-- The closure passed to `remap`. -/
def relocate (o : Overflow) (offset : ℤ) (src : VirtAddr) : Outcome ε VirtAddr := do
  let sum ← o.ofI64 (Overflow.wrapI64 src.addr + offset)
  VirtAddr.new (sum % 2 ^ 64).toNat

theorem forall₂_comp {α β γ : Type} {R : α → β → Prop} {S : β → γ → Prop} {xs : List α}
    {ys : List β} {zs : List γ} (hR : List.Forall₂ R xs ys) (hS : List.Forall₂ S ys zs) :
    List.Forall₂ (fun x z => ∃ y, R x y ∧ S y z) xs zs := by
  induction hR generalizing zs with
  | nil =>
    obtain rfl := List.forall₂_nil_left_iff.mp hS
    exact List.Forall₂.nil
  | cons hxy _ ih =>
    obtain ⟨z, zs', hyz, hS', rfl⟩ := List.forall₂_cons_left_iff.mp hS
    exact List.Forall₂.cons ⟨_, hxy, hyz⟩ (ih hS')

theorem forall₂_mem_right {α β : Type} {R : α → β → Prop} {xs : List α} {ys : List β}
    (h : List.Forall₂ R xs ys) {y : β} (hy : y ∈ ys) : ∃ x ∈ xs, R x y := by
  induction h with
  | nil => cases hy
  | @cons x _ _ _ hxy _ ih =>
    rcases List.mem_cons.mp hy with rfl | hy
    · exact ⟨x, List.mem_cons_self, hxy⟩
    · obtain ⟨x', hx', hR⟩ := ih hy
      exact ⟨x', List.mem_cons_of_mem x hx', hR⟩

theorem forall₂_mem_left {α β : Type} {R : α → β → Prop} {xs : List α} {ys : List β}
    (h : List.Forall₂ R xs ys) {x : α} (hx : x ∈ xs) : ∃ y ∈ ys, R x y :=
  forall₂_mem_right (List.Forall₂.flip h) hx

/-- Reading and moving: each kept header gives one segment of the file. -/
theorem segments_eq_ok {o : Overflow} {offset : ℤ} {headers : List ProgramHeader64}
    {segments : List ElfSegment} {entryPoint : VirtAddr} {file : ElfFile}
    (hparse : (parseSegments o headers : Outcome ε _) = .ok segments)
    (hremap : (ElfFile.remap (relocate o offset) ⟨segments, entryPoint⟩ : Outcome ε _)
      = .ok file) :
    List.Forall₂ (fun h s => ∃ s₀, (parseSegment o h : Outcome ε _) = .ok (some s₀) ∧
        (s₀.remap (relocate o offset) : Outcome ε _) = .ok s)
      (headers.filter (·.kept)) file.segments := by
  simp only [ElfFile.remap, Outcome.bind_eq_ok, Outcome.ok.injEq] at hremap
  obtain ⟨_, -, moved, hmoved, rfl⟩ := hremap
  exact forall₂_comp (parseSegments_eq_ok hparse) (Outcome.mapEach_eq_ok.mp hmoved)

theorem remap_flags {f : VirtAddr → Outcome ε VirtAddr} {s s' : ElfSegment}
    (h : s.remap f = .ok s') : s'.flags = s.flags := by
  simp only [ElfSegment.remap, Outcome.bind_eq_ok, Outcome.ok.injEq] at h
  obtain ⟨_, -, rfl⟩ := h
  rfl

/-! ### The four passes -/

/-- How `and_modify` merges the flags of one more segment into a page's. -/
def mergeFlags (current new : PageTableFlags) : PageTableFlags :=
  let current := current ∪ new
  if !current.contains .NO_EXECUTE || !new.contains .NO_EXECUTE then
    current.remove .NO_EXECUTE
  else current

/-- `pages_to_map` -/
abbrev PageMap := Std.TreeMap Page PageTableFlags

/-- `entry(page).and_modify(..).or_insert(flags)` -/
def addPage (flags : PageTableFlags) (pages : PageMap) (page : Page) : PageMap :=
  pages.alter page fun
    | some current => some (mergeFlags current flags)
    | none => some flags

/-- First pass: merge the flags of the segments, page by page. -/
def pagesToMap (o : Overflow) (segments : List ElfSegment) : Outcome ε PageMap :=
  segments.foldlM (fun pages s => do
    let range ← s.addr.pages o
    .ok (range.foldl (addPage s.flags) pages)) ∅

section

variable {M A : Type} (mapper : Mapper M A) (allocateFrame : A → Outcome ε (Option PhysFrame × A))

/-- One turn of the mapping loop. -/
def mapPage (state : M × A) (entry : Page × PageTableFlags) : Outcome ε (M × A) := do
  let (m, a) := state
  let (page, originalFlags) := entry
  let (frame, a) ← allocateFrame a
  let frame ← .unwrap frame
  -- writable in any case, so that the data can be copied
  let flags := originalFlags ∪ .WRITABLE
  .unwrapResult (mapper.mapTo m a page frame flags)

/-- Second pass: map every page, writable for now. -/
def mapPages (pages : List (Page × PageTableFlags)) (state : M × A) : Outcome ε (M × A) :=
  pages.foldlM (mapPage mapper allocateFrame) state

/-- Copy one segment, if it is to be loaded. -/
def copySegment (o : Overflow) (bytes : List UInt8) (pt : PageTable) (mem : PhysMemory)
    (s : ElfSegment) : Outcome ε PhysMemory :=
  if s.ty = .load then
    -- `&bytes[section.file_range]` panics on a range that is not in the file
    if s.fileStart ≤ s.fileEnd ∧ s.fileEnd ≤ bytes.length then
      let sectionSrc := (bytes.drop s.fileStart).take (s.fileEnd - s.fileStart)
      -- the debug assertions of `from_raw_parts_mut` do not let a null pointer pass
      if o = .panic ∧ s.addr.start.addr = 0 then .stop .panic
      else
        sectionSrc.zipIdx.foldlM (fun mem (b, i) =>
          pt.storeByte mem ((s.addr.start.addr + i) % 2 ^ 64) b) mem
    else .stop .panic
  else .ok mem

/-- Third pass: copy the file contents. -/
def copySegments (o : Overflow) (bytes : List UInt8) (pt : PageTable) (segments : List ElfSegment)
    (mem : PhysMemory) : Outcome ε PhysMemory :=
  segments.foldlM (copySegment o bytes pt) mem

/-- One turn of the last loop. -/
def protectPage (m : M) (entry : Page × PageTableFlags) : Outcome ε M :=
  if !entry.2.contains .WRITABLE then .unwrapResult (mapper.updateFlags m entry.1 entry.2)
  else .ok m

/-- Last pass: drop write access where it is not wanted. -/
def protectPages (pages : List (Page × PageTableFlags)) (m : M) : Outcome ε M :=
  pages.foldlM (protectPage mapper) m

variable (parse : List UInt8 → Option ElfHeaders)

/-- `load`, with the state it leaves. -/
def load (o : Overflow) (bytes : List UInt8) (m : M) (a : A) (mem : PhysMemory) :
    Outcome ε (ElfFile × M × A × PhysMemory) := do
  let elf ← .unwrap (parse bytes)
  let segments ← parseSegments o elf.programHeaders
  let entryPoint ← VirtAddr.new elf.eEntry.toNat
  let elfFile : ElfFile := ⟨segments, entryPoint⟩
  let textAddr ← .unwrap (defaultTextAddr elfFile.segments)
  let offset ← offsetToApply o textAddr
  let elfFile ← elfFile.remap (relocate o offset)
  let pages ← pagesToMap o elfFile.segments
  let (m, a) ← mapPages mapper allocateFrame pages.toList (m, a)
  let mem ← copySegments o bytes (mapper.table m) elfFile.segments mem
  let m ← protectPages mapper pages.toList m
  .ok (elfFile, m, a, mem)

variable {mapper allocateFrame parse}

/-- A load that returns went through every pass. -/
theorem load_eq_ok {o : Overflow} {bytes : List UInt8} {m m' : M} {a a' : A}
    {mem mem' : PhysMemory} {file : ElfFile}
    (h : load mapper allocateFrame parse o bytes m a mem = .ok (file, m', a', mem')) :
    ∃ elf segments entryPoint textAddr offset pages m₁, parse bytes = some elf ∧
      (parseSegments o elf.programHeaders : Outcome ε _) = .ok segments ∧
      (VirtAddr.new elf.eEntry.toNat : Outcome ε _) = .ok entryPoint ∧
      defaultTextAddr segments = some textAddr ∧
      (offsetToApply o textAddr : Outcome ε _) = .ok offset ∧
      (ElfFile.remap (relocate o offset) ⟨segments, entryPoint⟩ : Outcome ε _) = .ok file ∧
      (pagesToMap o file.segments : Outcome ε _) = .ok pages ∧
      mapPages mapper allocateFrame pages.toList (m, a) = .ok (m₁, a') ∧
      (copySegments o bytes (mapper.table m₁) file.segments mem : Outcome ε _) = .ok mem' ∧
      (protectPages mapper pages.toList m₁ : Outcome ε _) = .ok m' := by
  simp only [load, Outcome.bind_eq_ok, Outcome.unwrap_eq_ok] at h
  obtain ⟨elf, hparse, segments, hsegments, entryPoint, hentry, textAddr, htext, offset, hoffset,
    file', hfile, pages, hpages, ⟨m₁, a₁⟩, hmap, mem₁, hcopy, m₂, hprotect, h⟩ := h
  cases h
  exact ⟨elf, segments, entryPoint, textAddr, offset, pages, m₁, hparse, hsegments, hentry, htext,
    hoffset, hfile, hpages, hmap, hcopy, hprotect⟩

/-- And passes that all return make a load that does. -/
theorem load_of_passes {o : Overflow} {bytes : List UInt8} {m m₁ m' : M} {a a' : A}
    {mem mem' : PhysMemory} {file : ElfFile} {elf : ElfHeaders} {segments : List ElfSegment}
    {entryPoint : VirtAddr} {textAddr : ℕ} {offset : ℤ} {pages : PageMap}
    (hparse : parse bytes = some elf)
    (hsegments : (parseSegments o elf.programHeaders : Outcome ε _) = .ok segments)
    (hentry : (VirtAddr.new elf.eEntry.toNat : Outcome ε _) = .ok entryPoint)
    (htext : defaultTextAddr segments = some textAddr)
    (hoffset : (offsetToApply o textAddr : Outcome ε _) = .ok offset)
    (hfile : (ElfFile.remap (relocate o offset) ⟨segments, entryPoint⟩ : Outcome ε _) = .ok file)
    (hpages : (pagesToMap o file.segments : Outcome ε _) = .ok pages)
    (hmap : mapPages mapper allocateFrame pages.toList (m, a) = .ok (m₁, a'))
    (hcopy : (copySegments o bytes (mapper.table m₁) file.segments mem : Outcome ε _) = .ok mem')
    (hprotect : (protectPages mapper pages.toList m₁ : Outcome ε _) = .ok m') :
    load mapper allocateFrame parse o bytes m a mem = .ok (file, m', a', mem') := by
  refine Outcome.bind_eq_ok.mpr ⟨elf, Outcome.unwrap_eq_ok.mpr hparse, ?_⟩
  refine Outcome.bind_eq_ok.mpr ⟨segments, hsegments, ?_⟩
  refine Outcome.bind_eq_ok.mpr ⟨entryPoint, hentry, ?_⟩
  refine Outcome.bind_eq_ok.mpr ⟨textAddr, Outcome.unwrap_eq_ok.mpr htext, ?_⟩
  refine Outcome.bind_eq_ok.mpr ⟨offset, hoffset, ?_⟩
  refine Outcome.bind_eq_ok.mpr ⟨file, hfile, ?_⟩
  refine Outcome.bind_eq_ok.mpr ⟨pages, hpages, ?_⟩
  refine Outcome.bind_eq_ok.mpr ⟨(m₁, a'), hmap, ?_⟩
  refine Outcome.bind_eq_ok.mpr ⟨mem', hcopy, ?_⟩
  exact Outcome.bind_eq_ok.mpr ⟨m', hprotect, rfl⟩

end

end Elf
