/-
The paging vocabulary of the `x86_64` crate, as the kernel uses it.

A virtual address is canonical when bits 47..63 agree.  `VirtAddr::try_new`
accepts a canonical word unchanged, sign-extends a word of which only bit 47
of these is set, and rejects the rest; `VirtAddr::new` panics where it
rejects, and `VirtAddr + n` is `VirtAddr::new` of the `u64` sum.

Canonical pages are numbered densely by bits 12..47 of their addresses.  The
numbering is monotone, and the page after the last one of the lower half is
the first one of the upper half, which is the page `Page + 1` reaches by sign
extension; so `Page::range_inclusive` is a range of page numbers
(`Page.mem_rangeInclusive`).

A page table is what `translate` shows of it: one leaf for each 4 KiB page.
-/
import ZuluOs.Outcome

/-! ### Virtual addresses -/

/-- Bits 47..63 of the word are all clear or all set. -/
def Canonical (a : ℕ) : Prop := a < 2 ^ 47 ∨ 2 ^ 64 - 2 ^ 47 ≤ a ∧ a < 2 ^ 64

instance : DecidablePred Canonical := fun _ => inferInstanceAs (Decidable (_ ∨ _))

/-- `x86_64::VirtAddr`: a 64-bit word that is a canonical address. -/
@[ext] structure VirtAddr where
  addr : ℕ
  canonical : Canonical addr
deriving DecidableEq

namespace VirtAddr

variable {ε : Type}

theorem addr_lt (a : VirtAddr) : a.addr < 2 ^ 64 := by
  have h := a.canonical
  unfold Canonical at h
  omega

/-- Only bit 47 of the bits 47..63 is set: the words that sign extension
repairs. -/
def NeedsSignExtension (a : ℕ) : Prop := 2 ^ 47 ≤ a ∧ a < 2 ^ 48

instance : DecidablePred NeedsSignExtension := fun _ => inferInstanceAs (Decidable (_ ∧ _))

/-- Copies bit 47 into the bits above it where `try_new` does so. -/
def signExtend (a : ℕ) : ℕ := if NeedsSignExtension a then a + (2 ^ 64 - 2 ^ 48) else a

/-- `VirtAddr::try_new`, `none` for `VirtAddrNotValid`. -/
def tryNew (a : ℕ) : Option VirtAddr :=
  if h : Canonical (signExtend a) then some ⟨signExtend a, h⟩ else none

/-- `VirtAddr::new`. -/
def new (a : ℕ) : Outcome ε VirtAddr := .unwrap (tryNew a)

/-- `addr + n`. -/
def add (o : Overflow) (a : VirtAddr) (n : ℕ) : Outcome ε VirtAddr := do
  new (← o.addU64 a.addr n)

/-- `addr - n`. -/
def sub (o : Overflow) (a : VirtAddr) (n : ℕ) : Outcome ε VirtAddr := do
  new (← o.subU64 a.addr n)

theorem tryNew_eq_some {a : ℕ} {v : VirtAddr} :
    tryNew a = some v ↔ v.addr = signExtend a := by
  have hv := v.canonical
  unfold tryNew
  constructor
  · intro h
    split at h
    · rw [← Option.some.inj h]
    · cases h
  · intro h
    rw [h] at hv
    rw [dif_pos hv, Option.some.injEq, mk.injEq, h]

theorem signExtend_of_canonical {a : ℕ} (h : Canonical a) : signExtend a = a := by
  unfold Canonical at h
  rw [signExtend, if_neg]
  unfold NeedsSignExtension
  omega

/-- The two cases of sign extension. -/
theorem signExtend_cases (a : ℕ) :
    (2 ^ 47 ≤ a ∧ a < 2 ^ 48) ∧ signExtend a = a + (2 ^ 64 - 2 ^ 48) ∨
      (a < 2 ^ 47 ∨ 2 ^ 48 ≤ a) ∧ signExtend a = a := by
  by_cases h : NeedsSignExtension a
  · exact .inl ⟨h, if_pos h⟩
  · refine .inr ⟨?_, if_neg h⟩
    unfold NeedsSignExtension at h
    omega

/-- The words `try_new` accepts. -/
theorem canonical_signExtend {a : ℕ} :
    Canonical (signExtend a) ↔ a < 2 ^ 48 ∨ 2 ^ 64 - 2 ^ 47 ≤ a ∧ a < 2 ^ 64 := by
  have h := signExtend_cases a
  unfold Canonical
  omega

theorem new_eq_ok {a : ℕ} {v : VirtAddr} : (new a : Outcome ε VirtAddr) = .ok v ↔
    v.addr = signExtend a := by
  rw [new, Outcome.unwrap_eq_ok, tryNew_eq_some]

theorem new_of_canonical {a : ℕ} (h : Canonical a) :
    (new a : Outcome ε VirtAddr) = .ok ⟨a, h⟩ :=
  new_eq_ok.mpr (signExtend_of_canonical h).symm

theorem add_eq_ok {o : Overflow} {a v : VirtAddr} {n : ℕ} :
    (a.add o n : Outcome ε VirtAddr) = .ok v ↔
      ∃ m, (o.addU64 a.addr n : Outcome ε ℕ) = .ok m ∧ v.addr = signExtend m := by
  simp only [add, Outcome.bind_eq_ok, new_eq_ok]

theorem add_of_canonical (o : Overflow) {a : VirtAddr} {n : ℕ} (h : Canonical (a.addr + n)) :
    (a.add o n : Outcome ε VirtAddr) = .ok ⟨a.addr + n, h⟩ := by
  rw [add, o.addU64_of_lt (addr_lt ⟨_, h⟩), Outcome.ok_bind, new_of_canonical h]

theorem sub_of_canonical (o : Overflow) {a : VirtAddr} {n : ℕ} (hn : n ≤ a.addr)
    (h : Canonical (a.addr - n)) : (a.sub o n : Outcome ε VirtAddr) = .ok ⟨a.addr - n, h⟩ := by
  rw [sub, o.subU64_of_le hn, Outcome.ok_bind, new_of_canonical h]

end VirtAddr

/-! ### Pages -/

/-- `Page<Size4KiB>`, named by bits 12..47 of its addresses (the crate stores
the start address; the two determine each other). -/
@[ext] structure Page where
  number : ℕ
  number_lt : number < 2 ^ 36
deriving DecidableEq

namespace Page

/-- Pages are ordered as their start addresses are. -/
instance : Ord Page := ⟨compareOn Page.number⟩

instance : Std.TransOrd Page := inferInstanceAs (Std.TransCmp (compareOn Page.number))

instance : Std.LawfulEqOrd Page where
  eq_of_compare h := Page.ext (Std.compare_eq_iff_eq.mp h)

/-- `Page::containing_address`. -/
def containingAddress (a : VirtAddr) : Page := ⟨a.addr % 2 ^ 48 / 4096, by omega⟩

/-- `Page::start_address`. -/
def startAddress (p : Page) : VirtAddr :=
  ⟨if p.number < 2 ^ 35 then p.number * 4096 else p.number * 4096 + (2 ^ 64 - 2 ^ 48), by
    have := p.number_lt
    unfold Canonical
    split <;> omega⟩

/-- The page with number `n`, for `n < 2 ^ 36`. -/
def ofNumber (n : ℕ) : Page := ⟨n % 2 ^ 36, Nat.mod_lt _ (by decide)⟩

/-- The pages `Page::range_inclusive(first, last)` yields, in order. -/
def rangeInclusive (first last : Page) : List Page :=
  (List.range' first.number (last.number + 1 - first.number)).map ofNumber

/-- The pages `Page::range(first, last)` yields, in order. -/
def range (first last : Page) : List Page :=
  (List.range' first.number (last.number - first.number)).map ofNumber

theorem mem_rangeInclusive {first last p : Page} :
    p ∈ rangeInclusive first last ↔ first.number ≤ p.number ∧ p.number ≤ last.number := by
  have hp := p.number_lt
  have hlast := last.number_lt
  simp only [rangeInclusive, List.mem_map, List.mem_range'_1]
  constructor
  · rintro ⟨n, hn, rfl⟩
    simp only [ofNumber]
    omega
  · intro h
    exact ⟨p.number, by omega, Page.ext (Nat.mod_eq_of_lt hp)⟩

theorem nodup_rangeInclusive (first last : Page) : (rangeInclusive first last).Nodup := by
  have hlast := last.number_lt
  refine (List.nodup_map_iff_inj_on (List.nodup_range' 1)).mpr fun i hi j hj hij => ?_
  rw [List.mem_range'_1] at hi hj
  have hij : i % 2 ^ 36 = j % 2 ^ 36 := congrArg Page.number hij
  rwa [Nat.mod_eq_of_lt (by omega), Nat.mod_eq_of_lt (by omega)] at hij

theorem containingAddress_startAddress (p : Page) :
    containingAddress p.startAddress = p := by
  have hp := p.number_lt
  refine Page.ext ?_
  simp only [containingAddress, startAddress]
  split <;> omega

/-- An address is its page and its offset in it. -/
theorem containingAddress_inj {v w : VirtAddr} (h : containingAddress v = containingAddress w)
    (hoffset : v.addr % 4096 = w.addr % 4096) : v = w := by
  have hv := v.canonical
  have hw := w.canonical
  have hnumber : v.addr % 2 ^ 48 / 4096 = w.addr % 2 ^ 48 / 4096 := congrArg Page.number h
  unfold Canonical at hv hw
  exact VirtAddr.ext (by omega)

/-- In one half of the address space, the pages from that of `a` to that of `b`
are those with a byte from `a` to `b`. -/
theorem mem_rangeInclusive_iff_exists {a b : VirtAddr} {p : Page} (hab : a.addr ≤ b.addr)
    (hhalf : b.addr < 2 ^ 47 ∨ 2 ^ 47 ≤ a.addr) :
    p ∈ rangeInclusive (containingAddress a) (containingAddress b) ↔
      ∃ v : VirtAddr, a.addr ≤ v.addr ∧ v.addr ≤ b.addr ∧ containingAddress v = p := by
  have ha := a.canonical
  have hb := b.canonical
  unfold Canonical at ha hb
  rw [mem_rangeInclusive]
  constructor
  · rintro ⟨hfirst, hlast⟩
    simp only [containingAddress] at hfirst hlast
    have hp := p.number_lt
    by_cases hstart : a.addr ≤ p.startAddress.addr
    · refine ⟨p.startAddress, hstart, ?_, containingAddress_startAddress p⟩
      simp only [startAddress] at hstart ⊢
      split at hstart <;> rename_i hlow
      · rw [if_pos hlow]
        omega
      · rw [if_neg hlow]
        omega
    · refine ⟨a, le_rfl, hab, Page.ext ?_⟩
      simp only [containingAddress, startAddress] at hstart ⊢
      split at hstart <;> omega
  · rintro ⟨v, hv, hv', rfl⟩
    simp only [containingAddress]
    omega

end Page

/-! ### Flags, frames and page tables -/

/-- `PageTableFlags`, a set of bits. -/
@[ext] structure PageTableFlags where
  bits : BitVec 64
deriving DecidableEq

namespace PageTableFlags

/-- The flag that is bit `i` alone. -/
def bit (i : ℕ) : PageTableFlags := ⟨BitVec.twoPow 64 i⟩

def PRESENT : PageTableFlags := bit 0
def WRITABLE : PageTableFlags := bit 1
def USER_ACCESSIBLE : PageTableFlags := bit 2
def NO_EXECUTE : PageTableFlags := bit 63

/-- Union of flags, `|` and `|=`. -/
instance : Union PageTableFlags := ⟨fun f g => ⟨f.bits ||| g.bits⟩⟩

/-- `f.contains(g)` -/
def contains (f g : PageTableFlags) : Bool := f.bits &&& g.bits == g.bits

/-- `f.set(g, false)` -/
def remove (f g : PageTableFlags) : PageTableFlags := ⟨f.bits &&& ~~~g.bits⟩

theorem contains_bit (f : PageTableFlags) {i : ℕ} (hi : i < 64) :
    f.contains (bit i) = f.bits.getLsbD i := by
  rw [contains, bit, Bool.eq_iff_iff, beq_iff_eq]
  constructor
  · intro h
    have hbit := congrArg (·.getLsbD i) h
    simpa [hi] using hbit
  · intro h
    ext j hj
    simp only [BitVec.getElem_and, BitVec.getElem_twoPow]
    by_cases hij : j = i
    · subst hij
      simp [← BitVec.getLsbD_eq_getElem, h]
    · simp [hij]

/-- A one-bit flag is in a union iff it is in one of the two. -/
theorem contains_union_bit (f g : PageTableFlags) {i : ℕ} (hi : i < 64) :
    (f ∪ g).contains (bit i) = (f.contains (bit i) || g.contains (bit i)) := by
  rw [contains_bit _ hi, contains_bit _ hi, contains_bit _ hi]
  exact BitVec.getLsbD_or

theorem union_eq_left {f g : PageTableFlags} (h : f.contains g = true) : f ∪ g = f := by
  rw [contains, beq_iff_eq] at h
  refine PageTableFlags.ext ?_
  change f.bits ||| g.bits = f.bits
  rw [← h]
  ext i hi
  cases hf : f.bits[i] <;> simp [hf]

theorem contains_remove_bit (f : PageTableFlags) {i j : ℕ} (hi : i < 64) :
    (f.remove (bit j)).contains (bit i) = (f.contains (bit i) && !decide (i = j)) := by
  rw [contains_bit _ hi, contains_bit _ hi]
  simp only [remove, bit, BitVec.getLsbD_and, BitVec.getLsbD_not, BitVec.getLsbD_twoPow, hi,
    decide_true, Bool.true_and]
  by_cases hij : i = j
  · subst hij
    simp [hi]
  · simp [hij, Ne.symm hij]

end PageTableFlags

/-- `PhysFrame<Size4KiB>`: a 4 KiB frame of the 52-bit physical address
space, by number. -/
@[ext] structure PhysFrame where
  number : ℕ
  number_lt : number < 2 ^ 40
deriving DecidableEq

namespace PhysFrame

/-- `PhysFrame::start_address`. -/
def startAddress (f : PhysFrame) : ℕ := f.number * 4096

end PhysFrame

/-- `TranslateResult`, less the offset in the frame. -/
inductive TranslateResult where
  | notMapped
  | invalidFrameAddress (addr : ℕ)
  | mapped (frame : PhysFrame) (flags : PageTableFlags)
deriving DecidableEq

/-- The leaf entry of each 4 KiB page. -/
abbrev PageTable := Page → TranslateResult

/-- `Translate::translate`; it only looks at the page of the address. -/
def PageTable.translate (pt : PageTable) (a : VirtAddr) : TranslateResult :=
  pt (Page.containingAddress a)

/-! ### Memory behind a page table -/

/-- The byte at each offset of each frame. -/
abbrev PhysMemory := PhysFrame → ℕ → UInt8

/-- A read of one byte by kernel code: it faults unless the address is
canonical and mapped. -/
def PageTable.loadByte {ε : Type} (pt : PageTable) (mem : PhysMemory) (a : ℕ) :
    Outcome ε UInt8 :=
  if h : Canonical a then
    match pt.translate ⟨a, h⟩ with
    | .mapped frame _ => .ok (mem frame (a % 4096))
    | _ => .stop .fault
  else .stop .fault

theorem PageTable.loadByte_ok {ε : Type} {pt : PageTable} {mem : PhysMemory} {v : VirtAddr}
    {frame : PhysFrame} {flags : PageTableFlags} (h : pt.translate v = .mapped frame flags) :
    (pt.loadByte mem v.addr : Outcome ε UInt8) = .ok (mem frame (v.addr % 4096)) := by
  rw [loadByte, dif_pos v.canonical, h]

theorem PageTable.canonical_of_loadByte {ε : Type} {pt : PageTable} {mem : PhysMemory} {a : ℕ}
    {b : UInt8} (h : (pt.loadByte mem a : Outcome ε UInt8) = .ok b) : Canonical a := by
  by_contra hc
  rw [loadByte, dif_neg hc] at h
  cases h

theorem PageTable.loadByte_ne_err {ε : Type} (pt : PageTable) (mem : PhysMemory) (a : ℕ) (e : ε) :
    pt.loadByte mem a ≠ .err e := by
  unfold loadByte
  repeat' split
  all_goals simp
