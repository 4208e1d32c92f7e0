/-
Relocation as a rigid translation.

`load` moves the entry point and the segments by one `i64`, so that the last
executable segment comes to `LOAD_TEXT_SECTION_AT`.  Addresses go from `u64`
through the canonicalising `VirtAddr::new` to `i64` and back.  Canonical
addresses are less than `2 ^ 47` from 0 as `i64`s, which is why nothing
overflows; what `VirtAddr::new` does to an address is not seen modulo `2 ^ 48`.

* `wrapI64_of_canonical` — a canonical address as an `i64`;
* `moved_of_eq` — what `relocate` does to one address;
* `load_rigid` — one integer moves them all.
-/
import ZuluOs.ElfImage

namespace Elf

open Overflow PageTableFlags

/-- `x` is an `i64`. -/
def FitsI64 (x : ℤ) : Prop := -2 ^ 63 ≤ x ∧ x < 2 ^ 63

/-- The address lies in the lower half, before and after it is moved by `d`. -/
def StaysLow (d : ℤ) (a : ℕ) : Prop := a < 2 ^ 47 ∧ 0 ≤ a + d ∧ a + d < 2 ^ 47

/-- An address of the file that is moved by `d`. -/
structure Moved (d : ℤ) (before after : ℕ) : Prop where
  fits : FitsI64 (wrapI64 (VirtAddr.signExtend before) + d)
  modEq : (after : ℤ) ≡ before + d [ZMOD 2 ^ 48]
  exact_of_low : StaysLow d before → (after : ℤ) = before + d

/-- The addresses that are moved, before and after: that of the entry point and
those of the kept segments. -/
def moves (elf : ElfHeaders) (file : ElfFile) : List (ℕ × ℕ) :=
  (elf.eEntry.toNat, file.entryPoint.addr) ::
    ((elf.programHeaders.filter (·.kept)).zip file.segments).map fun x =>
      (x.1.pVaddr.toNat, x.2.addr.start.addr)

/-- `offset_to_apply`, as an integer. -/
def signedDisplacement (text : ProgramHeader64) : ℤ :=
  wrapI64 LOAD_TEXT_SECTION_AT - wrapI64 (VirtAddr.signExtend text.pVaddr.toNat)

/-! ### One address -/

/-- A canonical address is close to 0 as an `i64`. -/
theorem wrapI64_of_canonical {a : ℕ} (h : Canonical a) :
    a < 2 ^ 47 ∧ wrapI64 a = a ∨ 2 ^ 47 ≤ a ∧ wrapI64 a = a - 2 ^ 64 ∧ -2 ^ 47 ≤ wrapI64 a := by
  unfold wrapI64
  rcases h with hlow | ⟨hhigh, hlt⟩
  · left
    omega
  · right
    omega

theorem wrapI64_bounds {a : ℕ} (h : Canonical a) : -2 ^ 47 ≤ wrapI64 a ∧ wrapI64 a < 2 ^ 47 := by
  have hlt := VirtAddr.addr_lt ⟨a, h⟩
  rcases wrapI64_of_canonical h with ⟨hlow, heq⟩ | ⟨hhigh, heq, hge⟩
  · omega
  · dsimp only at hlt
    omega

theorem wrapI64_textSection : wrapI64 LOAD_TEXT_SECTION_AT = LOAD_TEXT_SECTION_AT := by
  rcases wrapI64_of_canonical (.inl (by decide) : Canonical LOAD_TEXT_SECTION_AT) with
    ⟨-, heq⟩ | ⟨hhigh, -⟩
  · exact heq
  · exact absurd hhigh (by decide)

/-- The two ways to write the displacement agree modulo the word size. -/
theorem signedDisplacement_modEq (text : ProgramHeader64) :
    signedDisplacement text ≡ displacement text [ZMOD 2 ^ 64] :=
  (wrapI64_modEq _).sub (wrapI64_modEq _)

theorem signedDisplacement_bounds {text : ProgramHeader64}
    (htext : Canonical (VirtAddr.signExtend text.pVaddr.toNat)) :
    -2 ^ 47 < signedDisplacement text ∧ signedDisplacement text < 2 ^ 48 := by
  have hbounds := wrapI64_bounds htext
  rw [signedDisplacement, wrapI64_textSection, LOAD_TEXT_SECTION_AT]
  omega

/-- What `relocate` leaves of an address, in terms of the signed sum. -/
theorem relocated_eq (text : ProgramHeader64) (a : ℕ) :
    ((a + displacement text) % 2 ^ 64 : ℤ) = (wrapI64 a + signedDisplacement text) % 2 ^ 64 :=
  ((wrapI64_modEq a).add (signedDisplacement_modEq text)).symm

/-- **One address** is moved by the signed displacement. -/
theorem moved_of_eq {text : ProgramHeader64} {before after : ℕ}
    (htext : Canonical (VirtAddr.signExtend text.pVaddr.toNat))
    (hbefore : Canonical (VirtAddr.signExtend before))
    (h : after = VirtAddr.signExtend
      ((VirtAddr.signExtend before + displacement text) % 2 ^ 64).toNat) :
    Moved (signedDisplacement text) before after := by
  have hd := signedDisplacement_bounds htext
  have hb := wrapI64_bounds hbefore
  constructor
  case fits =>
    unfold FitsI64
    omega
  case modEq =>
    have hnonneg : 0 ≤ (VirtAddr.signExtend before + displacement text : ℤ) % 2 ^ 64 :=
      Int.emod_nonneg _ (by norm_num)
    have hword : (((VirtAddr.signExtend before + displacement text : ℤ) % 2 ^ 64).toNat : ℤ) ≡
        VirtAddr.signExtend before + signedDisplacement text [ZMOD 2 ^ 48] := by
      rw [Int.toNat_of_nonneg hnonneg]
      have hmod : (VirtAddr.signExtend before + displacement text : ℤ) % 2 ^ 64 ≡
          VirtAddr.signExtend before + signedDisplacement text [ZMOD 2 ^ 64] :=
        (Int.mod_modEq _ _).trans ((signedDisplacement_modEq text).symm.add_left _)
      exact hmod.of_dvd (pow_dvd_pow 2 (by decide))
    rw [h]
    exact (signExtend_modEq _).trans (hword.trans ((signExtend_modEq before).add_right _))
  case exact_of_low =>
    rintro ⟨hlow, hge, hlt⟩
    have hsame : VirtAddr.signExtend before = before :=
      VirtAddr.signExtend_of_canonical (.inl hlow)
    have hwrap : wrapI64 before = before := by
      rcases wrapI64_of_canonical (.inl hlow : Canonical before) with ⟨-, heq⟩ | ⟨hhigh, -⟩
      · exact heq
      · omega
    have hword : ((before + displacement text) % 2 ^ 64 : ℤ) = before + signedDisplacement text := by
      rw [relocated_eq, hwrap]
      exact Int.emod_eq_of_lt hge (by omega)
    rw [h, hsame, hword, VirtAddr.signExtend_of_canonical (.inl (by omega)),
      Int.toNat_of_nonneg hge]

/-- The distance of two addresses that stay low is kept. -/
theorem Moved.sub_eq {d : ℤ} {a a' b b' : ℕ} (ha : Moved d a a') (hb : Moved d b b')
    (hlow : StaysLow d a) (hlow' : StaysLow d b) : (a' : ℤ) - b' = a - b := by
  rw [ha.exact_of_low hlow, hb.exact_of_low hlow']
  ring

/-- The text itself comes to its place. -/
theorem signExtend_text (text : ProgramHeader64) :
    VirtAddr.signExtend
      ((VirtAddr.signExtend text.pVaddr.toNat + displacement text) % 2 ^ 64 : ℤ).toNat
        = LOAD_TEXT_SECTION_AT := by
  have hlow : Canonical LOAD_TEXT_SECTION_AT := .inl (by decide)
  have hlt := VirtAddr.addr_lt ⟨_, hlow⟩
  rw [displacement, add_sub_cancel, Int.emod_eq_of_lt (by omega) (by exact_mod_cast hlt),
    Int.toNat_natCast, VirtAddr.signExtend_of_canonical hlow]

/-! ### All addresses of a file -/

section

variable {M A : Type} {mapper : Mapper M A}
  {allocateFrame : A → Outcome Empty (Option PhysFrame × A)}
  {parse : List UInt8 → Option ElfHeaders} {o : Overflow} {bytes : List UInt8} {m m' : M}
  {a a' : A} {mem mem' : PhysMemory} {file : ElfFile} {elf : ElfHeaders}

/-- The entry point of a loaded file. -/
theorem load_entryPoint {text : ProgramHeader64} (hparse : parse bytes = some elf)
    (hload : load mapper allocateFrame parse o bytes m a mem = .ok (file, m', a', mem'))
    (htext : textHeader elf = some text) :
    Canonical (VirtAddr.signExtend elf.eEntry.toNat) ∧
      file.entryPoint.addr = VirtAddr.signExtend
        ((VirtAddr.signExtend elf.eEntry.toNat + displacement text) % 2 ^ 64).toNat := by
  obtain ⟨elf', segments, entryPoint, textAddr, offset, pages, m₁, hparse', hsegments, hentry,
    haddr, hoffset, hremap, -⟩ := load_eq_ok hload
  obtain rfl := Option.some.inj (hparse.symm.trans hparse')
  rw [defaultTextAddr_eq (parseSegments_eq_ok hsegments), Option.map_eq_some_iff] at haddr
  obtain ⟨text', htext', rfl⟩ := haddr
  obtain rfl : text' = text := Option.some.inj (htext'.symm.trans htext)
  simp only [ElfFile.remap, Outcome.bind_eq_ok, Outcome.ok.injEq] at hremap
  obtain ⟨moved, hmoved, segments', -, rfl⟩ := hremap
  have hentry := VirtAddr.new_eq_ok.mp hentry
  rw [← hentry]
  exact ⟨entryPoint.canonical, relocate_eq_ok hoffset hmoved⟩

/-- The last of the elements of two lists that are picked alike. -/
theorem forall₂_getLast?_filter {α β : Type} {R : α → β → Prop} {p : α → Bool} {q : β → Bool}
    (hpq : ∀ x y, R x y → (p x = true ↔ q y = true)) {xs : List α} {ys : List β}
    (h : List.Forall₂ R xs ys) {x : α} (hx : (xs.filter p).getLast? = some x) :
    ∃ y, (ys.filter q).getLast? = some y ∧ R x y := by
  have hfilter : List.Forall₂ R (xs.filter p).reverse (ys.filter q).reverse :=
    List.forall₂_reverse_iff.mpr (List.rel_filter (fun {x y} hxy => hpq x y hxy) h)
  rw [List.getLast?_eq_head?_reverse, List.head?_eq_some_iff] at hx
  obtain ⟨rest, hrest⟩ := hx
  rw [hrest] at hfilter
  obtain ⟨y, rest', hxy, -, hrest'⟩ := List.forall₂_cons_left_iff.mp hfilter
  exact ⟨y, by rw [List.getLast?_eq_head?_reverse, hrest', List.head?_cons], hxy⟩

/-- **Relocation is one rigid translation.**  The `i64` arithmetic does not
overflow, in either build.  The last executable segment comes to
`LOAD_TEXT_SECTION_AT`, and one integer moves the entry point and all segments:
modulo `2 ^ 48`, and as integers where an address stays in the lower half, so
that the distances between such addresses are kept. -/
theorem load_rigid (o : Overflow) (bytes : List UInt8) (m m' : M) (a a' : A)
    (mem mem' : PhysMemory) (file : ElfFile) (elf : ElfHeaders) (hparse : parse bytes = some elf)
    (hload : load mapper allocateFrame parse o bytes m a mem = .ok (file, m', a', mem')) :
    ∃ text, textHeader elf = some text ∧ FitsI64 (signedDisplacement text) ∧
      (∃ s, (file.segments.filter fun s => !s.flags.contains NO_EXECUTE).getLast? = some s ∧
        s.addr.originalStart = text.pVaddr.toNat ∧
        s.addr.start.addr = LOAD_TEXT_SECTION_AT) ∧
      file.segments.length = (elf.programHeaders.filter (·.kept)).length ∧
      (∀ x ∈ moves elf file, Moved (signedDisplacement text) x.1 x.2) ∧
      ∀ x ∈ moves elf file, ∀ y ∈ moves elf file, StaysLow (signedDisplacement text) x.1 →
        StaysLow (signedDisplacement text) y.1 → (x.2 : ℤ) - y.2 = x.1 - y.1 := by
  obtain ⟨text, htext, hsegments⟩ := load_segments hparse hload
  obtain ⟨hentry, hentry'⟩ := load_entryPoint hparse hload htext
  have hexec : ∀ h s, Relocated o text h s →
      (decide (h.pFlags &&& PF_X ≠ 0) = true ↔ (!s.flags.contains NO_EXECUTE) = true) := by
    intro h s hs
    rw [hs.flags, Bool.not_eq_true', ← Bool.not_eq_true, (contains_parseSegmentFlags h).2.2,
      decide_eq_true_iff]
  obtain ⟨s, hlast, hs⟩ := forall₂_getLast?_filter hexec hsegments htext
  have hmoved : ∀ x ∈ moves elf file, Moved (signedDisplacement text) x.1 x.2 := by
    intro x hx
    rcases List.mem_cons.mp hx with rfl | hx
    · exact moved_of_eq hs.canonical hentry hentry'
    · obtain ⟨⟨h, t⟩, hmem, rfl⟩ := List.mem_map.mp hx
      have ht : Relocated o text h t := (List.forall₂_iff_zip.mp hsegments).2 hmem
      exact moved_of_eq hs.canonical ht.canonical ht.start
  refine ⟨text, htext, ?_, ⟨s, hlast, hs.originalStart, ?_⟩, hsegments.length_eq.symm, hmoved, ?_⟩
  · have hbounds := signedDisplacement_bounds hs.canonical
    unfold FitsI64
    omega
  · rw [hs.start, signExtend_text]
  · intro x hx y hy hlow hlow'
    exact (hmoved x hx).sub_eq (hmoved y hy) hlow hlow'

end

theorem load_rigid_sharedPage : ∃ text, textHeader sharedPageElf = some text ∧
    ∀ x ∈ moves sharedPageElf sharedPageFile, ∀ y ∈ moves sharedPageElf sharedPageFile,
      (x.2 : ℤ) - y.2 = x.1 - y.1 := by
  obtain ⟨m, a, mem, hload, -⟩ := loadSharedPage_eq_ok
  obtain ⟨text, htext, -, -, -, -, hdist⟩ :=
    load_rigid .panic _ _ m _ a _ mem sharedPageFile sharedPageElf rfl hload
  have hlow : ∀ x ∈ moves sharedPageElf sharedPageFile,
      StaysLow (signedDisplacement text) x.1 := by
    obtain rfl := Option.some.inj (htext.symm.trans rfl)
    unfold StaysLow
    decide
  exact ⟨text, htext, fun x hx y hy => hdist x hx y hy (hlow x hx) (hlow y hy)⟩

end Elf
