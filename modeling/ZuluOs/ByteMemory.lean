/-
Words in a byte-addressed memory.

A memory is a function from 64-bit addresses to bytes.  The word at an address
is made of the eight bytes from there on, the lowest one first, and addresses
wrap; so words may overlap in any way.

* `readWord_writeWord_self` — a word that was just written is read back;
* `readWord_congr` — a read depends on its own eight bytes;
* `readWord_writeWord_of_apart` — so a write to other bytes is not seen.
-/
import Mathlib

namespace ByteMemory

/-- A 64-bit word. -/
abbrev Word := BitVec 64

end ByteMemory

open ByteMemory in
/-- The byte at each address. -/
abbrev ByteMemory := Word → BitVec 8

namespace ByteMemory

/-- The byte at `x` is one of the eight bytes of the word at `a`. -/
def InWord (a x : Word) : Prop := (x - a).toNat < 8

instance (a x : Word) : Decidable (InWord a x) := inferInstanceAs (Decidable (_ < _))

/-- The words at `a` and `b` have no byte in common. -/
def Apart (a b : Word) : Prop := ∀ x, InWord a x → ¬ InWord b x

/-- The word at `a`: its bit `i` is a bit of the byte `i / 8` places on. -/
def readWord (mem : ByteMemory) (a : Word) : Word :=
  BitVec.ofFnLE fun i : Fin 64 => (mem (a + BitVec.ofNat 64 (i / 8))).getLsbD (i % 8)

/-- Write the word at `a`. -/
def writeWord (mem : ByteMemory) (a v : Word) : ByteMemory := fun x =>
  if InWord a x then v.extractLsb' (8 * (x - a).toNat) 8 else mem x

variable {mem mem' : ByteMemory} {a b v x : Word}

theorem writeWord_of_not_inWord (h : ¬ InWord a x) : writeWord mem a v x = mem x := if_neg h

theorem inWord_add {i : ℕ} (hi : i < 8) : InWord a (a + BitVec.ofNat 64 i) := by
  show (a + BitVec.ofNat 64 i - a).toNat < 8
  bv_omega

theorem readWord_congr (h : ∀ x, InWord a x → mem x = mem' x) :
    readWord mem a = readWord mem' a := by
  unfold readWord
  congr 1
  funext i
  rw [h _ (inWord_add (by omega))]

theorem readWord_writeWord_self : readWord (writeWord mem a v) a = v := by
  ext i hi
  have hbyte : (a + BitVec.ofNat 64 (i / 8) - a).toNat = i / 8 := by bv_omega
  have hdiv : i / 8 < 8 := by omega
  rw [readWord, BitVec.getElem_ofFnLE, writeWord, if_pos (inWord_add hdiv), hbyte,
    BitVec.getLsbD_extractLsb', decide_eq_true (Nat.mod_lt i (by decide)), Bool.true_and,
    Nat.div_add_mod]
  exact BitVec.getLsbD_eq_getElem hi

theorem readWord_writeWord_of_apart (h : Apart a b) :
    readWord (writeWord mem a v) b = readWord mem b :=
  readWord_congr fun x hx => writeWord_of_not_inWord fun hx' => h x hx' hx

/-! ### Words that are apart -/

theorem Apart.symm (h : Apart a b) : Apart b a := fun x hb ha => h x ha hb

/-- Words eight bytes or more from each other, either way round. -/
theorem apart_of_le (h : 8 ≤ (b - a).toNat) (h' : 8 ≤ (a - b).toNat) : Apart a b := by
  intro x hx hx'
  change (x - a).toNat < 8 at hx
  change (x - b).toNat < 8 at hx'
  bv_omega

theorem apart_add_eight (a : Word) : Apart a (a + 8#64) :=
  apart_of_le (by bv_omega) (by bv_omega)

theorem apart_sub_eight (a : Word) : Apart (a - 8#64) a :=
  apart_of_le (by bv_omega) (by bv_omega)

/-- A word of bytes with a property, and a word of bytes without it. -/
theorem apart_of_bytes {P : Word → Prop} (ha : ∀ x, InWord a x → P x)
    (hb : ∀ x, InWord b x → ¬ P x) : Apart a b :=
  fun x hxa hxb => hb x hxb (ha x hxa)

end ByteMemory
