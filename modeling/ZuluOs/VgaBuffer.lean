/-
The VGA text buffer: `Writer` of `vga_buffer.rs`.

The buffer is a 25 by 80 array; every access goes through the bounds check
that indexing makes.  A `Writer` carries the invariant that its column is at
most 80, the value it has while a full line waits for its next byte.

* `Writer.newLine_ok` — scrolling stays inside the buffer and homes the column;
* `Writer.writeByte_ok` — so does writing a byte;
* `Writer.writeBytes_ok`, `Writer.writeString_ok` — and writing any number of
  them.
-/
import ZuluOs.Outcome

namespace VgaBuffer

def BUFFER_HEIGHT : ℕ := 25
def BUFFER_WIDTH : ℕ := 80

/-- `ScreenChar`, with `ColorCode` as the byte it is. -/
structure ScreenChar where
  asciiCharacter : UInt8
  colorCode : UInt8
deriving DecidableEq, Repr

/-- `Buffer::chars` -/
abbrev Buffer := Fin BUFFER_HEIGHT → Fin BUFFER_WIDTH → ScreenChar

variable {ε : Type}

/-- `chars[row][col].read()` -/
def Buffer.read (b : Buffer) (row col : ℕ) : Outcome ε ScreenChar :=
  if h : row < BUFFER_HEIGHT ∧ col < BUFFER_WIDTH then .ok (b ⟨row, h.1⟩ ⟨col, h.2⟩)
  else .stop .panic

/-- `chars[row][col].write(c)` -/
def Buffer.write (b : Buffer) (row col : ℕ) (c : ScreenChar) : Outcome ε Buffer :=
  if row < BUFFER_HEIGHT ∧ col < BUFFER_WIDTH then
    .ok fun r k => if r.val = row ∧ k.val = col then c else b r k
  else .stop .panic

theorem Buffer.read_ok (b : Buffer) {row col : ℕ} (hr : row < BUFFER_HEIGHT)
    (hc : col < BUFFER_WIDTH) : (b.read row col : Outcome ε _) = .ok (b ⟨row, hr⟩ ⟨col, hc⟩) :=
  dif_pos ⟨hr, hc⟩

theorem Buffer.write_ok (b : Buffer) {row col : ℕ} (c : ScreenChar) (hr : row < BUFFER_HEIGHT)
    (hc : col < BUFFER_WIDTH) : (b.write row col c : Outcome ε _)
      = .ok fun r k => if r.val = row ∧ k.val = col then c else b r k :=
  if_pos ⟨hr, hc⟩

/-- `Writer` -/
structure Writer where
  columnPosition : ℕ
  colorCode : UInt8
  buffer : Buffer
  columnPosition_le : columnPosition ≤ BUFFER_WIDTH

/-- `WRITER` as it is first locked: yellow on black, at the left edge. -/
instance : Inhabited Writer := ⟨⟨0, 0x0e, fun _ _ => ⟨0x20, 0x0e⟩, by decide⟩⟩

/-- The inner loop of `new_line`: copy row `row` onto the one above. -/
def copyRowUp (b : Buffer) (row : ℕ) : Outcome ε Buffer :=
  (List.range BUFFER_WIDTH).foldlM
    (fun b col => do
      let character ← b.read row col
      b.write (row - 1) col character) b

/-- `clear_row` -/
def clearRow (colorCode : UInt8) (b : Buffer) (row : ℕ) : Outcome ε Buffer :=
  (List.range BUFFER_WIDTH).foldlM (fun b col => b.write row col ⟨0x20, colorCode⟩) b

/-- `Writer::new_line` -/
def Writer.newLine (w : Writer) : Outcome ε Writer := do
  let buffer ← (List.range' 1 (BUFFER_HEIGHT - 1)).foldlM copyRowUp w.buffer
  let buffer ← clearRow w.colorCode buffer (BUFFER_HEIGHT - 1)
  .ok { w with buffer := buffer, columnPosition := 0, columnPosition_le := Nat.zero_le _ }

/-- The end of `write_byte`: put the byte at the cursor and advance. -/
def Writer.putByte (w : Writer) (byte : UInt8) : Outcome ε Writer := do
  let buffer ← w.buffer.write (BUFFER_HEIGHT - 1) w.columnPosition ⟨byte, w.colorCode⟩
  -- the write has found the column in bounds
  if h : w.columnPosition < BUFFER_WIDTH then
    .ok { w with buffer := buffer, columnPosition := w.columnPosition + 1, columnPosition_le := h }
  else .stop .panic

/-- `Writer::write_byte` -/
def Writer.writeByte (w : Writer) (byte : UInt8) : Outcome ε Writer :=
  if byte = 0x0a then w.newLine
  else if BUFFER_WIDTH ≤ w.columnPosition then do
    let w ← w.newLine
    w.putByte byte
  else w.putByte byte

/-- `write_byte` on one byte after another. -/
def Writer.writeBytes (w : Writer) (bytes : List UInt8) : Outcome ε Writer :=
  bytes.foldlM Writer.writeByte w

/-- What `write_string` shows for a byte: printable ASCII and newline as they
are, `■` for the rest. -/
def displayed (byte : UInt8) : UInt8 :=
  if 0x20 ≤ byte ∧ byte ≤ 0x7e ∨ byte = 0x0a then byte else 0xfe

/-- `Writer::write_string`, on the bytes of the string. -/
def Writer.writeString (w : Writer) (s : List UInt8) : Outcome ε Writer :=
  w.writeBytes (s.map displayed)

/-! ### No access is out of bounds -/

theorem copyRowUp_ok (b : Buffer) {row : ℕ} (h : row < BUFFER_HEIGHT) :
    ∃ b', (copyRowUp b row : Outcome ε Buffer) = .ok b' := by
  refine Outcome.foldlM_total (fun col hcol c => ?_) b
  have hcol := List.mem_range.mp hcol
  rw [c.read_ok h hcol, Outcome.ok_bind, c.write_ok _ (by omega) hcol]
  exact ⟨_, rfl⟩

theorem clearRow_ok (colorCode : UInt8) (b : Buffer) {row : ℕ} (h : row < BUFFER_HEIGHT) :
    ∃ b', (clearRow colorCode b row : Outcome ε Buffer) = .ok b' := by
  refine Outcome.foldlM_total (fun col hcol c => ?_) b
  exact ⟨_, c.write_ok _ h (List.mem_range.mp hcol)⟩

theorem Writer.newLine_ok (w : Writer) :
    ∃ w', (w.newLine : Outcome ε Writer) = .ok w' ∧ w'.columnPosition = 0 := by
  obtain ⟨b, hb⟩ : ∃ b, (List.range' 1 (BUFFER_HEIGHT - 1)).foldlM copyRowUp w.buffer
      = (.ok b : Outcome ε Buffer) := by
    refine Outcome.foldlM_total (fun row hrow c => copyRowUp_ok c ?_) w.buffer
    have hrow := List.mem_range'_1.mp hrow
    unfold BUFFER_HEIGHT at *
    omega
  obtain ⟨b', hb'⟩ :=
    clearRow_ok (ε := ε) w.colorCode b (show BUFFER_HEIGHT - 1 < BUFFER_HEIGHT by decide)
  rw [Writer.newLine, hb, Outcome.ok_bind, hb', Outcome.ok_bind]
  exact ⟨_, rfl, rfl⟩

theorem Writer.putByte_ok (w : Writer) (byte : UInt8) (h : w.columnPosition < BUFFER_WIDTH) :
    ∃ w', (w.putByte byte : Outcome ε Writer) = .ok w' := by
  rw [Writer.putByte, w.buffer.write_ok _ (by decide) h, Outcome.ok_bind, dif_pos h]
  exact ⟨_, rfl⟩

theorem Writer.writeByte_ok (w : Writer) (byte : UInt8) :
    ∃ w', (w.writeByte byte : Outcome ε Writer) = .ok w' := by
  obtain ⟨w₁, hw₁, hcol⟩ := w.newLine_ok (ε := ε)
  rw [Writer.writeByte]
  split
  · exact ⟨w₁, hw₁⟩
  · split
    · rw [hw₁, Outcome.ok_bind]
      exact w₁.putByte_ok byte (by rw [hcol]; decide)
    · exact w.putByte_ok byte (by omega)

theorem Writer.writeBytes_ok (w : Writer) (bytes : List UInt8) :
    ∃ w', (w.writeBytes bytes : Outcome ε Writer) = .ok w' :=
  Outcome.foldlM_total (fun byte _ c => c.writeByte_ok byte) w

theorem Writer.writeString_ok (w : Writer) (s : List UInt8) :
    ∃ w', (w.writeString s : Outcome ε Writer) = .ok w' :=
  w.writeBytes_ok (s.map displayed)

end VgaBuffer
