/-
The VGA writer as a terminal: what `write_string` leaves on the screen.

The reference has nothing to do with scrolling.  The text is split at newlines
and the lines are cut into rows of 80 bytes; the first line goes on from the
cursor.  Together with the rows that were on the screen this is a document of
any length, of which the screen shows the last 25 rows.

* `Writer.newLine_cells` — `new_line` moves every row up by one, although it
  copies cell by cell in place;
* `length_wrap_full` — a line of `80 * k` bytes takes `k` rows;
* `Writer.writeByte_terminal` — one byte leaves the document as it was, or
  takes a row off its top;
* `Writer.writeString_terminal` — the writer shows what the reference says.
-/
import ZuluOs.VgaBuffer

namespace VgaBuffer

/-! ### The reference -/

/-- A row of the screen. -/
abbrev Row := Fin BUFFER_WIDTH → ScreenChar

/-- A row of blanks. -/
def blankRow (colorCode : UInt8) : Row := fun _ => ⟨0x20, colorCode⟩

/-- `row` with `bytes` written over it from column `start` on. -/
def overwrite (colorCode : UInt8) (row : Row) (start : ℕ) (bytes : List UInt8) : Row := fun col =>
  if start ≤ col.val then
    match bytes[col.val - start]? with
    | some byte => ⟨byte, colorCode⟩
    | none => row col
  else row col

/-- Rows of 80 bytes, and none for no bytes. -/
def chunks (bytes : List UInt8) : List (List UInt8) :=
  if bytes = [] then [] else bytes.take BUFFER_WIDTH :: chunks (bytes.drop BUFFER_WIDTH)
termination_by bytes.length
decreasing_by
  have hpos := List.length_pos_iff.mpr ‹bytes ≠ []›
  rw [List.length_drop, BUFFER_WIDTH]
  omega

/-- A line in rows: one at least, and a further one only for bytes that have no
place in it. -/
def wrap (line : List UInt8) : List (List UInt8) :=
  line.take BUFFER_WIDTH :: chunks (line.drop BUFFER_WIDTH)

/-- The lines of a text. -/
def lines (text : List UInt8) : List (List UInt8) := text.splitOn 0x0a

/-- What the first line puts on a row with `room` columns left. -/
def firstPart (room : ℕ) (text : List UInt8) : List UInt8 := ((lines text).headD []).take room

/-- The rows opened after that one: what is left of the first line, and the
other lines. -/
def newRows (room : ℕ) (text : List UInt8) : List (List UInt8) :=
  chunks (((lines text).headD []).drop room) ++ (lines text).tail.flatMap wrap

namespace Writer

/-- The columns left on the bottom row. -/
def room (w : Writer) : ℕ := BUFFER_WIDTH - w.columnPosition

/-- The rows on the screen, from the top. -/
def rows (w : Writer) : List Row := List.ofFn w.buffer

def top (w : Writer) : Row := w.buffer ⟨0, by decide⟩

def bottom (w : Writer) : Row := w.buffer ⟨BUFFER_HEIGHT - 1, by decide⟩

/-- The rows above the bottom row, and those below the top row. -/
def above (w : Writer) : List Row :=
  List.ofFn fun row : Fin (BUFFER_HEIGHT - 1) => w.buffer ⟨row, Nat.lt_of_lt_pred row.isLt⟩

def below (w : Writer) : List Row :=
  List.ofFn fun row : Fin (BUFFER_HEIGHT - 1) => w.buffer ⟨row + 1, Nat.add_lt_of_lt_sub row.isLt⟩

/-- The rows on the screen, followed by the text. -/
def document (w : Writer) (text : List UInt8) : List Row :=
  w.above ++ overwrite w.colorCode w.bottom w.columnPosition (firstPart w.room text) ::
    (newRows w.room text).map (overwrite w.colorCode (blankRow w.colorCode) 0)

/-- The used width of the last row. -/
def usedWidth (w : Writer) (text : List UInt8) : ℕ :=
  match (newRows w.room text).getLast? with
  | none => w.columnPosition + (firstPart w.room text).length
  | some row => row.length

end Writer

/-! ### Facts of the reference -/

theorem chunks_nil : chunks [] = [] := by
  rw [chunks, if_pos rfl]

theorem chunks_of_ne_nil {bytes : List UInt8} (h : bytes ≠ []) : chunks bytes = wrap bytes := by
  rw [chunks, if_neg h, wrap]

/-- **Full rows.**  A line of `80 * k` bytes takes `k` rows. -/
theorem length_wrap_full {line : List UInt8} {k : ℕ} (hk : 0 < k)
    (hlen : line.length = BUFFER_WIDTH * k) : (wrap line).length = k := by
  rw [wrap, List.length_cons]
  induction k generalizing line with
  | zero => omega
  | succ k ih =>
    have hdrop : (line.drop BUFFER_WIDTH).length = BUFFER_WIDTH * k := by
      rw [List.length_drop, hlen, Nat.mul_succ, Nat.add_sub_cancel]
    by_cases hzero : k = 0
    · rw [hzero, Nat.mul_zero, List.length_eq_zero_iff] at hdrop
      rw [hdrop, chunks_nil, hzero, List.length_nil]
    · have hne : line.drop BUFFER_WIDTH ≠ [] := by
        rw [← List.length_pos_iff, hdrop, BUFFER_WIDTH]
        omega
      rw [chunks_of_ne_nil hne, wrap, List.length_cons, ih (by omega) hdrop]

/-- There is a first line. -/
theorem exists_lines (text : List UInt8) : ∃ first rest, lines text = first :: rest :=
  List.exists_cons_of_ne_nil (List.splitOn_ne_nil _ _)

theorem lines_newline (text : List UInt8) : lines (0x0a :: text) = [] :: lines text := by
  rw [lines, List.splitOn, List.splitOnP_cons_eq_if_modifyHead, if_pos (by decide)]
  rfl

theorem lines_cons {byte : UInt8} {text : List UInt8} {first : List UInt8}
    {rest : List (List UInt8)} (hbyte : byte ≠ 0x0a) (h : lines text = first :: rest) :
    lines (byte :: text) = (byte :: first) :: rest := by
  rw [lines, List.splitOn, List.splitOnP_cons_eq_if_modifyHead, if_neg (by simpa using hbyte)]
  show (lines text).modifyHead _ = _
  rw [h, List.modifyHead_cons]

/-- Nothing of `text` is left for this row; a new one is opened for `text'`. -/
def Breaks (room : ℕ) (text text' : List UInt8) : Prop :=
  firstPart room text = [] ∧
    newRows room text = firstPart BUFFER_WIDTH text' :: newRows BUFFER_WIDTH text'

/-- A newline opens a row. -/
theorem breaks_newline (room : ℕ) (text : List UInt8) : Breaks room (0x0a :: text) text := by
  obtain ⟨first, rest, h⟩ := exists_lines text
  refine ⟨?_, ?_⟩
  · rw [firstPart, lines_newline, List.headD_cons, List.take_nil]
  · rw [newRows, lines_newline, List.headD_cons, List.drop_nil, chunks_nil, List.nil_append,
      List.tail_cons, h, List.flatMap_cons, wrap, firstPart, newRows, h, List.headD_cons,
      List.tail_cons, List.cons_append]

/-- So does a byte for which there is no room. -/
theorem breaks_full {byte : UInt8} (hbyte : byte ≠ 0x0a) (text : List UInt8) :
    Breaks 0 (byte :: text) (byte :: text) := by
  obtain ⟨first, rest, h⟩ := exists_lines text
  refine ⟨List.take_zero, ?_⟩
  rw [newRows, newRows, firstPart, lines_cons hbyte h, List.headD_cons, List.tail_cons,
    List.drop_zero, chunks_of_ne_nil (List.cons_ne_nil _ _), wrap, List.cons_append]

theorem firstPart_cons {byte : UInt8} (hbyte : byte ≠ 0x0a) (room : ℕ) (text : List UInt8) :
    firstPart (room + 1) (byte :: text) = byte :: firstPart room text := by
  obtain ⟨first, rest, h⟩ := exists_lines text
  rw [firstPart, firstPart, lines_cons hbyte h, h, List.headD_cons, List.headD_cons,
    List.take_succ_cons]

theorem newRows_cons {byte : UInt8} (hbyte : byte ≠ 0x0a) (room : ℕ) (text : List UInt8) :
    newRows (room + 1) (byte :: text) = newRows room text := by
  obtain ⟨first, rest, h⟩ := exists_lines text
  rw [newRows, newRows, lines_cons hbyte h, h, List.headD_cons, List.headD_cons,
    List.drop_succ_cons, List.tail_cons, List.tail_cons]

theorem overwrite_nil (colorCode : UInt8) (row : Row) (start : ℕ) :
    overwrite colorCode row start [] = row := by
  funext col
  rw [overwrite, List.getElem?_nil, ite_self]

theorem overwrite_cons (colorCode : UInt8) (row : Row) (start : ℕ) (byte : UInt8)
    (bytes : List UInt8) : overwrite colorCode row start (byte :: bytes) =
      overwrite colorCode (overwrite colorCode row start [byte]) (start + 1) bytes := by
  funext col
  rw [overwrite, overwrite, overwrite]
  rcases Nat.lt_trichotomy col.val start with hlt | heq | hgt
  · rw [if_neg (by omega), if_neg (by omega), if_neg (by omega)]
  · rw [if_pos (by omega), if_neg (by omega), if_pos (by omega), heq, Nat.sub_self]
    rfl
  · obtain ⟨d, hd⟩ := Nat.exists_eq_add_of_lt hgt
    have hsub : col.val - start = d + 1 := by omega
    have hsub' : col.val - (start + 1) = d := by omega
    rw [if_pos (by omega), if_pos (by omega), if_pos (by omega), hsub, hsub']
    rfl

theorem Writer.rows_eq (w : Writer) : w.rows = w.above ++ [w.bottom] := by
  rw [← List.concat_eq_append]
  exact List.ofFn_succ' w.buffer

theorem Writer.rows_eq_cons (w : Writer) : w.rows = w.top :: w.below :=
  List.ofFn_succ

theorem Writer.length_above (w : Writer) : w.above.length = BUFFER_HEIGHT - 1 := List.length_ofFn

/-! ### Scrolling -/

variable {ε : Type}

/-- A row of which all cells are done is done. -/
theorem row_of_cells {row done todo : Row} {p : Prop} [Decidable p]
    (h : ∀ col, row col = if p ∧ col.val < BUFFER_WIDTH then done col else todo col) :
    row = if p then done else todo := by
  funext col
  rw [h, if_congr (and_iff_left col.isLt) rfl rfl]
  split <;> rfl

theorem copyRowUp_cells (b : Buffer) {row : ℕ} (hrow : row < BUFFER_HEIGHT) (hpos : 0 < row) :
    ∃ b', (copyRowUp b row : Outcome ε Buffer) = .ok b' ∧
      ∀ r, b' r = if r.val + 1 = row then b ⟨row, hrow⟩ else b r := by
  -- the row is copied up to column `n`; the one it is copied from stays
  let I : ℕ → Buffer → Prop := fun n c => ∀ r col, c r col =
    if r.val + 1 = row ∧ col.val < n then b ⟨row, hrow⟩ col else b r col
  have hinit : I 0 b := by
    intro r col
    rw [if_neg (by omega)]
  obtain ⟨b', hb', hcells⟩ :
      ∃ b', (copyRowUp b row : Outcome ε Buffer) = .ok b' ∧ I BUFFER_WIDTH b' := by
    rw [copyRowUp, List.range_eq_range']
    refine Outcome.foldlM_range' I ?_ hinit
    intro n hn c hc
    rw [Nat.zero_add, c.read_ok hrow hn, Outcome.ok_bind, c.write_ok _ (by omega) hn]
    refine ⟨_, rfl, ?_⟩
    intro r col
    show (if r.val = row - 1 ∧ col.val = n then _ else _) = _
    by_cases hcell : r.val = row - 1 ∧ col.val = n
    · have hcol : col = ⟨n, hn⟩ := Fin.ext hcell.2
      rw [if_pos hcell, hc, if_neg (by dsimp only; omega), if_pos (by omega), hcol]
    · have hiff : r.val + 1 = row ∧ col.val < n + 1 ↔ r.val + 1 = row ∧ col.val < n := by omega
      rw [if_neg hcell, hc, if_congr hiff rfl rfl]
  exact ⟨b', hb', fun r => row_of_cells (hcells r)⟩

theorem clearRow_cells (colorCode : UInt8) (b : Buffer) {row : ℕ} (hrow : row < BUFFER_HEIGHT) :
    ∃ b', (clearRow colorCode b row : Outcome ε Buffer) = .ok b' ∧
      ∀ r, b' r = if r.val = row then blankRow colorCode else b r := by
  let I : ℕ → Buffer → Prop := fun n c => ∀ r col, c r col =
    if r.val = row ∧ col.val < n then ⟨0x20, colorCode⟩ else b r col
  have hinit : I 0 b := by
    intro r col
    rw [if_neg (by omega)]
  obtain ⟨b', hb', hcells⟩ :
      ∃ b', (clearRow colorCode b row : Outcome ε Buffer) = .ok b' ∧ I BUFFER_WIDTH b' := by
    rw [clearRow, List.range_eq_range']
    refine Outcome.foldlM_range' I ?_ hinit
    intro n hn c hc
    rw [Nat.zero_add, c.write_ok _ hrow hn]
    refine ⟨_, rfl, ?_⟩
    intro r col
    show (if r.val = row ∧ col.val = n then _ else _) = _
    rw [hc]
    split_ifs <;> first | rfl | omega
  exact ⟨b', hb', fun r => row_of_cells (hcells r)⟩

theorem copyRowsUp_cells (b : Buffer) :
    ∃ b', ((List.range' 1 (BUFFER_HEIGHT - 1)).foldlM copyRowUp b : Outcome ε Buffer) = .ok b' ∧
      ∀ r r' : Fin BUFFER_HEIGHT, r'.val = r.val + 1 → b' r = b r' := by
  -- after `n` rows the first `n` are in place, and the others as they were
  let I : ℕ → Buffer → Prop := fun n c =>
    (∀ r r' : Fin BUFFER_HEIGHT, r.val < n → r'.val = r.val + 1 → c r = b r') ∧
      ∀ r : Fin BUFFER_HEIGHT, n ≤ r.val → c r = b r
  have hinit : I 0 b := ⟨fun _ _ hr => absurd hr (Nat.not_lt_zero _), fun _ _ => rfl⟩
  have hstep : ∀ n < BUFFER_HEIGHT - 1, ∀ c, I n c →
      ∃ c', (copyRowUp c (1 + n) : Outcome ε Buffer) = .ok c' ∧ I (n + 1) c' := by
    rintro n hn c ⟨hdone, htodo⟩
    have hrow : 1 + n < BUFFER_HEIGHT := by omega
    obtain ⟨c', hc', hcells⟩ := copyRowUp_cells (ε := ε) c hrow (by omega)
    refine ⟨c', hc', ?_, ?_⟩
    · intro r r' hr hr'
      rw [hcells]
      by_cases hlast : r.val = n
      · have hnext : r' = ⟨1 + n, hrow⟩ := Fin.ext (by dsimp only; omega)
        rw [if_pos (by omega), ← hnext, htodo r' (by omega)]
      · rw [if_neg (by omega), hdone r r' (by omega) hr']
    · intro r hr
      rw [hcells, if_neg (by omega), htodo r (by omega)]
  obtain ⟨b', hb', hdone, -⟩ := Outcome.foldlM_range' I hstep hinit
  refine ⟨b', hb', ?_⟩
  intro r r' hr'
  exact hdone r r' (by omega) hr'

namespace Writer

/-- `new_line` moves every row up by one and leaves a blank row at the bottom. -/
theorem newLine_cells (w : Writer) : ∃ w', (w.newLine : Outcome ε Writer) = .ok w' ∧
    w'.colorCode = w.colorCode ∧ w'.columnPosition = 0 ∧ w'.above = w.below ∧
    w'.bottom = blankRow w.colorCode := by
  obtain ⟨b, hb, hmoved⟩ := copyRowsUp_cells (ε := ε) w.buffer
  obtain ⟨b', hb', hclear⟩ := clearRow_cells (ε := ε) w.colorCode b
    (show BUFFER_HEIGHT - 1 < BUFFER_HEIGHT by decide)
  rw [newLine, hb, Outcome.ok_bind, hb', Outcome.ok_bind]
  refine ⟨_, rfl, rfl, rfl, ?_, ?_⟩
  · rw [above, below]
    congr 1
    funext row
    show b' _ = _
    rw [hclear, if_neg (Nat.ne_of_lt row.isLt)]
    exact hmoved _ _ rfl
  · show b' _ = _
    rw [hclear, if_pos rfl]

/-- A new line takes a row off the top of the document. -/
theorem document_of_breaks {w w' : Writer} {text text' : List UInt8}
    (hw' : (w.newLine : Outcome ε Writer) = .ok w') (h : Breaks w.room text text') :
    w'.columnPosition = 0 ∧ w.document text = w.top :: w'.document text' ∧
      w.usedWidth text = w'.usedWidth text' := by
  obtain ⟨w₁, hw₁, hcolor, hcol, habove, hbottom⟩ := w.newLine_cells (ε := ε)
  rw [hw', Outcome.ok.injEq] at hw₁
  subst hw₁
  obtain ⟨hfirst, hnew⟩ := h
  have hroom : w'.room = BUFFER_WIDTH := by rw [room, hcol, Nat.sub_zero]
  refine ⟨hcol, ?_, ?_⟩
  · rw [document, hfirst, hnew, overwrite_nil, List.append_cons, ← rows_eq, rows_eq_cons, document,
      hcolor, hbottom, hcol, hroom, habove, List.map_cons, List.cons_append]
  · rw [usedWidth, usedWidth, hnew, hroom, hcol, List.getLast?_cons, Nat.zero_add]
    cases (newRows BUFFER_WIDTH text').getLast? with
    | none => rfl
    | some row => rfl

theorem putByte_cells (w : Writer) (byte : UInt8) (h : w.columnPosition < BUFFER_WIDTH) :
    ∃ w', (w.putByte byte : Outcome ε Writer) = .ok w' ∧
      w'.colorCode = w.colorCode ∧ w'.columnPosition = w.columnPosition + 1 ∧
      w'.above = w.above ∧ w'.bottom = overwrite w.colorCode w.bottom w.columnPosition [byte] := by
  rw [putByte, w.buffer.write_ok _ (by decide) h, Outcome.ok_bind, dif_pos h]
  refine ⟨_, rfl, rfl, rfl, ?_, ?_⟩
  · rw [above, above]
    congr 1
    funext r col
    exact if_neg fun hcell => absurd hcell.1 (Nat.ne_of_lt r.isLt)
  · funext col
    show (if _ then _ else _) = _
    rw [overwrite]
    rcases Nat.lt_trichotomy col.val w.columnPosition with hlt | heq | hgt
    · rw [if_neg (by omega), if_neg (by omega)]
      rfl
    · rw [if_pos ⟨rfl, heq⟩, if_pos (by omega), heq, Nat.sub_self]
      rfl
    · obtain ⟨d, hd⟩ := Nat.exists_eq_add_of_lt hgt
      have hsub : col.val - w.columnPosition = d + 1 := by omega
      rw [if_neg (by omega), if_pos (by omega), hsub]
      rfl

/-- A byte for which there is room is only moved from the text to the screen. -/
theorem putByte_terminal (w : Writer) {byte : UInt8} (hbyte : byte ≠ 0x0a)
    (h : w.columnPosition < BUFFER_WIDTH) (text : List UInt8) :
    ∃ w', (w.putByte byte : Outcome ε Writer) = .ok w' ∧
      w'.document text = w.document (byte :: text) ∧
      w'.usedWidth text = w.usedWidth (byte :: text) := by
  obtain ⟨w', hw', hcolor, hcol, habove, hbottom⟩ := w.putByte_cells (ε := ε) byte h
  have hroom : w.room = w'.room + 1 := by
    rw [room, room, hcol]
    omega
  refine ⟨w', hw', ?_, ?_⟩
  · rw [document, document, hroom, firstPart_cons hbyte, newRows_cons hbyte, overwrite_cons, habove,
      hbottom, hcolor, hcol]
  · rw [usedWidth, usedWidth, hroom, firstPart_cons hbyte, newRows_cons hbyte, hcol,
      List.length_cons]
    split <;> omega

/-- What the screen shows of the document. -/
def terminal (w : Writer) (text : List UInt8) : List Row × ℕ :=
  ((w.document text).rtake BUFFER_HEIGHT, w.usedWidth text)

theorem terminal_of_breaks {w w' : Writer} {text text' : List UInt8}
    (hw' : (w.newLine : Outcome ε Writer) = .ok w') (h : Breaks w.room text text') :
    w'.terminal text' = w.terminal text := by
  obtain ⟨-, hdoc, hwidth⟩ := document_of_breaks hw' h
  have hlen : BUFFER_HEIGHT ≤ (w'.document text').length := by
    rw [document, List.length_append, List.length_cons, length_above, BUFFER_HEIGHT]
    omega
  rw [terminal, terminal, hdoc, hwidth, List.rtake, List.rtake, List.length_cons,
    Nat.succ_sub hlen, List.drop_succ_cons]

/-- One byte: the writer shows of the rest of the text what the writer before
showed of the text. -/
theorem writeByte_terminal (w : Writer) (byte : UInt8) (text : List UInt8) :
    ∃ w', (w.writeByte byte : Outcome ε Writer) = .ok w' ∧
      w'.terminal text = w.terminal (byte :: text) := by
  obtain ⟨w₁, hw₁, -⟩ := w.newLine_cells (ε := ε)
  rw [writeByte]
  by_cases hbyte : byte = 0x0a
  · rw [if_pos hbyte, hbyte]
    exact ⟨w₁, hw₁, terminal_of_breaks hw₁ (breaks_newline _ _)⟩
  · rw [if_neg hbyte]
    by_cases hfull : BUFFER_WIDTH ≤ w.columnPosition
    · -- the row is opened by this byte, which is put on it
      have hroom : w.room = 0 := Nat.sub_eq_zero_of_le hfull
      have hbreaks : Breaks w.room (byte :: text) (byte :: text) := by
        rw [hroom]
        exact breaks_full hbyte text
      have hcol := (document_of_breaks hw₁ hbreaks).1
      obtain ⟨w', hw', hdoc, hwidth⟩ := w₁.putByte_terminal (ε := ε) hbyte
        (by rw [hcol]; decide) text
      rw [if_pos hfull, hw₁, Outcome.ok_bind]
      refine ⟨w', hw', ?_⟩
      rw [← terminal_of_breaks hw₁ hbreaks, terminal, hdoc, hwidth, terminal]
    · rw [if_neg hfull]
      obtain ⟨w', hw', hdoc, hwidth⟩ := w.putByte_terminal (ε := ε) hbyte (by omega) text
      refine ⟨w', hw', ?_⟩
      rw [terminal, hdoc, hwidth, terminal]

theorem terminal_nil (w : Writer) : w.terminal [] = (w.rows, w.columnPosition) := by
  have hnew : newRows w.room [] = [] := by
    show chunks (List.drop _ []) ++ [] = []
    rw [List.drop_nil, chunks_nil, List.append_nil]
  have hfirst : firstPart w.room [] = [] := List.take_nil
  have hdoc : w.document [] = w.rows := by
    rw [document, hnew, hfirst, overwrite_nil, rows_eq, List.map_nil]
  rw [terminal, hdoc, usedWidth, hnew, hfirst, List.rtake, rows, List.length_ofFn, Nat.sub_self,
    List.drop_zero]
  rfl

/-- A text, byte by byte: the writer shows of what follows it what the writer
before showed of the whole. -/
theorem writeBytes_append_terminal (w : Writer) (text rest : List UInt8) :
    ∃ w', (w.writeBytes text : Outcome ε Writer) = .ok w' ∧
      w'.terminal rest = w.terminal (text ++ rest) := by
  induction text generalizing w with
  | nil => exact ⟨w, rfl, rfl⟩
  | cons byte text ih =>
    obtain ⟨w₁, hw₁, hsame⟩ := w.writeByte_terminal (ε := ε) byte (text ++ rest)
    obtain ⟨w', hw', hshow⟩ := ih w₁
    refine ⟨w', ?_, hshow.trans hsame⟩
    rw [writeBytes, List.foldlM_cons, hw₁, Outcome.ok_bind]
    exact hw'

theorem writeBytes_terminal (w : Writer) (text : List UInt8) :
    ∃ w', (w.writeBytes text : Outcome ε Writer) = .ok w' ∧
      (w'.rows, w'.columnPosition) = w.terminal text := by
  obtain ⟨w', hw', hshow⟩ := w.writeBytes_append_terminal (ε := ε) text []
  rw [terminal_nil, List.append_nil] at hshow
  exact ⟨w', hw', hshow⟩

/-- **The writer is a terminal.**  From every screen and every column
`write_string` returns, leaves the last 25 rows of the document on the screen,
and the cursor behind its last row. -/
theorem writeString_terminal (w : Writer) (s : List UInt8) :
    ∃ w', (w.writeString s : Outcome ε Writer) = .ok w' ∧
      w'.rows = (w.document (s.map displayed)).rtake BUFFER_HEIGHT ∧
      w'.columnPosition = w.usedWidth (s.map displayed) := by
  obtain ⟨w', hw', hshow⟩ := w.writeBytes_terminal (ε := ε) (s.map displayed)
  obtain ⟨hrows, hcol⟩ := Prod.mk.inj hshow
  exact ⟨w', hw', hrows, hcol⟩

end Writer

end VgaBuffer
