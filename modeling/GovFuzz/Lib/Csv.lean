import GovFuzz.Lib.Framed

/-!
# Lib — comma-separated values

A reader of RFC 4180 files with LF between the records: a cell is text data,
or anything between quotes with every quote in it doubled.  A file that was
written cell by cell is read as the texts of its cells.
-/

namespace GovFuzz.Lib.Csv

/-- `TEXTDATA`: printable, but neither the quote nor the comma. -/
def isTextData (b : UInt8) : Bool := 0x20 ≤ b && b ≤ 0x7e && b ≠ 34 && b ≠ 44

/-- What a quoted cell may have beside doubled quotes. -/
def isQuotable (b : UInt8) : Bool := isTextData b || b = 44 || b = 13 || b = 10

/-- A quoted cell behind its opening quote. -/
def readQuoted : List UInt8 → Option (List UInt8 × List UInt8)
  | [] => none
  | [b] => if b = 34 then some ([], []) else none
  | b :: c :: rest =>
      if b = 34 then
        if c = 34 then (readQuoted rest).map fun p => (34 :: p.1, p.2) else some ([], c :: rest)
      else if isQuotable b then (readQuoted (c :: rest)).map fun p => (b :: p.1, p.2)
      else none

def readCell : List UInt8 → Option (List UInt8 × List UInt8)
  | [] => some ([], [])
  | b :: rest =>
      if b = 34 then readQuoted rest
      else some ((b :: rest).takeWhile isTextData, (b :: rest).dropWhile isTextData)

/-- Cells up to the end of the record. -/
def readRow (s : List UInt8) : Option (List (List UInt8) × List UInt8) :=
  readSeparated readCell 44 (s.length + 1) s

/-- The records of a whole file. -/
def readFile (s : List UInt8) : Option (List (List (List UInt8))) :=
  match readSeparated readRow 10 (s.length + 1) s with
  | some (rows, []) => some rows
  | _ => none

/-! ## Written cells -/

structure Cell where
  quoted : Bool
  text : List UInt8

def doubled (b : UInt8) : List UInt8 := if b = 34 then [34, 34] else [b]

def Cell.bytes (cell : Cell) : List UInt8 :=
  if cell.quoted then 34 :: cell.text.flatMap doubled ++ [34] else cell.text

/-- The text can be written in this way. -/
def Cell.Writable (cell : Cell) : Prop :=
  cell.text ≠ [] ∧ ∀ b ∈ cell.text, if cell.quoted then b = 34 ∨ isQuotable b else isTextData b

/-- The end of the file, or of a cell. -/
def Stops (rest : List UInt8) : Prop := ∀ b l, rest = b :: l → b = 44 ∨ b = 10

theorem Stops.nil : Stops [] := nofun

theorem Stops.comma (rest : List UInt8) : Stops (44 :: rest) := by
  intro b l h
  cases h
  exact .inl rfl

theorem Stops.newline (rest : List UInt8) : Stops (10 :: rest) := by
  intro b l h
  cases h
  exact .inr rfl

theorem readQuoted_append {text : List UInt8} (h : ∀ b ∈ text, b = 34 ∨ isQuotable b)
    {rest : List UInt8} (hrest : Stops rest) :
    readQuoted (text.flatMap doubled ++ 34 :: rest) = some (text, rest) := by
  induction text with
  | nil =>
      cases rest with
      | nil => rfl
      | cons b l =>
          have hquote : b ≠ 34 := by
            rcases hrest b l rfl with rfl | rfl <;> decide
          simp [readQuoted, hquote]
  | cons b text ih =>
      rw [List.forall_mem_cons] at h
      have hothers := ih h.2
      by_cases hquote : b = 34
      · subst hquote
        simp [doubled, readQuoted, hothers]
      · have hquotable : isQuotable b := h.1.resolve_left hquote
        obtain ⟨c, l, hfront⟩ : ∃ c l, text.flatMap doubled ++ 34 :: rest = c :: l := by
          cases hbytes : text.flatMap doubled with
          | nil => exact ⟨34, rest, rfl⟩
          | cons c l => exact ⟨c, l ++ 34 :: rest, rfl⟩
        rw [hfront] at hothers
        simp [doubled, hquote, hfront, readQuoted, hquotable, hothers]

/-- A cell is read back to its text, up to where a cell stops. -/
theorem readCell_append {cell : Cell} (h : cell.Writable) {rest : List UInt8}
    (hrest : Stops rest) : readCell (cell.bytes ++ rest) = some (cell.text, rest) := by
  obtain ⟨quoted, text⟩ := cell
  obtain ⟨hne, htext⟩ := h
  cases quoted with
  | true =>
      have hread := readQuoted_append (by simpa using htext) hrest
      simp [Cell.bytes, readCell, hread]
  | false =>
      cases text with
      | nil => exact absurd rfl hne
      | cons b text =>
          have hdata : ∀ c ∈ b :: text, isTextData c := by simpa using htext
          have hquote : b ≠ 34 := by
            rintro rfl
            exact absurd (hdata 34 List.mem_cons_self) (by decide)
          have hend : rest.takeWhile isTextData = [] ∧ rest.dropWhile isTextData = rest := by
            cases rest with
            | nil => exact ⟨rfl, rfl⟩
            | cons c l =>
                have hstop : isTextData c = false := by
                  rcases hrest c l rfl with rfl | rfl <;> rfl
                simp [hstop]
          have htake : (b :: text ++ rest).takeWhile isTextData = b :: text := by
            rw [List.takeWhile_append_of_pos hdata, hend.1, List.append_nil]
          have hdrop : (b :: text ++ rest).dropWhile isTextData = rest := by
            rw [List.dropWhile_append_of_pos hdata, hend.2]
          rw [List.cons_append] at htake hdrop
          simp [Cell.bytes, readCell, hquote, htake, hdrop]

theorem Cell.Writable.bytes_ne_nil {cell : Cell} (h : cell.Writable) : cell.bytes ≠ [] := by
  unfold Cell.bytes
  split
  · exact List.cons_ne_nil _ _
  · exact h.1

/-! ## Written files -/

def rowBytes : List Cell → List UInt8 := separated Cell.bytes 44

def fileBytes : List (List Cell) → List UInt8 := separated rowBytes 10

/-- Cells that can be written, and at least one of them. -/
def RowWritable (row : List Cell) : Prop := row ≠ [] ∧ ∀ cell ∈ row, cell.Writable

theorem rowBytes_ne_nil {row : List Cell} (h : RowWritable row) : rowBytes row ≠ [] := by
  have hle := length_le_separated 44 fun cell hcell => (h.2 cell hcell).bytes_ne_nil
  have hpos := List.length_pos_iff.mpr h.1
  exact List.length_pos_iff.mp (Nat.lt_of_lt_of_le hpos hle)

theorem readRow_append {row : List Cell} (h : RowWritable row) {rest : List UInt8}
    (hrest : Stops rest) (hend : ∀ l, rest ≠ 44 :: l) :
    readRow (rowBytes row ++ rest) = some (row.map Cell.text, rest) := by
  have hle := length_le_separated 44 fun cell hcell => (h.2 cell hcell).bytes_ne_nil
  refine readSeparated_separated 44 Stops (fun cell hcell _ => readCell_append (h.2 cell hcell))
    Stops.comma h.1 ?_ hrest hend
  rw [List.length_append]
  change row.length ≤ (separated Cell.bytes 44 row).length + rest.length + 1
  omega

theorem fileBytes_ne_nil {rows : List (List Cell)} (hne : rows ≠ [])
    (h : ∀ row ∈ rows, RowWritable row) : fileBytes rows ≠ [] := by
  have hle := length_le_separated 10 fun row hrow => rowBytes_ne_nil (h row hrow)
  have hpos := List.length_pos_iff.mpr hne
  exact List.length_pos_iff.mp (Nat.lt_of_lt_of_le hpos hle)

/-- A file is read as the texts of its cells. -/
theorem readFile_fileBytes {rows : List (List Cell)} (hne : rows ≠ [])
    (h : ∀ row ∈ rows, RowWritable row) :
    readFile (fileBytes rows) = some (rows.map (List.map Cell.text)) := by
  have hle := length_le_separated 10 fun row hrow => rowBytes_ne_nil (h row hrow)
  have hend : Stops [] ∧ ∀ l : List UInt8, [] ≠ 44 :: l := ⟨Stops.nil, nofun⟩
  have hread := readSeparated_separated 10 (fun rest => Stops rest ∧ ∀ l, rest ≠ 44 :: l)
    (fun row hrow rest hrest => readRow_append (h row hrow) hrest.1 hrest.2)
    (fun rest => ⟨Stops.newline rest, by simp⟩) hne (Nat.le_succ_of_le hle) hend nofun
  rw [List.append_nil] at hread
  rw [readFile, fileBytes, hread]

end GovFuzz.Lib.Csv
