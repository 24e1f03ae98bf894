import GovFuzz.FuzzEngine.Shapes
import GovFuzz.FuzzEngine.StructuredText
import GovFuzz.Lib.Csv

/-!
# Fuzz engine — CSV outputs are read back

A CSV output is read as one to four rows of one to three cells, every cell
the image of some bytes from the front of a token.  A cell that needs quotes
and has no room for them is written plain, with an underscore for every
separator.
-/

namespace GovFuzz.FuzzEngine

open GovFuzz.Lib

/-! ## Cells -/

/-- What a byte of the token becomes between quotes. -/
def csvQuotedByte (byte : UInt8) : UInt8 :=
  if byte = byteOf '\n' || byte = byteOf '\r' then byteOf ' '
  else if printable byte then byte
  else byteOf '_'

theorem csvEscape_eq (byte : UInt8) : csvEscape byte = Csv.doubled (csvQuotedByte byte) := by
  revert byte
  exact forall_byte (by decide +kernel)

theorem csvQuotedByte_quotable (byte : UInt8) :
    csvQuotedByte byte = 34 ∨ Csv.isQuotable (csvQuotedByte byte) := by
  revert byte
  exact forall_byte (by decide +kernel)

theorem csvByte_textData (byte : UInt8) : Csv.isTextData (csvByte [] byte) := by
  revert byte
  exact forall_byte (by decide +kernel)

/-- A cell written for a token: the images of the first bytes, or the filler
where not one of them fits. -/
def CellOf (token : List UInt8) (cell : Csv.Cell) : Prop :=
  ∃ used, used <+: token ∧
    cell.text = orFiller (used.map (if cell.quoted then csvQuotedByte else csvByte [])) (byteOf 'x')

theorem CellOf.writable {token : List UInt8} {cell : Csv.Cell} (h : CellOf token cell) :
    cell.Writable := by
  obtain ⟨used, -, htext⟩ := h
  refine ⟨htext ▸ orFiller_ne_nil _ _, fun byte hbyte => ?_⟩
  rw [htext] at hbyte
  cases hquoted : cell.quoted with
  | true =>
      rw [hquoted] at hbyte
      rcases mem_orFiller hbyte with hbyte | rfl
      · obtain ⟨source, -, rfl⟩ := List.mem_map.mp hbyte
        exact csvQuotedByte_quotable source
      · decide
  | false =>
      rw [hquoted] at hbyte
      rcases mem_orFiller hbyte with hbyte | rfl
      · obtain ⟨source, -, rfl⟩ := List.mem_map.mp hbyte
        exact csvByte_textData source
      · decide

/-- Every fragment is a cell of its token. -/
theorem csvCellFragment_cell {token output : List UInt8} {maxLen : Nat}
    (h : csvCellFragment token maxLen = some output) :
    ∃ cell, CellOf token cell ∧ output = cell.bytes := by
  unfold csvCellFragment at h
  by_cases hzero : maxLen = 0
  · rw [if_pos hzero] at h
    cases h
  rw [if_neg hzero] at h
  dsimp only at h
  split at h
  next hquoted =>
    obtain ⟨used, hused, hpushed⟩ :=
      pushEscape_prefix maxLen 1 csvEscape token [byteOf '"']
    rw [hpushed] at h
    cases h
    refine ⟨⟨true, orFiller (used.map csvQuotedByte) (byteOf 'x')⟩, ⟨used, hused, rfl⟩, ?_⟩
    -- to escape a byte is to take its image and to double the quotes
    have hescaped : used.flatMap csvEscape = (used.map csvQuotedByte).flatMap Csv.doubled := by
      rw [List.flatMap_map]
      exact List.flatMap_congr fun byte _ => csvEscape_eq byte
    rw [hescaped]
    cases used with
    | nil => exact closeQuote_nil hquoted.2 _
    | cons byte used =>
        have hbody : ((byte :: used).map csvQuotedByte).flatMap Csv.doubled ≠ [] := by
          rw [List.map_cons, List.flatMap_cons, Csv.doubled]
          split <;> exact List.cons_ne_nil _ _
        exact closeQuote_cons hbody _ maxLen
  next =>
    obtain ⟨used, hused, hpushed⟩ :=
      pushImage_prefix maxLen (csvByte []) token []
    have himage : pushImage maxLen csvByte = pushImage maxLen fun _ => csvByte [] := rfl
    rw [himage, hpushed] at h
    cases h
    exact ⟨⟨false, _⟩, ⟨used, hused, rfl⟩, rfl⟩

/-! ## Rows and files -/

/-- The cells of a row come from tokens of the dictionary. -/
def RowOf (dictionary : Dictionary) (row : List Csv.Cell) : Prop :=
  ∀ cell ∈ row, ∃ token ∈ dictionary.tokens, CellOf token cell

theorem RowOf.writable {dictionary : Dictionary} {row : List Csv.Cell} (h : RowOf dictionary row)
    (hne : row ≠ []) : Csv.RowWritable row := by
  refine ⟨hne, fun cell hcell => ?_⟩
  obtain ⟨token, -, htoken⟩ := h cell hcell
  exact htoken.writable

/-- What the loop over the cells wrote. -/
def CellsWritten (dictionary : Dictionary) : (turns : Nat) → Items → Prop :=
  Written Csv.rowBytes (RowOf dictionary)

/-- A row of at least one and at most three cells. -/
structure CsvRow (dictionary : Dictionary) (row : List Csv.Cell) : Prop where
  some : row ≠ []
  few : row.length ≤ maxStructuredCsvColumns
  cells : RowOf dictionary row

theorem CsvRow.writable {dictionary : Dictionary} {row : List Csv.Cell}
    (h : CsvRow dictionary row) : Csv.RowWritable row := h.cells.writable h.some

/-- What the loop over the rows wrote. -/
def RowsWritten (dictionary : Dictionary) : (turns : Nat) → Items → Prop :=
  Written Csv.fileBytes fun rows => ∀ row ∈ rows, CsvRow dictionary row

/-- The rows that were written, and what is read of them. -/
def ReadsAsRows (dictionary : Dictionary) (output : List UInt8) : Prop :=
  ∃ rows, output = Csv.fileBytes rows
    ∧ Csv.readFile output = some (rows.map (List.map Csv.Cell.text))
    ∧ 1 ≤ rows.length ∧ rows.length ≤ maxStructuredCsvRows ∧ (∀ row ∈ rows, CsvRow dictionary row)
    ∧ ∀ row ∈ rows, ∀ cell ∈ row, cell.text ≠ []

variable (dictionary : Dictionary)

/-- One turn of the loop writes one cell at most. -/
theorem csvCellBody_written {maxLen turns : Nat} {items : Items}
    (h : CellsWritten dictionary turns items) :
    Op.Safe (fun r => CellsWritten dictionary (turns + 1) r.run)
      (MutatorSuite.csvCellBody dictionary maxLen items) := by
  have hdone : CellsWritten dictionary (turns + 1) items := h.later
  obtain ⟨row, rfl, hturns, hrow⟩ := h
  rw [MutatorSuite.csvCellBody]
  dsimp only
  refine Op.Safe.ite (fun _ => Op.Safe.pure hdone) fun hroom => ?_
  refine (Op.Safe.sub (by omega)).bind fun room hsub => ?_
  refine (Op.Safe.sub (by omega)).bind fun cellBudget _ => ?_
  refine dictionary.chooseToken_mem.bind fun token htoken => ?_
  refine (Op.Safe.ofOption fun bytes hbytes => csvCellFragment_cell hbytes).bind
    fun bytes hbytes => ?_
  obtain ⟨cell, hcell, rfl⟩ := hbytes
  refine Op.Safe.ite (fun _ => Op.Safe.pure hdone) fun _ => ?_
  have hall : RowOf dictionary (row ++ [cell]) := List.forall_mem_append.mpr
    ⟨hrow, List.forall_mem_singleton.mpr ⟨token, htoken, hcell⟩⟩
  refine Op.Safe.pure ?_
  rw [addItem_run]
  refine Written.concat hturns hall ?_
  by_cases hne : row = []
  · subst hne
    simp [Csv.rowBytes, separated]
  · have hpos := List.length_pos_iff.mpr hne
    rw [if_pos hpos, Csv.rowBytes, separated_concat _ _ hne, List.append_assoc]
    rfl

theorem structuredCsvRow_written (maxLen : Nat) {requestedCols : Nat}
    (hrequested : requestedCols ≤ maxStructuredCsvColumns) :
    Op.Safe (fun bytes => ∃ row, bytes = Csv.rowBytes row ∧ CsvRow dictionary row)
      (MutatorSuite.structuredCsvRow dictionary maxLen requestedCols) := by
  unfold MutatorSuite.structuredCsvRow
  refine Op.Safe.ite (fun _ => Op.Safe.missing) fun _ => ?_
  have hstart : CellsWritten dictionary 0 ([], 0) := Written.start nofun
  refine (upTo_written (fun turns items => csvCellBody_written dictionary) _
    hstart).bind fun items hitems => ?_
  obtain ⟨row, rfl, hturns, hrow⟩ := hitems
  rw [MutatorSuite.someItems]
  refine Op.Safe.ite (fun _ => Op.Safe.missing) fun hcount => ?_
  have hne : row ≠ [] := fun hnil => hcount (by rw [hnil]; rfl)
  exact Op.Safe.pure ⟨row, rfl, hne, by omega, hrow⟩

namespace MutatorSuite

variable (suite : MutatorSuite)

/-- One turn of the loop writes one row at most. -/
theorem csvRowBody_written {turns : Nat} {items : Items} (h : RowsWritten dictionary turns items) :
    Op.Safe (fun r => RowsWritten dictionary (turns + 1) r.run)
      (suite.csvRowBody dictionary items) := by
  have hdone : RowsWritten dictionary (turns + 1) items := h.later
  obtain ⟨rows, rfl, hturns, hrows⟩ := h
  rw [csvRowBody]
  dsimp only
  refine Op.Safe.ite (fun _ => Op.Safe.pure hdone) fun hroom => ?_
  refine (Op.Safe.sub (by omega)).bind fun room hsub => ?_
  refine (Op.Safe.sub (by omega)).bind fun rowBudget _ => ?_
  refine (choose_safe _).bind fun extra hextra => ?_
  refine (structuredCsvRow_written dictionary rowBudget (by omega)).bind fun bytes hbytes => ?_
  obtain ⟨row, rfl, hrow⟩ := hbytes
  refine Op.Safe.ite (fun _ => Op.Safe.pure hdone) fun _ => ?_
  have hall := List.forall_mem_append.mpr ⟨hrows, List.forall_mem_singleton.mpr hrow⟩
  refine Op.Safe.pure ?_
  rw [addItem_run]
  refine Written.concat hturns hall ?_
  by_cases hne : rows = []
  · subst hne
    simp [Csv.fileBytes, separated]
  · have hsome : (Csv.fileBytes rows).isEmpty = false := by
      rw [List.isEmpty_eq_false_iff]
      exact Csv.fileBytes_ne_nil hne fun row hrow => (hrows row hrow).writable
    rw [hsome, Csv.fileBytes, separated_concat _ _ hne, List.append_assoc]
    rfl

/-- Whatever the dictionary, the limit and the state of the generator, an
output is read to its last byte as the rows and cells that were written. -/
theorem structuredCsv_reads :
    Op.Safe (ReadsAsRows dictionary) (suite.structuredCsv dictionary) := by
  unfold structuredCsv
  refine Op.Safe.ite (fun _ => Op.Safe.missing) fun _ => ?_
  refine (choose_safe _).bind fun extra hextra => ?_
  have hstart : RowsWritten dictionary 0 ([], 0) := Written.start nofun
  refine (upTo_written (fun turns items => suite.csvRowBody_written dictionary) _
    hstart).bind fun items hitems => ?_
  obtain ⟨rows, rfl, hturns, hrows⟩ := hitems
  rw [someItems]
  refine Op.Safe.ite (fun _ => Op.Safe.missing) fun hcount => Op.Safe.pure ?_
  have hne : rows ≠ [] := fun hnil => hcount (by rw [hnil]; rfl)
  have hwritable : ∀ row ∈ rows, Csv.RowWritable row := fun row hrow =>
    (hrows row hrow).writable
  refine ⟨rows, rfl, Csv.readFile_fileBytes hne hwritable, by omega, by omega, hrows, ?_⟩
  exact fun row hrow cell hcell => ((hwritable row hrow).2 cell hcell).1

example : (Op.exec (sampleSuite.structuredCsv sampleDictionary) ⟨1⟩).1
    = .ok (ascii "\"a\"\"\",\"b,c\"\n\"a\"\"\"") := by
  decide +kernel

end MutatorSuite

end GovFuzz.FuzzEngine
