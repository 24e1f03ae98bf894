import GovFuzz.BinaryAnalysis.Readers
import GovFuzz.Corpus.Classify

/-!
# Binary analysis — ELF

The parsers of `crates/binary_analysis/src/lib.rs` for 64-bit ELF: section
and program headers, symbols, the dynamic table and the notes.  Every offset
comes from the file.  Those of the tables go through `table_entry_offset`
and `checked_slice`; the header of the name table is read with plain sums
behind a checked one, which is the one place where a sum can leave the word
(`NameTableOverflows`).
-/

namespace GovFuzz.BinaryAnalysis

open GovFuzz.Lib
open GovFuzz.Corpus (hexDigit)
open GovFuzz.Runtrace (trim)

variable {buffer : Slice}

/-! ## Section headers -/

/-- A section header with its name resolved. -/
structure ElfSectionHeader where
  index : Nat
  name : List Char
  sectionType : UInt32
  flags : UInt64
  address : UInt64
  fileOffset : UInt64
  size : UInt64
  link : UInt32
  info : UInt32
  entsize : UInt64
  deriving DecidableEq, Repr

/-- The body of the loop over the section headers. -/
def elfSectionHeader (kind : BinaryKind) (bytes nameTable : Window buffer)
    (sectionHeaderOffset sectionEntrySize index : Nat) (sections : List ElfSectionHeader) :
    Parse (ForInStep (List ElfSectionHeader)) := do
  let some offset ← Parse.checked (tableEntryOffset sectionHeaderOffset index sectionEntrySize)
    | return .yield sections
  let some header ← Parse.checked (checkedSlice bytes offset sectionEntrySize)
    | return .yield sections
  let nameOffset ← fieldU32 header 0 kind.endian
  let name ← stringTableName nameTable nameOffset.toNat
  if name = [] then return .yield sections
  else
    let sectionType ← fieldU32 header 4 kind.endian
    let flags ← fieldU64 header 8 kind.endian
    let address ← fieldU64 header 16 kind.endian
    let fileOffset ← fieldU64 header 24 kind.endian
    let size ← fieldU64 header 32 kind.endian
    let link ← fieldU32 header 40 kind.endian
    let info ← fieldU32 header 44 kind.endian
    let entsize ← fieldU64 header 56 kind.endian
    return .yield (sections ++
      [⟨index, name, sectionType, flags, address, fileOffset, size, link, info, entsize⟩])

/-- The section headers of a 64-bit file. -/
def elfSectionHeaders (kind : BinaryKind) (bytes : Window buffer) :
    Parse (List ElfSectionHeader) := do
  if kind.bits ≠ 64 then return []
  else
    let some sectionHeaderOffset ← readU64 bytes 40 kind.endian | return []
    let some sectionEntrySize ← readU16 bytes 58 kind.endian | return []
    let some sectionCount ← readU16 bytes 60 kind.endian | return []
    let some nameTableIndex ← readU16 bytes 62 kind.endian | return []
    if sectionEntrySize.toNat < 64 ∨ sectionCount.toNat = 0 ∨ 512 < sectionCount.toNat then
      return []
    else
      let some nameTableHeaderOffset ← Parse.checked
          (tableEntryOffset sectionHeaderOffset.toNat nameTableIndex.toNat sectionEntrySize.toNat)
        | return []
      let some nameTableOffset ← readU64 bytes (← Parse.add nameTableHeaderOffset 24) kind.endian
        | return []
      let some nameTableSize ← readU64 bytes (← Parse.add nameTableHeaderOffset 32) kind.endian
        | return []
      let some nameTable ← Parse.checked
          (checkedSlice bytes nameTableOffset.toNat nameTableSize.toNat)
        | return []
      Op.forEach (elfSectionHeader kind bytes nameTable sectionHeaderOffset.toNat
        sectionEntrySize.toNat) (List.range sectionCount.toNat) []

/-- The flags as the report lists them. -/
def elfSectionFlags (sectionType : UInt32) (flags : UInt64) : List SectionFlag :=
  (if flags &&& 0x1 ≠ 0 then [.writable] else [])
    ++ (if flags &&& 0x2 ≠ 0 then [.allocated] else [])
    ++ (if flags &&& 0x4 ≠ 0 then [.executable] else [])
    ++ (if sectionType = 3 then [.stringTable] else [])
    ++ (if sectionType = 8 then [.nobits] else [])

/-- The sections of the report. -/
def elfSections (kind : BinaryKind) (bytes : Window buffer) : Parse (List BinarySection) := do
  let headers ← elfSectionHeaders kind bytes
  return headers.map fun header =>
    ⟨header.name, .section, some header.address, some header.fileOffset, some header.size,
      elfSectionFlags header.sectionType header.flags⟩

/-! ## Program headers -/

/-- A program header and its place in the table. -/
structure ElfProgramHeader where
  index : Nat
  segmentType : UInt32
  flags : UInt32
  fileOffset : UInt64
  virtualAddress : UInt64
  fileSize : UInt64
  memorySize : UInt64
  deriving DecidableEq, Repr

/-- One entry of the table; an entry outside the file is passed over. -/
def elfProgramHeader (kind : BinaryKind) (bytes : Window buffer)
    (programHeaderOffset programHeaderEntrySize index : Nat) (headers : List ElfProgramHeader) :
    Parse (ForInStep (List ElfProgramHeader)) := do
  let some offset ← Parse.checked
      (tableEntryOffset programHeaderOffset index programHeaderEntrySize)
    | return .yield headers
  let some header ← Parse.checked (checkedSlice bytes offset programHeaderEntrySize)
    | return .yield headers
  let some segmentType ← readU32 header 0 kind.endian | return .yield headers
  let flags ← fieldU32 header 4 kind.endian
  let fileOffset ← fieldU64 header 8 kind.endian
  let virtualAddress ← fieldU64 header 16 kind.endian
  let fileSize ← fieldU64 header 32 kind.endian
  let memorySize ← fieldU64 header 40 kind.endian
  return .yield (headers ++
    [⟨index, segmentType, flags, fileOffset, virtualAddress, fileSize, memorySize⟩])

/-- The program headers of a 64-bit file. -/
def elfProgramHeaders (kind : BinaryKind) (bytes : Window buffer) :
    Parse (List ElfProgramHeader) := do
  if kind.format ≠ .elf ∨ kind.bits ≠ 64 then return []
  else
    let some programHeaderOffset ← readU64 bytes 32 kind.endian | return []
    let some programHeaderEntrySize ← readU16 bytes 54 kind.endian | return []
    let some programHeaderCount ← readU16 bytes 56 kind.endian | return []
    if programHeaderEntrySize.toNat < 56 ∨ programHeaderCount.toNat = 0
        ∨ 256 < programHeaderCount.toNat then
      return []
    else
      Op.forEach (elfProgramHeader kind bytes programHeaderOffset.toNat
        programHeaderEntrySize.toNat) (List.range programHeaderCount.toNat) []

/-- `PT_LOAD[0]` and so on; empty for the kinds left out of the report. -/
def elfSegmentName (segmentType : UInt32) (index : Nat) : List Char :=
  let named (kind : String) : List Char := kind.toList ++ '[' :: (Nat.repr index).toList ++ [']']
  match segmentType.toNat with
  | 1 => named "PT_LOAD"
  | 2 => named "PT_DYNAMIC"
  | 3 => named "PT_INTERP"
  | 4 => named "PT_NOTE"
  | 6 => named "PT_PHDR"
  | 0x6474e551 => named "PT_GNU_STACK"
  | 0x6474e552 => named "PT_GNU_RELRO"
  | _ => []

/-- The permissions of a segment. -/
def elfSegmentFlags (flags : UInt32) : List SectionFlag :=
  (if flags &&& 0x4 ≠ 0 then [.readable] else [])
    ++ (if flags &&& 0x2 ≠ 0 then [.writable] else [])
    ++ (if flags &&& 0x1 ≠ 0 then [.executable] else [])

/-- A segment of the report. -/
def elfSegment (header : ElfProgramHeader) : BinarySection :=
  ⟨elfSegmentName header.segmentType header.index, .segment, some header.virtualAddress,
    some header.fileOffset, some header.fileSize, elfSegmentFlags header.flags⟩

/-- The segments that have a name. -/
def elfSegments (kind : BinaryKind) (bytes : Window buffer) : Parse (List BinarySection) := do
  let headers ← elfProgramHeaders kind bytes
  return (headers.map elfSegment).filter fun segment => segment.name ≠ []

/-! ## Symbols -/

/-- One symbol, an import when its section is zero. -/
def elfSymbol (kind : BinaryKind) (symbolBytes stringTable : Window buffer)
    (entrySize index : Nat) (names : BinarySymbolNames) :
    Parse (ForInStep BinarySymbolNames) := do
  let offset ← Parse.mul index entrySize
  let nameOffset ← fieldU32 symbolBytes offset kind.endian
  if nameOffset.toNat = 0 then return .yield names
  else
    let name ← stringTableName stringTable nameOffset.toNat
    if !isBinarySymbolName name then return .yield names
    else
      let sectionIndex ← fieldU16 symbolBytes (← Parse.add offset 6) kind.endian
      if sectionIndex = 0 then return .yield { names with imports := names.imports ++ [name] }
      else return .yield { names with exports := names.exports ++ [name] }

/-- A symbol table and the string table its `link` names. -/
def elfSymbolTable (kind : BinaryKind) (bytes : Window buffer) (sections : List ElfSectionHeader)
    (table : ElfSectionHeader) (names : BinarySymbolNames) :
    Parse (ForInStep BinarySymbolNames) := do
  let some strtab ←
      Parse.checked (sections.find? fun candidate => candidate.index = table.link.toNat)
    | return .yield names
  let entrySize := if 24 ≤ table.entsize.toNat then table.entsize.toNat else 24
  let some symbolBytes ← Parse.checked (checkedSlice bytes table.fileOffset.toNat table.size.toNat)
    | return .yield names
  let some stringTable ←
      Parse.checked (checkedSlice bytes strtab.fileOffset.toNat strtab.size.toNat)
    | return .yield names
  let names ← Op.forEach (elfSymbol kind symbolBytes stringTable entrySize)
    (List.range' 1 (min (symbolBytes.length / entrySize) 4096 - 1)) names
  return .yield names

/-- The names of both symbol tables, sorted. -/
def elfSymbolNames (kind : BinaryKind) (bytes : Window buffer) : Parse BinarySymbolNames := do
  let sections ← elfSectionHeaders kind bytes
  let names ← Op.forEach (elfSymbolTable kind bytes sections)
    (sections.filter fun table => table.sectionType = 2 || table.sectionType = 11) ⟨[], []⟩
  return names.sorted

/-! ## The dynamic table -/

/-- From the first loadable segment that holds the range. -/
def elfVirtualAddressToFileOffset :
    List ElfProgramHeader → (address size : UInt64) → Option Nat
  | [], _, _ => none
  | header :: headers, address, size =>
      let others := elfVirtualAddressToFileOffset headers address size
      if header.segmentType ≠ 1 then others
      else
        let segmentSize := min header.fileSize.toNat header.memorySize.toNat
        match checkedSub address.toNat header.virtualAddress.toNat with
        | none => others
        | some delta =>
            match checkedAdd delta size.toNat with
            | none => others
            | some endDelta =>
                if segmentSize < endDelta then others
                else checkedAdd header.fileOffset.toNat delta

/-- The directories of a `DT_RPATH`, blank ones dropped. -/
def splitRpathEntries (paths : List Char) : List (List Char) :=
  ((paths.splitOn ':').map trim).filter (· ≠ [])

/-- The libraries a file needs and where it looks for them. -/
structure ElfDynamicDependencies where
  libraries : List (List Char)
  rpaths : List (List Char)
  deriving DecidableEq, Repr

/-- What the loop over the entries collects. -/
structure ElfDynamicEntries where
  stringTableVirtualAddress : Option UInt64
  stringTableSize : Option UInt64
  neededOffsets : List UInt64
  rpathOffsets : List UInt64
  deriving DecidableEq, Repr

/-- One tag and value of the dynamic table; the null tag ends it. -/
def elfDynamicEntry (kind : BinaryKind) (dynamicTable : Window buffer) (index : Nat)
    (entries : ElfDynamicEntries) : Parse (ForInStep ElfDynamicEntries) := do
  let entryOffset ← Parse.mul index 16
  let tag ← fieldU64 dynamicTable entryOffset kind.endian
  let value ← fieldU64 dynamicTable (← Parse.add entryOffset 8) kind.endian
  return match tag.toNat with
    | 0 => .done entries
    | 1 => .yield { entries with neededOffsets := entries.neededOffsets ++ [value] }
    | 5 => .yield { entries with stringTableVirtualAddress := some value }
    | 10 => .yield { entries with stringTableSize := some value }
    | 15 => .yield { entries with rpathOffsets := entries.rpathOffsets ++ [value] }
    | 29 => .yield { entries with rpathOffsets := entries.rpathOffsets ++ [value] }
    | _ => .yield entries

/-- One needed library, by its offset in the string table. -/
def elfNeeded (stringTable : Window buffer) (offset : UInt64) (libraries : List (List Char)) :
    Parse (ForInStep (List (List Char))) := do
  let library ← stringTableName stringTable offset.toNat
  return .yield (if library = [] then libraries else libraries ++ [library])

/-- The entries of one run path. -/
def elfRpath (stringTable : Window buffer) (offset : UInt64) (rpaths : List (List Char)) :
    Parse (ForInStep (List (List Char))) := do
  let value ← stringTableName stringTable offset.toNat
  return .yield (rpaths ++ splitRpathEntries value)

/-- What one dynamic segment adds. -/
def elfDynamicTable (kind : BinaryKind) (bytes : Window buffer) (headers : List ElfProgramHeader)
    (dynamicHeader : ElfProgramHeader) (dependencies : ElfDynamicDependencies) :
    Parse (ForInStep ElfDynamicDependencies) := do
  let some dynamicTable ← Parse.checked (checkedSlice bytes dynamicHeader.fileOffset.toNat
    dynamicHeader.fileSize.toNat) | return .yield dependencies
  let entries ← Op.forEach (elfDynamicEntry kind dynamicTable)
    (List.range (min (dynamicTable.length / 16) 4096)) ⟨none, none, [], []⟩
  let some stringTableVirtualAddress ← Parse.checked entries.stringTableVirtualAddress
    | return .yield dependencies
  let some stringTableSize ← Parse.checked entries.stringTableSize | return .yield dependencies
  let some stringTableOffset ← Parse.checked
      (elfVirtualAddressToFileOffset headers stringTableVirtualAddress stringTableSize)
    | return .yield dependencies
  let some stringTable ← Parse.checked (checkedSlice bytes stringTableOffset stringTableSize.toNat)
    | return .yield dependencies
  let libraries ← Op.forEach (elfNeeded stringTable) entries.neededOffsets dependencies.libraries
  let rpaths ← Op.forEach (elfRpath stringTable) entries.rpathOffsets dependencies.rpaths
  return .yield ⟨libraries, rpaths⟩

/-- A dynamic segment with room for an entry. -/
def isDynamic (header : ElfProgramHeader) : Bool :=
  header.segmentType = 2 && 16 ≤ header.fileSize.toNat

/-- The dependencies of all dynamic segments. -/
def elfDynamicDependencies (kind : BinaryKind) (bytes : Window buffer) :
    Parse ElfDynamicDependencies := do
  let headers ← elfProgramHeaders kind bytes
  Op.forEach (elfDynamicTable kind bytes headers) (headers.filter isDynamic) ⟨[], []⟩

/-- The loader that one `PT_INTERP` names. -/
def elfInterpreter (bytes : Window buffer) (header : ElfProgramHeader)
    (interpreters : List (List Char)) : Parse (ForInStep (List (List Char))) := do
  if header.segmentType ≠ 3 then return .yield interpreters
  else
    let some raw ← Parse.checked (checkedSlice bytes header.fileOffset.toNat header.fileSize.toNat)
      | return .yield interpreters
    let interpreter ← fixedName raw
    return .yield (if interpreter = [] then interpreters else interpreters ++ [interpreter])

/-- The loaders a file names. -/
def elfInterpreters (kind : BinaryKind) (bytes : Window buffer) : Parse (List (List Char)) := do
  let headers ← elfProgramHeaders kind bytes
  Op.forEach (elfInterpreter bytes) headers []

/-- `DT_BIND_NOW`, `DT_FLAGS` with `DF_BIND_NOW`, or `DT_FLAGS_1` with `DF_1_NOW`. -/
def isBindNow (tag value : UInt64) : Bool :=
  tag = 24 || (tag = 30 && value &&& 0x8 ≠ 0) || (tag = 0x6ffffffb && value &&& 0x1 ≠ 0)

/-- One entry of the search for immediate binding. -/
def elfBindNowEntry (kind : BinaryKind) (table : Window buffer) (index : Nat) (found : Bool) :
    Parse (ForInStep Bool) := do
  let entryOffset ← Parse.mul index 16
  let tag ← fieldU64 table entryOffset kind.endian
  let value ← fieldU64 table (← Parse.add entryOffset 8) kind.endian
  if tag = 0 then return .done found
  else if isBindNow tag value then return .done true
  else return .yield found

/-- The search through one dynamic segment. -/
def elfBindNowTable (kind : BinaryKind) (bytes : Window buffer) (dynamicHeader : ElfProgramHeader)
    (found : Bool) : Parse (ForInStep Bool) := do
  let some table ← Parse.checked (checkedSlice bytes dynamicHeader.fileOffset.toNat
    dynamicHeader.fileSize.toNat) | return .yield found
  let found ← Op.forEach (elfBindNowEntry kind table)
    (List.range (min (table.length / 16) 4096)) found
  return if found then .done true else .yield false

/-- Some dynamic entry asks for immediate binding. -/
def elfHasBindNow (kind : BinaryKind) (bytes : Window buffer) : Parse Bool := do
  let headers ← elfProgramHeaders kind bytes
  Op.forEach (elfBindNowTable kind bytes) (headers.filter isDynamic) false

/-! ## Notes -/

/-- Two lower-case digits a byte. -/
def bytesToLowerHex (bytes : List UInt8) : List Char :=
  bytes.flatMap fun byte => [hexDigit (byte.toNat / 16), hexDigit (byte.toNat % 16)]

/-- One note; the loop carries its offset and the build id, once found. -/
def elfNote (kind : BinaryKind) (notes : Window buffer) (state : Nat × Option (List Char)) :
    Parse (ForInStep (Nat × Option (List Char))) := do
  let offset := state.1
  let some header ← Parse.checked (checkedSlice notes offset 12) | return .done state
  let some namesz ← readU32 header 0 kind.endian | return .done state
  let some descsz ← readU32 header 4 kind.endian | return .done state
  let some noteType ← readU32 header 8 kind.endian | return .done state
  if namesz = 0 ∧ descsz = 0 then return .done state
  else
    let some nameStart ← Parse.checked (checkedAdd offset 12) | return .done state
    let some nameEnd ← Parse.checked (checkedAdd nameStart namesz.toNat) | return .done state
    let some name ← Parse.checked (checkedSlice notes nameStart namesz.toNat) | return .done state
    let some descStart ← Parse.checked (align4 nameEnd) | return .done state
    let some descEnd ← Parse.checked (checkedAdd descStart descsz.toNat) | return .done state
    let some description ← Parse.checked (checkedSlice notes descStart descsz.toNat)
      | return .done state
    let owner ← Parse.peek name
    let owner := if owner.getLast? = some 0 then owner.dropLast else owner
    if noteType = 3 ∧ owner = toUtf8 "GNU" ∧ description.length ≠ 0 then
      return .done (offset, some (bytesToLowerHex (← Parse.peek description)))
    else
      let some next ← Parse.checked (align4 descEnd) | return .done state
      if next ≤ offset then return .done state
      else return .yield (next, none)

/-- The build id among the first 128 notes. -/
def elfBuildIdFromNotes (kind : BinaryKind) (notes : Window buffer) :
    Parse (Option (List Char)) := do
  let (_, buildId) ← Op.forEach (fun _ => elfNote kind notes) (List.range 128) (0, none)
  return buildId

/-- The notes of a segment or a section. -/
def elfNotesAt (kind : BinaryKind) (bytes : Window buffer) (place : UInt64 × UInt64)
    (buildId : Option (List Char)) : Parse (ForInStep (Option (List Char))) := do
  let some notes ← Parse.checked (checkedSlice bytes place.1.toNat place.2.toNat)
    | return .yield buildId
  match ← elfBuildIdFromNotes kind notes with
  | some buildId => return .done (some buildId)
  | none => return .yield buildId

/-- The build id of the note segments, else of the note sections. -/
def elfBuildId (kind : BinaryKind) (bytes : Window buffer) : Parse (Option (List Char)) := do
  let headers ← elfProgramHeaders kind bytes
  let noted := headers.filter fun header => header.segmentType = 4
  match ← Op.forEach (elfNotesAt kind bytes)
    (noted.map fun header => (header.fileOffset, header.fileSize)) none with
  | some buildId => return some buildId
  | none =>
      let sections ← elfSectionHeaders kind bytes
      let noted := sections.filter fun header => header.sectionType = 7
      Op.forEach (elfNotesAt kind bytes)
        (noted.map fun header => (header.fileOffset, header.size)) none

/-! ## Where the name table's header may lie -/

/-- The header of the name table, by the file's own fields, begins inside the
address space, and less than the 32 bytes before the field behind its offset
end it. -/
def NameTableOverflows (endian : Endian) (bytes : Window buffer) : Prop :=
  ∃ offset size count index,
    wordAt 8 UInt64.ofNat bytes 40 endian = some offset
      ∧ wordAt 2 UInt16.ofNat bytes 58 endian = some size
      ∧ wordAt 2 UInt16.ofNat bytes 60 endian = some count
      ∧ wordAt 2 UInt16.ofNat bytes 62 endian = some index
      ∧ 64 ≤ size.toNat ∧ 0 < count.toNat ∧ count.toNat ≤ 512
      ∧ index.toNat * size.toNat + offset.toNat < usizeSize
      ∧ usizeSize ≤ index.toNat * size.toNat + offset.toNat + 32

theorem elfSectionHeader_total (kind : BinaryKind) (bytes nameTable : Window buffer)
    {sectionHeaderOffset sectionEntrySize : Nat} (hsize : 64 ≤ sectionEntrySize) (index : Nat)
    (sections : List ElfSectionHeader) :
    Parse.Total buffer (fun _ => True) (elfSectionHeader kind bytes nameTable
      sectionHeaderOffset sectionEntrySize index sections) := by
  refine (Parse.Total.checked _).bindSome (.done _) fun offset _ => ?_
  refine (Parse.Total.checked _).bindSome (.done _) fun header hheader => ?_
  obtain ⟨-, -, hlength⟩ := checkedSlice_eq_some hheader
  refine (field_total (by omega)).bind fun nameOffset _ => ?_
  refine (stringTableName_total nameTable nameOffset.toNat).bind fun name _ => ?_
  refine .ite (fun _ => .done _) fun _ => ?_
  -- the eight fields of the record all lie in the entry's first 64 bytes
  iterate 8 refine (field_total (by omega)).bind fun _ _ => ?_
  exact .done _

/-- Without such a name table the section headers are decided without a panic. -/
theorem elfSectionHeaders_total {kind : BinaryKind} {bytes : Window buffer}
    (h : kind.bits = 64 → ¬ NameTableOverflows kind.endian bytes) :
    Parse.Total buffer (fun _ => True) (elfSectionHeaders kind bytes) := by
  have hlen := bytes.length_lt
  refine .ite (fun _ => .done _) fun hbits => ?_
  refine (readAs_total (by decide)).bindSome (.done _) fun sectionHeaderOffset hoffset => ?_
  refine (readAs_total (by decide)).bindSome (.done _) fun sectionEntrySize hsize => ?_
  refine (readAs_total (by decide)).bindSome (.done _) fun sectionCount hcount => ?_
  refine (readAs_total (by decide)).bindSome (.done _) fun nameTableIndex hindex => ?_
  refine .ite (fun _ => .done _) fun hbounds => ?_
  refine (Parse.Total.checked _).bindSome (.done _) fun header hheader => ?_
  obtain ⟨hlt, hexact⟩ := tableEntryOffset_eq_some hheader
  -- the checked sum leaves room for the two plain ones, and for the readers' own
  have hroom : header + 32 < usizeSize := by
    by_contra hfull
    exact h (by omega) ⟨_, _, _, _, hoffset, hsize, hcount, hindex,
      by omega, by omega, by omega, by omega, by omega⟩
  refine .addBind (by omega) ?_
  refine (readAs_total (by omega)).bindSome (.done _) fun nameTableOffset hnames => ?_
  have hread := le_of_wordAt hnames
  refine .addBind (by omega) ?_
  refine (readAs_total (by omega)).bindSome (.done _) fun nameTableSize _ => ?_
  refine (Parse.Total.checked _).bindSome (.done _) fun nameTable _ => ?_
  refine .forAll (fun index _ sections => ?_) _
  exact elfSectionHeader_total kind bytes nameTable (by omega) index sections

/-- A name table that overflows traps the reader of a 64-bit file. -/
theorem elfSectionHeaders_traps {kind : BinaryKind} {bytes : Window buffer}
    (hbits : kind.bits = 64) (h : NameTableOverflows kind.endian bytes) :
    Parse.Traps buffer (elfSectionHeaders kind bytes) := by
  obtain ⟨offset, size, count, index, hoffset, hsize, hcount, hindex, hentry, hsome, hmany, hlt,
    hfull⟩ := h
  have hheader : tableEntryOffset offset.toNat index.toNat size.toNat
      = some (index.toNat * size.toNat + offset.toNat) := by
    have hproduct : index.toNat * size.toNat < usizeSize := by omega
    simp [tableEntryOffset, checkedMul, checkedAdd, hproduct, hlt]
  unfold elfSectionHeaders
  rw [if_neg (by omega)]
  refine .bind (readAs_total (by decide)) fun word hword => ?_
  obtain rfl := hoffset.symm.trans hword
  refine .bind (readAs_total (by decide)) fun word hword => ?_
  obtain rfl := hsize.symm.trans hword
  refine .bind (readAs_total (by decide)) fun word hword => ?_
  obtain rfl := hcount.symm.trans hword
  refine .bind (readAs_total (by decide)) fun word hword => ?_
  obtain rfl := hindex.symm.trans hword
  dsimp only
  rw [if_neg (by omega)]
  refine .bind (Parse.Total.checked _) fun word hword => ?_
  obtain rfl := hheader.symm.trans hword
  -- either the sum for the field overflows, or the reader's own does
  by_cases hplace : usizeSize ≤ index.toNat * size.toNat + offset.toNat + 24
  · exact .of_bind (.add hplace) _
  · refine .bind (.add (by omega)) fun place hplace => ?_
    obtain rfl := hplace
    exact .of_bind (readAs_traps (by omega)) _

/-! ## The parsers that the headers do not lead astray -/

theorem elfProgramHeader_total (kind : BinaryKind) (bytes : Window buffer)
    {programHeaderOffset programHeaderEntrySize : Nat} (hsize : 56 ≤ programHeaderEntrySize)
    (index : Nat) (headers : List ElfProgramHeader) :
    Parse.Total buffer (fun _ => True) (elfProgramHeader kind bytes programHeaderOffset
      programHeaderEntrySize index headers) := by
  refine (Parse.Total.checked _).bindSome (.done _) fun offset _ => ?_
  refine (Parse.Total.checked _).bindSome (.done _) fun header hheader => ?_
  obtain ⟨-, -, hlength⟩ := checkedSlice_eq_some hheader
  refine (readAs_total (by decide)).bindSome (.done _) fun segmentType _ => ?_
  iterate 5 refine (field_total (by omega)).bind fun _ _ => ?_
  exact .done _

theorem elfProgramHeaders_total (kind : BinaryKind) (bytes : Window buffer) :
    Parse.Total buffer (fun _ => True) (elfProgramHeaders kind bytes) := by
  refine .ite (fun _ => .done _) fun _ => ?_
  refine (readAs_total (by decide)).bindSome (.done _) fun programHeaderOffset _ => ?_
  refine (readAs_total (by decide)).bindSome (.done _) fun programHeaderEntrySize _ => ?_
  refine (readAs_total (by decide)).bindSome (.done _) fun programHeaderCount _ => ?_
  refine .ite (fun _ => .done _) fun hbounds => ?_
  refine .forAll (fun index _ headers => ?_) _
  exact elfProgramHeader_total kind bytes (by omega) index headers

theorem elfSegments_total (kind : BinaryKind) (bytes : Window buffer) :
    Parse.Total buffer (fun _ => True) (elfSegments kind bytes) :=
  (elfProgramHeaders_total kind bytes).bind fun _ _ => .done _

/-- The entries of a table that are gone through lie in the table. -/
theorem entry_le {length entrySize index limit : Nat} (h : index < min (length / entrySize) limit) :
    index * entrySize + entrySize ≤ length := by
  have hindex : index + 1 ≤ length / entrySize := by omega
  calc index * entrySize + entrySize = (index + 1) * entrySize := by rw [Nat.add_one_mul]
    _ ≤ length / entrySize * entrySize := Nat.mul_le_mul_right _ hindex
    _ ≤ length := Nat.div_mul_le_self _ _

theorem elfSymbol_total (kind : BinaryKind) (symbolBytes stringTable : Window buffer)
    {entrySize index : Nat} (hsize : 24 ≤ entrySize)
    (hindex : index < min (symbolBytes.length / entrySize) 4096) (names : BinarySymbolNames) :
    Parse.Total buffer (fun _ => True)
      (elfSymbol kind symbolBytes stringTable entrySize index names) := by
  have hlen := symbolBytes.length_lt
  have hentry := entry_le hindex
  refine .mulBind (by omega) ?_
  refine (field_total (by omega)).bind fun nameOffset _ => ?_
  refine .ite (fun _ => .done _) fun _ => ?_
  refine (stringTableName_total stringTable nameOffset.toNat).bind fun name _ => ?_
  refine .ite (fun _ => .done _) fun _ => ?_
  refine .addBind (by omega) ?_
  refine (field_total (by omega)).bind fun sectionIndex _ => ?_
  exact .ite (fun _ => .done _) fun _ => .done _

theorem elfSymbolTable_total (kind : BinaryKind) (bytes : Window buffer)
    (sections : List ElfSectionHeader) (table : ElfSectionHeader) (names : BinarySymbolNames) :
    Parse.Total buffer (fun _ => True) (elfSymbolTable kind bytes sections table names) := by
  refine (Parse.Total.checked _).bindSome (.done _) fun strtab _ => ?_
  refine (Parse.Total.checked _).bindSome (.done _) fun symbolBytes _ => ?_
  refine (Parse.Total.checked _).bindSome (.done _) fun stringTable _ => ?_
  refine (Parse.Total.forAll (fun index hindex names => ?_) _).bind fun _ _ => .done _
  rw [List.mem_range'_1] at hindex
  exact elfSymbol_total kind symbolBytes stringTable (by split <;> omega) (by omega) names

theorem elfDynamicEntry_total (kind : BinaryKind) (dynamicTable : Window buffer) {index : Nat}
    (hindex : index < min (dynamicTable.length / 16) 4096) (entries : ElfDynamicEntries) :
    Parse.Total buffer (fun _ => True) (elfDynamicEntry kind dynamicTable index entries) := by
  have hlen := dynamicTable.length_lt
  have hentry := entry_le hindex
  refine .mulBind (by omega) ?_
  refine (field_total (by omega)).bind fun tag _ => ?_
  refine .addBind (by omega) ?_
  exact (field_total (by omega)).bind fun value _ => .done _

theorem elfDynamicTable_total (kind : BinaryKind) (bytes : Window buffer)
    (headers : List ElfProgramHeader) (dynamicHeader : ElfProgramHeader)
    (dependencies : ElfDynamicDependencies) :
    Parse.Total buffer (fun _ => True)
      (elfDynamicTable kind bytes headers dynamicHeader dependencies) := by
  refine (Parse.Total.checked _).bindSome (.done _) fun dynamicTable _ => ?_
  refine (Parse.Total.forAll (fun index hindex entries => ?_) _).bind fun entries _ => ?_
  · exact elfDynamicEntry_total kind dynamicTable (List.mem_range.mp hindex) entries
  refine (Parse.Total.checked _).bindSome (.done _) fun stringTableVirtualAddress _ => ?_
  refine (Parse.Total.checked _).bindSome (.done _) fun stringTableSize _ => ?_
  refine (Parse.Total.checked _).bindSome (.done _) fun stringTableOffset _ => ?_
  refine (Parse.Total.checked _).bindSome (.done _) fun stringTable _ => ?_
  refine (Parse.Total.forAll (fun offset _ libraries => ?_) _).bind fun libraries _ => ?_
  · exact (stringTableName_total stringTable offset.toNat).bind fun _ _ => .done _
  refine (Parse.Total.forAll (fun offset _ rpaths => ?_) _).bind fun rpaths _ => .done _
  exact (stringTableName_total stringTable offset.toNat).bind fun _ _ => .done _

theorem elfDynamicDependencies_total (kind : BinaryKind) (bytes : Window buffer) :
    Parse.Total buffer (fun _ => True) (elfDynamicDependencies kind bytes) := by
  refine (elfProgramHeaders_total kind bytes).bind fun headers _ => ?_
  exact .forAll (fun header _ => elfDynamicTable_total kind bytes headers header) _

theorem elfInterpreters_total (kind : BinaryKind) (bytes : Window buffer) :
    Parse.Total buffer (fun _ => True) (elfInterpreters kind bytes) := by
  refine (elfProgramHeaders_total kind bytes).bind fun headers _ => ?_
  refine .forAll (fun header _ interpreters => ?_) _
  refine .ite (fun _ => .done _) fun _ => ?_
  refine (Parse.Total.checked _).bindSome (.done _) fun raw _ => ?_
  exact (fixedName_total raw).bind fun _ _ => .done _

theorem elfBindNowEntry_total (kind : BinaryKind) (table : Window buffer) {index : Nat}
    (hindex : index < min (table.length / 16) 4096) (found : Bool) :
    Parse.Total buffer (fun _ => True) (elfBindNowEntry kind table index found) := by
  have hlen := table.length_lt
  have hentry := entry_le hindex
  refine .mulBind (by omega) ?_
  refine (field_total (by omega)).bind fun tag _ => ?_
  refine .addBind (by omega) ?_
  refine (field_total (by omega)).bind fun value _ => ?_
  refine .ite (fun _ => .done _) fun _ => ?_
  exact .ite (fun _ => .done _) fun _ => .done _

theorem elfHasBindNow_total (kind : BinaryKind) (bytes : Window buffer) :
    Parse.Total buffer (fun _ => True) (elfHasBindNow kind bytes) := by
  refine (elfProgramHeaders_total kind bytes).bind fun headers _ => ?_
  refine .forAll (fun dynamicHeader _ found => ?_) _
  refine (Parse.Total.checked _).bindSome (.done _) fun table _ => ?_
  refine (Parse.Total.forAll (fun index hindex found => ?_) _).bind fun _ _ => .done _
  exact elfBindNowEntry_total kind table (List.mem_range.mp hindex) found

/-- All sums of a note are checked ones. -/
theorem elfNote_total (kind : BinaryKind) (notes : Window buffer)
    (state : Nat × Option (List Char)) :
    Parse.Total buffer (fun _ => True) (elfNote kind notes state) := by
  refine (Parse.Total.checked _).bindSome (.done _) fun header _ => ?_
  refine (readAs_total (by decide)).bindSome (.done _) fun namesz _ => ?_
  refine (readAs_total (by decide)).bindSome (.done _) fun descsz _ => ?_
  refine (readAs_total (by decide)).bindSome (.done _) fun noteType _ => ?_
  refine .ite (fun _ => .done _) fun _ => ?_
  refine (Parse.Total.checked _).bindSome (.done _) fun nameStart _ => ?_
  refine (Parse.Total.checked _).bindSome (.done _) fun nameEnd _ => ?_
  refine (Parse.Total.checked _).bindSome (.done _) fun name _ => ?_
  refine (Parse.Total.checked _).bindSome (.done _) fun descStart _ => ?_
  refine (Parse.Total.checked _).bindSome (.done _) fun descEnd _ => ?_
  refine (Parse.Total.checked _).bindSome (.done _) fun description _ => ?_
  refine (Parse.Total.peek name).bind fun owner _ => ?_
  refine .ite (fun _ => (Parse.Total.peek description).bind fun _ _ => .done _) fun _ => ?_
  refine (Parse.Total.checked _).bindSome (.done _) fun next _ => ?_
  exact .ite (fun _ => .done _) fun _ => .done _

theorem elfNotesAt_total (kind : BinaryKind) (bytes : Window buffer) (place : UInt64 × UInt64)
    (buildId : Option (List Char)) :
    Parse.Total buffer (fun _ => True) (elfNotesAt kind bytes place buildId) := by
  refine (Parse.Total.checked _).bindSome (.done _) fun notes _ => ?_
  have hnotes : Parse.Total buffer (fun _ => True) (elfBuildIdFromNotes kind notes) :=
    (Parse.Total.forAll (fun _ _ => elfNote_total kind notes) _).bind fun _ _ => .done _
  refine hnotes.bind ?_
  rintro (_ | found) -
  · exact .done _
  · exact .done _

section

variable {kind : BinaryKind} {bytes : Window buffer}
  (h : kind.bits = 64 → ¬ NameTableOverflows kind.endian bytes)
include h

theorem elfSections_total : Parse.Total buffer (fun _ => True) (elfSections kind bytes) :=
  (elfSectionHeaders_total h).bind fun _ _ => .done _

theorem elfSymbolNames_total : Parse.Total buffer (fun _ => True) (elfSymbolNames kind bytes) := by
  refine (elfSectionHeaders_total h).bind fun sections _ => ?_
  refine (Parse.Total.forAll (fun table _ => ?_) _).bind fun _ _ => .done _
  exact elfSymbolTable_total kind bytes sections table

theorem elfBuildId_total : Parse.Total buffer (fun _ => True) (elfBuildId kind bytes) := by
  refine (elfProgramHeaders_total kind bytes).bind fun headers _ => ?_
  refine (Parse.Total.forAll (fun place _ => elfNotesAt_total kind bytes place) _).bind ?_
  rintro (_ | buildId) -
  · refine (elfSectionHeaders_total h).bind fun sections _ => ?_
    exact .forAll (fun place _ => elfNotesAt_total kind bytes place) _
  · exact .done _

end

end GovFuzz.BinaryAnalysis
