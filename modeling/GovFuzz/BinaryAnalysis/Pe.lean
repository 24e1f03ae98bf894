import GovFuzz.BinaryAnalysis.Readers
import GovFuzz.Cli.Seeds

/-!
# Binary analysis — PE

The parsers of `crates/binary_analysis/src/lib.rs` for PE: the optional
header, the section table, the import and export directories.  Everything
starts at a 32-bit offset and everything else a header names is a 32-bit
address that `pe_rva_to_file_offset` turns into a 32-bit offset, so the plain
sums stay far below a word's limit.
-/

namespace GovFuzz.BinaryAnalysis

open GovFuzz.Lib
open GovFuzz.Cli (saturatingAdd)

variable {buffer : Slice}

/-! ## The headers -/

/-- A section header. -/
structure PeSectionHeader where
  name : List Char
  virtualSize : UInt32
  virtualAddress : UInt32
  rawSize : UInt32
  rawPointer : UInt32
  characteristics : UInt32
  deriving DecidableEq, Repr

/-- One entry of the section table. -/
def peSectionHeader (bytes : Window buffer) (sectionTableOffset index : Nat)
    (sections : List PeSectionHeader) : Parse (ForInStep (List PeSectionHeader)) := do
  let some offset ← Parse.checked (tableEntryOffset sectionTableOffset index 40)
    | return .yield sections
  let some header ← Parse.checked (checkedSlice bytes offset 40) | return .yield sections
  let name ← fixedName (← Parse.slice header 0 8)
  if name = [] then return .yield sections
  else
    let characteristics ← fieldU32 header 36 .little
    let virtualSize ← fieldU32 header 8 .little
    let virtualAddress ← fieldU32 header 12 .little
    let rawSize ← fieldU32 header 16 .little
    let rawPointer ← fieldU32 header 20 .little
    return .yield (sections ++
      [⟨name, virtualSize, virtualAddress, rawSize, rawPointer, characteristics⟩])

/-- The section table. -/
def peSectionHeaders (bytes : Window buffer) : Parse (List PeSectionHeader) := do
  let some peOffset ← readU32Le bytes 0x3c | return []
  let some sectionCount ← readU16 bytes (← Parse.add peOffset.toNat 6) .little | return []
  let some optionalHeaderSize ← readU16 bytes (← Parse.add peOffset.toNat 20) .little
    | return []
  if sectionCount.toNat = 0 ∨ 128 < sectionCount.toNat then return []
  else
    let sectionTableOffset ←
      Parse.add (← Parse.add peOffset.toNat 24) optionalHeaderSize.toNat
    Op.forEach (peSectionHeader bytes sectionTableOffset) (List.range sectionCount.toNat) []

/-- The flags as the report lists them. -/
def peSectionFlags (characteristics : UInt32) : List SectionFlag :=
  (if characteristics &&& 0x40000000 ≠ 0 then [.readable] else [])
    ++ (if characteristics &&& 0x80000000 ≠ 0 then [.writable] else [])
    ++ (if characteristics &&& 0x20000000 ≠ 0 then [.executable] else [])
    ++ (if characteristics &&& 0x00000040 ≠ 0 then [.initializedData] else [])

/-- The sections of the report. -/
def peSections (bytes : Window buffer) : Parse (List BinarySection) := do
  let headers ← peSectionHeaders bytes
  return headers.map fun header =>
    ⟨header.name, .section, some header.virtualAddress.toUInt64, some header.rawPointer.toUInt64,
      some header.rawSize.toUInt64, peSectionFlags header.characteristics⟩

/-- Entry point, image base and section count. -/
def peLayout (bytes : Window buffer) : Parse BinaryLayout := do
  let peOffset ← readU32Le bytes 0x3c
  let sectionCount ← Parse.andThen peOffset fun offset => do
    readU16 bytes (← Parse.add offset.toNat 6) .little
  let optionalHeader ← Parse.andThen peOffset fun offset => do
    return some (← Parse.add offset.toNat 24)
  let magic ← Parse.andThen optionalHeader fun offset => readU16 bytes offset .little
  let entrypoint ← Parse.andThen optionalHeader fun offset => do
    readU32Le bytes (← Parse.add offset 16)
  let imageBase ← Parse.andThen optionalHeader fun offset => do
    if magic = some 0x20b then readU64 bytes (← Parse.add offset 24) .little
    else if magic = some 0x10b then
      return (← readU32Le bytes (← Parse.add offset 28)).map UInt32.toUInt64
    else return none
  let sections ← peSections bytes
  return ⟨entrypoint.map UInt32.toUInt64, imageBase, none, sectionCount.map UInt16.toUInt32,
    none, none, sections⟩

/-! ## Addresses -/

/-- From the first section that holds the range, by the larger of its sizes. -/
def peRvaToFileOffset : List PeSectionHeader → (rva size : UInt32) → Option Nat
  | [], _, _ => none
  | header :: sections, rva, size =>
      let others := peRvaToFileOffset sections rva size
      if rva.toNat < header.virtualAddress.toNat then others
      else
        let delta := rva.toNat - header.virtualAddress.toNat
        let sectionSize := max header.virtualSize.toNat header.rawSize.toNat
        let endDelta := delta + size.toNat
        -- the sums are those of `u32`
        if 2 ^ 32 ≤ endDelta then others
        else if sectionSize < endDelta then others
        else
          let fileOffset := header.rawPointer.toNat + delta
          if fileOffset < 2 ^ 32 then some fileOffset else none

theorem peRvaToFileOffset_lt {sections : List PeSectionHeader} {rva size : UInt32} {offset : Nat}
    (h : peRvaToFileOffset sections rva size = some offset) : offset < 2 ^ 32 := by
  induction sections with
  | nil => cases h
  | cons header sections ih =>
      simp only [peRvaToFileOffset] at h
      split at h
      · exact ih h
      split at h
      · exact ih h
      split at h
      · exact ih h
      split at h
      · cases h
        assumption
      · cases h

/-! ## Directories -/

/-- Where the optional header stands and how long it is. -/
structure PeOptionalHeader where
  offset : Nat
  size : Nat
  magic : UInt16
  dataDirectory : Nat
  deriving DecidableEq, Repr

/-- What the two directories are found by. -/
def peOptionalHeader (bytes : Window buffer) : Parse (Option PeOptionalHeader) := do
  let some peOffset ← readU32Le bytes 0x3c | return none
  let some optionalHeaderSize ← readU16 bytes (← Parse.add peOffset.toNat 20) .little
    | return none
  let optionalHeader ← Parse.add peOffset.toNat 24
  let some magic ← readU16 bytes optionalHeader .little | return none
  let some _ ← Parse.checked (checkedSlice bytes optionalHeader optionalHeaderSize.toNat)
    | return none
  if magic = 0x10b then
    return some ⟨optionalHeader, optionalHeaderSize.toNat, magic, ← Parse.add optionalHeader 0x60⟩
  else if magic = 0x20b then
    return some ⟨optionalHeader, optionalHeaderSize.toNat, magic, ← Parse.add optionalHeader 0x70⟩
  else return none

/-- The import directory and the size of its thunks. -/
structure PeImportDirectory where
  sections : List PeSectionHeader
  importOffset : Nat
  descriptorLimit : Nat
  thunkSize : Nat
  ordinalFlag : UInt64
  deriving DecidableEq, Repr

/-- The import directory, when the header points to one. -/
def peImportDirectory (bytes : Window buffer) : Parse (Option PeImportDirectory) := do
  let some header ← peOptionalHeader bytes | return none
  let some importDirectoryOffset ← Parse.checked (checkedAdd header.dataDirectory 8)
    | return none
  let some importDirectoryEnd ← Parse.checked (checkedAdd importDirectoryOffset 8) | return none
  if saturatingAdd header.offset header.size < importDirectoryEnd
      ∨ checkedSlice bytes importDirectoryOffset 8 = none then
    return none
  else
    let some importRva ← readU32 bytes importDirectoryOffset .little | return none
    let importSize ← fieldU32 bytes (← Parse.add importDirectoryOffset 4) .little
    if importRva = 0 then return none
    else
      let sections ← peSectionHeaders bytes
      let some importOffset ← Parse.checked (peRvaToFileOffset sections importRva 20)
        | return none
      let descriptorLimit :=
        if 20 ≤ importSize.toNat then min (importSize.toNat / 20) 1024 else 1024
      return some
        { sections, importOffset, descriptorLimit
          thunkSize := if header.magic = 0x20b then 8 else 4
          ordinalFlag := if header.magic = 0x20b then 0x8000000000000000 else 0x80000000 }

/-- The export directory, when the header points to one. -/
def peExportDirectory (bytes : Window buffer) :
    Parse (Option (List PeSectionHeader × Nat)) := do
  let some header ← peOptionalHeader bytes | return none
  let some exportDirectoryEnd ← Parse.checked (checkedAdd header.dataDirectory 8) | return none
  if saturatingAdd header.offset header.size < exportDirectoryEnd
      ∨ checkedSlice bytes header.dataDirectory 8 = none then
    return none
  else
    let some exportRva ← readU32 bytes header.dataDirectory .little | return none
    if exportRva = 0 then return none
    else
      let sections ← peSectionHeaders bytes
      let some exportOffset ← Parse.checked (peRvaToFileOffset sections exportRva 40)
        | return none
      return some (sections, exportOffset)

/-! ## Imports -/

/-- A descriptor and the name of its library; `none` where the loop ends. -/
def peDescriptor (bytes : Window buffer) (directory : PeImportDirectory) (index : Nat) :
    Parse (Option (Window buffer)) := do
  let some descriptorOffset ← Parse.checked (tableEntryOffset directory.importOffset index 20)
    | return none
  let some descriptor ← Parse.checked (checkedSlice bytes descriptorOffset 20) | return none
  let raw ← Parse.peek descriptor
  if raw.all (· = 0) then return none else return some descriptor

/-- The library of one descriptor; the null descriptor ends them. -/
def peImportLibrary (bytes : Window buffer) (directory : PeImportDirectory) (index : Nat)
    (libraries : List (List Char)) : Parse (ForInStep (List (List Char))) := do
  let some descriptor ← peDescriptor bytes directory index | return .done libraries
  let nameRva ← fieldU32 descriptor 12 .little
  let some nameOffset ← Parse.checked (peRvaToFileOffset directory.sections nameRva 1)
    | return .yield libraries
  let name ← nameFrom bytes nameOffset
  return .yield (if name = [] then libraries else libraries ++ [name])

/-- The libraries a file imports. -/
def peImportLibraries (bytes : Window buffer) : Parse (List (List Char)) := do
  let some directory ← peImportDirectory bytes | return []
  Op.forEach (peImportLibrary bytes directory) (List.range directory.descriptorLimit) []

/-- A thunk of four or eight bytes. -/
def peImportThunkValue (bytes : Window buffer) (offset size : Nat) : Parse (Option UInt64) :=
  match size with
  | 8 => readU64 bytes offset .little
  | 4 => do return (← readU32 bytes offset .little).map UInt32.toUInt64
  | _ => return none

/-- The symbol of one thunk; the null thunk ends them. -/
def peImportThunk (bytes : Window buffer) (directory : PeImportDirectory) (library : List Char)
    (thunkOffset thunkIndex : Nat) (symbols : List (List Char)) :
    Parse (ForInStep (List (List Char))) := do
  let some entryOffset ← Parse.checked
      (tableEntryOffset thunkOffset thunkIndex directory.thunkSize)
    | return .done symbols
  let some entry ← peImportThunkValue bytes entryOffset directory.thunkSize
    | return .done symbols
  if entry = 0 then return .done symbols
  else if entry &&& directory.ordinalFlag ≠ 0 then return .yield symbols
  else if 2 ^ 32 ≤ entry.toNat then return .yield symbols
  else
    let some hintOffset ← Parse.checked
        (peRvaToFileOffset directory.sections entry.toUInt32 2)
      | return .yield symbols
    let some symbolOffset ← Parse.checked (checkedAdd hintOffset 2) | return .yield symbols
    let symbol ← nameFrom bytes symbolOffset
    return .yield
      (if isBinarySymbolName symbol then symbols ++ [library ++ '!' :: symbol] else symbols)

/-- The symbols of one descriptor. -/
def peImportSymbol (bytes : Window buffer) (directory : PeImportDirectory) (index : Nat)
    (symbols : List (List Char)) : Parse (ForInStep (List (List Char))) := do
  let some descriptor ← peDescriptor bytes directory index | return .done symbols
  let nameRva ← fieldU32 descriptor 12 .little
  let some nameOffset ← Parse.checked (peRvaToFileOffset directory.sections nameRva 1)
    | return .yield symbols
  let library ← nameFrom bytes nameOffset
  if library = [] then return .yield symbols
  else
    let lookupRva ← fieldU32 descriptor 0 .little
    let firstThunkRva ← fieldU32 descriptor 16 .little
    let thunkRva := if lookupRva ≠ 0 then lookupRva else firstThunkRva
    if thunkRva = 0 then return .yield symbols
    else
      let some thunkOffset ← Parse.checked (peRvaToFileOffset directory.sections thunkRva
          (UInt32.ofNat directory.thunkSize))
        | return .yield symbols
      let symbols ← Op.forEach (peImportThunk bytes directory library thunkOffset)
        (List.range 1024) symbols
      return .yield symbols

/-- The symbols a file imports. -/
def peImportSymbols (bytes : Window buffer) : Parse (List (List Char)) := do
  let some directory ← peImportDirectory bytes | return []
  let symbols ← Op.forEach (peImportSymbol bytes directory)
    (List.range directory.descriptorLimit) []
  return sortDedup symbols

/-! ## Exports -/

/-- One exported name. -/
def peExportSymbol (bytes : Window buffer) (sections : List PeSectionHeader)
    (nameTableRva : UInt32) (index : Nat) (symbols : List (List Char)) :
    Parse (ForInStep (List (List Char))) := do
  -- `checked_mul` and `checked_add` of `u32`
  if 2 ^ 32 ≤ nameTableRva.toNat + index * 4 then return .done symbols
  else
    let entryRva := UInt32.ofNat (nameTableRva.toNat + index * 4)
    let some entryOffset ← Parse.checked (peRvaToFileOffset sections entryRva 4)
      | return .yield symbols
    let some nameRva ← readU32 bytes entryOffset .little | return .yield symbols
    let some nameOffset ← Parse.checked (peRvaToFileOffset sections nameRva 1)
      | return .yield symbols
    let name ← nameFrom bytes nameOffset
    return .yield (if isBinarySymbolName name then symbols ++ [name] else symbols)

/-- The names a file exports. -/
def peExportSymbols (bytes : Window buffer) : Parse (List (List Char)) := do
  let some (sections, exportOffset) ← peExportDirectory bytes | return []
  let some exportDirectory ← Parse.checked (checkedSlice bytes exportOffset 40) | return []
  let nameCount ← fieldU32 exportDirectory 24 .little
  let nameTableRva ← fieldU32 exportDirectory 32 .little
  if nameCount = 0 ∨ nameTableRva = 0 then return []
  else
    let symbols ← Op.forEach (peExportSymbol bytes sections nameTableRva)
      (List.range (min nameCount.toNat 4096)) []
    return sortDedup symbols

/-! ## Mitigations -/

/-- `PE\0\0`. -/
def peSignature : List UInt8 := [0x50, 0x45, 0, 0]

/-- `bytes.get(pe_offset..pe_offset + 4)`. -/
def signatureAt (bytes : Window buffer) (peOffset : Nat) : Parse (Option (List UInt8)) := do
  let some raw ← Parse.checked (bytes.get? peOffset (← Parse.add peOffset 4)) | return none
  return some (← Parse.peek raw)

/-- The certificate table is not empty. -/
def peIsAuthenticodeSigned (bytes : Window buffer) : Parse Bool := do
  let some peOffset ← readU32Le bytes 0x3c | return false
  let signature ← signatureAt bytes peOffset.toNat
  if signature ≠ some peSignature then return false
  else
    let optionalHeader ← Parse.add peOffset.toNat 24
    let some magic ← readU16 bytes optionalHeader .little | return false
    let dataDir ← Parse.add optionalHeader (if magic = 0x20b then 112 else 96)
    let size ← readU32 bytes (← Parse.add (← Parse.add dataDir (4 * 8)) 4) .little
    return size.any (· ≠ 0)

/-- `DllCharacteristics`. -/
def peDllCharacteristics (bytes : Window buffer) : Parse (Option UInt16) := do
  let some peOffset ← readU32Le bytes 0x3c | return none
  let signature ← signatureAt bytes peOffset.toNat
  if signature ≠ some peSignature then return none
  else
    let some optionalHeaderSize ← readU16 bytes (← Parse.add peOffset.toNat 20) .little
      | return none
    if optionalHeaderSize.toNat < 0x48 then return none
    else readU16 bytes (← Parse.add (← Parse.add peOffset.toNat 24) 0x46) .little

/-! ## No sum comes near the limit

`usize` holds any sum of a few 32-bit numbers. -/

theorem usizeSize_eq : usizeSize = 2 ^ 64 := rfl

theorem peSectionHeaders_total (bytes : Window buffer) :
    Parse.Total buffer (fun _ => True) (peSectionHeaders bytes) := by
  have hlimit := usizeSize_eq
  refine (readAs_total (by decide)).bindSome (.done _) fun peOffset _ => ?_
  have hoffset := peOffset.toNat_lt
  refine .addBind (by omega) ?_
  refine (readAs_total (by omega)).bindSome (.done _) fun sectionCount _ => ?_
  refine .addBind (by omega) ?_
  refine (readAs_total (by omega)).bindSome (.done _) fun optionalHeaderSize _ => ?_
  have hsize := optionalHeaderSize.toNat_lt
  refine .ite (fun _ => .done _) fun _ => ?_
  refine .addBind (by omega) ?_
  refine .addBind (by omega) ?_
  refine .forAll (fun index _ sections => ?_) _
  refine (Parse.Total.checked _).bindSome (.done _) fun offset _ => ?_
  refine (Parse.Total.checked _).bindSome (.done _) fun header hheader => ?_
  obtain ⟨-, -, hlength⟩ := checkedSlice_eq_some hheader
  refine (Parse.Total.slice (by omega) (by omega)).bind fun raw _ => ?_
  refine (fixedName_total raw).bind fun name _ => ?_
  refine .ite (fun _ => .done _) fun _ => ?_
  iterate 5 refine (field_total (by omega)).bind fun _ _ => ?_
  exact .done _

theorem peSections_total (bytes : Window buffer) :
    Parse.Total buffer (fun _ => True) (peSections bytes) :=
  (peSectionHeaders_total bytes).bind fun _ _ => .done _

/-- The layout of a PE file is decided without a panic. -/
theorem peLayout_total (bytes : Window buffer) :
    Parse.Total buffer (fun _ => True) (peLayout bytes) := by
  have hlimit := usizeSize_eq
  refine (readAs_total (by decide)).bind fun peOffset _ => ?_
  refine (Parse.Total.andThen trivial fun offset _ => ?_ :
    Parse.Total buffer (fun _ => True) _).bind fun sectionCount _ => ?_
  · have hoffset := offset.toNat_lt
    refine .addBind (by omega) ?_
    exact (readAs_total (by omega)).mono fun _ _ => trivial
  refine (Parse.Total.andThen (by simp) fun offset _ => ?_ : Parse.Total buffer
    (fun header => ∀ offset, header = some offset → offset < 2 ^ 32 + 24) _).bind
    fun optionalHeader hoptional => ?_
  · have hoffset := offset.toNat_lt
    refine .addBind (by omega) (.pure ?_)
    simp only [Option.some.injEq, forall_eq']
    omega
  refine (Parse.Total.andThen trivial fun offset hoffset => ?_ :
    Parse.Total buffer (fun _ => True) _).bind fun magic _ => ?_
  · have hlt := hoptional offset hoffset
    exact (readAs_total (by omega)).mono fun _ _ => trivial
  refine (Parse.Total.andThen trivial fun offset hoffset => ?_ :
    Parse.Total buffer (fun _ => True) _).bind fun entrypoint _ => ?_
  · have hlt := hoptional offset hoffset
    refine .addBind (by omega) ?_
    exact (readAs_total (by omega)).mono fun _ _ => trivial
  refine (Parse.Total.andThen trivial fun offset hoffset => ?_ :
    Parse.Total buffer (fun _ => True) _).bind fun imageBase _ => ?_
  · have hlt := hoptional offset hoffset
    refine .ite (fun _ => ?_) fun _ => .ite (fun _ => ?_) fun _ => .done _
    · refine .addBind (by omega) ?_
      exact (readAs_total (by omega)).mono fun _ _ => trivial
    · refine .addBind (by omega) ?_
      exact (readAs_total (by omega)).bind fun _ _ => .done _
  exact (peSections_total bytes).bind fun sections _ => .done _

theorem peOptionalHeader_total (bytes : Window buffer) :
    Parse.Total buffer (fun out => ∀ header, out = some header →
      header.dataDirectory < 2 ^ 32 + 2 ^ 16) (peOptionalHeader bytes) := by
  have hlimit := usizeSize_eq
  have hnone : Parse.Total buffer (fun out => ∀ header : PeOptionalHeader, out = some header →
      header.dataDirectory < 2 ^ 32 + 2 ^ 16) (pure none) := .pure nofun
  refine (readAs_total (by decide)).bindSome hnone fun peOffset _ => ?_
  have hoffset := peOffset.toNat_lt
  refine .addBind (by omega) ?_
  refine (readAs_total (by omega)).bindSome hnone fun optionalHeaderSize _ => ?_
  refine .addBind (by omega) ?_
  refine (readAs_total (by omega)).bindSome hnone fun magic _ => ?_
  refine (Parse.Total.checked _).bindSome hnone fun _ _ => ?_
  have hfound : ∀ delta ≤ 0x70, Parse.Total buffer (fun out => ∀ header : PeOptionalHeader,
      out = some header → header.dataDirectory < 2 ^ 32 + 2 ^ 16) (do
        return some ⟨peOffset.toNat + 24, optionalHeaderSize.toNat, magic,
          ← Parse.add (peOffset.toNat + 24) delta⟩) := by
    intro delta hdelta
    refine .addBind (by omega) (.pure ?_)
    simp only [Option.some.injEq, forall_eq']
    omega
  refine .ite (fun _ => hfound 0x60 (by decide)) fun _ => ?_
  exact .ite (fun _ => hfound 0x70 (by decide)) fun _ => hnone

theorem peImportDirectory_total (bytes : Window buffer) :
    Parse.Total buffer (fun out => ∀ directory, out = some directory → directory.thunkSize ≤ 8)
      (peImportDirectory bytes) := by
  have hlimit := usizeSize_eq
  have hnone : Parse.Total buffer (fun out => ∀ directory : PeImportDirectory,
      out = some directory → directory.thunkSize ≤ 8) (pure none) := .pure nofun
  refine (peOptionalHeader_total bytes).bindSome hnone fun header hheader => ?_
  have hdirectory := hheader header rfl
  refine (Parse.Total.checked _).bindSome hnone fun importDirectoryOffset himport => ?_
  obtain ⟨-, rfl⟩ := checkedAdd_eq_some himport
  refine (Parse.Total.checked _).bindSome hnone fun importDirectoryEnd _ => ?_
  refine .ite (fun _ => hnone) fun hinside => ?_
  obtain ⟨entry, hentry⟩ := Option.ne_none_iff_exists'.mp (not_or.mp hinside).2
  obtain ⟨hle, -, -⟩ := checkedSlice_eq_some hentry
  refine (readAs_total (by omega)).bindSome hnone fun importRva _ => ?_
  refine .addBind (by omega) ?_
  refine (field_total (by omega)).bind fun importSize _ => ?_
  refine .ite (fun _ => hnone) fun _ => ?_
  refine (peSectionHeaders_total bytes).bind fun sections _ => ?_
  refine (Parse.Total.checked _).bindSome hnone fun importOffset _ => .pure ?_
  simp only [Option.some.injEq, forall_eq']
  split <;> omega

theorem peExportDirectory_total (bytes : Window buffer) :
    Parse.Total buffer (fun _ => True) (peExportDirectory bytes) := by
  have hlimit := usizeSize_eq
  refine (peOptionalHeader_total bytes).bindSome (.done _) fun header hheader => ?_
  have hdirectory := hheader header rfl
  refine (Parse.Total.checked _).bindSome (.done _) fun exportDirectoryEnd _ => ?_
  refine .ite (fun _ => .done _) fun _ => ?_
  refine (readAs_total (by omega)).bindSome (.done _) fun exportRva _ => ?_
  refine .ite (fun _ => .done _) fun _ => ?_
  refine (peSectionHeaders_total bytes).bind fun sections _ => ?_
  exact (Parse.Total.checked _).bindSome (.done _) fun exportOffset _ => .done _

theorem peDescriptor_total (bytes : Window buffer) (directory : PeImportDirectory) (index : Nat) :
    Parse.Total buffer (fun out => ∀ descriptor, out = some descriptor → descriptor.length = 20)
      (peDescriptor bytes directory index) := by
  refine (Parse.Total.checked _).bindSome (.pure nofun) fun descriptorOffset _ => ?_
  refine (Parse.Total.checked _).bindSome (.pure nofun) fun descriptor hdescriptor => ?_
  obtain ⟨-, -, hlength⟩ := checkedSlice_eq_some hdescriptor
  refine (Parse.Total.peek descriptor).bind fun raw _ => ?_
  refine .ite (fun _ => .pure nofun) fun _ => .pure ?_
  simpa only [Option.some.injEq, forall_eq'] using hlength

theorem peImportLibraries_total (bytes : Window buffer) :
    Parse.Total buffer (fun _ => True) (peImportLibraries bytes) := by
  refine (peImportDirectory_total bytes).bindSome (.done _) fun directory _ => ?_
  refine .forAll (fun index _ libraries => ?_) _
  refine (peDescriptor_total bytes directory index).bindSome (.done _) fun descriptor hlen => ?_
  have hlength := hlen descriptor rfl
  refine (field_total (by omega)).bind fun nameRva _ => ?_
  refine (Parse.Total.checked _).bindSome (.done _) fun nameOffset _ => ?_
  exact (fixedName_total _).bind fun name _ => .done _

theorem peImportThunk_total (bytes : Window buffer) {directory : PeImportDirectory}
    (hsize : directory.thunkSize ≤ 8) (library : List Char) {thunkOffset thunkIndex : Nat}
    (hoffset : thunkOffset < 2 ^ 32) (hindex : thunkIndex < 1024) (symbols : List (List Char)) :
    Parse.Total buffer (fun _ => True)
      (peImportThunk bytes directory library thunkOffset thunkIndex symbols) := by
  have hlimit := usizeSize_eq
  refine (Parse.Total.checked _).bindSome (.done _) fun entryOffset hentry => ?_
  obtain ⟨-, rfl⟩ := tableEntryOffset_eq_some hentry
  have hproduct : thunkIndex * directory.thunkSize ≤ 1024 * 8 :=
    Nat.mul_le_mul (by omega) hsize
  have hvalue : Parse.Total buffer (fun _ => True) (peImportThunkValue bytes
      (thunkIndex * directory.thunkSize + thunkOffset) directory.thunkSize) := by
    unfold peImportThunkValue
    split
    · exact (readAs_total (by omega)).mono fun _ _ => trivial
    · exact (readAs_total (by omega)).bind fun _ _ => .done _
    · exact .done _
  refine hvalue.bindSome (.done _) fun entry _ => ?_
  refine .ite (fun _ => .done _) fun _ => ?_
  refine .ite (fun _ => .done _) fun _ => ?_
  refine .ite (fun _ => .done _) fun _ => ?_
  refine (Parse.Total.checked _).bindSome (.done _) fun hintOffset _ => ?_
  refine (Parse.Total.checked _).bindSome (.done _) fun symbolOffset _ => ?_
  exact (fixedName_total _).bind fun symbol _ => .done _

theorem peImportSymbols_total (bytes : Window buffer) :
    Parse.Total buffer (fun _ => True) (peImportSymbols bytes) := by
  refine (peImportDirectory_total bytes).bindSome (.done _) fun directory hdirectory => ?_
  refine (Parse.Total.forAll (fun index _ symbols => ?_) _).bind fun _ _ => .done _
  refine (peDescriptor_total bytes directory index).bindSome (.done _) fun descriptor hlen => ?_
  have hlength := hlen descriptor rfl
  refine (field_total (by omega)).bind fun nameRva _ => ?_
  refine (Parse.Total.checked _).bindSome (.done _) fun nameOffset _ => ?_
  refine (fixedName_total _).bind fun library _ => ?_
  refine .ite (fun _ => .done _) fun _ => ?_
  refine (field_total (by omega)).bind fun lookupRva _ => ?_
  refine (field_total (by omega)).bind fun firstThunkRva _ => ?_
  refine .ite (fun _ => .done _) fun _ => ?_
  refine (Parse.Total.checked _).bindSome (.done _) fun thunkOffset hthunk => ?_
  refine (Parse.Total.forAll (fun thunkIndex hindex symbols => ?_) _).bind fun _ _ => .done _
  exact peImportThunk_total bytes (hdirectory directory rfl) library (peRvaToFileOffset_lt hthunk)
    (List.mem_range.mp hindex) symbols

theorem peExportSymbols_total (bytes : Window buffer) :
    Parse.Total buffer (fun _ => True) (peExportSymbols bytes) := by
  have hlimit := usizeSize_eq
  refine (peExportDirectory_total bytes).bindSome (.done _) fun (sections, exportOffset) _ => ?_
  refine (Parse.Total.checked _).bindSome (.done _) fun exportDirectory hdirectory => ?_
  obtain ⟨-, -, hlength⟩ := checkedSlice_eq_some hdirectory
  refine (field_total (by omega)).bind fun nameCount _ => ?_
  refine (field_total (by omega)).bind fun nameTableRva _ => ?_
  refine .ite (fun _ => .done _) fun _ => ?_
  refine (Parse.Total.forAll (fun index _ symbols => ?_) _).bind fun _ _ => .done _
  refine .ite (fun _ => .done _) fun _ => ?_
  refine (Parse.Total.checked _).bindSome (.done _) fun entryOffset hentry => ?_
  have hlt := peRvaToFileOffset_lt hentry
  refine (readAs_total (by omega)).bindSome (.done _) fun nameRva _ => ?_
  refine (Parse.Total.checked _).bindSome (.done _) fun nameOffset _ => ?_
  exact (fixedName_total _).bind fun name _ => .done _

theorem signatureAt_total (bytes : Window buffer) {peOffset : Nat} (h : peOffset < 2 ^ 32) :
    Parse.Total buffer (fun _ => True) (signatureAt bytes peOffset) := by
  have hlimit := usizeSize_eq
  refine .addBind (by omega) ?_
  refine (Parse.Total.checked _).bindSome (.done _) fun raw _ => ?_
  exact (Parse.Total.peek raw).bind fun _ _ => .done _

theorem peIsAuthenticodeSigned_total (bytes : Window buffer) :
    Parse.Total buffer (fun _ => True) (peIsAuthenticodeSigned bytes) := by
  have hlimit := usizeSize_eq
  refine (readAs_total (by decide)).bindSome (.done _) fun peOffset _ => ?_
  have hoffset := peOffset.toNat_lt
  refine (signatureAt_total bytes hoffset).bind fun signature _ => ?_
  refine .ite (fun _ => .done _) fun _ => ?_
  refine .addBind (by omega) ?_
  refine (readAs_total (by omega)).bindSome (.done _) fun magic _ => ?_
  have hdelta : (if magic = 0x20b then 112 else 96) ≤ 112 := by split <;> decide
  refine .addBind (by omega) ?_
  refine .addBind (by omega) ?_
  refine .addBind (by omega) ?_
  exact (readAs_total (by omega)).bind fun _ _ => .done _

theorem peDllCharacteristics_total (bytes : Window buffer) :
    Parse.Total buffer (fun _ => True) (peDllCharacteristics bytes) := by
  have hlimit := usizeSize_eq
  refine (readAs_total (by decide)).bindSome (.done _) fun peOffset _ => ?_
  have hoffset := peOffset.toNat_lt
  refine (signatureAt_total bytes hoffset).bind fun signature _ => ?_
  refine .ite (fun _ => .done _) fun _ => ?_
  refine .addBind (by omega) ?_
  refine (readAs_total (by omega)).bindSome (.done _) fun optionalHeaderSize _ => ?_
  refine .ite (fun _ => .done _) fun _ => ?_
  refine .addBind (by omega) ?_
  refine .addBind (by omega) ?_
  exact (readAs_total (by omega)).mono fun _ _ => trivial

end GovFuzz.BinaryAnalysis
