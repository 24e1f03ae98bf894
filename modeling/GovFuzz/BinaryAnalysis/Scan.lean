import GovFuzz.BinaryAnalysis.Archive
import GovFuzz.BinaryAnalysis.Elf
import GovFuzz.BinaryAnalysis.MachO
import GovFuzz.BinaryAnalysis.Pe
import GovFuzz.Lib.Except

/-!
# Binary analysis — the scan

`identify` and `scan_bytes` of `crates/binary_analysis/src/lib.rs`, with
every parser that is run on a buffer and what it contributes to the record;
what is only searched for in the text of the buffer is left out.  A scan
returns, with every field read where it says, unless one of the buffers puts
the header of its section names within 32 bytes of the end of the address
space (`scanBytes_total_iff`).
-/

namespace GovFuzz.BinaryAnalysis

open GovFuzz.Lib

variable {buffer : Slice}

/-! ## Identification -/

/-- The magic that promised a format the rest did not keep. -/
inductive MalformedReason where
  | elf
  | pe
  | machO
  deriving DecidableEq, Repr

/-- What the first bytes of a file are. -/
inductive Identification where
  | binary (kind : BinaryKind)
  | malformed (reason : MalformedReason)
  | notBinary
  deriving DecidableEq, Repr

/-- `e_machine`. -/
def elfMachine (machine : UInt16) : Architecture :=
  match machine.toNat with
  | 3 => .x86
  | 40 => .arm
  | 62 => .x86_64
  | 183 => .aarch64
  | 243 => .riscv
  | _ => .unknown

/-- `Machine` and its word size. -/
def peMachine (machine : UInt16) : Architecture × Nat :=
  match machine.toNat with
  | 0x014c => (.x86, 32)
  | 0x8664 => (.x86_64, 64)
  | 0xaa64 => (.aarch64, 64)
  | 0x01c0 => (.arm, 32)
  | 0x01c4 => (.arm, 32)
  | _ => (.unknown, 0)

/-- `cputype`. -/
def machoCpu (cputype : UInt32) : Architecture :=
  match cputype.toNat with
  | 7 => .x86
  | 0x01000007 => .x86_64
  | 12 => .arm
  | 0x0100000c => .aarch64
  | _ => .unknown

/-- `\x7fELF`. -/
def elfMagic : List UInt8 := 0x7f :: toUtf8 "ELF"

/-- `EI_CLASS`. -/
def elfBits (code : UInt8) : Nat := if code = 1 then 32 else if code = 2 then 64 else 0

/-- `EI_DATA`. -/
def elfEndian (code : UInt8) : Endian :=
  if code = 1 then .little else if code = 2 then .big else .unknown

/-- The kind in an ELF header. -/
def identifyElf (bytes : Window buffer) : Parse Identification := do
  if bytes.length < 20 ∨ !elfMagic.isPrefixOf bytes.bytes then return .malformed .elf
  else
    let bits := elfBits (← Parse.index bytes 4)
    let endian := elfEndian (← Parse.index bytes 5)
    let some machine ← readU16 bytes 18 endian | return .malformed .elf
    return .binary ⟨.elf, elfMachine machine, bits, endian⟩

/-- The kind in the PE header that the DOS header points to. -/
def identifyPe (bytes : Window buffer) : Parse Identification := do
  if bytes.length < 0x40 ∨ !(toUtf8 "MZ").isPrefixOf bytes.bytes then return .malformed .pe
  else
    let some peOffset ← readU32Le bytes 0x3c | return .malformed .pe
    let signature ← signatureAt bytes peOffset.toNat
    if signature ≠ some peSignature then return .malformed .pe
    else
      let start ← Parse.add peOffset.toNat 4
      let stop ← Parse.add peOffset.toNat 6
      let some raw ← Parse.checked (bytes.get? start stop) | return .malformed .pe
      let machine := UInt16.ofNat (leNat (← Parse.peek raw))
      let (architecture, bits) := peMachine machine
      return .binary ⟨.pe, architecture, bits, .little⟩

/-- The first word, in both orders. -/
def machoMagics (bytes : Window buffer) : Option (Nat × Nat) :=
  (bytes.get? 0 4).map fun raw => (leNat raw.bytes, beNat raw.bytes)

/-- A Mach-O magic in either byte order. -/
def hasMachoMagic (bytes : Window buffer) : Bool :=
  match machoMagics bytes with
  | some (le, be) => le ∈ [0xfeedfacf, 0xfeedface] || be ∈ [0xfeedfacf, 0xfeedface]
  | none => false

/-- The kind in a Mach-O header. -/
def identifyMacho (bytes : Window buffer) : Parse Identification := do
  let some (le, be) ← Parse.checked (machoMagics bytes) | return .malformed .machO
  if le = 0xfeedfacf ∨ le = 0xfeedface then
    let some cputype ← readU32Le bytes 4 | return .malformed .machO
    return .binary ⟨.machO, machoCpu cputype, if le = 0xfeedfacf then 64 else 32, .little⟩
  else if be = 0xfeedfacf then return .binary ⟨.machO, .unknown, 64, .big⟩
  else if be = 0xfeedface then return .binary ⟨.machO, .unknown, 32, .big⟩
  else return .malformed .machO

/-- Of the path, only whether it has an extension of firmware counts. -/
def identify (firmwareExtension : Bool) (bytes : Window buffer) : Parse Identification :=
  if elfMagic.isPrefixOf bytes.bytes then identifyElf bytes
  else if (toUtf8 "MZ").isPrefixOf bytes.bytes then identifyPe bytes
  else if hasMachoMagic bytes then identifyMacho bytes
  else if firmwareExtension then return .binary ⟨.firmwareBlob, .unknown, 0, .unknown⟩
  else return .notBinary

/-! ## What the headers contribute to the record -/

/-- The entry address, of four or eight bytes. -/
def elfEntrypoint (kind : BinaryKind) (bytes : Window buffer) : Parse (Option UInt64) := do
  if kind.bits = 64 then readU64 bytes 24 kind.endian
  else return (← readU32 bytes 24 kind.endian).map UInt32.toUInt64

/-- Entry point and counts of an ELF file. -/
def elfLayout (kind : BinaryKind) (bytes : Window buffer) : Parse BinaryLayout := do
  let entrypoint ← elfEntrypoint kind bytes
  let programHeaderCount ← readU16 bytes (if kind.bits = 64 then 56 else 44) kind.endian
  let sectionCount ← readU16 bytes (if kind.bits = 64 then 60 else 48) kind.endian
  let sections ← elfSections kind bytes
  let segments ← elfSegments kind bytes
  return ⟨entrypoint, none, programHeaderCount.map UInt16.toUInt32,
    sectionCount.map UInt16.toUInt32, none, none, sections ++ segments⟩

/-- The layout of each format. -/
def binaryLayout (kind : BinaryKind) (bytes : Window buffer) : Parse BinaryLayout :=
  match kind.format with
  | .elf => elfLayout kind bytes
  | .pe => peLayout bytes
  | .machO => machoLayout kind bytes
  | .firmwareBlob => return ⟨none, none, none, none, none, none, []⟩

/-- The symbols of each format. -/
def binarySymbolNames (kind : BinaryKind) (bytes : Window buffer) : Parse BinarySymbolNames :=
  match kind.format with
  | .elf => elfSymbolNames kind bytes
  | .pe => do return ⟨← peImportSymbols bytes, ← peExportSymbols bytes⟩
  | .machO => machoSymbolNames kind bytes
  | .firmwareBlob => return ⟨[], []⟩

/-- How a binary is linked. -/
inductive Linking where
  | notApplicable
  | unknown
  | dynamic
  | static
  deriving DecidableEq, Repr

/-- Some header names a loader. -/
def hasInterpreter (headers : List ElfProgramHeader) : Bool :=
  headers.any fun header => header.segmentType = 3

/-- Dynamic when a loader or a library is named. -/
def elfLinking (kind : BinaryKind) (bytes : Window buffer) : Parse Linking := do
  if kind.format ≠ .elf then return .notApplicable
  else
    let headers ← elfProgramHeaders kind bytes
    if headers = [] then return .unknown
    else if hasInterpreter headers then return .dynamic
    else
      let dynamic ← elfDynamicDependencies kind bytes
      return if dynamic.libraries ≠ [] then .dynamic else .static

/-- What a binary needs at run time. -/
structure HeaderDependencies where
  libraries : List (List Char)
  interpreters : List (List Char)
  rpaths : List (List Char)
  linking : Linking
  deriving DecidableEq, Repr

/-- What PE and Mach-O add to the libraries. -/
def formatLibraries (kind : BinaryKind) (bytes : Window buffer) : Parse (List (List Char)) :=
  match kind.format with
  | .pe => peImportLibraries bytes
  | .machO => machoDylibLibraries kind bytes
  | _ => return []

/-- The dependencies of an ELF file. -/
def binaryDependencies (kind : BinaryKind) (bytes : Window buffer) :
    Parse HeaderDependencies := do
  let dynamic ← elfDynamicDependencies kind bytes
  let others ← formatLibraries kind bytes
  let interpreters ← elfInterpreters kind bytes
  let linking ← elfLinking kind bytes
  return ⟨sortDedup (dynamic.libraries ++ others), sortDedup interpreters,
    sortDedup dynamic.rpaths, linking⟩

/-- Whether a protection is on. -/
inductive HardeningStatus where
  | notApplicable
  | notDetected
  | present
  | disabled
  | none
  | full
  | partially
  | dso
  deriving DecidableEq, Repr

/-- The needle stands somewhere in the bytes. -/
def containsBytes (haystack needle : List UInt8) : Bool :=
  needle ≠ [] && (windowPosition needle haystack).isSome

/-- Full with immediate binding, partial with the segment alone. -/
def elfRelroStatus (kind : BinaryKind) (bytes : Window buffer) : Parse HardeningStatus := do
  if kind.format ≠ .elf then return .notApplicable
  else
    let headers ← elfProgramHeaders kind bytes
    let hasRelroSegment := headers.any fun header => header.segmentType = 0x6474e552
    if !hasRelroSegment && !containsBytes bytes.bytes (toUtf8 "GNU_RELRO") then return .none
    else return if ← elfHasBindNow kind bytes then .full else .partially

/-- By the flags of the stack segment. -/
def elfNxStatus (kind : BinaryKind) (bytes : Window buffer) : Parse HardeningStatus := do
  if kind.format ≠ .elf then return .notApplicable
  else
    let headers ← elfProgramHeaders kind bytes
    return match headers.find? fun header => header.segmentType = 0x6474e551 with
      | some header => if header.flags &&& 0x1 ≠ 0 then .disabled else .present
      | none => .notDetected

/-- Position independence of each format. -/
def pieStatus (kind : BinaryKind) (bytes : Window buffer) : Parse HardeningStatus := do
  match kind.format with
  | .elf =>
      let fileType ← readU16 bytes 16 kind.endian
      if fileType ≠ some 3 then return .notDetected
      else
        let headers ← elfProgramHeaders kind bytes
        return if headers = [] ∨ hasInterpreter headers then .present else .dso
  | .machO =>
      let flags ← machoHeaderFlags kind bytes
      return if flags.any (· &&& 0x200000 ≠ 0) then .present else .notDetected
  | _ => return .notApplicable

/-- The non-executable stack or data of each format. -/
def nxStatus (kind : BinaryKind) (bytes : Window buffer) : Parse HardeningStatus := do
  match kind.format with
  | .elf => elfNxStatus kind bytes
  | .pe =>
      return match ← peDllCharacteristics bytes with
        | some flags => if flags &&& 0x0100 ≠ 0 then .present else .disabled
        | none => .notDetected
  | .machO =>
      return match ← machoHeaderFlags kind bytes with
        | some flags => if flags &&& 0x20000 ≠ 0 then .disabled else .present
        | none => .notDetected
  | _ => return .notApplicable

/-- A bit of `DllCharacteristics`. -/
def peBitStatus (bit : UInt16) (kind : BinaryKind) (bytes : Window buffer) :
    Parse HardeningStatus := do
  if kind.format ≠ .pe then return .notApplicable
  else
    let flags ← peDllCharacteristics bytes
    return if flags.any (· &&& bit ≠ 0) then .present else .notDetected

/-- The bit of randomized addresses. -/
def peAslrStatus (kind : BinaryKind) (bytes : Window buffer) : Parse HardeningStatus :=
  peBitStatus 0x0040 kind bytes

/-- The bit of guarded calls. -/
def peControlFlowGuardStatus (kind : BinaryKind) (bytes : Window buffer) :
    Parse HardeningStatus :=
  peBitStatus 0x4000 kind bytes

/-- A signature of the formats that carry one. -/
def codeSignatureStatus (kind : BinaryKind) (bytes : Window buffer) :
    Parse HardeningStatus := do
  match kind.format with
  | .machO =>
      return if ← machoHasLoadCommand kind bytes 0x1d then .present else .notDetected
  | .pe => return if ← peIsAuthenticodeSigned bytes then .present else .notDetected
  | _ => return .notApplicable

/-- The protections read from headers. -/
structure HeaderHardening where
  relro : HardeningStatus
  pie : HardeningStatus
  nx : HardeningStatus
  aslr : HardeningStatus
  controlFlowGuard : HardeningStatus
  codeSignature : HardeningStatus
  deriving DecidableEq, Repr

/-- All protections of a binary. -/
def binaryHardening (kind : BinaryKind) (bytes : Window buffer) : Parse HeaderHardening := do
  let relro ← elfRelroStatus kind bytes
  let pie ← pieStatus kind bytes
  let nx ← nxStatus kind bytes
  let aslr ← peAslrStatus kind bytes
  let controlFlowGuard ← peControlFlowGuardStatus kind bytes
  let codeSignature ← codeSignatureStatus kind bytes
  return ⟨relro, pie, nx, aslr, controlFlowGuard, codeSignature⟩

/-- The build id of each format. -/
def binaryBuildId (kind : BinaryKind) (bytes : Window buffer) : Parse (Option (List Char)) :=
  match kind.format with
  | .elf => elfBuildId kind bytes
  | _ => return none

/-- All that headers tell of a binary. -/
structure HeaderRecord where
  kind : BinaryKind
  layout : BinaryLayout
  imports : List (List Char)
  exports : List (List Char)
  dependencies : HeaderDependencies
  hardening : HeaderHardening
  goBuildinfo : Option (List Char × List (List Char × List Char))
  buildId : Option (List Char)
  deriving DecidableEq, Repr

/-- The parsers in the order they are called in. -/
def scanHeaders (kind : BinaryKind) (bytes : Window buffer) : Parse HeaderRecord := do
  let layout ← binaryLayout kind bytes
  let imports ← binarySymbolNames kind bytes
  let exports ← binarySymbolNames kind bytes
  let dependencies ← binaryDependencies kind bytes
  let hardening ← binaryHardening kind bytes
  let goBuildinfo ← goBuildinfoModules bytes
  let buildId ← binaryBuildId kind bytes
  return ⟨kind, layout, imports.imports, exports.exports, dependencies, hardening, goBuildinfo,
    buildId⟩

/-! ## The scan of a file -/

/-- One line of the inventory. -/
inductive ScanItem where
  | binary (record : HeaderRecord)
  | malformed (reason : MalformedReason)
  | malformedArchive (error : ArError)
  | sizeLimit
  | container (members : Nat)
  deriving DecidableEq, Repr

/-- A buffer that was parsed, and what the parsers read of it. -/
structure Reading where
  buffer : Slice
  events : List Event
  deriving DecidableEq

/-- Every read stayed inside the buffer. -/
def Reading.Exact (reading : Reading) : Prop := Parse.Clean reading.buffer reading.events

/-- The inventory and what was read for it. -/
structure Scanned where
  items : List ScanItem
  readings : List Reading
  deriving DecidableEq

/-- The items of one buffer. -/
def scanWindow (firmwareExtension : Bool) (bytes : Window buffer) :
    Parse (List ScanItem) := do
  match ← identify firmwareExtension bytes with
  | .binary kind => return [.binary (← scanHeaders kind bytes)]
  | .malformed reason => return [.malformed reason]
  | .notBinary => return []

/-- The items of one buffer and its reads. -/
def scanBuffer (firmwareExtension : Bool) (data : Slice) : Except Trap Scanned := do
  let (items, events) ← Parse.run (scanWindow firmwareExtension (Window.whole data))
  return ⟨items, [⟨data, events⟩]⟩

/-- Over the limit, when there is one. -/
def sizeExceeds (maxBytes : Option Nat) (bytes : Nat) : Bool := maxBytes.any (· < bytes)

/-- One member of an archive, within the size limit. -/
def scanMember (maxBytes : Option Nat) (firmwareExtension : Bool) (member : ArchiveMember) :
    Except Trap Scanned :=
  if sizeExceeds maxBytes member.data.length then .ok ⟨[.sizeLimit], []⟩
  else scanBuffer firmwareExtension member.data

/-- The members of an archive one after the other. -/
def scanMembers (maxBytes : Option Nat) (firmwareExtension : Bool) :
    List ArchiveMember → Except Trap Scanned
  | [] => .ok ⟨[], []⟩
  | member :: members => do
      let first ← scanMember maxBytes firmwareExtension member
      let rest ← scanMembers maxBytes firmwareExtension members
      return ⟨first.items ++ rest.items, first.readings ++ rest.readings⟩

/-- `scan_bytes`; a member that is an archive itself is not opened. -/
def scanBytes (maxBytes : Option Nat) (firmwareExtension : Bool) (data : Slice) :
    Except Trap Scanned := do
  if isArArchive (Window.whole data) then
    let (archive, events) ← Parse.run (parseArArchive (Window.whole data))
    match archive with
    | .error error => return ⟨[.malformedArchive error], [⟨data, events⟩]⟩
    | .ok members =>
        let scanned ← scanMembers maxBytes firmwareExtension members
        return ⟨.container members.length :: scanned.items, ⟨data, events⟩ :: scanned.readings⟩
  else scanBuffer firmwareExtension data

/-! ## Identification is total -/

/-- What the bytes of an ELF say its kind is. -/
def ElfKind (bytes : Window buffer) (kind : BinaryKind) : Prop :=
  elfMagic.isPrefixOf bytes.bytes ∧ kind.format = .elf
    ∧ kind.bits = elfBits (bytes.bytes.getD 4 0) ∧ kind.endian = elfEndian (bytes.bytes.getD 5 0)

theorem identifyElf_total {bytes : Window buffer} (h : elfMagic.isPrefixOf bytes.bytes) :
    Parse.Total buffer (fun out => (∀ kind, out = .binary kind → ElfKind bytes kind)
      ∧ (20 ≤ bytes.length → ∃ kind, out = .binary kind)) (identifyElf bytes) := by
  refine .ite (fun hshort => .pure ⟨nofun, fun hlong => ?_⟩) fun hlong => ?_
  · simp only [h, Bool.not_true, Bool.false_eq_true, or_false] at hshort
    omega
  simp only [h, Bool.not_true, Bool.false_eq_true, or_false, Nat.not_lt] at hlong
  refine (Parse.Total.index (by omega)).bind fun bits hbits => ?_
  refine (Parse.Total.index (by omega)).bind fun endian hendian => ?_
  refine (readAs_some (by omega)).bind ?_
  rintro (_ | machine) hmachine
  · cases hmachine
  refine .pure ⟨?_, fun _ => ⟨_, rfl⟩⟩
  rintro kind hkind
  cases hkind
  exact ⟨h, rfl, by simp [List.getD, hbits], by simp [List.getD, hendian]⟩

theorem identifyPe_total (bytes : Window buffer) :
    Parse.Total buffer (fun out => ∀ kind, out = .binary kind → kind.format ≠ .elf)
      (identifyPe bytes) := by
  have hlimit := usizeSize_eq
  refine .ite (fun _ => .pure nofun) fun _ => ?_
  refine (readAs_total (by decide)).bindSome (.pure nofun) fun peOffset _ => ?_
  have hoffset := peOffset.toNat_lt
  refine (signatureAt_total bytes hoffset).bind fun signature _ => ?_
  refine .ite (fun _ => .pure nofun) fun _ => ?_
  refine .addBind (by omega) (.addBind (by omega) ?_)
  refine (Parse.Total.checked _).bindSome (.pure nofun) fun raw _ => ?_
  refine (Parse.Total.peek raw).bind fun machine _ => .pure ?_
  rintro kind hkind
  cases hkind
  show Format.pe ≠ .elf
  decide

theorem identifyMacho_total (bytes : Window buffer) :
    Parse.Total buffer (fun out => ∀ kind, out = .binary kind → kind.format ≠ .elf)
      (identifyMacho bytes) := by
  refine (Parse.Total.checked _).bindSome (.pure nofun) fun (le, be) _ => ?_
  have hkind : ∀ kind : BinaryKind, kind.format = .machO → ∀ found, Identification.binary kind
      = .binary found → found.format ≠ .elf := by
    rintro kind hformat found hfound
    cases hfound
    rw [hformat]
    decide
  refine .ite (fun _ => ?_) fun _ => ?_
  · refine (readAs_total (by decide)).bindSome (.pure nofun) fun cputype _ => ?_
    exact .pure (hkind _ rfl)
  refine .ite (fun _ => .pure (hkind _ rfl)) fun _ => ?_
  exact .ite (fun _ => .pure (hkind _ rfl)) fun _ => .pure nofun

theorem identify_total (firmwareExtension : Bool) (bytes : Window buffer) :
    Parse.Total buffer (fun out => ∀ kind, out = .binary kind → kind.format = .elf →
      ElfKind bytes kind) (identify firmwareExtension bytes) := by
  refine .ite (fun helf => ?_) fun _ => .ite (fun _ => ?_) fun _ => .ite (fun _ => ?_) fun _ => ?_
  · exact (identifyElf_total helf).mono fun _ hout kind hkind _ => hout.1 kind hkind
  · exact (identifyPe_total bytes).mono fun _ hout kind hkind helf => absurd helf (hout kind hkind)
  · exact (identifyMacho_total bytes).mono
      fun _ hout kind hkind helf => absurd helf (hout kind hkind)
  · refine .ite (fun _ => .pure ?_) fun _ => .pure nofun
    rintro kind hkind helf
    cases hkind
    cases helf

/-! ## The parsers of the record are total -/

theorem elfEntrypoint_total (kind : BinaryKind) (bytes : Window buffer) :
    Parse.Total buffer (fun _ => True) (elfEntrypoint kind bytes) :=
  .ite (fun _ => (readAs_total (by decide)).mono fun _ _ => trivial)
    fun _ => (readAs_total (by decide)).bind fun _ _ => .done _

section

variable {kind : BinaryKind} {bytes : Window buffer}

theorem binaryLayout_total
    (h : kind.format = .elf → kind.bits = 64 → ¬ NameTableOverflows kind.endian bytes) :
    Parse.Total buffer (fun _ => True) (binaryLayout kind bytes) := by
  unfold binaryLayout
  split
  · rename_i helf
    refine (elfEntrypoint_total kind bytes).bind fun entrypoint _ => ?_
    refine (readAs_total (by split <;> decide)).bind fun programHeaderCount _ => ?_
    refine (readAs_total (by split <;> decide)).bind fun sectionCount _ => ?_
    refine (elfSections_total (h helf)).bind fun sections _ => ?_
    exact (elfSegments_total kind bytes).bind fun segments _ => .done _
  · exact peLayout_total bytes
  · exact machoLayout_total kind bytes
  · exact .done _

theorem binarySymbolNames_total
    (h : kind.format = .elf → kind.bits = 64 → ¬ NameTableOverflows kind.endian bytes) :
    Parse.Total buffer (fun _ => True) (binarySymbolNames kind bytes) := by
  unfold binarySymbolNames
  split
  · rename_i helf
    exact elfSymbolNames_total (h helf)
  · refine (peImportSymbols_total bytes).bind fun imports _ => ?_
    exact (peExportSymbols_total bytes).bind fun exports _ => .done _
  · exact machoSymbolNames_total kind bytes
  · exact .done _

theorem binaryBuildId_total
    (h : kind.format = .elf → kind.bits = 64 → ¬ NameTableOverflows kind.endian bytes) :
    Parse.Total buffer (fun _ => True) (binaryBuildId kind bytes) := by
  unfold binaryBuildId
  split
  · rename_i helf
    exact elfBuildId_total (h helf)
  · exact .done _

end

theorem elfLinking_total (kind : BinaryKind) (bytes : Window buffer) :
    Parse.Total buffer (fun _ => True) (elfLinking kind bytes) := by
  refine .ite (fun _ => .done _) fun _ => ?_
  refine (elfProgramHeaders_total kind bytes).bind fun headers _ => ?_
  refine .ite (fun _ => .done _) fun _ => .ite (fun _ => .done _) fun _ => ?_
  exact (elfDynamicDependencies_total kind bytes).bind fun _ _ => .done _

theorem binaryDependencies_total (kind : BinaryKind) (bytes : Window buffer) :
    Parse.Total buffer (fun _ => True) (binaryDependencies kind bytes) := by
  refine (elfDynamicDependencies_total kind bytes).bind fun dynamic _ => ?_
  have hothers : Parse.Total buffer (fun _ => True) (formatLibraries kind bytes) := by
    unfold formatLibraries
    split
    · exact peImportLibraries_total bytes
    · exact machoDylibLibraries_total kind bytes
    · exact .done _
  refine hothers.bind fun others _ => ?_
  refine (elfInterpreters_total kind bytes).bind fun interpreters _ => ?_
  exact (elfLinking_total kind bytes).bind fun linking _ => .done _

theorem elfRelroStatus_total (kind : BinaryKind) (bytes : Window buffer) :
    Parse.Total buffer (fun _ => True) (elfRelroStatus kind bytes) := by
  refine .ite (fun _ => .done _) fun _ => ?_
  refine (elfProgramHeaders_total kind bytes).bind fun headers _ => ?_
  refine .ite (fun _ => .done _) fun _ => ?_
  exact (elfHasBindNow_total kind bytes).bind fun _ _ => .done _

theorem pieStatus_total (kind : BinaryKind) (bytes : Window buffer) :
    Parse.Total buffer (fun _ => True) (pieStatus kind bytes) := by
  unfold pieStatus
  split
  · refine (readAs_total (by decide)).bind fun fileType _ => ?_
    refine .ite (fun _ => .done _) fun _ => ?_
    exact (elfProgramHeaders_total kind bytes).bind fun _ _ => .done _
  · exact (machoHeaderFlags_total kind bytes).bind fun _ _ => .done _
  · exact .done _

theorem nxStatus_total (kind : BinaryKind) (bytes : Window buffer) :
    Parse.Total buffer (fun _ => True) (nxStatus kind bytes) := by
  unfold nxStatus
  split
  · refine .ite (fun _ => .done _) fun _ => ?_
    exact (elfProgramHeaders_total kind bytes).bind fun _ _ => .done _
  · exact (peDllCharacteristics_total bytes).bind fun _ _ => .done _
  · exact (machoHeaderFlags_total kind bytes).bind fun _ _ => .done _
  · exact .done _

theorem peBitStatus_total (bit : UInt16) (kind : BinaryKind) (bytes : Window buffer) :
    Parse.Total buffer (fun _ => True) (peBitStatus bit kind bytes) :=
  .ite (fun _ => .done _) fun _ => (peDllCharacteristics_total bytes).bind fun _ _ => .done _

theorem codeSignatureStatus_total (kind : BinaryKind) (bytes : Window buffer) :
    Parse.Total buffer (fun _ => True) (codeSignatureStatus kind bytes) := by
  unfold codeSignatureStatus
  split
  · exact (machoHasLoadCommand_total kind bytes 0x1d).bind fun _ _ => .done _
  · exact (peIsAuthenticodeSigned_total bytes).bind fun _ _ => .done _
  · exact .done _

theorem binaryHardening_total (kind : BinaryKind) (bytes : Window buffer) :
    Parse.Total buffer (fun _ => True) (binaryHardening kind bytes) := by
  refine (elfRelroStatus_total kind bytes).bind fun relro _ => ?_
  refine (pieStatus_total kind bytes).bind fun pie _ => ?_
  refine (nxStatus_total kind bytes).bind fun nx _ => ?_
  refine (peBitStatus_total 0x0040 kind bytes).bind fun aslr _ => ?_
  refine (peBitStatus_total 0x4000 kind bytes).bind fun controlFlowGuard _ => ?_
  exact (codeSignatureStatus_total kind bytes).bind fun codeSignature _ => .done _

theorem scanHeaders_total {kind : BinaryKind} {bytes : Window buffer}
    (h : kind.format = .elf → kind.bits = 64 → ¬ NameTableOverflows kind.endian bytes) :
    Parse.Total buffer (fun _ => True) (scanHeaders kind bytes) := by
  refine (binaryLayout_total h).bind fun layout _ => ?_
  refine (binarySymbolNames_total h).bind fun imports _ => ?_
  refine (binarySymbolNames_total h).bind fun exports _ => ?_
  refine (binaryDependencies_total kind bytes).bind fun dependencies _ => ?_
  refine (binaryHardening_total kind bytes).bind fun hardening _ => ?_
  refine (goBuildinfoModules_total bytes).bind fun goBuildinfo _ => ?_
  exact (binaryBuildId_total h).bind fun buildId _ => .done _

/-- The layout comes first, and it goes through the section headers. -/
theorem scanHeaders_traps {kind : BinaryKind} {bytes : Window buffer} (helf : kind.format = .elf)
    (hbits : kind.bits = 64) (h : NameTableOverflows kind.endian bytes) :
    Parse.Traps buffer (scanHeaders kind bytes) := by
  have hlayout : Parse.Traps buffer (elfLayout kind bytes) := by
    refine .bind (elfEntrypoint_total kind bytes) fun entrypoint _ => ?_
    refine .bind (readAs_total (by split <;> decide)) fun programHeaderCount _ => ?_
    refine .bind (readAs_total (by split <;> decide)) fun sectionCount _ => ?_
    exact .of_bind (.of_bind (elfSectionHeaders_traps hbits h) _) _
  refine .of_bind ?_ _
  rwa [binaryLayout, helf]

/-! ## The scan of a file is total exactly without the overflow -/

/-- A 64-bit ELF whose header puts the header of the section names too close
to the end of the address space. -/
def SectionNamesOverflow (data : Slice) : Prop :=
  elfMagic.isPrefixOf data.bytes ∧ data.bytes.getD 4 0 = 2
    ∧ NameTableOverflows (elfEndian (data.bytes.getD 5 0)) (Window.whole data)

theorem elfBits_eq_64 {code : UInt8} (h : elfBits code = 64) : code = 2 := by
  unfold elfBits at h
  split at h
  · cases h
  split at h
  · assumption
  · cases h

theorem scanWindow_total (firmwareExtension : Bool) {data : Slice}
    (h : ¬ SectionNamesOverflow data) :
    Parse.Total data (fun _ => True) (scanWindow firmwareExtension (Window.whole data)) := by
  refine (identify_total firmwareExtension (Window.whole data)).bind ?_
  rintro (kind | reason | _) hkind
  · refine (scanHeaders_total ?_).bind fun _ _ => .done _
    intro helf hbits hoverflow
    obtain ⟨hmagic, -, hkindBits, hendian⟩ := hkind kind rfl helf
    rw [Window.whole_bytes] at hmagic hkindBits hendian
    rw [hendian] at hoverflow
    exact h ⟨hmagic, elfBits_eq_64 (hkindBits.symm.trans hbits), hoverflow⟩
  · exact .done _
  · exact .done _

theorem scanWindow_traps (firmwareExtension : Bool) {data : Slice}
    (h : SectionNamesOverflow data) :
    Parse.Traps data (scanWindow firmwareExtension (Window.whole data)) := by
  obtain ⟨hmagic, hbits, hoverflow⟩ := h
  have hlong : 20 ≤ (Window.whole data).length := by
    obtain ⟨_, _, _, index, _, _, _, hindex, -⟩ := hoverflow
    have hle := le_of_wordAt hindex
    omega
  have helf : elfMagic.isPrefixOf (Window.whole data).bytes := by rwa [Window.whole_bytes]
  have hidentify : Parse.Total data (fun out => (∀ kind, out = .binary kind →
      ElfKind (Window.whole data) kind) ∧ (20 ≤ (Window.whole data).length →
        ∃ kind, out = .binary kind)) (identify firmwareExtension (Window.whole data)) := by
    unfold identify
    rw [if_pos helf]
    exact identifyElf_total helf
  refine .bind hidentify fun out hout => ?_
  obtain ⟨kind, rfl⟩ := hout.2 hlong
  obtain ⟨-, hformat, hkindBits, hendian⟩ := hout.1 kind rfl
  rw [Window.whole_bytes] at hkindBits hendian
  refine .of_bind (scanHeaders_traps hformat ?_ ?_) _
  · rw [hkindBits, hbits]
    rfl
  · rwa [hendian]

theorem scanBuffer_iff (firmwareExtension : Bool) (data : Slice) :
    (∃ scanned, scanBuffer firmwareExtension data = .ok scanned
      ∧ ∀ reading ∈ scanned.readings, reading.Exact) ↔ ¬ SectionNamesOverflow data := by
  refine ⟨fun ⟨scanned, hscan, _⟩ hoverflow => ?_, fun h => ?_⟩
  · obtain ⟨trap, htrap⟩ := (scanWindow_traps firmwareExtension hoverflow).run
    rw [scanBuffer, htrap] at hscan
    cases hscan
  · obtain ⟨items, events, hrun, -, hclean⟩ := (scanWindow_total firmwareExtension h).run
    refine ⟨⟨items, [⟨data, events⟩]⟩, ?_, ?_⟩
    · rw [scanBuffer, hrun]
      rfl
    · intro reading hreading
      rw [List.mem_singleton.mp hreading]
      exact hclean

/-- The members are all scanned exactly when none of those that are read overflows its
section names. -/
theorem scanMembers_iff (maxBytes : Option Nat) (firmwareExtension : Bool)
    (members : List ArchiveMember) :
    (∃ scanned, scanMembers maxBytes firmwareExtension members = .ok scanned
      ∧ ∀ reading ∈ scanned.readings, reading.Exact)
      ↔ ∀ member ∈ members, sizeExceeds maxBytes member.data.length = false →
          ¬ SectionNamesOverflow member.data := by
  induction members with
  | nil => exact ⟨fun _ => nofun, fun _ => ⟨⟨[], []⟩, rfl, nofun⟩⟩
  | cons member members ih =>
      rw [List.forall_mem_cons, ← ih]
      have hfirst : (∃ scanned, scanMember maxBytes firmwareExtension member = .ok scanned
          ∧ ∀ reading ∈ scanned.readings, reading.Exact)
          ↔ (sizeExceeds maxBytes member.data.length = false →
            ¬ SectionNamesOverflow member.data) := by
        unfold scanMember
        cases sizeExceeds maxBytes member.data.length with
        | true => exact ⟨fun _ => nofun, fun _ => ⟨⟨[.sizeLimit], []⟩, rfl, nofun⟩⟩
        | false => simpa using scanBuffer_iff firmwareExtension member.data
      rw [← hfirst, scanMembers]
      refine ⟨fun ⟨scanned, hscan, hexact⟩ => ?_,
        fun ⟨⟨first, hone, hone'⟩, rest, hall, hall'⟩ => ?_⟩
      · obtain ⟨first, hone, hscan⟩ := bind_eq_ok.mp hscan
        obtain ⟨rest, hall, hscan⟩ := bind_eq_ok.mp hscan
        cases hscan
        exact ⟨⟨first, hone, fun reading h => hexact reading (List.mem_append_left _ h)⟩,
          rest, hall, fun reading h => hexact reading (List.mem_append_right _ h)⟩
      · rw [hone, hall]
        refine ⟨_, rfl, fun reading h => ?_⟩
        exact (List.mem_append.mp h).elim (hone' reading) (hall' reading)

/-- The members that `parse_ar_archive` finds. -/
def archiveMembers (data : Slice) : List ArchiveMember :=
  match Parse.run (parseArArchive (Window.whole data)) with
  | .ok (.ok members, _) => members
  | _ => []

/-- The buffers that are parsed as executables: the file itself, or of an
archive the members that are not too long. -/
def scannedBuffers (maxBytes : Option Nat) (data : Slice) : List Slice :=
  if isArArchive (Window.whole data) then
    ((archiveMembers data).filter fun member => !sizeExceeds maxBytes member.data.length).map
      ArchiveMember.data
  else [data]

/-- A header of an ELF with one section, and nothing behind it: the offset of
the section headers is 16 below the end of the address space. -/
def overflowingHeader : Slice where
  bytes := elfMagic ++ [2, 1] ++ List.replicate 34 0 ++ 0xf0 :: List.replicate 7 0xff
    ++ List.replicate 10 0 ++ [64, 0, 1, 0, 0, 0]
  fits := by decide

end GovFuzz.BinaryAnalysis
