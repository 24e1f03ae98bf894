import GovFuzz.BinaryAnalysis.Readers

/-!
# Binary analysis — Mach-O

The parsers of `crates/binary_analysis/src/lib.rs` for Mach-O.  All of them
are one walk along the load commands, with something of their own done at a
command: `machoLoadCommands`.  The walk adds the size of a command to the
offset only after the command was cut out of the buffer, so the offset never
gets past the end by more than the header.
-/

namespace GovFuzz.BinaryAnalysis

open GovFuzz.Lib

variable {buffer : Slice} {α : Type}

/-! ## The walk -/

/-- The command at an offset, and its bytes; `none` where the walk ends. -/
def machoLoadCommand (kind : BinaryKind) (bytes : Window buffer) (offset : Nat) :
    Parse (Option (UInt32 × Window buffer)) := do
  let some command ← readU32 bytes offset kind.endian | return none
  let some commandSize ← readU32 bytes (← Parse.add offset 4) kind.endian | return none
  let some commandBytes ← Parse.checked (checkedSlice bytes offset commandSize.toNat)
    | return none
  if commandSize.toNat < 8 then return none else return some (command, commandBytes)

/-- One step of the walk; the loop carries the offset and what `visit` makes. -/
def machoStep (kind : BinaryKind) (bytes : Window buffer)
    (visit : UInt32 → Nat → Window buffer → α → Parse (ForInStep α)) (state : Nat × α) :
    Parse (ForInStep (Nat × α)) := do
  let some (command, commandBytes) ← machoLoadCommand kind bytes state.1 | return .done state
  match ← visit command state.1 commandBytes state.2 with
  | .done out => return .done (state.1, out)
  | .yield out => return .yield (← Parse.add state.1 commandBytes.length, out)

def machoLoadCommands (kind : BinaryKind) (bytes : Window buffer)
    (visit : UInt32 → Nat → Window buffer → α → Parse (ForInStep α)) (start : α) : Parse α := do
  let some loadCommandCount ← readU32 bytes 16 kind.endian | return start
  let commandStart := if kind.bits = 64 then 32 else 28
  let (_, out) ← Op.forEach (fun _ => machoStep kind bytes visit)
    (List.range (min loadCommandCount.toNat 128)) (commandStart, start)
  return out

/-! ## What is done at a command -/

def machoSegment (kind : BinaryKind) (bytes : Window buffer) (command : UInt32) (offset : Nat)
    (commandBytes : Window buffer) (sections : List BinarySection) :
    Parse (ForInStep (List BinarySection)) := do
  if command = 0x19 ∧ 72 ≤ commandBytes.length then
    let raw := bytes.get? (← Parse.add offset 8) (← Parse.add offset 24)
    let name ← fixedName (raw.getD .empty)
    if name = [] then return .yield sections
    else
      let virtualAddress ← readU64 bytes (← Parse.add offset 24) kind.endian
      let fileOffset ← readU64 bytes (← Parse.add offset 40) kind.endian
      let size ← readU64 bytes (← Parse.add offset 48) kind.endian
      return .yield (sections ++ [⟨name, .segment, virtualAddress, fileOffset, size, []⟩])
  else if command = 0x1 ∧ 56 ≤ commandBytes.length then
    let raw := bytes.get? (← Parse.add offset 8) (← Parse.add offset 24)
    let name ← fixedName (raw.getD .empty)
    if name = [] then return .yield sections
    else
      let virtualAddress ← readU32 bytes (← Parse.add offset 24) kind.endian
      let fileOffset ← readU32 bytes (← Parse.add offset 32) kind.endian
      let size ← readU32 bytes (← Parse.add offset 36) kind.endian
      return .yield (sections ++
        [⟨name, .segment, virtualAddress.map UInt32.toUInt64, fileOffset.map UInt32.toUInt64,
          size.map UInt32.toUInt64, []⟩])
  else return .yield sections

def machoSections (kind : BinaryKind) (bytes : Window buffer) : Parse (List BinarySection) :=
  machoLoadCommands kind bytes (machoSegment kind bytes) []

def machoLayout (kind : BinaryKind) (bytes : Window buffer) : Parse BinaryLayout := do
  let loadCommandCount ← readU32 bytes 16 kind.endian
  let loadCommandBytes ← readU32 bytes 20 kind.endian
  let sections ← machoSections kind bytes
  return ⟨none, none, none, none, loadCommandCount, loadCommandBytes, sections⟩

def machoSymbol (kind : BinaryKind) (symbols stringTable : Window buffer)
    (symbolEntrySize index : Nat) (names : BinarySymbolNames) :
    Parse (ForInStep BinarySymbolNames) := do
  let some offset ← Parse.checked (tableEntryOffset 0 index symbolEntrySize)
    | return .done names
  let some entry ← Parse.checked (checkedSlice symbols offset symbolEntrySize)
    | return .done names
  let nameOffset ← fieldU32 entry 0 kind.endian
  if nameOffset.toNat = 0 then return .yield names
  else
    let name ← stringTableName stringTable nameOffset.toNat
    if !isBinarySymbolName name then return .yield names
    else
      let symbolType ← fieldU8 entry 4
      let typeKind := symbolType &&& 0x0e
      if typeKind = 0 then return .yield { names with imports := names.imports ++ [name] }
      else if typeKind = 0x0e ∧ symbolType &&& 0x01 ≠ 0 then
        return .yield { names with exports := names.exports ++ [name] }
      else return .yield names

def collectMachoSymtabNames (kind : BinaryKind) (bytes : Window buffer)
    (symbolOffset symbolCount symbolEntrySize stringOffset stringSize : Nat)
    (names : BinarySymbolNames) : Parse BinarySymbolNames := do
  let some symbolSize ← Parse.checked (checkedMul symbolCount symbolEntrySize) | return names
  let some symbols ← Parse.checked (checkedSlice bytes symbolOffset symbolSize) | return names
  let some stringTable ← Parse.checked (checkedSlice bytes stringOffset stringSize)
    | return names
  Op.forEach (machoSymbol kind symbols stringTable symbolEntrySize)
    (List.range (min symbolCount 4096)) names

def machoSymtab (kind : BinaryKind) (bytes : Window buffer) (command : UInt32) (_ : Nat)
    (commandBytes : Window buffer) (names : BinarySymbolNames) :
    Parse (ForInStep BinarySymbolNames) := do
  if command = 0x2 ∧ 24 ≤ commandBytes.length then
    let symbolOffset ← fieldU32 commandBytes 8 kind.endian
    let symbolCount ← fieldU32 commandBytes 12 kind.endian
    let stringOffset ← fieldU32 commandBytes 16 kind.endian
    let stringSize ← fieldU32 commandBytes 20 kind.endian
    let symbolEntrySize := if kind.bits = 64 then 16 else 12
    let names ← collectMachoSymtabNames kind bytes symbolOffset.toNat symbolCount.toNat
      symbolEntrySize stringOffset.toNat stringSize.toNat names
    return .yield names
  else return .yield names

def machoSymbolNames (kind : BinaryKind) (bytes : Window buffer) : Parse BinarySymbolNames := do
  let names ← machoLoadCommands kind bytes (machoSymtab kind bytes) ⟨[], []⟩
  return names.sorted

def isMachoDylibCommand (command : UInt32) : Bool :=
  command ∈ [0x0c, 0x18, 0x80000018, 0x8000001f, 0x20, 0x80000023]

def machoDylib (kind : BinaryKind) (command : UInt32) (_ : Nat) (commandBytes : Window buffer)
    (libraries : List (List Char)) : Parse (ForInStep (List (List Char))) := do
  if isMachoDylibCommand command ∧ 24 ≤ commandBytes.length then
    let nameOffset ← fieldU32 commandBytes 8 kind.endian
    if nameOffset.toNat < commandBytes.length then
      let name ← fixedName (← Parse.slice commandBytes nameOffset.toNat commandBytes.length)
      return .yield (if name = [] then libraries else libraries ++ [name])
    else return .yield libraries
  else return .yield libraries

def machoDylibLibraries (kind : BinaryKind) (bytes : Window buffer) :
    Parse (List (List Char)) :=
  machoLoadCommands kind bytes (machoDylib kind) []

def machoHasLoadCommand (kind : BinaryKind) (bytes : Window buffer) (targetCmd : UInt32) :
    Parse Bool :=
  machoLoadCommands kind bytes (fun command _ _ found =>
    return if command = targetCmd then .done true else .yield found) false

/-- The flags are at offset 24 of the headers of both widths. -/
def machoHeaderFlags (kind : BinaryKind) (bytes : Window buffer) : Parse (Option UInt32) := do
  if kind.format ≠ .machO then return none else readU32 bytes 24 kind.endian

/-! ## The walk stays in the buffer -/

/-- What is known of the command that is visited. -/
def Visited (bytes : Window buffer) (offset : Nat) (commandBytes : Window buffer) : Prop :=
  offset + commandBytes.length ≤ bytes.length

theorem machoLoadCommand_total (kind : BinaryKind) {bytes : Window buffer} {offset : Nat}
    (h : offset ≤ bytes.length + 32) :
    Parse.Total buffer (fun out => ∀ found, out = some found → Visited bytes offset found.2)
      (machoLoadCommand kind bytes offset) := by
  have hlen := bytes.length_le
  have hlimit : isizeMax + 40 < usizeSize := by decide
  refine (readAs_total (by omega)).bindSome (.pure nofun) fun command _ => ?_
  refine .addBind (by omega) ?_
  refine (readAs_total (by omega)).bindSome (.pure nofun) fun commandSize _ => ?_
  refine (Parse.Total.checked _).bindSome (.pure nofun) fun commandBytes hbytes => ?_
  obtain ⟨hle, -, hlength⟩ := checkedSlice_eq_some hbytes
  refine .ite (fun _ => .pure nofun) fun _ => .pure ?_
  rintro found hfound
  cases hfound
  show offset + commandBytes.length ≤ bytes.length
  omega

theorem machoLoadCommands_total (kind : BinaryKind) {bytes : Window buffer}
    {visit : UInt32 → Nat → Window buffer → α → Parse (ForInStep α)}
    (h : ∀ command offset commandBytes acc, Visited bytes offset commandBytes →
      Parse.Total buffer (fun _ => True) (visit command offset commandBytes acc)) (start : α) :
    Parse.Total buffer (fun _ => True) (machoLoadCommands kind bytes visit start) := by
  have hlen := bytes.length_lt
  refine (readAs_total (by decide)).bindSome (.done _) fun loadCommandCount _ => ?_
  -- the offset is that of the first command, or an end of one
  refine (Parse.Total.forEach (P := fun state => state.1 ≤ bytes.length + 32)
    (fun _ _ state hstate => ?_) (by dsimp only; split <;> omega)).bind fun _ _ => .done _
  refine (machoLoadCommand_total kind hstate).bindSome (.pure hstate)
    fun (command, commandBytes) hvisited => ?_
  have hinside : state.1 + commandBytes.length ≤ bytes.length := hvisited _ rfl
  refine (h command state.1 commandBytes state.2 hinside).bind ?_
  rintro (out | out) -
  · exact .pure hstate
  · refine .addBind (by omega) (.pure ?_)
    show state.1 + commandBytes.length ≤ bytes.length + 32
    omega

theorem machoSegment_total (kind : BinaryKind) {bytes : Window buffer} (command : UInt32)
    {offset : Nat} {commandBytes : Window buffer} (sections : List BinarySection)
    (h : Visited bytes offset commandBytes) :
    Parse.Total buffer (fun _ => True)
      (machoSegment kind bytes command offset commandBytes sections) := by
  have hinside : offset + commandBytes.length ≤ bytes.length := h
  have hlen := bytes.length_lt
  refine .ite (fun hcommand => ?_) fun _ => .ite (fun hcommand => ?_) fun _ => .done _
  · refine .addBind (by omega) (.addBind (by omega) ?_)
    refine (fixedName_total _).bind fun name _ => ?_
    refine .ite (fun _ => .done _) fun _ => ?_
    iterate 3 refine .addBind (by omega) ((readAs_total (by omega)).bind fun _ _ => ?_)
    exact .done _
  · refine .addBind (by omega) (.addBind (by omega) ?_)
    refine (fixedName_total _).bind fun name _ => ?_
    refine .ite (fun _ => .done _) fun _ => ?_
    iterate 3 refine .addBind (by omega) ((readAs_total (by omega)).bind fun _ _ => ?_)
    exact .done _

theorem machoLayout_total (kind : BinaryKind) (bytes : Window buffer) :
    Parse.Total buffer (fun _ => True) (machoLayout kind bytes) := by
  have hsections : Parse.Total buffer (fun _ => True) (machoSections kind bytes) :=
    machoLoadCommands_total kind (fun command _ _ => machoSegment_total kind command) []
  refine (readAs_total (by decide)).bind fun loadCommandCount _ => ?_
  refine (readAs_total (by decide)).bind fun loadCommandBytes _ => ?_
  exact hsections.bind fun _ _ => .done _

theorem machoSymbol_total (kind : BinaryKind) (symbols stringTable : Window buffer)
    {symbolEntrySize : Nat} (hsize : 12 ≤ symbolEntrySize) (index : Nat)
    (names : BinarySymbolNames) :
    Parse.Total buffer (fun _ => True)
      (machoSymbol kind symbols stringTable symbolEntrySize index names) := by
  refine (Parse.Total.checked _).bindSome (.done _) fun offset _ => ?_
  refine (Parse.Total.checked _).bindSome (.done _) fun entry hentry => ?_
  obtain ⟨-, -, hlength⟩ := checkedSlice_eq_some hentry
  refine (field_total (by omega)).bind fun nameOffset _ => ?_
  refine .ite (fun _ => .done _) fun _ => ?_
  refine (stringTableName_total stringTable nameOffset.toNat).bind fun name _ => ?_
  refine .ite (fun _ => .done _) fun _ => ?_
  refine (fieldU8_total (by omega)).bind fun symbolType _ => ?_
  refine .ite (fun _ => .done _) fun _ => ?_
  exact .ite (fun _ => .done _) fun _ => .done _

theorem machoSymbolNames_total (kind : BinaryKind) (bytes : Window buffer) :
    Parse.Total buffer (fun _ => True) (machoSymbolNames kind bytes) := by
  refine (machoLoadCommands_total kind (fun command offset commandBytes names _ => ?_) _).bind
    fun _ _ => .done _
  refine .ite (fun hcommand => ?_) fun _ => .done _
  refine (field_total (by omega)).bind fun symbolOffset _ => ?_
  refine (field_total (by omega)).bind fun symbolCount _ => ?_
  refine (field_total (by omega)).bind fun stringOffset _ => ?_
  refine (field_total (by omega)).bind fun stringSize _ => ?_
  have hcollect : Parse.Total buffer (fun _ => True) (collectMachoSymtabNames kind bytes
      symbolOffset.toNat symbolCount.toNat (if kind.bits = 64 then 16 else 12)
      stringOffset.toNat stringSize.toNat names) := by
    refine (Parse.Total.checked _).bindSome (.done _) fun symbolSize _ => ?_
    refine (Parse.Total.checked _).bindSome (.done _) fun symbols _ => ?_
    refine (Parse.Total.checked _).bindSome (.done _) fun stringTable _ => ?_
    refine .forAll (fun index _ names => ?_) _
    exact machoSymbol_total kind symbols stringTable (by split <;> decide) index names
  exact hcollect.bind fun _ _ => .done _

theorem machoDylibLibraries_total (kind : BinaryKind) (bytes : Window buffer) :
    Parse.Total buffer (fun _ => True) (machoDylibLibraries kind bytes) := by
  refine machoLoadCommands_total kind (fun command offset commandBytes libraries _ => ?_) _
  refine .ite (fun hcommand => ?_) fun _ => .done _
  refine (field_total (by omega)).bind fun nameOffset _ => ?_
  refine .ite (fun hname => ?_) fun _ => .done _
  refine (Parse.Total.slice (by omega) (Nat.le_refl _)).bind fun raw _ => ?_
  exact (fixedName_total raw).bind fun _ _ => .done _

theorem machoHasLoadCommand_total (kind : BinaryKind) (bytes : Window buffer)
    (targetCmd : UInt32) :
    Parse.Total buffer (fun _ => True) (machoHasLoadCommand kind bytes targetCmd) :=
  machoLoadCommands_total kind (fun _ _ _ _ _ => .done _) false

theorem machoHeaderFlags_total (kind : BinaryKind) (bytes : Window buffer) :
    Parse.Total buffer (fun _ => True) (machoHeaderFlags kind bytes) :=
  .ite (fun _ => .done _) fun _ => (readAs_total (by decide)).mono fun _ _ => trivial

end GovFuzz.BinaryAnalysis
