import GovFuzz.Runtrace.LogLines
import GovFuzz.Runtrace.ParseLine

/-!
# Runtrace — the lines of the sinks

The lines that the hooks of `govfuzz_runtrace_shim` write for calls that may
carry bytes of the fuzz input, and what `parse_line` makes of them.  A hook
marks a subject that comes from the input by `u` and puts the place in the
input into `o`; a failed probe of a path is marked in the same way, but its
mark is not read.
-/

namespace GovFuzz.Runtrace

open GovFuzz.Lib

/-! ## Events of the hooks -/

/-- The key of the call's name. -/
def keyA : Key := ⟨toUtf8 "a", by decide⟩

/-- The key of a command. -/
def keyC : Key := ⟨toUtf8 "c", by decide⟩

/-- The key of a descriptor or a destination. -/
def keyD : Key := ⟨toUtf8 "d", by decide⟩

def keyL : Key := ⟨toUtf8 "l", by decide⟩

/-- The key of a name. -/
def keyN : Key := ⟨toUtf8 "n", by decide⟩

/-- The key of a taint's offset. -/
def keyO : Key := ⟨toUtf8 "o", by decide⟩

/-- The key of a path. -/
def keyP : Key := ⟨toUtf8 "p", by decide⟩

def keyQ : Key := ⟨toUtf8 "q", by decide⟩

/-- The key of a result. -/
def keyR : Key := ⟨toUtf8 "r", by decide⟩

/-- The key of the taint flag. -/
def keyU : Key := ⟨toUtf8 "u", by decide⟩

/-- A place in the fuzz input, as the hooks can write it. -/
structure Offset where
  value : Nat
  fits : value < 2 ^ 63

/-- `append_path_taint` and its siblings. -/
def taintFields : Option Offset → List Field
  | none => []
  | some offset => [⟨keyU, .i64 1⟩, ⟨keyO, .i64 (Int64.ofNat offset.value)⟩]

/-- The calls that open a path. -/
inductive OpenApi where
  | open
  | openat
  deriving DecidableEq, Repr

/-- The name a call is logged under. -/
def OpenApi.name : OpenApi → String
  | .open => "open"
  | .openat => "openat"

/-- The calls that look at a path. -/
inductive ProbeApi where
  | stat
  | access
  | faccessat
  | readlink
  | readlinkat
  deriving DecidableEq, Repr

/-- The name a call is logged under. -/
def ProbeApi.name : ProbeApi → String
  | .stat => "stat"
  | .access => "access"
  | .faccessat => "faccessat"
  | .readlink => "readlink"
  | .readlinkat => "readlinkat"

/-- The calls that hand a command to the shell. -/
inductive CommandApi where
  | system
  | popen
  deriving DecidableEq, Repr

/-- The name a call is logged under. -/
def CommandApi.name : CommandApi → String
  | .system => "system"
  | .popen => "popen"

/-- Calls that log their API beside the subject. -/
inductive CallKind where
  | exec
  | netEgress
  | libLoad
  | sql
  | fsDestroy
  deriving DecidableEq, Repr

/-- The name a call is logged under. -/
def CallKind.name : CallKind → String
  | .exec => "exec"
  | .netEgress => "net_egress"
  | .libLoad => "lib_load"
  | .sql => "sql"
  | .fsDestroy => "fs_destroy"

/-- The key of the call's subject. -/
def CallKind.key : CallKind → Key
  | .exec => keyP
  | .netEgress => keyD
  | .libLoad => keyL
  | .sql => keyQ
  | .fsDestroy => keyP

/-- The event of a path that could not be opened. -/
def logPathMiss (name : String) (path : List UInt8) (result errno : Int64)
    (taint : Option Offset) : Event :=
  ⟨toUtf8 name,
    ⟨keyP, .str path⟩ :: ⟨keyR, .i64 result⟩ :: ⟨keyN, .i64 errno⟩ :: taintFields taint⟩

/-- The event of an opened path. -/
def logPathOpen (name : String) (path : List UInt8) (fd : Int64) (taint : Option Offset) : Event :=
  ⟨toUtf8 name, ⟨keyP, .str path⟩ :: ⟨keyD, .i64 fd⟩ :: ⟨keyR, .i64 fd⟩ :: taintFields taint⟩

/-- The event of a command. -/
def logCommand (name : String) (command : List UInt8) (taint : Option Offset) : Event :=
  ⟨toUtf8 name, ⟨keyC, .str command⟩ :: taintFields taint⟩

/-- `log_exec`, `emit_fs_destroy` and the hooks of the network, the loader and
the databases. -/
def logCall (kind : CallKind) (api subject : List UInt8) (taint : Option Offset) : Event :=
  ⟨toUtf8 kind.name, ⟨keyA, .str api⟩ :: ⟨kind.key, .str subject⟩ :: taintFields taint⟩

/-- The kinds of lines that are about a sink or a failed probe. -/
def sinkKinds : List String :=
  ["open", "openat", "stat", "access", "faccessat", "readlink", "readlinkat", "system", "popen",
    "exec", "net_egress", "lib_load", "sql", "fs_destroy"]

/-- The kind a text gives itself, if it is an object that has one. -/
def kindOf (text : List Char) : Option String :=
  ((Json.fromSlice (toUtf8 (String.ofList text))).bind Json.asObject).bind fun obj =>
    strField obj "e"

/-- The lines the shim writes for its sinks. -/
inductive LogLine where
  | opened (api : OpenApi) (path : List UInt8) (fd : Int64) (taint : Option Offset)
  | missing (api : OpenApi) (path : List UInt8) (result errno : Int64) (taint : Option Offset)
  | probe (api : ProbeApi) (path : List UInt8) (result errno : Int64) (taint : Option Offset)
  | command (api : CommandApi) (text : List UInt8) (taint : Option Offset)
  | call (kind : CallKind) (api subject : List UInt8) (taint : Option Offset)
  /-- A line about anything else, or one that is cut off. -/
  | other (text : List Char) (hother : ∀ kind, kindOf text = some kind → kind ∉ sinkKinds)

/-- The line as the engine reads it. -/
def LogLine.text : LogLine → List Char
  | opened api path fd taint => (latin1 (logPathOpen api.name path fd taint).object).toList
  | missing api path result errno taint =>
      (latin1 (logPathMiss api.name path result errno taint).object).toList
  | probe api path result errno taint =>
      (latin1 (logPathMiss api.name path result errno taint).object).toList
  | command api text taint => (latin1 (logCommand api.name text taint).object).toList
  | call kind api subject taint => (latin1 (logCall kind api subject taint).object).toList
  | other text _ => text

/-! ## Reading them -/

theorem object_ascii (e : Event) : ∀ b ∈ e.object, b < 128 := by
  intro b hb
  rcases List.mem_cons.mp hb with rfl | hb
  · decide
  · rcases List.mem_append.mp hb with hb | hb
    · rcases mem_fieldsText hb with ⟨f, -, hc⟩ | hc
      · exact (f.key.plain b hc).1
      · exact hc.2
    · rw [List.mem_singleton.mp hb]
      decide

/-- A line of the builder is read as its fields. -/
theorem parseLine_object {e : Event} (hclean : e.Clean) :
    parseLine (latin1 e.object).toList = parseObject e.toJson := by
  have hutf8 : toUtf8 (latin1 e.object) = e.object :=
    fromUtf8_eq_some.mp ((fromUtf8_eq_latin1_iff e.object).mpr (object_ascii e))
  rw [parseLine, String.ofList_toList, hutf8, fromSlice_object hclean, Option.bind_some]

theorem asI64_decimal (value : Int64) :
    Json.asI64 (.number (decimal value)) = some value.toInt := by
  obtain ⟨mark, d, digits, heq, -, -, -, hvalue⟩ := decimal_eq value
  rw [heq]
  exact hvalue

/-- What the reader takes as the taint: an offset that fits into 32 bits. -/
def readTaint (taint : Option Offset) : Option Nat :=
  taint.bind fun offset => if offset.value < 2 ^ 32 then some offset.value else none

theorem toU32_natCast (n : Nat) : toU32 (n : Int) = if n < 2 ^ 32 then some n else none := by
  unfold toU32
  by_cases hn : n < 2 ^ 32
  · rw [if_pos hn, if_pos (by omega), Int.toNat_natCast]
  · rw [if_neg hn, if_neg (by omega)]

theorem clean_taintFields (taint : Option Offset) : ∀ f ∈ taintFields taint, f.key.Clean := by
  cases taint with
  | none =>
      intro f hf
      cases hf
  | some offset =>
      intro f hf
      rcases List.mem_cons.mp hf with rfl | hf
      · exact (by decide : keyU.Clean)
      · rw [List.mem_singleton.mp hf]
        exact (by decide : keyO.Clean)

theorem latin1_keys :
    latin1 eventKey.bytes = "e" ∧ latin1 keyA.bytes = "a" ∧ latin1 keyC.bytes = "c"
      ∧ latin1 keyD.bytes = "d" ∧ latin1 keyL.bytes = "l" ∧ latin1 keyN.bytes = "n"
      ∧ latin1 keyO.bytes = "o" ∧ latin1 keyP.bytes = "p" ∧ latin1 keyQ.bytes = "q"
      ∧ latin1 keyR.bytes = "r" ∧ latin1 keyU.bytes = "u" := by
  decide

theorem lookup_append (key : String) (front back : List (String × Json)) :
    Json.lookup key (front ++ back) = (Json.lookup key back).or (Json.lookup key front) := by
  induction front with
  | nil => simp [Json.lookup]
  | cons entry front ih => rw [List.cons_append, Json.lookup, ih, Option.or_assoc, Json.lookup]

/-- The taint as members of an object. -/
def taintEntries (taint : Option Offset) : List (String × Json) :=
  (taintFields taint).map Field.entry

theorem lookup_taintEntries {key : String} (hu : key ≠ "u") (ho : key ≠ "o")
    (taint : Option Offset) : Json.lookup key (taintEntries taint) = none := by
  cases taint with
  | none => rfl
  | some offset =>
      simp [taintEntries, taintFields, Field.entry, latin1_keys, Json.lookup, Ne.symm hu,
        Ne.symm ho]

/-- The taint is read from the marks behind the other fields. -/
theorem parseTaintOffset_append {front : List (String × Json)} (hu : Json.lookup "u" front = none)
    (taint : Option Offset) :
    parseTaintOffset (front ++ taintEntries taint) = readTaint taint := by
  cases taint with
  | none =>
      have hnone : front ++ taintEntries none = front := List.append_nil front
      rw [hnone]
      simp [parseTaintOffset, flagField, hu, readTaint]
  | some offset =>
      have hone : Json.asI64 (.number (decimal 1)) = some 1 := asI64_decimal 1
      have hoffset := asI64_decimal (Int64.ofNat offset.value)
      rw [Int64.toInt_ofNat_of_lt offset.fits] at hoffset
      have hflag : Json.lookup "u" (taintEntries (some offset)) = some (.number (decimal 1)) := by
        simp [taintEntries, taintFields, Field.entry, latin1_keys, Json.lookup, FieldValue.toJson]
      have hplace : Json.lookup "o" (taintEntries (some offset))
          = some (.number (decimal (Int64.ofNat offset.value))) := by
        simp [taintEntries, taintFields, Field.entry, latin1_keys, Json.lookup, FieldValue.toJson]
      have hcontrolled : flagField (front ++ taintEntries (some offset)) "u" = true := by
        simp [flagField, lookup_append, hflag, hone, Json.asBool]
      have hread :
          i64Field (front ++ taintEntries (some offset)) "o" = some (offset.value : Int) := by
        simp [i64Field, lookup_append, hplace, hoffset]
      rw [parseTaintOffset, hcontrolled, hread, if_neg (by decide), Option.bind_some,
        toU32_natCast, readTaint, Option.bind_some]

theorem strField_append {key : String} (hu : key ≠ "u") (ho : key ≠ "o")
    (front : List (String × Json)) (taint : Option Offset) :
    strField (front ++ taintEntries taint) key = strField front key := by
  rw [strField, lookup_append, lookup_taintEntries hu ho, Option.none_or, strField]

theorem i64Field_append {key : String} (hu : key ≠ "u") (ho : key ≠ "o")
    (front : List (String × Json)) (taint : Option Offset) :
    i64Field (front ++ taintEntries taint) key = i64Field front key := by
  rw [i64Field, lookup_append, lookup_taintEntries hu ho, Option.none_or, i64Field]

theorem latin1_toUtf8 {name : String} (h : ∀ b ∈ toUtf8 name, b < 128) :
    latin1 (toUtf8 name) = name := by
  have hlatin1 := (fromUtf8_eq_latin1_iff (toUtf8 name)).mpr h
  rw [fromUtf8_toUtf8] at hlatin1
  exact (Option.some.inj hlatin1).symm

/-- The members of a line, less its taint. -/
def members (name : String) (fields : List Field) : List (String × Json) :=
  ("e", .string name) :: fields.map Field.entry

/-- A line with a taint goes to its kind. -/
theorem parseLine_tainted {name : String} (fields : List Field) (taint : Option Offset)
    (hname : ∀ b ∈ toUtf8 name, b < 128) (hclean : ∀ key ∈ fields.map Field.key, key.Clean)
    (hkind : Json.lookup "e" (fields.map Field.entry) = none) :
    parseLine (latin1 (Event.object ⟨toUtf8 name, fields ++ taintFields taint⟩)).toList
      = parseKind (members name fields ++ taintEntries taint) name := by
  have hall : Event.Clean ⟨toUtf8 name, fields ++ taintFields taint⟩ := by
    intro f hf
    rcases List.mem_append.mp hf with hf | hf
    · exact hclean f.key (List.mem_map_of_mem hf)
    · exact clean_taintFields taint f hf
  have hjson : Event.toJson ⟨toUtf8 name, fields ++ taintFields taint⟩
      = .object (members name fields ++ taintEntries taint) := by
    simp [Event.toJson, Event.allFields, Field.entry, latin1_keys, FieldValue.toJson,
      latin1_toUtf8 hname, taintEntries, members]
  have hself : strField (members name fields ++ taintEntries taint) "e" = some name := by
    rw [strField_append (by decide) (by decide)]
    simp [strField, members, Json.lookup, hkind, Json.asStr]
  rw [parseLine_object hall, hjson, parseObject, Json.asObject]
  show (strField _ "e").bind (parseKind _) = _
  rw [hself, Option.bind_some]

theorem OpenApi.parseKind_name (api : OpenApi) (obj : List (String × Json)) :
    parseKind obj api.name = parseOpen obj api.name := by
  cases api <;> rfl

theorem ProbeApi.parseKind_name (api : ProbeApi) (obj : List (String × Json)) :
    parseKind obj api.name = parseProbe obj api.name := by
  cases api <;> rfl

theorem CommandApi.parseKind_name (api : CommandApi) (obj : List (String × Json)) :
    parseKind obj api.name = parseCommand obj api.name := by
  cases api <;> rfl

/-- What an open is read as: the descriptor decides whether it succeeded. -/
def openEventOf (api : OpenApi) (path : List UInt8) (result : Int) (taint : Option Offset) :
    RuntraceEvent :=
  if 0 ≤ result then .fileOpened api.name (asI32 result) (latin1 path) (readTaint taint)
  else .fileMissing api.name (latin1 path) (readTaint taint)

/-- The event the engine makes of a call. -/
def CallKind.event : CallKind → String → String → Option Nat → RuntraceEvent
  | exec => .processExec
  | netEgress => .networkEgress
  | libLoad => .libraryLoad
  | sql => .sqlQuery
  | fsDestroy => .destructiveFsOp

theorem parseOpen_eq {obj : List (String × Json)} {path : List UInt8} {result : Int}
    {taint : Option Offset} (hp : strField obj "p" = some (latin1 path))
    (hr : i64Field obj "r" = some result) (hd : (i64Field obj "d").getD result = result)
    (ht : parseTaintOffset obj = readTaint taint) (api : OpenApi) :
    parseOpen obj api.name = some (openEventOf api path result taint) := by
  simp only [parseOpen, hp, hr, ht, Option.getD_some, hd, openEventOf]
  show (if 0 ≤ result then some _ else some _) = _
  split <;> rfl

theorem parseLine_opened (api : OpenApi) (path : List UInt8) (fd : Int64)
    (taint : Option Offset) :
    parseLine (LogLine.opened api path fd taint).text
      = some (openEventOf api path fd.toInt taint) := by
  let fields : List Field := [⟨keyP, .str path⟩, ⟨keyD, .i64 fd⟩, ⟨keyR, .i64 fd⟩]
  have hname : ∀ b ∈ toUtf8 api.name, b < 128 := by cases api <;> decide
  have hclean : ∀ key ∈ [keyP, keyD, keyR], key.Clean := by decide
  have hline := parseLine_tainted fields taint hname hclean
    (by simp [fields, Json.lookup, Field.entry, latin1_keys])
  refine hline.trans ((api.parseKind_name _).trans (parseOpen_eq ?_ ?_ ?_ ?_ api))
  · rw [strField_append (by decide) (by decide)]
    simp [strField, fields, members, Json.lookup, Field.entry, latin1_keys, FieldValue.toJson,
      Json.asStr]
  · rw [i64Field_append (by decide) (by decide)]
    simp [i64Field, fields, members, Json.lookup, Field.entry, latin1_keys, FieldValue.toJson,
      asI64_decimal]
  · rw [i64Field_append (by decide) (by decide)]
    simp [i64Field, fields, members, Json.lookup, Field.entry, latin1_keys, FieldValue.toJson,
      asI64_decimal]
  · exact parseTaintOffset_append
      (by simp [fields, members, Json.lookup, Field.entry, latin1_keys]) taint

theorem parseLine_missing (api : OpenApi) (path : List UInt8) (result errno : Int64)
    (taint : Option Offset) :
    parseLine (LogLine.missing api path result errno taint).text
      = some (openEventOf api path result.toInt taint) := by
  let fields : List Field := [⟨keyP, .str path⟩, ⟨keyR, .i64 result⟩, ⟨keyN, .i64 errno⟩]
  have hname : ∀ b ∈ toUtf8 api.name, b < 128 := by cases api <;> decide
  have hclean : ∀ key ∈ [keyP, keyR, keyN], key.Clean := by decide
  have hline := parseLine_tainted fields taint hname hclean
    (by simp [fields, Json.lookup, Field.entry, latin1_keys])
  refine hline.trans ((api.parseKind_name _).trans (parseOpen_eq ?_ ?_ ?_ ?_ api))
  · rw [strField_append (by decide) (by decide)]
    simp [strField, fields, members, Json.lookup, Field.entry, latin1_keys, FieldValue.toJson,
      Json.asStr]
  · rw [i64Field_append (by decide) (by decide)]
    simp [i64Field, fields, members, Json.lookup, Field.entry, latin1_keys, FieldValue.toJson,
      asI64_decimal]
  · rw [i64Field_append (by decide) (by decide)]
    simp [i64Field, fields, members, Json.lookup, Field.entry, latin1_keys]
  · exact parseTaintOffset_append
      (by simp [fields, members, Json.lookup, Field.entry, latin1_keys]) taint

/-- A probe is read as a missing file without a taint. -/
theorem parseLine_probe (api : ProbeApi) (path : List UInt8) (result errno : Int64)
    (taint : Option Offset) :
    parseLine (LogLine.probe api path result errno taint).text
      = some (.fileMissing api.name (latin1 path) none) := by
  let fields : List Field := [⟨keyP, .str path⟩, ⟨keyR, .i64 result⟩, ⟨keyN, .i64 errno⟩]
  have hname : ∀ b ∈ toUtf8 api.name, b < 128 := by cases api <;> decide
  have hclean : ∀ key ∈ [keyP, keyR, keyN], key.Clean := by decide
  have hline := parseLine_tainted fields taint hname hclean
    (by simp [fields, Json.lookup, Field.entry, latin1_keys])
  have hp : strField (members api.name fields ++ taintEntries taint) "p" = some (latin1 path) := by
    rw [strField_append (by decide) (by decide)]
    simp [strField, fields, members, Json.lookup, Field.entry, latin1_keys, FieldValue.toJson,
      Json.asStr]
  refine hline.trans ((api.parseKind_name _).trans ?_)
  rw [parseProbe, hp]
  rfl

theorem parseLine_command (api : CommandApi) (command : List UInt8) (taint : Option Offset) :
    parseLine (LogLine.command api command taint).text
      = some (.commandExecuted api.name (latin1 command) (readTaint taint)) := by
  let fields : List Field := [⟨keyC, .str command⟩]
  have hname : ∀ b ∈ toUtf8 api.name, b < 128 := by cases api <;> decide
  have hclean : ∀ key ∈ [keyC], key.Clean := by decide
  have hline := parseLine_tainted fields taint hname hclean
    (by simp [fields, Json.lookup, Field.entry, latin1_keys])
  have hc : strField (members api.name fields ++ taintEntries taint) "c"
      = some (latin1 command) := by
    rw [strField_append (by decide) (by decide)]
    simp [strField, fields, members, Json.lookup, Field.entry, latin1_keys, FieldValue.toJson,
      Json.asStr]
  have hu : Json.lookup "u" (members api.name fields) = none := by
    simp [fields, members, Json.lookup, Field.entry, latin1_keys]
  refine hline.trans ((api.parseKind_name _).trans ?_)
  rw [parseCommand, hc, parseTaintOffset_append hu]
  rfl

theorem CallKind.parseKind_name (kind : CallKind) (obj : List (String × Json)) :
    parseKind obj kind.name = parseCall obj (latin1 kind.key.bytes) kind.event := by
  cases kind <;> rfl

/-- The line of a call is parsed to its event. -/
theorem parseLine_call (kind : CallKind) (api subject : List UInt8) (taint : Option Offset) :
    parseLine (LogLine.call kind api subject taint).text
      = some (kind.event (latin1 api) (latin1 subject) (readTaint taint)) := by
  let fields : List Field := [⟨keyA, .str api⟩, ⟨kind.key, .str subject⟩]
  have hname : ∀ b ∈ toUtf8 kind.name, b < 128 := by cases kind <;> decide
  have hclean : ∀ key ∈ [keyA, kind.key], key.Clean := by cases kind <;> decide
  -- the key of the subject is none of the others
  have hne : latin1 kind.key.bytes ≠ "e" ∧ latin1 kind.key.bytes ≠ "a"
      ∧ latin1 kind.key.bytes ≠ "u" ∧ latin1 kind.key.bytes ≠ "o" := by
    cases kind <;> decide
  obtain ⟨hne_e, hne_a, hne_u, hne_o⟩ := hne
  have hline := parseLine_tainted fields taint hname hclean
    (by simp [fields, Json.lookup, Field.entry, latin1_keys, hne_e])
  have ha : strField (members kind.name fields ++ taintEntries taint) "a"
      = some (latin1 api) := by
    rw [strField_append (by decide) (by decide)]
    simp [strField, fields, members, Json.lookup, Field.entry, latin1_keys, FieldValue.toJson,
      Json.asStr, hne_a]
  have hsubject : strField (members kind.name fields ++ taintEntries taint)
      (latin1 kind.key.bytes) = some (latin1 subject) := by
    rw [strField_append hne_u hne_o]
    simp [strField, fields, members, Json.lookup, Field.entry, FieldValue.toJson, Json.asStr]
  have hu : Json.lookup "u" (members kind.name fields) = none := by
    simp [fields, members, Json.lookup, Field.entry, latin1_keys, hne_u]
  refine hline.trans ((kind.parseKind_name _).trans ?_)
  rw [parseCall, ha, hsubject, parseTaintOffset_append hu]
  rfl

end GovFuzz.Runtrace
