import GovFuzz.BuildProbe.InterceptLog
import GovFuzz.Cli.LengthControl
import GovFuzz.Lib.CommandLine
import GovFuzz.Runtrace.Readers

/-!
# Multicore — the arguments of `govfuzz fuzz`

`FuzzArgs` of `crates/cli/src/fuzz.rs`: the fields a command line can set, the
options that are declared for them, and the parsers of their values.  What
reads the command line itself is a parameter.  A path is the bytes of an
`OsStr`.
-/

namespace GovFuzz.Multicore

open GovFuzz.Lib GovFuzz.Lib.CommandLine GovFuzz.Cli

/-- A path as the system holds it. -/
abbrev Path := List UInt8

instance nanosPerSecNeZero : NeZero 1000000000 := ⟨by decide⟩

/-- Seconds and nanoseconds. -/
structure Duration where
  secs : UInt64
  nanos : Fin 1000000000
  deriving DecidableEq

/-- No time at all. -/
def Duration.isZero (d : Duration) : Bool := d.secs = 0 && d.nanos = 0

/-- How many workers were asked for. -/
inductive FuzzWorkerCount where
  | auto
  | fixed (workers : UInt32)
  deriving DecidableEq

/-- How the target is confined. -/
inductive SandboxModeArg where
  | none
  | auto
  | firejail
  | bubblewrap
  deriving DecidableEq

/-- What the campaign is for. -/
inductive RunMode where
  | reporting
  | attacking
  deriving DecidableEq

/-- The arguments of `govfuzz fuzz` that a worker is given. -/
structure FuzzArgs where
  workDir : Path
  harness : String
  engine : FuzzEngine
  workers : Option FuzzWorkerCount
  iterations : Option UInt64
  time : Option Duration
  maxLen : UInt64
  lenControl : UInt64
  timeout : Option Duration
  printFinalStats : Bool
  rssLimitMb : UInt64
  forkServer : Bool
  noForkServer : Bool
  seedInputs : List String
  seedFiles : List Path
  sanitizers : List String
  symbolicSeedSources : List Path
  rngSeed : UInt64
  sandbox : SandboxModeArg
  mode : RunMode
  sandboxTool : Option Path
  sandboxStrict : Bool
  cmplogLog : Option Path
  grammarFile : Option Path
  structuredInputs : StructuredInputMode
  govfuzzBin : Option Path
  deriving DecidableEq

/-- The attributes of the fields. -/
def fuzzCommand : Command :=
  [⟨"harness", .one, none⟩, ⟨"engine", .one, none⟩, ⟨"workers", .one, none⟩,
    ⟨"iterations", .one, none⟩, ⟨"time", .one, none⟩, ⟨"max-len", .one, none⟩,
    ⟨"len-control", .one, none⟩, ⟨"timeout", .one, none⟩, ⟨"print-final-stats", .flag, none⟩,
    ⟨"rss-limit-mb", .one, none⟩, ⟨"fork-server", .flag, none⟩, ⟨"no-fork-server", .flag, none⟩,
    ⟨"seed-input", .many, none⟩, ⟨"seed-file", .many, none⟩, ⟨"sanitizers", .many, none⟩,
    ⟨"symbolic-seed-source", .many, none⟩, ⟨"rng-seed", .one, none⟩, ⟨"sandbox", .one, none⟩,
    ⟨"mode", .one, none⟩, ⟨"sandbox-tool", .one, some "sandbox"⟩, ⟨"sandbox-strict", .flag, none⟩,
    ⟨"cmplog-log", .one, none⟩, ⟨"grammar", .one, none⟩, ⟨"structured-inputs", .one, none⟩,
    ⟨"govfuzz-bin", .one, none⟩]

/-! ## Values -/

/-- `u64::from_str` and `usize::from_str`. -/
def parseU64 (text : String) : Option UInt64 := (parseUsize text.toList).map UInt64.ofNat

/-- A number and its unit. -/
def parseDuration (value : String) : Option Duration :=
  let trimmed := Runtrace.trim value.toList
  let seconds (number : List Char) (multiplier : Nat) : Option Duration :=
    (parseUsize number).map fun amount =>
      ⟨UInt64.ofNat (saturatingMul amount multiplier), 0⟩
  match trimmed.getLast? with
  | none => none
  | some last =>
      if last = 's' ∨ last = 'S' then seconds trimmed.dropLast 1
      else if last = 'm' ∨ last = 'M' then seconds trimmed.dropLast 60
      else if last = 'h' ∨ last = 'H' then seconds trimmed.dropLast (60 * 60)
      else if '0' ≤ last ∧ last ≤ '9' then seconds trimmed 1
      else none

/-- `auto` or a number. -/
def parseWorkerCount (value : String) : Option FuzzWorkerCount :=
  if value.toLower = "auto" then some .auto
  else
    match parseUsize value.toList with
    | some workers =>
        if workers = 0 ∨ 2 ^ 32 ≤ workers then none else some (.fixed (UInt32.ofNat workers))
    | none => none

/-- A value that must be text. -/
def textValue {α : Type} (parse : String → Option α) (value : List UInt8) : Option α :=
  (fromUtf8 value).bind parse

/-- A path may be any bytes, but not none. -/
def pathValue (value : List UInt8) : Option Path := if value = [] then none else some value

/-- The name of a value in a derived `ValueEnum`. -/
def FuzzEngine.valueName : FuzzEngine → String
  | .builtin => "builtin"
  | .aflPlusPlus => "afl++"

/-- The word of each mode. -/
def SandboxModeArg.valueName : SandboxModeArg → String
  | .none => "none"
  | .auto => "auto"
  | .firejail => "firejail"
  | .bubblewrap => "bubblewrap"

/-- The word of each mode. -/
def StructuredInputMode.valueName : StructuredInputMode → String
  | .auto => "auto"
  | .off => "off"
  | .record => "record"
  | .json => "json"
  | .xml => "xml"
  | .kv => "kv"
  | .url => "url"
  | .multipart => "multipart"
  | .csv => "csv"
  | .http => "http"
  | .ini => "ini"
  | .toml => "toml"
  | .yaml => "yaml"
  | .recursive => "recursive"

/-- The engine of a word. -/
def FuzzEngine.parse (text : String) : Option FuzzEngine :=
  [FuzzEngine.builtin, .aflPlusPlus].find? fun value => FuzzEngine.valueName value = text

/-- The mode of a word. -/
def SandboxModeArg.parse (text : String) : Option SandboxModeArg :=
  [SandboxModeArg.none, .auto, .firejail, .bubblewrap].find? fun value => value.valueName = text

/-- The mode of a word. -/
def StructuredInputMode.parse (text : String) : Option StructuredInputMode :=
  [StructuredInputMode.auto, .off, .record, .json, .xml, .kv, .url, .multipart, .csv, .http, .ini,
    .toml, .yaml, .recursive].find? fun value => StructuredInputMode.valueName value = text

/-- `RunMode::from_str`. -/
def RunMode.fromStr (text : String) : Option RunMode :=
  if text = "reporting" then some .reporting
  else if text = "attacking" then some .attacking
  else none

/-! ## Values that come back -/

theorem parseU64_toString (n : UInt64) : parseU64 (toString n.toNat) = some n := by
  have htext : (toString n.toNat).toList = Nat.toDigits 10 n.toNat := Nat.toList_repr
  rw [parseU64, htext, parseUsize_toDigits n.toNat_lt]
  simp

theorem parseDuration_seconds (n : UInt64) :
    parseDuration (toString n.toNat ++ "s") = some ⟨n, 0⟩ := by
  have htext : (toString n.toNat ++ "s").toList = Nat.toDigits 10 n.toNat ++ ['s'] := by
    rw [String.toList_append]
    exact congrArg (· ++ ['s']) Nat.toList_repr
  have htrim : Runtrace.trim (Nat.toDigits 10 n.toNat ++ ['s'])
      = Nat.toDigits 10 n.toNat ++ ['s'] := by
    apply Runtrace.trim_eq
    · intro c hc
      rw [List.head?_append_of_ne_nil _ Nat.toDigits_ne_nil] at hc
      exact Runtrace.not_isWhitespace_digit
        (Nat.isDigit_of_mem_toDigits (by omega) (by omega) (List.mem_of_head? hc))
    · intro c hc
      rw [List.getLast?_concat] at hc
      cases hc
      rfl
  have hvalue : saturatingMul n.toNat 1 = n.toNat := by
    have hlt := n.toNat_lt
    rw [saturatingMul]
    omega
  simp only [parseDuration, htext, htrim, List.getLast?_concat, List.dropLast_concat]
  rw [parseUsize_toDigits n.toNat_lt]
  simp [hvalue]

/-- A text that starts with a digit does not look like an option. -/
theorem not_hyphenLed_digit {text : String} {c : Char} (h : text.toList.head? = some c)
    (hc : c.isDigit) : ¬ HyphenLed (toUtf8 text) := by
  have hrange := Char.isDigit_iff_toNat.mp hc
  have hlow : '0'.toNat = 48 := rfl
  have hhigh : '9'.toNat = 57 := rfl
  have hval : c.toNat = c.val.toNat := rfl
  have hsize : c.utf8Size = 1 := by
    rw [Char.utf8Size_eq_one_iff, UInt32.le_iff_toNat_le]
    have hmax : (127 : UInt32).toNat = 127 := rfl
    omega
  intro hled
  obtain ⟨rest, htext⟩ := List.head?_eq_some_iff.mp h
  have hbytes : toUtf8 text = c.val.toUInt8 :: rest.flatMap String.utf8EncodeChar := by
    rw [← String.ofList_toList (s := text), htext, toUtf8_ofList, List.flatMap_cons,
      String.utf8EncodeChar_eq_singleton hsize]
    rfl
  have hhead := hled.1
  rw [hbytes, List.head?_cons] at hhead
  have hbyte := congrArg UInt8.toNat (Option.some.inj hhead)
  have hhyphen : (45 : UInt8).toNat = 45 := rfl
  rw [UInt32.toNat_toUInt8, hhyphen] at hbyte
  omega

theorem head_toString (n : Nat) (rest : String) :
    ∃ c, (toString n ++ rest).toList.head? = some c ∧ c.isDigit := by
  have htext : (toString n ++ rest).toList = Nat.toDigits 10 n ++ rest.toList := by
    rw [String.toList_append]
    exact congrArg (· ++ rest.toList) Nat.toList_repr
  rw [htext, List.head?_append_of_ne_nil _ Nat.toDigits_ne_nil]
  refine ⟨(Nat.toDigits 10 n).head Nat.toDigits_ne_nil, List.head?_eq_some_head _, ?_⟩
  exact Nat.isDigit_of_mem_toDigits (by omega) (by omega) (List.head_mem _)

theorem textValue_toUtf8 {α : Type} (parse : String → Option α) (text : String) :
    textValue parse (toUtf8 text) = parse text := by
  rw [textValue, fromUtf8_toUtf8]
  rfl

/-- Paths come back, unless one is empty. -/
theorem mapM_pathValue (paths : List Path) :
    paths.mapM pathValue = if [] ∈ paths then none else some paths := by
  induction paths with
  | nil => rfl
  | cons path paths ih =>
      rw [List.mapM_cons, ih, pathValue]
      by_cases hempty : path = []
      · simp [hempty]
      · by_cases hrest : [] ∈ paths
        · simp [hempty, hrest]
        · simp [hempty, hrest, Ne.symm hempty]

theorem mapM_textValue (texts : List String) :
    (texts.map toUtf8).mapM (textValue some) = some texts := by
  induction texts with
  | nil => rfl
  | cons text texts ih => simp [textValue_toUtf8, ih]

/-! ## From the command line -/

/-- The parts between delimiters. -/
def split (delimiter : Char) (text : String) : List String :=
  (text.toList.splitOn delimiter).map String.ofList

section

variable {α : Type} (found : Matches) (name : String) (parse : List UInt8 → Option α)

/-- The first value of an option that must be given. -/
def requiredValue : Option α := (found.values name).head?.bind parse

/-- The value of an option, or its default. -/
def valueOr (default : α) : Option α :=
  match found.values name with
  | [] => some default
  | value :: _ => parse value

/-- The value of an option, when it is given. -/
def optionalValue : Option (Option α) :=
  match found.values name with
  | [] => some none
  | value :: _ => (parse value).map some

/-- The values of an option that may repeat. -/
def allValues : Option (List α) := (found.values name).mapM parse

end

section

variable {α β : Type} {found : Matches} {name : String} {parse : List UInt8 → Option α}

theorem requiredValue_eq {v : List UInt8} {a : α} (h : found.values name = [v])
    (hparse : parse v = some a) : requiredValue found name parse = some a := by
  simp [requiredValue, h, hparse]

theorem valueOr_eq {v : List UInt8} {a default : α} (h : found.values name = [v])
    (hparse : parse v = some a) : valueOr found name parse default = some a := by
  simp [valueOr, h, hparse]

theorem optionalValue_eq {x : Option β} {f : β → List UInt8} {g : β → α}
    (h : found.values name = x.toList.map f) (hparse : ∀ b, parse (f b) = some (g b)) :
    optionalValue found name parse = some (x.map g) := by
  cases x with
  | none => simp [optionalValue, h]
  | some b => simp [optionalValue, h, hparse b]

theorem optionalValue_absent (h : found.values name = []) :
    optionalValue found name parse = some none := by
  simp [optionalValue, h]

end

/-- `FromArgMatches` as it is derived. -/
def fromArgMatches (found : Matches) : Option FuzzArgs := do
  let workDir ← pathValue found.positional
  let harness ← requiredValue found "harness" (textValue some)
  let engine ← valueOr found "engine" (textValue FuzzEngine.parse) .builtin
  let workers ← optionalValue found "workers" (textValue parseWorkerCount)
  let iterations ← optionalValue found "iterations" (textValue parseU64)
  let time ← optionalValue found "time" (textValue parseDuration)
  let maxLen ← valueOr found "max-len" (textValue parseU64) 4096
  let lenControl ← valueOr found "len-control" (textValue parseU64) 100
  let timeout ← optionalValue found "timeout" (textValue parseDuration)
  let rssLimitMb ← valueOr found "rss-limit-mb" (textValue parseU64) 0
  let seedInputs ← allValues found "seed-input" (textValue some)
  let seedFiles ← allValues found "seed-file" pathValue
  let sanitizers ← allValues found "sanitizers" (textValue fun text => some (split ',' text))
  let symbolicSeedSources ← allValues found "symbolic-seed-source" pathValue
  let rngSeed ← valueOr found "rng-seed" (textValue parseU64) 0x475646555a5a
  let sandbox ← valueOr found "sandbox" (textValue SandboxModeArg.parse) .auto
  let mode ← valueOr found "mode" (textValue RunMode.fromStr) .reporting
  let sandboxTool ← optionalValue found "sandbox-tool" pathValue
  let cmplogLog ← optionalValue found "cmplog-log" pathValue
  let grammarFile ← optionalValue found "grammar" pathValue
  let structuredInputs ←
    valueOr found "structured-inputs" (textValue StructuredInputMode.parse) .auto
  let govfuzzBin ← optionalValue found "govfuzz-bin" pathValue
  some
    { workDir, harness, engine, workers, iterations, time, maxLen, lenControl, timeout
      printFinalStats := found.flags "print-final-stats"
      rssLimitMb
      forkServer := found.flags "fork-server"
      noForkServer := found.flags "no-fork-server"
      seedInputs, seedFiles
      sanitizers := sanitizers.flatten
      symbolicSeedSources, rngSeed, sandbox, mode, sandboxTool
      sandboxStrict := found.flags "sandbox-strict"
      cmplogLog, grammarFile, structuredInputs, govfuzzBin }

end GovFuzz.Multicore
