import GovFuzz.Multicore.FuzzArgs

/-!
# Multicore — the arguments of a worker

`worker_passthrough_args` and `run_multicore_campaign` of
`crates/cli/src/fuzz.rs` and the command that `run_multicore` of
`crates/multicore_fuzz/src/lib.rs` builds for a worker: what of the campaign's
arguments comes back from the worker's command line.
-/

namespace GovFuzz.Multicore

open GovFuzz.Lib GovFuzz.Lib.CommandLine GovFuzz.Cli

def engineArgName : FuzzEngine → String
  | .builtin => "builtin"
  | .aflPlusPlus => "afl++"

def sandboxArgName : SandboxModeArg → String
  | .none => "none"
  | .auto => "auto"
  | .firejail => "firejail"
  | .bubblewrap => "bubblewrap"

def structuredInputModeArgName : StructuredInputMode → String
  | .auto => "auto"
  | .off => "off"
  | .record => "record"
  | .json => "json"
  | .xml => "xml"
  | .kv => "kv"
  | .url => "url"
  | .multipart => "multipart"
  | .csv => "csv"
  | .http => "http"
  | .ini => "ini"
  | .toml => "toml"
  | .yaml => "yaml"
  | .recursive => "recursive"

/-- `Display` of a `RunMode`. -/
def RunMode.asStr : RunMode → String
  | .reporting => "reporting"
  | .attacking => "attacking"

/-- `format!("{}", n)`. -/
def decimal (n : UInt64) : List UInt8 := toUtf8 (toString n.toNat)

/-- `format!("{}s", n)`. -/
def seconds (n : UInt64) : List UInt8 := toUtf8 (toString n.toNat ++ "s")

/-- `path.display().to_string()`. -/
@[grind =] def display (path : Path) : List UInt8 := lossyBytes path

def workerPassthroughArgs (args : FuzzArgs) : List (List UInt8) :=
  [toUtf8 "--engine", toUtf8 (engineArgName args.engine), toUtf8 "--mode", toUtf8 args.mode.asStr,
    toUtf8 "--sandbox", toUtf8 (sandboxArgName args.sandbox)]
  ++ (args.sandboxTool.toList.flatMap fun tool => [toUtf8 "--sandbox-tool", display tool])
  ++ (if args.sandboxStrict then [toUtf8 "--sandbox-strict"] else [])
  ++ (args.seedInputs.flatMap fun seed => [toUtf8 "--seed-input", toUtf8 seed])
  ++ (args.seedFiles.flatMap fun seedFile => [toUtf8 "--seed-file", display seedFile])
  ++ (args.symbolicSeedSources.flatMap fun source =>
    [toUtf8 "--symbolic-seed-source", display source])
  ++ (args.cmplogLog.toList.flatMap fun cmplogLog => [toUtf8 "--cmplog-log", display cmplogLog])
  ++ [toUtf8 "--structured-inputs", toUtf8 (structuredInputModeArgName args.structuredInputs),
    toUtf8 "--max-len", decimal args.maxLen, toUtf8 "--len-control", decimal args.lenControl]
  ++ (args.timeout.toList.flatMap fun timeout =>
    [toUtf8 "--timeout", seconds (max timeout.secs 1)])
  ++ (if args.rssLimitMb > 0 then [toUtf8 "--rss-limit-mb", decimal args.rssLimitMb] else [])

/-- The part of the configuration that a worker's command is made of. -/
structure MulticoreConfig where
  workDir : Path
  harnessId : String
  perWorkerIterations : Option UInt64
  timeBudget : Duration
  extraWorkerArgs : List (List UInt8)

/-- As `run_multicore_campaign` fills it in. -/
def multicoreConfig (args : FuzzArgs) : MulticoreConfig where
  workDir := args.workDir
  harnessId := args.harness
  perWorkerIterations := args.iterations
  timeBudget := args.time.getD ⟨0, 0⟩
  extraWorkerArgs := workerPassthroughArgs args

def sanitizeWorkerNamespace (harnessId : String) : String :=
  let mapped := harnessId.toList.map fun ch =>
    if ch.isAlphanum || ch = '-' || ch = '_' then ch else '_'
  if mapped = [] then "harness" else String.ofList mapped

def workerDir (config : MulticoreConfig) (workerId : UInt32) : Path :=
  BuildProbe.join config.workDir (toUtf8 ("worker-" ++ sanitizeWorkerNamespace config.harnessId
    ++ "-" ++ toString workerId.toNat))

def workerSeed (workerId : UInt32) : UInt64 := 0x475646555a5a ^^^ workerId.toUInt64

/-- The arguments behind `fuzz`; the shared queue holds `sharedSeedFiles`. -/
def workerArgv (config : MulticoreConfig) (sharedSeedFiles : List Path) (workerId : UInt32) :
    List (List UInt8) :=
  [workerDir config workerId, toUtf8 "--harness", toUtf8 config.harnessId, toUtf8 "--rng-seed",
    decimal (workerSeed workerId)]
  ++ (config.perWorkerIterations.toList.flatMap fun iterations =>
    [toUtf8 "--iterations", decimal iterations])
  ++ (if !config.timeBudget.isZero then [toUtf8 "--time", seconds config.timeBudget.secs] else [])
  ++ (sharedSeedFiles.flatMap fun seedFile => [toUtf8 "--seed-file", seedFile])
  ++ config.extraWorkerArgs

/-! ## As options -/

/-- The options of a worker, one by one. -/
@[grind =] def workerOccurrences (args : FuzzArgs) (sharedSeedFiles : List Path)
    (workerId : UInt32) : List Occurrence :=
  [Occurrence.value "harness" (toUtf8 args.harness),
    .value "rng-seed" (decimal (workerSeed workerId))]
  ++ (args.iterations.toList.map fun iterations =>
    Occurrence.value "iterations" (decimal iterations))
  ++ (if !(args.time.getD ⟨0, 0⟩).isZero
    then [Occurrence.value "time" (seconds (args.time.getD ⟨0, 0⟩).secs)] else [])
  ++ (sharedSeedFiles.map fun seedFile : Path => Occurrence.value "seed-file" seedFile)
  ++ [Occurrence.value "engine" (toUtf8 (engineArgName args.engine)),
    .value "mode" (toUtf8 args.mode.asStr),
    .value "sandbox" (toUtf8 (sandboxArgName args.sandbox))]
  ++ (args.sandboxTool.toList.map fun tool => Occurrence.value "sandbox-tool" (display tool))
  ++ (if args.sandboxStrict then [Occurrence.flag "sandbox-strict"] else [])
  ++ (args.seedInputs.map fun seed => Occurrence.value "seed-input" (toUtf8 seed))
  ++ (args.seedFiles.map fun seedFile => Occurrence.value "seed-file" (display seedFile))
  ++ (args.symbolicSeedSources.map fun source =>
    Occurrence.value "symbolic-seed-source" (display source))
  ++ (args.cmplogLog.toList.map fun cmplogLog =>
    Occurrence.value "cmplog-log" (display cmplogLog))
  ++ [Occurrence.value "structured-inputs"
      (toUtf8 (structuredInputModeArgName args.structuredInputs)),
    .value "max-len" (decimal args.maxLen), .value "len-control" (decimal args.lenControl)]
  ++ (args.timeout.toList.map fun timeout =>
    Occurrence.value "timeout" (seconds (max timeout.secs 1)))
  ++ (if args.rssLimitMb > 0 then [Occurrence.value "rss-limit-mb" (decimal args.rssLimitMb)]
    else [])

theorem flatMap_tokens {α : Type} (xs : List α) (name : String) (f : α → List UInt8) :
    (xs.map fun x => Occurrence.value name (f x)).flatMap Occurrence.tokens
      = xs.flatMap fun x => [long name, f x] := by
  rw [List.flatMap_map]
  rfl

theorem flatMap_tokens_self (xs : List (List UInt8)) (name : String) :
    (xs.map fun x => Occurrence.value name x).flatMap Occurrence.tokens
      = xs.flatMap fun x => [long name, x] := flatMap_tokens xs name id

theorem flatMap_tokens_ite (c : Prop) [Decidable c] (occurrence : Occurrence) :
    (if c then [occurrence] else []).flatMap Occurrence.tokens
      = if c then occurrence.tokens else [] := by
  split
  · simp
  · rfl

/-- The line is the worker's directory with these options behind it. -/
theorem workerArgv_eq (args : FuzzArgs) (sharedSeedFiles : List Path) (workerId : UInt32) :
    workerArgv (multicoreConfig args) sharedSeedFiles workerId
      = workerDir (multicoreConfig args) workerId
        :: (workerOccurrences args sharedSeedFiles workerId).flatMap Occurrence.tokens := by
  simp [workerArgv, multicoreConfig, workerOccurrences, workerPassthroughArgs, flatMap_tokens,
    flatMap_tokens_self, flatMap_tokens_ite, List.flatMap_cons, Occurrence.tokens, long]

/-- The options a worker has at most once. -/
def workerSingles : List String :=
  ["harness", "rng-seed", "iterations", "time", "engine", "mode", "sandbox", "sandbox-tool",
    "sandbox-strict", "cmplog-log", "structured-inputs", "max-len", "len-control", "timeout",
    "rss-limit-mb"]

section

variable {α : Type} (wanted : String)

/-- Uses of one option. -/
@[grind =] def uses (occurrences : List Occurrence) : Nat :=
  (occurrences.map Occurrence.name).count wanted

theorem uses_append (xs ys : List Occurrence) :
    uses wanted (xs ++ ys) = uses wanted xs + uses wanted ys := by
  rw [uses, List.map_append, List.count_append]
  rfl

theorem uses_toList (x : Option α) (name : String) (f : α → List UInt8) :
    uses wanted (x.toList.map fun a => .value name (f a)) ≤ [name].count wanted := by
  cases x with
  | none => exact Nat.zero_le _
  | some a => exact Nat.le_refl _

theorem uses_ite (c : Prop) [Decidable c] (occurrence : Occurrence) :
    uses wanted (if c then [occurrence] else []) ≤ [occurrence.name].count wanted := by
  split
  · exact Nat.le_refl _
  · exact Nat.zero_le _

theorem uses_map (xs : List α) {name : String} (f : α → List UInt8) (h : name ≠ wanted) :
    uses wanted (xs.map fun a => .value name (f a)) = 0 := by
  rw [uses, List.map_map, List.count_eq_zero]
  intro hmem
  obtain ⟨a, -, ha⟩ := List.mem_map.mp hmem
  exact h ha

end

theorem declared_value {name : String} (v : List UInt8)
    (h : ∃ o ∈ fuzzCommand, o.name = name ∧ o.arity ≠ .flag) :
    Declared fuzzCommand (.value name v) := h

theorem declared_ite (c : Prop) [Decidable c] {occurrence : Occurrence}
    (h : Declared fuzzCommand occurrence) :
    ∀ other ∈ (if c then [occurrence] else []), Declared fuzzCommand other := by
  intro other hmem
  split at hmem
  · rw [List.mem_singleton.mp hmem]
    exact h
  · cases hmem

theorem workerOccurrences_declared (args : FuzzArgs) (sharedSeedFiles : List Path)
    (workerId : UInt32) :
    ∀ occurrence ∈ workerOccurrences args sharedSeedFiles workerId,
      Declared fuzzCommand occurrence := by
  have hstrict : Declared fuzzCommand (.flag "sandbox-strict") :=
    show ∃ o ∈ fuzzCommand, o.name = "sandbox-strict" ∧ o.arity = .flag by decide
  simp only [workerOccurrences, List.forall_mem_append, List.forall_mem_cons, List.forall_mem_map]
  and_intros
  all_goals first
    | exact declared_value _ (by decide)
    | exact fun _ _ => declared_value _ (by decide)
    | exact declared_ite _ (declared_value _ (by decide))
    | exact declared_ite _ hstrict
    | exact fun _ hmem => absurd hmem List.not_mem_nil

theorem many_of_name : ∀ o ∈ fuzzCommand,
    o.name ∈ ["seed-input", "seed-file", "symbolic-seed-source"] → o.arity = .many := by
  decide

/-- Every option is one of the declared ones, and used as it is declared. -/
theorem workerOccurrences_admitted (args : FuzzArgs) (sharedSeedFiles : List Path)
    (workerId : UInt32) :
    Admits fuzzCommand (workerOccurrences args sharedSeedFiles workerId) := by
  constructor
  · decide
  · exact workerOccurrences_declared args sharedSeedFiles workerId
  · intro o hmem harity
    have hmany : ∀ name ∈ ["seed-input", "seed-file", "symbolic-seed-source"], name ≠ o.name := by
      intro name hname heq
      exact harity (many_of_name o hmem (heq ▸ hname))
    generalize o.name = wanted at *
    have hsingles : workerSingles.count wanted ≤ 1 :=
      List.nodup_iff_count.mp (by decide) wanted
    have hsplit : workerSingles = ["harness", "rng-seed"] ++ ["iterations"] ++ ["time"]
        ++ ["engine", "mode", "sandbox"] ++ ["sandbox-tool"] ++ ["sandbox-strict"]
        ++ ["cmplog-log"] ++ ["structured-inputs", "max-len", "len-control"] ++ ["timeout"]
        ++ ["rss-limit-mb"] := rfl
    change uses wanted _ ≤ 1
    simp only [hsplit, List.count_append] at hsingles
    simp only [workerOccurrences, uses_append]
    have hiterations := uses_toList wanted args.iterations "iterations" decimal
    have htool := uses_toList wanted args.sandboxTool "sandbox-tool" display
    have hcmplog := uses_toList wanted args.cmplogLog "cmplog-log" display
    have htimeout := uses_toList wanted args.timeout "timeout"
      fun timeout => seconds (max timeout.secs 1)
    have htime := uses_ite wanted ((!(args.time.getD ⟨0, 0⟩).isZero) = true)
      (.value "time" (seconds (args.time.getD ⟨0, 0⟩).secs))
    have hstrict := uses_ite wanted (args.sandboxStrict = true) (.flag "sandbox-strict")
    have hrss := uses_ite wanted (args.rssLimitMb > 0)
      (.value "rss-limit-mb" (decimal args.rssLimitMb))
    have hshared := uses_map wanted sharedSeedFiles id (hmany "seed-file" (by simp))
    have hseedInputs := uses_map wanted args.seedInputs toUtf8 (hmany "seed-input" (by simp))
    have hseedFiles := uses_map wanted args.seedFiles display (hmany "seed-file" (by simp))
    have hsources := uses_map wanted args.symbolicSeedSources display
      (hmany "symbolic-seed-source" (by simp))
    have hhead : uses wanted [.value "harness" (toUtf8 args.harness),
        .value "rng-seed" (decimal (workerSeed workerId))]
        = ["harness", "rng-seed"].count wanted := rfl
    have hmodes : uses wanted [.value "engine" (toUtf8 (engineArgName args.engine)),
        .value "mode" (toUtf8 args.mode.asStr),
        .value "sandbox" (toUtf8 (sandboxArgName args.sandbox))]
        = ["engine", "mode", "sandbox"].count wanted := rfl
    have hlengths : uses wanted
        [.value "structured-inputs" (toUtf8 (structuredInputModeArgName args.structuredInputs)),
          .value "max-len" (decimal args.maxLen), .value "len-control" (decimal args.lenControl)]
        = ["structured-inputs", "max-len", "len-control"].count wanted := rfl
    dsimp only [id, Occurrence.name] at *
    omega
  · intro o hmem other hrequires _
    have hother : other = "sandbox" := by
      have hall : ∀ o ∈ fuzzCommand, o.requires = none ∨ o.requires = some "sandbox" := by decide
      rcases hall o hmem with hnone | hsandbox
      · rw [hnone] at hrequires
        cases hrequires
      · rw [hsandbox] at hrequires
        exact (Option.some.inj hrequires).symm
    exact ⟨.value "sandbox" (toUtf8 (sandboxArgName args.sandbox)),
      by simp [workerOccurrences], hother.symm⟩

/-! ## What a worker reads -/

section

variable {α : Type} (wanted : String)

@[grind =] def valuesOf (occurrences : List Occurrence) : List (List UInt8) :=
  occurrences.filterMap (Occurrence.value? wanted)

theorem matchesOf_values (positional : List UInt8) (occurrences : List Occurrence) :
    (matchesOf positional occurrences).values wanted = valuesOf wanted occurrences := rfl

theorem valuesOf_append (xs ys : List Occurrence) :
    valuesOf wanted (xs ++ ys) = valuesOf wanted xs ++ valuesOf wanted ys :=
  List.filterMap_append

theorem valuesOf_cons (name : String) (v : List UInt8) (xs : List Occurrence) :
    valuesOf wanted (.value name v :: xs)
      = (if name = wanted then [v] else []) ++ valuesOf wanted xs := by
  by_cases h : name = wanted
  · simp [valuesOf, Occurrence.value?, h]
  · simp [valuesOf, Occurrence.value?, h]

theorem valuesOf_nil : valuesOf wanted [] = [] := rfl

theorem valuesOf_map (xs : List α) (name : String) (f : α → List UInt8) :
    valuesOf wanted (xs.map fun a => .value name (f a))
      = if name = wanted then xs.map f else [] := by
  rw [valuesOf, List.filterMap_map]
  by_cases h : name = wanted
  · rw [if_pos h, ← List.filterMap_eq_map]
    congr 1
    funext a
    exact if_pos h
  · rw [if_neg h, List.filterMap_eq_nil_iff]
    intro a _
    exact if_neg h

theorem valuesOf_map_self (xs : List (List UInt8)) (name : String) :
    valuesOf wanted (xs.map fun x => .value name x) = if name = wanted then xs else [] := by
  have hmap := valuesOf_map wanted xs name id
  rw [List.map_id] at hmap
  exact hmap

theorem valuesOf_ite (c : Prop) [Decidable c] (name : String) (v : List UInt8) :
    valuesOf wanted (if c then [.value name v] else [])
      = if name = wanted then (if c then [v] else []) else [] := by
  split
  · rw [valuesOf_cons, valuesOf_nil, List.append_nil]
  · simp [valuesOf]

theorem valuesOf_flag (c : Prop) [Decidable c] (name : String) :
    valuesOf wanted (if c then [.flag name] else []) = [] := by
  split
  · rfl
  · rfl

end

theorem any_never {α : Type} (xs : List α) : (xs.any fun _ => false) = false :=
  List.any_eq_false.mpr fun _ _ => nofun

section

variable (wanted : String) (c : Prop) [Decidable c]

theorem flags_ite_value (name : String) (v : List UInt8) :
    (if c then [Occurrence.value name v] else []).any (Occurrence.isFlag wanted) = false := by
  split
  · rfl
  · rfl

theorem flags_ite_flag (name : String) :
    (if c then [Occurrence.flag name] else []).any (Occurrence.isFlag wanted)
      = decide (c ∧ name = wanted) := by
  by_cases h : c
  · simp [h, Occurrence.isFlag]
  · simp [h]

end

theorem textValue_decimal (n : UInt64) : textValue parseU64 (decimal n) = some n := by
  rw [decimal, textValue_toUtf8, parseU64_toString]

theorem textValue_seconds (n : UInt64) : textValue parseDuration (seconds n) = some ⟨n, 0⟩ := by
  rw [seconds, textValue_toUtf8, parseDuration_seconds]

theorem parse_engineArgName (engine : FuzzEngine) :
    FuzzEngine.parse (engineArgName engine) = some engine := by
  cases engine <;> decide

theorem parse_sandboxArgName (sandbox : SandboxModeArg) :
    SandboxModeArg.parse (sandboxArgName sandbox) = some sandbox := by
  cases sandbox <;> decide

theorem parse_structuredInputModeArgName (mode : StructuredInputMode) :
    StructuredInputMode.parse (structuredInputModeArgName mode) = some mode := by
  cases mode <;> decide

theorem fromStr_asStr (mode : RunMode) : RunMode.fromStr mode.asStr = some mode := by
  cases mode <;> decide

theorem display_eq_nil {path : Path} (h : display path = []) : path = [] := by
  have hlen := length_le_lossyBytes path
  rw [display] at h
  rw [h, List.length_nil] at hlen
  exact List.eq_nil_of_length_eq_zero (Nat.le_zero.mp hlen)

theorem not_mem_display {paths : List Path} (h : ∀ path ∈ paths, path ≠ []) :
    [] ∉ paths.map display := by
  intro hmem
  obtain ⟨path, hin, hempty⟩ := List.mem_map.mp hmem
  exact h path hin (display_eq_nil hempty)

theorem optionalPath_eq {found : Matches} {name : String} {x : Option Path}
    (h : found.values name = x.toList.map display) (hx : ∀ path ∈ x.toList, path ≠ []) :
    optionalValue found name pathValue = some (x.map display) := by
  cases x with
  | none => exact optionalValue_absent h
  | some path =>
      have hpath : display path ≠ [] := fun hempty => hx path (by simp) (display_eq_nil hempty)
      have hfound : found.values name = [display path] := h
      simp [optionalValue, hfound, pathValue, hpath]

theorem toUtf8_append (a b : String) : toUtf8 (a ++ b) = toUtf8 a ++ toUtf8 b := by
  have hbytes : ∀ s : String, toUtf8 s = s.toList.flatMap String.utf8EncodeChar := by
    intro s
    rw [← toUtf8_ofList, String.ofList_toList]
  rw [hbytes, hbytes, hbytes, String.toList_append, List.flatMap_append]

/-- The directory's name below the campaign's. -/
theorem workerDir_eq (config : MulticoreConfig) (workerId : UInt32) :
    ∃ name, workerDir config workerId = BuildProbe.join config.workDir (119 :: name) := by
  have hfirst : toUtf8 "worker-" = 119 :: (toUtf8 "worker-").tail := by decide
  have hname : toUtf8 ("worker-" ++ sanitizeWorkerNamespace config.harnessId ++ "-"
        ++ toString workerId.toNat)
      = 119 :: ((toUtf8 "worker-").tail ++ toUtf8 (sanitizeWorkerNamespace config.harnessId)
        ++ toUtf8 "-" ++ toUtf8 (toString workerId.toNat)) := by
    rw [toUtf8_append, toUtf8_append, toUtf8_append]
    conv_lhs => rw [hfirst]
    rfl
  exact ⟨_, congrArg (BuildProbe.join config.workDir) hname⟩

theorem workerDir_ne_nil (config : MulticoreConfig) (workerId : UInt32) :
    workerDir config workerId ≠ [] := by
  obtain ⟨name, hname⟩ := workerDir_eq config workerId
  rw [hname, BuildProbe.join]
  split
  · simp
  · simp

section

variable (args : FuzzArgs) (sharedSeedFiles : List Path) (workerId : UInt32)

/-- The campaign's arguments as they come back in a worker. -/
def workerView : FuzzArgs where
  workDir := workerDir (multicoreConfig args) workerId
  harness := args.harness
  engine := args.engine
  workers := none
  iterations := args.iterations
  time := if (args.time.getD ⟨0, 0⟩).isZero then none
    else some ⟨(args.time.getD ⟨0, 0⟩).secs, 0⟩
  maxLen := args.maxLen
  lenControl := args.lenControl
  timeout := args.timeout.map fun timeout => ⟨max timeout.secs 1, 0⟩
  printFinalStats := false
  rssLimitMb := args.rssLimitMb
  forkServer := false
  noForkServer := false
  seedInputs := args.seedInputs
  seedFiles := sharedSeedFiles ++ args.seedFiles.map display
  sanitizers := []
  symbolicSeedSources := args.symbolicSeedSources.map display
  rngSeed := workerSeed workerId
  sandbox := args.sandbox
  mode := args.mode
  sandboxTool := args.sandboxTool.map display
  sandboxStrict := args.sandboxStrict
  cmplogLog := args.cmplogLog.map display
  grammarFile := none
  structuredInputs := args.structuredInputs
  govfuzzBin := none

/-- With no empty path among them, the arguments that a worker is started with are parsed
back to its view of the configuration. -/
theorem worker_fromArgMatches (hshared : [] ∉ sharedSeedFiles)
    (hpaths : ∀ path ∈ args.sandboxTool.toList ++ args.seedFiles ++ args.symbolicSeedSources
      ++ args.cmplogLog.toList, path ≠ []) :
    fromArgMatches (matchesOf (workerDir (multicoreConfig args) workerId)
        (workerOccurrences args sharedSeedFiles workerId))
      = some (workerView args sharedSeedFiles workerId) := by
  generalize hfound : matchesOf (workerDir (multicoreConfig args) workerId)
    (workerOccurrences args sharedSeedFiles workerId) = found
  have hvalues : ∀ wanted, found.values wanted
      = valuesOf wanted (workerOccurrences args sharedSeedFiles workerId) := by
    intro wanted
    rw [← hfound, matchesOf_values]
  simp only [workerOccurrences, valuesOf_append, valuesOf_cons, valuesOf_nil, valuesOf_map,
    valuesOf_map_self, valuesOf_ite, valuesOf_flag, List.append_nil] at hvalues
  -- One fact an option: what its occurrences are, and that their text is parsed back.
  have hharness : requiredValue found "harness" (textValue some) = some args.harness :=
    requiredValue_eq (v := toUtf8 args.harness) (by simp [hvalues]) (textValue_toUtf8 _ _)
  have hengine : valueOr found "engine" (textValue FuzzEngine.parse) .builtin = some args.engine :=
    valueOr_eq (v := toUtf8 (engineArgName args.engine)) (by simp [hvalues])
      (by rw [textValue_toUtf8]; exact parse_engineArgName _)
  have hworkers : optionalValue found "workers" (textValue parseWorkerCount) = some none :=
    optionalValue_absent (by simp [hvalues])
  have hiterations : optionalValue found "iterations" (textValue parseU64)
      = some (args.iterations.map id) :=
    optionalValue_eq (f := decimal) (by simp [hvalues]) textValue_decimal
  -- A time of zero is not passed on: the worker then has none.
  have htime : optionalValue found "time" (textValue parseDuration)
      = some (workerView args sharedSeedFiles workerId).time := by
    have hfound : found.values "time" = if (args.time.getD ⟨0, 0⟩).isZero then []
        else [seconds (args.time.getD ⟨0, 0⟩).secs] := by
      by_cases hzero : (args.time.getD ⟨0, 0⟩).isZero = true
      · simp [hvalues, hzero]
      · simp [hvalues, hzero]
    simp only [optionalValue, hfound, workerView]
    by_cases hzero : (args.time.getD ⟨0, 0⟩).isZero = true
    · simp [hzero]
    · simp [hzero, textValue_seconds]
  have hmaxLen : valueOr found "max-len" (textValue parseU64) 4096 = some args.maxLen :=
    valueOr_eq (v := decimal args.maxLen) (by simp [hvalues]) (textValue_decimal _)
  have hlenControl : valueOr found "len-control" (textValue parseU64) 100 = some args.lenControl :=
    valueOr_eq (v := decimal args.lenControl) (by simp [hvalues]) (textValue_decimal _)
  have htimeout : optionalValue found "timeout" (textValue parseDuration)
      = some (args.timeout.map fun timeout => ⟨max timeout.secs 1, 0⟩) :=
    optionalValue_eq (f := fun timeout => seconds (max timeout.secs 1)) (by simp [hvalues])
      (fun timeout => textValue_seconds _)
  -- A limit of zero is the default, and is not passed on either.
  have hrss : valueOr found "rss-limit-mb" (textValue parseU64) 0 = some args.rssLimitMb := by
    have hfound : found.values "rss-limit-mb"
        = if args.rssLimitMb > 0 then [decimal args.rssLimitMb] else [] := by
      simp [hvalues]
    rw [valueOr, hfound]
    by_cases hlimit : args.rssLimitMb > 0
    · simp [hlimit, textValue_decimal]
    · have hzero : args.rssLimitMb = 0 := by
        apply UInt64.toNat_inj.mp
        rw [gt_iff_lt, UInt64.lt_iff_toNat_lt] at hlimit
        exact Nat.eq_zero_of_not_pos hlimit
      simp [hzero]
  have hseedInputs : allValues found "seed-input" (textValue some) = some args.seedInputs := by
    have hfound : found.values "seed-input" = args.seedInputs.map toUtf8 := by simp [hvalues]
    rw [allValues, hfound, mapM_textValue]
  have hseedFiles : allValues found "seed-file" pathValue
      = some (sharedSeedFiles ++ args.seedFiles.map display) := by
    have hfound : found.values "seed-file" = sharedSeedFiles ++ args.seedFiles.map display := by
      simp [hvalues]
    have hnonempty : [] ∉ sharedSeedFiles ++ args.seedFiles.map display := by
      rw [List.mem_append, not_or]
      exact ⟨hshared, not_mem_display fun path hmem => hpaths path (by simp [hmem])⟩
    rw [allValues, hfound, mapM_pathValue, if_neg hnonempty]
  have hsources : allValues found "symbolic-seed-source" pathValue
      = some (args.symbolicSeedSources.map display) := by
    have hfound : found.values "symbolic-seed-source" = args.symbolicSeedSources.map display := by
      simp [hvalues]
    have hnonempty : [] ∉ args.symbolicSeedSources.map display :=
      not_mem_display fun path hmem => hpaths path (by simp [hmem])
    rw [allValues, hfound, mapM_pathValue, if_neg hnonempty]
  have hsanitizers : allValues found "sanitizers" (textValue fun text => some (split ',' text))
      = some [] := by
    have hfound : found.values "sanitizers" = [] := by simp [hvalues]
    rw [allValues, hfound]
    rfl
  have hrngSeed : valueOr found "rng-seed" (textValue parseU64) 0x475646555a5a
      = some (workerSeed workerId) :=
    valueOr_eq (v := decimal (workerSeed workerId)) (by simp [hvalues]) (textValue_decimal _)
  have hsandbox : valueOr found "sandbox" (textValue SandboxModeArg.parse) .auto
      = some args.sandbox :=
    valueOr_eq (v := toUtf8 (sandboxArgName args.sandbox)) (by simp [hvalues])
      (by rw [textValue_toUtf8]; exact parse_sandboxArgName _)
  have hmode : valueOr found "mode" (textValue RunMode.fromStr) .reporting = some args.mode :=
    valueOr_eq (v := toUtf8 args.mode.asStr) (by simp [hvalues])
      (by rw [textValue_toUtf8]; exact fromStr_asStr _)
  have htool : optionalValue found "sandbox-tool" pathValue
      = some (args.sandboxTool.map display) :=
    optionalPath_eq (by simp [hvalues]) fun path hmem => hpaths path (by simp [hmem])
  have hcmplog : optionalValue found "cmplog-log" pathValue
      = some (args.cmplogLog.map display) :=
    optionalPath_eq (by simp [hvalues]) fun path hmem => hpaths path (by simp [hmem])
  have hgrammar : optionalValue found "grammar" pathValue = some none :=
    optionalValue_absent (by simp [hvalues])
  have hstructured : valueOr found "structured-inputs" (textValue StructuredInputMode.parse) .auto
      = some args.structuredInputs :=
    valueOr_eq (v := toUtf8 (structuredInputModeArgName args.structuredInputs)) (by simp [hvalues])
      (by rw [textValue_toUtf8]; exact parse_structuredInputModeArgName _)
  have hbin : optionalValue found "govfuzz-bin" pathValue = some none :=
    optionalValue_absent (by simp [hvalues])
  have hdir : pathValue found.positional = some (workerDir (multicoreConfig args) workerId) := by
    rw [← hfound]
    exact if_neg (workerDir_ne_nil _ _)
  -- A worker gets one of the flags at most.
  have hflags : found.flags "print-final-stats" = false ∧ found.flags "fork-server" = false
      ∧ found.flags "no-fork-server" = false
      ∧ found.flags "sandbox-strict" = args.sandboxStrict := by
    rw [← hfound]
    simp [matchesOf, workerOccurrences, Occurrence.isFlag, Function.comp_def, flags_ite_value,
      flags_ite_flag, any_never]
  obtain ⟨hstats, hfork, hnoFork, hstrict⟩ := hflags
  simp only [fromArgMatches, hharness, hengine, hworkers, hiterations, htime, hmaxLen, hlenControl,
    htimeout, hrss, hseedInputs, hseedFiles, hsources, hsanitizers, hrngSeed, hsandbox, hmode,
    htool, hcmplog, hgrammar, hstructured, hbin, hdir, hstats, hfork, hnoFork, hstrict,
    Option.bind_eq_bind, Option.bind_some, Option.map_id, id, List.flatten_nil, workerView]

end

end GovFuzz.Multicore
