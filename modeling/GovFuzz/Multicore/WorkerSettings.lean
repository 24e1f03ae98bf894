import GovFuzz.Multicore.WorkerArgs

/-!
# Multicore — the settings of a worker

Which campaigns have workers with their own settings.  The workers' command
lines lose the grammar and the two fork-server options, and a `--time` or
`--timeout` of no whole second; a value that looks like an option is refused
by the worker, and a path that is not text comes back as another one.
-/

namespace GovFuzz.Multicore

open GovFuzz.Lib GovFuzz.Lib.CommandLine GovFuzz.Cli

/-- The worker's arguments from its command line. -/
def parseFuzzArgs (clap : Command → List (List UInt8) → Option Matches)
    (argv : List (List UInt8)) : Option FuzzArgs :=
  (clap fuzzCommand argv).bind fromArgMatches

def multicoreRequested (args : FuzzArgs) : Bool :=
  if args.sanitizers.length > 1 then true
  else
    match args.workers with
    | some .auto => true
    | some (.fixed n) => n > 1
    | none => false

/-- The fields that decide how inputs are generated and executed. -/
structure SameSettings (worker args : FuzzArgs) : Prop where
  harness : worker.harness = args.harness
  engine : worker.engine = args.engine
  mode : worker.mode = args.mode
  sandbox : worker.sandbox = args.sandbox
  sandboxTool : worker.sandboxTool = args.sandboxTool
  sandboxStrict : worker.sandboxStrict = args.sandboxStrict
  seedInputs : worker.seedInputs = args.seedInputs
  seedFiles : worker.seedFiles = args.seedFiles
  symbolicSeedSources : worker.symbolicSeedSources = args.symbolicSeedSources
  cmplogLog : worker.cmplogLog = args.cmplogLog
  grammarFile : worker.grammarFile = args.grammarFile
  structuredInputs : worker.structuredInputs = args.structuredInputs
  maxLen : worker.maxLen = args.maxLen
  lenControl : worker.lenControl = args.lenControl
  timeout : worker.timeout = args.timeout
  rssLimitMb : worker.rssLimitMb = args.rssLimitMb
  forkServer : worker.forkServer = args.forkServer
  noForkServer : worker.noForkServer = args.noForkServer
  time : worker.time = args.time
  iterations : worker.iterations = args.iterations

/-- The paths that are passed on as text. -/
def FuzzArgs.paths (args : FuzzArgs) : List Path :=
  args.sandboxTool.toList ++ args.seedFiles ++ args.symbolicSeedSources ++ args.cmplogLog.toList

/-- The arguments that a worker's command line can carry. -/
structure Passable (args : FuzzArgs) : Prop where
  workDir : args.workDir.head? ≠ some 45
  harness : ¬ HyphenLed (toUtf8 args.harness)
  seedInputs : ∀ seed ∈ args.seedInputs, ¬ HyphenLed (toUtf8 seed)
  paths : ∀ path ∈ args.paths, (∃ text, path = toUtf8 text) ∧ path ≠ [] ∧ ¬ HyphenLed path
  durations : ∀ d ∈ args.time.toList ++ args.timeout.toList, d.secs ≠ 0 ∧ d.nanos = 0
  grammarFile : args.grammarFile = none
  forkServer : args.forkServer = false
  noForkServer : args.noForkServer = false

/-- The shared queue's files that it can carry. -/
def PassableFiles (sharedSeedFiles : List Path) : Prop :=
  ∀ path ∈ sharedSeedFiles, path ≠ [] ∧ ¬ HyphenLed path

/-! ## Text -/

theorem lossyBytes_toUtf8 (text : String) : lossyBytes (toUtf8 text) = toUtf8 text := by
  have hkept : KeptUpTo (max (lossyBytes (toUtf8 text)).length (toUtf8 text).length)
      (toUtf8 text) := by
    have hchars : encodeChars text.toList = toUtf8 text := by
      rw [encodeChars, ← toUtf8_ofList, String.ofList_toList]
    refine ⟨text.toList, ?_, Or.inl ?_⟩
    · exact ⟨[], by rw [hchars, List.append_nil]⟩
    · rw [hchars]
      exact Nat.min_le_left _ _
  have htake := (take_lossyBytes_iff _ _).mpr hkept
  rwa [List.take_of_length_le (Nat.le_max_left _ _),
    List.take_of_length_le (Nat.le_max_right _ _)] at htake

/-- Exactly text is displayed as it is. -/
theorem display_eq_iff (path : Path) : display path = path ↔ ∃ text, path = toUtf8 text := by
  constructor
  · intro h
    exact ⟨_, h.symm⟩
  · intro h
    obtain ⟨text, rfl⟩ := h
    exact lossyBytes_toUtf8 text

theorem map_display_eq_iff (paths : List Path) :
    paths.map display = paths ↔ ∀ path ∈ paths, ∃ text, path = toUtf8 text := by
  induction paths with
  | nil => simp
  | cons path paths ih =>
      rw [List.map_cons, List.cons.injEq, ih, display_eq_iff, List.forall_mem_cons]

theorem option_display_eq_iff (path : Option Path) :
    path.map display = path ↔ ∀ p ∈ path.toList, ∃ text, p = toUtf8 text := by
  cases path with
  | none => simp
  | some p => simp [display_eq_iff]

/-! ## What looks like an option -/

theorem not_hyphenLed_decimal (n : UInt64) : ¬ HyphenLed (decimal n) := by
  obtain ⟨c, hhead, hdigit⟩ := head_toString n.toNat ""
  rw [String.append_empty] at hhead
  exact not_hyphenLed_digit hhead hdigit

theorem not_hyphenLed_seconds (n : UInt64) : ¬ HyphenLed (seconds n) := by
  obtain ⟨c, hhead, hdigit⟩ := head_toString n.toNat "s"
  exact not_hyphenLed_digit hhead hdigit

theorem workerDir_hyphenLed (config : MulticoreConfig) (workerId : UInt32) :
    HyphenLed (workerDir config workerId) ↔ config.workDir.head? = some 45 := by
  obtain ⟨name, hname⟩ := workerDir_eq config workerId
  rw [hname]
  cases hdir : config.workDir with
  | nil => simp [BuildProbe.join, HyphenLed]
  | cons b rest =>
      rw [BuildProbe.join]
      split
      · simp [HyphenLed]
      · simp [HyphenLed]

section

variable (args : FuzzArgs) (sharedSeedFiles : List Path) (workerId : UInt32)

theorem plain_ite (c : Prop) [Decidable c] (occurrence : Occurrence) (h : occurrence.Plain) :
    ∀ other ∈ (if c then [occurrence] else []), other.Plain := by
  intro other hmem
  split at hmem
  · rw [List.mem_singleton.mp hmem]
    exact h
  · cases hmem

/-- The arguments of a worker are all plain exactly when no value of its own begins with a
hyphen. -/
theorem worker_plain_iff :
    (∀ occurrence ∈ workerOccurrences args sharedSeedFiles workerId, occurrence.Plain)
      ↔ ¬ HyphenLed (toUtf8 args.harness) ∧ (∀ path ∈ sharedSeedFiles, ¬ HyphenLed path)
        ∧ (∀ seed ∈ args.seedInputs, ¬ HyphenLed (toUtf8 seed))
        ∧ ∀ path ∈ args.paths, ¬ HyphenLed (display path) := by
  have hengine : ¬ HyphenLed (toUtf8 (engineArgName args.engine)) := by
    cases args.engine <;> decide
  have hmode : ¬ HyphenLed (toUtf8 args.mode.asStr) := by
    cases args.mode <;> decide
  have hsandbox : ¬ HyphenLed (toUtf8 (sandboxArgName args.sandbox)) := by
    cases args.sandbox <;> decide
  have hstructured : ¬ HyphenLed (toUtf8 (structuredInputModeArgName args.structuredInputs)) := by
    cases args.structuredInputs <;> decide
  have htime := plain_ite ((!(args.time.getD ⟨0, 0⟩).isZero) = true)
    (.value "time" (seconds (args.time.getD ⟨0, 0⟩).secs))
    (not_hyphenLed_seconds _)
  have hstrict := plain_ite (args.sandboxStrict = true) (.flag "sandbox-strict")
    trivial
  have hrss := plain_ite (args.rssLimitMb > 0)
    (.value "rss-limit-mb" (decimal args.rssLimitMb)) (not_hyphenLed_decimal _)
  simp only [workerOccurrences, FuzzArgs.paths, List.forall_mem_append, List.forall_mem_cons,
    List.forall_mem_map]
  constructor
  · intro h
    simp only [Occurrence.Plain] at h
    tauto
  · intro h
    simp only [Occurrence.Plain, not_hyphenLed_decimal, not_hyphenLed_seconds]
    simp only [List.not_mem_nil, not_false_iff, implies_true, and_true, true_and]
    tauto

theorem arguments_plain_iff :
    (∀ argument ∈ arguments (workerDir (multicoreConfig args) workerId)
        (workerOccurrences args sharedSeedFiles workerId), ¬ HyphenLed argument)
      ↔ args.workDir.head? ≠ some 45 ∧ ¬ HyphenLed (toUtf8 args.harness)
        ∧ (∀ path ∈ sharedSeedFiles, ¬ HyphenLed path)
        ∧ (∀ seed ∈ args.seedInputs, ¬ HyphenLed (toUtf8 seed))
        ∧ ∀ path ∈ args.paths, ¬ HyphenLed (display path) := by
  rw [arguments_plain, workerDir_hyphenLed, worker_plain_iff]
  rfl

/-! ## What is read -/

theorem allValues_path {found : Matches} {name : String} (h : [] ∈ found.values name) :
    allValues found name pathValue = none := by
  rw [allValues, mapM_pathValue, if_pos h]

theorem optionalValue_path {found : Matches} {name : String}
    (h : (found.values name).head? = some []) : optionalValue found name pathValue = none := by
  obtain ⟨rest, hvalues⟩ := List.head?_eq_some_iff.mp h
  simp [optionalValue, hvalues, pathValue]

/-- The line is read field by field: with one of its paths it fails as a whole. -/
theorem fromArgMatches_eq_none {found : Matches}
    (h : allValues found "seed-file" pathValue = none
      ∨ allValues found "symbolic-seed-source" pathValue = none
      ∨ optionalValue found "sandbox-tool" pathValue = none
      ∨ optionalValue found "cmplog-log" pathValue = none) : fromArgMatches found = none := by
  rcases h with h | h | h | h <;>
    simp only [fromArgMatches, h, Option.bind_eq_bind, Option.bind_none, Option.bind_fun_none]

/-- A line that is read has paths that are not empty. -/
theorem fromArgMatches_paths {found : Matches} {worker : FuzzArgs}
    (h : fromArgMatches found = some worker) :
    [] ∉ found.values "seed-file" ∧ [] ∉ found.values "symbolic-seed-source"
      ∧ (found.values "sandbox-tool").head? ≠ some []
      ∧ (found.values "cmplog-log").head? ≠ some [] := by
  have hread : fromArgMatches found ≠ none := by simp [h]
  refine ⟨fun hempty => hread ?_, fun hempty => hread ?_, fun hempty => hread ?_,
    fun hempty => hread ?_⟩
  · exact fromArgMatches_eq_none (.inl (allValues_path hempty))
  · exact fromArgMatches_eq_none (.inr (.inl (allValues_path hempty)))
  · exact fromArgMatches_eq_none (.inr (.inr (.inl (optionalValue_path hempty))))
  · exact fromArgMatches_eq_none (.inr (.inr (.inr (optionalValue_path hempty))))

theorem worker_pathValues :
    valuesOf "seed-file" (workerOccurrences args sharedSeedFiles workerId)
        = sharedSeedFiles ++ args.seedFiles.map display
      ∧ valuesOf "symbolic-seed-source" (workerOccurrences args sharedSeedFiles workerId)
        = args.symbolicSeedSources.map display
      ∧ valuesOf "sandbox-tool" (workerOccurrences args sharedSeedFiles workerId)
        = args.sandboxTool.toList.map display
      ∧ valuesOf "cmplog-log" (workerOccurrences args sharedSeedFiles workerId)
        = args.cmplogLog.toList.map display := by
  simp only [workerOccurrences, valuesOf_append, valuesOf_cons, valuesOf_nil, valuesOf_map,
    valuesOf_map_self, valuesOf_ite, valuesOf_flag]
  and_intros <;> simp

/-- A worker that starts has been given no empty path. -/
theorem worker_nonempty {worker : FuzzArgs}
    (h : fromArgMatches (matchesOf (workerDir (multicoreConfig args) workerId)
        (workerOccurrences args sharedSeedFiles workerId)) = some worker) :
    [] ∉ sharedSeedFiles ∧ ∀ path ∈ args.paths, path ≠ [] := by
  obtain ⟨hseedFiles, hsources, htool, hcmplog⟩ := fromArgMatches_paths h
  obtain ⟨hseedFilesEq, hsourcesEq, htoolEq, hcmplogEq⟩ :=
    worker_pathValues args sharedSeedFiles workerId
  rw [matchesOf_values, hseedFilesEq, List.mem_append, not_or] at hseedFiles
  rw [matchesOf_values, hsourcesEq] at hsources
  rw [matchesOf_values, htoolEq] at htool
  rw [matchesOf_values, hcmplogEq] at hcmplog
  have hempty : display [] = [] := lossyBytes_nil
  refine ⟨hseedFiles.1, ?_⟩
  rintro path hmem rfl
  simp only [FuzzArgs.paths, List.mem_append, Option.mem_toList] at hmem
  rcases hmem with ((hmem | hmem) | hmem) | hmem
  · simp [hmem, hempty] at htool
  · exact hseedFiles.2 (List.mem_map.mpr ⟨[], hmem, hempty⟩)
  · exact hsources (List.mem_map.mpr ⟨[], hmem, hempty⟩)
  · simp [hmem, hempty] at hcmplog

end

/-! ## Durations -/

theorem time_iff (time : Option Duration) :
    (if (time.getD ⟨0, 0⟩).isZero then none else some ⟨(time.getD ⟨0, 0⟩).secs, 0⟩) = time
      ↔ ∀ d ∈ time.toList, d.secs ≠ 0 ∧ d.nanos = 0 := by
  cases time with
  | none => simp [Duration.isZero]
  | some d =>
      obtain ⟨secs, nanos⟩ := d
      simp only [Option.getD_some, Option.toList_some, List.forall_mem_singleton]
      by_cases hsecs : secs = 0
      · by_cases hnanos : nanos = 0
        · simp [Duration.isZero, hsecs, hnanos]
        · simp [Duration.isZero, hsecs, hnanos, Ne.symm hnanos]
      · simp [Duration.isZero, hsecs, eq_comm]

theorem timeout_iff (timeout : Option Duration) :
    (timeout.map fun d => (⟨max d.secs 1, 0⟩ : Duration)) = timeout
      ↔ ∀ d ∈ timeout.toList, d.secs ≠ 0 ∧ d.nanos = 0 := by
  cases timeout with
  | none => simp
  | some d =>
      obtain ⟨secs, nanos⟩ := d
      have hmax : max secs 1 = secs ↔ secs ≠ 0 := by
        change (if secs ≤ 1 then 1 else secs) = secs ↔ secs ≠ 0
        have hone : (1 : UInt64).toNat = 1 := rfl
        have hzero : (0 : UInt64).toNat = 0 := rfl
        rw [Ne, ← UInt64.toNat_inj, ← UInt64.toNat_inj]
        split
        · next hle =>
            rw [UInt64.le_iff_toNat_le] at hle
            omega
        · next hgt =>
            rw [UInt64.le_iff_toNat_le] at hgt
            omega
      simp [hmax, eq_comm (a := (0 : Fin 1000000000))]

/-! ## The campaign's settings -/

section

variable {clap : Command → List (List UInt8) → Option Matches} (hclap : Reads clap)
  (args : FuzzArgs) (sharedSeedFiles : List Path) (workerId : UInt32)
include hclap

/-- What a worker makes of its command line. -/
theorem parseFuzzArgs_worker :
    parseFuzzArgs clap (workerArgv (multicoreConfig args) sharedSeedFiles workerId)
      = if ∀ argument ∈ arguments (workerDir (multicoreConfig args) workerId)
          (workerOccurrences args sharedSeedFiles workerId), ¬ HyphenLed argument
        then fromArgMatches (matchesOf (workerDir (multicoreConfig args) workerId)
          (workerOccurrences args sharedSeedFiles workerId))
        else none := by
  have hadmits := workerOccurrences_admitted args sharedSeedFiles workerId
  rw [parseFuzzArgs, workerArgv_eq]
  split
  · next hplain =>
      rw [hclap.accepts _ _ _ hadmits hplain]
      rfl
  · next hled =>
      push Not at hled
      rw [hclap.refuses _ _ _ hadmits hled]
      rfl

/-- A worker's settings are those of the campaign, with some files in front of
its seed files, exactly if the command line can carry them and the files are
those of the shared queue. -/
theorem worker_sameSettings_iff (front : List Path) :
    (∃ worker, parseFuzzArgs clap (workerArgv (multicoreConfig args) sharedSeedFiles workerId)
        = some worker
      ∧ SameSettings worker { args with seedFiles := front ++ args.seedFiles })
    ↔ Passable args ∧ PassableFiles sharedSeedFiles ∧ front = sharedSeedFiles := by
  rw [parseFuzzArgs_worker hclap]
  constructor
  · intro h
    obtain ⟨worker, hparse, hsame⟩ := h
    split at hparse
    · next hplain =>
        obtain ⟨hdir, hharness, hshared, hseeds, hpaths⟩ :=
          (arguments_plain_iff args sharedSeedFiles workerId).mp hplain
        obtain ⟨hsharedNonempty, hnonempty⟩ := worker_nonempty args sharedSeedFiles workerId hparse
        rw [worker_fromArgMatches args sharedSeedFiles workerId hsharedNonempty hnonempty] at hparse
        cases hparse
        have hlists := hsame.seedFiles
        obtain ⟨hfront, hseedFiles⟩ := List.append_inj' hlists (List.length_map display)
        have htext : ∀ path ∈ args.paths, ∃ text, path = toUtf8 text := by
          intro path hmem
          simp only [FuzzArgs.paths, List.mem_append] at hmem
          rcases hmem with ((hmem | hmem) | hmem) | hmem
          · exact (option_display_eq_iff _).mp hsame.sandboxTool path hmem
          · exact (map_display_eq_iff _).mp hseedFiles path hmem
          · exact (map_display_eq_iff _).mp hsame.symbolicSeedSources path hmem
          · exact (option_display_eq_iff _).mp hsame.cmplogLog path hmem
        refine ⟨⟨hdir, hharness, hseeds, ?_, ?_, hsame.grammarFile.symm, hsame.forkServer.symm,
          hsame.noForkServer.symm⟩, fun path hmem => ⟨?_, hshared path hmem⟩, hfront.symm⟩
        · intro path hmem
          have hled := hpaths path hmem
          rw [(display_eq_iff path).mpr (htext path hmem)] at hled
          exact ⟨htext path hmem, hnonempty path hmem, hled⟩
        · rw [List.forall_mem_append]
          exact ⟨(time_iff args.time).mp hsame.time, (timeout_iff args.timeout).mp hsame.timeout⟩
        · rintro rfl
          exact hsharedNonempty hmem
    · cases hparse
  · intro h
    obtain ⟨hargs, hfiles, rfl⟩ := h
    have hdisplay : ∀ path ∈ args.paths, display path = path := fun path hmem =>
      (display_eq_iff path).mpr (hargs.paths path hmem).1
    have hplain := (arguments_plain_iff args front workerId).mpr
      ⟨hargs.workDir, hargs.harness, fun path hmem => (hfiles path hmem).2, hargs.seedInputs,
        fun path hmem => by rw [hdisplay path hmem]; exact (hargs.paths path hmem).2.2⟩
    rw [if_pos hplain, worker_fromArgMatches args front workerId
      (fun hmem => (hfiles [] hmem).1 rfl) fun path hmem => (hargs.paths path hmem).2.1]
    have hdurations := List.forall_mem_append.mp hargs.durations
    have htext : ∀ path ∈ args.paths, ∃ text, path = toUtf8 text := fun path hmem =>
      (hargs.paths path hmem).1
    simp only [FuzzArgs.paths, List.forall_mem_append] at htext
    obtain ⟨⟨⟨htool, hseedFiles⟩, hsources⟩, hcmplog⟩ := htext
    refine ⟨_, rfl, rfl, rfl, rfl, rfl, ?_, rfl, rfl, ?_, ?_, ?_, hargs.grammarFile.symm, rfl, rfl,
      rfl, ?_, rfl, hargs.forkServer.symm, hargs.noForkServer.symm, ?_, rfl⟩
    · exact (option_display_eq_iff _).mpr htool
    · exact congrArg (front ++ ·) ((map_display_eq_iff _).mpr hseedFiles)
    · exact (map_display_eq_iff _).mpr hsources
    · exact (option_display_eq_iff _).mpr hcmplog
    · exact (timeout_iff _).mpr hdurations.2
    · exact (time_iff _).mpr hdurations.1

/-- Which campaigns have workers with their settings: with the campaign's own
seed files only, and with the shared queue's files in front of them. -/
theorem workers_keep_settings_iff :
    ((∃ worker, parseFuzzArgs clap (workerArgv (multicoreConfig args) sharedSeedFiles workerId)
          = some worker
        ∧ SameSettings worker args)
      ↔ Passable args ∧ PassableFiles sharedSeedFiles ∧ sharedSeedFiles = [])
    ∧ ((∃ worker, parseFuzzArgs clap (workerArgv (multicoreConfig args) sharedSeedFiles workerId)
          = some worker
        ∧ SameSettings worker { args with seedFiles := sharedSeedFiles ++ args.seedFiles })
      ↔ Passable args ∧ PassableFiles sharedSeedFiles) := by
  constructor
  · rw [← eq_comm (a := ([] : List Path))]
    exact worker_sameSettings_iff hclap args sharedSeedFiles workerId []
  · rw [worker_sameSettings_iff hclap args sharedSeedFiles workerId sharedSeedFiles]
    simp

end

/-- Two workers, and else what a command line leaves at its default. -/
def twoWorkers : FuzzArgs where
  workDir := toUtf8 "work"
  harness := "parse"
  engine := .builtin
  workers := some (.fixed 2)
  iterations := some 1000
  time := some ⟨30, 0⟩
  maxLen := 4096
  lenControl := 100
  timeout := none
  printFinalStats := false
  rssLimitMb := 0
  forkServer := false
  noForkServer := false
  seedInputs := ["seed"]
  seedFiles := []
  sanitizers := []
  symbolicSeedSources := []
  rngSeed := 0x475646555a5a
  sandbox := .auto
  mode := .reporting
  sandboxTool := none
  sandboxStrict := false
  cmplogLog := none
  grammarFile := none
  structuredInputs := .auto
  govfuzzBin := none

theorem twoWorkers_kept :
    ∃ worker, parseFuzzArgs read (workerArgv (multicoreConfig twoWorkers) [] 0) = some worker
      ∧ SameSettings worker twoWorkers := by
  apply (workers_keep_settings_iff read_reads twoWorkers [] 0).1.mpr
  refine ⟨⟨by decide, by decide, by decide, by simp [FuzzArgs.paths, twoWorkers], by decide,
      rfl, rfl,
    rfl⟩, ?_, rfl⟩
  intro path hmem
  cases hmem

/-- The workers of a campaign with a grammar have none. -/
theorem grammar_dropped :
    multicoreRequested { twoWorkers with grammarFile := some (toUtf8 "calc.json") } = true
    ∧ ¬ ∃ worker, parseFuzzArgs read (workerArgv
          (multicoreConfig { twoWorkers with grammarFile := some (toUtf8 "calc.json") }) [] 0)
        = some worker
      ∧ SameSettings worker { twoWorkers with grammarFile := some (toUtf8 "calc.json") } := by
  refine ⟨by decide, ?_⟩
  intro hkept
  have hpassable := (worker_sameSettings_iff read_reads _ [] 0 []).mp hkept
  exact nomatch hpassable.1.grammarFile

end GovFuzz.Multicore
