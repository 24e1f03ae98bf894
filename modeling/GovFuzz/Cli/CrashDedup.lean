import GovFuzz.Corpus.Cluster
import GovFuzz.Lib.Json
import GovFuzz.Lib.KeyedFold

/-!
# Cli — one finding for each crash cluster

The sanitizer branch of `run_builtin_with_progress` of
`crates/cli/src/fuzz.rs`.  A cluster is marked as seen before its crash is
replayed, so a first sighting that does not reproduce hides all the others;
`reportsOnce_iff` says that this, and findings on disk that are not read
back, are all that keeps a run from reporting each reproducible cluster
once.
-/

namespace GovFuzz.Cli

open GovFuzz.Lib GovFuzz.Corpus

/-! ## Findings on disk -/

/-- What a finding is known by. -/
inductive DedupKey where
  | cluster (key : String)
  | oracle (key : String)
  deriving DecidableEq, Repr

/-- The keys that a record gives, if it belongs to the harness. -/
def recordKey (harnessId : String) (record : Json) : Option DedupKey :=
  if (record.get "harness_id").bind Json.asStr ≠ some harnessId then none
  else
    let ruleId := (record.get "rule_id").bind Json.asStr
    let oracle := do
      let ruleId ← ruleId
      let oracle ← record.get "oracle"
      let name ← (oracle.get "name").bind Json.asStr
      let api ← (oracle.get "api").bind Json.asStr
      some (DedupKey.oracle (ruleId ++ "|" ++ name ++ "|" ++ api))
    match oracle with
    | some key => some key
    | none =>
        let fallback := ((record.get "cluster_fallback").bind Json.asBool).getD false
        if fallback then ruleId.map fun ruleId => .cluster ("rule:" ++ ruleId)
        else ((record.get "cluster_key_full").bind Json.asStr).map .cluster

/-- The content of a `finding.json`, if it is there. -/
abbrev FindingFile := Option (List UInt8)

/-- The key recorded in a finding's file. -/
def FindingFile.key (harnessId : String) (file : FindingFile) : Option DedupKey :=
  file.bind fun bytes => (Json.fromSlice bytes).bind (recordKey harnessId)

/-- The bytes the file counts for. -/
def FindingFile.size (file : FindingFile) : Nat := file.elim 0 List.length

/-- Stops once there are as many keys as the limit allows, of both kinds. -/
def existingFindingDedupKeys (recordLimit dedupLimit : Nat) (harnessId : String) :
    List FindingFile → List String × List String → List String × List String
  | [], keys => keys
  | file :: files, (clusters, oracles) =>
      if dedupLimit ≤ clusters.length + oracles.length then (clusters, oracles)
      else if recordLimit < file.size then
        existingFindingDedupKeys recordLimit dedupLimit harnessId files (clusters, oracles)
      else
        match file.key harnessId with
        | none =>
            existingFindingDedupKeys recordLimit dedupLimit harnessId files (clusters, oracles)
        | some (.oracle key) =>
            existingFindingDedupKeys recordLimit dedupLimit harnessId files
              (clusters, oracles ++ [key])
        | some (.cluster key) =>
            existingFindingDedupKeys recordLimit dedupLimit harnessId files
              (clusters ++ [key], oracles)

/-! ## The sanitizer branch -/

/-- The cluster of a report, or its rule where there are no frames. -/
def sanitizerKey (sha256 : List UInt8 → Signature) (report : SanitizerReport) : String :=
  let cluster := clusterForSanitizer sha256 report
  if cluster.fallback then "rule:" ++ report.ruleId else cluster.full

/-- The key that stands for all beyond the limit. -/
def memoryCapKey : String := "__govfuzz_dedup_memory_cap__"

/-- The first finding of its cluster, while there is room. -/
def firstOfSanitizerCluster (sha256 : List UInt8 → Signature) (limit : Nat)
    (seen : Std.TreeMap String Nat) (report : SanitizerReport) : Bool × Std.TreeMap String Nat :=
  let key := sanitizerKey sha256 report
  match seen[key]? with
  | some count => (false, seen.insert key (min (count + 1) (2 ^ 64 - 1)))
  | none =>
      if limit ≤ seen.size then
        if seen.size = limit then (false, seen.insert memoryCapKey 1) else (false, seen)
      else (true, seen.insert key 1)

/-- What a replay in a fresh process came to: an error, or a run with or
without a report. -/
abbrev Rerun := Option (Option SanitizerReport)

/-- The second run breaks the same rule. -/
def sanitizerCrashReproduces (report : SanitizerReport) (rerun : Rerun) : Bool :=
  match rerun with
  | some (some fresh) => fresh.ruleId = report.ruleId
  | _ => false

/-- One execution: its input and report, and what a replay of it gives. -/
structure Execution where
  input : List UInt8
  sanitizer : Option SanitizerReport
  rerun : Rerun

/-- A finding that was written. -/
structure Finding where
  input : List UInt8
  report : SanitizerReport

/-- The clusters seen and the findings written. -/
structure BranchState where
  seen : Std.TreeMap String Nat
  findings : List Finding
  scaffoldingLeakDrops : Nat
  driverGlueDrops : Nat
  nonReproducible : Nat

section Run

variable (sha256 : List UInt8 → Signature) (limit : Nat) (cLibfuzzerHarness : Bool)

/-- The sanitizer's part of one execution. -/
def sanitizerBranch (s : BranchState) (run : Execution) : BranchState :=
  match run.sanitizer with
  | none => s
  | some report =>
      if isHarnessScaffoldingLeak report then
        { s with scaffoldingLeakDrops := s.scaffoldingLeakDrops + 1 }
      else if cLibfuzzerHarness && isDriverGlueCrash report then
        { s with driverGlueDrops := s.driverGlueDrops + 1 }
      else
        let (first, seen) := firstOfSanitizerCluster sha256 limit s.seen report
        if first then
          if !cLibfuzzerHarness || sanitizerCrashReproduces report run.rerun then
            { s with seen := seen, findings := s.findings ++ [⟨run.input, report⟩] }
          else { s with seen := seen, nonReproducible := s.nonReproducible + 1 }
        else { s with seen := seen }

/-- The keys of the findings on disk. -/
def seededSeen (recordLimit : Nat) (harnessId : String) (disk : List FindingFile) :
    Std.TreeMap String Nat :=
  (existingFindingDedupKeys recordLimit limit harnessId disk ([], [])).1.foldl
    (fun seen key => seen.insert key 1) ∅

/-- The executions in order. -/
def runBranch (recordLimit : Nat) (harnessId : String) (disk : List FindingFile)
    (executions : List Execution) : BranchState :=
  executions.foldl (sanitizerBranch sha256 limit cLibfuzzerHarness)
    ⟨seededSeen limit recordLimit harnessId disk, [], 0, 0, 0⟩

end Run

/-! ## What a run has to report -/

/-- A report of a C or C++ harness that is not suppressed, and whether it
reproduces. -/
def sighting (sha256 : List UInt8 → Signature) (run : Execution) : Option (String × Bool) :=
  run.sanitizer.bind fun report =>
    if isHarnessScaffoldingLeak report || isDriverGlueCrash report then none
    else some (sanitizerKey sha256 report, sanitizerCrashReproduces report run.rerun)

/-- The clusters of the executions and whether they reproduce. -/
def sightings (sha256 : List UInt8 → Signature) (executions : List Execution) :
    List (String × Bool) :=
  executions.filterMap (sighting sha256)

/-- The clusters of the findings on disk. -/
def onDisk (harnessId : String) (disk : List FindingFile) : List String :=
  disk.filterMap fun file =>
    match file.key harnessId with
    | some (.cluster key) => some key
    | _ => none

/-- The findings of a cluster. -/
def reported (sha256 : List UInt8 → Signature) (s : BranchState) (key : String) : Nat :=
  s.findings.countP fun finding => sanitizerKey sha256 finding.report = key

/-- A file that gives a key when it is read. -/
def FindingFile.keyed (recordLimit : Nat) (harnessId : String) (file : FindingFile) : Bool :=
  file.size ≤ recordLimit ∧ (file.key harnessId).isSome

/-- The file of a key, with room for the keys before it. -/
def ReadBehind (recordLimit limit : Nat) (harnessId key : String) (taken : Nat)
    (before : List FindingFile) (file : FindingFile) : Prop :=
  file.key harnessId = some (.cluster key) ∧ file.size ≤ recordLimit
    ∧ taken + (before.filter (FindingFile.keyed recordLimit harnessId)).length < limit

section Spec

variable (sha256 : List UInt8 → Signature) (limit recordLimit : Nat) (harnessId : String)
  (disk : List FindingFile) (executions : List Execution)

/-- One finding for each key that is not on disk and has a crash that
reproduces, and none for any other. -/
def ReportsOnce : Prop :=
  ∀ key, reported sha256 (runBranch sha256 limit true recordLimit harnessId disk executions) key
    = if key ∉ onDisk harnessId disk ∧ (key, true) ∈ sightings sha256 executions then 1 else 0

/-- The finding of a key is read back: its record is not too large, and the
keys of the records before it do not exhaust the limit. -/
def ReadBack (key : String) : Prop :=
  ∃ before file after, disk = before ++ file :: after
    ∧ ReadBehind recordLimit limit harnessId key 0 before file

/-- The first sighting of a key decides for all. -/
def FirstDecides : Prop :=
  ∀ key first, (KeyedFold.seen key (sightings sha256 executions)).head? = some first →
    (key ∉ onDisk harnessId disk → (key, true) ∈ sightings sha256 executions → first = true)
      ∧ (key ∈ onDisk harnessId disk → ReadBack limit recordLimit harnessId disk key
        ∨ first = false)

end Spec

/-! ## Reading the findings back -/

theorem exists_split_cons {α : Type} {P : List α → α → Prop} {x : α} {xs : List α} :
    (∃ before a after, x :: xs = before ++ a :: after ∧ P before a)
      ↔ P [] x ∨ ∃ before a after, xs = before ++ a :: after ∧ P (x :: before) a := by
  constructor
  · rintro ⟨before, a, after, heq, hp⟩
    cases before with
    | nil =>
        cases heq
        exact .inl hp
    | cons b before =>
        cases heq
        exact .inr ⟨before, a, after, rfl, hp⟩
  · rintro (hp | ⟨before, a, after, rfl, hp⟩)
    · exact ⟨[], x, xs, rfl, hp⟩
    · exact ⟨x :: before, a, after, rfl, hp⟩

theorem readBehind_cons {recordLimit limit taken : Nat} {harnessId key : String}
    {file other : FindingFile} {before : List FindingFile} :
    ReadBehind recordLimit limit harnessId key taken (file :: before) other
      ↔ ReadBehind recordLimit limit harnessId key
          (taken + if file.keyed recordLimit harnessId then 1 else 0) before other := by
  unfold ReadBehind
  rw [List.filter_cons]
  split
  · rw [List.length_cons, Nat.add_assoc, Nat.add_comm 1]
  · rw [Nat.add_zero]

/-- A key is known when a cluster has it or when a finding's file that is read, with room
for its key, bears it. -/
theorem mem_existingFindingDedupKeys {recordLimit limit : Nat} {harnessId key : String}
    (files : List FindingFile) (clusters oracles : List String) :
    key ∈ (existingFindingDedupKeys recordLimit limit harnessId files (clusters, oracles)).1
      ↔ key ∈ clusters ∨ ∃ before file after, files = before ++ file :: after
        ∧ ReadBehind recordLimit limit harnessId key (clusters.length + oracles.length) before
          file := by
  induction files generalizing clusters oracles with
  | nil => simp [existingFindingDedupKeys]
  | cons file files ih =>
      rw [exists_split_cons, existingFindingDedupKeys]
      simp only [readBehind_cons]
      by_cases hfull : limit ≤ clusters.length + oracles.length
      · -- nothing is read any more
        have hno : ∀ taken, clusters.length + oracles.length ≤ taken → ∀ before other,
            ¬ ReadBehind recordLimit limit harnessId key taken before other := by
          rintro taken htaken before other ⟨-, -, hlt⟩
          omega
        rw [if_pos hfull]
        constructor
        · exact .inl
        · rintro (hmem | hhead | ⟨before, other, after, -, hbehind⟩)
          · exact hmem
          · exact absurd hhead (hno _ (Nat.le_refl _) _ _)
          · exact absurd hbehind (hno _ (Nat.le_add_right _ _) _ _)
      · rw [if_neg hfull]
        -- a file over the size is not read and takes no room, like one without a key
        by_cases hsize : recordLimit < file.size
        · have hkeyed : file.keyed recordLimit harnessId = false := by
            simp [FindingFile.keyed, hsize]
          have hhead : ¬ ReadBehind recordLimit limit harnessId key
              (clusters.length + oracles.length) [] file := by
            rintro ⟨-, hle, -⟩
            omega
          rw [if_pos hsize, ih, hkeyed]
          simp [hhead]
        · rw [if_neg hsize]
          cases hkey : file.key harnessId with
          | none =>
              have hkeyed : file.keyed recordLimit harnessId = false := by
                simp [FindingFile.keyed, hkey]
              have hhead : ¬ ReadBehind recordLimit limit harnessId key
                  (clusters.length + oracles.length) [] file := by
                rintro ⟨hsome, -, -⟩
                rw [hkey] at hsome
                cases hsome
              simp only [ih, hkeyed]
              simp [hhead]
          | some found =>
              have hkeyed : file.keyed recordLimit harnessId = true := by
                simp [FindingFile.keyed, hkey, Nat.le_of_not_lt hsize]
              cases found with
              | oracle name =>
                  -- the key of an oracle takes room and is no cluster
                  have hhead : ¬ ReadBehind recordLimit limit harnessId key
                      (clusters.length + oracles.length) [] file := by
                    rintro ⟨hsome, -, -⟩
                    rw [hkey] at hsome
                    cases hsome
                  simp only [ih, hkeyed, if_true, List.length_append, List.length_singleton,
                    ← Nat.add_assoc]
                  simp [hhead]
              | cluster name =>
                  have hhead : ReadBehind recordLimit limit harnessId key
                      (clusters.length + oracles.length) [] file ↔ name = key := by
                    simp only [ReadBehind, hkey, Option.some.injEq, DedupKey.cluster.injEq,
                      List.filter_nil, List.length_nil]
                    constructor
                    · exact fun h => h.1
                    · exact fun h => ⟨h, by omega, by omega⟩
                  simp only [ih, hkeyed, if_true, List.length_append, List.length_singleton,
                    List.mem_append, List.mem_singleton, hhead, or_assoc,
                    Nat.add_right_comm clusters.length 1]
                  rw [eq_comm]

theorem mem_seededSeen {limit recordLimit : Nat} {harnessId : String} {disk : List FindingFile}
    {key : String} :
    key ∈ seededSeen limit recordLimit harnessId disk
      ↔ ReadBack limit recordLimit harnessId disk key := by
  have hfold : ∀ (keys : List String) (seen : Std.TreeMap String Nat),
      key ∈ keys.foldl (fun seen key => seen.insert key 1) seen ↔ key ∈ seen ∨ key ∈ keys := by
    intro keys
    induction keys with
    | nil => simp
    | cons first keys ih =>
        intro seen
        rw [List.foldl_cons, ih, Std.TreeMap.mem_insert, List.mem_cons,
          Std.LawfulEqOrd.compare_eq_iff_eq, eq_comm, or_assoc]
        exact or_left_comm
  rw [seededSeen, hfold, mem_existingFindingDedupKeys]
  simp [ReadBack]

theorem mem_onDisk {harnessId key : String} {disk : List FindingFile} :
    key ∈ onDisk harnessId disk ↔ ∃ file ∈ disk, file.key harnessId = some (.cluster key) := by
  simp only [onDisk, List.mem_filterMap]
  refine exists_congr fun file => and_congr_right fun _ => ?_
  cases file.key harnessId with
  | none => simp
  | some found => cases found <;> simp

theorem ReadBack.onDisk {limit recordLimit : Nat} {harnessId key : String}
    {disk : List FindingFile} (h : ReadBack limit recordLimit harnessId disk key) :
    key ∈ Cli.onDisk harnessId disk := by
  obtain ⟨before, file, after, rfl, hkey, -, -⟩ := h
  exact mem_onDisk.mpr ⟨file, by simp, hkey⟩

/-! ## One execution -/

variable {sha256 : List UInt8 → Signature} {limit : Nat}

/-- What an execution does: nothing without a sighting or with one of a known
key, and otherwise it marks the key and reports it if the crash reproduces. -/
theorem sanitizerBranch_cases (s : BranchState) (run : Execution) :
    (sighting sha256 run = none
        ∧ (sanitizerBranch sha256 limit true s run).seen = s.seen
        ∧ (sanitizerBranch sha256 limit true s run).findings = s.findings)
      ∨ ∃ key reproduces, sighting sha256 run = some (key, reproduces)
        ∧ (key ∈ s.seen →
          (∀ k, k ∈ (sanitizerBranch sha256 limit true s run).seen ↔ k ∈ s.seen)
            ∧ (sanitizerBranch sha256 limit true s run).findings = s.findings)
        ∧ (key ∉ s.seen → s.seen.size < limit →
          (sanitizerBranch sha256 limit true s run).seen = s.seen.insert key 1
            ∧ ∀ k, reported sha256 (sanitizerBranch sha256 limit true s run) k
              = reported sha256 s k + if k = key ∧ reproduces then 1 else 0) := by
  unfold sighting sanitizerBranch
  cases run.sanitizer with
  | none => exact .inl ⟨rfl, rfl, rfl⟩
  | some report =>
      simp only [Option.bind_some, Bool.true_and, Bool.not_true, Bool.false_or]
      by_cases hleak : isHarnessScaffoldingLeak report
      · exact .inl (by simp [hleak])
      · by_cases hglue : isDriverGlueCrash report
        · exact .inl (by simp [hleak, hglue])
        · refine .inr ⟨sanitizerKey sha256 report, sanitizerCrashReproduces report run.rerun,
            by simp [hleak, hglue], ?_, ?_⟩
          · intro hseen
            obtain ⟨count, hcount⟩ : ∃ count, s.seen[sanitizerKey sha256 report]? = some count :=
              Option.isSome_iff_exists.mp (Std.TreeMap.isSome_getElem?_iff_mem.mpr hseen)
            simp only [hleak, hglue, firstOfSanitizerCluster, hcount, Bool.false_eq_true, if_false]
            refine ⟨fun k => ?_, trivial⟩
            rw [Std.TreeMap.mem_insert, Std.LawfulEqOrd.compare_eq_iff_eq]
            constructor
            · rintro (rfl | hk)
              · exact hseen
              · exact hk
            · exact .inr
          · intro hseen hroom
            have hnone : s.seen[sanitizerKey sha256 report]? = none :=
              Std.TreeMap.getElem?_eq_none hseen
            have hnot : ¬ limit ≤ s.seen.size := Nat.not_le.mpr hroom
            simp only [hleak, hglue, firstOfSanitizerCluster, hnone, hnot, Bool.false_eq_true,
              if_false, if_true]
            cases hreproduces : sanitizerCrashReproduces report run.rerun with
            | false => simp [reported]
            | true => simp [reported, List.countP_append, List.countP_cons, eq_comm]

/-! ## The whole run -/

theorem seen_sightings_cons (key : String) (run : Execution) (executions : List Execution) :
    KeyedFold.seen key (sightings sha256 (run :: executions))
      = (match sighting sha256 run with
          | some (k, reproduces) => if k = key then [reproduces] else []
          | none => []) ++ KeyedFold.seen key (sightings sha256 executions) := by
  unfold sightings KeyedFold.seen
  rw [List.filterMap_cons]
  cases sighting sha256 run with
  | none => rfl
  | some found =>
      simp only [List.filterMap_cons]
      by_cases hkey : found.1 = key
      · simp [hkey]
      · simp [hkey]

/-- Each key that is new gets what its first sighting gives. -/
theorem reported_run {keys : Finset String} (hlimit : keys.card ≤ limit)
    {executions : List Execution} {s : BranchState} (hseen : ∀ k ∈ s.seen, k ∈ keys)
    (hkeys : ∀ entry ∈ sightings sha256 executions, entry.1 ∈ keys) (key : String) :
    reported sha256 (executions.foldl (sanitizerBranch sha256 limit true) s) key
      = reported sha256 s key
        + if key ∉ s.seen
            ∧ (KeyedFold.seen key (sightings sha256 executions)).head? = some true
          then 1 else 0 := by
  induction executions generalizing s with
  | nil => simp [sightings, KeyedFold.seen]
  | cons run executions ih =>
      have hrest : ∀ entry ∈ sightings sha256 executions, entry.1 ∈ keys := by
        intro entry hentry
        refine hkeys entry ?_
        unfold sightings at hentry ⊢
        rw [List.filterMap_cons]
        split
        · exact hentry
        · exact List.mem_cons_of_mem _ hentry
      rw [List.foldl_cons]
      rcases @sanitizerBranch_cases sha256 limit s run with
        ⟨hnone, hsame, hfindings⟩ | ⟨k, reproduces, hsighting, hknown, hnew⟩
      · rw [ih (by rw [hsame]; exact hseen) hrest, seen_sightings_cons, hnone, hsame]
        simp [reported, hfindings]
      · by_cases hk : k ∈ s.seen
        · obtain ⟨hsame, hfindings⟩ := hknown hk
          rw [ih (fun k' hk' => hseen k' ((hsame k').mp hk')) hrest, seen_sightings_cons, hsighting]
          by_cases hkey : k = key
          · simp [reported, hfindings, hsame, ← hkey, hk]
          · simp [reported, hfindings, hsame, hkey]
        · have hmem : k ∈ keys := by
            refine hkeys (k, reproduces) ?_
            exact List.mem_filterMap.mpr ⟨run, List.mem_cons_self, hsighting⟩
          have hroom := lt_of_lt_of_le (KeyedFold.size_lt_card hseen hmem hk) hlimit
          obtain ⟨hinsert, hreported⟩ := hnew hk hroom
          have hseen' : ∀ k' ∈ (sanitizerBranch sha256 limit true s run).seen, k' ∈ keys := by
            intro k' hk'
            rw [hinsert, Std.TreeMap.mem_insert, Std.LawfulEqOrd.compare_eq_iff_eq] at hk'
            rcases hk' with rfl | hk'
            · exact hmem
            · exact hseen k' hk'
          rw [ih hseen' hrest, hreported, seen_sightings_cons, hsighting, hinsert]
          by_cases hkey : k = key
          · subst hkey
            cases reproduces <;> simp [hk]
          · have hkey' : ¬ key = k := fun h => hkey h.symm
            simp [hkey, hkey']

/-- The keys of a run and of the disk. -/
def clusterKeys (sha256 : List UInt8 → Signature) (harnessId : String) (disk : List FindingFile)
    (executions : List Execution) : Finset String :=
  (onDisk harnessId disk ++ (sightings sha256 executions).map Prod.fst).toFinset

theorem reported_runBranch {recordLimit : Nat} {harnessId : String} {disk : List FindingFile}
    {executions : List Execution}
    (hlimit : (clusterKeys sha256 harnessId disk executions).card ≤ limit) (key : String)
    [Decidable (ReadBack limit recordLimit harnessId disk key)] :
    reported sha256 (runBranch sha256 limit true recordLimit harnessId disk executions) key
      = if ¬ ReadBack limit recordLimit harnessId disk key
          ∧ (KeyedFold.seen key (sightings sha256 executions)).head? = some true then 1 else 0 := by
  have hseen : ∀ k ∈ seededSeen limit recordLimit harnessId disk,
      k ∈ clusterKeys sha256 harnessId disk executions := by
    intro k hk
    refine List.mem_toFinset.mpr (List.mem_append_left _ ?_)
    exact (mem_seededSeen.mp hk).onDisk
  have hkeys : ∀ entry ∈ sightings sha256 executions,
      entry.1 ∈ clusterKeys sha256 harnessId disk executions := by
    intro entry hentry
    exact List.mem_toFinset.mpr (List.mem_append_right _ (List.mem_map_of_mem hentry))
  have hrun := reported_run (s := ⟨seededSeen limit recordLimit harnessId disk, [], 0, 0, 0⟩)
    hlimit hseen hkeys key
  rw [runBranch, hrun]
  simp only [mem_seededSeen, reported, List.countP_nil, Nat.zero_add]

theorem head_seen_eq_some {key : String} {executions : List Execution} {first : Bool}
    (h : (KeyedFold.seen key (sightings sha256 executions)).head? = some first) :
    (key, first) ∈ sightings sha256 executions :=
  KeyedFold.mem_seen.mp (List.mem_of_mem_head? h)

/-- Every reproducible cluster is reported once exactly if the first sighting
of each key that is not on disk reproduces, provided that any does, and the
keys on disk are read back unless their first sighting does not reproduce. -/
theorem reportsOnce_iff {recordLimit : Nat} {harnessId : String} {disk : List FindingFile}
    {executions : List Execution}
    (hlimit : (clusterKeys sha256 harnessId disk executions).card ≤ limit) :
    ReportsOnce sha256 limit recordLimit harnessId disk executions
      ↔ FirstDecides sha256 limit recordLimit harnessId disk executions := by
  classical
  unfold ReportsOnce
  simp only [reported_runBranch hlimit]
  constructor
  · intro h key first hfirst
    have hkey := h key
    rw [hfirst] at hkey
    constructor
    · intro hdisk hsome
      have hwanted : key ∉ onDisk harnessId disk ∧ (key, true) ∈ sightings sha256 executions :=
        ⟨hdisk, hsome⟩
      rw [if_pos hwanted] at hkey
      split at hkey
      case isTrue htrue => simpa using htrue.2
      case isFalse => omega
    · intro hdisk
      by_cases hback : ReadBack limit recordLimit harnessId disk key
      · exact .inl hback
      · cases first with
        | false => exact .inr rfl
        | true =>
            rw [if_pos ⟨hback, rfl⟩, if_neg (fun hnot => hnot.1 hdisk)] at hkey
            omega
  · intro h key
    by_cases hdisk : key ∈ onDisk harnessId disk
    · rw [if_neg, if_neg (fun hnot => hnot.1 hdisk)]
      rintro ⟨hback, hfirst⟩
      rcases (h key true hfirst).2 hdisk with hback' | hfalse
      · exact hback hback'
      · cases hfalse
    · have hback : ¬ ReadBack limit recordLimit harnessId disk key :=
        fun hback => hdisk hback.onDisk
      by_cases hsome : (key, true) ∈ sightings sha256 executions
      · obtain ⟨first, hfirst⟩ : ∃ first,
            (KeyedFold.seen key (sightings sha256 executions)).head? = some first := by
          have hne : KeyedFold.seen key (sightings sha256 executions) ≠ [] :=
            List.ne_nil_of_mem (KeyedFold.mem_seen.mpr hsome)
          exact ⟨_, List.head?_eq_some_head hne⟩
        have htrue := (h key first hfirst).1 hdisk hsome
        rw [htrue] at hfirst
        rw [if_pos ⟨hback, hfirst⟩, if_pos ⟨hdisk, hsome⟩]
      · rw [if_neg, if_neg (fun hnot => hsome hnot.2)]
        rintro ⟨-, hfirst⟩
        exact hsome (head_seen_eq_some hfirst)

/-! ## A flake before the crash -/

def stripped : SanitizerReport :=
  ⟨.addressSanitizer, "heap-buffer-overflow", "GF-201", [], "ERROR: AddressSanitizer"⟩

/-- One crash twice, and only the second one reproduces. -/
def flakeFirst : List Execution :=
  [⟨[1], some stripped, some none⟩, ⟨[2], some stripped, some (some stripped)⟩]

/-- No frame of the report is left to hash, so the digest is never asked for. -/
def anyDigest (_ : List UInt8) : Signature := ⟨List.replicate 32 0, List.length_replicate⟩

theorem sightings_flakeFirst :
    sightings anyDigest flakeFirst = [("rule:GF-201", false), ("rule:GF-201", true)] := by
  decide

theorem not_reportsOnce_flakeFirst :
    ¬ ReportsOnce anyDigest 65536 (2 * 1024 * 1024) "H-TEST" [] flakeFirst := by
  intro h
  have hkey := h "rule:GF-201"
  have hnone : reported anyDigest (runBranch anyDigest 65536 true (2 * 1024 * 1024) "H-TEST" []
      flakeFirst) "rule:GF-201" = 0 := by
    decide
  have hsome : ("rule:GF-201", true) ∈ sightings anyDigest flakeFirst := by
    rw [sightings_flakeFirst]
    decide
  rw [hnone, if_pos ⟨by simp [onDisk], hsome⟩] at hkey
  omega

/-- The same crashes the other way round: the first one reproduces. -/
def crashFirst : List Execution :=
  [⟨[2], some stripped, some (some stripped)⟩, ⟨[1], some stripped, some none⟩]

theorem firstDecides_crashFirst :
    FirstDecides anyDigest 65536 (2 * 1024 * 1024) "H-TEST" [] crashFirst := by
  have hsightings : sightings anyDigest crashFirst
      = [("rule:GF-201", true), ("rule:GF-201", false)] := by
    decide
  intro key first hfirst
  rw [hsightings] at hfirst
  refine ⟨fun _ _ => ?_, fun hdisk => by simp [onDisk] at hdisk⟩
  by_cases hkey : key = "rule:GF-201"
  · subst hkey
    exact (Option.some.inj hfirst).symm
  · simp [KeyedFold.seen, Ne.symm hkey] at hfirst

theorem reportsOnce_single_iff :
    (clusterKeys anyDigest "H-TEST" [] crashFirst).card ≤ 65536
      ∧ ReportsOnce anyDigest 65536 (2 * 1024 * 1024) "H-TEST" [] crashFirst := by
  have hcard : (clusterKeys anyDigest "H-TEST" [] crashFirst).card ≤ 65536 := by
    decide
  exact ⟨hcard, (reportsOnce_iff hcard).mpr firstDecides_crashFirst⟩

end GovFuzz.Cli
