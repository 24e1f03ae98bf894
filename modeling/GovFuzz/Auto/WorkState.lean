import GovFuzz.Auto.ClosureMemo

/-!
# Auto — the state of a work directory from run to run

Only a compatible resume keeps what an earlier run generated; every other run
starts by removing it, the memo's file included.
-/

namespace GovFuzz.Auto

/-- The version and the commit a govfuzz was built from. -/
structure Producer where
  version : List Char
  commit : List Char

inductive WorkStateDisposition where
  | new
  | compatibleResume
  | freshRunRefresh
  | incompatibleMigration
  deriving DecidableEq

structure WorkStateCheckpoint where
  schemaVersion : Nat
  producerVersion : List Char
  producerCommit : List Char
  generatedStateSemanticVersion : Nat
  disposition : WorkStateDisposition

def workStateSchemaVersion : Nat := 1

def generatedStateSemanticVersion : Nat := 2

def isCompatible (producer : Producer) (state : WorkStateCheckpoint) : Bool :=
  state.schemaVersion = workStateSchemaVersion
    && state.generatedStateSemanticVersion = generatedStateSemanticVersion
    && state.producerVersion = producer.version
    && state.producerCommit = producer.commit

def regenerableDirectories : List (List Char) :=
  ["build", "harnesses", "generated_harnesses", "generated_stubs", "fake_corba", "src_instrumented",
    "fuzz_runs", "fuzz_scratch", "afl_out", "afl_qemu_out", "cxx_dialects", "ada_external_stubs",
    "ada_obj"].map String.toList

/-- `REGENERABLE_FILES`, less the memo's file. -/
def regenerableFiles : List (List Char) :=
  ["c_compat.mk", "cxx_dialect.txt", "ada_external_model.json", "ada_dialect"].map String.toList

/-- The work directory as a run finds it. -/
structure RunDir (ε : Type) where
  work : WorkDir
  memoFile : MemoFile ε
  checkpoint : Option WorkStateCheckpoint

variable {ε : Type}

def MemoFile.exists : MemoFile ε → Bool
  | .absent => false
  | _ => true

def regenerableStateExists (dir : RunDir ε) : Bool :=
  (regenerableDirectories.any fun relative => (dir.work.dirs relative).isSome)
    || (regenerableFiles.any fun relative => (dir.work.files relative).isSome)
    || dir.memoFile.exists

/-- The attempt records are kept; they are not regenerable. -/
def refreshHarnessDirs (entries : List (List Char × Node)) : List (List Char × Node) :=
  entries.filterMap fun entry =>
    match entry.2 with
    | .file _ => none
    | .dir inner => some (entry.1, .dir (inner.filter fun e => e.1 = "result.json".toList))

def refreshRegenerableState (dir : RunDir ε) : RunDir ε where
  work :=
    { files := fun relative =>
        if relative ∈ regenerableFiles then none else dir.work.files relative
      dirs := fun relative =>
        if relative = "harnesses".toList then (dir.work.dirs relative).map refreshHarnessDirs
        else if relative ∈ regenerableDirectories then none
        else dir.work.dirs relative }
  memoFile := .absent
  checkpoint := dir.checkpoint

def disposition (producer : Producer) (resume : Bool) (dir : RunDir ε) : WorkStateDisposition :=
  let compatible := dir.checkpoint.any (isCompatible producer)
  if resume && compatible then .compatibleResume
  else if dir.checkpoint.isNone && !regenerableStateExists dir then .new
  else if compatible then .freshRunRefresh
  else .incompatibleMigration

/-- `prepare`: what is left of the work directory, with its new checkpoint. -/
def prepare (producer : Producer) (resume : Bool) (dir : RunDir ε) : RunDir ε :=
  let found := disposition producer resume dir
  let left :=
    match found with
    | .new => dir
    | .compatibleResume => dir
    | .freshRunRefresh => refreshRegenerableState dir
    | .incompatibleMigration => refreshRegenerableState dir
  { left with
    checkpoint := some ⟨workStateSchemaVersion, producer.version, producer.commit,
      generatedStateSemanticVersion, found⟩ }

/-- The memo's file is kept as the whole work directory is, or it is gone. -/
theorem prepare_cases (producer : Producer) (resume : Bool) (dir : RunDir ε) :
    ((prepare producer resume dir).work = dir.work ∧
        (prepare producer resume dir).memoFile = dir.memoFile) ∨
      (prepare producer resume dir).memoFile = .absent := by
  unfold prepare
  dsimp only
  cases disposition producer resume dir with
  | new => exact .inl ⟨rfl, rfl⟩
  | compatibleResume => exact .inl ⟨rfl, rfl⟩
  | freshRunRefresh => exact .inr rfl
  | incompatibleMigration => exact .inr rfl

end GovFuzz.Auto
