import GovFuzz.Lib.Decide
import Mathlib.Algebra.GroupWithZero.Nat
import Mathlib.Data.List.Infix
import Mathlib.Logic.Function.Basic

/-!
# Auto — the closure-failure memo

What a source's build failed with, kept under a fingerprint of the work
directory, and what that fingerprint hashes: the model files byte for byte,
of the shared directories the names and lengths of their entries.
-/

namespace GovFuzz.Auto

/-! ## Build errors -/

/-- The error kinds of the build classifier, with the names, files and lines
they carry. -/
inductive BuildErrorKind where
  | missingHeader (path : List Char)
  | missingType (name : List Char)
  | incompleteType (name : List Char)
  | missingMacro (name : List Char) (asValue : Bool)
  | undefinedSymbol (name : List Char)
  | undeclaredFunction (name file : List Char) (line : Nat)
  | missingSharedLib (name : List Char)
  | missingAdaWith (unit : List Char)
  | missingAdaSymbol (unit symbol : List Char)
  | missingAdaPackageBody (unit : List Char)
  | uncompilableAdaBody (source : List Char)
  | missingGprImport (path : List Char)
  | malformedFunctionDecl (file : List Char) (line : Nat)
  | configGuardError (file : List Char) (line : Nat) (message : List Char)
  | other (tail : List Char)
  deriving DecidableEq

/-- Files that the harness generates for itself. -/
def harnessArtifacts : List (List Char) :=
  ["main.c", "main.cpp", "main.adb", "main_afl", "gf_harness"].map String.toList

/-- Whether a text names an artifact of the generated harness. -/
def namesHarness (text : List Char) : Bool :=
  harnessArtifacts.any fun artifact => decide (artifact <:+: text)

namespace BuildErrorKind

/-- `errors_are_closure_scoped`, for one error: only two kinds are looked at. -/
def isClosureScoped : BuildErrorKind → Bool
  | .other tail => !namesHarness tail
  | .undeclaredFunction _ file _ => !namesHarness file
  | _ => true

/-- The text of an error that says where it is. -/
def location : BuildErrorKind → Option (List Char)
  | .undeclaredFunction _ file _ => some file
  | .uncompilableAdaBody source => some source
  | .malformedFunctionDecl file _ => some file
  | .configGuardError file _ _ => some file
  | .other tail => some tail
  | _ => none

/-- The error is located in a generated file. -/
def inHarness (error : BuildErrorKind) : Bool := error.location.any namesHarness

/-- The kinds that say where they are and are not looked at. -/
def isUnread : BuildErrorKind → Bool
  | .uncompilableAdaBody _ => true
  | .malformedFunctionDecl _ _ => true
  | .configGuardError _ _ _ => true
  | _ => false

theorem inHarness_of_scoped {error : BuildErrorKind} (h : error.isClosureScoped = true)
    (hread : error.isUnread = false) : error.inHarness = false := by
  cases error with
  | other tail => simpa [isClosureScoped, inHarness, location] using h
  | undeclaredFunction name file line => simpa [isClosureScoped, inHarness, location] using h
  | uncompilableAdaBody source => cases hread
  | malformedFunctionDecl file line => cases hread
  | configGuardError file line message => cases hread
  | _ => rfl

end BuildErrorKind

/-- No error is the harness's own. -/
def errorsAreClosureScoped (errors : List BuildErrorKind) : Bool :=
  errors.all BuildErrorKind.isClosureScoped

/-! ## The work directory -/

/-- The contents of a file. -/
abbrev Bytes := List UInt8

/-- A file or a directory with its entries. -/
inductive Node where
  | file (bytes : Bytes)
  | dir (entries : List (List Char × Node))

/-- The bytes of the file at a path below a node. -/
def Node.fileAt : List (List Char) → Node → Option Bytes
  | [], .file bytes => some bytes
  | name :: path, .dir entries => (entries.lookup name).bind (fileAt path)
  | _, _ => none

/-- The files of the work directory that hold the project's models, by their
relative paths, and its shared directories. -/
structure WorkDir where
  files : List Char → Option Bytes
  dirs : List Char → Option (List (List Char × Node))

/-- The files of the work directory that the fingerprint reads. -/
def modelFiles : List (List Char) :=
  ["ada_external_model.json", "c_compat.mk", "cxx_dialect.txt"].map String.toList

/-- The directories of the work directory that the fingerprint lists. -/
def sharedDirs : List (List Char) :=
  ["ada_external_stubs", "src_instrumented", "cxx_dialects"].map String.toList

/-! ## The fingerprint -/

/-- The hasher's result for what is written to it, as hexadecimal text, and
the length the file system reports for a directory. -/
structure Platform where
  finish : Bytes → List Char
  dirLen : List (List Char × Node) → Nat

/-- The length the file system reports. -/
def Node.len (platform : Platform) : Node → Nat
  | .file bytes => bytes.length
  | .dir entries => platform.dirLen entries

/-- `u8::from(bool)`. -/
def writeBool (b : Bool) : Bytes := [if b then 1 else 0]

/-- A `usize` or `u64`, least significant byte first. -/
def writeU64 (n : Nat) : Bytes := (List.range 8).map fun i => UInt8.ofNat (n / 256 ^ i)

/-- A slice under `Hash`: its length and its bytes. -/
def writeBytes (bytes : Bytes) : Bytes := writeU64 bytes.length ++ bytes

/-- A string under `Hash`: its bytes and `0xff`. -/
def writeStr (text : List Char) : Bytes := text.flatMap String.utf8EncodeChar ++ [0xff]

/-- Names first, then lengths. -/
def entryLe (a b : List Char × Nat) : Bool :=
  if a.1 = b.1 then a.2 ≤ b.2 else a.1 < b.1

/-- Names and lengths in order. -/
def listing (platform : Platform) (entries : List (List Char × Node)) : List (List Char × Nat) :=
  (entries.map fun entry => (entry.1, entry.2.len platform)).mergeSort entryLe

/-- A vector of names and lengths under `Hash`. -/
def writeListing (names : List (List Char × Nat)) : Bytes :=
  writeU64 names.length ++ names.flatMap fun entry => writeStr entry.1 ++ writeU64 entry.2

/-- What `project_fingerprint` writes to the hasher. -/
def digest (platform : Platform) (work : WorkDir) (force : Bool) : Bytes :=
  writeBool force
    ++ modelFiles.flatMap (fun relative =>
      match work.files relative with
      | some bytes => writeBytes bytes
      | none => [0])
    ++ sharedDirs.flatMap fun relative =>
      writeListing (listing platform ((work.dirs relative).getD []))

/-- What a memo of this work directory is kept under. -/
def projectFingerprint (platform : Platform) (work : WorkDir) (force : Bool) : List Char :=
  platform.finish (digest platform work force)

theorem force_of_digest {platform : Platform} {work work' : WorkDir} {force force' : Bool}
    (h : digest platform work force = digest platform work' force') : force = force' := by
  have hhead : (if force then (1 : UInt8) else 0) = if force' then 1 else 0 :=
    Option.some.inj (congrArg List.head? h)
  cases force <;> cases force' <;> simp at hhead ⊢

/-! ## The memo -/

/-- The failure of a closure. -/
structure MemoEntry where
  errors : List BuildErrorKind
  rounds : Nat
  deriving DecidableEq

/-- Entries by source path.  Which type they have is left open, so that a run
may note beside an entry when it was recorded. -/
structure ClosureMemo (ε : Type) where
  fingerprint : List Char
  entries : List Char → Option ε

/-- The memo's file: what `serde_json` reads back from it. -/
inductive MemoFile (ε : Type) where
  | absent
  | unreadable
  | holds (memo : ClosureMemo ε)

/-- How a write to the file ends; `save` ignores its result. -/
inductive Written where
  | whole
  | nothing
  | torn

namespace ClosureMemo

variable {ε ε' : Type}

/-- A memo that holds nothing. -/
def empty (fingerprint : List Char) : ClosureMemo ε := ⟨fingerprint, fun _ => none⟩

/-- The memo of a file, empty where the file does not parse. -/
def stored : MemoFile ε → ClosureMemo ε
  | .holds memo => memo
  | _ => empty []

/-- The stored memo when its fingerprint is the current one, else an empty one. -/
def load (platform : Platform) (work : WorkDir) (force : Bool) (file : MemoFile ε) :
    ClosureMemo ε :=
  let current := projectFingerprint platform work force
  if (stored file).fingerprint = current then stored file else empty current

/-- The failure recorded for a source. -/
def terminalFailureFor (memo : ClosureMemo ε) (source : List Char) : Option ε := memo.entries source

/-- Whether `record` takes a list of errors. -/
def accepts (errors : List BuildErrorKind) : Bool :=
  !errors.isEmpty && errorsAreClosureScoped errors

/-- `record`, which in the code keeps the entry as it is. -/
def record (note : MemoEntry → ε) (memo : ClosureMemo ε) (source : List Char)
    (errors : List BuildErrorKind) (rounds : Nat) : ClosureMemo ε :=
  if accepts errors then
    { memo with entries := Function.update memo.entries source (some (note ⟨errors, rounds⟩)) }
  else memo

/-- The file after writing the memo, whole or torn. -/
def save (memo : ClosureMemo ε) (written : Written) (file : MemoFile ε) : MemoFile ε :=
  match written with
  | .whole => .holds memo
  | .nothing => file
  | .torn => .unreadable

theorem load_absent (platform : Platform) (work : WorkDir) (force : Bool) :
    load platform work force (.absent : MemoFile ε)
      = empty (projectFingerprint platform work force) := by
  unfold load
  dsimp only
  split
  · rename_i hprint
    exact congrArg empty hprint
  · rfl

theorem load_holds {platform : Platform} {work : WorkDir} {force : Bool} {memo : ClosureMemo ε}
    (h : memo.fingerprint = projectFingerprint platform work force) :
    load platform work force (.holds memo) = memo := if_pos h

/-- What is loaded was in the file. -/
theorem load_entries {platform : Platform} {work : WorkDir} {force : Bool} {file : MemoFile ε}
    {source : List Char} {e : ε} (h : (load platform work force file).entries source = some e) :
    ∃ memo, file = .holds memo ∧ memo.entries source = some e ∧
      load platform work force file = memo := by
  unfold load at h ⊢
  dsimp only at h ⊢
  split at h
  · cases file with
    | holds memo =>
        rename_i hprint
        exact ⟨memo, rfl, h, if_pos hprint⟩
    | absent => cases h
    | unreadable => cases h
  · cases h

theorem record_fingerprint (note : MemoEntry → ε) (memo : ClosureMemo ε) (source : List Char)
    (errors : List BuildErrorKind) (rounds : Nat) :
    (memo.record note source errors rounds).fingerprint = memo.fingerprint := by
  unfold record
  split <;> rfl

/-- An entry after recording is the new one or was there before. -/
theorem record_cases {note : MemoEntry → ε} {memo : ClosureMemo ε} {source source' : List Char}
    {errors : List BuildErrorKind} {rounds : Nat} {e : ε}
    (h : (memo.record note source errors rounds).entries source' = some e) :
    memo.entries source' = some e ∨
      (accepts errors = true ∧ source' = source ∧ e = note ⟨errors, rounds⟩) := by
  unfold record at h
  split at h
  · rename_i haccepts
    by_cases hsource : source' = source
    · subst hsource
      have hnew := (Function.update_self source' _ memo.entries).symm.trans h
      exact .inr ⟨haccepts, rfl, (Option.some.inj hnew).symm⟩
    · exact .inl ((Function.update_of_ne hsource _ memo.entries).symm.trans h)
  · exact .inl h

end ClosureMemo

end GovFuzz.Auto
