import GovFuzz.Corpus.Classify
import GovFuzz.Lib.FileSpecs
import Mathlib.Data.Finset.Insert
import Mathlib.Data.List.Sort

/-!
# Corpus — the bridge between the fuzzers' directories

`bridge.rs` of `crates/corpus` copies the files of flat directories into
another one, each content once, under names made of the content's hash.
The names keep eight bytes of the hash, at most twenty, and a file of the
same name is replaced without a question: it is emptied first, and what fails
on the way leaves a part.
-/

namespace GovFuzz.Corpus

open GovFuzz.Lib

/-- The layouts of a corpus directory. -/
inductive Format
  | govfuzz
  | libfuzzer
  | afl
  | honggfuzz
  | unknown
  deriving DecidableEq, Repr

namespace Format

/-- The word of a layout. -/
def asStr : Format → String
  | govfuzz => "govfuzz"
  | libfuzzer => "libfuzzer"
  | afl => "afl"
  | honggfuzz => "honggfuzz"
  | unknown => "unknown"

/-- The layout of a word. -/
def parse : String → Option Format
  | "govfuzz" => some govfuzz
  | "libfuzzer" => some libfuzzer
  | "afl" => some afl
  | "honggfuzz" => some honggfuzz
  | "auto" => some unknown
  | "unknown" => some unknown
  | _ => none

theorem parse_asStr (format : Format) : parse format.asStr = some format := by
  cases format <;> rfl

end Format

/-- The counts a command reports. -/
structure ImportSummary where
  unique : Nat
  duplicates : Nat
  sourceFormat : Format
  targetFormat : Format
  deriving DecidableEq, Repr

/-- Why a command fails. -/
inductive BridgeError where
  | io (error : FileError)
  | sourceMissing (dir : Path)
  /-- The check of `max + 1`. -/
  | overflow
  deriving DecidableEq, Repr

/-- A step on the file tree that may fail. -/
abbrev Bridge := Op Disk BridgeError

/-- The last component of a path. -/
def fileName (path : Path) : String := path.getLast?.getD ""

/-! ## Which format a directory has -/

/-- The names met so far. -/
structure Tally where
  afl : Nat
  libfuzzer : Nat
  honggfuzz : Nat
  govfuzz : Nat
  total : Nat
  deriving DecidableEq, Repr

/-- Forty hexadecimal digits. -/
def isSha1Hex (s : String) : Bool :=
  decide (s.utf8ByteSize = 40)
    && s.toList.all fun c =>
      (c.isDigit || ('a' ≤ c && c ≤ 'f') || ('A' ≤ c && c ≤ 'F')) && !c.isUpper

/-- One more name, counted for the layout it looks like. -/
def Tally.note (tally : Tally) (name : String) : Tally :=
  let tally := { tally with total := tally.total + 1 }
  if "id:".toList <+: name.toList then { tally with afl := tally.afl + 1 }
  else if ".fuzz".toList <:+ name.toList then { tally with honggfuzz := tally.honggfuzz + 1 }
  else if ".bin".toList <:+ name.toList then { tally with govfuzz := tally.govfuzz + 1 }
  else if isSha1Hex name then { tally with libfuzzer := tally.libfuzzer + 1 }
  else tally

/-- Strict majority. -/
def Tally.winner (tally : Tally) : Format :=
  if tally.total = 0 then .unknown
  else
    let half := tally.total / 2
    if half < tally.afl then .afl
    else if half < tally.libfuzzer then .libfuzzer
    else if half < tally.honggfuzz then .honggfuzz
    else if half < tally.govfuzz then .govfuzz
    else .unknown

/-- `entry.file_type()?.is_file()`. -/
def isRegular (path : Path) : Bridge Bool := do
  let entry ← (Disk.symlinkMetadata path).mapError .io
  pure (entry.any fun entry => !entry.isDir)

/-- The names of a directory's files. -/
def tallyNames : List Path → Tally → Bridge Tally
  | [], tally => pure tally
  | child :: rest, tally => do
      if ← isRegular child then tallyNames rest (tally.note (fileName child))
      else tallyNames rest tally

/-- The layout that most names look like. -/
def detectFormat (dir : Path) : Bridge Format := do
  if ← (Disk.isDir dir).mapError .io then
    let children ← (Disk.readDir dir).mapError .io
    let tally ← tallyNames children ⟨0, 0, 0, 0, 0⟩
    pure tally.winner
  else throw (.sourceMissing dir)

/-! ## What files are called -/

/-- `n.saturating_add(1)`. -/
def nextOrdinal (n : Nat) : Nat := min (n + 1) (2 ^ 32 - 1)

/-- The name, and the ordinal left behind. -/
def outputName (format : Format) (hash : Signature) (ordinal : Nat) : String × Nat :=
  let hex := (encodeHex hash.bytes).toList
  match format with
  | .govfuzz | .unknown => (String.ofList (hex.take 16 ++ ".bin".toList), ordinal)
  | .honggfuzz => (String.ofList (hex.take 16 ++ ".fuzz".toList), ordinal)
  | .libfuzzer => (String.ofList (hex.take 40), ordinal)
  | .afl =>
      (String.ofList ("id:".toList ++ (Nat.toDigits 10 ordinal).leftpad 6 '0' ++ ",sig:".toList
          ++ hex.take 16), nextOrdinal ordinal)

/-- `digits.parse::<i64>()` of decimal digits. -/
def parseOrdinal (digits : List Char) : Option Int :=
  if digits = [] then none
  else
    let value := Nat.ofDigitChars 10 digits 0
    if value < 2 ^ 63 then some value else none

/-- The loop body of `next_afl_ordinal`. -/
def higherOrdinal (max : Int) (name : String) : Int :=
  if "id:".toList <+: name.toList then
    match parseOrdinal ((name.toList.drop 3).takeWhile Char.isDigit) with
    | some n => if max < n then n else max
    | none => max
  else max

/-- An entry that cannot be read is passed over. -/
def highestOrdinal : List Path → Int → Bridge Int
  | [], max => pure max
  | child :: rest, max => do
      match ← Op.caught Disk.attempt with
      | some () => highestOrdinal rest (higherOrdinal max (fileName child))
      | none => highestOrdinal rest max

/-- One more than the greatest number in the output. -/
def nextAflOrdinal (dst : Path) (targetFormat : Format) : Bridge Nat := do
  if targetFormat ≠ .afl then pure 0
  else
    match ← Op.caught (Disk.readDir dst) with
    | none => pure 0
    | some children =>
        let max ← highestOrdinal children (-1)
        if max + 1 < 2 ^ 63 then pure ((max + 1).toNat % 2 ^ 32) else throw .overflow

/-! ## Copying -/

/-- The variables of the copying loops. -/
structure Progress where
  seen : Finset Signature
  unique : Nat
  duplicates : Nat
  ordinal : Nat

section

variable (sha256 : List UInt8 → Signature)

/-- The contents of a directory's files. -/
def readFiles : List Path → Bridge (List (List UInt8))
  | [] => pure []
  | child :: rest => do
      if ← isRegular child then
        let bytes ← (Disk.read child).mapError .io
        let others ← readFiles rest
        pure (bytes :: others)
      else readFiles rest

/-- The files in the order of their hashes. -/
def iterFiles (dir : Path) : Bridge (List (List UInt8 × Signature)) := do
  let children ← (Disk.readDir dir).mapError .io
  let files ← readFiles children
  pure ((files.map fun bytes => (bytes, sha256 bytes)).insertionSort
    fun file other => file.2.bytes ≤ other.2.bytes)

/-- The loop body that `merge_dirs` and `copy_with_dedup` share. -/
def copyFiles (dst : Path) (targetFormat : Format) :
    List (List UInt8 × Signature) → Progress → Bridge Progress
  | [], progress => pure progress
  | (bytes, hash) :: rest, progress => do
      if hash ∈ progress.seen then
        copyFiles dst targetFormat rest { progress with duplicates := progress.duplicates + 1 }
      else
        let (name, ordinal) := outputName targetFormat hash progress.ordinal
        (Disk.writeFile (dst ++ [name]) bytes).mapError .io
        copyFiles dst targetFormat rest
          { seen := insert hash progress.seen
            unique := progress.unique + 1
            duplicates := progress.duplicates
            ordinal }

/-- The contents of one directory that the other lacks. -/
def copyWithDedup (src dst : Path) (sourceFormat targetFormat : Format) :
    Bridge ImportSummary := do
  if ← (Disk.isDir src).mapError .io then
    (Disk.createDirAll dst).mapError .io
    let ordinal ← nextAflOrdinal dst targetFormat
    let files ← iterFiles sha256 src
    let progress ← copyFiles dst targetFormat files ⟨∅, 0, 0, ordinal⟩
    pure ⟨progress.unique, progress.duplicates, sourceFormat, targetFormat⟩
  else throw (.sourceMissing src)

/-- From a directory of this layout to the engine's own. -/
def importDir (src dst : Path) (sourceFormat : Format) : Bridge ImportSummary :=
  copyWithDedup sha256 src dst sourceFormat .govfuzz

/-- From the detected layout to this one. -/
def exportDir (src dst : Path) (targetFormat : Format) : Bridge ImportSummary := do
  let sourceFormat ← detectFormat src
  copyWithDedup sha256 src dst sourceFormat targetFormat

/-- The outer loop of `merge_dirs`, with the format of the first source. -/
def mergeSources (dst : Path) :
    List Path → Option Format → Progress → Bridge (Option Format × Progress)
  | [], first, progress => pure (first, progress)
  | src :: rest, first, progress => do
      let detected ← detectFormat src
      let files ← iterFiles sha256 src
      let progress ← copyFiles dst .govfuzz files progress
      mergeSources dst rest (first.or (some detected)) progress

/-- From several directories to one. -/
def mergeDirs (srcs : List Path) (dst : Path) : Bridge ImportSummary := do
  (Disk.createDirAll dst).mapError .io
  let ordinal ← nextAflOrdinal dst .govfuzz
  let (first, progress) ← mergeSources sha256 dst srcs none ⟨∅, 0, 0, ordinal⟩
  pure ⟨progress.unique, progress.duplicates, first.getD .unknown, .govfuzz⟩

end

/-! ## The subcommands -/

/-- `govfuzz corpus import`, `export` and `merge`. -/
inductive Command
  | importFrom (source : String) (input output : Path)
  | exportTo (target : String) (input output : Path)
  | merge (inputs : List Path) (output : Path)

/-- Why a command line fails. -/
inductive CommandError where
  | bridge (error : BridgeError)
  | unknownTarget (target : String)
  /-- "target format must be one of govfuzz, libfuzzer, afl, honggfuzz" -/
  | autoTarget
  deriving DecidableEq, Repr

namespace Command

/-- The directories a command reads. -/
def inputs : Command → List Path
  | importFrom _ input _ => [input]
  | exportTo _ input _ => [input]
  | merge inputs _ => inputs

/-- The directory a command writes. -/
def output : Command → Path
  | importFrom _ _ output => output
  | exportTo _ _ output => output
  | merge _ output => output

/-- `run_import`, `run_export` and `run_merge`; the exit code is 0 with a summary. -/
def run (sha256 : List UInt8 → Signature) : Command → Op Disk CommandError ImportSummary
  | importFrom source input output => do
      let sourceFormat ← match Format.parse source with
        | some .unknown => (detectFormat input).mapError .bridge
        | none => (detectFormat input).mapError .bridge
        | some explicit => pure explicit
      (importDir sha256 input output sourceFormat).mapError .bridge
  | exportTo target input output =>
      match Format.parse target with
      | none => throw (.unknownTarget target)
      | some .unknown => throw .autoTarget
      | some target => (exportDir sha256 input output target).mapError .bridge
  | merge inputs output => (mergeDirs sha256 inputs output).mapError .bridge

end Command

/-! ## What the names tell apart -/

/-- The two digits of a byte. -/
def hexPair (byte : UInt8) : List Char := [hexDigit (byte.toNat / 16), hexDigit (byte.toNat % 16)]

theorem toList_encodeHex (bytes : List UInt8) : (encodeHex bytes).toList = bytes.flatMap hexPair :=
  String.toList_ofList

theorem hexPair_injective {a b : UInt8} (h : hexPair a = hexPair b) : a = b := by
  have hdigit : ∀ m < 16, ∀ n < 16, hexDigit m = hexDigit n → m = n := by decide +kernel
  simp only [hexPair, List.cons.injEq, and_true] at h
  have hhigh := hdigit _ (by have := a.toNat_lt; omega) _ (by have := b.toNat_lt; omega) h.1
  have hlow := hdigit _ (by omega) _ (by omega) h.2
  exact UInt8.toNat_inj.mp (by omega)

theorem flatMap_hexPair_injective {bytes others : List UInt8}
    (h : bytes.flatMap hexPair = others.flatMap hexPair) : bytes = others := by
  induction bytes generalizing others with
  | nil =>
      cases others with
      | nil => rfl
      | cons b others => simp [hexPair] at h
  | cons a bytes ih =>
      cases others with
      | nil => simp [hexPair] at h
      | cons b others =>
          rw [List.flatMap_cons, List.flatMap_cons] at h
          obtain ⟨hfirst, hrest⟩ := List.append_inj h rfl
          rw [hexPair_injective hfirst, ih hrest]

theorem take_flatMap_hexPair (bytes : List UInt8) (n : Nat) :
    (bytes.flatMap hexPair).take (2 * n) = (bytes.take n).flatMap hexPair := by
  induction bytes generalizing n with
  | nil => simp
  | cons a bytes ih =>
      cases n with
      | zero => rfl
      | succ n =>
          have hwidth : 2 * (n + 1) = (hexPair a).length + 2 * n := by
            show 2 * (n + 1) = 2 + 2 * n
            omega
          rw [List.flatMap_cons, hwidth, List.take_length_add_append, ih, List.take_succ_cons,
            List.flatMap_cons]

theorem length_flatMap_hexPair (bytes : List UInt8) :
    (bytes.flatMap hexPair).length = 2 * bytes.length := by
  induction bytes with
  | nil => rfl
  | cons a bytes ih =>
      rw [List.flatMap_cons, List.length_append, ih]
      show 2 + 2 * bytes.length = 2 * (bytes.length + 1)
      omega

theorem hexDigit_mem {c : Char} {bytes : List UInt8} (h : c ∈ bytes.flatMap hexPair) :
    c ∈ "0123456789abcdef".toList := by
  have hdigit : ∀ n < 16, hexDigit n ∈ "0123456789abcdef".toList := by decide
  obtain ⟨byte, -, hc⟩ := List.mem_flatMap.mp h
  have hlt := byte.toNat_lt
  rcases List.mem_pair.mp hc with rfl | rfl
  · exact hdigit _ (by omega)
  · exact hdigit _ (by omega)

/-- The eight bytes of the hash that a name of any format gives away. -/
def stamp (hash : Signature) : List UInt8 := hash.bytes.take 8

theorem take_hex (hash : Signature) :
    (encodeHex hash.bytes).toList.take 16 = (stamp hash).flatMap hexPair := by
  rw [toList_encodeHex, stamp]
  exact take_flatMap_hexPair hash.bytes 8

theorem length_take_hex (hash : Signature) :
    ((encodeHex hash.bytes).toList.take 16).length = 16 := by
  rw [take_hex, length_flatMap_hexPair, stamp, List.length_take, hash.length_eq]
  rfl

/-- The digits of the stamp in a name. -/
def stampOf (name : List Char) : List Char :=
  if "id:".toList <+: name then name.drop (name.length - 16) else name.take 16

theorem not_starts_with_id (hash : Signature) {n : Nat} (hn : 0 < n) (rest : List Char) :
    ¬ "id:".toList <+: (encodeHex hash.bytes).toList.take n ++ rest := by
  rintro ⟨tail, htail⟩
  obtain ⟨n, rfl⟩ := Nat.exists_eq_succ_of_ne_zero hn.ne'
  rw [toList_encodeHex] at htail
  have hlength := length_flatMap_hexPair hash.bytes
  rw [hash.length_eq] at hlength
  cases hdigits : hash.bytes.flatMap hexPair with
  | nil =>
      rw [hdigits] at hlength
      cases hlength
  | cons c digits =>
      have hfirst : c ∈ hash.bytes.flatMap hexPair := by
        rw [hdigits]
        exact List.mem_cons_self
      rw [hdigits, List.take_succ_cons, List.cons_append] at htail
      injection htail with hc
      rw [← hc] at hfirst
      exact absurd (hexDigit_mem hfirst) (by decide)

theorem stampOf_outputName (format : Format) (hash : Signature) (ordinal : Nat) :
    stampOf (outputName format hash ordinal).1.toList = (stamp hash).flatMap hexPair := by
  let hex := (encodeHex hash.bytes).toList
  have hlength : (hex.take 16).length = 16 := length_take_hex hash
  have hplain : ∀ rest, stampOf (String.ofList (hex.take 16 ++ rest)).toList = hex.take 16 := by
    intro rest
    rw [String.toList_ofList, stampOf, if_neg (not_starts_with_id hash (by decide) _),
      List.take_append_of_le_length (by omega), List.take_of_length_le (by omega)]
  rw [← take_hex]
  cases format with
  | govfuzz | unknown | honggfuzz => exact hplain _
  | libfuzzer =>
      show stampOf (String.ofList (hex.take 40)).toList = hex.take 16
      have hsplit := List.take_append_drop 16 (hex.take 40)
      rw [List.take_take] at hsplit
      rw [← hsplit]
      exact hplain _
  | afl =>
      show stampOf (String.ofList ("id:".toList ++ (Nat.toDigits 10 ordinal).leftpad 6 '0'
        ++ ",sig:".toList ++ hex.take 16)).toList = hex.take 16
      rw [String.toList_ofList, stampOf,
        if_pos (by simp only [List.append_assoc]; exact List.prefix_append _ _),
        List.length_append, hlength, Nat.add_sub_cancel, List.drop_left]

/-- Two outputs of one name have hashes that begin with the same eight bytes. -/
theorem stamp_eq_of_outputName {format format' : Format} {hash hash' : Signature}
    {ordinal ordinal' : Nat}
    (h : (outputName format hash ordinal).1 = (outputName format' hash' ordinal').1) :
    stamp hash = stamp hash' := by
  refine flatMap_hexPair_injective ?_
  rw [← stampOf_outputName format hash ordinal, h, stampOf_outputName]

end GovFuzz.Corpus
