import GovFuzz.Lib.Utf8

/-!
# BuildProbe — the log of intercepted compilers

The record that `intercept_wrapper_script_with_flags` (`crates/cli/src/auto/build_probe.rs`)
prints line by line, the record that `maybe_log` (`crates/govfuzz_cc_intercept`)
writes at once, and the reader of the log.  Rust's strings are their bytes
here; `read_to_string` refuses a log that is not UTF-8.
-/

namespace GovFuzz.BuildProbe

open GovFuzz.Lib

/-- One run of a compiler, as a shim sees it. -/
structure Invocation where
  directory : List UInt8
  compiler : List UInt8
  args : List (List UInt8)
  deriving DecidableEq

/-- One line of a record. -/
def logLine (key : String) (value : List UInt8) : List UInt8 := toUtf8 key ++ value ++ [10]

/-! ## The shell shim -/

/-- One write for each `printf`.  The script quotes the compiler, so a path
with a quote in it is no such script. -/
def shellWrites (inv : Invocation) : List (List UInt8) :=
  [logLine "DIR " inv.directory, logLine "CC " inv.compiler]
    ++ inv.args.map (logLine "ARG ") ++ [logLine "ENDREC" []]

/-! ## The preload shim -/

/-- The compilers known by name. -/
def compilerNames : List String :=
  ["cc", "c++", "gcc", "g++", "clang", "clang++", "cpp", "clang-cpp", "dcc", "dplus", "ccarm",
    "cxarm", "ccppc", "cxppc", "ccintarm64", "ccx86", "cxx86", "qcc", "q++", "armcc", "armclang",
    "iccarm", "cl2000", "cl6x", "cl430"]

/-- The endings of cross compilers' names. -/
def crossSuffixes : List String := ["-gcc", "-g++", "-cc", "-c++", "-clang", "-clang++"]

/-- The part behind the last slash; only the first 1024 bytes are looked at. -/
def basename (path : List UInt8) : List UInt8 :=
  ((path.take 1024).splitOn 47).getLast?.getD []

/-- A name with something in front of such an ending. -/
def isCrossName (name : List UInt8) : Bool :=
  crossSuffixes.any fun suffix =>
    name.length > (toUtf8 suffix).length && (toUtf8 suffix).isSuffixOf name

/-- The command is a compiler. -/
def isCompiler (path : List UInt8) : Bool :=
  let name := basename path
  name ≠ [] && (compilerNames.any (fun compiler => name = toUtf8 compiler) || isCrossName name)

/-- Bytes of one record of the preloaded shim. -/
def recCap : Nat := 64 * 1024

/-- `Rec`: the bytes that are in use. -/
structure Rec where
  buf : List UInt8
  ok : Bool

namespace Rec

/-- An empty record. -/
def new : Rec := ⟨[], true⟩

/-- A record that overflows is dropped rather than truncated. -/
def put (record : Rec) (bytes : List UInt8) : Rec :=
  if !record.ok then record
  else if record.buf.length + bytes.length > recCap then { record with ok := false }
  else { record with buf := record.buf ++ bytes }

/-- A C string, which is measured up to the capacity. -/
def putCstr (record : Rec) (s : List UInt8) : Rec := record.put (s.take recCap)

end Rec

/-- The buffer of `getcwd`. -/
def cwdCap : Nat := 4096

/-- The guard of the loop over `argv`. -/
def argCap : Nat := 4096

/-- What the preloaded shim writes for a command. -/
def maybeLog (inv : Invocation) : List (List UInt8) :=
  if !isCompiler inv.compiler then []
  else
    let record := Rec.new.put (toUtf8 "DIR ")
    -- with its NUL, the directory has to fit
    let record := if inv.directory.length < cwdCap then record.put inv.directory else record
    let record := record.put [10]
    let record := ((record.put (toUtf8 "CC ")).putCstr inv.compiler).put [10]
    let record := (inv.args.take argCap).foldl
      (fun record arg => ((record.put (toUtf8 "ARG ")).putCstr arg).put [10]) record
    let record := record.put (toUtf8 "ENDREC\n")
    if !record.ok || record.buf.length = 0 then [] else [record.buf]

/-- The two interceptors. -/
inductive Shim where
  | shell
  | preload
  deriving DecidableEq

/-- The writes of an interceptor, each one atomic. -/
def writes (shim : Shim) (inv : Invocation) : List (List UInt8) :=
  match shim with
  | .shell => shellWrites inv
  | .preload => maybeLog inv

/-! ## Reading the log -/

/-- `Path::file_name`: the last component, unless it is `..`. -/
def fileName (path : List UInt8) : Option (List UInt8) :=
  ((path.splitOn 47).filter fun part => part ≠ [] && part ≠ toUtf8 ".").getLast?.filter
    fun name => name ≠ toUtf8 ".."

/-- What stands behind the last dot, unless nothing stands before it. -/
def extension (path : List UInt8) : Option (List UInt8) :=
  (fileName path).bind fun name =>
    match (name.splitOn 46).reverse with
    | [] => none
    | [_] => none
    | after :: before => if before = [[]] then none else some after

/-- The endings of sources. -/
def sourceExtensions : List String := ["c", "cc", "cpp", "cxx", "c++", "C"]

/-- The argument names a source. -/
def isSourceArg (arg : List UInt8) : Bool :=
  match extension arg with
  | some ext => sourceExtensions.any fun known => ext = toUtf8 known
  | none => false

/-- `Path::join`. -/
def join (dir path : List UInt8) : List UInt8 :=
  if dir = [] || dir.getLast? = some 47 then dir ++ path else dir ++ 47 :: path

/-- The path seen from the command's directory. -/
def resolveAgainst (dir file : List UInt8) : List UInt8 :=
  if file.head? = some 47 then file else join dir file

/-- A compilation: where, what and how. -/
structure ProbeEntry where
  directory : List UInt8
  file : List UInt8
  arguments : List (List UInt8)
  deriving DecidableEq

/-- `str::lines`. -/
def byteLines (text : List UInt8) : List (List UInt8) :=
  let pieces := text.splitOn 10
  pieces.dropLast.map (fun line => if line.getLast? = some 13 then line.dropLast else line)
    ++ pieces.getLast?.toList.filter (· ≠ [])

/-- The entries read and the record that is open. -/
structure LogState where
  entries : List ProbeEntry
  directory : Option (List UInt8)
  cc : Option (List UInt8)
  args : List (List UInt8)

/-- The compilation of a record, when it names a directory and a source. -/
def recordEntry (directory cc : Option (List UInt8)) (args : List (List UInt8)) :
    Option ProbeEntry := do
  let dir ← directory
  let cc ← cc
  let file ← args.find? isSourceArg
  some ⟨dir, resolveAgainst dir file, cc :: args⟩

/-- One line of the log. -/
def interceptLine (s : LogState) (line : List UInt8) : LogState :=
  if line = toUtf8 "ENDREC" then
    ⟨s.entries ++ (recordEntry s.directory s.cc s.args).toList, none, none, []⟩
  else
    match (toUtf8 "DIR ").isPrefixOf? line with
    | some d => { s with directory := some d }
    | none =>
        match (toUtf8 "CC ").isPrefixOf? line with
        | some c => { s with cc := some c }
        | none =>
            match (toUtf8 "ARG ").isPrefixOf? line with
            | some a => { s with args := s.args ++ [a] }
            | none => s

/-- The compilations of a log. -/
def parseInterceptLog (log : List UInt8) : List ProbeEntry :=
  ((byteLines log).foldl interceptLine ⟨[], none, none, []⟩).entries

/-- The driver's command rather than a `-cc1` one, else the longer of the two. -/
def interceptEntryIsBetter (candidate current : ProbeEntry) : Bool :=
  match candidate.arguments.contains (toUtf8 "-cc1"),
    current.arguments.contains (toUtf8 "-cc1") with
  | false, true => true
  | true, false => false
  | _, _ => candidate.arguments.length > current.arguments.length

/-- `order` and `best` as one list: the best entry of each file so far. -/
def dedupInsert (entry : ProbeEntry) : List ProbeEntry → List ProbeEntry
  | [] => [entry]
  | prev :: rest =>
      if prev.file = entry.file then
        (if interceptEntryIsBetter entry prev then entry else prev) :: rest
      else prev :: dedupInsert entry rest

/-- One compilation for each source. -/
def dedupInterceptEntries (entries : List ProbeEntry) : List ProbeEntry :=
  entries.foldl (fun best entry => dedupInsert entry best) []

/-- The compile database of a log; without text there is none. -/
def interceptEntries (log : List UInt8) : List ProbeEntry :=
  match fromUtf8 log with
  | none => []
  | some _ => dedupInterceptEntries (parseInterceptLog log)

end GovFuzz.BuildProbe
