import GovFuzz.Lib.Lossy
import GovFuzz.Runtrace.Readers

/-!
# Runtrace — a line as an event

`parse_line` of `crates/cli/src/auto/runtrace.rs`: the kind of a line decides
which of its fields are read, and what stands for those that are missing.
-/

namespace GovFuzz.Runtrace

open GovFuzz.Lib

/-- What one line of the shim's log reports. -/
inductive RuntraceEvent where
  | envVarMissing (api name : String)
  | envVarAccess (api name : String)
  | fileMissing (syscall path : String) (taintOffset : Option Nat)
  | pathChecked (syscall path : String)
  | fileOpened (syscall : String) (fd : Int) (path : String) (taintOffset : Option Nat)
  | fileClosed (fd : Int)
  | fileDeleted (syscall path : String)
  | insecurePermissions (api path : String) (mode : Int)
  | insecureTempFile (api path : String) (flags : Int)
  | networkUnreachable (family : Int) (address : String)
  | dlopenFailed (library : String)
  | commandExecuted (api command : String) (taintOffset : Option Nat)
  | processExec (api program : String) (taintOffset : Option Nat)
  | networkEgress (api address : String) (taintOffset : Option Nat)
  | libraryLoad (api library : String) (taintOffset : Option Nat)
  | sqlQuery (api query : String) (taintOffset : Option Nat)
  | destructiveFsOp (api path : String) (taintOffset : Option Nat)
  | formatString (api format : String) (controlled : Bool)
  | runtimeCheck (api language exception check : String) (handled : Bool)
      (message source : String)
  | unknown (raw : String)
  deriving DecidableEq, Repr

/-! ## Fields -/

section Fields

variable (obj : List (String × Json))

/-- A member that is a string. -/
def strField (key : String) : Option String := (Json.lookup key obj).bind Json.asStr

/-- A member that is a 64-bit integer. -/
def i64Field (key : String) : Option Int := (Json.lookup key obj).bind Json.asI64

/-- A flag is a boolean or a number other than zero. -/
def flagField (key : String) : Bool :=
  ((Json.lookup key obj).bind fun value =>
    value.asBool.or (value.asI64.map fun number => number ≠ 0)).getD false

/-- `as i32`. -/
def asI32 (n : Int) : Int := n.bmod (2 ^ 32)

/-- `u32::try_from`. -/
def toU32 (n : Int) : Option Nat := if 0 ≤ n ∧ n < 2 ^ 32 then some n.toNat else none

/-- The offset of a tainted operand, when the line is flagged. -/
def parseTaintOffset : Option Nat :=
  if !flagField obj "u" then none else (i64Field obj "o").bind toU32

/-! ## Kinds -/

/-- A missing variable when there is no result, an access otherwise. -/
def parseGetenv (kind : String) : Option RuntraceEvent := do
  let name ← strField obj "n"
  if ((Json.lookup "r" obj).map Json.isNull).getD true then some (.envVarMissing kind name)
  else some (.envVarAccess kind name)

/-- A missing file when the call failed, an opened one otherwise. -/
def parseOpen (kind : String) : Option RuntraceEvent := do
  let path ← strField obj "p"
  let result := (i64Field obj "r").getD (-1)
  let taintOffset := parseTaintOffset obj
  if 0 ≤ result then
    let fd := asI32 ((i64Field obj "d").getD result)
    some (.fileOpened kind fd path taintOffset)
  else some (.fileMissing kind path taintOffset)

/-- A failed probe of a path: its taint is not read. -/
def parseProbe (kind : String) : Option RuntraceEvent := do
  let path ← strField obj "p"
  some (.fileMissing kind path none)

/-- A path that a call checked. -/
def parsePathCheck : Option RuntraceEvent := do
  let path ← strField obj "p"
  some (.pathChecked ((strField obj "a").getD "access") path)

/-- A descriptor that was closed without error. -/
def parseClose : Option RuntraceEvent :=
  if (i64Field obj "r").getD (-1) = 0 then do
    let fd ← i64Field obj "d"
    some (.fileClosed (asI32 fd))
  else none

/-- A path that was removed without error. -/
def parseDelete (kind : String) : Option RuntraceEvent :=
  if (i64Field obj "r").getD (-1) = 0 then do
    let path ← strField obj "p"
    some (.fileDeleted kind path)
  else none

/-- A mode that lets others write. -/
def parseInsecurePermissions (api : String) : RuntraceEvent :=
  .insecurePermissions api ((strField obj "p").getD "") ((i64Field obj "m").getD 0)

/-- A temporary file opened with predictable flags. -/
def parseInsecureTempFile : RuntraceEvent :=
  .insecureTempFile ((strField obj "a").getD "open") ((strField obj "p").getD "")
    ((i64Field obj "f").getD 0)

/-- An address that could not be reached. -/
def parseConnect : RuntraceEvent :=
  .networkUnreachable (asI32 ((i64Field obj "f").getD 0)) ((strField obj "a").getD "")

/-- A name that could not be resolved. -/
def parseGetaddrinfo : Option RuntraceEvent := do
  let address ← strField obj "n"
  some (.networkUnreachable 0 address)

/-- A library that could not be loaded. -/
def parseDlopen : Option RuntraceEvent := do
  let library ← strField obj "l"
  some (.dlopenFailed library)

/-- A command handed to a shell or to `exec`. -/
def parseCommand (kind : String) : Option RuntraceEvent := do
  let command ← strField obj "c"
  some (.commandExecuted kind command (parseTaintOffset obj))

/-- A call that names its API and one subject. -/
def parseCall (key : String) (event : String → String → Option Nat → RuntraceEvent) :
    Option RuntraceEvent := do
  let api ← strField obj "a"
  let subject ← strField obj key
  some (event api subject (parseTaintOffset obj))

/-- A format string handed to a formatting call. -/
def parseFormat : Option RuntraceEvent := do
  let api ← strField obj "a"
  let format ← strField obj "f"
  some (.formatString api format (flagField obj "u"))

/-- A failed check of a language's runtime. -/
def parseRuntimeCheck : Option RuntraceEvent := do
  let api := (strField obj "a").getD "ada-runtime"
  let language := (strField obj "l").getD "ada"
  let exception ← strField obj "x"
  let check ← strField obj "c"
  some (.runtimeCheck api language exception check (flagField obj "h")
    ((strField obj "m").getD "") ((strField obj "s").getD ""))

/-- `file:line (function)`, without the parts that are missing. -/
def formatAssertionSource (file : String) (line : Option Int) (function : String) : String :=
  let file := String.ofList (trim file.toList)
  let function := String.ofList (trim function.toList)
  match file.isEmpty, line, function.isEmpty with
  | true, none, true => ""
  | true, some line, false => toString line ++ ":" ++ function
  | true, some line, true => toString line
  | true, none, false => function
  | false, some line, true => file ++ ":" ++ toString line
  | false, some line, false => file ++ ":" ++ toString line ++ ":" ++ function
  | false, none, true => file
  | false, none, false => file ++ ":" ++ function

/-- A failed `assert`. -/
def parseAssertionFailed : RuntraceEvent :=
  let api := (strField obj "a").getD "__assert_fail"
  let language := (strField obj "l").getD "c"
  let expression := (((Json.lookup "x" obj).or (Json.lookup "m" obj)).bind Json.asStr).getD ""
  let file := (strField obj "f").getD ""
  let line := i64Field obj "n"
  let function := (strField obj "g").getD ""
  .runtimeCheck api language "AssertionFailure" "assertion" false expression
    (formatAssertionSource file line function)

/-- The parser of each kind of event; an unknown kind is no event. -/
def parseKind (kind : String) : Option RuntraceEvent :=
  if kind ∈ ["getenv", "secure_getenv"] then parseGetenv obj kind
  else if kind ∈ ["open", "openat"] then parseOpen obj kind
  else if kind ∈ ["stat", "access", "faccessat", "readlink", "readlinkat"] then
    parseProbe obj kind
  else if kind = "path_check" then parsePathCheck obj
  else if kind = "close" then parseClose obj
  else if kind ∈ ["unlink", "unlinkat", "remove"] then parseDelete obj kind
  else if kind = "insecure_chmod" then some (parseInsecurePermissions obj "chmod")
  else if kind = "insecure_mkdir" then
    some (parseInsecurePermissions obj ((strField obj "a").getD "mkdir"))
  else if kind = "insecure_tempfile" then some (parseInsecureTempFile obj)
  else if kind = "connect" then some (parseConnect obj)
  else if kind = "getaddrinfo" then parseGetaddrinfo obj
  else if kind = "dlopen" then parseDlopen obj
  else if kind ∈ ["system", "popen"] then parseCommand obj kind
  else if kind = "exec" then parseCall obj "p" .processExec
  else if kind = "net_egress" then parseCall obj "d" .networkEgress
  else if kind = "lib_load" then parseCall obj "l" .libraryLoad
  else if kind = "sql" then parseCall obj "q" .sqlQuery
  else if kind = "fs_destroy" then parseCall obj "p" .destructiveFsOp
  else if kind = "format" then parseFormat obj
  else if kind = "runtime_check" then parseRuntimeCheck obj
  else if kind = "assertion_failed" then some (parseAssertionFailed obj)
  else none

end Fields

/-- The event of an object, by its member `e`. -/
def parseObject (value : Json) : Option RuntraceEvent := do
  let obj ← value.asObject
  let kind ← strField obj "e"
  parseKind obj kind

/-- The event of one line. -/
def parseLine (line : List Char) : Option RuntraceEvent :=
  (Json.fromSlice (toUtf8 (String.ofList line))).bind parseObject

/-! ## Events of the fuzzer itself -/

/-- Variables that only the loader and the language runtimes read. -/
def internalEnvNames : List String :=
  ["LD_PRELOAD", "LD_LIBRARY_PATH", "LANG", "LANGUAGE", "GODEBUG", "GOGC", "GOMAXPROCS",
    "GOTRACEBACK", "GOFLAGS", "GLIBCXX_TUNABLES", "RUST_BACKTRACE", "RUST_LIB_BACKTRACE"]

/-- Prefixes of variables that belong to the fuzzer and its tools. -/
def internalEnvPrefixes : List String :=
  ["GOVFUZZ_", "AFL_", "ASAN_", "UBSAN_", "LSAN_", "MSAN_", "PYTHON", "PERL5", "PERL_", "LC_",
    "LLVM_", "DEBUGINFOD_", "OPENSSL_", "GNUTLS_", "NETTLE_", "P11_KIT_"]

/-- A variable the harness did not ask for. -/
def isInternalEnvName (name : String) : Bool :=
  internalEnvNames.contains name
    || internalEnvPrefixes.any fun start => start.toList.isPrefixOf name.toList

/-- Marks of the paths that a sanitizer's symbolizer opens. -/
def sanitizerPathMarks : List String :=
  ["/.cache/llvm-debuginfod", "/llvm-debuginfod/", "llvm-symbolizer"]

/-- A path opened on a sanitizer's behalf. -/
def isSanitizerOwnedPath (path : String) : Bool :=
  let trimmed := trim path.toList
  sanitizerPathMarks.any fun mark => trimmed.tails.any fun tail => mark.toList.isPrefixOf tail

/-- The event is the harness's own. -/
def shouldKeepEvent : RuntraceEvent → Bool
  | .envVarMissing _ name => !isInternalEnvName name
  | .envVarAccess _ name => !isInternalEnvName name
  | .fileMissing _ path _ => !isSanitizerOwnedPath path
  | _ => true

/-- `parse_str` of the text that some bytes are read as. -/
def parseBytes (bytes : List UInt8) : List RuntraceEvent :=
  parseStr parseLine shouldKeepEvent (fun line => .unknown (String.ofList line))
    (String.ofList (lossy bytes))

end GovFuzz.Runtrace
