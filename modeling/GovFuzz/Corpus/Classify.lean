import GovFuzz.Corpus.Manager

/-!
# Corpus — classification and signatures

`crates/corpus/src/classify.rs` and `signature.rs`: which exceptions of a
testcase are recorded, how each is classified, and the digest that names
it.  SHA-256 comes from the `sha2` crate and is a parameter.
-/

namespace GovFuzz.Corpus

open GovFuzz.EventLog

/-- A SHA-256 digest, which is also what a signature is. -/
structure Signature where
  bytes : List UInt8
  length_eq : bytes.length = 32
  deriving DecidableEq

/-- What a handler's exception was. -/
inductive Classification where
  | unhandled
  | swallowedPredefined
  | swallowedUser
  | explicitRaise
  deriving DecidableEq, Repr

/-- `usize::MAX`. -/
def unhandledHandlerIndex : Nat := 2 ^ 64 - 1

/-- Equal up to the case of ASCII letters. -/
def eqIgnoreAsciiCase (left right : String) : Bool := left.toLower = right.toLower

/-- The handler that stands for an exception nothing handled. -/
def syntheticTopLevelHandler (testcase : Testcase) (top : TopLevelEvent) : HandlerEvent where
  sequenceIndex := 2 ^ 64 - 1
  exceptionName := top.exceptionName
  exceptionMessage := top.exceptionMessage
  handlerFile := "<unhandled>"
  handlerLine := 0
  lastBreadcrumb := testcase.crumbs.getLast?.getD 0
  targetId := testcase.targetId
  testcaseId := testcase.testcaseId

/-- The handler of an index. -/
def resolveHandler (testcase : Testcase) (handlerIndex : Nat) : Option HandlerEvent :=
  if handlerIndex = unhandledHandlerIndex then
    testcase.topLevel.map (syntheticTopLevelHandler testcase)
  else testcase.handlers[handlerIndex]?

/-- `name.rsplit('.').next()`. -/
def lastSegment (name : String) : String :=
  String.ofList (name.toList.reverse.takeWhile (· ≠ '.')).reverse

/-- An exception of the language. -/
def isPredefinedException (name : String) : Bool :=
  ["CONSTRAINT_ERROR", "PROGRAM_ERROR", "STORAGE_ERROR", "TASKING_ERROR", "NUMERIC_ERROR"].any
    fun predefined => eqIgnoreAsciiCase predefined (lastSegment name)

/-- A raise that explains a handler. -/
def isPrecedingMatchingRaise (handler : HandlerEvent) (raise : RaiseEvent) : Bool :=
  raise.sequenceIndex < handler.sequenceIndex
    && eqIgnoreAsciiCase raise.exceptionName handler.exceptionName

/-- The exception was raised by the program itself. -/
def hasPrecedingMatchingRaise (testcase : Testcase) (handler : HandlerEvent) : Bool :=
  testcase.raises.any (isPrecedingMatchingRaise handler)

/-- The class of one handler. -/
def classifyHandler (testcase : Testcase) (handler : HandlerEvent) : Classification :=
  if hasPrecedingMatchingRaise testcase handler then .explicitRaise
  else if isPredefinedException handler.exceptionName then .swallowedPredefined
  else .swallowedUser

/-- The classes of a run's handlers, and the unhandled one. -/
def classify (testcase : Testcase) : List (Nat × Classification) :=
  testcase.handlers.zipIdx.map (fun (handler, handlerIndex) =>
      (handlerIndex, classifyHandler testcase handler))
    ++ match testcase.topLevel with
      | some topLevel =>
          if testcase.handlers.any fun handler =>
              eqIgnoreAsciiCase handler.exceptionName topLevel.exceptionName then []
          else [(unhandledHandlerIndex, .unhandled)]
      | none => []

/-- `max_by_key` on the sequence index: the last of the greatest. -/
def latestRaise : List RaiseEvent → Option RaiseEvent
  | [] => none
  | raise :: raises =>
      match latestRaise raises with
      | none => some raise
      | some later => if later.sequenceIndex < raise.sequenceIndex then some raise else some later

/-- Where the latest matching raise stands. -/
def precedingMatchingRaiseBreadcrumb (testcase : Testcase) (handler : HandlerEvent) :
    Option String :=
  (latestRaise (testcase.raises.filter (isPrecedingMatchingRaise handler))).map fun raise =>
    toString raise.breadcrumb.toNat

/-- The text whose digest is the signature. -/
def signatureText (testcase : Testcase) (handler : HandlerEvent) : String :=
  "\x00".intercalate
    [toString handler.targetId.toNat,
      handler.exceptionName,
      handler.handlerFile ++ ":" ++ toString handler.handlerLine.toNat,
      toString handler.lastBreadcrumb.toNat,
      (precedingMatchingRaiseBreadcrumb testcase handler).getD "",
      "0", "", "", ""]

/-- The hash of what identifies the handler. -/
def computeSignature (sha256 : List UInt8 → Signature) (testcase : Testcase)
    (handler : HandlerEvent) : Signature :=
  sha256 (signatureText testcase handler).toUTF8.toList

/-- A digit in lower case. -/
def hexDigit (n : Nat) : Char := ("0123456789abcdef".toList).getD n '0'

/-- Two digits a byte. -/
def encodeHex (bytes : List UInt8) : String :=
  String.ofList (bytes.flatMap fun byte => [hexDigit (byte.toNat / 16), hexDigit (byte.toNat % 16)])

/-- The signature in hexadecimal. -/
def Signature.hex (signature : Signature) : String := encodeHex signature.bytes

/-- The manager has its own copy of the hex encoder. -/
def contentHex (digest : Signature) : String := encodeHex digest.bytes

/-- What `record` finds in an event list: each exception it records, with
its signature, in order. -/
def foundSignatures (sha256 : List UInt8 → Signature) (events : List Event) :
    List (Signature × Classification) :=
  (groupEvents events).flatMap fun testcase =>
    (classify testcase).filterMap fun (handlerIndex, classification) =>
      (resolveHandler testcase handlerIndex).map fun handler =>
        (computeSignature sha256 testcase handler, classification)

end GovFuzz.Corpus
