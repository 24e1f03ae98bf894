import GovFuzz.EventLog.Event
import GovFuzz.Lib.ByteReader
import GovFuzz.Lib.Utf8

/-!
# EventLog — reading the probe's byte stream

`crates/event_log/src/reader.rs`.  The reader stands on the bytes still to
come; reads of an in-memory stream do not fail for reasons of their own,
so the only errors are the reader's.  `readEvents` is the loop every
caller writes around `nextEvent`: pull events until `Ok(None)`.
-/

namespace GovFuzz.EventLog

open GovFuzz.Lib

/-- The two `io::Error`s of kind `InvalidData` the reader builds. -/
inductive InvalidData where
  | message (text : String)
  | fromUtf8 (bytes : List UInt8)
  deriving DecidableEq, Repr

inductive EventReadError where
  | eof
  | unknownTag (tag : UInt8)
  | io (error : InvalidData)
  | truncated
  deriving DecidableEq, Repr

abbrev EventReader := ByteReader EventReadError

def readArray (n : Nat) : EventReader (List UInt8) :=
  ByteReader.exact .truncated n

def readU8 : EventReader UInt8 := do
  return UInt8.ofNat (leNat (← readArray 1))

def readU32 : EventReader UInt32 := do
  return UInt32.ofNat (leNat (← readArray 4))

def readU64 : EventReader UInt64 := do
  return UInt64.ofNat (leNat (← readArray 8))

def maxStringLen : Nat := 16 * 1024 * 1024

def lengthMessage (len : Nat) : String :=
  "event-log string length " ++ toString len ++ " exceeds cap " ++ toString maxStringLen

/-- `String::from_utf8`, with its failure as the reader reports it. -/
def checkUtf8 (bytes : List UInt8) : Except EventReadError String :=
  match fromUtf8 bytes with
  | some text => .ok text
  | none => .error (.io (.fromUtf8 bytes))

def readString : EventReader String := do
  let len ← readU32
  if maxStringLen < len.toNat then
    throw (.io (.message (lengthMessage len.toNat)))
  else do
    let bytes ← readArray len.toNat
    checkUtf8 bytes

/-- The fields that follow a tag.  `mock` and `topLevel` read the trailing
context to stay aligned and drop it. -/
def readPayload : EventTag → EventReader Event
  | .begin => do
      let testcaseId ← readU64
      return .begin testcaseId
  | .end => do
      let resultClass ← readU8
      return .end resultClass
  | .crumb => do
      let id ← readU32
      return .crumb id
  | .target => do
      let id ← readU32
      return .target id
  | .targetEntry => return .targetEntry
  | .handler => do
      let exceptionName ← readString
      let exceptionMessage ← readString
      let handlerFile ← readString
      let handlerLine ← readU32
      let lastBreadcrumb ← readU32
      let targetId ← readU32
      let testcaseId ← readU64
      return .handler exceptionName exceptionMessage handlerFile handlerLine
        lastBreadcrumb targetId testcaseId
  | .raise => do
      let exceptionName ← readString
      let file ← readString
      let line ← readU32
      let breadcrumb ← readU32
      return .raise exceptionName file line breadcrumb
  | .mock => do
      let symbol ← readString
      let _lastBreadcrumb ← readU32
      let _targetId ← readU32
      let _testcaseId ← readU64
      return .mock symbol
  | .topLevel => do
      let exceptionName ← readString
      let exceptionMessage ← readString
      let _lastBreadcrumb ← readU32
      let _targetId ← readU32
      let _testcaseId ← readU64
      return .topLevel exceptionName exceptionMessage

/-- One event; `none` when the stream has ended before a tag. -/
def nextEvent : EventReader (Option Event) := fun bytes =>
  match bytes with
  | [] => .ok (none, [])
  | byte :: rest =>
      match EventTag.tryFromByte byte with
      | none => .error (.unknownTag byte)
      | some tag => (do return some (← readPayload tag) : EventReader (Option Event)).run rest

/-! ## Every event takes at least its tag off the stream -/

open ByteReader in
theorem readU32_shrinks : Shrinks readU32 :=
  Shrinks.bind (Shrinks.exact _ _) (fun _ => Shrinks.pure _)

open ByteReader in
theorem readU64_shrinks : Shrinks readU64 :=
  Shrinks.bind (Shrinks.exact _ _) (fun _ => Shrinks.pure _)

open ByteReader in
theorem readString_shrinks : Shrinks readString := by
  refine Shrinks.bind readU32_shrinks (fun len => ?_)
  split
  · exact Shrinks.throw _
  · refine Shrinks.bind (Shrinks.exact _ _) (fun bytes => ?_)
    unfold checkUtf8
    split
    · exact Shrinks.pure _
    · exact Shrinks.throw _

open ByteReader in
/-- A payload that is read leaves no more than there was, a case per tag. -/
theorem readPayload_shrinks (tag : EventTag) : Shrinks (readPayload tag) := by
  cases tag with
  | begin => exact Shrinks.bind readU64_shrinks fun _ => Shrinks.pure _
  | «end» =>
      exact Shrinks.bind (Shrinks.bind (Shrinks.exact _ _) fun _ => Shrinks.pure _) fun _ =>
        Shrinks.pure _
  | crumb => exact Shrinks.bind readU32_shrinks fun _ => Shrinks.pure _
  | target => exact Shrinks.bind readU32_shrinks fun _ => Shrinks.pure _
  | targetEntry => exact Shrinks.pure _
  | handler =>
      exact Shrinks.bind readString_shrinks fun _ => Shrinks.bind readString_shrinks fun _ =>
        Shrinks.bind readString_shrinks fun _ => Shrinks.bind readU32_shrinks fun _ =>
        Shrinks.bind readU32_shrinks fun _ => Shrinks.bind readU32_shrinks fun _ =>
        Shrinks.bind readU64_shrinks fun _ => Shrinks.pure _
  | raise =>
      exact Shrinks.bind readString_shrinks fun _ => Shrinks.bind readString_shrinks fun _ =>
        Shrinks.bind readU32_shrinks fun _ => Shrinks.bind readU32_shrinks fun _ =>
        Shrinks.pure _
  | mock =>
      exact Shrinks.bind readString_shrinks fun _ => Shrinks.bind readU32_shrinks fun _ =>
        Shrinks.bind readU32_shrinks fun _ => Shrinks.bind readU64_shrinks fun _ =>
        Shrinks.pure _
  | topLevel =>
      exact Shrinks.bind readString_shrinks fun _ => Shrinks.bind readString_shrinks fun _ =>
        Shrinks.bind readU32_shrinks fun _ => Shrinks.bind readU32_shrinks fun _ =>
        Shrinks.bind readU64_shrinks fun _ => Shrinks.pure _

theorem nextEvent_lt {bytes rest : List UInt8} {event : Event}
    (h : nextEvent.run bytes = .ok (some event, rest)) : rest.length < bytes.length := by
  cases bytes with
  | nil => cases h
  | cons byte bytes =>
      simp only [nextEvent, StateT.run] at h
      split at h
      · cases h
      · rename_i tag _
        have := ByteReader.Shrinks.bind (readPayload_shrinks tag)
          (fun e => ByteReader.Shrinks.pure (some e)) bytes (some event) rest h
        simp only [List.length_cons]
        omega

/-- Pull events until the stream ends: the events in order, and what is
left of the bytes. -/
def readEvents (bytes : List UInt8) : Except EventReadError (List Event × List UInt8) :=
  match _h : nextEvent.run bytes with
  | .error e => .error e
  | .ok (none, rest) => .ok ([], rest)
  | .ok (some event, rest) =>
      (readEvents rest).map (fun (events, left) => (event :: events, left))
termination_by bytes.length
decreasing_by exact nextEvent_lt _h

theorem readEvents_end {bytes r : List UInt8} (h : nextEvent.run bytes = .ok (none, r)) :
    readEvents bytes = .ok ([], r) := by
  rw [readEvents]
  split <;> simp_all

theorem readEvents_nil : readEvents [] = .ok ([], []) := readEvents_end rfl

theorem readEvents_cons {bytes rest : List UInt8} {e : Event}
    (h : nextEvent.run bytes = .ok (some e, rest)) :
    readEvents bytes
      = (readEvents rest).map (fun (events, left) => (e :: events, left)) := by
  rw [readEvents]
  split <;> simp_all

theorem readEvents_error {bytes : List UInt8} {e : EventReadError}
    (h : nextEvent.run bytes = .error e) : readEvents bytes = .error e := by
  rw [readEvents]
  split <;> simp_all

end GovFuzz.EventLog
