import Mathlib.Data.List.Basic

/-!
# EventLog — the probe's events

`crates/event_log/src/event.rs`: the nine record tags of the wire format
and the event each record is read as.
-/

namespace GovFuzz.EventLog

inductive EventTag where
  | begin
  | end
  | crumb
  | target
  | handler
  | raise
  | mock
  | topLevel
  | targetEntry
  deriving DecidableEq, Repr

/-- The `#[repr(u8)]` discriminants. -/
def EventTag.toByte : EventTag → UInt8
  | .begin => 1
  | .end => 2
  | .crumb => 3
  | .target => 4
  | .handler => 5
  | .raise => 6
  | .mock => 7
  | .topLevel => 8
  | .targetEntry => 9

def EventTag.tryFromByte (byte : UInt8) : Option EventTag :=
  match byte with
  | 1 => some .begin
  | 2 => some .end
  | 3 => some .crumb
  | 4 => some .target
  | 5 => some .handler
  | 6 => some .raise
  | 7 => some .mock
  | 8 => some .topLevel
  | 9 => some .targetEntry
  | _ => none

theorem EventTag.tryFromByte_toByte (tag : EventTag) :
    EventTag.tryFromByte tag.toByte = some tag := by
  cases tag <;> rfl

inductive Event where
  | begin (testcaseId : UInt64)
  | end (resultClass : UInt8)
  | crumb (id : UInt32)
  | target (id : UInt32)
  | targetEntry
  | handler (exceptionName exceptionMessage handlerFile : String)
      (handlerLine lastBreadcrumb targetId : UInt32) (testcaseId : UInt64)
  | raise (exceptionName file : String) (line breadcrumb : UInt32)
  | mock (symbol : String)
  | topLevel (exceptionName exceptionMessage : String)
  deriving DecidableEq, Repr

end GovFuzz.EventLog
