import GovFuzz.Lib.Bytes
import Mathlib.Data.List.Basic

/-!
# AdaRuntime — the event probe

`ada_runtime/adafuzz-probe.adb`, the wire-format source of truth: the
record writers, and the package as a state machine whose calls append
records to the event file.  A `Character` is its position, `Character'Pos`,
so an Ada `String` is a list of bytes.

The package swallows every exception of the file layer; the model is the
run in which the event file opens and every write succeeds.
-/

namespace GovFuzz.AdaRuntime.Probe

open GovFuzz.Lib

/-- `Standard.Natural` of a 32-bit `Integer`. -/
abbrev Natural := Fin (2 ^ 31)

/-- A string the probe is handed: any Characters, at most 16 MiB of them. -/
structure AdaString where
  chars : List UInt8
  length_le : chars.length ≤ 16 * 1024 * 1024

/-! ## The record writers -/

/-- One byte. -/
def writeU8Le (value : UInt8) : List UInt8 := [value]

/-- Four bytes, the low one first. -/
def writeU32Le (value : UInt32) : List UInt8 :=
  [(value &&& 0xFF).toUInt8,
   ((value >>> 8) &&& 0xFF).toUInt8,
   ((value >>> 16) &&& 0xFF).toUInt8,
   ((value >>> 24) &&& 0xFF).toUInt8]

/-- Eight bytes, the low one first. -/
def writeU64Le (value : UInt64) : List UInt8 :=
  [(value &&& 0xFF).toUInt8,
   ((value >>> 8) &&& 0xFF).toUInt8,
   ((value >>> 16) &&& 0xFF).toUInt8,
   ((value >>> 24) &&& 0xFF).toUInt8,
   ((value >>> 32) &&& 0xFF).toUInt8,
   ((value >>> 40) &&& 0xFF).toUInt8,
   ((value >>> 48) &&& 0xFF).toUInt8,
   ((value >>> 56) &&& 0xFF).toUInt8]

/-- A length and the bytes. -/
def writeString (value : List UInt8) : List UInt8 :=
  writeU32Le (UInt32.ofNat value.length) ++ value

/-- The tag bytes of the records. -/
def tagBegin : UInt8 := 1
def tagEnd : UInt8 := 2
def tagCrumb : UInt8 := 3
def tagTarget : UInt8 := 4
def tagHandler : UInt8 := 5
def tagRaise : UInt8 := 6
def tagMock : UInt8 := 7
def tagTopLevel : UInt8 := 8
def tagEntry : UInt8 := 9

/-- One record of the event file, with every field its writer emits:
`mock` and `topLevel` carry the trailing breadcrumb, target and testcase. -/
inductive ProbeEvent where
  | begin (testcaseId : UInt64)
  | end (resultClass : UInt8)
  | crumb (id : UInt32)
  | target (id : UInt32)
  | targetEntry
  | handler (exceptionName exceptionMessage handlerFile : AdaString)
      (handlerLine lastBreadcrumb targetId : UInt32) (testcaseId : UInt64)
  | raise (exceptionName file : AdaString) (line breadcrumb : UInt32)
  | mock (symbol : AdaString) (lastBreadcrumb targetId : UInt32) (testcaseId : UInt64)
  | topLevel (exceptionName exceptionMessage : AdaString)
      (lastBreadcrumb targetId : UInt32) (testcaseId : UInt64)

/-- The byte layout of a record: `Write_Event` and the `Write_*_Event`
procedures. -/
def ProbeEvent.encode : ProbeEvent → List UInt8
  | .begin testcaseId => writeU8Le tagBegin ++ writeU64Le testcaseId
  | .end resultClass => writeU8Le tagEnd ++ writeU8Le resultClass
  | .crumb id => writeU8Le tagCrumb ++ writeU32Le id
  | .target id => writeU8Le tagTarget ++ writeU32Le id
  | .targetEntry => writeU8Le tagEntry
  | .handler exceptionName exceptionMessage handlerFile handlerLine lastBreadcrumb targetId
      testcaseId =>
      writeU8Le tagHandler ++ (writeString exceptionName.chars ++
        (writeString exceptionMessage.chars ++ (writeString handlerFile.chars ++
        (writeU32Le handlerLine ++ (writeU32Le lastBreadcrumb ++ (writeU32Le targetId ++
        writeU64Le testcaseId))))))
  | .raise exceptionName file line breadcrumb =>
      writeU8Le tagRaise ++ (writeString exceptionName.chars ++ (writeString file.chars ++
        (writeU32Le line ++ writeU32Le breadcrumb)))
  | .mock symbol lastBreadcrumb targetId testcaseId =>
      writeU8Le tagMock ++ (writeString symbol.chars ++ (writeU32Le lastBreadcrumb ++
        (writeU32Le targetId ++ writeU64Le testcaseId)))
  | .topLevel exceptionName exceptionMessage lastBreadcrumb targetId testcaseId =>
      writeU8Le tagTopLevel ++ (writeString exceptionName.chars ++
        (writeString exceptionMessage.chars ++ (writeU32Le lastBreadcrumb ++
        (writeU32Le targetId ++ writeU64Le testcaseId))))

/-- The event file after a sequence of records. -/
def encodeEvents (events : List ProbeEvent) : List UInt8 := events.flatMap ProbeEvent.encode

/-! ## The writers are the little-endian codec -/

theorem writeU32Le_eq (value : UInt32) : writeU32Le value = leBytes 4 value.toNat := by
  have hand (n : Nat) : n &&& 255 = n % 256 := Nat.and_two_pow_sub_one_eq_mod n 8
  simp only [writeU32Le, leBytes, List.cons.injEq, and_true]
  refine ⟨?_, ?_, ?_, ?_⟩ <;>
  · apply UInt8.toNat_inj.mp
    simp [UInt8.toNat_ofNat', hand, Nat.shiftRight_eq_div_pow, Nat.div_div_eq_div_mul]

theorem writeU64Le_eq (value : UInt64) : writeU64Le value = leBytes 8 value.toNat := by
  have hand (n : Nat) : n &&& 255 = n % 256 := Nat.and_two_pow_sub_one_eq_mod n 8
  simp only [writeU64Le, leBytes, List.cons.injEq, and_true]
  refine ⟨?_, ?_, ?_, ?_, ?_, ?_, ?_, ?_⟩ <;>
  · apply UInt8.toNat_inj.mp
    simp [UInt8.toNat_ofNat', hand, Nat.shiftRight_eq_div_pow, Nat.div_div_eq_div_mul]

/-! ## The package as a state machine -/

/-- Breadcrumbs that the probe remembers. -/
def ringSize : Nat := 16

/-- The package's variables, and the bytes the event file holds so far. -/
structure State where
  crumbs : Fin ringSize → UInt32
  cursor : Fin ringSize
  curTgt : UInt32
  curTc : UInt64
  buf : List UInt8

/-- The probe before any call. -/
def State.initial : State :=
  { crumbs := fun _ => 0, cursor := ⟨0, by decide⟩, curTgt := 0, curTc := 0, buf := [] }

/-- The breadcrumb written last. -/
def State.lastBreadcrumb (s : State) : UInt32 :=
  s.crumbs ⟨(s.cursor.val + ringSize - 1) % ringSize, Nat.mod_lt _ (by decide)⟩

/-- The calls of the package specification that write a record. -/
inductive Call where
  | beginTestcase (tc : UInt64)
  | endTestcase (resultClass : UInt8)
  | setTarget (t : UInt32)
  | targetEntry
  | breadcrumb (id : UInt32)
  | onHandlerEntry (exceptionName exceptionMessage handlerFile : AdaString)
      (handlerLine : Natural) (lastBreadcrumb targetId : UInt32) (testcaseId : UInt64)
  | onExplicitRaise (exceptionName file : AdaString) (line : Natural) (breadcrumb : UInt32)
  | onTopLevelCatch (exceptionName exceptionMessage : AdaString)
  | mockCall (symbol : AdaString)

/-- The package variables after a call, before its record is written. -/
def State.note (s : State) : Call → State
  | .beginTestcase tc =>
      { s with curTc := tc, cursor := ⟨0, by decide⟩, crumbs := fun _ => 0 }
  | .setTarget t => { s with curTgt := t }
  | .breadcrumb id =>
      { s with
        crumbs := fun i => if i = s.cursor then id else s.crumbs i,
        cursor := ⟨(s.cursor.val + 1) % ringSize, Nat.mod_lt _ (by decide)⟩ }
  | _ => s

/-- The record a call writes; the trailing context is the package's own. -/
def State.record (s : State) : Call → ProbeEvent
  | .beginTestcase tc => .begin tc
  | .endTestcase resultClass => .end resultClass
  | .setTarget t => .target t
  | .targetEntry => .targetEntry
  | .breadcrumb id => .crumb id
  | .onHandlerEntry exceptionName exceptionMessage handlerFile handlerLine lastBreadcrumb
      targetId testcaseId =>
      .handler exceptionName exceptionMessage handlerFile (UInt32.ofNat handlerLine.val)
        lastBreadcrumb targetId testcaseId
  | .onExplicitRaise exceptionName file line breadcrumb =>
      .raise exceptionName file (UInt32.ofNat line.val) breadcrumb
  | .onTopLevelCatch exceptionName exceptionMessage =>
      .topLevel exceptionName exceptionMessage s.lastBreadcrumb s.curTgt s.curTc
  | .mockCall symbol => .mock symbol s.lastBreadcrumb s.curTgt s.curTc

/-- One call of the probe. -/
def State.step (s : State) (call : Call) : State :=
  { s.note call with buf := s.buf ++ ((s.note call).record call).encode }

/-- The calls in order. -/
def State.run (s : State) (calls : List Call) : State := calls.foldl State.step s

/-- The records a run of calls writes, in order. -/
def State.records : State → List Call → List ProbeEvent
  | _, [] => []
  | s, call :: calls => (s.note call).record call :: (s.step call).records calls

/-- The event file is the encoding of the records of the run. -/
theorem State.run_buf (s : State) (calls : List Call) :
    (s.run calls).buf = s.buf ++ encodeEvents (s.records calls) := by
  induction calls generalizing s with
  | nil => simp [run, records, encodeEvents]
  | cons call calls ih =>
      have h := ih (s.step call)
      simp only [run, List.foldl_cons, records, encodeEvents, List.flatMap_cons] at h ⊢
      rw [h]
      simp [step]

end GovFuzz.AdaRuntime.Probe
