import GovFuzz.Lib.Bytes
import Mathlib.Data.List.Basic
import Mathlib.Data.List.TakeDrop

/-!
# Runtrace — the shim's log

`crates/govfuzz_runtrace_shim/src/jsonl.rs`: every event is formatted into a
buffer of 4 KiB, whose writer stops silently when the buffer is full, and is
appended to the log with one write.  What reaches the log of an event is a
prefix of its full line (`emitted_eq`).
-/

namespace GovFuzz.Runtrace

/-- `EVENT_BUFFER_SIZE`. -/
def eventBufferSize : Nat := 4096

/-- `MAX_LOG_BYTES`. -/
def maxLogBytes : Nat := 16 * 1024 * 1024

/-! ## The builder -/

/-- A line that is being written in a buffer of fixed size. -/
structure Builder where
  buf : List UInt8
  truncated : Bool
  fits : buf.length ≤ eventBufferSize

namespace Builder

/-- An empty buffer. -/
def empty : Builder := ⟨[], false, Nat.zero_le _⟩

/-- One byte; a full buffer drops it and says so. -/
def writeByte (b : Builder) (byte : UInt8) : Builder :=
  if h : b.buf.length ≥ eventBufferSize then { b with truncated := true }
  else ⟨b.buf ++ [byte], b.truncated, by rw [List.length_append, List.length_singleton]; omega⟩

/-- The bytes in order. -/
def writeBytes (b : Builder) (bytes : List UInt8) : Builder :=
  bytes.foldl writeByte b

/-- A key and its colon. -/
def writeKvOpen (b : Builder) (key : List UInt8) : Builder :=
  ((b.writeByte 34).writeBytes key).writeBytes [34, 58]

end Builder

/-- A digit in lower case. -/
def hexDigit (n : UInt8) : UInt8 := if n < 10 then 48 + n else 97 + n - 10

namespace Builder

/-- One byte of a quoted string. -/
def writeEscaped (b : Builder) (byte : UInt8) : Builder :=
  if byte = 34 then b.writeBytes [92, 34]
  else if byte = 92 then b.writeBytes [92, 92]
  else if byte = 10 then b.writeBytes [92, 110]
  else if byte = 13 then b.writeBytes [92, 114]
  else if byte = 9 then b.writeBytes [92, 116]
  else if 0x20 ≤ byte && byte ≤ 0x7e then b.writeByte byte
  else
    let hi := (byte >>> 4) &&& 0xf
    let lo := byte &&& 0xf
    ((b.writeBytes [92, 117, 48, 48]).writeByte (hexDigit hi)).writeByte (hexDigit lo)

/-- A string in quotes. -/
def writeStrQuoted (b : Builder) (value : List UInt8) : Builder :=
  (value.foldl writeEscaped (b.writeByte 34)).writeByte 34

end Builder

/-- The loop of `write_i64`: the digits of a number in front of those there. -/
def digitsLoop (u : Nat) (tmp : List UInt8) : List UInt8 :=
  if u = 0 then tmp
  else digitsLoop (u / 10) (UInt8.ofNat (48 + u % 10) :: tmp)
termination_by u
decreasing_by omega

namespace Builder

/-- A number in decimal. -/
def writeI64 (b : Builder) (value : Int64) : Builder :=
  if value = 0 then b.writeByte 48
  else
    let neg := value < 0
    let n := if neg then -value else value
    let b := if neg then b.writeByte 45 else b
    b.writeBytes (digitsLoop n.toUInt64.toNat [])

end Builder

/-! ## Events -/

/-- A key: ASCII, without quotes or backslashes. -/
structure Key where
  bytes : List UInt8
  plain : ∀ b ∈ bytes, b < 128 ∧ b ≠ 34 ∧ b ≠ 92

/-- The value of a field. -/
inductive FieldValue where
  | str (value : List UInt8)
  | i64 (value : Int64)
  | null

/-- A key and its value. -/
structure Field where
  key : Key
  value : FieldValue

/-- An event and its fields. -/
structure Event where
  name : List UInt8
  fields : List Field

/-- The key of the event's name. -/
def eventKey : Key := ⟨[101], by decide⟩

namespace Builder

/-- The line up to its name. -/
def new (eventName : List UInt8) : Builder :=
  ((empty.writeByte 123).writeKvOpen eventKey.bytes).writeStrQuoted eventName

/-- `field_str`, `field_i64` or `field_null`. -/
def field (b : Builder) (f : Field) : Builder :=
  let b := (b.writeByte 44).writeKvOpen f.key.bytes
  match f.value with
  | .str value => b.writeStrQuoted value
  | .i64 value => b.writeI64 value
  | .null => b.writeBytes [110, 117, 108, 108]

/-- The line that `emit` hands to `emit_raw`. -/
def finish (b : Builder) : List UInt8 := ((b.writeByte 125).writeByte 10).buf

end Builder

/-- The bytes the shim writes for an event. -/
def emitted (e : Event) : List UInt8 := (e.fields.foldl Builder.field (Builder.new e.name)).finish

/-! ## Full lines -/

/-- The bytes a string writes for a byte. -/
def escaped (byte : UInt8) : List UInt8 :=
  if byte = 34 then [92, 34]
  else if byte = 92 then [92, 92]
  else if byte = 10 then [92, 110]
  else if byte = 13 then [92, 114]
  else if byte = 9 then [92, 116]
  else if 0x20 ≤ byte && byte ≤ 0x7e then [byte]
  else [92, 117, 48, 48, hexDigit ((byte >>> 4) &&& 0xf), hexDigit (byte &&& 0xf)]

/-- A number in decimal. -/
def decimal (value : Int64) : List UInt8 :=
  if value = 0 then [48]
  else
    (if value < 0 then [45] else [])
      ++ digitsLoop (if value < 0 then -value else value).toUInt64.toNat []

/-- The value as it is written when there is room. -/
def FieldValue.text : FieldValue → List UInt8
  | .str value => 34 :: (value.flatMap escaped ++ [34])
  | .i64 value => decimal value
  | .null => [110, 117, 108, 108]

/-- The field as it is written when there is room. -/
def Field.text (f : Field) : List UInt8 := 34 :: (f.key.bytes ++ 34 :: 58 :: f.value.text)

/-- The name of an event is its first field. -/
def Event.allFields (e : Event) : List Field := ⟨eventKey, .str e.name⟩ :: e.fields

/-- Fields separated by commas. -/
def fieldsText : List Field → List UInt8
  | [] => []
  | [f] => f.text
  | f :: g :: fields => f.text ++ 44 :: fieldsText (g :: fields)

/-- The whole line of an event. -/
def Event.line (e : Event) : List UInt8 := 123 :: (fieldsText e.allFields ++ [125, 10])

/-- `f` appends `w`, as far as the buffer goes. -/
def Writes (f : Builder → Builder) (w : List UInt8) : Prop :=
  ∀ b, (f b).buf = (b.buf ++ w).take eventBufferSize

theorem Writes.comp {f g : Builder → Builder} {w v : List UInt8} (hf : Writes f w)
    (hg : Writes g v) : Writes (fun b => g (f b)) (w ++ v) := by
  intro b
  rw [hg, hf, ← List.append_assoc]
  generalize b.buf ++ w = l
  rw [List.take_append, List.take_append, List.take_take, min_self, List.length_take]
  congr 1
  by_cases h : l.length ≤ eventBufferSize
  · rw [min_eq_right h]
  · rw [min_eq_left (by omega), Nat.sub_self, Nat.sub_eq_zero_of_le (by omega)]

theorem Writes.of_eq {f : Builder → Builder} {w v : List UInt8} (h : Writes f w)
    (heq : w = v) : Writes f v := heq ▸ h

theorem Writes.id : Writes (fun b => b) [] := by
  intro b
  rw [List.append_nil, List.take_of_length_le b.fits]

theorem Writes.foldl {α : Type} {f : Builder → α → Builder} {w : α → List UInt8}
    (h : ∀ a, Writes (fun b => f b a) (w a)) (items : List α) :
    Writes (fun b => items.foldl f b) (items.flatMap w) := by
  induction items with
  | nil => exact Writes.id
  | cons a items ih => exact (h a).comp ih

namespace Builder

theorem writes_writeByte (byte : UInt8) : Writes (fun b => b.writeByte byte) [byte] := by
  intro b
  unfold writeByte
  dsimp only
  split
  case isTrue h =>
    have hfull := b.fits
    rw [List.take_append_of_le_length (by omega), List.take_of_length_le (by omega)]
  case isFalse h =>
    rw [List.take_of_length_le (by rw [List.length_append, List.length_singleton]; omega)]

theorem writes_writeBytes (bytes : List UInt8) : Writes (fun b => b.writeBytes bytes) bytes := by
  have h := Writes.foldl writes_writeByte bytes
  rw [List.flatMap_singleton'] at h
  exact h

theorem writes_writeKvOpen (key : List UInt8) :
    Writes (fun b => b.writeKvOpen key) (34 :: (key ++ [34, 58])) := by
  have h := ((writes_writeByte 34).comp (writes_writeBytes key)).comp (writes_writeBytes [34, 58])
  exact h.of_eq (by simp)

theorem writes_writeEscaped (byte : UInt8) :
    Writes (fun b => b.writeEscaped byte) (escaped byte) := by
  unfold writeEscaped escaped
  split_ifs
  · exact writes_writeBytes _
  · exact writes_writeBytes _
  · exact writes_writeBytes _
  · exact writes_writeBytes _
  · exact writes_writeBytes _
  · exact writes_writeByte _
  · have h := ((writes_writeBytes [92, 117, 48, 48]).comp
      (writes_writeByte (hexDigit ((byte >>> 4) &&& 0xf)))).comp
      (writes_writeByte (hexDigit (byte &&& 0xf)))
    exact h.of_eq (by simp)

theorem writes_writeStrQuoted (value : List UInt8) :
    Writes (fun b => b.writeStrQuoted value) (FieldValue.str value).text := by
  have h := ((writes_writeByte 34).comp (Writes.foldl writes_writeEscaped value)).comp
    (writes_writeByte 34)
  exact h.of_eq (by simp [FieldValue.text])

theorem writes_writeI64 (value : Int64) : Writes (fun b => b.writeI64 value) (decimal value) := by
  unfold writeI64 decimal
  split
  · exact writes_writeByte 48
  · refine Writes.comp (f := fun b => if value < 0 then b.writeByte 45 else b) ?_
      (writes_writeBytes _)
    split
    · exact writes_writeByte 45
    · exact Writes.id

theorem writes_field (f : Field) : Writes (fun b => b.field f) (44 :: f.text) := by
  have hopen := (writes_writeByte 44).comp (writes_writeKvOpen f.key.bytes)
  have hvalue : Writes (fun b => match f.value with
      | .str value => b.writeStrQuoted value
      | .i64 value => b.writeI64 value
      | .null => b.writeBytes [110, 117, 108, 108]) f.value.text := by
    cases f.value with
    | str value => exact writes_writeStrQuoted value
    | i64 value => exact writes_writeI64 value
    | null => exact writes_writeBytes _
  exact (hopen.comp hvalue).of_eq (by simp [Field.text])

end Builder

theorem fieldsText_cons (f : Field) (fields : List Field) :
    fieldsText (f :: fields) = f.text ++ fields.flatMap fun g => 44 :: g.text := by
  induction fields generalizing f with
  | nil => simp [fieldsText]
  | cons g fields ih => rw [fieldsText, ih, List.flatMap_cons, List.cons_append]

/-- The log gets the front of a line. -/
theorem emitted_eq (e : Event) : emitted e = e.line.take eventBufferSize := by
  have hnew : Writes (fun b => ((b.writeByte 123).writeKvOpen eventKey.bytes).writeStrQuoted
      e.name) (123 :: (Field.mk eventKey (.str e.name)).text) := by
    have h := ((Builder.writes_writeByte 123).comp
      (Builder.writes_writeKvOpen eventKey.bytes)).comp (Builder.writes_writeStrQuoted e.name)
    exact h.of_eq (by simp [Field.text])
  have hfields := hnew.comp (Writes.foldl Builder.writes_field e.fields)
  have hall := (hfields.comp (Builder.writes_writeByte 125)).comp (Builder.writes_writeByte 10)
  have h := hall Builder.empty
  rw [Event.line, Event.allFields, fieldsText_cons]
  refine h.trans ?_
  simp [Builder.empty]

/-! ## The log -/

/-- The log file and the bytes counted against its cap. -/
structure Log where
  written : List UInt8
  logBytes : Nat
  deriving DecidableEq

/-- One line, dropped when it would pass the cap. -/
def emitRaw (log : Log) (line : List UInt8) : Log :=
  let newTotal := log.logBytes + line.length
  if newTotal > maxLogBytes then { log with logBytes := newTotal }
  else ⟨log.written ++ line, newTotal⟩

/-- The log of these events. -/
def emitAll (events : List Event) : Log :=
  (events.map emitted).foldl emitRaw ⟨[], 0⟩

theorem logBytes_emitRaw (log : Log) (line : List UInt8) :
    (emitRaw log line).logBytes = log.logBytes + line.length := by
  unfold emitRaw
  dsimp only
  split <;> rfl

/-- Lines count even when they are dropped. -/
theorem logBytes_foldl_emitRaw (lines : List (List UInt8)) (log : Log) :
    (lines.foldl emitRaw log).logBytes = log.logBytes + lines.flatten.length := by
  induction lines generalizing log with
  | nil => rfl
  | cons line lines ih =>
      rw [List.foldl_cons, ih, logBytes_emitRaw, List.flatten_cons, List.length_append]
      omega

theorem foldl_emitRaw (lines : List (List UInt8)) {log : Log}
    (hcap : (lines.foldl emitRaw log).logBytes ≤ maxLogBytes) :
    lines.foldl emitRaw log
      = ⟨log.written ++ lines.flatten, log.logBytes + lines.flatten.length⟩ := by
  induction lines generalizing log with
  | nil => simp
  | cons line lines ih =>
      rw [List.foldl_cons] at hcap ⊢
      have htotal := logBytes_foldl_emitRaw lines (emitRaw log line)
      have hstep : emitRaw log line = ⟨log.written ++ line, log.logBytes + line.length⟩ := by
        by_contra hne
        have hover : log.logBytes + line.length > maxLogBytes := by
          by_contra hle
          exact hne (if_neg hle)
        rw [show emitRaw log line = { log with logBytes := log.logBytes + line.length } from
          if_pos hover] at htotal hcap
        dsimp only at htotal
        omega
      rw [ih hcap, hstep, List.flatten_cons, List.length_append, List.append_assoc]
      simp only [Log.mk.injEq, true_and]
      omega

/-- Under the cap the log is the lines, one after the other. -/
theorem written_emitAll {events : List Event}
    (hcap : (emitAll events).logBytes ≤ maxLogBytes) :
    (emitAll events).written = events.flatMap emitted := by
  unfold emitAll at hcap ⊢
  rw [foldl_emitRaw _ hcap, List.flatMap_def]
  rfl

theorem length_emitted_le (e : Event) : (emitted e).length ≤ eventBufferSize := by
  rw [emitted_eq, List.length_take]
  exact min_le_left _ _

theorem logBytes_emitAll_le (events : List Event) :
    (emitAll events).logBytes ≤ events.length * eventBufferSize := by
  rw [emitAll, logBytes_foldl_emitRaw, Nat.zero_add]
  induction events with
  | nil => simp
  | cons e events ih =>
      have he := length_emitted_le e
      rw [List.map_cons, List.flatten_cons, List.length_append, List.length_cons, Nat.succ_mul]
      omega

end GovFuzz.Runtrace
