import GovFuzz.EventLog.Reader
import GovFuzz.AdaRuntime.Probe
import GovFuzz.Lib.Except

/-!
# EventLog — the probe's records through the reader

What `EventReader` makes of the byte layout `AdaFuzz.Probe` writes.  The
integer fields and the framing always come back; a string field is written
as Latin-1 (one byte per Character) and read as UTF-8, so it comes back
exactly when it is ASCII, and otherwise the read fails or yields other
characters (`readEvents_encodeEvents`).
-/

namespace GovFuzz.EventLog

open GovFuzz.Lib GovFuzz.Lib.ByteReader GovFuzz.AdaRuntime GovFuzz.AdaRuntime.Probe

/-- The event a record stands for: the same Characters in every string,
the trailing context of `mock` and `topLevel` left out. -/
@[grind =] def sameEvent : ProbeEvent → Event
  | .begin testcaseId => .begin testcaseId
  | .end resultClass => .end resultClass
  | .crumb id => .crumb id
  | .target id => .target id
  | .targetEntry => .targetEntry
  | .handler exceptionName exceptionMessage handlerFile handlerLine lastBreadcrumb targetId
      testcaseId =>
      .handler (latin1 exceptionName.chars) (latin1 exceptionMessage.chars)
        (latin1 handlerFile.chars) handlerLine lastBreadcrumb targetId testcaseId
  | .raise exceptionName file line breadcrumb =>
      .raise (latin1 exceptionName.chars) (latin1 file.chars) line breadcrumb
  | .mock symbol _ _ _ => .mock (latin1 symbol.chars)
  | .topLevel exceptionName exceptionMessage _ _ _ =>
      .topLevel (latin1 exceptionName.chars) (latin1 exceptionMessage.chars)

/-- The string fields of a record. -/
@[grind =] def ProbeEvent.strings : ProbeEvent → List AdaString
  | .handler exceptionName exceptionMessage handlerFile _ _ _ _ =>
      [exceptionName, exceptionMessage, handlerFile]
  | .raise exceptionName file _ _ => [exceptionName, file]
  | .mock symbol _ _ _ => [symbol]
  | .topLevel exceptionName exceptionMessage _ _ _ => [exceptionName, exceptionMessage]
  | _ => []

/-- Every Character of every string field is ASCII. -/
@[grind =] def ProbeEvent.IsAscii (record : ProbeEvent) : Prop :=
  ∀ s ∈ ProbeEvent.strings record, ∀ c ∈ s.chars, c < 128

/-- What the reader makes of a record: its string fields through UTF-8, in
the order they are read. -/
@[grind =] def received : ProbeEvent → Except EventReadError Event
  | .begin testcaseId => .ok (.begin testcaseId)
  | .end resultClass => .ok (.end resultClass)
  | .crumb id => .ok (.crumb id)
  | .target id => .ok (.target id)
  | .targetEntry => .ok .targetEntry
  | .handler exceptionName exceptionMessage handlerFile handlerLine lastBreadcrumb targetId
      testcaseId => do
      let exceptionName ← checkUtf8 exceptionName.chars
      let exceptionMessage ← checkUtf8 exceptionMessage.chars
      let handlerFile ← checkUtf8 handlerFile.chars
      return .handler exceptionName exceptionMessage handlerFile handlerLine lastBreadcrumb
        targetId testcaseId
  | .raise exceptionName file line breadcrumb => do
      let exceptionName ← checkUtf8 exceptionName.chars
      let file ← checkUtf8 file.chars
      return .raise exceptionName file line breadcrumb
  | .mock symbol _ _ _ => do
      let symbol ← checkUtf8 symbol.chars
      return .mock symbol
  | .topLevel exceptionName exceptionMessage _ _ _ => do
      let exceptionName ← checkUtf8 exceptionName.chars
      let exceptionMessage ← checkUtf8 exceptionMessage.chars
      return .topLevel exceptionName exceptionMessage

/-! ## Field by field -/

theorem readArray_yields (bytes : List UInt8) :
    Yields (readArray bytes.length) bytes (.ok bytes) :=
  Yields.exact rfl

theorem readU8_yields (value : UInt8) : Yields readU8 (writeU8Le value) (.ok value) := by
  have h := (readArray_yields (writeU8Le value)).bind_pure
    (fun bytes => UInt8.ofNat (leNat bytes))
  have hval : UInt8.ofNat (leNat (writeU8Le value)) = value := by simp [writeU8Le, leNat]
  change Yields readU8 _ (.ok (UInt8.ofNat (leNat (writeU8Le value)))) at h
  rwa [hval] at h

theorem readU32_yields (value : UInt32) : Yields readU32 (writeU32Le value) (.ok value) := by
  have hval : UInt32.ofNat (leNat (writeU32Le value)) = value := by
    rw [writeU32Le_eq, leNat_leBytes value.toNat_lt, UInt32.ofNat_toNat]
  have h := (readArray_yields (writeU32Le value)).bind_pure
    (fun bytes => UInt32.ofNat (leNat bytes))
  change Yields readU32 _ (.ok (UInt32.ofNat (leNat (writeU32Le value)))) at h
  rwa [hval] at h

theorem readU64_yields (value : UInt64) : Yields readU64 (writeU64Le value) (.ok value) := by
  have hval : UInt64.ofNat (leNat (writeU64Le value)) = value := by
    rw [writeU64Le_eq, leNat_leBytes value.toNat_lt, UInt64.ofNat_toNat]
  have h := (readArray_yields (writeU64Le value)).bind_pure
    (fun bytes => UInt64.ofNat (leNat bytes))
  change Yields readU64 _ (.ok (UInt64.ofNat (leNat (writeU64Le value)))) at h
  rwa [hval] at h

theorem checkUtf8_yields (bytes : List UInt8) :
    Yields (checkUtf8 bytes : EventReader String) [] (checkUtf8 bytes) := by
  intro rest
  unfold checkUtf8
  cases fromUtf8 bytes <;> rfl

/-- A string within the cap is read as UTF-8 and never loses the frame. -/
theorem readString_yields (s : AdaString) :
    Yields readString (writeString s.chars) (checkUtf8 s.chars) := by
  have hlen : (UInt32.ofNat s.chars.length).toNat = s.chars.length := by
    rw [UInt32.toNat_ofNat']
    have := s.length_le
    omega
  have hcap : ¬ maxStringLen < s.chars.length := by
    have := s.length_le
    simp only [maxStringLen]
    omega
  refine (readU32_yields _).bind (y := fun _ => checkUtf8 s.chars) (fun a ha => ?_)
  cases ha
  rw [hlen, if_neg hcap]
  have h := (readArray_yields s.chars).bind (fun a _ => checkUtf8_yields a)
  rw [List.append_nil] at h
  exact h

/-! ## Record by record -/

theorem nextEvent_yields (tag : EventTag) {enc : List UInt8} {out : Except EventReadError Event}
    (h : Yields (readPayload tag) enc out) :
    Yields nextEvent (writeU8Le tag.toByte ++ enc) (out >>= fun e => .ok (some e)) := by
  intro rest
  have hp := h.bind_pure (fun e => some e) rest
  simpa [nextEvent, writeU8Le, EventTag.tryFromByte_toByte, StateT.run] using hp

/-- One record through the reader, whatever follows it. -/
theorem nextEvent_encode (record : ProbeEvent) :
    Yields nextEvent record.encode (received record >>= fun e => .ok (some e)) := by
  cases record with
  | begin testcaseId =>
      exact nextEvent_yields .begin ((readU64_yields testcaseId).bind_pure _)
  | «end» resultClass =>
      exact nextEvent_yields .end ((readU8_yields resultClass).bind_pure _)
  | crumb id => exact nextEvent_yields .crumb ((readU32_yields id).bind_pure _)
  | target id => exact nextEvent_yields .target ((readU32_yields id).bind_pure _)
  | targetEntry => exact nextEvent_yields .targetEntry (Yields.pure _)
  | handler exceptionName exceptionMessage handlerFile handlerLine lastBreadcrumb targetId
      testcaseId =>
      exact nextEvent_yields .handler
        ((readString_yields exceptionName).bind fun _ _ =>
          (readString_yields exceptionMessage).bind fun _ _ =>
          (readString_yields handlerFile).bind fun _ _ =>
          (readU32_yields handlerLine).bind fun _ _ =>
          (readU32_yields lastBreadcrumb).bind fun _ _ =>
          (readU32_yields targetId).bind fun _ _ =>
          (readU64_yields testcaseId).bind_pure _)
  | raise exceptionName file line breadcrumb =>
      exact nextEvent_yields .raise
        ((readString_yields exceptionName).bind fun _ _ =>
          (readString_yields file).bind fun _ _ =>
          (readU32_yields line).bind fun _ _ =>
          (readU32_yields breadcrumb).bind_pure _)
  | mock symbol lastBreadcrumb targetId testcaseId =>
      exact nextEvent_yields .mock
        ((readString_yields symbol).bind fun _ _ =>
          (readU32_yields lastBreadcrumb).bind fun _ _ =>
          (readU32_yields targetId).bind fun _ _ =>
          (readU64_yields testcaseId).bind_pure _)
  | topLevel exceptionName exceptionMessage lastBreadcrumb targetId testcaseId =>
      exact nextEvent_yields .topLevel
        ((readString_yields exceptionName).bind fun _ _ =>
          (readString_yields exceptionMessage).bind fun _ _ =>
          (readU32_yields lastBreadcrumb).bind fun _ _ =>
          (readU32_yields targetId).bind fun _ _ =>
          (readU64_yields testcaseId).bind_pure _)

theorem checkUtf8_latin1 (bytes : List UInt8) :
    checkUtf8 bytes = .ok (latin1 bytes) ↔ ∀ c ∈ bytes, c < 128 := by
  rw [← fromUtf8_eq_latin1_iff, checkUtf8]
  cases fromUtf8 bytes <;> simp

/-- A record is received as the event it stands for exactly when its
strings are ASCII. -/
theorem received_eq_sameEvent (record : ProbeEvent) :
    received record = .ok (sameEvent record) ↔ ProbeEvent.IsAscii record := by
  cases record with
  | handler exceptionName exceptionMessage handlerFile handlerLine lastBreadcrumb targetId
      testcaseId =>
      simp only [received, sameEvent, ProbeEvent.IsAscii, ProbeEvent.strings, bind_eq_ok,
        pure, Except.pure, Except.ok.injEq, Event.handler.injEq, List.forall_mem_cons,
        List.not_mem_nil, false_implies, implies_true, and_true, ← checkUtf8_latin1]
      constructor
      · rintro ⟨n, hn, m, hm, f, hf, rfl, rfl, rfl⟩
        exact ⟨hn, hm, hf⟩
      · rintro ⟨hn, hm, hf⟩
        exact ⟨_, hn, _, hm, _, hf, rfl, rfl, rfl⟩
  | raise exceptionName file line breadcrumb =>
      simp only [received, sameEvent, ProbeEvent.IsAscii, ProbeEvent.strings, bind_eq_ok,
        pure, Except.pure, Except.ok.injEq, Event.raise.injEq, List.forall_mem_cons,
        List.not_mem_nil, false_implies, implies_true, and_true, ← checkUtf8_latin1]
      constructor
      · rintro ⟨n, hn, f, hf, rfl, rfl⟩
        exact ⟨hn, hf⟩
      · rintro ⟨hn, hf⟩
        exact ⟨_, hn, _, hf, rfl, rfl⟩
  | mock symbol lastBreadcrumb targetId testcaseId =>
      simp only [received, sameEvent, ProbeEvent.IsAscii, ProbeEvent.strings, bind_eq_ok,
        pure, Except.pure, Except.ok.injEq, Event.mock.injEq, List.forall_mem_cons,
        List.not_mem_nil, false_implies, implies_true, and_true, ← checkUtf8_latin1]
      constructor
      · rintro ⟨n, hn, rfl⟩
        exact hn
      · intro hn
        exact ⟨_, hn, rfl⟩
  | topLevel exceptionName exceptionMessage lastBreadcrumb targetId testcaseId =>
      simp only [received, sameEvent, ProbeEvent.IsAscii, ProbeEvent.strings, bind_eq_ok,
        pure, Except.pure, Except.ok.injEq, Event.topLevel.injEq, List.forall_mem_cons,
        List.not_mem_nil, false_implies, implies_true, and_true, ← checkUtf8_latin1]
      constructor
      · rintro ⟨n, hn, m, hm, rfl, rfl⟩
        exact ⟨hn, hm⟩
      · rintro ⟨hn, hm⟩
        exact ⟨_, hn, _, hm, rfl, rfl⟩
  | begin => simp [received, sameEvent, ProbeEvent.IsAscii, ProbeEvent.strings]
  | «end» => simp [received, sameEvent, ProbeEvent.IsAscii, ProbeEvent.strings]
  | crumb => simp [received, sameEvent, ProbeEvent.IsAscii, ProbeEvent.strings]
  | target => simp [received, sameEvent, ProbeEvent.IsAscii, ProbeEvent.strings]
  | targetEntry => simp [received, sameEvent, ProbeEvent.IsAscii, ProbeEvent.strings]

/-! ## The whole stream -/

/-- The reader's outcome on an event file: record after record, up to the
first string that is not UTF-8. -/
theorem readEvents_encodeEvents (records : List ProbeEvent) :
    readEvents (encodeEvents records)
      = (records.mapM received).map (fun events => (events, [])) := by
  induction records with
  | nil => exact readEvents_nil
  | cons record records ih =>
      have hrun := nextEvent_encode record (encodeEvents records)
      rw [show encodeEvents (record :: records) = record.encode ++ encodeEvents records from rfl,
        List.mapM_cons]
      cases hrec : received record with
      | error e =>
          rw [hrec] at hrun
          rw [readEvents_error hrun]
          rfl
      | ok event =>
          rw [hrec] at hrun
          rw [readEvents_cons hrun, ih]
          cases records.mapM received <;> rfl

/-- The reader gives back exactly the events the probe wrote, with nothing
left over, if and only if every Character of every string is ASCII. -/
theorem readEvents_round_trip_iff (records : List ProbeEvent) :
    readEvents (encodeEvents records) = .ok (records.map sameEvent, [])
      ↔ ∀ record ∈ records, ProbeEvent.IsAscii record := by
  rw [readEvents_encodeEvents]
  have hmap : (records.mapM received).map (fun events => (events, ([] : List UInt8)))
        = .ok (records.map sameEvent, [])
      ↔ records.mapM received = .ok (records.map sameEvent) := by
    cases records.mapM received with
    | error e => simp [Except.map]
    | ok events => simp [Except.map]
  rw [hmap, mapM_eq_ok_map]
  exact forall_congr' fun record => imp_congr_right fun _ => received_eq_sameEvent record

/-- A `Mock` record whose symbol is the one Character `é` (position 233)
does not come back: its byte is no UTF-8 text. -/
theorem readEvents_not_round_trip_latin1 :
    ¬ (readEvents (encodeEvents [.mock ⟨[233], by decide⟩ 0 0 0])
      = .ok ([sameEvent (.mock ⟨[233], by decide⟩ 0 0 0)], [])) := by
  intro h
  have hall := received_eq_sameEvent (.mock ⟨[233], by decide⟩ 0 0 0)
  rw [readEvents_encodeEvents] at h
  have hrec : received (.mock ⟨[233], by decide⟩ 0 0 0)
      = .ok (sameEvent (.mock ⟨[233], by decide⟩ 0 0 0)) := by
    simp only [List.mapM_cons, List.mapM_nil] at h
    cases hr : received (.mock ⟨[233], by decide⟩ 0 0 0) with
    | error e => rw [hr] at h; cases h
    | ok event =>
        rw [hr] at h
        simp only [Bind.bind, Except.bind, pure, Except.pure, Except.map, Except.ok.injEq,
          Prod.mk.injEq, List.cons.injEq, and_true] at h
        rw [h]
  have hascii := hall.mp hrec ⟨[233], by decide⟩ (by simp [ProbeEvent.strings]) 233 (by simp)
  exact absurd hascii (by decide)

/-- The event file of a whole run of probe calls, read back. -/
theorem readEvents_run (calls : List Call) :
    readEvents (State.initial.run calls).buf
      = ((State.initial.records calls).mapM received).map (fun events => (events, [])) := by
  rw [State.run_buf]
  exact readEvents_encodeEvents _

end GovFuzz.EventLog
