import GovFuzz.Iiop.Giop

/-!
# Iiop — a reader over the rest of a buffer

Every typed view cuts the frame body and hands out a fresh reader whose
alignment base makes up for the cut.  `Sub k whole sub` says that `sub` is
such a reader over the buffer of `whole` without its first `k` bytes.  All
reads keep the relation and have the same outcome; only the offsets inside
an error are `k` apart.
-/

namespace GovFuzz.Iiop

open GovFuzz.Lib

/-- The same error, `k` bytes further on. -/
def CdrError.shift (k : Nat) : CdrError → CdrError
  | .unexpectedEof offset needed remaining => .unexpectedEof (offset + k) needed remaining
  | .invalidBoolean offset value => .invalidBoolean (offset + k) value
  | .invalidStringTerminator offset => .invalidStringTerminator (offset + k)
  | .invalidUtf8 offset => .invalidUtf8 (offset + k)
  | .sequenceLengthExceedsRemaining offset declared remaining size =>
      .sequenceLengthExceedsRemaining (offset + k) declared remaining size

structure Sub (k : Nat) (whole sub : CdrReader) : Prop where
  input : sub.input = whole.input.dropFront k
  le_length : k ≤ whole.input.length
  alignmentBase : sub.alignmentBase = whole.alignmentBase + k
  endian : sub.endian = whole.endian
  offset : whole.offset = sub.offset + k

namespace Sub

variable {k : Nat} {whole sub : CdrReader}

theorem length_eq (h : Sub k whole sub) : whole.input.length = sub.input.length + k := by
  have := h.le_length
  rw [h.input, Slice.dropFront_length]
  omega

theorem remaining_eq (h : Sub k whole sub) : whole.remaining = sub.remaining := by
  have := h.length_eq
  have := h.offset
  simp only [CdrReader.remaining]
  omega

theorem eof_eq (h : Sub k whole sub) (needed : Nat) :
    whole.eof needed = (sub.eof needed).shift k := by
  simp only [CdrReader.eof, CdrError.shift, h.remaining_eq, h.offset]

/-- Both stand at the same distance from the message origin. -/
theorem origin_eq (h : Sub k whole sub) :
    whole.alignmentBase + whole.offset = sub.alignmentBase + sub.offset := by
  have := h.offset
  have := h.alignmentBase
  omega

theorem inRange_iff (h : Sub k whole sub) (a : Nat) : whole.InRange a ↔ sub.InRange a := by
  simp only [CdrReader.InRange, h.origin_eq]

theorem alignedAt_eq (h : Sub k whole sub) (a : Nat) :
    whole.alignedAt a = sub.alignedAt a + k := by
  have := h.offset
  simp only [CdrReader.alignedAt, h.origin_eq]
  omega

/-- Moving both cursors to corresponding places. -/
theorem move (h : Sub k whole sub) {offset offset' : Nat} (ho : offset = offset' + k) :
    Sub k { whole with offset := offset } { sub with offset := offset' } where
  input := h.input
  le_length := h.le_length
  alignmentBase := h.alignmentBase
  endian := h.endian
  offset := ho

theorem bytes_drop (h : Sub k whole sub) (offset : Nat) :
    whole.input.bytes.drop (offset + k) = sub.input.bytes.drop offset := by
  rw [h.input, Slice.dropFront_bytes, List.drop_drop, Nat.add_comm]

end Sub

/-- `m` has the same outcome on both readers and keeps them together. -/
abbrev Coherent {α : Type} (k : Nat) (m m' : Cdr α) : Prop :=
  Op.Sim (Sub k) (fun e e' => e = e'.shift k) Eq m m'

section
variable {k : Nat}

theorem takeAligned_coherent {a : Nat} (ha : IsAlignment a) (len : Nat) :
    Coherent k (Cdr.takeAligned a len) (Cdr.takeAligned a len) := by
  intro whole sub h
  have hlen := h.length_eq
  have haligned := h.alignedAt_eq a
  simp only [Cdr.exec_takeAligned ha]
  by_cases hc : sub.InRange a ∧ sub.alignedAt a + len ≤ sub.input.length
  · have hc' : whole.InRange a ∧ whole.alignedAt a + len ≤ whole.input.length :=
      ⟨(h.inRange_iff a).mpr hc.1, by omega⟩
    rw [if_pos hc, if_pos hc', haligned, h.bytes_drop]
    exact ⟨.ok rfl, h.move (by omega)⟩
  · have hc' : ¬ (whole.InRange a ∧ whole.alignedAt a + len ≤ whole.input.length) :=
      fun hw => hc ⟨(h.inRange_iff a).mp hw.1, by omega⟩
    rw [if_neg hc, if_neg hc']
    exact ⟨.error (h.eof_eq len), h⟩

theorem takeUnaligned_coherent (len : Nat) :
    Coherent k (Cdr.takeUnaligned len) (Cdr.takeUnaligned len) := by
  intro whole sub h
  have hlen := h.length_eq
  have hoffset := h.offset
  simp only [Cdr.exec_takeUnaligned]
  by_cases hc : sub.offset + len ≤ sub.input.length
  · rw [if_pos hc, if_pos (by omega), hoffset, h.bytes_drop]
    exact ⟨.ok rfl, h.move (by omega)⟩
  · rw [if_neg hc, if_neg (by omega)]
    exact ⟨.error (h.eof_eq len), h⟩

theorem alignTo_coherent {a : Nat} (ha : IsAlignment a) :
    Coherent k (Cdr.alignTo a) (Cdr.alignTo a) := by
  intro whole sub h
  have hlen := h.length_eq
  have haligned := h.alignedAt_eq a
  simp only [Cdr.exec_alignTo ha, h.inRange_iff]
  by_cases hrange : sub.InRange a
  · rw [if_pos hrange, if_pos hrange]
    by_cases hc : sub.alignedAt a ≤ sub.input.length
    · rw [if_pos hc, if_pos (by omega)]
      exact ⟨.ok rfl, h.move haligned⟩
    · have hpad : whole.alignedAt a - whole.offset = sub.alignedAt a - sub.offset := by
        have := h.offset
        omega
      rw [if_neg hc, if_neg (by omega), hpad]
      exact ⟨.error (h.eof_eq _), h⟩
  · rw [if_neg hrange, if_neg hrange]
    exact ⟨.error (h.eof_eq a), h⟩

/-- The rule for a read that remembers where it started. -/
theorem coherent_get {α : Type} {f f' : CdrReader → Cdr α}
    (h : ∀ whole sub, Sub k whole sub → Coherent k (f whole) (f' sub)) :
    Coherent k (get >>= f) (get >>= f') :=
  Op.Sim.get fun whole sub hs => h whole sub hs whole sub hs

theorem coherent_pure {α : Type} (a : α) : Coherent k (pure a) (pure a) := Op.Sim.pure rfl

/-- The rule for a read that goes on with the value of another. -/
theorem Coherent.bind {α β : Type} {m m' : Cdr α} {f f' : α → Cdr β} (h : Coherent k m m')
    (h' : ∀ a, Coherent k (f a) (f' a)) : Coherent k (m >>= f) (m' >>= f') :=
  Op.Sim.bind h fun a a' ha => by
    subst ha
    exact h' a

theorem coherent_ite {α : Type} {c : Prop} [Decidable c] {m m' n n' : Cdr α}
    (h : Coherent k m m') (h' : Coherent k n n') :
    Coherent k (if c then m else n) (if c then m' else n') := by
  split
  · exact h
  · exact h'

theorem readOctet_coherent : Coherent k Cdr.readOctet Cdr.readOctet :=
  (takeAligned_coherent .one 1).bind fun _ => coherent_pure _

theorem readBool_coherent : Coherent k Cdr.readBool Cdr.readBool := by
  apply coherent_get
  intro whole sub h
  refine readOctet_coherent.bind fun value => coherent_ite (coherent_pure _) ?_
  refine coherent_ite (coherent_pure _) (Op.Sim.throw ?_)
  rw [CdrError.shift, h.offset]

theorem readNat_coherent {width : Nat} (hw : IsAlignment width) :
    Coherent k (Cdr.readNat width) (Cdr.readNat width) := by
  apply coherent_get
  intro whole sub h
  rw [h.endian]
  exact (takeAligned_coherent hw width).bind fun _ => coherent_pure _

theorem readU32_coherent : Coherent k Cdr.readU32 Cdr.readU32 :=
  (readNat_coherent .four).bind fun _ => coherent_pure _

theorem readOctetSequence_coherent : Coherent k Cdr.readOctetSequence Cdr.readOctetSequence :=
  readU32_coherent.bind fun _ => takeUnaligned_coherent _

/-- Behind at least one byte, `self.offset - 1` names the same place on both
sides. -/
theorem exec_checkString_coherent {whole sub : CdrReader} (h : Sub k whole sub)
    (hpos : 0 < sub.offset) {start start' : Nat} (hstart : start = start' + k)
    (bytes : List UInt8) :
    Op.Related (fun e e' => e = e'.shift k) Eq (Op.exec (Cdr.checkString start bytes) whole).1
        (Op.exec (Cdr.checkString start' bytes) sub).1 ∧
      Sub k (Op.exec (Cdr.checkString start bytes) whole).2
        (Op.exec (Cdr.checkString start' bytes) sub).2 := by
  have hoffset := h.offset
  unfold Cdr.checkString
  rw [Op.exec_bind_ok (Op.exec_get whole), Op.exec_bind_ok (Op.exec_get sub)]
  split
  · refine ⟨.error ?_, h⟩
    rw [CdrError.shift, show whole.offset - 1 = sub.offset - 1 + k by omega]
  · cases fromUtf8 bytes.dropLast with
    | some value => exact ⟨.ok rfl, h⟩
    | none =>
        refine ⟨.error ?_, h⟩
        rw [CdrError.shift, show start + 4 = start' + 4 + k by omega]

/-- A string is read from the reader and from the sub-reader alike. -/
theorem takeString_coherent {len : Nat} (hlen : len ≠ 0) {start start' : Nat}
    (hstart : start = start' + k) :
    Coherent k (Cdr.takeUnaligned len >>= Cdr.checkString start)
      (Cdr.takeUnaligned len >>= Cdr.checkString start') := by
  intro whole sub h
  obtain ⟨hout, hstate⟩ := takeUnaligned_coherent len whole sub h
  have hsub := Cdr.exec_takeUnaligned len sub
  by_cases hc : sub.offset + len ≤ sub.input.length
  · rw [if_pos hc] at hsub
    obtain ⟨out, whole', hwhole⟩ : ∃ out t, Op.exec (Cdr.takeUnaligned len) whole = (out, t) :=
      ⟨_, _, rfl⟩
    rw [hwhole, hsub] at hout hstate
    cases hout with
    | ok hbytes =>
        subst hbytes
        rw [Op.exec_bind_ok hwhole, Op.exec_bind_ok hsub]
        refine exec_checkString_coherent hstate ?_ hstart _
        show 0 < sub.offset + len
        omega
  · rw [if_neg hc] at hsub
    obtain ⟨out, whole', hwhole⟩ : ∃ out t, Op.exec (Cdr.takeUnaligned len) whole = (out, t) :=
      ⟨_, _, rfl⟩
    rw [hwhole, hsub] at hout hstate
    cases hout with
    | error he =>
        rw [Op.exec_bind_error hwhole, Op.exec_bind_error hsub]
        exact ⟨.error he, hstate⟩

theorem readString_coherent : Coherent k Cdr.readString Cdr.readString := by
  apply coherent_get
  intro whole sub h
  refine readU32_coherent.bind fun len => ?_
  by_cases hlen : len.toNat = 0
  · rw [if_pos hlen, if_pos hlen]
    refine Op.Sim.throw ?_
    rw [CdrError.shift, h.offset, Nat.add_right_comm]
  · rw [if_neg hlen, if_neg hlen]
    exact takeString_coherent hlen h.offset

/-! ## Sequences of reads -/

theorem ReadOp.run_coherent (op : ReadOp) : Coherent k op.run op.run := by
  cases op with
  | octet => exact readOctet_coherent.bind fun _ => coherent_pure _
  | bool => exact readBool_coherent.bind fun _ => coherent_pure _
  | u16 =>
      exact ((readNat_coherent .two).bind fun _ => coherent_pure _).bind fun _ => coherent_pure _
  | i16 =>
      exact (((readNat_coherent .two).bind fun _ => coherent_pure _).bind
        fun _ => coherent_pure _).bind fun _ => coherent_pure _
  | u32 => exact readU32_coherent.bind fun _ => coherent_pure _
  | i32 => exact (readU32_coherent.bind fun _ => coherent_pure _).bind fun _ => coherent_pure _
  | u64 =>
      exact ((readNat_coherent .eight).bind fun _ => coherent_pure _).bind fun _ => coherent_pure _
  | i64 =>
      exact (((readNat_coherent .eight).bind fun _ => coherent_pure _).bind
        fun _ => coherent_pure _).bind fun _ => coherent_pure _
  | f32 => exact readU32_coherent.bind fun _ => coherent_pure _
  | f64 =>
      exact ((readNat_coherent .eight).bind fun _ => coherent_pure _).bind fun _ => coherent_pure _
  | string => exact readString_coherent.bind fun _ => coherent_pure _
  | octetSequence => exact readOctetSequence_coherent.bind fun _ => coherent_pure _
  | alignTo log =>
      exact (alignTo_coherent ⟨log.val, by omega, rfl⟩).bind fun _ => coherent_pure _

/-- One observed step, `k` bytes further on. -/
def shiftStep (k : Nat) (step : Except CdrError ReadValue × Nat) :
    Except CdrError ReadValue × Nat :=
  (step.1.mapError (CdrError.shift k), step.2 + k)

theorem eq_mapError_of_related {α : Type} {x y : Except CdrError α}
    (h : Op.Related (fun e e' => e = e'.shift k) Eq x y) : x = y.mapError (CdrError.shift k) := by
  cases h with
  | error he => rw [he]; rfl
  | ok hv => rw [hv]; rfl

theorem runReads_sub (ops : List ReadOp) {whole sub : CdrReader} (h : Sub k whole sub) :
    runReads ops whole = (runReads ops sub).map (shiftStep k) := by
  induction ops generalizing whole sub with
  | nil => rfl
  | cons op ops ih =>
      obtain ⟨hout, hstate⟩ := op.run_coherent whole sub h
      simp only [runReads, List.map_cons, shiftStep, ih hstate, CdrReader.position, hstate.offset,
        eq_mapError_of_related hout]

end

/-! ## Views -/

/-- The reader a view hands out goes on where the reader of the head
stopped. -/
theorem readView_sub {α : Type} {messageType : MessageType} {version : Version} {head : Giop α}
    {h : Stays head} {frame : ParsedMessage} {view : View α}
    (hview : readView messageType version head h frame = .ok view) :
    Sub (Op.exec head frame.bodyReader).2.position (Op.exec head frame.bodyReader).2
      view.tailReader := by
  obtain ⟨r, hr, htail, hbase, hendian⟩ := readView_eq_ok hview
  have hwithin := h _ _ frame.within_bodyReader
  rw [hr] at hwithin ⊢
  exact {
    input := by
      rw [hwithin.input]
      exact htail
    le_length := by
      rw [hwithin.input]
      exact hwithin.offset_le
    alignmentBase := by
      rw [hwithin.alignmentBase]
      exact hbase
    endian := by
      rw [hwithin.endian]
      exact hendian
    offset := (Nat.zero_add _).symm }

/-- Reading through the view's own reader is going on with the frame's
reader after `head`, whatever is read. -/
def ContinuesFrame {α : Type} (head : Giop α) (frame : ParsedMessage) (view : View α) : Prop :=
  ∀ ops, runReads ops (Op.exec head frame.bodyReader).2
    = (runReads ops view.tailReader).map
        (shiftStep (Op.exec head frame.bodyReader).2.position)

theorem sub_reader_coherence :
    (∀ (buffer : Slice) (endian : Endianness) (base k : Nat) (ops : List ReadOp),
      k ≤ buffer.length →
      runReads ops
          { input := buffer, offset := k, alignmentBase := base, endian := endian }
        = (runReads ops (.withAlignmentBase (buffer.dropFront k) endian (base + k))).map
            (shiftStep k)) ∧
    (∀ frame view, readRequest10 frame = .ok view → ContinuesFrame request10Head frame view) ∧
    (∀ frame view, readRequest11 frame = .ok view → ContinuesFrame request11Head frame view) ∧
    (∀ frame view, readRequest12 frame = .ok view → ContinuesFrame request12Head frame view) ∧
    (∀ frame view, readReply10 frame = .ok view → ContinuesFrame reply10Head frame view) ∧
    (∀ frame view, readReply11 frame = .ok view → ContinuesFrame reply10Head frame view) ∧
    (∀ frame view, readReply12 frame = .ok view → ContinuesFrame reply12Head frame view) ∧
    (∀ frame view, readLocateReply12 frame = .ok view →
      ContinuesFrame locateReply12Head frame view) ∧
    (∀ frame view, readFragment12 frame = .ok view →
      ContinuesFrame fragment12Head frame view) := by
  refine ⟨?_, ?_, ?_, ?_, ?_, ?_, ?_, ?_, ?_⟩
  · intro buffer endian base k ops hk
    exact runReads_sub ops ⟨rfl, hk, rfl, rfl, (Nat.zero_add k).symm⟩
  all_goals
    intro frame view hview ops
    exact runReads_sub ops (readView_sub hview)

/-- A reply whose body holds one `long`. -/
def replyFrame : ParsedMessage where
  header := ⟨⟨1, 2⟩, .little, false, .reply, 16⟩
  body := ⟨[7, 0, 0, 0, 0, 0, 0, 0, 0, 0, 0, 0, 42, 0, 0, 0], by decide⟩
  remaining := ⟨[], by decide⟩

theorem sub_reader_coherence_reply :
    (∃ view, readReply12 replyFrame = .ok view ∧ ContinuesFrame reply12Head replyFrame view) ∧
    runReads [.u32, .octet] (.withAlignmentBase (replyFrame.body.dropFront 12) .little 24)
      = [(.ok (.u32 42), 4), (.error (.unexpectedEof 4 1 0), 4)] ∧
    runReads [.u32, .octet] ⟨replyFrame.body, 12, 12, .little⟩
      = [(.ok (.u32 42), 16), (.error (.unexpectedEof 16 1 0), 16)] :=
  ⟨⟨_, rfl, sub_reader_coherence.2.2.2.2.2.2.1 _ _ rfl⟩, rfl,
    (sub_reader_coherence.1 replyFrame.body .little 12 12 [.u32, .octet] (by decide)).trans rfl⟩

end GovFuzz.Iiop
