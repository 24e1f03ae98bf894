import GovFuzz.Iiop.IdlArgs

/-!
# Iiop — marshalling, and that decoding undoes it

The writing side of CDR.  An encoding is a function of the byte order and
of the distance from the message origin, because padding depends on both
what was written before and where the arguments start.  `Reads m enc a`
says that `m` takes exactly the bytes of `enc` off any reader that has them
in front and returns `a`; it composes along `bind` with the position
running on, so the round trip of a value is an induction over its type.
-/

namespace GovFuzz.Iiop

open GovFuzz.Lib

/-! ## Encodings -/

/-- The bytes for a byte order and a distance from the message origin. -/
abbrev Enc := Endianness → Nat → List UInt8

namespace Enc

def nil : Enc := fun _ _ => []

def raw (bytes : List UInt8) : Enc := fun _ _ => bytes

/-- One encoding after the other; the second sees the position moved on. -/
def seq (a b : Enc) : Enc := fun endian p => a endian p ++ b endian (p + (a endian p).length)

def all (encs : List Enc) : Enc := encs.foldr seq nil

@[simp] theorem all_nil : all [] = nil := rfl

@[simp] theorem all_cons (a : Enc) (encs : List Enc) : all (a :: encs) = seq a (all encs) := rfl

/-- Padding in front of an item with alignment `a`.  CDR leaves the padding
octets open: `fill` says what stands at each position. -/
def padding (fill : Nat → UInt8) (a : Nat) : Enc := fun _ p =>
  (List.range (padTo a p)).map fun i => fill (p + i)

/-- An unsigned integer at its natural alignment. -/
def nat (fill : Nat → UInt8) (width n : Nat) : Enc := fun endian p =>
  padding fill width endian p ++ Cdr.encodeNat endian width n

/-- Count with the terminating NUL, the bytes, the NUL. -/
def string (fill : Nat → UInt8) (value : String) : Enc :=
  seq (nat fill 4 ((toUtf8 value).length + 1)) (raw (toUtf8 value ++ [0]))

def octetSequence (fill : Nat → UInt8) (bytes : List UInt8) : Enc :=
  seq (nat fill 4 bytes.length) (raw bytes)

def profile (fill : Nat → UInt8) (p : TaggedProfile) : Enc :=
  seq (nat fill 4 p.tag.toNat) (octetSequence fill p.profileData)

theorem nat_length (fill : Nat → UInt8) (width n : Nat) (endian : Endianness) (p : Nat) :
    (nat fill width n endian p).length = padTo width p + width := by
  simp [nat, padding]

end Enc

/-! ## Reading an encoding -/

/-- The cursor is inside the input, and the input far enough from the end of
the address range for every alignment. -/
structure CdrReader.Roomy (r : CdrReader) : Prop where
  offset_le : r.offset ≤ r.input.length
  room : r.alignmentBase + r.input.length + 8 ≤ usizeSize

/-- `r` has the bytes of `enc` in front of it. -/
def CdrReader.At (r : CdrReader) (enc : Enc) (rest : List UInt8) : Prop :=
  r.input.bytes.drop r.offset = enc r.endian (r.alignmentBase + r.offset) ++ rest

/-- The cursor behind the bytes of `enc`. -/
def CdrReader.behind (r : CdrReader) (enc : Enc) : CdrReader :=
  { r with offset := r.offset + (enc r.endian (r.alignmentBase + r.offset)).length }

def Reads {ε α : Type} (m : Op CdrReader ε α) (enc : Enc) (a : α) : Prop :=
  ∀ (r : CdrReader) (rest : List UInt8), r.Roomy → r.At enc rest →
    Op.exec m r = (.ok a, r.behind enc)

section
variable {ε ε' α β : Type}

theorem CdrReader.At.seq_left {r : CdrReader} {a b : Enc} {rest : List UInt8}
    (h : r.At (a.seq b) rest) :
    r.At a (b r.endian (r.alignmentBase + r.offset + (a r.endian
      (r.alignmentBase + r.offset)).length) ++ rest) := by
  rw [CdrReader.At, ← List.append_assoc]
  exact h

theorem CdrReader.At.seq_right {r : CdrReader} {a b : Enc} {rest : List UInt8}
    (h : r.At (a.seq b) rest) : (r.behind a).At b rest := by
  have hleft := h.seq_left
  simp only [CdrReader.At, CdrReader.behind] at hleft ⊢
  rw [← List.drop_drop, hleft, List.drop_left' rfl, Nat.add_assoc]

theorem CdrReader.behind_seq (r : CdrReader) (a b : Enc) :
    (r.behind a).behind b = r.behind (a.seq b) := by
  simp only [CdrReader.behind, Enc.seq, List.length_append, Nat.add_assoc]

theorem CdrReader.At.behind_le {r : CdrReader} {enc : Enc} {rest : List UInt8}
    (h : r.At enc rest) (hroom : r.Roomy) :
    r.offset + (enc r.endian (r.alignmentBase + r.offset)).length ≤ r.input.length := by
  have hlen := congrArg List.length h
  have hle := hroom.offset_le
  rw [List.length_drop, List.length_append] at hlen
  have : r.input.bytes.length = r.input.length := rfl
  omega

theorem CdrReader.Roomy.behind {r : CdrReader} {enc : Enc} {rest : List UInt8} (h : r.Roomy)
    (hat : r.At enc rest) : (r.behind enc).Roomy :=
  ⟨hat.behind_le h, h.room⟩

theorem CdrReader.Roomy.inRange {r : CdrReader} (h : r.Roomy) {a : Nat} (ha : a ≤ 8) :
    r.InRange a := by
  have := h.offset_le
  have := h.room
  simp only [CdrReader.InRange]
  omega

theorem Reads.pure (a : α) : Reads (Pure.pure a : Op CdrReader ε α) .nil a := fun _ _ _ _ => rfl

theorem Reads.bind {m : Op CdrReader ε α} {f : α → Op CdrReader ε β} {enc enc' : Enc} {a : α}
    {b : β} (h : Reads m enc a) (h' : Reads (f a) enc' b) :
    Reads (m >>= f) (enc.seq enc') b := by
  intro r rest hroom hat
  rw [Op.exec_bind_ok (h r _ hroom hat.seq_left),
    h' (r.behind enc) rest (hroom.behind hat.seq_left) hat.seq_right, CdrReader.behind_seq]

/-- The last step of a read takes nothing more. -/
theorem Reads.bind_pure {m : Op CdrReader ε α} {enc : Enc} {a : α} (h : Reads m enc a)
    (g : α → β) : Reads (m >>= fun x => Pure.pure (g x)) enc (g a) := by
  intro r rest hroom hat
  rw [Op.exec_bind_ok (h r rest hroom hat)]
  rfl

theorem Reads.get {f : CdrReader → Op CdrReader ε α} {enc : Enc} {a : α}
    (h : ∀ start, Reads (f start) enc a) : Reads (MonadState.get >>= f) enc a := by
  intro r rest hroom hat
  rw [Op.exec_bind_ok (Op.exec_get r)]
  exact h r r rest hroom hat

theorem Reads.mapError {m : Op CdrReader ε α} {enc : Enc} {a : α} (h : Reads m enc a)
    (g : ε → ε') : Reads (Op.mapError g m) enc a :=
  fun r rest hroom hat => Op.exec_mapError_ok (h r rest hroom hat)

/-- A counted run, element by element. -/
theorem Reads.times {γ : Type} {m : Op CdrReader ε α} {enc : γ → Enc} {val : γ → α} (l : List γ)
    (h : ∀ x ∈ l, Reads m (enc x) (val x)) :
    Reads (Op.times l.length m) (.all (l.map enc)) (l.map val) := by
  induction l with
  | nil => exact Reads.pure []
  | cons x l ih =>
      have htail := ih fun y hy => h y (List.mem_cons_of_mem _ hy)
      exact (h x List.mem_cons_self).bind (htail.bind_pure fun as => val x :: as)

end

/-! ## Primitives -/

section
variable {fill : Nat → UInt8}

theorem readNat_reads {width n : Nat} (hw : IsAlignment width) (hle : width ≤ 8)
    (hn : n < 256 ^ width) : Reads (Cdr.readNat width) (.nat fill width n) n := by
  intro r rest hroom hat
  have hlen := Enc.nat_length fill width n r.endian (r.alignmentBase + r.offset)
  have hin := hat.behind_le hroom
  rw [hlen, ← Nat.add_assoc] at hin
  have hbytes : (r.input.bytes.drop (r.alignedAt width)).take width
      = Cdr.encodeNat r.endian width n := by
    have hpad : (Enc.padding fill width r.endian (r.alignmentBase + r.offset)).length
        = padTo width (r.alignmentBase + r.offset) := by simp [Enc.padding]
    rw [CdrReader.alignedAt, ← List.drop_drop, hat, Enc.nat, List.append_assoc,
      List.drop_left' hpad, List.take_left' (Cdr.encodeNat_length _ _ _)]
  have htake := Cdr.exec_takeAligned hw width r
  rw [if_pos ⟨hroom.inRange hle, hin⟩, hbytes] at htake
  rw [Cdr.readNat, Op.exec_bind_ok (Op.exec_get r), Op.exec_bind_ok htake,
    Cdr.decodeNat_encodeNat _ hn, CdrReader.behind, hlen, CdrReader.alignedAt, Nat.add_assoc]
  rfl

theorem readOctet_reads (value : UInt8) : Reads Cdr.readOctet (.raw [value]) value := by
  intro r rest hroom hat
  have hin : r.offset + 1 ≤ r.input.length := hat.behind_le hroom
  have haligned : r.alignedAt 1 = r.offset := by simp [CdrReader.alignedAt]
  have htake := Cdr.exec_takeAligned .one 1 r
  rw [if_pos ⟨hroom.inRange (by omega), by rwa [haligned]⟩, haligned, hat] at htake
  rw [Cdr.readOctet, Op.exec_bind_ok htake]
  rfl

theorem readBool_reads (value : Bool) :
    Reads Cdr.readBool (.raw [if value then 1 else 0]) value := by
  refine Reads.get fun start => ?_
  intro r rest hroom hat
  rw [Op.exec_bind_ok (readOctet_reads _ r rest hroom hat)]
  cases value <;> rfl

theorem readU16_reads (value : UInt16) : Reads Cdr.readU16 (.nat fill 2 value.toNat) value := by
  have h : Reads Cdr.readU16 (.nat fill 2 value.toNat) (UInt16.ofNat value.toNat) :=
    (readNat_reads .two (by omega) value.toNat_lt).bind_pure UInt16.ofNat
  rwa [UInt16.ofNat_toNat] at h

theorem readU32_reads (value : UInt32) : Reads Cdr.readU32 (.nat fill 4 value.toNat) value := by
  have h : Reads Cdr.readU32 (.nat fill 4 value.toNat) (UInt32.ofNat value.toNat) :=
    (readNat_reads .four (by omega) value.toNat_lt).bind_pure UInt32.ofNat
  rwa [UInt32.ofNat_toNat] at h

theorem readU64_reads (value : UInt64) : Reads Cdr.readU64 (.nat fill 8 value.toNat) value := by
  have h : Reads Cdr.readU64 (.nat fill 8 value.toNat) (UInt64.ofNat value.toNat) :=
    (readNat_reads .eight (by omega) value.toNat_lt).bind_pure UInt64.ofNat
  rwa [UInt64.ofNat_toNat] at h

theorem readI16_reads (value : Int16) :
    Reads Cdr.readI16 (.nat fill 2 value.toUInt16.toNat) value :=
  (readU16_reads value.toUInt16).bind_pure UInt16.toInt16

theorem readI32_reads (value : Int32) :
    Reads Cdr.readI32 (.nat fill 4 value.toUInt32.toNat) value :=
  (readU32_reads value.toUInt32).bind_pure UInt32.toInt32

theorem readI64_reads (value : Int64) :
    Reads Cdr.readI64 (.nat fill 8 value.toUInt64.toNat) value :=
  (readU64_reads value.toUInt64).bind_pure UInt64.toInt64

/-- A count that fits a `u32`. -/
theorem readCount_reads {n : Nat} (h : n < 2 ^ 32) :
    Reads Cdr.readU32 (.nat fill 4 n) (UInt32.ofNat n) := by
  have hn : (UInt32.ofNat n).toNat = n := by
    rw [UInt32.toNat_ofNat']
    omega
  have hread : Reads Cdr.readU32 (.nat fill 4 (UInt32.ofNat n).toNat) (UInt32.ofNat n) :=
    readU32_reads (UInt32.ofNat n)
  rwa [hn] at hread

theorem takeUnaligned_reads (bytes : List UInt8) :
    Reads (Cdr.takeUnaligned bytes.length) (.raw bytes) bytes := by
  intro r rest hroom hat
  have hin : r.offset + bytes.length ≤ r.input.length := hat.behind_le hroom
  rw [Cdr.exec_takeUnaligned, if_pos hin, hat, Enc.raw, List.take_left' rfl]
  rfl

theorem readString_reads {value : String} (h : (toUtf8 value).length + 1 < 2 ^ 32) :
    Reads Cdr.readString (.string fill value) value := by
  refine Reads.get fun start => (readCount_reads h).bind ?_
  have hn : (UInt32.ofNat ((toUtf8 value).length + 1)).toNat = (toUtf8 value ++ [0]).length := by
    rw [UInt32.toNat_ofNat', List.length_append, List.length_singleton]
    omega
  rw [if_neg (by rw [hn]; simp), hn]
  intro r rest hroom hat
  rw [Op.exec_bind_ok (takeUnaligned_reads _ r rest hroom hat), Cdr.checkString,
    Op.exec_bind_ok (Op.exec_get _), List.getLastD_concat, List.dropLast_concat, fromUtf8_toUtf8]
  rfl

theorem readOctetSequence_reads {bytes : List UInt8} (h : bytes.length < 2 ^ 32) :
    Reads Cdr.readOctetSequence (.octetSequence fill bytes) bytes := by
  have hn : (UInt32.ofNat bytes.length).toNat = bytes.length := by
    rw [UInt32.toNat_ofNat']
    omega
  refine (readCount_reads h).bind ?_
  rw [hn]
  exact takeUnaligned_reads bytes

end

end GovFuzz.Iiop
