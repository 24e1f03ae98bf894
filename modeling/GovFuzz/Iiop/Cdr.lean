import GovFuzz.Lib.Bytes
import GovFuzz.Lib.Slice
import GovFuzz.Lib.Stateful
import GovFuzz.Lib.Utf8

/-!
# Iiop — the CDR reader

`CdrReader` of `crates/iiop/src/cdr.rs`.  A read is an operation on the
reader that leaves a reader behind even when it fails: `take_aligned` and
`take_unaligned` do not move on an error, but `read_bool` and `read_string`
have already consumed their bytes when they reject them.  Positions are
`usize`; an alignment that would overflow is an error, as in the source.
-/

namespace GovFuzz.Iiop

open GovFuzz.Lib

/-- The byte order of an encapsulation. -/
inductive Endianness where
  | big
  | little
  deriving DecidableEq, Repr

/-- Why a read fails, and where. -/
inductive CdrError where
  | unexpectedEof (offset needed remaining : Nat)
  | invalidBoolean (offset : Nat) (value : UInt8)
  | invalidStringTerminator (offset : Nat)
  | invalidUtf8 (offset : Nat)
  | sequenceLengthExceedsRemaining (offset : Nat) (declared : UInt32)
      (remaining elementMinSize : Nat)
  deriving DecidableEq, Repr

/-- The input, the place in it and what alignment counts from. -/
structure CdrReader where
  input : Slice
  offset : Nat
  alignmentBase : Nat
  endian : Endianness
  deriving DecidableEq

/-- A reader that moves on as it reads. -/
abbrev Cdr := Op CdrReader CdrError

namespace CdrReader

/-- A reader whose alignment counts from its first byte. -/
def new (input : Slice) (endian : Endianness) : CdrReader :=
  { input := input, offset := 0, alignmentBase := 0, endian := endian }

/-- A reader of bytes that stood at an offset of a message. -/
def withAlignmentBase (input : Slice) (endian : Endianness) (alignmentBase : Nat) : CdrReader :=
  { input := input, offset := 0, alignmentBase := alignmentBase, endian := endian }

/-- The place in the input. -/
def position (r : CdrReader) : Nat := r.offset

/-- A saturating subtraction in the source too. -/
def remaining (r : CdrReader) : Nat := r.input.length - r.offset

end CdrReader

/-- The next offset whose distance from the message origin is a multiple
of `alignment`. -/
def alignOffset (offset alignment alignmentBase : Nat) : Option Nat := do
  let absolute ← checkedAdd alignmentBase offset
  let mask := alignment - 1
  let bumped ← checkedAdd absolute mask
  checkedSub (bumped &&& wordNot mask) alignmentBase

namespace Cdr

/-- The bytes of an unsigned integer in the reader's byte order. -/
def decodeNat : Endianness → List UInt8 → Nat
  | .big, bytes => beNat bytes
  | .little, bytes => leNat bytes

/-- The bytes a writer in that byte order puts. -/
def encodeNat : Endianness → Nat → Nat → List UInt8
  | .big, width, n => beBytes width n
  | .little, width, n => leBytes width n

@[simp] theorem encodeNat_length (endian : Endianness) (width n : Nat) :
    (encodeNat endian width n).length = width := by
  cases endian <;> simp [encodeNat]

theorem decodeNat_encodeNat (endian : Endianness) {width n : Nat} (h : n < 256 ^ width) :
    decodeNat endian (encodeNat endian width n) = n := by
  cases endian with
  | big => exact beNat_beBytes h
  | little => exact leNat_leBytes h

theorem decodeNat_lt (endian : Endianness) (bytes : List UInt8) :
    decodeNat endian bytes < 256 ^ bytes.length := by
  cases endian with
  | big => exact beNat_lt bytes
  | little => exact leNat_lt bytes

/-- Over the padding. -/
def alignTo (alignment : Nat) : Cdr PUnit := do
  let r ← get
  match alignOffset r.offset alignment r.alignmentBase with
  | none => throw (.unexpectedEof r.offset alignment r.remaining)
  | some aligned =>
      if aligned > r.input.length then
        throw (.unexpectedEof r.offset (aligned - r.offset) r.remaining)
      else set { r with offset := aligned }

/-- Bytes behind the padding. -/
def takeAligned (alignment len : Nat) : Cdr (List UInt8) := do
  let r ← get
  match alignOffset r.offset alignment r.alignmentBase with
  | none => throw (.unexpectedEof r.offset len r.remaining)
  | some aligned =>
      match checkedAdd aligned len with
      | none => throw (.unexpectedEof r.offset len r.remaining)
      | some «end» =>
          if «end» > r.input.length then throw (.unexpectedEof r.offset len r.remaining)
          else do
            set { r with offset := aligned + len }
            pure ((r.input.bytes.drop aligned).take len)

/-- The next bytes, wherever they stand. -/
def takeUnaligned (len : Nat) : Cdr (List UInt8) := do
  let r ← get
  match checkedAdd r.offset len with
  | none => throw (.unexpectedEof r.offset len r.remaining)
  | some «end» =>
      if «end» > r.input.length then throw (.unexpectedEof r.offset len r.remaining)
      else do
        set { r with offset := «end» }
        pure ((r.input.bytes.drop r.offset).take len)

/-- One byte. -/
def readOctet : Cdr UInt8 := do
  let bytes ← takeAligned 1 1
  pure (bytes.headD 0)

/-- One byte, zero or one. -/
def readBool : Cdr Bool := do
  let r ← get
  let value ← readOctet
  if value = 0 then pure false
  else if value = 1 then pure true
  else throw (.invalidBoolean r.offset value)

/-- An integer of `width` bytes, aligned to its width: the common body of
`read_u16`, `read_u32` and `read_u64`. -/
def readNat (width : Nat) : Cdr Nat := do
  let r ← get
  let bytes ← takeAligned width width
  pure (decodeNat r.endian bytes)

/-- Two bytes, aligned. -/
def readU16 : Cdr UInt16 := do
  let n ← readNat 2
  pure (UInt16.ofNat n)

/-- Two bytes, signed. -/
def readI16 : Cdr Int16 := do
  let n ← readU16
  pure n.toInt16

/-- Four bytes, aligned. -/
def readU32 : Cdr UInt32 := do
  let n ← readNat 4
  pure (UInt32.ofNat n)

/-- Four bytes, signed. -/
def readI32 : Cdr Int32 := do
  let n ← readU32
  pure n.toInt32

/-- Eight bytes, aligned. -/
def readU64 : Cdr UInt64 := do
  let n ← readNat 8
  pure (UInt64.ofNat n)

/-- Eight bytes, signed. -/
def readI64 : Cdr Int64 := do
  let n ← readU64
  pure n.toInt64

/-- A `f32`, as the bit pattern `f32::from_bits` is given. -/
def readF32 : Cdr UInt32 := readU32

def readF64 : Cdr UInt64 := readU64

/-- The second half of `read_string`: the cursor is behind the bytes now. -/
def checkString (start : Nat) (bytes : List UInt8) : Cdr String := do
  let r ← get
  let terminatorOffset := r.offset - 1
  if bytes.getLastD 0 ≠ 0 then throw (.invalidStringTerminator terminatorOffset)
  else
    match fromUtf8 bytes.dropLast with
    | some value => pure value
    | none => throw (.invalidUtf8 (start + 4))

/-- A length and that many bytes, the last of them zero. -/
def readString : Cdr String := do
  let r ← get
  let len ← readU32
  if len.toNat = 0 then throw (.invalidStringTerminator (r.offset + 4))
  else do
    let bytes ← takeUnaligned len.toNat
    checkString r.offset bytes

/-- A length and that many bytes. -/
def readOctetSequence : Cdr (List UInt8) := do
  let len ← readU32
  takeUnaligned len.toNat

end Cdr

/-! ## What the primitive steps do

Everything else is built from the three cursor moves, so these lemmas are
the only ones that look at `alignOffset`. -/

/-- A power of two that a `usize` holds (or just does not). -/
def IsAlignment (a : Nat) : Prop := ∃ j ≤ 64, a = 2 ^ j

theorem IsAlignment.one : IsAlignment 1 := ⟨0, by omega, rfl⟩

theorem IsAlignment.two : IsAlignment 2 := ⟨1, by omega, rfl⟩

theorem IsAlignment.four : IsAlignment 4 := ⟨2, by omega, rfl⟩

theorem IsAlignment.eight : IsAlignment 8 := ⟨3, by omega, rfl⟩

theorem alignOffset_eq {a : Nat} (ha : IsAlignment a) (offset base : Nat) :
    alignOffset offset a base
      = if base + offset + (a - 1) < usizeSize
        then some (offset + padTo a (base + offset)) else none := by
  obtain ⟨j, hj, rfl⟩ := ha
  by_cases hfits : base + offset + (2 ^ j - 1) < usizeSize
  · have habs : base + offset < usizeSize := by omega
    have hsub : base + offset + padTo (2 ^ j) (base + offset) - base
        = offset + padTo (2 ^ j) (base + offset) := by omega
    have hle : base ≤ base + offset + padTo (2 ^ j) (base + offset) := by omega
    simp only [alignOffset, checkedAdd, checkedSub, if_pos habs, if_pos hfits, Option.bind_eq_bind,
      Option.bind_some, mask_round_up hj hfits, if_pos hle, hsub]
  · rw [if_neg hfits]
    by_cases habs : base + offset < usizeSize
    · simp [alignOffset, checkedAdd, habs, hfits]
    · simp [alignOffset, checkedAdd, habs]

namespace CdrReader

/-- Where the next item with alignment `a` starts. -/
def alignedAt (r : CdrReader) (a : Nat) : Nat := r.offset + padTo a (r.alignmentBase + r.offset)

/-- The position from the message origin does not overflow while it is
rounded up to `a`. -/
def InRange (r : CdrReader) (a : Nat) : Prop := r.alignmentBase + r.offset + (a - 1) < usizeSize

instance (r : CdrReader) (a : Nat) : Decidable (r.InRange a) :=
  inferInstanceAs (Decidable (_ < _))

/-- The error of a read that needs more than there is. -/
def eof (r : CdrReader) (needed : Nat) : CdrError := .unexpectedEof r.offset needed r.remaining

end CdrReader

theorem checkedAdd_of_le_length {s : Slice} {a b : Nat} (h : a + b ≤ s.length) :
    checkedAdd a b = some (a + b) := by
  have := s.length_lt_usizeSize
  rw [checkedAdd, if_pos (by omega)]

namespace Cdr

/-- An aligned read gives its bytes and moves the reader, or fails and leaves it where it
was. -/
theorem exec_takeAligned {a : Nat} (ha : IsAlignment a) (len : Nat) (r : CdrReader) :
    Op.exec (takeAligned a len) r
      = if r.InRange a ∧ r.alignedAt a + len ≤ r.input.length
        then (.ok ((r.input.bytes.drop (r.alignedAt a)).take len),
          { r with offset := r.alignedAt a + len })
        else (.error (r.eof len), r) := by
  unfold takeAligned
  rw [Op.exec_bind_ok (Op.exec_get r), alignOffset_eq ha]
  by_cases hrange : r.InRange a
  · rw [if_pos (show _ < usizeSize from hrange)]
    by_cases hlen : r.alignedAt a + len ≤ r.input.length
    · rw [if_pos ⟨hrange, hlen⟩]
      simp only [← CdrReader.alignedAt.eq_def, checkedAdd_of_le_length hlen,
        if_neg (Nat.not_lt.mpr hlen)]
      rfl
    · rw [if_neg (fun h => hlen h.2)]
      simp only [← CdrReader.alignedAt.eq_def]
      cases hadd : checkedAdd (r.alignedAt a) len with
      | none => rfl
      | some e =>
          have he : r.alignedAt a + len = e := by
            simp only [checkedAdd] at hadd
            split at hadd
            · exact Option.some.inj hadd
            · cases hadd
          simp only [if_pos (show e > r.input.length by omega)]
          rfl
  · rw [if_neg (show ¬ _ < usizeSize from hrange), if_neg (fun h => hrange h.1)]
    rfl

theorem exec_takeUnaligned (len : Nat) (r : CdrReader) :
    Op.exec (takeUnaligned len) r
      = if r.offset + len ≤ r.input.length
        then (.ok ((r.input.bytes.drop r.offset).take len), { r with offset := r.offset + len })
        else (.error (r.eof len), r) := by
  unfold takeUnaligned
  rw [Op.exec_bind_ok (Op.exec_get r)]
  by_cases hlen : r.offset + len ≤ r.input.length
  · rw [if_pos hlen]
    simp only [checkedAdd_of_le_length hlen, if_neg (Nat.not_lt.mpr hlen)]
    rfl
  · rw [if_neg hlen]
    by_cases hadd : r.offset + len < usizeSize
    · simp only [checkedAdd, if_pos hadd, if_pos (Nat.lt_of_not_le hlen)]
      rfl
    · simp only [checkedAdd, if_neg hadd]
      rfl

theorem exec_alignTo {a : Nat} (ha : IsAlignment a) (r : CdrReader) :
    Op.exec (alignTo a) r
      = if r.InRange a then
          if r.alignedAt a ≤ r.input.length then (.ok ⟨⟩, { r with offset := r.alignedAt a })
          else (.error (r.eof (r.alignedAt a - r.offset)), r)
        else (.error (r.eof a), r) := by
  unfold alignTo
  rw [Op.exec_bind_ok (Op.exec_get r), alignOffset_eq ha]
  by_cases hrange : r.InRange a
  · rw [if_pos (show _ < usizeSize from hrange), if_pos hrange]
    by_cases hlen : r.alignedAt a ≤ r.input.length
    · rw [if_pos hlen]
      simp only [← CdrReader.alignedAt.eq_def, if_neg (Nat.not_lt.mpr hlen)]
      rfl
    · rw [if_neg hlen]
      simp only [← CdrReader.alignedAt.eq_def, if_pos (Nat.lt_of_not_le hlen)]
      rfl
  · rw [if_neg (show ¬ _ < usizeSize from hrange), if_neg hrange]
    rfl

end Cdr

/-! ## Whole sequences of reads -/

/-- The public read operations. -/
inductive ReadOp where
  | octet
  | bool
  | u16
  | i16
  | u32
  | i32
  | u64
  | i64
  | f32
  | f64
  | string
  | octetSequence
  | alignTo (log : Fin 64)
  deriving DecidableEq, Repr

/-- What one read gives. -/
inductive ReadValue where
  | octet (value : UInt8)
  | bool (value : Bool)
  | u16 (value : UInt16)
  | i16 (value : Int16)
  | u32 (value : UInt32)
  | i32 (value : Int32)
  | u64 (value : UInt64)
  | i64 (value : Int64)
  | f32 (bits : UInt32)
  | f64 (bits : UInt64)
  | string (value : String)
  | octetSequence (bytes : List UInt8)
  | aligned
  deriving DecidableEq

/-- The read of each kind. -/
def ReadOp.run : ReadOp → Cdr ReadValue
  | .octet => do return .octet (← Cdr.readOctet)
  | .bool => do return .bool (← Cdr.readBool)
  | .u16 => do return .u16 (← Cdr.readU16)
  | .i16 => do return .i16 (← Cdr.readI16)
  | .u32 => do return .u32 (← Cdr.readU32)
  | .i32 => do return .i32 (← Cdr.readI32)
  | .u64 => do return .u64 (← Cdr.readU64)
  | .i64 => do return .i64 (← Cdr.readI64)
  | .f32 => do return .f32 (← Cdr.readF32)
  | .f64 => do return .f64 (← Cdr.readF64)
  | .string => do return .string (← Cdr.readString)
  | .octetSequence => do return .octetSequence (← Cdr.readOctetSequence)
  | .alignTo log => do
      Cdr.alignTo (2 ^ log.val)
      return .aligned

/-- What a client sees of a sequence of reads: each outcome with the
position after it.  A failed read does not end the sequence. -/
def runReads : List ReadOp → CdrReader → List (Except CdrError ReadValue × Nat)
  | [], _ => []
  | op :: ops, r =>
      let step := Op.exec op.run r
      (step.1, step.2.position) :: runReads ops step.2

end GovFuzz.Iiop
