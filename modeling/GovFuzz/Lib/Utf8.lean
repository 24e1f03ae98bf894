import GovFuzz.Lib.Decide
import Mathlib.Data.List.Basic

/-!
# Lib — byte strings as text

Two readings of one byte string: as UTF-8, which not every byte string is,
and as Latin-1, where every byte is the character of that position.  They
agree exactly on ASCII (`fromUtf8_eq_latin1_iff`): a non-ASCII character
takes at least two UTF-8 bytes, so the two readings already differ in
length.
-/

namespace GovFuzz.Lib

/-- The text a UTF-8 byte string stands for, if it is one. -/
def fromUtf8 (bytes : List UInt8) : Option String :=
  String.fromUTF8? bytes.toByteArray

/-- The UTF-8 bytes of a text. -/
def toUtf8 (s : String) : List UInt8 := s.toByteArray.data.toList

/-- The character at a Latin-1 position. -/
def latin1Char (b : UInt8) : Char := Char.ofNat b.toNat

/-- The Latin-1 reading: one character per byte. -/
def latin1 (bytes : List UInt8) : String := String.ofList (bytes.map latin1Char)

theorem toByteArray_toUtf8 (s : String) : (toUtf8 s).toByteArray = s.toByteArray := by
  apply ByteArray.ext
  simp [toUtf8]

/-- Decoding succeeds exactly on the bytes of a text, with that text. -/
theorem fromUtf8_eq_some {bytes : List UInt8} {s : String} :
    fromUtf8 bytes = some s ↔ toUtf8 s = bytes := by
  unfold fromUtf8 String.fromUTF8?
  constructor
  · intro h
    split at h
    · cases h
      simp [toUtf8, String.fromUTF8]
    · cases h
  · rintro rfl
    rw [toByteArray_toUtf8, dif_pos s.isValidUTF8]
    rfl

theorem fromUtf8_toUtf8 (s : String) : fromUtf8 (toUtf8 s) = some s :=
  fromUtf8_eq_some.mpr rfl

theorem toUtf8_ofList (cs : List Char) :
    toUtf8 (String.ofList cs) = cs.flatMap String.utf8EncodeChar := by
  simp [toUtf8, String.ofList, List.utf8Encode]

theorem latin1Char_val (b : UInt8) : (latin1Char b).val.toNat = b.toNat := by
  have hb : b.toNat < 256 := b.toNat_lt
  have hv : b.toNat.isValidChar := Or.inl (by omega)
  rw [latin1Char, Char.ofNat, dif_pos hv]
  rfl

theorem latin1Char_utf8Size (b : UInt8) : (latin1Char b).utf8Size = 1 ↔ b < 128 := by
  rw [Char.utf8Size_eq_one_iff, UInt32.le_iff_toNat_le, latin1Char_val, UInt8.lt_iff_toNat_lt]
  exact Nat.lt_succ_iff.symm

/-- An ASCII character is its own encoding. -/
theorem utf8EncodeChar_latin1Char {b : UInt8} (h : b < 128) :
    String.utf8EncodeChar (latin1Char b) = [b] := by
  rw [String.utf8EncodeChar_eq_singleton ((latin1Char_utf8Size b).mpr h)]
  simp only [List.cons.injEq, and_true]
  apply UInt8.toNat_inj.mp
  have hb : b.toNat < 256 := b.toNat_lt
  have hv := latin1Char_val b
  simp only [UInt32.toNat_toUInt8, hv]
  omega

theorem length_le_flatMap_utf8 (cs : List Char) :
    cs.length ≤ (cs.flatMap String.utf8EncodeChar).length := by
  induction cs with
  | nil => simp
  | cons c cs ih =>
      have hc := c.utf8Size_pos
      simp only [List.flatMap_cons, List.length_append, List.length_cons,
        String.length_utf8EncodeChar]
      omega

/-- A text with as many bytes as characters has only one-byte characters. -/
theorem utf8Size_eq_one_of_length {l : List Char}
    (h : (l.flatMap String.utf8EncodeChar).length = l.length) :
    ∀ c ∈ l, c.utf8Size = 1 := by
  induction l with
  | nil => simp
  | cons c l ih =>
      have hc := c.utf8Size_pos
      have hle := length_le_flatMap_utf8 l
      simp only [List.flatMap_cons, List.length_append, List.length_cons,
        String.length_utf8EncodeChar] at h
      intro d hd
      rcases List.mem_cons.mp hd with rfl | hd
      · omega
      · exact ih (by omega) d hd

/-- The UTF-8 and the Latin-1 reading of a byte string are the same text
exactly when the byte string is ASCII. -/
theorem fromUtf8_eq_latin1_iff (bytes : List UInt8) :
    fromUtf8 bytes = some (latin1 bytes) ↔ ∀ b ∈ bytes, b < 128 := by
  rw [fromUtf8_eq_some, latin1, toUtf8_ofList]
  constructor
  · intro h b hb
    have hone := utf8Size_eq_one_of_length (l := bytes.map latin1Char)
      (by rw [h, List.length_map])
    exact (latin1Char_utf8Size b).mp (hone _ (List.mem_map_of_mem hb))
  · intro h
    rw [List.flatMap_map]
    calc bytes.flatMap (fun b => String.utf8EncodeChar (latin1Char b))
        = bytes.flatMap (fun b => [b]) :=
          List.flatMap_congr (fun b hb => utf8EncodeChar_latin1Char (h b hb))
      _ = bytes := List.flatMap_singleton' bytes

end GovFuzz.Lib
