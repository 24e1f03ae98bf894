import GovFuzz.Lib.Framed
import GovFuzz.Lib.Json

/-!
# Lib — writing JSON strings byte by byte

A writer that stands one escape for each byte of a value.  If the reader
takes every escape back as the Latin-1 character of its byte, it takes a
quoted value back as the Latin-1 text of the value, and a list of quoted
values as an array of these texts.
-/

namespace GovFuzz.Lib.Json

/-- The reader takes the escape of a byte as one character. -/
def Escapes (escape : UInt8 → List UInt8) : Prop :=
  ∀ b n rest, stringBody (n + 1) (escape b ++ rest)
    = (stringBody n rest).map fun p => (String.utf8EncodeChar (latin1Char b) ++ p.1, p.2)

/-- `"…"`. -/
def quoted (escape : UInt8 → List UInt8) (value : List UInt8) : List UInt8 :=
  34 :: value.flatMap escape ++ [34]

/-- Quoted values with commas between them. -/
def quotedItems (escape : UInt8 → List UInt8) : List (List UInt8) → List UInt8 :=
  separated (quoted escape) 44

theorem skipSpace_cons {b : UInt8} (h : isSpace b = false) (s : List UInt8) :
    skipSpace (b :: s) = b :: s := by
  rw [skipSpace, List.dropWhile_cons_of_neg (by rw [h]; decide)]

/-! ## One byte -/

/-- A printable byte that is neither the quote nor the backslash stands for itself. -/
theorem stringBody_printable {b : UInt8} (hquote : b ≠ 34) (hback : b ≠ 92)
    (hprintable : 32 ≤ b ∧ b ≤ 126) (n : Nat) (rest : List UInt8) :
    stringBody (n + 1) (b :: rest)
      = (stringBody n rest).map fun p => (String.utf8EncodeChar (latin1Char b) ++ p.1, p.2) := by
  have hascii : b < 128 := by
    have hle := UInt8.le_iff_toNat_le.mp hprintable.2
    rw [UInt8.lt_iff_toNat_lt]
    exact Nat.lt_of_le_of_lt hle (by decide)
  have hcontrol : ¬ (b < 32) := UInt8.not_lt.mpr hprintable.1
  rw [utf8EncodeChar_latin1Char hascii, stringBody, if_neg hquote, if_neg hback, if_neg hcontrol]
  rfl

/-- `\u00` and the two digits of a byte. -/
theorem stringBody_unicode {b high low : UInt8} (hhigh : hexValue high = some (b.toNat / 16))
    (hlow : hexValue low = some (b.toNat % 16)) (n : Nat) (rest : List UInt8) :
    stringBody (n + 1) (92 :: 117 :: 48 :: 48 :: high :: low :: rest)
      = (stringBody n rest).map fun p => (String.utf8EncodeChar (latin1Char b) ++ p.1, p.2) := by
  have hb := b.toNat_lt
  have hdiv := Nat.div_add_mod b.toNat 16
  have hzero : hexValue 48 = some 0 := by decide
  have hvalue : ((0 * 16 + 0) * 16 + b.toNat / 16) * 16 + b.toNat % 16 = b.toNat := by omega
  have hhex : hex4 (48 :: 48 :: high :: low :: rest) = some (b.toNat, rest) := by
    simp only [hex4, hzero, hhigh, hlow, hvalue]
  -- a byte is below the surrogates
  have hescape : unicodeEscape (48 :: 48 :: high :: low :: rest) = some (latin1Char b, rest) := by
    have hlower : ¬ (0xDC00 ≤ b.toNat) := by omega
    have hupper : ¬ (0xD800 ≤ b.toNat) := by omega
    simp [unicodeEscape, hhex, hlower, hupper, latin1Char]
  have hletter : escape (117 :: 48 :: 48 :: high :: low :: rest) = some (latin1Char b, rest) :=
    hescape
  rw [stringBody, if_neg (by decide), if_pos rfl, hletter]

/-! ## Values -/

section
variable {escape : UInt8 → List UInt8} (h : Escapes escape)
include h

theorem Escapes.ne_nil (b : UInt8) : escape b ≠ [] := by
  intro hnil
  have hread := h b 0 [34]
  rw [hnil] at hread
  cases hread

theorem Escapes.stringBody (value : List UInt8) (m : Nat) (rest : List UInt8) :
    Json.stringBody (value.length + m) (value.flatMap escape ++ rest)
      = (Json.stringBody m rest).map fun p =>
          (value.flatMap (fun b => String.utf8EncodeChar (latin1Char b)) ++ p.1, p.2) := by
  induction value with
  | nil => simp
  | cons b value ih =>
      have hfuel : (b :: value).length + m = (value.length + m) + 1 := by
        simp only [List.length_cons]
        omega
      rw [List.flatMap_cons, List.append_assoc, hfuel, h, ih, Option.map_map]
      simp [Function.comp_def]

theorem Escapes.text (value rest : List UInt8) :
    Json.text (value.flatMap escape ++ 34 :: rest) = some (latin1 value, rest) := by
  have hle := length_le_flatMap fun b (_ : b ∈ value) => h.ne_nil b
  obtain ⟨m, hm⟩ : ∃ m, (value.flatMap escape ++ 34 :: rest).length + 1
      = value.length + (m + 1) := by
    refine ⟨(value.flatMap escape ++ 34 :: rest).length - value.length, ?_⟩
    simp only [List.length_append]
    omega
  have hutf8 : fromUtf8 (value.flatMap fun b => String.utf8EncodeChar (latin1Char b))
      = some (latin1 value) := by
    rw [fromUtf8_eq_some, latin1, toUtf8_ofList, List.flatMap_map]
  rw [Json.text, hm, h.stringBody]
  simp [Json.stringBody, hutf8]

theorem Escapes.value (depth : Nat) (value rest : List UInt8) :
    Json.value (depth + 1) (quoted escape value ++ rest)
      = some (.string (latin1 value), rest) := by
  have htext := h.text value rest
  simp only [quoted, List.cons_append, List.append_assoc, List.nil_append]
  rw [Json.value, if_pos rfl, htext]
  rfl

/-! ## Arrays and objects -/

/-- The items of a quoted array are read back to their texts. -/
theorem Escapes.items (depth : Nat) (value : List UInt8) (values : List (List UInt8)) {n : Nat}
    (hn : values.length < n) (rest : List UInt8) :
    Json.items (Json.value (depth + 1)) n (quotedItems escape (value :: values) ++ 93 :: rest)
      = some ((value :: values).map fun value => .string (latin1 value), rest) := by
  induction values generalizing value n with
  | nil =>
      obtain ⟨n, rfl⟩ : ∃ m, n = m + 1 := ⟨n - 1, by omega⟩
      rw [quotedItems, separated_singleton, Json.items, h.value]
      dsimp only
      rw [skipSpace_cons (by decide)]
      rfl
  | cons next values ih =>
      obtain ⟨n, rfl⟩ : ∃ m, n = m + 1 := ⟨n - 1, by omega⟩
      have hbytes : quotedItems escape (value :: next :: values) ++ 93 :: rest
          = quoted escape value ++ 44 :: (quotedItems escape (next :: values) ++ 93 :: rest) := by
        rw [quotedItems, separated_cons_cons, List.append_assoc, List.cons_append]
      have hfront : skipSpace (quotedItems escape (next :: values) ++ 93 :: rest)
          = quotedItems escape (next :: values) ++ 93 :: rest := by
        simp only [quotedItems, separated, quoted, List.cons_append]
        exact skipSpace_cons (by decide) _
      have hothers := ih next (n := n) (by simpa using hn)
      rw [hbytes, Json.items, h.value]
      dsimp only
      rw [skipSpace_cons (by decide)]
      dsimp only
      rw [if_neg (by decide), if_pos rfl, hfront, hothers]
      rfl

/-- `["…","…"]` is an array of the texts. -/
theorem Escapes.fromSlice_array (values : List (List UInt8)) :
    fromSlice (91 :: quotedItems escape values ++ [93])
      = some (.array (values.map fun value => .string (latin1 value))) := by
  cases values with
  | nil => rfl
  | cons value values =>
      have hlen : values.length < (quotedItems escape (value :: values) ++ [93]).length := by
        have hle := length_le_separated 44 fun item (_ : item ∈ value :: values) =>
          List.cons_ne_nil 34 (item.flatMap escape ++ [34])
        rw [List.length_append]
        exact Nat.lt_succ_of_lt hle
      have hitems := h.items 126 value values hlen []
      obtain ⟨s, hs⟩ : ∃ s, quotedItems escape (value :: values) ++ [93] = 34 :: s :=
        ⟨_, rfl⟩
      rw [hs] at hitems
      have hvalue : Json.value maxDepth (91 :: 34 :: s)
          = some (.array ((value :: values).map fun value => .string (latin1 value)), []) := by
        show Json.value (127 + 1) (91 :: 34 :: s) = _
        rw [Json.value, if_neg (by decide), if_neg (by decide), if_pos rfl, if_neg (by decide),
          skipSpace_cons (by decide)]
        dsimp only
        rw [if_neg (by decide), hitems]
        rfl
      rw [fromSlice, List.cons_append, hs, skipSpace_cons (by decide), hvalue]
      rfl

/-- `{"…":"…"}` is an object of one member. -/
theorem Escapes.fromSlice_object (key value : List UInt8) :
    fromSlice (123 :: quoted escape key ++ 58 :: quoted escape value ++ [125])
      = some (.object [(latin1 key, .string (latin1 value))]) := by
  have hkey := h.text key (58 :: quoted escape value ++ [125])
  have hitem := h.value 126 value [125]
  have hmember : Json.member (Json.value 127)
      (34 :: (key.flatMap escape ++ 34 :: (58 :: quoted escape value ++ [125])))
      = some ((latin1 key, .string (latin1 value)), [125]) := by
    have hspace : skipSpace (quoted escape value ++ [125]) = quoted escape value ++ [125] := by
      simp only [quoted, List.cons_append]
      exact skipSpace_cons (by decide) _
    rw [member, if_pos rfl, hkey]
    simp only [List.cons_append]
    rw [skipSpace_cons (by decide)]
    dsimp only
    rw [if_pos rfl, hspace, hitem]
    rfl
  have hbytes : 123 :: quoted escape key ++ 58 :: quoted escape value ++ [125]
      = 123 :: 34 :: (key.flatMap escape ++ 34 :: (58 :: quoted escape value ++ [125])) := by
    simp only [quoted, List.cons_append, List.append_assoc, List.nil_append]
  have hvalue : Json.value maxDepth
      (123 :: 34 :: (key.flatMap escape ++ 34 :: (58 :: quoted escape value ++ [125])))
      = some (.object [(latin1 key, .string (latin1 value))], []) := by
    show Json.value (127 + 1) _ = _
    rw [Json.value, if_neg (by decide), if_pos rfl, if_neg (by decide),
      skipSpace_cons (by decide)]
    dsimp only
    rw [if_neg (by decide), List.length_cons, members, hmember]
    rfl
  rw [hbytes, fromSlice, skipSpace_cons (by decide), hvalue]
  rfl

end

end GovFuzz.Lib.Json
