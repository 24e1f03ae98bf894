import GovFuzz.Lib.JsonText
import GovFuzz.Runtrace.Jsonl

/-!
# Runtrace — reading a whole line

How the JSON reader takes the text of an event: a whole line gives back the
event (`value_event`), unless a key has a control character, which the
builder does not escape there.
-/

namespace GovFuzz.Runtrace

open GovFuzz.Lib

/-! ## Strings -/

theorem hexValue_hexDigit (b : UInt8) :
    Json.hexValue (hexDigit ((b >>> 4) &&& 0xf)) = some (b.toNat / 16)
      ∧ Json.hexValue (hexDigit (b &&& 0xf)) = some (b.toNat % 16) := by
  have hall : ∀ b : UInt8,
      Json.hexValue (hexDigit ((b >>> 4) &&& 0xf)) = some (b.toNat / 16)
        ∧ Json.hexValue (hexDigit (b &&& 0xf)) = some (b.toNat % 16) :=
    forall_byte (by decide +kernel)
  exact hall b

/-- The reader takes one escaped byte. -/
theorem stringBody_escaped (n : Nat) (b : UInt8) (rest : List UInt8) :
    Json.stringBody (n + 1) (escaped b ++ rest)
      = (Json.stringBody n rest).map fun p =>
          (String.utf8EncodeChar (latin1Char b) ++ p.1, p.2) := by
  unfold escaped
  split_ifs with hquote hback hnl hcr htab hplain
  · subst hquote; rfl
  · subst hback; rfl
  · subst hnl; rfl
  · subst hcr; rfl
  · subst htab; rfl
  · simp only [Bool.and_eq_true, decide_eq_true_eq] at hplain
    exact Json.stringBody_printable hquote hback hplain n rest
  · obtain ⟨hhigh, hlow⟩ := hexValue_hexDigit b
    exact Json.stringBody_unicode hhigh hlow n rest

theorem escaped_escapes : Json.Escapes escaped := fun b n rest => stringBody_escaped n b rest

/-- A quoted value is read as its bytes. -/
theorem text_quoted (value rest : List UInt8) :
    Json.text (value.flatMap escaped ++ 34 :: rest) = some (latin1 value, rest) :=
  escaped_escapes.text value rest

/-- Nothing in the key has to be escaped. -/
def Key.Clean (key : Key) : Prop := ∀ b ∈ key.bytes, 32 ≤ b

instance (key : Key) : Decidable key.Clean := inferInstanceAs (Decidable (∀ b ∈ key.bytes, 32 ≤ b))

theorem stringBody_plain {b : UInt8} (hquote : b ≠ 34) (hback : b ≠ 92) (n : Nat)
    (rest : List UInt8) :
    Json.stringBody (n + 1) (b :: rest)
      = if b < 32 then none else (Json.stringBody n rest).map fun p => (b :: p.1, p.2) := by
  rw [Json.stringBody, if_neg hquote, if_neg hback]

theorem stringBody_clean {bytes : List UInt8} (hplain : ∀ b ∈ bytes, b < 128 ∧ b ≠ 34 ∧ b ≠ 92)
    (hclean : ∀ b ∈ bytes, 32 ≤ b) (m : Nat) (rest : List UInt8) :
    Json.stringBody (bytes.length + m) (bytes ++ rest)
      = (Json.stringBody m rest).map fun p => (bytes ++ p.1, p.2) := by
  induction bytes with
  | nil => simp
  | cons b bytes ih =>
      rw [List.forall_mem_cons] at hplain hclean
      have hcontrol : ¬ (b < 32) := UInt8.not_lt.mpr hclean.1
      rw [List.length_cons, show bytes.length + 1 + m = (bytes.length + m) + 1 by omega,
        List.cons_append, stringBody_plain hplain.1.2.1 hplain.1.2.2, if_neg hcontrol,
        ih hplain.2 hclean.2, Option.map_map]
      rfl

theorem stringBody_unclean {bytes : List UInt8}
    (hplain : ∀ b ∈ bytes, b < 128 ∧ b ≠ 34 ∧ b ≠ 92) (hunclean : ∃ b ∈ bytes, b < 32) (n : Nat)
    (rest : List UInt8) : Json.stringBody n (bytes ++ rest) = none := by
  induction bytes generalizing n with
  | nil =>
      obtain ⟨b, hb, -⟩ := hunclean
      cases hb
  | cons b bytes ih =>
      cases n with
      | zero => rfl
      | succ n =>
          rw [List.forall_mem_cons] at hplain
          rw [List.cons_append, stringBody_plain hplain.1.2.1 hplain.1.2.2]
          by_cases hcontrol : b < 32
          · rw [if_pos hcontrol]
          · rw [if_neg hcontrol]
            obtain ⟨c, hc, hlow⟩ := hunclean
            rcases List.mem_cons.mp hc with rfl | hc
            · exact absurd hlow hcontrol
            · rw [ih hplain.2 ⟨c, hc, hlow⟩]
              rfl

theorem text_key {key : Key} (hclean : key.Clean) (rest : List UInt8) :
    Json.text (key.bytes ++ 34 :: rest) = some (latin1 key.bytes, rest) := by
  have hutf8 : fromUtf8 key.bytes = some (latin1 key.bytes) :=
    (fromUtf8_eq_latin1_iff key.bytes).mpr fun b hb => (key.plain b hb).1
  have hlen : (key.bytes ++ 34 :: rest).length + 1
      = key.bytes.length + ((34 :: rest).length + 1) := by
    rw [List.length_append]
    omega
  rw [Json.text, hlen, stringBody_clean key.plain hclean]
  simp [Json.stringBody, hutf8]

theorem text_key_unclean {key : Key} (hclean : ¬ key.Clean) (rest : List UInt8) :
    Json.text (key.bytes ++ rest) = none := by
  have hunclean : ∃ b ∈ key.bytes, b < 32 := by
    by_contra hno
    refine hclean fun b hb => ?_
    by_contra hlow
    exact hno ⟨b, hb, UInt8.not_le.mp hlow⟩
  rw [Json.text, stringBody_unclean key.plain hunclean]

/-! ## Numbers -/

def FrontIsNot (p : UInt8 → Bool) (s : List UInt8) : Prop := ∀ b rest, s = b :: rest → p b = false

theorem takeWhile_append_of_front {p : UInt8 → Bool} {digits rest : List UInt8}
    (hdigits : ∀ b ∈ digits, p b) (hrest : FrontIsNot p rest) :
    (digits ++ rest).takeWhile p = digits ∧ (digits ++ rest).dropWhile p = rest := by
  induction digits with
  | nil =>
      cases rest with
      | nil => exact ⟨rfl, rfl⟩
      | cons b rest => simp [hrest b rest rfl]
  | cons b digits ih =>
      rw [List.forall_mem_cons] at hdigits
      have h := ih hdigits.2
      simp [hdigits.1, h.1, h.2]

theorem digitsLoop_append (u : Nat) (tmp : List UInt8) :
    digitsLoop u tmp = digitsLoop u [] ++ tmp := by
  induction u using Nat.strongRecOn generalizing tmp with
  | ind u ih =>
      rw [digitsLoop, digitsLoop.eq_def u []]
      by_cases hu : u = 0
      · rw [if_pos hu, if_pos hu]
        rfl
      · rw [if_neg hu, if_neg hu, ih (u / 10) (by omega), ih (u / 10) (by omega) [_],
          List.append_assoc]
        rfl

theorem digitsLoop_step {u : Nat} (hu : u ≠ 0) :
    digitsLoop u [] = digitsLoop (u / 10) [] ++ [UInt8.ofNat (48 + u % 10)] := by
  rw [digitsLoop, if_neg hu, digitsLoop_append]

/-- The digits of a number have its value, and the first of them is no zero. -/
theorem digitsLoop_spec (u : Nat) :
    (∀ b ∈ digitsLoop u [], Json.isDigit b) ∧ Json.digitsValue (digitsLoop u []) = u
      ∧ (u ≠ 0 → ∃ d rest, digitsLoop u [] = d :: rest ∧ d ≠ 48) := by
  induction u using Nat.strongRecOn with
  | ind u ih =>
      by_cases hu : u = 0
      · subst hu
        rw [digitsLoop]
        simp [Json.digitsValue]
      · have hmod := Nat.mod_lt u (show 0 < 10 by decide)
        have hbyte : (UInt8.ofNat (48 + u % 10)).toNat = 48 + u % 10 := by
          rw [UInt8.toNat_ofNat']
          omega
        obtain ⟨hdigits, hvalue, hhead⟩ := ih (u / 10) (by omega)
        rw [digitsLoop_step hu]
        refine ⟨?_, ?_, fun _ => ?_⟩
        · intro b hb
          rcases List.mem_append.mp hb with hb | hb
          · exact hdigits b hb
          · rw [List.mem_singleton.mp hb]
            simp only [Json.isDigit, Bool.and_eq_true, decide_eq_true_eq, UInt8.le_iff_toNat_le,
              hbyte]
            exact ⟨by simp, by simp; omega⟩
        · have hfold : Json.digitsValue (digitsLoop (u / 10) [] ++ [UInt8.ofNat (48 + u % 10)])
              = Json.digitsValue (digitsLoop (u / 10) []) * 10
                + ((UInt8.ofNat (48 + u % 10)).toNat - 48) := by
            rw [Json.digitsValue, List.foldl_append]
            rfl
          rw [hfold, hvalue, hbyte]
          omega
        · -- the first digit is this one, or the first of a tenth of the number
          by_cases hsmall : u / 10 = 0
          · refine ⟨UInt8.ofNat (48 + u % 10), [], ?_, ?_⟩
            · rw [hsmall, digitsLoop, if_pos rfl]
              rfl
            · intro heq
              have := congrArg UInt8.toNat heq
              rw [hbyte] at this
              simp at this
              omega
          · obtain ⟨d, rest, heq, hd⟩ := hhead hsmall
            exact ⟨d, rest ++ [UInt8.ofNat (48 + u % 10)], by rw [heq]; rfl, hd⟩

/-- What stops a number. -/
def StopsNumber (s : List UInt8) : Prop :=
  FrontIsNot (fun b => Json.isDigit b || b = 46 || b = 101 || b = 69) s

theorem StopsNumber.not_digit {s : List UInt8} (h : StopsNumber s) : FrontIsNot Json.isDigit s := by
  intro b rest hs
  have := h b rest hs
  simp only [Bool.or_eq_false_iff] at this
  exact this.1.1.1

theorem sign_append {mark s : List UInt8} (hmark : mark = [] ∨ mark = [45])
    (hs : FrontIsNot (· = 45) s) : Json.sign (mark ++ s) = (mark, s) := by
  rcases hmark with rfl | rfl
  · cases s with
    | nil => rfl
    | cons b rest =>
        have hb : b ≠ 45 := of_decide_eq_false (hs b rest rfl)
        simp only [List.nil_append, Json.sign]
        split
        case h_1 heq => exact absurd (List.cons.inj heq).1 hb
        case h_2 => rfl
  · rfl

/-- A number written in plain digits. -/
theorem numeral_digits {mark rest : List UInt8} {d : UInt8} {digits : List UInt8}
    (hmark : mark = [] ∨ mark = [45]) (hdigits : ∀ b ∈ d :: digits, Json.isDigit b)
    (hrest : StopsNumber rest) :
    Json.numeral (mark ++ (d :: digits ++ rest))
      = if d = 48 && digits ≠ [] then none
        else some (.number (mark ++ (d :: digits)), rest) := by
  have hd : d ≠ 45 := by
    rintro rfl
    exact absurd (hdigits 45 List.mem_cons_self) (by decide)
  have hfront : FrontIsNot (· = 45) (d :: digits ++ rest) := by
    intro b s heq
    rw [← (List.cons.inj heq).1]
    exact decide_eq_false hd
  obtain ⟨htake, hdrop⟩ := takeWhile_append_of_front hdigits hrest.not_digit
  have hfrac : Json.fraction rest = some ([], rest) := by
    unfold Json.fraction
    split
    case h_1 rest' =>
      have := hrest 46 rest' rfl
      simp at this
    case h_2 => rfl
  have hexp : Json.exponent rest = some ([], rest) := by
    cases rest with
    | nil => rfl
    | cons b rest =>
        have := hrest b rest rfl
        simp only [Bool.or_eq_false_iff, decide_eq_false_iff_not] at this
        simp [Json.exponent, this.1.2, this.2]
  -- behind the digits stands neither a fraction nor an exponent
  unfold Json.numeral
  rw [sign_append hmark hfront]
  simp only [Json.integerDigits, htake, hdrop]
  by_cases hzero : (d = 48 && digits ≠ []) = true
  · rw [if_pos hzero, if_pos hzero]
  · rw [if_neg hzero, if_neg hzero]
    simp only [hfrac, hexp, List.append_nil]

theorem toNat_magnitude (value : Int64) :
    (if value < 0 then -value else value).toUInt64.toNat = value.toInt.natAbs := by
  have hlt : value < 0 ↔ value.toInt < 0 := by
    rw [Int64.lt_iff_toInt_lt]
    simp
  have hint : value.toInt = value.toBitVec.toInt := rfl
  have hbv := BitVec.toInt_eq_toNat_cond value.toBitVec
  have hbound := value.toBitVec.isLt
  split
  case isTrue hneg =>
    rw [hlt, hint, hbv] at hneg
    rw [hint, hbv]
    show (-value).toBitVec.toNat = _
    rw [Int64.toBitVec_neg, BitVec.toNat_neg]
    split at hneg
    · omega
    · omega
  case isFalse hpos =>
    rw [hlt, hint, hbv] at hpos
    rw [hint, hbv]
    show value.toBitVec.toNat = _
    split at hpos
    · omega
    · omega

/-- The sign and the digits of a number. -/
theorem decimal_eq (value : Int64) :
    ∃ mark d digits, decimal value = mark ++ (d :: digits) ∧ (mark = [] ∨ mark = [45])
      ∧ (∀ b ∈ d :: digits, Json.isDigit b) ∧ ¬ (d = 48 ∧ digits ≠ [])
      ∧ Json.asI64 (.number (mark ++ (d :: digits))) = some value.toInt := by
  by_cases hzero : value = 0
  · subst hzero
    refine ⟨[], 48, [], rfl, .inl rfl, by decide, by decide, ?_⟩
    decide
  · have habs := toNat_magnitude value
    have hne : value.toInt ≠ 0 := fun h => hzero (Int64.toInt_inj.mp h)
    have hupper : value.toInt < 2 ^ 63 := Int64.toInt_lt value
    have hlower : -(2 ^ 63) ≤ value.toInt := Int64.le_toInt value
    have hmagnitude : value.toInt.natAbs ≠ 0 := by omega
    obtain ⟨hdigits, hvalue, hhead⟩ := digitsLoop_spec value.toInt.natAbs
    obtain ⟨d, rest, heq, hd⟩ := hhead hmagnitude
    rw [heq] at hdigits hvalue
    have hlt : value < 0 ↔ value.toInt < 0 := by
      rw [Int64.lt_iff_toInt_lt]
      simp
    refine ⟨if value < 0 then [45] else [], d, rest, ?_, ?_, hdigits, fun h => hd h.1, ?_⟩
    · rw [decimal, if_neg hzero, habs, heq]
    · split
      · exact .inr rfl
      · exact .inl rfl
    · have hd45 : d ≠ 45 := by
        rintro rfl
        exact absurd (hdigits 45 List.mem_cons_self) (by decide)
      have hfront : FrontIsNot (· = 45) (d :: rest) := by
        intro b s h
        rw [← (List.cons.inj h).1]
        exact decide_eq_false hd45
      have hall : (d :: rest).all Json.isDigit = true := List.all_eq_true.mpr hdigits
      by_cases hneg : value < 0
      · rw [if_pos hneg]
        simp only [Json.asI64, sign_append (.inr rfl) hfront, hall, hvalue]
        rw [hlt] at hneg
        have hvalue' : -(value.toInt.natAbs : Int) = value.toInt := by omega
        rw [if_neg (by simp), if_neg (List.cons_ne_nil _ _), if_pos (by
          rw [Bool.and_eq_true, decide_eq_true_eq, decide_eq_true_eq]
          omega), hvalue']
      · rw [if_neg hneg]
        simp only [Json.asI64, sign_append (.inl rfl) hfront, hall, hvalue]
        rw [hlt] at hneg
        have hvalue' : (value.toInt.natAbs : Int) = value.toInt := by omega
        rw [if_neg (by simp), if_pos trivial, if_pos (by omega), hvalue']

/-! ## Whole lines -/

def FieldValue.toJson : FieldValue → Json
  | .str value => .string (latin1 value)
  | .i64 value => .number (decimal value)
  | .null => .null

def Field.entry (f : Field) : String × Json := (latin1 f.key.bytes, f.value.toJson)

def Event.toJson (e : Event) : Json := .object (e.allFields.map Field.entry)

def Event.Clean (e : Event) : Prop := ∀ f ∈ e.fields, f.key.Clean

/-- The number reader gets what starts with a sign or a digit. -/
theorem value_numeral {b : UInt8} (hb : b = 45 ∨ Json.isDigit b) (depth : Nat) (s : List UInt8) :
    Json.value (depth + 1) (b :: s) = Json.numeral (b :: s) := by
  have hne : ∀ c : UInt8, c ≠ 45 → Json.isDigit c = false → b ≠ c := by
    rintro c hc hdigit rfl
    rcases hb with hb | hb
    · exact hc hb
    · rw [hdigit] at hb
      cases hb
  rw [Json.value, if_neg (hne 34 (by decide) (by decide)), if_neg (hne 123 (by decide) (by decide)),
    if_neg (hne 91 (by decide) (by decide)), if_neg (hne 116 (by decide) (by decide)),
    if_neg (hne 102 (by decide) (by decide)), if_neg (hne 110 (by decide) (by decide))]

theorem isSpace_numeral {b : UInt8} (hb : b = 45 ∨ Json.isDigit b) : Json.isSpace b = false := by
  rcases hb with rfl | hb
  · decide
  · simp only [Json.isDigit, Bool.and_eq_true, decide_eq_true_eq, UInt8.le_iff_toNat_le] at hb
    have hne : ∀ c : UInt8, c.toNat < 48 → b ≠ c := by
      rintro c hc rfl
      have := hb.1
      simp at this
      omega
    simp [Json.isSpace, hne 32 (by decide), hne 10 (by decide), hne 13 (by decide),
      hne 9 (by decide)]

theorem decimal_front (value : Int64) :
    ∃ b s, decimal value = b :: s ∧ (b = 45 ∨ Json.isDigit b) := by
  obtain ⟨mark, d, digits, heq, hmark, hdigits, -⟩ := decimal_eq value
  rcases hmark with rfl | rfl
  · exact ⟨d, digits, heq, .inr (hdigits d List.mem_cons_self)⟩
  · exact ⟨45, d :: digits, heq, .inl rfl⟩

theorem FieldValue.text_front (v : FieldValue) :
    ∃ b s, v.text = b :: s ∧ Json.isSpace b = false := by
  cases v with
  | str value => exact ⟨34, _, rfl, by decide⟩
  | i64 value =>
      obtain ⟨b, s, heq, hb⟩ := decimal_front value
      exact ⟨b, s, heq, isSpace_numeral hb⟩
  | null => exact ⟨110, _, rfl, by decide⟩

theorem value_text (v : FieldValue) (depth : Nat) {rest : List UInt8} (hrest : StopsNumber rest) :
    Json.value (depth + 1) (v.text ++ rest) = some (v.toJson, rest) := by
  cases v with
  | str value =>
      have h := text_quoted value rest
      rw [FieldValue.text, List.cons_append, List.append_assoc, List.singleton_append,
        Json.value, if_pos rfl, h]
      rfl
  | i64 value =>
      obtain ⟨b, s, hfront, hb⟩ := decimal_front value
      obtain ⟨mark, d, digits, heq, hmark, hdigits, hzero, -⟩ := decimal_eq value
      have hnumeral := numeral_digits hmark hdigits hrest
      rw [if_neg (by simpa using hzero), ← heq, ← List.append_assoc, ← heq] at hnumeral
      rw [FieldValue.text, FieldValue.toJson, ← hnumeral, hfront, List.cons_append]
      exact value_numeral hb depth _
  | null => rfl

theorem member_text {f : Field} (hclean : f.key.Clean) (depth : Nat) {rest : List UInt8}
    (hrest : StopsNumber rest) :
    Json.member (Json.value (depth + 1)) (f.text ++ rest) = some (f.entry, rest) := by
  obtain ⟨b, s, hfront, hspace⟩ := f.value.text_front
  have hkey := text_key hclean (58 :: (f.value.text ++ rest))
  have hskip : Json.skipSpace (f.value.text ++ rest) = f.value.text ++ rest := by
    rw [hfront, List.cons_append, Json.skipSpace_cons hspace]
  rw [Field.text, List.cons_append, List.append_assoc, List.cons_append, List.cons_append,
    Json.member, if_pos rfl, hkey]
  dsimp only
  rw [Json.skipSpace_cons (by decide)]
  dsimp only
  rw [if_pos rfl, hskip, value_text f.value depth hrest]
  rfl

theorem member_unclean {f : Field} (hclean : ¬ f.key.Clean)
    (value : List UInt8 → Option (Json × List UInt8)) (rest : List UInt8) :
    Json.member value (f.text ++ rest) = none := by
  rw [Field.text, List.cons_append, List.append_assoc, Json.member, if_pos rfl,
    text_key_unclean hclean]

theorem stopsNumber_comma (rest : List UInt8) : StopsNumber (44 :: rest) := by
  intro b s h
  rw [← (List.cons.inj h).1]
  decide

theorem stopsNumber_brace (rest : List UInt8) : StopsNumber (125 :: rest) := by
  intro b s h
  rw [← (List.cons.inj h).1]
  decide

theorem fieldsText_front (f : Field) (fields : List Field) :
    ∃ s, fieldsText (f :: fields) = 34 :: s := by
  rw [fieldsText_cons, Field.text]
  exact ⟨_, rfl⟩

/-- One field of a line, and the reader goes on behind the comma. -/
theorem members_comma {f g : Field} (hclean : f.key.Clean) (fields : List Field) (depth n : Nat)
    (rest : List UInt8) :
    Json.members (Json.value (depth + 1)) (n + 1) (fieldsText (f :: g :: fields) ++ rest)
      = (Json.members (Json.value (depth + 1)) n (fieldsText (g :: fields) ++ rest)).map
          fun p => (f.entry :: p.1, p.2) := by
  obtain ⟨s, hfront⟩ := fieldsText_front g fields
  have hmember := member_text hclean depth
    (stopsNumber_comma (fieldsText (g :: fields) ++ rest))
  rw [fieldsText, List.append_assoc, List.cons_append, Json.members, hmember]
  dsimp only
  rw [Json.skipSpace_cons (by decide)]
  dsimp only
  rw [if_neg (by decide), if_pos rfl, hfront, List.cons_append, Json.skipSpace_cons (by decide)]

theorem members_text {fields : List Field} {f : Field} (hclean : ∀ g ∈ f :: fields, g.key.Clean)
    (depth : Nat) {n : Nat} (hn : (f :: fields).length ≤ n) (rest : List UInt8) :
    Json.members (Json.value (depth + 1)) n (fieldsText (f :: fields) ++ 125 :: rest)
      = some ((f :: fields).map Field.entry, rest) := by
  induction fields generalizing f n with
  | nil =>
      obtain ⟨n, rfl⟩ : ∃ m, n = m + 1 := ⟨n - 1, by simp at hn; omega⟩
      have hmember := member_text (hclean f List.mem_cons_self) depth (stopsNumber_brace rest)
      rw [fieldsText, Json.members, hmember]
      dsimp only
      rw [Json.skipSpace_cons (by decide)]
      rfl
  | cons g fields ih =>
      obtain ⟨n, rfl⟩ : ∃ m, n = m + 1 := ⟨n - 1, by simp at hn; omega⟩
      rw [List.forall_mem_cons] at hclean
      rw [members_comma hclean.1, ih hclean.2 (by simp at hn ⊢; omega)]
      rfl

theorem members_unclean {fields : List Field} {f : Field}
    (hunclean : ∃ g ∈ f :: fields, ¬ g.key.Clean) (depth n : Nat) (rest : List UInt8) :
    Json.members (Json.value (depth + 1)) n (fieldsText (f :: fields) ++ rest) = none := by
  induction fields generalizing f n with
  | nil =>
      cases n with
      | zero => rfl
      | succ n =>
          obtain ⟨g, hg, hclean⟩ := hunclean
          rw [List.mem_singleton.mp hg] at hclean
          rw [fieldsText, Json.members, member_unclean hclean]
  | cons g fields ih =>
      cases n with
      | zero => rfl
      | succ n =>
          by_cases hclean : f.key.Clean
          · have hrest : ∃ h ∈ g :: fields, ¬ h.key.Clean := by
              obtain ⟨h, hmem, hh⟩ := hunclean
              rcases List.mem_cons.mp hmem with rfl | hmem
              · exact absurd hclean hh
              · exact ⟨h, hmem, hh⟩
            rw [members_comma hclean, ih hrest]
            rfl
          · rw [fieldsText, List.append_assoc, Json.members, member_unclean hclean]

theorem length_le_fieldsText (fields : List Field) :
    fields.length ≤ (fieldsText fields).length := by
  cases fields with
  | nil => simp
  | cons f fields =>
      have hrest : fields.length ≤ (fields.flatMap fun g => 44 :: g.text).length := by
        induction fields with
        | nil => simp
        | cons g fields ih =>
            rw [List.flatMap_cons, List.length_append, List.length_cons, List.length_cons]
            omega
      rw [fieldsText_cons, List.length_append, Field.text, List.length_cons, List.length_cons]
      omega

theorem value_members (f : Field) (fields : List Field) (depth : Nat) (rest : List UInt8) :
    Json.value (depth + 2) (123 :: (fieldsText (f :: fields) ++ rest))
      = (Json.members (Json.value (depth + 1)) (fieldsText (f :: fields) ++ rest).length
          (fieldsText (f :: fields) ++ rest)).map fun p => (.object p.1, p.2) := by
  obtain ⟨s, hfront⟩ := fieldsText_front f fields
  rw [Json.value, if_neg (by decide), if_pos rfl, if_neg (by omega), hfront, List.cons_append,
    Json.skipSpace_cons (by decide)]
  dsimp only
  rw [if_neg (by decide)]

theorem Event.Clean.allFields {e : Event} (h : e.Clean) : ∀ f ∈ e.allFields, f.key.Clean := by
  intro f hf
  rcases List.mem_cons.mp hf with rfl | hf
  · show eventKey.Clean
    decide
  · exact h f hf

/-- A whole line is read as its event. -/
theorem value_event {e : Event} (hclean : e.Clean) (depth : Nat) (rest : List UInt8) :
    Json.value (depth + 2) (123 :: (fieldsText e.allFields ++ 125 :: rest))
      = some (e.toJson, rest) := by
  have hlen := length_le_fieldsText e.allFields
  rw [Event.allFields, value_members]
  rw [members_text hclean.allFields depth (by
    rw [List.length_append]
    exact le_trans hlen (Nat.le_add_right _ _))]
  rfl

theorem value_event_unclean {e : Event} (hclean : ¬ e.Clean) (depth : Nat) (rest : List UInt8) :
    Json.value depth (123 :: (fieldsText e.allFields ++ rest)) = none := by
  match depth with
  | 0 => rfl
  | 1 => rfl
  | depth + 2 =>
      have hunclean : ∃ f ∈ e.allFields, ¬ f.key.Clean := by
        by_contra hno
        refine hclean fun f hf => ?_
        by_contra hf'
        exact hno ⟨f, List.mem_cons_of_mem _ hf, hf'⟩
      rw [Event.allFields, value_members, members_unclean hunclean]
      rfl

end GovFuzz.Runtrace
