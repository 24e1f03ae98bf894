import GovFuzz.AdaParser.LexerPositions

/-!
# Ada parser — literals

The literals of the language, and what the lexer makes of them: one token each,
of the right kind and with the right contents, but for three kinds of literal.
-/

namespace GovFuzz.AdaParser

open GovFuzz.Runtrace (isWhitespace)

/-! ## Literals -/

/-- Digits with single underscores between them. -/
inductive IsNumeral (isDigit : Char → Bool) : List Char → Prop
  | digit {ch : Char} (h : isDigit ch = true) : IsNumeral isDigit [ch]
  | next {ch : Char} {text : List Char} (h : isDigit ch = true)
      (rest : IsNumeral isDigit text) : IsNumeral isDigit (ch :: text)
  | underscore {ch : Char} {text : List Char} (h : isDigit ch = true)
      (rest : IsNumeral isDigit text) : IsNumeral isDigit (ch :: '_' :: text)

/-- Digits with single underscores between them. -/
structure Numeral where
  text : List Char
  valid : IsNumeral Char.isDigit text

/-- The number a numeral writes. -/
def Numeral.value (numeral : Numeral) : Nat := decimalValue numeral.text

/-- The value of a digit of any base. -/
def extendedDigit (ch : Char) : Option Nat :=
  if ch.isDigit then some (ch.toNat - '0'.toNat)
  else if 'A' ≤ ch ∧ ch ≤ 'F' then some (ch.toNat - 'A'.toNat + 10)
  else if 'a' ≤ ch ∧ ch ≤ 'f' then some (ch.toNat - 'a'.toNat + 10)
  else none

/-- Extended digits below the base. -/
structure BasedNumeral (base : Nat) where
  text : List Char
  valid : IsNumeral (fun ch => (extendedDigit ch).any (· < base)) text

/-- The sign of an exponent. -/
inductive ExponentSign where
  | none
  | plus
  | minus
  deriving DecidableEq

/-- The sign as it is written. -/
def ExponentSign.text : ExponentSign → List Char
  | none => []
  | plus => ['+']
  | minus => ['-']

/-- An exponent as it is written. -/
structure Exponent where
  capital : Bool
  sign : ExponentSign
  digits : Numeral

/-- The exponent's text. -/
def Exponent.text (exponent : Exponent) : List Char :=
  (if exponent.capital then 'E' else 'e') :: (exponent.sign.text ++ exponent.digits.text)

/-- A character literal holds any character but the end of a line; so does a
string literal, where a quotation mark is doubled. -/
inductive Literal where
  | decimal (integer : Numeral) (fraction : Option Numeral) (exponent : Option Exponent)
  | based (base : Numeral) (valid : 2 ≤ base.value ∧ base.value ≤ 16)
      (integer : BasedNumeral base.value) (fraction : Option (BasedNumeral base.value))
      (exponent : Option Exponent)
  | character (ch : Char) (graphic : ch ≠ '\n')
  | string (content : List Char) (graphic : '\n' ∉ content)

namespace Literal

/-- A point and the fraction behind it. -/
def pointed (fraction : Option (List Char)) : List Char :=
  match fraction with
  | none => []
  | some digits => '.' :: digits

/-- The text of an exponent, when there is one. -/
def exponentText (exponent : Option Exponent) : List Char :=
  match exponent with
  | none => []
  | some exponent => exponent.text

/-- The content with its quotes doubled. -/
def doubled (content : List Char) : List Char :=
  content.flatMap fun ch => if ch = '"' then ['"', '"'] else [ch]

/-- A literal as it is written. -/
def text : Literal → List Char
  | decimal integer fraction exponent =>
      integer.text ++ (pointed (fraction.map Numeral.text) ++ exponentText exponent)
  | based base _ integer fraction exponent =>
      base.text ++ '#' :: (integer.text ++ (pointed (fraction.map BasedNumeral.text)
        ++ '#' :: exponentText exponent))
  | character ch _ => ['\'', ch, '\'']
  | string content _ => '"' :: (doubled content ++ ['"'])

/-- What a literal is as a token: an integer without a point, a real number
only with one.  An integer whose exponent is negative is no real number either. -/
def Denoted : Literal → TokenKind → Prop
  | decimal integer none exponent, kind =>
      kind = .intLiteral (String.ofList (text (decimal integer none exponent)))
  | decimal integer (some fraction) exponent, kind =>
      kind = .realLiteral (String.ofList (text (decimal integer (some fraction) exponent)))
  | based base valid integer none exponent, kind =>
      kind = .basedLiteral (String.ofList (text (based base valid integer none exponent)))
  | based base valid integer (some fraction) exponent, kind =>
      kind = .basedLiteral
        (String.ofList (text (based base valid integer (some fraction) exponent)))
        ∨ kind = .realLiteral
          (String.ofList (text (based base valid integer (some fraction) exponent)))
  | character ch _, kind => kind = .charLiteral ch
  | string content _, kind => kind = .stringLiteral (String.ofList content)

/-- An exponent needs a point in a decimal literal, a based literal has no
point, and a character literal does not hold an apostrophe. -/
def Regular : Literal → Prop
  | decimal _ fraction exponent => fraction = none → exponent = none
  | based _ _ _ fraction _ => fraction = none
  | character ch _ => ch ≠ '\''
  | string _ _ => True

end Literal

/-- Whitespace, or the end of the source. -/
def Separated (rest : List Char) : Prop := ∀ ch, rest.head? = some ch → isWhitespace ch = true

/-! ## Where a class of characters stops -/

/-- The next character does not belong to the literal. -/
def EndsAt (p : Char → Bool) (rest : List Char) : Prop :=
  ∀ ch, rest.head? = some ch → p ch = false

theorem takeWhile_endsAt {p : Char → Bool} {text rest : List Char} (h : ∀ ch ∈ text, p ch = true)
    (hrest : EndsAt p rest) : (text ++ rest).takeWhile p = text := by
  rw [List.takeWhile_append_of_pos h]
  cases rest with
  | nil => simp
  | cons ch rest => simp [hrest ch rfl]

theorem dropWhile_endsAt {p : Char → Bool} {text rest : List Char} (h : ∀ ch ∈ text, p ch = true)
    (hrest : EndsAt p rest) : (text ++ rest).dropWhile p = rest := by
  rw [List.dropWhile_append_of_pos h]
  cases rest with
  | nil => rfl
  | cons ch rest => simp [hrest ch rfl]

theorem isWhitespace_of_isDigit {ch : Char} (h : ch.isDigit = true) : isWhitespace ch = false := by
  have hval : ch.toNat = ch.val.toNat := rfl
  simp only [Char.isDigit, Bool.and_eq_true, decide_eq_true_eq, UInt32.le_iff_toNat_le,
    ge_iff_le] at h
  have hlow : '0'.val.toNat = 48 := rfl
  have hhigh : '9'.val.toNat = 57 := rfl
  simp [isWhitespace]
  omega

/-- What may stand behind a number: an exponent mark or whitespace. -/
def endsNumber (ch : Char) : Bool := isExponentMark ch || isWhitespace ch

theorem endsNumber_of_mem {ch : Char} (h : endsNumber ch = true) :
    isDigitOrUnderscore ch = false ∧ ch ∉ ['.', '#', '"', '\''] := by
  constructor
  · by_contra hdigit
    simp only [isDigitOrUnderscore, Bool.not_eq_false, Bool.or_eq_true, decide_eq_true_eq] at hdigit
    rcases hdigit with hdigit | rfl
    · have hblank := isWhitespace_of_isDigit hdigit
      simp only [endsNumber, hblank, Bool.or_false, isExponentMark, Bool.or_eq_true,
        decide_eq_true_eq] at h
      rcases h with rfl | rfl <;> simp at hdigit
    · exact absurd h (by decide)
  · intro hmem
    have hall : ∀ other ∈ ['.', '#', '"', '\''], endsNumber other = false := by decide
    rw [hall ch hmem] at h
    cases h

namespace IsNumeral

variable {p : Char → Bool} {text : List Char}

theorem forall_mem (h : IsNumeral p text) : ∀ ch ∈ text, p ch = true ∨ ch = '_' := by
  induction h with
  | digit h => simpa using Or.inl h
  | next h rest ih => exact List.forall_mem_cons.2 ⟨.inl h, ih⟩
  | underscore h rest ih =>
      exact List.forall_mem_cons.2 ⟨.inl h, List.forall_mem_cons.2 ⟨.inr rfl, ih⟩⟩

theorem exists_cons (h : IsNumeral p text) : ∃ ch more, text = ch :: more ∧ p ch = true := by
  cases h with
  | digit h => exact ⟨_, _, rfl, h⟩
  | next h rest => exact ⟨_, _, rfl, h⟩
  | underscore h rest => exact ⟨_, _, rfl, h⟩

end IsNumeral

theorem Numeral.isDigitOrUnderscore (numeral : Numeral) :
    ∀ ch ∈ numeral.text, isDigitOrUnderscore ch = true := by
  intro ch hch
  rcases numeral.valid.forall_mem ch hch with hdigit | rfl
  · simp [AdaParser.isDigitOrUnderscore, hdigit]
  · decide

theorem Numeral.validBase (numeral : Numeral) (h : 2 ≤ numeral.value ∧ numeral.value ≤ 16) :
    validBase numeral.text = true := by
  obtain ⟨ch, more, htext, hdigit⟩ := numeral.valid.exists_cons
  have hne : numeral.text.filter (· ≠ '_') ≠ [] := by
    have hch : ch ≠ '_' := by
      rintro rfl
      exact absurd hdigit (by decide)
    simp [htext, hch]
  have hvalue : numeral.value = decimalValue numeral.text := rfl
  rw [hvalue] at h
  simp only [AdaParser.validBase, decide_eq_true_eq]
  exact ⟨hne, by omega, h.1, h.2⟩

theorem isWhitespace_of_letter {ch : Char} (h : 'A' ≤ ch ∧ ch ≤ 'F' ∨ 'a' ≤ ch ∧ ch ≤ 'f') :
    isWhitespace ch = false := by
  have hval : ch.toNat = ch.val.toNat := rfl
  have hA : 'A'.val.toNat = 65 := rfl
  have hF : 'F'.val.toNat = 70 := rfl
  have ha : 'a'.val.toNat = 97 := rfl
  have hf : 'f'.val.toNat = 102 := rfl
  simp only [Char.le_def, UInt32.le_iff_toNat_le] at h
  simp [isWhitespace]
  omega

/-- Extended digits are among the characters a based literal is scanned for. -/
theorem extendedDigit_wordish {ch : Char} (h : (extendedDigit ch).isSome = true) :
    ch ≠ '#' ∧ isWordish ch = true := by
  have hnone : ∀ other ∈ ['#', '(', ')', ';', ',', ':', '=', '.', '<', '>', '/', '*', '+', '-',
      '&', '\'', '"'], extendedDigit other = none := by decide
  have hmem : ch ∉ ['#', '(', ')', ';', ',', ':', '=', '.', '<', '>', '/', '*', '+', '-', '&',
      '\'', '"'] := by
    intro hch
    rw [hnone ch hch] at h
    cases h
  rw [List.mem_cons, not_or] at hmem
  have hblank : isWhitespace ch = false := by
    unfold extendedDigit at h
    split_ifs at h with hdigit hupper hlower
    · exact isWhitespace_of_isDigit hdigit
    · exact isWhitespace_of_letter (.inl hupper)
    · exact isWhitespace_of_letter (.inr hlower)
    · cases h
  exact ⟨hmem.1, by simp [isWordish, hblank, isResyncPunctuation, hmem.2]⟩

theorem BasedNumeral.wordish {base : Nat} (numeral : BasedNumeral base) :
    ∀ ch ∈ numeral.text, (decide (ch ≠ '#') && isWordish ch) = true := by
  intro ch hch
  rcases numeral.valid.forall_mem ch hch with hdigit | rfl
  · have hsome : (extendedDigit ch).isSome = true := by
      cases hvalue : extendedDigit ch with
      | none => simp [hvalue] at hdigit
      | some value => rfl
    simp [extendedDigit_wordish hsome]
  · decide

/-! ## The elements of the literals -/

namespace Element

open Literal

theorem exponentMark_of_endsAt {rest : List Char} (h : EndsAt isExponentMark rest) :
    exponentMark rest = [] := by
  cases rest with
  | nil => rfl
  | cons ch rest => simp [exponentMark, h ch rfl]

theorem exponentMark_cons (capital : Bool) (sign : ExponentSign) {digits : List Char}
    (h : EndsAt isSign digits) :
    exponentMark ((if capital then 'E' else 'e') :: (sign.text ++ digits))
      = (if capital then 'E' else 'e') :: sign.text := by
  have hmark : isExponentMark (if capital then 'E' else 'e') = true := by cases capital <;> rfl
  simp only [exponentMark, hmark, if_true]
  cases sign with
  | none =>
      cases digits with
      | nil => rfl
      | cons ch digits => simp [ExponentSign.text, h ch rfl]
  | plus => rfl
  | minus => rfl

/-- The exponent of a literal is taken, and nothing more. -/
theorem exponent_exponentText (exponent? : Option Exponent) {rest : List Char}
    (h : Separated rest) : exponent (exponentText exponent? ++ rest) = exponentText exponent? := by
  have hmark : EndsAt isExponentMark rest := by
    intro ch hch
    have hblank := h ch hch
    by_contra hmark
    simp only [isExponentMark, Bool.not_eq_false, Bool.or_eq_true, decide_eq_true_eq] at hmark
    rcases hmark with rfl | rfl <;> exact absurd hblank (by decide)
  have hdigits : EndsAt isDigitOrUnderscore rest := fun ch hch =>
    (endsNumber_of_mem (by simp [endsNumber, h ch hch])).1
  cases exponent? with
  | none => simp [exponentText, exponent, exponentMark_of_endsAt hmark]
  | some e =>
      obtain ⟨ch, more, htext, hdigit⟩ := e.digits.valid.exists_cons
      -- a numeral begins with a digit, so the sign read is the one written
      have hsign : EndsAt isSign (e.digits.text ++ rest) := by
        intro other hother
        simp only [htext, List.cons_append, List.head?_cons, Option.some.injEq] at hother
        subst hother
        by_contra hsign
        simp only [isSign, Bool.not_eq_false, Bool.or_eq_true, decide_eq_true_eq] at hsign
        rcases hsign with rfl | rfl <;> simp at hdigit
      have hfront := exponentMark_cons e.capital e.sign hsign
      have hshape : exponentText (some e) ++ rest
          = ((if e.capital then 'E' else 'e') :: e.sign.text) ++ (e.digits.text ++ rest) := by
        simp [exponentText, Exponent.text]
      have hmarked : exponentMark (exponentText (some e) ++ rest)
          = (if e.capital then 'E' else 'e') :: e.sign.text := by
        rw [hshape]
        exact hfront
      have hexponent : exponentDigits (exponentText (some e) ++ rest) = e.digits.text := by
        rw [exponentDigits, hmarked, hshape, List.drop_left,
          takeWhile_endsAt e.digits.isDigitOrUnderscore hdigits]
      rw [exponent, hmarked, hexponent, if_neg (by simp [htext])]
      simp [exponentText, Exponent.text]

/-- What is behind the digits of a number ends them. -/
theorem endsNumber_exponentText (exponent? : Option Exponent) {rest : List Char}
    (h : Separated rest) {ch : Char} (hch : (exponentText exponent? ++ rest).head? = some ch) :
    endsNumber ch = true := by
  cases exponent? with
  | none => simp [endsNumber, h ch hch]
  | some e =>
      simp only [exponentText, Exponent.text, List.cons_append, List.head?_cons,
        Option.some.injEq] at hch
      subst hch
      cases e.capital <;> rfl

/-- The fraction of a literal is what stands behind its point. -/
theorem fraction_pointed (fraction? : Option Numeral) (exponent? : Option Exponent)
    {rest : List Char} (h : Separated rest) :
    fraction (pointed (fraction?.map Numeral.text) ++ (exponentText exponent? ++ rest))
      = pointed (fraction?.map Numeral.text) := by
  have hends {ch : Char} (hch : (exponentText exponent? ++ rest).head? = some ch) :=
    endsNumber_of_mem (endsNumber_exponentText exponent? h hch)
  cases fraction? with
  | none =>
      have hpoint : (exponentText exponent? ++ rest).head? ≠ some '.' := by
        intro hhead
        exact (hends hhead).2 (by simp)
      simp only [Option.map_none, pointed, List.nil_append]
      unfold fraction
      split
      · rename_i hshape
        rw [hshape] at hpoint
        exact absurd rfl hpoint
      · rfl
  | some f =>
      obtain ⟨ch, more, htext, hdigit⟩ := f.valid.exists_cons
      have htake := takeWhile_endsAt f.isDigitOrUnderscore
        (show EndsAt isDigitOrUnderscore (exponentText exponent? ++ rest) from
          fun ch hch => (hends hch).1)
      simp only [Option.map_some, pointed, htext, List.cons_append] at htake ⊢
      simp [fraction, hdigit, htake]

/-- A decimal literal is one element, and a real number if it has a point or
an exponent. -/
theorem number_decimal (integer : Numeral) (fraction? : Option Numeral)
    (exponent? : Option Exponent) {rest : List Char} (h : Separated rest) :
    let text := (Literal.decimal integer fraction? exponent?).text
    (number (text ++ rest)).text = text ∧
      (number (text ++ rest)).kind
        = if fraction?.isSome ∨ exponent?.isSome then .realLiteral (String.ofList text)
          else .intLiteral (String.ofList text) := by
  intro text
  have hsource : text ++ rest = integer.text ++ (pointed (fraction?.map Numeral.text)
      ++ (exponentText exponent? ++ rest)) := by
    simp [text, Literal.text]
  -- neither a digit nor a number sign is behind the first digits
  have hbehind : ∀ ch, (pointed (fraction?.map Numeral.text)
      ++ (exponentText exponent? ++ rest)).head? = some ch →
        isDigitOrUnderscore ch = false ∧ ch ≠ '#' := by
    intro ch hch
    cases fraction? with
    | none =>
        obtain ⟨hdigit, hmem⟩ := endsNumber_of_mem (endsNumber_exponentText exponent? h hch)
        exact ⟨hdigit, fun hsharp => hmem (by simp [hsharp])⟩
    | some f =>
        simp only [Option.map_some, pointed, List.cons_append, List.head?_cons,
          Option.some.injEq] at hch
        subst hch
        decide
  have hstops : EndsAt isDigitOrUnderscore (pointed (fraction?.map Numeral.text)
      ++ (exponentText exponent? ++ rest)) := fun ch hch => (hbehind ch hch).1
  have hsharp : (pointed (fraction?.map Numeral.text)
      ++ (exponentText exponent? ++ rest)).head? ≠ some '#' := fun hch => (hbehind _ hch).2 rfl
  have hfraction : pointed (fraction?.map Numeral.text) ≠ [] ↔ fraction?.isSome = true := by
    cases fraction? <;> simp [pointed]
  have hexponent : exponentText exponent? ≠ [] ↔ exponent?.isSome = true := by
    cases exponent? <;> simp [exponentText, Exponent.text]
  unfold number
  rw [hsource, takeWhile_endsAt integer.isDigitOrUnderscore hstops,
    dropWhile_endsAt integer.isDigitOrUnderscore hstops, if_neg hsharp]
  simp only [fraction_pointed fraction? exponent? h, List.drop_left,
    exponent_exponentText exponent? h, hfraction, hexponent]
  exact ⟨rfl, rfl⟩

theorem number_based (base : Numeral) {chars : List Char} :
    number (base.text ++ '#' :: chars) = basedLiteral base.text chars := by
  have hstops : EndsAt isDigitOrUnderscore ('#' :: chars) := by
    intro ch hch
    cases hch
    decide
  unfold number
  rw [takeWhile_endsAt base.isDigitOrUnderscore hstops,
    dropWhile_endsAt base.isDigitOrUnderscore hstops]
  simp

theorem basedLiteral_whole {base : Numeral} (valid : 2 ≤ base.value ∧ base.value ≤ 16)
    (integer : BasedNumeral base.value) (exponent? : Option Exponent) {rest : List Char}
    (h : Separated rest) :
    let text := (Literal.based base valid integer none exponent?).text
    basedLiteral base.text (integer.text ++ '#' :: (exponentText exponent? ++ rest))
      = ⟨.basedLiteral (String.ofList text), text,
          danglingMark (exponentText exponent? ++ rest)⟩ := by
  intro text
  obtain ⟨ch, more, htext, -⟩ := integer.valid.exists_cons
  have hstops : EndsAt (fun ch => decide (ch ≠ '#') && isWordish ch)
      ('#' :: (exponentText exponent? ++ rest)) := by
    intro ch hch
    cases hch
    rfl
  unfold basedLiteral
  rw [takeWhile_endsAt integer.wordish hstops, dropWhile_endsAt integer.wordish hstops,
    base.validBase valid, if_neg (by simp [htext])]
  simp only [List.tail_cons, exponent_exponentText exponent? h]
  simp [text, Literal.text, pointed]

/-- At the point of a based literal the scanner gives up. -/
theorem basedLiteral_pointed {base : Numeral} (integer fraction : BasedNumeral base.value)
    (chars : List Char) :
    (basedLiteral base.text (integer.text ++ '.' :: (fraction.text ++ chars))).kind
      = malformedBasedLiteral := by
  have hstops : EndsAt (fun ch => decide (ch ≠ '#') && isWordish ch)
      ('.' :: (fraction.text ++ chars)) := by
    intro ch hch
    cases hch
    decide
  unfold basedLiteral
  rw [takeWhile_endsAt integer.wordish hstops, dropWhile_endsAt integer.wordish hstops]
  simp

/-- A string with its quotes doubled is read back to its content. -/
theorem stringFrom_doubled (before content : List Char) {rest : List Char}
    (hcontent : '\n' ∉ content) (hrest : rest.head? ≠ some '"') :
    stringFrom before (doubled content ++ '"' :: rest)
      = (.stringLiteral (String.ofList (before ++ content)), doubled content ++ ['"']) := by
  induction content generalizing before with
  | nil =>
      cases rest with
      | nil => simp [doubled, stringFrom]
      | cons ch rest =>
          have hch : ch ≠ '"' := by simpa using hrest
          simp [doubled, stringFrom, hch]
  | cons ch content ih =>
      rw [List.mem_cons, not_or] at hcontent
      by_cases hquote : ch = '"'
      · subst hquote
        have hnext := ih (before ++ ['"']) hcontent.2
        have hshape : doubled ('"' :: content) ++ '"' :: rest
            = '"' :: '"' :: (doubled content ++ '"' :: rest) := by simp [doubled]
        rw [hshape, stringFrom, if_pos rfl, hnext]
        simp [doubled]
      · have hnext := ih (before ++ [ch]) hcontent.2
        have hshape : doubled (ch :: content) ++ '"' :: rest
            = ch :: (doubled content ++ '"' :: rest) := by simp [doubled, hquote]
        rw [hshape]
        unfold stringFrom
        rw [if_neg hquote, if_neg (Ne.symm hcontent.1), hnext]
        simp [doubled, hquote]

theorem first_digit (dialect : AdaStandard) (lastSignificant : Option TokenKind) {ch : Char}
    (h : ch.isDigit = true) (chars : List Char) :
    first dialect lastSignificant ch chars = number (ch :: chars) := by
  have hne {other : Char} (hother : other.isDigit = false) : ch ≠ other := by
    rintro rfl
    rw [hother] at h
    cases h
  unfold first
  rw [if_neg (fun hdash => hne (by decide) hdash.1), if_neg (hne (by decide)),
    if_neg (hne (by decide)), if_pos h]

/-- The element at a literal. -/
def ofLiteral (lastSignificant : Option TokenKind) (literal : Literal) (rest : List Char) :
    Element :=
  match literal with
  | .decimal .. => number (literal.text ++ rest)
  | .based .. => number (literal.text ++ rest)
  | .character ch _ => apostrophe lastSignificant (ch :: '\'' :: rest)
  | .string content _ => string (doubled content ++ '"' :: rest)

theorem first_literal (dialect : AdaStandard) (lastSignificant : Option TokenKind)
    (literal : Literal) (rest : List Char) :
    ∃ ch chars, literal.text ++ rest = ch :: chars ∧ isWhitespace ch = false ∧
      first dialect lastSignificant ch chars = ofLiteral lastSignificant literal rest := by
  have hnumber (numeral : Numeral) (more : List Char) : ∃ ch chars,
      numeral.text ++ more = ch :: chars ∧ isWhitespace ch = false ∧
        first dialect lastSignificant ch chars = number (numeral.text ++ more) := by
    obtain ⟨ch, digits, htext, hdigit⟩ := numeral.valid.exists_cons
    refine ⟨ch, digits ++ more, by simp [htext], isWhitespace_of_isDigit hdigit, ?_⟩
    rw [first_digit dialect lastSignificant hdigit, htext]
    rfl
  cases literal with
  | decimal integer fraction? exponent? =>
      simp only [ofLiteral, Literal.text, List.append_assoc]
      exact hnumber integer _
  | based base valid integer fraction? exponent? =>
      simp only [ofLiteral, Literal.text, List.append_assoc]
      exact hnumber base _
  | character ch graphic => exact ⟨'\'', _, rfl, by decide, rfl⟩
  | string content graphic =>
      refine ⟨'"', doubled content ++ '"' :: rest, by simp [Literal.text], by decide, rfl⟩

/-- The element at a literal is the literal, of its kind, exactly if it is a
regular one. -/
theorem ofLiteral_iff_regular {lastSignificant : Option TokenKind} (literal : Literal)
    {rest : List Char} (hrest : Separated rest)
    (hlast : apostropheIsAttributeMarker lastSignificant = false) :
    (byteLength (ofLiteral lastSignificant literal rest).text = byteLength literal.text ∧
      literal.Denoted (ofLiteral lastSignificant literal rest).kind) ↔ literal.Regular := by
  cases literal with
  | decimal integer fraction? exponent? =>
      obtain ⟨htext, hkind⟩ := number_decimal integer fraction? exponent? hrest
      simp only [ofLiteral, htext, hkind, true_and]
      cases fraction? with
      | none => cases exponent? <;> simp [Denoted, Regular]
      | some fraction => simp [Denoted, Regular]
  | based base valid integer fraction? exponent? =>
      cases fraction? with
      | none =>
          have hwhole := basedLiteral_whole valid integer exponent? hrest
          have hnumber : number ((Literal.based base valid integer none exponent?).text ++ rest)
              = basedLiteral base.text
                  (integer.text ++ '#' :: (exponentText exponent? ++ rest)) := by
            simp [Literal.text, pointed, number_based]
          simp only [ofLiteral, hnumber, hwhole]
          simp [Denoted, Regular]
      | some fraction =>
          have hpointed := @basedLiteral_pointed base integer fraction
            ('#' :: (exponentText exponent? ++ rest))
          have hnumber : number ((Literal.based base valid integer (some fraction) exponent?).text
              ++ rest) = basedLiteral base.text (integer.text ++ '.' :: (fraction.text
                ++ '#' :: (exponentText exponent? ++ rest))) := by
            simp [Literal.text, pointed, number_based]
          simp only [ofLiteral, hnumber, Denoted, hpointed]
          simp [malformedBasedLiteral, Regular]
  | character ch graphic =>
      by_cases happostrophe : ch = '\''
      · simp [ofLiteral, apostrophe, hlast, characterLiteralCandidate, happostrophe, Denoted,
          Regular]
      · simp [ofLiteral, apostrophe, hlast, characterLiteralCandidate, happostrophe, graphic,
          Denoted, Regular, Literal.text]
  | string content graphic =>
      have hquote : rest.head? ≠ some '"' := by
        intro hhead
        exact absurd (hrest _ hhead) (by decide)
      simp [ofLiteral, string, stringFrom_doubled [] content graphic hquote, Denoted, Regular,
        Literal.text]

end Element

/-! ## Literal tokens -/

namespace Element

/-- What a literal with this value looks like. -/
def literalText : TokenKind → Option (List Char)
  | .intLiteral value => some value.toList
  | .basedLiteral value => some value.toList
  | .stringLiteral value => some ('"' :: (Literal.doubled value.toList ++ ['"']))
  | _ => none

theorem literalText_keywordOrIdentifier (word : String) (dialect : AdaStandard) :
    literalText (keywordOrIdentifier word dialect) = none := by
  have hall : ∀ entry ∈ keywords, literalText entry.2.1 = none := by decide
  unfold keywordOrIdentifier
  split
  · rename_i hfound
    exact hall _ (List.mem_of_find?_eq_some hfound)
  · rfl

theorem basedLiteral_literal {base chars text : List Char}
    (h : literalText (basedLiteral base chars).kind = some text) :
    (basedLiteral base chars).text = text := by
  unfold basedLiteral at h ⊢
  dsimp only at h ⊢
  split at h
  case isTrue => cases h
  case isFalse hvalid =>
    rw [if_neg hvalid]
    simpa [literalText] using h

theorem number_literal {chars text : List Char}
    (h : literalText (number chars).kind = some text) : (number chars).text = text := by
  unfold number at h ⊢
  dsimp only at h ⊢
  split at h
  case isTrue hsharp =>
    rw [if_pos hsharp]
    exact basedLiteral_literal h
  case isFalse hsharp =>
    rw [if_neg hsharp]
    dsimp only at h ⊢
    split at h
    case isTrue => cases h
    case isFalse => simpa [literalText] using h

theorem stringFrom_literal {content chars : List Char} {value : String}
    (h : (stringFrom content chars).1 = .stringLiteral value) :
    ∃ more, value.toList = content ++ more ∧
      (stringFrom content chars).2 = Literal.doubled more ++ ['"'] := by
  fun_induction stringFrom content chars with
  | case1 => cases h
  | case2 content chars ih =>
      obtain ⟨more, hvalue, htext⟩ := ih h
      refine ⟨'"' :: more, by rw [hvalue, List.append_assoc, List.singleton_append], ?_⟩
      simp only [Prod.map_snd, htext]
      rfl
  | case3 content =>
      cases h
      exact ⟨[], by rw [String.toList_ofList, List.append_nil], rfl⟩
  | case4 => cases h
  | case5 content ch chars hquote _ ih =>
      obtain ⟨more, hvalue, htext⟩ := ih h
      refine ⟨ch :: more, by rw [hvalue, List.append_assoc, List.singleton_append], ?_⟩
      simp [Prod.map_snd, htext, Literal.doubled, hquote]

theorem stringFrom_kind (content chars : List Char) :
    (stringFrom content chars).1 = unterminatedString ∨
      ∃ value, (stringFrom content chars).1 = .stringLiteral value := by
  fun_induction stringFrom content chars with
  | case1 => exact .inl rfl
  | case2 _ _ ih => exact ih
  | case3 => exact .inr ⟨_, rfl⟩
  | case4 => exact .inl rfl
  | case5 _ _ _ _ _ ih => exact ih

theorem string_literal {chars text : List Char}
    (h : literalText (string chars).kind = some text) : (string chars).text = text := by
  change literalText (stringFrom [] chars).1 = some text at h
  show '"' :: (stringFrom [] chars).2 = text
  rcases stringFrom_kind [] chars with hkind | ⟨value, hvalue⟩
  · rw [hkind] at h
    cases h
  · obtain ⟨more, hmore, htext⟩ := stringFrom_literal hvalue
    rw [List.nil_append] at hmore
    rw [hvalue] at h
    rw [htext, ← hmore]
    exact Option.some.inj h

/-- A literal is spelled as its value says. -/
theorem first_text {dialect : AdaStandard} {lastSignificant : Option TokenKind} {ch : Char}
    {chars text : List Char} {e : Element} (he : e = first dialect lastSignificant ch chars)
    (h : literalText e.kind = some text) : e.text = text := by
  subst he
  unfold first at h ⊢
  split_ifs at h ⊢ with hcomment hquote happostrophe hdigit
  · cases h
  · exact string_literal h
  · unfold apostrophe at h
    split at h
    · cases h
    · split at h <;> cases h
  · exact number_literal h
  · rw [word, literalText_keywordOrIdentifier] at h
    cases h
  · unfold punctuation oneOrTwo at h
    split at h <;> (try split_ifs at h) <;> cases h

end Element

/-! ## A literal in a source -/

/-- The states of the loop of `lex`, with the tokens pushed so far. -/
inductive Reached (source : List Char) (dialect : AdaStandard) :
    Nat → Option TokenKind → Cursor → List Token → Prop
  | start : Reached source dialect (source.length + 1) none (Cursor.start source) []
  | whitespace {rounds : Nat} {lastSignificant : Option TokenKind} {c : Cursor}
      {before : List Token} {ch : Char} {chars : List Char}
      (reached : Reached source dialect (rounds + 1) lastSignificant c before)
      (rest : c.rest = ch :: chars) (blank : isWhitespace ch = true) :
      Reached source dialect rounds lastSignificant c.bump before
  | token {rounds : Nat} {lastSignificant : Option TokenKind} {c behind : Cursor}
      {before : List Token} {ch : Char} {chars : List Char} {kind : TokenKind}
      (reached : Reached source dialect (rounds + 1) lastSignificant c before)
      (rest : c.rest = ch :: chars) (blank : ¬ isWhitespace ch = true)
      (scan : c.scan dialect lastSignificant ch = (kind, behind)) :
      Reached source dialect rounds (nextSignificant lastSignificant kind) behind
        (before ++ [tokenAt kind c behind])

section
variable {source : List Char} {dialect : AdaStandard} {rounds : Nat}
  {lastSignificant : Option TokenKind} {c : Cursor} {before : List Token}

theorem Reached.lex_eq (h : Reached source dialect rounds lastSignificant c before) :
    lex source dialect = (lexFrom dialect rounds lastSignificant c).map (before ++ ·) := by
  induction h with
  | start => simp [lex]
  | whitespace reached rest blank ih =>
      rw [ih]
      simp [lexFrom, rest, blank]
  | token reached rest blank scan ih =>
      rw [ih]
      simp only [lexFrom, rest, blank, scan, Bool.false_eq_true, if_false, Option.map_map]
      congr 1
      funext tokens
      simp

theorem Reached.behind (hsource : byteLength source < 4294967296)
    (h : Reached source dialect rounds lastSignificant c before) :
    (∃ front, c.Behind front) ∧ c.rest.length < rounds := by
  induction h with
  | start => exact ⟨⟨[], .start hsource⟩, by simp [Cursor.start]⟩
  | @whitespace rounds lastSignificant c before ch chars reached rest blank ih =>
      obtain ⟨⟨front, hfront⟩, hrounds⟩ := ih
      have hover : (c.bumpOver [ch]).Behind (front ++ [ch]) := hfront.bumpOver rest
      rw [rest, List.length_cons] at hrounds
      have hbump : c.bump.rest = chars := by rw [Cursor.rest_bump, rest, List.tail_cons]
      exact ⟨⟨_, hover⟩, by rw [hbump]; omega⟩
  | @token rounds lastSignificant c behind before ch chars kind reached rest blank scan ih =>
      obtain ⟨⟨front, hfront⟩, hrounds⟩ := ih
      have htakes := Cursor.scan_takes rest dialect lastSignificant
      obtain ⟨hcut, hshorter⟩ := rest_past rest (rfl : _ = Element.first dialect lastSignificant ch
        chars)
      rw [Cursor.Takes, scan] at htakes
      obtain ⟨-, rfl⟩ := Prod.mk.inj htakes
      unfold Cursor.past at hshorter
      exact ⟨⟨_, (hfront.bumpOver hcut).shift _⟩, by omega⟩

/-- Behind these tokens and from this position on, the lexer gives one token for
the literal, and it is what the literal is. -/
def LexesAs (source : List Char) (dialect : AdaStandard) (before : List Token)
    (literal : Literal) (position : Nat) : Prop :=
  ∃ token after, lex source dialect = some (before ++ token :: after) ∧
    token.textSpan = ⟨position, position + byteLength literal.text⟩ ∧
    literal.Denoted token.kind

/-- The token that is pushed in front of a character that is not whitespace. -/
theorem Reached.lex_element (hsource : byteLength source < 4294967296)
    (h : Reached source dialect rounds lastSignificant c before) {ch : Char} {chars : List Char}
    (hrest : c.rest = ch :: chars) (hch : ¬ isWhitespace ch = true) {e : Element}
    (he : e = Element.first dialect lastSignificant ch chars) :
    ∃ after, lex source dialect = some (before ++ tokenAt e.kind c (c.past e) :: after) ∧
      (tokenAt e.kind c (c.past e)).textSpan = ⟨c.position, c.position + byteLength e.text⟩ := by
  obtain ⟨⟨front, hfront⟩, hrounds⟩ := h.behind hsource
  obtain ⟨hcut, hshorter⟩ := rest_past hrest he
  have hbehind : (c.past e).Behind (front ++ e.text) := (hfront.bumpOver hcut).shift e.dangling
  cases rounds with
  | zero => exact absurd hrounds (Nat.not_lt_zero _)
  | succ rounds =>
      obtain ⟨after, hafter, -⟩ := @lexFrom_tiled dialect rounds
        (nextSignificant lastSignificant e.kind) _ _ hbehind (by omega)
      refine ⟨after, ?_, ?_⟩
      · rw [h.lex_eq, lexFrom_element dialect rounds lastSignificant hrest hch he, hafter]
        rfl
      · show (⟨wrapU32 c.position, wrapU32 (c.past e).position⟩ : ByteRange) = _
        rw [hfront.position_eq, hbehind.position_eq, hfront.position, byteLength_append]

/-- **The literals that lex as the language says**: in front of a separator, and
where an apostrophe is no attribute marker, a literal becomes one token of its
kind and contents exactly if it is a regular one. -/
theorem lexesAs_iff_regular (hsource : byteLength source < 4294967296)
    (hreached : Reached source dialect rounds lastSignificant c before) {literal : Literal}
    {rest : List Char} (hrest : c.rest = literal.text ++ rest) (hseparated : Separated rest)
    (hlast : apostropheIsAttributeMarker lastSignificant = false) :
    LexesAs source dialect before literal c.position ↔ literal.Regular := by
  obtain ⟨ch, chars, hcons, hblank, hfirst⟩ :=
    Element.first_literal dialect lastSignificant literal rest
  obtain ⟨after, hlex, hspan⟩ := hreached.lex_element hsource (hrest.trans hcons)
    (by simp [hblank]) hfirst.symm
  rw [← Element.ofLiteral_iff_regular literal hseparated hlast]
  constructor
  · intro hlexes
    obtain ⟨token, after', hlex', hspan', hdenoted⟩ := hlexes
    have htokens := hlex.symm.trans hlex'
    simp only [Option.some.injEq, List.append_cancel_left_eq, List.cons.injEq] at htokens
    obtain ⟨rfl, rfl⟩ := htokens
    rw [hspan] at hspan'
    simp only [ByteRange.mk.injEq, true_and, Nat.add_left_cancel_iff] at hspan'
    exact ⟨hspan', hdenoted⟩
  · intro hliteral
    exact ⟨_, after, hlex, by rw [hspan, hliteral.1], hliteral.2⟩

end

/-- The span of a literal at the start of the source. -/
theorem LexesAs.spans {source : List Char} {dialect : AdaStandard} {literal : Literal}
    (h : LexesAs source dialect [] literal 0) :
    ∃ spans, (lex source dialect).map (·.map Token.textSpan)
      = some (⟨0, byteLength literal.text⟩ :: spans) := by
  obtain ⟨token, after, hlex, hspan, -⟩ := h
  exact ⟨after.map Token.textSpan, by simp [hlex, hspan]⟩

def sixteen : Numeral := ⟨['1', '6'], .next (by decide) (.digit (by decide))⟩

theorem sixteen_valid : 2 ≤ sixteen.value ∧ sixteen.value ≤ 16 := by decide

def basedF : BasedNumeral sixteen.value := ⟨['F'], .digit (by decide)⟩

def exponentThree : Exponent := ⟨true, .none, ⟨['3'], .digit (by decide)⟩⟩

/-- Behind a parenthesis. -/
theorem lexesAs_iff_regular_based :
    LexesAs "(16#F#E3 ".toList .ada2012 [⟨.lParen, .lParen, ⟨0, 1⟩, 1, 1⟩]
        (.based sixteen sixteen_valid basedF none (some exponentThree)) 1 ↔
      (Literal.based sixteen sixteen_valid basedF none (some exponentThree)).Regular := by
  have hreached : Reached "(16#F#E3 ".toList .ada2012 9 (some .lParen)
      ⟨"16#F#E3 ".toList, 1, 1, 2⟩ [⟨.lParen, .lParen, ⟨0, 1⟩, 1, 1⟩] :=
    .token .start rfl (by decide) rfl
  have hrest : "16#F#E3 ".toList
      = (Literal.based sixteen sixteen_valid basedF none (some exponentThree)).text ++ [' '] := by
    decide
  have hseparated : Separated [' '] := by
    intro ch hch
    cases hch
    decide
  exact lexesAs_iff_regular (by decide) hreached hrest hseparated rfl

/-- An exponent makes a real number of an integer, the point of a based literal
is not read, and an apostrophe between apostrophes is a tick. -/
theorem not_lexesAs :
    (lex "1E3".toList .ada2012 = some [⟨.realLiteral "1E3", .realLiteral "1E3", ⟨0, 3⟩, 1, 1⟩,
        ⟨.eof, .eof, ⟨3, 3⟩, 1, 4⟩] ∧
      ¬ LexesAs "1E3".toList .ada2012 []
        (.decimal ⟨['1'], .digit (by decide)⟩ none (some exponentThree)) 0) ∧
    ¬ LexesAs "16#F.F#".toList .ada2012 []
      (.based sixteen sixteen_valid basedF (some basedF) none) 0 ∧
    ¬ LexesAs "'''".toList .ada2012 [] (.character '\'' (by decide)) 0 := by
  have hexponent : lex "1E3".toList .ada2012 = some [⟨.realLiteral "1E3", .realLiteral "1E3",
      ⟨0, 3⟩, 1, 1⟩, ⟨.eof, .eof, ⟨3, 3⟩, 1, 4⟩] := by decide
  have hpoint : (lex "16#F.F#".toList .ada2012).map (·.map Token.textSpan)
      = some [⟨0, 4⟩, ⟨4, 5⟩, ⟨5, 6⟩, ⟨6, 7⟩, ⟨7, 7⟩] := by decide
  have happostrophe : (lex "'''".toList .ada2012).map (·.map Token.textSpan)
      = some [⟨0, 1⟩, ⟨1, 2⟩, ⟨2, 3⟩, ⟨3, 3⟩] := by decide
  refine ⟨⟨hexponent, ?_⟩, ?_, ?_⟩
  · intro hlexes
    obtain ⟨token, after, hlex, -, hdenoted⟩ := hlexes
    rw [hexponent] at hlex
    cases hlex
    cases hdenoted
  · intro hlexes
    obtain ⟨spans, hspans⟩ := hlexes.spans
    cases hpoint.symm.trans hspans
  · intro hlexes
    obtain ⟨spans, hspans⟩ := hlexes.spans
    cases happostrophe.symm.trans hspans

end GovFuzz.AdaParser
