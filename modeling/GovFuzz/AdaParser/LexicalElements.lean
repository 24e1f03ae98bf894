import GovFuzz.AdaParser.Lexer
import Mathlib.Data.List.TakeWhile

/-!
# Ada parser — lexical elements

The lexical elements of a text, without positions: which characters make up
the element at the front of a text, and what it is.  The scanners of the lexer
go over exactly these characters (`Cursor.scan_eq`).
-/

namespace GovFuzz.AdaParser

open GovFuzz.Runtrace (isWhitespace)

/-- An exponent mark without digits behind a number, with its sign, is left
dangling. -/
structure Element where
  kind : TokenKind
  text : List Char
  dangling : List Char
  deriving DecidableEq

namespace Element

/-- What is there of an exponent in front of its digits. -/
def exponentMark : List Char → List Char
  | [] => []
  | mark :: chars =>
      if isExponentMark mark then
        match chars with
        | [] => [mark]
        | sign :: _ => if isSign sign then [mark, sign] else [mark]
      else []

def exponentDigits (chars : List Char) : List Char :=
  (chars.drop (exponentMark chars).length).takeWhile isDigitOrUnderscore

/-- The exponent in front; without digits there is none. -/
def exponent (chars : List Char) : List Char :=
  if exponentMark chars = [] ∨ exponentDigits chars = [] then []
  else exponentMark chars ++ exponentDigits chars

/-- The mark of an exponent without digits. -/
def danglingMark (chars : List Char) : List Char :=
  if exponentDigits chars = [] then exponentMark chars else []

def fraction : List Char → List Char
  | '.' :: digit :: chars =>
      if digit.isDigit then '.' :: (digit :: chars).takeWhile isDigitOrUnderscore else []
  | _ => []

/-- Behind the base and the number sign. -/
def basedLiteral (base chars : List Char) : Element :=
  let digits := chars.takeWhile fun ch => ch ≠ '#' && isWordish ch
  let behind := chars.dropWhile fun ch => ch ≠ '#' && isWordish ch
  if !validBase base ∨ digits = [] ∨ behind.head? ≠ some '#' then
    ⟨malformedBasedLiteral, base ++ '#' :: (digits ++ behind.takeWhile isWordish), []⟩
  else
    let text := base ++ '#' :: (digits ++ '#' :: exponent behind.tail)
    ⟨.basedLiteral (String.ofList text), text, danglingMark behind.tail⟩

def number (chars : List Char) : Element :=
  let digits := chars.takeWhile isDigitOrUnderscore
  let behind := chars.dropWhile isDigitOrUnderscore
  if behind.head? = some '#' then basedLiteral digits behind.tail
  else
    let fraction := fraction behind
    let behind := behind.drop fraction.length
    let text := digits ++ (fraction ++ exponent behind)
    ⟨if fraction ≠ [] ∨ exponent behind ≠ [] then .realLiteral (String.ofList text)
      else .intLiteral (String.ofList text), text, danglingMark behind⟩

/-- Behind the opening quote, with this content already there. -/
def stringFrom (content : List Char) : List Char → TokenKind × List Char
  | [] => (unterminatedString, [])
  | ch :: chars =>
      if ch = '"' then
        match chars with
        | '"' :: chars => (stringFrom (content ++ ['"']) chars).map id ('"' :: '"' :: ·)
        | _ => (.stringLiteral (String.ofList content), ['"'])
      else if ch = '\n' then (unterminatedString, [])
      else (stringFrom (content ++ [ch]) chars).map id (ch :: ·)

def string (chars : List Char) : Element :=
  let (kind, text) := stringFrom [] chars
  ⟨kind, '"' :: text, []⟩

/-- Behind the apostrophe. -/
def apostrophe (lastSignificant : Option TokenKind) (chars : List Char) : Element :=
  if apostropheIsAttributeMarker lastSignificant then ⟨.tick, ['\''], []⟩
  else match characterLiteralCandidate chars with
    | none => ⟨.tick, ['\''], []⟩
    | some literal => ⟨.charLiteral literal, ['\'', literal, '\''], []⟩

def oneOrTwo (first : Char) (chars : List Char) (one : TokenKind) (second : Char)
    (two : TokenKind) : Element :=
  if chars.head? = some second then ⟨two, [first, second], []⟩ else ⟨one, [first], []⟩

def punctuation (ch : Char) (chars : List Char) : Element :=
  match ch with
  | '(' => ⟨.lParen, ['('], []⟩
  | ')' => ⟨.rParen, [')'], []⟩
  | ';' => ⟨.semicolon, [';'], []⟩
  | ',' => ⟨.comma, [','], []⟩
  | ':' => oneOrTwo ':' chars .colon '=' .assign
  | '=' => oneOrTwo '=' chars .eq '>' .arrow
  | '.' => oneOrTwo '.' chars .dot '.' .dotDot
  | '<' => if chars.head? = some '>' then ⟨.box, ['<', '>'], []⟩ else oneOrTwo '<' chars .lt '=' .le
  | '>' => oneOrTwo '>' chars .gt '=' .ge
  | '/' => oneOrTwo '/' chars .slash '=' .neq
  | '*' => oneOrTwo '*' chars .star '*' .doubleStar
  | '+' => ⟨.plus, ['+'], []⟩
  | '-' => ⟨.minus, ['-'], []⟩
  | '&' => ⟨.ampersand, ['&'], []⟩
  | ch => ⟨unexpectedCharacter ch, [ch], []⟩

def comment (chars : List Char) : Element :=
  let content := chars.takeWhile (· ≠ '\n')
  ⟨.comment (String.ofList content), '-' :: '-' :: content, []⟩

def word (dialect : AdaStandard) (ch : Char) (chars : List Char) : Element :=
  let text := ch :: chars.takeWhile isIdentifierContinue
  ⟨keywordOrIdentifier (String.ofList (text.map Char.toLower)) dialect, text, []⟩

/-- The element at the front of a text that does not start with whitespace. -/
def first (dialect : AdaStandard) (lastSignificant : Option TokenKind) (ch : Char)
    (chars : List Char) : Element :=
  if ch = '-' ∧ chars.head? = some '-' then comment chars.tail
  else if ch = '"' then string chars
  else if ch = '\'' then apostrophe lastSignificant chars
  else if ch.isDigit then number (ch :: chars)
  else if isIdentifierStart ch then word dialect ch chars
  else punctuation ch chars

end Element

/-! ## Cursors over a text -/

/-- The bytes of a text. -/
def byteLength (text : List Char) : Nat := (text.map Char.utf8Size).sum

@[simp] theorem byteLength_append (a b : List Char) :
    byteLength (a ++ b) = byteLength a + byteLength b := by
  simp [byteLength]

theorem byteLength_eq_zero_iff (text : List Char) : byteLength text = 0 ↔ text = [] := by
  cases text with
  | nil => simp [byteLength]
  | cons ch text =>
      have hpos := Char.utf8Size_pos ch
      simp [byteLength]
      omega

theorem length_le_byteLength (text : List Char) : text.length ≤ byteLength text := by
  induction text with
  | nil => simp
  | cons ch text ih =>
      have hpos := Char.utf8Size_pos ch
      simp only [byteLength, List.map_cons, List.sum_cons, List.length_cons] at ih ⊢
      omega

namespace Cursor

/-- The cursor behind a text that is ahead of it. -/
def bumpOver (c : Cursor) (text : List Char) : Cursor := text.foldl (fun c _ => c.bump) c

/-- The columns of a text that was given back. -/
def shift (c : Cursor) (text : List Char) : Cursor :=
  { c with col := text.foldl (fun col _ => wrapU32 (col + 1)) c.col }

@[simp] theorem bumpOver_nil (c : Cursor) : c.bumpOver [] = c := rfl

@[simp] theorem bumpOver_cons (c : Cursor) (ch : Char) (text : List Char) :
    c.bumpOver (ch :: text) = c.bump.bumpOver text := rfl

@[simp] theorem slice_shift (start c : Cursor) (text : List Char) :
    start.slice (c.shift text) = start.slice c := rfl

@[simp] theorem shift_nil (c : Cursor) : c.shift [] = c := rfl

theorem bumpOver_append (c : Cursor) (a b : List Char) :
    c.bumpOver (a ++ b) = (c.bumpOver a).bumpOver b := by
  simp [bumpOver, List.foldl_append]

theorem rest_bump (c : Cursor) : c.bump.rest = c.rest.tail := by
  unfold bump
  split <;> simp [*]

theorem rest_over {c : Cursor} {text more : List Char} (h : c.rest = text ++ more) :
    (c.bumpOver text).rest = more := by
  induction text generalizing c with
  | nil => exact h
  | cons ch text ih =>
      have hbump : c.bump.rest = text ++ more := by rw [rest_bump, h]; rfl
      exact ih hbump

theorem position_over {c : Cursor} {text more : List Char} (h : c.rest = text ++ more) :
    (c.bumpOver text).position = c.position + byteLength text := by
  induction text generalizing c with
  | nil => simp [byteLength]
  | cons ch text ih =>
      have hbump : c.bump.rest = text ++ more := by rw [rest_bump, h]; rfl
      have hposition : c.bump.position = c.position + ch.utf8Size := by simp [bump, h]
      rw [bumpOver_cons, ih hbump, hposition]
      simp [byteLength, Nat.add_assoc]

theorem position_over_eq_iff {c : Cursor} {text more : List Char} (h : c.rest = text ++ more) :
    (c.bumpOver text).position = c.position ↔ text = [] := by
  rw [position_over h, ← byteLength_eq_zero_iff]
  omega

theorem slice_over {c : Cursor} {text more : List Char} (h : c.rest = text ++ more) :
    c.slice (c.bumpOver text) = text := by
  rw [slice, rest_over h, h]
  simp

theorem bumpThrough_eq (p : Char → Bool) {chars : List Char} {c : Cursor} (h : c.rest = chars) :
    bumpThrough p chars c = c.bumpOver (chars.takeWhile p) := by
  induction chars generalizing c with
  | nil => rfl
  | cons ch chars ih =>
      have hbump : c.bump.rest = chars := by rw [rest_bump, h]; rfl
      by_cases hp : p ch = true
      · simp [bumpThrough, hp, ih hbump]
      · simp [bumpThrough, hp]

theorem bumpWhile_eq (p : Char → Bool) (c : Cursor) :
    c.bumpWhile p = c.bumpOver (c.rest.takeWhile p) := bumpThrough_eq p rfl

end Cursor

/-! ## The scanners go over the elements -/

namespace Element

theorem exponentMark_isPrefix (chars : List Char) : exponentMark chars <+: chars := by
  unfold exponentMark
  split
  · exact List.nil_prefix
  · split_ifs
    · split
      · exact List.prefix_rfl
      · split_ifs <;> simp
    · exact List.nil_prefix

theorem exponent_isPrefix (chars : List Char) : exponent chars <+: chars := by
  unfold exponent exponentDigits
  split_ifs
  · exact List.nil_prefix
  · have hsplit := List.prefix_iff_eq_append.1 (exponentMark_isPrefix chars)
    conv => rhs; rw [← hsplit]
    exact (List.prefix_append_right_inj _).2 (List.takeWhile_prefix _)

theorem fraction_isPrefix (chars : List Char) : fraction chars <+: chars := by
  unfold fraction
  split
  · split_ifs
    · exact List.cons_prefix_cons.2 ⟨rfl, List.takeWhile_prefix _⟩
    · exact List.nil_prefix
  · exact List.nil_prefix

theorem basedLiteral_isPrefix (base chars : List Char) :
    (basedLiteral base chars).text <+: base ++ '#' :: chars := by
  unfold basedLiteral
  generalize hp : (fun ch => decide (ch ≠ '#') && isWordish ch) = p
  have hcut : chars.takeWhile p ++ chars.dropWhile p = chars := List.takeWhile_append_dropWhile
  have hdigits {more : List Char} (h : more <+: chars.dropWhile p) :
      base ++ '#' :: (chars.takeWhile p ++ more) <+: base ++ '#' :: chars := by
    conv => rhs; rw [← hcut]
    exact (List.prefix_append_right_inj base).2
      (List.cons_prefix_cons.2 ⟨rfl, (List.prefix_append_right_inj _).2 h⟩)
  dsimp only
  split
  · exact hdigits (List.takeWhile_prefix _)
  · rename_i hvalid
    have hhead : (chars.dropWhile p).head? = some '#' := by simp_all
    refine hdigits ?_
    conv => rhs; rw [List.eq_cons_of_mem_head? hhead]
    exact List.cons_prefix_cons.2 ⟨rfl, exponent_isPrefix _⟩

theorem number_isPrefix (chars : List Char) : (number chars).text <+: chars := by
  unfold number
  have hcut := List.takeWhile_append_dropWhile (p := isDigitOrUnderscore) (l := chars)
  generalize chars.takeWhile isDigitOrUnderscore = digits at hcut ⊢
  generalize chars.dropWhile isDigitOrUnderscore = behind at hcut ⊢
  subst hcut
  dsimp only
  split
  · rename_i hsharp
    have hbase := basedLiteral_isPrefix digits behind.tail
    rwa [← List.eq_cons_of_mem_head? hsharp] at hbase
  · refine (List.prefix_append_right_inj digits).2 ?_
    conv => rhs; rw [← List.prefix_iff_eq_append.1 (fraction_isPrefix behind)]
    exact (List.prefix_append_right_inj _).2 (exponent_isPrefix _)

theorem stringFrom_isPrefix (content chars : List Char) :
    (stringFrom content chars).2 <+: chars := by
  fun_induction stringFrom content chars with
  | case1 => exact List.prefix_rfl
  | case2 content chars ih =>
      exact List.cons_prefix_cons.2 ⟨rfl, List.cons_prefix_cons.2 ⟨rfl, ih⟩⟩
  | case3 => simp
  | case4 => exact List.nil_prefix
  | case5 content ch chars _ _ ih => exact List.cons_prefix_cons.2 ⟨rfl, ih⟩

theorem apostrophe_isPrefix (lastSignificant : Option TokenKind) (chars : List Char) :
    (apostrophe lastSignificant chars).text <+: '\'' :: chars := by
  unfold apostrophe
  split
  · simp
  · unfold characterLiteralCandidate
    split
    · simp
    · rename_i literal hcandidate
      split at hcandidate
      · split_ifs at hcandidate
        cases hcandidate
        simp
      · cases hcandidate

theorem oneOrTwo_isPrefix (ch : Char) (chars : List Char) (one : TokenKind) (second : Char)
    (two : TokenKind) : (oneOrTwo ch chars one second two).text <+: ch :: chars := by
  unfold oneOrTwo
  split
  · rename_i hsecond
    rw [List.eq_cons_of_mem_head? hsecond]
    simp
  · simp

theorem punctuation_isPrefix (ch : Char) (chars : List Char) :
    (punctuation ch chars).text <+: ch :: chars := by
  unfold punctuation
  split
  case h_8 =>
    split
    · rename_i hsecond
      rw [List.eq_cons_of_mem_head? hsecond]
      simp
    · exact oneOrTwo_isPrefix _ _ _ _ _
  all_goals first | exact oneOrTwo_isPrefix _ _ _ _ _ | simp

/-- An element is a part of the text, from its front on. -/
theorem first_isPrefix (dialect : AdaStandard) (lastSignificant : Option TokenKind) (ch : Char)
    (chars : List Char) : (first dialect lastSignificant ch chars).text <+: ch :: chars := by
  unfold first
  split_ifs with hcomment hquote happostrophe
  · obtain ⟨rfl, hsecond⟩ := hcomment
    rw [List.eq_cons_of_mem_head? hsecond, List.tail_cons]
    exact List.cons_prefix_cons.2 ⟨rfl, List.cons_prefix_cons.2 ⟨rfl, List.takeWhile_prefix _⟩⟩
  · subst hquote
    exact List.cons_prefix_cons.2 ⟨rfl, stringFrom_isPrefix [] chars⟩
  · subst happostrophe
    exact apostrophe_isPrefix lastSignificant chars
  · exact number_isPrefix _
  · exact List.cons_prefix_cons.2 ⟨rfl, List.takeWhile_prefix _⟩
  · exact punctuation_isPrefix ch chars

theorem number_ne_nil {ch : Char} (h : ch.isDigit = true) (chars : List Char) :
    (number (ch :: chars)).text ≠ [] := by
  have hdigits : (ch :: chars).takeWhile isDigitOrUnderscore
      = ch :: chars.takeWhile isDigitOrUnderscore := by
    simp [isDigitOrUnderscore, h]
  unfold number basedLiteral
  rw [hdigits]
  dsimp only
  split_ifs <;> simp

theorem first_ne_nil (dialect : AdaStandard) (lastSignificant : Option TokenKind) (ch : Char)
    (chars : List Char) : (first dialect lastSignificant ch chars).text ≠ [] := by
  unfold first
  split_ifs with hcomment hquote happostrophe hdigit
  · simp [comment]
  · simp [string]
  · unfold apostrophe
    split
    · simp
    · split <;> simp
  · exact number_ne_nil hdigit chars
  · simp [word]
  · unfold punctuation oneOrTwo
    split <;> (try split_ifs) <;> simp

theorem keywordOrIdentifier_ne_eof (word : String) (dialect : AdaStandard) :
    keywordOrIdentifier word dialect ≠ .eof := by
  unfold keywordOrIdentifier
  split
  · rename_i keyword kind since hfound
    have hall : ∀ k ∈ keywords, k.2.1 ≠ .eof := by decide
    exact hall _ (List.mem_of_find?_eq_some hfound)
  · simp

theorem stringFrom_ne_eof (content chars : List Char) : (stringFrom content chars).1 ≠ .eof := by
  fun_induction stringFrom content chars with
  | case1 => simp [unterminatedString]
  | case2 _ _ ih => exact ih
  | case3 => simp
  | case4 => simp [unterminatedString]
  | case5 _ _ _ _ _ ih => exact ih

theorem first_kind_ne_eof (dialect : AdaStandard) (lastSignificant : Option TokenKind) (ch : Char)
    (chars : List Char) : (first dialect lastSignificant ch chars).kind ≠ .eof := by
  unfold first
  split_ifs
  · simp [comment]
  · exact stringFrom_ne_eof [] chars
  · unfold apostrophe
    split
    · simp
    · split <;> simp
  · unfold number basedLiteral
    dsimp only
    split_ifs <;> simp [malformedBasedLiteral]
  · exact keywordOrIdentifier_ne_eof _ dialect
  · unfold punctuation oneOrTwo
    split <;> (try split_ifs) <;> simp [unexpectedCharacter]

theorem newline_not_mem_exponentMark (chars : List Char) : '\n' ∉ exponentMark chars := by
  have hmark {ch : Char} (h : isExponentMark ch = true) : ch ≠ '\n' := by
    rintro rfl
    exact absurd h (by decide)
  have hsign {ch : Char} (h : isSign ch = true) : ch ≠ '\n' := by
    rintro rfl
    exact absurd h (by decide)
  unfold exponentMark
  split
  · simp
  · split_ifs with h
    · split
      · simp [(hmark h).symm]
      · split_ifs with h'
        · simp [(hmark h).symm, (hsign h').symm]
        · simp [(hmark h).symm]
    · simp

end Element

namespace Cursor

open Element

theorem line_col_over {c : Cursor} {text more : List Char} (h : c.rest = text ++ more)
    (hline : '\n' ∉ text) :
    (c.bumpOver text).line = c.line ∧
      (c.bumpOver text).col = text.foldl (fun col _ => wrapU32 (col + 1)) c.col := by
  induction text generalizing c with
  | nil => exact ⟨rfl, rfl⟩
  | cons ch text ih =>
      rw [List.mem_cons, not_or] at hline
      have hbump : c.bump.rest = text ++ more := by rw [rest_bump, h]; rfl
      have hcounts : c.bump.line = c.line ∧ c.bump.col = wrapU32 (c.col + 1) := by
        simp [bump, h, Ne.symm hline.1]
      rw [bumpOver_cons, (ih hbump hline.2).1, (ih hbump hline.2).2, hcounts.1, hcounts.2]
      exact ⟨rfl, rfl⟩

/-- Going over a text of one line and back leaves its columns. -/
theorem over_back {c : Cursor} {text more : List Char} (h : c.rest = text ++ more)
    (hline : '\n' ∉ text) :
    { c.bumpOver text with rest := c.rest, position := c.position } = c.shift text := by
  obtain ⟨hsame, hcol⟩ := line_col_over h hline
  simp only [shift, hsame, hcol]

theorem exponentMark_eq_nil_iff (c : Cursor) :
    exponentMark c.rest = [] ↔ ¬ c.peekChar.any isExponentMark = true := by
  unfold exponentMark peekChar
  cases c.rest with
  | nil => simp
  | cons mark chars =>
      by_cases hmark : isExponentMark mark = true
      · cases chars with
        | nil => simp [hmark]
        | cons sign chars => by_cases hsign : isSign sign = true <;> simp [hmark, hsign]
      · simp [hmark]

theorem over_exponentMark {c : Cursor} (h : c.peekChar.any isExponentMark = true) :
    (if c.bump.peekChar.any isSign then c.bump.bump else c.bump)
      = c.bumpOver (exponentMark c.rest) := by
  unfold peekChar at h ⊢
  rw [rest_bump]
  unfold exponentMark
  cases hrest : c.rest with
  | nil => simp [hrest] at h
  | cons mark chars =>
      have hmark : isExponentMark mark = true := by simpa [hrest] using h
      cases chars with
      | nil => simp [hmark]
      | cons sign chars => by_cases hsign : isSign sign = true <;> simp [hmark, hsign]

/-- The scan of an exponent goes over the exponent, and shifts over a mark that none
follows. -/
theorem scanExponent_eq (c : Cursor) :
    c.scanExponent = (decide (exponent c.rest ≠ []),
      (c.bumpOver (exponent c.rest)).shift (danglingMark c.rest)) := by
  have hsplit := List.prefix_iff_eq_append.1 (exponentMark_isPrefix c.rest)
  by_cases hmark : c.peekChar.any isExponentMark = true
  · -- the mark and its sign are gone over first
    have hne : exponentMark c.rest ≠ [] := fun h => (exponentMark_eq_nil_iff c).1 h hmark
    have hrest := rest_over hsplit.symm
    have hbehind : (c.bumpOver (exponentMark c.rest)).consumeDecimalDigits
        = (c.bumpOver (exponentMark c.rest)).bumpOver (exponentDigits c.rest) := by
      rw [consumeDecimalDigits, bumpWhile_eq, hrest]
      rfl
    have hcut : (c.bumpOver (exponentMark c.rest)).rest = exponentDigits c.rest
        ++ (c.rest.drop (exponentMark c.rest).length).dropWhile isDigitOrUnderscore :=
      hrest.trans List.takeWhile_append_dropWhile.symm
    have hdigits := position_over_eq_iff hcut
    simp only [scanExponent, hmark, if_true, over_exponentMark hmark, hbehind]
    by_cases hnone : exponentDigits c.rest = []
    · rw [if_pos (hdigits.2 hnone)]
      simp only [exponent, danglingMark, hnone, or_true, if_true, bumpOver_nil, ne_eq, not_true,
        decide_false]
      rw [over_back hsplit.symm (newline_not_mem_exponentMark _)]
    · rw [if_neg (fun h => hnone (hdigits.1 h))]
      simp [exponent, danglingMark, hnone, hne, bumpOver_append]
  · have hnone := (exponentMark_eq_nil_iff c).2 hmark
    simp [scanExponent, hmark, exponent, danglingMark, hnone]

/-- What a scanner gives for an element. -/
def Takes (c : Cursor) (result : TokenKind × Cursor) (e : Element) : Prop :=
  result = (e.kind, (c.bumpOver e.text).shift e.dangling)

/-- A based literal is scanned to its end, exponent included. -/
theorem scanBasedLiteral_takes {c : Cursor} {base behind : List Char}
    (h : c.rest = base ++ '#' :: behind) :
    c.Takes (c.scanBasedLiteral (c.bumpOver base)) (Element.basedLiteral base behind) := by
  have hsharp : (c.bumpOver base).bump = c.bumpOver (base ++ ['#']) := by rw [bumpOver_append]; rfl
  have hrest : (c.bumpOver (base ++ ['#'])).rest = behind := rest_over (by rw [h]; simp)
  unfold Takes scanBasedLiteral Element.basedLiteral
  simp only [slice_over h, hsharp, bumpWhile_eq, hrest]
  generalize hp : (fun ch => decide (ch ≠ '#') && isWordish ch) = p
  have hsplit : (c.bumpOver (base ++ ['#'])).rest = behind.takeWhile p ++ behind.dropWhile p := by
    rw [hrest, List.takeWhile_append_dropWhile]
  have hbehind := rest_over hsplit
  simp only [position_over_eq_iff hsplit, peekChar, hbehind]
  split
  · have hover : c.bumpOver (base ++ '#' :: (behind.takeWhile p ++ (behind.dropWhile p).takeWhile
        isWordish)) = ((c.bumpOver (base ++ ['#'])).bumpOver (behind.takeWhile p)).bumpOver
          ((behind.dropWhile p).takeWhile isWordish) := by
      rw [← bumpOver_append, ← bumpOver_append]
      simp
    rw [resyncWordish, bumpWhile_eq, hbehind, hover]
    rfl
  · rename_i hvalid
    obtain ⟨more, hmore⟩ : ∃ more, behind.dropWhile p = '#' :: more := by
      have hhead : (behind.dropWhile p).head? = some '#' := by simp_all
      exact ⟨_, List.eq_cons_of_mem_head? hhead⟩
    have hclose : ((c.bumpOver (base ++ ['#'])).bumpOver (behind.takeWhile p)).bump
        = c.bumpOver (base ++ '#' :: (behind.takeWhile p ++ ['#'])) := by
      simp [bumpOver_append]
    have hsource : c.rest = (base ++ '#' :: (behind.takeWhile p ++ ['#'])) ++ more := by
      have hcut := List.takeWhile_append_dropWhile (p := p) (l := behind)
      rw [hmore] at hcut
      rw [h, ← hcut, hcut]
      simp [hcut]
    have hexponent : c.rest = (base ++ '#' :: (behind.takeWhile p ++ '#' :: exponent more))
        ++ more.drop (exponent more).length := by
      have hcut := List.prefix_iff_eq_append.1 (exponent_isPrefix more)
      rw [hsource]
      simp [hcut]
    have hover :
        (c.bumpOver (base ++ '#' :: (behind.takeWhile p ++ ['#']))).bumpOver (exponent more)
        = c.bumpOver (base ++ '#' :: (behind.takeWhile p ++ '#' :: exponent more)) := by
      rw [← bumpOver_append]
      simp
    rw [hclose, scanExponent_eq, rest_over hsource, hmore, List.tail_cons, hover, slice_shift,
      slice_over hexponent]

/-- The scan of a fraction goes over the fraction and says whether there is one. -/
theorem scanFraction_eq (c : Cursor) :
    c.scanFraction = (decide (fraction c.rest ≠ []), c.bumpOver (fraction c.rest)) := by
  unfold scanFraction peekChar peekNextChar
  by_cases hpoint : ∃ digit chars, c.rest = '.' :: digit :: chars
  · obtain ⟨digit, chars, hrest⟩ := hpoint
    have hbump : c.bump.rest = digit :: chars := by rw [rest_bump, hrest]; rfl
    by_cases hdigit : digit.isDigit = true
    · have hpoint : digit ≠ '.' := by
        rintro rfl
        exact absurd hdigit (by decide)
      simp [hrest, fraction, hdigit, hpoint, consumeDecimalDigits, bumpWhile_eq, hbump]
    · simp [hrest, fraction, hdigit]
  · have hnone : fraction c.rest = [] := by
      unfold fraction
      split
      · rename_i digit chars hrest
        exact absurd ⟨digit, chars, hrest⟩ hpoint
      · rfl
    have hnot : ¬ (c.rest.head? = some '.' ∧ c.rest.tail.head? ≠ some '.'
        ∧ c.rest.tail.head?.any Char.isDigit = true) := by
      rintro ⟨hhead, -, hdigit⟩
      obtain ⟨chars, hrest⟩ : ∃ chars, c.rest = '.' :: chars :=
        ⟨_, List.eq_cons_of_mem_head? hhead⟩
      cases chars with
      | nil => simp [hrest] at hdigit
      | cons digit chars => exact hpoint ⟨digit, chars, hrest⟩
    rw [if_neg hnot, hnone]
    rfl

/-- A number is scanned to its end, plain or based. -/
theorem scanNumber_takes (c : Cursor) : c.Takes c.scanNumber (Element.number c.rest) := by
  have hsplit : c.rest = c.rest.takeWhile isDigitOrUnderscore
      ++ c.rest.dropWhile isDigitOrUnderscore := List.takeWhile_append_dropWhile.symm
  have hrest := rest_over hsplit
  have hdigits : c.consumeDecimalDigits = c.bumpOver (c.rest.takeWhile isDigitOrUnderscore) :=
    bumpWhile_eq _ c
  unfold scanNumber Element.number
  rw [hdigits]
  simp only [peekChar, hrest]
  generalize c.rest.takeWhile isDigitOrUnderscore = digits at hsplit hrest ⊢
  generalize c.rest.dropWhile isDigitOrUnderscore = behind at hsplit hrest ⊢
  by_cases hsharp : behind.head? = some '#'
  · obtain ⟨more, rfl⟩ : ∃ more, behind = '#' :: more :=
      ⟨_, List.eq_cons_of_mem_head? hsharp⟩
    simp only [List.head?_cons, if_true, List.tail_cons]
    exact scanBasedLiteral_takes hsplit
  · have hfraction := List.prefix_iff_eq_append.1 (fraction_isPrefix behind)
    have hafter : (c.bumpOver (digits ++ fraction behind)).rest
        = behind.drop (fraction behind).length := by
      refine rest_over ?_
      rw [List.append_assoc, hfraction, hsplit]
    have hexponent := List.prefix_iff_eq_append.1
      (exponent_isPrefix (behind.drop (fraction behind).length))
    have hsource : c.rest = (digits ++ (fraction behind
        ++ exponent (behind.drop (fraction behind).length)))
        ++ (behind.drop (fraction behind).length).drop
          (exponent (behind.drop (fraction behind).length)).length := by
      rw [List.append_assoc, List.append_assoc, hexponent, hfraction, hsplit]
    have hslice := slice_over hsource
    simp only [if_neg hsharp, scanFraction_eq, hrest, ← bumpOver_append, scanExponent_eq, hafter,
      slice_shift]
    rw [List.append_assoc, hslice]
    simp [Takes]

theorem stringThrough_eq (content : List Char) {chars : List Char} {c : Cursor}
    (h : c.rest = chars) :
    stringThrough chars content c
      = ((stringFrom content chars).1, c.bumpOver (stringFrom content chars).2) := by
  fun_induction stringFrom content chars generalizing c with
  | case1 => rfl
  | case2 content chars ih =>
      have hrest : c.bump.bump.rest = chars := by rw [rest_bump, rest_bump, h]; rfl
      rw [stringThrough, if_pos rfl, ih hrest]
      rfl
  | case3 content chars hnot =>
      rw [stringThrough, if_pos rfl]
      · rfl
      · exact hnot
  | case4 content chars hquote =>
      unfold stringThrough
      rw [if_neg hquote, if_pos rfl]
      rfl
  | case5 content ch chars hquote hline ih =>
      have hrest : c.bump.rest = chars := by rw [rest_bump, h]; rfl
      unfold stringThrough
      rw [if_neg hquote, if_neg hline, ih hrest]
      rfl

theorem scanString_takes {c : Cursor} {chars : List Char} (h : c.rest = '"' :: chars) :
    c.Takes c.scanString (Element.string chars) := by
  have hrest : c.bump.rest = chars := by rw [rest_bump, h]; rfl
  rw [Takes, scanString, stringThrough_eq [] rfl, hrest]
  rfl

theorem scanApostrophe_takes {c : Cursor} {chars : List Char} (h : c.rest = '\'' :: chars)
    (lastSignificant : Option TokenKind) :
    c.Takes (c.scanApostrophe lastSignificant) (apostrophe lastSignificant chars) := by
  unfold Takes scanApostrophe apostrophe
  rw [h, List.tail_cons]
  split_ifs
  · rfl
  · cases characterLiteralCandidate chars <;> rfl

theorem oneOrTwo_takes {c : Cursor} {first : Char} {chars : List Char}
    (h : c.rest = first :: chars) (one : TokenKind) (second : Char) (two : TokenKind) :
    c.Takes (c.oneOrTwo one second two) (Element.oneOrTwo first chars one second two) := by
  have hrest : c.bump.rest = chars := by rw [rest_bump, h]; rfl
  unfold Takes oneOrTwo Element.oneOrTwo peekChar
  rw [hrest]
  split_ifs <;> rfl

theorem scanPunctuationOrError_takes {c : Cursor} {ch : Char} {chars : List Char}
    (h : c.rest = ch :: chars) :
    c.Takes (c.scanPunctuationOrError ch) (punctuation ch chars) := by
  unfold scanPunctuationOrError
  split
  case h_8 =>
    have hrest : c.bump.rest = chars := by rw [rest_bump, h]; rfl
    simp only [peekChar, hrest, punctuation]
    split_ifs
    · rfl
    · exact oneOrTwo_takes h _ _ _
  case h_15 =>
    unfold punctuation
    split <;> first | rfl | simp_all
  all_goals first | rfl | exact oneOrTwo_takes h _ _ _

theorem scanComment_takes {c : Cursor} {chars : List Char} (h : c.rest = '-' :: '-' :: chars) :
    c.Takes c.scanComment (comment chars) := by
  have hrest : c.bump.bump.rest = chars := by rw [rest_bump, rest_bump, h]; rfl
  have hslice := slice_over (c := c.bump.bump)
    (hrest.trans (List.takeWhile_append_dropWhile (p := fun ch => ch ≠ '\n')).symm)
  simp only [Takes, scanComment, comment, bumpWhile_eq, hrest, hslice]
  rfl

theorem scanIdentifierOrKeyword_takes {c : Cursor} {ch : Char} {chars : List Char}
    (h : c.rest = ch :: chars) (dialect : AdaStandard) :
    c.Takes (c.scanIdentifierOrKeyword dialect) (word dialect ch chars) := by
  have hrest : c.bump.rest = chars := by rw [rest_bump, h]; rfl
  have hcut : c.rest = (ch :: chars.takeWhile isIdentifierContinue)
      ++ chars.dropWhile isIdentifierContinue := by simp [h]
  have hslice := slice_over hcut
  simp only [Takes, scanIdentifierOrKeyword, word, bumpWhile_eq, hrest]
  rw [← bumpOver_cons, hslice]
  rfl

/-- The lexer goes over the element at the front, and gives back what is left
dangling. -/
theorem scan_takes {c : Cursor} {ch : Char} {chars : List Char} (h : c.rest = ch :: chars)
    (dialect : AdaStandard) (lastSignificant : Option TokenKind) :
    c.Takes (c.scan dialect lastSignificant ch) (first dialect lastSignificant ch chars) := by
  have hnext : c.peekNextChar = chars.head? := by rw [peekNextChar, h]; rfl
  unfold scan first
  rw [hnext]
  split_ifs with hcomment hquote happostrophe hdigit hstart
  · obtain ⟨rfl, hsecond⟩ := hcomment
    obtain ⟨more, rfl⟩ : ∃ more, chars = '-' :: more := ⟨_, List.eq_cons_of_mem_head? hsecond⟩
    exact scanComment_takes h
  · exact scanString_takes (hquote ▸ h)
  · exact scanApostrophe_takes (happostrophe ▸ h) lastSignificant
  · exact h ▸ scanNumber_takes c
  · exact scanIdentifierOrKeyword_takes h dialect
  · exact scanPunctuationOrError_takes h

end Cursor

/-! ## The elements of a text -/

/-- The elements of a text, whitespace left out, for this many rounds at
most. -/
def elementsFrom (dialect : AdaStandard) : Nat → Option TokenKind → List Char → List Element
  | 0, _, _ => []
  | _ + 1, _, [] => []
  | rounds + 1, lastSignificant, ch :: chars =>
      if isWhitespace ch then elementsFrom dialect rounds lastSignificant chars
      else
        let e := Element.first dialect lastSignificant ch chars
        e :: elementsFrom dialect rounds (nextSignificant lastSignificant e.kind)
          ((ch :: chars).drop e.text.length)

def elements (dialect : AdaStandard) (source : List Char) : List Element :=
  elementsFrom dialect (source.length + 1) none source

end GovFuzz.AdaParser
