import GovFuzz.IdlParser.Expression
import GovFuzz.IdlParser.Token

/-!
# IDL parser — string literals

`crates/idl_parser/src/literal.rs`: what a literal denotes, from its spelling.
An escape takes as many digits as there are, up to its limit, so that what
stands behind a literal body may change what the body denotes; it does so
exactly if the body ends in an escape that has room left and a digit of its
radix follows (`Absorbs`).
-/

namespace GovFuzz.IdlParser

/-! ## Decoding -/

/-- The body of a quoted literal; any other text as it is. -/
@[grind =] def literalBody (text : List Char) : List Char :=
  match text with
  | [] => text
  | quote :: rest =>
      if (quote ≠ '"' ∧ quote ≠ '\'') ∨ text.length < 2 ∨ text.getLast? ≠ some quote then text
      else rest.dropLast

/-- `push_code_point`. -/
def codePoint (value : Nat) : Char :=
  if value.isValidChar then Char.ofNat value else Char.ofNat 0xfffd

/-- The radix of the digits behind an escape character, and how many of them
it takes.  An octal escape is its first digit itself. -/
def escapeDigits (escape : Char) : Option (Nat × Nat) :=
  if escape = 'x' then some (16, 2)
  else if escape = 'u' then some (16, 4)
  else if (toDigit 8 escape).isSome then some (8, 2)
  else none

/-- `peek().and_then(|ch| ch.to_digit(radix))`, up to `maxDigits` times. -/
@[grind =] def takeDigits (radix maxDigits : Nat) (behind : List Char) : List Char :=
  (behind.take maxDigits).takeWhile fun ch => (toDigit radix ch).isSome

def digitsFrom (radix value : Nat) (digits : List Char) : Nat :=
  digits.foldl (fun value ch => value * radix + (toDigit radix ch).getD 0) value

/-- What an escape that takes these digits stands for; `\x` without a digit
stands for its escape character. -/
def escapeValue (escape : Char) (digits : List Char) : Char :=
  if escape = 'n' then '\n'
  else if escape = 't' then '\t'
  else if escape = 'v' then Char.ofNat 0x0b
  else if escape = 'b' then Char.ofNat 0x08
  else if escape = 'r' then '\r'
  else if escape = 'f' then Char.ofNat 0x0c
  else if escape = 'a' then Char.ofNat 0x07
  else if escape = 'x' ∨ escape = 'u' then
    if digits = [] then escape else codePoint (digitsFrom 16 0 digits)
  else match toDigit 8 escape with
    | some value => codePoint (digitsFrom 8 value digits)
    | none => escape

@[grind =] def escapeTaken (escape : Char) (behind : List Char) : List Char :=
  match escapeDigits escape with
  | some (radix, maxDigits) => takeDigits radix maxDigits behind
  | none => []

/-- The loop; `skip` characters belong to the escape before. -/
@[grind =] def decodeFrom : Nat → List Char → List Char
  | _, [] => []
  | skip + 1, _ :: chars => decodeFrom skip chars
  | 0, ch :: chars =>
      if ch ≠ '\\' then ch :: decodeFrom 0 chars
      else match chars with
        -- a trailing backslash is kept
        | [] => ['\\']
        | escape :: behind =>
            let taken := escapeTaken escape behind
            escapeValue escape taken :: decodeFrom (taken.length + 1) chars

@[grind =] def decodeIdlLiteralBody (body : List Char) : List Char := decodeFrom 0 body

def decodeIdlLiteral (text : List Char) : List Char := decodeIdlLiteralBody (literalBody text)

example : decodeIdlLiteral ['"', '\\', '1', '0', '1', '1', '"'] = ['A', '1'] := by decide
example : decodeIdlLiteral ['"', '\\', 'x', 'g', '"'] = ['x', 'g'] := by decide

/-! ## The equations of the loop -/

theorem decodeFrom_eq_drop (skip : Nat) (chars : List Char) :
    decodeFrom skip chars = decodeIdlLiteralBody (chars.drop skip) := by
  induction skip generalizing chars with
  | zero => rfl
  | succ skip ih =>
      cases chars with
      | nil => simp [decodeFrom, decodeIdlLiteralBody]
      | cons ch chars => simp [decodeFrom, ih]

@[simp] theorem decode_nil : decodeIdlLiteralBody [] = [] := rfl

theorem decode_plain {ch : Char} (h : ch ≠ '\\') (chars : List Char) :
    decodeIdlLiteralBody (ch :: chars) = ch :: decodeIdlLiteralBody chars := by
  simp [decodeIdlLiteralBody, decodeFrom, h]

theorem decode_escape (escape : Char) (behind : List Char) :
    decodeIdlLiteralBody ('\\' :: escape :: behind)
      = escapeValue escape (escapeTaken escape behind)
        :: decodeIdlLiteralBody (behind.drop (escapeTaken escape behind).length) := by
  have hskip := decodeFrom_eq_drop ((escapeTaken escape behind).length + 1) (escape :: behind)
  rw [List.drop_succ_cons] at hskip
  simp [decodeIdlLiteralBody, decodeFrom] at hskip ⊢
  exact hskip

/-- Digits are no backslashes. -/
theorem decode_digits {radix : Nat} {digits : List Char}
    (h : ∀ ch ∈ digits, (toDigit radix ch).isSome) (chars : List Char) :
    decodeIdlLiteralBody (digits ++ chars) = digits ++ decodeIdlLiteralBody chars := by
  induction digits with
  | nil => rfl
  | cons ch digits ih =>
      have hne : ch ≠ '\\' := by
        rintro rfl
        simpa [toDigit] using h '\\' (List.mem_cons_self ..)
      have hdigits : ∀ c ∈ digits, (toDigit radix c).isSome := by
        intro c hc
        exact h c (List.mem_cons_of_mem _ hc)
      rw [List.cons_append, decode_plain hne, ih hdigits, List.cons_append]

/-! ## Escapes at the end of a body -/

/-- No escape is cut off by the end. -/
@[grind =] def Complete : List Char → Prop
  | [] => True
  | ch :: chars =>
      if ch ≠ '\\' then Complete chars
      else match chars with
        | [] => False
        | _ :: behind => Complete behind

/-- The radix of an escape that takes everything behind it and could take
more. -/
@[grind =] def roomBehind (escape : Char) (behind : List Char) : Option Nat :=
  match escapeDigits escape with
  | some (radix, maxDigits) =>
      if takeDigits radix maxDigits behind = behind ∧ behind.length < maxDigits then some radix
      else none
  | none => none

/-- The loop of the decoder, looking for such an escape. -/
@[grind =] def openFrom : Nat → List Char → Option Nat
  | _, [] => none
  | skip + 1, _ :: chars => openFrom skip chars
  | 0, ch :: chars =>
      if ch ≠ '\\' then openFrom 0 chars
      else match chars with
        | [] => none
        | escape :: behind =>
            match roomBehind escape behind with
            | some radix => some radix
            | none => openFrom ((escapeTaken escape behind).length + 1) chars

@[grind =] def openEscape (body : List Char) : Option Nat := openFrom 0 body

/-- The body ends in an open escape, and what follows starts with a digit
for it. -/
@[grind =] def Absorbs (body behind : List Char) : Prop :=
  ∃ radix ch, openEscape body = some radix ∧ behind.head? = some ch ∧ (toDigit radix ch).isSome

theorem openFrom_eq_drop (skip : Nat) (chars : List Char) :
    openFrom skip chars = openEscape (chars.drop skip) := by
  induction skip generalizing chars with
  | zero => rfl
  | succ skip ih =>
      cases chars with
      | nil => simp [openFrom, openEscape]
      | cons ch chars => simp [openFrom, ih]

theorem openEscape_plain {ch : Char} (h : ch ≠ '\\') (chars : List Char) :
    openEscape (ch :: chars) = openEscape chars := by
  simp [openEscape, openFrom, h]

theorem openEscape_escape (escape : Char) (behind : List Char) :
    openEscape ('\\' :: escape :: behind)
      = match roomBehind escape behind with
        | some radix => some radix
        | none => openEscape (behind.drop (escapeTaken escape behind).length) := by
  have hskip := openFrom_eq_drop ((escapeTaken escape behind).length + 1) (escape :: behind)
  rw [List.drop_succ_cons] at hskip
  simp only [openEscape, openFrom] at hskip ⊢
  rw [hskip]
  rfl

theorem takeDigits_isPrefix (radix maxDigits : Nat) (behind : List Char) :
    takeDigits radix maxDigits behind <+: behind :=
  (List.takeWhile_prefix _).trans (List.take_prefix _ _)

theorem isSome_of_mem_takeDigits {radix maxDigits : Nat} {behind : List Char} {ch : Char}
    (h : ch ∈ takeDigits radix maxDigits behind) : (toDigit radix ch).isSome :=
  List.all_eq_true.1 List.all_takeWhile ch h

/-- An escape that does not take everything, or has no room, takes nothing
of what is put behind. -/
theorem takeDigits_append {radix maxDigits : Nat} {behind : List Char}
    (h : ¬ (takeDigits radix maxDigits behind = behind ∧ behind.length < maxDigits))
    (more : List Char) :
    takeDigits radix maxDigits (behind ++ more) = takeDigits radix maxDigits behind := by
  by_cases hlen : behind.length < maxDigits
  · have hstop : takeDigits radix maxDigits behind ≠ behind := fun hall => h ⟨hall, hlen⟩
    have htake : behind.take maxDigits = behind := List.take_of_length_le (Nat.le_of_lt hlen)
    simp only [takeDigits, htake] at hstop ⊢
    rw [List.take_append, htake, List.takeWhile_append, if_neg]
    intro heq
    exact hstop ((List.takeWhile_prefix _).eq_of_length heq)
  · simp only [takeDigits]
    rw [List.take_append_of_le_length (by omega)]

/-- With room it goes on taking. -/
theorem takeDigits_append_room {radix maxDigits : Nat} {behind : List Char}
    (hall : takeDigits radix maxDigits behind = behind) (hlen : behind.length < maxDigits)
    (more : List Char) :
    takeDigits radix maxDigits (behind ++ more)
      = behind ++ takeDigits radix (maxDigits - behind.length) more := by
  have htake : behind.take maxDigits = behind := List.take_of_length_le (Nat.le_of_lt hlen)
  simp only [takeDigits, htake] at hall ⊢
  rw [List.take_append, htake, List.takeWhile_append, if_pos (by rw [hall])]

/-! ## Bodies -/

theorem complete_plain {ch : Char} (hne : ch ≠ '\\') (chars : List Char) :
    Complete (ch :: chars) ↔ Complete chars := by
  simp [Complete.eq_def (ch :: chars), hne]

theorem complete_escape {escape : Char} {behind : List Char}
    (h : Complete ('\\' :: escape :: behind)) : Complete behind := by
  simpa [Complete] using h

theorem Complete.of_plain {chars rest : List Char} (hplain : ∀ ch ∈ chars, ch ≠ '\\')
    (h : Complete (chars ++ rest)) : Complete rest := by
  induction chars with
  | nil => exact h
  | cons ch chars ih =>
      have hne : ch ≠ '\\' := hplain ch (List.mem_cons_self ..)
      have hchars : ∀ c ∈ chars, c ≠ '\\' := by
        intro c hc
        exact hplain c (List.mem_cons_of_mem _ hc)
      rw [List.cons_append, complete_plain hne] at h
      exact ih hchars h

theorem escapeTaken_isPrefix (escape : Char) (behind : List Char) :
    escapeTaken escape behind <+: behind := by
  unfold escapeTaken
  split
  · exact takeDigits_isPrefix _ _ _
  · exact List.nil_prefix

theorem ne_backslash_of_mem_escapeTaken {escape : Char} {behind : List Char} {ch : Char}
    (h : ch ∈ escapeTaken escape behind) : ch ≠ '\\' := by
  unfold escapeTaken at h
  split at h
  · have hdigit := isSome_of_mem_takeDigits h
    rintro rfl
    simp [toDigit] at hdigit
  · cases h

/-- What is taken and what is left. -/
theorem escapeTaken_append_drop (escape : Char) (behind : List Char) :
    escapeTaken escape behind ++ behind.drop (escapeTaken escape behind).length = behind := by
  have htake := List.prefix_iff_eq_take.mp (escapeTaken_isPrefix escape behind)
  calc escapeTaken escape behind ++ behind.drop (escapeTaken escape behind).length
      = behind.take (escapeTaken escape behind).length
          ++ behind.drop (escapeTaken escape behind).length := by rw [← htake]
    _ = behind := List.take_append_drop _ _

/-- A body is read character by character and escape by escape. -/
theorem body_induction {P : List Char → Prop} (nil : P [])
    (plain : ∀ ch chars, ch ≠ '\\' → P chars → P (ch :: chars))
    (escape : ∀ escape behind, P (behind.drop (escapeTaken escape behind).length) →
      P ('\\' :: escape :: behind))
    (body : List Char) (h : Complete body) : P body := by
  induction hlen : body.length using Nat.strongRecOn generalizing body with
  | ind n ih =>
      match body, h, hlen with
      | [], _, _ => exact nil
      | ch :: chars, h, hlen =>
          by_cases hplain : ch = '\\'
          · subst hplain
            match chars, h, hlen with
            | [], h, _ => simp [Complete] at h
            | e :: behind, h, hlen =>
                have hbehind := complete_escape h
                rw [← escapeTaken_append_drop e behind] at hbehind
                have hrest := hbehind.of_plain fun ch => ne_backslash_of_mem_escapeTaken
                refine escape e behind (ih _ ?_ _ hrest rfl)
                simp only [List.length_drop, List.length_cons] at hlen ⊢
                omega
          · rw [complete_plain hplain] at h
            refine plain ch chars hplain (ih _ ?_ chars h rfl)
            simp only [List.length_cons] at hlen
            omega

theorem not_absorbs_nil (behind : List Char) : ¬ Absorbs [] behind := by
  rintro ⟨radix, ch, hopen, -⟩
  simp [openEscape, openFrom] at hopen

/-! ## A body with something behind it -/

/-- Without room an escape takes what it took. -/
theorem escapeTaken_append {escape : Char} {behind : List Char}
    (h : roomBehind escape behind = none) (more : List Char) :
    escapeTaken escape (behind ++ more) = escapeTaken escape behind := by
  unfold roomBehind at h
  unfold escapeTaken
  cases hdigits : escapeDigits escape with
  | none => rfl
  | some digits =>
      simp only [hdigits] at h ⊢
      apply takeDigits_append
      intro hroom
      simp [hroom] at h

theorem roomBehind_eq_some {escape : Char} {behind : List Char} {radix : Nat}
    (h : roomBehind escape behind = some radix) :
    ∃ maxDigits, escapeDigits escape = some (radix, maxDigits) ∧
      takeDigits radix maxDigits behind = behind ∧ behind.length < maxDigits := by
  unfold roomBehind at h
  cases hdigits : escapeDigits escape with
  | none => simp [hdigits] at h
  | some digits =>
      simp only [hdigits] at h
      split at h
      · cases h
        exact ⟨digits.2, rfl, ‹_›⟩
      · cases h

/-- With room it takes the digits that follow, too. -/
theorem escapeTaken_append_room {escape : Char} {behind : List Char} {radix : Nat}
    (h : roomBehind escape behind = some radix) :
    escapeTaken escape behind = behind ∧ ∃ room, 0 < room ∧ ∀ more,
      escapeTaken escape (behind ++ more) = behind ++ takeDigits radix room more := by
  obtain ⟨maxDigits, hdigits, hall, hlen⟩ := roomBehind_eq_some h
  refine ⟨by simp [escapeTaken, hdigits, hall], maxDigits - behind.length, by omega, ?_⟩
  intro more
  simp [escapeTaken, hdigits, takeDigits_append_room hall hlen]

theorem takeDigits_eq_nil {radix room : Nat} {more : List Char}
    (h : ∀ ch, more.head? = some ch → ¬ (toDigit radix ch).isSome) :
    takeDigits radix room more = [] := by
  cases room with
  | zero => simp [takeDigits]
  | succ room =>
      cases more with
      | nil => simp [takeDigits]
      | cons ch more =>
          have hno := h ch rfl
          simp [takeDigits, hno]

theorem takeDigits_ne_nil {radix room : Nat} {ch : Char} {more : List Char} (hroom : 0 < room)
    (hhead : more.head? = some ch) (hdigit : (toDigit radix ch).isSome) :
    takeDigits radix room more ≠ [] := by
  obtain ⟨room, rfl⟩ := Nat.exists_eq_succ_of_ne_zero (Nat.pos_iff_ne_zero.1 hroom)
  cases more with
  | nil => simp at hhead
  | cons c more =>
      cases hhead
      simp [takeDigits, hdigit]

/-- Digits that an escape takes from what follows are lost there, one
character for each. -/
theorem length_decode_drop_takeDigits (radix room : Nat) (more : List Char) :
    (decodeIdlLiteralBody more).length
      = (takeDigits radix room more).length
        + (decodeIdlLiteralBody (more.drop (takeDigits radix room more).length)).length := by
  have htaken : takeDigits radix room more ++ more.drop (takeDigits radix room more).length
      = more := by
    obtain ⟨rest, hrest⟩ := takeDigits_isPrefix radix room more
    generalize takeDigits radix room more = taken at hrest ⊢
    rw [← hrest, List.drop_left]
  have hdigits : ∀ ch ∈ takeDigits radix room more, (toDigit radix ch).isSome := by
    intro ch hch
    exact isSome_of_mem_takeDigits hch
  have hdecode := decode_digits hdigits (more.drop (takeDigits radix room more).length)
  rw [htaken] at hdecode
  rw [hdecode, List.length_append]

/-- The value of a body with something behind it: the two values, unless an
escape takes over. -/
@[grind =] def Joins (behind body : List Char) : Prop :=
  (¬ Absorbs body behind →
    decodeIdlLiteralBody (body ++ behind)
      = decodeIdlLiteralBody body ++ decodeIdlLiteralBody behind) ∧
  (Absorbs body behind →
    (decodeIdlLiteralBody (body ++ behind)).length
      < (decodeIdlLiteralBody body).length + (decodeIdlLiteralBody behind).length)

theorem Joins.plain {ch : Char} (hne : ch ≠ '\\') {chars behind : List Char}
    (h : Joins behind chars) : Joins behind (ch :: chars) := by
  have hiff : Absorbs (ch :: chars) behind ↔ Absorbs chars behind := by
    simp only [Absorbs, openEscape_plain hne]
  simp only [Joins, hiff, List.cons_append, decode_plain hne]
  constructor
  · intro hnot
    rw [h.1 hnot]
  · intro habsorbs
    have := h.2 habsorbs
    simp only [List.length_cons]
    omega

/-- An escape and what is joined behind it are joined. -/
theorem Joins.escape {e : Char} {chars behind : List Char}
    (h : Joins behind (chars.drop (escapeTaken e chars).length)) :
    Joins behind ('\\' :: e :: chars) := by
  have hlen : (escapeTaken e chars).length ≤ chars.length :=
    (escapeTaken_isPrefix e chars).length_le
  simp only [Joins, List.cons_append, decode_escape]
  cases hroom : roomBehind e chars with
  | none =>
      have hiff : Absorbs ('\\' :: e :: chars) behind
          ↔ Absorbs (chars.drop (escapeTaken e chars).length) behind := by
        simp only [Absorbs, openEscape_escape, hroom]
      rw [hiff, escapeTaken_append hroom, List.drop_append_of_le_length hlen]
      constructor
      · intro hnot
        rw [h.1 hnot]
      · intro habsorbs
        have := h.2 habsorbs
        simp only [List.length_cons]
        omega
  | some radix =>
      -- the escape has taken everything: nothing is left to decode before `behind`
      obtain ⟨hall, room, hpos, happend⟩ := escapeTaken_append_room hroom
      have hiff : Absorbs ('\\' :: e :: chars) behind
          ↔ ∃ ch, behind.head? = some ch ∧ (toDigit radix ch).isSome := by
        simp [Absorbs, openEscape_escape, hroom]
      rw [hiff, happend, hall, List.length_append, List.drop_append]
      simp only [List.drop_length, List.drop_of_length_le (Nat.le_add_right _ _), decode_nil,
        List.nil_append, Nat.add_sub_cancel_left]
      constructor
      · intro hnot
        have hnil : takeDigits radix room behind = [] :=
          takeDigits_eq_nil fun ch hhead hdigit => hnot ⟨ch, hhead, hdigit⟩
        simp [hnil]
      · rintro ⟨ch, hhead, hdigit⟩
        have hlost := length_decode_drop_takeDigits radix room behind
        have hsome := List.length_pos_iff.2 (takeDigits_ne_nil hpos hhead hdigit)
        simp only [List.length_cons, List.length_nil]
        omega

theorem decode_append {body : List Char} (h : Complete body) (behind : List Char) :
    Joins behind body := by
  refine body_induction (P := Joins behind) ?_ ?_ ?_ body h
  · exact ⟨fun _ => rfl, fun habsorbs => absurd habsorbs (not_absorbs_nil behind)⟩
  · intro ch chars hne ih
    exact ih.plain hne
  · intro e chars ih
    exact ih.escape

/-! ## A run of literals -/

/-- No body of the run ends in an escape that goes on in what follows. -/
@[grind =] def Separate : List (List Char) → Prop
  | [] => True
  | body :: bodies => ¬ Absorbs body bodies.flatten ∧ Separate bodies

/-- The value of the joined bodies is the joined values, or shorter. -/
theorem decode_flatten {bodies : List (List Char)} (h : ∀ body ∈ bodies, Complete body) :
    (Separate bodies →
      decodeIdlLiteralBody bodies.flatten = bodies.flatMap decodeIdlLiteralBody) ∧
    (¬ Separate bodies →
      (decodeIdlLiteralBody bodies.flatten).length
        < (bodies.flatMap decodeIdlLiteralBody).length) := by
  induction bodies with
  | nil => simp [Separate]
  | cons body bodies ih =>
      have hbody : Complete body := h body (List.mem_cons_self ..)
      have hbodies := ih fun b hb => h b (List.mem_cons_of_mem _ hb)
      have hjoins := decode_append hbody bodies.flatten
      simp only [Separate, List.flatten_cons, List.flatMap_cons, List.length_append]
      constructor
      · intro hseparate
        rw [hjoins.1 hseparate.1, hbodies.1 hseparate.2]
      · intro hnot
        by_cases habsorbs : Absorbs body bodies.flatten
        · have hshort := hjoins.2 habsorbs
          have hle : (decodeIdlLiteralBody bodies.flatten).length
              ≤ (bodies.flatMap decodeIdlLiteralBody).length := by
            by_cases hseparate : Separate bodies
            · exact Nat.le_of_eq (congrArg List.length (hbodies.1 hseparate))
            · exact Nat.le_of_lt (hbodies.2 hseparate)
          omega
        · have hseparate : ¬ Separate bodies := fun hs => hnot ⟨habsorbs, hs⟩
          have hshort := hbodies.2 hseparate
          rw [hjoins.1 habsorbs, List.length_append]
          omega

theorem decode_flatten_iff {bodies : List (List Char)} (h : ∀ body ∈ bodies, Complete body) :
    decodeIdlLiteralBody bodies.flatten = bodies.flatMap decodeIdlLiteralBody
      ↔ Separate bodies := by
  constructor
  · intro heq
    by_contra hnot
    have hshort := (decode_flatten h).2 hnot
    rw [heq] at hshort
    exact Nat.lt_irrefl _ hshort
  · exact (decode_flatten h).1

/-! ## The run in the parser -/

/-- The loop of `parse_string_literal_run`. -/
@[grind =] def stringBodies : List Token → List Char × List Token
  | [] => ([], [])
  | token :: tokens =>
      if token.kind = .stringLiteral then
        let (body, rest) := stringBodies tokens
        (literalBody token.text ++ body, rest)
      else ([], token :: tokens)

def parseStringLiteralRun (tokens : List Token) : List Char × List Token :=
  let first := (peek tokens).text
  let (body, rest) := stringBodies (bump tokens)
  let quote := first.headD '"'
  (quote :: (literalBody first ++ body) ++ [quote], rest)

theorem literalBody_quoted (body : List Char) : literalBody ('"' :: body ++ ['"']) = body := by
  have hlast : ('"' :: (body ++ ['"'])).getLast? = some '"' := by
    rw [← List.cons_append, List.getLast?_append]
    rfl
  have hlen : ¬ body.length + 1 + 1 < 2 := by omega
  simp [literalBody, hlast, hlen]

/-- The closing quote of a token is not part of an escape. -/
theorem lexString_complete {quote : Char} {chars text behind : List Char} {escaped : Bool}
    (h : lexString quote escaped chars = some (text, behind)) :
    ∃ body, text = body ++ [quote] ∧
      if escaped then Complete ('\\' :: body) else Complete body := by
  induction chars generalizing escaped text behind with
  | nil => simp [lexString] at h
  | cons ch chars ih =>
      have hgo : ∀ next, (lexString quote next chars).map
            (fun cut => (ch :: cut.1, cut.2)) = some (text, behind) →
          ∃ body, text = ch :: body ++ [quote] ∧
            if next then Complete ('\\' :: body) else Complete body := by
        intro next hnext
        obtain ⟨⟨inner, rest⟩, hinner, heq⟩ := Option.map_eq_some_iff.1 hnext
        obtain ⟨body, rfl, hbody⟩ := ih hinner
        cases heq
        exact ⟨body, rfl, hbody⟩
      rw [lexString] at h
      by_cases hescaped : escaped = true
      · simp only [hescaped, if_true] at h ⊢
        obtain ⟨body, rfl, hbody⟩ := hgo false h
        exact ⟨ch :: body, rfl, by simpa [Complete] using hbody⟩
      · simp only [hescaped, Bool.false_eq_true, if_false] at h ⊢
        split_ifs at h with hslash hquote
        · obtain ⟨body, rfl, hbody⟩ := hgo true h
          exact ⟨ch :: body, rfl, by simpa [hslash] using hbody⟩
        · cases h
          exact ⟨[], by simp [hquote], trivial⟩
        · obtain ⟨body, rfl, hbody⟩ := hgo false h
          exact ⟨ch :: body, rfl, (complete_plain hslash body).2 (by simpa using hbody)⟩

theorem IsLiteralText.exists_body {text : List Char} (h : IsLiteralText '"' text) :
    ∃ body, text = '"' :: body ++ ['"'] ∧ Complete body := by
  obtain ⟨chars, rest, behind, hlex, rfl⟩ := h
  obtain ⟨body, rfl, hbody⟩ := lexString_complete hlex
  exact ⟨body, rfl, by simpa using hbody⟩

theorem stringBodies_append {run rest : List Token}
    (hrun : ∀ token ∈ run, token.kind = .stringLiteral)
    (hrest : (peek rest).kind ≠ .stringLiteral) :
    stringBodies (run ++ rest) = (run.flatMap (literalBody ·.text), rest) := by
  induction run with
  | nil =>
      cases rest with
      | nil => rfl
      | cons token rest =>
          rw [peek_cons] at hrest
          simp [stringBodies, hrest]
  | cons token run ih =>
      have htoken := hrun token (List.mem_cons_self ..)
      have hmore := ih fun t ht => hrun t (List.mem_cons_of_mem _ ht)
      simp [stringBodies, htoken, hmore]

/-- The literal returned for a run of double-quoted tokens. -/
theorem parseStringLiteralRun_append {run rest : List Token} (hne : run ≠ [])
    (hrun : ∀ token ∈ run, token.kind = .stringLiteral ∧ IsLiteralText '"' token.text)
    (hrest : (peek rest).kind ≠ .stringLiteral) :
    parseStringLiteralRun (run ++ rest)
      = ('"' :: run.flatMap (literalBody ·.text) ++ ['"'], rest) := by
  cases run with
  | nil => exact absurd rfl hne
  | cons token run =>
      obtain ⟨hkind, htext⟩ := hrun token (List.mem_cons_self ..)
      obtain ⟨body, htext, -⟩ := htext.exists_body
      have hquote : token.text.head?.getD '"' = '"' := by simp [htext]
      have hend : token.kind ≠ .endOfInput := by simp [hkind]
      have hmore := stringBodies_append
        (fun t ht => (hrun t (List.mem_cons_of_mem _ ht)).1) hrest
      simp [parseStringLiteralRun, bump_cons hend, hmore, hquote]

/-- Adjacent literals are joined by value exactly if no piece ends in an
escape that goes on in the pieces behind it: the joining is of the spellings. -/
theorem parseStringLiteralRun_value_iff {run rest : List Token} (hne : run ≠ [])
    (hrun : ∀ token ∈ run, token.kind = .stringLiteral ∧ IsLiteralText '"' token.text)
    (hrest : (peek rest).kind ≠ .stringLiteral) :
    (parseStringLiteralRun (run ++ rest)).2 = rest ∧
    (decodeIdlLiteral (parseStringLiteralRun (run ++ rest)).1
        = run.flatMap (decodeIdlLiteral ·.text)
      ↔ Separate (run.map (literalBody ·.text))) := by
  have hcomplete : ∀ body ∈ run.map (literalBody ·.text), Complete body := by
    intro body hbody
    obtain ⟨token, htoken, rfl⟩ := List.mem_map.1 hbody
    obtain ⟨inner, htext, hinner⟩ := (hrun token htoken).2.exists_body
    rw [htext, literalBody_quoted]
    exact hinner
  rw [parseStringLiteralRun_append hne hrun hrest]
  refine ⟨rfl, ?_⟩
  rw [← decode_flatten_iff hcomplete]
  simp only [decodeIdlLiteral, literalBody_quoted, List.flatMap_def, List.map_map]
  rfl

def stringToken (text : List Char) : Token := ⟨.stringLiteral, text, .begin⟩

theorem stringToken_isLiteral {rest : List Char}
    (h : lexString '"' false rest = some (rest, [])) :
    (stringToken ('"' :: rest)).kind = .stringLiteral ∧
      IsLiteralText '"' (stringToken ('"' :: rest)).text :=
  ⟨rfl, rest, rest, [], h, rfl⟩

theorem parseStringLiteralRun_value_iff_lines :
    decodeIdlLiteral (parseStringLiteralRun ([stringToken ['"', '1', ' ', '"'],
        stringToken ['"', '2', '"']] ++ [])).1
      = ['1', ' ', '2'] := by
  have hrun : ∀ token ∈ [stringToken ['"', '1', ' ', '"'], stringToken ['"', '2', '"']],
      token.kind = .stringLiteral ∧ IsLiteralText '"' token.text := by
    simp only [List.forall_mem_cons, List.not_mem_nil, false_implies, implies_true, and_true]
    exact ⟨stringToken_isLiteral rfl, stringToken_isLiteral rfl⟩
  refine ((parseStringLiteralRun_value_iff (by simp) hrun (by decide)).2.2 ?_).trans rfl
  simp [Separate, Absorbs, stringToken, literalBody, openEscape, openFrom]

/-- `"\1" "2"` is the one character of octal 12, not two. -/
theorem not_parseStringLiteralRun_value_octal :
    (∀ token ∈ [stringToken ['"', '\\', '1', '"'], stringToken ['"', '2', '"']],
      token.kind = .stringLiteral ∧ IsLiteralText '"' token.text) ∧
    decodeIdlLiteral (parseStringLiteralRun [stringToken ['"', '\\', '1', '"'],
        stringToken ['"', '2', '"']]).1 = ['\n'] ∧
    [stringToken ['"', '\\', '1', '"'], stringToken ['"', '2', '"']].flatMap
      (decodeIdlLiteral ·.text) = [Char.ofNat 1, '2'] := by
  refine ⟨?_, by decide, by decide⟩
  simp only [List.forall_mem_cons, List.not_mem_nil, false_implies, implies_true, and_true]
  exact ⟨stringToken_isLiteral rfl, stringToken_isLiteral rfl⟩

end GovFuzz.IdlParser
