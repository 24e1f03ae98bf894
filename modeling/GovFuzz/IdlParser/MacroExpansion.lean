import GovFuzz.IdlParser.Preprocessor
import Mathlib.Data.List.TakeWhile

/-!
# IDL parser — macro expansion

What `expand_line` of `crates/idl_parser/src/preprocessor.rs` replaces on a
line.  It tells words from quoted text and nothing else, while the lexer of
the same crate also knows comments and numbers: a line is read twice here, as
`expand_line` reads it (`reading`) and as the lexer does (`pieces`), and the
two agree on the words of the defines exactly on the lines of `Sound`.
-/

namespace GovFuzz.IdlParser

/-! ## The line as `expand_line` reads it -/

/-- The open quote and whether the next character is escaped. -/
abbrev Quote := Option (Char × Bool)

/-- The quote that is open behind a character. -/
@[grind =] def quoteStep : Quote → Char → Quote
  | none, ch => if ch = '"' ∨ ch = '\'' then some (ch, false) else none
  | some (quote, true), _ => some (quote, false)
  | some (quote, false), ch =>
      if ch = '\\' then some (quote, true)
      else if ch = quote then none
      else some (quote, false)

/-- What the expansion sees: a character or a word. -/
inductive Reading where
  | char (ch : Char)
  | word (name : List Char)
  deriving DecidableEq, Repr

/-- `skip` characters belong to the word before. -/
@[grind =] def readFrom : Nat → Quote → List Char → List Reading
  | _, _, [] => []
  | skip + 1, quote, _ :: chars => readFrom skip quote chars
  | 0, quote, ch :: chars =>
      if quote = none ∧ isIdentifierStart ch then
        let more := chars.takeWhile isIdentifierContinue
        .word (ch :: more) :: readFrom more.length none chars
      else .char ch :: readFrom 0 (quoteStep quote ch) chars

/-- The readings of a text. -/
@[grind =] def reading (quote : Quote) (chars : List Char) : List Reading := readFrom 0 quote chars

/-- What becomes of the characters of a line. -/
inductive Edit where
  | keep (ch : Char)
  | replace (name replacement : List Char)
  deriving DecidableEq, Repr

/-- What an edit takes from the line. -/
@[grind =] def Edit.source : Edit → List Char
  | keep ch => [ch]
  | replace name _ => name

/-- What an edit puts there. -/
@[grind =] def Edit.inserted : Edit → List Char
  | keep ch => [ch]
  | replace _ replacement => replacement

/-- The edits of one reading. -/
@[grind =] def Reading.edits (defines : Defines) : Reading → List Edit
  | char ch => [.keep ch]
  | word name =>
      match defines name with
      | some replacement => [.replace name replacement]
      | none => name.map .keep

/-- The edits of `expand_line`. -/
@[grind =] def expansion (defines : Defines) (quote : Quote) (chars : List Char) : List Edit :=
  (reading quote chars).flatMap (Reading.edits defines)

theorem readFrom_eq_drop (skip : Nat) (quote : Quote) (chars : List Char) :
    readFrom skip quote chars = reading quote (chars.drop skip) := by
  induction skip generalizing chars with
  | zero => rfl
  | succ skip ih =>
      cases chars with
      | nil => simp [readFrom, reading]
      | cons ch chars => simp [readFrom, ih]

theorem drop_length_takeWhile (p : Char → Bool) (chars : List Char) :
    chars.drop (chars.takeWhile p).length = chars.dropWhile p := by
  induction chars with
  | nil => rfl
  | cons ch chars ih =>
      by_cases hp : p ch = true
      · simp [hp, ih]
      · simp [hp]

@[simp] theorem reading_nil (quote : Quote) : reading quote [] = [] := rfl

theorem reading_word {ch : Char} (h : isIdentifierStart ch = true) (chars : List Char) :
    reading none (ch :: chars)
      = .word (ch :: chars.takeWhile isIdentifierContinue)
        :: reading none (chars.dropWhile isIdentifierContinue) := by
  simp only [reading, readFrom, h, and_self, if_true]
  rw [readFrom_eq_drop, drop_length_takeWhile]
  rfl

theorem reading_char {quote : Quote} {ch : Char} (h : ¬ (quote = none ∧ isIdentifierStart ch))
    (chars : List Char) :
    reading quote (ch :: chars) = .char ch :: reading (quoteStep quote ch) chars := by
  simp only [reading, readFrom, if_neg h]

/-! ### The expansion is the text of its edits -/

/-- `expand_line` from within a literal. -/
@[grind =] def expandIn (defines : Defines) : Quote → List Char → List Char
  | none, chars => expandLine defines chars
  | some (quote, escaped), chars =>
      let literal := takeLiteral quote escaped chars
      literal ++ expandLine defines (chars.drop literal.length)

theorem expandFrom_eq_drop (defines : Defines) (skip : Nat) (chars : List Char) :
    expandFrom defines skip chars = expandLine defines (chars.drop skip) := by
  induction skip generalizing chars with
  | zero => rfl
  | succ skip ih =>
      cases chars with
      | nil => simp [expandFrom, expandLine]
      | cons ch chars => simp [expandFrom, ih]

theorem not_isIdentifierStart_of_quote {ch : Char} (h : ch = '"' ∨ ch = '\'') :
    isIdentifierStart ch = false := by
  rcases h with rfl | rfl <;> decide

theorem expandIn_nil (defines : Defines) (quote : Quote) : expandIn defines quote [] = [] := by
  cases quote <;> simp [expandIn, expandLine, expandFrom, takeLiteral]

theorem expandIn_word (defines : Defines) {ch : Char} (h : isIdentifierStart ch = true)
    (chars : List Char) :
    expandIn defines none (ch :: chars)
      = (defines (ch :: chars.takeWhile isIdentifierContinue)).getD
          (ch :: chars.takeWhile isIdentifierContinue)
        ++ expandIn defines none (chars.dropWhile isIdentifierContinue) := by
  have hquote : ¬ (ch = '"' ∨ ch = '\'') := by
    intro hq
    rw [not_isIdentifierStart_of_quote hq] at h
    cases h
  simp only [expandIn, expandLine, expandFrom, if_neg hquote, h, if_true]
  rw [expandFrom_eq_drop, drop_length_takeWhile]
  rfl

theorem expandIn_quote (defines : Defines) {ch : Char} (h : ch = '"' ∨ ch = '\'')
    (chars : List Char) :
    expandIn defines none (ch :: chars) = ch :: expandIn defines (some (ch, false)) chars := by
  simp only [expandIn, expandLine, expandFrom, if_pos h, List.cons_append]
  rw [expandFrom_eq_drop]
  rfl

theorem expandIn_char (defines : Defines) {quote : Quote} {ch : Char}
    (h : ¬ (quote = none ∧ isIdentifierStart ch)) (chars : List Char) :
    expandIn defines quote (ch :: chars) = ch :: expandIn defines (quoteStep quote ch) chars := by
  match quote with
  | none =>
      have hstart : ¬ isIdentifierStart ch = true := fun hs => h ⟨rfl, hs⟩
      by_cases hquote : ch = '"' ∨ ch = '\''
      · rw [expandIn_quote defines hquote, quoteStep, if_pos hquote]
      · simp [expandIn, expandLine, expandFrom, quoteStep, hquote, hstart]
  | some (quote, true) => simp [expandIn, takeLiteral, quoteStep]
  | some (quote, false) =>
      by_cases hslash : ch = '\\'
      · simp [expandIn, takeLiteral, quoteStep, hslash]
      · by_cases hclose : ch = quote
        · rw [quoteStep, if_neg hslash, if_pos hclose]
          simp only [expandIn, takeLiteral, Bool.false_eq_true, if_false, if_neg hslash,
            if_pos hclose]
          rfl
        · simp [expandIn, takeLiteral, quoteStep, hslash, hclose]

@[simp] theorem inserted_keeps (text : List Char) :
    (text.map Edit.keep).flatMap Edit.inserted = text := by
  induction text with
  | nil => rfl
  | cons ch text ih => simp [Edit.inserted, ih]

@[simp] theorem source_keeps (text : List Char) :
    (text.map Edit.keep).flatMap Edit.source = text := by
  induction text with
  | nil => rfl
  | cons ch text ih => simp [Edit.source, ih]

theorem expansion_word (defines : Defines) {ch : Char} (h : isIdentifierStart ch = true)
    (chars : List Char) :
    expansion defines none (ch :: chars)
      = (Reading.word (ch :: chars.takeWhile isIdentifierContinue)).edits defines
        ++ expansion defines none (chars.dropWhile isIdentifierContinue) := by
  rw [expansion, reading_word h]
  rfl

theorem expansion_char (defines : Defines) {quote : Quote} {ch : Char}
    (h : ¬ (quote = none ∧ isIdentifierStart ch)) (chars : List Char) :
    expansion defines quote (ch :: chars)
      = .keep ch :: expansion defines (quoteStep quote ch) chars := by
  rw [expansion, reading_char h]
  rfl

/-- A line is read word by word and character by character. -/
theorem reading_induction {P : Quote → List Char → Prop} (nil : ∀ quote, P quote [])
    (word : ∀ ch chars, isIdentifierStart ch = true →
      P none (chars.dropWhile isIdentifierContinue) → P none (ch :: chars))
    (char : ∀ quote ch chars, ¬ (quote = none ∧ isIdentifierStart ch) →
      P (quoteStep quote ch) chars → P quote (ch :: chars))
    (quote : Quote) (chars : List Char) : P quote chars := by
  induction hlen : chars.length using Nat.strongRecOn generalizing quote chars with
  | ind n ih =>
      match chars, hlen with
      | [], _ => exact nil quote
      | ch :: chars, hlen =>
          rw [List.length_cons] at hlen
          by_cases hword : quote = none ∧ isIdentifierStart ch
          · obtain ⟨rfl, hstart⟩ := hword
            have hdrop := (List.dropWhile_suffix isIdentifierContinue (l := chars)).length_le
            exact word ch chars hstart (ih _ (by omega) none _ rfl)
          · exact char quote ch chars hword (ih _ (by omega) _ chars rfl)

theorem expandIn_eq (defines : Defines) (quote : Quote) (chars : List Char) :
    expandIn defines quote chars = (expansion defines quote chars).flatMap Edit.inserted := by
  induction quote, chars using reading_induction with
  | nil quote => exact expandIn_nil defines quote
  | word ch chars hstart ih =>
      rw [expandIn_word defines hstart, expansion_word defines hstart, List.flatMap_append, ih]
      congr 1
      cases hname : defines (ch :: chars.takeWhile isIdentifierContinue) with
      | none => simp only [Reading.edits, hname, inserted_keeps, Option.getD_none]
      | some replacement => simp [Reading.edits, hname, Edit.inserted]
  | char quote ch chars hchar ih =>
      rw [expandIn_char defines hchar, expansion_char defines hchar, ih]
      rfl

/-- The edits are of the line, and the expansion is their text. -/
theorem expandLine_eq (defines : Defines) (line : List Char) :
    expandLine defines line = (expansion defines none line).flatMap Edit.inserted :=
  expandIn_eq defines none line

theorem source_edits_word (defines : Defines) (name : List Char) :
    ((Reading.word name).edits defines).flatMap Edit.source = name := by
  cases hname : defines name with
  | none => simp only [Reading.edits, hname, source_keeps]
  | some replacement => simp [Reading.edits, hname, Edit.source]

theorem expansion_source (defines : Defines) (quote : Quote) (chars : List Char) :
    (expansion defines quote chars).flatMap Edit.source = chars := by
  induction quote, chars using reading_induction with
  | nil quote => rfl
  | word ch chars hstart ih =>
      rw [expansion_word defines hstart, List.flatMap_append, ih, source_edits_word,
        List.cons_append, List.takeWhile_append_dropWhile]
  | char quote ch chars hchar ih =>
      rw [expansion_char defines hchar, List.flatMap_cons, ih]
      rfl

/-! ### Two texts in a row -/

/-- No identifier goes on from the one text into the other. -/
@[grind =] def Boundary (text rest : List Char) : Prop :=
  ∀ last next, text.getLast? = some last → rest.head? = some next →
    ¬ (isIdentifierContinue last = true ∧ isIdentifierContinue next = true)

/-- The quote that is open behind a text. -/
@[grind =] def quoteAfter (quote : Quote) (text : List Char) : Quote := text.foldl quoteStep quote

theorem isIdentifierContinue_of_start {ch : Char} (h : isIdentifierStart ch = true) :
    isIdentifierContinue ch = true := by
  simp only [isIdentifierStart, isIdentifierContinue, Char.isAlphanum, Bool.or_eq_true] at h ⊢
  tauto

theorem quoteAfter_identifier {text : List Char}
    (h : ∀ ch ∈ text, isIdentifierContinue ch = true) : quoteAfter none text = none := by
  induction text with
  | nil => rfl
  | cons ch text ih =>
      have hch := h ch (List.mem_cons_self ..)
      have hquote : ¬ (ch = '"' ∨ ch = '\'') := by
        rintro (rfl | rfl) <;> exact absurd hch (by decide)
      rw [quoteAfter, List.foldl_cons, quoteStep, if_neg hquote]
      exact ih fun c hc => h c (List.mem_cons_of_mem _ hc)

theorem Boundary.of_append (front : List Char) {text rest : List Char}
    (h : Boundary (front ++ text) rest) :
    Boundary text rest := by
  intro last next hlast hnext
  refine h last next ?_ hnext
  rw [List.getLast?_append, hlast]
  rfl

/-- With a boundary between them, two texts are read one after the other. -/
theorem reading_append (quote : Quote) (text rest : List Char) (h : Boundary text rest) :
    reading quote (text ++ rest) = reading quote text ++ reading (quoteAfter quote text) rest := by
  induction quote, text using reading_induction with
  | nil quote => rfl
  | word ch chars hstart ih =>
      have hsplit := List.takeWhile_append_dropWhile (p := isIdentifierContinue) (l := chars)
      have htail : Boundary (chars.dropWhile isIdentifierContinue) rest := by
        rw [← hsplit] at h
        exact Boundary.of_append (ch :: chars.takeWhile isIdentifierContinue) h
      have hquote : quoteAfter none (ch :: chars)
          = quoteAfter none (chars.dropWhile isIdentifierContinue) := by
        have hword : quoteAfter none (ch :: chars.takeWhile isIdentifierContinue) = none := by
          refine quoteAfter_identifier fun c hc => ?_
          rcases List.mem_cons.1 hc with rfl | hmore
          · exact isIdentifierContinue_of_start hstart
          · exact List.all_eq_true.1 List.all_takeWhile c hmore
        rw [quoteAfter] at hword
        conv_lhs => rw [← hsplit, ← List.cons_append, quoteAfter, List.foldl_append, hword]
        rfl
      rw [List.cons_append, reading_word hstart, reading_word hstart, hquote]
      by_cases hall : chars.dropWhile isIdentifierContinue = []
      · -- the word ends with the first text, since the second one starts elsewhere
        have hcontinue : ∀ c ∈ chars, isIdentifierContinue c = true :=
          List.dropWhile_eq_nil_iff.1 hall
        have hstop : rest.takeWhile isIdentifierContinue = [] ∧
            rest.dropWhile isIdentifierContinue = rest := by
          cases rest with
          | nil => exact ⟨rfl, rfl⟩
          | cons next rest =>
              have hlast : ∃ last, (ch :: chars).getLast? = some last :=
                ⟨_, List.getLast?_eq_some_getLast (List.cons_ne_nil ch chars)⟩
              obtain ⟨last, hlast⟩ := hlast
              have hmem := List.mem_of_getLast? hlast
              have hcontinues : isIdentifierContinue last = true := by
                rcases List.mem_cons.1 hmem with rfl | hmore
                · exact isIdentifierContinue_of_start hstart
                · exact hcontinue last hmore
              have hnext : ¬ isIdentifierContinue next = true :=
                fun hn => h last next hlast rfl ⟨hcontinues, hn⟩
              simp [hnext]
        rw [List.takeWhile_append_of_pos hcontinue, List.dropWhile_append_of_pos hcontinue,
          hstop.1, hstop.2, hall, List.append_nil, List.takeWhile_eq_self_iff.2 hcontinue]
        rfl
      · have htake : (chars ++ rest).takeWhile isIdentifierContinue
            = chars.takeWhile isIdentifierContinue := by
          rw [List.takeWhile_append, if_neg]
          intro hlength
          have hself := (List.takeWhile_prefix isIdentifierContinue).eq_of_length hlength
          exact hall (List.dropWhile_eq_nil_iff.2 (List.takeWhile_eq_self_iff.1 hself))
        have hdrop : (chars ++ rest).dropWhile isIdentifierContinue
            = chars.dropWhile isIdentifierContinue ++ rest := by
          rw [List.dropWhile_append, if_neg]
          simpa using hall
        rw [htake, hdrop, ih htail]
        rfl
  | char quote ch chars hchar ih =>
      rw [List.cons_append, reading_char hchar, reading_char hchar,
        ih (Boundary.of_append [ch] h)]
      rfl

/-! ## The line as the lexer reads it -/

/-- The lexical kinds of a line's text. -/
inductive PieceKind where
  | literal
  | comment
  | identifier
  | number
  | other
  deriving DecidableEq, Repr

/-- A piece of a line. -/
structure Piece where
  kind : PieceKind
  text : List Char
  deriving DecidableEq, Repr

/-- The rest of a block comment, with its end; `star` is what stands before. -/
@[grind =] def takeComment : Bool → List Char → List Char
  | _, [] => []
  | star, ch :: chars =>
      if star ∧ ch = '/' then [ch] else ch :: takeComment (ch = '*') chars

/-- `lex_number`; the sign of an exponent is part of the number. -/
@[grind =] def takeNumber (hexadecimal : Bool) : List Char → List Char
  | [] => []
  | ch :: chars =>
      if ch.isAlphanum ∨ ch = '_' ∨ ch = '.' then
        match chars with
        | [] => [ch]
        | sign :: more =>
            if (!hexadecimal ∧ (ch = 'e' ∨ ch = 'E')) ∧ (sign = '+' ∨ sign = '-')
                ∧ (more.head?.any Char.isDigit) then
              ch :: sign :: takeNumber hexadecimal more
            else ch :: takeNumber hexadecimal (sign :: more)
      else []

/-- What the lexer finds at the front of a text. -/
@[grind =] def pieceAt (ch : Char) (chars : List Char) : Piece :=
  if ch = '"' ∨ ch = '\'' then ⟨.literal, ch :: takeLiteral ch false chars⟩
  else if ch = '/' ∧ chars.head? = some '/' then ⟨.comment, ch :: chars⟩
  else if ch = '/' ∧ chars.head? = some '*' then
    ⟨.comment, '/' :: '*' :: takeComment false chars.tail⟩
  else if isIdentifierStart ch then ⟨.identifier, ch :: chars.takeWhile isIdentifierContinue⟩
  else if ch.isDigit ∨ (ch = '.' ∧ chars.head?.any Char.isDigit) then
    ⟨.number, takeNumber (ch = '0' ∧ (chars.head? = some 'x' ∨ chars.head? = some 'X'))
      (ch :: chars)⟩
  else ⟨.other, [ch]⟩

/-- `skip` characters belong to the piece before. -/
@[grind =] def piecesFrom : Nat → List Char → List Piece
  | _, [] => []
  | skip + 1, _ :: chars => piecesFrom skip chars
  | 0, ch :: chars =>
      let piece := pieceAt ch chars
      piece :: piecesFrom (piece.text.length - 1) chars

/-- The pieces of a line, which may start within a block comment. -/
@[grind =] def pieces (inComment : Bool) (line : List Char) : List Piece :=
  if inComment ∧ line ≠ [] then
    let comment := takeComment false line
    ⟨.comment, comment⟩ :: piecesFrom 0 (line.drop comment.length)
  else piecesFrom 0 line

/-! ### Pieces are cut at boundaries -/

/-- The text stands at the front, and no identifier goes on behind it. -/
def Cut (text chars : List Char) : Prop := ∃ rest, chars = text ++ rest ∧ Boundary text rest

theorem boundary_nil (text : List Char) : Boundary text [] := by
  intro last next _ hnext
  cases hnext

theorem boundary_of_last {text rest : List Char} {last : Char} (h : text.getLast? = some last)
    (hlast : isIdentifierContinue last = false) : Boundary text rest := by
  intro last' next hlast' _ hboth
  rw [h] at hlast'
  cases hlast'
  simp [hlast] at hboth

theorem boundary_of_next {text rest : List Char}
    (h : ∀ next, rest.head? = some next → isIdentifierContinue next = false) :
    Boundary text rest := by
  intro last next _ hnext hboth
  simp [h next hnext] at hboth

/-- A text that is closed by one character, or not at all. -/
theorem takeLiteral_cut (quote : Char) (escaped : Bool) (chars : List Char) :
    ∃ rest, chars = takeLiteral quote escaped chars ++ rest ∧
      (rest = [] ∨ (takeLiteral quote escaped chars).getLast? = some quote) := by
  induction chars generalizing escaped with
  | nil => exact ⟨[], rfl, .inl rfl⟩
  | cons ch chars ih =>
      have hgo : ∀ next, ∃ rest, ch :: chars = ch :: takeLiteral quote next chars ++ rest ∧
          (rest = [] ∨ (ch :: takeLiteral quote next chars).getLast? = some quote) := by
        intro next
        obtain ⟨rest, hrest, hlast⟩ := ih next
        refine ⟨rest, by rw [List.cons_append, ← hrest], hlast.imp_right fun hl => ?_⟩
        rw [List.getLast?_cons, hl]
        rfl
      simp only [takeLiteral]
      split_ifs with hescaped hslash hquote
      · exact hgo false
      · exact hgo true
      · exact ⟨chars, rfl, .inr (by simp [hquote])⟩
      · exact hgo false

theorem takeComment_cut (star : Bool) (chars : List Char) :
    ∃ rest, chars = takeComment star chars ++ rest ∧
      (rest = [] ∨ (takeComment star chars).getLast? = some '/') := by
  induction chars generalizing star with
  | nil => exact ⟨[], rfl, .inl rfl⟩
  | cons ch chars ih =>
      simp only [takeComment]
      split_ifs with hend
      · exact ⟨chars, rfl, .inr (by simp [hend.2])⟩
      · obtain ⟨rest, hrest, hlast⟩ := ih (ch = '*')
        refine ⟨rest, by rw [List.cons_append, ← hrest], hlast.imp_right fun hl => ?_⟩
        rw [List.getLast?_cons, hl]
        rfl

theorem takeNumber_cut (hexadecimal : Bool) (chars : List Char) :
    ∃ rest, chars = takeNumber hexadecimal chars ++ rest ∧
      ∀ next, rest.head? = some next → isIdentifierContinue next = false := by
  fun_induction takeNumber hexadecimal chars with
  | case1 => exact ⟨[], rfl, by simp⟩
  | case2 ch hch => exact ⟨[], rfl, by simp⟩
  | case3 ch hch sign more hsign ih =>
      obtain ⟨rest, hrest, hnext⟩ := ih
      exact ⟨rest, by simp [← hrest], hnext⟩
  | case4 ch hch sign more hsign ih =>
      obtain ⟨rest, hrest, hnext⟩ := ih
      exact ⟨rest, by rw [List.cons_append, ← hrest], hnext⟩
  | case5 ch chars hch =>
      refine ⟨ch :: chars, rfl, ?_⟩
      intro next hnext
      cases hnext
      simp only [isIdentifierContinue, Bool.or_eq_false_iff]
      constructor
      · simpa using fun hc => hch (.inl hc)
      · simpa using fun hc => hch (.inr (.inl hc))

theorem not_isIdentifierContinue_of_quote {ch : Char} (h : ch = '"' ∨ ch = '\'') :
    isIdentifierContinue ch = false := by
  rcases h with rfl | rfl <;> decide

theorem cut_of_closed (front : List Char) {text chars rest : List Char} {last : Char}
    (hlast : isIdentifierContinue last = false) (hchars : chars = text ++ rest)
    (hclosed : rest = [] ∨ (front ++ text).getLast? = some last) :
    Cut (front ++ text) (front ++ chars) := by
  refine ⟨rest, by rw [hchars, List.append_assoc], ?_⟩
  rcases hclosed with rfl | hclosed
  · exact boundary_nil _
  · exact boundary_of_last hclosed hlast

theorem head_dropWhile_false {p : Char → Bool} {chars : List Char} {next : Char}
    (h : (chars.dropWhile p).head? = some next) : p next = false := by
  have hnot := List.head?_dropWhile_not p chars
  rw [h] at hnot
  simpa using hnot

/-- A piece is a front of what is left of the line. -/
theorem pieceAt_cut (ch : Char) (chars : List Char) :
    Cut (pieceAt ch chars).text (ch :: chars) := by
  unfold pieceAt
  split_ifs with hquote hline hblock hstart hnumber
  · obtain ⟨rest, hrest, hlast⟩ := takeLiteral_cut ch false chars
    refine cut_of_closed [ch] (not_isIdentifierContinue_of_quote hquote) hrest
      (hlast.imp_right fun hl => ?_)
    rw [List.singleton_append, List.getLast?_cons, hl]
    rfl
  · exact ⟨[], by simp, boundary_nil _⟩
  · obtain ⟨rest, hrest, hlast⟩ := takeComment_cut false chars.tail
    have hchars : ch :: chars = ['/', '*'] ++ chars.tail := by
      cases chars with
      | nil => simp at hblock
      | cons star chars =>
          simp only [List.head?_cons, Option.some.injEq] at hblock
          rw [hblock.1, hblock.2]
          rfl
    rw [hchars]
    refine cut_of_closed ['/', '*'] (show isIdentifierContinue '/' = false by decide) hrest
      (hlast.imp_right fun hl => ?_)
    rw [List.getLast?_append, hl]
    rfl
  · refine ⟨chars.dropWhile isIdentifierContinue, by simp, boundary_of_next ?_⟩
    intro next hnext
    exact head_dropWhile_false hnext
  · obtain ⟨rest, hrest, hnext⟩ := takeNumber_cut
      (decide (ch = '0' ∧ (chars.head? = some 'x' ∨ chars.head? = some 'X'))) (ch :: chars)
    exact ⟨rest, hrest, boundary_of_next hnext⟩
  · refine ⟨chars, rfl, boundary_of_last (show [ch].getLast? = some ch from rfl) ?_⟩
    simp only [isIdentifierStart, Bool.or_eq_true, not_or] at hstart
    simp only [isIdentifierContinue, Char.isAlphanum, Bool.or_eq_false_iff]
    refine ⟨⟨by simpa using hstart.1, ?_⟩, by simpa using hstart.2⟩
    simpa using fun hdigit => hnumber (.inl hdigit)

theorem pieceAt_text_ne_nil (ch : Char) (chars : List Char) : (pieceAt ch chars).text ≠ [] := by
  unfold pieceAt
  split_ifs with hquote hline hblock hstart hnumber <;> try simp
  -- a number starts with a digit or a point
  cases chars with
  | nil =>
      rcases hnumber with hdigit | hpoint
      · simp [takeNumber, Char.isAlphanum, hdigit]
      · simp at hpoint
  | cons next chars =>
      have hfirst : ch.isAlphanum = true ∨ ch = '_' ∨ ch = '.' := by
        rcases hnumber with hdigit | hpoint
        · exact .inl (by simp [Char.isAlphanum, hdigit])
        · exact .inr (.inr hpoint.1)
      rw [takeNumber, if_pos hfirst]
      split <;> simp

/-- The text is one identifier. -/
def IsIdentifier (text : List Char) : Prop :=
  ∃ ch more, text = ch :: more ∧ isIdentifierStart ch = true ∧
    ∀ c ∈ more, isIdentifierContinue c = true

/-- The pieces are those of the text, cut at boundaries. -/
inductive Pieced : List Piece → List Char → Prop
  | nil : Pieced [] []
  | cons {piece : Piece} {rest : List Char} {more : List Piece}
      (nonempty : piece.text ≠ [])
      (boundary : Boundary piece.text rest)
      (identifier : piece.kind = .identifier → IsIdentifier piece.text)
      (behind : Pieced more rest) : Pieced (piece :: more) (piece.text ++ rest)

theorem pieceAt_identifier {ch : Char} {chars : List Char}
    (h : (pieceAt ch chars).kind = .identifier) : IsIdentifier (pieceAt ch chars).text := by
  unfold pieceAt at h ⊢
  split_ifs at h ⊢ with hquote hline hblock hstart hnumber
  exact ⟨ch, _, rfl, hstart, fun c hc => List.all_eq_true.1 List.all_takeWhile c hc⟩

theorem piecesFrom_eq_drop (skip : Nat) (chars : List Char) :
    piecesFrom skip chars = piecesFrom 0 (chars.drop skip) := by
  induction skip generalizing chars with
  | zero => rfl
  | succ skip ih =>
      cases chars with
      | nil => simp [piecesFrom]
      | cons ch chars =>
          rw [piecesFrom, ih]
          rfl

theorem piecesFrom_cons (ch : Char) (chars : List Char) :
    piecesFrom 0 (ch :: chars)
      = pieceAt ch chars :: piecesFrom 0 ((ch :: chars).drop (pieceAt ch chars).text.length) := by
  obtain ⟨len, hlen⟩ := Nat.exists_eq_succ_of_ne_zero
    (Nat.pos_iff_ne_zero.1 (List.length_pos_iff.2 (pieceAt_text_ne_nil ch chars)))
  rw [piecesFrom, piecesFrom_eq_drop, hlen]
  rfl

theorem piecesFrom_pieced (chars : List Char) : Pieced (piecesFrom 0 chars) chars := by
  induction hlen : chars.length using Nat.strongRecOn generalizing chars with
  | ind n ih =>
      match chars, hlen with
      | [], _ => exact .nil
      | ch :: chars, hlen =>
          obtain ⟨rest, hrest, hboundary⟩ := pieceAt_cut ch chars
          have hsome := List.length_pos_iff.2 (pieceAt_text_ne_nil ch chars)
          have hshorter : rest.length < n := by
            rw [← hlen, hrest, List.length_append]
            omega
          have hdrop : (ch :: chars).drop (pieceAt ch chars).text.length = rest := by
            rw [hrest, List.drop_left]
          rw [piecesFrom_cons, hdrop, hrest]
          exact .cons (pieceAt_text_ne_nil ch chars) hboundary pieceAt_identifier
            (ih _ hshorter rest rfl)

theorem takeComment_ne_nil {star : Bool} {chars : List Char} (h : chars ≠ []) :
    takeComment star chars ≠ [] := by
  cases chars with
  | nil => exact absurd rfl h
  | cons ch chars =>
      rw [takeComment]
      split <;> simp

theorem pieces_pieced (inComment : Bool) (line : List Char) :
    Pieced (pieces inComment line) line := by
  by_cases h : inComment = true ∧ line ≠ []
  · obtain ⟨rest, hrest, hlast⟩ := takeComment_cut false line
    have hboundary : Boundary (takeComment false line) rest := by
      rcases hlast with rfl | hlast
      · exact boundary_nil _
      · exact boundary_of_last hlast (by decide)
    have hdrop : line.drop (takeComment false line).length = rest := by
      generalize takeComment false line = comment at hrest ⊢
      rw [hrest, List.drop_left]
    have hpieced : Pieced (⟨.comment, takeComment false line⟩ :: piecesFrom 0 rest)
        (takeComment false line ++ rest) :=
      .cons (takeComment_ne_nil h.2) hboundary nofun (piecesFrom_pieced rest)
    simp only [pieces, if_pos h, hdrop]
    rwa [← hrest] at hpieced
  · rw [pieces, if_neg h]
    exact piecesFrom_pieced line

/-! ## Expansion that touches only code -/

/-- A replacement without its comments. -/
def withoutComments (replacement : List Char) : List Char :=
  ((pieces false replacement).filter (·.kind ≠ .comment)).flatMap Piece.text

/-- An identifier that names a define is replaced, everything else is kept. -/
@[grind =] def Piece.edits (defines : Defines) (piece : Piece) : List Edit :=
  match piece.kind, defines piece.text with
  | .identifier, some replacement => [.replace piece.text (withoutComments replacement)]
  | _, _ => piece.text.map .keep

/-- The edits that replace macros in code alone. -/
@[grind =] def codeExpansion (defines : Defines) (pieces : List Piece) : List Edit :=
  pieces.flatMap (Piece.edits defines)

/-- The replacement opens no comment. -/
def CommentFree (replacement : List Char) : Prop :=
  ∀ piece ∈ pieces false replacement, piece.kind ≠ .comment

/-- What a piece must be with the quotes open that `expand_line` believes to
be open there: an identifier that names a define stands outside them and is
replaced by a text without comments, and no other piece has a word outside
them that names one. -/
@[grind =] def PieceSound (defines : Defines) (quote : Quote) (piece : Piece) : Prop :=
  if piece.kind = .identifier then
    ∀ replacement, defines piece.text = some replacement →
      quote = none ∧ CommentFree replacement
  else ∀ name, .word name ∈ reading quote piece.text → defines name = none

def Sound (defines : Defines) : Quote → List Piece → Prop
  | _, [] => True
  | quote, piece :: pieces =>
      PieceSound defines quote piece ∧ Sound defines (quoteAfter quote piece.text) pieces

theorem Pieced.flatten {pieces : List Piece} {text : List Char} (h : Pieced pieces text) :
    pieces.flatMap Piece.text = text := by
  induction h with
  | nil => rfl
  | cons nonempty boundary identifier behind ih => rw [List.flatMap_cons, ih]

theorem Pieced.text_ne_nil {pieces : List Piece} {text : List Char} (h : Pieced pieces text) :
    ∀ piece ∈ pieces, piece.text ≠ [] := by
  induction h with
  | nil => simp
  | cons nonempty boundary identifier behind ih =>
      rw [List.forall_mem_cons]
      exact ⟨nonempty, ih⟩

theorem length_filter_flatMap_le (pieces : List Piece) :
    ((pieces.filter (·.kind ≠ .comment)).flatMap Piece.text).length
      ≤ (pieces.flatMap Piece.text).length := by
  induction pieces with
  | nil => exact Nat.le_refl _
  | cons piece pieces ih =>
      rw [List.filter_cons]
      split
      · simp only [List.flatMap_cons, List.length_append]
        omega
      · simp only [List.flatMap_cons, List.length_append]
        omega

/-- A comment that is left out leaves the text shorter. -/
theorem filter_flatMap_eq_iff {pieces : List Piece} (h : ∀ piece ∈ pieces, piece.text ≠ []) :
    pieces.flatMap Piece.text = (pieces.filter (·.kind ≠ .comment)).flatMap Piece.text
      ↔ ∀ piece ∈ pieces, piece.kind ≠ .comment := by
  induction pieces with
  | nil => simp
  | cons piece pieces ih =>
      rw [List.forall_mem_cons] at h
      rw [List.forall_mem_cons, ← ih h.2, List.filter_cons]
      by_cases hkind : piece.kind = .comment
      · have hshort := length_filter_flatMap_le pieces
        have hsome := List.length_pos_iff.2 h.1
        simp only [hkind, ne_eq, not_true_eq_false, decide_false, Bool.false_eq_true, if_false,
          false_and, iff_false]
        intro heq
        have hlen := congrArg List.length heq
        simp only [List.flatMap_cons, List.length_append, ne_eq] at hlen hshort
        omega
      · simp [hkind]

theorem withoutComments_eq_iff (replacement : List Char) :
    replacement = withoutComments replacement ↔ CommentFree replacement := by
  have hpieced := pieces_pieced false replacement
  rw [CommentFree, ← filter_flatMap_eq_iff hpieced.text_ne_nil, hpieced.flatten]
  rfl

/-! ### Edits of one piece -/

/-- Two lists of edits whose first parts are of the same text. -/
theorem edits_append_eq_iff {front front' : List Edit} (back back' : List Edit)
    (hfront : ∀ edit ∈ front, edit.source ≠ []) (hfront' : ∀ edit ∈ front', edit.source ≠ [])
    (hsource : front.flatMap Edit.source = front'.flatMap Edit.source) :
    front ++ back = front' ++ back' ↔ front = front' ∧ back = back' := by
  induction front generalizing front' with
  | nil =>
      cases front' with
      | nil => simp
      | cons edit' front' =>
          have hsome := hfront' edit' (List.mem_cons_self ..)
          simp [hsome] at hsource
  | cons edit front ih =>
      rw [List.forall_mem_cons] at hfront
      cases front' with
      | nil => simp [hfront.1] at hsource
      | cons edit' front' =>
          rw [List.forall_mem_cons] at hfront'
          constructor
          · intro heq
            rw [List.cons_append, List.cons_append, List.cons.injEq] at heq
            obtain ⟨rfl, heq⟩ := heq
            rw [List.flatMap_cons, List.flatMap_cons, List.append_cancel_left_eq] at hsource
            obtain ⟨rfl, rfl⟩ := (ih hfront.2 hfront'.2 hsource).1 heq
            exact ⟨rfl, rfl⟩
          · rintro ⟨hsame, rfl⟩
            rw [hsame]

theorem source_ne_nil_of_mem_keeps {text : List Char} {edit : Edit}
    (h : edit ∈ text.map Edit.keep) : edit.source ≠ [] := by
  obtain ⟨ch, -, rfl⟩ := List.mem_map.1 h
  simp [Edit.source]

theorem source_ne_nil_of_mem_edits {defines : Defines} {ch : Char} {more : List Char} {edit : Edit}
    (h : edit ∈ (Reading.word (ch :: more)).edits defines) : edit.source ≠ [] := by
  cases hname : defines (ch :: more) with
  | none =>
      simp only [Reading.edits, hname] at h
      exact source_ne_nil_of_mem_keeps h
  | some replacement =>
      simp only [Reading.edits, hname, List.mem_singleton] at h
      rw [h]
      simp [Edit.source]

theorem edits_word_eq_keeps_iff (defines : Defines) {ch : Char} {more : List Char} :
    (Reading.word (ch :: more)).edits defines = (ch :: more).map .keep
      ↔ defines (ch :: more) = none := by
  cases hname : defines (ch :: more) with
  | none => simp [Reading.edits, hname]
  | some replacement => simp [Reading.edits, hname]

theorem source_ne_nil_of_mem_expansion {defines : Defines} {quote : Quote} {chars : List Char} :
    ∀ edit ∈ expansion defines quote chars, edit.source ≠ [] := by
  induction quote, chars using reading_induction with
  | nil quote => simp [expansion]
  | word ch chars hstart ih =>
      intro edit hedit
      rw [expansion_word defines hstart, List.mem_append] at hedit
      rcases hedit with hedit | hedit
      · exact source_ne_nil_of_mem_edits hedit
      · exact ih edit hedit
  | char quote ch chars hchar ih =>
      rw [expansion_char defines hchar, List.forall_mem_cons]
      exact ⟨by simp [Edit.source], ih⟩

/-- Everything is kept exactly if no word that is read names a define. -/
theorem expansion_eq_keeps_iff (defines : Defines) (quote : Quote) (chars : List Char) :
    expansion defines quote chars = chars.map .keep
      ↔ ∀ name, .word name ∈ reading quote chars → defines name = none := by
  induction quote, chars using reading_induction with
  | nil quote => simp [expansion]
  | word ch chars hstart ih =>
      have hsplit : (ch :: chars).map Edit.keep
          = (ch :: chars.takeWhile isIdentifierContinue).map .keep
            ++ (chars.dropWhile isIdentifierContinue).map .keep := by
        rw [← List.map_append, List.cons_append, List.takeWhile_append_dropWhile]
      have happend := edits_append_eq_iff
        (expansion defines none (chars.dropWhile isIdentifierContinue))
        ((chars.dropWhile isIdentifierContinue).map .keep)
        (fun edit => source_ne_nil_of_mem_edits)
        (fun edit hedit => source_ne_nil_of_mem_keeps hedit)
        ((source_edits_word defines (ch :: chars.takeWhile isIdentifierContinue)).trans
          (source_keeps _).symm)
      rw [expansion_word defines hstart, hsplit, happend, ih, edits_word_eq_keeps_iff,
        reading_word hstart]
      constructor
      · rintro ⟨hword, hrest⟩ name hname
        rcases List.mem_cons.1 hname with heq | hmem
        · cases heq
          exact hword
        · exact hrest name hmem
      · intro h
        exact ⟨h _ (List.mem_cons_self ..), fun name hname => h name (List.mem_cons_of_mem _ hname)⟩
  | char quote ch chars hchar ih =>
      rw [expansion_char defines hchar, List.map_cons, List.cons_inj_right, ih,
        reading_char hchar]
      simp

theorem reading_identifier {text : List Char} (h : IsIdentifier text) :
    reading none text = [.word text] := by
  obtain ⟨ch, more, rfl, hstart, hmore⟩ := h
  rw [reading_word hstart, List.takeWhile_eq_self_iff.2 hmore, List.dropWhile_eq_nil_iff.2 hmore]
  rfl

/-- Within quotes an identifier is a text like any other. -/
theorem reading_quoted {text : List Char} (h : ∀ ch ∈ text, isIdentifierContinue ch = true)
    {quote : Char} (hquote : quote = '"' ∨ quote = '\'') (escaped : Bool) :
    ∀ name, .word name ∉ reading (some (quote, escaped)) text := by
  induction text generalizing escaped with
  | nil => simp
  | cons ch text ih =>
      rw [List.forall_mem_cons] at h
      have hch : ch ≠ quote := by
        rintro rfl
        rw [not_isIdentifierContinue_of_quote hquote] at h
        exact absurd h.1 (by decide)
      have hstep : ∃ escaped', quoteStep (some (quote, escaped)) ch = some (quote, escaped') := by
        cases escaped with
        | true => exact ⟨false, rfl⟩
        | false =>
            rw [quoteStep, if_neg hch]
            split
            · exact ⟨true, rfl⟩
            · exact ⟨false, rfl⟩
      obtain ⟨escaped', hstep⟩ := hstep
      intro name hname
      rw [reading_char (by simp), hstep, List.mem_cons] at hname
      rcases hname with heq | hmem
      · cases heq
      · exact ih h.2 escaped' name hmem

/-- The open quote is one of the two. -/
def Quote.Valid (quote : Quote) : Prop :=
  ∀ ch escaped, quote = some (ch, escaped) → ch = '"' ∨ ch = '\''

theorem Quote.valid_none : Quote.Valid none := by
  intro ch escaped heq
  cases heq

theorem quoteStep_valid {quote : Quote} (h : quote.Valid) (ch : Char) :
    (quoteStep quote ch).Valid := by
  intro q escaped heq
  match quote, h with
  | none, _ =>
      rw [quoteStep] at heq
      split at heq
      · cases heq
        assumption
      · cases heq
  | some (q', true), h =>
      cases heq
      exact h _ _ rfl
  | some (q', false), h =>
      rw [quoteStep] at heq
      split_ifs at heq <;> cases heq <;> exact h _ _ rfl

theorem quoteAfter_valid {quote : Quote} (h : quote.Valid) (text : List Char) :
    (quoteAfter quote text).Valid := by
  induction text generalizing quote with
  | nil => exact h
  | cons ch text ih => exact ih (quoteStep_valid h ch)

theorem IsIdentifier.all_continue {text : List Char} (h : IsIdentifier text) :
    ∀ ch ∈ text, isIdentifierContinue ch = true := by
  obtain ⟨ch, more, rfl, hstart, hmore⟩ := h
  rw [List.forall_mem_cons]
  exact ⟨isIdentifierContinue_of_start hstart, hmore⟩

/-- A piece of a line is expanded as the macros edit it exactly when it is sound: a case per
kind of piece. -/
theorem piece_expansion_eq_iff (defines : Defines) {quote : Quote} (hquote : quote.Valid)
    {piece : Piece} (hpiece : piece.kind = .identifier → IsIdentifier piece.text) :
    expansion defines quote piece.text = piece.edits defines
      ↔ PieceSound defines quote piece := by
  by_cases hkind : piece.kind = .identifier
  · have hidentifier := hpiece hkind
    simp only [PieceSound, if_pos hkind]
    match quote, hquote with
    | none, _ =>
        -- outside a literal an identifier is a word of its own
        have hreading := reading_identifier hidentifier
        cases hname : defines piece.text with
        | none => simp [expansion, hreading, Piece.edits, Reading.edits, hkind, hname]
        | some replacement =>
            simp [expansion, hreading, Piece.edits, Reading.edits, hkind, hname,
              withoutComments_eq_iff]
    | some (q, escaped), hquote =>
        -- inside a literal it is kept
        have hkept : expansion defines (some (q, escaped)) piece.text
            = piece.text.map .keep := by
          rw [expansion_eq_keeps_iff]
          intro name hname
          exact absurd hname
            (reading_quoted hidentifier.all_continue (hquote q escaped rfl) escaped name)
        rw [hkept]
        obtain ⟨ch, more, htext, -, -⟩ := hidentifier
        cases hname : defines piece.text with
        | none => simp [Piece.edits, hkind, hname]
        | some replacement =>
            have hedits : piece.edits defines
                = [.replace piece.text (withoutComments replacement)] := by
              simp [Piece.edits, hkind, hname]
            simp [hedits, htext]
  · have hedits : piece.edits defines = piece.text.map .keep := by
      unfold Piece.edits
      split
      · exact absurd ‹_› hkind
      · rfl
    rw [hedits, expansion_eq_keeps_iff, PieceSound, if_neg hkind]

theorem source_ne_nil_of_mem_piece {defines : Defines} {piece : Piece} (h : piece.text ≠ [])
    {edit : Edit} (hedit : edit ∈ piece.edits defines) : edit.source ≠ [] := by
  unfold Piece.edits at hedit
  split at hedit
  · rw [List.mem_singleton.1 hedit]
    exact h
  · exact source_ne_nil_of_mem_keeps hedit

theorem source_piece_edits (defines : Defines) (piece : Piece) :
    (piece.edits defines).flatMap Edit.source = piece.text := by
  unfold Piece.edits
  split
  · simp [Edit.source]
  · exact source_keeps _

/-! ### Edits of a line -/

theorem expansion_append (defines : Defines) (quote : Quote) {text rest : List Char}
    (h : Boundary text rest) :
    expansion defines quote (text ++ rest)
      = expansion defines quote text ++ expansion defines (quoteAfter quote text) rest := by
  rw [expansion, reading_append quote text rest h, List.flatMap_append]
  rfl

theorem expansion_eq_iff (defines : Defines) {quote : Quote} (hquote : quote.Valid)
    {pieces : List Piece} {chars : List Char} (h : Pieced pieces chars) :
    expansion defines quote chars = codeExpansion defines pieces
      ↔ Sound defines quote pieces := by
  induction h generalizing quote with
  | nil => simp [expansion, codeExpansion, Sound]
  | @cons piece rest more nonempty boundary identifier behind ih =>
      have hsource : (expansion defines quote piece.text).flatMap Edit.source
          = (piece.edits defines).flatMap Edit.source := by
        rw [expansion_source, source_piece_edits]
      rw [expansion_append defines quote boundary, codeExpansion, List.flatMap_cons,
        edits_append_eq_iff _ _ source_ne_nil_of_mem_expansion
          (fun edit hedit => source_ne_nil_of_mem_piece nonempty hedit) hsource,
        piece_expansion_eq_iff defines hquote identifier, Sound]
      exact and_congr_right fun _ => ih (quoteAfter_valid hquote _)

/-- **Expansion touches only code exactly on sound lines**: the text that
`expand_line` leaves is that of its edits, and these are the replacements of
the identifiers that name a define, each by its tokens, iff the line is sound. -/
theorem expandLine_touchesOnlyCode_iff (defines : Defines) (inComment : Bool)
    (line : List Char) :
    expandLine defines line = (expansion defines none line).flatMap Edit.inserted ∧
    (expansion defines none line).flatMap Edit.source = line ∧
    (expansion defines none line = codeExpansion defines (pieces inComment line)
      ↔ Sound defines none (pieces inComment line)) :=
  ⟨expandLine_eq defines line, expansion_source defines none line,
    expansion_eq_iff defines Quote.valid_none (pieces_pieced inComment line)⟩

/-- The comment behind a `#define` goes into the line; a name in a comment is
replaced; behind an apostrophe in a comment no name is. -/
theorem not_expandLine_touchesOnlyCode :
    ∃ defines, defineMacro (fun _ => none) "N 5 // five".toList 1 = .ok defines ∧
      expandLine defines "N;".toList = "5 // five;".toList ∧
      expansion defines none "N;".toList ≠ codeExpansion defines (pieces false "N;".toList) ∧
      expandLine defines "/*N*/".toList = "/*5 // five*/".toList ∧
      expansion defines none "/*N*/".toList
        ≠ codeExpansion defines (pieces false "/*N*/".toList) ∧
      expandLine defines "/*'*/N".toList = "/*'*/N".toList ∧
      expansion defines none "/*'*/N".toList
        ≠ codeExpansion defines (pieces false "/*'*/N".toList) := by
  refine ⟨_, rfl, ?_⟩
  decide

end GovFuzz.IdlParser
