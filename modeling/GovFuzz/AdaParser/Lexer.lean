import GovFuzz.AdaParser.Token
import GovFuzz.Runtrace.Readers

/-!
# Ada parser — the lexer

`lex` of `crates/ada_parser/src/lexer.rs`.  The lexer is a cursor in the
source: what is left of it, the byte it stands at, and a line and a column
that are counted on their own.  Every scanner takes the cursor at the start of
a token and gives the kind of the token and the cursor behind it.
-/

namespace GovFuzz.AdaParser

open GovFuzz.Runtrace (isWhitespace)

/-- The editions of the language. -/
inductive AdaStandard where
  | ada83
  | ada95
  | ada2005
  | ada2012
  | ada2022
  deriving DecidableEq, Repr

/-- The standards in their order. -/
def AdaStandard.rank : AdaStandard → Nat
  | ada83 => 0
  | ada95 => 1
  | ada2005 => 2
  | ada2012 => 3
  | ada2022 => 4

/-- The words of `keyword_or_identifier`, with the first standard that
reserves them. -/
def keywords : List (String × TokenKind × AdaStandard) :=
  [("abort", .kwAbort, .ada83), ("abs", .kwAbs, .ada83), ("accept", .kwAccept, .ada83),
    ("access", .kwAccess, .ada83), ("all", .kwAll, .ada83), ("and", .kwAnd, .ada83),
    ("array", .kwArray, .ada83), ("at", .kwAt, .ada83), ("begin", .kwBegin, .ada83),
    ("body", .kwBody, .ada83), ("case", .kwCase, .ada83), ("constant", .kwConstant, .ada83),
    ("declare", .kwDeclare, .ada83), ("delay", .kwDelay, .ada83), ("delta", .kwDelta, .ada83),
    ("digits", .kwDigits, .ada83), ("do", .kwDo, .ada83), ("else", .kwElse, .ada83),
    ("elsif", .kwElsif, .ada83), ("end", .kwEnd, .ada83), ("entry", .kwEntry, .ada83),
    ("exception", .kwException, .ada83), ("exit", .kwExit, .ada83), ("for", .kwFor, .ada83),
    ("function", .kwFunction, .ada83), ("generic", .kwGeneric, .ada83), ("goto", .kwGoto, .ada83),
    ("if", .kwIf, .ada83), ("in", .kwIn, .ada83), ("is", .kwIs, .ada83),
    ("limited", .kwLimited, .ada83), ("loop", .kwLoop, .ada83), ("mod", .kwMod, .ada83),
    ("new", .kwNew, .ada83), ("not", .kwNot, .ada83), ("null", .kwNull, .ada83),
    ("of", .kwOf, .ada83), ("or", .kwOr, .ada83), ("others", .kwOthers, .ada83),
    ("out", .kwOut, .ada83), ("package", .kwPackage, .ada83), ("pragma", .kwPragma, .ada83),
    ("private", .kwPrivate, .ada83), ("procedure", .kwProcedure, .ada83),
    ("protected", .kwProtected, .ada83), ("raise", .kwRaise, .ada83), ("range", .kwRange, .ada83),
    ("record", .kwRecord, .ada83), ("rem", .kwRem, .ada83), ("renames", .kwRenames, .ada83),
    ("requeue", .kwRequeue, .ada83), ("return", .kwReturn, .ada83),
    ("reverse", .kwReverse, .ada83), ("select", .kwSelect, .ada83),
    ("separate", .kwSeparate, .ada83), ("subtype", .kwSubtype, .ada83),
    ("tagged", .kwTagged, .ada83), ("task", .kwTask, .ada83), ("terminate", .kwTerminate, .ada83),
    ("then", .kwThen, .ada83), ("type", .kwType, .ada83), ("until", .kwUntil, .ada83),
    ("use", .kwUse, .ada83), ("when", .kwWhen, .ada83), ("while", .kwWhile, .ada83),
    ("with", .kwWith, .ada83), ("xor", .kwXor, .ada83), ("abstract", .kwAbstract, .ada83),
    ("aliased", .kwAliased, .ada83), ("interface", .kwInterface, .ada2005),
    ("overriding", .kwOverriding, .ada2005), ("synchronized", .kwSynchronized, .ada2005),
    ("some", .kwSome, .ada2012), ("parallel", .kwParallel, .ada2022)]

/-- A word that is reserved in the dialect, or a name. -/
def keywordOrIdentifier (word : String) (dialect : AdaStandard) : TokenKind :=
  match keywords.find? fun (keyword, _, since) => keyword = word ∧ since.rank ≤ dialect.rank with
  | some (_, kind, _) => kind
  | none => .identifier word

/-! ## Characters -/

/-- A letter. -/
def isIdentifierStart (ch : Char) : Bool := ch.isAlpha

/-- A letter, a digit or an underscore. -/
def isIdentifierContinue (ch : Char) : Bool := ch.isAlphanum || ch = '_'

/-- The punctuation that ends a malformed literal. -/
def isResyncPunctuation (ch : Char) : Bool :=
  ch ∈ ['(', ')', ';', ',', ':', '=', '.', '<', '>', '/', '*', '+', '-', '&', '\'', '"']

def isDigitOrUnderscore (ch : Char) : Bool := ch.isDigit || ch = '_'

/-- What `resync_wordish` goes over. -/
def isWordish (ch : Char) : Bool := !isWhitespace ch && !isResyncPunctuation ch

def isExponentMark (ch : Char) : Bool := ch = 'e' || ch = 'E'

def isSign (ch : Char) : Bool := ch = '+' || ch = '-'

/-! ## What the scanners decide by, and their errors -/

/-- The token of a based literal that does not close. -/
def malformedBasedLiteral : TokenKind := .error "malformed based literal"

/-- The value of digits with underscores between them. -/
def decimalValue (text : List Char) : Nat :=
  (text.filter (· ≠ '_')).foldl (fun value ch => 10 * value + (ch.toNat - '0'.toNat)) 0

/-- `base_text.parse::<u32>()`, and the test of the base. -/
def validBase (text : List Char) : Bool :=
  decide (text.filter (· ≠ '_') ≠ [] ∧ decimalValue text < 4294967296 ∧
    2 ≤ decimalValue text ∧ decimalValue text ≤ 16)

/-- Behind a name or a closing bracket, `'` is a tick. -/
def apostropheIsAttributeMarker (lastSignificant : Option TokenKind) : Bool :=
  match lastSignificant with
  | some (.identifier _) => true
  | some .rParen => true
  | some .kwAll => true
  | some .tick => true
  | _ => false

/-- `character_literal_candidate`, behind the opening apostrophe. -/
def characterLiteralCandidate : List Char → Option Char
  | literal :: '\'' :: _ => if literal = '\n' ∨ literal = '\'' then none else some literal
  | _ => none

/-- The token of a string that the line ends in. -/
def unterminatedString : TokenKind := .error "unterminated string literal"

/-- The token of a character no element starts with. -/
def unexpectedCharacter (ch : Char) : TokenKind :=
  .error ("unexpected character '" ++ ch.toString ++ "'")

/-! ## The cursor -/

/-- Counters are `u32`. -/
def wrapU32 (n : Nat) : Nat := n % 4294967296

/-- The text ahead and the position reached. -/
structure Cursor where
  rest : List Char
  position : Nat
  line : Nat
  col : Nat
  deriving DecidableEq, Repr

namespace Cursor

def peekChar (c : Cursor) : Option Char := c.rest.head?

def peekNextChar (c : Cursor) : Option Char := c.rest.tail.head?

/-- Over one character; a line end starts a new line. -/
def bump (c : Cursor) : Cursor :=
  match c.rest with
  | [] => c
  | ch :: rest =>
      { rest := rest
        position := c.position + ch.utf8Size
        line := if ch = '\n' then wrapU32 (c.line + 1) else c.line
        col := if ch = '\n' then 1 else wrapU32 (c.col + 1) }

/-- The loop over the characters ahead, `chars`. -/
def bumpThrough (p : Char → Bool) : List Char → Cursor → Cursor
  | [], c => c
  | ch :: chars, c => if p ch then bumpThrough p chars c.bump else c

/-- Over the characters that pass. -/
def bumpWhile (p : Char → Bool) (c : Cursor) : Cursor := bumpThrough p c.rest c

/-- Over digits and underscores. -/
def consumeDecimalDigits (c : Cursor) : Cursor := c.bumpWhile isDigitOrUnderscore

/-- Over what is left of a malformed literal. -/
def resyncWordish (c : Cursor) : Cursor := c.bumpWhile isWordish

/-- The source between two cursors. -/
def slice (start c : Cursor) : List Char := start.rest.take (start.rest.length - c.rest.length)

/-! ## The scanners -/

/-- To the end of the line. -/
def scanComment (c : Cursor) : TokenKind × Cursor :=
  let content := c.bump.bump
  let behind := content.bumpWhile (· ≠ '\n')
  (.comment (String.ofList (content.slice behind)), behind)

/-- A word, compared in lower case. -/
def scanIdentifierOrKeyword (dialect : AdaStandard) (c : Cursor) : TokenKind × Cursor :=
  let behind := c.bump.bumpWhile isIdentifierContinue
  let canonical := String.ofList ((c.slice behind).map Char.toLower)
  (keywordOrIdentifier canonical dialect, behind)

/-- An exponent, if one is here; without digits the cursor is put back, but
for its column. -/
def scanExponent (c : Cursor) : Bool × Cursor :=
  if c.peekChar.any isExponentMark then
    let signed := if c.bump.peekChar.any isSign then c.bump.bump else c.bump
    let behind := signed.consumeDecimalDigits
    if behind.position = signed.position then
      (false, { behind with rest := c.rest, position := c.position })
    else (true, behind)
  else (false, c)

/-- From the number sign on; `start` is the start of the literal. -/
def scanBasedLiteral (start c : Cursor) : TokenKind × Cursor :=
  let digits := c.bump
  let behind := digits.bumpWhile fun ch => ch ≠ '#' && isWordish ch
  if !validBase (start.slice c) ∨ behind.position = digits.position
      ∨ behind.peekChar ≠ some '#' then
    (malformedBasedLiteral, behind.resyncWordish)
  else
    let behind := behind.bump.scanExponent.2
    (.basedLiteral (String.ofList (start.slice behind)), behind)

/-- A fraction, if one is here; the point of a range is none. -/
def scanFraction (c : Cursor) : Bool × Cursor :=
  if c.peekChar = some '.' ∧ c.peekNextChar ≠ some '.' ∧ c.peekNextChar.any Char.isDigit then
    (true, c.bump.consumeDecimalDigits)
  else (false, c)

/-- A literal, based when `#` follows the digits. -/
def scanNumber (start : Cursor) : TokenKind × Cursor :=
  let c := start.consumeDecimalDigits
  if c.peekChar = some '#' then scanBasedLiteral start c
  else
    let (point, c) := c.scanFraction
    let (exponent, c) := c.scanExponent
    let text := String.ofList (start.slice c)
    (if point || exponent then .realLiteral text else .intLiteral text, c)

/-- The loop of `scan_string` over the characters ahead. -/
def stringThrough : List Char → List Char → Cursor → TokenKind × Cursor
  | [], _, c => (unterminatedString, c)
  | ch :: chars, content, c =>
      if ch = '"' then
        match chars with
        | '"' :: chars => stringThrough chars (content ++ ['"']) c.bump.bump
        | _ => (.stringLiteral (String.ofList content), c.bump)
      else if ch = '\n' then (unterminatedString, c)
      else stringThrough chars (content ++ [ch]) c.bump

/-- A string; two quotes are one. -/
def scanString (c : Cursor) : TokenKind × Cursor := stringThrough c.bump.rest [] c.bump

/-- A tick or a character literal. -/
def scanApostrophe (lastSignificant : Option TokenKind) (c : Cursor) : TokenKind × Cursor :=
  if apostropheIsAttributeMarker lastSignificant then (.tick, c.bump)
  else match characterLiteralCandidate c.rest.tail with
    | none => (.tick, c.bump)
    | some literal => (.charLiteral literal, c.bump.bump.bump)

/-- Of one character, or of two if the second is ahead. -/
def oneOrTwo (c : Cursor) (one : TokenKind) (second : Char) (two : TokenKind) :
    TokenKind × Cursor :=
  if c.bump.peekChar = some second then (two, c.bump.bump) else (one, c.bump)

/-- A delimiter, or an error for anything else. -/
def scanPunctuationOrError (ch : Char) (c : Cursor) : TokenKind × Cursor :=
  match ch with
  | '(' => (.lParen, c.bump)
  | ')' => (.rParen, c.bump)
  | ';' => (.semicolon, c.bump)
  | ',' => (.comma, c.bump)
  | ':' => c.oneOrTwo .colon '=' .assign
  | '=' => c.oneOrTwo .eq '>' .arrow
  | '.' => c.oneOrTwo .dot '.' .dotDot
  | '<' => if c.bump.peekChar = some '>' then (.box, c.bump.bump) else c.oneOrTwo .lt '=' .le
  | '>' => c.oneOrTwo .gt '=' .ge
  | '/' => c.oneOrTwo .slash '=' .neq
  | '*' => c.oneOrTwo .star '*' .doubleStar
  | '+' => (.plus, c.bump)
  | '-' => (.minus, c.bump)
  | '&' => (.ampersand, c.bump)
  | ch => (unexpectedCharacter ch, c.bump)

/-- The branch of the loop of `lex` for a character that is not whitespace. -/
def scan (dialect : AdaStandard) (lastSignificant : Option TokenKind) (ch : Char) (c : Cursor) :
    TokenKind × Cursor :=
  if ch = '-' ∧ c.peekNextChar = some '-' then c.scanComment
  else if ch = '"' then c.scanString
  else if ch = '\'' then c.scanApostrophe lastSignificant
  else if ch.isDigit then c.scanNumber
  else if isIdentifierStart ch then c.scanIdentifierOrKeyword dialect
  else c.scanPunctuationOrError ch

end Cursor

/-! ## The loop -/

/-- `push_token`. -/
def tokenAt (kind : TokenKind) (start stop : Cursor) : Token where
  kind := kind
  effectiveKind := kind
  textSpan := ⟨wrapU32 start.position, wrapU32 stop.position⟩
  line := start.line
  col := start.col

/-- Comments are not significant. -/
def nextSignificant (lastSignificant : Option TokenKind) (kind : TokenKind) : Option TokenKind :=
  match kind with
  | .comment _ => lastSignificant
  | .eof => lastSignificant
  | kind => some kind

/-- The loop of `lex`, for this many rounds at most. -/
def lexFrom (dialect : AdaStandard) : Nat → Option TokenKind → Cursor → Option (List Token)
  | 0, _, _ => none
  | rounds + 1, lastSignificant, c =>
      match c.rest with
      | [] => some [tokenAt .eof c c]
      | ch :: _ =>
          if isWhitespace ch then lexFrom dialect rounds lastSignificant c.bump
          else
            let (kind, behind) := c.scan dialect lastSignificant ch
            (lexFrom dialect rounds (nextSignificant lastSignificant kind) behind).map
              (tokenAt kind c behind :: ·)

/-- The cursor in front of a source. -/
def Cursor.start (source : List Char) : Cursor := ⟨source, 0, 1, 1⟩

/-- The tokens of a source. -/
def lex (source : List Char) (dialect : AdaStandard) : Option (List Token) :=
  lexFrom dialect (source.length + 1) none (Cursor.start source)

end GovFuzz.AdaParser
