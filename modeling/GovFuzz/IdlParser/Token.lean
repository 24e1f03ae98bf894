import Mathlib.Data.List.Basic

/-!
# IDL parser — tokens

`Token` of `crates/idl_parser/src/lexer.rs`, and how `Parser` of `parser.rs`
looks at the tokens in front of it.  The position of the parser is the list
of the tokens that are left; the last token is the end, which is never taken.
-/

namespace GovFuzz.IdlParser

structure Span where
  start : Nat
  stop : Nat
  line : Nat
  column : Nat
  deriving DecidableEq, Repr

inductive TokenKind where
  | identifier
  | number
  | stringLiteral
  | punctuation
  | endOfInput
  deriving DecidableEq, Repr

structure Token where
  kind : TokenKind
  text : List Char
  span : Span
  deriving DecidableEq, Repr

def Span.begin : Span := ⟨0, 0, 1, 1⟩

def endToken : Token := ⟨.endOfInput, [], .begin⟩

def peek (tokens : List Token) : Token := tokens.headD endToken

def atEnd (tokens : List Token) : Bool := (peek tokens).kind = .endOfInput

def bump (tokens : List Token) : List Token := if atEnd tokens then tokens else tokens.tail

@[simp] theorem peek_cons (token : Token) (tokens : List Token) :
    peek (token :: tokens) = token := rfl

theorem bump_cons {token : Token} (h : token.kind ≠ .endOfInput) (tokens : List Token) :
    bump (token :: tokens) = tokens := by
  simp [bump, atEnd, h]

/-- `lex_string` from behind the opening quote: the text up to the closing
quote, and what is behind it. -/
def lexString (quote : Char) : Bool → List Char → Option (List Char × List Char)
  | _, [] => none
  | escaped, ch :: chars =>
      let goOn := fun escaped => (lexString quote escaped chars).map fun (text, rest) =>
        (ch :: text, rest)
      if escaped then goOn false
      else if ch = '\\' then goOn true
      else if ch = quote then some ([ch], chars)
      else goOn false

/-- The text of a literal token with this quote. -/
def IsLiteralText (quote : Char) (text : List Char) : Prop :=
  ∃ chars rest behind, lexString quote false chars = some (rest, behind) ∧ text = quote :: rest

end GovFuzz.IdlParser
