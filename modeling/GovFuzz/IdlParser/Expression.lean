import GovFuzz.Lib.Tokens
import GovFuzz.Runtrace.Readers
import Mathlib.Algebra.GroupWithZero.Nat

/-!
# IDL parser — `#if` expressions

`eval_if_expression` of `crates/idl_parser/src/preprocessor.rs`: a lexer and
a parser that evaluates while it parses.  `value || self.parse_and()?` does
not call `parse_and` once `value` is true, so the tokens of that operand are
not consumed.
-/

namespace GovFuzz.IdlParser

open GovFuzz.Lib
open GovFuzz.Runtrace (isWhitespace trim)

/-- `HashMap<String, String>`. -/
abbrev Defines := List Char → Option (List Char)

/-- The tokens of a condition. -/
inductive ExprToken where
  | ident (name : List Char)
  | number (value : Int)
  | defined
  | not
  | and
  | or
  | lParen
  | rParen
  deriving DecidableEq, Repr

/-- `{token:?}`. -/
def ExprToken.debug : ExprToken → String
  | .ident name => "Ident(\"" ++ String.ofList name ++ "\")"
  | .number value => "Number(" ++ toString value ++ ")"
  | .defined => "Defined"
  | .not => "Not"
  | .and => "And"
  | .or => "Or"
  | .lParen => "LParen"
  | .rParen => "RParen"

/-! ## Tokens -/

/-- A letter or an underscore. -/
def isIdentifierStart (ch : Char) : Bool := ch.isAlpha || ch = '_'

/-- A letter, a digit or an underscore. -/
def isIdentifierContinue (ch : Char) : Bool := ch.isAlphanum || ch = '_'

/-- `char::to_digit`. -/
def toDigit (radix : Nat) (ch : Char) : Option Nat :=
  let digit :=
    if ch.isDigit then some (ch.toNat - '0'.toNat)
    else if ch.isLower then some (ch.toNat - 'a'.toNat + 10)
    else if ch.isUpper then some (ch.toNat - 'A'.toNat + 10)
    else none
  digit.filter (· < radix)

/-- The number the digits write, when there are any. -/
def digitsValue (radix : Nat) (digits : List Char) : Option Nat :=
  if digits = [] then none
  else digits.foldlM (fun value ch => (toDigit radix ch).map (value * radix + ·)) 0

/-- `i64::from_str_radix`; `parse::<i64>` is the case of ten. -/
def parseI64 (radix : Nat) : List Char → Option Int
  | '+' :: digits => (digitsValue radix digits).bind fun n => if n < 2 ^ 63 then some n else none
  | '-' :: digits => (digitsValue radix digits).bind fun n => if n ≤ 2 ^ 63 then some (-n) else none
  | digits => (digitsValue radix digits).bind fun n => if n < 2 ^ 63 then some n else none

/-- A hexadecimal digit. -/
def isHexDigit (ch : Char) : Bool :=
  ch.isDigit || ('a' ≤ ch && ch ≤ 'f') || ('A' ≤ ch && ch ≤ 'F')

/-- The value of a constant in its radix. -/
def integerConstant (text : List Char) : Except String Int :=
  let value := match text with
    | '0' :: 'x' :: hex => parseI64 16 hex
    | '0' :: 'X' :: hex => parseI64 16 hex
    | text => parseI64 10 text
  match value with
  | some value => .ok value
  | none => .error ("invalid integer constant '" ++ String.ofList text ++ "'")

/-- `defined` or a name. -/
def wordToken (word : List Char) : ExprToken :=
  if word = "defined".toList then .defined else .ident word

/-- `skip` characters belong to the token before. -/
def lexFrom : Nat → List Char → Except String (List ExprToken)
  | _, [] => .ok []
  | skip + 1, _ :: chars => lexFrom skip chars
  | 0, ch :: chars =>
      if isWhitespace ch then lexFrom 0 chars
      else if ch = '!' then
        if chars.head? = some '=' then .error "operator '!=' is unsupported"
        else return .not :: (← lexFrom 0 chars)
      else if ch = '&' then
        if chars.head? = some '&' then return .and :: (← lexFrom 1 chars)
        else .error "expected '&&' in #if expression"
      else if ch = '|' then
        if chars.head? = some '|' then return .or :: (← lexFrom 1 chars)
        else .error "expected '||' in #if expression"
      else if ch = '(' then return .lParen :: (← lexFrom 0 chars)
      else if ch = ')' then return .rParen :: (← lexFrom 0 chars)
      else if ch.isDigit then do
        let more := chars.takeWhile fun next => isHexDigit next || next = 'x' || next = 'X'
        let value ← integerConstant (ch :: more)
        return .number value :: (← lexFrom more.length chars)
      else if isIdentifierStart ch then
        let more := chars.takeWhile isIdentifierContinue
        return wordToken (ch :: more) :: (← lexFrom more.length chars)
      else .error ("unsupported token '" ++ String.ofList [ch] ++ "' in #if expression")

/-- The tokens of a condition. -/
def lexExpr (expression : List Char) : Except String (List ExprToken) := lexFrom 0 expression

/-! ## The parser -/

/-- A parser method: the value and the tokens from the new position on. -/
abbrev ExprParse := List ExprToken → Except String (Bool × List ExprToken)

/-- A number is true when it is not zero, anything else always. -/
def macroValueIsTruthy (value : List Char) : Bool :=
  let trimmed := trim value
  if trimmed = [] then true
  else match parseI64 10 trimmed with
    | some value => value ≠ 0
    | none => true

/-- Behind the expected token. -/
def expect (expected : ExprToken) (tokens : List ExprToken) : Except String (List ExprToken) :=
  match consume expected tokens with
  | (true, rest) => .ok rest
  | (false, _) => .error ("expected " ++ expected.debug ++ " in #if expression")

/-- The name that comes next. -/
def expectIdent : List ExprToken → Except String (List Char × List ExprToken)
  | .ident name :: rest => .ok (name, rest)
  | _ => .error "expected identifier in defined expression"

/-- `while self.consume(token) { value = value ∘ operand()? }` for an operator
that does not look at its second operand when the first is `decisive`. -/
def whileConsume (token : ExprToken) (decisive : Bool) (operand : ExprParse) :
    Nat → Bool → ExprParse
  | 0, value, tokens => .ok (value, tokens)
  | rounds + 1, value, tokens =>
      match consume token tokens with
      | (true, rest) =>
          if value = decisive then whileConsume token decisive operand rounds value rest
          else do
            let (value, rest) ← operand rest
            whileConsume token decisive operand rounds value rest
      | (false, rest) => .ok (value, rest)

/-- `parse_or` and `parse_and`. -/
def parseChain (token : ExprToken) (decisive : Bool) (operand : ExprParse) (rounds : Nat) :
    ExprParse := fun tokens => do
  let (value, rest) ← operand tokens
  whileConsume token decisive operand rounds value rest

section

variable (defines : Defines)

/-- `nested` is the `parse_or` that a parenthesis calls. -/
def parsePrimary (nested : ExprParse) : ExprParse
  | .lParen :: rest => do
      let (value, rest) ← nested rest
      return (value, ← expect .rParen rest)
  | .number value :: rest => .ok (value ≠ 0, rest)
  | .ident name :: rest => .ok ((defines name).any macroValueIsTruthy, rest)
  | token :: _ => .error ("unexpected token " ++ token.debug ++ " in #if expression")
  | [] => .error "expected expression after #if"

/-- `defined NAME` or `defined(NAME)`. -/
def parseDefined : ExprParse
  | .lParen :: rest => do
      let (name, rest) ← expectIdent rest
      return ((defines name).isSome, ← expect .rParen rest)
  | tokens => do
      let (name, rest) ← expectIdent tokens
      return ((defines name).isSome, rest)

/-- Any number of `!` and a primary. -/
def parseUnary (nested : ExprParse) : ExprParse
  | .not :: rest => do
      let (value, rest) ← parseUnary nested rest
      return (!value, rest)
  | .defined :: rest => parseDefined defines rest
  | tokens => parsePrimary defines nested tokens

/-- Operands between `&&`. -/
def parseAnd (rounds : Nat) (nested : ExprParse) : ExprParse :=
  parseChain .and false (parseUnary defines nested) rounds

/-- The fuel bounds the parentheses and the rounds of every loop. -/
def parseOr : Nat → ExprParse
  | 0 => fun _ => .error "out of fuel"
  | fuel + 1 => parseChain .or true (parseAnd defines fuel (parseOr fuel)) fuel

/-- The value of the whole list of tokens. -/
def evalTokens (tokens : List ExprToken) : Except String Bool := do
  let (value, rest) ← parseOr defines (tokens.length + 1) tokens
  if rest ≠ [] then throw "unexpected trailing tokens in #if expression"
  return value

end

/-- The value of a condition. -/
def evalIfExpression (expression : List Char) (defines : Defines) : Except String Bool := do
  evalTokens defines (← lexExpr expression)

end GovFuzz.IdlParser
