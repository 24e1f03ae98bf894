import GovFuzz.IdlParser.Literal
import Mathlib.Data.Int.Bitwise
import Mathlib.Logic.Function.Basic

/-!
# IDL parser — constant expressions

`parse_const_expression` of `crates/idl_parser/src/parser.rs`: a precedence
climber that folds while it parses.  Integers are folded in `i128`; of the
floating arithmetic only its operations are known here (`FloatOps`).
-/

namespace GovFuzz.IdlParser

/-- A parse error and where it stands. -/
structure SpannedError where
  message : String
  span : Span
  deriving DecidableEq, Repr

/-- A name and its scopes, from the root when `absolute`. -/
structure ScopedName where
  absolute : Bool
  parts : List (List Char)
  deriving DecidableEq, Repr

/-- The value of a constant as the parser keeps it. -/
inductive ConstValue where
  | integer (value : Int)
  | float (text : List Char)
  | string (text : List Char)
  | boolean (value : Bool)
  | scopedName (name : ScopedName)
  deriving DecidableEq, Repr

/-- `Parser`, from its position on; a scope stands outermost first. -/
structure Parser where
  tokens : List Token
  depth : Nat
  scope : List (List Char)
  constants : List Char → Option Int
  typeBracketDepth : Nat

/-- What the parser uses of `f64`. -/
structure FloatOps (F : Type) where
  ofInt : Int → F
  neg : F → F
  add : F → F → F
  sub : F → F → F
  mul : F → F → F
  div : F → F → F
  isFinite : F → Bool
  parse : List Char → Option F
  debug : F → List Char

/-- A parsed expression: its value, the numbers it folds to and its text. -/
structure ConstExpression (F : Type) where
  value : ConstValue
  numericValue : Option Int
  floatValue : Option F
  text : List Char
  hasOperator : Bool

/-! ## Operators -/

/-- The binary operators. -/
inductive ConstOperator where
  | or
  | xor
  | and
  | shl
  | shr
  | add
  | sub
  | mul
  | div
  | mod
  deriving DecidableEq, Repr

namespace ConstOperator

def text : ConstOperator → List Char
  | or => ['|']
  | xor => ['^']
  | and => ['&']
  | shl => ['<', '<']
  | shr => ['>', '>']
  | add => ['+']
  | sub => ['-']
  | mul => ['*']
  | div => ['/']
  | mod => ['%']

/-- `const_operator_precedence`. -/
def precedence : ConstOperator → Nat
  | mul | div | mod => 6
  | add | sub => 5
  | shl | shr => 4
  | and => 3
  | xor => 2
  | or => 1

end ConstOperator

/-- `MIN_CONST_PRECEDENCE`, that of `|`. -/
def minConstPrecedence : Nat := 1

/-- The unary operators. -/
inductive UnaryOperator where
  | minus
  | plus
  | complement
  deriving DecidableEq, Repr

def UnaryOperator.text : UnaryOperator → List Char
  | minus => ['-']
  | plus => ['+']
  | complement => ['~']

/-- `i128::MIN`. -/
def i128Min : Int := -170141183460469231731687303715884105728

/-- `i128::MAX`. -/
def i128Max : Int := 170141183460469231731687303715884105727

/-- The value fits in 128 bits. -/
def InI128 (value : Int) : Prop := i128Min ≤ value ∧ value ≤ i128Max

instance (value : Int) : Decidable (InI128 value) := inferInstanceAs (Decidable (_ ∧ _))

/-- The result of a checked operation. -/
def checked (value : Int) : Option Int := if InI128 value then some value else none

/-- `u32::try_from`. -/
def toU32 (value : Int) : Option Nat :=
  if 0 ≤ value ∧ value < 4294967296 then some value.toNat else none

/-- `checked_shl` is checked for the shift only: the value is wrapped. -/
def checkedShl (left : Int) (shift : Nat) : Option Int :=
  if shift < 128 then some ((left * (2 ^ shift : Nat)).bmod (2 ^ 128)) else none

/-- `i128::checked_shr`. -/
def checkedShr (left : Int) (shift : Nat) : Option Int :=
  if shift < 128 then some (left >>> shift) else none

/-- `checked_rem`: the quotient of the least value and -1 overflows. -/
def checkedRem (left right : Int) : Option Int :=
  if left = i128Min ∧ right = -1 then none else some (left.tmod right)

/-- `None` on overflow, on division by zero and on a shift out of range. -/
def evalIntegerOperator : ConstOperator → Int → Int → Option Int
  | .shl, left, right => (toU32 right).bind (checkedShl left)
  | .shr, left, right => (toU32 right).bind (checkedShr left)
  | .or, left, right => some (left.lor right)
  | .and, left, right => some (left.land right)
  | .xor, left, right => some (left.xor right)
  | .add, left, right => checked (left + right)
  | .sub, left, right => checked (left - right)
  | .mul, left, right => checked (left * right)
  | .div, left, right => if right = 0 then none else checked (left.tdiv right)
  | .mod, left, right => if right = 0 then none else checkedRem left right

/-- A unary operator on a folded integer. -/
def evalUnaryOperator : UnaryOperator → Int → Option Int
  | .minus, value => checked (-value)
  | .plus, value => some value
  | .complement, value => some value.lnot

/-- `value as u64 as i64`. -/
def wrapConstInteger (value : Int) : Int := value.bmod (2 ^ 64)

/-! ## Literals -/

/-- `text.trim_end_matches(suffixes)`. -/
def trimEndMatches (suffixes text : List Char) : List Char :=
  (text.reverse.dropWhile (· ∈ suffixes)).reverse

/-- `i128::from_str_radix`. -/
def fromStrRadix (radix : Nat) (text : List Char) : Option Int :=
  let magnitude := fun digits : List Char =>
    if digits ≠ [] ∧ digits.all (fun ch => (toDigit radix ch).isSome) then
      some (digitsFrom radix 0 digits : Int)
    else none
  match text with
  | '-' :: digits => (magnitude digits).bind fun value => checked (-value)
  | '+' :: digits => (magnitude digits).bind checked
  | digits => (magnitude digits).bind checked

/-- The digits of a literal and their radix. -/
def radixDigits : List Char → List Char × Nat
  | '0' :: 'x' :: hex => (hex, 16)
  | '0' :: 'X' :: hex => (hex, 16)
  | '0' :: digit :: octal => (digit :: octal, 8)
  | decimal => (decimal, 10)

/-- The number behind digits, underscores and suffixes. -/
def parseIntegerLiteral (text : List Char) : Option Int :=
  let normalized := trimEndMatches ['u', 'U', 'l', 'L'] (text.filter (· ≠ '_'))
  let (digits, radix) := radixDigits normalized
  if digits = [] then some 0 else fromStrRadix radix digits

/-- The digits of an exponent, with its sign, start here. -/
def startsExponent (exponent : List Char) : Bool :=
  match exponent with
  | '+' :: digits => digits.head?.any Char.isDigit
  | '-' :: digits => digits.head?.any Char.isDigit
  | digits => digits.head?.any Char.isDigit

/-- Some `e` with an exponent behind it. -/
def hasExponent : List Char → Bool
  | [] => false
  | ch :: chars => ((ch = 'e' ∨ ch = 'E') && startsExponent chars) || hasExponent chars

/-- A literal with a point, an exponent or a `d` behind its digits, and no hexadecimal one. -/
def isFloatingLiteral (text : List Char) : Bool :=
  if ['0', 'x'] <+: text ∨ ['0', 'X'] <+: text then false
  else if '.' ∈ text then true
  else if (text.getLast? = some 'd' ∨ text.getLast? = some 'D') ∧ text.dropLast ≠ []
      ∧ text.dropLast.all Char.isDigit then true
  -- an exponent is not at the front
  else hasExponent text.tail

section
variable {F : Type} (floats : FloatOps F)

/-- The float behind a literal's suffix. -/
def parseFloatLiteral (text : List Char) : Option F :=
  floats.parse (trimEndMatches ['d', 'D', 'f', 'F'] text)

/-- Ada rejects an exponent without a decimal point. -/
def renderFloatLiteral (value : F) : List Char :=
  let text := floats.debug value
  let mantissa := text.takeWhile fun ch => ch ≠ 'e' ∧ ch ≠ 'E'
  let exponent := text.dropWhile fun ch => ch ≠ 'e' ∧ ch ≠ 'E'
  if exponent ≠ [] ∧ '.' ∉ mantissa then mantissa ++ ['.', '0'] ++ exponent else text

/-- The operator on floats, where it is one and its result is finite. -/
def evalFloatOperator (operator : ConstOperator) (left right : F) : Option F :=
  let value := match operator with
    | .add => some (floats.add left right)
    | .sub => some (floats.sub left right)
    | .mul => some (floats.mul left right)
    | .div => some (floats.div left right)
    | _ => none
  value.filter floats.isFinite

/-- The integer where there is one, else the finite float, else zero. -/
def constExpressionValue (numeric : Option Int) (float : Option F) : ConstValue :=
  match numeric with
  | some value => .integer (wrapConstInteger value)
  | none => match float.filter floats.isFinite with
    | some value => .float (renderFloatLiteral floats value)
    | none => .integer 0

/-- Both operands folded as integers, else as floats. -/
def binaryExpression (operator : ConstOperator) (left right : ConstExpression F) :
    ConstExpression F :=
  let numericValue := match left.numericValue, right.numericValue with
    | some left, some right => evalIntegerOperator operator left right
    | _, _ => none
  let floatValue := match numericValue, left.floatValue, right.floatValue with
    | none, some left, some right => evalFloatOperator floats operator left right
    | _, _, _ => none
  { value := constExpressionValue floats numericValue floatValue
    numericValue := numericValue
    floatValue := floatValue
    text := left.text ++ [' '] ++ operator.text ++ [' '] ++ right.text
    hasOperator := true }

/-- A signed floating literal is still a literal. -/
def signedFloat (operator : UnaryOperator) (literal : List Char) : ConstExpression F :=
  let text := match operator, literal with
    | .minus, '-' :: positive => positive
    | .minus, literal => '-' :: literal
    | _, literal => literal
  { value := .float text
    numericValue := none
    floatValue := parseFloatLiteral floats text
    text := text
    hasOperator := false }

/-- The operand folded under the operator. -/
def foldedUnary (operator : UnaryOperator) (operand : ConstExpression F) : ConstExpression F :=
  let numericValue := operand.numericValue.bind (evalUnaryOperator operator)
  let floatValue := match numericValue, operand.floatValue, operator with
    | none, some value, .minus => some (floats.neg value)
    | none, some value, .plus => some value
    | _, _, _ => none
  { value := constExpressionValue floats numericValue floatValue
    numericValue := numericValue
    floatValue := floatValue
    text := operator.text ++ operand.text
    hasOperator := true }

/-- The sign in front of an operand. -/
def unaryExpression (operator : UnaryOperator) (operand : ConstExpression F) :
    ConstExpression F :=
  match operand.value with
  | .float literal =>
      if operator ≠ .complement ∧ !operand.hasOperator then signedFloat floats operator literal
      else foldedUnary floats operator operand
  | _ => foldedUnary floats operator operand

end

/-! ## The tokens ahead -/

namespace Parser

/-- An error at the next token. -/
def errorHere {α : Type} (p : Parser) (message : String) : Except SpannedError α :=
  .error ⟨message, (peek p.tokens).span⟩

/-- The parser behind its next token. -/
def bump (p : Parser) : Parser := { p with tokens := IdlParser.bump p.tokens }

/-- `self.tokens.get(self.pos + 1)`. -/
def following (p : Parser) : Option Token := p.tokens.tail.head?

/-- Takes the next token when it has this text. -/
def consumeText (p : Parser) (text : List Char) : Bool × Parser :=
  if (peek p.tokens).text = text then (true, p.bump) else (false, p)

/-- Equal up to the case of ASCII letters. -/
def eqIgnoreAsciiCase (text keyword : List Char) : Bool :=
  text.map Char.toLower = keyword.map Char.toLower

/-- Takes the next token when it is this keyword. -/
def consumeKeyword (p : Parser) (keyword : List Char) : Bool × Parser :=
  if (peek p.tokens).kind = .identifier ∧ eqIgnoreAsciiCase (peek p.tokens).text keyword then
    (true, p.bump)
  else (false, p)

/-- Takes this token or fails on what stands there. -/
def expectText (p : Parser) (text : List Char) : Except SpannedError Parser :=
  match p.consumeText text with
  | (true, p) => .ok p
  | (false, p) => p.errorHere ("expected '" ++ String.ofList text ++ "'")

/-- `MAX_NEST_DEPTH`. -/
def maxNestDepth : Nat := 256

/-- One level deeper, within the limit. -/
def enterNesting (p : Parser) : Except SpannedError Parser :=
  let p := { p with depth := p.depth + 1 }
  if maxNestDepth < p.depth then p.errorHere "IDL nesting exceeds the maximum supported depth"
  else .ok p

/-! ## Names -/

/-- The loop of `parse_scoped_name`. -/
def scopedParts : List Token → Except SpannedError (List (List Char) × List Token)
  | [] => .ok ([], [])
  | separator :: tokens =>
      if separator.text = [':', ':'] then
        match tokens with
        | [] => .error ⟨"expected identifier", endToken.span⟩
        | part :: tokens =>
            if part.kind = .identifier then do
              let (parts, tokens) ← scopedParts tokens
              return (part.text :: parts, tokens)
            else .error ⟨"expected identifier", part.span⟩
      else .ok ([], separator :: tokens)

/-- A name, its scopes separated by `::`. -/
def parseScopedName (p : Parser) : Except SpannedError (ScopedName × Parser) := do
  let (absolute, p) := p.consumeText [':', ':']
  let first := peek p.tokens
  if first.kind ≠ .identifier then p.errorHere "expected identifier"
  else
    let (parts, tokens) ← scopedParts p.bump.tokens
    return (⟨absolute, first.text :: parts⟩, { p with tokens })

/-- `parts.join("::")`. -/
def joinParts (parts : List (List Char)) : List Char := List.intercalate [':', ':'] parts

/-- The name as it was written. -/
def formatScopedName (name : ScopedName) : List Char :=
  (if name.absolute then [':', ':'] else []) ++ joinParts name.parts

/-- The key of a name in the scope of these parts. -/
def constantKey (scope : List (List Char)) (suffix : List Char) : List Char :=
  scope.flatMap (· ++ [':', ':']) ++ suffix

/-- The loop of `lookup_constant`, from this depth on outwards. -/
def lookupFrom (constants : List Char → Option Int) (scope : List (List Char))
    (suffix : List Char) : Nat → Option Int
  | 0 => constants (constantKey [] suffix)
  | depth + 1 =>
      match constants (constantKey (scope.take (depth + 1)) suffix) with
      | some value => some value
      | none => lookupFrom constants scope suffix depth

/-- The constant a name means: from the root when absolute, else from the innermost scope on. -/
def lookupConstant (p : Parser) (name : ScopedName) : Option Int :=
  let suffix := joinParts name.parts
  if name.absolute then p.constants suffix
  else lookupFrom p.constants p.scope suffix p.scope.length

/-- The binary operator that comes next; the shifts are two tokens. -/
def peekConstOperator (p : Parser) : Option ConstOperator :=
  match (peek p.tokens).text with
  | ['<'] => if p.following.map Token.text = some ['<'] then some .shl else none
  -- inside a type bracket `>>` closes two of them
  | ['>'] =>
      if p.typeBracketDepth = 0 ∧ p.following.map Token.text = some ['>'] then some .shr
      else none
  | ['|'] => some .or
  | ['&'] => some .and
  | ['^'] => some .xor
  | ['+'] => some .add
  | ['-'] => some .sub
  | ['*'] => some .mul
  | ['/'] => some .div
  | ['%'] => some .mod
  | _ => none

/-- Behind the operator, one token or two. -/
def consumeConstOperator (p : Parser) (operator : ConstOperator) : Parser :=
  if operator = .shl ∨ operator = .shr then p.bump.bump else p.bump

/-- The unary operator that comes next. -/
def peekUnaryOperator (p : Parser) : Option UnaryOperator :=
  if (peek p.tokens).kind = .punctuation then
    match (peek p.tokens).text with
    | ['-'] => some .minus
    | ['+'] => some .plus
    | ['~'] => some .complement
    | _ => none
  else none

/-! ## The parser -/

/-- A parser of expressions. -/
abbrev ConstParse (F : Type) := Parser → Except SpannedError (ConstExpression F × Parser)

section
variable {F : Type} (floats : FloatOps F)

/-- A name and the constant it stands for. -/
def parseScopedNameAtom (p : Parser) : Except SpannedError (ConstExpression F × Parser) := do
  let (name, rest) ← p.parseScopedName
  let numericValue := p.lookupConstant name
  return ({
    value := .scopedName name
    numericValue := numericValue
    floatValue := numericValue.map floats.ofInt
    text := formatScopedName name
    hasOperator := false }, rest)

/-- A run of string literals. -/
def stringAtom (p : Parser) : ConstExpression F × Parser :=
  let (text, tokens) := parseStringLiteralRun p.tokens
  ({ value := .string text, numericValue := none, floatValue := none, text := text
     hasOperator := false }, { p with tokens })

/-- `TRUE` is one and `FALSE` zero. -/
def booleanAtom (value : Bool) : ConstExpression F where
  value := .boolean value
  numericValue := some (if value then 1 else 0)
  floatValue := none
  text := if value then ['t', 'r', 'u', 'e'] else ['f', 'a', 'l', 's', 'e']
  hasOperator := false

/-- A number, a float when it is written as one. -/
def numberAtom (p : Parser) : Except SpannedError (ConstExpression F × Parser) :=
  let token := peek p.tokens
  if isFloatingLiteral token.text then
    .ok ({
      value := .float token.text
      numericValue := none
      floatValue := parseFloatLiteral floats token.text
      text := token.text
      hasOperator := false }, p.bump)
  else match parseIntegerLiteral token.text with
    | none => .error ⟨"expected integer literal", token.span⟩
    | some value => .ok ({
        value := .integer (wrapConstInteger value)
        numericValue := some value
        floatValue := some (floats.ofInt value)
        text := (toString value).toList
        hasOperator := false }, p.bump)

/-- `nested` parses the expression in parentheses. -/
def parseConstAtom (nested : ConstParse F) (p : Parser) :
    Except SpannedError (ConstExpression F × Parser) :=
  let token := peek p.tokens
  if token.kind = .punctuation ∧ token.text = ['('] then do
    let p ← p.bump.enterNesting
    let brackets := p.typeBracketDepth
    let (inner, p) ← nested { p with typeBracketDepth := 0 }
    let p := { p with typeBracketDepth := brackets, depth := p.depth - 1 }
    let p ← p.expectText [')']
    return ({ inner with text := ['('] ++ inner.text ++ [')'] }, p)
  else match p.consumeKeyword ['t', 'r', 'u', 'e'] with
  | (true, p) => .ok (booleanAtom true, p)
  | (false, p) => match p.consumeKeyword ['f', 'a', 'l', 's', 'e'] with
  | (true, p) => .ok (booleanAtom false, p)
  | (false, p) =>
      if token.kind = .identifier ∧ eqIgnoreAsciiCase token.text ['L']
          ∧ p.following.map Token.kind = some .stringLiteral then
        -- the prefix is not part of the value
        .ok (stringAtom p.bump)
      else match token.kind with
        | .number => numberAtom floats p
        | .stringLiteral => .ok (stringAtom p)
        | .identifier => parseScopedNameAtom floats p
        | .punctuation =>
            if token.text = [':', ':'] then parseScopedNameAtom floats p
            else p.errorHere "expected constant value"
        | .endOfInput => p.errorHere "expected constant value"

/-- Any number of unary operators and an atom. -/
def parseConstUnary (nested : ConstParse F) :
    Nat → ConstParse F
  | 0, p => p.errorHere "out of fuel"
  | fuel + 1, p =>
      match p.peekUnaryOperator with
      | none => parseConstAtom floats nested p
      | some operator => do
          let p ← p.bump.enterNesting
          let (operand, p) ← parseConstUnary nested fuel p
          return (unaryExpression floats operator operand, { p with depth := p.depth - 1 })

/-- The loop of `parse_const_expression`; `operand` parses a right operand of
at least a precedence. -/
def parseConstLoop (operand : Nat → ConstParse F) :
    Nat → Nat → ConstExpression F → ConstParse F
  | 0, _, _, p => p.errorHere "out of fuel"
  | rounds + 1, minPrecedence, left, p =>
      match p.peekConstOperator with
      | none => .ok (left, p)
      | some operator =>
          if operator.precedence < minPrecedence then .ok (left, p)
          else do
            let (right, p) ← operand (operator.precedence + 1) (p.consumeConstOperator operator)
            parseConstLoop operand rounds minPrecedence
              (binaryExpression floats operator left right)
              p

/-- The fuel bounds the nesting and the rounds of every loop. -/
def parseConstFuel : Nat → Nat → ConstParse F
  | 0, _, p => p.errorHere "out of fuel"
  | fuel + 1, minPrecedence, p => do
      let (left, p) ← parseConstUnary floats (parseConstFuel fuel minConstPrecedence) (fuel + 1) p
      parseConstLoop floats (parseConstFuel fuel) (fuel + 1) minPrecedence left p

/-- An expression of operators that bind at least this tightly. -/
def parseConstExpression (minPrecedence : Nat) (p : Parser) :
    Except SpannedError (ConstExpression F × Parser) :=
  parseConstFuel floats (p.tokens.length + 1) minPrecedence p

end

/-- `register_constant`. -/
def registerConstant (p : Parser) (name : List Char) (value : Option Int) : Parser :=
  match value with
  | none => p
  | some value =>
      { p with
        constants := Function.update p.constants (constantKey p.scope name) (some value) }

end Parser

end GovFuzz.IdlParser
