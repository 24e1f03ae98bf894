import GovFuzz.IdlParser.ConstExpression
import GovFuzz.Lib.Except

/-!
# IDL parser — type references

`parse_type` and `parse_array_suffix` of `crates/idl_parser/src/parser.rs`.
Bounds and dimensions are constant expressions; whatever a type is made of,
parsing it goes on in the tokens and leaves the scope and the constants as
they are (`Advances`).
-/

namespace GovFuzz.IdlParser

open GovFuzz.Lib

/-- The basic types. -/
inductive PrimitiveType where
  | boolean
  | char
  | wChar
  | octet
  | short
  | uShort
  | long
  | uLong
  | longLong
  | uLongLong
  | float
  | double
  | longDouble
  | any
  | object
  deriving DecidableEq, Repr

/-- A type as it is referred to. -/
inductive TypeRef where
  | primitive (primitive : PrimitiveType)
  | named (name : ScopedName)
  | sequence (element : TypeRef) (bound : Option Nat)
  | map (key value : TypeRef) (bound : Option Nat)
  | array (element : TypeRef) (dimensions : List Nat)
  | string (wide : Bool) (bound : Option Nat)
  | fixed (digits : Nat) (scale : Int)
  deriving DecidableEq, Repr

/-- `primitive_type`, of a name in lower case. -/
def primitiveType (name : List Char) : Option PrimitiveType :=
  match String.ofList name with
  | "boolean" => some .boolean
  | "char" => some .char
  | "wchar" => some .wChar
  | "octet" => some .octet
  | "short" => some .short
  | "float" => some .float
  | "double" => some .double
  | "any" => some .any
  | "object" => some .object
  -- the explicit widths; of `int8` only the width is kept
  | "int8" => some .octet
  | "uint8" => some .octet
  | "int16" => some .short
  | "uint16" => some .uShort
  | "int32" => some .long
  | "uint32" => some .uLong
  | "int64" => some .longLong
  | "uint64" => some .uLongLong
  | _ => none

/-- Digits of a `fixed` type. -/
def maxFixedDigits : Nat := 31

/-- `u64::try_from`. -/
def toU64 (value : Int) : Option Nat :=
  if 0 ≤ value ∧ value < 18446744073709551616 then some value.toNat else none

/-- `i64::try_from`. -/
def toI64 (value : Int) : Option Int :=
  if -9223372036854775808 ≤ value ∧ value < 9223372036854775808 then some value else none

namespace Parser

/-- The identifier that comes next. -/
def expectIdentifier (p : Parser) : Except SpannedError (List Char × Parser) :=
  if (peek p.tokens).kind = .identifier then .ok ((peek p.tokens).text, p.bump)
  else p.errorHere "expected identifier"

/-- This keyword comes next. -/
def atKeyword (p : Parser) (keyword : String) : Bool := (p.consumeKeyword keyword.toList).1

/-- This text comes next. -/
def atText (p : Parser) (text : List Char) : Bool := (p.consumeText text).1

/-- The loop of `skip_balanced_tokens`, with `depth` of them open. -/
def skipBalancedFrom (opening closing : List Char) :
    Nat → List Token → Except SpannedError (List Token)
  | 0, tokens => .ok tokens
  | _ + 1, [] => .error ⟨"expected '" ++ String.ofList closing ++ "'", endToken.span⟩
  | depth + 1, token :: tokens =>
      if token.kind = .endOfInput then
        .error ⟨"expected '" ++ String.ofList closing ++ "'", token.span⟩
      else if token.text = opening then skipBalancedFrom opening closing (depth + 2) tokens
      else if token.text = closing then skipBalancedFrom opening closing depth tokens
      else skipBalancedFrom opening closing (depth + 1) tokens

/-- `skip_balanced_tokens`, from behind the opening token. -/
def skipBalancedTokens (opening closing : List Char) (p : Parser) : Except SpannedError Parser := do
  let tokens ← skipBalancedFrom opening closing 1 p.tokens
  return { p with tokens }

/-- Arguments in parentheses are skipped. -/
def skipArguments (p : Parser) : Except SpannedError Parser :=
  if p.atText ['('] then skipBalancedTokens ['('] [')'] p.bump else .ok p

/-- Over the annotations. -/
def skipAnnotations : Nat → Parser → Except SpannedError Parser
  | 0, p => p.errorHere "out of fuel"
  | fuel + 1, p =>
      if p.atText ['@'] then do
        let (_, p) ← p.bump.parseScopedName
        let p ← p.skipArguments
        skipAnnotations fuel p
      else return p

/-- A parser of types. -/
abbrev TypeParse := Parser → Except SpannedError (TypeRef × Parser)

section
variable {F : Type} (floats : FloatOps F)

/-- `parse_bracketed_const_expression`, with this fuel for the expression. -/
def parseBracketedConstExpression (fuel : Nat) : ConstParse F := fun p => do
  let (expression, p) ← parseConstFuel floats fuel minConstPrecedence
    { p with typeBracketDepth := p.typeBracketDepth + 1 }
  return (expression, { p with typeBracketDepth := p.typeBracketDepth - 1 })

/-- A bound that is no number is unbounded. -/
def parseBound (fuel : Nat) (p : Parser) : Except SpannedError (Option Nat × Parser) := do
  let (expression, p) ← parseBracketedConstExpression floats fuel p
  return (expression.numericValue.bind toU64, p)

/-- The bound behind a comma. -/
def commaBound (fuel : Nat) (p : Parser) : Except SpannedError (Option Nat × Parser) :=
  if p.atText [','] then parseBound floats fuel p.bump else return (none, p)

/-- The bound in `<...>`, when there is one. -/
def parseOptionalBound (fuel : Nat) (p : Parser) : Except SpannedError (Option Nat × Parser) :=
  if p.atText ['<'] then do
    let (bound, p) ← parseBound floats fuel p.bump
    let p ← p.expectText ['>']
    return (bound, p)
  else return (none, p)

/-- A number of `fixed`, or its fallback. -/
def parseFixedArgument (fuel : Nat) (fallback : Int) (p : Parser) :
    Except SpannedError (Int × Parser) := do
  let (expression, p) ← parseBracketedConstExpression floats fuel p
  return ((expression.numericValue.bind toI64).getD fallback, p)

/-- From behind `fixed`; without arguments it is any fixed. -/
def fixedType (fuel : Nat) (p : Parser) : Except SpannedError (TypeRef × Parser) :=
  if p.atText ['<'] then do
    let (digits, p) ← parseFixedArgument floats fuel maxFixedDigits p.bump
    let p ← p.expectText [',']
    let (scale, p) ← parseFixedArgument floats fuel 0 p
    let p ← p.expectText ['>']
    let digits := if 0 ≤ digits ∧ digits < 65536 then digits.toNat else maxFixedDigits
    let scale := if -32768 ≤ scale ∧ scale < 32768 then scale else 0
    return (.fixed digits scale, p)
  else return (.fixed maxFixedDigits 0, p)

/-- What follows `unsigned`. -/
def parseUnsignedType (p : Parser) : Except SpannedError (TypeRef × Parser) :=
  if p.atKeyword "short" then .ok (.primitive .uShort, p.bump)
  else if p.atKeyword "long" then
    if p.bump.atKeyword "long" then .ok (.primitive .uLongLong, p.bump.bump)
    else .ok (.primitive .uLong, p.bump)
  else p.errorHere "expected 'short' or 'long' after 'unsigned'"

/-- From behind `long`. -/
def longType (p : Parser) : Except SpannedError (TypeRef × Parser) :=
  if p.atKeyword "double" then .ok (.primitive .longDouble, p.bump)
  else if p.atKeyword "long" then .ok (.primitive .longLong, p.bump)
  else .ok (.primitive .long, p)

/-- A name and the arguments behind it. -/
def namedType (p : Parser) : Except SpannedError (TypeRef × Parser) := do
  let (name, p) ← p.parseScopedName
  let p ← p.skipArguments
  return (.named name, p)

/-- `nested` parses an element. -/
def parseTypeInner (nested : TypeParse) (fuel : Nat) (p : Parser) :
    Except SpannedError (TypeRef × Parser) := do
  let p ← skipAnnotations fuel p
  if p.atKeyword "sequence" then
    let p ← p.bump.expectText ['<']
    let (element, p) ← nested p
    let (bound, p) ← commaBound floats fuel p
    let p ← p.expectText ['>']
    return (.sequence element bound, p)
  else if p.atKeyword "map" then
    let p ← p.bump.expectText ['<']
    let (key, p) ← nested p
    let p ← p.expectText [',']
    let (value, p) ← nested p
    let (bound, p) ← commaBound floats fuel p
    let p ← p.expectText ['>']
    return (.map key value bound, p)
  else if p.atKeyword "fixed" then fixedType floats fuel p.bump
  else if p.atKeyword "string" then
    let (bound, p) ← parseOptionalBound floats fuel p.bump
    return (.string false bound, p)
  else if p.atKeyword "wstring" then
    let (bound, p) ← parseOptionalBound floats fuel p.bump
    return (.string true bound, p)
  else if p.atKeyword "unsigned" then parseUnsignedType p.bump
  else if p.atKeyword "long" then longType p.bump
  else if (peek p.tokens).kind = .identifier then
    match primitiveType ((peek p.tokens).text.map Char.toLower) with
    | some primitive => return (.primitive primitive, p.bump)
    | none => namedType p
  else namedType p

/-- The fuel bounds the nesting, and the rounds and the nesting of whatever is
parsed on the way. -/
def parseType : Nat → TypeParse
  | 0, p => p.errorHere "out of fuel"
  | fuel + 1, p => do
      let p ← p.enterNesting
      let (ty, p) ← parseTypeInner floats (parseType fuel) fuel p
      return (ty, { p with depth := p.depth - 1 })

/-- One dimension, a positive number. -/
def parseArrayDimension (fuel : Nat) (p : Parser) : Except SpannedError (Nat × Parser) := do
  let (expression, p) ← parseConstFuel floats fuel minConstPrecedence p
  match expression.numericValue with
  | none => return (0, p)
  | some value => match toU64 value with
    | some dimension => return (dimension, p)
    | none => p.errorHere "expected nonnegative array dimension"

/-- The loop of `parse_array_suffix`. -/
def arrayDimensions : Nat → Parser → Except SpannedError (List Nat × Parser)
  | 0, p => p.errorHere "out of fuel"
  | fuel + 1, p =>
      if p.atText ['['] then do
        let (dimension, p) ← parseArrayDimension floats fuel p.bump
        let p ← p.expectText [']']
        let p ← skipAnnotations fuel p
        let (dimensions, p) ← arrayDimensions fuel p
        return (dimension :: dimensions, p)
      else return ([], p)

/-- The element under all its dimensions. -/
def parseArraySuffix (fuel : Nat) (element : TypeRef) (p : Parser) :
    Except SpannedError (TypeRef × Parser) := do
  let p ← skipAnnotations fuel p
  let (dimensions, p) ← arrayDimensions floats fuel p
  return (if dimensions = [] then element else .array element dimensions, p)

end

/-! ## The names stay as they are -/

/-- The parser moved on and changed nothing else. -/
structure Advances (p q : Parser) : Prop where
  tokens : q.tokens ⊆ p.tokens
  scope : q.scope = p.scope
  constants : q.constants = p.constants

theorem Advances.refl (p : Parser) : Advances p p := ⟨fun _ h => h, rfl, rfl⟩

theorem Advances.trans {p q r : Parser} (h : Advances p q) (h' : Advances q r) :
    Advances p r :=
  ⟨fun _ ht => h.tokens (h'.tokens ht), h'.scope.trans h.scope, h'.constants.trans h.constants⟩

/-- Whatever parser a result holds, `p` has advanced to it. -/
def Keeps {α : Type} (parser : α → Parser) (p : Parser) (result : Except SpannedError α) : Prop :=
  ∀ x, result = .ok x → Advances p (parser x)

section
variable {α β : Type} {parser : α → Parser} {parser' : β → Parser} {p : Parser}

theorem Keeps.ok {x : α} (h : Advances p (parser x)) : Keeps parser p (.ok x) := by
  intro y hy
  cases hy
  exact h

theorem Keeps.error (error : SpannedError) : Keeps parser p (.error error) := by
  intro x hx
  cases hx

theorem Keeps.errorHere (q : Parser) (message : String) :
    Keeps parser p (q.errorHere message) := .error _

theorem Keeps.bind (parser : α → Parser) {result : Except SpannedError α}
    {f : α → Except SpannedError β} (h : Keeps parser p result)
    (hf : ∀ x, Keeps parser' (parser x) (f x)) :
    Keeps parser' p (result >>= f) := by
  intro y hy
  cases result with
  | error error => cases hy
  | ok x => exact (h x rfl).trans (hf x y hy)

theorem Keeps.ite {c : Prop} [Decidable c] {result result' : Except SpannedError α}
    (h : Keeps parser p result) (h' : Keeps parser p result') :
    Keeps parser p (if c then result else result') := by
  split
  · exact h
  · exact h'

/-- The names of the start may be seen through. -/
theorem Keeps.of_advances {q : Parser} {result : Except SpannedError α} (h : Advances p q)
    (hq : Keeps parser q result) : Keeps parser p result :=
  fun x hx => h.trans (hq x hx)

end

theorem bump_subset (tokens : List Token) : IdlParser.bump tokens ⊆ tokens := by
  unfold IdlParser.bump
  split
  · exact fun _ h => h
  · exact fun _ h => List.mem_of_mem_tail h

theorem advances_bump (p : Parser) : Advances p p.bump := ⟨bump_subset _, rfl, rfl⟩

theorem keeps_enterNesting (p : Parser) : Keeps id p p.enterNesting :=
  .ite (.errorHere _ _) (.ok ⟨fun _ h => h, rfl, rfl⟩)

theorem keeps_expectText (p : Parser) (text : List Char) : Keeps id p (p.expectText text) := by
  unfold expectText consumeText
  split_ifs
  · exact .ok (advances_bump p)
  · exact .errorHere _ _

theorem keeps_expectIdentifier (p : Parser) : Keeps Prod.snd p p.expectIdentifier :=
  .ite (.ok (advances_bump p)) (.errorHere _ _)

theorem advances_consumeText (p : Parser) (text : List Char) :
    Advances p (p.consumeText text).2 := by
  unfold consumeText
  split
  · exact advances_bump p
  · exact .refl p

theorem advances_consumeKeyword (p : Parser) (keyword : List Char) :
    Advances p (p.consumeKeyword keyword).2 := by
  unfold consumeKeyword
  split
  · exact advances_bump p
  · exact .refl p

theorem scopedParts_subset {tokens rest : List Token} {parts : List (List Char)}
    (h : scopedParts tokens = .ok (parts, rest)) : rest ⊆ tokens := by
  fun_induction scopedParts tokens generalizing parts rest with
  | case1 => cases h; exact fun _ h => h
  | case2 => cases h
  | case3 separator _ part tokens _ ih =>
      obtain ⟨⟨more, behind⟩, hparts, h⟩ := bind_eq_ok.mp h
      obtain ⟨-, rfl⟩ := Prod.mk.inj (Except.ok.inj h)
      exact fun _ ht => List.mem_cons_of_mem _ (List.mem_cons_of_mem _ (ih hparts ht))
  | case4 => cases h
  | case5 => cases h; exact fun _ h => h

theorem keeps_parseScopedName (p : Parser) : Keeps Prod.snd p p.parseScopedName := by
  have hstart := advances_consumeText p [':', ':']
  unfold parseScopedName
  generalize p.consumeText [':', ':'] = start at hstart ⊢
  refine .ite (.errorHere _ _) ?_
  refine .bind (fun x => { start.2 with tokens := x.2 }) ?_ fun x => .ok (.refl _)
  intro x hx
  exact ⟨fun _ ht => hstart.tokens (bump_subset _ (scopedParts_subset hx ht)), hstart.scope,
    hstart.constants⟩

theorem skipBalancedFrom_subset {opening closing : List Char} {depth : Nat}
    {tokens rest : List Token} (h : skipBalancedFrom opening closing depth tokens = .ok rest) :
    rest ⊆ tokens := by
  fun_induction skipBalancedFrom opening closing depth tokens with
  | case1 => cases h; exact fun _ h => h
  | case2 => cases h
  | case3 => cases h
  | case4 _ _ _ _ _ ih => exact fun _ ht => List.mem_cons_of_mem _ (ih h ht)
  | case5 _ _ _ _ _ _ ih => exact fun _ ht => List.mem_cons_of_mem _ (ih h ht)
  | case6 _ _ _ _ _ _ ih => exact fun _ ht => List.mem_cons_of_mem _ (ih h ht)

theorem keeps_skipBalancedTokens (opening closing : List Char) (p : Parser) :
    Keeps id p (skipBalancedTokens opening closing p) := by
  refine .bind (fun tokens => { p with tokens }) ?_ fun _ => .ok (.refl _)
  intro tokens htokens
  exact ⟨skipBalancedFrom_subset htokens, rfl, rfl⟩

theorem stringBodies_subset (tokens : List Token) : (stringBodies tokens).2 ⊆ tokens := by
  induction tokens with
  | nil => exact fun _ h => h
  | cons token tokens ih =>
      unfold stringBodies
      split
      · exact fun _ ht => List.mem_cons_of_mem _ (ih ht)
      · exact fun _ h => h

theorem keeps_skipArguments (p : Parser) : Keeps id p p.skipArguments :=
  .ite (.of_advances (advances_bump p) (keeps_skipBalancedTokens _ _ _)) (.ok (.refl p))

theorem keeps_skipAnnotations (fuel : Nat) (p : Parser) :
    Keeps id p (skipAnnotations fuel p) := by
  induction fuel generalizing p with
  | zero => exact .errorHere _ _
  | succ fuel ih =>
      refine .ite ?_ (.ok (.refl p))
      refine .of_advances (advances_bump p) ?_
      refine .bind Prod.snd (keeps_parseScopedName _) fun x => ?_
      exact .bind id (keeps_skipArguments _) fun q => ih q

section
variable {F : Type} (floats : FloatOps F)

/-- Every expression it parses keeps the names. -/
def KeepsNames {α : Type} (parse : Parser → Except SpannedError (α × Parser)) : Prop :=
  ∀ p, Keeps Prod.snd p (parse p)

theorem keepsNames_parseScopedNameAtom : KeepsNames (parseScopedNameAtom floats) :=
  fun p => .bind Prod.snd (keeps_parseScopedName p) fun _ => .ok (.refl _)

theorem advances_stringAtom (p : Parser) : Advances p (stringAtom (F := F) p).2 :=
  ⟨fun _ ht => bump_subset _ (stringBodies_subset _ ht), rfl, rfl⟩

theorem keepsNames_numberAtom : KeepsNames (numberAtom floats) := by
  intro p
  unfold numberAtom
  refine .ite (.ok (advances_bump p)) ?_
  split
  · exact .error _
  · exact .ok (advances_bump p)

/-- An atom of a constant keeps the names when what is nested in it does. -/
theorem keepsNames_parseConstAtom {nested : ConstParse F} (h : KeepsNames nested) :
    KeepsNames (parseConstAtom floats nested) := by
  intro p
  unfold parseConstAtom
  refine .ite ?_ ?_
  · refine .of_advances (advances_bump p) (.bind id (keeps_enterNesting _) fun q => ?_)
    refine .of_advances (q := { q with typeBracketDepth := 0 }) ⟨fun _ h => h, rfl, rfl⟩ ?_
    refine .bind Prod.snd (h _) fun x => ?_
    refine .bind id ?_ fun _ => .ok (.refl _)
    refine .of_advances ?_ (keeps_expectText _ _)
    exact ⟨fun _ h => h, rfl, rfl⟩
  have htrue := advances_consumeKeyword p ['t', 'r', 'u', 'e']
  split
  · rename_i heq
    rw [heq] at htrue
    exact .ok htrue
  rename_i q heq
  rw [heq] at htrue
  refine .of_advances htrue ?_
  have hfalse := advances_consumeKeyword q ['f', 'a', 'l', 's', 'e']
  split
  · rename_i heq
    rw [heq] at hfalse
    exact .ok hfalse
  rename_i q heq
  rw [heq] at hfalse
  refine .of_advances hfalse ?_
  refine .ite (.ok ((advances_bump q).trans (advances_stringAtom _))) ?_
  split
  · exact keepsNames_numberAtom floats q
  · exact .ok (advances_stringAtom q)
  · exact keepsNames_parseScopedNameAtom floats q
  · exact .ite (keepsNames_parseScopedNameAtom floats q) (.errorHere _ _)
  · exact .errorHere _ _

theorem keepsNames_parseConstUnary {nested : ConstParse F} (h : KeepsNames nested) (fuel : Nat) :
    KeepsNames (parseConstUnary floats nested fuel) := by
  induction fuel with
  | zero => exact fun p => .errorHere _ _
  | succ fuel ih =>
      intro p
      unfold parseConstUnary
      split
      · exact keepsNames_parseConstAtom floats h p
      · refine .of_advances (advances_bump p) (.bind id (keeps_enterNesting _) fun q => ?_)
        exact .bind Prod.snd (ih q) fun _ => .ok ⟨fun _ h => h, rfl, rfl⟩

theorem advances_consumeConstOperator (p : Parser) (operator : ConstOperator) :
    Advances p (p.consumeConstOperator operator) := by
  unfold consumeConstOperator
  split
  · exact (advances_bump p).trans (advances_bump _)
  · exact advances_bump p

theorem keepsNames_parseConstLoop {operand : Nat → ConstParse F}
    (h : ∀ minPrecedence, KeepsNames (operand minPrecedence)) (rounds minPrecedence : Nat)
    (left : ConstExpression F) :
    KeepsNames (parseConstLoop floats operand rounds minPrecedence left) := by
  induction rounds generalizing left with
  | zero => exact fun p => .errorHere _ _
  | succ rounds ih =>
      intro p
      unfold parseConstLoop
      split
      · exact .ok (.refl p)
      · rename_i operator _
        refine .ite (.ok (.refl p)) ?_
        refine .of_advances (advances_consumeConstOperator p operator) ?_
        exact .bind Prod.snd (h _ _) fun x => ih _ _

theorem keepsNames_parseConstFuel (fuel minPrecedence : Nat) :
    KeepsNames (parseConstFuel floats fuel minPrecedence) := by
  induction fuel generalizing minPrecedence with
  | zero => exact fun p => .errorHere _ _
  | succ fuel ih =>
      intro p
      refine .bind Prod.snd (keepsNames_parseConstUnary floats (ih _) _ p) fun x => ?_
      exact keepsNames_parseConstLoop floats ih _ _ _ _

theorem keepsNames_parseBracketedConstExpression (fuel : Nat) :
    KeepsNames (parseBracketedConstExpression floats fuel) := by
  intro p
  refine .bind Prod.snd ?_ fun _ => .ok ⟨fun _ h => h, rfl, rfl⟩
  refine .of_advances ?_ (keepsNames_parseConstFuel floats fuel _ _)
  exact ⟨fun _ h => h, rfl, rfl⟩

theorem keepsNames_parseBound (fuel : Nat) : KeepsNames (parseBound floats fuel) :=
  fun p => .bind Prod.snd (keepsNames_parseBracketedConstExpression floats fuel p)
    fun _ => .ok (.refl _)

theorem keepsNames_parseFixedArgument (fuel : Nat) (fallback : Int) :
    KeepsNames (parseFixedArgument floats fuel fallback) :=
  fun p => .bind Prod.snd (keepsNames_parseBracketedConstExpression floats fuel p)
    fun _ => .ok (.refl _)

theorem keepsNames_commaBound (fuel : Nat) : KeepsNames (commaBound floats fuel) :=
  fun p => .ite (.of_advances (advances_bump p) (keepsNames_parseBound floats fuel _))
    (.ok (.refl p))

theorem keepsNames_parseOptionalBound (fuel : Nat) :
    KeepsNames (parseOptionalBound floats fuel) := by
  intro p
  refine .ite (.of_advances (advances_bump p) ?_) (.ok (.refl p))
  refine .bind Prod.snd (keepsNames_parseBound floats fuel _) fun x => ?_
  exact .bind id (keeps_expectText _ _) fun _ => .ok (.refl _)

theorem keepsNames_fixedType (fuel : Nat) : KeepsNames (fixedType floats fuel) := by
  intro p
  refine .ite (.of_advances (advances_bump p) ?_) (.ok (.refl p))
  refine .bind Prod.snd (keepsNames_parseFixedArgument floats fuel _ _) fun x => ?_
  refine .bind id (keeps_expectText _ _) fun q => ?_
  refine .bind Prod.snd (keepsNames_parseFixedArgument floats fuel _ _) fun x => ?_
  exact .bind id (keeps_expectText _ _) fun _ => .ok (.refl _)

theorem keepsNames_parseUnsignedType : KeepsNames parseUnsignedType := by
  intro p
  refine .ite (.ok (advances_bump p)) (.ite (.ite (.ok ?_) (.ok (advances_bump p))) ?_)
  · exact (advances_bump p).trans (advances_bump _)
  · exact .errorHere _ _

theorem keepsNames_longType : KeepsNames longType :=
  fun p => .ite (.ok (advances_bump p)) (.ite (.ok (advances_bump p)) (.ok (.refl p)))

theorem keepsNames_namedType : KeepsNames namedType := by
  intro p
  refine .bind Prod.snd (keeps_parseScopedName p) fun x => ?_
  exact .bind id (keeps_skipArguments _) fun _ => .ok (.refl _)

/-- A type keeps the names when the constants in it do, a case per keyword. -/
theorem keepsNames_parseTypeInner {nested : TypeParse} (h : KeepsNames nested) (fuel : Nat) :
    KeepsNames (parseTypeInner floats nested fuel) := by
  intro p
  refine .bind id (keeps_skipAnnotations fuel p) fun p => ?_
  have hbump {parse : TypeParse} (hparse : KeepsNames parse) : Keeps Prod.snd p (parse p.bump) :=
    .of_advances (advances_bump p) (hparse _)
  have hstring (wide : Bool) : KeepsNames fun p => do
      let (bound, p) ← parseOptionalBound floats fuel p
      return (TypeRef.string wide bound, p) :=
    fun p => .bind Prod.snd (keepsNames_parseOptionalBound floats fuel p) fun _ => .ok (.refl _)
  refine .ite ?_ <| .ite ?_ <| .ite (hbump (keepsNames_fixedType floats fuel)) <|
    .ite (hbump (hstring false)) <| .ite (hbump (hstring true)) <|
    .ite (hbump keepsNames_parseUnsignedType) <| .ite (hbump keepsNames_longType) <| .ite ?_ ?_
  · refine .of_advances (advances_bump p) (.bind id (keeps_expectText _ _) fun q => ?_)
    refine .bind Prod.snd (h q) fun x => ?_
    refine .bind Prod.snd (keepsNames_commaBound floats fuel _) fun y => ?_
    exact .bind id (keeps_expectText _ _) fun _ => .ok (.refl _)
  · refine .of_advances (advances_bump p) (.bind id (keeps_expectText _ _) fun q => ?_)
    refine .bind Prod.snd (h q) fun x => .bind id (keeps_expectText _ _) fun q => ?_
    refine .bind Prod.snd (h q) fun x => ?_
    refine .bind Prod.snd (keepsNames_commaBound floats fuel _) fun y => ?_
    exact .bind id (keeps_expectText _ _) fun _ => .ok (.refl _)
  · split
    · exact .ok (advances_bump p)
    · exact keepsNames_namedType p
  · exact keepsNames_namedType p

theorem keepsNames_parseType (fuel : Nat) : KeepsNames (parseType floats fuel) := by
  induction fuel with
  | zero => exact fun p => .errorHere _ _
  | succ fuel ih =>
      intro p
      refine .bind id (keeps_enterNesting p) fun q => ?_
      exact .bind Prod.snd (keepsNames_parseTypeInner floats ih fuel q) fun _ =>
        .ok ⟨fun _ h => h, rfl, rfl⟩

theorem keepsNames_parseArrayDimension (fuel : Nat) :
    KeepsNames (parseArrayDimension floats fuel) := by
  intro p
  refine .bind Prod.snd (keepsNames_parseConstFuel floats fuel _ p) fun x => ?_
  dsimp only
  split
  · exact .ok (.refl _)
  · split
    · exact .ok (.refl _)
    · exact .errorHere _ _

theorem keepsNames_arrayDimensions (fuel : Nat) : KeepsNames (arrayDimensions floats fuel) := by
  induction fuel with
  | zero => exact fun p => .errorHere _ _
  | succ fuel ih =>
      intro p
      refine .ite (.of_advances (advances_bump p) ?_) (.ok (.refl p))
      refine .bind Prod.snd (keepsNames_parseArrayDimension floats fuel _) fun x => ?_
      refine .bind id (keeps_expectText _ _) fun q => ?_
      refine .bind id (keeps_skipAnnotations fuel q) fun r => ?_
      exact .bind Prod.snd (ih r) fun _ => .ok (.refl _)

theorem keepsNames_parseArraySuffix (fuel : Nat) (element : TypeRef) :
    KeepsNames (parseArraySuffix floats fuel element) := by
  intro p
  refine .bind id (keeps_skipAnnotations fuel p) fun q => ?_
  exact .bind Prod.snd (keepsNames_arrayDimensions floats fuel q) fun _ => .ok (.refl _)

end

end Parser

end GovFuzz.IdlParser
