import GovFuzz.IdlParser.ConstExpression

/-!
# IDL parser — integer constant folding

The integer constant expressions of the grammar as trees, their spelling, and
their mathematical value.  The parser reads a tree from its spelling and folds
it; what it folds is the mathematical value but for two operators, the left
shift and the remainder (`Slips`).
-/

namespace GovFuzz.IdlParser

/-! ## Literals -/

/-- The radices of integer literals. -/
inductive LiteralKind where
  | decimal
  | octal
  | hexadecimal
  | capitalHexadecimal
  deriving DecidableEq, Repr

/-- The radix. -/
@[grind =] def LiteralKind.radix : LiteralKind → Nat
  | decimal => 10
  | octal => 8
  | hexadecimal | capitalHexadecimal => 16

/-- What stands in front of the digits. -/
@[grind =] def LiteralKind.mark : LiteralKind → List Char
  | decimal => []
  | octal => ['0']
  | hexadecimal => ['0', 'x']
  | capitalHexadecimal => ['0', 'X']

/-- A decimal literal that starts with a zero is zero. -/
structure IntLiteral where
  kind : LiteralKind
  digits : List Char
  ne_nil : digits ≠ []
  isDigit : ∀ ch ∈ digits, (toDigit kind.radix ch).isSome
  leading : kind = .decimal → digits.head? = some '0' → digits = ['0']

namespace IntLiteral

/-- The literal as it is written. -/
@[grind =] def text (literal : IntLiteral) : List Char := literal.kind.mark ++ literal.digits

/-- The number it writes. -/
@[grind =] def value (literal : IntLiteral) : Int := digitsFrom literal.kind.radix 0 literal.digits

end IntLiteral

theorem toDigit_eq_none_of_le {radix larger : Nat} {ch : Char} (hle : radix ≤ larger)
    (h : toDigit larger ch = none) : toDigit radix ch = none := by
  simp only [toDigit, Option.filter_eq_none_iff, decide_eq_true_eq, not_lt] at h ⊢
  intro digit hdigit
  exact hle.trans (h digit hdigit)

theorem toDigit_eq_none {radix : Nat} {ch : Char}
    (h : ch ∈ ['_', '.', '+', '-', 'u', 'U', 'l', 'L'])
    (hradix : radix ≤ 16) : toDigit radix ch = none := by
  have hall : ∀ ch ∈ ['_', '.', '+', '-', 'u', 'U', 'l', 'L'], toDigit 16 ch = none := by decide
  exact toDigit_eq_none_of_le hradix (hall ch h)

theorem le_radix (kind : LiteralKind) : kind.radix ≤ 16 := by
  cases kind <;> decide

theorem trimEndMatches_eq_self {suffixes text : List Char} {last : Char}
    (hlast : text.getLast? = some last) (h : last ∉ suffixes) :
    trimEndMatches suffixes text = text := by
  obtain ⟨front, rfl⟩ := List.getLast?_eq_some_iff.1 hlast
  simp [trimEndMatches, h]

namespace IntLiteral

theorem ne_of_mem {literal : IntLiteral} {ch other : Char} (h : ch ∈ literal.digits)
    (hother : other ∈ ['_', '.', '+', '-', 'u', 'U', 'l', 'L']) : ch ≠ other := by
  rintro rfl
  have hdigit := literal.isDigit _ h
  rw [toDigit_eq_none hother (le_radix _)] at hdigit
  cases hdigit

theorem normalized_eq (literal : IntLiteral) :
    trimEndMatches ['u', 'U', 'l', 'L'] (literal.text.filter (· ≠ '_')) = literal.text := by
  have hfilter : literal.text.filter (· ≠ '_') = literal.text := by
    rw [List.filter_eq_self]
    intro ch hch
    rw [text, List.mem_append] at hch
    rcases hch with hmark | hdigit
    · cases hkind : literal.kind <;> simp [hkind, LiteralKind.mark] at hmark <;>
        rcases hmark with rfl | rfl <;> decide
    · simpa using ne_of_mem hdigit (by simp)
  obtain ⟨last, hlast⟩ : ∃ last, literal.digits.getLast? = some last :=
    ⟨_, List.getLast?_eq_some_getLast literal.ne_nil⟩
  have hmem := List.mem_of_getLast? hlast
  have htext : literal.text.getLast? = some last := by
    rw [text, List.getLast?_append, hlast]
    rfl
  rw [hfilter]
  refine trimEndMatches_eq_self htext ?_
  intro hsuffix
  exact ne_of_mem hmem (List.mem_append_right ['_', '.', '+', '-'] hsuffix) rfl

theorem fromStrRadix_digits (literal : IntLiteral) :
    fromStrRadix literal.kind.radix literal.digits = checked literal.value := by
  have hall : literal.digits.all (fun ch => (toDigit literal.kind.radix ch).isSome) = true :=
    List.all_eq_true.2 literal.isDigit
  unfold fromStrRadix
  split
  · rename_i digits hdigits
    exact absurd rfl (ne_of_mem (hdigits ▸ List.mem_cons_self ..) (by simp))
  · rename_i digits hdigits
    exact absurd rfl (ne_of_mem (hdigits ▸ List.mem_cons_self ..) (by simp))
  · simp only [ne_eq, literal.ne_nil, not_false_eq_true, hall, and_self, if_true,
      Option.bind_some]
    rfl

theorem ne_of_mem_of_radix_le {literal : IntLiteral} {ch other : Char} (h : ch ∈ literal.digits)
    (hradix : literal.kind.radix ≤ 10) (hother : other ∈ ['x', 'X', 'd', 'D', 'e', 'E']) :
    ch ≠ other := by
  rintro rfl
  have hdigit := literal.isDigit _ h
  have hall : ∀ ch ∈ ['x', 'X', 'd', 'D', 'e', 'E'], toDigit 10 ch = none := by decide
  rw [toDigit_eq_none_of_le hradix (hall ch hother)] at hdigit
  cases hdigit

/-- The text is that of a hexadecimal literal, or no mark of one is in it. -/
theorem not_mem_text {literal : IntLiteral} (hradix : literal.kind.radix ≤ 10) {other : Char}
    (hother : other ∈ ['x', 'X', 'd', 'D', 'e', 'E']) : other ∉ literal.text := by
  intro hmem
  rw [text, List.mem_append] at hmem
  rcases hmem with hmark | hdigit
  · cases hkind : literal.kind with
    | decimal => simp [hkind, LiteralKind.mark] at hmark
    | octal =>
        simp only [hkind, LiteralKind.mark, List.mem_singleton] at hmark
        simp [hmark] at hother
    | hexadecimal => simp [hkind, LiteralKind.radix] at hradix
    | capitalHexadecimal => simp [hkind, LiteralKind.radix] at hradix
  · exact ne_of_mem_of_radix_le hdigit hradix hother rfl

/-- The text of a literal is read as its digits and its radix. -/
theorem radixDigits_text (literal : IntLiteral) :
    radixDigits literal.text = (literal.digits, literal.kind.radix) := by
  cases hkind : literal.kind with
  | decimal =>
      have htext : literal.text = literal.digits := by simp [text, hkind, LiteralKind.mark]
      have hleading := literal.leading hkind
      rw [htext]
      unfold radixDigits
      split
      · simp [*] at hleading
      · simp [*] at hleading
      · simp [*] at hleading
      · rfl
  | octal =>
      have htext : literal.text = '0' :: literal.digits := by simp [text, hkind, LiteralKind.mark]
      have hradix : literal.kind.radix ≤ 10 := by simp [hkind, LiteralKind.radix]
      have hx : 'x' ∉ literal.text := not_mem_text hradix (by simp)
      have hX : 'X' ∉ literal.text := not_mem_text hradix (by simp)
      obtain ⟨digit, octal, hdigits⟩ := List.exists_cons_of_ne_nil literal.ne_nil
      rw [htext, hdigits] at hx hX ⊢
      unfold radixDigits
      split
      · simp_all
      · simp_all
      · simp_all [LiteralKind.radix]
      · rename_i hnot
        exact absurd rfl (hnot digit octal)
  | hexadecimal => simp [text, hkind, LiteralKind.mark, radixDigits, LiteralKind.radix]
  | capitalHexadecimal => simp [text, hkind, LiteralKind.mark, radixDigits, LiteralKind.radix]

theorem parseIntegerLiteral_text (literal : IntLiteral) :
    parseIntegerLiteral literal.text = checked literal.value := by
  rw [parseIntegerLiteral, normalized_eq, radixDigits_text]
  simp only [literal.ne_nil, if_false]
  exact literal.fromStrRadix_digits

theorem hasExponent_eq_false {text : List Char} (h : 'e' ∉ text ∧ 'E' ∉ text) :
    hasExponent text = false := by
  induction text with
  | nil => rfl
  | cons ch text ih =>
      simp only [List.mem_cons, not_or] at h
      have hch : ¬ (ch = 'e' ∨ ch = 'E') := by
        rintro (rfl | rfl) <;> simp at h
      simp [hasExponent, hch, ih ⟨h.1.2, h.2.2⟩]

/-- No integer literal is taken for a floating one. -/
theorem isFloatingLiteral_text (literal : IntLiteral) :
    isFloatingLiteral literal.text = false := by
  cases hkind : literal.kind with
  | hexadecimal => simp [isFloatingLiteral, text, hkind, LiteralKind.mark]
  | capitalHexadecimal => simp [isFloatingLiteral, text, hkind, LiteralKind.mark]
  | _ =>
      have hradix : literal.kind.radix ≤ 10 := by simp [hkind, LiteralKind.radix]
      have hmark : ∀ other ∈ ['x', 'X', 'd', 'D', 'e', 'E'], other ∉ literal.text :=
        fun other hother => not_mem_text hradix hother
      have hpoint : '.' ∉ literal.text := by
        intro hmem
        rw [text, List.mem_append] at hmem
        rcases hmem with hmem | hmem
        · simp [hkind, LiteralKind.mark] at hmem
        · exact ne_of_mem hmem (by simp) rfl
      have hhex : ¬ (['0', 'x'] <+: literal.text ∨ ['0', 'X'] <+: literal.text) := by
        rintro (hpre | hpre)
        · exact hmark 'x' (by simp) (hpre.subset (by simp))
        · exact hmark 'X' (by simp) (hpre.subset (by simp))
      have hlast : ¬ (literal.text.getLast? = some 'd' ∨ literal.text.getLast? = some 'D') := by
        rintro (hl | hl)
        · exact hmark 'd' (by simp) (List.mem_of_getLast? hl)
        · exact hmark 'D' (by simp) (List.mem_of_getLast? hl)
      have hexponent : hasExponent literal.text.tail = false :=
        hasExponent_eq_false ⟨fun hmem => hmark 'e' (by simp) (List.mem_of_mem_tail hmem),
          fun hmem => hmark 'E' (by simp) (List.mem_of_mem_tail hmem)⟩
      simp [isFloatingLiteral, hhex, hpoint, hlast, hexponent]

end IntLiteral

/-! ## Expressions -/

/-- An integer constant expression with all its parentheses. -/
inductive ConstExp where
  | literal (literal : IntLiteral)
  | unary (operator : UnaryOperator) (operand : ConstExp)
  | binary (operator : ConstOperator) (left right : ConstExp)
  | paren (inner : ConstExp)

namespace ConstExp

/-- The kinds and texts of its tokens. -/
def spelling : ConstExp → List (TokenKind × List Char)
  | literal value => [(.number, value.text)]
  | unary operator operand => (.punctuation, operator.text) :: operand.spelling
  | binary operator left right =>
      left.spelling ++ operator.text.map (fun ch => (.punctuation, [ch])) ++ right.spelling
  | paren inner => (.punctuation, ['(']) :: inner.spelling ++ [(.punctuation, [')'])]

/-- Above every binary operator. -/
def unaryLevel : Nat := 7

/-- It stands where an expression of this level is asked for, with every
operand in parentheses that needs them; between type brackets that is a shift
to the right, too. -/
def Printed (bracketed : Bool) : Nat → ConstExp → Prop
  | _, literal _ => True
  | _, unary _ operand => Printed bracketed unaryLevel operand
  | level, binary operator left right =>
      level ≤ operator.precedence ∧ (operator = .shr → bracketed = false) ∧
        Printed bracketed operator.precedence left ∧
        Printed bracketed (operator.precedence + 1) right
  | _, paren inner => Printed false minConstPrecedence inner

/-- How deep the parser nests. -/
@[grind =] def nesting : ConstExp → Nat
  | literal _ => 0
  | unary _ operand => operand.nesting + 1
  | binary _ left right => max left.nesting right.nesting
  | paren inner => inner.nesting + 1

/-- The literals fit. -/
def Fits : ConstExp → Prop
  | literal value => InI128 value.value
  | unary _ operand => operand.Fits
  | binary _ left right => left.Fits ∧ right.Fits
  | paren inner => inner.Fits

/-- What the parser folds. -/
@[grind =] def fold : ConstExp → Option Int
  | literal value => some value.value
  | unary operator operand => operand.fold.bind (evalUnaryOperator operator)
  | binary operator left right =>
      match left.fold, right.fold with
      | some left, some right => evalIntegerOperator operator left right
      | _, _ => none
  | paren inner => inner.fold

/-! ## The mathematical value -/

/-- The operator on unbounded integers. -/
@[grind =] def exactOperator : ConstOperator → Int → Int → Option Int
  | .shl, left, right => if right < 0 then none else some (left * (2 ^ right.toNat : Nat))
  | .shr, left, right => if right < 0 then none else some (left.fdiv (2 ^ right.toNat : Nat))
  | .or, left, right => some (left.lor right)
  | .and, left, right => some (left.land right)
  | .xor, left, right => some (left.xor right)
  | .add, left, right => some (left + right)
  | .sub, left, right => some (left - right)
  | .mul, left, right => some (left * right)
  | .div, left, right => if right = 0 then none else some (left.tdiv right)
  | .mod, left, right => if right = 0 then none else some (left.tmod right)

/-- The sign on unbounded integers. -/
@[grind =] def exactUnary : UnaryOperator → Int → Int
  | .minus, value => -value
  | .plus, value => value
  | .complement, value => -value - 1

/-- The value over unbounded integers. -/
@[grind =] def exact : ConstExp → Option Int
  | literal value => some value.value
  | unary operator operand => operand.exact.map (exactUnary operator)
  | binary operator left right =>
      match left.exact, right.exact with
      | some left, some right => exactOperator operator left right
      | _, _ => none
  | paren inner => inner.exact

/-- Division by zero, or a shift by a negative or too large amount. -/
def OperatorUndefined (operator : ConstOperator) (right : Int) : Prop :=
  ((operator = .div ∨ operator = .mod) ∧ right = 0) ∨
    ((operator = .shl ∨ operator = .shr) ∧ (right < 0 ∨ 128 ≤ right))

/-- The exact value does not fit in 128 bits. -/
def LeavesRange (e : ConstExp) : Prop := ∃ value, e.exact = some value ∧ ¬ InI128 value

/-- Some subexpression divides by zero, shifts by a negative or too large
amount, or leaves the range. -/
def Undefined : ConstExp → Prop
  | literal value => LeavesRange (literal value)
  | unary operator operand => operand.Undefined ∨ LeavesRange (unary operator operand)
  | binary operator left right =>
      left.Undefined ∨ right.Undefined ∨ LeavesRange (binary operator left right) ∨
        ∃ value, right.exact = some value ∧ OperatorUndefined operator value
  | paren inner => inner.Undefined

/-- The operators that are not exact: a left shift of a value that leaves the
range, and the remainder of the least value by -1. -/
def OperatorSlips (operator : ConstOperator) (left right : Int) : Prop :=
  (operator = .shl ∧ 0 ≤ right ∧ right < 128 ∧ ¬ InI128 (left * (2 ^ right.toNat : Nat))) ∨
    (operator = .mod ∧ left = i128Min ∧ right = -1)

def Slips : ConstExp → Prop
  | literal _ => False
  | unary _ operand => operand.Slips
  | binary operator left right =>
      left.Slips ∨ right.Slips ∨
        ∃ x y, left.exact = some x ∧ InI128 x ∧ right.exact = some y ∧ OperatorSlips operator x y
  | paren inner => inner.Slips

end ConstExp

/-! ### The operators -/

theorem checked_eq_some {value result : Int} (h : checked value = some result) :
    result = value ∧ InI128 value := by
  unfold checked at h
  split at h
  · cases h
    exact ⟨rfl, ‹_›⟩
  · cases h

theorem checked_eq_none {value : Int} (h : checked value = none) : ¬ InI128 value := by
  unfold checked at h
  split at h
  · cases h
  · assumption

theorem inI128_iff (value : Int) :
    InI128 value ↔ -170141183460469231731687303715884105728 ≤ value ∧
      value ≤ 170141183460469231731687303715884105727 := Iff.rfl

theorem inI128_natCast (n : Nat) : InI128 (n : Int) ↔ n < 2 ^ 127 := by
  rw [inI128_iff]
  omega

theorem inI128_negSucc (n : Nat) : InI128 (Int.negSucc n) ↔ n < 2 ^ 127 := by
  rw [inI128_iff]
  omega

section
variable {x y : Int} (hx : InI128 x) (hy : InI128 y)
include hx hy

theorem inI128_lor : InI128 (x.lor y) := by
  cases x <;> cases y <;>
    simp only [Int.ofNat_eq_natCast, Int.lor, inI128_natCast, inI128_negSucc] at hx hy ⊢
  · exact Nat.or_lt_two_pow hx hy
  · exact Nat.bitwise_lt_two_pow hy hx
  · exact Nat.bitwise_lt_two_pow hx hy
  · exact Nat.and_lt_two_pow _ hy

theorem inI128_land : InI128 (x.land y) := by
  cases x <;> cases y <;>
    simp only [Int.ofNat_eq_natCast, Int.land, inI128_natCast, inI128_negSucc] at hx hy ⊢
  · exact Nat.and_lt_two_pow _ hy
  · exact Nat.bitwise_lt_two_pow hx hy
  · exact Nat.bitwise_lt_two_pow hy hx
  · exact Nat.or_lt_two_pow hx hy

theorem inI128_xor : InI128 (x.xor y) := by
  cases x <;> cases y <;>
    simp only [Int.ofNat_eq_natCast, Int.xor, inI128_natCast, inI128_negSucc] at hx hy ⊢ <;>
    exact Nat.xor_lt_two_pow hx hy

end

/-- A value between a value of the range and zero. -/
theorem InI128.of_natAbs_le {x y : Int} (hx : InI128 x) (hsign : (0 ≤ x → 0 ≤ y) ∧ (x ≤ 0 → y ≤ 0))
    (habs : y.natAbs ≤ x.natAbs) : InI128 y := by
  rw [inI128_iff] at hx ⊢
  omega

theorem inI128_tmod {x : Int} (hx : InI128 x) (y : Int) : InI128 (x.tmod y) := by
  refine hx.of_natAbs_le ⟨Int.tmod_nonneg y, ?_⟩ ?_
  · intro hneg
    have hopposite := Int.tmod_nonneg y (Int.neg_nonneg_of_nonpos hneg)
    rw [Int.neg_tmod] at hopposite
    omega
  · rw [Int.natAbs_tmod]
    exact Nat.mod_le _ _

theorem shiftRight_eq_fdiv (x : Int) (shift : Nat) : x >>> shift = x.fdiv (2 ^ shift : Nat) := by
  rw [Int.shiftRight_eq_div_pow, Int.fdiv_eq_ediv_of_nonneg _ (Int.natCast_nonneg _)]

theorem inI128_shiftRight {x : Int} (hx : InI128 x) (shift : Nat) : InI128 (x >>> shift) := by
  rw [Int.shiftRight_eq_div_pow]
  have hpos : (1 : Int) ≤ (2 ^ shift : Nat) := by exact_mod_cast Nat.one_le_two_pow
  rw [inI128_iff] at hx ⊢
  rcases Int.le_total 0 x with hsign | hsign
  · have hlow := Int.ediv_nonneg hsign (Int.le_trans (by decide) hpos)
    have hhigh := Int.ediv_le_self (2 ^ shift : Nat) hsign
    omega
  · have hlow : x ≤ x / (2 ^ shift : Nat) := by
      refine Int.le_ediv_of_mul_le (by omega) ?_
      have hscaled := Int.mul_le_mul_of_nonpos_left hsign hpos
      omega
    have hhigh : x / (2 ^ shift : Nat) ≤ 0 := Int.ediv_nonpos_of_nonpos_of_neg hsign (by omega)
    omega

theorem bmod_eq_self {value : Int} (h : InI128 value) : value.bmod (2 ^ 128) = value := by
  rw [inI128_iff] at h
  exact Int.bmod_eq_of_le_mul_two (by omega) (by omega)

theorem lnot_eq (x : Int) : x.lnot = -x - 1 := by
  cases x <;> simp only [Int.ofNat_eq_natCast, Int.lnot] <;> omega

theorem toU32_eq_some {value : Int} {shift : Nat} (h : toU32 value = some shift) :
    0 ≤ value ∧ shift = value.toNat := by
  unfold toU32 at h
  split at h
  · cases h
    exact ⟨by omega, rfl⟩
  · cases h

theorem toU32_eq_none {value : Int} (h : toU32 value = none) : value < 0 ∨ 128 ≤ value := by
  unfold toU32 at h
  split at h
  · cases h
  · omega

open ConstExp in
/-- What an operator folds, away from its slips: the exact value, or nothing,
for a reason. -/
structure OperatorFolds (operator : ConstOperator) (x y : Int) : Prop where
  of_some : ∀ value, evalIntegerOperator operator x y = some value →
    exactOperator operator x y = some value ∧ InI128 value
  of_none : evalIntegerOperator operator x y = none → OperatorUndefined operator y ∨
    ∃ value, exactOperator operator x y = some value ∧ ¬ InI128 value

namespace OperatorFolds

open ConstExp

variable {x y : Int}

/-- Where both compute the same value, which is in the range. -/
theorem of_eq {operator : ConstOperator} {value : Int}
    (heval : evalIntegerOperator operator x y = some value)
    (hexact : exactOperator operator x y = some value) (h : InI128 value) :
    OperatorFolds operator x y := by
  constructor
  · intro result hresult
    rw [heval] at hresult
    cases hresult
    exact ⟨hexact, h⟩
  · intro hnone
    rw [heval] at hnone
    cases hnone

/-- Where the value is checked. -/
theorem of_checked {operator : ConstOperator} {value : Int}
    (heval : evalIntegerOperator operator x y = checked value)
    (hexact : exactOperator operator x y = some value) : OperatorFolds operator x y := by
  constructor
  · intro result hresult
    rw [heval] at hresult
    obtain ⟨rfl, hrange⟩ := checked_eq_some hresult
    exact ⟨hexact, hrange⟩
  · intro hnone
    rw [heval] at hnone
    exact .inr ⟨value, hexact, checked_eq_none hnone⟩

theorem of_undefined {operator : ConstOperator}
    (heval : evalIntegerOperator operator x y = none) (h : OperatorUndefined operator y) :
    OperatorFolds operator x y := by
  constructor
  · intro result hresult
    rw [heval] at hresult
    cases hresult
  · intro hnone
    exact .inl h

theorem shl (hslip : ¬ OperatorSlips .shl x y) : OperatorFolds .shl x y := by
  cases hshift : toU32 y with
  | none =>
      refine of_undefined ?_ (.inr ⟨.inl rfl, toU32_eq_none hshift⟩)
      simp [evalIntegerOperator, hshift]
  | some shift =>
      obtain ⟨hsign, rfl⟩ := toU32_eq_some hshift
      by_cases hlt : y.toNat < 128
      · have hrange : InI128 (x * (2 ^ y.toNat : Nat)) := by
          by_contra hout
          exact hslip (.inl ⟨rfl, hsign, by omega, hout⟩)
        refine of_eq ?_ ?_ hrange
        · simp only [evalIntegerOperator, hshift, Option.bind_some, checkedShl, if_pos hlt,
            bmod_eq_self hrange]
        · simp only [exactOperator, if_neg (Int.not_lt.2 hsign)]
      · refine of_undefined ?_ (.inr ⟨.inl rfl, .inr (by omega)⟩)
        simp only [evalIntegerOperator, hshift, Option.bind_some, checkedShl, if_neg hlt]

theorem shr (hx : InI128 x) : OperatorFolds .shr x y := by
  cases hshift : toU32 y with
  | none =>
      refine of_undefined ?_ (.inr ⟨.inr rfl, toU32_eq_none hshift⟩)
      simp [evalIntegerOperator, hshift]
  | some shift =>
      obtain ⟨hsign, rfl⟩ := toU32_eq_some hshift
      by_cases hlt : y.toNat < 128
      · refine of_eq ?_ ?_ (inI128_shiftRight hx y.toNat)
        · simp only [evalIntegerOperator, hshift, Option.bind_some, checkedShr, if_pos hlt]
        · simp only [exactOperator, if_neg (Int.not_lt.2 hsign), shiftRight_eq_fdiv]
      · refine of_undefined ?_ (.inr ⟨.inr rfl, .inr (by omega)⟩)
        simp only [evalIntegerOperator, hshift, Option.bind_some, checkedShr, if_neg hlt]

theorem div : OperatorFolds .div x y := by
  by_cases hzero : y = 0
  · refine of_undefined ?_ (.inl ⟨.inl rfl, hzero⟩)
    simp [evalIntegerOperator, hzero]
  · have heval : evalIntegerOperator .div x y = checked (x.tdiv y) := by
      simp [evalIntegerOperator, hzero]
    exact of_checked heval (by simp [exactOperator, hzero])

theorem mod (hx : InI128 x) (hslip : ¬ OperatorSlips .mod x y) : OperatorFolds .mod x y := by
  by_cases hzero : y = 0
  · refine of_undefined ?_ (.inl ⟨.inr rfl, hzero⟩)
    simp [evalIntegerOperator, hzero]
  · refine of_eq ?_ ?_ (inI128_tmod hx y)
    · have hoverflow : ¬ (x = i128Min ∧ y = -1) := fun h => hslip (.inr ⟨rfl, h.1, h.2⟩)
      simp only [evalIntegerOperator, if_neg hzero, checkedRem, if_neg hoverflow]
    · simp [exactOperator, hzero]

end OperatorFolds

open ConstExp in
theorem operatorFolds {operator : ConstOperator} {x y : Int} (hx : InI128 x) (hy : InI128 y)
    (hslip : ¬ OperatorSlips operator x y) : OperatorFolds operator x y := by
  cases operator with
  | or => exact .of_eq rfl rfl (inI128_lor hx hy)
  | xor => exact .of_eq rfl rfl (inI128_xor hx hy)
  | and => exact .of_eq rfl rfl (inI128_land hx hy)
  | shl => exact .shl hslip
  | shr => exact .shr hx
  | add => exact .of_checked rfl rfl
  | sub => exact .of_checked rfl rfl
  | mul => exact .of_checked rfl rfl
  | div => exact .div
  | mod => exact .mod hx hslip

/-! ### The tree -/

namespace ConstExp

/-- What is folded of an expression, away from the slips. -/
structure Folds (e : ConstExp) : Prop where
  of_some : ∀ value, e.fold = some value → e.exact = some value ∧ InI128 value
  of_none : e.fold = none → e.Undefined

/-- An expression under an operator folds when its operand does. -/
theorem Folds.unary {operator : UnaryOperator} {operand : ConstExp} (h : operand.Folds) :
    (unary operator operand).Folds := by
  cases hfold : operand.fold with
  | none =>
      constructor
      · intro value hvalue
        simp [fold, hfold] at hvalue
      · intro _
        exact .inl (h.of_none hfold)
  | some x =>
      obtain ⟨hexact, hrange⟩ := h.of_some x hfold
      cases operator with
      | minus =>
          constructor
          · intro value hvalue
            simp only [fold, hfold, Option.bind_some, evalUnaryOperator] at hvalue
            obtain ⟨rfl, hin⟩ := checked_eq_some hvalue
            exact ⟨by simp [exact, hexact, exactUnary], hin⟩
          · intro hnone
            simp only [fold, hfold, Option.bind_some, evalUnaryOperator] at hnone
            exact .inr ⟨-x, by simp [exact, hexact, exactUnary], checked_eq_none hnone⟩
      | plus =>
          constructor
          · intro value hvalue
            simp only [fold, hfold, Option.bind_some, evalUnaryOperator, Option.some.injEq]
              at hvalue
            subst hvalue
            exact ⟨by simp [exact, hexact, exactUnary], hrange⟩
          · intro hnone
            simp [fold, hfold, evalUnaryOperator] at hnone
      | complement =>
          constructor
          · intro value hvalue
            simp only [fold, hfold, Option.bind_some, evalUnaryOperator, Option.some.injEq,
              lnot_eq] at hvalue
            subst hvalue
            rw [inI128_iff] at hrange ⊢
            exact ⟨by simp [exact, hexact, exactUnary], by omega⟩
          · intro hnone
            simp [fold, hfold, evalUnaryOperator] at hnone

/-- A binary expression folds when both sides do and the operator does not slip on their
values. -/
theorem Folds.binary {operator : ConstOperator} {left right : ConstExp} (hleft : left.Folds)
    (hright : right.Folds) (hslip : ∀ x y, left.exact = some x → InI128 x →
      right.exact = some y → ¬ OperatorSlips operator x y) :
    (binary operator left right).Folds := by
  cases hfoldLeft : left.fold with
  | none =>
      constructor
      · intro value hvalue
        simp [fold, hfoldLeft] at hvalue
      · intro _
        exact .inl (hleft.of_none hfoldLeft)
  | some x =>
      cases hfoldRight : right.fold with
      | none =>
          constructor
          · intro value hvalue
            simp [fold, hfoldLeft, hfoldRight] at hvalue
          · intro _
            exact .inr (.inl (hright.of_none hfoldRight))
      | some y =>
          obtain ⟨hx, hxrange⟩ := hleft.of_some x hfoldLeft
          obtain ⟨hy, hyrange⟩ := hright.of_some y hfoldRight
          have hfolds := operatorFolds hxrange hyrange (hslip x y hx hxrange hy)
          constructor
          · intro value hvalue
            simp only [fold, hfoldLeft, hfoldRight] at hvalue
            simpa only [exact, hx, hy] using hfolds.of_some value hvalue
          · intro hnone
            simp only [fold, hfoldLeft, hfoldRight] at hnone
            rcases hfolds.of_none hnone with hundefined | ⟨value, hvalue, hout⟩
            · exact .inr (.inr (.inr ⟨y, hy, hundefined⟩))
            · exact .inr (.inr (.inl ⟨value, by simpa only [exact, hx, hy] using hvalue, hout⟩))

theorem folds {e : ConstExp} (hfits : e.Fits) (hslips : ¬ e.Slips) : e.Folds := by
  induction e with
  | literal value =>
      constructor
      · intro result hresult
        cases hresult
        exact ⟨rfl, hfits⟩
      · intro hnone
        cases hnone
  | unary operator operand ih => exact (ih hfits hslips).unary
  | binary operator left right ihLeft ihRight =>
      simp only [Slips, not_or, not_exists, not_and] at hslips
      exact (ihLeft hfits.1 hslips.1).binary (ihRight hfits.2 hslips.2.1) hslips.2.2
  | paren inner ih =>
      have hinner := ih hfits hslips
      exact ⟨hinner.of_some, hinner.of_none⟩

end ConstExp

/-! ## Reading an expression from its spelling -/

/-- The token without its place. -/
def Token.spelled (token : Token) : TokenKind × List Char := (token.kind, token.text)

/-- The tokens are those of the expression, wherever they stand. -/
def Spells (tokens : List Token) (e : ConstExp) : Prop := tokens.map Token.spelled = e.spelling

section
variable {F : Type} (floats : FloatOps F)

/-- What the parser returns for an expression; only one with an operator may
have a floating value. -/
structure Represents (e : ConstExp) (expression : ConstExpression F) : Prop where
  numericValue : expression.numericValue = e.fold
  value : expression.hasOperator = false → ∀ text, expression.value ≠ .float text

theorem Represents.unary {e : ConstExp} {operand : ConstExpression F} (h : Represents e operand)
    (operator : UnaryOperator) :
    Represents (.unary operator e) (unaryExpression floats operator operand) := by
  have hfolded : unaryExpression floats operator operand = foldedUnary floats operator operand := by
    unfold unaryExpression
    split
    · rename_i literal hvalue
      rw [if_neg]
      intro hliteral
      exact h.value (by simpa using hliteral.2) literal hvalue
    · rfl
  rw [hfolded]
  constructor
  · simp only [foldedUnary, h.numericValue, ConstExp.fold]
  · intro hoperator
    simp [foldedUnary] at hoperator

theorem Represents.binary {left right : ConstExp} {x y : ConstExpression F}
    (hleft : Represents left x) (hright : Represents right y) (operator : ConstOperator) :
    Represents (.binary operator left right) (binaryExpression floats operator x y) := by
  constructor
  · have hl := hleft.numericValue
    have hr := hright.numericValue
    cases hx : left.fold <;> cases hy : right.fold <;>
      simp [binaryExpression, ConstExp.fold, hl, hr, hx, hy]
  · intro hoperator
    simp [binaryExpression] at hoperator

/-! ### The tokens ahead -/

section
variable (p : Parser) {token : Token} (rest : List Token)

theorem bump_punctuation {text : List Char} (h : token.spelled = (.punctuation, text)) :
    bump (token :: rest) = rest := by
  apply bump_cons
  rw [show token.kind = .punctuation from congrArg Prod.fst h]
  decide

theorem peekUnaryOperator_spelled {operator : UnaryOperator}
    (h : token.spelled = (.punctuation, operator.text)) :
    Parser.peekUnaryOperator { p with tokens := token :: rest } = some operator := by
  have hkind : token.kind = .punctuation := congrArg Prod.fst h
  have htext : token.text = operator.text := congrArg Prod.snd h
  cases operator <;> simp [Parser.peekUnaryOperator, hkind, htext, UnaryOperator.text]

theorem enterNesting_of_le (h : p.depth + 1 ≤ Parser.maxNestDepth) :
    p.enterNesting = .ok { p with depth := p.depth + 1 } := by
  simp [Parser.enterNesting, Nat.not_lt.2 h]

/-- The tokens of an operator, where it is one. -/
theorem peekConstOperator_spelled {operator : ConstOperator} {tokens : List Token}
    (h : tokens.map Token.spelled = operator.text.map fun ch => (.punctuation, [ch]))
    (hshr : operator = .shr → p.typeBracketDepth = 0) :
    Parser.peekConstOperator { p with tokens := tokens ++ rest } = some operator ∧
      Parser.consumeConstOperator { p with tokens := tokens ++ rest } operator
        = { p with tokens := rest } := by
  have hone : ∀ ch, tokens.map Token.spelled = [(.punctuation, [ch])] → ∃ token : Token,
      tokens = [token] ∧ token.kind = .punctuation ∧ token.text = [ch] := by
    intro ch hch
    obtain ⟨token, rfl, htoken⟩ := List.map_eq_singleton_iff.1 hch
    exact ⟨token, rfl, congrArg Prod.fst htoken, congrArg Prod.snd htoken⟩
  have htwo : ∀ ch, tokens.map Token.spelled = [(.punctuation, [ch]), (.punctuation, [ch])] →
      ∃ token token' : Token, tokens = [token, token'] ∧ (token.kind = .punctuation ∧
        token.text = [ch]) ∧ (token'.kind = .punctuation ∧ token'.text = [ch]) := by
    intro ch hch
    obtain ⟨token, more, rfl, htoken, hmore⟩ := List.map_eq_cons_iff.1 hch
    obtain ⟨token', rfl, htoken'⟩ := List.map_eq_singleton_iff.1 hmore
    exact ⟨token, token', rfl, ⟨congrArg Prod.fst htoken, congrArg Prod.snd htoken⟩,
      congrArg Prod.fst htoken', congrArg Prod.snd htoken'⟩
  cases operator with
  | shl =>
      obtain ⟨token, token', rfl, ⟨hkind, htext⟩, hkind', htext'⟩ := htwo '<' h
      simp [Parser.peekConstOperator, Parser.consumeConstOperator, Parser.following, Parser.bump,
        bump, atEnd, hkind, hkind', htext, htext']
  | shr =>
      obtain ⟨token, token', rfl, ⟨hkind, htext⟩, hkind', htext'⟩ := htwo '>' h
      simp [Parser.peekConstOperator, Parser.consumeConstOperator, Parser.following, Parser.bump,
        bump, atEnd, hkind, hkind', htext, htext', hshr rfl]
  | _ =>
      obtain ⟨token, rfl, hkind, htext⟩ := hone _ h
      simp [Parser.peekConstOperator, Parser.consumeConstOperator, Parser.bump, bump, atEnd, hkind,
        htext]

end

/-! ### The tree -/

/-- The parser reads the expression as an operand of a unary operator. -/
def ReadsUnary (e : ConstExp) : Prop :=
  ∀ (p : Parser) (tokens rest : List Token) (fuel rounds : Nat), Spells tokens e →
    e.Printed (decide (p.typeBracketDepth ≠ 0)) ConstExp.unaryLevel →
    p.depth + e.nesting ≤ Parser.maxNestDepth → (tokens ++ rest).length ≤ fuel →
    tokens.length < rounds →
    ∃ x, Represents e x ∧
      Parser.parseConstUnary floats (Parser.parseConstFuel floats fuel minConstPrecedence) rounds
        { p with tokens := tokens ++ rest } = .ok (x, { p with tokens := rest })

/-- It reads the expression and goes on with its loop behind it. -/
def Reads (e : ConstExp) : Prop :=
  ∀ (p : Parser) (tokens rest : List Token) (fuel level minPrecedence : Nat), Spells tokens e →
    e.Printed (decide (p.typeBracketDepth ≠ 0)) level → minPrecedence ≤ level →
    p.depth + e.nesting ≤ Parser.maxNestDepth → (tokens ++ rest).length ≤ fuel →
    (∀ operator, Parser.peekConstOperator { p with tokens := rest } = some operator →
      operator.precedence ≤ level) →
    ∃ x rounds, Represents e x ∧ rest.length < rounds ∧
      Parser.parseConstFuel floats (fuel + 1) minPrecedence { p with tokens := tokens ++ rest }
        = Parser.parseConstLoop floats (Parser.parseConstFuel floats fuel) rounds minPrecedence x
            { p with tokens := rest }

variable {floats}

theorem Reads.of_unary {e : ConstExp} (h : ReadsUnary floats e)
    (hprinted : ∀ bracketed level, e.Printed bracketed level →
      e.Printed bracketed ConstExp.unaryLevel) : Reads floats e := by
  intro p tokens rest fuel level minPrecedence hspells hlevel _ hdepth hfuel _
  rw [List.length_append] at hfuel
  obtain ⟨x, hx, hparse⟩ := h p tokens rest fuel (fuel + 1) hspells (hprinted _ _ hlevel) hdepth
    (by rw [List.length_append]; omega) (by omega)
  refine ⟨x, fuel + 1, hx, by omega, ?_⟩
  rw [Parser.parseConstFuel, hparse]
  rfl

theorem readsUnary_literal {literal : IntLiteral} (hfits : InI128 literal.value) :
    ReadsUnary floats (.literal literal) := by
  intro p tokens rest fuel rounds hspells _ _ _ hrounds
  obtain ⟨token, rfl, htoken⟩ := List.map_eq_singleton_iff.1 hspells
  have hkind : token.kind = .number := congrArg Prod.fst htoken
  have htext : token.text = literal.text := congrArg Prod.snd htoken
  obtain ⟨rounds, rfl⟩ := Nat.exists_eq_succ_of_ne_zero (Nat.ne_zero_of_lt hrounds)
  have hvalue : parseIntegerLiteral token.text = some literal.value := by
    rw [htext, literal.parseIntegerLiteral_text, checked, if_pos hfits]
  have hfloat : isFloatingLiteral token.text = false := by
    rw [htext, literal.isFloatingLiteral_text]
  refine ⟨_, ?_, by
    simp [Parser.parseConstUnary, Parser.peekUnaryOperator, hkind, Parser.parseConstAtom,
      Parser.consumeKeyword, Parser.numberAtom, hvalue, hfloat, Parser.bump, bump, atEnd]
    rfl⟩
  exact ⟨rfl, fun _ text => by simp⟩

theorem ReadsUnary.unary {e : ConstExp} (h : ReadsUnary floats e) (operator : UnaryOperator) :
    ReadsUnary floats (.unary operator e) := by
  intro p tokens rest fuel rounds hspells hprinted hdepth hfuel hrounds
  obtain ⟨token, tokens, rfl, htoken, hoperand⟩ := List.map_eq_cons_iff.1 hspells
  obtain ⟨rounds, rfl⟩ := Nat.exists_eq_succ_of_ne_zero (Nat.ne_zero_of_lt hrounds)
  simp only [ConstExp.nesting, List.cons_append, List.length_cons] at hdepth hfuel hrounds
  obtain ⟨x, hx, hparse⟩ := h { p with depth := p.depth + 1 } tokens rest fuel rounds hoperand
    hprinted (by simp only; omega) (by omega) (by omega)
  refine ⟨_, hx.unary floats operator, ?_⟩
  have hnesting := enterNesting_of_le { p with tokens := tokens ++ rest } (by simp only; omega)
  simp only [Parser.parseConstUnary, List.cons_append,
    peekUnaryOperator_spelled p (tokens ++ rest) htoken, Parser.bump,
    bump_punctuation (tokens ++ rest) htoken, hnesting]
  dsimp only at hparse
  simp only [bind, Except.bind, hparse]
  rfl

/-- A closing parenthesis ends an expression. -/
theorem peekConstOperator_close (p : Parser) {token : Token} (rest : List Token)
    (h : token.spelled = (.punctuation, [')'])) :
    Parser.peekConstOperator { p with tokens := token :: rest } = none := by
  have htext : token.text = [')'] := congrArg Prod.snd h
  simp [Parser.peekConstOperator, htext]

theorem expectText_spelled (p : Parser) {token : Token} (rest : List Token) {text : List Char}
    (h : token.spelled = (.punctuation, text)) :
    Parser.expectText { p with tokens := token :: rest } text = .ok { p with tokens := rest } := by
  have htext : token.text = text := congrArg Prod.snd h
  simp [Parser.expectText, Parser.consumeText, htext, Parser.bump, bump_punctuation rest h]

/-- Where no operator is ahead the loop ends. -/
theorem parseConstLoop_stop (operand : Nat → Parser.ConstParse F) {rounds minPrecedence : Nat}
    (hrounds : 0 < rounds) (x : ConstExpression F) {p : Parser}
    (h : ∀ operator, p.peekConstOperator = some operator → operator.precedence < minPrecedence) :
    Parser.parseConstLoop floats operand rounds minPrecedence x p = .ok (x, p) := by
  obtain ⟨rounds, rfl⟩ := Nat.exists_eq_succ_of_ne_zero (Nat.ne_zero_of_lt hrounds)
  cases hpeek : p.peekConstOperator with
  | none => simp [Parser.parseConstLoop, hpeek]
  | some operator => simp [Parser.parseConstLoop, hpeek, h operator hpeek]

/-- An expression in parentheses is read as an operand. -/
theorem ReadsUnary.paren {e : ConstExp} (h : Reads floats e) : ReadsUnary floats (.paren e) := by
  intro p tokens rest fuel rounds hspells hprinted hdepth hfuel hrounds
  obtain ⟨front, tail, rfl, hfront, htail⟩ := List.map_eq_append_iff.1 hspells
  obtain ⟨opening, tokens, rfl, hopening, hinner⟩ := List.map_eq_cons_iff.1 hfront
  obtain ⟨closing, rfl, hclosing⟩ := List.map_eq_singleton_iff.1 htail
  obtain ⟨rounds, rfl⟩ := Nat.exists_eq_succ_of_ne_zero (Nat.ne_zero_of_lt hrounds)
  simp only [ConstExp.nesting, List.cons_append, List.append_assoc, List.nil_append,
    List.length_cons] at hdepth hfuel hrounds
  obtain ⟨fuel, rfl⟩ := Nat.exists_eq_succ_of_ne_zero (Nat.ne_zero_of_lt hfuel)
  -- inside the parentheses no type bracket is open
  obtain ⟨x, left, hx, hleft, hparse⟩ := h { p with depth := p.depth + 1, typeBracketDepth := 0 }
    tokens (closing :: rest) fuel minConstPrecedence minConstPrecedence hinner hprinted
    (Nat.le_refl _) (by simp only; omega) (by omega)
    (by
      intro operator hoperator
      rw [peekConstOperator_close _ rest hclosing] at hoperator
      cases hoperator)
  rw [parseConstLoop_stop _ (by omega) x (by
    intro operator hoperator
    rw [peekConstOperator_close _ rest hclosing] at hoperator
    cases hoperator)] at hparse
  dsimp only at hparse
  have hnesting := enterNesting_of_le { p with tokens := tokens ++ closing :: rest }
    (by simp only; omega)
  have hexpect := expectText_spelled p rest hclosing
  have hkind : opening.kind = .punctuation := congrArg Prod.fst hopening
  have htext : opening.text = ['('] := congrArg Prod.snd hopening
  have hunary : Parser.peekUnaryOperator { p with tokens := opening :: (tokens ++ closing :: rest) }
      = none := by
    simp [Parser.peekUnaryOperator, hkind, htext]
  refine ⟨{ x with text := ['('] ++ x.text ++ [')'] }, ⟨hx.numericValue, hx.value⟩, ?_⟩
  simp only [List.cons_append, List.append_assoc, List.nil_append, Parser.parseConstUnary, hunary,
    Parser.parseConstAtom, peek_cons, hkind, htext, and_self, if_true, Parser.bump,
    bump_punctuation _ hopening, hnesting, bind, Except.bind, hparse, Nat.add_sub_cancel, hexpect]
  rfl

/-- A binary expression is read back when both sides are. -/
theorem Reads.binary {left right : ConstExp} (hleft : Reads floats left)
    (hright : Reads floats right) (operator : ConstOperator) :
    Reads floats (.binary operator left right) := by
  intro p tokens rest fuel level minPrecedence hspells hprinted hmin hdepth hfuel hnext
  obtain ⟨hlevel, hshr, hprintedLeft, hprintedRight⟩ := hprinted
  obtain ⟨front, back, rfl, hfront, hback⟩ := List.map_eq_append_iff.1 hspells
  obtain ⟨front, middle, rfl, hfront, hmiddle⟩ := List.map_eq_append_iff.1 hfront
  have hmid : 0 < middle.length := by
    have hlen := congrArg List.length hmiddle
    rw [List.length_map, List.length_map] at hlen
    rw [hlen]
    cases operator <;> decide
  simp only [ConstExp.nesting, List.append_assoc, List.length_append] at hdepth hfuel
  obtain ⟨hpeek, hconsume⟩ := peekConstOperator_spelled p (back ++ rest) hmiddle
    (fun h => by simpa using hshr h)
  obtain ⟨x, rounds, hx, hrounds, hparseLeft⟩ := hleft p front (middle ++ (back ++ rest)) fuel
    operator.precedence minPrecedence hfront hprintedLeft (by omega) (by omega)
    (by simp only [List.length_append]; omega)
    (by
      intro next hopen
      rw [hpeek] at hopen
      cases hopen
      exact Nat.le_refl _)
  simp only [List.length_append] at hrounds
  obtain ⟨fuel, rfl⟩ := Nat.exists_eq_succ_of_ne_zero (show fuel ≠ 0 by omega)
  obtain ⟨y, rounds', hy, hrounds', hparseRight⟩ := hright p back rest fuel
    (operator.precedence + 1) (operator.precedence + 1) hback hprintedRight (Nat.le_refl _)
    (by omega) (by simp only [List.length_append]; omega)
    (fun next hopen => by have := hnext next hopen; omega)
  rw [parseConstLoop_stop _ (by omega) y (fun next hopen => by have := hnext next hopen; omega)]
    at hparseRight
  obtain ⟨rounds, rfl⟩ := Nat.exists_eq_succ_of_ne_zero (Nat.ne_zero_of_lt hrounds)
  refine ⟨_, rounds, hx.binary floats hy operator, by omega, ?_⟩
  rw [List.append_assoc, List.append_assoc, hparseLeft, Parser.parseConstLoop, hpeek]
  simp only [if_neg (show ¬ operator.precedence < minPrecedence by omega), hconsume, bind,
    Except.bind, hparseRight]

theorem ConstExp.reads {e : ConstExp} (h : e.Fits) : ReadsUnary floats e ∧ Reads floats e := by
  induction e with
  | literal value =>
      have hunary : ReadsUnary floats (.literal value) := readsUnary_literal h
      exact ⟨hunary, .of_unary hunary fun _ _ hprinted => hprinted⟩
  | unary operator operand ih =>
      have hunary := (ih h).1.unary operator
      exact ⟨hunary, .of_unary hunary fun _ _ hprinted => hprinted⟩
  | binary operator left right ihLeft ihRight =>
      refine ⟨?_, (ihLeft h.1).2.binary (ihRight h.2).2 operator⟩
      -- no binary operator binds as a unary one does
      intro p tokens rest fuel rounds _ hprinted
      have hlevel : operator.precedence ≤ 6 := by cases operator <;> decide
      exact absurd (hprinted.1.trans hlevel) (by decide)
  | paren inner ih =>
      have hunary : ReadsUnary floats (.paren inner) := .paren (ih h).2
      exact ⟨hunary, .of_unary hunary fun _ _ hprinted => hprinted⟩

/-- **Folding is exact but for its slips**: an integer constant expression
whose literals fit, not nested too deep, is consumed token by token; away from
the slips, a folded value is the mathematical one, and nothing is folded only
where something is undefined. -/
theorem parseConstExpression_exact (floats : FloatOps F) {e : ConstExp} {p : Parser}
    {tokens rest : List Token} (htokens : p.tokens = tokens ++ rest) (hspells : Spells tokens e)
    (hprinted : e.Printed (decide (p.typeBracketDepth ≠ 0)) minConstPrecedence)
    (hfits : e.Fits) (hnesting : p.depth + e.nesting ≤ Parser.maxNestDepth)
    (hrest : Parser.peekConstOperator { p with tokens := rest } = none) :
    ∃ expression, Parser.parseConstExpression floats minConstPrecedence p
        = .ok (expression, { p with tokens := rest }) ∧
      (¬ e.Slips → (∀ value, expression.numericValue = some value → e.exact = some value) ∧
        (expression.numericValue = none → e.Undefined)) := by
  have hstop : ∀ (level : Nat) (operator : ConstOperator),
      Parser.peekConstOperator { p with tokens := rest } = some operator →
        operator.precedence < level := by
    intro level operator hoperator
    rw [hrest] at hoperator
    cases hoperator
  obtain ⟨x, rounds, hx, hrounds, hparse⟩ := (e.reads hfits).2 p tokens rest
    (tokens ++ rest).length minConstPrecedence minConstPrecedence hspells hprinted (Nat.le_refl _)
    hnesting (Nat.le_refl _)
    (fun operator hoperator => Nat.le_of_lt (hstop minConstPrecedence operator hoperator))
  rw [parseConstLoop_stop _ (by omega) x (hstop minConstPrecedence), ← htokens] at hparse
  refine ⟨x, hparse, fun hslips => ?_⟩
  have hfolds := ConstExp.folds hfits hslips
  rw [hx.numericValue]
  exact ⟨fun value hvalue => (hfolds.of_some value hvalue).1, hfolds.of_none⟩

end

/-! ## On tokens -/

def numberToken (text : List Char) : Token := ⟨.number, text, .begin⟩

def punctuationToken (ch : Char) : Token := ⟨.punctuation, [ch], .begin⟩

/-- A parser in front of these tokens, with nothing declared. -/
def parserAt (tokens : List Token) (depth typeBracketDepth : Nat) : Parser where
  tokens := tokens
  depth := depth
  scope := []
  constants := fun _ => none
  typeBracketDepth := typeBracketDepth

/-- Floating arithmetic as it is on small integers. -/
def smallFloats : FloatOps Int where
  ofInt value := value
  neg value := -value
  add := (· + ·)
  sub := (· - ·)
  mul := (· * ·)
  div := Int.tdiv
  isFinite _ := true
  parse _ := none
  debug value := (toString value).toList

def one : IntLiteral := ⟨.decimal, ['1'], by simp, by decide, by simp⟩

def three : IntLiteral := ⟨.hexadecimal, ['3'], by simp, by decide, by simp⟩

/-- The least power of two that does not fit. -/
def tooLarge : IntLiteral where
  kind := .decimal
  digits := "170141183460469231731687303715884105728".toList
  ne_nil := by decide
  isDigit := by decide
  leading := by decide

/-- `(1 + 0x3) * 0x3`. -/
def product : ConstExp :=
  .binary .mul (.paren (.binary .add (.literal one) (.literal three))) (.literal three)

def productTokens : List Token :=
  [punctuationToken '(', numberToken ['1'], punctuationToken '+', numberToken ['0', 'x', '3'],
    punctuationToken ')', punctuationToken '*', numberToken ['0', 'x', '3']]

/-- The brackets that close a sequence of sequences. -/
def closingTokens : List Token := [punctuationToken '>', punctuationToken '>']

theorem product_not_slips : ¬ product.Slips := by
  simp [product, ConstExp.Slips, ConstExp.OperatorSlips]

theorem parseConstExpression_exact_product :
    product.exact = some 12 ∧
    ∃ expression, Parser.parseConstExpression smallFloats minConstPrecedence
        (parserAt (productTokens ++ closingTokens) 0 1)
        = .ok (expression, parserAt closingTokens 0 1) ∧
      (∀ value, expression.numericValue = some value → product.exact = some value) ∧
      (expression.numericValue = none → product.Undefined) := by
  have htokens : (parserAt (productTokens ++ closingTokens) 0 1).tokens
      = productTokens ++ closingTokens := rfl
  have hprinted : product.Printed true minConstPrecedence := by
    simp [product, ConstExp.Printed, minConstPrecedence, ConstOperator.precedence]
  have hfits : product.Fits :=
    ⟨⟨show InI128 one.value by decide, show InI128 three.value by decide⟩,
      show InI128 three.value by decide⟩
  obtain ⟨expression, hparse, hexact⟩ :=
    parseConstExpression_exact smallFloats htokens (e := product) rfl hprinted hfits (by decide) rfl
  exact ⟨by decide, expression, hparse, hexact product_not_slips⟩

/-- A literal that does not fit, and a parenthesis at the greatest depth, are
errors; `1 << 0x7f` is folded to the least value. -/
theorem not_parseConstExpression_exact :
    (∀ (F : Type) (floats : FloatOps F),
      Spells [numberToken tooLarge.text] (.literal tooLarge) ∧
      Parser.parseConstExpression floats minConstPrecedence
          (parserAt [numberToken tooLarge.text, endToken] 0 0)
        = .error ⟨"expected integer literal", .begin⟩ ∧
      Spells [punctuationToken '(', numberToken ['1'], punctuationToken ')']
        (.paren (.literal one)) ∧
      Parser.parseConstExpression floats minConstPrecedence
          (parserAt [punctuationToken '(', numberToken ['1'], punctuationToken ')', endToken]
            Parser.maxNestDepth 0)
        = .error ⟨"IDL nesting exceeds the maximum supported depth", .begin⟩) ∧
    evalIntegerOperator .shl 1 127 = some i128Min ∧
      ConstExp.exactOperator .shl 1 127 = some (i128Max + 1) := by
  refine ⟨fun F floats => ⟨rfl, ?_, rfl, ?_⟩, by decide, by decide⟩
  · rfl
  · rfl

end GovFuzz.IdlParser
