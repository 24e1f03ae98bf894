import GovFuzz.IdlParser.ExpressionTrees

/-!
# IDL parser — when the `#if` evaluator is right

An expression of the grammar is evaluated exactly when every operand is
reached: behind the first one that is skipped the parser stands in front of
an operand that nothing reads.  Other token sequences are accepted where an
operator without an operand follows a decided value.
-/

namespace GovFuzz.IdlParser

open GovFuzz.Lib

/-! ## Operands that are skipped -/

@[grind =] def beginsOperand : List ExprToken → Bool
  | .ident _ :: _ => true
  | .number _ :: _ => true
  | .defined :: _ => true
  | .not :: _ => true
  | .lParen :: _ => true
  | _ => false

theorem ExprTree.beginsOperand_yield {level : Level} (tree : ExprTree level)
    (rest : List ExprToken) : beginsOperand (tree.yield ++ rest) = true := by
  induction tree generalizing rest with
  | number value => rfl
  | ident name => rfl
  | group inner ih => rfl
  | definedName name => rfl
  | definedGroup name => rfl
  | not operand ih => rfl
  | plain operand ih => exact ih rest
  | lastAnd operand blanks ih =>
      rw [yield, List.append_assoc]
      exact ih _
  | and operand more ihOperand ihMore =>
      rw [yield, List.append_assoc]
      exact ihOperand _
  | lastOr operand blanks ih =>
      rw [yield, List.append_assoc]
      exact ih _
  | or operand more ihOperand ihMore =>
      rw [yield, List.append_assoc]
      exact ihOperand _

theorem head_ne_of_beginsOperand {tokens : List ExprToken} {token : ExprToken}
    (htoken : beginsOperand [token] = false) (h : beginsOperand tokens = true) :
    tokens.head? ≠ some token := by
  intro hhead
  obtain ⟨tail, rfl⟩ := List.head?_eq_some_iff.mp hhead
  cases token <;> simp_all [beginsOperand]

/-- If the run returns, it returns in front of an operand. -/
def Stuck (outcome : Except String (Bool × List ExprToken)) : Prop :=
  ∀ value rest, outcome = .ok (value, rest) → beginsOperand rest = true

/-- Nothing that calls a stuck method goes on. -/
theorem parseChain_stuck {token : ExprToken} {decisive : Bool} {operand : ExprParse}
    {rounds : Nat} {tokens : List ExprToken} (htoken : beginsOperand [token] = false)
    (h : Stuck (operand tokens)) : Stuck (parseChain token decisive operand rounds tokens) := by
  intro value rest hrun
  obtain ⟨⟨first, behind⟩, hfirst, hloop⟩ := bind_eq_ok.mp hrun
  have hbegins := h first behind hfirst
  have hhead : behind.head? ≠ some token := head_ne_of_beginsOperand htoken hbegins
  dsimp only at hloop
  rw [whileConsume_stop _ _ hhead] at hloop
  cases hloop
  exact hbegins

theorem whileConsume_skips {token : ExprToken} {decisive : Bool} {operand : ExprParse}
    {rounds : Nat} {more : List ExprToken} (htoken : beginsOperand [token] = false)
    (h : beginsOperand more = true) :
    Stuck (whileConsume token decisive operand (rounds + 1) decisive (token :: more)) := by
  intro value rest hrun
  have hhead : more.head? ≠ some token := head_ne_of_beginsOperand htoken h
  simp only [whileConsume, consume_self, if_true, whileConsume_stop _ _ hhead] at hrun
  cases hrun
  exact h

/-- A complete tree with an operand that is not reached gets the parser stuck. -/
theorem ExprTree.stuck {level : Level} (defines : Defines) (tree : ExprTree level)
    (fuel rounds : Nat) (rest : List ExprToken) (hfuel : tree.yield.length ≤ fuel)
    (hrounds : tree.yield.length ≤ rounds) (hcomplete : tree.complete = true)
    (hskipped : ¬ tree.Reached defines) :
    Stuck (parseAt defines fuel rounds level (tree.yield ++ rest)) := by
  -- On the tree: the parser is stuck where an operand stands that is not reached.
  induction tree generalizing fuel rounds rest with
  | number value => exact absurd trivial hskipped
  | ident name => exact absurd trivial hskipped
  | group inner ih =>
      -- what it is stuck at begins with an operand, and so closes no parenthesis
      obtain _ | fuel := fuel
      · simp [yield] at hfuel
      · simp only [yield, List.length_append, List.length_cons, List.length_nil] at hfuel
        have hinner := ih fuel fuel (.rParen :: rest) (by omega) (by omega) hcomplete hskipped
        intro value behind hrun
        simp only [parseAt, yield, List.cons_append, List.append_assoc, List.nil_append,
          parsePrimary, parseOr_succ] at hinner hrun
        obtain ⟨⟨found, inside⟩, hfound, hclose⟩ := bind_eq_ok.mp hrun
        obtain ⟨closed, hclosed, -⟩ := bind_eq_ok.mp hclose
        have hbegins : beginsOperand inside = true := hinner _ _ hfound
        have hinside : inside = .rParen :: closed := expect_eq_ok hclosed
        rw [hinside] at hbegins
        cases hbegins
  | definedName name => exact absurd trivial hskipped
  | definedGroup name => exact absurd trivial hskipped
  | not operand ih =>
      have hoperand := ih fuel rounds rest (Nat.le_of_succ_le hfuel) (Nat.le_of_succ_le hrounds)
        hcomplete hskipped
      intro value behind hrun
      obtain ⟨⟨found, inside⟩, hfound, hpure⟩ := bind_eq_ok.mp hrun
      cases hpure
      exact hoperand _ _ hfound
  | plain operand ih =>
      have hoperand := ih fuel rounds rest hfuel hrounds hcomplete hskipped
      simp only [parseAt, yield] at hoperand ⊢
      rw [parseUnary_yield]
      exact hoperand
  | lastAnd operand blanks ih =>
      simp only [complete, Bool.and_eq_true, decide_eq_true_eq] at hcomplete
      obtain ⟨hoperand, rfl⟩ := hcomplete
      simp only [yield, List.replicate_zero, List.append_nil] at hfuel hrounds ⊢
      apply parseChain_stuck rfl
      exact ih fuel rounds rest hfuel hrounds hoperand fun h => hskipped ⟨h, Or.inl rfl⟩
  | and operand more ihOperand ihMore =>
      simp only [complete, Bool.and_eq_true] at hcomplete
      obtain _ | rounds := rounds
      · simp [yield] at hrounds
      · simp only [yield, List.length_append, List.length_cons] at hfuel hrounds
        simp only [yield, List.append_assoc, List.cons_append]
        by_cases hreached : operand.Reached defines
        · have hread := operand.read defines fuel rounds (.and :: (more.yield ++ rest)) (by omega)
            (by omega) hreached (by simp [Level.goesOn])
          simp only [parseAt, parseAnd] at hread ⊢
          rw [parseChain_eq hread]
          cases hvalue : operand.value defines with
          | false => exact whileConsume_skips rfl (more.beginsOperand_yield rest)
          | true =>
              rw [whileConsume_cons (by simp)]
              exact ihMore fuel rounds rest (by omega) (by omega) hcomplete.2
                fun h => hskipped ⟨hreached, hvalue, h⟩
        · apply parseChain_stuck rfl
          exact ihOperand fuel rounds _ (by omega) (by omega) hcomplete.1 hreached
  | lastOr operand blanks ih =>
      simp only [complete, Bool.and_eq_true, decide_eq_true_eq] at hcomplete
      obtain ⟨hoperand, rfl⟩ := hcomplete
      simp only [yield, List.replicate_zero, List.append_nil] at hfuel hrounds ⊢
      apply parseChain_stuck rfl
      exact ih fuel fuel rest hfuel hfuel hoperand fun h => hskipped ⟨h, Or.inl rfl⟩
  | or operand more ihOperand ihMore =>
      simp only [complete, Bool.and_eq_true] at hcomplete
      obtain _ | rounds := rounds
      · simp [yield] at hrounds
      · simp only [yield, List.length_append, List.length_cons] at hfuel hrounds
        simp only [yield, List.append_assoc, List.cons_append]
        by_cases hreached : operand.Reached defines
        · have hread := operand.read defines fuel fuel (.or :: (more.yield ++ rest)) (by omega)
            (by omega) hreached (by simp [Level.goesOn])
          simp only [parseAt] at hread ⊢
          rw [parseChain_eq hread]
          cases hvalue : operand.value defines with
          | true => exact whileConsume_skips rfl (more.beginsOperand_yield rest)
          | false =>
              rw [whileConsume_cons (by simp)]
              exact ihMore fuel rounds rest (by omega) (by omega) hcomplete.2
                fun h => hskipped ⟨hreached, hvalue, h⟩
        · apply parseChain_stuck rfl
          exact ihOperand fuel fuel _ (by omega) (by omega) hcomplete.1 hreached

/-- A complete expression that evaluates has had all its operands reached. -/
theorem ExprTree.reached_of_eval {defines : Defines} {tree : ExprTree .or} {value : Bool}
    (hcomplete : tree.complete = true) (h : evalTokens defines tree.yield = .ok value) :
    tree.Reached defines := by
  by_contra hskipped
  have hstuck := tree.stuck defines tree.yield.length tree.yield.length [] (Nat.le_refl _)
    (Nat.le_refl _) hcomplete hskipped
  rw [List.append_nil, ← parseOr_succ] at hstuck
  obtain ⟨⟨found, rest⟩, hrun, hend⟩ := bind_eq_ok.mp h
  have hbegins := hstuck _ _ hrun
  have hrest : rest ≠ [] := by
    rintro rfl
    cases hbegins
  simp only [ne_eq, hrest, not_false_eq_true, if_true] at hend
  cases hend

/-! ## Operators that lack an operand -/

/-- Whether an operator still waits for its operand. -/
@[grind =] def scan : Bool → List ExprToken → Option Bool
  | pending, [] => some pending
  | pending, token :: rest =>
      if pending && !beginsOperand [token] then none
      else scan (token = .and || token = .or) rest

theorem scan_append (pending : Bool) (tokens more : List ExprToken) :
    scan pending (tokens ++ more) = (scan pending tokens).bind (scan · more) := by
  induction tokens generalizing pending with
  | nil => rfl
  | cons token tokens ih =>
      simp only [List.cons_append, scan]
      split
      · rfl
      · exact ih _

/-- A token that is no operand cannot stand where one is waited for. -/
theorem scan_split {tokens more : List ExprToken} {token : ExprToken} (pending : Bool)
    (htoken : beginsOperand [token] = false) :
    scan pending (tokens ++ token :: more) = some false
      ↔ scan pending tokens = some false
        ∧ scan (token = .and || token = .or) more = some false := by
  rw [scan_append]
  cases scan pending tokens with
  | none => simp
  | some behind => cases behind <;> simp [scan, htoken]

theorem scan_replicate {tokens : List ExprToken} {token : ExprToken} (pending : Bool)
    (htoken : token = .and ∨ token = .or) (blanks : Nat) :
    scan pending (tokens ++ List.replicate blanks token) = some false
      ↔ scan pending tokens = some false ∧ blanks = 0 := by
  cases blanks with
  | zero => simp
  | succ blanks =>
      have hbegins : beginsOperand [token] = false := by
        obtain rfl | rfl := htoken <;> rfl
      have hpending : (decide (token = .and) || decide (token = .or)) = true := by
        simpa using htoken
      rw [List.replicate_succ, scan_split pending hbegins, hpending]
      cases blanks with
      | zero => simp [scan]
      | succ blanks => simp [List.replicate_succ, scan, hbegins]

/-- Whether a tree is complete can be seen from its tokens. -/
theorem ExprTree.complete_iff {level : Level} (tree : ExprTree level) (pending : Bool) :
    tree.complete = true ↔ scan pending tree.yield = some false := by
  induction tree generalizing pending with
  | number value => simp [complete, yield, scan, beginsOperand]
  | ident name => simp [complete, yield, scan, beginsOperand]
  | group inner ih =>
      have hinner : scan false (inner.yield ++ [.rParen]) = some false ↔ _ :=
        scan_split false rfl
      simp only [complete, yield, List.cons_append, scan, beginsOperand, Bool.not_true,
        Bool.and_false, Bool.false_eq_true, if_false, reduceCtorEq, decide_false, Bool.or_false,
        hinner, and_true]
      exact ih false
  | definedName name => simp [complete, yield, scan, beginsOperand]
  | definedGroup name => simp [complete, yield, scan, beginsOperand]
  | not operand ih =>
      simp only [complete, yield, scan, beginsOperand, Bool.not_true, Bool.and_false,
        Bool.false_eq_true, if_false, reduceCtorEq, decide_false, Bool.or_false]
      exact ih false
  | plain operand ih => exact ih pending
  | lastAnd operand blanks ih =>
      rw [yield, scan_replicate pending (Or.inl rfl), ← ih, complete, Bool.and_eq_true,
        decide_eq_true_eq]
  | and operand more ihOperand ihMore =>
      rw [yield, scan_split pending rfl, ← ihOperand, ← ihMore, complete, Bool.and_eq_true]
  | lastOr operand blanks ih =>
      rw [yield, scan_replicate pending (Or.inr rfl), ← ih, complete, Bool.and_eq_true,
        decide_eq_true_eq]
  | or operand more ihOperand ihMore =>
      rw [yield, scan_split pending rfl, ← ihOperand, ← ihMore, complete, Bool.and_eq_true]

/-! ## The evaluator -/

/-- The claim of the evaluator on one text: an expression of the grammar has
its value, anything else is an error. -/
structure EvaluatesExactly (expression : List Char) (defines : Defines) : Prop where
  value : ∀ tree : ExprTree .or, tree.complete = true → lexExpr expression = .ok tree.yield →
    evalIfExpression expression defines = .ok (tree.value defines)
  error : (∀ tree : ExprTree .or, tree.complete = true → lexExpr expression ≠ .ok tree.yield) →
    ∃ e, evalIfExpression expression defines = .error e

/-- Read as a chain whose last operators may lack their operands, the
expression lacks none and has all operands reached, or neither. -/
def CompleteIffReached (expression : List Char) (defines : Defines) : Prop :=
  ∀ tree : ExprTree .or, lexExpr expression = .ok tree.yield →
    (tree.complete = true ↔ tree.Reached defines)

theorem evalIfExpression_of_lex {expression : List Char} {tokens : List ExprToken}
    (h : lexExpr expression = .ok tokens) (defines : Defines) :
    evalIfExpression expression defines = evalTokens defines tokens := by
  rw [evalIfExpression, h]
  rfl

end GovFuzz.IdlParser
