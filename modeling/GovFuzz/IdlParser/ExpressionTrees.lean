import GovFuzz.IdlParser.Expression
import GovFuzz.Lib.Except

/-!
# IDL parser — what the `#if` evaluator reads

Expressions as trees.  A chain may end in operators without an operand: the
evaluator takes them once the value of the chain is decided.  It reads the
trees all of whose operands it reaches, and no others.
-/

namespace GovFuzz.IdlParser

open GovFuzz.Lib

inductive Level where
  | or
  | and
  | unary
  | primary

inductive ExprTree : Level → Type where
  | number (value : Int) : ExprTree .primary
  | ident (name : List Char) : ExprTree .primary
  | group (inner : ExprTree .or) : ExprTree .primary
  | definedName (name : List Char) : ExprTree .unary
  | definedGroup (name : List Char) : ExprTree .unary
  | not (operand : ExprTree .unary) : ExprTree .unary
  | plain (operand : ExprTree .primary) : ExprTree .unary
  | lastAnd (operand : ExprTree .unary) (blanks : Nat) : ExprTree .and
  | and (operand : ExprTree .unary) (more : ExprTree .and) : ExprTree .and
  | lastOr (operand : ExprTree .and) (blanks : Nat) : ExprTree .or
  | or (operand : ExprTree .and) (more : ExprTree .or) : ExprTree .or

namespace ExprTree

@[grind =] def yield {level : Level} : ExprTree level → List ExprToken
  | .number value => [.number value]
  | .ident name => [.ident name]
  | .group inner => .lParen :: inner.yield ++ [.rParen]
  | .definedName name => [.defined, .ident name]
  | .definedGroup name => [.defined, .lParen, .ident name, .rParen]
  | .not operand => .not :: operand.yield
  | .plain operand => operand.yield
  | .lastAnd operand blanks => operand.yield ++ List.replicate blanks .and
  | .and operand more => operand.yield ++ .and :: more.yield
  | .lastOr operand blanks => operand.yield ++ List.replicate blanks .or
  | .or operand more => operand.yield ++ .or :: more.yield

/-- Without operators that lack an operand: an expression of the grammar. -/
def complete {level : Level} : ExprTree level → Bool
  | .number _ => true
  | .ident _ => true
  | .group inner => inner.complete
  | .definedName _ => true
  | .definedGroup _ => true
  | .not operand => operand.complete
  | .plain operand => operand.complete
  | .lastAnd operand blanks => operand.complete && blanks = 0
  | .and operand more => operand.complete && more.complete
  | .lastOr operand blanks => operand.complete && blanks = 0
  | .or operand more => operand.complete && more.complete

@[grind =] def value {level : Level} (defines : Defines) : ExprTree level → Bool
  | .number value => value ≠ 0
  | .ident name => (defines name).any macroValueIsTruthy
  | .group inner => inner.value defines
  | .definedName name => (defines name).isSome
  | .definedGroup name => (defines name).isSome
  | .not operand => !operand.value defines
  | .plain operand => operand.value defines
  | .lastAnd operand _ => operand.value defines
  | .and operand more => operand.value defines && more.value defines
  | .lastOr operand _ => operand.value defines
  | .or operand more => operand.value defines || more.value defines

/-- No `||` has a true operand before another operand and no `&&` a false one;
where operands are lacking the value is decided. -/
def Reached {level : Level} (defines : Defines) : ExprTree level → Prop
  | .number _ => True
  | .ident _ => True
  | .group inner => inner.Reached defines
  | .definedName _ => True
  | .definedGroup _ => True
  | .not operand => operand.Reached defines
  | .plain operand => operand.Reached defines
  | .lastAnd operand blanks =>
      operand.Reached defines ∧ (blanks = 0 ∨ operand.value defines = false)
  | .and operand more =>
      operand.Reached defines ∧ operand.value defines = true ∧ more.Reached defines
  | .lastOr operand blanks =>
      operand.Reached defines ∧ (blanks = 0 ∨ operand.value defines = true)
  | .or operand more =>
      operand.Reached defines ∧ operand.value defines = false ∧ more.Reached defines

end ExprTree

/-- What the parser goes on to read behind an expression of this level. -/
@[grind =] def Level.goesOn : Level → List ExprToken
  | .primary => []
  | .unary => []
  | .and => [.and]
  | .or => [.and, .or]

/-! ## Reading a tree -/

section Chain

variable {token : ExprToken} {decisive : Bool} {operand : ExprParse}

theorem parseChain_eq {rounds : Nat} {tokens rest : List ExprToken} {value : Bool}
    (h : operand tokens = .ok (value, rest)) :
    parseChain token decisive operand rounds tokens
      = whileConsume token decisive operand rounds value rest := by
  simp only [parseChain, h]
  rfl

theorem whileConsume_stop (rounds : Nat) (value : Bool) {rest : List ExprToken}
    (hstop : rest.head? ≠ some token) :
    whileConsume token decisive operand rounds value rest = .ok (value, rest) := by
  cases rounds with
  | zero => rfl
  | succ rounds => simp [whileConsume, consume_of_head_ne hstop]

/-- Operators behind a decided value are taken without their operands. -/
theorem whileConsume_decided {rounds blanks : Nat} {rest : List ExprToken}
    (hrounds : blanks ≤ rounds) (hstop : rest.head? ≠ some token) :
    whileConsume token decisive operand rounds decisive (List.replicate blanks token ++ rest)
      = .ok (decisive, rest) := by
  induction blanks generalizing rounds with
  | zero => exact whileConsume_stop rounds decisive hstop
  | succ blanks ih =>
      obtain _ | rounds := rounds
      · omega
      · simp only [List.replicate_succ, List.cons_append, whileConsume, consume_self, if_true]
        exact ih (by omega)

theorem whileConsume_blanks {rounds blanks : Nat} {value : Bool} {rest : List ExprToken}
    (hblanks : blanks = 0 ∨ value = decisive) (hrounds : blanks ≤ rounds)
    (hstop : rest.head? ≠ some token) :
    whileConsume token decisive operand rounds value (List.replicate blanks token ++ rest)
      = .ok (value, rest) := by
  obtain rfl | rfl := hblanks
  · exact whileConsume_stop rounds value hstop
  · exact whileConsume_decided hrounds hstop

/-- The rest of an undecided chain is a chain. -/
theorem whileConsume_cons {rounds : Nat} {value : Bool} {more : List ExprToken}
    (hvalue : value ≠ decisive) :
    whileConsume token decisive operand (rounds + 1) value (token :: more)
      = parseChain token decisive operand rounds more := by
  simp only [whileConsume, consume_self, if_neg hvalue]
  rfl

end Chain

/-- The parser method of each level. -/
@[grind =] def parseAt (defines : Defines) (fuel rounds : Nat) : Level → ExprParse
  | .or => parseChain .or true (parseAnd defines fuel (parseOr defines fuel)) rounds
  | .and => parseAnd defines rounds (parseOr defines fuel)
  | .unary => parseUnary defines (parseOr defines fuel)
  | .primary => parsePrimary defines (parseOr defines fuel)

theorem parseOr_succ (defines : Defines) (fuel : Nat) :
    parseOr defines (fuel + 1) = parseAt defines fuel fuel .or := rfl

/-- A primary is not taken for an operator of the level above. -/
theorem parseUnary_yield (defines : Defines) (nested : ExprParse) (operand : ExprTree .primary)
    (rest : List ExprToken) :
    parseUnary defines nested (operand.yield ++ rest)
      = parsePrimary defines nested (operand.yield ++ rest) := by
  cases operand <;> rfl

/-- A tree all of whose operands are reached is read to its end. -/
theorem ExprTree.read {level : Level} (defines : Defines) (tree : ExprTree level)
    (fuel rounds : Nat) (rest : List ExprToken) (hfuel : tree.yield.length ≤ fuel)
    (hrounds : tree.yield.length ≤ rounds) (hreached : tree.Reached defines)
    (hrest : ∀ token ∈ level.goesOn, rest.head? ≠ some token) :
    parseAt defines fuel rounds level (tree.yield ++ rest)
      = .ok (tree.value defines, rest) := by
  induction tree generalizing fuel rounds rest with
  | number value => rfl
  | ident name => rfl
  | group inner ih =>
      obtain _ | fuel := fuel
      · simp [yield] at hfuel
      · simp only [yield, List.length_append, List.length_cons, List.length_nil] at hfuel
        have hstop : ∀ token ∈ Level.goesOn .or, (ExprToken.rParen :: rest).head? ≠ some token := by
          simp [Level.goesOn]
        have hinner := ih fuel fuel _ (by omega) (by omega) hreached hstop
        simp only [parseAt, yield, List.cons_append, List.append_assoc, List.nil_append,
          parsePrimary, parseOr_succ] at hinner ⊢
        rw [hinner]
        rfl
  | definedName name => rfl
  | definedGroup name => rfl
  | not operand ih =>
      have hoperand := ih fuel rounds rest (Nat.le_of_succ_le hfuel) (Nat.le_of_succ_le hrounds)
        hreached hrest
      simp only [parseAt, yield, List.cons_append, parseUnary] at hoperand ⊢
      rw [hoperand]
      rfl
  | plain operand ih =>
      have hoperand := ih fuel rounds rest hfuel hrounds hreached hrest
      simp only [parseAt, yield] at hoperand ⊢
      rw [parseUnary_yield, hoperand]
      rfl
  | lastAnd operand blanks ih =>
      simp only [yield, List.length_append, List.length_replicate] at hfuel hrounds
      have hoperand := ih fuel rounds (List.replicate blanks .and ++ rest) (by omega) (by omega)
        hreached.1 (by simp [Level.goesOn])
      simp only [parseAt, parseAnd, yield, List.append_assoc, value] at hoperand ⊢
      rw [parseChain_eq hoperand]
      exact whileConsume_blanks hreached.2 (by omega) (hrest _ (by simp [Level.goesOn]))
  | and operand more ihOperand ihMore =>
      obtain _ | rounds := rounds
      · simp [yield] at hrounds
      · simp only [yield, List.length_append, List.length_cons] at hfuel hrounds
        obtain ⟨hreachedOperand, htrue, hreachedMore⟩ := hreached
        have hoperand := ihOperand fuel rounds (.and :: (more.yield ++ rest)) (by omega) (by omega)
          hreachedOperand (by simp [Level.goesOn])
        have hmore := ihMore fuel rounds rest (by omega) (by omega) hreachedMore hrest
        simp only [parseAt, parseAnd, yield, List.append_assoc, List.cons_append, value, htrue,
          Bool.true_and] at hoperand hmore ⊢
        rw [parseChain_eq hoperand, whileConsume_cons (by simp), hmore]
  | lastOr operand blanks ih =>
      simp only [yield, List.length_append, List.length_replicate] at hfuel hrounds
      have hstop : ∀ token ∈ Level.goesOn .and,
          (List.replicate blanks ExprToken.or ++ rest).head? ≠ some token := by
        cases blanks with
        | zero => simpa [Level.goesOn] using hrest .and (by simp [Level.goesOn])
        | succ blanks => simp [Level.goesOn, List.replicate_succ]
      have hoperand := ih fuel fuel (List.replicate blanks .or ++ rest) (by omega) (by omega)
        hreached.1 hstop
      simp only [parseAt, yield, List.append_assoc, value] at hoperand ⊢
      rw [parseChain_eq hoperand]
      exact whileConsume_blanks hreached.2 (by omega) (hrest _ (by simp [Level.goesOn]))
  | or operand more ihOperand ihMore =>
      obtain _ | rounds := rounds
      · simp [yield] at hrounds
      · simp only [yield, List.length_append, List.length_cons] at hfuel hrounds
        obtain ⟨hreachedOperand, hfalse, hreachedMore⟩ := hreached
        have hoperand := ihOperand fuel fuel (.or :: (more.yield ++ rest)) (by omega) (by omega)
          hreachedOperand (by simp [Level.goesOn])
        have hmore := ihMore fuel rounds rest (by omega) (by omega) hreachedMore hrest
        simp only [parseAt, yield, List.append_assoc, List.cons_append, value, hfalse,
          Bool.false_or] at hoperand hmore ⊢
        rw [parseChain_eq hoperand, whileConsume_cons (by simp), hmore]

/-! ## Every run that returns reads a tree -/

/-- A tree with all its operands reached and what is behind it. -/
def ReadsTree {level : Level} (defines : Defines) (tokens : List ExprToken) (value : Bool)
    (rest : List ExprToken) (tree : ExprTree level) : Prop :=
  tokens = tree.yield ++ rest ∧ tree.value defines = value ∧ tree.Reached defines

def Readable (defines : Defines) (level : Level) (parse : ExprParse) (tokens : List ExprToken) :
    Prop :=
  ∀ value rest, parse tokens = .ok (value, rest) →
    ∃ tree : ExprTree level, ReadsTree defines tokens value rest tree

theorem expect_eq_ok {token : ExprToken} {tokens rest : List ExprToken}
    (h : expect token tokens = .ok rest) : tokens = token :: rest := by
  obtain ⟨behind, rfl, hconsume⟩ | ⟨-, hconsume⟩ := consume_cases token tokens
  · rw [expect, hconsume] at h
    cases h
    rfl
  · rw [expect, hconsume] at h
    cases h

theorem expectIdent_eq_ok {tokens rest : List ExprToken} {name : List Char}
    (h : expectIdent tokens = .ok (name, rest)) : tokens = .ident name :: rest := by
  unfold expectIdent at h
  split at h
  · cases h
    rfl
  · cases h

variable {defines : Defines}

theorem parsePrimary_readable {nested : ExprParse} {tokens : List ExprToken}
    (h : ∀ inner, inner.length < tokens.length → Readable defines .or nested inner) :
    Readable defines .primary (parsePrimary defines nested) tokens := by
  intro value rest hrun
  unfold parsePrimary at hrun
  split at hrun
  · rename_i inner
    obtain ⟨⟨found, behind⟩, hnested, hrest⟩ := bind_eq_ok.mp hrun
    obtain ⟨closed, hclosed, hpure⟩ := bind_eq_ok.mp hrest
    cases hpure
    obtain ⟨tree, rfl, rfl, hreached⟩ := h inner (by simp) _ _ hnested
    cases expect_eq_ok hclosed
    exact ⟨.group tree, by simp [ExprTree.yield], rfl, hreached⟩
  · rename_i number behind
    cases hrun
    exact ⟨.number number, rfl, rfl, trivial⟩
  · rename_i name behind
    cases hrun
    exact ⟨.ident name, rfl, rfl, trivial⟩
  · cases hrun
  · cases hrun

theorem parseDefined_readable {tokens rest : List ExprToken} {value : Bool}
    (hrun : parseDefined defines tokens = .ok (value, rest)) :
    ∃ tree : ExprTree .unary, ReadsTree defines (.defined :: tokens) value rest tree := by
  unfold parseDefined at hrun
  split at hrun
  · obtain ⟨⟨name, behind⟩, hname, hrest⟩ := bind_eq_ok.mp hrun
    obtain ⟨closed, hclosed, hpure⟩ := bind_eq_ok.mp hrest
    cases hpure
    cases expect_eq_ok hclosed
    cases expectIdent_eq_ok hname
    exact ⟨.definedGroup name, rfl, rfl, trivial⟩
  · obtain ⟨⟨name, behind⟩, hname, hpure⟩ := bind_eq_ok.mp hrun
    cases hpure
    cases expectIdent_eq_ok hname
    exact ⟨.definedName name, rfl, rfl, trivial⟩

/-- An operand with its operators is parsed as it reads when primaries are. -/
theorem parseUnary_readable {nested : ExprParse} {tokens : List ExprToken}
    (h : ∀ more, more.length ≤ tokens.length →
      Readable defines .primary (parsePrimary defines nested) more) :
    Readable defines .unary (parseUnary defines nested) tokens := by
  induction tokens with
  | nil =>
      intro value rest hrun
      cases hrun
  | cons head tail ih =>
      intro value rest hrun
      unfold parseUnary at hrun
      split at hrun
      · rename_i tail' heq
        cases heq
        obtain ⟨⟨found, behind⟩, hoperand, hpure⟩ := bind_eq_ok.mp hrun
        cases hpure
        have hmore := ih fun more hle => h more (Nat.le_succ_of_le hle)
        obtain ⟨tree, rfl, rfl, hreached⟩ := hmore _ _ hoperand
        exact ⟨.not tree, rfl, rfl, hreached⟩
      · rename_i tail' heq
        cases heq
        exact parseDefined_readable hrun
      · obtain ⟨tree, hyield, hvalue, hreached⟩ :=
          h (head :: tail) (Nat.le_refl _) value rest hrun
        exact ⟨.plain tree, hyield, hvalue, hreached⟩

/-- A decided chain goes on over operators only. -/
theorem whileConsume_decided_eq_ok {token : ExprToken} {decisive value : Bool}
    {operand : ExprParse} {rounds : Nat} {tokens rest : List ExprToken}
    (hrounds : tokens.length ≤ rounds)
    (hrun : whileConsume token decisive operand rounds decisive tokens = .ok (value, rest)) :
    value = decisive ∧ ∃ blanks, tokens = List.replicate blanks token ++ rest := by
  induction rounds generalizing tokens with
  | zero =>
      cases hrun
      exact ⟨rfl, 0, rfl⟩
  | succ rounds ih =>
      rw [whileConsume] at hrun
      obtain ⟨behind, rfl, hconsume⟩ | ⟨hhead, hconsume⟩ := consume_cases token tokens
      · simp only [hconsume, if_true] at hrun
        rw [List.length_cons] at hrounds
        obtain ⟨hvalue, blanks, hblanks⟩ := ih (by omega) hrun
        exact ⟨hvalue, blanks + 1, by rw [hblanks, List.replicate_succ, List.cons_append]⟩
      · simp only [hconsume] at hrun
        cases hrun
        exact ⟨rfl, 0, rfl⟩

/-- Both kinds of chain: `last` and `cons` are its trees. -/
theorem parseChain_readable {inner outer : Level} {token : ExprToken} {decisive : Bool}
    {operand : ExprParse} (last : ExprTree inner → Nat → ExprTree outer)
    (cons : ExprTree inner → ExprTree outer → ExprTree outer)
    (hlast : ∀ tokens value blanks rest tree,
      ReadsTree defines tokens value (List.replicate blanks token ++ rest) tree →
      (blanks = 0 ∨ value = decisive) → ReadsTree defines tokens value rest (last tree blanks))
    (hcons : ∀ tokens first more value rest tree others,
      ReadsTree defines tokens first (token :: more) tree → first ≠ decisive →
      ReadsTree defines more value rest others →
        ReadsTree defines tokens value rest (cons tree others))
    {rounds : Nat} {tokens : List ExprToken} (hrounds : tokens.length ≤ rounds)
    (hoperand : ∀ more, more.length ≤ tokens.length → Readable defines inner operand more) :
    Readable defines outer (parseChain token decisive operand rounds) tokens := by
  induction rounds generalizing tokens with
  | zero =>
      intro value rest hrun
      obtain ⟨⟨first, behind⟩, hfirst, hpure⟩ := bind_eq_ok.mp hrun
      cases hpure
      obtain ⟨tree, hread⟩ := hoperand tokens (Nat.le_refl _) _ _ hfirst
      exact ⟨last tree 0, hlast _ _ 0 _ _ hread (Or.inl rfl)⟩
  | succ rounds ih =>
      intro value rest hrun
      obtain ⟨⟨first, behind⟩, hfirst, hloop⟩ := bind_eq_ok.mp hrun
      obtain ⟨tree, hread⟩ := hoperand tokens (Nat.le_refl _) _ _ hfirst
      have hlen : behind.length ≤ tokens.length := by
        rw [hread.1, List.length_append]
        omega
      dsimp only at hloop
      -- behind a decisive operand the rest of the chain is skipped
      by_cases hdecided : first = decisive
      · rw [hdecided] at hloop hread
        obtain ⟨rfl, blanks, rfl⟩ := whileConsume_decided_eq_ok (by omega) hloop
        exact ⟨last tree blanks, hlast _ _ blanks _ _ hread (Or.inr rfl)⟩
      · obtain ⟨more, rfl, -⟩ | ⟨hhead, -⟩ := consume_cases token behind
        · rw [whileConsume_cons hdecided] at hloop
          rw [List.length_cons] at hlen
          have hmore : more.length ≤ rounds := by omega
          obtain ⟨others, hothers⟩ :=
            ih hmore (fun later hlater => hoperand later (by omega)) _ _ hloop
          exact ⟨cons tree others, hcons _ _ _ _ _ _ _ hread hdecided hothers⟩
        · rw [whileConsume_stop _ _ hhead] at hloop
          cases hloop
          exact ⟨last tree 0, hlast _ _ 0 _ _ hread (Or.inl rfl)⟩

theorem parseAnd_readable {rounds : Nat} {nested : ExprParse} {tokens : List ExprToken}
    (hrounds : tokens.length ≤ rounds)
    (h : ∀ more, more.length ≤ tokens.length →
      Readable defines .unary (parseUnary defines nested) more) :
    Readable defines .and (parseAnd defines rounds nested) tokens := by
  apply parseChain_readable .lastAnd .and _ _ hrounds h
  · intro tokens value blanks rest tree hread hblanks
    obtain ⟨rfl, rfl, hreached⟩ := hread
    exact ⟨by rw [ExprTree.yield, List.append_assoc], rfl, hreached, hblanks⟩
  · intro tokens first more value rest tree others hread hfirst hmore
    obtain ⟨rfl, rfl, hreached⟩ := hread
    obtain ⟨rfl, rfl, hothers⟩ := hmore
    rw [ne_eq, Bool.not_eq_false] at hfirst
    refine ⟨?_, ?_, hreached, hfirst, hothers⟩
    · rw [ExprTree.yield, List.append_assoc, List.cons_append]
    · rw [ExprTree.value, hfirst, Bool.true_and]

theorem parseOr_readable {fuel : Nat} {tokens : List ExprToken} (h : tokens.length < fuel) :
    Readable defines .or (parseOr defines fuel) tokens := by
  induction fuel generalizing tokens with
  | zero => omega
  | succ fuel ih =>
      apply parseChain_readable .lastOr .or _ _ (by omega)
      · intro more hmore
        apply parseAnd_readable (by omega)
        intro later hlater
        apply parseUnary_readable
        intro primary hprimary
        apply parsePrimary_readable
        intro inner hinner
        exact ih (by omega)
      · intro tokens value blanks rest tree hread hblanks
        obtain ⟨rfl, rfl, hreached⟩ := hread
        exact ⟨by rw [ExprTree.yield, List.append_assoc], rfl, hreached, hblanks⟩
      · intro tokens first more value rest tree others hread hfirst hmore
        obtain ⟨rfl, rfl, hreached⟩ := hread
        obtain ⟨rfl, rfl, hothers⟩ := hmore
        rw [ne_eq, Bool.not_eq_true] at hfirst
        refine ⟨?_, ?_, hreached, hfirst, hothers⟩
        · rw [ExprTree.yield, List.append_assoc, List.cons_append]
        · rw [ExprTree.value, hfirst, Bool.false_or]

/-- What the evaluator accepts, and with which value. -/
theorem evalTokens_eq_ok {tokens : List ExprToken} {value : Bool} :
    evalTokens defines tokens = .ok value
      ↔ ∃ tree : ExprTree .or, tree.Reached defines ∧ tree.yield = tokens ∧
          tree.value defines = value := by
  unfold evalTokens
  constructor
  · intro h
    obtain ⟨⟨found, rest⟩, hrun, hend⟩ := bind_eq_ok.mp h
    obtain ⟨tree, hyield, hvalue, hreached⟩ :=
      parseOr_readable (Nat.lt_succ_self tokens.length) _ _ hrun
    by_cases hrest : rest = []
    · subst hrest
      cases hend
      rw [List.append_nil] at hyield
      exact ⟨tree, hreached, hyield.symm, hvalue⟩
    · simp only [ne_eq, hrest, not_false_eq_true, if_true] at hend
      cases hend
  · rintro ⟨tree, hreached, rfl, rfl⟩
    have hread := tree.read defines _ _ [] (Nat.le_refl _) (Nat.le_refl _) hreached (by simp)
    rw [List.append_nil] at hread
    rw [parseOr_succ, hread]
    rfl

end GovFuzz.IdlParser
