import GovFuzz.Lib.Tokens
import GovFuzz.Runtrace.Readers

/-!
# License policy — SPDX expressions

`spdx_expression_is_allowed` of `crates/license_policy/src/lib.rs`: a
tokenizer and a recursive-descent parser that evaluates as it goes.  The
parser has no errors; what it misses counts as `false` where it is missed,
and the operators around go on from there.
-/

namespace GovFuzz.LicensePolicy

open GovFuzz.Lib
open GovFuzz.Runtrace (isWhitespace)

/-- `ALLOWED_DEPENDENCY_LICENSES`. -/
def allowedDependencyLicenses : List String :=
  ["Apache-2.0", "MIT", "BSD-2-Clause", "BSD-3-Clause", "Unicode-DFS-2016", "Unicode-3.0", "ISC",
    "Zlib", "CC0-1.0", "CDLA-Permissive-2.0"]

/-- `ALLOWED_LICENSE_EXCEPTIONS`. -/
def allowedLicenseExceptions : List String := ["LLVM-exception"]

/-- The tokens of an expression. -/
inductive SpdxToken where
  | license (name : String)
  | and
  | or
  | with
  | lParen
  | rParen
  deriving DecidableEq, Repr

/-! ## Tokens -/

/-- An operator or the name of a license. -/
def wordToken (word : String) : SpdxToken :=
  if word = "AND" then .and
  else if word = "OR" then .or
  else if word = "WITH" then .with
  else .license word

/-- The word that has been read, if any. -/
def flushWord (word : List Char) : List SpdxToken :=
  if word = [] then [] else [wordToken (String.ofList word)]

/-- The two loops of the source in one pass; `word` is the inner loop's. -/
def tokenizeChars (word : List Char) : List Char → List SpdxToken
  | [] => flushWord word
  | ch :: chars =>
      if isWhitespace ch then flushWord word ++ tokenizeChars [] chars
      else if ch = '(' then flushWord word ++ .lParen :: tokenizeChars [] chars
      else if ch = ')' then flushWord word ++ .rParen :: tokenizeChars [] chars
      else tokenizeChars (word ++ [ch]) chars

/-- `replace('/', " OR ")`. -/
def normalize (expression : List Char) : List Char :=
  expression.flatMap fun ch => if ch = '/' then [' ', 'O', 'R', ' '] else [ch]

/-- The tokens of an expression. -/
def tokenizeSpdxExpression (expression : String) : List SpdxToken :=
  tokenizeChars [] (normalize expression.toList)

/-! ## The parser -/

/-- A parser method: the value and the tokens from the new position on. -/
abbrev SpdxParse := List SpdxToken → Bool × List SpdxToken

/-- `while self.consume(token) { value = combine(operand, value) }`. -/
@[grind =] def whileConsume (token : SpdxToken) (combine : Bool → Bool → Bool)
    (operand : SpdxParse) : Nat → Bool → SpdxParse
  | 0, value, tokens => (value, tokens)
  | rounds + 1, value, tokens =>
      match consume token tokens with
      | (true, rest) =>
          let (next, rest) := operand rest
          whileConsume token combine operand rounds (combine next value) rest
      | (false, rest) => (value, rest)

/-- `parse_or` and `parse_and`: operands between one token. -/
@[grind =] def parseChain (token : SpdxToken) (combine : Bool → Bool → Bool) (operand : SpdxParse)
    (rounds : Nat) : SpdxParse := fun tokens =>
  let (value, rest) := operand tokens
  whileConsume token combine operand rounds value rest

/-- `nested` is the `parse_or` that a parenthesis calls. -/
@[grind =] def parsePrimary (nested : SpdxParse) : SpdxParse
  | .license name :: rest => (allowedDependencyLicenses.contains name, rest)
  | .lParen :: rest =>
      let (value, rest) := nested rest
      let (closed, rest) := consume .rParen rest
      (value && closed, rest)
  | tokens => (false, tokens)

/-- The exception behind `WITH`. -/
@[grind =] def parseException : SpdxParse
  | .license exception :: rest => (allowedLicenseExceptions.contains exception, rest)
  | tokens => (false, tokens)

/-- A license and its exception. -/
@[grind =] def parseWith (nested : SpdxParse) : SpdxParse := fun tokens =>
  let (value, rest) := parsePrimary nested tokens
  match consume .with rest with
  | (true, rest) =>
      let (exceptionAllowed, rest) := parseException rest
      (value && exceptionAllowed, rest)
  | (false, rest) => (value, rest)

/-- Operands between `AND`. -/
def parseAnd (rounds : Nat) (nested : SpdxParse) : SpdxParse :=
  parseChain .and (· && ·) (parseWith nested) rounds

/-- The fuel bounds the parentheses and the rounds of every loop. -/
def parseOr : Nat → SpdxParse
  | 0 => fun tokens => (false, tokens)
  | fuel + 1 => parseChain .or (· || ·) (parseAnd fuel (parseOr fuel)) fuel

/-- The whole list is one allowed expression. -/
def tokensAllowed (tokens : List SpdxToken) : Bool :=
  if tokens.isEmpty then false
  else
    let (allowed, rest) := parseOr (tokens.length + 1) tokens
    allowed && rest.isEmpty

/-- The expression is allowed. -/
@[grind =] def spdxExpressionIsAllowed (expression : String) : Bool :=
  tokensAllowed (tokenizeSpdxExpression expression)

/-! ## The grammar -/

/-- The levels of the grammar. -/
inductive Level where
  | or
  | and
  | with
  | primary

/-- Expressions with gaps: an operand or an exception may be missing, and a
parenthesis may be left open. -/
inductive SpdxTree : Level → Type where
  | license (name : String) : SpdxTree .primary
  | missing : SpdxTree .primary
  | group (inner : SpdxTree .or) (closed : Bool) : SpdxTree .primary
  | plain (operand : SpdxTree .primary) : SpdxTree .with
  | excepted (operand : SpdxTree .primary) (exception : Option String) : SpdxTree .with
  | lastAnd (operand : SpdxTree .with) : SpdxTree .and
  | and (operand : SpdxTree .with) (more : SpdxTree .and) : SpdxTree .and
  | lastOr (operand : SpdxTree .and) : SpdxTree .or
  | or (operand : SpdxTree .and) (more : SpdxTree .or) : SpdxTree .or

namespace SpdxTree

@[grind =] def yield {level : Level} : SpdxTree level → List SpdxToken
  | .license name => [.license name]
  | .missing => []
  | .group inner closed => .lParen :: inner.yield ++ if closed then [.rParen] else []
  | .plain operand => operand.yield
  | .excepted operand exception => operand.yield ++ .with :: exception.toList.map .license
  | .lastAnd operand => operand.yield
  | .and operand more => operand.yield ++ .and :: more.yield
  | .lastOr operand => operand.yield
  | .or operand more => operand.yield ++ .or :: more.yield

/-- The boolean value; what is missing is `false`, and so is what an open
parenthesis holds. -/
@[grind =] def value {level : Level} : SpdxTree level → Bool
  | .license name => allowedDependencyLicenses.contains name
  | .missing => false
  | .group inner closed => inner.value && closed
  | .plain operand => operand.value
  | .excepted operand exception => operand.value && exception.any allowedLicenseExceptions.contains
  | .lastAnd operand => operand.value
  | .and operand more => operand.value && more.value
  | .lastOr operand => operand.value
  | .or operand more => operand.value || more.value

/-- Without gaps: an expression of the grammar. -/
@[grind =] def complete {level : Level} : SpdxTree level → Bool
  | .license _ => true
  | .missing => false
  | .group inner closed => inner.complete && closed
  | .plain operand => operand.complete
  | .excepted operand exception => operand.complete && exception.isSome
  | .lastAnd operand => operand.complete
  | .and operand more => operand.complete && more.complete
  | .lastOr operand => operand.complete
  | .or operand more => operand.complete && more.complete

end SpdxTree

/-- An expression of the grammar, and its value. -/
def WellFormed (tokens : List SpdxToken) (value : Bool) : Prop :=
  ∃ tree : SpdxTree .or, tree.complete = true ∧ tree.yield = tokens ∧ tree.value = value

/-- A license comes next. -/
@[grind =] def beginsLicense : List SpdxToken → Bool
  | .license _ :: _ => true
  | _ => false

/-- A license or a parenthesis comes next. -/
@[grind =] def beginsOperand (tokens : List SpdxToken) : Bool :=
  beginsLicense tokens || tokens.head? = some .lParen

namespace SpdxTree

/-- How the tree is read with `rest` behind it: nothing is missing that stands
there, and no chain or parenthesis ends before it has to. -/
@[grind =] def Fits {level : Level} : SpdxTree level → List SpdxToken → Prop
  | .license _, _ => True
  | .missing, rest => beginsOperand rest = false
  | .group inner true, rest => inner.Fits (.rParen :: rest)
  | .group inner false, rest => inner.Fits rest ∧ rest.head? ≠ some .rParen
  | .plain operand, rest => operand.Fits rest ∧ rest.head? ≠ some .with
  | .excepted operand (some exception), rest =>
      operand.Fits (.with :: .license exception :: rest)
  | .excepted operand none, rest => operand.Fits (.with :: rest) ∧ beginsLicense rest = false
  | .lastAnd operand, rest => operand.Fits rest ∧ rest.head? ≠ some .and
  | .and operand more, rest => operand.Fits (.and :: (more.yield ++ rest)) ∧ more.Fits rest
  | .lastOr operand, rest => operand.Fits rest ∧ rest.head? ≠ some .or
  | .or operand more, rest => operand.Fits (.or :: (more.yield ++ rest)) ∧ more.Fits rest

end SpdxTree

/-! ## Reading a tree -/

section Chain

variable {token : SpdxToken} {combine : Bool → Bool → Bool} {operand : SpdxParse}

theorem parseChain_last {rounds : Nat} {tokens rest : List SpdxToken} {value : Bool}
    (h : operand tokens = (value, rest)) (hstop : rest.head? ≠ some token) :
    parseChain token combine operand rounds tokens = (value, rest) := by
  cases rounds with
  | zero => simp [parseChain, whileConsume, h]
  | succ rounds => simp [parseChain, whileConsume, h, consume_of_head_ne hstop]

theorem whileConsume_combine (hassoc : ∀ a b c, combine a (combine b c) = combine (combine a b) c)
    (rounds : Nat) (next value : Bool) (rest : List SpdxToken) :
    whileConsume token combine operand rounds (combine next value) rest
      = (combine (whileConsume token combine operand rounds next rest).1 value,
          (whileConsume token combine operand rounds next rest).2) := by
  induction rounds generalizing next rest with
  | zero => rfl
  | succ rounds ih =>
      simp only [whileConsume]
      split
      · rw [hassoc, ih]
      · rfl

/-- The rest of a chain is a chain. -/
theorem parseChain_cons (hassoc : ∀ a b c, combine a (combine b c) = combine (combine a b) c)
    {rounds : Nat} {tokens more rest : List SpdxToken} {value later : Bool}
    (h : operand tokens = (value, token :: more))
    (hmore : parseChain token combine operand rounds more = (later, rest)) :
    parseChain token combine operand (rounds + 1) tokens = (combine later value, rest) := by
  simp only [parseChain] at hmore
  simp only [parseChain, h, whileConsume, consume_self, whileConsume_combine hassoc, hmore]

end Chain

/-- The parser method of each level. -/
@[grind =] def parseAt (fuel rounds : Nat) : Level → SpdxParse
  | .or => parseChain .or (· || ·) (parseAnd fuel (parseOr fuel)) rounds
  | .and => parseAnd rounds (parseOr fuel)
  | .with => parseWith (parseOr fuel)
  | .primary => parsePrimary (parseOr fuel)

theorem parseOr_succ (fuel : Nat) : parseOr (fuel + 1) = parseAt fuel fuel .or := rfl

/-- A tree that fits is what the parser reads, and its value what it returns. -/
theorem SpdxTree.read {level : Level} (tree : SpdxTree level) (fuel rounds : Nat)
    {rest : List SpdxToken} (hfuel : tree.yield.length ≤ fuel)
    (hrounds : tree.yield.length ≤ rounds) (hfits : tree.Fits rest) :
    parseAt fuel rounds level (tree.yield ++ rest) = (tree.value, rest) := by
  -- On the tree, whatever tokens stand behind it.
  induction tree generalizing fuel rounds rest with
  | license name => rfl
  | missing =>
      simp only [Fits, beginsOperand, Bool.or_eq_false_iff, decide_eq_false_iff_not] at hfits
      obtain ⟨hlicense, hparen⟩ := hfits
      simp only [yield, List.nil_append, parseAt, value]
      cases rest with
      | nil => rfl
      | cons head tail => cases head <;> simp_all [parsePrimary, beginsLicense]
  | group inner closed ih =>
      obtain _ | fuel := fuel
      · simp [yield] at hfuel
      · cases closed with
        | true =>
            simp only [yield, if_true, List.length_append, List.length_cons,
              List.length_nil] at hfuel
            have hinner := ih fuel fuel (by omega) (by omega) hfits
            simp only [parseAt, yield, if_true, List.cons_append, List.append_assoc,
              List.nil_append, parsePrimary, parseOr_succ] at hinner ⊢
            simp only [hinner, consume_self, value]
        | false =>
            simp only [yield, Bool.false_eq_true, if_false, List.append_nil,
              List.length_cons] at hfuel
            have hinner := ih fuel fuel (by omega) (by omega) hfits.1
            simp only [parseAt, yield, Bool.false_eq_true, if_false, List.append_nil,
              List.cons_append, parsePrimary, parseOr_succ] at hinner ⊢
            simp only [hinner, consume_of_head_ne hfits.2, value]
  | plain operand ih =>
      have hoperand := ih fuel rounds hfuel hrounds hfits.1
      simp only [parseAt, yield, parseWith, value] at hoperand ⊢
      simp only [hoperand, consume_of_head_ne hfits.2]
  | excepted operand exception ih =>
      simp only [yield, List.length_append] at hfuel hrounds
      cases exception with
      | some name =>
          have hoperand := ih fuel rounds (by omega) (by omega) hfits
          simp only [parseAt, yield, Option.toList_some, List.map_cons, List.map_nil,
            List.append_assoc, List.cons_append, List.nil_append, parseWith] at hoperand ⊢
          simp only [hoperand, consume_self, parseException, value, Option.any_some]
      | none =>
          have hoperand := ih fuel rounds (by omega) (by omega) hfits.1
          have hexception := hfits.2
          simp only [parseAt, yield, Option.toList_none, List.map_nil, List.append_assoc,
            List.cons_append, List.nil_append, parseWith] at hoperand ⊢
          simp only [hoperand, consume_self, value, Option.any_none]
          cases rest with
          | nil => rfl
          | cons head tail => cases head <;> simp_all [parseException, beginsLicense]
  | lastAnd operand ih =>
      exact parseChain_last (ih fuel rounds hfuel hrounds hfits.1) hfits.2
  | and operand more ihOperand ihMore =>
      obtain _ | rounds := rounds
      · simp [yield] at hrounds
      · simp only [yield, List.length_append, List.length_cons] at hfuel hrounds
        have hoperand := ihOperand fuel rounds (by omega) (by omega) hfits.1
        have hmore := ihMore fuel rounds (by omega) (by omega) hfits.2
        simp only [yield, value, List.append_assoc, List.cons_append, Bool.and_comm operand.value]
        exact parseChain_cons (fun a b c => (Bool.and_assoc a b c).symm) hoperand hmore
  | lastOr operand ih =>
      exact parseChain_last (ih fuel fuel hfuel hfuel hfits.1) hfits.2
  | or operand more ihOperand ihMore =>
      obtain _ | rounds := rounds
      · simp [yield] at hrounds
      · simp only [yield, List.length_append, List.length_cons] at hfuel hrounds
        have hoperand := ihOperand fuel fuel (by omega) (by omega) hfits.1
        have hmore := ihMore fuel rounds (by omega) (by omega) hfits.2
        simp only [yield, value, List.append_assoc, List.cons_append, Bool.or_comm operand.value]
        exact parseChain_cons (fun a b c => (Bool.or_assoc a b c).symm) hoperand hmore

/-! ## Every run reads a tree -/

/-- The outcome of a run is a tree that fits and what is behind it. -/
@[grind =] def ReadsTree {level : Level} (tokens : List SpdxToken) (outcome : Bool × List SpdxToken)
    (tree : SpdxTree level) : Prop :=
  tokens = tree.yield ++ outcome.2 ∧ tree.value = outcome.1 ∧ tree.Fits outcome.2

/-- The parser reads a tree from the tokens. -/
def Readable (level : Level) (parse : SpdxParse) (tokens : List SpdxToken) : Prop :=
  ∃ tree : SpdxTree level, ReadsTree tokens (parse tokens) tree

/-- A primary is parsed as it reads when shorter texts are. -/
theorem parsePrimary_readable {nested : SpdxParse} {tokens : List SpdxToken}
    (h : ∀ inner, inner.length < tokens.length → Readable .or nested inner) :
    Readable .primary (parsePrimary nested) tokens := by
  by_cases hbegins : beginsOperand tokens = true
  · cases tokens with
    | nil => simp [beginsOperand, beginsLicense] at hbegins
    | cons head tail =>
        cases head with
        | license name => exact ⟨.license name, rfl, rfl, trivial⟩
        | lParen =>
            obtain ⟨inner, hyield, hvalue, hfits⟩ := h tail (by simp)
            obtain ⟨rest, hrest, hconsume⟩ | ⟨hhead, hconsume⟩ :=
              consume_cases .rParen (nested tail).2
            · refine ⟨.group inner true, ?_⟩
              simp only [ReadsTree, parsePrimary, hconsume, SpdxTree.yield, SpdxTree.value,
                SpdxTree.Fits, if_true, ← hvalue, true_and, List.cons_append, List.append_assoc,
                List.nil_append]
              rw [hrest] at hyield hfits
              exact ⟨congrArg _ hyield, hfits⟩
            · refine ⟨.group inner false, ?_⟩
              simp only [ReadsTree, parsePrimary, hconsume, SpdxTree.yield, SpdxTree.value,
                SpdxTree.Fits, Bool.false_eq_true, if_false, ← hvalue, true_and,
                List.cons_append, List.append_nil]
              exact ⟨congrArg _ hyield, hfits, hhead⟩
        | _ => simp [beginsOperand, beginsLicense] at hbegins
  · have hmissing : parsePrimary nested tokens = (false, tokens) := by
      cases tokens with
      | nil => rfl
      | cons head tail => cases head <;> simp_all [beginsOperand, beginsLicense, parsePrimary]
    refine ⟨.missing, ?_⟩
    rw [hmissing]
    exact ⟨rfl, rfl, Bool.eq_false_iff.mpr hbegins⟩

/-- An exception behind a primary is parsed as it reads. -/
theorem parseWith_readable {nested : SpdxParse} {tokens : List SpdxToken}
    (h : Readable .primary (parsePrimary nested) tokens) :
    Readable .with (parseWith nested) tokens := by
  obtain ⟨operand, hyield, hvalue, hfits⟩ := h
  obtain ⟨rest, hrest, hconsume⟩ | ⟨hhead, hconsume⟩ :=
    consume_cases .with (parsePrimary nested tokens).2
  · rw [hrest] at hyield hfits
    by_cases hlicense : beginsLicense rest = true
    · cases rest with
      | nil => simp [beginsLicense] at hlicense
      | cons head tail =>
          cases head with
          | license name =>
              refine ⟨.excepted operand (some name), ?_⟩
              simp only [ReadsTree, parseWith, hconsume, parseException, SpdxTree.yield,
                SpdxTree.value, SpdxTree.Fits, ← hvalue, Option.any_some, true_and]
              exact ⟨by simpa using hyield, hfits⟩
          | _ => simp [beginsLicense] at hlicense
    · have hmissing : parseException rest = (false, rest) := by
        cases rest with
        | nil => rfl
        | cons head tail => cases head <;> simp_all [beginsLicense, parseException]
      refine ⟨.excepted operand none, ?_⟩
      simp only [ReadsTree, parseWith, hconsume, hmissing, SpdxTree.yield, SpdxTree.value,
        SpdxTree.Fits, ← hvalue, Option.any_none, true_and]
      exact ⟨by simpa using hyield, hfits, Bool.eq_false_iff.mpr hlicense⟩
  · refine ⟨.plain operand, ?_⟩
    simp only [ReadsTree, parseWith, hconsume, SpdxTree.yield, SpdxTree.value, SpdxTree.Fits]
    exact ⟨hyield, hvalue, hfits, hhead⟩

/-- Both kinds of chain: `last` and `cons` are its trees. -/
theorem parseChain_readable {inner outer : Level} {token : SpdxToken}
    {combine : Bool → Bool → Bool} {operand : SpdxParse} (last : SpdxTree inner → SpdxTree outer)
    (cons : SpdxTree inner → SpdxTree outer → SpdxTree outer)
    (hassoc : ∀ a b c, combine a (combine b c) = combine (combine a b) c)
    (hlast : ∀ tokens outcome tree, ReadsTree tokens outcome tree →
      outcome.2.head? ≠ some token → ReadsTree tokens outcome (last tree))
    (hcons : ∀ tokens value more outcome tree others, ReadsTree tokens (value, token :: more) tree →
      ReadsTree more outcome others →
        ReadsTree tokens (combine outcome.1 value, outcome.2) (cons tree others))
    {rounds : Nat} {tokens : List SpdxToken} (hrounds : tokens.length ≤ rounds)
    (hoperand : ∀ more, more.length ≤ tokens.length → Readable inner operand more) :
    Readable outer (parseChain token combine operand rounds) tokens := by
  induction rounds generalizing tokens with
  | zero =>
      have houtcome : operand tokens = ((operand tokens).1, (operand tokens).2) := rfl
      obtain ⟨tree, hread⟩ := hoperand tokens (Nat.le_refl _)
      have hnil : tokens = [] := List.length_eq_zero_iff.mp (Nat.le_zero.mp hrounds)
      have hrest : (operand tokens).2 = [] := by
        have hyield := hread.1
        rw [hnil] at hyield ⊢
        exact (List.append_eq_nil_iff.mp hyield.symm).2
      have hstop : (operand tokens).2.head? ≠ some token := by
        rw [hrest]
        simp
      refine ⟨last tree, ?_⟩
      rw [parseChain_last houtcome hstop]
      exact hlast _ _ _ hread hstop
  | succ rounds ih =>
      obtain ⟨tree, hread⟩ := hoperand tokens (Nat.le_refl _)
      -- one more link of the chain, or its last one
      by_cases hhead : (operand tokens).2.head? = some token
      · obtain ⟨more, hbehind⟩ := List.head?_eq_some_iff.mp hhead
        have hlen : more.length + 1 ≤ tokens.length := by
          rw [hread.1, hbehind, List.length_append, List.length_cons]
          omega
        have houtcome : operand tokens = ((operand tokens).1, token :: more) := by
          rw [← hbehind]
        have hmore : more.length ≤ rounds := by omega
        obtain ⟨others, hothers⟩ := ih hmore fun later hlater => hoperand later (by omega)
        refine ⟨cons tree others, ?_⟩
        rw [parseChain_cons hassoc houtcome rfl]
        rw [houtcome] at hread
        exact hcons _ _ _ _ _ _ hread hothers
      · have houtcome : operand tokens = ((operand tokens).1, (operand tokens).2) := rfl
        refine ⟨last tree, ?_⟩
        rw [parseChain_last houtcome hhead]
        exact hlast _ _ _ hread hhead

theorem parseAnd_readable {fuel : Nat} {nested : SpdxParse} {tokens : List SpdxToken}
    (hfuel : tokens.length ≤ fuel)
    (h : ∀ more, more.length ≤ tokens.length → Readable .with (parseWith nested) more) :
    Readable .and (parseAnd fuel nested) tokens := by
  apply parseChain_readable .lastAnd .and _ _ _ hfuel h
  · exact fun a b c => (Bool.and_assoc a b c).symm
  · intro tokens outcome tree hread hstop
    exact ⟨hread.1, hread.2.1, hread.2.2, hstop⟩
  · intro tokens value more outcome tree others hread hmore
    have hyield := hread.1
    have hfits := hread.2.2
    rw [hmore.1] at hyield hfits
    refine ⟨?_, ?_, hfits, hmore.2.2⟩
    · rw [hyield, SpdxTree.yield, List.append_assoc, List.cons_append]
    · rw [SpdxTree.value, hread.2.1, hmore.2.1, Bool.and_comm]

theorem parseOr_readable {fuel : Nat} {tokens : List SpdxToken} (h : tokens.length < fuel) :
    Readable .or (parseOr fuel) tokens := by
  induction fuel generalizing tokens with
  | zero => omega
  | succ fuel ih =>
      apply parseChain_readable .lastOr .or _ _ _ (by omega)
      · intro more hmore
        apply parseAnd_readable (by omega)
        intro later hlater
        apply parseWith_readable
        apply parsePrimary_readable
        intro inner hinner
        exact ih (by omega)
      · exact fun a b c => (Bool.or_assoc a b c).symm
      · intro tokens outcome tree hread hstop
        exact ⟨hread.1, hread.2.1, hread.2.2, hstop⟩
      · intro tokens value more outcome tree others hread hmore
        have hyield := hread.1
        have hfits := hread.2.2
        rw [hmore.1] at hyield hfits
        refine ⟨?_, ?_, hfits, hmore.2.2⟩
        · rw [hyield, SpdxTree.yield, List.append_assoc, List.cons_append]
        · rw [SpdxTree.value, hread.2.1, hmore.2.1, Bool.or_comm]

/-- What the gate accepts: the tokens of a tree that is true. -/
theorem tokensAllowed_iff (tokens : List SpdxToken) :
    tokensAllowed tokens = true
      ↔ ∃ tree : SpdxTree .or, tree.Fits [] ∧ tree.yield = tokens ∧ tree.value = true := by
  unfold tokensAllowed
  constructor
  · intro h
    split at h
    · cases h
    · obtain ⟨tree, hyield, hvalue, hfits⟩ := parseOr_readable (Nat.lt_succ_self tokens.length)
      simp only [Bool.and_eq_true, List.isEmpty_iff] at h
      rw [h.2] at hyield hfits
      rw [h.1] at hvalue
      exact ⟨tree, hfits, by simpa using hyield.symm, hvalue⟩
  · rintro ⟨tree, hfits, rfl, hvalue⟩
    have hread := tree.read _ _ (Nat.le_refl _) (Nat.le_refl _) hfits
    rw [List.append_nil] at hread
    rw [parseOr_succ, hread]
    split
    · rename_i hempty
      rw [List.isEmpty_iff.mp hempty] at hread
      rw [← hvalue]
      exact congrArg Prod.fst hread
    · simpa using hvalue

/-! ## Gaps -/

/-- What the parser goes on to read behind an expression of this level. -/
@[grind =] def Level.goesOn : Level → List SpdxToken
  | .primary => []
  | .with => [.with]
  | .and => [.with, .and]
  | .or => [.with, .and, .or]

/-- The reading of a complete tree is not in doubt. -/
theorem SpdxTree.fits_of_complete {level : Level} {tree : SpdxTree level}
    (h : tree.complete = true) {rest : List SpdxToken}
    (hrest : ∀ token ∈ level.goesOn, rest.head? ≠ some token) : tree.Fits rest := by
  induction tree generalizing rest with
  | license name => trivial
  | missing => cases h
  | group inner closed ih =>
      simp only [complete, Bool.and_eq_true] at h
      obtain ⟨hinner, rfl⟩ := h
      exact ih hinner (by simp [Level.goesOn])
  | plain operand ih => exact ⟨ih h (by simp [Level.goesOn]), hrest _ (by simp [Level.goesOn])⟩
  | excepted operand exception ih =>
      simp only [complete, Bool.and_eq_true] at h
      cases exception with
      | none => simp at h
      | some name => exact ih h.1 (by simp [Level.goesOn])
  | lastAnd operand ih =>
      simp only [Level.goesOn, List.mem_cons, List.not_mem_nil, or_false] at hrest ih
      exact ⟨ih h (by simp_all), hrest _ (by simp)⟩
  | and operand more ihOperand ihMore =>
      simp only [complete, Bool.and_eq_true] at h
      exact ⟨ihOperand h.1 (by simp [Level.goesOn]), ihMore h.2 hrest⟩
  | lastOr operand ih =>
      simp only [Level.goesOn, List.mem_cons, List.not_mem_nil, or_false] at hrest ih
      exact ⟨ih h (by simp_all), hrest _ (by simp)⟩
  | or operand more ihOperand ihMore =>
      simp only [complete, Bool.and_eq_true] at h
      exact ⟨ihOperand h.1 (by simp [Level.goesOn]), ihMore h.2 hrest⟩

/-- What has to come next. -/
inductive Expected where
  | operand
  | exception
  | nothing
  deriving DecidableEq

/-- Token by token: no operand and no exception is missing. -/
@[grind =] def scan : Expected → List SpdxToken → Option Expected
  | expected, [] => some expected
  | .operand, .license _ :: rest => scan .nothing rest
  | .operand, .lParen :: rest => scan .operand rest
  | .exception, .license _ :: rest => scan .nothing rest
  | .nothing, .and :: rest => scan .operand rest
  | .nothing, .or :: rest => scan .operand rest
  | .nothing, .with :: rest => scan .exception rest
  | .nothing, .rParen :: rest => scan .nothing rest
  | _, _ => none

theorem scan_append (expected : Expected) (tokens more : List SpdxToken) :
    scan expected (tokens ++ more) = (scan expected tokens).bind (scan · more) := by
  induction tokens generalizing expected with
  | nil => rfl
  | cons token tokens ih => cases expected <;> cases token <;> first | exact ih _ | rfl

/-- Behind a token that ends an operand nothing may be missing. -/
theorem scan_operator (expected : Expected) {tokens more : List SpdxToken} {token : SpdxToken}
    (hnothing : scan .nothing (token :: more) = scan expected more)
    (hoperand : scan .operand (token :: more) = none)
    (hexception : scan .exception (token :: more) = none) :
    scan .operand (tokens ++ token :: more) = some .nothing
      ↔ scan .operand tokens = some .nothing ∧ scan expected more = some .nothing := by
  rw [scan_append]
  cases hscan : scan .operand tokens with
  | none => simp
  | some behind => cases behind <;> simp [hnothing, hoperand, hexception]

namespace SpdxTree

theorem count_le {level : Level} (tree : SpdxTree level) :
    tree.yield.count .rParen ≤ tree.yield.count .lParen := by
  induction tree with
  | license name => simp [yield]
  | missing => simp [yield]
  | group inner closed ih => cases closed <;> simp [yield] <;> omega
  | plain operand ih => exact ih
  | excepted operand exception ih => cases exception <;> simp [yield, ih]
  | lastAnd operand ih => exact ih
  | and operand more ihOperand ihMore => simp [yield]; omega
  | lastOr operand ih => exact ih
  | or operand more ihOperand ihMore => simp [yield]; omega

/-- Whether a tree has gaps can be seen from its tokens. -/
theorem complete_iff {level : Level} (tree : SpdxTree level) :
    tree.complete = true ↔ scan .operand tree.yield = some .nothing
      ∧ tree.yield.count .lParen = tree.yield.count .rParen := by
  -- The scan stops at a missing operand, the counts show a missing parenthesis.
  induction tree with
  | license name => simp [complete, yield, scan]
  | missing => simp [complete, yield, scan]
  | group inner closed ih =>
      have hle := inner.count_le
      cases closed with
      | true =>
          have hscan : scan .operand (inner.yield ++ [.rParen]) = some .nothing ↔ _ :=
            scan_operator .nothing rfl rfl rfl
          simp [complete, yield, scan, ih, hscan]
      | false =>
          simp [complete, yield, scan]
          omega
  | plain operand ih => exact ih
  | excepted operand exception ih =>
      cases exception with
      | some name =>
          have hscan : scan .operand (operand.yield ++ .with :: [.license name])
              = some .nothing ↔ _ :=
            scan_operator .exception rfl rfl rfl
          simp [complete, yield, ih, hscan, scan]
      | none =>
          have hscan : scan .operand (operand.yield ++ .with :: []) = some .nothing ↔ _ :=
            scan_operator .exception rfl rfl rfl
          simp [complete, yield, hscan, scan]
  | lastAnd operand ih => exact ih
  | and operand more ihOperand ihMore =>
      have hle := operand.count_le
      have hle' := more.count_le
      have hscan : scan .operand (operand.yield ++ .and :: more.yield) = some .nothing ↔ _ :=
        scan_operator .operand rfl rfl rfl
      have hcount : (yield (.and operand more)).count .lParen
            = (yield (.and operand more)).count .rParen
          ↔ operand.yield.count .lParen = operand.yield.count .rParen
            ∧ more.yield.count .lParen = more.yield.count .rParen := by
        simp [yield]
        omega
      rw [hcount, complete, Bool.and_eq_true, ihOperand, ihMore, yield, hscan, and_and_and_comm]
  | lastOr operand ih => exact ih
  | or operand more ihOperand ihMore =>
      have hle := operand.count_le
      have hle' := more.count_le
      have hscan : scan .operand (operand.yield ++ .or :: more.yield) = some .nothing ↔ _ :=
        scan_operator .operand rfl rfl rfl
      have hcount : (yield (.or operand more)).count .lParen
            = (yield (.or operand more)).count .rParen
          ↔ operand.yield.count .lParen = operand.yield.count .rParen
            ∧ more.yield.count .lParen = more.yield.count .rParen := by
        simp [yield]
        omega
      rw [hcount, complete, Bool.and_eq_true, ihOperand, ihMore, yield, hscan, and_and_and_comm]

end SpdxTree

/-! ## Malformed expressions -/

/-- With what is missing taken as false, a malformed expression is not true. -/
def GapsAreFalse (tokens : List SpdxToken) : Prop :=
  ∀ tree : SpdxTree .or, tree.Fits [] → tree.yield = tokens → tree.complete = false →
    tree.value = false

theorem spdxExpressionIsAllowed_exact_iff (expression : String) :
    (spdxExpressionIsAllowed expression = true
        ↔ WellFormed (tokenizeSpdxExpression expression) true)
      ↔ GapsAreFalse (tokenizeSpdxExpression expression) := by
  rw [spdxExpressionIsAllowed, tokensAllowed_iff]
  constructor
  · intro h tree hfits hyield hgap
    by_contra hvalue
    obtain ⟨whole, hcomplete, hwhole, -⟩ :=
      h.mp ⟨tree, hfits, hyield, Bool.not_eq_false _ ▸ hvalue⟩
    have hlexical := (whole.complete_iff).mp hcomplete
    rw [hwhole, ← hyield, ← tree.complete_iff, hgap] at hlexical
    cases hlexical
  · intro h
    constructor
    · rintro ⟨tree, hfits, hyield, hvalue⟩
      refine ⟨tree, ?_, hyield, hvalue⟩
      by_contra hgap
      have hfalse := h tree hfits hyield (Bool.not_eq_true _ ▸ hgap)
      rw [hvalue] at hfalse
      cases hfalse
    · rintro ⟨tree, hcomplete, hyield, hvalue⟩
      exact ⟨tree, SpdxTree.fits_of_complete hcomplete (by simp), hyield, hvalue⟩

/-- The operand behind the last `OR` is missing. -/
theorem not_spdxExpressionIsAllowed_exact :
    ¬ ∀ expression : String, spdxExpressionIsAllowed expression = true
      ↔ WellFormed (tokenizeSpdxExpression expression) true := by
  intro h
  have htokens : tokenizeSpdxExpression "MIT OR" = [.license "MIT", .or] := by decide
  have hallowed : spdxExpressionIsAllowed "MIT OR" = true := by
    rw [spdxExpressionIsAllowed, htokens]
    decide
  obtain ⟨tree, hcomplete, hyield, -⟩ := (h "MIT OR").mp hallowed
  have hlexical := (tree.complete_iff).mp hcomplete
  rw [hyield, htokens] at hlexical
  exact absurd hlexical.1 (by decide)

end GovFuzz.LicensePolicy
