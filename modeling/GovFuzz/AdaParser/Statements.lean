import GovFuzz.AdaParser.Token

/-!
# Ada parser — statement spans

`crates/ada_parser/src/extract/statements.rs`.  The scanner knows no
expression grammar: it balances a stack of construct keywords against `end`
and takes the first semicolon at which the stack is empty.  The top of the
stack is the head of the list.
-/

namespace GovFuzz.AdaParser

inductive ConstructKind where
  | «if» | case | loop | select | parallel | declare | block | record
  deriving DecidableEq

inductive StatementOwner where
  | subprogram (id : Nat)
  | packageBody (id : Nat)
  deriving DecidableEq

structure StatementSpan where
  id : Nat
  owner : StatementOwner
  fileByteOffset : Nat
  endByteOffset : Nat
  line : Nat
  col : Nat
  depth : Nat
  indexInBlock : Nat
  deriving DecidableEq

/-! ## Closing a construct -/

/-- Over `.Name` pairs. -/
def skipSelectors (tokens : List Token) (cursor : Nat) : Nat :=
  if _hdot : kindAt tokens cursor .dot then
    match tokenKindAt tokens (cursor + 1) with
    | some (.identifier _) => skipSelectors tokens (cursor + 2)
    | _ => cursor
  else cursor
termination_by tokens.length - cursor
decreasing_by
  have := lt_of_kindAt _hdot
  omega

/-- The semicolon of `end A.B;`. -/
def namedEndSemicolonIndex (tokens : List Token) (index : Nat) : Option Nat :=
  match tokenKindAt tokens (index + 1) with
  | some (.identifier _) =>
      if kindAt tokens (skipSelectors tokens (index + 2)) .semicolon then
        some (skipSelectors tokens (index + 2))
      else none
  | _ => none

def popMatchingConstruct (constructStack : List ConstructKind) (expected : ConstructKind) :
    Option (List ConstructKind) :=
  match constructStack with
  | top :: rest => if top = expected then some rest else none
  | [] => none

def popBlockConstruct : List ConstructKind → Option (List ConstructKind)
  | .declare :: rest => some rest
  | .block :: rest => some rest
  | _ => none

/-- The stack behind the `end` at `index`, when it closes the top construct. -/
def closeStatementConstruct (tokens : List Token) (index : Nat)
    (constructStack : List ConstructKind) : Option (List ConstructKind) :=
  match tokenKindAt tokens (index + 1) with
  | some .kwIf => popMatchingConstruct constructStack .«if»
  | some .kwCase => popMatchingConstruct constructStack .case
  | some .kwLoop => popMatchingConstruct constructStack .loop
  | some .kwSelect => popMatchingConstruct constructStack .select
  | some .kwDo => popMatchingConstruct constructStack .parallel
  | some .kwRecord => popMatchingConstruct constructStack .record
  | some .semicolon => popBlockConstruct constructStack
  | some (.identifier _) =>
      if (namedEndSemicolonIndex tokens index).isSome then popBlockConstruct constructStack
      else none
  | _ => none

def endConstructWidth (tokens : List Token) (index : Nat) : Nat :=
  match tokenKindAt tokens (index + 1) with
  | some .kwIf | some .kwCase | some .kwLoop | some .kwSelect | some .kwDo | some .kwRecord => 2
  | _ =>
      match namedEndSemicolonIndex tokens index with
      | some semicolonIndex => semicolonIndex - index
      | none => 1

def isNullRecord (tokens : List Token) (index : Nat) : Bool :=
  match index with
  | 0 => false
  | previous + 1 => kindAt tokens previous .kwNull

/-! ## The scan -/

/-- What the token at `index` does when it does not end the scan: how far to
move on, and the new stack. -/
def scanToken (tokens : List Token) (index : Nat) (kind : TokenKind)
    (constructStack : List ConstructKind) : Nat × List ConstructKind :=
  match kind with
  | .kwEnd =>
      match closeStatementConstruct tokens index constructStack with
      | some rest => (endConstructWidth tokens index, rest)
      | none => (1, constructStack)
  | .kwIf => (1, .«if» :: constructStack)
  | .kwCase => (1, .case :: constructStack)
  | .kwLoop => (1, .loop :: constructStack)
  | .kwSelect => (1, .select :: constructStack)
  | .kwParallel =>
      if kindAt tokens (index + 1) .kwDo then (2, .parallel :: constructStack)
      else (1, constructStack)
  | .kwDeclare => (1, .declare :: constructStack)
  | .kwBegin =>
      match constructStack with
      | .declare :: rest => (1, .block :: rest)
      | _ => (1, .block :: constructStack)
  | .kwRecord =>
      if isNullRecord tokens index then (1, constructStack) else (1, .record :: constructStack)
  | _ => (1, constructStack)

theorem le_skipSelectors (tokens : List Token) (cursor : Nat) :
    cursor ≤ skipSelectors tokens cursor := by
  fun_induction skipSelectors tokens cursor with
  | case1 cursor _ _ _ ih => omega
  | case2 => exact Nat.le_refl _
  | case3 => exact Nat.le_refl _

theorem lt_of_namedEndSemicolonIndex {tokens : List Token} {index semicolonIndex : Nat}
    (h : namedEndSemicolonIndex tokens index = some semicolonIndex) : index < semicolonIndex := by
  unfold namedEndSemicolonIndex at h
  split at h
  · split at h
    · cases h
      have := le_skipSelectors tokens (index + 2)
      omega
    · cases h
  · cases h

theorem endConstructWidth_pos (tokens : List Token) (index : Nat) :
    0 < endConstructWidth tokens index := by
  unfold endConstructWidth
  repeat' split
  all_goals first | decide | skip
  · rename_i h
    have := lt_of_namedEndSemicolonIndex h
    omega

theorem scanToken_pos (tokens : List Token) (index : Nat) (kind : TokenKind)
    (constructStack : List ConstructKind) : 0 < (scanToken tokens index kind constructStack).1 := by
  unfold scanToken
  repeat' split
  all_goals first
    | exact endConstructWidth_pos tokens index
    | exact Nat.one_pos
    | exact Nat.two_pos

/-- The loop of `find_statement_semicolon`. -/
def findStatementSemicolonLoop (tokens : List Token) (endByte : Nat) (index : Nat)
    (constructStack : List ConstructKind) : Option Nat :=
  match _htoken : tokens[index]? with
  | none => none
  | some token =>
      if token.textSpan.start ≥ endByte then none
      else if constructStack = [] ∧
          (token.effectiveKind = .kwException ∨ token.effectiveKind = .kwEnd) then none
      else if constructStack = [] ∧ token.effectiveKind = .semicolon then some index
      else
        let next := scanToken tokens index token.effectiveKind constructStack
        findStatementSemicolonLoop tokens endByte (index + next.1) next.2
termination_by tokens.length - index
decreasing_by
  have hlt := (List.getElem?_eq_some_iff.mp _htoken).1
  have := scanToken_pos tokens index token.effectiveKind constructStack
  omega

def findStatementSemicolon (tokens : List Token) (index endByte : Nat) : Option Nat :=
  findStatementSemicolonLoop tokens endByte index []

/-! ## The statements of a body -/

def findTokenInSpan (tokens : List Token) (startByte endByte : Nat) (kind : TokenKind) :
    Option Nat :=
  tokens.findIdx? fun token =>
    startByte ≤ token.textSpan.start && token.textSpan.start < endByte &&
      token.effectiveKind = kind

def nextStatementToken (tokens : List Token) (index endByte : Nat) : Option Nat :=
  match tokens[index]? with
  | some token =>
      if token.textSpan.start ≥ endByte ∨ token.effectiveKind = .kwEnd ∨
          token.effectiveKind = .kwException then none
      else some index
  | none => none

def pushStatement (statements : List StatementSpan) (owner : StatementOwner) (tokens : List Token)
    (startIndex endIndex indexInBlock : Nat) : List StatementSpan :=
  match tokens[startIndex]?, tokens[endIndex]? with
  | some start, some stop =>
      statements ++ [{
        id := statements.length % 2 ^ 32
        owner
        fileByteOffset := start.textSpan.start
        endByteOffset := stop.textSpan.stop
        line := start.line
        col := start.col
        depth := 0
        indexInBlock }]
  | _, _ => statements

/-- The semicolon found is not in front of the start. -/
theorem le_of_findStatementSemicolonLoop {tokens : List Token} {endByte index found : Nat}
    {constructStack : List ConstructKind}
    (h : findStatementSemicolonLoop tokens endByte index constructStack = some found) :
    index ≤ found := by
  fun_induction findStatementSemicolonLoop tokens endByte index constructStack with
  | case1 => cases h
  | case2 => cases h
  | case3 => cases h
  | case4 =>
      cases h
      exact Nat.le_refl _
  | case5 index constructStack token _ _ _ _ next ih =>
      have := ih h
      omega

/-- The loop of `collect_body_statements`. -/
def collectStatementsLoop (tokens : List Token) (endByte : Nat) (owner : StatementOwner)
    (cursor indexInBlock : Nat) (statements : List StatementSpan) : List StatementSpan :=
  match _hstart : nextStatementToken tokens cursor endByte with
  | none => statements
  | some startIndex =>
      match _hend : findStatementSemicolon tokens startIndex endByte with
      | none => statements
      | some endIndex =>
          collectStatementsLoop tokens endByte owner (endIndex + 1) (indexInBlock + 1)
            (pushStatement statements owner tokens startIndex endIndex indexInBlock)
termination_by tokens.length - cursor
decreasing_by
  have hle := le_of_findStatementSemicolonLoop _hend
  have hlt : cursor < tokens.length ∧ startIndex = cursor := by
    unfold nextStatementToken at _hstart
    split at _hstart
    · rename_i htoken
      split at _hstart
      · cases _hstart
      · cases _hstart
        exact ⟨(List.getElem?_eq_some_iff.mp htoken).1, rfl⟩
    · cases _hstart
  omega

def collectBodyStatements (tokens : List Token) (bodySpan : Span) (beginSearchStart : Nat)
    (owner : StatementOwner) (statements : List StatementSpan) : List StatementSpan :=
  match findTokenInSpan tokens beginSearchStart bodySpan.endByte .kwBegin with
  | none => statements
  | some beginIndex =>
      collectStatementsLoop tokens bodySpan.endByte owner (beginIndex + 1) 0 statements

end GovFuzz.AdaParser
