import GovFuzz.AdaParser.ScopeTree

/-!
# Ada parser — exception handlers

`crates/ada_parser/src/extract/handler.rs`.  The search for the exception
part of a body and for the end of an arm keep count of open `case` and
`select` only.  The count is a `u32` that never gets near its end: a token
takes a byte, and there are fewer than `2 ^ 32` of these.
-/

namespace GovFuzz.AdaParser

/-- The body a handler belongs to. -/
inductive HandlerOwner where
  | subprogram (id : Nat)
  | packageBody (id : Nat)
  deriving DecidableEq

/-- A handler that was found. -/
structure ExceptionHandler where
  id : Nat
  owner : HandlerOwner
  choices : List Name
  binds : Option String
  span : Span
  bodySpan : Span
  deriving DecidableEq

/-! ## Owners -/

/-- `Iterator::min_by_key` on pairs: the first of the smallest. -/
def minByKey {α : Type} : List (α × Nat) → Option (α × Nat)
  | [] => none
  | first :: rest =>
      some (rest.foldl (fun best next => if next.2 < best.2 then next else best) first)

/-- The package of a scope's name. -/
def packageIdForScope (packages : List Package) (scope : Scope) : Option Nat :=
  (packages.find? fun package => package.name = scope.name).map Package.id

/-- A subprogram whose body holds the byte, and the body's size. -/
def subprogramCandidate (byte : Nat) (subprogram : Subprogram) : Option (HandlerOwner × Nat) := do
  let span ← subprogram.bodySpan
  if spanContainsByte span byte then
    some (.subprogram subprogram.id, span.endByte - span.startByte)
  else none

/-- A package body that holds the byte, and its size. -/
def packageBodyCandidate (packages : List Package) (byte : Nat) (scope : Scope) :
    Option (HandlerOwner × Nat) :=
  if scope.kind ≠ .packageBody then none
  else do
    let span ← scope.bodySpan
    if spanContainsByte span byte then
      let id ← packageIdForScope packages scope
      some (.packageBody id, span.endByte - span.startByte)
    else none

/-- The smallest body around the token. -/
def ownerForException (scopeTree : ScopeTree) (packages : List Package)
    (subprograms : List Subprogram) (token : Token) : Option HandlerOwner :=
  let byte := token.textSpan.start
  (minByKey (subprograms.filterMap (subprogramCandidate byte) ++
    scopeTree.scopes.filterMap (packageBodyCandidate packages byte))).map Prod.fst

/-- The span of an owner's body. -/
def ownerBodySpan (scopeTree : ScopeTree) (packages : List Package)
    (subprograms : List Subprogram) : HandlerOwner → Option Span
  | .subprogram id =>
      (subprograms.find? fun subprogram => subprogram.id = id).bind Subprogram.bodySpan
  | .packageBody id => do
      let package ← packages.find? fun package => package.id = id
      let scope ← scopeTree.scopes.find? fun scope =>
        scope.kind = .packageBody && scope.name = package.name
      scope.bodySpan

/-! ## Nesting -/

/-- `end` that closes neither a bracket nor an extended return. -/
def isHandlerBlockEnd (tokens : List Token) (index : Nat) : Bool :=
  match tokenKindAt tokens (index + 1) with
  | some .kwIf | some .kwLoop | some .kwCase | some .kwRecord | some .kwSelect | some .kwReturn
  | some .kwDo => false
  | _ => true

/-- The depth and the index behind the token at `index`. -/
def observe (tokens : List Token) (index caseSelect : Nat) : Nat × Nat :=
  match tokenKindAt tokens index with
  | some .kwCase | some .kwSelect => (caseSelect + 1, index + 1)
  | some .kwEnd =>
      match tokenKindAt tokens (index + 1) with
      | some .kwCase | some .kwSelect => (caseSelect - 1, index + 2)
      | _ => (caseSelect, index + 1)
  | some _ => (caseSelect, index + 1)
  | none => (caseSelect, index)

/-- The token exists and starts before the limit. -/
def tokenStartsBefore (tokens : List Token) (index limit : Nat) : Bool :=
  match tokens[index]? with
  | some token => token.textSpan.start < limit
  | none => false

theorem lt_of_tokenStartsBefore {tokens : List Token} {index limit : Nat}
    (h : tokenStartsBefore tokens index limit) : index < tokens.length := by
  unfold tokenStartsBefore at h
  split at h
  · rename_i htoken
    exact (List.getElem?_eq_some_iff.mp htoken).1
  · cases h

theorem lt_observe {tokens : List Token} {index limit : Nat}
    (h : tokenStartsBefore tokens index limit) (caseSelect : Nat) :
    index < (observe tokens index caseSelect).2 := by
  have hlt := lt_of_tokenStartsBefore h
  unfold observe
  split
  · exact Nat.lt_succ_self _
  · exact Nat.lt_succ_self _
  · split <;> simp
  · exact Nat.lt_succ_self _
  · rename_i hnone
    simp [tokenKindAt, List.getElem?_eq_getElem hlt] at hnone

/-- The first token from `index` on that stands at depth 0 and has the kind
`target` or ends a block; else the first at or behind `limit`. -/
def nestingScan (target : TokenKind) (tokens : List Token) (limit index caseSelect : Nat) : Nat :=
  if _h : tokenStartsBefore tokens index limit then
    if caseSelect = 0 ∧ (kindAt tokens index target ∨
        (kindAt tokens index .kwEnd ∧ isHandlerBlockEnd tokens index)) then index
    else nestingScan target tokens limit (observe tokens index caseSelect).2
      (observe tokens index caseSelect).1
  else index
termination_by tokens.length - index
decreasing_by
  have := lt_of_tokenStartsBefore _h
  have := lt_observe _h caseSelect
  omega

/-! ## The exception part of a body -/

/-- The first token that does not start before the byte. -/
def firstTokenAtOrAfter (tokens : List Token) (byte : Nat) : Nat :=
  (tokens.findIdx? fun token => byte ≤ token.textSpan.start).getD tokens.length

/-- The first token behind the widest nested scope around the token at
`index`; `max_by_key` takes the last of the largest. -/
def skipNestedScope (scopeTree : ScopeTree) (tokens : List Token) (bodySpan : Span)
    (index : Nat) : Option Nat := do
  let token ← tokens[index]?
  let spans := (scopeTree.scopes.map Scope.declSpan).filter fun span =>
    bodySpan.startByte < span.startByte && span.endByte ≤ bodySpan.endByte &&
      spanContainsByte span token.textSpan.start
  let endByte ← (spans.map Span.endByte).max?
  some (firstTokenAtOrAfter tokens endByte)

/-- The loop of `top_level_exception_index`.  Tokens are in order, so what
follows a nested scope lies ahead. -/
def topLevelExceptionLoop (scopeTree : ScopeTree) (tokens : List Token) (bodySpan : Span)
    (index : Nat) (sawBegin : Bool) (caseSelect : Nat) : Option Nat :=
  if _h : tokenStartsBefore tokens index bodySpan.endByte then
    match skipNestedScope scopeTree tokens bodySpan index with
    | some next =>
        if _hnext : index < next then
          topLevelExceptionLoop scopeTree tokens bodySpan next sawBegin caseSelect
        else none
    | none =>
        if !sawBegin then
          topLevelExceptionLoop scopeTree tokens bodySpan (index + 1)
            (kindAt tokens index .kwBegin) caseSelect
        else if caseSelect = 0 ∧ kindAt tokens index .kwException then some index
        else if caseSelect = 0 ∧ kindAt tokens index .kwEnd ∧ isHandlerBlockEnd tokens index then
          none
        else
          topLevelExceptionLoop scopeTree tokens bodySpan (observe tokens index caseSelect).2 true
            (observe tokens index caseSelect).1
  else none
termination_by tokens.length - index
decreasing_by
  all_goals have hlt := lt_of_tokenStartsBefore _h
  · omega
  · omega
  · have := lt_observe _h caseSelect
    omega

/-- The `exception` of the body itself. -/
def topLevelExceptionIndex (scopeTree : ScopeTree) (tokens : List Token) (bodySpan : Span) :
    Option Nat :=
  topLevelExceptionLoop scopeTree tokens bodySpan (firstTokenAtOrAfter tokens bodySpan.startByte)
    false 0

/-! ## Arms -/

/-- The next `when` of the same level, or the end. -/
def findNextArmOrEnd (tokens : List Token) (index limit : Nat) : Nat :=
  min (nestingScan .kwWhen tokens limit index 0) tokens.length

/-- The arrow of an arm. -/
def findArrow (tokens : List Token) (index limit : Nat) : Option Nat :=
  if _h : tokenStartsBefore tokens index limit then
    match tokenKindAt tokens index with
    | some .arrow => some index
    | some .kwWhen | some .kwEnd => none
    | _ => findArrow tokens (index + 1) limit
  else none
termination_by tokens.length - index
decreasing_by
  have := lt_of_tokenStartsBefore _h
  omega

/-- The choices from `index` up to the arrow. -/
def parseChoicesLoop (tokens : List Token) (index arrowIndex : Nat) (choices : List Name) :
    List Name :=
  if _h : index < arrowIndex then
    match tokenKindAt tokens index with
    | some (.identifier _) =>
        match _hname : parseDottedName tokens index with
        | some (name, next) => parseChoicesLoop tokens next arrowIndex (choices ++ [name])
        | none => parseChoicesLoop tokens (index + 1) arrowIndex choices
    | some .kwOthers => parseChoicesLoop tokens (index + 1) arrowIndex (choices ++ [["others"]])
    | some _ => parseChoicesLoop tokens (index + 1) arrowIndex choices
    | none => choices
  else choices
termination_by arrowIndex - index
decreasing_by
  · have := lt_of_parseDottedName _hname
    omega
  all_goals omega

/-- The choices of an arm and the name it binds. -/
def parseChoices (tokens : List Token) (index arrowIndex : Nat) : Option String × List Name :=
  match identifierText (tokenKindAt tokens index) with
  | some binding =>
      if kindAt tokens (index + 1) .colon then
        (some binding, parseChoicesLoop tokens (index + 2) arrowIndex [])
      else (none, parseChoicesLoop tokens index arrowIndex [])
  | none => (none, parseChoicesLoop tokens index arrowIndex [])

/-- The span of the tokens from `start` up to `stop`. -/
def spanFromTokenRange (tokens : List Token) (start stop : Nat) : Span :=
  match tokens[start]? with
  | none => ⟨0, 0, 0, 0⟩
  | some startToken =>
      let endToken :=
        if stop > start then tokens[stop - 1]?.getD startToken else startToken
      ⟨startToken.textSpan.start, endToken.textSpan.stop, startToken.line, startToken.col⟩

/-- One arm, and the token behind it. -/
def parseHandlerArm (tokens : List Token) (whenIndex : Nat) (owner : HandlerOwner) (limit : Nat)
    (handlers : List ExceptionHandler) : Nat × List ExceptionHandler :=
  match findArrow tokens (whenIndex + 1) limit with
  | none => (findNextArmOrEnd tokens (whenIndex + 1) limit, handlers)
  | some arrowIndex =>
      let (binds, choices) := parseChoices tokens (whenIndex + 1) arrowIndex
      let bodyStart := arrowIndex + 1
      let bodyEnd := findNextArmOrEnd tokens bodyStart limit
      if choices.isEmpty then (bodyEnd, handlers)
      else
        (bodyEnd, handlers ++ [{
          id := handlers.length % 2 ^ 32
          owner
          choices
          binds
          span := spanFromTokenRange tokens whenIndex (max bodyEnd bodyStart)
          bodySpan := spanFromTokenRange tokens bodyStart bodyEnd }])

/-- The loop of `parse_handler_block`. -/
def parseHandlerLoop (tokens : List Token) (owner : HandlerOwner) (limit index : Nat)
    (handlers : List ExceptionHandler) : List ExceptionHandler :=
  if _h : tokenStartsBefore tokens index limit then
    if kindAt tokens index .kwWhen then
      if _hnext : (parseHandlerArm tokens index owner limit handlers).1 ≤ index then
        parseHandlerLoop tokens owner limit (index + 1)
          (parseHandlerArm tokens index owner limit handlers).2
      else
        parseHandlerLoop tokens owner limit (parseHandlerArm tokens index owner limit handlers).1
          (parseHandlerArm tokens index owner limit handlers).2
    else if kindAt tokens index .kwEnd ∧ isHandlerBlockEnd tokens index then handlers
    else parseHandlerLoop tokens owner limit (index + 1) handlers
  else handlers
termination_by tokens.length - index
decreasing_by
  all_goals have hlt := lt_of_tokenStartsBefore _h
  all_goals omega

/-- The arms behind an `exception`. -/
def parseHandlerBlock (tokens : List Token) (exceptionIndex : Nat) (owner : HandlerOwner)
    (limit : Nat) (handlers : List ExceptionHandler) : List ExceptionHandler :=
  parseHandlerLoop tokens owner limit (exceptionIndex + 1) handlers

/-- One token of the outer loop. -/
def extractHandlersAt (scopeTree : ScopeTree) (packages : List Package)
    (subprograms : List Subprogram) (tokens : List Token) (handlers : List ExceptionHandler)
    (entry : Token × Nat) : List ExceptionHandler :=
  if entry.1.effectiveKind ≠ .kwException then handlers
  else
    match ownerForException scopeTree packages subprograms entry.1 with
    | none => handlers
    | some owner =>
        match ownerBodySpan scopeTree packages subprograms owner with
        | none => handlers
        | some bodySpan =>
            if topLevelExceptionIndex scopeTree tokens bodySpan ≠ some entry.2 then handlers
            else parseHandlerBlock tokens entry.2 owner bodySpan.endByte handlers

/-- The handlers of a file, in order. -/
def extractHandlers (scopeTree : ScopeTree) (packages : List Package)
    (subprograms : List Subprogram) (tokens : List Token) : List ExceptionHandler :=
  tokens.zipIdx.foldl (extractHandlersAt scopeTree packages subprograms tokens) []

end GovFuzz.AdaParser
