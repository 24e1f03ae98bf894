import GovFuzz.AdaParser.Token

/-!
# Ada parser — scopes and names

The data of `crates/ada_parser/src/extract/scope.rs` and `ast.rs` that the
extractors share.  A dotted name is kept as its parts: identifiers hold no
dots, so two joined names are equal exactly when their parts are.  The
declarative spans of a scope are left out, nothing modelled here reads them.
-/

namespace GovFuzz.AdaParser

abbrev Name := List String

inductive ScopeKind where
  | packageSpec | packageBody | subprogramSpec | subprogramBody
  deriving DecidableEq

structure Scope where
  kind : ScopeKind
  name : Name
  declSpan : Span
  bodySpan : Option Span
  parent : Option Nat
  isGeneric : Bool
  deriving DecidableEq

structure ScopeTree where
  scopes : List Scope
  deriving DecidableEq

structure Package where
  id : Nat
  name : Name
  deriving DecidableEq

structure Subprogram where
  id : Nat
  bodySpan : Option Span
  deriving DecidableEq

/-- The rest of a dotted name. -/
def dottedNameLoop (tokens : List Token) (index : Nat) (parts : Name) : Option (Name × Nat) :=
  if _hdot : kindAt tokens index .dot then
    match identifierText (tokenKindAt tokens (index + 1)) with
    | some name => dottedNameLoop tokens (index + 2) (parts ++ [name])
    | none => none
  else some (parts, index)
termination_by tokens.length - index
decreasing_by
  have := lt_of_kindAt _hdot
  omega

def parseDottedName (tokens : List Token) (index : Nat) : Option (Name × Nat) :=
  match identifierText (tokenKindAt tokens index) with
  | some name => dottedNameLoop tokens (index + 1) [name]
  | none => none

theorem le_of_dottedNameLoop {tokens : List Token} {index : Nat} {parts : Name}
    {found : Name × Nat} (h : dottedNameLoop tokens index parts = some found) :
    index ≤ found.2 := by
  fun_induction dottedNameLoop tokens index parts with
  | case1 _ _ _ _ _ ih =>
      have := ih h
      omega
  | case2 => cases h
  | case3 =>
      cases h
      exact Nat.le_refl _

theorem lt_of_parseDottedName {tokens : List Token} {index : Nat} {found : Name × Nat}
    (h : parseDottedName tokens index = some found) : index < found.2 := by
  unfold parseDottedName at h
  split at h
  · exact le_of_dottedNameLoop h
  · cases h

def spanContainsByte (span : Span) (byte : Nat) : Bool :=
  span.startByte ≤ byte && byte < span.endByte

end GovFuzz.AdaParser
