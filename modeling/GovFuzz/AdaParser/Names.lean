import GovFuzz.AdaParser.Brackets
import GovFuzz.AdaParser.ScopeTree

/-!
# Ada parser — reading names
-/

namespace GovFuzz.AdaParser

variable {tokens : List Token} {limit index : Nat}

/-- The selectors of a name, up to a token that is no dot. -/
theorem dottedNameLoop_selectorKinds (names : List String) {next : TokenKind}
    (hnext : next ≠ .dot) (parts : Name)
    (h : At tokens limit index (selectorKinds names ++ [next])) :
    dottedNameLoop tokens index parts
      = some (parts ++ names, index + (selectorKinds names).length) := by
  induction names generalizing index parts with
  | nil =>
      have hkind : kindAt tokens index .dot = false := by
        simp [kindAt, h.tokenKindAt, hnext]
      rw [dottedNameLoop, dif_neg (by simp [hkind]), List.append_nil]
      rfl
  | cons name names ih =>
      have hdot : kindAt tokens index .dot = true := by simp [kindAt, h.tokenKindAt]
      have hname : tokenKindAt tokens (index + 1) = some (.identifier name) := h.2.tokenKindAt
      rw [dottedNameLoop, dif_pos hdot, hname]
      simp only [identifierText]
      rw [ih _ h.2.2, List.append_assoc, List.singleton_append, selectorKinds, List.length_cons,
        List.length_cons]
      congr 2
      omega

theorem parseDottedName_nameKinds (first : String) (rest : List String) {next : TokenKind}
    (hnext : next ≠ .dot) (h : At tokens limit index (nameKinds (first :: rest) ++ [next])) :
    parseDottedName tokens index
      = some (first :: rest, index + (nameKinds (first :: rest)).length) := by
  have hfirst : tokenKindAt tokens index = some (.identifier first) := h.tokenKindAt
  rw [parseDottedName, hfirst]
  simp only [identifierText]
  rw [dottedNameLoop_selectorKinds rest hnext [first] h.2, List.singleton_append, nameKinds,
    List.length_cons]
  congr 2
  omega

end GovFuzz.AdaParser
