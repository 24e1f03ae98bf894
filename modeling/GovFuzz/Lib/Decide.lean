import Mathlib.Data.List.Basic

/-!
# Lib — deciding quantifiers over a list

A quantifier over the members of a list is decided by going through the
list.  The type of the members may be finite too, as the bytes are, and then
going through the type would be the other way to decide it.
-/

namespace GovFuzz.Lib

variable {α : Type} (p : α → Prop) [DecidablePred p] (l : List α)

instance (priority := high) decidableForallMem : Decidable (∀ a ∈ l, p a) :=
  List.decidableBAll p l

instance (priority := high) decidableExistsMem : Decidable (∃ a ∈ l, p a) :=
  List.decidableBEx p l

/-! Texts, and pairs of byte strings, compare as they are equal. -/

instance lawfulBEqText : LawfulBEq (List Char) := inferInstance

instance lawfulBEqBytesPair : LawfulBEq (List UInt8 × List UInt8) := inferInstance

end GovFuzz.Lib
