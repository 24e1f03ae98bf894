import Mathlib.Data.List.Lex
import Mathlib.Order.BoundedOrder.Lattice
import Mathlib.Order.Lattice

/-!
# Lib — lists compared with missing elements at the bottom

The lexicographic comparison of two lists where the shorter one counts as
filled up with `⊥`.  It is a total preorder, and differs from the
lexicographic order only where one list is the other with nothing but `⊥`
behind it.
-/

namespace GovFuzz.Lib

variable {α : Type} [LinearOrder α] [OrderBot α]

/-- `l` is at or below `m`, with `⊥` for what is missing. -/
def PaddedLE : List α → List α → Prop
  | [], _ => True
  | a :: l, [] => a = ⊥ ∧ PaddedLE l []
  | a :: l, b :: m => a < b ∨ a = b ∧ PaddedLE l m

instance PaddedLE.decidable : (l m : List α) → Decidable (PaddedLE l m)
  | [], _ => .isTrue trivial
  | a :: l, [] =>
      have := decidable l ([] : List α)
      inferInstanceAs (Decidable (a = ⊥ ∧ PaddedLE l []))
  | a :: l, b :: m =>
      have := decidable l m
      inferInstanceAs (Decidable (a < b ∨ a = b ∧ PaddedLE l m))

namespace PaddedLE

@[simp] theorem nil_left (m : List α) : PaddedLE [] m := trivial

theorem nil_right_iff (l : List α) : PaddedLE l [] ↔ ∀ a ∈ l, a = ⊥ := by
  induction l with
  | nil => simp
  | cons a l ih => simp [PaddedLE, ih]

theorem refl (l : List α) : PaddedLE l l := by
  induction l with
  | nil => trivial
  | cons a l ih => exact .inr ⟨rfl, ih⟩

theorem total (l m : List α) : PaddedLE l m ∨ PaddedLE m l := by
  induction l generalizing m with
  | nil => exact .inl trivial
  | cons a l ih =>
      cases m with
      | nil => exact .inr trivial
      | cons b m =>
          rcases lt_trichotomy a b with hlt | rfl | hlt
          · exact .inl (.inl hlt)
          · exact (ih m).imp (fun h => .inr ⟨rfl, h⟩) fun h => .inr ⟨rfl, h⟩
          · exact .inr (.inl hlt)

theorem trans {l m n : List α} (h : PaddedLE l m) (h' : PaddedLE m n) : PaddedLE l n := by
  induction l generalizing m n with
  | nil => trivial
  | cons a l ih =>
      cases m with
      | nil =>
          obtain ⟨rfl, hl⟩ := h
          cases n with
          | nil => exact ⟨rfl, hl⟩
          | cons c n =>
              rcases (bot_le : ⊥ ≤ c).lt_or_eq with hc | hc
              · exact .inl hc
              · exact .inr ⟨hc, ih hl trivial⟩
      | cons b m =>
          cases n with
          | nil =>
              obtain ⟨rfl, hm⟩ := h'
              rcases h with hlt | ⟨rfl, hl⟩
              · exact absurd hlt not_lt_bot
              · exact ⟨rfl, ih hl hm⟩
          | cons c n =>
              rcases h with hab | ⟨rfl, hl⟩
              · rcases h' with hbc | ⟨rfl, -⟩
                · exact .inl (hab.trans hbc)
                · exact .inl hab
              · rcases h' with hbc | ⟨rfl, hm⟩
                · exact .inl hbc
                · exact .inr ⟨rfl, ih hl hm⟩

theorem append_self_iff (l more : List α) : PaddedLE (l ++ more) l ↔ ∀ a ∈ more, a = ⊥ := by
  induction l with
  | nil => exact nil_right_iff more
  | cons a l ih => simpa [PaddedLE] using ih

end PaddedLE

/-! ## The lexicographic order -/

omit [OrderBot α] in
theorem cons_le_cons_iff {a b : α} {l m : List α} :
    a :: l ≤ b :: m ↔ a < b ∨ a = b ∧ l ≤ m := by
  rw [le_iff_lt_or_eq, le_iff_lt_or_eq, List.cons_lt_cons_iff, List.cons.injEq]
  tauto

omit [OrderBot α] in
theorem nil_le (l : List α) : [] ≤ l := by
  cases l with
  | nil => exact le_rfl
  | cons a l => exact le_of_lt List.Lex.nil

omit [OrderBot α] in
theorem append_le_append_iff (l m m' : List α) : l ++ m ≤ l ++ m' ↔ m ≤ m' := by
  induction l with
  | nil => rfl
  | cons a l ih => simpa [cons_le_cons_iff] using ih

/-- In the lexicographic order what is behind a list counts only where the list
is a part of the other one. -/
theorem paddedLE_of_append_le {l m e e' : List α} (h : m ++ e ≤ l ++ e') :
    PaddedLE m l ∨ ∃ t, m = l ++ t ∧ (∃ a ∈ t, a ≠ ⊥) ∧ t ++ e ≤ e' := by
  induction m generalizing l with
  | nil => exact .inl trivial
  | cons a m ih =>
      cases l with
      | nil =>
          by_cases hbot : ∃ x ∈ a :: m, x ≠ ⊥
          · exact .inr ⟨a :: m, rfl, hbot, h⟩
          · have hall : ∀ x ∈ a :: m, x = ⊥ := fun x hx =>
              by_contra fun hne => hbot ⟨x, hx, hne⟩
            exact .inl ((PaddedLE.nil_right_iff _).2 hall)
      | cons b l =>
          rw [List.cons_append, List.cons_append, cons_le_cons_iff] at h
          rcases h with hlt | ⟨rfl, hle⟩
          · exact .inl (.inl hlt)
          · rcases ih hle with hpad | ⟨t, rfl, hne, hle⟩
            · exact .inl (.inr ⟨rfl, hpad⟩)
            · exact .inr ⟨t, rfl, hne, hle⟩

/-- The lexicographic order is finer by the lists that end in `⊥`. -/
theorem le_of_paddedLE {l m : List α} (h : PaddedLE m l) :
    m ≤ l ∨ ∃ t, m = l ++ t ∧ t ≠ [] ∧ ∀ a ∈ t, a = ⊥ := by
  induction m generalizing l with
  | nil => exact .inl (nil_le l)
  | cons a m ih =>
      cases l with
      | nil => exact .inr ⟨a :: m, rfl, by simp, (PaddedLE.nil_right_iff _).1 h⟩
      | cons b l =>
          rw [cons_le_cons_iff]
          rcases h with hlt | ⟨rfl, hpad⟩
          · exact .inl (.inl hlt)
          · rcases ih hpad with hle | ⟨t, rfl, hne, hbot⟩
            · exact .inl (.inr ⟨rfl, hle⟩)
            · exact .inr ⟨t, rfl, hne, hbot⟩

omit [OrderBot α] in
/-- Behind a part of itself a list is not at or below it. -/
theorem not_append_le {l t : List α} (h : t ≠ []) : ¬ l ++ t ≤ l := by
  induction l with
  | nil =>
      cases t with
      | nil => exact absurd rfl h
      | cons a t => simp
  | cons b l ih => simpa [cons_le_cons_iff] using ih

end GovFuzz.Lib
