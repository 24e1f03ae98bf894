import Mathlib.Data.List.Basic

/-!
# Lib — taking a token if it is there

`consume` looks at the next token and takes it if it is the one asked for:
the step that recursive-descent parsers are built from.
-/

namespace GovFuzz.Lib

variable {τ : Type} [DecidableEq τ]

def consume (token : τ) : List τ → Bool × List τ
  | [] => (false, [])
  | head :: tail => if head = token then (true, tail) else (false, head :: tail)

@[simp] theorem consume_self (token : τ) (rest : List τ) :
    consume token (token :: rest) = (true, rest) := by
  simp [consume]

theorem consume_of_head_ne {token : τ} {rest : List τ} (h : rest.head? ≠ some token) :
    consume token rest = (false, rest) := by
  cases rest with
  | nil => rfl
  | cons head tail =>
      have hne : head ≠ token := by
        intro heq
        apply h
        rw [heq]
        rfl
      simp [consume, hne]

theorem consume_cases (token : τ) (tokens : List τ) :
    (∃ rest, tokens = token :: rest ∧ consume token tokens = (true, rest)) ∨
      (tokens.head? ≠ some token ∧ consume token tokens = (false, tokens)) := by
  by_cases h : tokens.head? = some token
  · left
    obtain ⟨rest, rfl⟩ := List.head?_eq_some_iff.mp h
    exact ⟨rest, rfl, consume_self token rest⟩
  · exact Or.inr ⟨h, consume_of_head_ne h⟩

end GovFuzz.Lib
