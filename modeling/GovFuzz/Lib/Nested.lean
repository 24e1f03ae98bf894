import Mathlib.Data.List.Basic

/-!
# Lib — nested delimiters

Words of the grammar `S → open S close | terminal`, with a pair of delimiters
for each level out of a list of pairs.  A word is known by the pairs around
its terminal, from the outermost to the innermost.
-/

namespace GovFuzz.Lib

variable {α : Type}

/-- A word of the grammar, with the number of its levels. -/
inductive Nested (pairs : List (List α × List α)) (isTerminal : List α → Prop) :
    Nat → List α → Prop
  | terminal {word : List α} (h : isTerminal word) : Nested pairs isTerminal 0 word
  | level {depth : Nat} {opening close word : List α} (hpair : (opening, close) ∈ pairs)
      (hword : Nested pairs isTerminal depth word) :
      Nested pairs isTerminal (depth + 1) (opening ++ word ++ close)

/-- The opening delimiters in order, then the closing ones in reverse. -/
theorem Nested.wrap {pairs levels : List (List α × List α)} {isTerminal : List α → Prop}
    {word : List α} (hword : isTerminal word) (hlevels : ∀ level ∈ levels, level ∈ pairs) :
    Nested pairs isTerminal levels.length
      (levels.flatMap Prod.fst ++ word ++ (levels.map Prod.snd).reverse.flatten) := by
  induction levels with
  | nil =>
      rw [List.flatMap_nil, List.nil_append, List.map_nil, List.reverse_nil, List.flatten_nil,
        List.append_nil]
      exact .terminal hword
  | cons level levels ih =>
      have hinner := ih fun other hmem => hlevels other (List.mem_cons_of_mem _ hmem)
      have hlevel : (level.1, level.2) ∈ pairs := hlevels level List.mem_cons_self
      have h := Nested.level hlevel hinner
      rw [List.length_cons, List.flatMap_cons, List.map_cons, List.reverse_cons,
        List.flatten_append, List.flatten_singleton]
      simpa only [List.append_assoc] using h

end GovFuzz.Lib
