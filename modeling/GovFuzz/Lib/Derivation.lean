import Mathlib.Computability.ContextFreeGrammar
import Mathlib.Algebra.GroupWithZero.Nat

/-!
# Lib — derivations of bounded depth

A context-free derivation that expands every non-terminal with one of its
`choices` at the level it stands on, and leaves the non-terminals on level
zero as they are.  It is a derivation of the grammar; and it is finished, with
terminals only, when all that it started from collapses before that level.
-/

namespace GovFuzz.Lib

/-- Mathlib's symbols. -/
abbrev GrammarSymbol (T N : Type) := Symbol T N

/-- The terminals of a sentential form. -/
def terminals {T N : Type} (form : List (Symbol T N)) : List T :=
  form.filterMap fun symbol => match symbol with
    | .terminal t => some t
    | .nonterminal _ => none

section Form

variable {T N : Type}

@[simp] theorem terminals_append (form more : List (Symbol T N)) :
    terminals (form ++ more) = terminals form ++ terminals more := List.filterMap_append

@[simp] theorem terminals_map_terminal (word : List T) :
    terminals (word.map (Symbol.terminal : T → Symbol T N)) = word := by
  induction word with
  | nil => rfl
  | cons t word ih => exact congrArg (t :: ·) ih

def Finished (form : List (Symbol T N)) : Prop := ∀ n, .nonterminal n ∉ form

theorem map_terminal_terminals {form : List (Symbol T N)} (h : Finished form) :
    (terminals form).map Symbol.terminal = form := by
  induction form with
  | nil => rfl
  | cons symbol form ih =>
      have hform : Finished form := fun n hn => h n (List.mem_cons_of_mem _ hn)
      cases symbol with
      | terminal t => exact congrArg (.terminal t :: ·) (ih hform)
      | nonterminal n => exact absurd List.mem_cons_self (h n)

end Form

section Bounded

variable {T N : Type} (choices : Nat → N → List (Symbol T N) → Prop)

inductive Expands : Nat → List (Symbol T N) → List (Symbol T N) → Prop where
  | nil (levels : Nat) : Expands levels [] []
  | terminal {levels : Nat} {form out : List (Symbol T N)} (t : T) (h : Expands levels form out) :
      Expands levels (.terminal t :: form) (.terminal t :: out)
  | cut {form out : List (Symbol T N)} (n : N) (h : Expands 0 form out) :
      Expands 0 (.nonterminal n :: form) (.nonterminal n :: out)
  | expand {levels : Nat} {n : N} {alt inner form out : List (Symbol T N)}
      (hchoice : choices (levels + 1) n alt) (hinner : Expands levels alt inner)
      (h : Expands (levels + 1) form out) :
      Expands (levels + 1) (.nonterminal n :: form) (inner ++ out)

/-- Whatever is chosen, `n` is down to terminals before level zero. -/
def Collapses : Nat → N → Prop
  | 0, _ => False
  | levels + 1, n => ∀ alt, choices (levels + 1) n alt →
      ∀ m, .nonterminal m ∈ alt → Collapses levels m

/-- `m` can stand on level `k` below `n`. -/
inductive Reaches : Nat → N → Nat → N → Prop where
  | refl (k : Nat) (n : N) : Reaches k n k n
  | step {levels k : Nat} {n m o : N} {alt : List (Symbol T N)}
      (hchoice : choices (levels + 1) n alt) (hmem : .nonterminal m ∈ alt)
      (h : Reaches levels m k o) : Reaches (levels + 1) n k o

variable {choices}

theorem Expands.append {levels : Nat} {form out more behind : List (Symbol T N)}
    (h : Expands choices levels form out) (h' : Expands choices levels more behind) :
    Expands choices levels (form ++ more) (out ++ behind) := by
  induction h with
  | nil levels => exact h'
  | terminal t _ ih => exact .terminal t (ih h')
  | cut n _ ih => exact .cut n (ih h')
  | expand hchoice hinner _ _ ih =>
      rw [List.cons_append, List.append_assoc]
      exact .expand hchoice hinner (ih h')

theorem Expands.of_terminals (levels : Nat) (word : List T) :
    Expands choices levels (word.map .terminal) (word.map .terminal) := by
  induction word with
  | nil => exact .nil levels
  | cons t word ih => exact .terminal t ih

theorem Expands.finished {levels : Nat} {form out : List (Symbol T N)}
    (h : Expands choices levels form out)
    (hcollapses : ∀ n, .nonterminal n ∈ form → Collapses choices levels n) : Finished out := by
  induction h with
  | nil levels => exact fun n hn => List.not_mem_nil hn
  | terminal t _ ih =>
      intro n hn
      obtain hn | hn := List.mem_cons.mp hn
      · cases hn
      · exact ih (fun m hm => hcollapses m (List.mem_cons_of_mem _ hm)) n hn
  | cut n _ _ => exact (hcollapses n List.mem_cons_self).elim
  | expand hchoice _ _ ihInner ih =>
      intro n hn
      obtain hn | hn := List.mem_append.mp hn
      · exact ihInner (hcollapses _ List.mem_cons_self _ hchoice) n hn
      · exact ih (fun m hm => hcollapses m (List.mem_cons_of_mem _ hm)) n hn

/-- What collapses from every non-terminal below collapses from above. -/
theorem collapses_of_reaches {k j : Nat} {n : N}
    (h : ∀ m, Reaches choices (k + j) n k m → Collapses choices k m) :
    Collapses choices (k + j) n := by
  induction j generalizing n with
  | zero => exact h n (.refl k n)
  | succ j ih =>
      intro alt hchoice m hm
      apply ih
      intro o ho
      exact h o (.step hchoice hm ho)

end Bounded

section Grammar

variable {T : Type} {g : ContextFreeGrammar T}

theorem derives_append {u u' v v' : List (Symbol T g.NT)} (h : g.Derives u u')
    (h' : g.Derives v v') : g.Derives (u ++ v) (u' ++ v') :=
  (h.append_right v).trans (h'.append_left u')

theorem Expands.derives {choices : Nat → g.NT → List (Symbol T g.NT) → Prop}
    (hchoices : ∀ levels n alt, choices levels n alt → ⟨n, alt⟩ ∈ g.rules) {levels : Nat}
    {form out : List (Symbol T g.NT)} (h : Expands choices levels form out) :
    g.Derives form out := by
  induction h with
  | nil levels => exact .refl []
  | terminal t _ ih => exact ih.append_left [.terminal t]
  | cut n _ ih => exact ih.append_left [.nonterminal n]
  | @expand levels n alt inner form out hchoice hinner _ ihInner ih =>
      have hrule : g.Produces [.nonterminal n] alt :=
        ⟨⟨n, alt⟩, hchoices _ _ _ hchoice, ContextFreeRule.Rewrites.input_output⟩
      exact derives_append (hrule.trans_derives ihInner) ih

/-- A weight that no rule changes is not changed by a derivation. -/
theorem derives_weight {weight : Symbol T g.NT → Nat}
    (hrules : ∀ r ∈ g.rules, (r.output.map weight).sum = weight (.nonterminal r.input))
    {u v : List (Symbol T g.NT)} (h : g.Derives u v) :
    (u.map weight).sum = (v.map weight).sum := by
  induction h with
  | refl => rfl
  | tail _ hlast ih =>
      obtain ⟨r, hr, hrewrites⟩ := hlast
      obtain ⟨p, q, rfl, rfl⟩ := hrewrites.exists_parts
      rw [ih]
      simp only [List.map_append, List.sum_append, List.map_cons, List.map_nil, List.sum_cons,
        List.sum_nil, hrules r hr, Nat.add_zero]

end Grammar

end GovFuzz.Lib
