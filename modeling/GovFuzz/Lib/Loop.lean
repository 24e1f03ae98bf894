import Mathlib.Data.List.Basic

/-!
# Lib — loops that end by a measure

A `while` loop as its turns: a turn goes on with a new state, or ends the
loop with a value, or fails.  The loop is run with fuel.  A loop whose turns
keep an invariant and make a measure smaller ends with any fuel above the
measure (`loop_returns`).
-/

namespace GovFuzz.Lib

variable {σ ε β : Type}

inductive Turn (σ β : Type) where
  | next (state : σ)
  | stop (value : β)

/-- `none` when the fuel is used up. -/
def loop (turn : σ → Except ε (Turn σ β)) : Nat → σ → Option (Except ε β)
  | 0, _ => none
  | fuel + 1, state =>
      match turn state with
      | .error e => some (.error e)
      | .ok (.stop value) => some (.ok value)
      | .ok (.next state) => loop turn fuel state

theorem loop_returns {turn : σ → Except ε (Turn σ β)} {I : σ → Prop} {P : β → Prop}
    (measure : σ → Nat)
    (hturn : ∀ state, I state → (∃ value, turn state = .ok (.stop value) ∧ P value)
      ∨ ∃ next, turn state = .ok (.next next) ∧ I next ∧ measure next < measure state)
    {fuel : Nat} {state : σ} (hstate : I state) (hfuel : measure state < fuel) :
    ∃ value, loop turn fuel state = some (.ok value) ∧ P value := by
  induction fuel generalizing state with
  | zero => omega
  | succ fuel ih =>
      unfold loop
      obtain ⟨value, hstop, hvalue⟩ | ⟨next, hnext, hinv, hless⟩ := hturn state hstate
      · rw [hstop]
        exact ⟨value, rfl, hvalue⟩
      · rw [hnext]
        exact ih hinv (by omega)

end GovFuzz.Lib
