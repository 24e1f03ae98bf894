import Mathlib.Data.List.Basic

/-!
# Lib — machines in lockstep

A deterministic machine takes one input after the other and gives an answer
to each.  Two runs of it give the same answers when some relation between
their states, which may look at the inputs still to come, is kept by every
step.
-/

namespace GovFuzz.Lib

variable {σ α ρ : Type}

def runSteps (step : σ → α → σ × ρ) : σ → List α → σ × List ρ
  | s, [] => (s, [])
  | s, a :: rest =>
      let (s, answer) := step s a
      let (s, answers) := runSteps step s rest
      (s, answer :: answers)

theorem runSteps_lockstep {step : σ → α → σ × ρ} {R : σ → σ → List α → Prop}
    (hstep : ∀ s t a rest, R s t (a :: rest) →
      (step s a).2 = (step t a).2 ∧ R (step s a).1 (step t a).1 rest)
    {s t : σ} {inputs : List α} (h : R s t inputs) :
    (runSteps step s inputs).2 = (runSteps step t inputs).2 := by
  induction inputs generalizing s t with
  | nil => rfl
  | cons a rest ih =>
      obtain ⟨hanswer, hnext⟩ := hstep s t a rest h
      have hrest := ih hnext
      simp only [runSteps, hanswer, hrest]

end GovFuzz.Lib
