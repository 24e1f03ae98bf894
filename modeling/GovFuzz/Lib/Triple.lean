import GovFuzz.Lib.Stateful

/-!
# Lib — pre- and postconditions of stateful operations

`Triple P m Q E`: a run of `m` from a state with `P` ends with `Q` when it
has a value and with `E` when it fails.  Since the state survives a failure,
`E` is a condition on what a half done operation leaves behind.
-/

namespace GovFuzz.Lib.Op

variable {σ ε ε' α β : Type}

def Triple (P : σ → Prop) (m : Op σ ε α) (Q : α → σ → Prop) (E : σ → Prop) : Prop :=
  ∀ s, P s → match exec m s with
    | (.ok a, t) => Q a t
    | (.error _, t) => E t

/-- A failure as a value of its own. -/
def caught (m : Op σ ε α) : Op σ ε' (Option α) := fun s =>
  (.ok (exec m s).1.toOption, (exec m s).2)

variable {P E : σ → Prop} {Q : α → σ → Prop}

namespace Triple

theorem pure {a : α} (h : ∀ s, P s → Q a s) : Triple P (Pure.pure a : Op σ ε α) Q E := h

theorem throw {e : ε} (h : ∀ s, P s → E s) :
    Triple P (MonadExcept.throw e : Op σ ε α) Q E := h

theorem conseq {P' E' : σ → Prop} {Q' : α → σ → Prop} {m : Op σ ε α} (h : Triple P m Q E)
    (hpre : ∀ s, P' s → P s) (hpost : ∀ a s, Q a s → Q' a s) (herror : ∀ s, E s → E' s) :
    Triple P' m Q' E' := by
  intro s hs
  have hrun := h s (hpre s hs)
  obtain ⟨out, t, hm⟩ : ∃ out t, exec m s = (out, t) := ⟨_, _, rfl⟩
  rw [hm] at hrun ⊢
  cases out with
  | ok a => exact hpost a t hrun
  | error e => exact herror t hrun

theorem bind {m : Op σ ε α} {f : α → Op σ ε β} {R : β → σ → Prop} (h : Triple P m Q E)
    (h' : ∀ a, Triple (Q a) (f a) R E) : Triple P (m >>= f) R E := by
  intro s hs
  have hrun := h s hs
  obtain ⟨out, t, hm⟩ : ∃ out t, exec m s = (out, t) := ⟨_, _, rfl⟩
  rw [hm] at hrun
  cases out with
  | ok a =>
      rw [exec_bind_ok hm]
      exact h' a t hrun
  | error e =>
      rw [exec_bind_error hm]
      exact hrun

/-- What does not speak of the state moves in front of the triple. -/
theorem of_imp {φ : Prop} {m : Op σ ε α} (h : φ → Triple P m Q E) :
    Triple (fun s => φ ∧ P s) m Q E := fun s hs => h hs.1 s hs.2

/-- Reading the state. -/
theorem get {f : σ → Op σ ε α} (h : ∀ s, P s → Triple (fun t => t = s) (f s) Q E) :
    Triple P (MonadState.get >>= f) Q E := by
  intro s hs
  rw [exec_bind_ok (exec_get s)]
  exact h s hs s rfl

theorem mapError {m : Op σ ε α} (h : Triple P m Q E) (g : ε → ε') :
    Triple P (m.mapError g) Q E := by
  intro s hs
  have hrun := h s hs
  obtain ⟨out, t, hm⟩ : ∃ out t, exec m s = (out, t) := ⟨_, _, rfl⟩
  rw [hm] at hrun
  rw [exec_mapError, hm]
  cases out with
  | ok a => exact hrun
  | error e => exact hrun

theorem caught {m : Op σ ε α} (h : Triple P m Q E) :
    Triple P (caught m : Op σ ε' (Option α))
      (fun out s => (∃ a, out = some a ∧ Q a s) ∨ out = none ∧ E s) E := by
  intro s hs
  have hrun := h s hs
  obtain ⟨out, t, hm⟩ : ∃ out t, exec m s = (out, t) := ⟨_, _, rfl⟩
  rw [hm] at hrun
  show match ((Except.ok (exec m s).1.toOption : Except ε' (Option α)), (exec m s).2) with
    | (.ok out, t) => (∃ a, out = some a ∧ Q a t) ∨ out = none ∧ E t
    | (.error _, t) => E t
  rw [hm]
  cases out with
  | ok a => exact .inl ⟨a, rfl, hrun⟩
  | error e => exact .inr ⟨rfl, hrun⟩

end Triple

end GovFuzz.Lib.Op
