import Mathlib.Data.List.Basic

/-!
# Lib — stateful operations whose state survives a failure

An operation runs on a state and leaves a state behind whether or not it
succeeds: the shape of a method that takes `&mut self` and returns a
`Result`.  Ways to reason about one: `Keeps I m`, an invariant that no run
breaks; `Returns I P m`, which also says that no run fails; and
`Sim S E R m m'`, a relational rule — from related states the two operations
fail together with related errors or succeed together with related values,
and the states stay related either way.
-/

namespace GovFuzz.Lib

abbrev Op (σ ε : Type) := ExceptT ε (StateM σ)

namespace Op

variable {σ σ' ε ε' α β α' β' : Type}

/-- Outcome and state left behind. -/
def exec (m : Op σ ε α) (s : σ) : Except ε α × σ := m s

@[simp] theorem exec_pure (a : α) (s : σ) : exec (pure a : Op σ ε α) s = (.ok a, s) := rfl

@[simp] theorem exec_throw (e : ε) (s : σ) : exec (throw e : Op σ ε α) s = (.error e, s) := rfl

@[simp] theorem exec_get (s : σ) : exec (get : Op σ ε σ) s = (.ok s, s) := rfl

@[simp] theorem exec_set (t s : σ) : exec (set t : Op σ ε PUnit) s = (.ok ⟨⟩, t) := rfl

theorem exec_bind_ok {m : Op σ ε α} {s t : σ} {a : α} (h : exec m s = (.ok a, t))
    (f : α → Op σ ε β) : exec (m >>= f) s = exec (f a) t := by
  show exec (ExceptT.bind m f) s = _
  simp only [exec, ExceptT.bind, ExceptT.mk, Bind.bind, StateT.bind]
  rw [show m s = (Except.ok a, t) from h]
  rfl

theorem exec_bind_error {m : Op σ ε α} {s t : σ} {e : ε} (h : exec m s = (.error e, t))
    (f : α → Op σ ε β) : exec (m >>= f) s = (.error e, t) := by
  show exec (ExceptT.bind m f) s = _
  simp only [exec, ExceptT.bind, ExceptT.mk, Bind.bind, StateT.bind]
  rw [show m s = (Except.error e, t) from h]
  rfl

/-- A bind that succeeds went through a success of its first half. -/
theorem exec_bind_eq_ok {m : Op σ ε α} {f : α → Op σ ε β} {s u : σ} {b : β}
    (h : exec (m >>= f) s = (.ok b, u)) :
    ∃ a t, exec m s = (.ok a, t) ∧ exec (f a) t = (.ok b, u) := by
  obtain ⟨out, t, hm⟩ : ∃ out t, exec m s = (out, t) := ⟨_, _, rfl⟩
  cases out with
  | error e =>
      rw [exec_bind_error hm] at h
      cases h
  | ok a => exact ⟨a, t, hm, by rwa [exec_bind_ok hm] at h⟩

/-- A last step that only forms the answer leaves the state alone. -/
theorem exec_bind_pure_state (m : Op σ ε α) (f : α → β) (s : σ) :
    (exec (m >>= fun a => pure (f a)) s).2 = (exec m s).2 := by
  obtain ⟨out, t, hm⟩ : ∃ out t, exec m s = (out, t) := ⟨_, _, rfl⟩
  cases out with
  | error e => rw [exec_bind_error hm, hm]
  | ok a => rw [exec_bind_ok hm, hm, exec_pure]

theorem exec_of_toOption {m : Op σ ε α} {s : σ} {a : α}
    (h : (exec m s).1.toOption = some a) : ∃ t, exec m s = (.ok a, t) := by
  obtain ⟨out, t, hm⟩ : ∃ out t, exec m s = (out, t) := ⟨_, _, rfl⟩
  rw [hm] at h ⊢
  cases out with
  | error e => cases h
  | ok b =>
      cases h
      exact ⟨t, rfl⟩

/-- `?` into another error type. -/
def mapError (g : ε → ε') (m : Op σ ε α) : Op σ ε' α := fun s =>
  ((exec m s).1.mapError g, (exec m s).2)

theorem exec_mapError (g : ε → ε') (m : Op σ ε α) (s : σ) :
    exec (mapError g m) s = ((exec m s).1.mapError g, (exec m s).2) := rfl

theorem exec_mapError_ok {g : ε → ε'} {m : Op σ ε α} {s t : σ} {a : α}
    (h : exec m s = (.ok a, t)) : exec (mapError g m) s = (.ok a, t) := by
  rw [exec_mapError, h]
  rfl

/-- `n` runs in a row, collecting the values. -/
def times : Nat → Op σ ε α → Op σ ε (List α)
  | 0, _ => pure []
  | n + 1, m => do
      let a ← m
      let as ← times n m
      pure (a :: as)

/-! ## Invariants -/

/-- No run of `m`, failed or not, breaks `I`. -/
def Keeps (I : σ → Prop) (m : Op σ ε α) : Prop := ∀ s, I s → I (exec m s).2

theorem Keeps.pure {I : σ → Prop} (a : α) : Keeps I (Pure.pure a : Op σ ε α) := fun _ h => h

theorem Keeps.throw {I : σ → Prop} (e : ε) : Keeps I (MonadExcept.throw e : Op σ ε α) :=
  fun _ h => h

theorem Keeps.bind {I : σ → Prop} {m : Op σ ε α} {f : α → Op σ ε β} (h : Keeps I m)
    (h' : ∀ a, Keeps I (f a)) : Keeps I (m >>= f) := by
  intro s hs
  have ht := h s hs
  obtain ⟨out, t, hm⟩ : ∃ out t, exec m s = (out, t) := ⟨_, _, rfl⟩
  rw [hm] at ht
  cases out with
  | error e => rwa [exec_bind_error hm]
  | ok a =>
      rw [exec_bind_ok hm]
      exact h' a t ht

/-- Branching on the current state. -/
theorem Keeps.get {I : σ → Prop} {f : σ → Op σ ε β}
    (h : ∀ s, I s → I (exec (f s) s).2) : Keeps I (MonadState.get >>= f) := by
  intro s hs
  rw [exec_bind_ok (exec_get s)]
  exact h s hs

theorem Keeps.times {I : σ → Prop} {m : Op σ ε α} (h : Keeps I m) (n : Nat) :
    Keeps I (times n m) := by
  induction n with
  | zero => exact Keeps.pure []
  | succ n ih => exact h.bind fun a => ih.bind fun as => Keeps.pure (a :: as)

/-! ## Outcomes -/

/-- Every run of `m` ends in a value with `P` or in an error with `E`. -/
def Ensures (E : ε → Prop) (P : α → Prop) (m : Op σ ε α) : Prop :=
  ∀ s, match (exec m s).1 with
    | .ok a => P a
    | .error e => E e

section
variable {E : ε → Prop} {P : α → Prop} {Q : β → Prop}

theorem Ensures.pure {a : α} (h : P a) : Ensures E P (Pure.pure a : Op σ ε α) := fun _ => h

theorem Ensures.throw {e : ε} (h : E e) : Ensures E P (MonadExcept.throw e : Op σ ε α) :=
  fun _ => h

theorem Ensures.bind {m : Op σ ε α} {f : α → Op σ ε β} (h : Ensures E P m)
    (h' : ∀ a, P a → Ensures E Q (f a)) : Ensures E Q (m >>= f) := by
  intro s
  have hs := h s
  obtain ⟨out, t, hm⟩ : ∃ out t, exec m s = (out, t) := ⟨_, _, rfl⟩
  rw [hm] at hs
  cases out with
  | error e =>
      rw [exec_bind_error hm]
      exact hs
  | ok a =>
      rw [exec_bind_ok hm]
      exact h' a hs t

theorem Ensures.mono {P' : α → Prop} {m : Op σ ε α} (h : Ensures E P m)
    (h' : ∀ a, P a → P' a) : Ensures E P' m := by
  intro s
  have hs := h s
  cases hout : (exec m s).1 with
  | error e => rwa [hout] at hs
  | ok a =>
      rw [hout] at hs
      exact h' a hs

end

/-! ## Runs that return

`Returns I P m`: from a state with `I` every run of `m` ends in a value with
`P`, never in an error, and `I` still holds.  `Fails I m`: from a state with
`I` no run does. -/

def Returns (I : σ → Prop) (P : α → Prop) (m : Op σ ε α) : Prop :=
  ∀ s, I s → ∃ a t, exec m s = (.ok a, t) ∧ P a ∧ I t

def Fails (I : σ → Prop) (m : Op σ ε α) : Prop :=
  ∀ s, I s → ∃ e t, exec m s = (.error e, t)

section
variable {I : σ → Prop} {P : α → Prop} {Q : β → Prop}

theorem Returns.pure {a : α} (h : P a) : Returns I P (Pure.pure a : Op σ ε α) :=
  fun s hs => ⟨a, s, rfl, h, hs⟩

theorem Returns.bind {m : Op σ ε α} {f : α → Op σ ε β} (h : Returns I P m)
    (h' : ∀ a, P a → Returns I Q (f a)) : Returns I Q (m >>= f) := by
  intro s hs
  obtain ⟨a, t, hm, ha, ht⟩ := h s hs
  rw [exec_bind_ok hm]
  exact h' a ha t ht

theorem Returns.mono {P' : α → Prop} {m : Op σ ε α} (h : Returns I P m)
    (h' : ∀ a, P a → P' a) : Returns I P' m := by
  intro s hs
  obtain ⟨a, t, hm, ha, ht⟩ := h s hs
  exact ⟨a, t, hm, h' a ha, ht⟩

theorem Fails.of_bind {m : Op σ ε α} (h : Fails I m) (f : α → Op σ ε β) :
    Fails I (m >>= f) := by
  intro s hs
  obtain ⟨e, t, hm⟩ := h s hs
  exact ⟨e, t, exec_bind_error hm f⟩

theorem Returns.bind_fails {m : Op σ ε α} {f : α → Op σ ε β} (h : Returns I P m)
    (h' : ∀ a, P a → Fails I (f a)) : Fails I (m >>= f) := by
  intro s hs
  obtain ⟨a, t, hm, ha, ht⟩ := h s hs
  rw [exec_bind_ok hm]
  exact h' a ha t ht

end

/-! ## Moves

`Moves R m`: a successful run takes the state to one that `R` relates to it. -/

def Moves (R : σ → σ → Prop) (m : Op σ ε α) : Prop := ∀ s a t, exec m s = (.ok a, t) → R s t

section
variable {R Q P : σ → σ → Prop}

theorem Moves.pure (hrefl : ∀ s, R s s) (a : α) : Moves R (Pure.pure a : Op σ ε α) := by
  intro s _ t h
  cases h
  exact hrefl _

theorem Moves.throw (e : ε) : Moves R (MonadExcept.throw e : Op σ ε α) := by
  intro _ _ _ h
  cases h

theorem Moves.bind {m : Op σ ε α} {f : α → Op σ ε β} (h : Moves R m) (h' : ∀ a, Moves Q (f a))
    (hcomp : ∀ s t u, R s t → Q t u → P s u) : Moves P (m >>= f) := by
  intro s b u hrun
  obtain ⟨a, t, hm, hf⟩ := exec_bind_eq_ok hrun
  exact hcomp s t u (h s a t hm) (h' a t b u hf)

/-- The last step only forms the answer. -/
theorem Moves.bind_pure {m : Op σ ε α} (h : Moves R m) (g : α → β) :
    Moves R (m >>= fun a => Pure.pure (g a)) := by
  intro s b u hrun
  obtain ⟨a, t, hm, hf⟩ := exec_bind_eq_ok hrun
  cases hf
  exact h _ _ _ hm

theorem Moves.mono {m : Op σ ε α} (h : Moves R m) (himp : ∀ s t, R s t → Q s t) : Moves Q m :=
  fun s a t hrun => himp s t (h s a t hrun)

theorem Moves.mapError {m : Op σ ε α} (h : Moves R m) (g : ε → ε') : Moves R (m.mapError g) := by
  intro s a t hrun
  obtain ⟨out, u, hm⟩ : ∃ out u, exec m s = (out, u) := ⟨_, _, rfl⟩
  rw [exec_mapError, hm] at hrun
  cases out with
  | error e => cases hrun
  | ok b =>
      cases hrun
      exact h _ _ _ hm

/-- A counted run of steps that each move a measure. -/
theorem Moves.times {R : Nat → σ → σ → Prop} {m : Op σ ε α} {k : Nat} (h : Moves (R k) m)
    (hrefl : ∀ s, R 0 s s) (hcomp : ∀ i j s t u, R i s t → R j t u → R (i + j) s u) (n : Nat) :
    Moves (R (n * k)) (times n m) := by
  induction n with
  | zero =>
      rw [Nat.zero_mul]
      exact Moves.pure hrefl []
  | succ n ih =>
      rw [Nat.succ_mul, Nat.add_comm]
      exact h.bind (fun a => ih.bind_pure fun as => a :: as) (hcomp k (n * k))

end

/-! ## Loops -/

/-- `for a in l`, with the variables of the loop as `acc`: the body goes on to
the next element or ends the loop. -/
def forEach (body : α → β → Op σ ε (ForInStep β)) : List α → β → Op σ ε β
  | [], acc => pure acc
  | a :: l, acc => do
      match ← body a acc with
      | .yield acc => forEach body l acc
      | .done acc => pure acc

/-- The value a step carries. -/
def stepValue : ForInStep β → β
  | .yield b => b
  | .done b => b

/-- An invariant of the loop's variables. -/
theorem Returns.forEach {I : σ → Prop} {J : β → Prop} {body : α → β → Op σ ε (ForInStep β)}
    {l : List α} (h : ∀ a ∈ l, ∀ acc, J acc → Returns I (fun step => J (stepValue step))
      (body a acc)) {acc : β} (hacc : J acc) : Returns I J (forEach body l acc) := by
  induction l generalizing acc with
  | nil => exact Returns.pure hacc
  | cons a l ih =>
      refine (h a List.mem_cons_self acc hacc).bind ?_
      intro step hstep
      cases step with
      | yield next => exact ih (fun b hb => h b (List.mem_cons_of_mem a hb)) hstep
      | done out => exact Returns.pure hstep

/-! ## Simulation -/

/-- Related outcomes: both errors or both values. -/
inductive Related (E : ε → ε' → Prop) (R : α → α' → Prop) : Except ε α → Except ε' α' → Prop
  | error {e e'} : E e e' → Related E R (.error e) (.error e')
  | ok {a a'} : R a a' → Related E R (.ok a) (.ok a')

/-- From `S`-related states, `m` and `m'` stay in step. -/
def Sim (S : σ → σ' → Prop) (E : ε → ε' → Prop) (R : α → α' → Prop) (m : Op σ ε α)
    (m' : Op σ' ε' α') : Prop :=
  ∀ s s', S s s' → Related E R (exec m s).1 (exec m' s').1 ∧ S (exec m s).2 (exec m' s').2

section
variable {S : σ → σ' → Prop} {E : ε → ε' → Prop} {R : α → α' → Prop} {Q : β → β' → Prop}

theorem Sim.pure {a : α} {a' : α'} (h : R a a') :
    Sim S E R (Pure.pure a : Op σ ε α) (Pure.pure a' : Op σ' ε' α') :=
  fun _ _ hs => ⟨.ok h, hs⟩

theorem Sim.throw {e : ε} {e' : ε'} (h : E e e') :
    Sim S E R (MonadExcept.throw e : Op σ ε α) (MonadExcept.throw e' : Op σ' ε' α') :=
  fun _ _ hs => ⟨.error h, hs⟩

theorem Sim.bind {m : Op σ ε α} {m' : Op σ' ε' α'} {f : α → Op σ ε β} {f' : α' → Op σ' ε' β'}
    (h : Sim S E R m m') (h' : ∀ a a', R a a' → Sim S E Q (f a) (f' a')) :
    Sim S E Q (m >>= f) (m' >>= f') := by
  intro s s' hs
  obtain ⟨hout, hst⟩ := h s s' hs
  obtain ⟨out, t, hm⟩ : ∃ out t, exec m s = (out, t) := ⟨_, _, rfl⟩
  obtain ⟨out', t', hm'⟩ : ∃ out t, exec m' s' = (out, t) := ⟨_, _, rfl⟩
  rw [hm, hm'] at hout hst
  cases hout with
  | error he =>
      rw [exec_bind_error hm, exec_bind_error hm']
      exact ⟨.error he, hst⟩
  | ok ha =>
      rw [exec_bind_ok hm, exec_bind_ok hm']
      exact h' _ _ ha t t' hst

/-- Reading the state: the continuation may use that the two are related. -/
theorem Sim.get {f : σ → Op σ ε β} {f' : σ' → Op σ' ε' β'}
    (h : ∀ s s', S s s' → Related E Q (exec (f s) s).1 (exec (f' s') s').1 ∧
      S (exec (f s) s).2 (exec (f' s') s').2) :
    Sim S E Q (MonadState.get >>= f) (MonadState.get >>= f') := by
  intro s s' hs
  rw [exec_bind_ok (exec_get s), exec_bind_ok (exec_get s')]
  exact h s s' hs

end

end Op

end GovFuzz.Lib
