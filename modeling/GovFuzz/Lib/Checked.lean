import GovFuzz.Lib.Align
import GovFuzz.Lib.Stateful

/-!
# Lib — operations that can panic

A function that returns an `Option` and indexes, slices and subtracts on the
way ends in one of three ways: with a value, with `None`, or in a panic.
The operations here panic where the run-time check of the source would, so
that "never out of range" is a statement about runs and not a convention of
the model.  `Safe P m`: a value has `P`, and whatever else stops `m`, no
index and no subtraction does.
-/

namespace GovFuzz.Lib

/-- The run-time check that fails. -/
inductive Panic
  | index
  | subtract
  | remainder
  deriving DecidableEq, Repr

/-- How an operation ends that has no value. -/
inductive Stop
  | missing
  | panic (kind : Panic)
  deriving DecidableEq, Repr

/-- Every index and every subtraction was in range. -/
def Stop.InRange (stop : Stop) : Prop := stop ≠ .panic .index ∧ stop ≠ .panic .subtract

theorem Stop.missing_inRange : Stop.missing.InRange := ⟨nofun, nofun⟩

theorem Stop.remainder_inRange : (Stop.panic .remainder).InRange := ⟨nofun, nofun⟩

namespace Op

variable {σ α β : Type}

/-- `?` on an `Option`. -/
def ofOption : Option α → Op σ Stop α
  | some a => pure a
  | none => throw .missing

/-- `None` as a value of its own; a panic stays a panic. -/
def optional (m : Op σ Stop α) : Op σ Stop (Option α) := fun s =>
  match exec m s with
  | (.ok a, t) => (.ok (some a), t)
  | (.error .missing, t) => (.ok none, t)
  | (.error (.panic kind), t) => (.error (.panic kind), t)

theorem exec_optional (m : Op σ Stop α) (s : σ) :
    exec (optional m) s = match exec m s with
      | (.ok a, t) => (.ok (some a), t)
      | (.error .missing, t) => (.ok none, t)
      | (.error (.panic kind), t) => (.error (.panic kind), t) := rfl

/-- `Option::or_else`. -/
def orElse (m m' : Op σ Stop α) : Op σ Stop α := do
  match ← optional m with
  | some a => pure a
  | none => m'

/-- `xs[i]`. -/
def index (xs : List α) (i : Nat) : Op σ Stop α :=
  match xs[i]? with
  | some x => pure x
  | none => throw (.panic .index)

/-- `xs[i] = x`. -/
def assign (xs : List α) (i : Nat) (x : α) : Op σ Stop (List α) :=
  if i < xs.length then pure (xs.set i x) else throw (.panic .index)

/-- `&xs[start..stop]`. -/
def slice (xs : List α) (start stop : Nat) : Op σ Stop (List α) :=
  if start ≤ stop ∧ stop ≤ xs.length then pure ((xs.take stop).drop start)
  else throw (.panic .index)

/-- `a - b`. -/
def sub (a b : Nat) : Op σ Stop Nat :=
  if b ≤ a then pure (a - b) else throw (.panic .subtract)

/-- `a % b`. -/
def rem (a b : Nat) : Op σ Stop Nat :=
  if b = 0 then throw (.panic .remainder) else pure (a % b)

/-- `for _ in 0..n`, with `done` for `break`. -/
def upTo (body : β → Op σ Stop (ForInStep β)) : Nat → β → Op σ Stop β
  | 0, b => pure b
  | n + 1, b => do
      match ← body b with
      | .done b => pure b
      | .yield b => upTo body n b

/-- `iter().flat_map(f).collect()`; a `filter_map` where `f` answers with at
most one item. -/
def collect (f : α → Op σ Stop (List β)) : List α → Op σ Stop (List β)
  | [] => pure []
  | x :: xs => do
      let ys ← f x
      let rest ← collect f xs
      pure (ys ++ rest)

/-- `iter().any(f)`. -/
def any (f : α → Op σ Stop Bool) : List α → Op σ Stop Bool
  | [] => pure false
  | x :: xs => do
      let found ← f x
      if found then pure true else any f xs

/-- What `Vec::swap_remove` leaves: the last item takes the removed one's place. -/
def swapRemove (xs : List α) (i : Nat) : List α :=
  match xs.getLast? with
  | some x => (xs.set i x).dropLast
  | none => []

theorem length_swapRemove (xs : List α) (i : Nat) :
    (swapRemove xs i).length = xs.length - 1 := by
  unfold swapRemove
  cases h : xs.getLast? with
  | none =>
      rw [List.getLast?_eq_none_iff.mp h]
      rfl
  | some x => rw [List.length_dropLast, List.length_set]

theorem mem_of_mem_swapRemove {xs : List α} {i : Nat} {y : α} (h : y ∈ swapRemove xs i) :
    y ∈ xs := by
  unfold swapRemove at h
  cases hlast : xs.getLast? with
  | none =>
      rw [hlast] at h
      cases h
  | some x =>
      rw [hlast] at h
      rcases List.mem_or_eq_of_mem_set (List.dropLast_subset _ h) with hy | rfl
      · exact hy
      · exact List.mem_of_getLast? hlast

/-- `while !xs.is_empty()`: take out an item picked by `pick` and stop at the
first attempt that succeeds. -/
def drain (pick : Nat → Op σ Stop Nat) (attempt : α → Op σ Stop (Option β)) (xs : List α) :
    Op σ Stop β :=
  if xs.isEmpty then throw .missing
  else do
    let i ← pick xs.length
    if hi : i < xs.length then
      match ← attempt xs[i] with
      | some b => pure b
      | none => drain pick attempt (swapRemove xs i)
    else throw (.panic .index)
termination_by xs.length
decreasing_by
  rw [length_swapRemove]
  omega

/-- A result of the loop is that of one attempt, on one of the items. -/
theorem exec_drain_eq_ok {pick : Nat → Op σ Stop Nat} {attempt : α → Op σ Stop (Option β)}
    {xs : List α} {s t : σ} {b : β} (h : exec (drain pick attempt xs) s = (.ok b, t)) :
    ∃ x ∈ xs, ∃ r, exec (attempt x) r = (.ok (some b), t) := by
  induction hn : xs.length generalizing xs s with
  | zero =>
      rw [List.length_eq_zero_iff.mp hn, drain] at h
      cases h
  | succ n ih =>
      rw [drain] at h
      by_cases hempty : xs.isEmpty
      · rw [if_pos hempty] at h
        cases h
      rw [if_neg hempty] at h
      obtain ⟨i, r, -, h⟩ := exec_bind_eq_ok h
      by_cases hi : i < xs.length
      · rw [dif_pos hi] at h
        obtain ⟨out, u, hattempt, h⟩ := exec_bind_eq_ok h
        cases out with
        | some found =>
            cases h
            exact ⟨xs[i], List.getElem_mem hi, r, hattempt⟩
        | none =>
            obtain ⟨x, hx, hrun⟩ := ih h (by rw [length_swapRemove, hn]; rfl)
            exact ⟨x, mem_of_mem_swapRemove hx, hrun⟩
      · rw [dif_neg hi] at h
        cases h

/-- The removed item is the only one that may be missing. -/
theorem eq_or_mem_swapRemove {xs : List α} {i : Nat} (hi : i < xs.length) {y : α} (h : y ∈ xs) :
    y = xs[i] ∨ y ∈ swapRemove xs i := by
  obtain ⟨j, hj, rfl⟩ := List.getElem_of_mem h
  by_cases hji : j = i
  · exact .inl (by simp [hji])
  right
  have hlt : xs.length - 1 < xs.length := by omega
  have hlast : xs.getLast? = some xs[xs.length - 1] := by
    rw [List.getLast?_eq_getElem?, List.getElem?_eq_getElem]
  simp only [swapRemove, hlast]
  by_cases hend : j = xs.length - 1
  · subst hend
    have hmoved : (xs.set i xs[xs.length - 1]).dropLast[i]? = some xs[xs.length - 1] := by
      rw [List.getElem?_dropLast, List.length_set, if_pos (by omega), List.getElem?_set_self hi]
    exact List.mem_of_getElem? hmoved
  · have hkept : (xs.set i xs[xs.length - 1]).dropLast[j]? = some xs[j] := by
      rw [List.getElem?_dropLast, List.length_set, if_pos (by omega),
        List.getElem?_set_ne (fun heq => hji heq.symm), List.getElem?_eq_getElem hj]
    exact List.mem_of_getElem? hkept

/-- Attempts that do not look at the state: the loop ends with the result of
an item, or without one when no item has a result. -/
theorem exec_drain_of_pure {pick : Nat → Op σ Stop Nat} {attempt : α → Op σ Stop (Option β)}
    {result : α → Option β} {xs : List α}
    (hpick : ∀ n s, 0 < n → ∃ i t, exec (pick n) s = (.ok i, t) ∧ i < n)
    (hattempt : ∀ x ∈ xs, attempt x = pure (result x)) (s : σ) :
    (∃ b t, exec (drain pick attempt xs) s = (.ok b, t) ∧ ∃ x ∈ xs, result x = some b) ∨
      (∃ t, exec (drain pick attempt xs) s = (.error .missing, t)) ∧
        ∀ x ∈ xs, result x = none := by
  induction hn : xs.length generalizing xs s with
  | zero =>
      rw [List.length_eq_zero_iff.mp hn, drain]
      exact .inr ⟨⟨s, rfl⟩, nofun⟩
  | succ n ih =>
      obtain ⟨i, t, hrun, hi⟩ := hpick xs.length s (by omega)
      have hne : ¬ xs.isEmpty = true := by
        rw [List.isEmpty_iff_length_eq_zero]
        omega
      rw [drain, if_neg hne, exec_bind_ok hrun, dif_pos hi,
        hattempt xs[i] (List.getElem_mem hi), pure_bind]
      cases hresult : result xs[i] with
      | some b => exact .inl ⟨b, t, rfl, xs[i], List.getElem_mem hi, hresult⟩
      | none =>
          have hrest : ∀ x ∈ swapRemove xs i, attempt x = pure (result x) := fun x hx =>
            hattempt x (mem_of_mem_swapRemove hx)
          rcases ih hrest t (by rw [length_swapRemove, hn]; rfl) with
            ⟨b, u, hexec, x, hx, hb⟩ | ⟨hexec, hnone⟩
          · exact .inl ⟨b, u, hexec, x, mem_of_mem_swapRemove hx, hb⟩
          · refine .inr ⟨hexec, fun x hx => ?_⟩
            rcases eq_or_mem_swapRemove hi hx with rfl | hkept
            · exact hresult
            · exact hnone x hkept

/-- `collect` of a function that does not look at the state. -/
theorem collect_of_pure {f : α → Op σ Stop (List β)} {g : α → List β} {xs : List α}
    (h : ∀ x ∈ xs, f x = pure (g x)) : collect f xs = pure (xs.flatMap g) := by
  induction xs with
  | nil => rfl
  | cons x xs ih =>
      rw [List.forall_mem_cons] at h
      rw [collect, h.1, ih h.2, pure_bind, pure_bind, List.flatMap_cons]

/-! ## Safety -/

def Safe (P : α → Prop) (m : Op σ Stop α) : Prop := Ensures Stop.InRange P m

namespace Safe

variable {P : α → Prop} {Q : β → Prop}

theorem pure {a : α} (h : P a) : Safe P (Pure.pure a : Op σ Stop α) := Ensures.pure h

/-- What a run that ends in a value is known to have. -/
theorem of_exec {m : Op σ Stop α} (h : Safe P m) {s t : σ} {a : α} (hrun : exec m s = (.ok a, t)) :
    P a := by
  have hs := h s
  rwa [hrun] at hs

theorem missing : Safe P (throw .missing : Op σ Stop α) := Ensures.throw Stop.missing_inRange

theorem bind {m : Op σ Stop α} {f : α → Op σ Stop β} (h : Safe P m)
    (h' : ∀ a, P a → Safe Q (f a)) : Safe Q (m >>= f) := Ensures.bind h h'

theorem mono {P' : α → Prop} {m : Op σ Stop α} (h : Safe P m) (h' : ∀ a, P a → P' a) :
    Safe P' m := Ensures.mono h h'

theorem ite {c : Prop} [Decidable c] {m m' : Op σ Stop α} (h : c → Safe P m)
    (h' : ¬ c → Safe P m') : Safe P (if c then m else m') := by
  by_cases hc : c
  · rw [if_pos hc]
    exact h hc
  · rw [if_neg hc]
    exact h' hc

theorem ofOption {o : Option α} (h : ∀ a, o = some a → P a) :
    Safe P (ofOption o : Op σ Stop α) := by
  cases o with
  | none => exact missing
  | some a => exact pure (h a rfl)

theorem checkedSub (a b : Nat) :
    Safe (fun c => b ≤ a ∧ c = a - b) (Op.ofOption (checkedSub a b) : Op σ Stop Nat) := by
  refine ofOption fun c hc => ?_
  unfold Lib.checkedSub at hc
  by_cases hle : b ≤ a
  · rw [if_pos hle] at hc
    exact ⟨hle, (Option.some.inj hc).symm⟩
  · rw [if_neg hle] at hc
    cases hc

theorem optional {m : Op σ Stop α} (h : Safe P m) :
    Safe (fun o => ∀ a, o = some a → P a) (optional m) := by
  intro s
  have hs := h s
  obtain ⟨out, t, hm⟩ : ∃ out t, exec m s = (out, t) := ⟨_, _, rfl⟩
  rw [hm] at hs
  rw [exec_optional, hm]
  cases out with
  | ok a =>
      intro b hb
      cases hb
      exact hs
  | error stop =>
      cases stop with
      | missing =>
          intro b hb
          cases hb
      | panic kind => exact hs

theorem orElse {m m' : Op σ Stop α} (h : Safe P m) (h' : Safe P m') : Safe P (orElse m m') := by
  refine h.optional.bind fun o ho => ?_
  cases o with
  | none => exact h'
  | some a => exact pure (ho a rfl)

theorem index {xs : List α} {i : Nat} (h : i < xs.length) :
    Safe (fun x => xs[i]? = some x) (index xs i : Op σ Stop α) := by
  unfold Op.index
  rw [List.getElem?_eq_getElem h]
  exact pure rfl

theorem assign {xs : List α} {i : Nat} {x : α} (h : i < xs.length) :
    Safe (fun ys => ys = xs.set i x) (assign xs i x : Op σ Stop (List α)) := by
  unfold Op.assign
  rw [if_pos h]
  exact pure rfl

theorem slice {xs : List α} {start stop : Nat} (h : start ≤ stop) (h' : stop ≤ xs.length) :
    Safe (fun ys => ys = (xs.take stop).drop start)
      (slice xs start stop : Op σ Stop (List α)) := by
  unfold Op.slice
  rw [if_pos ⟨h, h'⟩]
  exact pure rfl

theorem sub {a b : Nat} (h : b ≤ a) :
    Safe (fun c => c = a - b) (sub a b : Op σ Stop Nat) := by
  unfold Op.sub
  rw [if_pos h]
  exact pure rfl

theorem rem (a b : Nat) : Safe (fun c => c = a % b) (rem a b : Op σ Stop Nat) := by
  unfold Op.rem
  by_cases hb : b = 0
  · rw [if_pos hb]
    exact Ensures.throw Stop.remainder_inRange
  · rw [if_neg hb]
    exact pure rfl

/-- The invariant of a bounded loop. -/
theorem upTo {I : β → Prop} {body : β → Op σ Stop (ForInStep β)}
    (hbody : ∀ b, I b → Safe (fun r => I r.run) (body b)) (n : Nat) {b : β} (hb : I b) :
    Safe I (upTo body n b) := by
  induction n generalizing b with
  | zero => exact pure hb
  | succ n ih =>
      refine (hbody b hb).bind fun r hr => ?_
      cases r with
      | done b => exact pure hr
      | yield b => exact ih hr

/-- An invariant that speaks of the turns made so far. -/
theorem upTo_turns {I : Nat → β → Prop} {body : β → Op σ Stop (ForInStep β)}
    (hbody : ∀ k b, I k b → Safe (fun r => I (k + 1) r.run) (body b))
    (hlater : ∀ k b, I k b → I (k + 1) b) (n : Nat) {k : Nat} {b : β} (hb : I k b) :
    Safe (I (k + n)) (Op.upTo body n b) := by
  induction n generalizing k b with
  | zero => exact pure hb
  | succ n ih =>
      have hturns : k + 1 + n = k + (n + 1) := by omega
      refine (hbody k b hb).bind fun r hr => ?_
      cases r with
      | yield b =>
          rw [← hturns]
          exact ih hr
      | done b =>
          refine pure ?_
          have hrest : ∀ m, I (k + 1 + m) b := by
            intro m
            induction m with
            | zero => exact hr
            | succ m hm => exact hlater _ b hm
          rw [← hturns]
          exact hrest n

theorem collect {f : α → Op σ Stop (List β)} {xs : List α}
    (h : ∀ x ∈ xs, Safe (fun ys => ∀ y ∈ ys, Q y) (f x)) :
    Safe (fun ys => ∀ y ∈ ys, Q y) (collect f xs) := by
  induction xs with
  | nil => exact pure nofun
  | cons x xs ih =>
      refine (h x List.mem_cons_self).bind fun ys hys => ?_
      refine (ih fun x hx => h x (List.mem_cons_of_mem _ hx)).bind fun rest hrest => ?_
      refine pure fun y hy => ?_
      rcases List.mem_append.mp hy with hy | hy
      · exact hys y hy
      · exact hrest y hy

theorem any {f : α → Op σ Stop Bool} {xs : List α}
    (h : ∀ x ∈ xs, Safe (fun _ => True) (f x)) : Safe (fun _ => True) (any f xs) := by
  induction xs with
  | nil => exact pure trivial
  | cons x xs ih =>
      refine (h x List.mem_cons_self).bind fun found _ => ?_
      exact ite (fun _ => pure trivial) fun _ => ih fun x hx => h x (List.mem_cons_of_mem _ hx)

/-- Only items of the list are attempted. -/
theorem drain {pick : Nat → Op σ Stop Nat} {attempt : α → Op σ Stop (Option β)}
    (hpick : ∀ n, Safe (fun i => i < n) (pick n)) (xs : List α)
    (hattempt : ∀ x ∈ xs, Safe (fun o => ∀ b, o = some b → Q b) (attempt x)) :
    Safe Q (drain pick attempt xs) := by
  induction hn : xs.length generalizing xs with
  | zero =>
      rw [List.length_eq_zero_iff.mp hn, Op.drain]
      exact missing
  | succ n ih =>
      rw [Op.drain]
      by_cases hempty : xs.isEmpty
      · rw [if_pos hempty]
        exact missing
      rw [if_neg hempty]
      refine (hpick xs.length).bind fun i hi => ?_
      rw [dif_pos hi]
      refine (hattempt xs[i] (List.getElem_mem hi)).bind fun o ho => ?_
      cases o with
      | some b => exact pure (ho b rfl)
      | none =>
          refine ih (swapRemove xs i) (fun x hx => hattempt x (mem_of_mem_swapRemove hx)) ?_
          rw [length_swapRemove, hn]
          rfl

end Safe

end Op

end GovFuzz.Lib
