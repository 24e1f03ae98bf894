import Mathlib.Data.List.Basic
import Mathlib.Algebra.Order.Ring.Nat
import Mathlib.Algebra.Order.BigOperators.Group.List
import Mathlib.Logic.Function.Basic

/-!
# Lib — a bounded walk with a cycle guard, and its memo

A graph is unrolled into shapes down to a bound.  A node may carry a tag: met
again below itself it is cut instead of unrolled.  `walk` does this with a
memo on (node, bound) that keeps the shapes no cut was made in, `unmemoised`
does it without.

A shape that no cut was made in need not be the shape of its node
everywhere: the bound may have stopped it before it came round to a tag that
is active elsewhere.  So the two walks agree exactly if no node that was met
uncut is met later, at the same bound, with a cut below it
(`walk_eq_iff`).  Where it is, the memo's shape is heavier than the one
asked for, and the weight shows it up to the root.
-/

namespace GovFuzz.Lib.GuardedWalk

universe u

variable {κ τ σ : Type u}

/-- One node: its tag with the shape it has when cut, the nodes below it and
what is made of their shapes. -/
structure Plan (κ τ σ : Type u) where
  guard : Option (τ × σ)
  below : List κ
  build : List σ → σ

/-! ## The walk as a function

The tags active above a node, or `none` where no guard is kept at all.
-/

abbrev Path (τ : Type u) := Option (List τ)

/-- The tags active below a node. -/
@[grind =] def Plan.push (plan : Plan κ τ σ) (active : List τ) : List τ :=
  match plan.guard with
  | some (tag, _) => active ++ [tag]
  | none => active

def Plan.enter (plan : Plan κ τ σ) (path : Path τ) : Path τ := path.map plan.push

@[simp] theorem Plan.enter_none (plan : Plan κ τ σ) : plan.enter none = none := rfl

@[simp] theorem Plan.enter_some (plan : Plan κ τ σ) (active : List τ) :
    plan.enter (some active) = some (plan.push active) := rfl

section Pure

variable [DecidableEq τ]

/-- The shape a node is cut to on this path, if it is cut. -/
def Plan.stop (plan : Plan κ τ σ) (path : Path τ) : Option σ :=
  match plan.guard, path with
  | some (tag, cut), some active => if tag ∈ active then some cut else none
  | _, _ => none

@[simp] theorem Plan.stop_none (plan : Plan κ τ σ) : plan.stop none = none := by
  unfold Plan.stop
  cases plan.guard <;> rfl

variable (limit : κ → σ) (plan : κ → Plan κ τ σ)

@[grind =] def shape : Nat → κ → Path τ → σ
  | 0, k, _ => limit k
  | left + 1, k, path =>
      match (plan k).stop path with
      | some cut => cut
      | none => (plan k).build ((plan k).below.map fun c => shape left c ((plan k).enter path))

/-- Whether a cut is made at the node or below it. -/
@[grind =] def isCut : Nat → κ → Path τ → Bool
  | 0, _, _ => false
  | left + 1, k, path =>
      match (plan k).stop path with
      | some _ => true
      | none => (plan k).below.any fun c => isCut left c ((plan k).enter path)

structure Visit (κ : Type u) where
  key : κ × Nat
  cut : Bool
  deriving DecidableEq

/-- The nodes met, each behind those below it. -/
@[grind =] def visits : Nat → κ → Path τ → List (Visit κ)
  | 0, _, _ => []
  | left + 1, k, path =>
      (match (plan k).stop path with
        | some _ => []
        | none => (plan k).below.flatMap fun c => visits left c ((plan k).enter path))
      ++ [⟨(k, left), isCut plan (left + 1) k path⟩]

/-- Where no cut is made, nothing is seen of the guard. -/
theorem stop_of_uncut {left : Nat} {k : κ} {path : Path τ}
    (h : isCut plan (left + 1) k path = false) :
    (plan k).stop path = none ∧
      ∀ c ∈ (plan k).below, isCut plan left c ((plan k).enter path) = false := by
  rw [isCut] at h
  cases hstop : (plan k).stop path with
  | some cut => simp [hstop] at h
  | none =>
      rw [hstop] at h
      exact ⟨rfl, by simpa using h⟩

theorem shape_of_uncut (left : Nat) : ∀ {k : κ} {path : Path τ},
    isCut plan left k path = false →
      shape limit plan left k path = shape limit plan left k none := by
  induction left with
  | zero => intro k path _; rfl
  | succ left ih =>
      intro k path h
      obtain ⟨hstop, hbelow⟩ := stop_of_uncut plan h
      have hmap : (plan k).below.map (fun c => shape limit plan left c ((plan k).enter path))
          = (plan k).below.map fun c => shape limit plan left c none :=
        List.map_congr_left fun c hc => ih (hbelow c hc)
      simp [shape, hstop, hmap]

theorem visits_uncut (left : Nat) : ∀ {k : κ} {path : Path τ},
    isCut plan left k path = false → ∀ v ∈ visits plan left k path, v.cut = false := by
  induction left with
  | zero => intro k path _ v hv; cases hv
  | succ left ih =>
      intro k path h v hv
      obtain ⟨hstop, hbelow⟩ := stop_of_uncut plan h
      rw [visits, hstop, List.mem_append, List.mem_flatMap, List.mem_singleton] at hv
      obtain ⟨c, hc, hv⟩ | rfl := hv
      · exact ih (hbelow c hc) v hv
      · exact h

/-- Without the guard at least the same nodes are met. -/
theorem visit_none (left : Nat) : ∀ {k : κ} {path : Path τ} {v : Visit κ},
    v ∈ visits plan left k path → ∃ w ∈ visits plan left k none, w.key = v.key := by
  induction left with
  | zero => intro k path v hv; cases hv
  | succ left ih =>
      intro k path v hv
      rw [visits, List.mem_append, List.mem_singleton] at hv
      rw [visits, Plan.stop_none, Plan.enter_none]
      obtain hv | rfl := hv
      · cases hstop : (plan k).stop path with
        | some cut => simp [hstop] at hv
        | none =>
            rw [hstop, List.mem_flatMap] at hv
            obtain ⟨c, hc, hv⟩ := hv
            obtain ⟨w, hw, hkey⟩ := ih hv
            exact ⟨w, List.mem_append_left _ (List.mem_flatMap.mpr ⟨c, hc, hw⟩), hkey⟩
      · exact ⟨_, List.mem_append_right _ (List.mem_singleton_self _), rfl⟩

theorem visit_lt (left : Nat) : ∀ {k : κ} {path : Path τ} {v : Visit κ},
    v ∈ visits plan left k path → v.key.2 < left := by
  induction left with
  | zero => intro k path v hv; cases hv
  | succ left ih =>
      intro k path v hv
      rw [visits, List.mem_append, List.mem_singleton] at hv
      obtain hv | rfl := hv
      · cases hstop : (plan k).stop path with
        | some cut => simp [hstop] at hv
        | none =>
            rw [hstop, List.mem_flatMap] at hv
            obtain ⟨c, _, hv⟩ := hv
            have := ih hv
            omega
      · exact Nat.lt_succ_self left

end Pure

/-! ## The weight of a shape -/

/-- What a node adds is more than the weight of the shape it is cut to, so a
shape shows a cut that was not made. -/
structure Weighing (plan : κ → Plan κ τ σ) where
  weight : σ → Nat
  own : κ → Nat
  build : ∀ k shapes, shapes.length = (plan k).below.length →
    weight ((plan k).build shapes) = own k + (shapes.map weight).sum
  cut : ∀ k tag shape, (plan k).guard = some (tag, shape) → weight shape < own k

theorem Weighing.built {plan : κ → Plan κ τ σ} (w : Weighing plan) (k : κ) (f : κ → σ) :
    w.weight ((plan k).build ((plan k).below.map f))
      = w.own k + ((plan k).below.map fun c => w.weight (f c)).sum := by
  rw [w.build k _ (List.length_map _), List.map_map]
  rfl

section Weight

variable [DecidableEq τ] {plan : κ → Plan κ τ σ} (w : Weighing plan) (limit : κ → σ)

theorem Weighing.stopped {k : κ} {path : Path τ} {cut : σ} (h : (plan k).stop path = some cut) :
    w.weight cut < w.own k := by
  unfold Plan.stop at h
  split at h
  · rename_i tag shape active hguard
    split at h
    · cases h
      exact w.cut k tag _ hguard
    · cases h
  · cases h

theorem weight_le (left : Nat) : ∀ k (path : Path τ),
    w.weight (shape limit plan left k path) ≤ w.weight (shape limit plan left k none) := by
  induction left with
  | zero => intro k path; exact le_rfl
  | succ left ih =>
      intro k path
      simp only [shape, Plan.stop_none, Plan.enter_none, w.built]
      cases hstop : (plan k).stop path with
      | some cut => exact (Nat.le_of_lt (w.stopped hstop)).trans (Nat.le_add_right _ _)
      | none =>
          simp only [w.built]
          exact Nat.add_le_add_left (List.sum_le_sum fun c _ => ih c _) _

theorem weight_lt (left : Nat) : ∀ {k : κ} {path : Path τ}, isCut plan left k path = true →
    w.weight (shape limit plan left k path) < w.weight (shape limit plan left k none) := by
  induction left with
  | zero => intro k path h; cases h
  | succ left ih =>
      intro k path h
      rw [isCut] at h
      simp only [shape, Plan.stop_none, Plan.enter_none, w.built]
      cases hstop : (plan k).stop path with
      | some cut => exact (w.stopped hstop).trans_le (Nat.le_add_right _ _)
      | none =>
          simp only [hstop, List.any_eq_true] at h
          obtain ⟨c, hc, hcut⟩ := h
          simp only [w.built]
          exact Nat.add_lt_add_left
            (List.sum_lt_sum _ _ (fun c _ => weight_le w limit left c _) ⟨c, hc, ih hcut⟩) _

end Weight

/-! ## The walk with a memo -/

structure Memo (κ τ σ : Type u) where
  shapes : κ × Nat → Option σ
  active : List τ
  cycleTruncated : Bool

namespace Memo

def empty : Memo κ τ σ := ⟨fun _ => none, [], false⟩

@[grind =] def insert [DecidableEq κ] (m : Memo κ τ σ) (key : κ × Nat) (s : σ) : Memo κ τ σ :=
  { m with shapes := Function.update m.shapes key (some s) }

@[simp] theorem insert_self [DecidableEq κ] (m : Memo κ τ σ) (key : κ × Nat) (s : σ) :
    (m.insert key s).shapes key = some s := by
  simp [insert]

@[grind =] def Holds (m : Memo κ τ σ) (key : κ × Nat) : Prop := (m.shapes key).isSome = true

theorem holds_insert [DecidableEq κ] {m : Memo κ τ σ} {key key' : κ × Nat} {s : σ} :
    (m.insert key s).Holds key' ↔ key' = key ∨ m.Holds key' := by
  unfold Holds insert
  by_cases h : key' = key
  · subst h
    simp
  · simp [h]

/-- What is kept of a node's answer: its shape unless a cut was made in it,
and that a cut was made in it or before. -/
def keep [DecidableEq κ] (outer : Bool) (key : κ × Nat) (out : σ × Memo κ τ σ) : σ × Memo κ τ σ :=
  let m := if out.2.cycleTruncated then out.2 else out.2.insert key out.1
  (out.1, { m with cycleTruncated := m.cycleTruncated || outer })

variable [DecidableEq κ] {key : κ × Nat} {out : σ × Memo κ τ σ} {outer : Bool}

theorem keep_active : (keep outer key out).2.active = out.2.active := by
  unfold keep insert
  cases out.2.cycleTruncated <;> rfl

theorem keep_cut (h : out.2.cycleTruncated = true) : keep outer key out = out := by
  obtain ⟨s, shapes, active, flag⟩ := out
  cases h
  rfl

theorem keep_whole (h : out.2.cycleTruncated = false) :
    keep outer key out = (out.1, { out.2.insert key out.1 with cycleTruncated := outer }) := by
  obtain ⟨s, shapes, active, flag⟩ := out
  cases h
  cases outer <;> rfl

theorem keep_holds {key' : κ × Nat} (h : out.2.Holds key') :
    (keep outer key out).2.Holds key' := by
  cases hflag : out.2.cycleTruncated with
  | true => rwa [keep_cut hflag]
  | false =>
      rw [keep_whole hflag]
      exact holds_insert.mpr (.inr h)

theorem keep_holds_self (h : out.2.cycleTruncated = false) :
    (keep outer key out).2.Holds key := by
  rw [keep_whole h]
  exact holds_insert.mpr (.inl rfl)

end Memo

section Walk

@[grind =] def callAll (call : κ → Memo κ τ σ → σ × Memo κ τ σ) :
    List κ → Memo κ τ σ → List σ × Memo κ τ σ
  | [], m => ([], m)
  | k :: ks, m =>
      let first := call k m
      let others := callAll call ks first.2
      (first.1 :: others.1, others.2)

theorem callAll_length (call : κ → Memo κ τ σ → σ × Memo κ τ σ) :
    ∀ (ks : List κ) (m : Memo κ τ σ), (callAll call ks m).1.length = ks.length
  | [], _ => rfl
  | _ :: ks, _ => congrArg (· + 1) (callAll_length call ks _)

theorem callAll_active {call : κ → Memo κ τ σ → σ × Memo κ τ σ}
    (hcall : ∀ k m, (call k m).2.active = m.active) :
    ∀ (ks : List κ) (m : Memo κ τ σ), (callAll call ks m).2.active = m.active
  | [], _ => rfl
  | _ :: ks, _ => (callAll_active hcall ks _).trans (hcall _ _)

theorem callAll_congr {call call' : κ → Memo κ τ σ → σ × Memo κ τ σ} {P : List τ → Prop}
    (hcall : ∀ k m, P m.active → call k m = call' k m)
    (hactive : ∀ k m, (call' k m).2.active = m.active) :
    ∀ (ks : List κ) (m : Memo κ τ σ), P m.active → callAll call ks m = callAll call' ks m
  | [], _, _ => rfl
  | k :: ks, m, hm => by
      have hm' : P (call' k m).2.active := by rwa [hactive]
      rw [callAll, callAll, hcall k m hm, callAll_congr hcall hactive ks _ hm']

theorem callAll_unmemoised {call : κ → Memo κ τ σ → σ × Memo κ τ σ} {f : κ → List τ → σ}
    (hcall : ∀ k m, (call k m).1 = f k m.active ∧ (call k m).2.active = m.active) :
    ∀ (ks : List κ) (m : Memo κ τ σ), (callAll call ks m).1 = ks.map (f · m.active) ∧
      (callAll call ks m).2.active = m.active
  | [], _ => ⟨rfl, rfl⟩
  | k :: ks, m => by
      obtain ⟨hout, hactive⟩ := hcall k m
      obtain ⟨houts, hactives⟩ := callAll_unmemoised hcall ks (call k m).2
      rw [hactive] at houts hactives
      exact ⟨List.cons_eq_cons.mpr ⟨hout, houts⟩, hactives⟩

section Unmemoised

variable [DecidableEq τ] (limit : κ → σ) (plan : κ → Plan κ τ σ)

/-- One node, by the calls it makes for those below. -/
@[grind =] def Plan.run (plan : Plan κ τ σ) (call : κ → Memo κ τ σ → σ × Memo κ τ σ)
    (m : Memo κ τ σ) : σ × Memo κ τ σ :=
  match plan.guard with
  | none =>
      let below := callAll call plan.below m
      (plan.build below.1, below.2)
  | some (tag, cut) =>
      if tag ∈ m.active then (cut, { m with cycleTruncated := true })
      else
        let below := callAll call plan.below { m with active := m.active ++ [tag] }
        (plan.build below.1, { below.2 with active := below.2.active.dropLast })

/-! What a node does to the memo, in terms of the path it is met on. -/

theorem Plan.run_stop {plan : Plan κ τ σ} {m : Memo κ τ σ} {cut : σ}
    (h : plan.stop (some m.active) = some cut)
    (call : κ → Memo κ τ σ → σ × Memo κ τ σ) :
    plan.run call m = (cut, { m with cycleTruncated := true }) := by
  unfold Plan.stop at h
  unfold Plan.run
  cases hguard : plan.guard with
  | none => simp [hguard] at h
  | some g =>
      obtain ⟨tag, shape⟩ := g
      simp only [hguard] at h
      split at h
      · rename_i hactive
        cases h
        simp only [hactive, if_true]
      · cases h

theorem Plan.run_open {plan : Plan κ τ σ} {m : Memo κ τ σ}
    (h : plan.stop (some m.active) = none)
    {call : κ → Memo κ τ σ → σ × Memo κ τ σ}
    {below : List σ × Memo κ τ σ}
    (hbelow : callAll call plan.below { m with active := plan.push m.active } = below)
    (hactive : below.2.active = plan.push m.active) :
    plan.run call m = (plan.build below.1, { below.2 with active := m.active }) := by
  unfold Plan.stop at h
  unfold Plan.push at hbelow hactive
  unfold Plan.run
  cases hguard : plan.guard with
  | none =>
      simp only [hguard] at hbelow hactive
      rw [hbelow, ← hactive]
  | some g =>
      obtain ⟨tag, shape⟩ := g
      simp only [hguard] at h hbelow hactive
      split at h
      · cases h
      · rename_i hfree
        simp only [hfree, if_false]
        rw [hbelow, hactive, List.dropLast_concat]

/-- A node is met alike by calls that are alike on the tags it can make active. -/
theorem Plan.run_congr {plan : Plan κ τ σ} {P : List τ → Prop}
    {call call' : κ → Memo κ τ σ → σ × Memo κ τ σ}
    (hcall : ∀ k m, P m.active → call k m = call' k m)
    (hactive : ∀ k m, (call' k m).2.active = m.active)
    {m : Memo κ τ σ} (hm : P (plan.push m.active)) : plan.run call m = plan.run call' m := by
  unfold Plan.push at hm
  unfold Plan.run
  cases hguard : plan.guard with
  | none =>
      simp only [hguard] at hm
      dsimp only
      rw [callAll_congr hcall hactive plan.below m hm]
  | some g =>
      obtain ⟨tag, shape⟩ := g
      simp only [hguard] at hm
      dsimp only
      rw [callAll_congr hcall hactive plan.below { m with active := m.active ++ [tag] } hm]

def unmemoised : Nat → κ → Memo κ τ σ → σ × Memo κ τ σ
  | 0, k, m => (limit k, m)
  | left + 1, k, m => (plan k).run (unmemoised left) m

/-- The walk without the memo is the function. -/
theorem unmemoised_eq (left : Nat) : ∀ k (m : Memo κ τ σ),
    (unmemoised limit plan left k m).1 = shape limit plan left k (some m.active) ∧
      (unmemoised limit plan left k m).2.active = m.active := by
  induction left with
  | zero => intro k m; exact ⟨rfl, rfl⟩
  | succ left ih =>
      intro k m
      rw [unmemoised, shape]
      cases hstop : (plan k).stop (some m.active) with
      | some cut =>
          rw [Plan.run_stop hstop]
          exact ⟨rfl, rfl⟩
      | none =>
          obtain ⟨hout, hactive⟩ := callAll_unmemoised (f := fun k active =>
            shape limit plan left k (some active)) ih (plan k).below
            { m with active := (plan k).push m.active }
          rw [Plan.run_open hstop rfl hactive, hout]
          exact ⟨rfl, rfl⟩

end Unmemoised

variable [DecidableEq κ] [DecidableEq τ] (limit : κ → σ) (plan : κ → Plan κ τ σ)

@[grind =] def walk : Nat → κ → Memo κ τ σ → σ × Memo κ τ σ
  | 0, k, m => (limit k, m)
  | left + 1, k, m =>
      match m.shapes (k, left) with
      | some hit => (hit, m)
      | none =>
          Memo.keep m.cycleTruncated (k, left)
            ((plan k).run (walk left) { m with cycleTruncated := false })

/-- However the walk goes, the tags active behind it are those before. -/
theorem walk_active (left : Nat) : ∀ k (m : Memo κ τ σ),
    (walk limit plan left k m).2.active = m.active := by
  induction left with
  | zero => intro k m; rfl
  | succ left ih =>
      intro k m
      rw [walk]
      cases m.shapes (k, left) with
      | some hit => rfl
      | none =>
          rw [Memo.keep_active]
          cases hstop : (plan k).stop (some m.active) with
          | some cut =>
              rw [Plan.run_stop (m := { m with cycleTruncated := false }) hstop]
          | none =>
              rw [Plan.run_open (m := { m with cycleTruncated := false }) hstop rfl
                (callAll_active ih _ _)]

/-- The calls a node makes when it is neither known nor cut. -/
@[grind =] def opened (left : Nat) (k : κ) (m : Memo κ τ σ) : List σ × Memo κ τ σ :=
  callAll (walk limit plan left) (plan k).below
    { m with active := (plan k).push m.active, cycleTruncated := false }

/-- The three ways a node is met. -/
theorem walk_cases (left : Nat) (k : κ) (m : Memo κ τ σ) :
    (∃ hit, m.shapes (k, left) = some hit ∧ walk limit plan (left + 1) k m = (hit, m)) ∨
    (∃ cut, m.shapes (k, left) = none ∧ (plan k).stop (some m.active) = some cut ∧
      walk limit plan (left + 1) k m = (cut, { m with cycleTruncated := true })) ∨
    (m.shapes (k, left) = none ∧ (plan k).stop (some m.active) = none ∧
      walk limit plan (left + 1) k m = Memo.keep m.cycleTruncated (k, left)
        ((plan k).build (opened limit plan left k m).1,
          { (opened limit plan left k m).2 with active := m.active })) := by
  rw [walk]
  cases hshape : m.shapes (k, left) with
  | some hit => exact .inl ⟨hit, rfl, rfl⟩
  | none =>
      right
      cases hstop : (plan k).stop (some m.active) with
      | some cut =>
          left
          refine ⟨cut, rfl, rfl, ?_⟩
          dsimp only
          rw [Plan.run_stop (m := { m with cycleTruncated := false }) hstop]
          rfl
      | none =>
          right
          refine ⟨rfl, rfl, ?_⟩
          dsimp only
          rw [Plan.run_open (m := { m with cycleTruncated := false }) hstop rfl
            (callAll_active (walk_active limit plan left) _ _)]
          rfl

/-! ### What the memo holds -/

/-- The memo knows the shape of a node and all nodes below it, as they are
without the guard. -/
def Memo.Sound (m : Memo κ τ σ) : Prop :=
  ∀ k left s, m.shapes (k, left) = some s → s = shape limit plan (left + 1) k none ∧
    ∀ v ∈ visits plan (left + 1) k none, m.Holds v.key

/-- What a call keeps of the memo, and what an unraised flag says: that the
answer is the one without the guard, and known with all that is below. -/
structure Kept {α : Type u} (full : α) (keys : Set (κ × Nat)) (uncut : Prop)
    (m : Memo κ τ σ) (out : α × Memo κ τ σ) : Prop where
  sound : out.2.Sound limit plan
  grows : ∀ key, m.Holds key → out.2.Holds key
  whole : out.2.cycleTruncated = false →
    m.cycleTruncated = false ∧ out.1 = full ∧ ∀ key ∈ keys, out.2.Holds key
  uncut : uncut → m.cycleTruncated = false → out.2.cycleTruncated = false

variable {limit plan}

theorem Memo.Sound.insert {m : Memo κ τ σ} (hm : m.Sound limit plan) {k : κ} {left : Nat}
    (hbelow : ∀ c ∈ (plan k).below, ∀ v ∈ visits plan left c none, m.Holds v.key) :
    (m.insert (k, left) (shape limit plan (left + 1) k none)).Sound limit plan := by
  intro k' left' s h
  by_cases hkey : (k', left') = (k, left)
  · cases hkey
    rw [insert_self] at h
    refine ⟨(Option.some.inj h).symm, ?_⟩
    intro v hv
    rw [holds_insert]
    rw [visits, Plan.stop_none, Plan.enter_none, List.mem_append, List.mem_flatMap,
      List.mem_singleton] at hv
    obtain ⟨c, hc, hv⟩ | rfl := hv
    · exact .inr (hbelow c hc v hv)
    · exact .inl rfl
  · have hold : m.shapes (k', left') = some s := by
      rw [← h]
      simp [Memo.insert, hkey]
    obtain ⟨hs, hkeys⟩ := hm k' left' s hold
    exact ⟨hs, fun v hv => holds_insert.mpr (.inr (hkeys v hv))⟩

omit [DecidableEq κ] in
/-- The calls one after the other keep what each call keeps. -/
theorem callAll_kept {call : κ → Memo κ τ σ → σ × Memo κ τ σ} {f : κ → σ}
    {keys : κ → Set (κ × Nat)} {P : κ → List τ → Prop}
    (hactive : ∀ k m, (call k m).2.active = m.active)
    (hcall : ∀ k m, m.Sound limit plan →
      Kept limit plan (f k) (keys k) (P k m.active) m (call k m)) :
    ∀ (ks : List κ) (m : Memo κ τ σ), m.Sound limit plan →
      Kept limit plan (ks.map f) {key | ∃ k ∈ ks, key ∈ keys k}
        (∀ k ∈ ks, P k m.active) m (callAll call ks m) := by
  intro ks
  induction ks with
  | nil =>
      intro m hm
      exact ⟨hm, fun _ h => h, fun h => ⟨h, rfl, fun key hkey => by simp at hkey⟩, fun _ h => h⟩
  | cons k ks ih =>
      intro m hm
      have hfirst := hcall k m hm
      have hothers := ih (call k m).2 hfirst.sound
      rw [hactive] at hothers
      refine ⟨hothers.sound, fun key h => hothers.grows key (hfirst.grows key h), ?_, ?_⟩
      · intro hflag
        obtain ⟨hbetween, houts, hkeys⟩ := hothers.whole hflag
        obtain ⟨hbefore, hout, hkey⟩ := hfirst.whole hbetween
        refine ⟨hbefore, List.cons_eq_cons.mpr ⟨hout, houts⟩, ?_⟩
        intro key hmem
        obtain ⟨c, hc, hmem⟩ := hmem
        obtain rfl | hc := List.mem_cons.mp hc
        · exact hothers.grows key (hkey key hmem)
        · exact hkeys key ⟨c, hc, hmem⟩
      · intro huncut hflag
        have hbetween := hfirst.uncut (huncut k List.mem_cons_self) hflag
        exact hothers.uncut (fun c hc => huncut c (List.mem_cons_of_mem k hc)) hbetween

/-- The walk keeps the memo sound; while nothing is cut it answers as it would without the
guard, and knows every node it visited. -/
theorem walk_kept (left : Nat) : ∀ k (m : Memo κ τ σ), m.Sound limit plan →
    Kept limit plan (shape limit plan left k none)
      {key | ∃ v ∈ visits plan left k none, v.key = key}
      (isCut plan left k (some m.active) = false) m (walk limit plan left k m) := by
  induction left with
  | zero =>
      intro k m hm
      refine ⟨hm, fun _ h => h, fun h => ⟨h, rfl, ?_⟩, fun _ h => h⟩
      rintro key ⟨v, hv, -⟩
      cases hv
  | succ left ih =>
      intro k m hm
      obtain ⟨hit, hhit, hwalk⟩ | ⟨cut, -, hstop, hwalk⟩ | ⟨-, hstop, hwalk⟩ :=
        walk_cases limit plan left k m
      · -- a known node: the entry says everything
        rw [hwalk]
        obtain ⟨hshape, hkeys⟩ := hm k left hit hhit
        refine ⟨hm, fun _ h => h, fun h => ⟨h, hshape, ?_⟩, fun _ h => h⟩
        rintro key ⟨v, hv, rfl⟩
        exact hkeys v hv
      · -- a cut raises the flag and leaves the rest alone
        rw [hwalk]
        refine ⟨hm, fun _ h => h, fun h => (by cases h), fun h => ?_⟩
        rw [(stop_of_uncut plan h).1] at hstop
        cases hstop
      · have hbelow := callAll_kept
          (P := fun k active => isCut plan left k (some active) = false)
          (walk_active limit plan left) ih (plan k).below
          { m with active := (plan k).push m.active, cycleTruncated := false } hm
        rw [show callAll (walk limit plan left) _ _ = opened limit plan left k m from rfl] at hbelow
        have huncut : isCut plan (left + 1) k (some m.active) = false →
            (opened limit plan left k m).2.cycleTruncated = false :=
          fun h => hbelow.uncut (stop_of_uncut plan h).2 rfl
        cases hflag : (opened limit plan left k m).2.cycleTruncated with
        | true =>
            rw [hwalk, Memo.keep_cut hflag]
            refine ⟨hbelow.sound, hbelow.grows, fun h => ?_, fun h => ?_⟩
            · rw [hflag] at h
              cases h
            · rw [huncut h] at hflag
              cases hflag
        | false =>
            obtain ⟨-, hshapes, hkeys⟩ := hbelow.whole hflag
            have hshape : (plan k).build (opened limit plan left k m).1
                = shape limit plan (left + 1) k none := by
              rw [hshapes, shape, Plan.stop_none, Plan.enter_none]
            have hall : ∀ c ∈ (plan k).below, ∀ v ∈ visits plan left c none,
                (opened limit plan left k m).2.Holds v.key :=
              fun c hc v hv => hkeys v.key ⟨c, hc, v, hv, rfl⟩
            rw [hwalk, Memo.keep_whole hflag, hshape]
            have hsound := hbelow.sound.insert (k := k) hall
            refine ⟨hsound, ?_, fun h => ⟨h, rfl, ?_⟩, fun _ h => h⟩
            · exact fun key h => Memo.holds_insert.mpr (.inr (hbelow.grows key h))
            · rintro key ⟨v, hv, rfl⟩
              have hown := Memo.insert_self (opened limit plan left k m).2 (k, left)
                (shape limit plan (left + 1) k none)
              exact (hsound k left _ hown).2 v hv

/-! ### Where the two walks part -/

/-- The second meeting of a node is not cut where the first was not. -/
@[grind =] def Agree (v w : Visit κ) : Prop := v.key = w.key → v.cut = false → w.cut = false

instance (v w : Visit κ) : Decidable (Agree v w) := by
  unfold Agree
  infer_instance

/-- The new visits agree with each other and with those before them. -/
def AgreeBehind (old new : List (Visit κ)) : Prop :=
  new.Pairwise Agree ∧ ∀ v ∈ old, ∀ w ∈ new, Agree v w

omit [DecidableEq κ] in
theorem agreeBehind_append {old xs ys : List (Visit κ)} :
    AgreeBehind old (xs ++ ys) ↔ AgreeBehind old xs ∧ AgreeBehind (old ++ xs) ys := by
  simp only [AgreeBehind, List.pairwise_append, List.mem_append]
  constructor
  · rintro ⟨⟨hxs, hys, hxy⟩, hold⟩
    refine ⟨⟨hxs, fun v hv w hw => hold v hv w (.inl hw)⟩, hys, ?_⟩
    rintro v (hv | hv) w hw
    · exact hold v hv w (.inr hw)
    · exact hxy v hv w hw
  · rintro ⟨⟨hxs, holdxs⟩, hys, holdys⟩
    refine ⟨⟨hxs, hys, fun v hv => holdys v (.inr hv)⟩, ?_⟩
    rintro v hv w (hw | hw)
    · exact holdxs v hv w hw
    · exact holdys v (.inl hv) w hw

/-- Every node met uncut is in the memo. -/
def Memo.Covers (m : Memo κ τ σ) (old : List (Visit κ)) : Prop :=
  ∀ v ∈ old, v.cut = false → m.Holds v.key

/-- The memo has only nodes that were met uncut. -/
def Memo.Exact (m : Memo κ τ σ) (old : List (Visit κ)) : Prop :=
  ∀ key, m.Holds key → ∃ v ∈ old, v.key = key ∧ v.cut = false

/-- An answer of the walk against the one without the memo: it is at least as
heavy, and heavier as soon as a visit disagrees with one before it. -/
structure Heavier {α : Type u} (weigh : α → Nat) (plain : α) (old new : List (Visit κ))
    (out : α × Memo κ τ σ) : Prop where
  covers : out.2.Covers (old ++ new)
  le : weigh plain ≤ weigh out.1
  lt : ¬ AgreeBehind old new → weigh plain < weigh out.1

omit [DecidableEq κ] in
/-- The calls one after the other, when each call is so. -/
theorem callAll_heavier {call : κ → Memo κ τ σ → σ × Memo κ τ σ} {weight : σ → Nat}
    {f : κ → List τ → σ} {V : κ → List τ → List (Visit κ)}
    (hactive : ∀ k m, (call k m).2.active = m.active)
    (hsound : ∀ k m, m.Sound limit plan → (call k m).2.Sound limit plan)
    (hcall : ∀ k m old, m.Sound limit plan → m.Covers old →
      Heavier weight (f k m.active) old (V k m.active) (call k m)) :
    ∀ (ks : List κ) (m : Memo κ τ σ) old, m.Sound limit plan → m.Covers old →
      Heavier (fun shapes => (shapes.map weight).sum) (ks.map (f · m.active)) old
        (ks.flatMap (V · m.active)) (callAll call ks m) := by
  intro ks
  induction ks with
  | nil =>
      intro m old hm hcovers
      refine ⟨by simpa [callAll] using hcovers, le_rfl, fun h => absurd ?_ h⟩
      exact ⟨List.Pairwise.nil, by simp⟩
  | cons k ks ih =>
      intro m old hm hcovers
      have hfirst := hcall k m old hm hcovers
      have hothers := ih (call k m).2 (old ++ V k m.active) (hsound k m hm) hfirst.covers
      rw [hactive] at hothers
      have hle := hfirst.le
      have hles := hothers.le
      refine ⟨?_, ?_, ?_⟩
      · have := hothers.covers
        rwa [List.append_assoc] at this
      · exact Nat.add_le_add hle hles
      · intro h
        rw [List.flatMap_cons, agreeBehind_append, not_and_or] at h
        obtain h | h := h
        · exact Nat.add_lt_add_of_lt_of_le (hfirst.lt h) hles
        · exact Nat.add_lt_add_of_le_of_lt hle (hothers.lt h)

theorem not_agree_single {old : List (Visit κ)} {v : Visit κ} (h : ¬ AgreeBehind old [v]) :
    ∃ u ∈ old, u.key = v.key ∧ u.cut = false := by
  by_contra hnone
  apply h
  refine ⟨List.pairwise_singleton _ _, fun u hu w hw hkey hcut => ?_⟩
  obtain rfl := List.mem_singleton.mp hw
  exact absurd ⟨u, hu, hkey, hcut⟩ hnone

theorem opened_kept (left : Nat) (k : κ) (m : Memo κ τ σ) (hm : m.Sound limit plan)
    (h : isCut plan (left + 1) k (some m.active) = false) :
    (opened limit plan left k m).2.cycleTruncated = false :=
  (callAll_kept (P := fun k active => isCut plan left k (some active) = false)
    (walk_active limit plan left) (walk_kept left) (plan k).below
    { m with active := (plan k).push m.active, cycleTruncated := false } hm).uncut
    (stop_of_uncut plan h).2 rfl

/-- The walk's answer is at least as heavy as the one without the memo, and heavier as soon
as a visit disagrees with one before it. -/
theorem walk_heavier (w : Weighing plan) (left : Nat) : ∀ k (m : Memo κ τ σ) old,
    m.Sound limit plan → m.Covers old →
    Heavier w.weight (shape limit plan left k (some m.active)) old
      (visits plan left k (some m.active)) (walk limit plan left k m) := by
  induction left with
  | zero =>
      intro k m old hm hcovers
      refine ⟨by simpa [visits, walk] using hcovers, le_rfl, fun h => absurd ?_ h⟩
      exact ⟨List.Pairwise.nil, by simp [visits]⟩
  | succ left ih =>
      intro k m old hm hcovers
      obtain ⟨hit, hhit, hwalk⟩ | ⟨cut, hnew, hstop, hwalk⟩ | ⟨hnew, hstop, hwalk⟩ :=
        walk_cases limit plan left k m
      · -- a known node is answered as if it were not cut
        rw [hwalk]
        obtain ⟨hshape, hkeys⟩ := hm k left hit hhit
        subst hshape
        refine ⟨?_, weight_le w limit (left + 1) k _, fun h => weight_lt w limit (left + 1) ?_⟩
        · intro v hv hcut
          obtain hv | hv := List.mem_append.mp hv
          · exact hcovers v hv hcut
          · obtain ⟨u, hu, hkey⟩ := visit_none plan (left + 1) hv
            exact hkey ▸ hkeys u hu
        · by_contra huncut
          have hall := visits_uncut plan (left + 1) (Bool.eq_false_iff.mpr huncut)
          exact h ⟨List.pairwise_of_forall_mem_list fun _ _ v hv _ _ => hall v hv,
            fun _ _ v hv _ _ => hall v hv⟩
      · rw [hwalk]
        simp only [shape, visits, hstop, List.nil_append]
        refine ⟨?_, le_rfl, ?_⟩
        · intro v hv hcut
          obtain hv | hv := List.mem_append.mp hv
          · exact hcovers v hv hcut
          · obtain rfl := List.mem_singleton.mp hv
            simp [isCut, hstop] at hcut
        · intro h
          obtain ⟨u, hu, hkey, hcut⟩ := not_agree_single h
          have := hcovers u hu hcut
          simp [Memo.Holds, hkey, hnew] at this
      · have hbelow := callAll_heavier (f := fun k active => shape limit plan left k (some active))
          (V := fun k active => visits plan left k (some active)) (walk_active limit plan left)
          (fun k m hm => (walk_kept left k m hm).sound) ih (plan k).below
          { m with active := (plan k).push m.active, cycleTruncated := false } old hm hcovers
        have hlength := callAll_length (walk limit plan left) (plan k).below
          { m with active := (plan k).push m.active, cycleTruncated := false }
        rw [show callAll (walk limit plan left) _ _ = opened limit plan left k m from rfl]
          at hbelow hlength
        have hle := hbelow.le
        rw [List.map_map] at hle
        rw [hwalk]
        simp only [shape, visits, hstop, Plan.enter_some]
        refine ⟨?_, ?_, ?_⟩
        · intro v hv hcut
          rw [← List.append_assoc, List.mem_append, List.mem_singleton] at hv
          obtain hv | rfl := hv
          · exact Memo.keep_holds (hbelow.covers v hv hcut)
          · exact Memo.keep_holds_self (opened_kept left k m hm hcut)
        · show _ ≤ w.weight ((plan k).build (opened limit plan left k m).1)
          rw [w.built, w.build k _ hlength]
          exact Nat.add_le_add_left hle _
        · intro h
          show _ < w.weight ((plan k).build (opened limit plan left k m).1)
          rw [agreeBehind_append, not_and_or] at h
          obtain h | h := h
          · have hlt := hbelow.lt h
            rw [List.map_map] at hlt
            rw [w.built, w.build k _ hlength]
            exact Nat.add_lt_add_left hlt _
          · -- the node itself cannot have been met uncut: it is not in the memo,
            -- and what is below it is nearer to the bound
            obtain ⟨u, hu, hkey, hcut⟩ := not_agree_single h
            obtain hu | hu := List.mem_append.mp hu
            · have := hcovers u hu hcut
              simp [Memo.Holds, hkey, hnew] at this
            · obtain ⟨c, _, hu⟩ := List.mem_flatMap.mp hu
              have := visit_lt plan left hu
              rw [hkey] at this
              exact absurd this (Nat.lt_irrefl _)

/-- An answer of the walk that is the one without the memo. -/
structure Same {α : Type u} (plain : α) (cut : Bool) (old new : List (Visit κ))
    (m : Memo κ τ σ) (out : α × Memo κ τ σ) : Prop where
  result : out.1 = plain
  flag : out.2.cycleTruncated = (m.cycleTruncated || cut)
  exact : out.2.Exact (old ++ new)

omit [DecidableEq κ] in
/-- The calls one after the other, when each answers as without the memo. -/
theorem callAll_same {call : κ → Memo κ τ σ → σ × Memo κ τ σ} {f : κ → List τ → σ}
    {C : κ → List τ → Bool} {V : κ → List τ → List (Visit κ)}
    (hactive : ∀ k m, (call k m).2.active = m.active)
    (hsound : ∀ k m, m.Sound limit plan → (call k m).2.Sound limit plan)
    (hcall : ∀ k m old, m.Sound limit plan → m.Exact old → AgreeBehind old (V k m.active) →
      Same (f k m.active) (C k m.active) old (V k m.active) m (call k m)) :
    ∀ (ks : List κ) (m : Memo κ τ σ) old, m.Sound limit plan → m.Exact old →
      AgreeBehind old (ks.flatMap (V · m.active)) →
      Same (ks.map (f · m.active)) (ks.any (C · m.active)) old
        (ks.flatMap (V · m.active)) m (callAll call ks m) := by
  intro ks
  induction ks with
  | nil =>
      intro m old hm hexact hagree
      exact ⟨rfl, by simp [callAll], by simpa [callAll] using hexact⟩
  | cons k ks ih =>
      intro m old hm hexact hagree
      rw [List.flatMap_cons, agreeBehind_append] at hagree
      have hfirst := hcall k m old hm hexact hagree.1
      have hothers := ih (call k m).2 (old ++ V k m.active) (hsound k m hm) hfirst.exact
      rw [hactive] at hothers
      have hothers := hothers hagree.2
      refine ⟨List.cons_eq_cons.mpr ⟨hfirst.result, hothers.result⟩, ?_, ?_⟩
      · show (callAll call ks (call k m).2).2.cycleTruncated = _
        rw [hothers.flag, hfirst.flag, List.any_cons, Bool.or_assoc]
      · have := hothers.exact
        rwa [List.append_assoc] at this

/-- Where the visits agree with each other and with those before them, the walk answers as
it would without the memo. -/
theorem walk_same (left : Nat) : ∀ k (m : Memo κ τ σ) old,
    m.Sound limit plan → m.Exact old → AgreeBehind old (visits plan left k (some m.active)) →
    Same (shape limit plan left k (some m.active)) (isCut plan left k (some m.active)) old
      (visits plan left k (some m.active)) m (walk limit plan left k m) := by
  induction left with
  | zero =>
      intro k m old hm hexact hagree
      exact ⟨rfl, by simp [walk, isCut], by simpa [visits, walk] using hexact⟩
  | succ left ih =>
      intro k m old hm hexact hagree
      have hself : (⟨(k, left), isCut plan (left + 1) k (some m.active)⟩ : Visit κ)
          ∈ visits plan (left + 1) k (some m.active) := by simp [visits]
      obtain ⟨hit, hhit, hwalk⟩ | ⟨cut, hnew, hstop, hwalk⟩ | ⟨hnew, hstop, hwalk⟩ :=
        walk_cases limit plan left k m
      · -- a known node was met uncut, hence is not cut here
        obtain ⟨hshape, hkeys⟩ := hm k left hit hhit
        obtain ⟨u, hu, hkey, hcut⟩ := hexact (k, left) (by simp [Memo.Holds, hhit])
        have huncut := hagree.2 u hu _ hself hkey hcut
        dsimp only at huncut
        rw [hwalk]
        refine ⟨?_, by simp [huncut], ?_⟩
        · rw [hshape, shape_of_uncut limit plan (left + 1) huncut]
        · intro key hkey
          obtain ⟨v, hv, hvs⟩ := hexact key hkey
          exact ⟨v, List.mem_append_left _ hv, hvs⟩
      · rw [hwalk]
        refine ⟨by simp [shape, hstop], by simp [isCut, hstop], ?_⟩
        intro key hkey
        obtain ⟨v, hv, hvs⟩ := hexact key hkey
        exact ⟨v, List.mem_append_left _ hv, hvs⟩
      · rw [visits, hstop, Plan.enter_some] at hagree ⊢
        dsimp only at hagree ⊢
        rw [agreeBehind_append] at hagree
        have hbelow := callAll_same (f := fun k active => shape limit plan left k (some active))
          (C := fun k active => isCut plan left k (some active))
          (V := fun k active => visits plan left k (some active)) (walk_active limit plan left)
          (fun k m hm => (walk_kept left k m hm).sound) ih (plan k).below
          { m with active := (plan k).push m.active, cycleTruncated := false }
          old hm hexact hagree.1
        rw [show callAll (walk limit plan left) _ _ = opened limit plan left k m from rfl] at hbelow
        have hcut : (opened limit plan left k m).2.cycleTruncated
            = isCut plan (left + 1) k (some m.active) := by
          rw [hbelow.flag, isCut, hstop]
          rfl
        have hshape : (plan k).build (opened limit plan left k m).1
            = shape limit plan (left + 1) k (some m.active) := by
          rw [hbelow.result, shape, hstop]
          rfl
        have hold : ∀ key, (opened limit plan left k m).2.Holds key →
            ∃ v ∈ old ++ ((plan k).below.flatMap (fun c =>
              visits plan left c (some ((plan k).push m.active)))
              ++ [⟨(k, left), isCut plan (left + 1) k (some m.active)⟩]),
              v.key = key ∧ v.cut = false := by
          intro key hkey
          obtain ⟨v, hv, hvs⟩ := hbelow.exact key hkey
          refine ⟨v, ?_, hvs⟩
          rw [← List.append_assoc]
          exact List.mem_append_left _ hv
        rw [hwalk]
        cases hflag : (opened limit plan left k m).2.cycleTruncated with
        | true =>
            rw [Memo.keep_cut hflag]
            refine ⟨hshape, ?_, hold⟩
            rw [← hcut]
            simp [hflag]
        | false =>
            rw [Memo.keep_whole hflag]
            refine ⟨hshape, ?_, ?_⟩
            · rw [← hcut]
              simp [hflag]
            · intro key hkey
              obtain rfl | hkey := Memo.holds_insert.mp hkey
              · exact ⟨⟨(k, left), isCut plan (left + 1) k (some m.active)⟩, by simp, rfl,
                  hcut ▸ hflag⟩
              · exact hold key hkey

omit [DecidableEq κ] in
theorem sound_empty : (Memo.empty : Memo κ τ σ).Sound limit plan := by
  intro k left s h
  cases h

/-- The memo is seen exactly where a node met uncut is met again with a cut. -/
theorem walk_eq_iff (w : Weighing plan) (left : Nat) (k : κ) :
    (walk limit plan left k Memo.empty).1 = (unmemoised limit plan left k Memo.empty).1 ↔
      (visits plan left k (some [])).Pairwise Agree := by
  rw [(unmemoised_eq limit plan left k Memo.empty).1]
  constructor
  · intro heq
    by_contra hpair
    have hcovers : (Memo.empty : Memo κ τ σ).Covers [] := by simp [Memo.Covers]
    have hheavier : Heavier w.weight (shape limit plan left k (some [])) []
        (visits plan left k (some [])) (walk limit plan left k Memo.empty) :=
      walk_heavier w left k Memo.empty [] sound_empty hcovers
    have hlt := hheavier.lt fun h => hpair h.1
    rw [heq] at hlt
    exact Nat.lt_irrefl _ hlt
  · intro hpair
    have hexact : (Memo.empty : Memo κ τ σ).Exact [] := by
      intro key h
      cases h
    exact (walk_same left k Memo.empty [] sound_empty hexact ⟨hpair, by simp⟩).result

end Walk

end GovFuzz.Lib.GuardedWalk
