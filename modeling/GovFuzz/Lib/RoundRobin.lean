import Mathlib.Data.Nat.Find
import Mathlib.Algebra.GroupWithZero.Nat

/-!
# Lib — picking the first of greatest score

Items are known by how often they were picked.  A pick goes to the first
of those whose score is greatest, and the score depends on the count
alone.  As long as a pick lowers the score of its item, equal items are
taken in turn; at the first PLATEAU of the score, a count whose successor
scores the same, the turn is lost.
-/

namespace GovFuzz.Lib

/-- One pick: the first item of greatest score gains one. -/
def Picks (score : Nat → Nat) (counts counts' : List Nat) : Prop :=
  ∃ before c after, counts = before ++ c :: after ∧ counts' = before ++ (c + 1) :: after
    ∧ (∀ x ∈ before, score x < score c) ∧ ∀ x ∈ after, score x ≤ score c

/-- The counts of `n` items after `v` picks made in turn. -/
def levels (n v : Nat) : List Nat :=
  List.replicate (v % n) (v / n + 1) ++ List.replicate (n - v % n) (v / n)

/-- No two items are more than one pick apart. -/
def Balanced (counts : List Nat) : Prop :=
  ∀ x ∈ counts, ∀ y ∈ counts, x ≤ y + 1

instance (counts : List Nat) : Decidable (Balanced counts) :=
  inferInstanceAs (Decidable (∀ x ∈ counts, ∀ y ∈ counts, x ≤ y + 1))

theorem levels_zero (n : Nat) : levels n 0 = List.replicate n 0 := by
  simp [levels]

theorem mem_levels {n v x : Nat} (h : x ∈ levels n v) : x = v / n ∨ x = v / n + 1 := by
  simp only [levels, List.mem_append, List.mem_replicate] at h
  omega

theorem levels_balanced (n v : Nat) : Balanced (levels n v) := by
  intro x hx y hy
  have hx := mem_levels hx
  have hy := mem_levels hy
  omega

theorem sum_levels {n : Nat} (hn : 0 < n) (v : Nat) : (levels n v).sum = v := by
  have hlt : v % n < n := Nat.mod_lt v hn
  have hdiv : n * (v / n) + v % n = v := Nat.div_add_mod v n
  have hsplit : (n - v % n) * (v / n) = n * (v / n) - v % n * (v / n) := Nat.sub_mul ..
  have hle : v % n * (v / n) ≤ n * (v / n) := Nat.mul_le_mul_right _ (by omega)
  simp only [levels, List.sum_append, List.sum_replicate_nat, Nat.mul_add, Nat.mul_one]
  omega

/-- The next pick in turn raises the first item of the lower level. -/
theorem levels_succ {n : Nat} (hn : 0 < n) (v : Nat) :
    levels n (v + 1)
      = List.replicate (v % n) (v / n + 1) ++ (v / n + 1)
          :: List.replicate (n - v % n - 1) (v / n) := by
  have hlt : v % n < n := Nat.mod_lt v hn
  by_cases hlast : v % n + 1 = n
  · -- the last of the lower level: everyone stands one level up
    have hmod : (v + 1) % n = 0 := by
      have hv : v + 1 = n * (v / n) + n := by
        have := Nat.div_add_mod v n
        omega
      rw [hv, Nat.mul_add_mod, Nat.mod_self]
    have hdiv : (v + 1) / n = v / n + 1 := by
      rw [Nat.succ_div, if_pos (Nat.dvd_of_mod_eq_zero hmod)]
    have hrest : n - v % n - 1 = 0 := by omega
    rw [levels, hmod, hdiv, hrest]
    simp only [List.replicate_zero, List.nil_append, Nat.sub_zero]
    rw [← List.replicate_succ', hlast]
  · have hmod : (v + 1) % n = v % n + 1 := by
      rw [Nat.add_mod]
      by_cases h1 : n = 1
      · omega
      · rw [Nat.mod_eq_of_lt (show 1 < n by omega), Nat.mod_eq_of_lt (by omega)]
    have hdiv : (v + 1) / n = v / n := by
      rw [Nat.succ_div, if_neg (fun hd => by
        have := Nat.mod_eq_zero_of_dvd hd
        omega)]
      rfl
    have hrest : n - (v % n + 1) = n - v % n - 1 := by omega
    rw [levels, hmod, hdiv, hrest, List.replicate_succ', List.append_assoc]
    rfl

/-- A pick splits two levels at the first item of the lower one when the
lower one scores more, or when there is no upper one. -/
theorem split_levels {score : Nat → Nat} {n v c : Nat} {before after : List Nat} (hn : 0 < n)
    (hsplit : levels n v = before ++ c :: after)
    (hbefore : ∀ x ∈ before, score x < score c) (hafter : ∀ x ∈ after, score x ≤ score c)
    (hscore : v % n = 0 ∨ score (v / n + 1) < score (v / n)) :
    before = List.replicate (v % n) (v / n + 1) ∧ c = v / n
      ∧ after = List.replicate (n - v % n - 1) (v / n) := by
  have hlt : v % n < n := Nat.mod_lt v hn
  have hlow : List.replicate (n - v % n) (v / n)
      = v / n :: List.replicate (n - v % n - 1) (v / n) := by
    rw [← List.replicate_succ]
    congr 1
    omega
  have hall : levels n v = List.replicate (v % n) (v / n + 1)
      ++ v / n :: List.replicate (n - v % n - 1) (v / n) := by
    rw [levels, hlow]
  rw [hall] at hsplit
  rcases List.append_eq_append_iff.mp hsplit with ⟨mid, hmid, hrest⟩ | ⟨mid, hmid, hrest⟩
  · -- the picked item lies in the lower level: an item of that level
    -- before it would score as much
    cases mid with
    | nil =>
        simp only [List.append_nil, List.nil_append, List.cons.injEq] at hmid hrest
        exact ⟨hmid, hrest.1.symm, hrest.2.symm⟩
    | cons x mid =>
        simp only [List.cons_append, List.cons.injEq] at hrest
        have hc : c ∈ List.replicate (n - v % n - 1) (v / n) := by rw [hrest.2]; simp
        have hx := hbefore x (by rw [hmid]; simp)
        rw [← hrest.1, (List.mem_replicate.mp hc).2] at hx
        exact absurd hx (lt_irrefl _)
  · -- the picked item lies in the upper level: the lower one follows it
    -- and scores more
    cases mid with
    | nil =>
        simp only [List.append_nil, List.nil_append, List.cons.injEq] at hmid hrest
        exact ⟨hmid.symm, hrest.1, hrest.2⟩
    | cons x mid =>
        simp only [List.cons_append, List.cons.injEq] at hrest
        have hc : c ∈ List.replicate (v % n) (v / n + 1) := by rw [hmid, ← hrest.1]; simp
        rw [(List.mem_replicate.mp hc).2] at hafter
        have hlow := hafter (v / n) (by rw [hrest.2]; simp)
        have hpos := (List.mem_replicate.mp hc).1
        omega

theorem Picks.levels {score : Nat → Nat} {n v : Nat} {counts' : List Nat} (hn : 0 < n)
    (h : Picks score (levels n v) counts')
    (hscore : v % n = 0 ∨ score (v / n + 1) < score (v / n)) :
    counts' = Lib.levels n (v + 1) := by
  obtain ⟨before, c, after, hsplit, rfl, hbefore, hafter⟩ := h
  obtain ⟨rfl, rfl, rfl⟩ := split_levels hn hsplit hbefore hafter hscore
  rw [levels_succ hn]

/-- On a plateau the item picked last is picked again, while another one
has not had its turn. -/
theorem Picks.not_balanced {score : Nat → Nat} {n v : Nat} {counts' : List Nat} (hn : 0 < n)
    (h : Picks score (Lib.levels n v) counts') (hv : 0 < v % n)
    (hscore : score (v / n + 1) = score (v / n)) : ¬ Balanced counts' := by
  obtain ⟨before, c, after, hsplit, rfl, hbefore, hafter⟩ := h
  have hlt : v % n < n := Nat.mod_lt v hn
  have hsame : ∀ x ∈ Lib.levels n v, score x = score (v / n) := by
    intro x hx
    rcases mem_levels hx with rfl | rfl
    · rfl
    · exact hscore
  -- all items score the same, so the pick goes to the very first one
  cases before with
  | cons x before =>
      have hx := hbefore x (by simp)
      rw [hsame x (by rw [hsplit]; simp), hsame c (by rw [hsplit]; simp)] at hx
      exact absurd hx (lt_irrefl _)
  | nil =>
      have hhead : (Lib.levels n v).head? = some (v / n + 1) := by
        obtain ⟨k, hk⟩ : ∃ k, v % n = k + 1 := ⟨v % n - 1, by omega⟩
        simp [Lib.levels, hk, List.replicate_succ]
      have hc : c = v / n + 1 := by simpa [hsplit] using hhead
      have hmem : v / n ∈ Lib.levels n v := by
        exact List.mem_append_right _ (List.mem_replicate.mpr ⟨by omega, rfl⟩)
      have hlow : v / n ∈ after := by
        rw [hsplit] at hmem
        rcases List.mem_cons.mp hmem with heq | hmem
        · omega
        · exact hmem
      intro hbal
      have := hbal (c + 1) (by simp) (v / n) (by simp [hlow])
      omega

end GovFuzz.Lib
