import Mathlib.Data.List.Basic
import Mathlib.Data.List.GetD
import Mathlib.Data.List.TakeWhile
import Mathlib.Algebra.GroupWithZero.Nat

/-!
# Instrumenter — the line map

`LineMap` of `crates/instrumenter/src/rewriter.rs`: anchors
`(instrumented line, original line)`, looked up by binary search.  Line
numbers are `u32` and add with saturation.
-/

namespace GovFuzz.Instrumenter

/-- `u32::MAX`. -/
def u32Max : Nat := 2 ^ 32 - 1

/-- `u32::saturating_add`. -/
def saturatingAdd (a b : Nat) : Nat := min (a + b) u32Max

/-- `slice::binary_search_by_key` on anchors with distinct, increasing keys:
the index of the match, or the index where it would be inserted. -/
def binarySearchByKey (anchors : List (Nat × Nat)) (line : Nat) : Except Nat Nat :=
  match anchors.findIdx? (·.1 = line) with
  | some idx => .ok idx
  | none => .error (anchors.takeWhile (·.1 < line)).length

structure LineMap where
  anchors : List (Nat × Nat)
  deriving DecidableEq

def LineMap.toOriginal (map : LineMap) (instrLine : Nat) : Nat :=
  match binarySearchByKey map.anchors instrLine with
  | .ok idx => (map.anchors.getD idx (0, 0)).2
  | .error 0 => instrLine
  | .error (idx + 1) =>
      let anchor := map.anchors.getD idx (0, 0)
      saturatingAdd anchor.2 (instrLine - anchor.1)

/-- A repeated instrumented line is collapsed to the latest mapping. -/
def pushAnchor (anchors : List (Nat × Nat)) (instrLine srcLine : Nat) : List (Nat × Nat) :=
  match anchors.getLast? with
  | some last =>
      if last.1 = instrLine then anchors.dropLast ++ [(instrLine, srcLine)]
      else anchors ++ [(instrLine, srcLine)]
  | none => [(instrLine, srcLine)]

/-! ## Lookup -/

theorem toOriginal_nil (line : Nat) : LineMap.toOriginal ⟨[]⟩ line = line := rfl

/-- A line above the last anchor does not see it. -/
theorem toOriginal_concat_of_lt (anchors : List (Nat × Nat)) {a o line : Nat} (h : line < a) :
    LineMap.toOriginal ⟨anchors ++ [(a, o)]⟩ line = LineMap.toOriginal ⟨anchors⟩ line := by
  have hne : a ≠ line := by omega
  have hge : ¬ a < line := by omega
  have htake : ((anchors ++ [(a, o)]).takeWhile (·.1 < line))
      = anchors.takeWhile (·.1 < line) := by
    rw [List.takeWhile_append]
    split
    · rename_i hall
      rw [List.takeWhile_cons_of_neg (by simpa using hge), List.append_nil]
      exact (List.takeWhile_prefix _).eq_of_length hall |>.symm
    · rfl
  have hget : ∀ idx, idx < anchors.length →
      (anchors ++ [(a, o)]).getD idx (0, 0) = anchors.getD idx (0, 0) := by
    intro idx hidx
    rw [List.getD_append _ _ _ _ hidx]
  unfold LineMap.toOriginal binarySearchByKey
  simp only [htake, List.findIdx?_append, List.findIdx?_singleton, hne, decide_false,
    Bool.false_eq_true, if_false, Option.map_none, Option.or_none]
  cases hfind : anchors.findIdx? (·.1 = line) with
  | some idx =>
      have hidx := (List.findIdx?_eq_some_iff_getElem.mp hfind).1
      simp only [hget idx hidx]
  | none =>
      cases hlen : (anchors.takeWhile (·.1 < line)).length with
      | zero => rfl
      | succ idx =>
          have hle : (anchors.takeWhile (·.1 < line)).length ≤ anchors.length :=
            (List.takeWhile_prefix _).length_le
          simp only [hget idx (by omega)]

/-- From the last anchor on, lines count up from its original line. -/
theorem toOriginal_concat_of_le {anchors : List (Nat × Nat)} {a o line : Nat}
    (hbelow : ∀ p ∈ anchors, p.1 < a) (ho : o ≤ u32Max) (h : a ≤ line) :
    LineMap.toOriginal ⟨anchors ++ [(a, o)]⟩ line = saturatingAdd o (line - a) := by
  have hnone : anchors.findIdx? (·.1 = line) = none := by
    rw [List.findIdx?_eq_none_iff]
    intro p hp
    have := hbelow p hp
    simp only [decide_eq_false_iff_not]
    omega
  unfold LineMap.toOriginal binarySearchByKey
  simp only [List.findIdx?_append, hnone, Option.none_or, List.findIdx?_singleton]
  rcases Nat.eq_or_lt_of_le h with rfl | hlt
  · simp only [decide_true, if_true, Option.map_some]
    rw [Nat.zero_add, List.getD_append_right _ _ _ _ (Nat.le_refl _)]
    simp [saturatingAdd, ho]
  · have hall : ∀ p ∈ anchors ++ [(a, o)], decide (p.1 < line) = true := by
      intro p hp
      rw [List.mem_append, List.mem_singleton] at hp
      rcases hp with hp | rfl
      · have := hbelow p hp
        simp only [decide_eq_true_eq]
        omega
      · simpa using hlt
    have hne : a ≠ line := by omega
    simp only [hne, decide_false, Bool.false_eq_true, if_false, Option.map_none,
      List.takeWhile_eq_self_iff.mpr hall, List.length_append, List.length_singleton]
    rw [List.getD_append_right _ _ _ _ (Nat.le_refl _), Nat.sub_self]
    rfl

/-! ## Pushing an anchor -/

/-- Anchors in the order they were pushed: keys increase, none above `line`. -/
structure Ascending (anchors : List (Nat × Nat)) (line : Nat) : Prop where
  sorted : anchors.Pairwise fun p q => p.1 < q.1
  le : ∀ p ∈ anchors, p.1 ≤ line

theorem Ascending.nil (line : Nat) : Ascending [] line := ⟨.nil, by simp⟩

theorem Ascending.mono {anchors : List (Nat × Nat)} {line line' : Nat} (h : Ascending anchors line)
    (hle : line ≤ line') : Ascending anchors line' :=
  ⟨h.sorted, fun p hp => Nat.le_trans (h.le p hp) hle⟩

/-- Pushing puts the new anchor last, above all that stay. -/
theorem pushAnchor_eq {anchors : List (Nat × Nat)} {line instrLine : Nat} (srcLine : Nat)
    (h : Ascending anchors line) (hle : line ≤ instrLine) :
    ∃ kept, pushAnchor anchors instrLine srcLine = kept ++ [(instrLine, srcLine)] ∧
      kept.Pairwise (fun p q => p.1 < q.1) ∧ (∀ p ∈ kept, p.1 < instrLine) ∧
      ∀ L, L < instrLine → LineMap.toOriginal ⟨kept⟩ L = LineMap.toOriginal ⟨anchors⟩ L := by
  rcases List.eq_nil_or_concat' anchors with rfl | ⟨kept, last, rfl⟩
  · exact ⟨[], rfl, .nil, by simp, fun L _ => rfl⟩
  · obtain ⟨a, o⟩ := last
    have hsorted := List.pairwise_append.mp h.sorted
    have hbelow : ∀ p ∈ kept, p.1 < a := fun p hp => hsorted.2.2 p hp (a, o) (by simp)
    have ha : a ≤ instrLine := Nat.le_trans (h.le (a, o) (by simp)) hle
    unfold pushAnchor
    rw [List.getLast?_concat]
    by_cases hsame : a = instrLine
    · refine ⟨kept, ?_, hsorted.1, ?_, ?_⟩
      · rw [List.dropLast_concat]
        exact if_pos hsame
      · exact fun p hp => hsame ▸ hbelow p hp
      · intro L hL
        rw [toOriginal_concat_of_lt kept (hsame ▸ hL)]
    · refine ⟨kept ++ [(a, o)], if_neg hsame, h.sorted, ?_, fun L _ => rfl⟩
      intro p hp
      rw [List.mem_append, List.mem_singleton] at hp
      rcases hp with hp | rfl
      · have := hbelow p hp
        omega
      · show a < instrLine
        omega

end GovFuzz.Instrumenter
