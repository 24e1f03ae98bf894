import Mathlib.Data.List.Infix
import Mathlib.Data.List.Range

/-!
# Lib — the places of one list in another

Where a list stands in another one, overlaps included, from the left.  A
search that takes the first place and goes on one item behind it meets every
place once (`places_eq_cons`).
-/

namespace GovFuzz.Lib

variable {α : Type} [DecidableEq α]

def places (needle : List α) : List α → List Nat
  | [] => if needle = [] then [0] else []
  | a :: text =>
      (if needle <+: a :: text then [0] else []) ++ (places needle text).map (· + 1)

theorem mem_places {needle text : List α} {i : Nat} :
    i ∈ places needle text ↔ i ≤ text.length ∧ needle <+: text.drop i := by
  induction text generalizing i with
  | nil =>
      by_cases hneedle : needle = []
      · simp [places, hneedle]
      · simp [places, hneedle, List.prefix_nil]
  | cons a text ih =>
      cases i with
      | zero =>
          by_cases hfront : needle <+: a :: text
          · simp [places, hfront]
          · simp [places, hfront]
      | succ i =>
          by_cases hfront : needle <+: a :: text
          · simp [places, hfront, ih]
          · simp [places, hfront, ih]

theorem places_pairwise (needle text : List α) : (places needle text).Pairwise (· < ·) := by
  induction text with
  | nil =>
      rw [places]
      split <;> simp
  | cons a text ih =>
      have hrest : ((places needle text).map (· + 1)).Pairwise (· < ·) :=
        ih.map (· + 1) fun _ _ h => Nat.succ_lt_succ h
      rw [places]
      split
      · refine List.pairwise_cons.mpr ⟨?_, hrest⟩
        intro i hi
        obtain ⟨j, -, rfl⟩ := List.mem_map.mp hi
        exact Nat.succ_pos j
      · exact hrest

/-- The places are those of the text's places where the list is a prefix of
what is left. -/
theorem places_eq_filter (needle text : List α) :
    places needle text
      = (List.range (text.length + 1)).filter fun i => needle <+: text.drop i := by
  refine List.Perm.eq_of_pairwise (fun a b _ _ hab hba => absurd hba (Nat.lt_asymm hab))
    (places_pairwise needle text) (List.pairwise_lt_range.filter _) ?_
  have hnodup : (places needle text).Nodup := (places_pairwise needle text).imp Nat.ne_of_lt
  refine (List.perm_ext_iff_of_nodup hnodup (List.nodup_range.filter _)).mpr fun i => ?_
  rw [mem_places, List.mem_filter, List.mem_range, Nat.lt_succ_iff, decide_eq_true_iff]

theorem head?_places_lt {needle text : List α} (hneedle : needle ≠ []) {i : Nat}
    (h : (places needle text).head? = some i) : i + needle.length ≤ text.length := by
  obtain ⟨hle, hprefix⟩ := mem_places.mp (List.mem_of_head? h)
  have hlength := hprefix.length_le
  rw [List.length_drop] at hlength
  have hpos := List.length_pos_iff.mpr hneedle
  omega

/-- Behind the first place the search goes on one item further. -/
theorem places_eq_cons {needle text : List α} (hneedle : needle ≠ []) {i : Nat}
    (h : (places needle text).head? = some i) :
    places needle text = i :: (places needle (text.drop (i + 1))).map (· + (i + 1)) := by
  induction text generalizing i with
  | nil => simp [places, hneedle] at h
  | cons a text ih =>
      by_cases hfront : needle <+: a :: text
      · simp only [places, if_pos hfront, List.singleton_append, List.head?_cons,
          Option.some.injEq] at h ⊢
        subst h
        rfl
      · simp only [places, if_neg hfront, List.nil_append, List.head?_map,
          Option.map_eq_some_iff] at h ⊢
        obtain ⟨j, hj, rfl⟩ := h
        rw [ih hj, List.map_cons, List.map_map, List.drop_succ_cons]
        congr 1

theorem places_of_head?_none {needle text : List α} (h : (places needle text).head? = none) :
    places needle text = [] := List.head?_eq_none_iff.mp h

/-- What is at a place, with what is in front of it and behind it. -/
theorem eq_append_of_mem_places {needle text : List α} {i : Nat} (h : i ∈ places needle text) :
    text = text.take i ++ needle ++ text.drop (i + needle.length) := by
  obtain ⟨-, rest, hrest⟩ := mem_places.mp h
  have hdrop : text.drop (i + needle.length) = rest := by
    rw [← List.drop_drop, ← hrest, List.drop_left]
  rw [hdrop, List.append_assoc, hrest, List.take_append_drop]

/-! ## The first place -/

/-- The first place, of the places that are left. -/
def windowPosition (needle : List α) : List α → Option Nat
  | [] => if needle = [] then some 0 else none
  | a :: text =>
      if needle <+: a :: text then some 0 else (windowPosition needle text).map (· + 1)

theorem windowPosition_eq (needle text : List α) :
    windowPosition needle text = (places needle text).head? := by
  induction text with
  | nil =>
      rw [windowPosition, places]
      split <;> rfl
  | cons a text ih =>
      by_cases hfront : needle <+: a :: text
      · rw [windowPosition, if_pos hfront, places, if_pos hfront]
        rfl
      · rw [windowPosition, if_neg hfront, places, if_neg hfront, ih, List.nil_append,
          List.head?_map]

theorem windowPosition_le {needle text : List α} {i : Nat}
    (h : windowPosition needle text = some i) : i ≤ text.length := by
  rw [windowPosition_eq] at h
  exact (mem_places.mp (List.mem_of_head? h)).1

/-- The list stands at a place and nowhere in front of it. -/
theorem windowPosition_first {needle text : List α} (hneedle : needle ≠ []) {i : Nat}
    (hat : needle <+: text.drop i) (hfirst : ∀ j < i, ¬ needle <+: text.drop j) :
    windowPosition needle text = some i := by
  induction text generalizing i with
  | nil =>
      rw [List.drop_nil, List.prefix_nil] at hat
      exact absurd hat hneedle
  | cons a text ih =>
      rw [windowPosition]
      cases i with
      | zero => exact if_pos hat
      | succ i =>
          have hfront : ¬ needle <+: a :: text := hfirst 0 (Nat.succ_pos i)
          rw [if_neg hfront, ih hat fun j hj => hfirst (j + 1) (Nat.succ_lt_succ hj)]
          rfl

end GovFuzz.Lib
