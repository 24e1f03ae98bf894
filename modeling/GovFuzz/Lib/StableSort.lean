import Mathlib.Data.List.Sort

/-!
# Lib — stable sorting by a key

Merge sort by a natural-number key.  What a client may rely on: the result
is a permutation, it is ordered by the key, and the elements of one key
stand in the order in which they were given (`filter_stableSortBy`).  And a
list in the order of its keys is made up of what it has of each
(`eq_of_filter_eq`).
-/

namespace GovFuzz.Lib

variable {α β : Type}

def stableSortBy (key : α → Nat) (l : List α) : List α := l.mergeSort fun a b => key a ≤ key b

theorem stableSortBy_perm (key : α → Nat) (l : List α) : (stableSortBy key l).Perm l :=
  List.mergeSort_perm l _

section
variable (key : α → Nat)

theorem keyLe_trans (a b c : α) (hab : decide (key a ≤ key b)) (hbc : decide (key b ≤ key c)) :
    decide (key a ≤ key c) := by
  simp only [decide_eq_true_eq] at hab hbc ⊢
  omega

theorem keyLe_total (a b : α) : decide (key a ≤ key b) || decide (key b ≤ key a) := by
  simp only [Bool.or_eq_true, decide_eq_true_eq]
  omega

theorem stableSortBy_ordered (l : List α) :
    (stableSortBy key l).Pairwise fun a b => key a ≤ key b := by
  have h := List.pairwise_mergeSort (keyLe_trans key) (keyLe_total key) l
  simpa [stableSortBy] using h

theorem filter_stableSortBy (l : List α) (k : Nat) :
    (stableSortBy key l).filter (fun a => key a = k) = l.filter (fun a => key a = k) := by
  have hordered : (l.filter (fun a => key a = k)).Pairwise fun a b => decide (key a ≤ key b) := by
    apply List.pairwise_of_forall_mem_list
    intro a ha b hb
    simp only [List.mem_filter, decide_eq_true_eq] at ha hb ⊢
    omega
  have hsub : (l.filter (fun a => key a = k)).Sublist (stableSortBy key l) :=
    List.sublist_mergeSort (keyLe_trans key) (keyLe_total key) hordered List.filter_sublist
  have hsub' := hsub.filter fun a => decide (key a = k)
  rw [List.filter_filter] at hsub'
  simp only [Bool.and_self] at hsub'
  exact (hsub'.eq_of_length ((stableSortBy_perm key l).filter _).length_eq.symm).symm

end

theorem stableSortBy_of_ordered {key : α → Nat} {l : List α}
    (h : l.Pairwise fun a b => key a ≤ key b) : stableSortBy key l = l :=
  List.mergeSort_of_pairwise (by simpa using h)

/-! ## Grouped by a key -/

section Grouped

variable {κ : Type} [DecidableEq κ]

/-- In the order of the keys a list is made up of what it has of each key. -/
theorem eq_of_filter_eq (key : α → κ) (le : κ → κ → Prop)
    (hantisymm : ∀ k k', le k k' → le k' k → k = k') {l l' : List α}
    (hl : l.Pairwise fun a b => le (key a) (key b))
    (hl' : l'.Pairwise fun a b => le (key a) (key b))
    (h : ∀ k, l.filter (fun a => key a = k) = l'.filter (fun a => key a = k)) : l = l' := by
  induction l generalizing l' with
  | nil =>
      cases l' with
      | nil => rfl
      | cons b l' => simpa using h (key b)
  | cons a l ih =>
      cases l' with
      | nil => simpa using h (key a)
      | cons b l' =>
          rw [List.pairwise_cons] at hl hl'
          -- each head stands in the other list too, so the two have one key
          have hkey : key a = key b := by
            by_contra hne
            have ha : a ∈ (b :: l').filter fun c => key c = key a := by
              rw [← h]
              simp
            have hb : b ∈ (a :: l).filter fun c => key c = key b := by
              rw [h]
              simp
            simp only [List.mem_filter, List.mem_cons, decide_eq_true_eq, and_true] at ha hb
            have hba : le (key b) (key a) := hl'.1 a (ha.resolve_left fun heq => hne (by rw [heq]))
            have hab : le (key a) (key b) :=
              hl.1 b (hb.resolve_left fun heq => hne (by rw [heq]))
            exact hne (hantisymm _ _ hab hba)
          have hhead := h (key a)
          simp only [List.filter_cons, hkey, decide_true, if_true, List.cons.injEq] at hhead
          -- and among the elements of that key both lists begin alike
          obtain ⟨rfl, -⟩ := hhead
          congr 1
          refine ih hl.2 hl'.2 fun k => ?_
          have hk := h k
          simp only [List.filter_cons] at hk
          split at hk
          · exact (List.cons.inj hk).2
          · exact hk

/-- What stands of one key in the groups of several. -/
theorem filter_flatMap {key : α → κ} {groups : List (κ × β)} (hnodup : (groups.map Prod.fst).Nodup)
    {members : κ × β → List α} (hmembers : ∀ g ∈ groups, ∀ a ∈ members g, key a = g.1)
    {group : κ × β} (hgroup : group ∈ groups) :
    (groups.flatMap members).filter (fun a => key a = group.1) = members group := by
  induction groups with
  | nil => cases hgroup
  | cons g groups ih =>
      rw [List.map_cons, List.nodup_cons] at hnodup
      rw [List.forall_mem_cons] at hmembers
      rw [List.flatMap_cons, List.filter_append]
      rcases List.mem_cons.mp hgroup with rfl | hgroup
      · have hown : (members group).filter (fun a => key a = group.1) = members group :=
          List.filter_eq_self.mpr fun a ha => decide_eq_true (hmembers.1 a ha)
        have hothers : (groups.flatMap members).filter (fun a => key a = group.1) = [] := by
          refine List.filter_eq_nil_iff.mpr fun a ha => ?_
          obtain ⟨g, hg, ha⟩ := List.mem_flatMap.mp ha
          rw [decide_eq_true_eq, hmembers.2 g hg a ha]
          exact fun heq => hnodup.1 (heq ▸ List.mem_map_of_mem hg)
        rw [hown, hothers, List.append_nil]
      · have hother : (members g).filter (fun a => key a = group.1) = [] := by
          refine List.filter_eq_nil_iff.mpr fun a ha => ?_
          rw [decide_eq_true_eq, hmembers.1 a ha]
          exact fun heq => hnodup.1 (heq ▸ List.mem_map_of_mem hgroup)
        rw [hother, List.nil_append, ih hnodup.2 hmembers.2 hgroup]

end Grouped

end GovFuzz.Lib
