import Mathlib.Data.List.Basic
import Mathlib.Logic.Function.Basic

/-!
# Lib — interleaved sequences

A trace of tagged items is an interleaving of the parts that its tags pick
out.  When nothing falls between two items of one part, the trace is one
part behind the other.
-/

namespace GovFuzz.Lib

variable {α : Type}

/-- The items of `trace` with the tag `i` are those of `part i`, in order. -/
def Interleaves (part : Nat → List α) (trace : List (Nat × α)) : Prop :=
  ∀ i, (trace.filter fun item => item.1 = i).map Prod.snd = part i

/-- Between two items of one part there is no item of another. -/
def Uninterrupted (trace : List (Nat × α)) : Prop :=
  ∀ a b c, [a, b, c].Sublist trace → a.1 = c.1 → b.1 = a.1

theorem Uninterrupted.sublist {trace front : List (Nat × α)} (h : Uninterrupted trace)
    (hsub : front.Sublist trace) : Uninterrupted front := by
  intro a b c habc
  exact h a b c (habc.trans hsub)

/-- The items in front that share a tag are all there are. -/
theorem Uninterrupted.tag_not_mem {head : Nat × α} {block behind : List (Nat × α)}
    (h : Uninterrupted (head :: block ++ behind))
    (hnext : ∀ next ∈ behind.head?, next.1 ≠ head.1) :
    ∀ item ∈ behind, item.1 ≠ head.1 := by
  cases behind with
  | nil => simp
  | cons next more =>
      have hne : next.1 ≠ head.1 := hnext next rfl
      intro item hitem
      rcases List.mem_cons.mp hitem with rfl | hmore
      · exact hne
      · intro heq
        -- head, next, item would be an item of another part between two of one
        have hsub : [head, next, item].Sublist (head :: block ++ next :: more) := by
          refine List.Sublist.cons_cons head ?_
          refine List.Sublist.trans ?_ (List.sublist_append_right block _)
          exact List.Sublist.cons_cons next (List.singleton_sublist.mpr hmore)
        exact hne (h head next item hsub heq.symm)

/-- A trace without interruptions is one whole part behind the other. -/
theorem exists_order {part : Nat → List α} {trace : List (Nat × α)}
    (h : Interleaves part trace) (hwhole : Uninterrupted trace) :
    ∃ order : List Nat, trace.map Prod.snd = order.flatMap part
      ∧ ∀ i, i ∈ order ↔ part i ≠ [] := by
  -- by the length of the trace: the part of its head is taken off
  induction hlen : trace.length using Nat.strongRecOn generalizing trace part with
  | ind n ih =>
      cases trace with
      | nil =>
          refine ⟨[], rfl, ?_⟩
          intro i
          have hempty : part i = [] := (h i).symm
          simp [hempty]
      | cons head rest =>
          let own : Nat × α → Bool := fun item => item.1 = head.1
          have hcut : head :: rest = head :: rest.takeWhile own ++ rest.dropWhile own := by
            rw [List.cons_append, List.takeWhile_append_dropWhile]
          have hown : ∀ item ∈ head :: rest.takeWhile own, item.1 = head.1 := by
            intro item hitem
            rcases List.mem_cons.mp hitem with rfl | hblock
            · rfl
            · have hall := List.all_eq_true.mp List.all_takeWhile item hblock
              exact of_decide_eq_true hall
          have hother : ∀ item ∈ rest.dropWhile own, item.1 ≠ head.1 := by
            refine Uninterrupted.tag_not_mem (hcut ▸ hwhole) ?_
            intro next hnext
            have hstop := List.head?_dropWhile_not own rest
            rw [Option.mem_def.mp hnext] at hstop
            simpa [own] using hstop
          have htags : ∀ i, (head :: rest).filter (fun item => item.1 = i)
              = (if i = head.1 then head :: rest.takeWhile own else [])
                ++ (rest.dropWhile own).filter fun item => item.1 = i := by
            intro i
            rw [hcut, List.filter_append]
            congr 1
            by_cases hi : i = head.1
            · rw [if_pos hi]
              refine List.filter_eq_self.mpr ?_
              intro item hitem
              exact decide_eq_true ((hown item hitem).trans hi.symm)
            · rw [if_neg hi]
              refine List.filter_eq_nil_iff.mpr ?_
              intro item hitem heq
              exact hi ((of_decide_eq_true heq).symm.trans (hown item hitem))
          have hpart : part head.1 = (head :: rest.takeWhile own).map Prod.snd := by
            have hrest : (rest.dropWhile own).filter (fun item => item.1 = head.1) = [] := by
              refine List.filter_eq_nil_iff.mpr ?_
              intro item hitem heq
              exact hother item hitem (of_decide_eq_true heq)
            rw [← h head.1, htags, if_pos rfl, hrest, List.append_nil]
          have hbehind : Interleaves (Function.update part head.1 []) (rest.dropWhile own) := by
            intro i
            by_cases hi : i = head.1
            · rw [hi, Function.update_self, List.map_eq_nil_iff, List.filter_eq_nil_iff]
              intro item hitem heq
              exact hother item hitem (of_decide_eq_true heq)
            · rw [Function.update_of_ne hi, ← h i, htags, if_neg hi, List.nil_append]
          have hshort : (rest.dropWhile own).length < n := by
            have hle := (List.dropWhile_sublist own (l := rest)).length_le
            rw [← hlen, List.length_cons]
            omega
          have hsub : (rest.dropWhile own).Sublist (head :: rest) :=
            (List.dropWhile_sublist own).cons head
          obtain ⟨order, horder, hmem⟩ := ih _ hshort hbehind (hwhole.sublist hsub) rfl
          have hnot : head.1 ∉ order := by
            rw [hmem, Function.update_self]
            simp
          refine ⟨head.1 :: order, ?_, ?_⟩
          · have hsame : order.flatMap (Function.update part head.1 []) = order.flatMap part := by
              refine List.flatMap_congr ?_
              intro i hi
              have hne : i ≠ head.1 := by
                rintro rfl
                exact hnot hi
              rw [Function.update_of_ne hne]
            rw [hcut, List.map_append, horder, hsame, List.flatMap_cons, hpart]
          · intro i
            by_cases hi : i = head.1
            · subst hi
              simp [hpart]
            · rw [List.mem_cons, hmem, Function.update_of_ne hi]
              simp [hi]

end GovFuzz.Lib
