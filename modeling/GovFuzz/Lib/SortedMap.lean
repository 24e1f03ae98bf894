import Mathlib.Data.List.Basic
import Mathlib.Data.List.Nodup
import Mathlib.Data.List.Perm.Basic
import Mathlib.Data.List.Sort
import Mathlib.Data.String.Basic

/-!
# Lib — an ordered map as its list of entries

A map keyed by strings, given as its entries in the order of their keys.
Operations that only combine values do not look into them: they commute
with any map over the values that respects the combination.
-/

namespace GovFuzz.Lib

abbrev SortedMap (α : Type) := List (String × α)

namespace SortedMap

variable {α β : Type}

@[grind =] def get (map : SortedMap α) (key : String) : Option α :=
  (map.find? fun entry => entry.1 = key).map Prod.snd

@[grind =] def insert (key : String) (value : α) : SortedMap α → SortedMap α
  | [] => [(key, value)]
  | entry :: map =>
      if key < entry.1 then (key, value) :: entry :: map
      else if key = entry.1 then (key, value) :: map
      else entry :: insert key value map

@[grind =] def modify (key : String) (f : α → α) (map : SortedMap α) : SortedMap α :=
  map.map fun entry => if entry.1 = key then (entry.1, f entry.2) else entry

/-- Combine with what is there, or put the value there. -/
@[grind =] def upsert (merge : α → α → α) (key : String) (value : α) (map : SortedMap α) :
    SortedMap α :=
  match map.get key with
  | some _ => map.modify key fun existing => merge existing value
  | none => map.insert key value

@[grind =] def mapValues (f : α → β) (map : SortedMap α) : SortedMap β :=
  map.map fun entry => (entry.1, f entry.2)

theorem get_eq_none_iff {map : SortedMap α} {key : String} :
    map.get key = none ↔ key ∉ map.map Prod.fst := by
  simp only [get, Option.map_eq_none_iff, List.find?_eq_none, decide_eq_true_eq, List.mem_map,
    not_exists, not_and]

/-! ## Values are not looked into -/

theorem get_mapValues (f : α → β) (map : SortedMap α) (key : String) :
    (map.mapValues f).get key = (map.get key).map f := by
  simp only [get, mapValues, List.find?_map, Option.map_map]
  rfl

theorem mapValues_insert (f : α → β) (key : String) (value : α) (map : SortedMap α) :
    (map.insert key value).mapValues f = (map.mapValues f).insert key (f value) := by
  induction map with
  | nil => rfl
  | cons entry map ih =>
      simp only [mapValues, List.map_cons, insert] at ih ⊢
      split
      · rfl
      · split
        · rfl
        · rw [List.map_cons, ih]

theorem mapValues_modify (f : α → β) {key : String} {g : α → α} {h : β → β}
    (hcomm : ∀ a, f (g a) = h (f a)) (map : SortedMap α) :
    (map.modify key g).mapValues f = (map.mapValues f).modify key h := by
  simp only [mapValues, modify, List.map_map]
  refine List.map_congr_left fun entry _ => ?_
  simp only [Function.comp_apply]
  split
  · rw [hcomm]
  · rfl

theorem mapValues_upsert (f : α → β) {merge : α → α → α} {merge' : β → β → β}
    (hcomm : ∀ a b, f (merge a b) = merge' (f a) (f b)) (key : String) (value : α)
    (map : SortedMap α) :
    (map.upsert merge key value).mapValues f = (map.mapValues f).upsert merge' key (f value) := by
  simp only [upsert, get_mapValues]
  cases map.get key with
  | none => exact mapValues_insert f key value map
  | some _ => exact mapValues_modify f (fun a => hcomm a value) map

theorem forall_insert {P : String × α → Prop} {key : String} {value : α} {map : SortedMap α}
    (h : ∀ entry ∈ map, P entry) (hvalue : P (key, value)) :
    ∀ entry ∈ map.insert key value, P entry := by
  induction map with
  | nil => simpa [insert] using hvalue
  | cons entry map ih =>
      rw [List.forall_mem_cons] at h
      simp only [insert]
      split
      · exact List.forall_mem_cons.mpr ⟨hvalue, List.forall_mem_cons.mpr h⟩
      · split
        · exact List.forall_mem_cons.mpr ⟨hvalue, h.2⟩
        · exact List.forall_mem_cons.mpr ⟨h.1, ih h.2⟩

theorem forall_modify {P : String × α → Prop} {key : String} {f : α → α} {map : SortedMap α}
    (h : ∀ entry ∈ map, P entry) (hf : ∀ value, P (key, value) → P (key, f value)) :
    ∀ entry ∈ map.modify key f, P entry := by
  intro entry hentry
  obtain ⟨before, hbefore, rfl⟩ := List.mem_map.mp hentry
  split
  case isTrue heq =>
      obtain ⟨k, value⟩ := before
      obtain rfl : k = key := heq
      exact hf value (h _ hbefore)
  case isFalse => exact h before hbefore

/-- What the values have and the combination keeps. -/
theorem forall_upsert {P : String × α → Prop} {merge : α → α → α} {key : String} {value : α}
    {map : SortedMap α} (h : ∀ entry ∈ map, P entry) (hvalue : P (key, value))
    (hmerge : ∀ existing, P (key, existing) → P (key, merge existing value)) :
    ∀ entry ∈ map.upsert merge key value, P entry := by
  unfold upsert
  split
  · exact forall_modify h hmerge
  · exact forall_insert h hvalue

/-! ## Keys -/

theorem insert_perm {key : String} (value : α) {map : SortedMap α}
    (hfresh : key ∉ map.map Prod.fst) : (map.insert key value).Perm ((key, value) :: map) := by
  induction map with
  | nil => exact .refl _
  | cons entry map ih =>
      simp only [List.map_cons, List.mem_cons, not_or] at hfresh
      simp only [insert, if_neg hfresh.1]
      split
      · exact .refl _
      · exact ((ih hfresh.2).cons entry).trans (.swap _ _ _)

theorem keys_modify (key : String) (f : α → α) (map : SortedMap α) :
    (map.modify key f).map Prod.fst = map.map Prod.fst := by
  simp only [modify, List.map_map]
  refine List.map_congr_left fun entry _ => ?_
  simp only [Function.comp_apply]
  split <;> rfl

/-- Modifying the one entry of its key. -/
theorem modify_split {before after : SortedMap α} {key : String} {value : α} (f : α → α)
    (hnodup : ((before ++ (key, value) :: after).map Prod.fst).Nodup) :
    (before ++ (key, value) :: after).modify key f = before ++ (key, f value) :: after := by
  have hout : ∀ entry ∈ before ++ after, entry.1 ≠ key := by
    intro entry hentry heq
    rw [List.map_append, List.map_cons, List.nodup_middle] at hnodup
    refine (List.nodup_cons.mp hnodup).1 ?_
    rw [← List.map_append]
    exact List.mem_map.mpr ⟨entry, hentry, heq⟩
  have hkeep : ∀ part : SortedMap α, (∀ entry ∈ part, entry.1 ≠ key) →
      part.map (fun entry => if entry.1 = key then (entry.1, f entry.2) else entry) = part := by
    intro part hpart
    rw [List.map_congr_left fun entry hentry => if_neg (hpart entry hentry), List.map_id']
  simp only [modify, List.map_append, List.map_cons, if_true]
  rw [hkeep before fun entry hentry => hout entry (List.mem_append_left _ hentry),
    hkeep after fun entry hentry => hout entry (List.mem_append_right _ hentry)]

/-! ## Order -/

/-- The keys in their order. -/
@[grind =] def Sorted (map : SortedMap α) : Prop := (map.map Prod.fst).Pairwise (· < ·)

theorem Sorted.nodup {map : SortedMap α} (h : map.Sorted) : (map.map Prod.fst).Nodup :=
  h.imp fun hlt => ne_of_lt hlt

theorem Sorted.mapValues {map : SortedMap α} (h : map.Sorted) (f : α → β) :
    (map.mapValues f).Sorted := by
  rw [Sorted, SortedMap.mapValues, List.map_map]
  exact h

theorem Sorted.filter {map : SortedMap α} (h : map.Sorted) (p : String × α → Bool) :
    Sorted (map.filter p) :=
  h.sublist ((List.filter_sublist).map Prod.fst)

theorem Sorted.modify {map : SortedMap α} (h : map.Sorted) (key : String) (f : α → α) :
    (map.modify key f).Sorted := by
  rw [Sorted, keys_modify]
  exact h

theorem mem_keys_insert {map : SortedMap α} {key : String} {value : α} {k : String}
    (hk : k ∈ (map.insert key value).map Prod.fst) : k = key ∨ k ∈ map.map Prod.fst := by
  induction map with
  | nil => exact .inl (by simpa [insert] using hk)
  | cons entry map ih =>
      simp only [insert] at hk
      split at hk
      · simpa using hk
      · split at hk
        · rw [List.map_cons, List.mem_cons] at hk
          exact hk.imp id (List.mem_cons_of_mem _)
        · rw [List.map_cons, List.mem_cons] at hk ⊢
          rcases hk with hk | hk
          · exact .inr (.inl hk)
          · exact (ih hk).imp id .inr

theorem Sorted.insert {map : SortedMap α} (h : map.Sorted) (key : String) (value : α) :
    (map.insert key value).Sorted := by
  induction map with
  | nil => simp [Sorted, SortedMap.insert]
  | cons entry map ih =>
      have hcons := List.pairwise_cons.mp h
      simp only [SortedMap.insert]
      split
      case isTrue hlt =>
          refine List.pairwise_cons.mpr ⟨fun k hk => ?_, h⟩
          rcases List.mem_cons.mp hk with rfl | hk
          · exact hlt
          · exact lt_trans hlt (hcons.1 k hk)
      case isFalse hge =>
          split
          case isTrue heq =>
              refine List.pairwise_cons.mpr ⟨fun k hk => ?_, hcons.2⟩
              rw [heq]
              exact hcons.1 k hk
          case isFalse hne =>
              refine List.pairwise_cons.mpr ⟨fun k hk => ?_, ih hcons.2⟩
              rcases mem_keys_insert hk with rfl | hk
              · exact lt_of_le_of_ne (not_lt.mp hge) (Ne.symm hne)
              · exact hcons.1 k hk

theorem Sorted.upsert {map : SortedMap α} (h : map.Sorted) (merge : α → α → α) (key : String)
    (value : α) : (map.upsert merge key value).Sorted := by
  unfold SortedMap.upsert
  split
  · exact h.modify key _
  · exact h.insert key value

/-- Two maps with the same entries are the same. -/
theorem Sorted.ext {first second : SortedMap α} (hfirst : first.Sorted) (hsecond : second.Sorted)
    (h : ∀ entry, entry ∈ first ↔ entry ∈ second) : first = second := by
  have hperm : first.Perm second :=
    (List.perm_ext_iff_of_nodup hfirst.nodup.of_map hsecond.nodup.of_map).mpr h
  refine hperm.eq_of_pairwise ?_ (List.pairwise_map.mp hfirst) (List.pairwise_map.mp hsecond)
  intro a b _ _ hab hba
  exact absurd (lt_trans hab hba) (lt_irrefl _)

end SortedMap

end GovFuzz.Lib
