import Mathlib.Data.Finset.Card
import Mathlib.Data.Set.Basic

/-!
# Lib — counting and keeping what is new

Keys go into a set one after the other, and those that were not in it are
counted, up to a limit.  The set ends as the union and the count as its
growth; so neither depends on the order of the keys.

A loop that goes over ordered candidates and keeps, up to a limit, each that
is like none kept before gives the one list that keeps no two alike and has a
reason for every candidate it leaves out (`retained_iff`).
-/

namespace GovFuzz.Lib

variable {κ : Type} [DecidableEq κ]

/-- One key: the set and the count behind it. -/
def absorbKey (limit : Nat) (state : Finset κ × Nat) (key : κ) : Finset κ × Nat :=
  if key ∈ state.1 then state else (insert key state.1, min (state.2 + 1) limit)

def absorb (limit : Nat) (seen : Finset κ) (keys : List κ) : Finset κ × Nat :=
  keys.foldl (absorbKey limit) (seen, 0)

theorem absorbKey_fst (limit : Nat) (state : Finset κ × Nat) (key : κ) :
    (absorbKey limit state key).1 = insert key state.1 := by
  unfold absorbKey
  split
  · rename_i hmem
    exact (Finset.insert_eq_of_mem hmem).symm
  · rfl

theorem absorbKey_foldl_fst (limit : Nat) (keys : List κ) (state : Finset κ × Nat) :
    (keys.foldl (absorbKey limit) state).1 = state.1 ∪ keys.toFinset := by
  induction keys generalizing state with
  | nil => simp
  | cons key keys ih =>
      rw [List.foldl_cons, ih, absorbKey_fst, List.toFinset_cons, Finset.insert_union,
        Finset.union_insert]

/-- The count is `count` above what the set had grown by before. -/
theorem absorbKey_foldl_snd (limit : Nat) (keys : List κ) (seen : Finset κ) (count : Nat)
    (hcount : count ≤ limit) :
    (keys.foldl (absorbKey limit) (seen, count)).2
      = min (count + ((seen ∪ keys.toFinset).card - seen.card)) limit := by
  induction keys generalizing seen count with
  | nil => simp [hcount]
  | cons key keys ih =>
      rw [List.foldl_cons, absorbKey]
      by_cases hmem : key ∈ seen
      · have hunion : seen ∪ (key :: keys).toFinset = seen ∪ keys.toFinset := by
          rw [List.toFinset_cons, Finset.union_insert,
            Finset.insert_eq_of_mem (Finset.mem_union_left _ hmem)]
        rw [if_pos hmem, ih seen count hcount, hunion]
      · have hunion : seen ∪ (key :: keys).toFinset = insert key seen ∪ keys.toFinset := by
          rw [List.toFinset_cons, Finset.union_insert, Finset.insert_union]
        have hcard : (insert key seen).card = seen.card + 1 := Finset.card_insert_of_notMem hmem
        have hgrown : (insert key seen).card ≤ (insert key seen ∪ keys.toFinset).card :=
          Finset.card_le_card Finset.subset_union_left
        rw [if_neg hmem, ih _ _ (Nat.min_le_right _ _), hunion]
        simp only [hcard] at hgrown ⊢
        omega

theorem absorb_fst (limit : Nat) (seen : Finset κ) (keys : List κ) :
    (absorb limit seen keys).1 = seen ∪ keys.toFinset := absorbKey_foldl_fst ..

theorem absorb_snd (limit : Nat) (seen : Finset κ) (keys : List κ) :
    (absorb limit seen keys).2 = min ((seen ∪ keys.toFinset).card - seen.card) limit := by
  rw [absorb, absorbKey_foldl_snd limit keys seen 0 (Nat.zero_le _), Nat.zero_add]

theorem absorb_count_eq_zero {limit : Nat} (hlimit : 0 < limit) {seen : Finset κ}
    {keys : List κ} : (absorb limit seen keys).2 = 0 ↔ ∀ key ∈ keys, key ∈ seen := by
  have hgrown : seen.card ≤ (seen ∪ keys.toFinset).card :=
    Finset.card_le_card Finset.subset_union_left
  rw [absorb_snd]
  constructor
  · intro hzero key hkey
    have hcard : (seen ∪ keys.toFinset).card ≤ seen.card := by omega
    rw [Finset.eq_of_subset_of_card_le Finset.subset_union_left hcard]
    exact Finset.mem_union_right _ (List.mem_toFinset.mpr hkey)
  · intro hall
    have hsubset : keys.toFinset ⊆ seen := fun key hkey => hall key (List.mem_toFinset.mp hkey)
    rw [Finset.union_eq_left.mpr hsubset]
    omega

/-! ## Keeping what is like nothing kept -/

section Retained

variable {α : Type} (like : α → α → Bool) (limit : Nat)

/-- In their order, the candidates that are like none kept before, until
`limit` are kept; the limit is looked at behind a candidate, so the first one
is kept in any case. -/
def retain : List α → List α → List α
  | kept, [] => kept
  | kept, a :: rest =>
      if kept.any (like · a) then retain kept rest
      else if limit ≤ (kept ++ [a]).length then kept ++ [a]
      else retain (kept ++ [a]) rest

/-- What a selection of candidates is to be, in the order `before`. -/
structure Retained (before : α → α → Prop) (candidates : Set α) (kept : List α) : Prop where
  mem : ∀ a ∈ kept, a ∈ candidates
  ordered : kept.Pairwise before
  unlike : kept.Pairwise fun a b => like a b = false
  capped : kept.length ≤ max limit 1
  complete : ∀ a ∈ candidates, a ∉ kept →
    (∃ b ∈ kept, before b a ∧ like b a = true) ∨
      max limit 1 ≤ kept.length ∧ ∀ b ∈ kept, before b a

variable {like limit} {before : α → α → Prop}

/-- The loop, behind the candidates in `front` and with room left. -/
theorem retained_loop {front kept rest : List α} (hordered : (front ++ rest).Pairwise before)
    (h : Retained like limit before {a | a ∈ front} kept) (hroom : kept.length < max limit 1) :
    Retained like limit before {a | a ∈ front ++ rest} (retain like limit kept rest) := by
  induction rest generalizing front kept with
  | nil => simpa [retain] using h
  | cons a rest ih =>
      have hassoc : front ++ a :: rest = front ++ [a] ++ rest := by simp
      have hfront : ∀ b ∈ front, before b a := fun b hb =>
        (List.pairwise_append.mp hordered).2.2 b hb a List.mem_cons_self
      have hkept : ∀ b ∈ kept, before b a := fun b hb => hfront b (h.mem b hb)
      have hrest : ∀ c ∈ rest, before a c :=
        (List.pairwise_cons.mp (List.pairwise_append.mp hordered).2.1).1
      -- a candidate of the front that is not kept is like one that is
      have hlike : ∀ c ∈ front, c ∉ kept → ∃ b ∈ kept, before b c ∧ like b c = true := by
        intro c hc hnot
        rcases h.complete c hc hnot with hfound | ⟨hfull, -⟩
        · exact hfound
        · omega
      rw [hassoc] at hordered ⊢
      rw [retain]
      split
      case isTrue hany =>
        obtain ⟨b, hb, hba⟩ := List.any_eq_true.mp hany
        refine ih hordered ⟨fun c hc => ?_, h.ordered, h.unlike, h.capped, ?_⟩ hroom
        · exact List.mem_append_left _ (h.mem c hc)
        · intro c hc hnot
          rcases List.mem_append.mp hc with hc | hc
          · exact .inl (hlike c hc hnot)
          · obtain rfl := List.mem_singleton.mp hc
            exact .inl ⟨b, hb, hkept b hb, hba⟩
      case isFalse hany =>
        have hunlike : ∀ b ∈ kept, like b a = false := fun b hb =>
          Bool.eq_false_iff.mpr fun hba => hany (List.any_eq_true.mpr ⟨b, hb, hba⟩)
        have hgrown : Retained like limit before {c | c ∈ front ++ [a]} (kept ++ [a]) := by
          refine ⟨fun c hc => ?_, ?_, ?_, ?_, fun c hc hnot => ?_⟩
          · rcases List.mem_append.mp hc with hc | hc
            · exact List.mem_append_left _ (h.mem c hc)
            · exact List.mem_append_right _ hc
          · simpa [List.pairwise_append] using ⟨h.ordered, hkept⟩
          · simpa [List.pairwise_append] using ⟨h.unlike, hunlike⟩
          · rw [List.length_append, List.length_singleton]
            exact hroom
          · simp only [List.mem_append, List.mem_singleton, not_or] at hnot
            rcases List.mem_append.mp hc with hc | hc
            · obtain ⟨b, hb, hbc⟩ := hlike c hc hnot.1
              exact .inl ⟨b, List.mem_append_left _ hb, hbc⟩
            · exact absurd (List.mem_singleton.mp hc) hnot.2
        split
        case isTrue hfull =>
          refine ⟨fun c hc => List.mem_append_left _ (hgrown.mem c hc), hgrown.ordered,
            hgrown.unlike, hgrown.capped, fun c hc hnot => ?_⟩
          rcases List.mem_append.mp hc with hc | hc
          · exact hgrown.complete c hc hnot
          · refine .inr ⟨?_, fun b hb => ?_⟩
            · simp only [List.length_append, List.length_singleton] at hfull ⊢
              omega
            · exact (List.pairwise_append.mp hordered).2.2 b (hgrown.mem b hb) c hc
        case isFalse hmore =>
          exact ih hordered hgrown (by omega)

theorem retained_retain {l : List α} (hordered : l.Pairwise before) :
    Retained like limit before {a | a ∈ l} (retain like limit [] l) := by
  have hnil : Retained like limit before {a | a ∈ ([] : List α)} [] := by
    constructor <;> simp
  exact @retained_loop α like limit before [] [] l hordered hnil (by simp)

/-- Two that are kept, one before the other. -/
theorem Retained.unlike_of_before (hasymm : ∀ a b, before a b → ¬ before b a)
    {candidates : Set α} {kept : List α} (h : Retained like limit before candidates kept)
    {a b : α} (ha : a ∈ kept) (hb : b ∈ kept) (hba : before b a) : like b a = false := by
  obtain ⟨i, hi, rfl⟩ := List.getElem_of_mem ha
  obtain ⟨j, hj, rfl⟩ := List.getElem_of_mem hb
  rcases Nat.lt_trichotomy i j with hlt | rfl | hgt
  · exact absurd hba (hasymm _ _ (List.pairwise_iff_getElem.mp h.ordered i j hi hj hlt))
  · exact absurd hba (hasymm _ _ hba)
  · exact List.pairwise_iff_getElem.mp h.unlike j i hj hi hgt

theorem Retained.nodup (hasymm : ∀ a b, before a b → ¬ before b a) {candidates : Set α}
    {kept : List α} (h : Retained like limit before candidates kept) : kept.Nodup := by
  refine h.ordered.imp fun {a b} hab => ?_
  rintro rfl
  exact hasymm a a hab hab

/-- What one selection keeps, another keeps too, up to each place. -/
theorem Retained.subset_of_front (hasymm : ∀ a b, before a b → ¬ before b a)
    {l kept kept' : List α} (hordered : l.Pairwise before)
    (h : Retained like limit before {a | a ∈ l} kept)
    (h' : Retained like limit before {a | a ∈ l} kept') {front : List α} {a : α}
    {back : List α} (hl : l = front ++ a :: back)
    (hfront : ∀ b ∈ front, b ∈ kept ↔ b ∈ kept') (ha : a ∈ kept) : a ∈ kept' := by
  have hahead : ∀ b ∈ l, before b a → b ∈ front := by
    intro b hb hba
    rw [hl] at hb hordered
    have hbehind := (List.pairwise_cons.mp (List.pairwise_append.mp hordered).2.1).1
    rcases List.mem_append.mp hb with hb | hb
    · exact hb
    · rcases List.mem_cons.mp hb with rfl | hb
      · exact absurd hba (hasymm _ _ hba)
      · exact absurd hba (hasymm _ _ (hbehind b hb))
  by_contra hnot
  rcases h'.complete a (h.mem a ha) hnot with ⟨b, hb, hba, hlike⟩ | ⟨hfull, hall⟩
  · have hb' : b ∈ kept := (hfront b (hahead b (h'.mem b hb) hba)).mpr hb
    rw [h.unlike_of_before hasymm ha hb' hba] at hlike
    cases hlike
  · -- all that the other one keeps is kept here too, and `a` besides
    have hsub : a :: kept' ⊆ kept := by
      intro b hb
      rcases List.mem_cons.mp hb with rfl | hb
      · exact ha
      · exact (hfront b (hahead b (h'.mem b hb) (hall b hb))).mpr hb
    have hnodup : (a :: kept').Nodup := List.nodup_cons.mpr ⟨hnot, h'.nodup hasymm⟩
    have hlength := (List.subperm_of_subset hnodup hsub).length_le
    have hcapped := h.capped
    simp only [List.length_cons] at hlength
    omega

/-- **There is one selection**, that of the loop. -/
theorem retained_iff (hasymm : ∀ a b, before a b → ¬ before b a) {l : List α}
    (hordered : l.Pairwise before) {kept : List α} :
    Retained like limit before {a | a ∈ l} kept ↔ kept = retain like limit [] l := by
  constructor
  · intro h
    have h' : Retained like limit before {a | a ∈ l} (retain like limit [] l) :=
      retained_retain hordered
    have hfronts : ∀ front back, l = front ++ back →
        ∀ b ∈ front, b ∈ kept ↔ b ∈ retain like limit [] l := by
      intro front
      induction front using List.reverseRecOn with
      | nil => simp
      | append_singleton front a ih =>
          intro back hl b hb
          rw [List.append_assoc] at hl
          rcases List.mem_append.mp hb with hb | hb
          · exact ih _ hl b hb
          · obtain rfl := List.mem_singleton.mp hb
            have hfront := ih _ hl
            exact ⟨h.subset_of_front hasymm hordered h' hl hfront,
              h'.subset_of_front hasymm hordered h hl fun c hc => (hfront c hc).symm⟩
    have hsame : ∀ a, a ∈ kept ↔ a ∈ retain like limit [] l := by
      intro a
      constructor
      · exact fun ha => (hfronts l [] (by simp) a (h.mem a ha)).mp ha
      · exact fun ha => (hfronts l [] (by simp) a (h'.mem a ha)).mpr ha
    have hperm := (List.perm_ext_iff_of_nodup (h.nodup hasymm) (h'.nodup hasymm)).mpr hsame
    exact hperm.eq_of_pairwise (fun a b _ _ hab hba => absurd hba (hasymm _ _ hab)) h.ordered
      h'.ordered
  · rintro rfl
    exact retained_retain hordered

end Retained

end GovFuzz.Lib
