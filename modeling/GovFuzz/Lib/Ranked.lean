import GovFuzz.Lib.Decide
import Mathlib.Data.List.Induction
import Mathlib.Data.List.MinMax
import Mathlib.Data.Option.Basic

/-!
# Lib — merging by rank

Records are combined from the left.  Each has a rank, and an optional value
that the merge takes from the record of higher rank if that one has it, and
from the other otherwise.  The value of the whole then comes from the last
record with a value that outranks all before it, or, where no such record has
one, from the first with a value.  So it does not depend on the order exactly
when the highest record has a value or all values agree.
-/

namespace GovFuzz.Lib

variable {α β κ : Type}

/-- A nonempty list combined from the left. -/
def reduce (f : α → α → α) : List α → Option α
  | [] => none
  | a :: l => some (l.foldl f a)

@[simp] theorem reduce_nil (f : α → α → α) : reduce f [] = none := rfl

@[simp] theorem reduce_singleton (f : α → α → α) (a : α) : reduce f [a] = some a := rfl

theorem reduce_append_singleton {f : α → α → α} {l : List α} {a : α} (h : reduce f l = some a)
    (b : α) : reduce f (l ++ [b]) = some (f a b) := by
  cases l with
  | nil => cases h
  | cons first rest =>
      simp only [reduce, Option.some.injEq] at h
      simp [reduce, List.foldl_append, h]

theorem reduce_eq_none_iff {f : α → α → α} {l : List α} : reduce f l = none ↔ l = [] := by
  cases l with
  | nil => simp [reduce]
  | cons first rest => simp [reduce]

theorem exists_reduce (f : α → α → α) {l : List α} (h : l ≠ []) : ∃ a, reduce f l = some a := by
  cases l with
  | nil => exact absurd rfl h
  | cons first rest => exact ⟨_, rfl⟩

/-- What one element has and each one more keeps, the whole has. -/
theorem reduce_induction {f : α → α → α} {P : List α → α → Prop} (hsingle : ∀ a, P [a] a)
    (hstep : ∀ l a b, P l a → P (l ++ [b]) (f a b)) {l : List α} {a : α}
    (h : reduce f l = some a) : P l a := by
  induction l using List.reverseRecOn generalizing a with
  | nil => cases h
  | append_singleton l b ih =>
      cases hl : reduce f l with
      | none =>
          rw [reduce_eq_none_iff.mp hl] at h ⊢
          simp only [List.nil_append, reduce_singleton, Option.some.injEq] at h
          exact h ▸ hsingle b
      | some c =>
          rw [reduce_append_singleton hl, Option.some.injEq] at h
          exact h ▸ hstep l c b (ih hl)

/-! ## The one that supplies the value -/

section Supplier

variable (rank : κ → Nat)

/-- Those that outrank all before them. -/
def records (l : List κ) : List κ :=
  l.foldl (fun found k => if ∀ j ∈ found, rank j < rank k then found ++ [k] else found) []

/-- The last of the records that has a value, or the first that has one. -/
def supplier (has : κ → Bool) (l : List κ) : Option κ :=
  ((records rank l).filter has).getLast?.or (l.find? has)

variable {rank}

theorem records_append_singleton (l : List κ) (k : κ) :
    records rank (l ++ [k])
      = if ∀ j ∈ records rank l, rank j < rank k then records rank l ++ [k]
        else records rank l := by
  rw [records, List.foldl_append]
  rfl

/-- Outranking the records is outranking all. -/
theorem records_lt_iff (l : List κ) (n : Nat) :
    (∀ j ∈ records rank l, rank j < n) ↔ ∀ j ∈ l, rank j < n := by
  induction l using List.reverseRecOn with
  | nil => simp [records]
  | append_singleton l k ih =>
      rw [records_append_singleton, List.forall_mem_append, List.forall_mem_singleton, ← ih]
      split
      case isTrue hrecord => rw [List.forall_mem_append, List.forall_mem_singleton]
      case isFalse hno =>
          constructor
          · intro h
            refine ⟨h, ?_⟩
            push Not at hno
            obtain ⟨j, hj, hle⟩ := hno
            exact lt_of_le_of_lt hle (h j hj)
          · exact fun h => h.1

theorem supplier_append_record {has : κ → Bool} {l : List κ} {k : κ}
    (hrecord : ∀ j ∈ l, rank j < rank k) :
    supplier rank has (l ++ [k]) = if has k then some k else supplier rank has l := by
  have hrecord' := (records_lt_iff l (rank k)).mpr hrecord
  rw [supplier, records_append_singleton, if_pos hrecord', List.filter_append, List.find?_append,
    supplier]
  cases hhas : has k with
  | true => simp [hhas]
  | false => simp [hhas]

theorem supplier_append_below {has : κ → Bool} {l : List κ} {k : κ}
    (hbelow : ∃ j ∈ l, rank k ≤ rank j) :
    supplier rank has (l ++ [k])
      = (supplier rank has l).or (if has k then some k else none) := by
  have hno : ¬ ∀ j ∈ records rank l, rank j < rank k := by
    rw [records_lt_iff]
    intro h
    obtain ⟨j, hj, hle⟩ := hbelow
    exact absurd (h j hj) (by omega)
  rw [supplier, records_append_singleton, if_neg hno, List.find?_append, supplier, Option.or_assoc]
  cases hhas : has k with
  | true => simp [hhas]
  | false => simp [hhas]

theorem supplier_append_of_le {has : κ → Bool} {l rest : List κ} {k : κ}
    (hbelow : ∀ j ∈ rest, ∃ i ∈ l, rank j ≤ rank i) (h : supplier rank has l = some k) :
    supplier rank has (l ++ rest) = some k := by
  induction rest using List.reverseRecOn with
  | nil => rw [List.append_nil, h]
  | append_singleton rest j ih =>
      rw [List.forall_mem_append, List.forall_mem_singleton] at hbelow
      obtain ⟨i, hi, hle⟩ := hbelow.2
      rw [← List.append_assoc,
        supplier_append_below ⟨i, List.mem_append_left _ hi, hle⟩, ih hbelow.1, Option.some_or]

theorem supplier_spec {has : κ → Bool} {l : List κ} {k : κ} (h : supplier rank has l = some k) :
    k ∈ l ∧ has k = true := by
  induction l using List.reverseRecOn with
  | nil => simp [supplier, records] at h
  | append_singleton l j ih =>
      by_cases hrecord : ∀ i ∈ l, rank i < rank j
      · rw [supplier_append_record hrecord] at h
        split at h
        case isTrue hhas =>
            obtain rfl := Option.some.inj h
            exact ⟨by simp, hhas⟩
        case isFalse => exact ⟨List.mem_append_left _ (ih h).1, (ih h).2⟩
      · push Not at hrecord
        rw [supplier_append_below hrecord, Option.or_eq_some_iff] at h
        rcases h with h | ⟨-, h⟩
        · exact ⟨List.mem_append_left _ (ih h).1, (ih h).2⟩
        · split at h
          case isTrue hhas =>
              obtain rfl := Option.some.inj h
              exact ⟨by simp, hhas⟩
          case isFalse => cases h

theorem supplier_eq_none_iff {has : κ → Bool} {l : List κ} :
    supplier rank has l = none ↔ ∀ k ∈ l, has k = false := by
  constructor
  · intro h
    rw [supplier, Option.or_eq_none_iff, List.find?_eq_none] at h
    intro k hk
    simpa using h.2 k hk
  · intro h
    cases hsome : supplier rank has l with
    | none => rfl
    | some k =>
        obtain ⟨hk, hhas⟩ := supplier_spec hsome
        rw [h k hk] at hhas
        cases hhas

/-- What the highest record has, the merge takes from it. -/
theorem supplier_top {has : κ → Bool} {before after : List κ} {top : κ} (hhas : has top = true)
    (hbefore : ∀ k ∈ before, rank k < rank top) (hafter : ∀ k ∈ after, rank k ≤ rank top) :
    supplier rank has (before ++ top :: after) = some top := by
  rw [List.append_cons]
  refine supplier_append_of_le (fun k hk => ⟨top, by simp, hafter k hk⟩) ?_
  rw [supplier_append_record hbefore, if_pos hhas]

/-- What the highest record lacks is taken from whichever comes before it. -/
theorem supplier_before_top {has : κ → Bool} {top k : κ} {rest : List κ} (hhas : has k = true)
    (htop : has top = false) (hlt : rank k < rank top) (hrest : ∀ j ∈ rest, rank j ≤ rank top) :
    supplier rank has (k :: top :: rest) = some k := by
  have htwo : supplier rank has ([k] ++ [top]) = some k := by
    rw [supplier_append_record (by simpa using hlt), htop]
    simp [supplier, records, hhas]
  exact supplier_append_of_le (l := [k] ++ [top]) (fun j hj => ⟨top, by simp, hrest j hj⟩) htwo

theorem records_map (rank : β → Nat) (g : κ → β) (l : List κ) :
    records rank (l.map g) = (records (fun k => rank (g k)) l).map g := by
  induction l using List.reverseRecOn with
  | nil => rfl
  | append_singleton l k ih =>
      rw [List.map_append, List.map_singleton, records_append_singleton,
        records_append_singleton, ih]
      simp only [List.forall_mem_map]
      split
      · rw [List.map_append, List.map_singleton]
      · rfl

theorem supplier_map (rank : β → Nat) (has : β → Bool) (g : κ → β) (l : List κ) :
    supplier rank has (l.map g)
      = (supplier (fun k => rank (g k)) (fun k => has (g k)) l).map g := by
  simp only [supplier, records_map, List.filter_map, List.getLast?_map, List.find?_map,
    Option.map_or]
  rfl

end Supplier

/-! ## The value of the whole -/

/-- The value that the records of a list supply. -/
def supplied (rank : κ → Nat) (value : κ → Option β) (l : List κ) : Option β :=
  (supplier rank (fun k => (value k).isSome) l).bind value

theorem supplied_map (rank : β → Nat) (value : β → Option α) (g : κ → β) (l : List κ) :
    supplied rank value (l.map g) = supplied (fun k => rank (g k)) (fun k => value (g k)) l := by
  rw [supplied, supplier_map, Option.bind_map]
  rfl

/-- Only the ranks and the values count. -/
theorem supplied_congr {rank : κ → Nat} {rank' : α → Nat} {value : κ → Option β}
    {value' : α → Option β} {l : List κ} {l' : List α}
    (h : l.map (fun k => (rank k, value k)) = l'.map fun a => (rank' a, value' a)) :
    supplied rank value l = supplied rank' value' l' := by
  have hl := supplied_map Prod.fst Prod.snd (fun k => (rank k, value k)) l
  have hl' := supplied_map Prod.fst Prod.snd (fun a => (rank' a, value' a)) l'
  rw [← hl, ← hl', h]

/-- A merge that prefers the value of the higher rank. -/
structure RankedMerge (merge : α → α → α) (rank : α → Nat) (value : α → Option β) : Prop where
  rank_merge : ∀ a b, rank (merge a b) = max (rank a) (rank b)
  value_merge : ∀ a b, value (merge a b)
    = if rank a < rank b then (value b).or (value a) else (value a).or (value b)

theorem supplied_eq_none_iff {rank : κ → Nat} {value : κ → Option β} {l : List κ} :
    supplied rank value l = none ↔ ∀ k ∈ l, value k = none := by
  constructor
  · intro h
    have hnone : supplier rank (fun k => (value k).isSome) l = none := by
      cases hk : supplier rank (fun k => (value k).isSome) l with
      | none => rfl
      | some k =>
          rw [supplied, hk, Option.bind_some] at h
          have hhas := (supplier_spec hk).2
          rw [h] at hhas
          cases hhas
    intro k hk
    simpa using supplier_eq_none_iff.mp hnone k hk
  · intro h
    rw [supplied, supplier_eq_none_iff.mpr fun k hk => by rw [h k hk]; rfl, Option.bind_none]

theorem exists_of_supplied {rank : κ → Nat} {value : κ → Option β} {l : List κ} {v : β}
    (h : supplied rank value l = some v) : ∃ k ∈ l, value k = some v := by
  obtain ⟨k, hk, hv⟩ := Option.bind_eq_some_iff.mp h
  exact ⟨k, (supplier_spec hk).1, hv⟩

theorem if_isSome_bind (value : κ → Option β) (k : κ) :
    (if (value k).isSome then some k else none).bind value = value k := by
  cases h : value k with
  | none => simp
  | some v => simp [h]

theorem supplied_append_record {rank : κ → Nat} {value : κ → Option β} {l : List κ} {k : κ}
    (hrecord : ∀ j ∈ l, rank j < rank k) :
    supplied rank value (l ++ [k]) = (value k).or (supplied rank value l) := by
  rw [supplied, supplier_append_record hrecord]
  cases h : value k with
  | none => simp [supplied]
  | some v => simp [h]

theorem supplied_append_below {rank : κ → Nat} {value : κ → Option β} {l : List κ} {k : κ}
    (hbelow : ∃ j ∈ l, rank k ≤ rank j) :
    supplied rank value (l ++ [k]) = (supplied rank value l).or (value k) := by
  rw [supplied, supplier_append_below hbelow, supplied]
  cases h : supplier rank (fun k => (value k).isSome) l with
  | none =>
      rw [Option.none_or, Option.bind_none, Option.none_or, if_isSome_bind]
  | some j =>
      obtain ⟨v, hv⟩ := Option.isSome_iff_exists.mp (supplier_spec h).2
      simp [hv]

namespace RankedMerge

variable {merge : α → α → α} {rank : α → Nat} {value : α → Option β}

theorem rank_reduce (h : RankedMerge merge rank value) {l : List α} {a : α}
    (ha : reduce merge l = some a) (n : Nat) : rank a < n ↔ ∀ b ∈ l, rank b < n := by
  refine reduce_induction (P := fun l a => rank a < n ↔ ∀ b ∈ l, rank b < n) ?_ ?_ ha
  · simp
  · intro l a b ih
    rw [h.rank_merge, max_lt_iff, ih, List.forall_mem_append, List.forall_mem_singleton]

theorem value_reduce (h : RankedMerge merge rank value) {l : List α} {a : α}
    (ha : reduce merge l = some a) : value a = supplied rank value l := by
  suffices hboth : reduce merge l = some a ∧ value a = supplied rank value l from hboth.2
  refine reduce_induction
    (P := fun l a => reduce merge l = some a ∧ value a = supplied rank value l) ?_ ?_ ha
  · intro a
    refine ⟨rfl, ?_⟩
    rw [supplied, show [a] = [] ++ [a] from rfl, supplier_append_record (by simp)]
    simp [supplier, records, if_isSome_bind]
  · intro l a b ⟨hl, ih⟩
    refine ⟨reduce_append_singleton hl b, ?_⟩
    have hlt := h.rank_reduce hl (rank b)
    rw [h.value_merge]
    split
    case isTrue hwins => rw [supplied_append_record (hlt.mp hwins), ih]
    case isFalse hkept =>
        rw [hlt] at hkept
        push Not at hkept
        rw [supplied_append_below hkept, ih]

end RankedMerge

/-! ## Values that do not depend on the order -/

/-- The highest record has the value, or all values there are agree. -/
def Undisputed (rank : κ → Nat) (value : κ → Option β) (l : List κ) : Prop :=
  (∃ top ∈ l, (∀ k ∈ l, rank k ≤ rank top) ∧ (value top).isSome)
    ∨ ∀ a ∈ l, ∀ b ∈ l, (value a).isSome → (value b).isSome → value a = value b

section Order

variable {rank : κ → Nat} {value : κ → Option β} {l l' : List κ}

theorem supplied_top {top : κ} (hdistinct : l.Pairwise fun a b => rank a ≠ rank b)
    (hmem : top ∈ l) (htop : ∀ k ∈ l, rank k ≤ rank top) (hsome : (value top).isSome) :
    supplied rank value l = value top := by
  obtain ⟨before, after, rfl⟩ := List.append_of_mem hmem
  have hbefore : ∀ k ∈ before, rank k < rank top := by
    intro k hk
    have hne := (List.pairwise_append.mp hdistinct).2.2 k hk top List.mem_cons_self
    have hle := htop k (List.mem_append_left _ hk)
    omega
  have hafter : ∀ k ∈ after, rank k ≤ rank top :=
    fun k hk => htop k (List.mem_append_right _ (List.mem_cons_of_mem _ hk))
  have hsupplier : supplier rank (fun k => (value k).isSome) (before ++ top :: after) = some top :=
    supplier_top hsome hbefore hafter
  rw [supplied, hsupplier, Option.bind_some]

theorem supplied_agree (hperm : l'.Perm l)
    (hagree : ∀ a ∈ l, ∀ b ∈ l, (value a).isSome → (value b).isSome → value a = value b) :
    supplied rank value l' = supplied rank value l := by
  cases h : supplied rank value l with
  | none =>
      rw [supplied_eq_none_iff] at h ⊢
      exact fun k hk => h k (hperm.mem_iff.mp hk)
  | some v =>
      obtain ⟨a, ha, hv⟩ := exists_of_supplied h
      cases h' : supplied rank value l' with
      | none =>
          rw [supplied_eq_none_iff] at h'
          rw [h' a (hperm.mem_iff.mpr ha)] at hv
          cases hv
      | some v' =>
          obtain ⟨b, hb, hv'⟩ := exists_of_supplied h'
          rw [← hv, ← hv']
          exact hagree b (hperm.mem_iff.mp hb) a ha (by simp [hv']) (by simp [hv])

theorem exists_perm_cons_cons {a b : κ} (ha : a ∈ l) (hb : b ∈ l) (hne : a ≠ b) :
    ∃ rest, (a :: b :: rest).Perm l := by
  obtain ⟨before, after, rfl⟩ := List.append_of_mem ha
  have hb' : b ∈ before ++ after := by
    rw [List.perm_middle.mem_iff, List.mem_cons] at hb
    exact hb.resolve_left (Ne.symm hne)
  obtain ⟨before', after', hsplit⟩ := List.append_of_mem hb'
  refine ⟨before' ++ after', ?_⟩
  have hrest : (before' ++ b :: after').Perm (b :: (before' ++ after')) := List.perm_middle
  rw [← hsplit] at hrest
  exact (hrest.symm.cons a).trans List.perm_middle.symm

/-- With no two of one rank, the value is the same in every order exactly
when it is undisputed. -/
theorem undisputed_iff (hdistinct : l.Pairwise fun a b => rank a ≠ rank b) :
    Undisputed rank value l
      ↔ ∀ l' : List κ, l'.Perm l → supplied rank value l' = supplied rank value l := by
  have hsymm : ∀ l' : List κ, l'.Perm l → l'.Pairwise fun a b => rank a ≠ rank b :=
    fun l' hperm => hdistinct.perm hperm.symm fun h => Ne.symm h
  constructor
  · intro h l' hperm
    rcases h with ⟨top, hmem, htop, hsome⟩ | hagree
    · rw [supplied_top hdistinct hmem htop hsome]
      refine supplied_top (hsymm l' hperm) (hperm.mem_iff.mpr hmem) ?_ hsome
      exact fun k hk => htop k (hperm.mem_iff.mp hk)
    · exact supplied_agree hperm hagree
  · intro h
    by_contra hdisputed
    rw [Undisputed, not_or] at hdisputed
    obtain ⟨hlacks, hdiffer⟩ := hdisputed
    push Not at hdiffer
    obtain ⟨a, ha, b, hb, hasome, hbsome, hne⟩ := hdiffer
    cases hmax : l.argmax rank with
    | none =>
        rw [List.argmax_eq_none.mp hmax] at ha
        cases ha
    | some top =>
        have hmem := List.argmax_mem hmax
        have htop : ∀ k ∈ l, rank k ≤ rank top := fun k hk => List.le_of_mem_argmax hk hmax
        have hnone : value top = none := by
          by_contra hsome
          exact hlacks ⟨top, hmem, htop, Option.isSome_iff_ne_none.mpr hsome⟩
        -- whoever comes before the highest record supplies the value
        have hfirst : ∀ k ∈ l, (value k).isSome → value k = supplied rank value l := by
          intro k hk hsome
          have hktop : k ≠ top := by
            intro heq
            rw [heq, hnone] at hsome
            cases hsome
          obtain ⟨rest, hperm⟩ := exists_perm_cons_cons hk hmem hktop
          have hrank := List.rel_of_pairwise_cons (hsymm _ hperm) List.mem_cons_self
          have hlt : rank k < rank top := lt_of_le_of_ne (htop k hk) hrank
          have hrest : ∀ j ∈ rest, rank j ≤ rank top :=
            fun j hj => htop j (hperm.mem_iff.mp (by simp [hj]))
          have hlacks : (value top).isSome = false := by rw [hnone, Option.isSome_none]
          have hsupplier : supplier rank (fun k => (value k).isSome) (k :: top :: rest) = some k :=
            supplier_before_top hsome hlacks hlt hrest
          rw [← h _ hperm, supplied, hsupplier, Option.bind_some]
        exact hne ((hfirst a ha hasome).trans (hfirst b hb hbsome).symm)

end Order

end GovFuzz.Lib
