import GovFuzz.Sbom.Supply
import Mathlib.Algebra.Order.BigOperators.Group.List
import Mathlib.Algebra.GroupWithZero.Nat

/-!
# SBOM — merging and the order of discovery

An optional field that the winner lacks is kept from whatever was merged
before it, and the labels of a component are those of the first one found.
So three components of one key can end differently in different orders.  The
key that supplies a field is the same in every order; what it supplies is,
exactly when its own components leave the field undisputed.
-/

namespace GovFuzz.Sbom

open GovFuzz.Lib

/-! ## When the order does not matter -/

/-- No two components of a key have the same highest rung. -/
def DistinctRungs (components : List Component) : Prop :=
  components.Pairwise fun a b => keyOf a = keyOf b → rung a ≠ rung b

instance (components : List Component) : Decidable (DistinctRungs components) :=
  inferInstanceAs (Decidable (components.Pairwise _))

/-- Every order of discovery gives the same components. -/
def OrderFree (components : List Component) : Prop :=
  ∀ found : List Component, found.Perm components →
    (mergeByIdentity found).map Component.unordered
      = (mergeByIdentity components).map Component.unordered

/-- Whichever of the components is found first, it leaves the same labels
and as many of each harness. -/
def SameHead (members : List Component) : Prop :=
  ∀ a ∈ members, ∀ b ∈ members, a.labels = b.labels
    ∧ ∀ h, 1 < a.runtimeHarnesses.count h →
        b.runtimeHarnesses.count h = a.runtimeHarnesses.count h

/-- The components of a key are of one library. -/
def OneLibrary (components : List Component) : Prop :=
  ∀ a ∈ components, ∀ b ∈ components, keyOf a = keyOf b → identity a = identity b

/-- The components of a key are of one library; those of the first key that
ends in a component agree on what the first one found leaves; and those of
the key that supplies a field leave it undisputed. -/
structure OrderSettled (components : List Component) : Prop where
  library : OneLibrary components
  head : ∀ i, ∀ keys ∈ combinedKeys components i, ∀ key ∈ keys.head?,
    SameHead (keyGroup components key)
  field : ∀ i, ∀ keys ∈ combinedKeys components i, ∀ f,
    ∀ key ∈ supplier (keyRung components) (keyHas components f) keys,
      Undisputed rung f.of (keyGroup components key)

/-! ## The merged components of a library -/

abbrev Unordered := Component × Multiset Evidence × Multiset String

def outcome (components : List Component) (keys : List String) : Option Unordered :=
  (mergeKeys components keys).map Component.unordered

/-- The first key of a merged group is the one it stands under. -/
theorem head_mergedGroups {components : List Component} {entry : String × Group}
    (h : entry ∈ mergedGroups components) : entry.2.keys.head? = some entry.1 := by
  suffices hfold : ∀ rest map : SortedMap Group,
      (∀ e ∈ rest, e.2.keys.head? = some e.1) → (∀ e ∈ map, e.2.keys.head? = some e.1) →
      ∀ e ∈ rest.foldl (foldVersionless Group.component Group.fold) map,
        e.2.keys.head? = some e.1 by
    have hprimary : ∀ e ∈ primaryGroups components, e.2.keys.head? = some e.1 := by
      intro e he
      rw [keys_of_primary he]
      rfl
    exact hfold _ _ (fun e he => hprimary e (List.mem_filter.mp he).1)
      (fun e he => hprimary e (List.mem_filter.mp he).1) entry h
  intro rest
  induction rest with
  | nil => exact fun map _ hmap => hmap
  | cons versionless rest ih =>
      intro map hrest hmap
      rw [List.forall_mem_cons] at hrest
      refine ih _ hrest.2 ?_
      unfold foldVersionless
      split
      · refine SortedMap.forall_modify hmap fun g hg => ?_
        rw [Group.keys_fold]
        rw [List.head?_append, hg, Option.some_or]
      · exact SortedMap.forall_insert hmap hrest.1

theorem mem_outcomes_iff {components : List Component} {key : String} {v : Unordered} :
    (key, v) ∈ (mergedGroups components).mapValues (fun g => g.component.unordered)
      ↔ ∃ i, ∃ keys ∈ combinedKeys components i,
          keys.head? = some key ∧ outcome components keys = some v := by
  constructor
  · intro h
    obtain ⟨entry, hentry, heq⟩ := List.mem_map.mp h
    obtain ⟨rfl, rfl⟩ := Prod.mk.inj heq
    have hmem : entry.2 ∈ ofLibrary entry.2.identity (mergedGroups components) :=
      List.mem_filter.mpr ⟨List.mem_map_of_mem hentry, by simp⟩
    obtain ⟨hkeys, hkeyed⟩ := keys_mergedGroups components entry.2.identity
    refine ⟨_, entry.2.keys, hkeys.mem_iff.mp (List.mem_map_of_mem hmem),
      head_mergedGroups hentry, ?_⟩
    rw [outcome, hkeyed _ hmem, Option.map_some]
  · rintro ⟨i, keys, hkeys, hhead, hv⟩
    obtain ⟨hperm, hkeyed⟩ := keys_mergedGroups components i
    obtain ⟨g, hg, rfl⟩ := List.mem_map.mp (hperm.mem_iff.mpr hkeys)
    obtain ⟨entry, hentry, rfl⟩ := List.mem_map.mp (List.mem_filter.mp hg).1
    refine List.mem_map.mpr ⟨entry, hentry, ?_⟩
    rw [outcome, hkeyed _ hg, Option.map_some] at hv
    rw [head_mergedGroups hentry] at hhead
    exact Prod.ext (Option.some.inj hhead) (Option.some.inj hv)

theorem mergeByIdentity_unordered (components : List Component) :
    (mergeByIdentity components).map Component.unordered
      = (((mergedGroups components).mapValues fun g => g.component.unordered).map
          Prod.snd).mergeSort fun v w => componentLe v.1 w.1 := by
  have hsort : ∀ cs : List Component, (cs.mergeSort componentLe).map Component.unordered
      = (cs.map Component.unordered).mergeSort fun v w => componentLe v.1 w.1 :=
    fun cs => List.map_mergeSort fun _ _ _ _ => rfl
  rw [mergeByIdentity, ← mapValues_mergedGroups, hsort]
  simp only [SortedMap.mapValues, List.map_map, Function.comp_def]

theorem perm_outcomes (components : List Component) (i : String ⊕ String × String) :
    ((((mergeByIdentity components).map Component.unordered).filter fun v =>
        decide (identity v.1 = i)).map some).Perm
      ((combinedKeys components i).map (outcome components)) := by
  have hmerged := ((mergeByIdentity_perm components).map Component.unordered).filter
    fun v => decide (identity v.1 = i)
  refine (hmerged.map some).trans ?_
  obtain ⟨hperm, hkeyed⟩ := keys_mergedGroups components i
  refine List.Perm.trans ?_ (hperm.map (outcome components))
  have hall : (ofLibrary i (mergedGroups components)).map (fun g => outcome components g.keys)
      = (ofLibrary i (mergedGroups components)).map fun g => some g.component.unordered := by
    refine List.map_congr_left fun g hg => ?_
    rw [outcome, hkeyed g hg, Option.map_some]
  refine List.Perm.of_eq ?_
  rw [List.map_map, List.map_map (f := Group.keys)]
  refine Eq.trans ?_ hall.symm
  simp only [ofLibrary, List.filter_map, List.map_map]
  rfl

/-! ## What every order has in common -/

section Perm

variable {components found : List Component} {key : String}

theorem perm_keyGroup (h : found.Perm components) (key : String) :
    (keyGroup found key).Perm (keyGroup components key) :=
  h.filter _

theorem mem_keyGroup {c : Component} :
    c ∈ keyGroup components key ↔ c ∈ components ∧ keyOf c = key := by
  simp [keyGroup]

theorem keysOf_perm (h : found.Perm components) : keysOf found = keysOf components := by
  refine keysOf_eq_of_mem ?_ fun key => ?_
  · rw [← keys_primaryGroups]
    exact sorted_groupByKey _
  · rw [← keys_primaryGroups, mem_primaryKeys, (h.map keyOf).mem_iff]

theorem keyRung_perm (h : found.Perm components) : keyRung found = keyRung components :=
  funext fun key => ((perm_keyGroup h key).map rung).foldl_eq 0

theorem keyHas_perm (h : found.Perm components) (f : Field) :
    keyHas found f = keyHas components f :=
  funext fun key => (perm_keyGroup h key).any_eq

theorem distinct_keyGroup (hdistinct : DistinctRungs components) (key : String) :
    (keyGroup components key).Pairwise fun a b => rung a ≠ rung b := by
  have hfilter : (keyGroup components key).Pairwise fun a b =>
      keyOf a = keyOf b → rung a ≠ rung b := hdistinct.sublist List.filter_sublist
  refine hfilter.imp_of_mem fun ha hb h => h ?_
  rw [(mem_keyGroup.mp ha).2, (mem_keyGroup.mp hb).2]

theorem eq_of_rung_eq {members : List Component}
    (hdistinct : members.Pairwise fun a b => rung a ≠ rung b) {a b : Component}
    (ha : a ∈ members) (hb : b ∈ members) (h : rung a = rung b) : a = b :=
  List.inj_on_of_nodup_map (List.pairwise_map.mpr hdistinct) ha hb h

theorem leader_spec {members : List Component} {m : Component} (h : leader members = some m) :
    m ∈ members ∧ ∀ x ∈ members, rung x ≤ rung m := by
  refine ⟨List.mem_of_find?_eq_some h, fun x hx => ?_⟩
  have hall := List.find?_some h
  exact of_decide_eq_true (List.all_eq_true.mp hall x hx)

/-- The leader of distinct rungs does not depend on the order. -/
theorem leader_perm {members members' : List Component} (hperm : members'.Perm members)
    (hdistinct : members.Pairwise fun a b => rung a ≠ rung b) :
    leader members' = leader members := by
  have hsome : ∀ l l' : List Component, l.Perm l' → ∀ m, leader l = some m →
      ∃ m', leader l' = some m' := by
    intro l l' h m hm
    obtain ⟨hmem, hle⟩ := leader_spec hm
    rw [← Option.isSome_iff_exists, leader, List.find?_isSome]
    refine ⟨m, h.mem_iff.mp hmem, ?_⟩
    simpa using fun x hx => hle x (h.mem_iff.mpr hx)
  cases hm : leader members with
  | none =>
      cases hm' : leader members' with
      | none => rfl
      | some m' =>
          obtain ⟨m, hsome⟩ := hsome _ _ hperm m' hm'
          rw [hsome] at hm
          cases hm
  | some m =>
      obtain ⟨m', hm'⟩ := hsome _ _ hperm.symm m hm
      rw [hm', Option.some.injEq]
      obtain ⟨hmem, hle⟩ := leader_spec hm
      obtain ⟨hmem', hle'⟩ := leader_spec hm'
      refine eq_of_rung_eq hdistinct (hperm.mem_iff.mp hmem') hmem ?_
      have hfirst := hle m' (hperm.mem_iff.mp hmem')
      have hsecond := hle' m (hperm.mem_iff.mpr hmem)
      omega

theorem isPinned_perm (hdistinct : DistinctRungs components) (h : found.Perm components)
    (key : String) : isPinned found key = isPinned components key := by
  rw [isPinned, isPinned, leader_perm (perm_keyGroup h key) (distinct_keyGroup hdistinct key)]

theorem libraryOfKey_perm (hlibrary : OneLibrary components) (h : found.Perm components)
    (key : String) : libraryOfKey found key = libraryOfKey components key := by
  have hperm := perm_keyGroup h key
  rw [libraryOfKey, libraryOfKey]
  cases hgroup : keyGroup components key with
  | nil =>
      rw [hgroup, List.perm_nil] at hperm
      rw [hperm]
  | cons b rest =>
      cases hgroup' : keyGroup found key with
      | nil =>
          rw [hgroup', hgroup] at hperm
          cases List.nil_perm.mp hperm
      | cons a rest' =>
          have ha : a ∈ keyGroup components key := hperm.mem_iff.mp (by simp [hgroup'])
          have hb : b ∈ keyGroup components key := by simp [hgroup]
          rw [mem_keyGroup] at ha hb
          simp only [List.head?_cons, Option.map_some, Option.some.injEq]
          exact hlibrary a ha.1 b hb.1 (ha.2.trans hb.2.symm)

theorem combinedKeys_perm (hdistinct : DistinctRungs components) (hlibrary : OneLibrary components)
    (h : found.Perm components) (i : String ⊕ String × String) :
    combinedKeys found i = combinedKeys components i := by
  simp only [combinedKeys, pinnedKeys, unpinnedKeys, keysOf_perm h, isPinned_perm hdistinct h,
    libraryOfKey_perm hlibrary h]

end Perm

/-! ## The combined keys -/

theorem flatten_combine {α : Type} (pinned unpinned : List α) :
    (combine pinned unpinned).flatten = pinned ++ unpinned := by
  match pinned, unpinned with
  | [], [] => rfl
  | [], first :: rest => simp [combine]
  | [target], rest => simp [combine]
  | first :: second :: pinned, unpinned =>
      rw [combine, ← List.flatMap_def]
      simp

theorem ne_nil_of_mem_combine {α : Type} {pinned unpinned keys : List α}
    (h : keys ∈ combine pinned unpinned) : keys ≠ [] := by
  match pinned, unpinned with
  | [], [] => cases h
  | [], first :: rest =>
      rw [List.mem_singleton.mp h]
      exact List.cons_ne_nil _ _
  | [target], rest =>
      rw [List.mem_singleton.mp h]
      exact List.cons_ne_nil _ _
  | first :: second :: pinned, unpinned =>
      obtain ⟨key, -, rfl⟩ := List.mem_map.mp h
      exact List.cons_ne_nil _ _

section Combined

variable {components : List Component} {i : String ⊕ String × String} {keys : List String}

theorem mem_keysOf_of_combined (h : keys ∈ combinedKeys components i) :
    ∀ key ∈ keys, key ∈ keysOf components := by
  intro key hkey
  have hmem : key ∈ (combinedKeys components i).flatten := List.mem_flatten_of_mem h hkey
  rw [combinedKeys, flatten_combine, List.mem_append] at hmem
  exact hmem.elim (fun h => (List.mem_filter.mp h).1) fun h => (List.mem_filter.mp h).1

theorem nodup_keysOf (components : List Component) : (keysOf components).Nodup := by
  rw [← keys_primaryGroups]
  exact (grouped_primaryGroups components).nodup

theorem nodup_flatten_combinedKeys (components : List Component) (i : String ⊕ String × String) :
    (combinedKeys components i).flatten.Nodup := by
  have hnodup := nodup_keysOf components
  rw [combinedKeys, flatten_combine]
  refine List.nodup_append.mpr ⟨hnodup.filter _, hnodup.filter _, ?_⟩
  intro a ha b hb heq
  have hpinned := (List.mem_filter.mp ha).2
  have hunpinned := (List.mem_filter.mp hb).2
  rw [heq] at hpinned
  simp only [Bool.and_eq_true, Bool.not_eq_true'] at hpinned hunpinned
  rw [hpinned.1] at hunpinned
  cases hunpinned.1

theorem exists_outcome (h : keys ∈ combinedKeys components i) :
    ∃ c, mergeKeys components keys = some c :=
  exists_mergeKeys (mem_keysOf_of_combined h) (ne_nil_of_mem_combine h)

end Combined

/-! ## A settled input -/

theorem harnessCount_of_le_one (h : String) {first : Component} (rest : List Component)
    (hcount : first.runtimeHarnesses.count h ≤ 1) :
    harnessCount h (first :: rest)
      = if h ∈ (first :: rest).flatMap Component.runtimeHarnesses then 1 else 0 := by
  rw [harnessCount_cons, List.flatMap_cons]
  by_cases hfirst : h ∈ first.runtimeHarnesses
  · have hpos := List.count_pos_iff.mpr hfirst
    rw [if_pos hfirst, if_pos (List.mem_append_left _ hfirst)]
    omega
  · simp only [List.mem_append, hfirst, false_or, if_false]

theorem harnessCount_of_one_lt (h : String) {first : Component} (rest : List Component)
    (hcount : 1 < first.runtimeHarnesses.count h) :
    harnessCount h (first :: rest) = first.runtimeHarnesses.count h := by
  rw [harnessCount_cons, if_pos (List.count_pos_iff.mp (by omega))]

theorem harnessCount_perm (h : String) {a b : Component} {rest rest' : List Component}
    (hperm : (a :: rest).Perm (b :: rest'))
    (hab : 1 < a.runtimeHarnesses.count h → b.runtimeHarnesses.count h = a.runtimeHarnesses.count h)
    (hba : 1 < b.runtimeHarnesses.count h →
      a.runtimeHarnesses.count h = b.runtimeHarnesses.count h) :
    harnessCount h (a :: rest) = harnessCount h (b :: rest') := by
  by_cases ha : 1 < a.runtimeHarnesses.count h
  · have heq := hab ha
    rw [harnessCount_of_one_lt h rest ha, harnessCount_of_one_lt h rest' (by omega), heq]
  · have hb : ¬ 1 < b.runtimeHarnesses.count h := by
      intro hb
      have heq := hba hb
      omega
    rw [harnessCount_of_le_one h rest (by omega), harnessCount_of_le_one h rest' (by omega)]
    simp only [(hperm.flatMap_right Component.runtimeHarnesses).mem_iff]

section Settled

variable {components found : List Component} {i : String ⊕ String × String} {keys : List String}
  {c : Component}

theorem isSome_supplied (components : List Component) (f : Field) (key : String) :
    (supplied rung f.of (keyGroup components key)).isSome = keyHas components f key := by
  rw [Bool.eq_iff_iff, Option.isSome_iff_ne_none, Ne, supplied_eq_none_iff, keyHas,
    List.any_eq_true]
  push Not
  simp only [Option.isSome_iff_ne_none]

/-- A field comes from the key that supplies it. -/
theorem field_mergeKeys (hkeys : ∀ key ∈ keys, key ∈ keysOf components) (f : Field)
    (h : mergeKeys components keys = some c) :
    f.of c = (supplier (keyRung components) (keyHas components f) keys).bind
      fun key => supplied rung f.of (keyGroup components key) := by
  rw [view_mergeKeys (rankedMerge_field f) hkeys h, supplied]
  simp only [isSome_supplied]

theorem pin_keyGroup (hdistinct : DistinctRungs components) (hperm : found.Perm components)
    (key : String) :
    supplied rung Component.pin (keyGroup found key)
      = supplied rung Component.pin (keyGroup components key) := by
  refine (undisputed_iff (distinct_keyGroup hdistinct key)).mp ?_ _ (perm_keyGroup hperm key)
  cases hmax : (keyGroup components key).argmax rung with
  | none =>
      rw [List.argmax_eq_none.mp hmax]
      exact .inr (by simp)
  | some top =>
      exact .inl ⟨top, List.argmax_mem hmax, fun k hk => List.le_of_mem_argmax hk hmax, rfl⟩

/-- The outcome of a merged group does not depend on the order in which its components were
found. -/
theorem outcome_perm (hdistinct : DistinctRungs components) (hsettled : OrderSettled components)
    (hperm : found.Perm components) (hmem : keys ∈ combinedKeys components i) :
    outcome found keys = outcome components keys := by
  have hkeys := mem_keysOf_of_combined hmem
  have hkeys' : ∀ key ∈ keys, key ∈ keysOf found := by
    rw [keysOf_perm hperm]
    exact hkeys
  have hne : keys ≠ [] := ne_nil_of_mem_combine hmem
  obtain ⟨c, hc⟩ := exists_mergeKeys hkeys hne
  obtain ⟨c', hc'⟩ := exists_mergeKeys hkeys' hne
  obtain ⟨key, rest, rfl⟩ := List.exists_cons_of_ne_nil hne
  have hgroup := perm_keyGroup hperm key
  have hhead := hsettled.head i _ hmem key rfl
  -- the component found first in each order
  obtain ⟨a, others, ha⟩ := List.exists_cons_of_ne_nil (keyGroup_ne_nil (hkeys' key (by simp)))
  obtain ⟨b, others', hb⟩ := List.exists_cons_of_ne_nil (keyGroup_ne_nil (hkeys key (by simp)))
  have hamem : a ∈ keyGroup components key := hgroup.mem_iff.mp (by simp [ha])
  have hbmem : b ∈ keyGroup components key := by simp [hb]
  have hall : ((key :: rest).flatMap (keyGroup found)).Perm
      ((key :: rest).flatMap (keyGroup components)) :=
    List.Perm.flatMap_left _ fun k _ => perm_keyGroup hperm k
  rw [outcome, outcome, hc, hc', Option.map_some, Option.map_some, Option.some.injEq,
    unordered_eq_iff]
  refine ⟨?_, ?_, fun f => ?_, ?_, ?_⟩
  · have hlabels := labels_mergeKeys hkeys hc rfl
    have hlabels' := labels_mergeKeys hkeys' hc' rfl
    rw [hb, List.head?_cons, Option.map_some, Option.some.injEq] at hlabels
    rw [ha, List.head?_cons, Option.map_some, Option.some.injEq] at hlabels'
    rw [← hlabels, ← hlabels']
    exact (hhead a hamem b hbmem).1
  · rw [view_mergeKeys rankedMerge_pin hkeys hc, view_mergeKeys rankedMerge_pin hkeys' hc',
      keyRung_perm hperm]
    simp only [pin_keyGroup hdistinct hperm]
  · rw [field_mergeKeys hkeys f hc, field_mergeKeys hkeys' f hc', keyRung_perm hperm,
      keyHas_perm hperm]
    cases hsupplier : supplier (keyRung components) (keyHas components f) (key :: rest) with
    | none => rfl
    | some k =>
        have hundisputed := hsettled.field i _ hmem f k hsupplier
        exact (undisputed_iff (distinct_keyGroup hdistinct k)).mp hundisputed _
          (perm_keyGroup hperm k)
  · rw [evidence_mergeKeys hkeys hc, evidence_mergeKeys hkeys' hc']
    exact List.Perm.flatMap_left _ fun k _ => (perm_keyGroup hperm k).flatMap_right _
  · rw [List.perm_iff_count]
    intro h
    rw [count_mergeKeys h hkeys hc, count_mergeKeys h hkeys' hc']
    rw [List.flatMap_cons, List.flatMap_cons, ha, hb] at hall ⊢
    exact harnessCount_perm h hall (fun hlt => (hhead a hamem b hbmem).2 h hlt)
      (fun hlt => (hhead b hbmem a hamem).2 h hlt)

theorem orderFree_of_settled (hdistinct : DistinctRungs components)
    (hsettled : OrderSettled components) : OrderFree components := by
  intro found hperm
  have hsame : (mergedGroups found).mapValues (fun g => g.component.unordered)
      = (mergedGroups components).mapValues fun g => g.component.unordered := by
    refine SortedMap.Sorted.ext ((sorted_mergedGroups _).mapValues _)
      ((sorted_mergedGroups _).mapValues _) fun entry => ?_
    rw [mem_outcomes_iff, mem_outcomes_iff]
    refine exists_congr fun i => ?_
    rw [combinedKeys_perm hdistinct hsettled.library hperm]
    refine exists_congr fun keys => and_congr_right fun hmem => ?_
    rw [outcome_perm hdistinct hsettled hperm hmem]
  rw [mergeByIdentity_unordered, mergeByIdentity_unordered, hsame]

end Settled

/-! ## One key in another order -/

/-- The components of a key found before all others, in the given order. -/
def reorder (components : List Component) (key : String) (members : List Component) :
    List Component :=
  members ++ components.filter fun c => decide (keyOf c ≠ key)

section Reorder

variable {components members : List Component} {key : String}

theorem reorder_perm (h : members.Perm (keyGroup components key)) :
    (reorder components key members).Perm components := by
  refine (h.append_right _).trans ?_
  have hsplit := List.filter_append_perm (fun c => decide (keyOf c = key)) components
  simpa [keyGroup] using hsplit

theorem keyGroup_reorder (h : members.Perm (keyGroup components key)) :
    keyGroup (reorder components key members) key = members := by
  have hall : ∀ c ∈ members, keyOf c = key :=
    fun c hc => (mem_keyGroup.mp (h.mem_iff.mp hc)).2
  rw [keyGroup, reorder, List.filter_append, List.filter_filter, List.filter_eq_self.mpr]
  · simp
  · exact fun c hc => decide_eq_true (hall c hc)

theorem keyGroup_reorder_of_ne (h : members.Perm (keyGroup components key)) {other : String}
    (hne : other ≠ key) :
    keyGroup (reorder components key members) other = keyGroup components other := by
  have hnone : members.filter (fun c => decide (keyOf c = other)) = [] := by
    rw [List.filter_eq_nil_iff]
    intro c hc heq
    have hkey := (mem_keyGroup.mp (h.mem_iff.mp hc)).2
    exact hne ((of_decide_eq_true heq).symm.trans hkey)
  rw [keyGroup, reorder, List.filter_append, hnone, List.nil_append, List.filter_filter, keyGroup]
  refine List.filter_congr fun c _ => ?_
  by_cases heq : keyOf c = other
  · simp [heq, hne]
  · simp [heq]

end Reorder

/-! ## The evidence of a library -/

def keyEvidence (components : List Component) (key : String) : Nat :=
  ((keyGroup components key).flatMap Component.evidence).length

/-- How much evidence the components of a library have. -/
def libraryEvidence (components : List Component) (i : String ⊕ String × String) : Nat :=
  ((keysOf components).map fun key =>
    if libraryOfKey components key = some i then keyEvidence components key else 0).sum

def outcomeEvidence (v : Option Unordered) : Nat := (v.map fun u => u.2.1.card).getD 0

theorem sum_filter_append {α : Type} (p q : α → Bool) (w : α → Nat) (l : List α) :
    (((l.filter fun a => p a && q a) ++ l.filter fun a => !p a && q a).map w).sum
      = (l.map fun a => if q a then w a else 0).sum := by
  induction l with
  | nil => rfl
  | cons a l ih =>
      rw [List.map_append, List.sum_append] at ih ⊢
      cases hp : p a with
      | true =>
          cases hq : q a with
          | true =>
              simp only [List.filter_cons, hp, hq, Bool.and_self, Bool.not_true, Bool.false_and,
                if_true, Bool.false_eq_true, if_false, List.map_cons, List.sum_cons]
              omega
          | false =>
              simp only [List.filter_cons, hp, hq, Bool.and_false, Bool.false_eq_true, if_false,
                List.map_cons, List.sum_cons]
              omega
      | false =>
          cases hq : q a with
          | true =>
              simp only [List.filter_cons, hp, hq, Bool.and_self, Bool.not_false, Bool.false_and,
                if_true, Bool.false_eq_true, if_false, List.map_cons, List.sum_cons]
              omega
          | false =>
              simp only [List.filter_cons, hp, hq, Bool.and_false, Bool.false_eq_true, if_false,
                List.map_cons, List.sum_cons]
              omega

theorem sum_outcomeEvidence (components : List Component) (i : String ⊕ String × String) :
    (((combinedKeys components i).map (outcome components)).map outcomeEvidence).sum
      = libraryEvidence components i := by
  have hkeys : ∀ keys ∈ combinedKeys components i,
      outcomeEvidence (outcome components keys) = (keys.map (keyEvidence components)).sum := by
    intro keys hmem
    obtain ⟨c, hc⟩ := exists_outcome hmem
    have hevidence := evidence_mergeKeys (mem_keysOf_of_combined hmem) hc
    rw [outcome, hc, Option.map_some]
    show c.evidence.length = _
    rw [hevidence, List.length_flatMap]
    rfl
  rw [List.map_map, Function.comp_def, List.map_congr_left hkeys, libraryEvidence]
  have hsum := List.sum_flatten (l := (combinedKeys components i).map fun keys =>
    keys.map (keyEvidence components))
  rw [← List.map_flatten, List.map_map, Function.comp_def] at hsum
  rw [← hsum, combinedKeys, flatten_combine, pinnedKeys, unpinnedKeys, sum_filter_append]
  simp only [decide_eq_true_eq]

/-! ## What an order-free input has settled -/

section Necessary

variable {components found : List Component} {i : String ⊕ String × String}

theorem perm_outcomes_of_orderFree (horder : OrderFree components) (hperm : found.Perm components)
    (i : String ⊕ String × String) :
    ((combinedKeys found i).map (outcome found)).Perm
      ((combinedKeys components i).map (outcome components)) := by
  have hfound := perm_outcomes found i
  rw [horder found hperm] at hfound
  exact hfound.symm.trans (perm_outcomes components i)

theorem keyEvidence_pos {key : String} {a b : Component} (ha : a ∈ keyGroup components key)
    (hb : b ∈ keyGroup components key) (hne : rung a ≠ rung b) :
    0 < keyEvidence components key := by
  rw [keyEvidence, List.length_pos_iff, Ne, List.flatMap_eq_nil_iff]
  intro hnone
  refine hne ?_
  rw [rung, rung, hnone a ha, hnone b hb]

/-- A key of two libraries takes its evidence to that of whichever component
is found first. -/
theorem oneLibrary_of_orderFree (hdistinct : DistinctRungs components)
    (horder : OrderFree components) : OneLibrary components := by
  intro a ha b hb hkey
  by_contra hne
  have hamem : a ∈ keyGroup components (keyOf a) := mem_keyGroup.mpr ⟨ha, rfl⟩
  have hbmem : b ∈ keyGroup components (keyOf a) := mem_keyGroup.mpr ⟨hb, hkey.symm⟩
  obtain ⟨rest, hperm⟩ := exists_perm_cons_cons hamem hbmem fun heq => hne (heq ▸ rfl)
  have hperm' : (b :: a :: rest).Perm (keyGroup components (keyOf a)) :=
    (List.Perm.swap a b rest).trans hperm
  have hrung : rung a ≠ rung b :=
    List.rel_of_pairwise_cons
      ((distinct_keyGroup hdistinct (keyOf a)).perm hperm.symm fun h => Ne.symm h)
      List.mem_cons_self
  -- whichever of the two is found first, the library of `a` has the same evidence
  have hsame : libraryEvidence (reorder components (keyOf a) (a :: b :: rest)) (identity a)
      = libraryEvidence (reorder components (keyOf a) (b :: a :: rest)) (identity a) := by
    rw [← sum_outcomeEvidence, ← sum_outcomeEvidence]
    have hfirst := perm_outcomes_of_orderFree horder (reorder_perm hperm) (identity a)
    have hsecond := perm_outcomes_of_orderFree horder (reorder_perm hperm') (identity a)
    exact ((hfirst.trans hsecond.symm).map outcomeEvidence).sum_eq
  have hgroup := keyGroup_reorder hperm
  have hgroup' := keyGroup_reorder hperm'
  -- but with `b` in front their key counts for the library of `b`
  refine absurd hsame (ne_of_gt ?_)
  rw [libraryEvidence, libraryEvidence, keysOf_perm (reorder_perm hperm),
    keysOf_perm (reorder_perm hperm')]
  refine List.sum_lt_sum _ _ (fun k _ => ?_) ⟨keyOf a, ?_, ?_⟩
  · by_cases hk : k = keyOf a
    · rw [hk, libraryOfKey, hgroup', List.head?_cons, Option.map_some, if_neg]
      · exact Nat.zero_le _
      · exact fun heq => hne (Option.some.inj heq).symm
    · rw [libraryOfKey, libraryOfKey, keyEvidence, keyEvidence, keyGroup_reorder_of_ne hperm hk,
        keyGroup_reorder_of_ne hperm' hk]
  · rw [← keys_primaryGroups, mem_primaryKeys]
    exact List.mem_map_of_mem ha
  · rw [libraryOfKey, hgroup', List.head?_cons, Option.map_some, if_neg, libraryOfKey, hgroup,
      List.head?_cons, Option.map_some, if_pos rfl]
    · refine keyEvidence_pos ?_ ?_ hrung
      · rw [hgroup]
        simp
      · rw [hgroup]
        simp
    · exact fun heq => hne (Option.some.inj heq).symm

/-- A key in another order changes no component but its own, and that one
neither. -/
theorem outcome_reorder (hdistinct : DistinctRungs components) (horder : OrderFree components)
    {keys : List String} (hmem : keys ∈ combinedKeys components i) {key : String}
    (hkey : key ∈ keys) {members : List Component}
    (hperm : members.Perm (keyGroup components key)) :
    outcome (reorder components key members) keys = outcome components keys := by
  have hreorder := reorder_perm hperm
  have hsame := perm_outcomes_of_orderFree horder hreorder i
  rw [combinedKeys_perm hdistinct (oneLibrary_of_orderFree hdistinct horder) hreorder] at hsame
  have hnodup := nodup_flatten_combinedKeys components i
  obtain ⟨before, after, hsplit⟩ := List.append_of_mem hmem
  rw [hsplit] at hsame hnodup
  have hothers : ∀ other ∈ before ++ after,
      outcome (reorder components key members) other = outcome components other := by
    intro other hother
    have hout : key ∉ other := by
      intro hin
      rw [(List.perm_middle.flatten).nodup_iff, List.flatten_cons] at hnodup
      exact (List.nodup_append.mp hnodup).2.2 key hkey key (List.mem_flatten_of_mem hother hin) rfl
    have hgroups : ∀ k ∈ other,
        keyGroup (reorder components key members) k = keyGroup components k :=
      fun k hk => keyGroup_reorder_of_ne hperm fun heq => hout (heq ▸ hk)
    have hmerged : mergedComponents (reorder components key members) other
        = mergedComponents components other :=
      List.filterMap_congr fun k hk => by rw [hgroups k hk]
    rw [outcome, outcome, mergeKeys, mergeKeys, hmerged]
  have hcons := ((List.perm_middle.map (outcome (reorder components key members))).symm.trans
    hsame).trans (List.perm_middle.map (outcome components))
  rw [List.map_cons, List.map_cons, List.map_congr_left hothers] at hcons
  have hcancel := Multiset.coe_eq_coe.mpr hcons
  rw [← Multiset.cons_coe, ← Multiset.cons_coe] at hcancel
  exact (Multiset.cons_inj_left _).mp hcancel

theorem mergeKeys_reorder (hdistinct : DistinctRungs components) (horder : OrderFree components)
    {keys : List String} (hmem : keys ∈ combinedKeys components i) {key : String}
    (hkey : key ∈ keys) {members : List Component}
    (hperm : members.Perm (keyGroup components key)) {c : Component}
    (hc : mergeKeys components keys = some c) :
    ∃ c', mergeKeys (reorder components key members) keys = some c'
      ∧ c'.unordered = c.unordered := by
  have houtcome := outcome_reorder hdistinct horder hmem hkey hperm
  rw [outcome, outcome, hc, Option.map_some, Option.map_eq_some_iff] at houtcome
  exact houtcome

/-- Where the order of discovery does not matter, whichever component of a leading key is
found first leaves the same. -/
theorem sameHead_of_orderFree (hdistinct : DistinctRungs components) (horder : OrderFree components)
    {keys : List String} (hmem : keys ∈ combinedKeys components i) {key : String}
    (hhead : keys.head? = some key) : SameHead (keyGroup components key) := by
  obtain ⟨c, hc⟩ := exists_outcome hmem
  obtain ⟨first, rest, rfl⟩ := List.exists_cons_of_ne_nil (ne_nil_of_mem_combine hmem)
  rw [List.head?_cons, Option.some.injEq] at hhead
  rw [hhead] at hmem hc
  have hkeys := mem_keysOf_of_combined hmem
  -- the component found first leaves its labels and its harnesses
  have hfirst : ∀ a ∈ keyGroup components key, a.labels = c.labels
      ∧ ∀ h, ∃ others, harnessCount h (a :: others) = c.runtimeHarnesses.count h := by
    intro a ha
    obtain ⟨before, after, hsplit⟩ := List.append_of_mem ha
    have hperm : (a :: (before ++ after)).Perm (keyGroup components key) := by
      rw [hsplit]
      exact List.perm_middle.symm
    obtain ⟨c', hc', hsame⟩ := mergeKeys_reorder hdistinct horder hmem List.mem_cons_self hperm hc
    have hkeys' : ∀ k ∈ key :: rest,
        k ∈ keysOf (reorder components key (a :: (before ++ after))) := by
      rw [keysOf_perm (reorder_perm hperm)]
      exact hkeys
    obtain ⟨hlabels, -, -, -, hharnesses⟩ := (unordered_eq_iff _ _).mp hsame
    have hgroup := keyGroup_reorder hperm
    refine ⟨?_, fun h => ?_⟩
    · have hc'labels := labels_mergeKeys hkeys' hc' rfl
      rw [hgroup, List.head?_cons, Option.map_some, Option.some.injEq] at hc'labels
      rw [hc'labels, hlabels]
    · have hcount := count_mergeKeys h hkeys' hc'
      rw [hharnesses.count_eq, List.flatMap_cons, hgroup, List.cons_append] at hcount
      exact ⟨_, hcount.symm⟩
  intro a ha b hb
  refine ⟨(hfirst a ha).1.trans (hfirst b hb).1.symm, fun h hlt => ?_⟩
  obtain ⟨others, hothers⟩ := (hfirst a ha).2 h
  obtain ⟨others', hothers'⟩ := (hfirst b hb).2 h
  rw [harnessCount_of_one_lt h others hlt] at hothers
  by_cases hb1 : 1 < b.runtimeHarnesses.count h
  · rw [harnessCount_of_one_lt h others' hb1] at hothers'
    omega
  · rw [harnessCount_of_le_one h others' (by omega)] at hothers'
    split at hothers'
    case isTrue => omega
    case isFalse => omega

theorem undisputed_of_orderFree (hdistinct : DistinctRungs components)
    (horder : OrderFree components) {keys : List String}
    (hmem : keys ∈ combinedKeys components i) {f : Field} {key : String}
    (hsupplier : supplier (keyRung components) (keyHas components f) keys = some key) :
    Undisputed rung f.of (keyGroup components key) := by
  obtain ⟨c, hc⟩ := exists_outcome hmem
  have hkeys := mem_keysOf_of_combined hmem
  refine (undisputed_iff (distinct_keyGroup hdistinct key)).mpr fun members hperm => ?_
  obtain ⟨c', hc', hsame⟩ :=
    mergeKeys_reorder hdistinct horder hmem (supplier_spec hsupplier).1 hperm hc
  have hreorder := reorder_perm hperm
  have hkeys' : ∀ k ∈ keys, k ∈ keysOf (reorder components key members) := by
    rw [keysOf_perm hreorder]
    exact hkeys
  have hfields := ((unordered_eq_iff _ _).mp hsame).2.2.1 f
  rw [field_mergeKeys hkeys' f hc', field_mergeKeys hkeys f hc, keyRung_perm hreorder,
    keyHas_perm hreorder, hsupplier, Option.bind_some, Option.bind_some,
    keyGroup_reorder hperm] at hfields
  exact hfields

end Necessary

/-- With no two components of a key on one rung, the order of discovery does
not matter exactly when the input is settled. -/
theorem orderFree_iff_settled (components : List Component)
    (hdistinct : DistinctRungs components) : OrderFree components ↔ OrderSettled components := by
  constructor
  · intro horder
    exact ⟨oneLibrary_of_orderFree hdistinct horder,
      fun i keys hmem key hhead => sameHead_of_orderFree hdistinct horder hmem hhead,
      fun i keys hmem f key hsupplier => undisputed_of_orderFree hdistinct horder hmem hsupplier⟩
  · exact orderFree_of_settled hdistinct

/-! ## Three sources of one component -/

/-- A crate required by a manifest, with the license the manifest states. -/
def requiredRand : Component :=
  { componentRef := "", name := "rand", group := none, version := some "0.8.5"
    ecosystem := "cargo", componentType := "library", supplier := none
    license := some "MIT", purl := some "pkg:cargo/rand@0.8.5", cpe := none, sha256 := none
    hashes := [], identityConfidence := "high", matchingMethod := "cargo"
    evidence := [⟨.declared, "Cargo.toml", none⟩], runtimeHarnesses := [] }

/-- The same crate in the lockfile, with another license. -/
def lockedRand : Component :=
  { requiredRand with
    license := some "MIT OR Apache-2.0", evidence := [⟨.resolved, "Cargo.lock", none⟩] }

/-- The same crate in a linked binary, which states none. -/
def linkedRand : Component :=
  { requiredRand with
    license := none, evidence := [⟨.linked, "target/release/app", none⟩] }

theorem orderFree_iff_settled_rand :
    DistinctRungs [requiredRand, lockedRand]
      ∧ (OrderFree [requiredRand, lockedRand] ↔ OrderSettled [requiredRand, lockedRand]) :=
  ⟨by decide, orderFree_iff_settled _ (by decide)⟩

/-- The linked binary first, the license of the manifest stays; last, that of
the lockfile. -/
theorem not_orderFree_rand :
    DistinctRungs [requiredRand, lockedRand, linkedRand]
      ∧ ¬ OrderFree [requiredRand, lockedRand, linkedRand] := by
  refine ⟨by decide, fun h => ?_⟩
  have hperm : [linkedRand, requiredRand, lockedRand].Perm
      [requiredRand, lockedRand, linkedRand] := by decide
  have hlicenses := congrArg (List.map fun v => v.1.license) (h _ hperm)
  exact absurd hlicenses (by decide +kernel)

end GovFuzz.Sbom
