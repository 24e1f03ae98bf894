import GovFuzz.Lib.Ranked
import GovFuzz.Sbom.Pinned

/-!
# SBOM — the keys that end in one component

What `merge_by_identity` returns, in closed form: for each library, its keys
with a pinned leader and its keys without one are combined into lists, and
each list becomes one component, merged key by key.  The component stands in
the map under the first key of its list.
-/

namespace GovFuzz.Sbom

open GovFuzz.Lib

/-! ## Keys of the input -/

/-- The keys in the order of the map. -/
def keysOf (components : List Component) : List String :=
  (components.map keyOf).dedup.mergeSort fun a b => decide (a ≤ b)

/-- The first component of a key that none outranks. -/
def leader (members : List Component) : Option Component :=
  members.find? fun m => members.all fun x => decide (rung x ≤ rung m)

def isPinned (components : List Component) (key : String) : Bool :=
  ((leader (keyGroup components key)).bind Component.version).isSome

/-- The library of the first component of a key. -/
def libraryOfKey (components : List Component) (key : String) :
    Option (String ⊕ String × String) :=
  (keyGroup components key).head?.map identity

def pinnedKeys (components : List Component) (i : String ⊕ String × String) : List String :=
  (keysOf components).filter fun key =>
    isPinned components key && decide (libraryOfKey components key = some i)

def unpinnedKeys (components : List Component) (i : String ⊕ String × String) : List String :=
  (keysOf components).filter fun key =>
    !isPinned components key && decide (libraryOfKey components key = some i)

/-- The unpinned go to the one that is pinned, or to the first of them if
none is.  With two or more pinned, each stays by itself. -/
def combine {α : Type} : List α → List α → List (List α)
  | [], [] => []
  | [], first :: unpinned => [first :: unpinned]
  | [target], unpinned => [target :: unpinned]
  | first :: second :: pinned, unpinned =>
      (first :: second :: pinned ++ unpinned).map fun key => [key]

/-- The keys of a library, one list for each component it ends in. -/
def combinedKeys (components : List Component) (i : String ⊕ String × String) :
    List (List String) :=
  combine (pinnedKeys components i) (unpinnedKeys components i)

/-- Each key merged by itself. -/
def mergedComponents (components : List Component) (keys : List String) : List Component :=
  keys.filterMap fun key => reduce mergeInto (keyGroup components key)

/-- The component that the keys are merged into. -/
def mergeKeys (components : List Component) (keys : List String) : Option Component :=
  reduce mergeInto (mergedComponents components keys)

theorem mergedComponents_cons {components : List Component} {key : String} {c : Component}
    (hc : reduce mergeInto (keyGroup components key) = some c) (keys : List String) :
    mergedComponents components (key :: keys) = c :: mergedComponents components keys := by
  simp only [mergedComponents, List.filterMap_cons, hc]

theorem FirstTop.leader_eq {members : List Component} {m : Component} (h : FirstTop members m) :
    leader members = some m := by
  have hle := h.rung_le
  have hkept : members.all (fun x => decide (rung x ≤ rung m)) = true := by simpa using hle
  obtain ⟨before, after, hsplit, hbefore, -⟩ := h
  have hdropped : ∀ y ∈ before, ¬ (members.all fun x => decide (rung x ≤ rung y)) = true := by
    intro y hy hall
    have hm : rung m ≤ rung y := by
      have := List.all_eq_true.mp hall m (by simp [hsplit])
      exact of_decide_eq_true this
    exact absurd (hbefore y hy) (by omega)
  have hfind : ∀ p : Component → Bool, (∀ y ∈ before, ¬ p y = true) → p m = true →
      (before ++ m :: after).find? p = some m := by
    intro p hno hyes
    rw [List.find?_append, List.find?_eq_none.mpr hno, Option.none_or, List.find?_cons_of_pos hyes]
  rw [leader]
  conv => lhs; arg 2; rw [hsplit]
  exact hfind _ hdropped hkept

/-! ## The map stays in order -/

section Sorted

variable {α : Type} {rep : α → Component} {merge : α → α → α}

theorem sorted_groupByKey (items : List α) : (groupByKey rep merge items).Sorted := by
  suffices hfold : ∀ groups : SortedMap α, groups.Sorted →
      (items.foldl (fun groups item =>
        groups.upsert merge (keyString (rep item).identityKey) item) groups).Sorted from
    hfold [] List.Pairwise.nil
  induction items with
  | nil => exact fun groups h => h
  | cons item items ih => exact fun groups h => ih _ (h.upsert merge _ item)

theorem sorted_postPass {groups : SortedMap α} (h : groups.Sorted) :
    (postPass rep merge groups).Sorted := by
  suffices hfold : ∀ (rest map : SortedMap α), map.Sorted →
      (rest.foldl (foldVersionless rep merge) map).Sorted from
    hfold _ _ (h.filter _)
  intro rest
  induction rest with
  | nil => exact fun map h => h
  | cons entry rest ih =>
      intro map hmap
      refine ih _ ?_
      unfold foldVersionless
      split
      · exact hmap.modify _ _
      · exact hmap.insert _ _

end Sorted

theorem sorted_mergedGroups (components : List Component) : (mergedGroups components).Sorted :=
  sorted_postPass (sorted_groupByKey _)

theorem keysOf_eq_of_mem {components : List Component} {keys : List String}
    (hsorted : keys.Pairwise (· < ·)) (hmem : ∀ key, key ∈ keys ↔ key ∈ components.map keyOf) :
    keysOf components = keys := by
  have hperm : (keysOf components).Perm keys := by
    refine (List.mergeSort_perm _ _).trans ?_
    rw [List.perm_ext_iff_of_nodup (List.nodup_dedup _) (hsorted.imp ne_of_lt)]
    simp only [List.mem_dedup, hmem, implies_true]
  have hordered : (keysOf components).Pairwise (· ≤ ·) := by
    have h : (keysOf components).Pairwise fun a b => decide (a ≤ b) = true :=
      List.pairwise_mergeSort
        (fun a b c hab hbc => by simpa using le_trans (by simpa using hab) (by simpa using hbc))
        (fun a b => by simpa using le_total a b) _
    exact h.imp of_decide_eq_true
  exact hperm.eq_of_pairwise (fun a b _ _ hab hba => le_antisymm hab hba) hordered
    (hsorted.imp le_of_lt)

theorem mem_primaryKeys {components : List Component} {key : String} :
    key ∈ (primaryGroups components).map Prod.fst ↔ key ∈ components.map keyOf := by
  constructor
  · intro h
    obtain ⟨entry, hentry, rfl⟩ := List.mem_map.mp h
    obtain ⟨c, hkey, hled⟩ := exists_ledBy hentry
    rw [← hkey]
    exact List.mem_map_of_mem (List.mem_filter.mp (FirstTop.mem hled.leads)).1
  · intro h
    obtain ⟨c, hc, rfl⟩ := List.mem_map.mp h
    exact (grouped_primaryGroups components).covered c hc

theorem keys_primaryGroups (components : List Component) :
    (primaryGroups components).map Prod.fst = keysOf components :=
  (keysOf_eq_of_mem (sorted_groupByKey _) fun _ => mem_primaryKeys).symm

/-! ## Groups by their keys -/

def Group.keys (g : Group) : List String :=
  g.parts.filterMap fun part => part.head?.map keyOf

theorem Group.keys_fold (g h : Group) : (g.fold h).keys = g.keys ++ h.keys := by
  simp [Group.keys, Group.fold]

/-- A group is its keys merged. -/
def Keyed (components : List Component) (g : Group) : Prop :=
  mergeKeys components g.keys = some g.component

theorem Keyed.fold {components : List Component} {g h : Group} {key : String}
    (hg : Keyed components g) (hkey : h.keys = [key]) (hh : Keyed components h) :
    Keyed components (g.fold h) := by
  unfold Keyed at hg hh ⊢
  rw [hkey] at hh
  rw [Group.keys_fold, hkey, mergeKeys, mergedComponents, List.filterMap_append]
  cases hmembers : reduce mergeInto (keyGroup components key) with
  | none => simp [mergeKeys, mergedComponents, hmembers] at hh
  | some c =>
      simp only [mergeKeys, mergedComponents, List.filterMap_cons, List.filterMap_nil, hmembers,
        reduce_singleton, Option.some.injEq] at hh ⊢
      rw [hh]
      exact reduce_append_singleton hg h.component

section Primary

variable {components : List Component} {entry : String × Group}

theorem reduce_primaryGroups (h : entry ∈ primaryGroups components) :
    reduce mergeInto entry.2.members = some entry.2.component := by
  suffices hfold : ∀ (items : List Component) (groups : SortedMap Group),
      (∀ e ∈ groups, reduce mergeInto e.2.members = some e.2.component) →
      ∀ e ∈ (items.map Group.single).foldl (fun groups item =>
          groups.upsert Group.addMember (keyString item.component.identityKey) item) groups,
        reduce mergeInto e.2.members = some e.2.component from
    hfold components [] (by simp) entry h
  intro items
  induction items with
  | nil => exact fun groups h => h
  | cons c items ih =>
      intro groups hgroups
      refine ih _ ?_
      refine SortedMap.forall_upsert hgroups ?_ ?_
      · rfl
      · intro g hg
        have hmembers : (g.addMember (Group.single c)).members = g.members ++ [c] := by
          simp [Group.addMember, Group.members, Group.single]
        rw [hmembers, reduce_append_singleton hg]
        rfl

theorem members_primaryGroups (h : entry ∈ primaryGroups components) :
    entry.2.members = keyGroup components entry.1 := by
  rw [Group.members, (grouped_primaryGroups components).parts entry h]
  simp [keyGroup]

theorem keys_of_primary (h : entry ∈ primaryGroups components) : entry.2.keys = [entry.1] := by
  obtain ⟨c, hkey, hled⟩ := exists_ledBy h
  have hmembers := members_primaryGroups h
  have hparts : entry.2.parts = [keyGroup components entry.1] := by
    rw [(grouped_primaryGroups components).parts entry h]
    rfl
  cases hfirst : keyGroup components entry.1 with
  | nil =>
      have hmem := FirstTop.mem hled.leads
      rw [hkey, hfirst] at hmem
      cases hmem
  | cons first rest =>
      have hfirstKey : keyOf first = entry.1 := by
        have hmem : first ∈ keyGroup components entry.1 := by simp [hfirst]
        exact of_decide_eq_true (List.mem_filter.mp hmem).2
      simp [Group.keys, hparts, hfirst, hfirstKey]

theorem keyed_primary (h : entry ∈ primaryGroups components) : Keyed components entry.2 := by
  have hreduce := reduce_primaryGroups h
  rw [members_primaryGroups h] at hreduce
  rw [Keyed, keys_of_primary h, mergeKeys, mergedComponents_cons hreduce]
  rfl

theorem isPinned_primary (h : entry ∈ primaryGroups components) :
    isPinned components entry.1 = entry.2.component.version.isSome := by
  obtain ⟨c, hkey, hled⟩ := exists_ledBy h
  have hleader : leader (keyGroup components entry.1) = some c :=
    FirstTop.leader_eq (hkey ▸ hled.leads)
  rw [isPinned, hleader, Option.bind_some, hled.version]

theorem libraryOfKey_primary (h : entry ∈ primaryGroups components) :
    libraryOfKey components entry.1 = some entry.2.identity := by
  obtain ⟨c, hkey, hled⟩ := exists_ledBy h
  have hlibrary := hled.library
  rw [libraryOf, hkey] at hlibrary
  exact hlibrary

end Primary

/-! ## One library -/

section Library

variable {components : List Component} {i : String ⊕ String × String}

/-- Groups of one key each, with the keys they stand for. -/
structure Primary (components : List Component) (groups : List Group) (keys : List String) :
    Prop where
  keys : groups.flatMap Group.keys = keys
  single : ∀ g ∈ groups, ∃ key, g.keys = [key]
  keyed : ∀ g ∈ groups, Keyed components g

/-- The primary groups of one library are those of its keys. -/
theorem primary_ofLibrary (p : Component → Bool) (q : String → Bool)
    (hpq : ∀ entry ∈ primaryGroups components, p entry.2.component = q entry.1) :
    Primary components
      (ofLibrary i ((primaryGroups components).filter fun entry => p entry.2.component))
      ((keysOf components).filter fun key =>
        q key && decide (libraryOfKey components key = some i)) := by
  have hmem : ∀ g, g ∈ ofLibrary i ((primaryGroups components).filter fun entry =>
      p entry.2.component) → ∃ entry ∈ primaryGroups components, entry.2 = g := by
    intro g hg
    obtain ⟨entry, hentry, -, heq, -⟩ := mem_ofLibrary_filter.mp hg
    exact ⟨entry, hentry, heq⟩
  refine ⟨?_, ?_, ?_⟩
  · rw [← keys_primaryGroups, ofLibrary, List.filter_map, List.filter_filter, List.filter_map,
      List.flatMap_map, List.map_eq_flatMap]
    have hfilter : (primaryGroups components).filter (fun entry =>
          ((fun g : Group => decide (g.identity = i)) ∘ Prod.snd) entry && p entry.2.component)
        = (primaryGroups components).filter ((fun key =>
          q key && decide (libraryOfKey components key = some i)) ∘ Prod.fst) := by
      refine List.filter_congr fun entry hentry => ?_
      simp only [Function.comp_apply, hpq entry hentry, libraryOfKey_primary hentry,
        Option.some.injEq]
      exact Bool.and_comm _ _
    rw [hfilter]
    refine List.flatMap_congr fun entry hentry => ?_
    exact keys_of_primary (List.mem_filter.mp hentry).1
  · intro g hg
    obtain ⟨entry, hentry, rfl⟩ := hmem g hg
    exact ⟨entry.1, keys_of_primary hentry⟩
  · intro g hg
    obtain ⟨entry, hentry, rfl⟩ := hmem g hg
    exact keyed_primary hentry

theorem primary_versionedGroups :
    Primary components (versionedGroups components i) (pinnedKeys components i) :=
  primary_ofLibrary (fun c => c.version.isSome) (isPinned components)
    fun _ hentry => (isPinned_primary hentry).symm

theorem primary_versionlessGroups :
    Primary components (versionlessGroups components i) (unpinnedKeys components i) := by
  refine primary_ofLibrary (fun c => c.version.isNone) (fun key => !isPinned components key) ?_
  intro entry hentry
  rw [isPinned_primary hentry, Option.not_isSome]

theorem keyed_foldl {target : Group} {rest : List Group} {keys : List String}
    (htarget : Keyed components target) (hrest : Primary components rest keys) :
    (rest.foldl Group.fold target).keys = target.keys ++ keys
      ∧ Keyed components (rest.foldl Group.fold target) := by
  obtain ⟨rfl, hsingle, hkeyed⟩ := hrest
  induction rest generalizing target with
  | nil => exact ⟨by simp, htarget⟩
  | cons g rest ih =>
      rw [List.forall_mem_cons] at hsingle hkeyed
      obtain ⟨key, hkey⟩ := hsingle.1
      have h := ih (htarget.fold hkey hkeyed.1) hsingle.2 hkeyed.2
      rw [Group.keys_fold, List.append_assoc] at h
      exact h

theorem flatMap_keys_singletons {groups : List Group}
    (h : ∀ g ∈ groups, ∃ key, g.keys = [key]) :
    (groups.flatMap Group.keys).map (fun key => [key]) = groups.map Group.keys := by
  induction groups with
  | nil => rfl
  | cons g groups ih =>
      rw [List.forall_mem_cons] at h
      obtain ⟨key, hkey⟩ := h.1
      rw [List.flatMap_cons, List.map_append, ih h.2, List.map_cons, hkey]
      rfl

/-- The post-pass combines the keys of a library. -/
theorem settle_combine {pinned unpinned : List Group} {keys keys' : List String}
    (hpinned : Primary components pinned keys) (hunpinned : Primary components unpinned keys') :
    ((unpinned.foldl settle pinned).map Group.keys).Perm (combine keys keys')
      ∧ ∀ g ∈ unpinned.foldl settle pinned, Keyed components g := by
  match pinned, unpinned with
  | [], [] =>
      rw [← hpinned.keys, ← hunpinned.keys]
      exact ⟨.refl _, by simp⟩
  | [], first :: rest =>
      have hrest : Primary components rest (rest.flatMap Group.keys) :=
        ⟨rfl, fun g hg => hunpinned.single g (List.mem_cons_of_mem _ hg),
          fun g hg => hunpinned.keyed g (List.mem_cons_of_mem _ hg)⟩
      obtain ⟨key, hkey⟩ := hunpinned.single first List.mem_cons_self
      have hfold := keyed_foldl (hunpinned.keyed first List.mem_cons_self) hrest
      have hsettle : (first :: rest).foldl settle [] = [rest.foldl Group.fold first] :=
        foldl_settle_single first rest
      rw [hsettle, ← hpinned.keys, ← hunpinned.keys, List.flatMap_cons, List.map_singleton,
        hfold.1, hkey]
      exact ⟨.refl _, List.forall_mem_singleton.mpr hfold.2⟩
  | [target], unpinned =>
      obtain ⟨key, hkey⟩ := hpinned.single target List.mem_cons_self
      have hfold := keyed_foldl (hpinned.keyed target List.mem_cons_self) hunpinned
      rw [foldl_settle_single, ← hpinned.keys, List.flatMap_singleton, List.map_singleton,
        hfold.1, hkey]
      exact ⟨.refl _, List.forall_mem_singleton.mpr hfold.2⟩
  | first :: second :: pinned, unpinned =>
      obtain ⟨key, hkey⟩ := hpinned.single first (by simp)
      obtain ⟨key', hkey'⟩ := hpinned.single second (by simp)
      have hkeys : keys = key :: key' :: pinned.flatMap Group.keys := by
        rw [← hpinned.keys, List.flatMap_cons, List.flatMap_cons, hkey, hkey']
        rfl
      have hcombine : combine keys keys' = (keys ++ keys').map fun key => [key] := by
        rw [hkeys]
        rfl
      rw [foldl_settle_several, hcombine, List.map_append, List.map_append, ← hpinned.keys,
        ← hunpinned.keys, flatMap_keys_singletons hpinned.single,
        flatMap_keys_singletons hunpinned.single]
      refine ⟨?_, ?_⟩
      · refine List.perm_append_comm.trans ?_
        exact ((List.reverse_perm unpinned).map Group.keys).append_left _
      · intro g hg
        rcases List.mem_append.mp hg with hg | hg
        · exact hunpinned.keyed g (List.mem_reverse.mp hg)
        · exact hpinned.keyed g hg

/-- The keys of the merged groups of a library. -/
theorem keys_mergedGroups (components : List Component) (i : String ⊕ String × String) :
    ((ofLibrary i (mergedGroups components)).map Group.keys).Perm (combinedKeys components i)
      ∧ ∀ g ∈ ofLibrary i (mergedGroups components), Keyed components g := by
  have hcombine : _ ∧ ∀ g ∈ (versionlessGroups components i).foldl settle
      (versionedGroups components i), Keyed components g :=
    settle_combine primary_versionedGroups primary_versionlessGroups
  have hperm : (ofLibrary i (mergedGroups components)).Perm _ := ofLibrary_mergedGroups
  refine ⟨(hperm.map Group.keys).trans hcombine.1, fun g hg => ?_⟩
  exact hcombine.2 g (hperm.mem_iff.mp hg)

end Library

end GovFuzz.Sbom
