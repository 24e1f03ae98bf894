import GovFuzz.Sbom.Merge

/-!
# SBOM — groups that remember their members

The passes of `merge_by_identity` run on GROUPS: a merged component with
the parts it was merged from, each part the members of one key in the order
of the input.  A group's version is that of its first member of highest
rung, with or without a version; so a pinned version is forgotten exactly
where a member without one stands higher.
-/

namespace GovFuzz.Sbom

open GovFuzz.Lib

structure Group where
  component : Component
  parts : List (List Component)
  deriving DecidableEq

@[grind =] def Group.members (g : Group) : List Component := g.parts.flatten

@[grind =] def Group.single (c : Component) : Group := ⟨c, [[c]]⟩

/-- A member more in the one part of a group. -/
@[grind =] def Group.addMember (g h : Group) : Group :=
  ⟨mergeInto g.component h.component, [g.members ++ h.members]⟩

/-- The parts of another group behind one's own. -/
def Group.fold (g h : Group) : Group :=
  ⟨mergeInto g.component h.component, g.parts ++ h.parts⟩

/-- The groups of the first pass. -/
@[grind =] def primaryGroups (components : List Component) : SortedMap Group :=
  groupByKey Group.component Group.addMember (components.map Group.single)

def mergedGroups (components : List Component) : SortedMap Group :=
  postPass Group.component Group.fold (primaryGroups components)

/-! ## The passes do not look at the parts -/

section Naturality

variable {α β : Type} {rep : α → Component} {rep' : β → Component} {f : α → β}
  {merge : α → α → α} {merge' : β → β → β}

theorem mapValues_groupByKey (hrep : ∀ a, rep' (f a) = rep a)
    (hmerge : ∀ a b, f (merge a b) = merge' (f a) (f b)) (items : List α) :
    (groupByKey rep merge items).mapValues f = groupByKey rep' merge' (items.map f) := by
  suffices hfold : ∀ groups : SortedMap α,
      (items.foldl (fun groups item =>
          groups.upsert merge (keyString (rep item).identityKey) item) groups).mapValues f
        = (items.map f).foldl (fun groups item =>
          groups.upsert merge' (keyString (rep' item).identityKey) item) (groups.mapValues f) from
    hfold []
  induction items with
  | nil => exact fun groups => rfl
  | cons item items ih =>
      intro groups
      rw [List.foldl_cons, ih, List.map_cons, List.foldl_cons,
        SortedMap.mapValues_upsert f hmerge, hrep]

theorem mapValues_filter (hrep : ∀ a, rep' (f a) = rep a) (p : Component → Bool)
    (map : SortedMap α) :
    SortedMap.mapValues f (map.filter fun entry => p (rep entry.2))
      = (SortedMap.mapValues f map).filter fun entry => p (rep' entry.2) := by
  simp only [SortedMap.mapValues, List.filter_map, Function.comp_def, hrep]

theorem mapValues_foldVersionless (hrep : ∀ a, rep' (f a) = rep a)
    (hmerge : ∀ a b, f (merge a b) = merge' (f a) (f b)) (map : SortedMap α)
    (entry : String × α) :
    (foldVersionless rep merge map entry).mapValues f
      = foldVersionless rep' merge' (map.mapValues f) (entry.1, f entry.2) := by
  have hfilter := mapValues_filter hrep (sameVersionlessTarget (rep entry.2)) map
  simp only [foldVersionless, hrep]
  rw [← hfilter]
  cases map.filter fun other => sameVersionlessTarget (rep entry.2) (rep other.2) with
  | nil => exact SortedMap.mapValues_insert f _ _ map
  | cons target rest =>
      cases rest with
      | nil => exact SortedMap.mapValues_modify f (fun a => hmerge a entry.2) map
      | cons second rest => exact SortedMap.mapValues_insert f _ _ map

theorem mapValues_postPass (hrep : ∀ a, rep' (f a) = rep a)
    (hmerge : ∀ a b, f (merge a b) = merge' (f a) (f b)) (groups : SortedMap α) :
    (postPass rep merge groups).mapValues f = postPass rep' merge' (groups.mapValues f) := by
  have hversionless := mapValues_filter hrep (fun c => c.version.isNone) groups
  have hversioned := mapValues_filter hrep (fun c => c.version.isSome) groups
  simp only [postPass, versionlessOf, versionedOf]
  rw [← hversionless, ← hversioned]
  generalize (groups.filter fun entry => (rep entry.2).version.isNone) = rest
  generalize (groups.filter fun entry => (rep entry.2).version.isSome) = map
  induction rest generalizing map with
  | nil => rfl
  | cons entry rest ih =>
      rw [List.foldl_cons, ih, mapValues_foldVersionless hrep hmerge]
      rfl

end Naturality

theorem mapValues_mergedGroups (components : List Component) :
    (mergedGroups components).mapValues Group.component
      = postPass id mergeInto (groupByKey id mergeInto components) := by
  have hrep : ∀ g : Group, id g.component = g.component := fun _ => rfl
  have haddMember : ∀ g h : Group,
      (g.addMember h).component = mergeInto g.component h.component := fun _ _ => rfl
  have hfold : ∀ g h : Group, (g.fold h).component = mergeInto g.component h.component :=
    fun _ _ => rfl
  have hfirst : (primaryGroups components).mapValues Group.component
      = groupByKey id mergeInto components := by
    have h := mapValues_groupByKey hrep haddMember (components.map Group.single)
    rw [List.map_map] at h
    simpa [primaryGroups, Function.comp_def, Group.single] using h
  rw [← hfirst]
  exact mapValues_postPass hrep hfold _

/-- The components of the merged groups are what `merge_by_identity`
returns, up to the final sort. -/
theorem mergeByIdentity_perm (components : List Component) :
    (mergeByIdentity components).Perm
      ((mergedGroups components).map fun entry => entry.2.component) := by
  rw [mergeByIdentity, ← mapValues_mergedGroups]
  refine (List.mergeSort_perm _ _).trans ?_
  rw [SortedMap.mapValues, List.map_map]
  exact .refl _

/-! ## Identities -/

/-- The library a component is taken to be when it has no version. -/
@[grind =] def identity (c : Component) : String ⊕ String × String :=
  match nativeIdentity c with
  | some name => .inl name
  | none => .inr (c.ecosystem, c.name)

theorem sameVersionlessTarget_iff (a b : Component) :
    sameVersionlessTarget a b = true ↔ identity a = identity b := by
  by_cases ha : isNativeEcosystem a.ecosystem
  · by_cases hb : isNativeEcosystem b.ecosystem
    · simp [sameVersionlessTarget, identity, nativeIdentity, ha, hb]
    · have hne : a.ecosystem ≠ b.ecosystem := fun heq => hb (heq ▸ ha)
      simp [sameVersionlessTarget, identity, nativeIdentity, ha, hb, hne]
  · by_cases hb : isNativeEcosystem b.ecosystem
    · have hne : a.ecosystem ≠ b.ecosystem := fun heq => ha (heq ▸ hb)
      simp [sameVersionlessTarget, identity, nativeIdentity, ha, hb, hne]
    · simp [sameVersionlessTarget, identity, nativeIdentity, ha, hb]

/-! ## What a merged component takes from its members -/

def rung (c : Component) : Nat := rungValue (topRung c.evidence)

theorem rungValue_topRung_cons (item : Evidence) (evidence : List Evidence) :
    rungValue (topRung (item :: evidence))
      = max (item.kind.rank + 1) (rungValue (topRung evidence)) := by
  rw [topRung]
  cases topRung evidence with
  | none => simp [rungValue]
  | some top =>
      dsimp only
      split
      · simp only [rungValue]
        omega
      · simp only [rungValue]
        omega

theorem rungValue_topRung_append (first second : List Evidence) :
    rungValue (topRung (first ++ second))
      = max (rungValue (topRung first)) (rungValue (topRung second)) := by
  induction first with
  | nil => simp [topRung, rungValue]
  | cons item first ih =>
      rw [List.cons_append, rungValue_topRung_cons, ih, rungValue_topRung_cons, max_assoc]

/-- The first of the members of highest rung. -/
def FirstTop (members : List Component) (m : Component) : Prop :=
  ∃ before after, members = before ++ m :: after
    ∧ (∀ x ∈ before, rung x < rung m) ∧ ∀ x ∈ after, rung x ≤ rung m

theorem FirstTop.mem {members : List Component} {m : Component} (h : FirstTop members m) :
    m ∈ members := by
  obtain ⟨before, after, rfl, -, -⟩ := h
  simp

theorem FirstTop.rung_le {members : List Component} {m : Component} (h : FirstTop members m) :
    ∀ x ∈ members, rung x ≤ rung m := by
  obtain ⟨before, after, rfl, hbefore, hafter⟩ := h
  intro x hx
  rcases List.mem_append.mp hx with hx | hx
  · exact le_of_lt (hbefore x hx)
  · rcases List.mem_cons.mp hx with rfl | hx
    · exact le_rfl
    · exact hafter x hx

theorem FirstTop.unique {members : List Component} {m n : Component} (hm : FirstTop members m)
    (hn : FirstTop members n) : m = n := by
  have hle := hm.rung_le n hn.mem
  have hge := hn.rung_le m hm.mem
  -- both are the first with the highest rung
  have hfind : ∀ x, FirstTop members x → rung x = rung m →
      members.find? (fun y => decide (rung m ≤ rung y)) = some x := by
    rintro x ⟨before, after, rfl, hbefore, -⟩ hrung
    rw [List.find?_append, List.find?_eq_none.mpr, Option.none_or, List.find?_cons_of_pos]
    · simp [hrung]
    · intro y hy
      have := hbefore y hy
      simp only [decide_eq_true_eq]
      omega
  have := (hfind m hm rfl).symm.trans (hfind n hn (by omega))
  exact Option.some.inj this

/-- A component merged from these members: all their evidence, the version
of the first of highest rung, and the library of the first. -/
structure Represents (c : Component) (members : List Component) : Prop where
  evidence : c.evidence = members.flatMap Component.evidence
  version : ∃ m, FirstTop members m ∧ c.version = m.version ∧ rung c = rung m
  library : members.head?.map identity = some (identity c)

theorem Represents.single (c : Component) : Represents c [c] :=
  ⟨by simp, ⟨c, ⟨[], [], rfl, by simp, by simp⟩, rfl, rfl⟩, rfl⟩

theorem mergeInto_version (a b : Component) :
    (mergeInto a b).version = if rung a < rung b then b.version else a.version := rfl

theorem rung_mergeInto (a b : Component) : rung (mergeInto a b) = max (rung a) (rung b) :=
  rungValue_topRung_append _ _

/-- Merging two components puts the members of the second behind those of
the first. -/
theorem Represents.mergeInto {a b : Component} {ms ns : List Component}
    (ha : Represents a ms) (hb : Represents b ns) : Represents (mergeInto a b) (ms ++ ns) := by
  obtain ⟨m, hm, hmversion, hmrung⟩ := ha.version
  obtain ⟨n, hn, hnversion, hnrung⟩ := hb.version
  refine ⟨?_, ?_, ?_⟩
  · show a.evidence ++ b.evidence = _
    rw [ha.evidence, hb.evidence, List.flatMap_append]
  · rw [mergeInto_version, rung_mergeInto]
    by_cases hwins : rung a < rung b
    · rw [if_pos hwins]
      obtain ⟨before, after, rfl, hbefore, hafter⟩ := hn
      refine ⟨n, ⟨ms ++ before, after, by simp, ?_, hafter⟩, hnversion, by omega⟩
      intro x hx
      rcases List.mem_append.mp hx with hx | hx
      · have := hm.rung_le x hx
        omega
      · exact hbefore x hx
    · rw [if_neg hwins]
      have hle := hn.rung_le
      obtain ⟨before, after, rfl, hbefore, hafter⟩ := hm
      refine ⟨m, ⟨before, after ++ ns, by simp, hbefore, ?_⟩, hmversion, by omega⟩
      intro x hx
      rcases List.mem_append.mp hx with hx | hx
      · exact hafter x hx
      · have := hle x hx
        omega
  · show (ms ++ ns).head?.map identity = some (identity a)
    have hlibrary := ha.library
    cases ms with
    | nil => cases hlibrary
    | cons first rest => exact hlibrary

/-- A version of highest rung among those that have one, if any has one. -/
def VersionKept (g : Group) : Prop :=
  (∃ m ∈ g.members, m.version.isSome) →
    ∃ m ∈ g.members, m.version.isSome ∧ g.component.version = m.version
      ∧ ∀ other ∈ g.members, other.version.isSome → rung other ≤ rung m

/-- A pinned version is kept exactly when the merged component has one. -/
theorem versionKept_iff {g : Group} (h : Represents g.component g.members) :
    VersionKept g
      ↔ g.component.version.isSome ∨ ∀ m ∈ g.members, m.version = none := by
  obtain ⟨top, htop, hversion, -⟩ := h.version
  constructor
  · intro hkept
    by_cases hsome : ∃ m ∈ g.members, m.version.isSome
    · obtain ⟨m, -, hm, heq, -⟩ := hkept hsome
      exact .inl (heq ▸ hm)
    · refine .inr fun m hm => ?_
      by_contra hne
      exact hsome ⟨m, hm, Option.isSome_iff_ne_none.mpr hne⟩
  · intro h hsome
    rcases h with hpinned | hnone
    · exact ⟨top, htop.mem, hversion ▸ hpinned, hversion, fun other hother _ =>
        htop.rung_le other hother⟩
    · obtain ⟨m, hm, hpinned⟩ := hsome
      rw [hnone m hm] at hpinned
      cases hpinned

@[grind =] def Group.identity (g : Group) : String ⊕ String × String := Sbom.identity g.component

theorem Group.identity_fold (g h : Group) : (g.fold h).identity = g.identity := rfl

/-! ## The first pass -/

def keyOf (c : Component) : String := keyString c.identityKey

/-- One group for each key met, with the members of that key in order. -/
structure Grouped (done : List Component) (groups : SortedMap Group) : Prop where
  nodup : (groups.map Prod.fst).Nodup
  covered : ∀ c ∈ done, keyOf c ∈ groups.map Prod.fst
  parts : ∀ entry ∈ groups, entry.2.parts = [done.filter fun c => keyOf c = entry.1]
  represents : ∀ entry ∈ groups, Represents entry.2.component entry.2.members
  perm : (groups.flatMap fun entry => entry.2.members).Perm done

/-- A component of a new key makes a group of its own. -/
theorem Grouped.fresh {done : List Component} {groups : SortedMap Group}
    (h : Grouped done groups) {c : Component} (hfresh : keyOf c ∉ groups.map Prod.fst) :
    Grouped (done ++ [c]) (groups.insert (keyOf c) (Group.single c)) := by
  have hperm := SortedMap.insert_perm (Group.single c) hfresh
  have hmem : ∀ entry, entry ∈ groups.insert (keyOf c) (Group.single c) ↔
      entry = (keyOf c, Group.single c) ∨ entry ∈ groups :=
    fun entry => hperm.mem_iff.trans List.mem_cons
  -- the new group has the one component, the others are as they were
  refine ⟨?_, ?_, ?_, ?_, ?_⟩
  · rw [(hperm.map Prod.fst).nodup_iff]
    exact List.nodup_cons.mpr ⟨hfresh, h.nodup⟩
  · intro x hx
    rw [(hperm.map Prod.fst).mem_iff]
    rcases List.mem_append.mp hx with hx | hx
    · exact List.mem_cons_of_mem _ (h.covered x hx)
    · rw [List.mem_singleton.mp hx]
      exact List.mem_cons_self
  · intro entry hentry
    rcases (hmem entry).mp hentry with rfl | hentry
    · have hnone : done.filter (fun x => keyOf x = keyOf c) = [] := by
        rw [List.filter_eq_nil_iff]
        intro x hx heq
        exact hfresh (of_decide_eq_true heq ▸ h.covered x hx)
      simp [Group.single, List.filter_append, hnone]
    · have hother : keyOf c ≠ entry.1 := by
        intro heq
        exact hfresh (heq ▸ List.mem_map_of_mem hentry)
      rw [h.parts entry hentry, List.filter_append]
      simp [hother]
  · intro entry hentry
    rcases (hmem entry).mp hentry with rfl | hentry
    · exact Represents.single c
    · exact h.represents entry hentry
  · refine (hperm.flatMap_right _).trans ?_
    rw [List.flatMap_cons]
    exact (h.perm.append_left _).trans List.perm_append_comm

/-- A component whose key is there is merged into the group of its key. -/
theorem Grouped.again {done : List Component} {groups : SortedMap Group}
    (h : Grouped done groups) {c : Component} (hthere : keyOf c ∈ groups.map Prod.fst) :
    Grouped (done ++ [c])
      (groups.modify (keyOf c) fun existing => existing.addMember (Group.single c)) := by
  obtain ⟨⟨key, g⟩, hmem, hkey⟩ := List.mem_map.mp hthere
  obtain ⟨before, after, hsplit⟩ := List.append_of_mem hmem
  obtain rfl : key = keyOf c := hkey
  have hnodup := h.nodup
  rw [hsplit] at hnodup
  have hmodify : groups.modify (keyOf c) (fun existing => existing.addMember (Group.single c))
      = before ++ (keyOf c, g.addMember (Group.single c)) :: after := by
    rw [hsplit]
    exact SortedMap.modify_split _ hnodup
  -- the entries are the group that grew and the others as they were
  have hcases : ∀ entry ∈ before ++ (keyOf c, g.addMember (Group.single c)) :: after,
      entry = (keyOf c, g.addMember (Group.single c)) ∨ (entry ∈ groups ∧ entry.1 ≠ keyOf c) := by
    intro entry hentry
    rw [List.perm_middle.mem_iff, List.mem_cons] at hentry
    rcases hentry with rfl | hentry
    · exact .inl rfl
    · refine .inr ⟨?_, ?_⟩
      · rw [hsplit, List.perm_middle.mem_iff]
        exact List.mem_cons_of_mem _ hentry
      · intro heq
        rw [List.map_append, List.map_cons, List.nodup_middle] at hnodup
        refine (List.nodup_cons.mp hnodup).1 ?_
        rw [← List.map_append]
        exact List.mem_map.mpr ⟨entry, hentry, heq⟩
  refine ⟨?_, ?_, ?_, ?_, ?_⟩
  · rw [SortedMap.keys_modify]
    exact h.nodup
  · intro x hx
    rw [SortedMap.keys_modify]
    rcases List.mem_append.mp hx with hx | hx
    · exact h.covered x hx
    · rw [List.mem_singleton.mp hx]
      exact hthere
  · intro entry hentry
    rw [hmodify] at hentry
    rcases hcases entry hentry with rfl | ⟨hentry, hother⟩
    · have hparts : g.parts = [done.filter fun x => keyOf x = keyOf c] := h.parts _ hmem
      simp [Group.addMember, Group.members, Group.single, hparts, List.filter_append]
    · rw [h.parts entry hentry, List.filter_append]
      simp [Ne.symm hother]
  · intro entry hentry
    rw [hmodify] at hentry
    rcases hcases entry hentry with rfl | ⟨hentry, -⟩
    · have := (h.represents _ hmem).mergeInto (Represents.single c)
      simpa [Group.addMember, Group.members, Group.single] using this
    · exact h.represents entry hentry
  · rw [hmodify]
    have hperm := h.perm
    rw [hsplit] at hperm
    simp only [List.flatMap_append, List.flatMap_cons] at hperm ⊢
    have hadded : (g.addMember (Group.single c)).members = g.members ++ [c] := by
      simp [Group.addMember, Group.members, Group.single]
    rw [hadded]
    refine List.Perm.trans ?_ (hperm.append_right [c])
    simp only [List.append_assoc]
    refine List.Perm.append_left _ (List.Perm.append_left _ ?_)
    exact List.perm_append_comm

/-- The primary groups are the groups of the components: by induction from the end of the
list. -/
theorem grouped_primaryGroups (components : List Component) :
    Grouped components (primaryGroups components) := by
  suffices hfold : ∀ (done : List Component) (groups : SortedMap Group), Grouped done groups →
      Grouped (done ++ components) ((components.map Group.single).foldl (fun groups item =>
        groups.upsert Group.addMember (keyString item.component.identityKey) item) groups) by
    have hstart : Grouped [] [] := ⟨by simp, by simp, by simp, by simp, by simp⟩
    simpa [primaryGroups, groupByKey] using hfold [] [] hstart
  induction components with
  | nil => exact fun done groups h => by simpa using h
  | cons c components ih =>
      intro done groups h
      rw [List.map_cons, List.foldl_cons]
      have hstep : Grouped (done ++ [c])
          (groups.upsert Group.addMember (keyOf c) (Group.single c)) := by
        unfold SortedMap.upsert
        cases hget : groups.get (keyOf c) with
        | none => exact h.fresh (SortedMap.get_eq_none_iff.mp hget)
        | some existing =>
            refine h.again ?_
            by_contra hfresh
            rw [SortedMap.get_eq_none_iff.mpr hfresh] at hget
            cases hget
      have hnext := ih _ _ hstep
      rw [List.append_assoc, List.singleton_append] at hnext
      exact hnext

/-! ## The post-pass, one identity at a time -/

/-- The groups of a library. -/
@[grind =] def ofLibrary (i : String ⊕ String × String) (map : SortedMap Group) : List Group :=
  (map.map Prod.snd).filter fun g => g.identity = i

/-- What a versionless group does to the groups of its library. -/
def settle : List Group → Group → List Group
  | [target], g => [target.fold g]
  | gs, g => g :: gs

theorem settle_perm {gs hs : List Group} (h : gs.Perm hs) (g : Group) :
    (settle gs g).Perm (settle hs g) := by
  match gs, hs, h with
  | [], hs, h =>
      rw [List.nil_perm.mp h]
  | [target], hs, h =>
      rw [List.singleton_perm.mp h]
  | first :: second :: gs, hs, h =>
      have hlen := h.length_eq
      match hs, h, hlen with
      | first' :: second' :: hs, h, _ => exact h.cons g

theorem filter_same_target (map : SortedMap Group) (g : Group) :
    (map.filter fun other => sameVersionlessTarget g.component other.2.component).map Prod.snd
      = ofLibrary g.identity map := by
  rw [ofLibrary, List.filter_map]
  congr 1
  refine List.filter_congr fun other _ => ?_
  rw [Bool.eq_iff_iff, sameVersionlessTarget_iff]
  simp [Group.identity, eq_comm]

/-- Only the groups of its own library notice a versionless group. -/
theorem ofLibrary_foldVersionless {map : SortedMap Group} {key : String} {g : Group}
    (hnodup : (map.map Prod.fst).Nodup) (hfresh : key ∉ map.map Prod.fst)
    (i : String ⊕ String × String) :
    (ofLibrary i (foldVersionless Group.component Group.fold map (key, g))).Perm
      (if g.identity = i then settle (ofLibrary i map) g else ofLibrary i map) := by
  have htargets := filter_same_target map g
  have hinsert : (ofLibrary i (map.insert key g)).Perm
      (if g.identity = i then g :: ofLibrary i map else ofLibrary i map) := by
    have hperm := ((SortedMap.insert_perm g hfresh).map Prod.snd).filter
      (fun h => decide (h.identity = i))
    refine hperm.trans ?_
    by_cases hi : g.identity = i
    · simp [hi, ofLibrary]
    · simp [hi, ofLibrary]
  unfold foldVersionless
  dsimp only
  cases hfilter : map.filter fun other =>
      sameVersionlessTarget g.component other.2.component with
  | nil =>
      refine hinsert.trans ?_
      split
      case isTrue hi =>
        rw [hfilter, hi] at htargets
        rw [← htargets]
        exact .refl _
      case isFalse => exact .refl _
  | cons target rest =>
      cases rest with
      | cons second rest =>
          refine hinsert.trans ?_
          split
          case isTrue hi =>
            rw [hfilter, hi] at htargets
            rw [← htargets]
            exact .refl _
          case isFalse => exact .refl _
      | nil =>
          -- the one target is replaced in its place
          dsimp only
          have hmem : target ∈ map := by
            have : target ∈ map.filter fun other =>
                sameVersionlessTarget g.component other.2.component := by simp [hfilter]
            exact (List.mem_filter.mp this).1
          obtain ⟨before, after, hsplit⟩ := List.append_of_mem hmem
          have hmodify : map.modify target.1 (fun existing => existing.fold g)
              = before ++ (target.1, target.2.fold g) :: after := by
            rw [hsplit] at hnodup ⊢
            exact SortedMap.modify_split _ hnodup
          rw [hfilter] at htargets
          have hown : target.2.identity = g.identity := by
            have : target.2 ∈ ofLibrary g.identity map := by rw [← htargets]; simp
            exact of_decide_eq_true (List.mem_filter.mp this).2
          rw [hmodify]
          by_cases hi : g.identity = i
          · rw [if_pos hi, ← hi, ← htargets]
            rw [hsplit] at htargets
            simp only [ofLibrary, List.map_append, List.map_cons, List.map_nil, List.filter_append,
              List.filter_cons, hown, Group.identity_fold, decide_true, if_true] at htargets ⊢
            have hlen := congrArg List.length htargets
            simp only [List.length_cons, List.length_nil, List.length_append] at hlen
            have hb := List.eq_nil_of_length_eq_zero (show
              ((before.map Prod.snd).filter fun h => decide (h.identity = g.identity)).length = 0
                by omega)
            have ha := List.eq_nil_of_length_eq_zero (show
              ((after.map Prod.snd).filter fun h => decide (h.identity = g.identity)).length = 0
                by omega)
            rw [hb, ha]
            exact .refl _
          · rw [if_neg hi, hsplit]
            simp [ofLibrary, Group.identity_fold, hown, hi]

theorem keys_foldVersionless {map : SortedMap Group} {key : String} {g : Group}
    {rest : List String} (h : (map.map Prod.fst ++ key :: rest).Nodup) :
    ((foldVersionless Group.component Group.fold map (key, g)).map Prod.fst ++ rest).Nodup := by
  rw [List.nodup_middle, List.nodup_cons, List.mem_append, not_or] at h
  have hinsert : ((map.insert key g).map Prod.fst ++ rest).Nodup := by
    have hperm := ((SortedMap.insert_perm g h.1.1).map Prod.fst).append_right rest
    rw [hperm.nodup_iff, List.map_cons, List.cons_append, List.nodup_cons, List.mem_append,
      not_or]
    exact h
  unfold foldVersionless
  dsimp only
  split
  · rw [SortedMap.keys_modify]
    exact h.2
  · exact hinsert

theorem foldl_settle_perm {gs hs : List Group} (h : gs.Perm hs) (rest : List Group) :
    (rest.foldl settle gs).Perm (rest.foldl settle hs) := by
  induction rest generalizing gs hs with
  | nil => exact h
  | cons g rest ih => exact ih (settle_perm h g)

theorem ofLibrary_foldl (i : String ⊕ String × String) (rest : SortedMap Group)
    {map : SortedMap Group} (h : (map.map Prod.fst ++ rest.map Prod.fst).Nodup) :
    (ofLibrary i (rest.foldl (foldVersionless Group.component Group.fold) map)).Perm
      ((ofLibrary i rest).foldl settle (ofLibrary i map)) := by
  induction rest generalizing map with
  | nil => exact .refl _
  | cons entry rest ih =>
      rw [List.map_cons] at h
      have hparts := List.nodup_append.mp h
      have hfresh : entry.1 ∉ map.map Prod.fst :=
        fun hmem => hparts.2.2 entry.1 hmem entry.1 List.mem_cons_self rfl
      rw [List.foldl_cons]
      refine (ih (keys_foldVersionless h)).trans ?_
      refine (foldl_settle_perm (ofLibrary_foldVersionless hparts.1 hfresh i) _).trans ?_
      by_cases hi : entry.2.identity = i
      · simp [ofLibrary, hi]
      · simp [ofLibrary, hi]

theorem versioned_versionless_perm (groups : SortedMap Group) :
    (versionedOf Group.component groups ++ versionlessOf Group.component groups).Perm groups := by
  have hnot : versionlessOf Group.component groups
      = groups.filter fun entry => !(entry.2.component.version.isSome) := by
    refine List.filter_congr fun entry _ => ?_
    cases entry.2.component.version <;> rfl
  rw [hnot]
  exact List.filter_append_perm _ groups

/-- The groups of one library after the post-pass. -/
theorem ofLibrary_postPass {groups : SortedMap Group} (h : (groups.map Prod.fst).Nodup)
    (i : String ⊕ String × String) :
    (ofLibrary i (postPass Group.component Group.fold groups)).Perm
      ((ofLibrary i (versionlessOf Group.component groups)).foldl settle
        (ofLibrary i (versionedOf Group.component groups))) := by
  refine ofLibrary_foldl i _ ?_
  rw [← List.map_append, ((versioned_versionless_perm groups).map Prod.fst).nodup_iff]
  exact h

theorem foldl_settle_single (target : Group) (rest : List Group) :
    rest.foldl settle [target] = [rest.foldl Group.fold target] := by
  induction rest generalizing target with
  | nil => rfl
  | cons g rest ih => exact ih (target.fold g)

theorem foldl_settle_several (first second : Group) (gs rest : List Group) :
    rest.foldl settle (first :: second :: gs) = rest.reverse ++ first :: second :: gs := by
  induction rest generalizing first second gs with
  | nil => rfl
  | cons g rest ih =>
      show rest.foldl settle (g :: first :: second :: gs) = _
      rw [ih, List.reverse_cons, List.append_assoc]
      rfl

end GovFuzz.Sbom
