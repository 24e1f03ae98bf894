import GovFuzz.Sbom.Groups

/-!
# SBOM — when a pinned version survives

The evidence always survives a merge.  The version does not: a versionless
group of higher rung wipes the version of the group it is folded into, and
a versionless member of higher rung that of its own key.  And a group
without a version is itself a target for the versionless groups after it.
Both are read off the input: the leader of a key is its first component of
highest rung, and the keys whose leader has no version are the ones that
can go wrong.
-/

namespace GovFuzz.Sbom

open GovFuzz.Lib

/-! ## Members and evidence are kept -/

theorem members_fold (g h : Group) : (g.fold h).members = g.members ++ h.members := by
  simp [Group.fold, Group.members]

/-- Folding a group in loses no member. -/
theorem members_foldVersionless {map : SortedMap Group} {key : String} {g : Group}
    (hnodup : (map.map Prod.fst).Nodup) (hfresh : key ∉ map.map Prod.fst) :
    ((foldVersionless Group.component Group.fold map (key, g)).flatMap
        fun entry => entry.2.members).Perm
      (map.flatMap (fun entry => entry.2.members) ++ g.members) := by
  have hinsert : ((map.insert key g).flatMap fun entry => entry.2.members).Perm
      (map.flatMap (fun entry => entry.2.members) ++ g.members) := by
    refine ((SortedMap.insert_perm g hfresh).flatMap_right _).trans ?_
    rw [List.flatMap_cons]
    exact List.perm_append_comm
  unfold foldVersionless
  dsimp only
  split
  case h_1 target hfilter =>
    have hmem : target ∈ map := by
      have : target ∈ map.filter fun other =>
          sameVersionlessTarget g.component other.2.component := by simp [hfilter]
      exact (List.mem_filter.mp this).1
    obtain ⟨before, after, rfl⟩ := List.append_of_mem hmem
    have hmodify := SortedMap.modify_split (fun existing => existing.fold g) hnodup
    rw [show target = (target.1, target.2) from rfl, hmodify]
    simp only [List.flatMap_append, List.flatMap_cons, members_fold, List.append_assoc]
    refine List.Perm.append_left _ (List.Perm.append_left _ ?_)
    exact List.perm_append_comm
  case h_2 => exact hinsert

theorem members_foldl (rest : SortedMap Group) {map : SortedMap Group}
    (h : (map.map Prod.fst ++ rest.map Prod.fst).Nodup) :
    ((rest.foldl (foldVersionless Group.component Group.fold) map).flatMap
        fun entry => entry.2.members).Perm
      ((map ++ rest).flatMap fun entry => entry.2.members) := by
  induction rest generalizing map with
  | nil => simp
  | cons entry rest ih =>
      rw [List.map_cons] at h
      have hparts := List.nodup_append.mp h
      have hfresh : entry.1 ∉ map.map Prod.fst :=
        fun hmem => hparts.2.2 entry.1 hmem entry.1 List.mem_cons_self rfl
      rw [List.foldl_cons]
      refine (ih (keys_foldVersionless h)).trans ?_
      rw [List.flatMap_append, List.flatMap_append, List.flatMap_cons, ← List.append_assoc]
      exact (members_foldVersionless hparts.1 hfresh).append_right _

theorem members_mergedGroups (components : List Component) :
    ((mergedGroups components).flatMap fun entry => entry.2.members).Perm components := by
  have h := grouped_primaryGroups components
  have hperm := versioned_versionless_perm (primaryGroups components)
  have hnodup := (hperm.map Prod.fst).nodup_iff.mpr h.nodup
  rw [List.map_append] at hnodup
  exact (members_foldl _ hnodup).trans ((hperm.flatMap_right _).trans h.perm)

/-! ## The groups of one library -/

theorem foldl_fold_parts (target : Group) (rest : List Group) :
    (rest.foldl Group.fold target).parts = target.parts ++ rest.flatMap Group.parts := by
  induction rest generalizing target with
  | nil => simp
  | cons g rest ih =>
      rw [List.foldl_cons, ih, List.flatMap_cons, ← List.append_assoc]
      rfl

theorem foldl_fold_represents {target : Group} {rest : List Group}
    (htarget : Represents target.component target.members)
    (hrest : ∀ g ∈ rest, Represents g.component g.members) :
    Represents (rest.foldl Group.fold target).component
      (rest.foldl Group.fold target).members := by
  induction rest generalizing target with
  | nil => exact htarget
  | cons g rest ih =>
      refine ih ?_ fun h hh => hrest h (List.mem_cons_of_mem _ hh)
      rw [members_fold]
      exact htarget.mergeInto (hrest g List.mem_cons_self)

/-- A version that is gone does not come back from versionless groups. -/
theorem foldl_fold_none {target : Group} {rest : List Group}
    (htarget : target.component.version = none)
    (hrest : ∀ g ∈ rest, g.component.version = none) :
    (rest.foldl Group.fold target).component.version = none := by
  induction rest generalizing target with
  | nil => exact htarget
  | cons g rest ih =>
      refine ih ?_ fun h hh => hrest h (List.mem_cons_of_mem _ hh)
      show (mergeInto target.component g.component).version = none
      rw [mergeInto_version, hrest g List.mem_cons_self, htarget, ite_self]

/-- A pinned group keeps its version exactly when no group folded into it has a higher rung.
-/
theorem foldl_fold_pinned {target : Group} {rest : List Group}
    (htarget : target.component.version.isSome)
    (hrest : ∀ g ∈ rest, g.component.version = none) :
    (rest.foldl Group.fold target).component.version.isSome
      ↔ ∀ g ∈ rest, rung g.component ≤ rung target.component := by
  induction rest generalizing target with
  | nil => simpa using htarget
  | cons g rest ih =>
      have hrest' : ∀ h ∈ rest, h.component.version = none :=
        fun h hh => hrest h (List.mem_cons_of_mem _ hh)
      have hversion := mergeInto_version target.component g.component
      have hrung := rung_mergeInto target.component g.component
      rw [List.foldl_cons, List.forall_mem_cons]
      by_cases hwins : rung target.component < rung g.component
      · rw [if_pos hwins, hrest g List.mem_cons_self] at hversion
        have hgone : (target.fold g).component.version = none := hversion
        rw [foldl_fold_none hgone hrest']
        constructor
        · exact fun h => by cases h
        · exact fun h => absurd h.1 (by omega)
      · rw [if_neg hwins] at hversion
        have hkept : (target.fold g).component.version.isSome := by
          show (mergeInto target.component g.component).version.isSome
          rw [hversion]
          exact htarget
        have hsame : rung (target.fold g).component = rung target.component := by
          show rung (mergeInto target.component g.component) = _
          omega
        rw [ih hkept hrest', hsame]
        exact ⟨fun h => ⟨by omega, h⟩, fun h => h.2⟩

/-- Folded, if at all, into the one versioned group of the library. -/
def FoldedRight (versioned versionless : List Group) (g : Group) : Prop :=
  2 ≤ g.parts.length →
    ∃ (target : Group) (folded : List Group), versioned = [target]
      ∧ (∀ h ∈ folded, h ∈ versionless)
      ∧ g.parts = target.parts ++ folded.flatMap Group.parts

/-- The versionless group `g` does no harm: it does not outrank the one
versioned group of its library, or it stays by itself and has no version
to lose. -/
def Harmless (versioned versionless : List Group) (g : Group) : Prop :=
  match versioned with
  | [target] => rung g.component ≤ rung target.component
  | [] => (∀ m ∈ g.members, m.version = none) ∧ versionless = [g]
  | _ :: _ :: _ => ∀ m ∈ g.members, m.version = none

structure PrimaryGroup (g : Group) : Prop where
  represents : Represents g.component g.members
  onePart : g.parts.length = 1

theorem PrimaryGroup.foldedRight {g : Group} (h : PrimaryGroup g)
    (versioned versionless : List Group) : FoldedRight versioned versionless g := by
  intro hparts
  rw [h.onePart] at hparts
  omega

theorem PrimaryGroup.versionKept_of_isSome {g : Group} (h : PrimaryGroup g)
    (hversion : g.component.version.isSome) : VersionKept g :=
  (versionKept_iff h.represents).mpr (.inl hversion)

theorem PrimaryGroup.versionKept_iff_none {g : Group} (h : PrimaryGroup g)
    (hversion : g.component.version = none) :
    VersionKept g ↔ ∀ m ∈ g.members, m.version = none := by
  rw [versionKept_iff h.represents, hversion]
  simp

/-- The groups of one library, before and after the post-pass. -/
theorem library_faithful_iff {versioned versionless : List Group}
    (hversioned : ∀ g ∈ versioned, PrimaryGroup g ∧ g.component.version.isSome)
    (hversionless : ∀ g ∈ versionless, PrimaryGroup g ∧ g.component.version = none) :
    (∀ g ∈ versionless.foldl settle versioned,
        VersionKept g ∧ FoldedRight versioned versionless g)
      ↔ ∀ g ∈ versionless, Harmless versioned versionless g := by
  match versioned, hversioned with
  | [target], hversioned =>
      obtain ⟨hprimary, hpinned⟩ := hversioned target (by simp)
      have hnone : ∀ g ∈ versionless, g.component.version = none :=
        fun g hg => (hversionless g hg).2
      rw [foldl_settle_single, List.forall_mem_singleton]
      simp only [Harmless]
      rw [← foldl_fold_pinned hpinned hnone]
      have hrep := foldl_fold_represents hprimary.represents
        fun g hg => (hversionless g hg).1.represents
      have hsome : ∃ m ∈ (versionless.foldl Group.fold target).members, m.version.isSome := by
        obtain ⟨top, htop, hversion, -⟩ := hprimary.represents.version
        refine ⟨top, ?_, hversion ▸ hpinned⟩
        rw [Group.members, foldl_fold_parts, List.flatten_append]
        exact List.mem_append_left _ htop.mem
      rw [versionKept_iff hrep]
      constructor
      · intro h
        rcases h.1 with hversion | hall
        · exact hversion
        · obtain ⟨m, hm, hmversion⟩ := hsome
          rw [hall m hm] at hmversion
          cases hmversion
      · intro hversion
        refine ⟨.inl hversion, fun _ => ⟨target, versionless, rfl, fun h hh => hh, ?_⟩⟩
        exact foldl_fold_parts target versionless
  | [], _ =>
      cases versionless with
      | nil => simp
      | cons first rest =>
          cases rest with
          | nil =>
              obtain ⟨hprimary, hnone⟩ := hversionless first (by simp)
              show (∀ h ∈ [first], VersionKept h ∧ FoldedRight [] [first] h)
                ↔ ∀ h ∈ [first], Harmless [] [first] h
              rw [List.forall_mem_singleton, List.forall_mem_singleton,
                hprimary.versionKept_iff_none hnone]
              exact ⟨fun h => ⟨h.1, rfl⟩, fun h => ⟨h.1, hprimary.foldedRight _ _⟩⟩
          | cons second rest =>
              -- the second group finds the first one in the map
              constructor
              · intro h
                have hfolded : (second :: rest).foldl settle [first]
                    = [(second :: rest).foldl Group.fold first] := foldl_settle_single _ _
                have hone := (h _ (by
                  show _ ∈ (second :: rest).foldl settle [first]
                  rw [hfolded]
                  exact List.mem_singleton.mpr rfl)).2
                have hparts := foldl_fold_parts first (second :: rest)
                have hfirst := (hversionless first (by simp)).1.onePart
                have hsecond := (hversionless second (by simp)).1.onePart
                have hlen : 2 ≤ ((second :: rest).foldl Group.fold first).parts.length := by
                  rw [hparts, List.length_append, List.flatMap_cons, List.length_append]
                  omega
                obtain ⟨target, folded, hnil, -⟩ := hone hlen
                cases hnil
              · intro h
                cases (h first (by simp)).2
  | first :: second :: others, hversioned =>
      rw [foldl_settle_several]
      constructor
      · intro h g hg
        obtain ⟨hprimary, hnone⟩ := hversionless g hg
        have hkept := (h g (List.mem_append_left _ (List.mem_reverse.mpr hg))).1
        exact (hprimary.versionKept_iff_none hnone).mp hkept
      · intro h g hg
        rcases List.mem_append.mp hg with hg | hg
        · have hg := List.mem_reverse.mp hg
          obtain ⟨hprimary, hnone⟩ := hversionless g hg
          exact ⟨(hprimary.versionKept_iff_none hnone).mpr (h g hg), hprimary.foldedRight _ _⟩
        · obtain ⟨hprimary, hsome⟩ := hversioned g hg
          exact ⟨hprimary.versionKept_of_isSome hsome, hprimary.foldedRight _ _⟩

/-! ## The same on the input -/

/-- The components of a key, in order. -/
def keyGroup (components : List Component) (key : String) : List Component :=
  components.filter fun c => keyOf c = key

/-- The first component of highest rung of its key. -/
def Leads (components : List Component) (c : Component) : Prop :=
  FirstTop (keyGroup components (keyOf c)) c

/-- A merged component keeps the name of the first of its key. -/
def libraryOf (components : List Component) (c : Component) :
    Option (String ⊕ String × String) :=
  (keyGroup components (keyOf c)).head?.map identity

/-- The key of `t` is a versioned one of the library of `c`. -/
def Pins (components : List Component) (t c : Component) : Prop :=
  Leads components t ∧ t.version.isSome ∧ libraryOf components t = libraryOf components c

/-- The versionless key of `c` does no harm: it does not outrank the one
versioned key of its library, or it stays by itself and has no version to
lose. -/
def Settled (components : List Component) (c : Component) : Prop :=
  (∃ t, Pins components t c ∧ rung c ≤ rung t
      ∧ ∀ t', Pins components t' c → keyOf t' = keyOf t)
    ∨ ((∀ m ∈ keyGroup components (keyOf c), m.version = none)
      ∧ ((∃ t t', Pins components t c ∧ Pins components t' c ∧ keyOf t ≠ keyOf t')
        ∨ ((∀ t, ¬ Pins components t c)
          ∧ ∀ c', Leads components c' → c'.version = none →
              libraryOf components c' = libraryOf components c → keyOf c' = keyOf c)))

/-- The group of the key that `c` leads. -/
structure LedBy (components : List Component) (g : Group) (c : Component) : Prop where
  mem : (keyOf c, g) ∈ primaryGroups components
  leads : Leads components c
  members : g.members = keyGroup components (keyOf c)
  version : g.component.version = c.version
  rung : rung g.component = rung c
  library : libraryOf components c = some g.identity

theorem exists_ledBy {components : List Component} {entry : String × Group}
    (h : entry ∈ primaryGroups components) :
    ∃ c, keyOf c = entry.1 ∧ LedBy components entry.2 c := by
  have hgrouped := grouped_primaryGroups components
  have hparts := hgrouped.parts entry h
  have hrep := hgrouped.represents entry h
  have hmembers : entry.2.members = keyGroup components entry.1 := by
    rw [Group.members, hparts]
    simp [keyGroup]
  obtain ⟨c, htop, hversion, hrung⟩ := hrep.version
  rw [hmembers] at htop
  have hkey : keyOf c = entry.1 := of_decide_eq_true (List.mem_filter.mp htop.mem).2
  have hlibrary := hrep.library
  rw [hmembers, ← hkey] at hlibrary
  rw [← hkey] at hmembers htop
  exact ⟨c, hkey, hkey ▸ h, htop, hmembers, hversion, hrung, hlibrary⟩

theorem Leads.exists_group {components : List Component} {c : Component}
    (h : Leads components c) : ∃ g, LedBy components g c := by
  have hgrouped := grouped_primaryGroups components
  have hmem : c ∈ components := (List.mem_filter.mp (FirstTop.mem h)).1
  obtain ⟨entry, hentry, hkey⟩ := List.mem_map.mp (hgrouped.covered c hmem)
  obtain ⟨c', hkey', hled⟩ := exists_ledBy hentry
  have hleads := hled.leads
  rw [Leads, hkey', hkey] at hleads
  obtain rfl : c' = c := hleads.unique h
  exact ⟨entry.2, hled⟩

/-- One group for each key. -/
theorem LedBy.eq_iff {components : List Component} {g g' : Group} {c c' : Component}
    (h : LedBy components g c) (h' : LedBy components g' c') :
    g = g' ↔ keyOf c = keyOf c' := by
  constructor
  · intro heq
    have hmem : c ∈ g'.members := by
      rw [← heq, h.members]
      exact FirstTop.mem h.leads
    rw [h'.members] at hmem
    exact of_decide_eq_true (List.mem_filter.mp hmem).2
  · intro hkey
    have hpairs :=
      List.inj_on_of_nodup_map (grouped_primaryGroups components).nodup h.mem h'.mem hkey
    exact congrArg Prod.snd hpairs

theorem nodup_groups (components : List Component) :
    ((primaryGroups components).map Prod.snd).Nodup := by
  refine List.Nodup.map_on ?_ (grouped_primaryGroups components).nodup.of_map
  intro entry hentry entry' hentry' heq
  obtain ⟨c, hkey, hled⟩ := exists_ledBy hentry
  obtain ⟨c', hkey', hled'⟩ := exists_ledBy hentry'
  exact Prod.ext (hkey ▸ hkey' ▸ (hled.eq_iff hled').mp heq) heq

/-! ## One library of the input -/

def versionedGroups (components : List Component) (i : String ⊕ String × String) : List Group :=
  ofLibrary i (versionedOf Group.component (primaryGroups components))

def versionlessGroups (components : List Component) (i : String ⊕ String × String) :
    List Group :=
  ofLibrary i (versionlessOf Group.component (primaryGroups components))

section Library

variable {components : List Component} {i : String ⊕ String × String} {g : Group} {c : Component}

theorem mem_ofLibrary_filter {p : String × Group → Bool} {map : SortedMap Group} :
    g ∈ ofLibrary i (map.filter p) ↔ ∃ entry ∈ map, p entry ∧ entry.2 = g ∧ g.identity = i := by
  simp only [ofLibrary, List.mem_filter, List.mem_map, decide_eq_true_eq]
  constructor
  · rintro ⟨⟨entry, ⟨hentry, hp⟩, rfl⟩, hi⟩
    exact ⟨entry, hentry, hp, rfl, hi⟩
  · rintro ⟨entry, hentry, hp, rfl, hi⟩
    exact ⟨⟨entry, ⟨hentry, hp⟩, rfl⟩, hi⟩

theorem nodup_ofLibrary_filter (p : String × Group → Bool) :
    (ofLibrary i ((primaryGroups components).filter p)).Nodup :=
  (((List.filter_sublist).map Prod.snd).nodup (nodup_groups components)).filter _

theorem primaryGroup_of_mem {entry : String × Group} (h : entry ∈ primaryGroups components) :
    PrimaryGroup entry.2 := by
  have hgrouped := grouped_primaryGroups components
  exact ⟨hgrouped.represents entry h, by rw [hgrouped.parts entry h]; rfl⟩

theorem mem_versionedGroups (h : g ∈ versionedGroups components i) :
    ∃ c, LedBy components g c ∧ c.version.isSome ∧ libraryOf components c = some i := by
  obtain ⟨entry, hentry, hversion, rfl, hi⟩ := mem_ofLibrary_filter.mp h
  obtain ⟨c, -, hled⟩ := exists_ledBy hentry
  exact ⟨c, hled, hled.version ▸ hversion, hi ▸ hled.library⟩

theorem LedBy.mem_versionedGroups (h : LedBy components g c) (hversion : c.version.isSome)
    (hi : libraryOf components c = some i) : g ∈ versionedGroups components i := by
  refine mem_ofLibrary_filter.mpr ⟨_, h.mem, ?_, rfl, ?_⟩
  · rw [h.version]
    exact hversion
  · rw [h.library] at hi
    exact Option.some.inj hi

theorem mem_versionlessGroups (h : g ∈ versionlessGroups components i) :
    ∃ c, LedBy components g c ∧ c.version = none ∧ libraryOf components c = some i := by
  obtain ⟨entry, hentry, hversion, rfl, hi⟩ := mem_ofLibrary_filter.mp h
  obtain ⟨c, -, hled⟩ := exists_ledBy hentry
  rw [hled.version, Option.isNone_iff_eq_none] at hversion
  exact ⟨c, hled, hversion, hi ▸ hled.library⟩

theorem LedBy.mem_versionlessGroups (h : LedBy components g c) (hversion : c.version = none)
    (hi : libraryOf components c = some i) : g ∈ versionlessGroups components i := by
  refine mem_ofLibrary_filter.mpr ⟨_, h.mem, ?_, rfl, ?_⟩
  · rw [h.version, hversion]
    rfl
  · rw [h.library] at hi
    exact Option.some.inj hi

/-- What leads a versioned group of the library of `c` pins it. -/
theorem Pins.exists_group {t : Component} (h : Pins components t c)
    (hi : libraryOf components c = some i) :
    ∃ target ∈ versionedGroups components i, LedBy components target t := by
  obtain ⟨target, hled⟩ := h.1.exists_group
  exact ⟨target, hled.mem_versionedGroups h.2.1 (h.2.2.trans hi), hled⟩

theorem exists_pins {target : Group} (h : target ∈ versionedGroups components i)
    (hi : libraryOf components c = some i) :
    ∃ t, LedBy components target t ∧ Pins components t c := by
  obtain ⟨t, hled, hversion, hlibrary⟩ := mem_versionedGroups h
  exact ⟨t, hled, hled.leads, hversion, hlibrary.trans hi.symm⟩

/-- The versionless group that `c` leads does no harm exactly when the components settle
`c`. -/
theorem harmless_iff_settled (hled : LedBy components g c) (hversion : c.version = none) :
    Harmless (versionedGroups components g.identity) (versionlessGroups components g.identity) g
      ↔ Settled components c := by
  have hi := hled.library
  have hmem := hled.mem_versionlessGroups hversion hi
  have hnodup : (versionedGroups components g.identity).Nodup := nodup_ofLibrary_filter _
  have hpins : ∀ target ∈ versionedGroups components g.identity,
      ∃ t, LedBy components target t ∧ Pins components t c := fun target h => exists_pins h hi
  have htargets : ∀ t, Pins components t c →
      ∃ target ∈ versionedGroups components g.identity, LedBy components target t :=
    fun t h => h.exists_group hi
  generalize versionedGroups components g.identity = versioned at hnodup hpins htargets ⊢
  match versioned, hnodup, hpins, htargets with
  | [target], _, hpins, htargets =>
      have hsame : ∀ t, Pins components t c → LedBy components target t := by
        intro t ht
        obtain ⟨target', hmem', hled'⟩ := htargets t ht
        rw [List.mem_singleton.mp hmem'] at hled'
        exact hled'
      obtain ⟨t, hledt, hpint⟩ := hpins target (by simp)
      show rung g.component ≤ rung target.component ↔ _
      rw [hled.rung, hledt.rung]
      constructor
      · intro hle
        exact .inl ⟨t, hpint, hle, fun t' ht' => ((hsame t' ht').eq_iff hledt).mp rfl⟩
      · rintro (⟨t', hpint', hle, -⟩ | ⟨-, ⟨t₁, t₂, h₁, h₂, hne⟩ | ⟨hno, -⟩⟩)
        · rw [← hledt.rung, (hsame t' hpint').rung]
          exact hle
        · exact absurd (((hsame t₁ h₁).eq_iff (hsame t₂ h₂)).mp rfl) hne
        · exact absurd hpint (hno t)
  | [], _, _, htargets =>
      have hno : ∀ t, ¬ Pins components t c := by
        intro t ht
        obtain ⟨target, hmem', -⟩ := htargets t ht
        cases hmem'
      show (∀ m ∈ g.members, m.version = none) ∧ versionlessGroups components g.identity = [g] ↔ _
      rw [hled.members]
      constructor
      · rintro ⟨hnone, halone⟩
        refine .inr ⟨hnone, .inr ⟨hno, fun c' hleads' hversion' hlibrary' => ?_⟩⟩
        obtain ⟨g', hled'⟩ := hleads'.exists_group
        have hmem' := hled'.mem_versionlessGroups hversion' (hlibrary'.trans hi)
        rw [halone, List.mem_singleton] at hmem'
        exact (hled'.eq_iff hled).mp hmem'
      · rintro (⟨t, ht, -⟩ | ⟨hnone, ⟨t, -, ht, -⟩ | ⟨-, halone⟩⟩)
        · exact absurd ht (hno t)
        · exact absurd ht (hno t)
        · refine ⟨hnone, ?_⟩
          have hall : ∀ g' ∈ versionlessGroups components g.identity, g' = g := by
            intro g' hg'
            obtain ⟨c', hled', hversion', hlibrary'⟩ := mem_versionlessGroups hg'
            have hkey := halone c' hled'.leads hversion' (hlibrary'.trans hi.symm)
            exact (hled'.eq_iff hled).mpr hkey
          have hnodup' : (versionlessGroups components g.identity).Nodup :=
            nodup_ofLibrary_filter _
          rw [List.eq_replicate_of_mem hall] at hnodup' hmem ⊢
          have hone := List.nodup_replicate.mp hnodup'
          have hsome := (List.mem_replicate.mp hmem).1
          rw [show (versionlessGroups components g.identity).length = 1 by omega]
          rfl
  | first :: second :: rest, hnodup, hpins, htargets =>
      obtain ⟨t₁, hled₁, hpin₁⟩ := hpins first (by simp)
      obtain ⟨t₂, hled₂, hpin₂⟩ := hpins second (by simp)
      have hne : keyOf t₁ ≠ keyOf t₂ := by
        intro hkey
        have heq := (hled₁.eq_iff hled₂).mpr hkey
        rw [heq] at hnodup
        exact (List.nodup_cons.mp hnodup).1 List.mem_cons_self
      show (∀ m ∈ g.members, m.version = none) ↔ _
      rw [hled.members]
      constructor
      · intro hnone
        exact .inr ⟨hnone, .inl ⟨t₁, t₂, hpin₁, hpin₂, hne⟩⟩
      · rintro (⟨t, -, -, hsole⟩ | ⟨hnone, -⟩)
        · exact absurd ((hsole t₁ hpin₁).trans (hsole t₂ hpin₂).symm) hne
        · exact hnone

end Library

/-! ## Merging -/

/-- Merging loses no evidence and no version, and folds only into the one
versioned group of the library. -/
structure Faithful (components : List Component) : Prop where
  evidence : ((mergeByIdentity components).flatMap Component.evidence).Perm
    (components.flatMap Component.evidence)
  tracked : (mergeByIdentity components).Perm
    ((mergedGroups components).map fun entry => entry.2.component)
  version : ∀ entry ∈ mergedGroups components, VersionKept entry.2
  folded : ∀ entry ∈ mergedGroups components,
    FoldedRight (versionedGroups components entry.2.identity)
      (versionlessGroups components entry.2.identity) entry.2

theorem foldl_settle_represents {versioned : List Group} (versionless : List Group)
    (hversioned : ∀ g ∈ versioned, Represents g.component g.members)
    (hversionless : ∀ g ∈ versionless, Represents g.component g.members) :
    ∀ g ∈ versionless.foldl settle versioned, Represents g.component g.members := by
  induction versionless generalizing versioned with
  | nil => exact hversioned
  | cons h rest ih =>
      rw [List.forall_mem_cons] at hversionless
      refine ih ?_ hversionless.2
      unfold settle
      split
      case h_1 target =>
        rw [List.forall_mem_singleton] at hversioned ⊢
        rw [members_fold]
        exact hversioned.mergeInto hversionless.1
      case h_2 => exact List.forall_mem_cons.mpr ⟨hversionless.1, hversioned⟩

section Outcome

variable {components : List Component} {i : String ⊕ String × String} {g : Group}

/-- The merged groups of a library. -/
theorem ofLibrary_mergedGroups :
    (ofLibrary i (mergedGroups components)).Perm
      ((versionlessGroups components i).foldl settle (versionedGroups components i)) :=
  ofLibrary_postPass (grouped_primaryGroups components).nodup i

theorem mem_foldl_settle_of_mem {entry : String × Group} (h : entry ∈ mergedGroups components) :
    entry.2 ∈ (versionlessGroups components entry.2.identity).foldl settle
      (versionedGroups components entry.2.identity) := by
  rw [← ofLibrary_mergedGroups.mem_iff]
  exact List.mem_filter.mpr ⟨List.mem_map_of_mem h, decide_eq_true rfl⟩

theorem exists_entry_of_mem (h : g ∈ (versionlessGroups components i).foldl settle
    (versionedGroups components i)) :
    ∃ entry ∈ mergedGroups components, entry.2 = g ∧ g.identity = i := by
  rw [← ofLibrary_mergedGroups.mem_iff] at h
  obtain ⟨hmem, hi⟩ := List.mem_filter.mp h
  obtain ⟨entry, hentry, rfl⟩ := List.mem_map.mp hmem
  exact ⟨entry, hentry, rfl, of_decide_eq_true hi⟩

theorem versionedGroups_primary (components : List Component) (i : String ⊕ String × String) :
    ∀ g ∈ versionedGroups components i, PrimaryGroup g ∧ g.component.version.isSome := by
  intro g hg
  obtain ⟨entry, hentry, hversion, rfl, -⟩ := mem_ofLibrary_filter.mp hg
  exact ⟨primaryGroup_of_mem hentry, hversion⟩

theorem versionlessGroups_primary (components : List Component)
    (i : String ⊕ String × String) :
    ∀ g ∈ versionlessGroups components i, PrimaryGroup g ∧ g.component.version = none := by
  intro g hg
  obtain ⟨entry, hentry, hversion, rfl, -⟩ := mem_ofLibrary_filter.mp hg
  exact ⟨primaryGroup_of_mem hentry, Option.isNone_iff_eq_none.mp hversion⟩

theorem mergedGroups_represents {entry : String × Group} (h : entry ∈ mergedGroups components) :
    Represents entry.2.component entry.2.members :=
  foldl_settle_represents _ (fun g hg => (versionedGroups_primary _ _ g hg).1.represents)
    (fun g hg => (versionlessGroups_primary _ _ g hg).1.represents) _ (mem_foldl_settle_of_mem h)

end Outcome

/-- Merging loses no evidence. -/
theorem mergeByIdentity_evidence (components : List Component) :
    ((mergeByIdentity components).flatMap Component.evidence).Perm
      (components.flatMap Component.evidence) := by
  refine ((mergeByIdentity_perm components).flatMap_right _).trans ?_
  refine List.Perm.trans ?_ ((members_mergedGroups components).flatMap_right _)
  rw [List.flatMap_map, List.flatMap_assoc]
  refine List.Perm.of_eq (List.flatMap_congr fun entry hentry => ?_)
  exact (mergedGroups_represents hentry).evidence

/-- A pinned version is forgotten, or a group folded into one without a
version, exactly where a key led by a component without a version is not
settled. -/
theorem faithful_iff_settled (components : List Component) :
    Faithful components
      ↔ ∀ c, Leads components c → c.version = none → Settled components c := by
  have hlibrary := fun i => library_faithful_iff
    (versionedGroups_primary components i) (versionlessGroups_primary components i)
  constructor
  · intro h c hleads hversion
    obtain ⟨g, hled⟩ := hleads.exists_group
    refine (harmless_iff_settled hled hversion).mp ?_
    refine (hlibrary g.identity).mp ?_ g (hled.mem_versionlessGroups hversion hled.library)
    intro g' hg'
    obtain ⟨entry, hentry, rfl, hi⟩ := exists_entry_of_mem hg'
    have hfolded := h.folded entry hentry
    rw [hi] at hfolded
    exact ⟨h.version entry hentry, hfolded⟩
  · intro h
    have hall : ∀ entry ∈ mergedGroups components, VersionKept entry.2
        ∧ FoldedRight (versionedGroups components entry.2.identity)
          (versionlessGroups components entry.2.identity) entry.2 := by
      intro entry hentry
      refine (hlibrary entry.2.identity).mpr ?_ _ (mem_foldl_settle_of_mem hentry)
      intro g hg
      obtain ⟨c, hled, hversion, hi⟩ := mem_versionlessGroups hg
      have hidentity : g.identity = entry.2.identity :=
        Option.some.inj (hled.library.symm.trans hi)
      rw [← hidentity]
      exact (harmless_iff_settled hled hversion).mpr (h c hled.leads hversion)
    exact ⟨mergeByIdentity_evidence components, mergeByIdentity_perm components,
      fun entry hentry => (hall entry hentry).1, fun entry hentry => (hall entry hentry).2⟩

/-- A library pinned by a `dependency` of `meson.build`. -/
def declaredCatch2 : Component :=
  { componentRef := "", name := "catch2", group := none, version := some "3.5.2"
    ecosystem := "generic", componentType := "library", supplier := none, license := none
    purl := some "pkg:generic/catch2@3.5.2", cpe := none, sha256 := none, hashes := []
    identityConfidence := "low", matchingMethod := "meson_dependency"
    evidence := [⟨.declared, "meson.build:dependency(catch2)", none⟩], runtimeHarnesses := [] }

/-- The same library as an include of a source file. -/
def observedCatch2 : Component :=
  { declaredCatch2 with
    version := none, ecosystem := "c", purl := some "pkg:generic/catch2"
    matchingMethod := "c_source_include_external"
    evidence := [⟨.sourceObserved, "test.cpp:1", none⟩] }

/-- An include seen in the sources wipes the pinned version. -/
theorem not_faithful_observed : ¬ Faithful [declaredCatch2, observedCatch2] := by
  intro h
  have hmerged : ∃ entry ∈ mergedGroups [declaredCatch2, observedCatch2],
      entry.2.component.version = none ∧ declaredCatch2 ∈ entry.2.members := by
    decide
  obtain ⟨entry, hentry, hnone, hmem⟩ := hmerged
  obtain ⟨m, -, hpinned, heq, -⟩ := h.version entry hentry ⟨declaredCatch2, hmem, rfl⟩
  rw [← heq, hnone] at hpinned
  cases hpinned

end GovFuzz.Sbom
