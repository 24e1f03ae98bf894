import GovFuzz.Sbom.Combined
import Mathlib.Data.Multiset.Basic

/-!
# SBOM — what a component takes from its keys

The evidence of all, the labels of the first one found, the harnesses once
each; and each other field from the component that supplies it, by the rule
of the merge: a winner that lacks an optional field leaves what was there.
-/

namespace GovFuzz.Sbom

open GovFuzz.Lib

/-! ## A component up to the order of its lists -/

/-- The evidence and the harnesses counted, the rest as it is. -/
def Component.unordered (c : Component) : Component × Multiset Evidence × Multiset String :=
  ({ c with evidence := [], runtimeHarnesses := [] }, ↑c.evidence, ↑c.runtimeHarnesses)

/-- What a merge keeps of the first component. -/
structure Labels where
  componentRef : String
  name : String
  ecosystem : String
  componentType : String
  supplier : Option String
  cpe : Option String
  identityConfidence : String
  matchingMethod : String
  deriving DecidableEq

def Component.labels (c : Component) : Labels :=
  { componentRef := c.componentRef, name := c.name, ecosystem := c.ecosystem
    componentType := c.componentType, supplier := c.supplier, cpe := c.cpe
    identityConfidence := c.identityConfidence, matchingMethod := c.matchingMethod }

/-- The fields taken from the winner only when it has them. -/
inductive Field where
  | sha256
  | license
  | group
  | hashes
  deriving DecidableEq

def Field.of : Field → Component → Option (String ⊕ List HashRef)
  | .sha256, c => c.sha256.map .inl
  | .license, c => c.license.map .inl
  | .group, c => c.group.map .inl
  | .hashes, c => if c.hashes.isEmpty then none else some (.inr c.hashes)

/-- The fields taken from the winner in any case. -/
def Component.pin (c : Component) : Option (Option String × Option String) :=
  some (c.version, c.purl)

theorem or_map_inl (first second : Option String) :
    (first.or second).map (Sum.inl (β := List HashRef))
      = (first.map Sum.inl).or (second.map Sum.inl) := by
  cases first <;> rfl

/-- Each field is merged by rank. -/
theorem rankedMerge_field (f : Field) : RankedMerge mergeInto rung f.of := by
  refine ⟨rung_mergeInto, fun a b => ?_⟩
  have hwins : (rungValue (topRung b.evidence) > rungValue (topRung a.evidence))
      = (rung a < rung b) := rfl
  cases f with
  | sha256 =>
      simp only [Field.of, mergeInto, hwins]
      split <;> exact or_map_inl _ _
  | license =>
      simp only [Field.of, mergeInto, hwins]
      split <;> exact or_map_inl _ _
  | group =>
      simp only [Field.of, mergeInto, hwins]
      split <;> exact or_map_inl _ _
  | hashes =>
      simp only [Field.of, mergeInto, hwins]
      generalize a.hashes = existing
      generalize b.hashes = incoming
      cases existing with
      | nil =>
          cases incoming with
          | nil => simp
          | cons => simp
      | cons =>
          cases incoming with
          | nil => simp
          | cons => split <;> simp

theorem rankedMerge_pin : RankedMerge mergeInto rung Component.pin := by
  refine ⟨rung_mergeInto, fun a b => ?_⟩
  have hwins : (rungValue (topRung b.evidence) > rungValue (topRung a.evidence))
      = (rung a < rung b) := rfl
  simp only [Component.pin, mergeInto, hwins]
  split <;> rfl

/-- Equal up to the order of the lists. -/
theorem unordered_eq_iff (a b : Component) :
    a.unordered = b.unordered ↔ a.labels = b.labels ∧ a.pin = b.pin ∧ (∀ f : Field, f.of a = f.of b)
      ∧ a.evidence.Perm b.evidence ∧ a.runtimeHarnesses.Perm b.runtimeHarnesses := by
  have hhashes : Field.hashes.of a = Field.hashes.of b ↔ a.hashes = b.hashes := by
    constructor
    · intro h
      simp only [Field.of] at h
      split at h
      case isTrue ha =>
          split at h
          case isTrue hb => rw [List.isEmpty_iff.mp ha, List.isEmpty_iff.mp hb]
          case isFalse => cases h
      case isFalse ha =>
          split at h
          case isTrue => cases h
          case isFalse => simpa using h
    · intro h
      simp only [Field.of, h]
  have hinl : ∀ first second : Option String,
      first.map (Sum.inl (β := List HashRef)) = second.map Sum.inl ↔ first = second :=
    fun first second => (Option.map_injective Sum.inl_injective).eq_iff
  constructor
  · intro h
    simp only [Component.unordered, Prod.mk.injEq, Component.mk.injEq, Multiset.coe_eq_coe] at h
    refine ⟨?_, ?_, fun f => ?_, h.2.1, h.2.2⟩
    · simp [Component.labels, h.1]
    · simp [Component.pin, h.1]
    · cases f with
      | sha256 => simp [Field.of, h.1]
      | license => simp [Field.of, h.1]
      | group => simp [Field.of, h.1]
      | hashes => simp [Field.of, h.1]
  · rintro ⟨hlabels, hpin, hfields, hevidence, hharnesses⟩
    simp only [Component.labels, Labels.mk.injEq, Component.pin, Option.some.injEq,
      Prod.mk.injEq] at hlabels hpin
    have hsha := (hinl _ _).mp (hfields .sha256)
    have hlicense := (hinl _ _).mp (hfields .license)
    have hgroup := (hinl _ _).mp (hfields .group)
    have hhash := hhashes.mp (hfields .hashes)
    simp only [Component.unordered, Prod.mk.injEq, Component.mk.injEq, Multiset.coe_eq_coe]
    simp [hlabels, hpin, hsha, hlicense, hgroup, hhash, hevidence, hharnesses]

/-! ## What a component takes from its keys -/

def keyRung (components : List Component) (key : String) : Nat :=
  ((keyGroup components key).map rung).foldl max 0

def keyHas (components : List Component) (f : Field) (key : String) : Bool :=
  (keyGroup components key).any fun c => (f.of c).isSome

section Reduced

variable {members : List Component} {c : Component}

theorem evidence_reduce (h : reduce mergeInto members = some c) :
    c.evidence = members.flatMap Component.evidence := by
  refine reduce_induction (P := fun l c => c.evidence = l.flatMap Component.evidence) ?_ ?_ h
  · simp
  · intro l a b ih
    show a.evidence ++ b.evidence = _
    rw [ih, List.flatMap_append, List.flatMap_singleton]

theorem labels_reduce (h : reduce mergeInto members = some c) :
    members.head?.map Component.labels = some c.labels := by
  refine reduce_induction
    (P := fun l c => l.head?.map Component.labels = some c.labels) ?_ ?_ h
  · simp
  · intro l a b ih
    cases l with
    | nil => cases ih
    | cons first rest => exact ih

theorem rung_reduce (h : reduce mergeInto members = some c) :
    (members.map rung).foldl max 0 = rung c := by
  refine reduce_induction (P := fun l c => (l.map rung).foldl max 0 = rung c) ?_ ?_ h
  · simp
  · intro l a b ih
    rw [List.map_append, List.foldl_append, ih, rung_mergeInto]
    rfl

/-- A harness keeps the count it had, and a new one is counted once. -/
theorem count_addHarnesses (h : String) (existing incoming : List String) :
    (addHarnesses existing incoming).count h
      = if h ∈ existing then existing.count h else if h ∈ incoming then 1 else 0 := by
  unfold addHarnesses
  induction incoming generalizing existing with
  | nil =>
      by_cases hmem : h ∈ existing
      · simp [hmem]
      · simp [hmem, List.count_eq_zero]
  | cons x incoming ih =>
      rw [List.foldl_cons, ih]
      by_cases hx : x ∈ existing
      · rw [if_pos hx]
        by_cases hmem : h ∈ existing
        · rw [if_pos hmem, if_pos hmem]
        · have hne : h ≠ x := fun heq => hmem (heq ▸ hx)
          simp [hmem, hne]
      · rw [if_neg hx]
        by_cases hmem : h ∈ existing
        · have hne : x ≠ h := fun heq => hx (heq ▸ hmem)
          simp [hmem, List.count_append, hne]
        · by_cases heq : h = x
          · subst heq
            simp [hmem, List.count_append, List.count_eq_zero.mpr hmem]
          · simp [hmem, heq]

/-- How often a harness stands in a merged component: as often as in the
first one, or once if only others have it. -/
def harnessCount (h : String) : List Component → Nat
  | [] => 0
  | first :: rest =>
      if h ∈ first.runtimeHarnesses then first.runtimeHarnesses.count h
      else if h ∈ rest.flatMap Component.runtimeHarnesses then 1 else 0

theorem harnessCount_cons (h : String) (first : Component) (rest : List Component) :
    harnessCount h (first :: rest)
      = if h ∈ first.runtimeHarnesses then first.runtimeHarnesses.count h
        else if h ∈ rest.flatMap Component.runtimeHarnesses then 1 else 0 := rfl

theorem harnessCount_pos_iff (h : String) (l : List Component) :
    0 < harnessCount h l ↔ h ∈ l.flatMap Component.runtimeHarnesses := by
  cases l with
  | nil => simp [harnessCount]
  | cons first rest =>
      rw [harnessCount_cons, List.flatMap_cons, List.mem_append]
      by_cases hfirst : h ∈ first.runtimeHarnesses
      · simp [hfirst]
      · rw [if_neg hfirst]
        by_cases hrest : h ∈ rest.flatMap Component.runtimeHarnesses
        · rw [if_pos hrest]
          exact ⟨fun _ => .inr hrest, fun _ => Nat.one_pos⟩
        · rw [if_neg hrest]
          exact ⟨fun hlt => absurd hlt (lt_irrefl 0), fun hor => absurd hor (by simp [*])⟩

theorem harnessCount_append (h : String) {l : List Component} (hl : l ≠ [])
    (more : List Component) :
    harnessCount h (l ++ more) = if 0 < harnessCount h l then harnessCount h l
      else if h ∈ more.flatMap Component.runtimeHarnesses then 1 else 0 := by
  simp only [harnessCount_pos_iff]
  cases l with
  | nil => exact absurd rfl hl
  | cons first rest =>
      rw [List.cons_append, harnessCount_cons, harnessCount_cons, List.flatMap_append]
      simp only [List.flatMap_cons, List.mem_append]
      by_cases hfirst : h ∈ first.runtimeHarnesses
      · simp only [if_pos hfirst, if_pos (Or.inl hfirst)]
      · simp only [if_neg hfirst]
        by_cases hrest : h ∈ rest.flatMap Component.runtimeHarnesses
        · simp only [if_pos (Or.inl hrest), if_pos (Or.inr hrest), if_pos hrest]
        · simp only [hfirst, hrest, false_or, or_self, if_false]

theorem count_mergeInto (h : String) (a b : Component) :
    (mergeInto a b).runtimeHarnesses.count h
      = if 0 < a.runtimeHarnesses.count h then a.runtimeHarnesses.count h
        else if h ∈ b.runtimeHarnesses then 1 else 0 := by
  simp only [List.count_pos_iff]
  exact count_addHarnesses h _ _

theorem count_reduce (h : String) (hc : reduce mergeInto members = some c) :
    c.runtimeHarnesses.count h = harnessCount h members := by
  suffices hboth : members ≠ [] ∧ c.runtimeHarnesses.count h = harnessCount h members from
    hboth.2
  refine reduce_induction
    (P := fun l c => l ≠ [] ∧ c.runtimeHarnesses.count h = harnessCount h l) ?_ ?_ hc
  · intro a
    refine ⟨by simp, ?_⟩
    by_cases hmem : h ∈ a.runtimeHarnesses
    · simp [harnessCount, hmem]
    · simp [harnessCount, hmem, List.count_eq_zero]
  · intro l a b ⟨hl, ih⟩
    refine ⟨by simp, ?_⟩
    rw [count_mergeInto, harnessCount_append h hl, ih, List.flatMap_singleton]

end Reduced

section Keys

variable {components : List Component} {keys : List String} {c : Component}

theorem keyGroup_ne_nil {key : String} (h : key ∈ keysOf components) :
    keyGroup components key ≠ [] := by
  rw [← keys_primaryGroups, mem_primaryKeys] at h
  obtain ⟨c, hc, rfl⟩ := List.mem_map.mp h
  exact List.ne_nil_of_mem (List.mem_filter.mpr ⟨hc, by simp⟩)

/-- What a merged component has by its members, the components of the keys
have by theirs. -/
theorem map_mergedComponents {γ : Type} {f : Component → γ} {g : List Component → γ}
    (hreduce : ∀ members c, reduce mergeInto members = some c → f c = g members)
    (hkeys : ∀ key ∈ keys, key ∈ keysOf components) :
    (mergedComponents components keys).map f = keys.map fun key => g (keyGroup components key) := by
  induction keys with
  | nil => rfl
  | cons key keys ih =>
      rw [List.forall_mem_cons] at hkeys
      obtain ⟨c, hc⟩ := exists_reduce mergeInto (keyGroup_ne_nil hkeys.1)
      rw [mergedComponents_cons hc, List.map_cons, List.map_cons, hreduce _ _ hc, ih hkeys.2]

theorem exists_mergeKeys (hkeys : ∀ key ∈ keys, key ∈ keysOf components) (hne : keys ≠ []) :
    ∃ c, mergeKeys components keys = some c := by
  refine exists_reduce mergeInto fun hnil => hne ?_
  have hmap := map_mergedComponents (f := fun _ => ()) (g := fun _ => ()) (fun _ _ _ => rfl) hkeys
  rw [hnil] at hmap
  exact List.map_eq_nil_iff.mp hmap.symm

theorem evidence_mergeKeys (hkeys : ∀ key ∈ keys, key ∈ keysOf components)
    (h : mergeKeys components keys = some c) :
    c.evidence = keys.flatMap fun key => (keyGroup components key).flatMap Component.evidence := by
  rw [evidence_reduce h, List.flatMap_def, List.flatMap_def]
  exact congrArg _ (map_mergedComponents (fun _ _ => evidence_reduce) hkeys)

theorem labels_mergeKeys {key : String} (hkeys : ∀ key ∈ keys, key ∈ keysOf components)
    (h : mergeKeys components keys = some c) (hfirst : keys.head? = some key) :
    (keyGroup components key).head?.map Component.labels = some c.labels := by
  have hhead := congrArg List.head? (map_mergedComponents
    (g := fun members => members.head?.map Component.labels)
    (fun _ _ hm => (labels_reduce hm).symm) hkeys)
  have hc := labels_reduce h
  rw [List.head?_map, List.head?_map, hfirst, Option.map_some] at hhead
  cases hgroups : (mergedComponents components keys).head? with
  | none => rw [hgroups] at hhead; cases hhead
  | some g =>
      rw [hgroups] at hhead hc
      rw [← Option.some.inj hhead]
      exact hc

/-- The value comes from the key that supplies it. -/
theorem view_mergeKeys {γ : Type} {view : Component → Option γ}
    (hview : RankedMerge mergeInto rung view) (hkeys : ∀ key ∈ keys, key ∈ keysOf components)
    (h : mergeKeys components keys = some c) :
    view c = supplied (keyRung components)
      (fun key => supplied rung view (keyGroup components key)) keys := by
  rw [hview.value_reduce h]
  refine supplied_congr ?_
  refine map_mergedComponents
    (g := fun members => ((members.map rung).foldl max 0, supplied rung view members)) ?_ hkeys
  intro members g hg
  rw [rung_reduce hg, hview.value_reduce hg]

theorem harnesses_mergedComponents (h : String) (hkeys : ∀ key ∈ keys, key ∈ keysOf components) :
    h ∈ (mergedComponents components keys).flatMap Component.runtimeHarnesses
      ↔ h ∈ (keys.flatMap (keyGroup components)).flatMap Component.runtimeHarnesses := by
  have hmap := map_mergedComponents (f := fun c => decide (h ∈ c.runtimeHarnesses))
    (g := fun members => decide (h ∈ members.flatMap Component.runtimeHarnesses)) ?_ hkeys
  · have hany := congrArg (List.any · id) hmap
    rw [List.any_map, List.any_map, Bool.eq_iff_iff, List.any_eq_true, List.any_eq_true] at hany
    rw [List.flatMap_assoc, List.mem_flatMap, List.mem_flatMap]
    simpa using hany
  · intro members c hc
    rw [decide_eq_decide, ← harnessCount_pos_iff, ← count_reduce h hc, List.count_pos_iff]

theorem count_mergeKeys (h : String) (hkeys : ∀ key ∈ keys, key ∈ keysOf components)
    (hc : mergeKeys components keys = some c) :
    c.runtimeHarnesses.count h = harnessCount h (keys.flatMap (keyGroup components)) := by
  cases keys with
  | nil => cases hc
  | cons key keys =>
      rw [List.forall_mem_cons] at hkeys
      obtain ⟨g, hg⟩ := exists_reduce mergeInto (keyGroup_ne_nil hkeys.1)
      have hfirst : harnessCount h [g] = harnessCount h (keyGroup components key) := by
        rw [← count_reduce h hg, ← count_reduce h (reduce_singleton mergeInto g)]
      rw [mergeKeys, mergedComponents_cons hg] at hc
      rw [count_reduce h hc, ← List.singleton_append, harnessCount_append h (by simp), hfirst,
        List.flatMap_cons, harnessCount_append h (keyGroup_ne_nil hkeys.1)]
      simp only [harnesses_mergedComponents h hkeys.2]

end Keys

end GovFuzz.Sbom
