import GovFuzz.Lib.Padded
import GovFuzz.Runtrace.Capsule
import GovFuzz.Sbom.Merge
import Mathlib.Data.Sum.Order
import Mathlib.Order.Nat

/-!
# Governance — the `fixed` ruling

`vex_status_for`, `resolved_at_or_above_fixed` and `numeric_version` of
`crates/governance/src/vex.rs`, with `vulnerability_fixed_state` of
`crates/governance/src/lib.rs`.  Versions are compared by the numbers that
their texts start with; what the numbers stand for (components, a pre-release,
build metadata) the comparison does not see.
-/

namespace GovFuzz.Governance

open GovFuzz.Lib GovFuzz.Runtrace GovFuzz.Sbom

/-! ## The comparison -/

/-- The number its digits write. -/
def decimalValue (digits : List Char) : Nat :=
  digits.foldl (fun value ch => value * 10 + (ch.toNat - 48)) 0

/-- What separates the parts of a version. -/
def isVersionSeparator (ch : Char) : Bool := ch = '.' || ch = '-' || ch = '+' || ch = '_'

/-- The loop over the segments: it ends behind the first one that is not all
digits, and at one that starts with none. -/
def numericParts : List (List Char) → Option (List Nat)
  | [] => some []
  | segment :: segments =>
      let digits := segment.takeWhile Char.isDigit
      if digits = [] then some []
      else if decimalValue digits < 2 ^ 64 then
        if digits.length ≠ segment.length then some [decimalValue digits]
        else (numericParts segments).map (decimalValue digits :: ·)
      else none

/-- The leading numbers of a version, when it starts with one. -/
def numericVersion (raw : List Char) : Option (List Nat) :=
  let core := (trim raw).dropWhile (· = 'v')
  (numericParts (core.splitOnP isVersionSeparator)).bind fun parts =>
    if parts = [] then none else some parts

/-- Both versions are numeric and the resolved one is not below. -/
def resolvedAtOrAboveFixed (resolved fixed : List Char) : Bool :=
  match numericVersion resolved, numericVersion fixed with
  | some resolved, some fixed => decide (fixed ≤ resolved)
  | _, _ => false

/-! ## The ruling -/

/-- What the report says of a vulnerability. -/
inductive VexStatus where
  | notAffected
  | affected
  | fixed
  | underInvestigation
  deriving DecidableEq, Repr

/-- `fixed` first, then by the evidence. -/
def vexStatusFor (topRung : Option EvidenceKind) (campaignRan fixedApplies : Bool) : VexStatus :=
  if fixedApplies then .fixed
  else match topRung with
    | none | some .declared | some .resolved => .notAffected
    | some .sourceObserved | some .linked =>
        if campaignRan then .notAffected else .underInvestigation
    | some .runtimeLoaded | some .fuzzReached => .affected

/-- The versions that a vulnerability names as fixed, `fixed_versions` first. -/
structure FixedVersions where
  fixedVersions : List (List Char)
  fixedVersion : Option (List Char)
  patchedVersion : Option (List Char)

/-- The fixed versions of all three fields. -/
def FixedVersions.all (vuln : FixedVersions) : List (List Char) :=
  vuln.fixedVersions ++ ([vuln.fixedVersion, vuln.patchedVersion].filterMap fun value =>
    (value.map trim).filter (· ≠ []))

/-- Whether a fix applies and which version it names. -/
def vulnerabilityFixedState (vuln : FixedVersions) (resolved : Option (List Char)) :
    Bool × Option (List Char) :=
  match resolved with
  | none => (false, none)
  | some resolved =>
      match vuln.all.find? (resolvedAtOrAboveFixed resolved) with
      | none => (false, none)
      | some fixed => (true, some fixed)

/-- A match is ruled fixed exactly if some version named as fixed compares at
or below the resolved one. -/
theorem vexStatusFor_eq_fixed_iff (topRung : Option EvidenceKind) (campaignRan : Bool)
    (vuln : FixedVersions) (resolved : List Char) :
    vexStatusFor topRung campaignRan (vulnerabilityFixedState vuln (some resolved)).1 = .fixed ↔
      ∃ fixed ∈ vuln.all, resolvedAtOrAboveFixed resolved fixed = true := by
  have hstatus : ∀ applies, vexStatusFor topRung campaignRan applies = .fixed ↔ applies = true := by
    intro applies
    cases applies with
    | true => simp [vexStatusFor]
    | false =>
        simp only [vexStatusFor, Bool.false_eq_true, if_false, iff_false]
        rcases topRung with _ | kind
        · simp
        · cases kind <;> cases campaignRan <;> simp
  rw [hstatus, vulnerabilityFixedState]
  cases hfind : vuln.all.find? (resolvedAtOrAboveFixed resolved) with
  | none => simpa using List.find?_eq_none.1 hfind
  | some fixed =>
      simp only [true_iff]
      exact ⟨fixed, List.mem_of_find?_eq_some hfind, List.find?_some hfind⟩

/-! ## What the loop reads -/

/-- The numbers that the segments start with. -/
def leadingNumbers : List (List Char) → List Nat
  | [] => []
  | segment :: segments =>
      let digits := segment.takeWhile Char.isDigit
      if digits = [] then []
      else
        decimalValue digits ::
          if digits.length ≠ segment.length then [] else leadingNumbers segments

theorem numericParts_eq (segments : List (List Char)) :
    numericParts segments
      = if ∀ n ∈ leadingNumbers segments, n < 2 ^ 64 then some (leadingNumbers segments)
        else none := by
  induction segments with
  | nil => simp [numericParts, leadingNumbers]
  | cons segment segments ih =>
      obtain ⟨digits, hdigits⟩ : ∃ digits, segment.takeWhile Char.isDigit = digits := ⟨_, rfl⟩
      simp only [numericParts, leadingNumbers, hdigits]
      by_cases hnil : digits = []
      · simp [hnil]
      · by_cases hfits : decimalValue digits < 2 ^ 64
        · by_cases hlen : digits.length = segment.length
          · simp only [hnil, hfits, hlen, ih, ne_eq, not_true_eq_false, if_false, if_true,
              List.forall_mem_cons, true_and]
            split_ifs <;> rfl
          · simp only [hnil, hfits, hlen, ne_eq, not_false_eq_true, if_false, if_true,
              List.forall_mem_cons, List.not_mem_nil, false_implies, implies_true, and_self]
        · simp only [hnil, hfits, if_false, List.forall_mem_cons, false_and]

/-! ## Versions -/

/-- A numeric part: its digits, as they are written. -/
structure Number where
  digits : List Char
  nonempty : digits ≠ []
  isDigit : ∀ ch ∈ digits, ch.isDigit = true

/-- The number it stands for. -/
def Number.value (number : Number) : Nat := decimalValue number.digits

/-- An ASCII letter. -/
def isLetter (ch : Char) : Bool := ('A' ≤ ch && ch ≤ 'Z') || ('a' ≤ ch && ch ≤ 'z')

/-- Dot-separated identifiers of ASCII letters, digits and hyphens. -/
def isIdentifierText (text : List Char) : Bool :=
  text.all fun ch => isLetter ch || ch.isDigit || ch = '-' || ch = '.'

/-- A pre-release follows a hyphen, or a component directly (`1.2.3beta`). -/
structure PreRelease where
  attached : Bool
  identifiers : List Char
  valid : isIdentifierText identifiers = true
  letter : attached = true → identifiers.head?.any isLetter = true

/-- What follows the `+` of a version. -/
structure BuildMetadata where
  identifiers : List Char
  valid : isIdentifierText identifiers = true

/-- A version of dotted numbers, a pre-release and build metadata. -/
structure Version where
  prefixed : Bool
  major : Number
  minors : List Number
  preRelease : Option PreRelease
  build : Option BuildMetadata

/-- The pre-release as it is written. -/
def PreRelease.text (preRelease : PreRelease) : List Char :=
  if preRelease.attached then preRelease.identifiers else '-' :: preRelease.identifiers

/-- The build metadata as they are written. -/
def BuildMetadata.text (build : BuildMetadata) : List Char := '+' :: build.identifiers

namespace Version

/-- The dotted numbers. -/
def components (version : Version) : List Nat :=
  version.major.value :: version.minors.map Number.value

/-- What follows the dotted numbers. -/
def suffix (version : Version) : List Char :=
  (version.preRelease.elim [] PreRelease.text) ++ (version.build.elim [] BuildMetadata.text)

/-- The version as it is written. -/
def text (version : Version) : List Char :=
  (if version.prefixed then ['v'] else []) ++ (version.major.digits
    ++ (version.minors.flatMap (fun number => '.' :: number.digits) ++ version.suffix))

/-- Nothing but dotted numbers. -/
def Dotted (version : Version) : Prop :=
  version.prefixed = false ∧ version.preRelease = none ∧ version.build = none

/-! ### The order of releases -/

/-- Numeric identifiers come first, by their values. -/
def identifierKey (identifier : List Char) : ℕ ⊕ₗ List ℕ :=
  if identifier ≠ [] ∧ identifier.all Char.isDigit then Sum.inlₗ (decimalValue identifier)
  else Sum.inrₗ (identifier.map Char.toNat)

/-- The identifiers in the order that precedence compares them. -/
def PreRelease.precedence (preRelease : PreRelease) : List (ℕ ⊕ₗ List ℕ) :=
  (preRelease.identifiers.splitOn '.').map identifierKey

/-- A pre-release is below its release. -/
def PreReleaseLE : Option PreRelease → Option PreRelease → Prop
  | _, none => True
  | none, some _ => False
  | some a, some b => PreRelease.precedence a ≤ PreRelease.precedence b

/-- At or below in the order of releases: by the components, of which missing
ones are zero, and for the same release by the pre-release. -/
def AtOrBelow (a b : Version) : Prop :=
  PaddedLE a.components b.components ∧
    (PaddedLE b.components a.components → PreReleaseLE a.preRelease b.preRelease)

/-! ### The numbers of a version -/

/-- The numbers that a suffix starts with, behind its separator. -/
def suffixNumbers (suffix : List Char) : List Nat :=
  match suffix with
  | [] => []
  | ch :: rest =>
      if isVersionSeparator ch then leadingNumbers (rest.splitOnP isVersionSeparator) else []

/-- What the comparison reads of a version. -/
def numbers (version : Version) : List Nat :=
  version.components ++ suffixNumbers version.suffix

/-- Every number fits in 64 bits. -/
def Fits (version : Version) : Prop := ∀ n ∈ version.numbers, n < 2 ^ 64

instance (version : Version) : Decidable version.Fits :=
  inferInstanceAs (Decidable (∀ n ∈ version.numbers, n < 2 ^ 64))

end Version

theorem isVersionSeparator_of_isDigit {ch : Char} (h : ch.isDigit = true) :
    isVersionSeparator ch = false := by
  by_contra hsep
  simp only [isVersionSeparator, Bool.not_eq_false, Bool.or_eq_true, decide_eq_true_eq] at hsep
  rcases hsep with ((rfl | rfl) | rfl) | rfl <;> simp at h

theorem splitOnP_append {p : Char → Bool} {text : List Char} (h : ∀ ch ∈ text, p ch = false)
    (rest : List Char) : ∃ more segments, rest.splitOnP p = more :: segments ∧
      (text ++ rest).splitOnP p = (text ++ more) :: segments := by
  obtain ⟨more, segments, hrest⟩ := List.exists_cons_of_ne_nil (List.splitOnP_ne_nil p rest)
  refine ⟨more, segments, hrest, ?_⟩
  induction text with
  | nil => exact hrest
  | cons ch text ih =>
      rw [List.forall_mem_cons] at h
      rw [List.cons_append, List.splitOnP_cons_eq_if_modifyHead, ih h.2, h.1]
      rfl

/-- The segments of a number in front of a separator, of a letter or of the
end. -/
theorem leadingNumbers_number (number : Number) {tail : List Char}
    (h : ∀ ch, tail.head? = some ch → ch.isDigit = false) :
    leadingNumbers ((number.digits ++ tail).splitOnP isVersionSeparator)
      = number.value :: Version.suffixNumbers tail := by
  have hseparators : ∀ ch ∈ number.digits, isVersionSeparator ch = false := fun ch hch =>
    isVersionSeparator_of_isDigit (number.isDigit ch hch)
  have htake (more : List Char) : (number.digits ++ more).takeWhile Char.isDigit
      = number.digits ++ more.takeWhile Char.isDigit :=
    List.takeWhile_append_of_pos number.isDigit
  cases tail with
  | nil =>
      have hnumber := htake []
      rw [List.append_nil, List.takeWhile_nil, List.append_nil] at hnumber
      rw [List.append_nil, List.splitOnP_eq_singleton hseparators]
      simp [leadingNumbers, hnumber, number.nonempty, Number.value, Version.suffixNumbers]
  | cons ch rest =>
      by_cases hch : isVersionSeparator ch = true
      · have hnumber := htake []
        rw [List.append_nil, List.takeWhile_nil, List.append_nil] at hnumber
        rw [List.splitOnP_append_cons_of_forall_mem hseparators ch hch]
        simp [leadingNumbers, hnumber, number.nonempty, Number.value, Version.suffixNumbers, hch]
      · obtain ⟨more, segments, hrest, hsplit⟩ := splitOnP_append hseparators (ch :: rest)
        -- the letter belongs to the segment of the number
        rw [List.splitOnP_cons_eq_if_modifyHead, if_neg hch] at hrest
        obtain ⟨more, rfl⟩ : ∃ more', more = ch :: more' := by
          obtain ⟨first, others, hothers⟩ :=
            List.exists_cons_of_ne_nil (List.splitOnP_ne_nil isVersionSeparator rest)
          rw [hothers] at hrest
          cases hrest
          exact ⟨first, rfl⟩
        rw [hsplit]
        simp [leadingNumbers, htake, number.nonempty, Number.value, Version.suffixNumbers, hch,
          h ch rfl]

theorem toNat_of_isLetter {ch : Char} (h : isLetter ch = true) :
    65 ≤ ch.toNat ∧ ch.toNat ≤ 122 := by
  have hval : ch.toNat = ch.val.toNat := rfl
  have hA : 'A'.val.toNat = 65 := rfl
  have hZ : 'Z'.val.toNat = 90 := rfl
  have ha : 'a'.val.toNat = 97 := rfl
  have hz : 'z'.val.toNat = 122 := rfl
  simp only [isLetter, Bool.or_eq_true, Bool.and_eq_true, decide_eq_true_eq, Char.le_def,
    UInt32.le_iff_toNat_le] at h
  omega

theorem toNat_of_isDigit {ch : Char} (h : ch.isDigit = true) :
    48 ≤ ch.toNat ∧ ch.toNat ≤ 57 := by
  have hval : ch.toNat = ch.val.toNat := rfl
  have hlow : '0'.val.toNat = 48 := rfl
  have hhigh : '9'.val.toNat = 57 := rfl
  simp only [Char.isDigit, Bool.and_eq_true, decide_eq_true_eq, UInt32.le_iff_toNat_le,
    ge_iff_le] at h
  omega

theorem isWhitespace_eq_false {ch : Char} (h : 33 ≤ ch.toNat ∧ ch.toNat ≤ 126) :
    isWhitespace ch = false := by
  simp [isWhitespace]
  omega

theorem isWhitespace_of_mem_identifiers {text : List Char} (h : isIdentifierText text = true) :
    ∀ ch ∈ text, isWhitespace ch = false := by
  intro ch hch
  have hclass := List.all_eq_true.1 h ch hch
  simp only [Bool.or_eq_true, decide_eq_true_eq] at hclass
  rcases hclass with ((hletter | hdigit) | rfl) | rfl
  · have hrange := toNat_of_isLetter hletter
    exact isWhitespace_eq_false (by omega)
  · have hrange := toNat_of_isDigit hdigit
    exact isWhitespace_eq_false (by omega)
  · decide
  · decide

theorem Number.isWhitespace (number : Number) :
    ∀ ch ∈ number.digits, Runtrace.isWhitespace ch = false := by
  intro ch hch
  have hrange := toNat_of_isDigit (number.isDigit ch hch)
  exact isWhitespace_eq_false (by omega)

namespace Version

/-- The suffix does not go on with the digits of a component. -/
theorem head?_suffix (version : Version) {ch : Char} (h : version.suffix.head? = some ch) :
    ch.isDigit = false := by
  have hbuild : (version.build.elim [] BuildMetadata.text).head? = some ch →
      ch.isDigit = false := by
    intro hhead
    cases hb : version.build with
    | none => simp [hb] at hhead
    | some build =>
        simp only [hb, Option.elim_some, BuildMetadata.text, List.head?_cons,
          Option.some.injEq] at hhead
        subst hhead
        decide
  unfold suffix at h
  cases hp : version.preRelease with
  | none =>
      rw [hp, Option.elim_none, List.nil_append] at h
      exact hbuild h
  | some preRelease =>
      rw [hp, Option.elim_some, PreRelease.text] at h
      -- a pre-release without a hyphen begins with a letter
      by_cases hattached : preRelease.attached = true
      · have hletter := preRelease.letter hattached
        rw [if_pos hattached] at h
        cases hid : preRelease.identifiers with
        | nil => simp [hid] at hletter
        | cons first rest =>
            simp only [hid, List.cons_append, List.head?_cons, Option.some.injEq] at h
            subst h
            simp only [hid, List.head?_cons, Option.any_some] at hletter
            have hrange := toNat_of_isLetter hletter
            by_contra hdigit
            have := toNat_of_isDigit (by simpa using hdigit)
            omega
      · rw [if_neg hattached, List.cons_append, List.head?_cons, Option.some.injEq] at h
        subst h
        decide

/-- The numbers that the loop reads of the components and of what follows. -/
theorem leadingNumbers_components (major : Number) (minors : List Number) {suffix : List Char}
    (h : ∀ ch, suffix.head? = some ch → ch.isDigit = false) :
    leadingNumbers ((major.digits ++ (minors.flatMap (fun number => '.' :: number.digits)
        ++ suffix)).splitOnP isVersionSeparator)
      = major.value :: (minors.map Number.value ++ suffixNumbers suffix) := by
  induction minors generalizing major with
  | nil => exact leadingNumbers_number major h
  | cons minor minors ih =>
      have hdot : ∀ ch, ((minor :: minors).flatMap (fun number => '.' :: number.digits)
          ++ suffix).head? = some ch → ch.isDigit = false := by
        intro ch hch
        cases hch
        decide
      rw [leadingNumbers_number major hdot]
      have hseparator : isVersionSeparator '.' = true := by decide
      simp only [List.flatMap_cons, List.cons_append, List.append_assoc, suffixNumbers, hseparator,
        if_true, ih minor, List.map_cons]

theorem isWhitespace_text (version : Version) :
    ∀ ch ∈ version.text, Runtrace.isWhitespace ch = false := by
  intro ch hch
  simp only [text, suffix, List.mem_append, List.mem_flatMap] at hch
  rcases hch with hv | hmajor | ⟨minor, -, hminor⟩ | hpre | hbuild
  · have : ch = 'v' := by
      cases hp : version.prefixed <;> simp_all
    subst this
    decide
  · exact version.major.isWhitespace ch hmajor
  · rcases List.mem_cons.1 hminor with rfl | hminor
    · decide
    · exact minor.isWhitespace ch hminor
  · cases hp : version.preRelease with
    | none => simp [hp] at hpre
    | some preRelease =>
        have hall := isWhitespace_of_mem_identifiers preRelease.valid
        rw [hp, Option.elim_some, PreRelease.text] at hpre
        split at hpre
        · exact hall ch hpre
        · rcases List.mem_cons.1 hpre with rfl | hpre
          · decide
          · exact hall ch hpre
  · cases hb : version.build with
    | none => simp [hb] at hbuild
    | some build =>
        rw [hb, Option.elim_some, BuildMetadata.text] at hbuild
        rcases List.mem_cons.1 hbuild with rfl | hbuild
        · decide
        · exact isWhitespace_of_mem_identifiers build.valid ch hbuild

/-- What `numeric_version` makes of a version. -/
theorem numericVersion_text (version : Version) : numericVersion version.text
    = if version.Fits then some version.numbers else none := by
  have hcore : version.text.dropWhile (· = 'v') = version.major.digits
      ++ (version.minors.flatMap (fun number => '.' :: number.digits) ++ version.suffix) := by
    obtain ⟨first, rest, hdigits⟩ := List.exists_cons_of_ne_nil version.major.nonempty
    have hfirst : first ≠ 'v' := by
      rintro rfl
      exact absurd (version.major.isDigit 'v' (by simp [hdigits])) (by decide)
    unfold text
    cases version.prefixed <;> simp [hdigits, hfirst]
  have hnumbers : leadingNumbers ((version.text.dropWhile (· = 'v')).splitOnP isVersionSeparator)
      = version.numbers := by
    rw [hcore,
      leadingNumbers_components version.major version.minors fun ch => version.head?_suffix]
    rfl
  have hne : version.numbers ≠ [] := by simp [numbers, components]
  rw [numericVersion, trim_eq_self version.isWhitespace_text]
  simp only [numericParts_eq, hnumbers]
  by_cases hfits : version.Fits
  · have hall : ∀ n ∈ version.numbers, n < 2 ^ 64 := hfits
    rw [if_pos hfits, if_pos hall, Option.bind_some, if_neg hne]
  · have hall : ¬ ∀ n ∈ version.numbers, n < 2 ^ 64 := hfits
    rw [if_neg hfits, if_neg hall, Option.bind_none]

theorem resolvedAtOrAboveFixed_text (resolved fixed : Version) :
    resolvedAtOrAboveFixed resolved.text fixed.text = true ↔
      (resolved.Fits ∧ fixed.Fits) ∧ fixed.numbers ≤ resolved.numbers := by
  rw [resolvedAtOrAboveFixed, numericVersion_text, numericVersion_text]
  by_cases hresolved : resolved.Fits <;> by_cases hfixed : fixed.Fits <;>
    simp [hresolved, hfixed]

/-! ### When the ruling is right -/

/-- The ruling is never wrong, and on dotted numbers it is exact. -/
def Ruled (resolved fixed : Version) : Prop :=
  (resolvedAtOrAboveFixed resolved.text fixed.text = true → AtOrBelow fixed resolved) ∧
  (resolved.Dotted → fixed.Dotted → resolved.Fits → fixed.Fits → AtOrBelow fixed resolved →
    resolvedAtOrAboveFixed resolved.text fixed.text = true)

/-- The numbers of the resolved version's suffix stand in for components that
the fixed one has and the resolved one has not. -/
def SuffixAsComponents (resolved fixed : Version) : Prop :=
  ∃ more, fixed.components = resolved.components ++ more ∧ (∃ n ∈ more, n ≠ 0) ∧
    more ++ suffixNumbers fixed.suffix ≤ suffixNumbers resolved.suffix

/-- The two are of one release, and the resolved one is the lower pre-release;
nothing in the numbers shows it. -/
def HiddenPreRelease (resolved fixed : Version) : Prop :=
  PaddedLE resolved.components fixed.components ∧ PaddedLE fixed.components resolved.components ∧
    ¬ PreReleaseLE fixed.preRelease resolved.preRelease ∧ fixed.numbers ≤ resolved.numbers

/-- The fixed version is the resolved one with zeros behind it. -/
def ZerosBehind (resolved fixed : Version) : Prop :=
  resolved.Dotted ∧ fixed.Dotted ∧
    ∃ zeros, fixed.components = resolved.components ++ zeros ∧ zeros ≠ [] ∧ ∀ n ∈ zeros, n = 0

theorem Dotted.numbers_eq {version : Version} (h : version.Dotted) :
    version.numbers = version.components := by
  obtain ⟨-, hpre, hbuild⟩ := h
  simp [numbers, suffix, hpre, hbuild, suffixNumbers]

/-- The comparison of the numbers is right but for the two kinds of suffix. -/
theorem atOrBelow_iff (resolved fixed : Version) (h : fixed.numbers ≤ resolved.numbers) :
    AtOrBelow fixed resolved ↔
      ¬ SuffixAsComponents resolved fixed ∧ ¬ HiddenPreRelease resolved fixed := by
  constructor
  · rintro ⟨hle, hpre⟩
    constructor
    · rintro ⟨more, hmore, ⟨n, hn, hne⟩, -⟩
      rw [hmore, PaddedLE.append_self_iff] at hle
      exact hne (hle n hn)
    · rintro ⟨hge, -, hlower, -⟩
      exact hlower (hpre hge)
  · rintro ⟨hcomponents, hhidden⟩
    have hle : PaddedLE fixed.components resolved.components := by
      rcases paddedLE_of_append_le h with hle | ⟨more, hmore, hne, hle⟩
      · exact hle
      · exact absurd ⟨more, hmore, hne, hle⟩ hcomponents
    refine ⟨hle, fun hge => ?_⟩
    by_contra hlower
    exact hhidden ⟨hge, hle, hlower, h⟩

/-- **The ruling is right but for three kinds of versions**: it does not
over-claim exactly if the resolved version's suffix is not taken for
components and hides no lower pre-release, and it is exact on dotted numbers
exactly if the fixed version is not the resolved one with zeros behind it. -/
theorem ruled_iff (resolved fixed : Version) :
    Ruled resolved fixed ↔ (resolved.Fits → fixed.Fits →
      ¬ SuffixAsComponents resolved fixed ∧ ¬ HiddenPreRelease resolved fixed ∧
        ¬ ZerosBehind resolved fixed) := by
  rw [Ruled, resolvedAtOrAboveFixed_text]
  constructor
  · rintro ⟨hsound, hexact⟩ hresolved hfixed
    refine ⟨fun hcomponents => ?_, fun hhidden => ?_, fun hzeros => ?_⟩
    · obtain ⟨more, hmore, -, hle⟩ := id hcomponents
      have hnumbers : fixed.numbers ≤ resolved.numbers := by
        rwa [numbers, numbers, hmore, List.append_assoc, append_le_append_iff]
      have hright := hsound ⟨⟨hresolved, hfixed⟩, hnumbers⟩
      exact ((atOrBelow_iff resolved fixed hnumbers).1 hright).1 hcomponents
    · have hright := hsound ⟨⟨hresolved, hfixed⟩, hhidden.2.2.2⟩
      exact ((atOrBelow_iff resolved fixed hhidden.2.2.2).1 hright).2 hhidden
    · obtain ⟨hdotted, hdotted', zeros, hcomponents, hne, hzeros⟩ := hzeros
      have hbelow : AtOrBelow fixed resolved := by
        refine ⟨?_, fun _ => ?_⟩
        · rw [hcomponents, PaddedLE.append_self_iff]
          exact hzeros
        · rw [hdotted.2.1]
          trivial
      have hle := (hexact hdotted hdotted' hresolved hfixed hbelow).2
      rw [hdotted.numbers_eq, hdotted'.numbers_eq, hcomponents] at hle
      exact not_append_le hne hle
  · intro hright
    constructor
    · rintro ⟨⟨hresolved, hfixed⟩, hnumbers⟩
      obtain ⟨hcomponents, hhidden, -⟩ := hright hresolved hfixed
      exact (atOrBelow_iff resolved fixed hnumbers).2 ⟨hcomponents, hhidden⟩
    · intro hdotted hdotted' hresolved hfixed hbelow
      obtain ⟨-, -, hzeros⟩ := hright hresolved hfixed
      rw [hdotted.numbers_eq, hdotted'.numbers_eq]
      rcases le_of_paddedLE hbelow.1 with hle | ⟨zeros, hcomponents, hne, hbot⟩
      · exact ⟨⟨hresolved, hfixed⟩, hle⟩
      · exact absurd ⟨hdotted, hdotted', zeros, hcomponents, hne, hbot⟩ hzeros

/-! ### The order on dotted numbers -/

theorem AtOrBelow.refl {a : Version} (h : a.Dotted) : AtOrBelow a a := by
  refine ⟨PaddedLE.refl _, fun _ => ?_⟩
  rw [h.2.1]
  trivial

theorem atOrBelow_iff_of_dotted {a b : Version} (h : b.Dotted) :
    AtOrBelow a b ↔ PaddedLE a.components b.components := by
  constructor
  · exact fun hle => hle.1
  · intro hle
    refine ⟨hle, fun _ => ?_⟩
    rw [h.2.1]
    trivial

theorem AtOrBelow.trans {a b c : Version} (hc : c.Dotted) (h : AtOrBelow a b)
    (h' : AtOrBelow b c) : AtOrBelow a c :=
  (atOrBelow_iff_of_dotted hc).2 (h.1.trans h'.1)

theorem AtOrBelow.total {a b : Version} (ha : a.Dotted) (hb : b.Dotted) :
    AtOrBelow a b ∨ AtOrBelow b a := by
  rw [atOrBelow_iff_of_dotted ha, atOrBelow_iff_of_dotted hb]
  exact PaddedLE.total _ _

/-- The number 0. -/
def zero : Number := ⟨['0'], by decide, by decide⟩

/-- `.0` behind a version. -/
def appendZero (version : Version) : Version :=
  { version with minors := version.minors ++ [zero] }

/-! ### Versions that are ruled wrongly -/

/-- The number 1. -/
def one : Number := ⟨['1'], by decide, by decide⟩

/-- `1.1`. -/
def release : Version := ⟨false, one, [one], none, none⟩

/-- `1.1-rc1`. -/
def releaseCandidate : Version :=
  ⟨false, one, [one], some ⟨false, "rc1".toList, by decide, by decide⟩, none⟩

/-- A release candidate counts as the release, and `1.1` not as `1.1.0`. -/
theorem not_ruled :
    (releaseCandidate.text = "1.1-rc1".toList ∧ release.text = "1.1".toList ∧
      resolvedAtOrAboveFixed "1.1-rc1".toList "1.1".toList = true ∧
      ¬ Ruled releaseCandidate release) ∧
    (release.appendZero.text = "1.1.0".toList ∧
      resolvedAtOrAboveFixed "1.1".toList "1.1.0".toList = false ∧
      ¬ Ruled release release.appendZero) := by
  have hcandidate : resolvedAtOrAboveFixed releaseCandidate.text release.text = true := by
    decide
  have hzeros : resolvedAtOrAboveFixed release.text release.appendZero.text = false := by
    decide
  refine ⟨⟨by decide, by decide, hcandidate, fun hruled => ?_⟩, by decide, hzeros, fun hruled => ?_⟩
  · exact (hruled.1 hcandidate).2 (PaddedLE.refl _)
  · have hbelow : AtOrBelow release.appendZero release :=
      ⟨by decide, fun _ => trivial⟩
    have hfits : release.Fits ∧ release.appendZero.Fits := by decide
    have hclaim := hruled.2 ⟨rfl, rfl, rfl⟩ ⟨rfl, rfl, rfl⟩ hfits.1 hfits.2 hbelow
    rw [hzeros] at hclaim
    cases hclaim

end Version

end GovFuzz.Governance
