import GovFuzz.Lib.SortedMap
import Mathlib.Data.List.Sort
import Mathlib.Order.Lattice.Nat

/-!
# SBOM — merging components by identity

`merge_by_identity` of `crates/sbom_ingest/src/merge.rs`, with the evidence
ladder of `evidence.rs` and the identity key of `component.rs`.  Components
with one key become one; then a group without a version is folded into the
group of the same library when the map has exactly one.  The passes are
written once over the kind of value they combine, so that the same code
also runs on groups that remember their members.
-/

namespace GovFuzz.Sbom

open GovFuzz.Lib

/-- The rungs of evidence, lowest first. -/
inductive EvidenceKind where
  | declared
  | resolved
  | sourceObserved
  | linked
  | runtimeLoaded
  | fuzzReached
  deriving DecidableEq, Repr

/-- The place of a rung on the ladder. -/
def EvidenceKind.rank : EvidenceKind → Nat
  | .declared => 0
  | .resolved => 1
  | .sourceObserved => 2
  | .linked => 3
  | .runtimeLoaded => 4
  | .fuzzReached => 5

/-- Where a component was seen. -/
structure Evidence where
  kind : EvidenceKind
  source : String
  locator : Option String
  deriving DecidableEq, Repr

/-- The highest rung. -/
def topRung : List Evidence → Option EvidenceKind
  | [] => none
  | item :: evidence =>
      match topRung evidence with
      | none => some item.kind
      | some top => if item.kind.rank < top.rank then some top else some item.kind

/-- `None` is below every rung. -/
def rungValue : Option EvidenceKind → Nat
  | none => 0
  | some kind => kind.rank + 1

/-- A hash of a component. -/
structure HashRef where
  alg : String
  valueHex : String
  deriving DecidableEq, Repr

/-- A component of the bill of materials. -/
structure Component where
  componentRef : String
  name : String
  group : Option String
  version : Option String
  ecosystem : String
  componentType : String
  supplier : Option String
  license : Option String
  purl : Option String
  cpe : Option String
  sha256 : Option String
  hashes : List HashRef
  identityConfidence : String
  matchingMethod : String
  evidence : List Evidence
  runtimeHarnesses : List String
  deriving DecidableEq, Repr

/-! ## Keys -/

/-- What identifies a component. -/
inductive ComponentKey where
  | purl (purl : String)
  | nameVersion (ecosystem name : String) (version : Option String)
  | nameSha (name sha256 : String)
  | fallback (name : String)
  deriving DecidableEq, Repr

/-- The package URL, else ecosystem, name and version. -/
def Component.identityKey (c : Component) : ComponentKey :=
  match c.purl with
  | some purl => .purl purl
  | none =>
      if c.version.isSome then .nameVersion c.ecosystem c.name c.version
      else
        match c.sha256 with
        | some sha => .nameSha c.name sha
        | none => .fallback (c.ecosystem ++ "/" ++ c.name)

/-- The key as the map orders it. -/
def keyString : ComponentKey → String
  | .purl p => "purl|" ++ p
  | .nameVersion e n v => "nv|" ++ e ++ "|" ++ n ++ "|" ++ v.getD ""
  | .nameSha n s => "ns|" ++ n ++ "|" ++ s
  | .fallback f => "fb|" ++ f

/-- Components without a registry. -/
def isNativeEcosystem (eco : String) : Bool := eco = "c" || eco = "generic"

/-- The characters that names are folded over. -/
def isSeparator (ch : Char) : Bool := ch = '-' || ch = '_' || ch = '.'

/-- The loop of `normalize_native_name`: whether the last character was a
separator, and the rest of the name. -/
def foldSeparators : Bool → List Char → List Char
  | _, [] => []
  | prevSep, ch :: rest =>
      if isSeparator ch then
        if prevSep then foldSeparators true rest else '-' :: foldSeparators true rest
      else ch :: foldSeparators false rest

/-- The name in lower case, its separators folded to one `-`. -/
def normalizeNativeName (name : String) : String :=
  let out := foldSeparators false (name.toList.map Char.toLower)
  String.ofList ((out.dropWhile (· = '-')).reverse.dropWhile (· = '-')).reverse

/-- What makes two native components the same. -/
def nativeIdentity (c : Component) : Option String :=
  if isNativeEcosystem c.ecosystem then some (normalizeNativeName c.name) else none

/-- The versioned component is of the versionless one's library. -/
def sameVersionlessTarget (vl cand : Component) : Bool :=
  match nativeIdentity vl, nativeIdentity cand with
  | some a, some b => a = b
  | _, _ => vl.ecosystem = cand.ecosystem && vl.name = cand.name

/-! ## Merging -/

/-- `extend` without repetition. -/
def addHarnesses (existing incoming : List String) : List String :=
  incoming.foldl (fun known h => if h ∈ known then known else known ++ [h]) existing

/-- Two components of one identity; the higher rung leads. -/
def mergeInto (existing incoming : Component) : Component :=
  let incomingWins := rungValue (topRung incoming.evidence) > rungValue (topRung existing.evidence)
  { existing with
    version := if incomingWins then incoming.version else existing.version
    purl := if incomingWins then incoming.purl else existing.purl
    sha256 := if incomingWins then incoming.sha256.or existing.sha256
      else existing.sha256.or incoming.sha256
    license := if incomingWins then incoming.license.or existing.license
      else existing.license.or incoming.license
    group := if incomingWins then incoming.group.or existing.group
      else existing.group.or incoming.group
    hashes :=
      if incomingWins then if incoming.hashes.isEmpty then existing.hashes else incoming.hashes
      else if existing.hashes.isEmpty then incoming.hashes else existing.hashes
    evidence := existing.evidence ++ incoming.evidence
    runtimeHarnesses := addHarnesses existing.runtimeHarnesses incoming.runtimeHarnesses }

section Passes

variable {α : Type} (rep : α → Component)

/-- The first pass: one entry for each key. -/
def groupByKey (merge : α → α → α) (items : List α) : SortedMap α :=
  items.foldl (fun groups item =>
    groups.upsert merge (keyString (rep item).identityKey) item) []

/-- One versionless entry of the post-pass. -/
def foldVersionless (merge : α → α → α) (versioned : SortedMap α) (entry : String × α) :
    SortedMap α :=
  match versioned.filter fun other => sameVersionlessTarget (rep entry.2) (rep other.2) with
  | [target] => versioned.modify target.1 fun existing => merge existing entry.2
  | _ => versioned.insert entry.1 entry.2

/-- The groups without a version. -/
def versionlessOf (groups : SortedMap α) : SortedMap α :=
  groups.filter fun entry => (rep entry.2).version.isNone

/-- The groups with a version. -/
def versionedOf (groups : SortedMap α) : SortedMap α :=
  groups.filter fun entry => (rep entry.2).version.isSome

/-- The versionless groups folded into the versioned ones. -/
def postPass (merge : α → α → α) (groups : SortedMap α) : SortedMap α :=
  (versionlessOf rep groups).foldl (foldVersionless rep merge) (versionedOf rep groups)

end Passes

/-- `Option<String>`'s order. -/
def compareOption : Option String → Option String → Ordering
  | none, none => .eq
  | none, some _ => .lt
  | some _, none => .gt
  | some l, some r => compare l r

/-- By ecosystem, name, version and package URL. -/
def componentLe (l r : Component) : Bool :=
  ((compare l.ecosystem r.ecosystem).then ((compare l.name r.name).then
    ((compareOption l.version r.version).then (compareOption l.purl r.purl)))).isLE

/-- One component for each identity. -/
def mergeByIdentity (components : List Component) : List Component :=
  ((postPass id mergeInto (groupByKey id mergeInto components)).map Prod.snd).mergeSort componentLe

end GovFuzz.Sbom
