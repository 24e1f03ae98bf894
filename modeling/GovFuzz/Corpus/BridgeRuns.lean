import GovFuzz.Corpus.Bridge
import Mathlib.Data.Finset.Card
import Mathlib.Data.Set.Insert

/-!
# Corpus — what the bridge does to the directories

Over any commands, on a disk any of whose operations may fail, a write also
half way.  `Upkeep` is what a condition on the files must satisfy to be kept
by a command; two conditions do.  That only the output changes, and gets
only names of its format, is asked of nothing (`bridge_summary_exact`).  That
the directories end as the unions of what was poured into them, and that a
failure costs no file but the end of one in the output (`bridge_refines`),
rests on what the names do not ask: that contents have different stamps, and
that a file with the name of an output is one.
-/

namespace GovFuzz.Corpus

open GovFuzz.Lib GovFuzz.Lib.Op

variable {sha256 : List UInt8 → Signature} {before tree : FileTree} {dst : Path}
  {format : Format}

/-! ## Reading -/

open Disk (At)

theorem triple_isRegular (path : Path) :
    Triple (At tree) (isRegular path)
      (fun regular disk => At tree disk ∧ (regular = true ↔ ∃ bytes, tree.fileAt path = some bytes))
      (At tree) := by
  refine ((Disk.triple_symlinkMetadata path).mapError _).bind fun entry => Triple.pure ?_
  rintro disk ⟨hat, rfl⟩
  refine ⟨hat, ?_⟩
  simp only [FileTree.fileAt_eq_some]
  cases tree.lookup path with
  | none => simp
  | some entry => cases entry <;> simp [Entry.isDir]

/-- The files that are read are those of the tree. -/
theorem triple_readFiles (children : List Path) :
    Triple (At tree) (readFiles children)
      (fun files disk => At tree disk ∧ files = children.filterMap tree.fileAt) (At tree) := by
  induction children with
  | nil => exact Triple.pure fun disk hat => ⟨hat, rfl⟩
  | cons child rest ih =>
      refine (triple_isRegular child).bind fun regular => ?_
      cases regular with
      | true =>
          refine Triple.conseq (P := fun disk => At tree disk) ?_ (fun disk h => h.1)
            (fun _ _ h => h) (fun _ h => h)
          refine ((Disk.triple_read child).mapError _).bind fun bytes => ?_
          refine Triple.conseq (P := fun disk => tree.lookup child = some (.file bytes)
            ∧ At tree disk) (Triple.of_imp fun hfile => ih.bind fun others => Triple.pure ?_)
            (fun disk h => h.symm) (fun _ _ h => h) (fun _ h => h)
          rintro disk ⟨hat, rfl⟩
          exact ⟨hat, by rw [List.filterMap_cons_some (FileTree.fileAt_eq_some.mpr hfile)]⟩
      | false =>
          refine Triple.conseq (P := fun disk => tree.fileAt child = none ∧ At tree disk)
            (Triple.of_imp fun hnone => ?_) (fun disk h => ⟨?_, h.1⟩) (fun _ _ h => h)
            (fun _ h => h)
          · rw [List.filterMap_cons_none hnone]
            exact ih
          · cases hfile : tree.fileAt child with
            | none => rfl
            | some bytes => exact absurd (h.2.mpr ⟨bytes, hfile⟩) (by decide)

/-- What `iter_files` reads of a tree. -/
structure ReadFrom (sha256 : List UInt8 → Signature) (tree : FileTree) (dir : Path)
    (files : List (List UInt8 × Signature)) : Prop where
  perm : (files.map Prod.fst).Perm (tree.filesOf dir)
  hash : ∀ file ∈ files, file.2 = sha256 file.1

theorem triple_iterFiles (dir : Path) :
    Triple (At tree) (iterFiles sha256 dir)
      (fun files disk => At tree disk ∧ ReadFrom sha256 tree dir files) (At tree) := by
  refine ((Disk.triple_readDir dir).mapError _).bind fun children => ?_
  refine Triple.conseq (P := fun disk => children = tree.children dir ∧ At tree disk)
    (Triple.of_imp ?_) (fun disk h => h.symm) (fun _ _ h => h) (fun _ h => h)
  rintro rfl
  refine (triple_readFiles _).bind fun files => Triple.pure ?_
  rintro disk ⟨hat, rfl⟩
  refine ⟨hat, ?_, ?_⟩
  · have hperm := (List.perm_insertionSort (fun file other : List UInt8 × Signature =>
      file.2.bytes ≤ other.2.bytes) (((tree.children dir).filterMap tree.fileAt).map
        fun bytes => (bytes, sha256 bytes))).map Prod.fst
    rwa [List.map_map, show (Prod.fst ∘ fun bytes => (bytes, sha256 bytes)) = id from rfl,
      List.map_id] at hperm
  · intro file hfile
    have hmem := (List.perm_insertionSort _ _).mem_iff.mp hfile
    obtain ⟨bytes, -, rfl⟩ := List.mem_map.mp hmem
    rfl

theorem triple_tallyNames (children : List Path) (tally : Tally) :
    Triple (At tree) (tallyNames children tally)
      (fun out disk => At tree disk
        ∧ out = ((children.filter fun child => (tree.fileAt child).isSome).map fileName).foldl
          Tally.note tally)
      (At tree) := by
  induction children generalizing tally with
  | nil => exact Triple.pure fun disk hat => ⟨hat, rfl⟩
  | cons child rest ih =>
      refine (triple_isRegular child).bind fun regular => ?_
      refine Triple.conseq (P := fun disk => (regular = (tree.fileAt child).isSome) ∧ At tree disk)
        (Triple.of_imp fun hregular => ?_) (fun disk h => ⟨?_, h.1⟩) (fun _ _ h => h) (fun _ h => h)
      · rw [List.filter_cons, ← hregular]
        cases regular with
        | true => exact ih (tally.note (fileName child))
        | false => exact ih tally
      · rw [Bool.eq_iff_iff, h.2, Option.isSome_iff_exists]

/-- The names `detect_format` looks at. -/
def regularNames (tree : FileTree) (dir : Path) : List String :=
  ((tree.children dir).filter fun child => (tree.fileAt child).isSome).map fileName

theorem triple_detectFormat (dir : Path) :
    Triple (At tree) (detectFormat dir)
      (fun format disk => At tree disk
        ∧ format = ((regularNames tree dir).foldl Tally.note ⟨0, 0, 0, 0, 0⟩).winner)
      (At tree) := by
  refine ((Disk.triple_isDir dir).mapError _).bind fun there => ?_
  cases there with
  | false => exact Triple.throw fun disk h => h.1
  | true =>
      refine Triple.conseq (P := At tree) ?_ (fun disk h => h.1) (fun _ _ h => h) (fun _ h => h)
      refine ((Disk.triple_readDir dir).mapError _).bind fun children => ?_
      refine Triple.conseq (P := fun disk => children = tree.children dir ∧ At tree disk)
        (Triple.of_imp ?_) (fun disk h => h.symm) (fun _ _ h => h) (fun _ h => h)
      rintro rfl
      refine (triple_tallyNames _ _).bind fun tally => Triple.pure ?_
      rintro disk ⟨hat, rfl⟩
      exact ⟨hat, rfl⟩

theorem triple_highestOrdinal (children : List Path) (max : Int) :
    Triple (At tree) (highestOrdinal children max) (fun _ => At tree) (At tree) := by
  induction children generalizing max with
  | nil => exact Triple.pure fun _ h => h
  | cons child rest ih =>
      refine Disk.triple_attempt.caught.bind fun out => ?_
      refine Triple.conseq (P := At tree) ?_ ?_ (fun _ _ h => h) (fun _ h => h)
      · cases out with
        | some => exact ih _
        | none => exact ih _
      · rintro disk (⟨-, -, hat⟩ | ⟨-, hat⟩) <;> exact hat

theorem triple_nextAflOrdinal :
    Triple (At tree) (nextAflOrdinal dst format) (fun _ => At tree) (At tree) := by
  unfold nextAflOrdinal
  split
  case isTrue => exact Triple.pure fun _ h => h
  case isFalse =>
    refine (Disk.triple_readDir dst).caught.bind fun out => ?_
    refine Triple.conseq (P := At tree) ?_ ?_ (fun _ _ h => h) (fun _ h => h)
    · cases out with
      | none => exact Triple.pure fun _ h => h
      | some children =>
          refine (triple_highestOrdinal children (-1)).bind fun max => ?_
          split
          case isTrue => exact Triple.pure fun _ h => h
          case isFalse => exact Triple.throw fun _ h => h
    · rintro disk (⟨-, -, hat, -⟩ | ⟨-, hat⟩) <;> exact hat

/-- A reader that fails leaves what holds of the tree. -/
theorem triple_at_error {ε α : Type} {m : Op Disk ε α} {Q : α → Disk → Prop}
    {I : FileTree → Prop} (h : Triple (At tree) m Q (At tree)) (htree : I tree) :
    Triple (At tree) m Q (fun disk => I disk.tree) := by
  refine h.conseq (fun _ h => h) (fun _ _ h => h) fun disk hat => ?_
  rw [show disk.tree = tree from hat]
  exact htree

/-! ## What copying keeps -/

/-- The counters behind the contents that were taken. -/
structure Counted (sha256 : List UInt8 → Signature) (taken : List (List UInt8))
    (progress : Progress) : Prop where
  seen : progress.seen = (taken.map sha256).toFinset
  unique : progress.unique = progress.seen.card
  total : progress.unique + progress.duplicates = taken.length

theorem Counted.start (ordinal : Nat) : Counted sha256 [] ⟨∅, 0, 0, ordinal⟩ := ⟨rfl, rfl, rfl⟩

theorem toFinset_map_concat (taken : List (List UInt8)) (bytes : List UInt8) :
    ((taken ++ [bytes]).map sha256).toFinset
      = insert (sha256 bytes) (taken.map sha256).toFinset := by
  rw [List.map_append, List.toFinset_append, Finset.union_comm]
  rfl

theorem Counted.duplicate {taken : List (List UInt8)} {progress : Progress}
    (h : Counted sha256 taken progress) {bytes : List UInt8}
    (hseen : sha256 bytes ∈ progress.seen) :
    Counted sha256 (taken ++ [bytes])
      { progress with duplicates := progress.duplicates + 1 } := by
  refine ⟨?_, h.unique, ?_⟩
  · rw [toFinset_map_concat, ← h.seen, Finset.insert_eq_of_mem hseen]
  · have htotal := h.total
    rw [List.length_append, List.length_singleton]
    dsimp only
    omega

theorem Counted.written {taken : List (List UInt8)} {progress : Progress}
    (h : Counted sha256 taken progress) {bytes : List UInt8}
    (hseen : sha256 bytes ∉ progress.seen) (ordinal : Nat) :
    Counted sha256 (taken ++ [bytes]) ⟨insert (sha256 bytes) progress.seen, progress.unique + 1,
      progress.duplicates, ordinal⟩ := by
  refine ⟨?_, ?_, ?_⟩
  · rw [toFinset_map_concat, ← h.seen]
  · rw [Finset.card_insert_of_notMem hseen, h.unique]
  · have htotal := h.total
    rw [List.length_append, List.length_singleton]
    dsimp only
    omega

/-- Where a content goes. -/
def target (sha256 : List UInt8 → Signature) (dst : Path) (format : Format) (bytes : List UInt8)
    (ordinal : Nat) : Path :=
  dst ++ [(outputName format (sha256 bytes) ordinal).1]

/-- A condition that is kept while files are copied from `srcs` into `dst`. -/
structure Upkeep (sha256 : List UInt8 → Signature) (dst : Path) (format : Format)
    (srcs : List Path) where
  /-- Behind these contents, in the order in which they were taken. -/
  holds : List (List UInt8) → FileTree → Prop
  /-- Behind a failure. -/
  fails : FileTree → Prop
  /-- What was read of a source. -/
  took : Path → List (List UInt8) → Prop
  /-- What may be written. -/
  source : List UInt8 → Prop
  weaken : ∀ {taken tree}, holds taken tree → fails tree
  same : ∀ {taken tree tree'}, holds taken tree → tree'.SameFiles tree → holds taken tree'
  read : ∀ {taken tree src files}, holds taken tree → src ∈ srcs →
    files.Perm (tree.filesOf src) → took src files ∧ ∀ bytes ∈ files, source bytes
  skip : ∀ {taken tree bytes}, holds taken tree → source bytes →
    sha256 bytes ∈ taken.map sha256 → holds (taken ++ [bytes]) tree
  put : ∀ {taken tree bytes ordinal} {disk : Disk}, holds taken tree → source bytes →
    disk.Wrote tree (target sha256 dst format bytes ordinal) bytes →
    holds (taken ++ [bytes]) disk.tree
  tear : ∀ {taken tree bytes part ordinal} {disk : Disk}, holds taken tree → source bytes →
    part <+: bytes → disk.Wrote tree (target sha256 dst format bytes ordinal) part →
    fails disk.tree

namespace Upkeep

variable {srcs : List Path} (upkeep : Upkeep sha256 dst format srcs)

/-- The loop over the files keeps what is kept over one copy: by induction on the files. -/
theorem triple_copyFiles (files : List (List UInt8 × Signature)) (taken : List (List UInt8))
    (progress : Progress) (tree : FileTree) (hholds : upkeep.holds taken tree)
    (hcounted : Counted sha256 taken progress)
    (hfiles : ∀ file ∈ files, file.2 = sha256 file.1 ∧ upkeep.source file.1) :
    Triple (At tree) (copyFiles dst format files progress)
      (fun after disk => upkeep.holds (taken ++ files.map Prod.fst) disk.tree
        ∧ Counted sha256 (taken ++ files.map Prod.fst) after)
      (fun disk => upkeep.fails disk.tree) := by
  induction files generalizing taken progress tree with
  | nil =>
      refine Triple.pure ?_
      rintro disk rfl
      rw [List.map_nil, List.append_nil]
      exact ⟨hholds, hcounted⟩
  | cons file rest ih =>
      obtain ⟨bytes, hash⟩ := file
      obtain ⟨⟨hhash, hsource⟩, hrest⟩ := List.forall_mem_cons.mp hfiles
      obtain rfl : hash = sha256 bytes := hhash
      rw [copyFiles, List.map_cons, List.append_cons]
      split
      case isTrue hseen =>
        have hmem : sha256 bytes ∈ taken.map sha256 := by
          rwa [hcounted.seen, List.mem_toFinset] at hseen
        exact ih (taken ++ [bytes]) _ tree (upkeep.skip hholds hsource hmem)
          (hcounted.duplicate hseen) hrest
      case isFalse hseen =>
        dsimp only
        -- The write succeeds, or a part of the file is the last thing that happens.
        have hwrite : Triple (At tree)
            ((Disk.writeFile (target sha256 dst format bytes progress.ordinal) bytes).mapError
              BridgeError.io)
            (fun _ => Disk.Wrote tree (target sha256 dst format bytes progress.ordinal) bytes)
            (fun disk => upkeep.fails disk.tree) := by
          refine ((Disk.triple_writeFile _ bytes tree).mapError _).conseq (fun _ h => h)
            (fun _ _ h => h) ?_
          rintro disk (hat | ⟨part, hpart, hwrote⟩)
          · rw [hat]
            exact upkeep.weaken hholds
          · exact upkeep.tear hholds hsource hpart hwrote
        refine hwrite.bind fun _ disk hwrote => ?_
        exact ih (taken ++ [bytes]) _ disk.tree (upkeep.put hholds hsource hwrote)
          (hcounted.written hseen _) hrest disk rfl

/-- Reading a source and copying its files. -/
theorem triple_copySource {α : Type} {src : Path} (hsrc : src ∈ srcs)
    {taken : List (List UInt8)} {progress : Progress} (hholds : upkeep.holds taken tree)
    (hcounted : Counted sha256 taken progress) {rest : Progress → Bridge α}
    {Q : α → Disk → Prop}
    (hrest : ∀ part after tree', upkeep.took src part → upkeep.holds (taken ++ part) tree' →
      Counted sha256 (taken ++ part) after →
      Triple (At tree') (rest after) Q fun disk => upkeep.fails disk.tree) :
    Triple (At tree)
      (do
        let files ← iterFiles sha256 src
        let after ← copyFiles dst format files progress
        rest after)
      Q (fun disk => upkeep.fails disk.tree) := by
  refine (triple_at_error (triple_iterFiles src) (upkeep.weaken hholds)).bind fun files => ?_
  refine Triple.conseq (P := fun disk => ReadFrom sha256 tree src files ∧ At tree disk)
    (Triple.of_imp fun hread => ?_) (fun _ h => h.symm) (fun _ _ h => h) (fun _ h => h)
  obtain ⟨htook, hsource⟩ := upkeep.read hholds hsrc hread.perm
  have hfiles : ∀ file ∈ files, file.2 = sha256 file.1 ∧ upkeep.source file.1 := fun file hfile =>
    ⟨hread.hash file hfile, hsource file.1 (List.mem_map_of_mem hfile)⟩
  refine (upkeep.triple_copyFiles files taken progress tree hholds hcounted hfiles).bind
    fun after disk h => ?_
  exact hrest _ after disk.tree htook h.1 h.2 disk rfl

/-- What `create_dir_all` and the look for ordinals do first. -/
theorem triple_prepare {α : Type} {rest : Nat → Bridge α} {Q : α → Disk → Prop}
    (hholds : upkeep.holds [] before)
    (hrest : ∀ ordinal tree, upkeep.holds [] tree →
      Triple (At tree) (rest ordinal) Q fun disk => upkeep.fails disk.tree) :
    Triple (At before)
      (do
        (Disk.createDirAll dst).mapError .io
        let ordinal ← nextAflOrdinal dst format
        rest ordinal)
      Q (fun disk => upkeep.fails disk.tree) := by
  have hcreate : Triple (At before) ((Disk.createDirAll dst).mapError BridgeError.io)
      (fun _ disk => upkeep.holds [] disk.tree) (fun disk => upkeep.fails disk.tree) :=
    ((Disk.triple_createDirAll dst before).mapError _).conseq (fun _ h => h)
      (fun _ disk h => upkeep.same hholds h) fun disk h => upkeep.weaken (upkeep.same hholds h)
  refine hcreate.bind fun _ disk hhere => ?_
  exact (triple_at_error triple_nextAflOrdinal (upkeep.weaken hhere)).bind
    (fun ordinal => hrest ordinal disk.tree hhere) disk rfl

/-- A summary of all that was taken. -/
def Done (summary : ImportSummary) (tree : FileTree) : Prop :=
  ∃ parts, List.Forall₂ upkeep.took srcs parts ∧ upkeep.holds parts.flatten tree
    ∧ summary.unique = (parts.flatten.map sha256).toFinset.card
    ∧ summary.unique + summary.duplicates = parts.flatten.length

/-- The loop over the sources keeps what is kept over the copies of each. -/
theorem triple_mergeSources (rest : List Path) (hrest : rest ⊆ srcs) (first : Option Format)
    (taken : List (List UInt8)) (progress : Progress) (tree : FileTree)
    (upkeep : Upkeep sha256 dst .govfuzz srcs) (hholds : upkeep.holds taken tree)
    (hcounted : Counted sha256 taken progress) :
    Triple (At tree) (mergeSources sha256 dst rest first progress)
      (fun out disk => ∃ parts, List.Forall₂ upkeep.took rest parts
        ∧ upkeep.holds (taken ++ parts.flatten) disk.tree
        ∧ Counted sha256 (taken ++ parts.flatten) out.2)
      (fun disk => upkeep.fails disk.tree) := by
  induction rest generalizing first taken progress tree with
  | nil =>
      refine Triple.pure ?_
      rintro disk rfl
      exact ⟨[], .nil, by rwa [List.flatten_nil, List.append_nil], by
        rwa [List.flatten_nil, List.append_nil]⟩
  | cons src rest ih =>
      obtain ⟨hsrc, hrest⟩ := List.cons_subset.mp hrest
      refine (triple_at_error (triple_detectFormat src) (upkeep.weaken hholds)).bind
        fun detected => ?_
      refine Triple.conseq (P := At tree) ?_ (fun _ h => h.1) (fun _ _ h => h) (fun _ h => h)
      refine upkeep.triple_copySource hsrc hholds hcounted fun part after tree' htook hhere hnow =>
        (ih hrest _ (taken ++ part) after tree' hhere hnow).conseq (fun _ h => h) ?_ fun _ h => h
      rintro out disk ⟨parts, htooks, hend, hcounts⟩
      rw [List.append_assoc, ← List.flatten_cons] at hend hcounts
      exact ⟨part :: parts, .cons htook htooks, hend, hcounts⟩

theorem triple_mergeDirs (upkeep : Upkeep sha256 dst .govfuzz srcs)
    (hholds : upkeep.holds [] before) :
    Triple (At before) (mergeDirs sha256 srcs dst)
      (fun summary disk => upkeep.Done summary disk.tree) (fun disk => upkeep.fails disk.tree) := by
  refine upkeep.triple_prepare hholds fun ordinal tree hhere => ?_
  refine (triple_mergeSources srcs (List.Subset.refl _) none [] _ tree upkeep hhere
    (.start ordinal)).bind fun out => Triple.pure ?_
  rintro disk ⟨parts, htook, hend, hcounted⟩
  rw [List.nil_append] at hend hcounted
  exact ⟨parts, htook, hend, by rw [hcounted.unique, hcounted.seen], hcounted.total⟩

theorem triple_copyWithDedup {src : Path} (upkeep : Upkeep sha256 dst format [src])
    (sourceFormat : Format) (hholds : upkeep.holds [] before) :
    Triple (At before) (copyWithDedup sha256 src dst sourceFormat format)
      (fun summary disk => upkeep.Done summary disk.tree) (fun disk => upkeep.fails disk.tree) := by
  refine (triple_at_error ((Disk.triple_isDir src).mapError _) (upkeep.weaken hholds)).bind
    fun there => ?_
  refine Triple.conseq (P := At before) ?_ (fun _ h => h.1) (fun _ _ h => h) (fun _ h => h)
  cases there with
  | false => exact triple_at_error (Triple.throw fun _ h => h) (upkeep.weaken hholds)
  | true =>
      refine upkeep.triple_prepare hholds fun ordinal tree hhere => ?_
      refine upkeep.triple_copySource List.mem_cons_self hhere (.start ordinal) ?_
      intro part after tree' htook hend hcounted
      refine Triple.pure ?_
      rintro disk rfl
      rw [List.nil_append] at hend hcounted
      have hpart : [part].flatten = part := by rw [List.flatten_singleton]
      exact ⟨[part], .cons htook .nil, by rwa [hpart], by
        rw [hpart, hcounted.unique, hcounted.seen], by rw [hpart, hcounted.total]⟩

theorem triple_exportDir {src : Path} (upkeep : Upkeep sha256 dst format [src])
    (hholds : upkeep.holds [] before) :
    Triple (At before) (exportDir sha256 src dst format)
      (fun summary disk => upkeep.Done summary disk.tree) (fun disk => upkeep.fails disk.tree) := by
  refine (triple_at_error (triple_detectFormat src) (upkeep.weaken hholds)).bind
    fun sourceFormat => ?_
  exact (upkeep.triple_copyWithDedup sourceFormat hholds).conseq (fun _ h => h.1)
    (fun _ _ h => h) (fun _ h => h)

end Upkeep

/-! ## The commands -/

/-- The format of the names a command gives. -/
def Command.targetFormat : Command → Format
  | importFrom _ _ _ => .govfuzz
  | exportTo target _ _ => (Format.parse target).getD .unknown
  | merge _ _ => .govfuzz

/-- A condition that the command keeps. -/
abbrev Command.Upkeep (command : Command) (sha256 : List UInt8 → Signature) :=
  Corpus.Upkeep sha256 command.output command.targetFormat command.inputs

/-- A command does what its upkeep says, and where it fails leaves what that allows. -/
theorem triple_command (command : Command) (upkeep : command.Upkeep sha256)
    (hholds : upkeep.holds [] before) :
    Triple (At before) (command.run sha256) (fun summary disk => upkeep.Done summary disk.tree)
      (fun disk => upkeep.fails disk.tree) := by
  have hbegin := upkeep.weaken hholds
  cases command with
  | importFrom source input output =>
      have hcopy := fun format =>
        (upkeep.triple_copyWithDedup format hholds).mapError CommandError.bridge
      have hdetect := (triple_at_error ((triple_detectFormat input).mapError CommandError.bridge)
        hbegin).bind fun format => (hcopy format).conseq (fun _ h => h.1) (fun _ _ h => h)
          (fun _ h => h)
      rw [Command.run]
      split
      case h_1 => exact hdetect
      case h_2 => exact hdetect
      case h_3 explicit _ _ => exact hcopy explicit
  | exportTo target input output =>
      rw [Command.run]
      split
      case h_1 => exact triple_at_error (Triple.throw fun _ h => h) hbegin
      case h_2 => exact triple_at_error (Triple.throw fun _ h => h) hbegin
      case h_3 found _ hparse =>
        have hformat : (Command.exportTo target input output).targetFormat = found := by
          rw [Command.targetFormat, hparse]
          rfl
        rw [← hformat]
        exact (upkeep.triple_exportDir hholds).mapError _
  | merge inputs output => exact (upkeep.triple_mergeDirs hholds).mapError _

/-- The disk behind a command, whether or not it succeeds. -/
def execute (sha256 : List UInt8 → Signature) (disk : Disk) (command : Command) : Disk :=
  ((command.run sha256).exec disk).2

/-! ## Only the output changes -/

/-- The files elsewhere are the same, and a new one has a name of the format. -/
structure Filled (before : FileTree) (dst : Path) (format : Format) (tree : FileTree) : Prop where
  spared : ∀ path bytes, path.dropLast ≠ dst →
    (tree.lookup path = some (.file bytes) ↔ before.lookup path = some (.file bytes))
  named : ∀ name bytes, tree.lookup (dst ++ [name]) = some (.file bytes) →
    (∃ old, before.lookup (dst ++ [name]) = some (.file old))
      ∨ ∃ hash ordinal, name = (outputName format hash ordinal).1

theorem Filled.refl : Filled before dst format before :=
  ⟨fun _ _ _ => .rfl, fun _ bytes h => .inl ⟨bytes, h⟩⟩

theorem Filled.of_sameFiles (h : Filled before dst format tree) {tree' : FileTree}
    (hsame : tree'.SameFiles tree) : Filled before dst format tree' :=
  ⟨fun path bytes hpath => (hsame path bytes).trans (h.spared path bytes hpath),
    fun name bytes hfile => h.named name bytes ((hsame _ bytes).mp hfile)⟩

/-- Whatever is put there, all of it or a part. -/
theorem Filled.of_wrote (h : Filled before dst format tree) {bytes part : List UInt8}
    {ordinal : Nat} {disk : Disk}
    (hwrote : disk.Wrote tree (target sha256 dst format bytes ordinal) part) :
    Filled before dst format disk.tree := by
  constructor
  · intro path other hpath
    rcases hwrote.at path with ⟨rfl, -⟩ | ⟨-, hsame⟩
    · rw [target, List.dropLast_concat] at hpath
      exact absurd rfl hpath
    · rw [hsame]
      exact h.spared path other hpath
  · intro name other hfile
    rcases hwrote.at (dst ++ [name]) with ⟨hpath, -⟩ | ⟨-, hsame⟩
    · exact .inr ⟨sha256 bytes, ordinal, List.singleton_inj.mp (List.append_cancel_left hpath)⟩
    · rw [hsame] at hfile
      exact h.named name other hfile

/-- A source that is not the output is read as it was. -/
def Filled.upkeep (sha256 : List UInt8 → Signature) (before : FileTree) (dst : Path)
    (format : Format) (srcs : List Path) : Upkeep sha256 dst format srcs where
  holds _ tree := Filled before dst format tree
  fails tree := Filled before dst format tree
  took src files := src ≠ dst → files.Perm (before.filesOf src)
  source _ := True
  weaken h := h
  same h hsame := h.of_sameFiles hsame
  read h _ hperm := by
    refine ⟨fun hne => hperm.trans (FileTree.filesOf_perm fun name bytes => ?_), fun _ _ => trivial⟩
    exact h.spared _ bytes (by rwa [List.dropLast_concat])
  skip h _ _ := h
  put h _ hwrote := h.of_wrote hwrote
  tear h _ _ hwrote := h.of_wrote hwrote

/-- A summary that counts each content once, and every file. -/
structure Exact (before : FileTree) (srcs : List Path) (summary : ImportSummary) : Prop where
  unique : summary.unique = (srcs.flatMap before.filesOf).toFinset.card
  total : summary.unique + summary.duplicates = (srcs.flatMap before.filesOf).length

theorem perm_flatten {srcs : List Path} (hapart : dst ∉ srcs) {parts : List (List (List UInt8))}
    (h : List.Forall₂ (fun src files => src ≠ dst → files.Perm (before.filesOf src)) srcs parts) :
    parts.flatten.Perm (srcs.flatMap before.filesOf) := by
  induction h with
  | nil => exact .refl _
  | cons hpart _ ih =>
      rw [List.mem_cons, not_or] at hapart
      rw [List.flatten_cons, List.flatMap_cons]
      exact (hpart (Ne.symm hapart.1)).append (ih hapart.2)

theorem card_toFinset_map {contents : List (List UInt8)}
    (hdistinct : ∀ a ∈ contents, ∀ b ∈ contents, sha256 a = sha256 b → a = b) :
    (contents.map sha256).toFinset.card = contents.toFinset.card := by
  have himage : (contents.map sha256).toFinset = contents.toFinset.image sha256 := by
    ext hash
    simp
  rw [himage]
  refine Finset.card_image_of_injOn fun a ha b hb hab => hdistinct a ?_ b ?_ hab
  · exact List.mem_toFinset.mp ha
  · exact List.mem_toFinset.mp hb

/-- A command that succeeds reports how many contents its inputs held, and
accounts for every file, if no two of these contents have one hash. -/
theorem bridge_summary_exact (sha256 : List UInt8 → Signature) (command : Command) (disk : Disk)
    (hapart : command.output ∉ command.inputs)
    (hdistinct : ∀ a ∈ command.inputs.flatMap disk.tree.filesOf,
      ∀ b ∈ command.inputs.flatMap disk.tree.filesOf, sha256 a = sha256 b → a = b)
    (summary : ImportSummary) (hok : ((command.run sha256).exec disk).1 = .ok summary) :
    Exact disk.tree command.inputs summary := by
  have hrun := triple_command command (Filled.upkeep sha256 disk.tree _ _ _) .refl disk rfl
  split at hrun
  case h_1 found after heq =>
    rw [heq] at hok
    cases hok
    obtain ⟨parts, htook, -, hunique, htotal⟩ := hrun
    have hperm := perm_flatten hapart htook
    constructor
    · rw [hunique, List.toFinset_eq_of_perm _ _ (hperm.map sha256), card_toFinset_map hdistinct]
    · rw [htotal, hperm.length_eq]
  case h_2 error after heq =>
    rw [heq] at hok
    cases hok

/-! ## What must not collide -/

/-- A content that some file holds, whole or cut short. -/
def Piece (tree : FileTree) (bytes : List UInt8) : Prop :=
  ∃ path whole, tree.lookup path = some (.file whole) ∧ bytes <+: whole

structure Sound (sha256 : List UInt8 → Signature) (tree : FileTree) : Prop where
  distinct : ∀ a b, Piece tree a → Piece tree b → stamp (sha256 a) = stamp (sha256 b) → a = b
  named : ∀ path a b format ordinal, tree.lookup path = some (.file a) → Piece tree b →
    fileName path = (outputName format (sha256 b) ordinal).1 → a = b

theorem Piece.of_prefix {bytes part : List UInt8} (h : Piece tree bytes) (hpart : part <+: bytes) :
    Piece tree part := by
  obtain ⟨path, whole, hfile, hbytes⟩ := h
  exact ⟨path, whole, hfile, hpart.trans hbytes⟩

theorem fileName_target (bytes : List UInt8) (ordinal : Nat) :
    fileName (target sha256 dst format bytes ordinal)
      = (outputName format (sha256 bytes) ordinal).1 := by
  simp [fileName, target]

/-! ## Unions -/

/-- What a command is for: the contents of the inputs go into the output. -/
def Command.pour (command : Command) (pool : Path → Set (List UInt8)) : Path → Set (List UInt8) :=
  fun dir => { bytes | bytes ∈ pool dir
    ∨ dir = command.output ∧ ∃ src ∈ command.inputs, bytes ∈ pool src }

/-- What is left of a file: all of it, but where a write has failed. -/
def Left (torn : Set Path) (path : Path) (part whole : List UInt8) : Prop :=
  part <+: whole ∧ (path.dropLast ∉ torn → part = whole)

theorem Left.mono {torn torn' : Set Path} {path : Path} {part whole : List UInt8}
    (h : Left torn path part whole) (hsub : torn ⊆ torn') : Left torn' path part whole :=
  ⟨h.1, fun hpath => h.2 fun hmem => hpath (hsub hmem)⟩

/-- A tree that commands have made of `start`, some of which have failed on
the directories `torn`.  The contents are of what is in `most`, and those of
`least` are all there if none has failed. -/
structure Grown (sha256 : List UInt8 → Signature) (start : FileTree) (torn : Set Path)
    (least most : Path → Set (List UInt8)) (tree : FileTree) : Prop where
  kept : ∀ path whole, start.lookup path = some (.file whole) →
    ∃ part, tree.lookup path = some (.file part) ∧ Left torn path part whole
  named : ∀ path part whole format ordinal, tree.lookup path = some (.file part) →
    Piece start whole → fileName path = (outputName format (sha256 whole) ordinal).1 →
    Left torn path part whole
  piece : ∀ path bytes, tree.lookup path = some (.file bytes) → Piece start bytes
  within : ∀ dir, ∀ bytes ∈ tree.contents dir,
    ∃ whole ∈ most dir, bytes <+: whole ∧ (torn = ∅ → bytes = whole)
  full : torn = ∅ → ∀ dir, least dir ⊆ tree.contents dir

section

variable {start : FileTree} {torn torn' : Set Path} {least most : Path → Set (List UInt8)}

theorem Grown.refl (h : Sound sha256 start) :
    Grown sha256 start ∅ start.contents start.contents start where
  kept path whole hfile := ⟨whole, hfile, List.prefix_refl _, fun _ => rfl⟩
  named path part whole format ordinal hfile hwhole hname := by
    obtain rfl := h.named path part whole format ordinal hfile hwhole hname
    exact ⟨List.prefix_refl _, fun _ => rfl⟩
  piece path bytes hfile := ⟨path, bytes, hfile, List.prefix_refl _⟩
  within dir bytes hbytes := ⟨bytes, hbytes, List.prefix_refl _, fun _ => rfl⟩
  full _ dir := subset_rfl

/-- Directories come and go without a trace. -/
theorem Grown.of_sameFiles (h : Grown sha256 start torn least most tree) {tree' : FileTree}
    (hsame : tree'.SameFiles tree) : Grown sha256 start torn least most tree' where
  kept path whole hfile := by
    obtain ⟨part, hpart, hleft⟩ := h.kept path whole hfile
    exact ⟨part, (hsame path part).mpr hpart, hleft⟩
  named path part whole format ordinal hfile :=
    h.named path part whole format ordinal ((hsame path part).mp hfile)
  piece path bytes hfile := h.piece path bytes ((hsame path bytes).mp hfile)
  within dir bytes := by
    rintro ⟨name, hfile⟩
    exact h.within dir bytes ⟨name, (hsame _ bytes).mp hfile⟩
  full hnone dir bytes hbytes := by
    obtain ⟨name, hfile⟩ := h.full hnone dir hbytes
    exact ⟨name, (hsame _ bytes).mpr hfile⟩

/-- One more failure: nothing needs to be all there. -/
theorem Grown.fail (h : Grown sha256 start torn least most tree) (dir : Path)
    (least' : Path → Set (List UInt8)) :
    Grown sha256 start (insert dir torn) least' most tree where
  kept path whole hfile := by
    obtain ⟨part, hpart, hleft⟩ := h.kept path whole hfile
    exact ⟨part, hpart, hleft.mono (Set.subset_insert _ _)⟩
  named path part whole format ordinal hfile hwhole hname :=
    (h.named path part whole format ordinal hfile hwhole hname).mono (Set.subset_insert _ _)
  piece := h.piece
  within other bytes hbytes := by
    obtain ⟨whole, hwhole, hcut, -⟩ := h.within other bytes hbytes
    exact ⟨whole, hwhole, hcut, fun hnone => absurd hnone ((Set.insert_nonempty _ _).ne_empty)⟩
  full hnone := absurd hnone ((Set.insert_nonempty _ _).ne_empty)

/-- A content, or a part of it where writes fail, in the place of its name. -/
theorem Grown.of_wrote (hsound : Sound sha256 start)
    (h : Grown sha256 start torn least most tree) {bytes part : List UInt8} {ordinal : Nat}
    {disk : Disk} (hbytes : Piece start bytes)
    (hmost : ∃ whole ∈ most dst, bytes <+: whole ∧ (torn = ∅ → bytes = whole))
    (hleft : part <+: bytes ∧ (dst ∉ torn → part = bytes))
    (hwrote : disk.Wrote tree (target sha256 dst format bytes ordinal) part) :
    Grown sha256 start torn least most disk.tree := by
  have hplace : (target sha256 dst format bytes ordinal).dropLast = dst := List.dropLast_concat
  have hthere : Left torn (target sha256 dst format bytes ordinal) part bytes := by
    rw [Left, hplace]
    exact hleft
  refine ⟨?_, ?_, ?_, ?_, ?_⟩
  · -- A file in the way has the name of what is written, so it holds that.
    intro path whole hfile
    rcases hwrote.at path with ⟨rfl, hnew⟩ | ⟨-, hsame⟩
    · obtain rfl := hsound.named _ whole bytes format ordinal hfile hbytes
        (fileName_target bytes ordinal)
      exact ⟨part, hnew, hthere⟩
    · rw [hsame]
      exact h.kept path whole hfile
  · intro path found whole format' ordinal' hfile hwhole hname
    rcases hwrote.at path with ⟨rfl, hnew⟩ | ⟨-, hsame⟩
    · rw [hnew] at hfile
      cases hfile
      rw [fileName_target] at hname
      obtain rfl := hsound.distinct _ _ hbytes hwhole (stamp_eq_of_outputName hname)
      exact hthere
    · rw [hsame] at hfile
      exact h.named path found whole format' ordinal' hfile hwhole hname
  · intro path found hfile
    rcases hwrote.at path with ⟨rfl, hnew⟩ | ⟨-, hsame⟩
    · rw [hnew] at hfile
      cases hfile
      exact hbytes.of_prefix hleft.1
    · rw [hsame] at hfile
      exact h.piece path found hfile
  · rintro dir found ⟨name, hfile⟩
    rcases hwrote.at (dir ++ [name]) with ⟨hpath, hnew⟩ | ⟨-, hsame⟩
    · rw [hnew] at hfile
      cases hfile
      obtain ⟨rfl, -⟩ := List.append_inj' hpath rfl
      obtain ⟨whole, hwhole, hcut, hexact⟩ := hmost
      refine ⟨whole, hwhole, hleft.1.trans hcut, fun hnone => ?_⟩
      rw [hleft.2 (hnone ▸ Set.notMem_empty _), hexact hnone]
    · rw [hsame] at hfile
      exact h.within dir found ⟨name, hfile⟩
  · rintro hnone dir found hfound
    obtain ⟨name, hfile⟩ := h.full hnone dir hfound
    refine ⟨name, ?_⟩
    rcases hwrote.at (dir ++ [name]) with ⟨hpath, hnew⟩ | ⟨-, hsame⟩
    · rw [hpath] at hfile
      have hold := h.named _ found bytes format ordinal hfile hbytes (fileName_target bytes ordinal)
      rw [hnew, hold.2 (hnone ▸ Set.notMem_empty _), hleft.2 (hnone ▸ Set.notMem_empty _)]
    · rw [hsame]
      exact hfile

/-- What a command has taken stands under its names. -/
def Stored (sha256 : List UInt8 → Signature) (dst : Path) (format : Format)
    (taken : List (List UInt8)) (tree : FileTree) : Prop :=
  ∀ bytes ∈ taken, ∃ ordinal,
    tree.lookup (target sha256 dst format bytes ordinal) = some (.file bytes)

theorem Stored.contents {taken : List (List UInt8)} (h : Stored sha256 dst format taken tree)
    {bytes : List UInt8} (hbytes : bytes ∈ taken) : bytes ∈ tree.contents dst := by
  obtain ⟨ordinal, hfile⟩ := h bytes hbytes
  exact ⟨_, hfile⟩

theorem Stored.of_sameFiles {taken : List (List UInt8)} (h : Stored sha256 dst format taken tree)
    {tree' : FileTree} (hsame : tree'.SameFiles tree) :
    Stored sha256 dst format taken tree' := by
  intro bytes hbytes
  obtain ⟨ordinal, hfile⟩ := h bytes hbytes
  exact ⟨ordinal, (hsame _ bytes).mpr hfile⟩

theorem Stored.skip (hsound : Sound sha256 start)
    (h : Grown sha256 start torn least most tree) {taken : List (List UInt8)}
    (hstored : Stored sha256 dst format taken tree) {bytes : List UInt8}
    (hbytes : Piece start bytes) (hseen : sha256 bytes ∈ taken.map sha256) :
    Stored sha256 dst format (taken ++ [bytes]) tree := by
  obtain ⟨other, hother, hhash⟩ := List.mem_map.mp hseen
  obtain ⟨ordinal, hfile⟩ := hstored other hother
  obtain rfl := hsound.distinct other bytes (h.piece _ other hfile) hbytes (by rw [hhash])
  exact List.forall_mem_append.mpr ⟨hstored, List.forall_mem_singleton.mpr ⟨ordinal, hfile⟩⟩

theorem Stored.put (hsound : Sound sha256 start)
    (h : Grown sha256 start torn least most tree) {taken : List (List UInt8)}
    (hstored : Stored sha256 dst format taken tree) {bytes : List UInt8}
    (hbytes : Piece start bytes) {ordinal : Nat} {disk : Disk}
    (hwrote : disk.Wrote tree (target sha256 dst format bytes ordinal) bytes) :
    Stored sha256 dst format (taken ++ [bytes]) disk.tree := by
  refine List.forall_mem_append.mpr ⟨fun other hother => ?_,
    List.forall_mem_singleton.mpr ⟨ordinal, hwrote.1⟩⟩
  obtain ⟨ordinal', hfile⟩ := hstored other hother
  refine ⟨ordinal', ?_⟩
  rcases hwrote.at (target sha256 dst format other ordinal') with ⟨hpath, hnew⟩ | ⟨-, hsame⟩
  · have hname := congrArg fileName hpath
    rw [fileName_target, fileName_target] at hname
    obtain rfl := hsound.distinct other bytes (h.piece _ other hfile) hbytes
      (stamp_eq_of_outputName hname)
    exact hnew
  · rw [hsame]
    exact hfile

end

/-! ## One command -/

section

variable {start : FileTree} {torn : Set Path} {pool : Path → Set (List UInt8)}

theorem subset_pour (command : Command) (dir : Path) : pool dir ⊆ command.pour pool dir :=
  fun _ hbytes => .inl hbytes

theorem pour_input {command : Command} {src : Path} (hsrc : src ∈ command.inputs) :
    command.pour pool src ⊆ command.pour pool command.output := by
  rintro bytes (hbytes | ⟨rfl, hpoured⟩)
  · exact .inr ⟨rfl, src, hsrc, hbytes⟩
  · exact .inr ⟨rfl, hpoured⟩

/-- While the command runs everything from before is there, and what it may
bring may be there. -/
def Grown.upkeep (hsound : Sound sha256 start) (torn : Set Path)
    (pool : Path → Set (List UInt8)) (command : Command) : command.Upkeep sha256 where
  holds taken tree := Grown sha256 start torn pool (command.pour pool) tree
    ∧ Stored sha256 command.output command.targetFormat taken tree
  fails tree := Grown sha256 start (insert command.output torn) (command.pour pool)
    (command.pour pool) tree
  took src files := torn = ∅ → ∀ bytes ∈ pool src, bytes ∈ files
  source bytes := Piece start bytes ∧ ∃ whole ∈ command.pour pool command.output,
    bytes <+: whole ∧ (torn = ∅ → bytes = whole)
  weaken h := h.1.fail _ _
  same h hsame := ⟨h.1.of_sameFiles hsame, h.2.of_sameFiles hsame⟩
  read {taken tree src files} h hsrc hperm := by
    have hfiles : ∀ bytes, bytes ∈ files ↔ bytes ∈ tree.contents src := fun bytes => by
      rw [hperm.mem_iff, FileTree.mem_contents_iff]
    refine ⟨fun hnone bytes hbytes => (hfiles bytes).mpr (h.1.full hnone src hbytes),
      fun bytes hbytes => ?_⟩
    have hthere := (hfiles bytes).mp hbytes
    obtain ⟨whole, hwhole, hcut⟩ := h.1.within src bytes hthere
    obtain ⟨name, hfile⟩ := hthere
    exact ⟨h.1.piece _ bytes hfile, whole, pour_input hsrc hwhole, hcut⟩
  skip h hsource hseen := ⟨h.1, h.2.skip hsound h.1 hsource.1 hseen⟩
  put h hsource hwrote := ⟨h.1.of_wrote hsound hsource.1 hsource.2
    ⟨List.prefix_refl _, fun _ => rfl⟩ hwrote, h.2.put hsound h.1 hsource.1 hwrote⟩
  tear h hsource hpart hwrote := by
    obtain ⟨hpiece, whole, hwhole, hcut, -⟩ := hsource
    refine (h.1.fail _ _).of_wrote hsound hpiece ⟨whole, hwhole, hcut, fun hnone => ?_⟩
      ⟨hpart, fun hdst => ?_⟩ hwrote
    · exact absurd hnone ((Set.insert_nonempty _ _).ne_empty)
    · exact absurd (Set.mem_insert _ _) hdst

theorem exists_part {R : Path → List (List UInt8) → Prop} {srcs : List Path}
    {parts : List (List (List UInt8))} (h : List.Forall₂ R srcs parts) {src : Path}
    (hsrc : src ∈ srcs) : ∃ part ∈ parts, R src part := by
  induction h with
  | nil => cases hsrc
  | cons hpart _ ih =>
      rcases List.mem_cons.mp hsrc with rfl | hsrc
      · exact ⟨_, List.mem_cons_self, hpart⟩
      · obtain ⟨part, hmem, hrest⟩ := ih hsrc
        exact ⟨part, List.mem_cons_of_mem _ hmem, hrest⟩

/-- A command that succeeds brings all of its inputs. -/
theorem Grown.of_done {hsound : Sound sha256 start} {command : Command} {summary : ImportSummary}
    (h : (Grown.upkeep hsound torn pool command).Done summary tree) :
    Grown sha256 start torn (command.pour pool) (command.pour pool) tree := by
  obtain ⟨parts, htook, ⟨hgrown, hstored⟩, -, -⟩ := h
  refine { hgrown with full := fun hnone dir bytes hbytes => ?_ }
  rcases hbytes with hold | ⟨rfl, src, hsrc, hbytes⟩
  · exact hgrown.full hnone dir hold
  · refine hstored.contents ?_
    obtain ⟨part, hpart, htaken⟩ := exists_part htook hsrc
    exact List.mem_flatten_of_mem hpart (htaken hnone bytes hbytes)

theorem Grown.pour (h : Grown sha256 start torn pool pool tree) (command : Command) :
    Grown sha256 start torn pool (command.pour pool) tree := by
  refine { h with within := fun dir bytes hbytes => ?_ }
  obtain ⟨whole, hwhole, hcut⟩ := h.within dir bytes hbytes
  exact ⟨whole, subset_pour command dir hwhole, hcut⟩

/-- The outputs of the commands that report an error. -/
def failedOutputs (sha256 : List UInt8 → Signature) : List Command → Disk → List Path
  | [], _ => []
  | command :: rest, disk =>
      match (command.run sha256).exec disk with
      | (.ok _, after) => failedOutputs sha256 rest after
      | (.error _, after) => command.output :: failedOutputs sha256 rest after

/-- The run lemma: the failures add up, and so does what is poured. -/
theorem Grown.run (hsound : Sound sha256 start) (commands : List Command) (disk : Disk)
    (h : Grown sha256 start torn pool pool disk.tree) :
    let most := commands.foldl (fun pool command => command.pour pool) pool
    Grown sha256 start (torn ∪ { dir | dir ∈ failedOutputs sha256 commands disk }) most most
      (commands.foldl (execute sha256) disk).tree := by
  induction commands generalizing torn pool disk with
  | nil =>
      have hnone : torn ∪ { dir | dir ∈ failedOutputs sha256 [] disk } = torn := by
        simp [failedOutputs]
      rw [hnone]
      exact h
  | cons command rest ih =>
      have hrun := triple_command command (Grown.upkeep hsound torn pool command)
        ⟨h.pour command, List.forall_mem_nil _⟩ disk rfl
      rw [List.foldl_cons, List.foldl_cons, failedOutputs, execute]
      split at hrun
      case h_1 summary after heq =>
        rw [heq]
        exact ih after (.of_done hrun)
      case h_2 error after heq =>
        rw [heq]
        have hrest := ih after hrun
        rw [Set.insert_union] at hrest
        have hfailed : torn ∪ { dir | dir ∈ command.output :: failedOutputs sha256 rest after }
            = insert command.output (torn ∪ { dir | dir ∈ failedOutputs sha256 rest after }) := by
          ext dir
          simp only [Set.mem_union, Set.mem_ofPred_eq, List.mem_cons, Set.mem_insert_iff]
          tauto
        dsimp only
        rw [hfailed]
        exact hrest

end

/-- Whatever fails on the way, every file is still there, cut short at most
where a command with this output has failed; a directory has contents, whole
or cut short, that the commands were to bring; and when none fails it has
exactly these. -/
theorem bridge_refines (commands : List Command) (disk : Disk) (h : Sound sha256 disk.tree) :
    let after := commands.foldl (execute sha256) disk
    let pool := commands.foldl (fun pool command => command.pour pool) disk.tree.contents
    let failed := failedOutputs sha256 commands disk
    (∀ path bytes, disk.tree.lookup path = some (.file bytes) →
        ∃ part, after.tree.lookup path = some (.file part) ∧ part <+: bytes
          ∧ (path.dropLast ∉ failed → part = bytes))
      ∧ (∀ dir, ∀ bytes ∈ after.tree.contents dir, ∃ whole ∈ pool dir, bytes <+: whole)
      ∧ (failed = [] → after.tree.contents = pool) := by
  intro after pool failed
  have hgrown : Grown sha256 disk.tree { dir | dir ∈ failed } pool pool after.tree := by
    have hrun := Grown.run h commands disk (.refl h)
    rwa [Set.empty_union] at hrun
  refine ⟨hgrown.kept, fun dir bytes hbytes => ?_, fun hnone => ?_⟩
  · obtain ⟨whole, hwhole, hcut, -⟩ := hgrown.within dir bytes hbytes
    exact ⟨whole, hwhole, hcut⟩
  · have hempty : { dir | dir ∈ failed } = (∅ : Set Path) := by
      rw [hnone]
      ext dir
      simp
    funext dir
    refine Set.Subset.antisymm (fun bytes hbytes => ?_) (hgrown.full hempty dir)
    obtain ⟨whole, hwhole, -, hexact⟩ := hgrown.within dir bytes hbytes
    rwa [hexact hempty]

/-! ## Three files -/

/-- SHA-256 of nothing, of `a` and of `b`. -/
def sampleHash (bytes : List UInt8) : Signature :=
  if bytes = [] then
    ⟨[227, 176, 196, 66, 152, 252, 28, 20, 154, 251, 244, 200, 153, 111, 185, 36, 39, 174, 65, 228,
      100, 155, 147, 76, 164, 149, 153, 27, 120, 82, 184, 85], rfl⟩
  else if bytes = [97] then
    ⟨[202, 151, 129, 18, 202, 27, 189, 202, 250, 194, 49, 179, 154, 35, 220, 77, 167, 134, 239, 248,
      20, 124, 78, 114, 185, 128, 119, 133, 175, 238, 72, 187], rfl⟩
  else
    ⟨[62, 35, 232, 22, 0, 57, 89, 74, 51, 137, 79, 101, 100, 225, 177, 52, 139, 189, 122, 0, 136,
      212, 44, 74, 203, 115, 238, 174, 213, 156, 0, 157], rfl⟩

/-- `in/a` and `in/c` hold the same. -/
def sampleMap : AList (fun _ : Path => Entry) :=
  ⟨[⟨[], .dir⟩, ⟨["in"], .dir⟩, ⟨["in", "a"], .file [97]⟩, ⟨["in", "b"], .file [98]⟩,
      ⟨["in", "c"], .file [97]⟩],
    show List.Nodup [[], ["in"], ["in", "a"], ["in", "b"], ["in", "c"]] by decide⟩

def sampleTree : FileTree where
  map := sampleMap
  closed := by
    have hall : ∀ path ∈ sampleMap.keys, path ≠ [] →
        sampleMap.lookup path.dropLast = some .dir := by decide
    exact fun path hpath => hall path (AList.mem_keys.mp hpath)

def sampleDisk : Disk := ⟨sampleTree, [], []⟩

theorem sampleTree_files {path : Path} {bytes : List UInt8}
    (h : sampleTree.lookup path = some (.file bytes)) :
    (fileName path).toList.length = 1 ∧ (bytes = [97] ∨ bytes = [98]) := by
  have hmem := AList.mem_lookup_iff.mp (show _ ∈ sampleTree.map.lookup path from h)
  simp only [sampleTree, sampleMap, List.mem_cons, Sigma.mk.injEq, List.not_mem_nil,
    or_false] at hmem
  rcases hmem with ⟨-, hb⟩ | ⟨-, hb⟩ | ⟨rfl, hb⟩ | ⟨rfl, hb⟩ | ⟨rfl, hb⟩
  · cases hb
  · cases hb
  · cases hb
    exact ⟨rfl, .inl rfl⟩
  · cases hb
    exact ⟨rfl, .inr rfl⟩
  · cases hb
    exact ⟨rfl, .inl rfl⟩

theorem sampleTree_pieces {bytes : List UInt8} (h : Piece sampleTree bytes) :
    bytes ∈ [[], [97], [98]] := by
  obtain ⟨path, whole, hfile, hbytes⟩ := h
  obtain ⟨-, rfl | rfl⟩ := sampleTree_files hfile
  · have hmem := (List.mem_inits _ _).mpr hbytes
    simp only [List.inits, List.map_cons, List.map_nil, List.mem_cons, List.not_mem_nil,
      or_false] at hmem ⊢
    tauto
  · have hmem := (List.mem_inits _ _).mpr hbytes
    simp only [List.inits, List.map_cons, List.map_nil, List.mem_cons, List.not_mem_nil,
      or_false] at hmem ⊢
    tauto

theorem sampleTree_sound : Sound sampleHash sampleTree where
  distinct a b ha hb hstamp := by
    have hall : ∀ a ∈ [[], [97], [98]], ∀ b ∈ [[], [97], [98]],
        stamp (sampleHash a) = stamp (sampleHash b) → a = b := by decide
    exact hall a (sampleTree_pieces ha) b (sampleTree_pieces hb) hstamp
  named := by
    intro path a b format ordinal ha _ hname
    have hstamp := stampOf_outputName format (sampleHash b) ordinal
    have hlength := congrArg List.length hstamp
    rw [← take_hex, length_take_hex, ← hname] at hlength
    have hshort : (stampOf (fileName path).toList).length ≤ (fileName path).toList.length := by
      rw [stampOf]
      split
      · rw [List.length_drop]
        omega
      · rw [List.length_take]
        omega
    have hone := (sampleTree_files ha).1
    omega

/-- The first file is made, and then the disk is full. -/
example : (execute sampleHash ⟨sampleTree, List.replicate 15 false ++ [true], []⟩
    (.exportTo "honggfuzz" ["in"] ["out"])).tree.lookup ["out", "3e23e8160039594a.fuzz"]
      = some (.file []) := by
  decide +kernel

theorem bridge_refines_sample :
    let commands := [.exportTo "afl" ["in"] ["out"], .merge [["in"], ["out"]] ["all"]]
    let after := commands.foldl (execute sampleHash) sampleDisk
    let pool := commands.foldl (fun pool command => command.pour pool) sampleTree.contents
    after.tree.contents = pool :=
  (bridge_refines [.exportTo "afl" ["in"] ["out"], .merge [["in"], ["out"]] ["all"]] sampleDisk
    sampleTree_sound).2.2 (by decide +kernel)

theorem bridge_summary_exact_sample :
    Exact sampleTree [["in"]] ⟨2, 1, .unknown, .honggfuzz⟩ :=
  bridge_summary_exact sampleHash (.exportTo "honggfuzz" ["in"] ["out"]) sampleDisk (by decide)
    (by decide +kernel) ⟨2, 1, .unknown, .honggfuzz⟩ (by decide +kernel)

end GovFuzz.Corpus
