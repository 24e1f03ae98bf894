import GovFuzz.Lib.Stateful
import Mathlib.Data.List.AList
import Mathlib.Data.List.Infix

/-!
# Lib — a file system whose operations may fail

A finite map from paths to directories and regular files in which
everything below the root lies in a directory.  Each operation first draws
a FAULT: a drawn fault makes it fail and leaves the map as it is (an
operation that reports failure as `false` reports `false`).  A disk with no
faults left works.
-/

namespace GovFuzz.Lib

/-- The components of a path below the root. -/
abbrev Path := List String

inductive Entry where
  | dir
  | file (contents : List UInt8)
  deriving DecidableEq, Repr

def Entry.isDir : Entry → Bool
  | .dir => true
  | .file _ => false

inductive FileError where
  | fault
  | notFound
  | notADirectory
  | isADirectory
  deriving DecidableEq, Repr

structure FileTree where
  map : AList (fun _ : Path => Entry)
  closed : ∀ path ∈ map, path ≠ [] → map.lookup path.dropLast = some .dir

namespace FileTree

def lookup (tree : FileTree) (path : Path) : Option Entry := tree.map.lookup path

def empty : FileTree := ⟨∅, by simp⟩

/-- The parent of a path is a directory. -/
def Placed (tree : FileTree) (path : Path) : Prop :=
  path ≠ [] → tree.lookup path.dropLast = some .dir

instance (tree : FileTree) (path : Path) : Decidable (tree.Placed path) :=
  inferInstanceAs (Decidable (path ≠ [] → _))

theorem dropLast_ne_self {path : Path} (h : path ≠ []) : path.dropLast ≠ path := by
  intro heq
  have hlen := congrArg List.length heq
  have hpos := List.length_pos_of_ne_nil h
  rw [List.length_dropLast] at hlen
  omega

/-- A new entry in a directory, or a file in place of a file. -/
def insert (tree : FileTree) (path : Path) (entry : Entry) (hplaced : tree.Placed path)
    (hdir : tree.lookup path ≠ some .dir) : FileTree where
  map := tree.map.insert path entry
  closed := by
    intro other hother hne
    by_cases hparent : other.dropLast = path
    · -- nothing lies below a path that is no directory
      rcases (AList.mem_insert _).mp hother with rfl | hother
      · exact absurd hparent (dropLast_ne_self hne)
      · have := tree.closed other hother hne
        rw [hparent] at this
        exact absurd this hdir
    · rw [AList.lookup_insert_ne hparent]
      rcases (AList.mem_insert _).mp hother with rfl | hother
      · exact hplaced hne
      · exact tree.closed other hother hne

@[simp] theorem lookup_insert_self (tree : FileTree) (path : Path) (entry : Entry)
    (hplaced : tree.Placed path) (hdir : tree.lookup path ≠ some .dir) :
    (tree.insert path entry hplaced hdir).lookup path = some entry :=
  AList.lookup_insert _

theorem lookup_insert_of_ne {tree : FileTree} {path other : Path} {entry : Entry}
    (hplaced : tree.Placed path) (hdir : tree.lookup path ≠ some .dir) (hne : other ≠ path) :
    (tree.insert path entry hplaced hdir).lookup other = tree.lookup other :=
  AList.lookup_insert_ne hne

/-- `mkdir`, when nothing is there and the parent is a directory. -/
def mkdir (tree : FileTree) (path : Path) : FileTree :=
  if h : tree.Placed path ∧ tree.lookup path = none then
    tree.insert path .dir h.1 (by simp [h.2])
  else tree

/-- The directories of a path from the root down, each made if missing. -/
def mkdirs (tree : FileTree) (path : Path) : FileTree := path.inits.foldl mkdir tree

/-- The entries right below a directory. -/
def children (tree : FileTree) (path : Path) : List Path :=
  tree.map.keys.filter fun child => child ≠ [] ∧ child.dropLast = path

theorem mem_children {tree : FileTree} {path child : Path} :
    child ∈ tree.children path
      ↔ (tree.lookup child).isSome ∧ child ≠ [] ∧ child.dropLast = path := by
  simp [children, lookup, AList.lookup_isSome, AList.mem_keys]

end FileTree

/-! ## Operations -/

/-- The map, the faults still to be drawn, and the writes made so far,
oldest first. -/
structure Disk where
  tree : FileTree
  faults : List Bool
  journal : List (Path × List UInt8)

namespace Disk

/-- The next fault; none when the list has run out. -/
def draw (disk : Disk) : Bool × Disk :=
  (disk.faults.headD false, { disk with faults := disk.faults.tail })

/-- Fails when a fault is drawn. -/
def attempt : Op Disk FileError Unit := fun disk =>
  (if disk.draw.1 then .error .fault else .ok (), disk.draw.2)

/-- `create_dir_all`. -/
def createDirAll (path : Path) : Op Disk FileError Unit := do
  attempt
  let disk ← get
  if path.inits.any fun above =>
      match disk.tree.lookup above with
      | some (.file _) => true
      | _ => false
  then throw .notADirectory
  else set { disk with tree := disk.tree.mkdirs path }

/-- `write`: makes the file or replaces its contents. -/
def write (path : Path) (contents : List UInt8) : Op Disk FileError Unit := do
  attempt
  let disk ← get
  if hplaced : disk.tree.Placed path then
    if hdir : disk.tree.lookup path ≠ some .dir then
      set { disk with
        tree := disk.tree.insert path (.file contents) hplaced hdir
        journal := disk.journal ++ [(path, contents)] }
    else throw .isADirectory
  else throw .notFound

/-- `Path::exists`: a failed look counts as absence. -/
def «exists» (path : Path) : Op Disk FileError Bool := fun disk =>
  (.ok (!disk.draw.1 && (disk.tree.lookup path).isSome), disk.draw.2)

/-- `Path::is_file`, in the same way. -/
def isFile (path : Path) : Op Disk FileError Bool := fun disk =>
  (.ok (!disk.draw.1 && match disk.tree.lookup path with
    | some (.file _) => true
    | _ => false), disk.draw.2)

/-- `symlink_metadata`; `none` when the path is not found. -/
def symlinkMetadata (path : Path) : Op Disk FileError (Option Entry) := do
  attempt
  let disk ← get
  pure (disk.tree.lookup path)

/-- `read_dir`. -/
def readDir (path : Path) : Op Disk FileError (List Path) := do
  attempt
  let disk ← get
  match disk.tree.lookup path with
  | some .dir => pure (disk.tree.children path)
  | some (.file _) => throw .notADirectory
  | none => throw .notFound

/-! ## What operations leave alone -/

/-- The map and the journal are these. -/
def Is (tree : FileTree) (journal : List (Path × List UInt8)) (disk : Disk) : Prop :=
  disk.tree = tree ∧ disk.journal = journal

section Readers

variable {tree : FileTree} {journal : List (Path × List UInt8)}

theorem keeps_attempt : Op.Keeps (Is tree journal) attempt := fun _ h => h

theorem keeps_exists (path : Path) : Op.Keeps (Is tree journal) («exists» path) := fun _ h => h

theorem keeps_isFile (path : Path) : Op.Keeps (Is tree journal) (isFile path) := fun _ h => h

theorem keeps_symlinkMetadata (path : Path) :
    Op.Keeps (Is tree journal) (symlinkMetadata path) :=
  keeps_attempt.bind fun _ => Op.Keeps.get fun _ h => h

theorem keeps_readDir (path : Path) : Op.Keeps (Is tree journal) (readDir path) := by
  refine keeps_attempt.bind fun _ => Op.Keeps.get fun disk h => ?_
  split <;> exact h

end Readers

/-- `write` fails and changes nothing, or puts the file there. -/
theorem exec_write (path : Path) (contents : List UInt8) (disk : Disk) :
    (∃ e, ((write path contents).exec disk).1 = .error e
        ∧ ((write path contents).exec disk).2.Is disk.tree disk.journal)
      ∨ (((write path contents).exec disk).1 = .ok ()
        ∧ ((write path contents).exec disk).2.tree.lookup path = some (.file contents)
        ∧ (∀ other ≠ path, ((write path contents).exec disk).2.tree.lookup other
            = disk.tree.lookup other)
        ∧ ((write path contents).exec disk).2.journal = disk.journal ++ [(path, contents)]) := by
  unfold write
  by_cases hfault : disk.draw.1 = true
  · have hattempt : attempt.exec disk = (.error .fault, disk.draw.2) := by
      simp [Op.exec, attempt, hfault]
    rw [Op.exec_bind_error hattempt]
    exact .inl ⟨_, rfl, rfl, rfl⟩
  · have hattempt : attempt.exec disk = (.ok (), disk.draw.2) := by
      simp [Op.exec, attempt, hfault]
    rw [Op.exec_bind_ok hattempt, Op.exec_bind_ok (Op.exec_get _)]
    split
    case isTrue hplaced =>
      split
      case isTrue hdir =>
        refine .inr ⟨rfl, FileTree.lookup_insert_self _ _ _ hplaced hdir, fun other hne => ?_, rfl⟩
        exact FileTree.lookup_insert_of_ne hplaced hdir hne
      case isFalse => exact .inl ⟨_, rfl, rfl, rfl⟩
    case isFalse => exact .inl ⟨_, rfl, rfl, rfl⟩

end Disk

namespace FileTree

/-- Making a directory keeps what is there and touches one path. -/
theorem lookup_mkdir (tree : FileTree) (path other : Path) :
    (tree.mkdir path).lookup other = tree.lookup other
      ∨ (other = path ∧ tree.lookup other = none) := by
  unfold mkdir
  split
  case isTrue h =>
    by_cases heq : other = path
    · exact .inr ⟨heq, heq ▸ h.2⟩
    · exact .inl (lookup_insert_of_ne h.1 (by simp [h.2]) heq)
  case isFalse => exact .inl rfl

theorem lookup_mkdirs (tree : FileTree) (path other : Path) :
    (tree.mkdirs path).lookup other = tree.lookup other
      ∨ (other <+: path ∧ tree.lookup other = none) := by
  suffices hfold : ∀ (above : List Path) (tree : FileTree),
      (above.foldl mkdir tree).lookup other = tree.lookup other
        ∨ (other ∈ above ∧ tree.lookup other = none) by
    rcases hfold path.inits tree with h | ⟨hmem, hnone⟩
    · exact .inl h
    · exact .inr ⟨(List.mem_inits _ _).mp hmem, hnone⟩
  intro above
  induction above with
  | nil => exact fun tree => .inl rfl
  | cons first above ih =>
      intro tree
      rw [List.foldl_cons]
      rcases lookup_mkdir tree first other with hfirst | ⟨rfl, hnone⟩
      · rcases ih (tree.mkdir first) with hrest | ⟨hmem, hnone⟩
        · exact .inl (hrest.trans hfirst)
        · exact .inr ⟨List.mem_cons_of_mem _ hmem, hfirst ▸ hnone⟩
      · exact .inr ⟨List.mem_cons_self, hnone⟩

end FileTree

/-- `create_dir_all` writes no file: it adds directories of the path, or
nothing. -/
theorem Disk.exec_createDirAll (path : Path) (disk : Disk) :
    (((Disk.createDirAll path).exec disk).2.tree = disk.tree
        ∨ ((Disk.createDirAll path).exec disk).2.tree = disk.tree.mkdirs path)
      ∧ ((Disk.createDirAll path).exec disk).2.journal = disk.journal := by
  unfold Disk.createDirAll
  by_cases hfault : disk.draw.1 = true
  · have hattempt : Disk.attempt.exec disk = (.error .fault, disk.draw.2) := by
      simp [Op.exec, Disk.attempt, hfault]
    rw [Op.exec_bind_error hattempt]
    exact ⟨.inl rfl, rfl⟩
  · have hattempt : Disk.attempt.exec disk = (.ok (), disk.draw.2) := by
      simp [Op.exec, Disk.attempt, hfault]
    rw [Op.exec_bind_ok hattempt, Op.exec_bind_ok (Op.exec_get _)]
    split
    · exact ⟨.inl rfl, rfl⟩
    · exact ⟨.inr rfl, rfl⟩

/-! ## A disk that works -/

namespace Disk

section Works

variable {disk : Disk} (h : disk.faults = [])

include h

theorem draw_works : disk.draw = (false, disk) := by
  cases disk with
  | mk tree faults journal =>
      subst h
      rfl

theorem exec_attempt_works : attempt.exec disk = (.ok (), disk) := by
  simp [Op.exec, attempt, draw_works h]

theorem exec_exists_works (path : Path) :
    («exists» path).exec disk = (.ok (disk.tree.lookup path).isSome, disk) := by
  simp [Op.exec, «exists», draw_works h]

theorem exec_isFile_works (path : Path) :
    (isFile path).exec disk = (.ok (match disk.tree.lookup path with
      | some (.file _) => true
      | _ => false), disk) := by
  simp [Op.exec, isFile, draw_works h]

theorem exec_symlinkMetadata_works (path : Path) :
    (symlinkMetadata path).exec disk = (.ok (disk.tree.lookup path), disk) := by
  unfold symlinkMetadata
  rw [Op.exec_bind_ok (exec_attempt_works h), Op.exec_bind_ok (Op.exec_get _)]
  rfl

theorem exec_readDir_works {path : Path} (hdir : disk.tree.lookup path = some .dir) :
    (readDir path).exec disk = (.ok (disk.tree.children path), disk) := by
  unfold readDir
  rw [Op.exec_bind_ok (exec_attempt_works h), Op.exec_bind_ok (Op.exec_get _), hdir]
  rfl

end Works

theorem works_attempt : attempt.Keeps (fun disk => disk.faults = []) := by
  intro disk h
  rw [exec_attempt_works h]
  exact h

theorem works_write (path : Path) (contents : List UInt8) :
    (write path contents).Keeps (fun disk => disk.faults = []) := by
  refine works_attempt.bind fun _ => Op.Keeps.get fun disk h => ?_
  split
  · split <;> exact h
  · exact h

theorem works_createDirAll (path : Path) :
    (createDirAll path).Keeps (fun disk => disk.faults = []) := by
  refine works_attempt.bind fun _ => Op.Keeps.get fun disk h => ?_
  split <;> exact h

end Disk

end GovFuzz.Lib
