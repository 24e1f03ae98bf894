import GovFuzz.Lib.FileTree
import GovFuzz.Lib.Triple

/-!
# Lib — what the operations of a file system do to its files

One triple for each operation.  A reader leaves the tree as it is, and
making directories touches no file.  `writeFile` is a write that can stop in
the middle: it leaves a part of the file behind when it fails.
-/

namespace GovFuzz.Lib

open Op

namespace FileTree

/-- What the regular files right below a directory hold. -/
def contents (tree : FileTree) (dir : Path) : Set (List UInt8) :=
  { bytes | ∃ name, tree.lookup (dir ++ [name]) = some (.file bytes) }

/-- The file at a path, if one is there. -/
def fileAt (tree : FileTree) (path : Path) : Option (List UInt8) :=
  match tree.lookup path with
  | some (.file bytes) => some bytes
  | _ => none

theorem fileAt_eq_some {tree : FileTree} {path : Path} {bytes : List UInt8} :
    tree.fileAt path = some bytes ↔ tree.lookup path = some (.file bytes) := by
  unfold fileAt
  split
  case h_1 found heq =>
    rw [heq]
    constructor
    · rintro ⟨⟩
      rfl
    · rintro ⟨⟩
      rfl
  case h_2 hother =>
    constructor
    · intro h
      cases h
    · exact fun h => absurd h (hother bytes)

/-- The regular files right below a directory, with what they hold. -/
def filesOf (tree : FileTree) (dir : Path) : List (List UInt8) :=
  (tree.children dir).filterMap tree.fileAt

theorem mem_contents_iff {tree : FileTree} {dir : Path} {bytes : List UInt8} :
    bytes ∈ tree.contents dir ↔ bytes ∈ tree.filesOf dir := by
  simp only [filesOf, List.mem_filterMap, mem_children, fileAt_eq_some]
  constructor
  · rintro ⟨name, hfile⟩
    exact ⟨dir ++ [name], ⟨by rw [hfile]; rfl, by simp, by simp⟩, hfile⟩
  · rintro ⟨child, ⟨-, hne, rfl⟩, hfile⟩
    exact ⟨child.getLast hne, by rw [List.dropLast_append_getLast]; exact hfile⟩

theorem nodup_children (tree : FileTree) (dir : Path) : (tree.children dir).Nodup :=
  tree.map.nodupKeys.filter _

/-- Two trees with the same files in a directory list them in some order each. -/
theorem filesOf_perm {tree other : FileTree} {dir : Path}
    (h : ∀ name bytes, tree.lookup (dir ++ [name]) = some (.file bytes)
      ↔ other.lookup (dir ++ [name]) = some (.file bytes)) :
    (tree.filesOf dir).Perm (other.filesOf dir) := by
  have hread : ∀ (tree : FileTree), tree.filesOf dir
      = ((tree.children dir).filter fun child => (tree.fileAt child).isSome).filterMap
        tree.fileAt := by
    intro tree
    rw [filesOf, List.filterMap_filter]
    refine List.filterMap_congr fun child _ => ?_
    cases tree.fileAt child <;> rfl
  have hat : ∀ child : Path, child ≠ [] → child.dropLast = dir →
      tree.fileAt child = other.fileAt child := by
    rintro child hne rfl
    ext bytes
    have hname := h (child.getLast hne) bytes
    rw [List.dropLast_append_getLast] at hname
    rw [fileAt_eq_some, fileAt_eq_some, hname]
  have hmem : ∀ (tree : FileTree) (child : Path),
      child ∈ (tree.children dir).filter (fun child => (tree.fileAt child).isSome)
        ↔ (child ≠ [] ∧ child.dropLast = dir) ∧ (tree.fileAt child).isSome := by
    intro tree child
    rw [List.mem_filter, mem_children]
    constructor
    · exact fun ⟨⟨_, hne, hdir⟩, hsome⟩ => ⟨⟨hne, hdir⟩, hsome⟩
    · rintro ⟨⟨hne, hdir⟩, hsome⟩
      obtain ⟨bytes, hbytes⟩ := Option.isSome_iff_exists.mp hsome
      exact ⟨⟨by rw [fileAt_eq_some.mp hbytes]; rfl, hne, hdir⟩, hsome⟩
  have hperm := (List.perm_ext_iff_of_nodup ((nodup_children tree dir).filter _)
    ((nodup_children other dir).filter _)).mpr fun child => by
      rw [hmem tree, hmem other]
      exact and_congr_right fun ⟨hne, hdir⟩ => by rw [hat child hne hdir]
  rw [hread tree, hread other]
  refine (hperm.filterMap tree.fileAt).trans (List.Perm.of_eq ?_)
  exact List.filterMap_congr fun child hchild =>
    hat child ((hmem other child).mp hchild).1.1 ((hmem other child).mp hchild).1.2

theorem lookup_mkdir_file {tree : FileTree} {path other : Path} {bytes : List UInt8} :
    (tree.mkdir path).lookup other = some (.file bytes)
      ↔ tree.lookup other = some (.file bytes) := by
  unfold mkdir
  split
  case isTrue h =>
    by_cases heq : other = path
    · subst heq
      rw [lookup_insert_self, h.2]
      exact iff_of_false (by simp) (by simp)
    · rw [lookup_insert_of_ne h.1 (by simp [h.2]) heq]
  case isFalse => rfl

theorem lookup_mkdirs_file {tree : FileTree} {path other : Path} {bytes : List UInt8} :
    (tree.mkdirs path).lookup other = some (.file bytes)
      ↔ tree.lookup other = some (.file bytes) := by
  unfold mkdirs
  induction path.inits generalizing tree with
  | nil => rfl
  | cons first above ih => rw [List.foldl_cons, ih, lookup_mkdir_file]

/-- The one tree has the files of the other, and no others. -/
def SameFiles (tree other : FileTree) : Prop :=
  ∀ path bytes, tree.lookup path = some (.file bytes) ↔ other.lookup path = some (.file bytes)

end FileTree

namespace Disk

/-- `Path::is_dir`: a failed look counts as absence. -/
def isDir (path : Path) : Op Disk FileError Bool := fun disk =>
  (.ok (!disk.draw.1 && decide (disk.tree.lookup path = some .dir)), disk.draw.2)

/-- `fs::read`. -/
def read (path : Path) : Op Disk FileError (List UInt8) := do
  attempt
  let disk ← get
  match disk.tree.lookup path with
  | some (.file bytes) => pure bytes
  | some .dir => throw .isADirectory
  | none => throw .notFound

section Readers

variable {tree : FileTree}

/-- The tree is this one. -/
def At (tree : FileTree) (disk : Disk) : Prop := disk.tree = tree

theorem triple_attempt : Triple (At tree) attempt (fun _ => At tree) (At tree) := by
  intro disk h
  by_cases hfault : disk.draw.1 = true
  · have hattempt : attempt.exec disk = (.error .fault, disk.draw.2) := by
      simp [Op.exec, attempt, hfault]
    rw [hattempt]
    exact h
  · have hattempt : attempt.exec disk = (.ok (), disk.draw.2) := by
      simp [Op.exec, attempt, hfault]
    rw [hattempt]
    exact h

theorem triple_isDir (path : Path) :
    Triple (At tree) (isDir path)
      (fun there disk => At tree disk ∧ (there = true → tree.lookup path = some .dir))
      (At tree) := by
  intro disk h
  refine ⟨h, fun hthere => ?_⟩
  rw [Bool.and_eq_true, decide_eq_true_eq] at hthere
  rw [← show disk.tree = tree from h]
  exact hthere.2

theorem triple_symlinkMetadata (path : Path) :
    Triple (At tree) (symlinkMetadata path)
      (fun entry disk => At tree disk ∧ entry = tree.lookup path) (At tree) := by
  refine triple_attempt.bind fun _ => Triple.get fun disk h => ?_
  have htree : disk.tree = tree := h
  exact Triple.pure fun _ hs => ⟨hs ▸ h, by rw [htree]⟩

theorem triple_read (path : Path) :
    Triple (At tree) (read path)
      (fun bytes disk => At tree disk ∧ tree.lookup path = some (.file bytes)) (At tree) := by
  refine triple_attempt.bind fun _ => Triple.get fun disk h => ?_
  have htree : disk.tree = tree := h
  cases hlookup : disk.tree.lookup path with
  | none => exact Triple.throw fun _ hs => hs ▸ h
  | some entry =>
      cases entry with
      | dir => exact Triple.throw fun _ hs => hs ▸ h
      | file bytes => exact Triple.pure fun _ hs => ⟨hs ▸ h, htree ▸ hlookup⟩

theorem triple_readDir (path : Path) :
    Triple (At tree) (readDir path)
      (fun children disk => At tree disk ∧ children = tree.children path) (At tree) := by
  refine triple_attempt.bind fun _ => Triple.get fun disk h => ?_
  have htree : disk.tree = tree := h
  cases hlookup : disk.tree.lookup path with
  | none => exact Triple.throw fun _ hs => hs ▸ h
  | some entry =>
      cases entry with
      | dir => exact Triple.pure fun _ hs => ⟨hs ▸ h, by rw [htree]⟩
      | file bytes => exact Triple.throw fun _ hs => hs ▸ h

end Readers

theorem triple_createDirAll (path : Path) (tree : FileTree) :
    Triple (At tree) (createDirAll path) (fun _ disk => disk.tree.SameFiles tree)
      (fun disk => disk.tree.SameFiles tree) := by
  intro disk h
  have hsame : ((createDirAll path).exec disk).2.tree.SameFiles tree := by
    intro other bytes
    rcases (exec_createDirAll path disk).1 with heq | heq
    · rw [heq, show disk.tree = tree from h]
    · rw [heq, FileTree.lookup_mkdirs_file, show disk.tree = tree from h]
  split
  case h_1 heq =>
    rw [heq] at hsame
    exact hsame
  case h_2 heq =>
    rw [heq] at hsame
    exact hsame

/-- The tree with a file put at a path. -/
def Wrote (tree : FileTree) (path : Path) (bytes : List UInt8) (disk : Disk) : Prop :=
  disk.tree.lookup path = some (.file bytes)
    ∧ ∀ other ≠ path, disk.tree.lookup other = tree.lookup other

theorem Wrote.at {tree : FileTree} {path : Path} {bytes : List UInt8} {disk : Disk}
    (h : Wrote tree path bytes disk) (other : Path) :
    other = path ∧ disk.tree.lookup other = some (.file bytes)
      ∨ other ≠ path ∧ disk.tree.lookup other = tree.lookup other := by
  by_cases heq : other = path
  · exact .inl ⟨heq, heq ▸ h.1⟩
  · exact .inr ⟨heq, h.2 other heq⟩

/-- The rest of a file behind what is written, byte by byte: a fault may come
behind any of them. -/
def append (path : Path) : List UInt8 → List UInt8 → Op Disk FileError Unit
  | _, [] => pure ()
  | written, byte :: rest => do
      write path (written ++ [byte])
      append path (written ++ [byte]) rest

/-- `fs::write`: the file is made or emptied before it is filled. -/
def writeFile (path : Path) (contents : List UInt8) : Op Disk FileError Unit := do
  write path []
  append path [] contents

/-- Nothing, or a part of the file at the path. -/
def Torn (tree : FileTree) (path : Path) (bytes : List UInt8) (disk : Disk) : Prop :=
  disk.tree = tree ∨ ∃ part, part <+: bytes ∧ Wrote tree path part disk

theorem triple_write (path : Path) (bytes : List UInt8) (tree : FileTree) :
    Triple (At tree) (write path bytes) (fun _ => Wrote tree path bytes) (At tree) := by
  intro disk h
  have htree : disk.tree = tree := h
  obtain ⟨out, after, hrun⟩ : ∃ out after, (write path bytes).exec disk = (out, after) :=
    ⟨_, _, rfl⟩
  have hwrite := exec_write path bytes disk
  rw [hrun] at hwrite ⊢
  rcases hwrite with ⟨e, hout, hkept, -⟩ | ⟨hout, hfile, hothers, -⟩
  · dsimp only at hout
    subst hout
    exact hkept.trans htree
  · dsimp only at hout
    subst hout
    exact ⟨hfile, fun other hne => (hothers other hne).trans (by rw [htree])⟩

/-- A file that is written over. -/
theorem triple_rewrite (path : Path) (old bytes : List UInt8) (tree : FileTree) :
    Triple (Wrote tree path old) (write path bytes) (fun _ => Wrote tree path bytes)
      (Wrote tree path old) := by
  intro disk h
  refine (triple_write path bytes disk.tree).conseq (fun _ h => h) ?_ ?_ disk rfl
  · exact fun _ after hwrote => ⟨hwrote.1, fun other hne =>
      (hwrote.2 other hne).trans (h.2 other hne)⟩
  · intro after hat
    rw [Wrote, show after.tree = disk.tree from hat]
    exact h

theorem triple_append (path : Path) (written rest : List UInt8) (tree : FileTree) :
    Triple (Wrote tree path written) (append path written rest)
      (fun _ => Wrote tree path (written ++ rest))
      (fun disk => ∃ part, part <+: written ++ rest ∧ Wrote tree path part disk) := by
  induction rest generalizing written with
  | nil =>
      refine Triple.pure fun disk h => ?_
      rwa [List.append_nil]
  | cons byte rest ih =>
      have hstep : Triple (Wrote tree path written) (write path (written ++ [byte]))
          (fun _ => Wrote tree path (written ++ [byte]))
          (fun disk => ∃ part, part <+: written ++ byte :: rest ∧ Wrote tree path part disk) :=
        (triple_rewrite path written (written ++ [byte]) tree).conseq (fun _ h => h)
          (fun _ _ h => h) fun disk h => ⟨written, List.prefix_append _ _, h⟩
      have hrest := ih (written ++ [byte])
      rw [List.append_assoc, List.singleton_append] at hrest
      exact hstep.bind fun _ => hrest

theorem triple_writeFile (path : Path) (bytes : List UInt8) (tree : FileTree) :
    Triple (At tree) (writeFile path bytes) (fun _ => Wrote tree path bytes)
      (Torn tree path bytes) := by
  have hopen : Triple (At tree) (write path []) (fun _ => Wrote tree path [])
      (Torn tree path bytes) :=
    (triple_write path [] tree).conseq (fun _ h => h) (fun _ _ h => h) fun disk h => .inl h
  exact hopen.bind fun _ => (triple_append path [] bytes tree).conseq (fun _ h => h)
    (fun _ _ h => h) fun disk h => .inr h

end Disk

end GovFuzz.Lib
