import GovFuzz.Lib.FileTree
import Mathlib.Algebra.BigOperators.Group.Finset.Basic
import Mathlib.Algebra.BigOperators.Group.Finset.Sigma
import Mathlib.Algebra.BigOperators.Group.Finset.Piecewise
import Mathlib.Algebra.Order.BigOperators.Group.Finset
import Mathlib.Algebra.GroupWithZero.Nat

/-!
# Lib — sums over a subtree

A walk over a directory tree visits a path, then its children.  What it
adds up is the sum over everything below the path: such a sum splits into
the path's own share and the sums of its children.
-/

namespace GovFuzz.Lib

namespace FileTree

/-- The paths of the map. -/
def paths (tree : FileTree) : Finset Path := tree.map.keys.toFinset

theorem mem_paths {tree : FileTree} {path : Path} :
    path ∈ tree.paths ↔ (tree.lookup path).isSome := by
  simp [paths, lookup, AList.lookup_isSome, AList.mem_keys]

/-- The sum of a weight over a path and all below it. -/
def total (tree : FileTree) (weight : Path → Nat) (above : Path) : Nat :=
  ∑ path ∈ tree.paths, if above <+: path then weight path else 0

theorem children_nodup (tree : FileTree) (path : Path) : (tree.children path).Nodup :=
  tree.map.keys_nodup.filter _

/-- Whatever lies above an entry is a directory. -/
theorem lookup_above {tree : FileTree} {above path : Path}
    (hpath : (tree.lookup path).isSome) (habove : above <+: path) (hne : above ≠ path) :
    tree.lookup above = some .dir := by
  obtain ⟨below, rfl⟩ := habove
  induction below using List.reverseRecOn with
  | nil => simp at hne
  | append_singleton below name ih =>
      have hmem : above ++ (below ++ [name]) ∈ tree.map := AList.lookup_isSome.mp hpath
      have hparent := tree.closed _ hmem (by simp)
      have hdrop : (above ++ (below ++ [name])).dropLast = above ++ below := by
        rw [← List.append_assoc, List.dropLast_concat]
      rw [hdrop] at hparent
      by_cases hbelow : below = []
      · rw [hbelow, List.append_nil] at hparent
        exact hparent
      · exact ih (by rw [lookup, hparent]; rfl) (by simpa using hbelow)

/-- The child of a directory on the way to an entry strictly below it. -/
theorem exists_child {tree : FileTree} {above path : Path} (hpath : (tree.lookup path).isSome)
    (habove : above <+: path) (hne : above ≠ path) :
    ∃ child ∈ tree.children above, child <+: path
      ∧ ∀ other ∈ tree.children above, other <+: path → other = child := by
  obtain ⟨below, rfl⟩ := habove
  cases below with
  | nil => simp at hne
  | cons name below =>
      have hahead : above ++ [name] <+: above ++ name :: below := ⟨below, by simp⟩
      refine ⟨above ++ [name], ?_, hahead, ?_⟩
      · rw [mem_children]
        refine ⟨?_, by simp, by simp⟩
        by_cases hbelow : below = []
        · simpa [hbelow] using hpath
        · rw [lookup_above hpath hahead (by simpa using Ne.symm hbelow)]
          rfl
      · intro other hother hahead'
        obtain ⟨-, hother, hparent⟩ := mem_children.mp hother
        -- two prefixes of one path of the same length
        have hlast : other = above ++ [other.getLast hother] := by
          rw [← hparent]
          exact (List.dropLast_append_getLast hother).symm
        have hlen : other.length = (above ++ [name]).length := by
          rw [hlast]
          simp
        exact (List.prefix_of_prefix_length_le hahead' hahead (by omega)).eq_of_length hlen

/-- An entry below a directory is the directory itself or below exactly
one of its children. -/
theorem share_split {tree : FileTree} {above path : Path} (hpath : (tree.lookup path).isSome)
    (x : Nat) :
    (if above <+: path then x else 0)
      = (if path = above then x else 0)
        + ∑ child ∈ (tree.children above).toFinset, if child <+: path then x else 0 := by
  by_cases hself : path = above
  · subst hself
    have hnone : ∀ child ∈ (tree.children path).toFinset, ¬ child <+: path := by
      intro child hchild hahead
      obtain ⟨-, hne, hparent⟩ := mem_children.mp (List.mem_toFinset.mp hchild)
      have hlen := hahead.length_le
      have hdrop := congrArg List.length hparent
      have hpos := List.length_pos_of_ne_nil hne
      rw [List.length_dropLast] at hdrop
      omega
    rw [Finset.sum_eq_zero fun child hchild => if_neg (hnone child hchild)]
    simp
  · rw [if_neg hself, Nat.zero_add]
    by_cases habove : above <+: path
    · obtain ⟨child, hchild, hahead, hunique⟩ := exists_child hpath habove (Ne.symm hself)
      rw [if_pos habove, Finset.sum_eq_single child]
      · rw [if_pos hahead]
      · intro other hother hne
        exact if_neg fun h => hne (hunique other (List.mem_toFinset.mp hother) h)
      · intro hnot
        exact absurd (List.mem_toFinset.mpr hchild) hnot
    · rw [if_neg habove, Finset.sum_eq_zero]
      intro child hchild
      obtain ⟨-, -, hparent⟩ := mem_children.mp (List.mem_toFinset.mp hchild)
      have hup : above <+: child := by
        rw [← hparent]
        exact List.dropLast_prefix child
      exact if_neg fun h => habove (hup.trans h)

theorem total_split (tree : FileTree) (weight : Path → Nat) {above : Path}
    (habove : (tree.lookup above).isSome) :
    tree.total weight above
      = weight above + ((tree.children above).map (tree.total weight)).sum := by
  have hself : ∑ path ∈ tree.paths, (if path = above then weight path else 0) = weight above := by
    rw [Finset.sum_ite_eq' tree.paths above weight, if_pos (mem_paths.mpr habove)]
  calc tree.total weight above
      = ∑ path ∈ tree.paths, ((if path = above then weight path else 0)
          + ∑ child ∈ (tree.children above).toFinset,
              if child <+: path then weight path else 0) :=
        Finset.sum_congr rfl fun path hpath => share_split (mem_paths.mp hpath) _
    _ = weight above + ∑ child ∈ (tree.children above).toFinset, tree.total weight child := by
        rw [Finset.sum_add_distrib, hself, Finset.sum_comm]
        rfl
    _ = _ := by rw [List.sum_toFinset _ (tree.children_nodup above)]

/-- Nothing lies below a path that is not there. -/
theorem total_of_lookup_none {tree : FileTree} (weight : Path → Nat) {above : Path}
    (h : tree.lookup above = none) : tree.total weight above = 0 := by
  apply Finset.sum_eq_zero
  intro path hpath
  refine if_neg fun habove => ?_
  have hsome := mem_paths.mp hpath
  by_cases hself : above = path
  · rw [← hself, h] at hsome
    cases hsome
  · rw [lookup_above hsome habove hself] at h
    cases h

/-- A map with more in it weighs more. -/
theorem total_mono {tree tree' : FileTree} {weight weight' : Path → Nat}
    (hmore : ∀ path, (tree.lookup path).isSome → (tree'.lookup path).isSome)
    (hweight : ∀ path, (tree.lookup path).isSome → weight path ≤ weight' path) (above : Path) :
    tree.total weight above ≤ tree'.total weight' above := by
  calc tree.total weight above
      ≤ ∑ path ∈ tree.paths, if above <+: path then weight' path else 0 := by
        refine Finset.sum_le_sum fun path hpath => ?_
        split
        · exact hweight path (mem_paths.mp hpath)
        · exact le_rfl
    _ ≤ tree'.total weight' above :=
        Finset.sum_le_sum_of_subset fun path hpath =>
          mem_paths.mpr (hmore path (mem_paths.mp hpath))

theorem total_one_le (tree : FileTree) (above : Path) :
    tree.total (fun _ => 1) above ≤ tree.map.keys.length := by
  calc tree.total (fun _ => 1) above
      ≤ ∑ _path ∈ tree.paths, 1 := by
        refine Finset.sum_le_sum fun path _ => ?_
        split
        · exact le_rfl
        · exact Nat.zero_le 1
    _ = tree.paths.card := by simp
    _ ≤ tree.map.keys.length := List.toFinset_card_le _

end FileTree

end GovFuzz.Lib
