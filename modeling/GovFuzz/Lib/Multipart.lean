import GovFuzz.Lib.Decide
import Mathlib.Data.List.Basic

/-!
# Lib — multipart bodies

The parts of a body are the lines between its delimiter lines, the boundary
behind two hyphens; the closing delimiter has two more behind it and nothing
follows its line.  A body is split into the parts it was written from exactly
when no line of a part is a delimiter itself.
-/

namespace GovFuzz.Lib.Multipart

abbrev Line := List UInt8

/-! ## Lines -/

/-- One more byte at the front of the first line. -/
def consHead (b : UInt8) : List Line → List Line
  | [] => [[b]]
  | line :: lines => (b :: line) :: lines

/-- The lines of a text with CRLF between them. -/
def splitCrlf : List UInt8 → List Line
  | [] => [[]]
  | [b] => [[b]]
  | b :: c :: rest =>
      if b = 13 ∧ c = 10 then [] :: splitCrlf rest else consHead b (splitCrlf (c :: rest))

theorem splitCrlf_append {line : Line} (h : 13 ∉ line) (rest : List UInt8) :
    splitCrlf (line ++ 13 :: 10 :: rest) = line :: splitCrlf rest := by
  induction line with
  | nil => simp [splitCrlf]
  | cons b line ih =>
      rw [List.mem_cons, not_or] at h
      have hb : ¬ (b = 13) := fun heq => h.1 heq.symm
      have hothers := ih h.2
      cases line with
      | nil =>
          rw [List.nil_append] at hothers
          simp [splitCrlf, hb, consHead]
      | cons c line =>
          rw [List.cons_append] at hothers
          simp [splitCrlf, hb, hothers, consHead]

theorem splitCrlf_lines {lines : List Line} (h : ∀ line ∈ lines, 13 ∉ line) :
    splitCrlf (lines.flatMap fun line => line ++ [13, 10]) = lines ++ [[]] := by
  induction lines with
  | nil => rfl
  | cons line lines ih =>
      rw [List.forall_mem_cons] at h
      rw [List.flatMap_cons, List.append_assoc]
      simp only [List.cons_append, List.nil_append]
      rw [splitCrlf_append h.1, ih h.2]

/-! ## Parts -/

section
variable (boundary : Line)

def delimiter : Line := 45 :: 45 :: boundary

def closing : Line := delimiter boundary ++ [45, 45]

/-- The parts from the middle of one on, of which `current` has been read. -/
def collect : (current : List Line) → List Line → Option (List (List Line))
  | _, [] => none
  | current, line :: rest =>
      if line = closing boundary then if rest = [[]] then some [current] else none
      else if line = delimiter boundary then (collect [] rest).map fun parts => current :: parts
      else collect (current ++ [line]) rest

def split (text : List UInt8) : Option (List (List Line)) :=
  match splitCrlf text with
  | [] => none
  | line :: rest => if line = delimiter boundary then collect boundary [] rest else none

/-- No delimiter of either kind. -/
def Clean (line : Line) : Prop := line ≠ delimiter boundary ∧ line ≠ closing boundary

instance (line : Line) : Decidable (Clean boundary line) :=
  inferInstanceAs (Decidable (_ ∧ _))

/-- The lines of a body with these parts. -/
def bodyLines (parts : List (List Line)) : List Line :=
  (parts.flatMap fun part => delimiter boundary :: part) ++ [closing boundary]

def body (parts : List (List Line)) : List UInt8 :=
  (bodyLines boundary parts).flatMap fun line => line ++ [13, 10]

theorem delimiter_ne_closing : delimiter boundary ≠ closing boundary := by
  intro h
  have hlen := congrArg List.length h
  rw [closing, List.length_append] at hlen
  simp at hlen

/-- The reader goes through a part as written exactly when it is clean: at a
delimiter it would put the lines before it into a part of their own. -/
theorem collect_part_iff (part current : List Line) (others : List (List Line))
    {rest : List Line} (hrest : 2 ≤ rest.length) :
    collect boundary current (part ++ rest) = some ((current ++ part) :: others)
      ↔ (∀ line ∈ part, Clean boundary line)
        ∧ collect boundary (current ++ part) rest = some ((current ++ part) :: others) := by
  induction part generalizing current with
  | nil => simp
  | cons line part ih =>
      rw [List.cons_append, collect, List.forall_mem_cons]
      -- a line that is a delimiter ends the part early
      by_cases hclosing : line = closing boundary
      · have hmore : part ++ rest ≠ [[]] := by
          intro h
          have hlen := congrArg List.length h
          rw [List.length_append, List.length_singleton] at hlen
          omega
        rw [if_pos hclosing, if_neg hmore]
        constructor
        · intro h
          cases h
        · intro h
          exact absurd hclosing h.1.1.2
      rw [if_neg hclosing]
      by_cases hdelimiter : line = delimiter boundary
      · rw [if_pos hdelimiter]
        constructor
        · intro h
          obtain ⟨parts, -, hparts⟩ := Option.map_eq_some_iff.mp h
          have hlen := congrArg List.length (List.cons.inj hparts).1
          rw [List.length_append, List.length_cons] at hlen
          omega
        · intro h
          exact absurd hdelimiter h.1.1.1
      rw [if_neg hdelimiter]
      have hstep := ih (current ++ [line])
      rw [List.append_assoc, List.singleton_append] at hstep
      rw [hstep]
      constructor
      · rintro ⟨hpart, hread⟩
        exact ⟨⟨⟨hdelimiter, hclosing⟩, hpart⟩, hread⟩
      · rintro ⟨⟨-, hpart⟩, hread⟩
        exact ⟨hpart, hread⟩

/-- The parts are collected as they were written exactly when no line of one is a delimiter.
-/
theorem collect_parts_iff {part : List Line} {parts : List (List Line)} :
    collect boundary [] (part ++ (bodyLines boundary parts ++ [[]])) = some (part :: parts)
      ↔ ∀ p ∈ part :: parts, ∀ line ∈ p, Clean boundary line := by
  induction parts generalizing part with
  | nil =>
      have hrest : 2 ≤ (bodyLines boundary [] ++ [[]]).length := Nat.le_refl 2
      have hstep := collect_part_iff boundary part [] [] hrest
      rw [List.nil_append] at hstep
      rw [hstep, List.forall_mem_singleton]
      simp [bodyLines, collect]
  | cons next parts ih =>
      have hbytes : bodyLines boundary (next :: parts) ++ [[]]
          = delimiter boundary :: (next ++ (bodyLines boundary parts ++ [[]])) := by
        simp [bodyLines]
      have hrest : 2 ≤ (bodyLines boundary (next :: parts) ++ [[]]).length := by
        rw [hbytes, List.length_cons, List.length_append, List.length_append,
          List.length_singleton]
        omega
      have hstep := collect_part_iff boundary part [] (next :: parts) hrest
      rw [List.nil_append] at hstep
      have hnext : collect boundary part (bodyLines boundary (next :: parts) ++ [[]])
          = some (part :: next :: parts)
          ↔ ∀ p ∈ next :: parts, ∀ line ∈ p, Clean boundary line := by
        rw [hbytes, collect, if_neg (delimiter_ne_closing boundary), if_pos rfl, ← ih]
        simp [Option.map_eq_some_iff]
      rw [hstep, hnext, List.forall_mem_cons (l := next :: parts)]

/-- A body is split into its parts exactly when none of their lines is a
delimiter. -/
theorem split_body_iff {parts : List (List Line)} (hne : parts ≠ []) (hboundary : 13 ∉ boundary)
    (hlines : ∀ part ∈ parts, ∀ line ∈ part, 13 ∉ line) :
    split boundary (body boundary parts) = some parts
      ↔ ∀ part ∈ parts, ∀ line ∈ part, Clean boundary line := by
  have hdelimiter : 13 ∉ delimiter boundary := by
    simp [delimiter, hboundary]
  have hbody : ∀ line ∈ bodyLines boundary parts, 13 ∉ line := by
    intro line hline
    rcases List.mem_append.mp hline with hline | hline
    · obtain ⟨part, hpart, hline⟩ := List.mem_flatMap.mp hline
      rcases List.mem_cons.mp hline with rfl | hline
      · exact hdelimiter
      · exact hlines part hpart line hline
    · rw [List.mem_singleton.mp hline]
      simp [closing, hdelimiter]
  cases parts with
  | nil => exact absurd rfl hne
  | cons part parts =>
      have hfirst : bodyLines boundary (part :: parts) ++ [[]]
          = delimiter boundary :: (part ++ (bodyLines boundary parts ++ [[]])) := by
        simp [bodyLines]
      rw [split, body, splitCrlf_lines hbody, hfirst]
      dsimp only
      rw [if_pos rfl]
      exact collect_parts_iff boundary

end

end GovFuzz.Lib.Multipart
