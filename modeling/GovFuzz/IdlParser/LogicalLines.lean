import GovFuzz.IdlParser.Preprocessor

/-!
# IDL parser — the logical lines of a source

`logical_lines` goes through the physical lines with what has been joined so
far.  What it returns is a cut of the source: each logical line is a run of
lines that end in a backslash, with the line behind them, and carries the
number of the first of them.
-/

namespace GovFuzz.IdlParser

/-- A physical line without its newline, and whether it has one. -/
abbrev PhysicalLine := List Char × Bool

/-- Each line that ends in a backslash goes with the line behind it. -/
def continuationGroups : List PhysicalLine → List (List PhysicalLine)
  | [] => []
  | line :: rest =>
      if continues line.1 then
        match continuationGroups rest with
        | [] => [[line]]
        | group :: groups => (line :: group) :: groups
      else [line] :: continuationGroups rest

/-- The lines of a group, a blank for each backslash. -/
def spliceGroup (group : List PhysicalLine) : List Char :=
  group.flatMap fun line => lineSegment line.1 ++ if continues line.1 then [' '] else []

def endsLine (group : List PhysicalLine) : Bool := (group.getLast?.map Prod.snd).getD false

/-- Each group with the number of its first line. -/
def numberGroups : Nat → List (List PhysicalLine) → List LogicalLine
  | _, [] => []
  | lineNo, group :: groups =>
      ⟨lineNo, spliceGroup group, endsLine group⟩ :: numberGroups (lineNo + group.length) groups

/-- The logical lines as a cut of the source. -/
def splicedLines (source : List Char) : List LogicalLine :=
  numberGroups 1 (continuationGroups (splitInclusive source))

theorem continuationGroups_flatten (lines : List PhysicalLine) :
    (continuationGroups lines).flatten = lines := by
  fun_induction continuationGroups lines with
  | case1 => rfl
  | case2 line rest hcontinues hgroups ih =>
      rw [hgroups] at ih
      simp [← ih]
  | case3 line rest hcontinues group groups hgroups ih =>
      rw [hgroups] at ih
      simp [← ih]
  | case4 line rest hends ih => simp [ih]

theorem ne_nil_of_mem_groups {lines : List PhysicalLine} {group : List PhysicalLine}
    (h : group ∈ continuationGroups lines) : group ≠ [] := by
  fun_induction continuationGroups lines with
  | case1 => cases h
  | case2 line rest hcontinues hgroups ih =>
      rw [List.mem_singleton.mp h]
      exact List.cons_ne_nil _ _
  | case3 line rest hcontinues first groups hgroups ih =>
      rcases List.mem_cons.mp h with rfl | h
      · exact List.cons_ne_nil _ _
      · exact ih (by rw [hgroups]; exact List.mem_cons_of_mem _ h)
  | case4 line rest hends ih =>
      rcases List.mem_cons.mp h with rfl | h
      · exact List.cons_ne_nil _ _
      · exact ih h

theorem endsLine_cons (line : PhysicalLine) {group : List PhysicalLine} (h : group ≠ []) :
    endsLine (line :: group) = endsLine group := by
  obtain ⟨first, rest, rfl⟩ := List.exists_cons_of_ne_nil h
  rw [endsLine, endsLine, List.getLast?_cons_cons]

/-! ## The loop -/

/-- What the loop has joined so far, and the group it goes on with. -/
def afterSplice (s : Splice) (lineNo : Nat) (groups : List (List PhysicalLine)) :
    List LogicalLine :=
  if s.inContinuation then
    match groups with
    | [] => [⟨s.continuedStart, s.continued, s.lastHasNewline⟩]
    | group :: groups =>
        ⟨s.continuedStart, s.continued ++ spliceGroup group, endsLine group⟩
          :: numberGroups (lineNo + group.length) groups
  else numberGroups lineNo groups

/-- The loop over the physical lines gives the lines of the continuation groups: by
induction on the lines, the open group in the state. -/
theorem spliceLines_eq (lines : List PhysicalLine) (lineNo : Nat) (s : Splice)
    (hnew : s.inContinuation = false → s.continued = []) :
    spliceLines lineNo lines s
      = s.lines ++ afterSplice s lineNo (continuationGroups lines) := by
  induction lines generalizing lineNo s with
  | nil =>
      cases hin : s.inContinuation with
      | false =>
          simp [spliceLines, Splice.finish, afterSplice, hin, continuationGroups, numberGroups]
      | true => simp [spliceLines, Splice.finish, afterSplice, hin, continuationGroups]
  | cons line rest ih =>
      obtain ⟨line, hasNewline⟩ := line
      rw [spliceLines, continuationGroups]
      cases hcontinues : continues line with
      | false =>
          -- the line ends the logical line
          cases hin : s.inContinuation with
          | false =>
              have hpush : s.push lineNo line hasNewline
                  = { s with lines := s.lines ++ [⟨lineNo, line, hasNewline⟩] } := by
                simp [Splice.push, hin, hcontinues]
              have hnext :=
                ih (lineNo + 1) { s with lines := s.lines ++ [⟨lineNo, line, hasNewline⟩] } hnew
              rw [hpush, hnext]
              simp [afterSplice, hin, numberGroups, spliceGroup, lineSegment, hcontinues, endsLine]
          | true =>
              have hpush : s.push lineNo line hasNewline
                  = { lines := s.lines ++ [⟨s.continuedStart, s.continued ++ line, hasNewline⟩]
                      continued := [], continuedStart := s.continuedStart
                      inContinuation := false, lastHasNewline := hasNewline } := by
                simp [Splice.push, hin, hcontinues, lineSegment]
              rw [hpush, ih _ _ fun _ => rfl]
              simp [afterSplice, hin, spliceGroup, lineSegment, hcontinues, endsLine]
      | true =>
          -- the line continues: it opens a group, or lengthens the open one
          have hpush : s.push lineNo line hasNewline
              = { s with
                  continued := s.continued ++ lineSegment line ++ [' ']
                  continuedStart := if s.inContinuation then s.continuedStart else lineNo
                  inContinuation := true, lastHasNewline := hasNewline } := by
            simp [Splice.push, hcontinues]
          rw [hpush, ih _ _ fun h => by cases h]
          have hempty : s.inContinuation = false → s.continued = [] := hnew
          cases hgroups : continuationGroups rest with
          | nil =>
              cases hin : s.inContinuation with
              | false =>
                  simp [afterSplice, hin, numberGroups, spliceGroup, hcontinues, endsLine,
                    hempty hin]
              | true => simp [afterSplice, hin, numberGroups, spliceGroup, hcontinues, endsLine]
          | cons group groups =>
              have hne : group ≠ [] :=
                ne_nil_of_mem_groups (by rw [hgroups]; exact List.mem_cons_self)
              have hends := endsLine_cons (line, hasNewline) hne
              cases hin : s.inContinuation with
              | false =>
                  simp [afterSplice, hin, numberGroups, spliceGroup, hcontinues, hends, hempty hin,
                    Nat.add_assoc, Nat.add_comm 1]
              | true =>
                  simp [afterSplice, hin, spliceGroup, hcontinues, hends, Nat.add_assoc,
                    Nat.add_comm 1]

/-- Each logical line carries the number of its first physical line. -/
theorem logicalLines_eq (source : List Char) : logicalLines source = splicedLines source := by
  rw [logicalLines, spliceLines_eq _ _ _ fun _ => rfl]
  rfl

/-! ## Numbers, newlines and characters -/

theorem le_lineNo_numberGroups {groups : List (List PhysicalLine)} {lineNo : Nat}
    {entry : LogicalLine} (h : entry ∈ numberGroups lineNo groups) : lineNo ≤ entry.lineNo := by
  induction groups generalizing lineNo with
  | nil => cases h
  | cons group groups ih =>
      rcases List.mem_cons.mp h with rfl | h
      · exact Nat.le_refl _
      · exact Nat.le_trans (Nat.le_add_right _ _) (ih h)

theorem increasing_numberGroups {groups : List (List PhysicalLine)}
    (hne : ∀ group ∈ groups, group ≠ []) (lineNo : Nat) :
    ((numberGroups lineNo groups).map LogicalLine.lineNo).Pairwise (· < ·) := by
  induction groups generalizing lineNo with
  | nil => exact List.Pairwise.nil
  | cons group groups ih =>
      rw [List.forall_mem_cons] at hne
      refine List.pairwise_cons.mpr ⟨fun number hnumber => ?_, ih hne.2 _⟩
      obtain ⟨entry, hentry, rfl⟩ := List.mem_map.mp hnumber
      have hle := le_lineNo_numberGroups hentry
      have hpos := List.length_pos_iff.mpr hne.1
      show lineNo < entry.lineNo
      omega

theorem increasing_splicedLines (source : List Char) :
    ((splicedLines source).map LogicalLine.lineNo).Pairwise (· < ·) :=
  increasing_numberGroups (fun _ h => ne_nil_of_mem_groups h) 1

/-- Only the last physical line can lack its newline. -/
theorem hasNewline_splitInclusive (source : List Char) :
    ∀ line ∈ (splitInclusive source).dropLast, line.2 = true := by
  have hpairs : ∀ (ended : List (List Char)) (last : Option (List Char)),
      ∀ line ∈ (ended.map (·, true) ++ (last.toList.filter (· ≠ [])).map (·, false)).dropLast,
        line.2 = true := by
    intro ended last line hline
    have hmem : line ∈ ended.map (·, true) := by
      cases hlast : (last.toList.filter (· ≠ [])).map (·, false) with
      | nil =>
          rw [hlast, List.append_nil] at hline
          exact List.dropLast_subset _ hline
      | cons first rest =>
          have hone : rest = [] := by
            have hlen := congrArg List.length hlast
            have hle := List.length_filter_le (· ≠ []) last.toList
            have hlast := Option.length_toList_le (o := last)
            simp only [List.length_map, List.length_cons] at hlen
            exact List.eq_nil_of_length_eq_zero (by omega)
          rw [hlast, hone, List.dropLast_concat] at hline
          exact hline
    obtain ⟨piece, -, rfl⟩ := List.mem_map.mp hmem
    rfl
  exact hpairs _ _

theorem hasNewline_numberGroups {groups : List (List PhysicalLine)}
    (hne : ∀ group ∈ groups, group ≠ [])
    (h : ∀ line ∈ groups.flatten.dropLast, line.2 = true) (lineNo : Nat) :
    ∀ entry ∈ (numberGroups lineNo groups).dropLast, entry.hasNewline = true := by
  induction groups generalizing lineNo with
  | nil => simp [numberGroups]
  | cons group groups ih =>
      rw [List.forall_mem_cons] at hne
      cases groups with
      | nil => simp [numberGroups]
      | cons next groups =>
          have hrest : (next :: groups).flatten ≠ [] := by
            rw [List.flatten_cons]
            exact List.append_ne_nil_of_left_ne_nil (hne.2 next List.mem_cons_self) _
          rw [List.flatten_cons, List.dropLast_append_of_ne_nil hrest] at h
          have hnumbered : numberGroups (lineNo + group.length) (next :: groups) ≠ [] :=
            List.cons_ne_nil _ _
          rw [numberGroups, List.dropLast_cons_of_ne_nil hnumbered, List.forall_mem_cons]
          refine ⟨?_, ih hne.2 (fun line hline => h line (List.mem_append_right _ hline)) _⟩
          show endsLine group = true
          rw [endsLine, List.getLast?_eq_getLast_of_ne_nil hne.1]
          exact h _ (List.mem_append_left _ (List.getLast_mem hne.1))

theorem hasNewline_splicedLines (source : List Char) :
    ∀ entry ∈ (splicedLines source).dropLast, entry.hasNewline = true := by
  refine hasNewline_numberGroups (fun _ h => ne_nil_of_mem_groups h) ?_ 1
  rw [continuationGroups_flatten]
  exact hasNewline_splitInclusive source

theorem newline_not_mem_splitOn {text piece : List Char} (h : piece ∈ text.splitOn '\n') :
    '\n' ∉ piece := by
  induction text generalizing piece with
  | nil =>
      rw [List.splitOn_nil, List.mem_singleton] at h
      simp [h]
  | cons ch text ih =>
      obtain ⟨first, rest, hsplit⟩ :=
        List.exists_cons_of_ne_nil (List.splitOnP_ne_nil (· == '\n') text)
      have hsplit : text.splitOn '\n' = first :: rest := hsplit
      rw [List.splitOn_cons_eq_if_modifyHead, hsplit] at h
      rw [hsplit] at ih
      split at h
      case isTrue =>
          rcases List.mem_cons.mp h with rfl | h
          · simp
          · exact ih h
      case isFalse hne =>
          rcases List.mem_cons.mp h with rfl | h
          · have hfirst : '\n' ∉ first := ih List.mem_cons_self
            have hch : '\n' ≠ ch := fun heq => hne (by simp [← heq])
            simp [hfirst, hch]
          · exact ih (List.mem_cons_of_mem _ h)

theorem newline_not_mem_splitInclusive {source : List Char} {line : PhysicalLine}
    (h : line ∈ splitInclusive source) : '\n' ∉ line.1 := by
  rw [splitInclusive, List.mem_append, List.mem_map, List.mem_map] at h
  rcases h with ⟨piece, hpiece, rfl⟩ | ⟨piece, hpiece, rfl⟩
  · exact newline_not_mem_splitOn (List.dropLast_subset _ hpiece)
  · have hlast := (List.mem_filter.mp hpiece).1
    exact newline_not_mem_splitOn (List.mem_of_getLast? (by simpa using hlast))

theorem mem_lineSegment {line : List Char} {ch : Char} (h : ch ∈ lineSegment line) : ch ∈ line := by
  unfold lineSegment at h
  split at h
  case isFalse => exact h
  case isTrue =>
      rw [trimEnd, List.mem_reverse] at h
      have hbefore : ch ∈ beforeLast '\\' line := by
        simpa using (List.dropWhile_sublist _).subset h
      rw [beforeLast, List.mem_reverse] at hbefore
      simpa using (List.dropWhile_sublist _).subset (List.mem_of_mem_tail hbefore)

theorem newline_not_mem_numberGroups {groups : List (List PhysicalLine)}
    (h : ∀ line ∈ groups.flatten, '\n' ∉ line.1) (lineNo : Nat) :
    ∀ entry ∈ numberGroups lineNo groups, '\n' ∉ entry.line := by
  induction groups generalizing lineNo with
  | nil => simp [numberGroups]
  | cons group groups ih =>
      rw [List.flatten_cons, List.forall_mem_append] at h
      rw [numberGroups, List.forall_mem_cons]
      refine ⟨fun hmem => ?_, ih h.2 _⟩
      obtain ⟨line, hline, hmem⟩ := List.mem_flatMap.mp hmem
      rcases List.mem_append.mp hmem with hmem | hmem
      · exact h.1 line hline (mem_lineSegment hmem)
      · split at hmem
        · simp at hmem
        · cases hmem

theorem newline_not_mem_splicedLines (source : List Char) :
    ∀ entry ∈ splicedLines source, '\n' ∉ entry.line := by
  refine newline_not_mem_numberGroups ?_ 1
  rw [continuationGroups_flatten]
  exact fun line hline => newline_not_mem_splitInclusive hline

end GovFuzz.IdlParser
