import GovFuzz.FuzzEngine.Mutator
import GovFuzz.Lib.Slice

/-!
# Fuzz engine — splices from recorded comparisons

What the candidates are, and what the mutation made of them can and cannot
return: one operand of a recorded comparison put where the other one stands.
-/

namespace GovFuzz.FuzzEngine

open GovFuzz.Lib
open GovFuzz.Runtrace (CmpEntry)

/-! ## The candidates -/

theorem findSubslice_eq {needle : List UInt8} (hneedle : needle ≠ []) (haystack : List UInt8) :
    findSubslice haystack needle = (places needle haystack).head? := by
  rw [findSubslice]
  split
  case isFalse => exact windowPosition_eq needle haystack
  case isTrue hshort =>
    cases hhead : (places needle haystack).head? with
    | none => rfl
    | some i =>
        have hle := head?_places_lt hneedle hhead
        rcases hshort with hempty | hlt
        · exact absurd (List.isEmpty_iff.mp hempty) hneedle
        · omega

/-- The loop meets every place of the operand from where it starts. -/
theorem spliceOccurrences_eq (siteId : Nat) (input : List UInt8) {src : List UInt8}
    (hsrc : src ≠ []) (dst : List UInt8) {searchFrom : Nat} (h : searchFrom ≤ input.length) :
    spliceOccurrences siteId input src dst searchFrom
      = pure ((places src (input.drop searchFrom)).map fun i =>
          ⟨siteId, searchFrom + i, dst, src.length⟩) := by
  induction hn : input.length - searchFrom using Nat.strongRecOn generalizing searchFrom with
  | ind n ih =>
      rw [spliceOccurrences, if_pos h, findSubslice_eq hsrc]
      cases hhead : (places src (input.drop searchFrom)).head? with
      | none => rw [places_of_head?_none hhead]; rfl
      | some pos =>
          have hpos := head?_places_lt hsrc hhead
          have hlength := List.length_pos_iff.mpr hsrc
          rw [List.length_drop] at hpos
          dsimp only
          rw [ih (input.length - (searchFrom + pos + 1)) (by omega) (by omega) rfl,
            places_eq_cons hsrc hhead, List.drop_drop]
          simp only [pure_bind, List.map_cons, List.map_map]
          congr 2
          refine List.map_congr_left fun i _ => ?_
          simp only [Function.comp_apply, SpliceCandidate.mk.injEq, and_true, true_and]
          omega

/-- The candidates of one direction. -/
def splicesOf (input : List UInt8) (siteId : Nat) (src dst : List UInt8) :
    List SpliceCandidate :=
  if src = [] then []
  else ((List.range (input.length + 1)).filter fun i => src <+: input.drop i).map fun i =>
    ⟨siteId, i, dst, src.length⟩

theorem spliceDirection_eq (input : List UInt8) (siteId : Nat) (src dst : List UInt8) :
    spliceDirection input siteId src dst = pure (splicesOf input siteId src dst) := by
  by_cases hsrc : src = []
  · simp [spliceDirection, splicesOf, hsrc]
  · rw [spliceDirection, if_neg (by simpa using hsrc),
      spliceOccurrences_eq siteId input hsrc dst (Nat.zero_le _), splicesOf, if_neg hsrc,
      ← places_eq_filter]
    simp

theorem mem_splicesOf {input : List UInt8} {siteId : Nat} {src dst : List UInt8}
    {candidate : SpliceCandidate} :
    candidate ∈ splicesOf input siteId src dst
      ↔ src ≠ [] ∧ ∃ i ∈ places src input, candidate = ⟨siteId, i, dst, src.length⟩ := by
  by_cases hsrc : src = []
  · simp [splicesOf, hsrc]
  · rw [splicesOf, if_neg hsrc, ← places_eq_filter, List.mem_map]
    simp only [hsrc, not_false_eq_true, true_and, ne_eq, eq_comm]

/-- The candidates of an entry: `a` to `b` before `b` to `a`. -/
def entrySplices (input : List UInt8) (entry : CmpEntry) : List SpliceCandidate :=
  splicesOf input entry.siteId entry.operandA entry.operandB
    ++ splicesOf input entry.siteId entry.operandB entry.operandA

theorem spliceEntries_eq (input : List UInt8) (entries : List CmpEntry) :
    spliceEntries input entries = pure (entries.flatMap (entrySplices input)) := by
  induction entries with
  | nil => rfl
  | cons entry rest ih =>
      rw [spliceEntries, spliceDirection_eq, spliceDirection_eq, ih]
      simp only [pure_bind, List.flatMap_cons, entrySplices]

/-- One candidate for each place of each operand that is not empty, in the
order of the entries, and no panic on the way. -/
theorem spliceCandidates_exact (log : CmpLog) (input : List UInt8) :
    log.spliceCandidates input
      = pure (log.entries.flatMap fun entry =>
          splicesOf input entry.siteId entry.operandA entry.operandB
            ++ splicesOf input entry.siteId entry.operandB entry.operandA) :=
  spliceEntries_eq input log.entries

/-! ## The mutation -/

/-- One operand of a recorded comparison in place of the other. -/
structure Replaces (entry : CmpEntry) (src dst : List UInt8) : Prop where
  operands : src = entry.operandA ∧ dst = entry.operandB
    ∨ src = entry.operandB ∧ dst = entry.operandA
  nonempty : src ≠ []
  changes : src ≠ dst

/-- A replacement at one place of the input, in an output that fits. -/
def Splices (maxLen : Nat) (log : CmpLog) (bytes output : List UInt8) : Prop :=
  ∃ entry ∈ log.entries, ∃ src dst front back, Replaces entry src dst
    ∧ bytes = front ++ src ++ back ∧ output = front ++ dst ++ back ∧ output.length ≤ maxLen

theorem Splices.ne {maxLen : Nat} {log : CmpLog} {bytes output : List UInt8}
    (h : Splices maxLen log bytes output) : output ≠ bytes := by
  obtain ⟨entry, -, src, dst, front, back, hreplaces, rfl, rfl, -⟩ := h
  intro heq
  rw [List.append_assoc, List.append_assoc, List.append_right_inj, List.append_left_inj] at heq
  exact hreplaces.changes heq.symm

/-- A vector is no longer than a slice can be. -/
def CmpLog.Fits (log : CmpLog) : Prop :=
  ∀ entry ∈ log.entries, entry.operandA.length ≤ isizeMax ∧ entry.operandB.length ≤ isizeMax

/-- What is put at the candidate's place. -/
def spliceAt (bytes : List UInt8) (candidate : SpliceCandidate) : List UInt8 :=
  bytes.take candidate.offset ++ candidate.replacement
    ++ bytes.drop (candidate.offset + candidate.originalLen)

/-- The candidate stands for a place inside the input. -/
structure Inside (bytes : List UInt8) (candidate : SpliceCandidate) : Prop where
  stop : candidate.offset + candidate.originalLen ≤ bytes.length
  replacement : candidate.replacement.length ≤ isizeMax

/-- What stands at the candidate's place. -/
def current (bytes : List UInt8) (candidate : SpliceCandidate) : List UInt8 :=
  (bytes.take (candidate.offset + candidate.originalLen)).drop candidate.offset

theorem inside_of_mem {log : CmpLog} (hlog : log.Fits) {bytes : List UInt8}
    {candidate : SpliceCandidate}
    (h : candidate ∈ log.entries.flatMap (entrySplices bytes)) : Inside bytes candidate := by
  obtain ⟨entry, hentry, hcandidate⟩ := List.mem_flatMap.mp h
  obtain ⟨ha, hb⟩ := hlog entry hentry
  have hplace : ∀ src : List UInt8, ∀ i ∈ places src bytes, i + src.length ≤ bytes.length := by
    intro src i hi
    obtain ⟨hle, hprefix⟩ := mem_places.mp hi
    have hlength := hprefix.length_le
    rw [List.length_drop] at hlength
    omega
  rcases List.mem_append.mp hcandidate with hforth | hback
  · obtain ⟨-, i, hi, rfl⟩ := mem_splicesOf.mp hforth
    exact ⟨hplace _ i hi, hb⟩
  · obtain ⟨-, i, hi, rfl⟩ := mem_splicesOf.mp hback
    exact ⟨hplace _ i hi, ha⟩

section

variable {bytes : List UInt8} (hbytes : bytes.length ≤ isizeMax)
include hbytes

theorem cmplogSpliceCandidates_eq {log : CmpLog} (hlog : log.Fits) :
    cmplogSpliceCandidates bytes log
      = pure ((log.entries.flatMap (entrySplices bytes)).flatMap fun candidate =>
          if current bytes candidate ≠ candidate.replacement then [candidate] else []) := by
  have hlimit : isizeMax < usizeSize := by decide
  rw [cmplogSpliceCandidates, CmpLog.spliceCandidates, spliceEntries_eq, pure_bind]
  refine Op.collect_of_pure fun candidate hcandidate => ?_
  have hinside := inside_of_mem hlog hcandidate
  have hstop := hinside.stop
  rw [checkedAdd, if_pos (by omega)]
  dsimp only
  rw [if_neg (by omega), Op.slice, if_pos ⟨Nat.le_add_right _ _, hstop⟩, pure_bind]
  rfl

theorem cmplogSpliceAttempt_eq (suite : MutatorSuite) {candidate : SpliceCandidate}
    (hinside : Inside bytes candidate)
    (hchanges : current bytes candidate ≠ candidate.replacement) :
    suite.cmplogSpliceAttempt bytes candidate
      = pure (if (spliceAt bytes candidate).length ≤ suite.config.maxLen then
          some (spliceAt bytes candidate) else none) := by
  obtain ⟨hstop, hreplacement⟩ := hinside
  have hlimit : isizeMax + isizeMax < usizeSize := by decide
  have hlength : (spliceAt bytes candidate).length
      = bytes.length - candidate.originalLen + candidate.replacement.length := by
    simp only [spliceAt, List.length_append, List.length_take, List.length_drop]
    omega
  rw [current] at hchanges
  rw [MutatorSuite.cmplogSpliceAttempt, checkedSub, if_pos (by omega), Op.ofOption, pure_bind,
    checkedAdd, if_pos (by omega), Op.ofOption, pure_bind, hlength]
  by_cases hroom : bytes.length - candidate.originalLen + candidate.replacement.length
      > suite.config.maxLen
  · rw [if_pos hroom, if_neg (by omega)]
  · rw [if_neg hroom, if_pos (by omega), checkedAdd, if_pos (by omega), Op.ofOption, pure_bind,
      if_neg (by omega), Op.slice, if_pos ⟨Nat.le_add_right _ _, hstop⟩, pure_bind,
      if_neg hchanges, Op.slice, if_pos ⟨Nat.zero_le _, by omega⟩, pure_bind, Op.slice,
      if_pos ⟨hstop, Nat.le_refl _⟩, pure_bind]
    simp [spliceAt]

end

/-- A candidate that changes something and fits is a replacement. -/
theorem splices_of_candidate {bytes : List UInt8} {log : CmpLog} {maxLen : Nat}
    {candidate : SpliceCandidate}
    (hcandidate : candidate ∈ log.entries.flatMap (entrySplices bytes))
    (hchanges : current bytes candidate ≠ candidate.replacement)
    (hroom : (spliceAt bytes candidate).length ≤ maxLen) :
    Splices maxLen log bytes (spliceAt bytes candidate) := by
  obtain ⟨entry, hentry, hside⟩ := List.mem_flatMap.mp hcandidate
  have hsplit : ∀ src dst : List UInt8, ∀ i ∈ places src bytes,
      candidate = ⟨entry.siteId, i, dst, src.length⟩ → src ≠ dst
        ∧ bytes = bytes.take i ++ src ++ bytes.drop (i + src.length)
        ∧ spliceAt bytes candidate = bytes.take i ++ dst ++ bytes.drop (i + src.length) := by
    rintro src dst i hi rfl
    refine ⟨?_, eq_append_of_mem_places hi, rfl⟩
    rintro rfl
    refine hchanges ?_
    obtain ⟨-, hprefix⟩ := mem_places.mp hi
    rw [current, List.drop_take, Nat.add_sub_cancel_left]
    exact (List.prefix_iff_eq_take.mp hprefix).symm
  rcases List.mem_append.mp hside with hforth | hback
  · obtain ⟨hsrc, i, hi, heq⟩ := mem_splicesOf.mp hforth
    obtain ⟨hne, hbytes, houtput⟩ := hsplit _ _ i hi heq
    exact ⟨entry, hentry, _, _, _, _, ⟨.inl ⟨rfl, rfl⟩, hsrc, hne⟩, hbytes, houtput, hroom⟩
  · obtain ⟨hsrc, i, hi, heq⟩ := mem_splicesOf.mp hback
    obtain ⟨hne, hbytes, houtput⟩ := hsplit _ _ i hi heq
    exact ⟨entry, hentry, _, _, _, _, ⟨.inr ⟨rfl, rfl⟩, hsrc, hne⟩, hbytes, houtput, hroom⟩

/-- Every replacement is that of a candidate. -/
theorem candidate_of_splices {bytes : List UInt8} {log : CmpLog} {maxLen : Nat}
    {output : List UInt8}
    (h : Splices maxLen log bytes output) :
    ∃ candidate ∈ log.entries.flatMap (entrySplices bytes),
      current bytes candidate ≠ candidate.replacement ∧ spliceAt bytes candidate = output := by
  obtain ⟨entry, hentry, src, dst, front, back, hreplaces, rfl, rfl, -⟩ := h
  have hplace : front.length ∈ places src (front ++ src ++ back) := by
    refine mem_places.mpr ⟨by simp only [List.length_append]; omega, ?_⟩
    rw [List.append_assoc, List.drop_left]
    exact List.prefix_append _ _
  have hcurrent : ∀ siteId, current (front ++ src ++ back)
      ⟨siteId, front.length, dst, src.length⟩ = src := by
    intro siteId
    rw [current, List.append_assoc, List.drop_take, List.drop_left, Nat.add_sub_cancel_left,
      List.take_left]
  have hresult : ∀ siteId, spliceAt (front ++ src ++ back)
      ⟨siteId, front.length, dst, src.length⟩ = front ++ dst ++ back := by
    intro siteId
    have hdrop : (front ++ src ++ back).drop (front.length + src.length) = back := by
      rw [← List.length_append, List.drop_left]
    show (front ++ src ++ back).take front.length ++ dst
      ++ (front ++ src ++ back).drop (front.length + src.length) = front ++ dst ++ back
    rw [hdrop, List.append_assoc front src, List.take_left]
  refine ⟨⟨entry.siteId, front.length, dst, src.length⟩, List.mem_flatMap.mpr ⟨entry, hentry, ?_⟩,
    ?_, hresult _⟩
  · rcases hreplaces.operands with ⟨rfl, rfl⟩ | ⟨rfl, rfl⟩
    · exact List.mem_append_left _ (mem_splicesOf.mpr ⟨hreplaces.nonempty, _, hplace, rfl⟩)
    · exact List.mem_append_right _ (mem_splicesOf.mpr ⟨hreplaces.nonempty, _, hplace, rfl⟩)
  · rw [hcurrent]
    exact hreplaces.changes

theorem exec_choose {n : Nat} (hn : 0 < n) (rng : MutationRng) :
    ∃ i t, Op.exec (choose n) rng = (.ok i, t) ∧ i < n := by
  obtain ⟨value, t, hdraw⟩ : ∃ value t, Op.exec nextU64 rng = (.ok value, t) := ⟨_, _, rfl⟩
  have hindex : Op.exec (chooseIndex n) rng = (.ok (some (value.toNat % n)), t) := by
    rw [chooseIndex, if_neg (by omega), Op.exec_bind_ok hdraw]
    rfl
  refine ⟨value.toNat % n, t, ?_, Nat.mod_lt _ hn⟩
  rw [choose, Op.exec_bind_ok hindex]
  rfl

/-- From every state of the generator the mutation puts one operand where
the other one stands, and it has no result only where that cannot be done. -/
theorem cmplogSplice_replaces (suite : MutatorSuite) (log : CmpLog) (hlog : log.Fits)
    (bytes : List UInt8) (hbytes : bytes.length ≤ isizeMax) (rng : MutationRng) :
    (∃ output rng', Op.exec (suite.cmplogSplice bytes log) rng = (.ok output, rng')
        ∧ Splices suite.config.maxLen log bytes output ∧ output ≠ bytes)
      ∨ (∃ rng', Op.exec (suite.cmplogSplice bytes log) rng = (.error .missing, rng'))
        ∧ ∀ output, ¬ Splices suite.config.maxLen log bytes output := by
  let candidates := log.entries.flatMap (entrySplices bytes)
  let kept := candidates.flatMap fun candidate =>
    if current bytes candidate ≠ candidate.replacement then [candidate] else []
  have hmem : ∀ candidate, candidate ∈ kept
      ↔ candidate ∈ candidates ∧ current bytes candidate ≠ candidate.replacement := by
    intro candidate
    simp only [kept, List.mem_flatMap]
    constructor
    · rintro ⟨other, hother, hin⟩
      split at hin
      case isTrue hne =>
        rw [List.mem_singleton.mp hin]
        exact ⟨hother, hne⟩
      case isFalse => cases hin
    · rintro ⟨hin, hne⟩
      exact ⟨candidate, hin, by rw [if_pos hne]; exact List.mem_singleton_self _⟩
  have hattempt : ∀ candidate ∈ kept, suite.cmplogSpliceAttempt bytes candidate
      = pure (if (spliceAt bytes candidate).length ≤ suite.config.maxLen then
          some (spliceAt bytes candidate) else none) := fun candidate hcandidate =>
    cmplogSpliceAttempt_eq hbytes suite (inside_of_mem hlog ((hmem candidate).mp hcandidate).1)
      ((hmem candidate).mp hcandidate).2
  rw [MutatorSuite.cmplogSplice, cmplogSpliceCandidates_eq hbytes hlog, pure_bind]
  -- The candidates are tried in a random order until one fits: whichever is
  -- drawn first, the loop ends with a result or with all of them tried.
  rcases Op.exec_drain_of_pure (fun n s hn => exec_choose hn s) hattempt rng with
    ⟨output, rng', hexec, candidate, hcandidate, hresult⟩ | ⟨hmissing, hnone⟩
  · left
    obtain ⟨hin, hchanges⟩ := (hmem candidate).mp hcandidate
    split at hresult
    case isTrue hroom =>
      cases hresult
      have hsplices := splices_of_candidate hin hchanges hroom
      exact ⟨_, rng', hexec, hsplices, hsplices.ne⟩
    case isFalse => cases hresult
  · right
    refine ⟨hmissing, fun output houtput => ?_⟩
    obtain ⟨candidate, hin, hchanges, rfl⟩ := candidate_of_splices houtput
    have hresult := hnone candidate ((hmem candidate).mpr ⟨hin, hchanges⟩)
    obtain ⟨-, -, -, -, -, -, -, -, -, hroom⟩ := houtput
    rw [if_pos hroom] at hresult
    cases hresult

/-- The comparison of a two byte operand with a one byte one. -/
def pairLog : CmpLog := ⟨[⟨7, [1, 2], [3], .integerCompare⟩]⟩

theorem cmplogSplice_replaces_pair :
    ∃ output rng', Op.exec (MutatorSuite.smallSuite.cmplogSplice [0, 1, 2] pairLog) ⟨0⟩
        = (.ok output, rng')
      ∧ Splices 6 pairLog [0, 1, 2] output ∧ output ≠ [0, 1, 2] := by
  refine (cmplogSplice_replaces MutatorSuite.smallSuite pairLog
    (List.forall_mem_singleton.mpr ⟨by decide, by decide⟩) [0, 1, 2] (by decide) ⟨0⟩).resolve_right
    fun ⟨_, hnone⟩ => hnone [0, 3] ?_
  exact ⟨_, List.mem_singleton_self _, [1, 2], [3], [0], [],
    ⟨.inl ⟨rfl, rfl⟩, by decide, by decide⟩, rfl, rfl, by decide⟩

end GovFuzz.FuzzEngine
