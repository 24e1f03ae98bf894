import GovFuzz.FuzzEngine.BoundedRange
import GovFuzz.Lib.Loop

/-!
# Replay and minimisation — delta debugging

`ddmin_bytes` of `crates/replay_min/src/minimize.rs`.  A turn of the loop cuts
the input into chunks and keeps the first complement of a chunk, else the
first chunk, that still has the property; else it cuts finer, and ends where
the chunks are single bytes.  So the loop can only end where no single byte
can be left out.
-/

namespace GovFuzz.ReplayMin

open GovFuzz.FuzzEngine (ByteSpan saturatingAdd)
open GovFuzz.Lib

variable {ε : Type}

/-! ## Ranges -/

/-- The ranges `index ..` of the split, from `start` on. -/
@[grind =] def splitRangesFrom (base remainder : Nat) : (count index start : Nat) → List ByteSpan
  | 0, _, _ => []
  | count + 1, index, start =>
      let extra := if index < remainder then 1 else 0
      let stop := start + base + extra
      ⟨start, stop⟩ :: splitRangesFrom base remainder count (index + 1) stop

def splitRanges (len count : Nat) : List ByteSpan :=
  let count := max (min count len) 1
  splitRangesFrom (len / count) (len % count) count 0 0

def removeRange (input : List UInt8) (range : ByteSpan) : List UInt8 :=
  input.take range.start ++ input.drop range.stop

/-- `input[range].to_vec()`. -/
def keepRange (input : List UInt8) (range : ByteSpan) : List UInt8 :=
  (input.take range.stop).drop range.start

/-! ## The loop -/

structure ByteMinimization where
  originalLen : Nat
  minimized : List UInt8
  predicateRuns : Nat
  deriving DecidableEq, Repr

/-- The variables of the loop. -/
structure DdminState where
  current : List UInt8
  n : Nat
  predicateRuns : Nat

/-- The first candidate that the predicate accepts, and the runs so far. -/
@[grind =] def tryCandidates (predicate : List UInt8 → Except ε Bool) :
    List (List UInt8) → (predicateRuns : Nat) → Except ε (Option (List UInt8) × Nat)
  | [], predicateRuns => .ok (none, predicateRuns)
  | candidate :: candidates, predicateRuns => do
      let predicateRuns := saturatingAdd predicateRuns 1
      if ← predicate candidate then return (some candidate, predicateRuns)
      else tryCandidates predicate candidates predicateRuns

@[grind =] def DdminState.splitCount (state : DdminState) : Nat := min state.n state.current.length

def DdminState.chunks (state : DdminState) : List ByteSpan :=
  splitRanges state.current.length state.splitCount

/-- The candidates of the first loop: everything but a chunk. -/
def DdminState.complements (state : DdminState) : List (List UInt8) :=
  state.chunks.map (removeRange state.current)

/-- The candidates of the second loop: a chunk that is not everything. -/
def DdminState.parts (state : DdminState) : List (List UInt8) :=
  (state.chunks.filter fun chunk => chunk.len ≠ state.current.length).map
    (keepRange state.current)

/-- One turn.  A slice is no longer than half of the words, so that twice a
split count is a word. -/
def ddminTurn (predicate : List UInt8 → Except ε Bool) (state : DdminState) :
    Except ε (Turn DdminState (List UInt8 × Nat)) := do
  if state.current = [] then return .stop (state.current, state.predicateRuns)
  else
    let (complement, predicateRuns) ←
      tryCandidates predicate state.complements state.predicateRuns
    match complement with
    | some candidate => return .next ⟨candidate, max (state.splitCount - 1) 2, predicateRuns⟩
    | none =>
        let (part, predicateRuns) ← tryCandidates predicate state.parts predicateRuns
        match part with
        | some candidate => return .next ⟨candidate, 2, predicateRuns⟩
        | none =>
            if state.current.length ≤ state.splitCount then
              return .stop (state.current, predicateRuns)
            else
              return .next ⟨state.current, min (state.splitCount * 2) state.current.length,
                predicateRuns⟩

def ddminBytes (predicate : List UInt8 → Except ε Bool) (fuel : Nat) (input : List UInt8) :
    Option (Except ε ByteMinimization) :=
  (loop (ddminTurn predicate) fuel ⟨input, 2, 0⟩).map fun out =>
    out.map fun (minimized, predicateRuns) => ⟨input.length, minimized, predicateRuns⟩

/-! ## The split -/

/-- Every range is inside and not empty, when there are bytes for each. -/
theorem splitRangesFrom_inside {base remainder count index start len : Nat} (hbase : 0 < base)
    (hlen : start + count * base + (min remainder (index + count) - min remainder index) ≤ len)
    {chunk : ByteSpan} (h : chunk ∈ splitRangesFrom base remainder count index start) :
    start ≤ chunk.start ∧ chunk.start < chunk.stop ∧ chunk.stop ≤ len := by
  induction count generalizing index start with
  | zero => cases h
  | succ count ih =>
      rw [Nat.add_one_mul] at hlen
      simp only [splitRangesFrom, List.mem_cons] at h
      rcases h with rfl | h
      · refine ⟨Nat.le_refl _, ?_, ?_⟩
        · dsimp only
          split <;> omega
        · dsimp only
          split <;> omega
      · have hnext := ih (by split <;> omega) h
        split at hnext <;> omega

theorem splitRanges_inside {len count : Nat} (hlen : 0 < len) {chunk : ByteSpan}
    (h : chunk ∈ splitRanges len count) : chunk.start < chunk.stop ∧ chunk.stop ≤ len := by
  have hcount : max (min count len) 1 ≤ len := by omega
  have hbase : 0 < len / max (min count len) 1 := Nat.div_pos hcount (by omega)
  have hsum := Nat.div_add_mod len (max (min count len) 1)
  have hmod := Nat.mod_lt len (show 0 < max (min count len) 1 by omega)
  have hswap := Nat.mul_comm (len / max (min count len) 1) (max (min count len) 1)
  exact (splitRangesFrom_inside hbase (by omega) h).2

/-- As many ranges as bytes: one for each byte. -/
theorem splitRangesFrom_single {count index start : Nat} :
    splitRangesFrom 1 0 count index start
      = (List.range' start count).map fun i => ⟨i, i + 1⟩ := by
  induction count generalizing index start with
  | zero => rfl
  | succ count ih => simp [splitRangesFrom, List.range'_succ, ih]

theorem splitRanges_single {len : Nat} (hlen : 0 < len) :
    splitRanges len len = (List.range len).map fun i => ⟨i, i + 1⟩ := by
  have hcount : max (min len len) 1 = len := by omega
  simp only [splitRanges, hcount, Nat.div_self hlen, Nat.mod_self, splitRangesFrom_single,
    List.range_eq_range']

theorem removeRange_single (input : List UInt8) (i : Nat) :
    removeRange input ⟨i, i + 1⟩ = input.eraseIdx i :=
  (List.eraseIdx_eq_take_drop_succ input i).symm

/-! ## A candidate is a shorter part of the input -/

theorem removeRange_sublist {input : List UInt8} {range : ByteSpan}
    (h : range.start ≤ range.stop) : (removeRange input range).Sublist input := by
  have htail : (input.drop range.stop).Sublist (input.drop range.start) := by
    have hdrop := List.drop_sublist (range.stop - range.start) (input.drop range.start)
    rwa [List.drop_drop, Nat.add_sub_cancel' h] at hdrop
  calc (removeRange input range).Sublist (input.take range.start ++ input.drop range.start) :=
        (List.Sublist.refl _).append htail
    _ = input := List.take_append_drop _ _

theorem length_removeRange {input : List UInt8} {range : ByteSpan}
    (h : range.start < range.stop) (h' : range.stop ≤ input.length) :
    (removeRange input range).length < input.length := by
  simp only [removeRange, List.length_append, List.length_take, List.length_drop]
  omega

theorem keepRange_sublist (input : List UInt8) (range : ByteSpan) :
    (keepRange input range).Sublist input :=
  (List.drop_sublist _ _).trans (List.take_sublist _ _)

theorem length_keepRange {input : List UInt8} {range : ByteSpan}
    (h : range.stop ≤ input.length) : (keepRange input range).length = range.len := by
  simp only [keepRange, List.length_drop, List.length_take, ByteSpan.len]
  omega

/-! ## Turns -/

section

variable {holds : List UInt8 → Bool}

/-- A predicate that is a function of the bytes. -/
@[grind =] def total (ε : Type) (holds : List UInt8 → Bool) (candidate : List UInt8) :
    Except ε Bool :=
  .ok (holds candidate)

theorem tryCandidates_total (ε : Type) (holds : List UInt8 → Bool)
    (candidates : List (List UInt8)) (predicateRuns : Nat) :
    ∃ runs, tryCandidates (total ε holds) candidates predicateRuns
      = .ok (candidates.find? holds, runs) := by
  induction candidates generalizing predicateRuns with
  | nil => exact ⟨predicateRuns, rfl⟩
  | cons candidate candidates ih =>
      cases hcandidate : holds candidate with
      | true => exact ⟨saturatingAdd predicateRuns 1, by
          simp [tryCandidates, total, hcandidate, bind, Except.bind, pure, Except.pure]⟩
      | false =>
          obtain ⟨runs, hruns⟩ := ih (saturatingAdd predicateRuns 1)
          exact ⟨runs, by simpa [tryCandidates, total, hcandidate, bind, Except.bind] using hruns⟩

/-- What the current bytes keep of the input. -/
structure Reduced (holds : List UInt8 → Bool) (input current : List UInt8) : Prop where
  accepted : holds current
  part : current.Sublist input

/-- No byte can be left out. -/
def OneMinimal (holds : List UInt8 → Bool) (bytes : List UInt8) : Prop :=
  ∀ i < bytes.length, holds (bytes.eraseIdx i) = false

/-- Shorter bytes first, then a finer split. -/
@[grind =] def ddminMeasure (state : DdminState) : Nat :=
  state.current.length * state.current.length
    + (state.current.length - min state.n state.current.length)

theorem ddminMeasure_lt {state next : DdminState}
    (h : next.current.length < state.current.length) : ddminMeasure next < ddminMeasure state := by
  have hsquare : next.current.length * next.current.length + next.current.length
      ≤ next.current.length * state.current.length := by
    rw [← Nat.mul_add_one]
    exact Nat.mul_le_mul_left _ h
  have hgrow : next.current.length * state.current.length
      < state.current.length * state.current.length :=
    Nat.mul_lt_mul_of_pos_right h (by omega)
  simp only [ddminMeasure]
  omega

theorem mem_chunks {state : DdminState} (h : state.current ≠ []) {chunk : ByteSpan}
    (hchunk : chunk ∈ state.chunks) :
    chunk.start < chunk.stop ∧ chunk.stop ≤ state.current.length :=
  splitRanges_inside (List.length_pos_iff.mpr h) hchunk

/-- A candidate of either loop is a shorter part of the current bytes. -/
theorem mem_complements {state : DdminState} (h : state.current ≠ []) {candidate : List UInt8}
    (hmem : candidate ∈ state.complements) :
    candidate.Sublist state.current ∧ candidate.length < state.current.length := by
  obtain ⟨chunk, hchunk, rfl⟩ := List.mem_map.mp hmem
  obtain ⟨hlt, hle⟩ := mem_chunks h hchunk
  exact ⟨removeRange_sublist hlt.le, length_removeRange hlt hle⟩

theorem mem_parts {state : DdminState} (h : state.current ≠ []) {candidate : List UInt8}
    (hmem : candidate ∈ state.parts) :
    candidate.Sublist state.current ∧ candidate.length < state.current.length := by
  obtain ⟨chunk, hfilter, rfl⟩ := List.mem_map.mp hmem
  obtain ⟨hchunk, hother⟩ := List.mem_filter.mp hfilter
  obtain ⟨hlt, hle⟩ := mem_chunks h hchunk
  refine ⟨keepRange_sublist state.current chunk, ?_⟩
  have hother : chunk.stop - chunk.start ≠ state.current.length := of_decide_eq_true hother
  rw [length_keepRange hle, ByteSpan.len]
  omega

/-- Where the chunks are single bytes, every byte left out is a complement. -/
theorem eraseIdx_mem_complements {state : DdminState}
    (h : state.current.length ≤ state.splitCount) {i : Nat} (hi : i < state.current.length) :
    state.current.eraseIdx i ∈ state.complements := by
  have hsplit : state.splitCount = state.current.length := by
    simp only [DdminState.splitCount] at *
    omega
  rw [DdminState.complements, DdminState.chunks, hsplit, splitRanges_single (by omega),
    List.map_map, List.mem_map]
  exact ⟨i, List.mem_range.mpr hi, removeRange_single state.current i⟩

/-- A turn ends where no byte can be left out, or goes on with less to do. -/
theorem ddminTurn_total (ε : Type) {input : List UInt8} {state : DdminState}
    (h : Reduced holds input state.current ∧ 1 ≤ state.n) :
    (∃ value, ddminTurn (total ε holds) state = .ok (.stop value)
      ∧ Reduced holds input value.1 ∧ OneMinimal holds value.1)
    ∨ ∃ next, ddminTurn (total ε holds) state = .ok (.next next)
        ∧ (Reduced holds input next.current ∧ 1 ≤ next.n)
        ∧ ddminMeasure next < ddminMeasure state := by
  obtain ⟨hcurrent, hn⟩ := h
  unfold ddminTurn
  by_cases hnil : state.current = []
  · left
    rw [if_pos hnil]
    refine ⟨_, rfl, hcurrent, ?_⟩
    simp [OneMinimal, hnil]
  rw [if_neg hnil]
  obtain ⟨runs₁, hcomplements⟩ := tryCandidates_total ε holds state.complements state.predicateRuns
  rw [hcomplements]
  cases hfound : state.complements.find? holds with
  | some candidate =>
      right
      obtain ⟨hpart, hshort⟩ := mem_complements hnil (List.mem_of_find?_eq_some hfound)
      refine ⟨_, rfl, ⟨⟨List.find?_some hfound, hpart.trans hcurrent.part⟩, ?_⟩,
        ddminMeasure_lt hshort⟩
      dsimp only
      omega
  | none =>
      obtain ⟨runs₂, hparts⟩ := tryCandidates_total ε holds state.parts runs₁
      simp only [bind, Except.bind, hparts]
      cases hkept : state.parts.find? holds with
      | some candidate =>
          right
          obtain ⟨hpart, hshort⟩ := mem_parts hnil (List.mem_of_find?_eq_some hkept)
          exact ⟨_, rfl, ⟨⟨List.find?_some hkept, hpart.trans hcurrent.part⟩,
            (by omega : 1 ≤ 2)⟩, ddminMeasure_lt hshort⟩
      | none =>
          by_cases hfine : state.current.length ≤ state.splitCount
          · left
            simp only [if_pos hfine]
            refine ⟨_, rfl, hcurrent, fun i hi => ?_⟩
            have hreject := List.find?_eq_none.mp hfound _ (eraseIdx_mem_complements hfine hi)
            simpa using hreject
          · right
            simp only [if_neg hfine]
            refine ⟨_, rfl, ⟨hcurrent, ?_⟩, ?_⟩
            · simp only [DdminState.splitCount] at hfine ⊢
              omega
            · simp only [ddminMeasure, DdminState.splitCount] at hfine ⊢
              omega

/-- Whatever the predicate, as long as it is a function of the bytes that
accepts the input: the loop ends, and what it ends with is accepted, is part
of the input, and loses the property with any single byte. -/
theorem ddminBytes_oneMinimal (input : List UInt8) (h : holds input) :
    ∃ bound, ∀ fuel ≥ bound, ∃ out, ddminBytes (total ε holds) fuel input = some (.ok out)
      ∧ holds out.minimized ∧ out.minimized.Sublist input ∧ OneMinimal holds out.minimized := by
  refine ⟨ddminMeasure ⟨input, 2, 0⟩ + 1, fun fuel hfuel => ?_⟩
  have hstart : Reduced holds input (⟨input, 2, 0⟩ : DdminState).current
      ∧ 1 ≤ (⟨input, 2, 0⟩ : DdminState).n := ⟨⟨h, List.Sublist.refl input⟩, by simp⟩
  obtain ⟨value, hloop, hreduced, hminimal⟩ := loop_returns ddminMeasure
    (fun state hstate => ddminTurn_total ε hstate) hstart hfuel
  refine ⟨⟨input.length, value.1, value.2⟩, ?_, hreduced.accepted, hreduced.part, hminimal⟩
  rw [ddminBytes, hloop]
  rfl

end

/-- The bytes are kept that the predicate looks for, wherever they stand. -/
theorem ddminBytes_oneMinimal_pair :
    ∃ bound, ∀ fuel ≥ bound, ∃ out,
      ddminBytes (total Unit fun bytes => bytes.contains 1 && bytes.contains 4) fuel
        [0, 1, 2, 3, 4, 5] = some (.ok out)
      ∧ (out.minimized.contains 1 && out.minimized.contains 4)
      ∧ out.minimized.Sublist [0, 1, 2, 3, 4, 5]
      ∧ OneMinimal (fun bytes => bytes.contains 1 && bytes.contains 4) out.minimized :=
  ddminBytes_oneMinimal [0, 1, 2, 3, 4, 5] (by decide)

end GovFuzz.ReplayMin
