import GovFuzz.FuzzEngine.MutationInput
import GovFuzz.ReplayMin.Minimize
import Mathlib.Data.List.Perm.Subperm

/-!
# Replay and minimisation — typed values

`minimize_typed_values` of `crates/replay_min/src/minimize.rs`: the spans of
an input, from the first to the last, each replaced by the first value of its
kind that the predicate accepts.  A value of another length moves the spans
behind it, so the loop carries the distance between an index of the input and
the same index of the current bytes.
-/

namespace GovFuzz.ReplayMin

open GovFuzz.FuzzEngine (ByteSpan TypedSpan TypedValueKind Dictionary typedCandidates
  saturatingAdd)
open GovFuzz.Lib

variable {ε : Type}

/-! ## Spans -/

/-- The order of `sort_by_key` by start and end. -/
def spanLe (a b : TypedSpan) : Bool :=
  a.range.start < b.range.start
    || (a.range.start = b.range.start && a.range.stop ≤ b.range.stop)

/-- The last filter: no span that starts before the end of the one kept before. -/
def dropOverlapping : (previousEnd : Nat) → List TypedSpan → List TypedSpan
  | _, [] => []
  | previousEnd, span :: spans =>
      if span.range.start < previousEnd then dropOverlapping previousEnd spans
      else span :: dropOverlapping span.range.stop spans

def sortedNonOverlappingSpans (typedSpans : List TypedSpan) (inputLen : Nat) :
    List TypedSpan :=
  dropOverlapping 0 ((typedSpans.filter fun span => span.validFor inputLen).mergeSort spanLe)

/-- `usize::checked_add_signed`.  The indices of a list have no upper end. -/
def checkedAddSigned (value : Nat) (offset : Int) : Option Nat :=
  if value + offset < 0 then none else some (value + offset).toNat

def adjustedRange (range : ByteSpan) (offset : Int) (len : Nat) : Option ByteSpan := do
  let start ← checkedAddSigned range.start offset
  let stop ← checkedAddSigned range.stop offset
  if start < stop ∧ stop ≤ len then some ⟨start, stop⟩ else none

def replaceRange (input : List UInt8) (range : ByteSpan) (replacement : List UInt8) :
    List UInt8 :=
  input.take range.start ++ replacement ++ input.drop range.stop

/-! ## The loop -/

structure TypedValueMinimization where
  originalLen : Nat
  minimized : List UInt8
  attemptedReplacements : Nat
  acceptedReplacements : Nat
  deriving DecidableEq, Repr

/-- The variables of the loop. -/
structure TypedState where
  current : List UInt8
  offset : Int
  attempted : Nat
  accepted : Nat

def typedMinimizerCandidates (kind : TypedValueKind) : List (List UInt8) :=
  typedCandidates kind ⟨[], []⟩

/-- The first replacement that the predicate accepts, and the attempts so far. -/
def tryReplacements (predicate : List UInt8 → Except ε Bool) (current : List UInt8)
    (range : ByteSpan) :
    List (List UInt8) → (attempted : Nat) → Except ε (Option (List UInt8) × Nat)
  | [], attempted => .ok (none, attempted)
  | replacement :: replacements, attempted =>
      if replacement = keepRange current range then
        tryReplacements predicate current range replacements attempted
      else do
        let attempted := saturatingAdd attempted 1
        if ← predicate (replaceRange current range replacement) then
          return (some replacement, attempted)
        else tryReplacements predicate current range replacements attempted

/-- The body of the loop over the spans. -/
def minimizeSpan (predicate : List UInt8 → Except ε Bool) (span : TypedSpan)
    (state : TypedState) : Except ε TypedState :=
  match adjustedRange span.range state.offset state.current.length with
  | none => .ok state
  | some range => do
      let (replacement, attempted) ← tryReplacements predicate state.current range
        (typedMinimizerCandidates span.kind) state.attempted
      match replacement with
      | none => return { state with attempted }
      | some replacement =>
          return ⟨replaceRange state.current range replacement,
            state.offset + ((replacement.length : Int) - range.len), attempted,
            saturatingAdd state.accepted 1⟩

def minimizeSpans (predicate : List UInt8 → Except ε Bool) :
    List TypedSpan → TypedState → Except ε TypedState
  | [], state => .ok state
  | span :: spans, state => do
      let state ← minimizeSpan predicate span state
      minimizeSpans predicate spans state

def TypedState.start (input : List UInt8) : TypedState := ⟨input, 0, 0, 0⟩

def minimizeTypedValues (predicate : List UInt8 → Except ε Bool) (input : List UInt8)
    (typedSpans : List TypedSpan) : Except ε TypedValueMinimization := do
  let state ← minimizeSpans predicate (sortedNonOverlappingSpans typedSpans input.length)
    (.start input)
  return ⟨input.length, state.current, state.attempted, state.accepted⟩

/-! ## What an edited input is -/

/-- A span, and its new bytes where it has some. -/
structure SpanEdit where
  span : TypedSpan
  replacement : Option (List UInt8)

/-- The bytes that stand in the result for those of the span. -/
def SpanEdit.bytes (input : List UInt8) (edit : SpanEdit) : List UInt8 :=
  edit.replacement.getD (keepRange input edit.span.range)

/-- The input from `pos` on, with the edits made. -/
def edited (input : List UInt8) : (pos : Nat) → List SpanEdit → List UInt8
  | pos, [] => input.drop pos
  | pos, edit :: edits =>
      keepRange input ⟨pos, edit.span.range.start⟩ ++ edit.bytes input
        ++ edited input edit.span.range.stop edits

def SpanEdit.Allowed (edit : SpanEdit) : Prop :=
  ∀ bytes, edit.replacement = some bytes → bytes ∈ typedMinimizerCandidates edit.span.kind

/-- Spans with bytes in them, one after the other between `pos` and `len`. -/
def Apart (len : Nat) : (pos : Nat) → List TypedSpan → Prop
  | _, [] => True
  | pos, span :: spans =>
      pos ≤ span.range.start ∧ span.validFor len ∧ Apart len span.range.stop spans

theorem validFor_iff {span : TypedSpan} {len : Nat} :
    span.validFor len ↔ span.range.start < span.range.stop ∧ span.range.stop ≤ len := by
  simp [TypedSpan.validFor]

theorem Apart.forall {len pos : Nat} {spans : List TypedSpan} (h : Apart len pos spans) :
    ∀ span ∈ spans, pos ≤ span.range.start ∧ span.validFor len := by
  induction spans generalizing pos with
  | nil => simp
  | cons span spans ih =>
      obtain ⟨hpos, hvalid, hrest⟩ := h
      intro other hother
      rcases List.mem_cons.mp hother with rfl | hother
      · exact ⟨hpos, hvalid⟩
      · obtain ⟨hafter, hother⟩ := ih hrest other hother
        have hspan := (validFor_iff.mp hvalid).1
        exact ⟨by omega, hother⟩

theorem Apart.pairwise {len pos : Nat} {spans : List TypedSpan} (h : Apart len pos spans) :
    spans.Pairwise fun a b => a.range.stop ≤ b.range.start := by
  induction spans generalizing pos with
  | nil => exact List.Pairwise.nil
  | cons span spans ih =>
      obtain ⟨-, -, hrest⟩ := h
      exact List.pairwise_cons.mpr ⟨fun other hother => (hrest.forall other hother).1, ih hrest⟩

theorem dropOverlapping_sublist (previousEnd : Nat) (spans : List TypedSpan) :
    (dropOverlapping previousEnd spans).Sublist spans := by
  induction spans generalizing previousEnd with
  | nil => exact List.Sublist.refl _
  | cons span spans ih =>
      unfold dropOverlapping
      split
      · exact (ih previousEnd).cons span
      · exact (ih span.range.stop).cons_cons span

/-- Whatever the order, what the filter keeps lies one after the other. -/
theorem dropOverlapping_apart {len previousEnd : Nat} {spans : List TypedSpan}
    (h : ∀ span ∈ spans, span.validFor len) : Apart len previousEnd
      (dropOverlapping previousEnd spans) := by
  induction spans generalizing previousEnd with
  | nil => trivial
  | cons span spans ih =>
      have hrest : ∀ other ∈ spans, other.validFor len :=
        fun other hother => h other (List.mem_cons_of_mem span hother)
      unfold dropOverlapping
      split
      · exact ih hrest
      · exact ⟨by omega, h span List.mem_cons_self, ih hrest⟩

theorem sortedNonOverlappingSpans_apart (typedSpans : List TypedSpan) (inputLen : Nat) :
    Apart inputLen 0 (sortedNonOverlappingSpans typedSpans inputLen) := by
  apply dropOverlapping_apart
  intro span hspan
  rw [List.mem_mergeSort] at hspan
  exact (List.mem_filter.mp hspan).2

theorem sortedNonOverlappingSpans_subperm (typedSpans : List TypedSpan) (inputLen : Nat) :
    (sortedNonOverlappingSpans typedSpans inputLen).Subperm typedSpans := by
  have hsort := List.mergeSort_perm (typedSpans.filter fun span => span.validFor inputLen) spanLe
  have hkept := dropOverlapping_sublist 0
    ((typedSpans.filter fun span => span.validFor inputLen).mergeSort spanLe)
  exact (hkept.subperm.trans hsort.subperm).trans List.filter_sublist.subperm

/-! ## One span -/

section

variable {holds : List UInt8 → Bool} {input front : List UInt8} {pos : Nat}
  {state : TypedState} {span : TypedSpan}

theorem tryReplacements_total (ε : Type) (holds : List UInt8 → Bool) (current : List UInt8)
    (range : ByteSpan) (replacements : List (List UInt8)) (attempted : Nat) :
    ∃ attempts, tryReplacements (total ε holds) current range replacements attempted
      = .ok (replacements.find? fun replacement =>
          replacement ≠ keepRange current range && holds (replaceRange current range replacement),
        attempts) := by
  induction replacements generalizing attempted with
  | nil => exact ⟨attempted, rfl⟩
  | cons replacement replacements ih =>
      unfold tryReplacements
      by_cases hsame : replacement = keepRange current range
      · simpa [hsame] using ih attempted
      · obtain ⟨attempts, hattempts⟩ := ih (saturatingAdd attempted 1)
        cases hholds : holds (replaceRange current range replacement) with
        | true => exact ⟨saturatingAdd attempted 1, by
            simp [total, hsame, hholds, bind, Except.bind, pure, Except.pure]⟩
        | false => exact ⟨attempts, by
            simpa [total, hsame, hholds, bind, Except.bind] using hattempts⟩

theorem keepRange_append_drop {start : Nat} (h : pos ≤ start) (h' : start ≤ input.length) :
    keepRange input ⟨pos, start⟩ ++ input.drop start = input.drop pos := by
  have hlen : pos ≤ (input.take start).length := by
    rw [List.length_take]
    omega
  rw [keepRange, ← List.drop_append_of_le_length hlen, List.take_append_drop]

theorem replaceRange_append {before value after replacement : List UInt8} {start stop : Nat}
    (hstart : start = before.length) (hstop : stop = before.length + value.length) :
    replaceRange (before ++ value ++ after) ⟨start, stop⟩ replacement
      = before ++ replacement ++ after := by
  subst hstart hstop
  rw [replaceRange, ← List.length_append, List.drop_left, List.append_assoc before value,
    List.take_left]

/-- The bytes before `pos` are done with and have become `front`; those from
`pos` on are untouched. -/
structure DoneTo (input : List UInt8) (pos : Nat) (front : List UInt8) (state : TypedState) :
    Prop where
  current : state.current = front ++ input.drop pos
  offset : state.offset = (front.length : Int) - pos
  inside : pos ≤ input.length

theorem DoneTo.start (input : List UInt8) : DoneTo input 0 [] (.start input) :=
  ⟨rfl, rfl, Nat.zero_le _⟩

/-- The running offset takes a span to where its bytes stand now. -/
theorem DoneTo.adjustedRange (h : DoneTo input pos front state) (hpos : pos ≤ span.range.start)
    (hvalid : span.validFor input.length) :
    adjustedRange span.range state.offset state.current.length
      = some ⟨front.length + (span.range.start - pos), front.length + (span.range.stop - pos)⟩ := by
  obtain ⟨hspan, hlen⟩ := validFor_iff.mp hvalid
  have hstart : checkedAddSigned span.range.start state.offset
      = some (front.length + (span.range.start - pos)) := by
    rw [checkedAddSigned, if_neg (by rw [h.offset]; omega), h.offset]
    congr 1
    omega
  have hstop : checkedAddSigned span.range.stop state.offset
      = some (front.length + (span.range.stop - pos)) := by
    rw [checkedAddSigned, if_neg (by rw [h.offset]; omega), h.offset]
    congr 1
    omega
  have hcurrent : state.current.length = front.length + (input.length - pos) := by
    rw [h.current, List.length_append, List.length_drop]
  simp only [ReplayMin.adjustedRange, hstart, hstop, Option.bind_eq_bind, Option.bind_some]
  rw [if_pos (by omega)]

/-- The current bytes, cut at the span. -/
theorem DoneTo.current_eq (h : DoneTo input pos front state) (hpos : pos ≤ span.range.start)
    (hvalid : span.validFor input.length) :
    state.current = front ++ keepRange input ⟨pos, span.range.start⟩
      ++ keepRange input span.range ++ input.drop span.range.stop := by
  obtain ⟨hspan, hlen⟩ := validFor_iff.mp hvalid
  rw [List.append_assoc, keepRange_append_drop hspan.le hlen, List.append_assoc,
    keepRange_append_drop hpos (by omega), h.current]

/-- A span is never skipped.  Its body leaves the bytes or puts one value of
its kind in their place, and then everything to the end of the span is done. -/
theorem minimizeSpan_doneTo (ε : Type) (h : DoneTo input pos front state)
    (hpos : pos ≤ span.range.start) (hvalid : span.validFor input.length)
    (hholds : holds state.current) :
    ∃ (edit : SpanEdit) (next : TypedState), minimizeSpan (total ε holds) span state = .ok next
      ∧ edit.span = span ∧ edit.Allowed
      ∧ DoneTo input span.range.stop
          (front ++ keepRange input ⟨pos, span.range.start⟩ ++ edit.bytes input) next
      ∧ holds next.current
      ∧ next.accepted = if edit.replacement.isSome then saturatingAdd state.accepted 1
          else state.accepted := by
  obtain ⟨hspan, hlen⟩ := validFor_iff.mp hvalid
  have hgap : (keepRange input ⟨pos, span.range.start⟩).length = span.range.start - pos :=
    length_keepRange (by dsimp only; omega)
  have hvalue : (keepRange input span.range).length = span.range.stop - span.range.start :=
    length_keepRange hlen
  have hcurrent := h.current_eq hpos hvalid
  have hoffset := h.offset
  unfold minimizeSpan
  rw [h.adjustedRange hpos hvalid]
  dsimp only
  obtain ⟨attempts, htry⟩ := tryReplacements_total ε holds state.current
    ⟨front.length + (span.range.start - pos), front.length + (span.range.stop - pos)⟩
    (typedMinimizerCandidates span.kind) state.attempted
  rw [htry]
  generalize hfound : (typedMinimizerCandidates span.kind).find? _ = found
  cases found with
  | none =>
      -- no candidate keeps the finding: the span stays
      refine ⟨⟨span, none⟩, { state with attempted := attempts }, rfl, rfl, nofun, ?_, hholds, rfl⟩
      constructor
      · exact hcurrent
      · simp only [SpanEdit.bytes, Option.getD_none, List.length_append, hgap, hvalue]
        omega
      · exact hlen
  | some replacement =>
      -- the first candidate that keeps it
      have hreplaced : replaceRange state.current
          ⟨front.length + (span.range.start - pos), front.length + (span.range.stop - pos)⟩
          replacement = front ++ keepRange input ⟨pos, span.range.start⟩ ++ replacement
            ++ input.drop span.range.stop := by
        rw [hcurrent]
        apply replaceRange_append
        · rw [List.length_append, hgap]
        · rw [List.length_append, hgap, hvalue]
          omega
      have haccept := List.find?_some hfound
      rw [Bool.and_eq_true] at haccept
      refine ⟨⟨span, some replacement⟩, _, rfl, rfl, ?_, ?_, haccept.2, rfl⟩
      · rintro bytes ⟨⟩
        exact List.mem_of_find?_eq_some hfound
      · constructor
        · exact hreplaced
        · simp only [SpanEdit.bytes, Option.getD_some, List.length_append, hgap, ByteSpan.len]
          omega
        · exact hlen

/-! ## All spans -/

/-- The run over spans that lie apart: one edit for each. -/
theorem minimizeSpans_doneTo (ε : Type) {spans : List TypedSpan}
    (h : DoneTo input pos front state) (hapart : Apart input.length pos spans)
    (hholds : holds state.current) :
    ∃ (edits : List SpanEdit) (next : TypedState),
      minimizeSpans (total ε holds) spans state = .ok next
      ∧ edits.map SpanEdit.span = spans ∧ (∀ edit ∈ edits, edit.Allowed)
      ∧ next.current = front ++ edited input pos edits ∧ holds next.current
      ∧ (state.accepted + spans.length < usizeSize →
          next.accepted = state.accepted + edits.countP fun edit => edit.replacement.isSome) := by
  induction spans generalizing pos front state with
  | nil => exact ⟨[], state, rfl, rfl, nofun, h.current, hholds, fun _ => rfl⟩
  | cons span spans ih =>
      obtain ⟨hpos, hvalid, hrest⟩ := hapart
      obtain ⟨edit, middle, hstep, hspan, hallowed, hdone, hmiddle, haccepted⟩ :=
        minimizeSpan_doneTo ε h hpos hvalid hholds
      obtain ⟨edits, next, hrun, hspans, halloweds, hcurrent, hnext, hcount⟩ :=
        ih hdone hrest hmiddle
      refine ⟨edit :: edits, next, ?_, ?_, ?_, ?_, hnext, ?_⟩
      · simpa [minimizeSpans, hstep, bind, Except.bind] using hrun
      · rw [List.map_cons, hspan, hspans]
      · intro other hother
        rcases List.mem_cons.mp hother with rfl | hother
        · exact hallowed
        · exact halloweds other hother
      · simp only [hcurrent, edited, hspan, List.append_assoc]
      · -- at most one for each span, so the counter is below the last word
        intro hbound
        rw [List.length_cons] at hbound
        rw [List.countP_cons]
        cases hreplaced : edit.replacement.isSome with
        | false =>
            simp only [hreplaced, Bool.false_eq_true, if_false] at haccepted ⊢
            rw [hcount (by omega)]
            omega
        | true =>
            simp only [hreplaced, if_true, saturatingAdd] at haccepted ⊢
            rw [hcount (by omega)]
            omega

/-- The spans before one never make the loop pass over it. -/
theorem minimizeSpans_reaches (ε : Type) {before after : List TypedSpan}
    (h : DoneTo input pos front state)
    (hapart : Apart input.length pos (before ++ span :: after)) (hholds : holds state.current) :
    ∃ next : TypedState, minimizeSpans (total ε holds) before state = .ok next
      ∧ (adjustedRange span.range next.offset next.current.length).isSome := by
  induction before generalizing pos front state with
  | nil =>
      obtain ⟨hpos, hvalid, -⟩ := hapart
      refine ⟨state, rfl, ?_⟩
      rw [h.adjustedRange hpos hvalid]
      rfl
  | cons first before ih =>
      obtain ⟨hpos, hvalid, hrest⟩ := hapart
      obtain ⟨edit, middle, hstep, -, -, hdone, hmiddle, -⟩ :=
        minimizeSpan_doneTo ε h hpos hvalid hholds
      obtain ⟨next, hrun, hreached⟩ := ih hdone hrest hmiddle
      refine ⟨next, ?_, hreached⟩
      simpa [minimizeSpans, hstep, bind, Except.bind] using hrun

end

/-- What the result is: the input with some of the spans of `kept` replaced by
a value of their kind, and nothing else changed.  The list of spans is a
slice: its length is a word. -/
theorem minimizeTypedValues_edits {holds : List UInt8 → Bool} (input : List UInt8)
    (typedSpans : List TypedSpan) (hlen : typedSpans.length < usizeSize) (h : holds input) :
    ∃ (out : TypedValueMinimization) (edits : List SpanEdit) (kept : List TypedSpan),
      minimizeTypedValues (total ε holds) input typedSpans = .ok out ∧ holds out.minimized
      ∧ kept = sortedNonOverlappingSpans typedSpans input.length ∧ kept.Subperm typedSpans
      ∧ (∀ span ∈ kept, span.validFor input.length)
      ∧ (kept.Pairwise fun a b => a.range.stop ≤ b.range.start)
      ∧ edits.map SpanEdit.span = kept ∧ (∀ edit ∈ edits, edit.Allowed)
      ∧ out.minimized = edited input 0 edits
      ∧ out.acceptedReplacements = edits.countP (fun edit => edit.replacement.isSome)
      ∧ ∀ before span after, kept = before ++ span :: after →
          ∃ state : TypedState, minimizeSpans (total ε holds) before (.start input) = .ok state
            ∧ (adjustedRange span.range state.offset state.current.length).isSome := by
  have hapart := sortedNonOverlappingSpans_apart typedSpans input.length
  have hsubperm := sortedNonOverlappingSpans_subperm typedSpans input.length
  obtain ⟨edits, last, hrun, hspans, hallowed, hcurrent, hlast, hcount⟩ :=
    minimizeSpans_doneTo ε (DoneTo.start input) hapart h
  refine ⟨⟨input.length, last.current, last.attempted, last.accepted⟩, edits, _, ?_, hlast, rfl,
    hsubperm, fun span hspan => (hapart.forall span hspan).2, hapart.pairwise, hspans, hallowed,
    hcurrent, ?_, ?_⟩
  · rw [minimizeTypedValues, hrun]
    rfl
  · have hshort := hsubperm.length_le
    have hbound : (TypedState.start input).accepted
        + (sortedNonOverlappingSpans typedSpans input.length).length < usizeSize := by
      simp only [TypedState.start]
      omega
    have hzero : (TypedState.start input).accepted = 0 := rfl
    rw [hcount hbound, hzero, Nat.zero_add]
  · intro before span after hkept
    rw [hkept] at hapart
    exact minimizeSpans_reaches ε (DoneTo.start input) hapart h

/-- Bytes that shrink to none move the flag behind them; the span that overlaps
them and the empty one are left out. -/
theorem minimizeTypedValues_edits_shift :
    ∃ (out : TypedValueMinimization) (edits : List SpanEdit) (kept : List TypedSpan),
      minimizeTypedValues (total Unit fun bytes => bytes.contains 9) [7, 7, 7, 5, 9]
        [⟨⟨3, 4⟩, .boolean⟩, ⟨⟨0, 3⟩, .bytes⟩, ⟨⟨2, 4⟩, .string⟩, ⟨⟨4, 4⟩, .boolean⟩] = .ok out
      ∧ out.minimized.contains 9
      ∧ kept = sortedNonOverlappingSpans
        [⟨⟨3, 4⟩, .boolean⟩, ⟨⟨0, 3⟩, .bytes⟩, ⟨⟨2, 4⟩, .string⟩, ⟨⟨4, 4⟩, .boolean⟩] 5
      ∧ kept.Subperm
        [⟨⟨3, 4⟩, .boolean⟩, ⟨⟨0, 3⟩, .bytes⟩, ⟨⟨2, 4⟩, .string⟩, ⟨⟨4, 4⟩, .boolean⟩]
      ∧ (∀ span ∈ kept, span.validFor 5)
      ∧ (kept.Pairwise fun a b => a.range.stop ≤ b.range.start)
      ∧ edits.map SpanEdit.span = kept ∧ (∀ edit ∈ edits, edit.Allowed)
      ∧ out.minimized = edited [7, 7, 7, 5, 9] 0 edits
      ∧ out.acceptedReplacements = edits.countP (fun edit => edit.replacement.isSome)
      ∧ ∀ before span after, kept = before ++ span :: after → ∃ state : TypedState,
          minimizeSpans (total Unit fun bytes => bytes.contains 9) before
            (.start [7, 7, 7, 5, 9]) = .ok state
          ∧ (adjustedRange span.range state.offset state.current.length).isSome :=
  minimizeTypedValues_edits [7, 7, 7, 5, 9]
    [⟨⟨3, 4⟩, .boolean⟩, ⟨⟨0, 3⟩, .bytes⟩, ⟨⟨2, 4⟩, .string⟩, ⟨⟨4, 4⟩, .boolean⟩]
    (by decide) (by decide)

end GovFuzz.ReplayMin
