import GovFuzz.FuzzEngine.Mutator
import GovFuzz.Lib.Except

/-!
# Fuzz engine — what a mutation does to an operation sequence

`validate_for_input` of `crates/fuzz_engine/builtin/src/mutator.rs`, and the
four edits that the mutator of operation sequences makes of an input whose
layout is valid: another operation for a step, a step copied, a step dropped,
two steps exchanged.  The step count stands before the steps, so that an edit
behind it leaves it alone and rewriting it leaves the steps alone.
-/

namespace GovFuzz.FuzzEngine

open GovFuzz.Lib

/-! ## Validation -/

inductive OperationSequenceLayoutError
  | invalidStepBounds (minSteps maxSteps : Nat)
  | emptyOperationSet
  | invalidStepCountRange (range : ByteSpan)
  | invalidStepSpan (index : Nat) (range opIndexRange : ByteSpan)
  | overlappingStepSpan (previous current : Nat)
  | stepCountMismatch (decoded actual : Nat)
  | invalidOperationSelector (index : Nat) (range : ByteSpan)
  deriving DecidableEq

/-- The loop over the steps, from `index` on. -/
def validateSteps (bytes : List UInt8) (operationCount : Nat) :
    (index previousEnd : Nat) → List OperationStepSpan →
      Except OperationSequenceLayoutError Unit
  | _, _, [] => .ok ()
  | index, previousEnd, step :: steps =>
      if !step.validFor bytes.length then
        .error (.invalidStepSpan index step.range step.opIndexRange)
      else if step.range.start < previousEnd then
        .error (.overlappingStepSpan (index - 1) index)
      else
        match decodeBoundedRange bytes step.opIndexRange 0 (operationCount - 1) with
        | none => .error (.invalidOperationSelector index step.opIndexRange)
        | some _ => validateSteps bytes operationCount (index + 1) step.range.stop steps

namespace OperationSequenceLayout

/-- The step count, where the layout has a field for it. -/
def validateStepCount (layout : OperationSequenceLayout) (bytes : List UInt8) :
    Except OperationSequenceLayoutError (Option Nat) :=
  match layout.stepCountRange with
  | none => .ok none
  | some range =>
      match decodeBoundedRange bytes range layout.minSteps layout.maxSteps with
      | none => .error (.invalidStepCountRange range)
      | some count => .ok (some count)

/-- `validate_for_input`, for bounds that do not span all of `usize`. -/
def validateForInput (layout : OperationSequenceLayout) (bytes : List UInt8) :
    Except OperationSequenceLayoutError Unit :=
  if layout.minSteps > layout.maxSteps then
    .error (.invalidStepBounds layout.minSteps layout.maxSteps)
  else if layout.operationCount = 0 then .error .emptyOperationSet
  else do
    let decodedStepCount ← layout.validateStepCount bytes
    validateSteps bytes layout.operationCount 0 0 layout.steps
    match decodedStepCount with
    | none => .ok ()
    | some decoded =>
        if decoded ≠ layout.steps.length then
          .error (.stepCountMismatch decoded layout.steps.length)
        else .ok ()

end OperationSequenceLayout

section
variable {bytes : List UInt8} {operationCount index previousEnd : Nat}
  {first : OperationStepSpan} {steps : List OperationStepSpan}

/-- What the loop has checked of its first step, and how it goes on. -/
theorem validateSteps_cons
    (h : validateSteps bytes operationCount index previousEnd (first :: steps) = .ok ()) :
    previousEnd ≤ first.range.start ∧ first.validFor bytes.length
      ∧ (∃ op, decodeBoundedRange bytes first.opIndexRange 0 (operationCount - 1) = some op)
      ∧ validateSteps bytes operationCount (index + 1) first.range.stop steps = .ok () := by
  unfold validateSteps at h
  by_cases hvalid : first.validFor bytes.length
  swap
  · simp [hvalid] at h
  by_cases hoverlap : first.range.start < previousEnd
  · simp [hvalid, hoverlap] at h
  simp only [hvalid, hoverlap, Bool.not_true, Bool.false_eq_true, if_false] at h
  cases hop : decodeBoundedRange bytes first.opIndexRange 0 (operationCount - 1) with
  | none => simp [hop] at h
  | some op =>
      simp only [hop] at h
      exact ⟨Nat.le_of_not_lt hoverlap, hvalid, ⟨op, rfl⟩, h⟩

theorem validateSteps_ok
    (h : validateSteps bytes operationCount index previousEnd steps = .ok ()) :
    ∀ step ∈ steps, previousEnd ≤ step.range.start
      ∧ ∃ op, decodeBoundedRange bytes step.opIndexRange 0 (operationCount - 1) = some op := by
  induction steps generalizing index previousEnd with
  | nil => simp
  | cons first steps ih =>
      obtain ⟨hbehind, hvalid, hop, hrest⟩ := validateSteps_cons h
      intro step hstep
      rcases List.mem_cons.mp hstep with rfl | hstep
      · exact ⟨hbehind, hop⟩
      · obtain ⟨hstart, hop⟩ := ih hrest step hstep
        have hfirst := (first.range_of_validFor hvalid).1
        exact ⟨by omega, hop⟩

end

/-- What the edits need of a valid layout: a count field before the steps that
holds a count, and steps inside the bytes that select an operation. -/
structure CountedSteps (layout : OperationSequenceLayout) (range : ByteSpan) (count : Nat)
    (bytes : List UInt8) : Prop where
  field : layout.stepCountRange = some range
  maxSteps : layout.maxSteps < 2 ^ 32
  operationCount : layout.operationCount < 2 ^ 32
  count : decodeBoundedRange bytes range layout.minSteps layout.maxSteps = some count
  behind : ∀ step ∈ layout.steps, range.stop ≤ step.range.start
  selects : ∀ step ∈ layout.steps, ∃ op,
    decodeBoundedRange bytes step.opIndexRange 0 (layout.operationCount - 1) = some op

/-- A layout that is valid for the input counts its steps. -/
theorem validateForInput_ok {layout : OperationSequenceLayout} {bytes : List UInt8}
    {range : ByteSpan} (h : layout.validateForInput bytes = .ok ())
    (hfield : layout.stepCountRange = some range)
    (hfirst : ∀ first, layout.steps.head? = some first → range.stop ≤ first.range.start)
    (hmax : layout.maxSteps < 2 ^ 32) (hops : layout.operationCount < 2 ^ 32) :
    ∃ count, CountedSteps layout range count bytes := by
  unfold OperationSequenceLayout.validateForInput at h
  by_cases hbounds : layout.minSteps > layout.maxSteps
  · simp [hbounds] at h
  by_cases hempty : layout.operationCount = 0
  · simp [hbounds, hempty] at h
  rw [if_neg hbounds, if_neg hempty] at h
  obtain ⟨decoded, hdecoded, h⟩ := bind_eq_ok.mp h
  obtain ⟨⟨⟩, hsteps, -⟩ := bind_eq_ok.mp h
  cases hcount : decodeBoundedRange bytes range layout.minSteps layout.maxSteps with
  | none => simp [OperationSequenceLayout.validateStepCount, hfield, hcount] at hdecoded
  | some count =>
      refine ⟨count, hfield, hmax, hops, hcount, ?_, fun step hstep =>
        (validateSteps_ok hsteps step hstep).2⟩
      cases hlayout : layout.steps with
      | nil => simp
      | cons first steps =>
          -- the steps are in order, so the first one is the nearest
          rw [hlayout] at hsteps hfirst
          have hnear := hfirst first rfl
          obtain ⟨-, hvalid, -, hrest⟩ := validateSteps_cons hsteps
          have hlong := (first.range_of_validFor hvalid).1
          intro step hstep
          rcases List.mem_cons.mp hstep with rfl | hstep
          · exact hnear
          · have hbehind := (validateSteps_ok hrest step hstep).1
            omega

/-! ## Edits -/

def sliceOf (bytes : List UInt8) (range : ByteSpan) : List UInt8 :=
  (bytes.take range.stop).drop range.start

namespace OperationSequenceLayout

section
variable (layout : OperationSequenceLayout) (range : ByteSpan) (count : Nat)
  (before after : List UInt8)

/-- One step selects another operation, and nothing else has changed. -/
def SelectorChanged : Prop :=
  ∃ step ∈ layout.steps, AgreeOutside step.opIndexRange before after ∧ ∃ old new,
    decodeBoundedRange before step.opIndexRange 0 (layout.operationCount - 1) = some old
      ∧ decodeBoundedRange after step.opIndexRange 0 (layout.operationCount - 1) = some new
      ∧ new ≠ old ∧ new < layout.operationCount

/-- A copy of a step stands where a step starts or ends, behind the count. -/
def StepInserted : Prop :=
  ∃ step ∈ layout.steps, ∃ position,
    (∃ other ∈ layout.steps, position = other.range.start ∨ position = other.range.stop)
      ∧ range.stop ≤ position
      ∧ AgreeOutside range
        (before.take position ++ sliceOf before step.range ++ before.drop position) after

def StepRemoved : Prop :=
  ∃ step ∈ layout.steps, range.stop ≤ step.range.start
    ∧ AgreeOutside range (before.take step.range.start ++ before.drop step.range.stop) after

def StepsSwapped : Prop :=
  ∃ left ∈ layout.steps, ∃ right ∈ layout.steps, left.range.stop ≤ right.range.start
    ∧ after = before.take left.range.start ++ sliceOf before right.range
      ++ sliceOf before ⟨left.range.stop, right.range.start⟩ ++ sliceOf before left.range
      ++ before.drop right.range.stop

/-- The count that is read from the bytes. -/
def Counts (steps : Nat) (bytes : List UInt8) : Prop :=
  decodeBoundedRange bytes range layout.minSteps layout.maxSteps = some steps

/-- What an action has made of the bytes, with the step count. -/
def Edited : OperationSequenceAction → Prop
  | .changeOp => layout.SelectorChanged before after ∧ layout.Counts range count after
  | .insert =>
      layout.StepInserted range before after ∧ layout.Counts range (count + 1) after
        ∧ layout.minSteps ≤ count + 1 ∧ count + 1 ≤ layout.maxSteps
  | .remove =>
      layout.StepRemoved range before after ∧ ∃ fewer, fewer + 1 = count
        ∧ layout.Counts range fewer after ∧ layout.minSteps ≤ fewer ∧ fewer ≤ layout.maxSteps
  | .swap => layout.StepsSwapped before after ∧ layout.Counts range count after

end

end OperationSequenceLayout

/-! ## Bounded values in a run -/

section
variable {bytes : List UInt8} {range : ByteSpan} {min max value : Nat}

theorem decodeBoundedRangeChecked_exact (h : max < 2 ^ 32) :
    Op.Safe (fun decoded => decodeBoundedRange bytes range min max = some decoded)
      (decodeBoundedRangeChecked bytes range min max) := by
  intro rng
  have hspan : max - min + 1 < usizeSize := by
    have hword : usizeSize = 2 ^ 64 := rfl
    omega
  rw [exec_decodeBoundedRangeChecked bytes range hspan]
  exact Op.Safe.ofOption (fun _ hdecoded => hdecoded) rng

theorem optional_decodeBoundedRangeChecked (h : max < 2 ^ 32) :
    Op.Safe (fun decoded => decoded = decodeBoundedRange bytes range min max)
      (Op.optional (decodeBoundedRangeChecked bytes range min max)) := by
  intro rng
  have hspan : max - min + 1 < usizeSize := by
    have hword : usizeSize = 2 ^ 64 := rfl
    omega
  have hexec := exec_decodeBoundedRangeChecked bytes range hspan rng
  have hoptional : Op.exec (Op.optional (decodeBoundedRangeChecked bytes range min max)) rng
      = (.ok (decodeBoundedRange bytes range min max), rng) := by
    rw [Op.exec_optional, hexec]
    cases decodeBoundedRange bytes range min max <;> rfl
  rw [hoptional]

theorem copyFromSlice_exact {replacement : List UInt8} {start stop : Nat}
    (hstart : start ≤ stop) (hstop : stop ≤ bytes.length)
    (hlen : replacement.length = stop - start) :
    Op.Safe (fun output => output = overwrite bytes start replacement)
      (copyFromSlice bytes start stop replacement) := by
  unfold copyFromSlice
  rw [if_pos ⟨hstart, hstop, hlen⟩]
  exact Op.Safe.pure rfl

theorem encodeBoundedRangeChecked_exact :
    Op.Safe (fun output => encodeBoundedRange bytes range min max value = some output)
      (encodeBoundedRangeChecked bytes range min max value) := by
  unfold encodeBoundedRangeChecked encodeBoundedRange
  refine Op.Safe.ite (fun _ => Op.Safe.missing) fun hrange => ?_
  rw [if_neg hrange]
  refine Op.Safe.ite (fun hlong => ?_) fun hshort => ?_
  · rw [if_pos hlong]
    unfold ByteSpan.len at hlong
    refine (Op.Safe.assign (by omega)).bind fun marked hmarked => ?_
    refine (Op.Safe.sub (by omega)).bind fun offset hoffset => ?_
    have hmarkedLen : marked.length = bytes.length := by rw [hmarked, List.length_set]
    refine (copyFromSlice_exact (by omega) (by omega) ?_).mono fun output houtput => ?_
    · rw [leBytes_length]
      omega
    · rw [houtput, hmarked, hoffset]
  · rw [if_neg hshort]
    refine (Op.Safe.ofOption fun _ hselector => hselector).bind fun selector hselector => ?_
    refine (Op.Safe.assign (by omega)).mono fun output houtput => ?_
    rw [hselector, houtput]
    rfl

end

namespace OperationSequenceLayout

variable {layout : OperationSequenceLayout} {bytes : List UInt8} {range : ByteSpan} {count : Nat}

theorem mem_validSteps {len : Nat} {step : OperationStepSpan} (h : step ∈ layout.validSteps len) :
    step ∈ layout.steps ∧ step.validFor len := by
  have hmem := mem_of_mem_dropOverlapping h
  rw [sortSteps, List.mem_mergeSort, List.mem_filter] at hmem
  exact hmem

/-! ## Another operation for a step -/

theorem alternativeOpIndices_exact (hops : layout.operationCount < 2 ^ 32)
    (step : OperationStepSpan) :
    Op.Safe (fun alternatives => ∀ op ∈ alternatives, op < layout.operationCount
        ∧ decodeBoundedRange bytes step.opIndexRange 0 (layout.operationCount - 1) ≠ some op)
      (layout.alternativeOpIndices bytes step) := by
  refine (optional_decodeBoundedRangeChecked (by omega)).bind fun current hcurrent => ?_
  refine Op.Safe.pure fun op hop => ?_
  obtain ⟨hop, -⟩ := List.mem_filter.mp hop
  obtain ⟨hop, hother⟩ := List.mem_filter.mp hop
  refine ⟨List.mem_range.mp hop, ?_⟩
  rw [← hcurrent]
  exact fun hsame => of_decide_eq_true hother hsame.symm

/-- A result of the change of a selector is another operation for one step. -/
theorem changeOperationSelector_edited (h : CountedSteps layout range count bytes) :
    Op.Safe (fun after => layout.Edited range count bytes after .changeOp)
      (layout.changeOperationSelector bytes) := by
  have hsteps : ∀ step ∈ layout.validSteps bytes.length,
      Op.Safe (fun kept => ∀ other ∈ kept, other = step) (do
        let changeable ← layout.hasAlternative bytes step
        pure (if changeable then [step] else []) : Mutation (List OperationStepSpan)) := by
    intro step _
    refine (layout.hasAlternative_safe bytes step).bind fun changeable _ => Op.Safe.pure ?_
    intro other hother
    cases changeable with
    | false => simp at hother
    | true => simpa using hother
  refine (Op.Safe.collect (Q := fun step => step ∈ layout.validSteps bytes.length)
    fun step hstep => (hsteps step hstep).mono ?_).bind fun steps hsteps => ?_
  · rintro kept hkept other hother
    rwa [hkept other hother]
  refine (choose_safe _).bind fun index _ => ?_
  refine (Op.Safe.ofOption fun _ hstep => hsteps _ (List.mem_of_getElem? hstep)).bind
    fun step hstep => ?_
  refine (alternativeOpIndices_exact h.operationCount step).bind fun alternatives hall => ?_
  refine (choose_safe _).bind fun index _ => ?_
  refine (Op.Safe.ofOption fun _ hop => hall _ (List.mem_of_getElem? hop)).bind fun op hop => ?_
  refine encodeBoundedRangeChecked_exact.mono fun after hafter => ?_
  obtain ⟨hmem, hvalid⟩ := mem_validSteps hstep
  obtain ⟨old, hold⟩ := h.selects step hmem
  have hagree := encodeBoundedRange_agree hafter
  have hinside : step.range.start ≤ step.opIndexRange.start := by
    simp only [OperationStepSpan.validFor, Bool.and_eq_true, decide_eq_true_eq] at hvalid
    exact hvalid.1.2
  have hbehind := h.behind step hmem
  refine ⟨⟨step, hmem, hagree, old, op, hold, decodeBoundedRange_encode hafter ?_, ?_, hop.1⟩, ?_⟩
  · have hops := h.operationCount
    omega
  · rintro rfl
    exact hop.2 hold
  · rw [Counts, decodeBoundedRange_congr (decodeBoundedRange_le h.count).2.2
      (hagree.take_eq (by omega))]
    exact h.count

/-! ## A step copied, a step dropped -/

theorem decodedStepCount_exact (h : CountedSteps layout range count bytes) :
    Op.Safe (fun decoded => decoded = count) (layout.decodedStepCount bytes) := by
  refine (Op.Safe.ofOption fun field hfield => ?_).bind (P := fun field => field = range)
    fun field hfield => ?_
  · exact Option.some.inj (hfield.symm.trans h.field)
  · subst hfield
    refine (decodeBoundedRangeChecked_exact h.maxSteps).mono fun decoded hdecoded => ?_
    exact Option.some.inj (hdecoded.symm.trans h.count)

theorem field_exact (h : CountedSteps layout range count bytes) :
    Op.Safe (fun field => field = range)
      (Op.ofOption layout.stepCountRange : Mutation ByteSpan) :=
  Op.Safe.ofOption fun _ hfield => Option.some.inj (hfield.symm.trans h.field)

theorem insertPosition_boundary {steps : List OperationStepSpan} {insertSlot : Nat}
    (hslot : insertSlot < steps.length + 1) :
    Op.Safe (fun position => ∃ other ∈ steps,
        position = other.range.start ∨ position = other.range.stop)
      (insertPosition steps insertSlot) := by
  unfold insertPosition
  refine Op.Safe.ite (fun _ => ?_) fun hinner => ?_
  · refine (Op.Safe.ofOption fun _ hlast => List.mem_of_getLast? hlast).bind fun last hlast => ?_
    exact Op.Safe.pure ⟨last, hlast, .inr rfl⟩
  · refine (Op.Safe.index (by omega)).bind fun step hstep => ?_
    exact Op.Safe.pure ⟨step, List.mem_of_getElem? hstep, .inl rfl⟩

/-- A result of the insertion is a copy of a step, counted. -/
theorem insertOperationStep_edited (h : CountedSteps layout range count bytes) (maxLen : Nat) :
    Op.Safe (fun after => layout.Edited range count bytes after .insert)
      (layout.insertOperationStep bytes maxLen) := by
  unfold insertOperationStep
  generalize hsteps : ((layout.validSteps bytes.length).filter fun step =>
    bytes.length + step.range.len ≤ maxLen) = steps
  have hvalid : ∀ step ∈ steps, step ∈ layout.steps ∧ step.validFor bytes.length := by
    intro step hstep
    rw [← hsteps, List.mem_filter] at hstep
    exact mem_validSteps hstep.1
  refine (decodedStepCount_exact h).bind fun decoded hdecoded => ?_
  subst hdecoded
  refine Op.Safe.ite (fun _ => Op.Safe.missing) fun hroom => ?_
  refine (choose_safe _).bind fun index _ => ?_
  refine (Op.Safe.ofOption fun _ hsource => List.mem_of_getElem? hsource).bind
    fun source hsource => ?_
  refine (choose_safe _).bind fun insertSlot hslot => ?_
  refine (insertPosition_boundary hslot).bind fun position hposition => ?_
  obtain ⟨other, hother, hboundary⟩ := hposition
  obtain ⟨hsourceMem, hsourceValid⟩ := hvalid source hsource
  obtain ⟨hotherMem, hotherValid⟩ := hvalid other hother
  obtain ⟨hsourceStart, hsourceStop⟩ := source.range_of_validFor hsourceValid
  obtain ⟨hotherStart, hotherStop⟩ := other.range_of_validFor hotherValid
  have hbehind := h.behind other hotherMem
  refine (Op.Safe.slice (Nat.zero_le _) (by omega)).bind fun front hfront => ?_
  refine (Op.Safe.slice hsourceStart.le hsourceStop).bind fun copied hcopied => ?_
  refine (Op.Safe.slice (by omega) le_rfl).bind fun back hback => ?_
  refine (field_exact h).bind fun field hfield => ?_
  subst hfield
  refine encodeBoundedRangeChecked_exact.mono fun after hafter => ?_
  have hmax := h.maxSteps
  obtain ⟨hmin', hmax', -, -⟩ := encodeBoundedRange_bounds hafter
  refine ⟨⟨source, hsourceMem, position, ⟨other, hotherMem, hboundary⟩, by omega, ?_⟩,
    decodeBoundedRange_encode hafter (by omega), hmin', hmax'⟩
  have hagree := encodeBoundedRange_agree hafter
  rwa [hfront, hcopied, hback, List.drop_zero, List.take_length] at hagree

/-- A result of the removal is the input without one step, counted. -/
theorem removeOperationStep_edited (h : CountedSteps layout range count bytes) :
    Op.Safe (fun after => layout.Edited range count bytes after .remove)
      (layout.removeOperationStep bytes) := by
  unfold removeOperationStep
  refine (decodedStepCount_exact h).bind fun decoded hdecoded => ?_
  subst hdecoded
  refine Op.Safe.ite (fun _ => Op.Safe.missing) fun hcount => ?_
  refine (choose_safe _).bind fun index _ => ?_
  refine (Op.Safe.ofOption fun _ hstep => mem_validSteps (List.mem_of_getElem? hstep)).bind
    fun step hstep => ?_
  obtain ⟨hmem, hvalid⟩ := hstep
  obtain ⟨hstart, hstop⟩ := step.range_of_validFor hvalid
  refine (Op.Safe.sub (by unfold ByteSpan.len; omega)).bind fun _ _ => ?_
  refine (Op.Safe.slice (Nat.zero_le _) (by omega)).bind fun front hfront => ?_
  refine (Op.Safe.slice hstop le_rfl).bind fun back hback => ?_
  refine (field_exact h).bind fun field hfield => ?_
  subst hfield
  refine (Op.Safe.sub (by omega)).bind fun fewer hfewer => ?_
  refine encodeBoundedRangeChecked_exact.mono fun after hafter => ?_
  have hmax := h.maxSteps
  obtain ⟨hmin', hmax', -, -⟩ := encodeBoundedRange_bounds hafter
  refine ⟨⟨step, hmem, h.behind step hmem, ?_⟩, fewer, by omega,
    decodeBoundedRange_encode hafter (by omega), hmin', hmax'⟩
  have hagree := encodeBoundedRange_agree hafter
  rwa [hfront, hback, List.drop_zero, List.take_length] at hagree

/-! ## Two steps exchanged -/

/-- A result of the swap is two steps exchanged, the count as before. -/
theorem swapOperationSteps_edited (h : CountedSteps layout range count bytes) :
    Op.Safe (fun after => layout.Edited range count bytes after .swap)
      (layout.swapOperationSteps bytes) := by
  unfold swapOperationSteps
  refine Op.Safe.ite (fun _ => Op.Safe.missing) fun htwo => ?_
  refine (choose_safe _).bind fun leftIndex hleft => ?_
  refine (Op.Safe.sub (by omega)).bind fun others hothers => ?_
  refine (choose_safe _).bind fun drawn hdrawn => ?_
  dsimp only
  generalize hright : (if drawn ≥ leftIndex then drawn + 1 else drawn) = rightIndex
  have hne : leftIndex ≠ rightIndex ∧
      rightIndex < (layout.validSteps bytes.length).length := by
    split at hright <;> omega
  refine (Op.Safe.index (by omega)).bind fun left hleftStep => ?_
  refine (Op.Safe.index (by omega)).bind fun right hrightStep => ?_
  have hbetween : left.range.stop ≤ right.range.start := by
    obtain ⟨hi, hli⟩ := List.getElem?_eq_some_iff.mp hleftStep
    obtain ⟨hj, hrj⟩ := List.getElem?_eq_some_iff.mp hrightStep
    have hordered := List.pairwise_iff_getElem.mp (layout.validSteps_ordered bytes.length)
      _ _ hi hj (by omega)
    rwa [hli, hrj] at hordered
  obtain ⟨hleftMem, hleftValid⟩ := mem_validSteps (List.mem_of_getElem? hleftStep)
  obtain ⟨hrightMem, hrightValid⟩ := mem_validSteps (List.mem_of_getElem? hrightStep)
  obtain ⟨hl, hl'⟩ := left.range_of_validFor hleftValid
  obtain ⟨hr, hr'⟩ := right.range_of_validFor hrightValid
  refine (Op.Safe.slice (Nat.zero_le _) (by omega)).bind fun front hfront => ?_
  refine (Op.Safe.slice hr.le hr').bind fun rightBytes hrightBytes => ?_
  refine (Op.Safe.slice hbetween (by omega)).bind fun between hbetweenBytes => ?_
  refine (Op.Safe.slice hl.le hl').bind fun leftBytes hleftBytes => ?_
  refine (Op.Safe.slice hr' le_rfl).bind fun back hback => ?_
  refine Op.Safe.pure ⟨⟨left, hleftMem, right, hrightMem, hbetween, ?_⟩, ?_⟩
  · rw [hfront, hrightBytes, hbetweenBytes, hleftBytes, hback, List.drop_zero, List.take_length]
    rfl
  · -- the count stands before the left step
    have hbehind := h.behind left hleftMem
    have htake : (front ++ rightBytes ++ between ++ leftBytes ++ back).take range.stop
        = bytes.take range.stop := by
      rw [hfront, List.drop_zero, List.append_assoc, List.append_assoc, List.append_assoc,
        List.take_append_of_le_length (by rw [List.length_take]; omega), List.take_take,
        Nat.min_eq_left hbehind]
    rw [Counts, decodeBoundedRange_congr (decodeBoundedRange_le h.count).2.2 htake]
    exact h.count

end OperationSequenceLayout

/-! ## The mutator -/

theorem runAction_edited {layout : OperationSequenceLayout} {bytes : List UInt8}
    {range : ByteSpan} {count : Nat} (h : CountedSteps layout range count bytes)
    (suite : MutatorSuite) (action : OperationSequenceAction) :
    Op.Safe (fun after => layout.Edited range count bytes after action)
      (suite.runAction bytes layout action) := by
  cases action with
  | changeOp => exact OperationSequenceLayout.changeOperationSelector_edited h
  | insert => exact OperationSequenceLayout.insertOperationStep_edited h suite.config.maxLen
  | remove => exact OperationSequenceLayout.removeOperationStep_edited h
  | swap => exact OperationSequenceLayout.swapOperationSteps_edited h

/-- A result is what one run of one action has made of the input. -/
theorem exec_operationSequence_eq_ok {suite : MutatorSuite} {bytes after : List UInt8}
    {layout : OperationSequenceLayout} {rng rng' : MutationRng}
    (h : Op.exec (suite.operationSequence bytes layout) rng = (.ok after, rng')) :
    ∃ action start, Op.exec (suite.runAction bytes layout action) start = (.ok after, rng') := by
  obtain ⟨actions, middle, -, hdrain⟩ := Op.exec_bind_eq_ok h
  obtain ⟨action, -, start, hattempt⟩ := Op.exec_drain_eq_ok hdrain
  refine ⟨action, start, ?_⟩
  obtain ⟨result, next, hoptional, hanswer⟩ := Op.exec_bind_eq_ok hattempt
  rw [Op.exec_optional] at hoptional
  obtain ⟨outcome, last, hrun⟩ : ∃ outcome last,
      Op.exec (suite.runAction bytes layout action) start = (outcome, last) := ⟨_, _, rfl⟩
  rw [hrun] at hoptional ⊢
  cases outcome with
  | error stop =>
      cases stop with
      | missing =>
          cases hoptional
          cases hanswer
      | panic kind => cases hoptional
  | ok made =>
      cases hoptional
      simp only at hanswer
      by_cases hchanged : made ≠ bytes
      · simp only [if_pos hchanged] at hanswer
        cases hanswer
        rfl
      · simp only [if_neg hchanged] at hanswer
        cases hanswer

/-- Every result of the mutator of operation sequences, for a layout that is
valid for the input and has its count field before the first step: one action
was run on the input, and it made one edit of its own kind. -/
theorem opSequence_edits (suite : MutatorSuite) (input : MutationInput)
    {layout : OperationSequenceLayout} {range : ByteSpan}
    (hlayout : input.operationSequence = some layout)
    (hvalid : layout.validateForInput input.bytes = .ok ())
    (hfield : layout.stepCountRange = some range)
    (hfirst : ∀ first, layout.steps.head? = some first → range.stop ≤ first.range.start)
    (hmax : layout.maxSteps < 2 ^ 32) (hops : layout.operationCount < 2 ^ 32)
    {rng rng' : MutationRng} {result : MutationResult}
    (h : Op.exec (suite.tryMutateWithKind input .opSequence) rng = (.ok result, rng')) :
    ∃ count, layout.Counts range count input.bytes ∧ ∃ action start,
      Op.exec (suite.runAction input.bytes layout action) start = (.ok result.bytes, rng')
        ∧ layout.Edited range count input.bytes result.bytes action := by
  obtain ⟨count, hcounted⟩ := validateForInput_ok hvalid hfield hfirst hmax hops
  obtain ⟨after, last, hbytes, hresult⟩ := Op.exec_bind_eq_ok h
  cases hresult
  obtain ⟨found, middle, hfound, hsequence⟩ := Op.exec_bind_eq_ok hbytes
  rw [hlayout] at hfound
  cases hfound
  obtain ⟨action, start, hrun⟩ := exec_operationSequence_eq_ok hsequence
  exact ⟨count, hcounted.count, action, start, hrun,
    (runAction_edited hcounted suite action).of_exec hrun⟩

/-- A count and one step of two bytes, its selector in front, and room for another. -/
def oneStepLayout : OperationSequenceLayout :=
  ⟨some ⟨0, 1⟩, 1, 3, 3, [⟨⟨1, 3⟩, ⟨1, 2⟩⟩]⟩

def oneStepInput : MutationInput where
  bytes := [0, 8, 9]
  peer := none
  dictionary := ⟨[], []⟩
  typedSpans := []
  operationSequence := some oneStepLayout
  cmplog := none
  grammar := none

theorem exec_oneStepInput :
    Op.exec (MutatorSuite.smallSuite.tryMutateWithKind oneStepInput .opSequence) ⟨7⟩
      = (.ok ⟨[8, 8, 9, 8, 9], .opSequence⟩,
        (Op.exec (MutatorSuite.smallSuite.tryMutateWithKind oneStepInput .opSequence) ⟨7⟩).2) :=
  Prod.ext (by with_unfolding_all rfl) rfl

/-- The step is copied and the count goes from 1 to 2. -/
theorem opSequence_edits_oneStep :
    oneStepLayout.Edited ⟨0, 1⟩ 1 [0, 8, 9] [8, 8, 9, 8, 9] .insert := by
  obtain ⟨count, hcount, action, start, -, hedited⟩ :=
    opSequence_edits MutatorSuite.smallSuite oneStepInput rfl (by decide) rfl
      (by rintro first ⟨⟩; decide) (by decide) (by decide) exec_oneStepInput
  obtain rfl : 1 = count := Option.some.inj (Eq.trans (by decide) hcount)
  cases action with
  | changeOp =>
      obtain ⟨⟨step, -, hagree, -⟩, -⟩ := hedited
      exact absurd hagree.length (by decide)
  | insert => exact hedited
  | remove =>
      obtain ⟨⟨step, hstep, -, hagree⟩, -⟩ := hedited
      rw [List.mem_singleton.mp hstep] at hagree
      exact absurd hagree.length (by decide)
  | swap =>
      obtain ⟨⟨left, hleft, right, hright, horder, -⟩, -⟩ := hedited
      rw [List.mem_singleton.mp hleft, List.mem_singleton.mp hright] at horder
      exact absurd horder (by decide)

end GovFuzz.FuzzEngine
