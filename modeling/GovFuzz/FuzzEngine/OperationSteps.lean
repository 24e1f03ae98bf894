import GovFuzz.FuzzEngine.MutationInput

/-!
# Fuzz engine — operation sequences

An operation sequence inside the input: a step count and a list of step
spans with their selector bytes.  The mutations change a selector, copy a
step, drop one or exchange two, and keep the encoded count in line.  Only
steps that lie inside the input and do not overlap are touched
(`valid_steps`), which is what keeps every slice in range.
-/

namespace GovFuzz.FuzzEngine

open GovFuzz.Lib

structure OperationStepSpan where
  range : ByteSpan
  opIndexRange : ByteSpan

def OperationStepSpan.validFor (step : OperationStepSpan) (len : Nat) : Bool :=
  step.range.start < step.range.stop && step.range.stop ≤ len &&
    step.opIndexRange.start < step.opIndexRange.stop &&
    step.opIndexRange.start ≥ step.range.start && step.opIndexRange.stop ≤ step.range.stop

theorem OperationStepSpan.range_of_validFor {step : OperationStepSpan} {len : Nat}
    (h : step.validFor len) : step.range.start < step.range.stop ∧ step.range.stop ≤ len := by
  simp only [validFor, Bool.and_eq_true, decide_eq_true_eq] at h
  exact ⟨h.1.1.1.1, h.1.1.1.2⟩

/-! ## Bounded values, with the checks of a run -/

/-- `bytes[start..stop].copy_from_slice(replacement)`. -/
def copyFromSlice (bytes : List UInt8) (start stop : Nat) (replacement : List UInt8) :
    Mutation (List UInt8) :=
  if start ≤ stop ∧ stop ≤ bytes.length ∧ replacement.length = stop - start then
    pure (overwrite bytes start replacement)
  else throw (.panic .index)

theorem copyFromSlice_safe {bytes replacement : List UInt8} {start stop : Nat}
    (hstart : start ≤ stop) (hstop : stop ≤ bytes.length)
    (hlen : replacement.length = stop - start) :
    Op.Safe (fun output => output.length = bytes.length)
      (copyFromSlice bytes start stop replacement) := by
  unfold copyFromSlice
  rw [if_pos ⟨hstart, hstop, hlen⟩]
  exact Op.Safe.pure (length_overwrite (by omega))

/-- `decode_bounded_range` as it runs: indices, the subtraction and the
remainder are checked.  `max - min + 1` wraps to zero when the bounds span
all of `usize`. -/
def decodeBoundedRangeChecked (bytes : List UInt8) (range : ByteSpan) (min max : Nat) :
    Mutation Nat :=
  if min > max ∨ range.start ≥ range.stop ∨ range.stop > bytes.length then throw .missing
  else if max ≤ min then pure min
  else do
    let selector ← Op.index bytes range.start
    if selector.toNat % 4 = 0 then pure (selectorBoundedValue selector min max)
    else if range.len < 5 then throw .missing
    else do
      let word ← Op.slice bytes (range.start + 1) (range.start + 5)
      let width ← Op.sub max min
      let offset ← Op.rem (leNat word) ((width + 1) % usizeSize)
      pure (min + offset)

def encodeBoundedRangeChecked (bytes : List UInt8) (range : ByteSpan) (min max value : Nat) :
    Mutation (List UInt8) :=
  if value < min ∨ value > max ∨ range.start ≥ range.stop ∨ range.stop > bytes.length then
    throw .missing
  else if range.len ≥ 5 then do
    let bytes ← Op.assign bytes range.start 1
    let offset ← Op.sub value min
    copyFromSlice bytes (range.start + 1) (range.start + 5) (leBytes 4 offset)
  else do
    let selector ← Op.ofOption (oneByteSelectorForValue min max value)
    Op.assign bytes range.start selector

/-- Unless the bounds span all of `usize`, a run decodes what the pure
function does and draws no random number. -/
theorem exec_decodeBoundedRangeChecked (bytes : List UInt8) (range : ByteSpan) {min max : Nat}
    (hspan : max - min + 1 < usizeSize) (rng : MutationRng) :
    Op.exec (decodeBoundedRangeChecked bytes range min max) rng =
      Op.exec (Op.ofOption (decodeBoundedRange bytes range min max)) rng := by
  unfold decodeBoundedRangeChecked decodeBoundedRange
  split
  next => rfl
  next hrange =>
  split
  next => rfl
  next hwide =>
    -- no check fails: the range is inside the input, and the span is no zero
    have hindex : (bytes[range.start]?) = some (bytes.getD range.start 0) := by
      rw [List.getD_eq_getElem?_getD, List.getElem?_eq_getElem (by omega)]
      rfl
    rw [Op.exec_bind_ok (a := bytes.getD range.start 0) (t := rng) (by
      rw [Op.index, hindex, Op.exec_pure])]
    dsimp only
    split
    next => rfl
    next =>
    split
    next => rfl
    next hlong =>
      have hword : Op.exec (Op.slice bytes (range.start + 1) (range.start + 5)) rng =
          (.ok ((bytes.drop (range.start + 1)).take 4), rng) := by
        unfold ByteSpan.len at hlong
        rw [Op.slice, if_pos (by omega), Op.exec_pure, List.drop_take,
          Nat.add_sub_add_left]
      have hwidth : Op.exec (Op.sub max min) rng = (.ok (max - min), rng) := by
        rw [Op.sub, if_pos (by omega), Op.exec_pure]
      rw [Op.exec_bind_ok hword, Op.exec_bind_ok hwidth, Nat.mod_eq_of_lt hspan,
        Op.exec_bind_ok (a := leNat ((bytes.drop (range.start + 1)).take 4) % (max - min + 1))
          (t := rng) (by rw [Op.rem, if_neg (Nat.succ_ne_zero _), Op.exec_pure])]
      rfl

theorem decodeBoundedRangeChecked_safe (bytes : List UInt8) (range : ByteSpan) (min max : Nat) :
    Op.Safe (fun _ => True) (decodeBoundedRangeChecked bytes range min max) := by
  unfold decodeBoundedRangeChecked
  refine Op.Safe.ite (fun _ => Op.Safe.missing) fun hrange => ?_
  refine Op.Safe.ite (fun _ => Op.Safe.pure trivial) fun hwide => ?_
  refine (Op.Safe.index (by omega)).bind fun selector _ => ?_
  refine Op.Safe.ite (fun _ => Op.Safe.pure trivial) fun _ => ?_
  refine Op.Safe.ite (fun _ => Op.Safe.missing) fun hlong => ?_
  unfold ByteSpan.len at hlong
  refine (Op.Safe.slice (by omega) (by omega)).bind fun word _ => ?_
  refine (Op.Safe.sub (by omega)).bind fun width _ => ?_
  exact (Op.Safe.rem _ _).bind fun offset _ => Op.Safe.pure trivial

theorem encodeBoundedRangeChecked_safe (bytes : List UInt8) (range : ByteSpan)
    (min max value : Nat) :
    Op.Safe (fun output => output.length = bytes.length)
      (encodeBoundedRangeChecked bytes range min max value) := by
  unfold encodeBoundedRangeChecked
  refine Op.Safe.ite (fun _ => Op.Safe.missing) fun hrange => ?_
  have hset : ∀ x, (bytes.set range.start x).length = bytes.length := fun x => List.length_set
  refine Op.Safe.ite (fun hlong => ?_) fun _ => ?_
  · unfold ByteSpan.len at hlong
    refine (Op.Safe.assign (by omega)).bind fun marked hmarked => ?_
    refine (Op.Safe.sub (by omega)).bind fun offset _ => ?_
    refine (copyFromSlice_safe (by omega) ?_ ?_).mono fun output houtput => ?_
    · rw [hmarked, hset]
      omega
    · rw [leBytes_length]
      omega
    · rw [houtput, hmarked, hset]
  · refine (Op.Safe.ofOption fun _ _ => trivial).bind fun selector _ => ?_
    refine (Op.Safe.assign (by omega)).mono fun output houtput => ?_
    rw [houtput, hset]

/-! ## Layouts -/

structure OperationSequenceLayout where
  stepCountRange : Option ByteSpan
  minSteps : Nat
  maxSteps : Nat
  operationCount : Nat
  steps : List OperationStepSpan

/-- `sort_by_key(|step| (step.range.start, step.range.end))`. -/
def sortSteps (steps : List OperationStepSpan) : List OperationStepSpan :=
  steps.mergeSort fun a b => a.range.start < b.range.start ||
    (a.range.start = b.range.start && a.range.stop ≤ b.range.stop)

/-- The last filter of `valid_steps`: steps that start inside an earlier one go. -/
def dropOverlapping : Nat → List OperationStepSpan → List OperationStepSpan
  | _, [] => []
  | previousEnd, step :: rest =>
      if step.range.start < previousEnd then dropOverlapping previousEnd rest
      else step :: dropOverlapping step.range.stop rest

namespace OperationSequenceLayout

def decodedStepCount (layout : OperationSequenceLayout) (bytes : List UInt8) : Mutation Nat := do
  let range ← Op.ofOption layout.stepCountRange
  decodeBoundedRangeChecked bytes range layout.minSteps layout.maxSteps

def validSteps (layout : OperationSequenceLayout) (len : Nat) : List OperationStepSpan :=
  dropOverlapping 0 (sortSteps (layout.steps.filter fun step => step.validFor len))

end OperationSequenceLayout

theorem mem_of_mem_dropOverlapping {steps : List OperationStepSpan} {previousEnd : Nat}
    {step : OperationStepSpan} (h : step ∈ dropOverlapping previousEnd steps) : step ∈ steps := by
  induction steps generalizing previousEnd with
  | nil => exact h
  | cons first rest ih =>
      unfold dropOverlapping at h
      split at h
      next => exact List.mem_cons_of_mem _ (ih h)
      next =>
        rcases List.mem_cons.mp h with rfl | h
        · exact List.mem_cons_self
        · exact List.mem_cons_of_mem _ (ih h)

/-- What is kept starts at or behind the end it is compared with, and the
kept steps follow each other without overlap. -/
theorem dropOverlapping_ordered {steps : List OperationStepSpan}
    (hsteps : ∀ step ∈ steps, step.range.start < step.range.stop) (previousEnd : Nat) :
    (∀ step ∈ dropOverlapping previousEnd steps, previousEnd ≤ step.range.start) ∧
      (dropOverlapping previousEnd steps).Pairwise fun a b => a.range.stop ≤ b.range.start := by
  induction steps generalizing previousEnd with
  | nil => exact ⟨nofun, List.Pairwise.nil⟩
  | cons first rest ih =>
      have hrest := ih fun step hstep => hsteps step (List.mem_cons_of_mem _ hstep)
      unfold dropOverlapping
      split
      next => exact hrest previousEnd
      next hbehind =>
        have hfirst := hsteps first List.mem_cons_self
        refine ⟨fun step hstep => ?_, ?_⟩
        · rcases List.mem_cons.mp hstep with rfl | hstep
          · exact Nat.le_of_not_lt hbehind
          · have := (hrest first.range.stop).1 step hstep
            omega
        · exact List.pairwise_cons.mpr (hrest first.range.stop)

namespace OperationSequenceLayout

variable (layout : OperationSequenceLayout) (bytes : List UInt8)

theorem validFor_of_mem_validSteps {layout : OperationSequenceLayout} {len : Nat}
    {step : OperationStepSpan} (h : step ∈ layout.validSteps len) :
    step.range.start < step.range.stop ∧ step.range.stop ≤ len := by
  have hmem := mem_of_mem_dropOverlapping h
  rw [sortSteps, List.mem_mergeSort, List.mem_filter] at hmem
  exact step.range_of_validFor hmem.2

theorem validSteps_ordered (len : Nat) :
    (layout.validSteps len).Pairwise fun a b => a.range.stop ≤ b.range.start := by
  refine (dropOverlapping_ordered ?_ 0).2
  intro step hstep
  rw [sortSteps, List.mem_mergeSort, List.mem_filter] at hstep
  exact (step.range_of_validFor hstep.2).1

theorem decodedStepCount_safe : Op.Safe (fun _ => True) (layout.decodedStepCount bytes) :=
  (Op.Safe.ofOption fun _ _ => trivial).bind fun _ _ => decodeBoundedRangeChecked_safe _ _ _ _

/-! ## The four mutations -/

def alternativeOpIndices (step : OperationStepSpan) : Mutation (List Nat) := do
  let current ← Op.optional
    (decodeBoundedRangeChecked bytes step.opIndexRange 0 (layout.operationCount - 1))
  pure (((List.range layout.operationCount).filter fun opIndex => some opIndex ≠ current).filter
    fun opIndex => canEncodeBoundedRange step.opIndexRange 0 (layout.operationCount - 1) opIndex)

/-- `alternative_op_indices(..).next().is_some()`. -/
def hasAlternative (step : OperationStepSpan) : Mutation Bool := do
  let alternatives ← layout.alternativeOpIndices bytes step
  pure !alternatives.isEmpty

def countFieldPrecedesSteps (steps : List OperationStepSpan) : Bool :=
  match layout.stepCountRange with
  | none => false
  | some range =>
      range.start < range.stop && layout.minSteps ≤ layout.maxSteps &&
        steps.all fun step => range.stop ≤ step.range.start

def changeOperationSelector : Mutation (List UInt8) := do
  let steps ← Op.collect (fun step => do
    let changeable ← layout.hasAlternative bytes step
    pure (if changeable then [step] else [])) (layout.validSteps bytes.length)
  let index ← choose steps.length
  let step ← Op.ofOption steps[index]?
  let alternatives ← layout.alternativeOpIndices bytes step
  let index ← choose alternatives.length
  let opIndex ← Op.ofOption alternatives[index]?
  encodeBoundedRangeChecked bytes step.opIndexRange 0 (layout.operationCount - 1) opIndex

/-- Where a copied step goes: before one of the steps or behind the last. -/
def insertPosition (steps : List OperationStepSpan) (insertSlot : Nat) : Mutation Nat :=
  if insertSlot = steps.length then do
    let last ← Op.ofOption steps.getLast?
    pure last.range.stop
  else do
    let step ← Op.index steps insertSlot
    pure step.range.start

def insertOperationStep (maxLen : Nat) : Mutation (List UInt8) := do
  let steps := (layout.validSteps bytes.length).filter fun step =>
    bytes.length + step.range.len ≤ maxLen
  let count ← layout.decodedStepCount bytes
  if count ≥ layout.maxSteps ∨ steps.isEmpty ∨ !layout.countFieldPrecedesSteps steps then
    throw .missing
  else do
    let index ← choose steps.length
    let source ← Op.ofOption steps[index]?
    let insertSlot ← choose (steps.length + 1)
    let insertAt ← insertPosition steps insertSlot
    let before ← Op.slice bytes 0 insertAt
    let copied ← Op.slice bytes source.range.start source.range.stop
    let behind ← Op.slice bytes insertAt bytes.length
    let range ← Op.ofOption layout.stepCountRange
    encodeBoundedRangeChecked (before ++ copied ++ behind) range layout.minSteps layout.maxSteps
      (count + 1)

def removeOperationStep : Mutation (List UInt8) := do
  let steps := layout.validSteps bytes.length
  let count ← layout.decodedStepCount bytes
  if count ≤ layout.minSteps ∨ steps.isEmpty ∨ !layout.countFieldPrecedesSteps steps then
    throw .missing
  else do
    let index ← choose steps.length
    let step ← Op.ofOption steps[index]?
    let _capacity ← Op.sub bytes.length step.range.len
    let before ← Op.slice bytes 0 step.range.start
    let behind ← Op.slice bytes step.range.stop bytes.length
    let range ← Op.ofOption layout.stepCountRange
    let fewer ← Op.sub count 1
    encodeBoundedRangeChecked (before ++ behind) range layout.minSteps layout.maxSteps fewer

def swapOperationSteps : Mutation (List UInt8) := do
  let steps := layout.validSteps bytes.length
  if steps.length < 2 then throw .missing
  else do
    let leftIndex ← choose steps.length
    let others ← Op.sub steps.length 1
    let drawn ← choose others
    let rightIndex := if drawn ≥ leftIndex then drawn + 1 else drawn
    let left ← Op.index steps (min leftIndex rightIndex)
    let right ← Op.index steps (max leftIndex rightIndex)
    let before ← Op.slice bytes 0 left.range.start
    let rightBytes ← Op.slice bytes right.range.start right.range.stop
    let between ← Op.slice bytes left.range.stop right.range.start
    let leftBytes ← Op.slice bytes left.range.start left.range.stop
    let behind ← Op.slice bytes right.range.stop bytes.length
    pure (before ++ rightBytes ++ between ++ leftBytes ++ behind)

theorem alternativeOpIndices_safe (step : OperationStepSpan) :
    Op.Safe (fun _ => True) (layout.alternativeOpIndices bytes step) := by
  refine (decodeBoundedRangeChecked_safe bytes _ _ _).optional.bind fun current _ => ?_
  exact Op.Safe.pure trivial

theorem hasAlternative_safe (step : OperationStepSpan) :
    Op.Safe (fun _ => True) (layout.hasAlternative bytes step) :=
  (layout.alternativeOpIndices_safe bytes step).bind fun _ _ => Op.Safe.pure trivial

theorem changeOperationSelector_safe :
    Op.Safe (fun output => output.length = bytes.length)
      (layout.changeOperationSelector bytes) := by
  refine (Op.Safe.collect (Q := fun _ => True) fun step _ => ?_).bind fun steps _ => ?_
  · refine (layout.hasAlternative_safe bytes step).bind fun changeable _ => ?_
    exact Op.Safe.pure fun _ _ => trivial
  refine (choose_safe _).bind fun index _ => ?_
  refine (Op.Safe.ofOption fun _ _ => trivial).bind fun step _ => ?_
  refine (layout.alternativeOpIndices_safe bytes step).bind fun alternatives _ => ?_
  refine (choose_safe _).bind fun index _ => ?_
  refine (Op.Safe.ofOption fun _ _ => trivial).bind fun opIndex _ => ?_
  exact encodeBoundedRangeChecked_safe _ _ _ _ _

theorem insertPosition_safe {steps : List OperationStepSpan} {insertSlot len : Nat}
    (hsteps : ∀ step ∈ steps, step.range.start < step.range.stop ∧ step.range.stop ≤ len)
    (hslot : insertSlot < steps.length + 1) :
    Op.Safe (fun position => position ≤ len) (insertPosition steps insertSlot) := by
  unfold insertPosition
  refine Op.Safe.ite (fun _ => ?_) fun hinner => ?_
  · refine (Op.Safe.ofOption fun last hlast => hsteps last (List.mem_of_getLast? hlast)).bind
      fun last hlast => ?_
    exact Op.Safe.pure hlast.2
  · refine (Op.Safe.index (by omega)).bind fun step hstep => ?_
    have := hsteps step (List.mem_of_getElem? hstep)
    exact Op.Safe.pure (by omega)

/-- The insertion of a step neither panics nor exceeds the limit. -/
theorem insertOperationStep_safe (maxLen : Nat) :
    Op.Safe (fun output => output.length ≤ maxLen)
      (layout.insertOperationStep bytes maxLen) := by
  unfold insertOperationStep
  generalize hsteps : ((layout.validSteps bytes.length).filter fun step =>
    bytes.length + step.range.len ≤ maxLen) = steps
  have hvalid : ∀ step ∈ steps, step.range.start < step.range.stop ∧
      step.range.stop ≤ bytes.length := by
    intro step hstep
    rw [← hsteps, List.mem_filter] at hstep
    exact validFor_of_mem_validSteps hstep.1
  have hroom : ∀ step ∈ steps, bytes.length + step.range.len ≤ maxLen := by
    intro step hstep
    rw [← hsteps, List.mem_filter] at hstep
    exact of_decide_eq_true hstep.2
  refine (layout.decodedStepCount_safe bytes).bind fun count _ => ?_
  refine Op.Safe.ite (fun _ => Op.Safe.missing) fun _ => ?_
  refine (choose_safe _).bind fun index _ => ?_
  refine (Op.Safe.ofOption fun _ hsource => List.mem_of_getElem? hsource).bind
    fun source hsource => ?_
  refine (choose_safe _).bind fun insertSlot hslot => ?_
  refine (insertPosition_safe hvalid hslot).bind fun insertAt hinsert => ?_
  obtain ⟨hstart, hstop⟩ := hvalid source hsource
  refine (Op.Safe.slice (Nat.zero_le _) hinsert).bind fun before hbefore => ?_
  refine (Op.Safe.slice hstart.le hstop).bind fun copied hcopied => ?_
  refine (Op.Safe.slice hinsert le_rfl).bind fun behind hbehind => ?_
  refine (Op.Safe.ofOption fun _ _ => trivial).bind fun range _ => ?_
  refine (encodeBoundedRangeChecked_safe _ _ _ _ _).mono fun output houtput => ?_
  have hlen := hroom source hsource
  unfold ByteSpan.len at hlen
  rw [houtput, hbefore, hcopied, hbehind]
  simp only [List.length_append, List.length_drop, List.length_take]
  omega

theorem removeOperationStep_safe :
    Op.Safe (fun output => output.length ≤ bytes.length) (layout.removeOperationStep bytes) := by
  unfold removeOperationStep
  refine (layout.decodedStepCount_safe bytes).bind fun count _ => ?_
  refine Op.Safe.ite (fun _ => Op.Safe.missing) fun hcount => ?_
  refine (choose_safe _).bind fun index _ => ?_
  refine (Op.Safe.ofOption fun _ hstep =>
    validFor_of_mem_validSteps (List.mem_of_getElem? hstep)).bind fun step hstep => ?_
  refine (Op.Safe.sub (by unfold ByteSpan.len; omega)).bind fun _ _ => ?_
  refine (Op.Safe.slice (Nat.zero_le _) (by omega)).bind fun before hbefore => ?_
  refine (Op.Safe.slice hstep.2 le_rfl).bind fun behind hbehind => ?_
  refine (Op.Safe.ofOption fun _ _ => trivial).bind fun range _ => ?_
  refine (Op.Safe.sub (by omega)).bind fun fewer _ => ?_
  refine (encodeBoundedRangeChecked_safe _ _ _ _ _).mono fun output houtput => ?_
  rw [houtput, hbefore, hbehind]
  simp only [List.length_append, List.length_drop, List.length_take]
  omega

/-- The two steps are different ones, so the left one ends before the right
one starts. -/
theorem swapOperationSteps_safe :
    Op.Safe (fun output => output.length ≤ bytes.length) (layout.swapOperationSteps bytes) := by
  unfold swapOperationSteps
  refine Op.Safe.ite (fun _ => Op.Safe.missing) fun htwo => ?_
  refine (choose_safe _).bind fun leftIndex hleft => ?_
  refine (Op.Safe.sub (by omega)).bind fun others hothers => ?_
  refine (choose_safe _).bind fun drawn hdrawn => ?_
  dsimp only
  generalize hright : (if drawn ≥ leftIndex then drawn + 1 else drawn) = rightIndex
  have hne : leftIndex ≠ rightIndex ∧
      rightIndex < (layout.validSteps bytes.length).length := by
    split at hright <;> omega
  refine (Op.Safe.index (by omega)).bind fun left hleftStep => ?_
  refine (Op.Safe.index (by omega)).bind fun right hrightStep => ?_
  have hbetween : left.range.stop ≤ right.range.start := by
    obtain ⟨hi, hli⟩ := List.getElem?_eq_some_iff.mp hleftStep
    obtain ⟨hj, hrj⟩ := List.getElem?_eq_some_iff.mp hrightStep
    have := List.pairwise_iff_getElem.mp (layout.validSteps_ordered bytes.length) _ _ hi hj
      (by omega)
    rwa [hli, hrj] at this
  have hl := validFor_of_mem_validSteps (List.mem_of_getElem? hleftStep)
  have hr := validFor_of_mem_validSteps (List.mem_of_getElem? hrightStep)
  refine (Op.Safe.slice (Nat.zero_le _) (by omega)).bind fun before hbefore => ?_
  refine (Op.Safe.slice hr.1.le hr.2).bind fun rightBytes hrightBytes => ?_
  refine (Op.Safe.slice hbetween (by omega)).bind fun between hbetweenBytes => ?_
  refine (Op.Safe.slice hl.1.le hl.2).bind fun leftBytes hleftBytes => ?_
  refine (Op.Safe.slice hr.2 le_rfl).bind fun behind hbehind => ?_
  refine Op.Safe.pure ?_
  rw [hbefore, hrightBytes, hbetweenBytes, hleftBytes, hbehind]
  simp only [List.length_append, List.length_drop, List.length_take]
  omega

end OperationSequenceLayout

end GovFuzz.FuzzEngine
