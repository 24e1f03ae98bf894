import GovFuzz.Cli.Seeds
import GovFuzz.FuzzEngine.Mutator

/-!
# Cli — adaptive length control

How long the inputs may be that `run_builtin_with_progress` of
`crates/cli/src/fuzz.rs` lets the mutator make: `len_control_step`, the rule
behind it that raises the ceiling, and `mutate_from_pool`, which is given the
effective length.  One execution is one step; that it made progress or not is
all that a step sees of it.
-/

namespace GovFuzz.Cli

open GovFuzz.Lib GovFuzz.FuzzEngine

/-- The first length limit. -/
def initialLenControlLen : Nat := 64

/-- Below this the ceiling rises without a new finding. -/
def autoSoftCeiling : Nat := 1024 * 1024

/-- `saturating_mul` of 64-bit numbers. -/
def saturatingMul (a b : Nat) : Nat := min (a * b) (2 ^ 64 - 1)

/-- What length control reads of `prepared`; `max_len` is a `usize`. -/
structure LengthOptions where
  maxLen : Nat
  lenControl : Nat
  maxLen_lt : maxLen < 2 ^ 64

/-- The variables that an execution updates. -/
structure LengthControl where
  effectiveMaxLen : Nat
  currentCeiling : Nat
  productiveSinceCeilingRaise : Bool
  execsSinceNewSignature : Nat
  deriving DecidableEq, Repr

/-- The limit after one execution, and the executions since it found something. -/
def lenControlStep (effective ceiling lenControl execsSinceNew : Nat)
    (foundNewSignature : Bool) : Nat × Nat :=
  if lenControl = 0 then (effective, 0)
  else if foundNewSignature then (effective, 0)
  else
    let plateau := execsSinceNew + 1
    if lenControl ≤ plateau ∧ effective < ceiling then
      (min (saturatingMul effective 2) ceiling, 0)
    else (effective, min plateau lenControl)

namespace LengthControl

/-- The limits a campaign starts with. -/
def start (options : LengthOptions) : LengthControl where
  effectiveMaxLen :=
    if options.lenControl = 0 then options.maxLen
    else min initialLenControlLen options.maxLen
  currentCeiling :=
    if options.lenControl = 0 then options.maxLen else min defaultMaxLen options.maxLen
  productiveSinceCeilingRaise := false
  execsSinceNewSignature := 0

/-- The condition of the rule that raises the ceiling. -/
def raises (options : LengthOptions) (s : LengthControl) : Bool :=
  options.lenControl ≠ 0 && s.currentCeiling ≤ s.effectiveMaxLen
    && s.currentCeiling < options.maxLen && options.lenControl ≤ s.execsSinceNewSignature
    && (s.currentCeiling < min autoSoftCeiling options.maxLen || s.productiveSinceCeilingRaise)

/-- Twice the ceiling, up to the maximum. -/
def raise (options : LengthOptions) (s : LengthControl) : LengthControl :=
  let ceiling := min (saturatingMul s.currentCeiling 2) options.maxLen
  ⟨ceiling, ceiling, false, 0⟩

/-- The update of the flag and of the effective length, before the rule. -/
def observe (options : LengthOptions) (s : LengthControl) (madeProgress : Bool) :
    LengthControl :=
  let next := lenControlStep s.effectiveMaxLen s.currentCeiling options.lenControl
    s.execsSinceNewSignature madeProgress
  { effectiveMaxLen := next.1
    currentCeiling := s.currentCeiling
    productiveSinceCeilingRaise :=
      if madeProgress ∧ defaultMaxLen < s.effectiveMaxLen then true
      else s.productiveSinceCeilingRaise
    execsSinceNewSignature := next.2 }

/-- One execution. -/
def step (options : LengthOptions) (s : LengthControl) (madeProgress : Bool) : LengthControl :=
  let s := s.observe options madeProgress
  if s.raises options then s.raise options else s

/-- The state after executions with these outcomes. -/
def run (options : LengthOptions) (outcomes : List Bool) : LengthControl :=
  outcomes.foldl (step options) (start options)

theorem run_concat (options : LengthOptions) (outcomes : List Bool) (madeProgress : Bool) :
    run options (outcomes ++ [madeProgress])
      = (run options outcomes).step options madeProgress := by
  simp [run]

/-! ## The bounds -/

/-- The limits in their order. -/
structure Within (options : LengthOptions) (s : LengthControl) : Prop where
  one_le : 1 ≤ s.effectiveMaxLen
  le_ceiling : s.effectiveMaxLen ≤ s.currentCeiling
  ceiling_le : s.currentCeiling ≤ options.maxLen

theorem within_start {options : LengthOptions} (h : 1 ≤ options.maxLen) :
    Within options (start options) := by
  constructor <;>
  · simp only [start, initialLenControlLen, defaultMaxLen]
    split <;> omega

/-- The length goes up and stays under the ceiling. -/
theorem lenControlStep_bounds {effective ceiling : Nat} (lenControl execsSinceNew : Nat)
    (foundNewSignature : Bool) (hle : effective ≤ ceiling) (hlt : ceiling < 2 ^ 64) :
    effective ≤ (lenControlStep effective ceiling lenControl execsSinceNew foundNewSignature).1 ∧
      (lenControlStep effective ceiling lenControl execsSinceNew foundNewSignature).1
        ≤ ceiling := by
  simp only [lenControlStep, saturatingMul]
  split
  · simp [hle]
  · split
    · simp [hle]
    · split
      · simp only
        omega
      · simp [hle]

section
variable {options : LengthOptions} {s : LengthControl} (madeProgress : Bool)

theorem Within.observe (h : Within options s) :
    Within options (s.observe options madeProgress) := by
  obtain ⟨hone, hle, hmax⟩ := h
  have hlt := options.maxLen_lt
  have hstep := lenControlStep_bounds options.lenControl s.execsSinceNewSignature madeProgress hle
    (by omega)
  exact ⟨hone.trans hstep.1, hstep.2, hmax⟩

theorem Within.raise (h : Within options s) : Within options (s.raise options) := by
  obtain ⟨hone, hle, hmax⟩ := h
  have hlt := options.maxLen_lt
  constructor <;> simp only [LengthControl.raise, saturatingMul] <;> omega

theorem Within.step (h : Within options s) : Within options (s.step options madeProgress) := by
  simp only [LengthControl.step]
  split
  · exact (h.observe madeProgress).raise
  · exact h.observe madeProgress

/-- Neither length goes down. -/
theorem le_step (h : Within options s) :
    s.effectiveMaxLen ≤ (s.step options madeProgress).effectiveMaxLen ∧
      s.currentCeiling ≤ (s.step options madeProgress).currentCeiling := by
  have hlt := options.maxLen_lt
  have hmax := h.ceiling_le
  have hstep := lenControlStep_bounds options.lenControl s.execsSinceNewSignature madeProgress
    h.le_ceiling (by omega)
  have hobserved : s.effectiveMaxLen ≤ (s.observe options madeProgress).effectiveMaxLen := hstep.1
  have hin := (h.observe madeProgress).le_ceiling
  have hsame : (s.observe options madeProgress).currentCeiling = s.currentCeiling := rfl
  simp only [LengthControl.step]
  split
  · simp only [LengthControl.raise, saturatingMul]
    omega
  · omega

end

theorem within_run {options : LengthOptions} (h : 1 ≤ options.maxLen) (outcomes : List Bool) :
    Within options (run options outcomes) := by
  induction outcomes using List.reverseRecOn with
  | nil => exact within_start h
  | append_singleton outcomes madeProgress ih =>
      rw [run_concat]
      exact ih.step madeProgress

/-! ## The flag -/

/-- Since the ceiling has the height it has, an execution made progress at
a length past the default. -/
def Earned (options : LengthOptions) (outcomes : List Bool) : Prop :=
  ∃ before after, outcomes = before ++ true :: after ∧
    defaultMaxLen < (run options before).effectiveMaxLen ∧
    (run options before).currentCeiling = (run options outcomes).currentCeiling

/-- A step that leaves the flag set raised nothing: either it made the
progress itself or the flag was set before. -/
theorem productive_step {options : LengthOptions} {s : LengthControl} {madeProgress : Bool}
    (h : (s.step options madeProgress).productiveSinceCeilingRaise = true) :
    (s.step options madeProgress).currentCeiling = s.currentCeiling ∧
      ((madeProgress = true ∧ defaultMaxLen < s.effectiveMaxLen) ∨
        s.productiveSinceCeilingRaise = true) := by
  simp only [step] at h ⊢
  split at h
  · simp [raise] at h
  · rename_i hraises
    rw [if_neg hraises]
    refine ⟨rfl, ?_⟩
    simp only [observe] at h
    split at h
    · rename_i hprogress
      exact .inl hprogress
    · exact .inr h

/-- The flag is set only if that is earned. -/
theorem earned_of_productive {options : LengthOptions} {outcomes : List Bool}
    (h : (run options outcomes).productiveSinceCeilingRaise = true) :
    Earned options outcomes := by
  induction outcomes using List.reverseRecOn with
  | nil => simp [run, start] at h
  | append_singleton outcomes madeProgress ih =>
      rw [run_concat] at h
      obtain ⟨hceiling, hnow | hbefore⟩ := productive_step h
      · obtain ⟨rfl, hlong⟩ := hnow
        refine ⟨outcomes, [], rfl, hlong, ?_⟩
        rw [run_concat, hceiling]
      · obtain ⟨before, after, hsplit, hlong, hsame⟩ := ih hbefore
        refine ⟨before, after ++ [madeProgress], by simp [hsplit], hlong, ?_⟩
        rw [run_concat, hceiling, hsame]

/-- At or past the soft ceiling the rule needs the flag, and the execution
that is just over did not set it: progress empties the plateau. -/
theorem productive_of_raised {options : LengthOptions} {s : LengthControl} {madeProgress : Bool}
    (hsoft : autoSoftCeiling ≤ s.currentCeiling)
    (hraised : s.currentCeiling < (s.step options madeProgress).currentCeiling) :
    s.productiveSinceCeilingRaise = true := by
  have hsame : (s.observe options madeProgress).currentCeiling = s.currentCeiling := rfl
  simp only [step] at hraised
  split at hraised
  · rename_i hraises
    simp only [raises, Bool.and_eq_true, Bool.or_eq_true, decide_eq_true_eq, hsame] at hraises
    obtain ⟨⟨⟨⟨hcontrol, -⟩, -⟩, hplateau⟩, hlow | hproductive⟩ := hraises
    · omega
    · cases madeProgress with
      | false => simpa [observe] using hproductive
      | true => simp [observe, lenControlStep] at hplateau hcontrol; omega
  · omega

end LengthControl

/-! ## What the mutator makes of a length -/

/-- The generator a campaign asks for. -/
inductive StructuredInputMode where
  | auto | off | record | json | xml | kv | url | multipart | csv | http | ini | toml | yaml
  | recursive
  deriving DecidableEq, Repr

/-- `matches!(self, Self::Auto | Self::Kind)`. -/
def StructuredInputMode.enables (mode kind : StructuredInputMode) : Bool :=
  mode = .auto || mode = kind

/-- The configuration of the mutators under the current limit. -/
def mutatorConfig (structuredInputs : StructuredInputMode) (maxLen : Nat) : MutatorConfig where
  maxLen := maxLen
  structuredRecords := structuredInputs.enables .record
  structuredJson := structuredInputs.enables .json
  structuredXml := structuredInputs.enables .xml
  structuredKeyValue := structuredInputs.enables .kv
  structuredUrlEncoded := structuredInputs.enables .url
  structuredMultipart := structuredInputs.enables .multipart
  structuredCsv := structuredInputs.enables .csv
  structuredHttp := structuredInputs.enables .http
  structuredIni := structuredInputs.enables .ini
  structuredToml := structuredInputs.enables .toml
  structuredYaml := structuredInputs.enables .yaml
  structuredChunked := structuredInputs.enables .auto
  structuredRecursive := structuredInputs.enables .recursive

/-- An input of the pool and what was learned from it. -/
structure PoolEntry where
  bytes : List UInt8
  cmplog : Option CmpLog
  colored : Option (List UInt8)

/-- The colored input, where there is one. -/
def PoolEntry.mutationBase (entry : PoolEntry) : List UInt8 := entry.colored.getD entry.bytes

/-- Where the operations of a sequence stand. -/
structure SequenceGeometry where
  operationCount : Nat
  maxSteps : Nat
  controlLen : Nat
  portfolioLanes : Nat
  deriving DecidableEq, Repr

/-- A selector byte and a value of four bytes. -/
def SequenceGeometry.slot : Nat := 5

/-- The layout, when the input is long enough for the control bytes. -/
def SequenceGeometry.layoutFor (geometry : SequenceGeometry) (input : List UInt8) :
    Option OperationSequenceLayout :=
  if input.length < geometry.controlLen then none
  else
    let base := input.length - geometry.controlLen
    let programPrefix := 1 + if 1 < geometry.portfolioLanes then 1 else 0
    let steps := (List.range geometry.maxSteps).map fun step =>
      let at_ := base + programPrefix + step * slot
      (⟨⟨at_, at_ + slot⟩, ⟨at_, at_ + slot⟩⟩ : OperationStepSpan)
    some ⟨none, 0, geometry.maxSteps, geometry.operationCount, steps⟩

/-- The bytes of a pool entry, cut to `max_len`. -/
def poolBase (pool : List PoolEntry) (index maxLen : Nat) : List UInt8 :=
  ((pool[index]?.map PoolEntry.mutationBase).getD []).take maxLen

/-- What the mutators are given for one entry. -/
def poolInput (pool : List PoolEntry) (baseIndex : Nat) (dictionary : Dictionary)
    (globalCmplog : Option CmpLog) (grammar : Option Grammar) (config : MutatorConfig)
    (sequence : Option SequenceGeometry) : MutationInput :=
  let base := poolBase pool baseIndex config.maxLen
  { bytes := base
    peer := some (poolBase pool ((baseIndex + 1) % max pool.length 1) config.maxLen)
    dictionary := dictionary
    typedSpans := []
    operationSequence := sequence.bind fun geometry => geometry.layoutFor base
    cmplog := (pool[baseIndex]?.bind PoolEntry.cmplog).or globalCmplog
    grammar := grammar }

/-- An input of one byte, where nothing else came out. -/
def oneByte : Mutation (List UInt8) := do
  let byte ← nextU8
  pure [byte]

/-- `.map(|result| result.bytes).unwrap_or_else(|| vec![rng.next_u8()])`. -/
def resultBytes : Option MutationResult → Mutation (List UInt8)
  | some result => pure result.bytes
  | none => oneByte

/-- The next input of a campaign. -/
def mutateFromPool (pool : List PoolEntry) (baseIndex : Nat) (dictionary : Dictionary)
    (globalCmplog : Option CmpLog) (grammar : Option Grammar) (config : MutatorConfig)
    (sequence : Option SequenceGeometry) : Mutation (List UInt8) := do
  let suite : MutatorSuite := ⟨config⟩
  let input := poolInput pool baseIndex dictionary globalCmplog grammar config sequence
  let result ← Op.optional (suite.mutate input)
  let bytes ← resultBytes result
  if bytes = [] then oneByte else pure bytes

theorem oneByte_safe : Op.Safe (fun bytes => bytes.length = 1) oneByte :=
  nextU8_safe.bind fun _ _ => Op.Safe.pure rfl

/-- An input is made of at least one byte and of at most `max_len`. -/
theorem mutateFromPool_safe (pool : List PoolEntry) (baseIndex : Nat) (dictionary : Dictionary)
    (globalCmplog : Option CmpLog) (grammar : Option Grammar) {config : MutatorConfig}
    (sequence : Option SequenceGeometry) (h : 1 ≤ config.maxLen) :
    Op.Safe (fun bytes => bytes ≠ [] ∧ bytes.length ≤ config.maxLen)
      (mutateFromPool pool baseIndex dictionary globalCmplog grammar config sequence) := by
  have hone : Op.Safe (fun bytes => bytes ≠ [] ∧ bytes.length ≤ config.maxLen) oneByte := by
    refine oneByte_safe.mono fun bytes hlen => ⟨?_, by omega⟩
    rintro rfl
    simp at hlen
  have hinput :
      (poolInput pool baseIndex dictionary globalCmplog grammar config sequence).bytes.length
        ≤ (MutatorSuite.mk config).config.maxLen := by
    simp [poolInput, poolBase]
  have hmutate := ((MutatorSuite.mk config).mutate_safe hinput).optional
  refine hmutate.bind fun result hresult => ?_
  have hbytes : Op.Safe (fun bytes => bytes.length ≤ config.maxLen) (resultBytes result) := by
    cases result with
    | some result => exact Op.Safe.pure (hresult result rfl)
    | none => exact hone.mono fun _ hle => hle.2
  refine hbytes.bind fun bytes hle => ?_
  refine Op.Safe.ite (fun _ => hone) fun hne => ?_
  exact Op.Safe.pure ⟨hne, hle⟩

namespace LengthControl

/-- **Length control stays within its bounds.**  After any executions the
lengths are in order and below `max_len`; one more execution lowers neither;
it raises a ceiling that is at or past the soft ceiling only if that is
earned; and what `mutate_from_pool` makes with the effective length is not
empty and not longer than `max_len`. -/
theorem run_bounded (options : LengthOptions) (h : 1 ≤ options.maxLen) (outcomes : List Bool) :
    Within options (run options outcomes) ∧
    (∀ madeProgress,
      (run options outcomes).effectiveMaxLen
          ≤ (run options (outcomes ++ [madeProgress])).effectiveMaxLen ∧
        (run options outcomes).currentCeiling
          ≤ (run options (outcomes ++ [madeProgress])).currentCeiling) ∧
    (∀ madeProgress, autoSoftCeiling ≤ (run options outcomes).currentCeiling →
      (run options outcomes).currentCeiling
        < (run options (outcomes ++ [madeProgress])).currentCeiling →
      Earned options outcomes) ∧
    (∀ pool baseIndex dictionary globalCmplog grammar mode sequence rng bytes,
      (Op.exec (mutateFromPool pool baseIndex dictionary globalCmplog grammar
        (mutatorConfig mode (run options outcomes).effectiveMaxLen) sequence) rng).1 = .ok bytes →
      bytes ≠ [] ∧ bytes.length ≤ options.maxLen) := by
  have hin := within_run h outcomes
  refine ⟨hin, ?_, ?_, ?_⟩
  · intro madeProgress
    rw [run_concat]
    exact le_step madeProgress hin
  · intro madeProgress hsoft hraised
    rw [run_concat] at hraised
    exact earned_of_productive (productive_of_raised hsoft hraised)
  · intro pool baseIndex dictionary globalCmplog grammar mode sequence rng bytes hbytes
    have hone : 1 ≤ (mutatorConfig mode (run options outcomes).effectiveMaxLen).maxLen := hin.one_le
    have hsafe :=
      mutateFromPool_safe pool baseIndex dictionary globalCmplog grammar sequence hone rng
    rw [hbytes] at hsafe
    exact ⟨hsafe.1, hsafe.2.trans (hin.le_ceiling.trans hin.ceiling_le)⟩

/-- Every execution is flat or not; here the second one makes progress. -/
theorem run_bounded_plateau :
    Within ⟨5000, 1, by decide⟩ (run ⟨5000, 1, by decide⟩ [false, true, false]) :=
  (run_bounded ⟨5000, 1, by decide⟩ (by decide) [false, true, false]).1

end LengthControl

end GovFuzz.Cli
