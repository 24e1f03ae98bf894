import GovFuzz.CRuntime.Control
import GovFuzz.CRuntime.Driver
import GovFuzz.Cli.Seeds

/-!
# ForkServer — the persistent run against the replay from a file

`govfuzz_run_file` of `c_runtime/govfuzz_driver.c` and the program that
`sequence_harness.c.tera` decodes.  A frame is clamped to the driver's
buffer; a file is read as long as it is.  The two agree on what fits the
buffer and on nothing else, and behind the cut a sequence harness finds
another control block.
-/

namespace GovFuzz.ForkServer

open GovFuzz.Lib GovFuzz.CRuntime GovFuzz.Cli

/-- What `govfuzz_run_one` receives in a persistent run. -/
def received (acts : List Act) : List (List UInt8) :=
  acts.filterMap fun act =>
    match act with
    | .testcase _ _ input => some input
    | .control _ => none
    | .stop _ => none

/-- `govfuzz_run_file`: what `govfuzz_run_one` receives.  Nothing is run for
a file that does not open. -/
def govfuzzRunFile : Option (List UInt8) → List (List UInt8)
  | none => []
  | some file =>
      -- `fseek` to the end and `ftell`
      let n := file.length
      [file.take n]

/-! ## Sequence harnesses -/

/-- Where the arguments are read from, and the operations in their order. -/
structure LifecycleProgram where
  arguments : GfCursor
  ops : List UInt32
  deriving DecidableEq

/-- An input without a whole control tail runs slot zero once. -/
def lifecycleProgram (opCtrlLen opMaxSteps : Nat) (opCount : UInt32) (data : List UInt8) :
    LifecycleProgram :=
  let size := data.length
  let count := (gfCtrlStepCount data size opMaxSteps).value
  let count := if size < opCtrlLen then 1 else count
  { arguments := gfOpenData size opCtrlLen
    ops := (List.range count).map fun step => (gfCtrlOp data size step opMaxSteps opCount).value }

/-- The input at `index` of a session is run on the bytes that its replay is
run on, and every sequence harness decodes one program from the two. -/
def AgreesWithReplay (stdin : Pipe) (index : Nat) (input : List UInt8) : Prop :=
  ∃ framed replayed, (received (framedMain stdin))[index]? = some framed
    ∧ govfuzzRunFile (some input) = [replayed]
    ∧ framed = replayed
    ∧ ∀ opCtrlLen opMaxSteps opCount,
        lifecycleProgram opCtrlLen opMaxSteps opCount framed
          = lifecycleProgram opCtrlLen opMaxSteps opCount replayed

/-! ## The two paths -/

theorem received_served (cap : Nat) (sync : UInt8) (inputs : List (List UInt8)) (offset : Nat) :
    received (served cap sync offset inputs) = inputs.map (·.take cap) := by
  induction inputs generalizing offset with
  | nil => rfl
  | cons input inputs ih =>
      rw [served, List.map_cons, ← ih (offset + (writeInputFrame input).length)]
      rfl

/-- Over any cutting of the stream, the driver receives every input up to
the cap. -/
theorem received_framedMain (inputs : List (List UInt8)) {stdin : Pipe}
    (h : stdin.pending = sentFrames inputs) :
    received (framedMain stdin) = inputs.map (·.take framedInputCap) := by
  have hloop : framedMain stdin = .control 1 :: served framedInputCap 1 0 inputs := by
    rw [framedMain, ← framedLoop_frames inputs 0 h, framedInputCap]
  rw [hloop, ← received_served framedInputCap 1 inputs 0]
  rfl

theorem govfuzzRunFile_some (file : List UInt8) : govfuzzRunFile (some file) = [file] := by
  simp [govfuzzRunFile]

theorem getElem?_received (before after : List (List UInt8)) {input : List UInt8} {stdin : Pipe}
    (h : stdin.pending = sentFrames (before ++ input :: after)) :
    (received (framedMain stdin))[before.length]? = some (input.take framedInputCap) := by
  rw [received_framedMain _ h, List.getElem?_map, List.getElem?_append_right (le_refl _),
    Nat.sub_self]
  rfl

/-- An input agrees with its replay exactly when it fits the buffer. -/
theorem agreesWithReplay_iff (before after : List (List UInt8)) {input : List UInt8}
    {stdin : Pipe} (h : stdin.pending = sentFrames (before ++ input :: after)) :
    AgreesWithReplay stdin before.length input ↔ input.length ≤ framedInputCap := by
  constructor
  · rintro ⟨framed, replayed, hframed, hreplayed, heq, -⟩
    rw [getElem?_received before after h] at hframed
    rw [govfuzzRunFile_some] at hreplayed
    cases hframed
    cases hreplayed
    have hlen := congrArg List.length heq
    rw [List.length_take] at hlen
    omega
  · intro hfits
    have hwhole : input.take framedInputCap = input := List.take_of_length_le hfits
    refine ⟨input, input, ?_, govfuzzRunFile_some input, rfl, fun _ _ _ => rfl⟩
    rw [getElem?_received before after h, hwhole]

theorem agreesWithReplay_short_iff :
    AgreesWithReplay [[2, 0], [0, 0, 7, 8, 1], [0, 0, 0, 9]] 0 [7, 8]
      ↔ [7, 8].length ≤ framedInputCap :=
  agreesWithReplay_iff [] [[9]] (by decide)

/-- One byte more than the buffer holds: a program of one step, cut to a
program without steps. -/
def overlongInput : List UInt8 :=
  List.replicate (framedInputCap - 5) 0 ++ 1 :: List.replicate 5 0

theorem length_overlongInput : overlongInput.length = framedInputCap + 1 := by
  rw [overlongInput, List.length_append, List.length_cons, List.length_replicate,
    List.length_replicate]
  decide

/-- The bytes around the cut: one that is not zero, in the last six. -/
theorem getD_overlongInput {index : Nat} :
    overlongInput.getD index 0 = if index = framedInputCap - 5 then 1 else 0 := by
  rcases lt_trichotomy index (framedInputCap - 5) with hlt | rfl | hgt
  · rw [overlongInput, List.getD_append _ _ _ _ (by rwa [List.length_replicate]),
      List.getD_replicate _ hlt, if_neg (by omega)]
  · rw [overlongInput, List.getD_append_right _ _ _ _ (by rw [List.length_replicate]),
      List.length_replicate, Nat.sub_self, if_pos rfl]
    rfl
  · obtain ⟨k, rfl⟩ : ∃ k, index = framedInputCap - 5 + (k + 1) :=
      ⟨index - (framedInputCap - 5) - 1, by omega⟩
    rw [overlongInput, List.getD_append_right _ _ _ _ (by rw [List.length_replicate]; omega),
      List.length_replicate, Nat.add_sub_cancel_left, if_neg (by omega), List.getD_cons_succ]
    by_cases hk : k < 5
    · exact List.getD_replicate _ hk
    · exact List.getD_eq_default _ _ (by rw [List.length_replicate]; omega)

/-- With one step, the count byte stands six bytes before the end. -/
theorem gfCtrlStepCount_one (data : List UInt8) {size : Nat} (h : 6 ≤ size) :
    (gfCtrlStepCount data size 1).value = (data.getD (size - 6) 0).toNat % 2 := by
  have hlen : gfCtrlLen 1 = 6 := by decide
  unfold gfCtrlStepCount
  dsimp only
  rw [hlen, if_neg (by omega)]
  rfl

/-- A zero selector takes the first operation. -/
theorem gfCtrlOp_one (data : List UInt8) {size : Nat} (h : 6 ≤ size) (hsize : size < usizeSize)
    (hzero : data.getD (size - 5) 0 = 0) : (gfCtrlOp data size 0 1 2).value = 0 := by
  have hlen : gfCtrlLen 1 = 6 := by decide
  have hindex : (size - 6 + 1 + 0 * gfCtrlSlot) % usizeSize = size - 5 := by
    rw [Nat.mod_eq_of_lt (by omega)]
    omega
  unfold gfCtrlOp
  dsimp only
  rw [hlen, if_neg (by simp; omega), hindex, Decoder.value, gfCtrlBounded_eq data _ (by decide),
    hzero, if_pos (by decide)]
  show gfBoundary 0 0 1 = 0
  decide

theorem not_agreesWithReplay_overlong :
    1 ≤ overlongInput.length ∧ overlongInput.length ≤ autoMaxLenCeiling
      ∧ ¬ AgreesWithReplay [sentFrames [overlongInput]] 0 overlongInput
      ∧ (lifecycleProgram 6 1 2 overlongInput).ops = [0]
      ∧ (lifecycleProgram 6 1 2 (overlongInput.take framedInputCap)).ops = [] := by
  have hcut : (overlongInput.take framedInputCap).length = framedInputCap := by
    rw [List.length_take, length_overlongInput]
    omega
  refine ⟨?_, ?_, ?_, ?_, ?_⟩
  · rw [length_overlongInput]
    omega
  · rw [length_overlongInput]
    decide
  · -- the framed harness is given the input cut, the driver of the file all of it
    rintro ⟨framed, replayed, hframed, hreplayed, heq, -⟩
    have hpending : Pipe.pending [sentFrames [overlongInput]]
        = sentFrames ([] ++ overlongInput :: []) := by simp [Pipe.pending]
    have hreceived := getElem?_received [] [] hpending
    rw [List.length_nil] at hreceived
    rw [hreceived] at hframed
    rw [govfuzzRunFile_some] at hreplayed
    cases hframed
    cases hreplayed
    have hlen := congrArg List.length heq
    rw [hcut, length_overlongInput] at hlen
    omega
  · -- as a whole it asks for one step
    have hcount : (gfCtrlStepCount overlongInput (framedInputCap + 1) 1).value = 1 := by
      rw [gfCtrlStepCount_one _ (by decide), getD_overlongInput, if_pos (by decide)]
      decide
    have hop : (gfCtrlOp overlongInput (framedInputCap + 1) 0 1 2).value = 0 := by
      refine gfCtrlOp_one _ (by decide) (by decide) ?_
      rw [getD_overlongInput, if_neg (by decide)]
    unfold lifecycleProgram
    dsimp only
    rw [length_overlongInput, hcount, if_neg (by decide), List.range_one, List.map_singleton, hop]
  · -- and cut for none
    have hcount : (gfCtrlStepCount (overlongInput.take framedInputCap) framedInputCap 1).value
        = 0 := by
      have hsame : (overlongInput.take framedInputCap).getD (framedInputCap - 6) 0
          = overlongInput.getD (framedInputCap - 6) 0 := by
        rw [List.getD_eq_getElem?_getD, List.getElem?_take_of_lt (by decide),
          List.getD_eq_getElem?_getD]
      rw [gfCtrlStepCount_one _ (by decide), hsame, getD_overlongInput, if_neg (by decide)]
      decide
    unfold lifecycleProgram
    dsimp only
    rw [hcut, hcount, if_neg (by decide)]
    rfl

end GovFuzz.ForkServer
