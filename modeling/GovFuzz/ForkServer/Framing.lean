import GovFuzz.AdaRuntime.Input
import GovFuzz.CRuntime.Driver

/-!
# ForkServer — both harnesses stay in step with the engine

The engine clamps every frame to `framedInputCap` and never sends an empty
one; the two facts are what the harness loops rely on.
-/

namespace GovFuzz.ForkServer

open GovFuzz.Lib GovFuzz.CRuntime GovFuzz.AdaRuntime

/-- The C driver serves every frame.  The Ada harness, given a buffer that
holds each frame's payload, serves every frame in front of the first empty
one, which it takes for the end of the inputs. -/
theorem framed_harnesses_in_step :
    (∀ (inputs : List (List UInt8)) (stdin : Pipe), stdin.pending = sentFrames inputs →
      framedMain stdin = .control 1 :: served framedInputCap 1 0 inputs) ∧
    (∀ (bufLength : Nat) (inputs : List (List UInt8)) (stdin : Pipe),
      stdin.pending = sentFrames inputs →
      (∀ input ∈ inputs, min input.length framedInputCap ≤ bufLength) →
      harnessLoop bufLength 0 stdin
        = .control 10 :: served framedInputCap 10 0 (inputs.takeWhile (· ≠ []))) := by
  constructor
  · intro inputs stdin h
    rw [framedMain, ← framedLoop_frames inputs 0 h, framedInputCap]
  · intro bufLength inputs stdin h hfits
    exact harnessLoop_frames inputs 0 h hfits

/-- Two frames that arrive in three reads, the first read ending inside the
first length field. -/
theorem framed_harnesses_in_step_split_reads :
    framedMain [[2, 0], [0, 0, 7, 8, 1], [0, 0, 0, 9]]
      = .control 1 :: served framedInputCap 1 0 [[7, 8], [9]] ∧
    harnessLoop 2 0 [[2, 0], [0, 0, 7, 8, 1], [0, 0, 0, 9]]
      = .control 10 :: served framedInputCap 10 0 [[7, 8], [9]] :=
  ⟨framed_harnesses_in_step.1 [[7, 8], [9]] _ (by decide),
    framed_harnesses_in_step.2 2 [[7, 8], [9]] _ (by decide) (by decide)⟩

/-- The Ada harness does not execute an empty input, nor anything after it;
and with a one-byte buffer the tail of a frame is read as the next frame, so
that one input makes two testcases. -/
theorem harnessLoop_not_every_input :
    ¬ (∀ (bufLength : Nat) (inputs : List (List UInt8)) (stdin : Pipe),
      stdin.pending = sentFrames inputs →
      harnessLoop bufLength 0 stdin
        = .control 10 :: served (min framedInputCap bufLength) 10 0 inputs) ∧
    harnessLoop 8 0 [sentFrames [[], [7]]] = [.control 10, .stop 0] ∧
    harnessLoop 1 0 [sentFrames [[7, 1, 0, 0, 0, 9]]]
      = [.control 10, .testcase 0 4 [7], .control 10, .testcase 5 9 [9],
          .control 10, .stop 10] := by
  have hempty : harnessLoop 8 0 [sentFrames [[], [7]]] = [.control 10, .stop 0] := by
    decide +kernel
  refine ⟨fun hall => ?_, hempty, by decide +kernel⟩
  have hclaim := hall 8 [[], [7]] [sentFrames [[], [7]]] (by simp [Pipe.pending])
  rw [hempty] at hclaim
  simp [served] at hclaim

end GovFuzz.ForkServer
