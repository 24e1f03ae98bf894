import GovFuzz.Lib.Bytes
import Mathlib.Data.List.Basic

/-!
# ForkServer — the framed protocol

The engine's side of the persistent fork server (`write_input_frame` of
`crates/cli/src/fuzz.rs`) and the vocabulary in which a harness run is
observed: what it executes, which control bytes it writes, and from which
stream offsets it took each length and payload.
-/

namespace GovFuzz.ForkServer

open GovFuzz.Lib

/-- All runtimes use a 1 MiB input buffer; the engine clamps to it. -/
def framedInputCap : Nat := 1 <<< 20

/-- One `{u32 LE length}{length bytes}` frame. -/
def writeInputFrame (input : List UInt8) : List UInt8 :=
  let capped := min input.length framedInputCap
  leBytes 4 capped ++ input.take capped

/-- The stream a sequence of inputs is sent as. -/
def sentFrames (inputs : List (List UInt8)) : List UInt8 := inputs.flatMap writeInputFrame

/-- What a persistent harness does, in order.  `testcase` names the stream
offsets its length field and its payload were read from; `stop` is the
offset at which the last, unserved, length field was looked for. -/
inductive Act where
  | control (byte : UInt8)
  | testcase (lengthAt payloadAt : Nat) (input : List UInt8)
  | stop (lengthAt : Nat)
  deriving DecidableEq, Repr

/-- The run of a harness that stays in step: input by input, each one cut
to `cap`, read from its own frame, and answered by one sync byte. -/
def served (cap : Nat) (sync : UInt8) : Nat → List (List UInt8) → List Act
  | offset, [] => [.stop offset]
  | offset, input :: inputs =>
      .testcase offset (offset + 4) (input.take cap) :: .control sync ::
        served cap sync (offset + (writeInputFrame input).length) inputs

theorem writeInputFrame_length (input : List UInt8) :
    (writeInputFrame input).length = 4 + min input.length framedInputCap := by
  simp [writeInputFrame]

theorem leNat_header (input : List UInt8) :
    leNat (leBytes 4 (min input.length framedInputCap)) = min input.length framedInputCap := by
  apply leNat_leBytes
  have : min input.length framedInputCap ≤ framedInputCap := Nat.min_le_right _ _
  calc min input.length framedInputCap ≤ framedInputCap := this
    _ < 256 ^ 4 := by decide

/-- The bytes a frame puts in front of the rest of the stream. -/
theorem writeInputFrame_take_four (input rest : List UInt8) :
    (writeInputFrame input ++ rest).take 4 = leBytes 4 (min input.length framedInputCap) := by
  simp only [writeInputFrame, List.append_assoc]
  exact List.take_left' (leBytes_length 4 _)

theorem writeInputFrame_drop_four (input rest : List UInt8) :
    (writeInputFrame input ++ rest).drop 4
      = input.take (min input.length framedInputCap) ++ rest := by
  simp only [writeInputFrame, List.append_assoc]
  exact List.drop_left' (leBytes_length 4 _)

end GovFuzz.ForkServer
