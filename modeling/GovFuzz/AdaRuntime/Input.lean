import GovFuzz.ForkServer.Protocol
import GovFuzz.Lib.Pipe

/-!
# AdaRuntime — framed input of the Ada harness

`Load_From_Stdin` of `ada_runtime/adafuzz-input.adb` in framed mode, and the
`loop … end loop` that every generated harness runs around it.  Unlike the C
driver, a payload cut short by the end of the stream is still handed out, and
an empty frame is taken for "no more inputs".
-/

namespace GovFuzz.AdaRuntime

open GovFuzz.Lib GovFuzz.ForkServer

/-- `Load_From_Stdin` after its `Write_Sync`: the slice `Buf'First .. Last`,
empty where the source sets `Last := Buf'First - 1`.  `Read_Exact` is the
pipe's `readLoop`. -/
def loadFromStdin (bufLength : Nat) (stdin : Pipe) : List UInt8 × Pipe :=
  let lenBytes := stdin.readLoop 4
  if lenBytes.1.length < 4 then ([], lenBytes.2)
  else
    let length := leNat lenBytes.1
    if length ≤ 0 then ([], lenBytes.2)
    else lenBytes.2.readLoop (if length > bufLength then bufLength else length)

/-- A load that hands out something has taken a length field off the stream. -/
theorem loadFromStdin_shrinks {bufLength : Nat} {stdin : Pipe}
    (h : (loadFromStdin bufLength stdin).1 ≠ []) :
    (loadFromStdin bufLength stdin).2.pending.length < stdin.pending.length := by
  revert h
  unfold loadFromStdin
  simp only [Pipe.readLoop_fst, List.length_take]
  split
  · simp
  · split
    · simp
    · intro _
      simp only [Pipe.readLoop_snd, List.length_drop]
      omega

/-- The harness `loop`, with the stream offset of the next frame carried
along: sync byte, load, `exit when Last < Buf'First`, one testcase. -/
def harnessLoop (bufLength offset : Nat) (stdin : Pipe) : List Act :=
  let load := loadFromStdin bufLength stdin
  if _h : load.1 = [] then [.control 10, .stop offset]
  else
    .control 10 :: .testcase offset (offset + 4) load.1 ::
      harnessLoop bufLength (offset + (stdin.pending.length - load.2.pending.length)) load.2
termination_by stdin.pending.length
decreasing_by exact loadFromStdin_shrinks _h

theorem harnessLoop_end {stdin : Pipe} (h : stdin.pending = []) (bufLength offset : Nat) :
    harnessLoop bufLength offset stdin = [.control 10, .stop offset] := by
  have hload : (loadFromStdin bufLength stdin).1 = [] := by
    simp [loadFromStdin, Pipe.readLoop_fst, h]
  rw [harnessLoop]
  simp only [dif_pos hload]

/-- What one load does with the frame in front of it. -/
theorem loadFromStdin_frame {stdin : Pipe} {input rest : List UInt8} (bufLength : Nat)
    (h : stdin.pending = writeInputFrame input ++ rest) :
    loadFromStdin bufLength stdin
      = if input = [] then ([], (stdin.readLoop 4).2)
        else (stdin.readLoop 4).2.readLoop (min (min input.length framedInputCap) bufLength) := by
  have hcap : framedInputCap ≠ 0 := by decide
  simp only [loadFromStdin, Pipe.readLoop_fst, h, writeInputFrame_take_four, leNat_header,
    leBytes_length, lt_irrefl, if_false]
  by_cases hempty : input = []
  · simp [hempty]
  · have hpos := List.length_pos_iff.mpr hempty
    rw [if_neg (by omega), if_neg hempty]
    congr 1
    split <;> omega

/-- A non-empty frame that fits the buffer is one testcase, and the loop goes
on exactly behind it. -/
theorem harnessLoop_frame {stdin : Pipe} {input rest : List UInt8} {bufLength : Nat} (offset : Nat)
    (h : stdin.pending = writeInputFrame input ++ rest) (hne : input ≠ [])
    (hfits : min input.length framedInputCap ≤ bufLength) :
    ∃ stdin' : Pipe, stdin'.pending = rest ∧
      harnessLoop bufLength offset stdin
        = .control 10 :: .testcase offset (offset + 4) (input.take framedInputCap) ::
            harnessLoop bufLength (offset + (writeInputFrame input).length) stdin' := by
  have hrest : (stdin.readLoop 4).2.pending
      = input.take (min input.length framedInputCap) ++ rest := by
    rw [Pipe.readLoop_snd, h, writeInputFrame_drop_four]
  have hcount : (input.take (min input.length framedInputCap)).length
      = min input.length framedInputCap := by
    rw [List.length_take]
    omega
  have hcut : input.take (min input.length framedInputCap) = input.take framedInputCap := by
    rw [Nat.min_comm, List.take_eq_take_min (i := framedInputCap)]
  have hload := loadFromStdin_frame bufLength h
  rw [if_neg hne, Nat.min_eq_left hfits] at hload
  have hfst : (loadFromStdin bufLength stdin).1 = input.take framedInputCap := by
    rw [hload, Pipe.readLoop_fst, hrest, List.take_left' hcount, hcut]
  have hsnd : (loadFromStdin bufLength stdin).2.pending = rest := by
    rw [hload, Pipe.readLoop_snd, hrest, List.drop_left' hcount]
  have hsome : input.take framedInputCap ≠ [] := by
    have hcap : framedInputCap ≠ 0 := by decide
    simp [hne, hcap]
  refine ⟨(loadFromStdin bufLength stdin).2, hsnd, ?_⟩
  rw [harnessLoop]
  simp only [hfst, hsnd, h, dif_neg hsome, List.length_append, Nat.add_sub_cancel]

/-- The empty frame ends the loop. -/
theorem harnessLoop_empty_frame {stdin : Pipe} {rest : List UInt8} (bufLength offset : Nat)
    (h : stdin.pending = writeInputFrame [] ++ rest) :
    harnessLoop bufLength offset stdin = [.control 10, .stop offset] := by
  have hload : (loadFromStdin bufLength stdin).1 = [] := by
    rw [loadFromStdin_frame bufLength h, if_pos rfl]
  rw [harnessLoop]
  simp only [dif_pos hload]

/-- Over any cutting of the stream into reads, the harness serves the inputs
one by one, up to the first empty one. -/
theorem harnessLoop_frames (inputs : List (List UInt8)) {stdin : Pipe} {bufLength : Nat}
    (offset : Nat) (h : stdin.pending = sentFrames inputs)
    (hfits : ∀ input ∈ inputs, min input.length framedInputCap ≤ bufLength) :
    harnessLoop bufLength offset stdin
      = .control 10 :: served framedInputCap 10 offset (inputs.takeWhile (· ≠ [])) := by
  induction inputs generalizing stdin offset with
  | nil => exact harnessLoop_end h _ _
  | cons input inputs ih =>
      have hsplit : stdin.pending = writeInputFrame input ++ sentFrames inputs := by
        rw [h, sentFrames, List.flatMap_cons, sentFrames]
      by_cases hne : input = []
      · subst hne
        exact harnessLoop_empty_frame bufLength offset hsplit
      · obtain ⟨stdin', hrest, hloop⟩ :=
          harnessLoop_frame offset hsplit hne (hfits input List.mem_cons_self)
        have htail := ih (offset + (writeInputFrame input).length) hrest
          fun i hi => hfits i (List.mem_cons_of_mem _ hi)
        rw [hloop, htail, List.takeWhile_cons, if_pos (by simpa using hne), served]

end GovFuzz.AdaRuntime
