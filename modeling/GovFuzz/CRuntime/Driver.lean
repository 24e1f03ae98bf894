import GovFuzz.ForkServer.Protocol
import GovFuzz.Lib.Pipe

/-!
# CRuntime — the persistent loop of the C driver

The `GOVFUZZ_FRAMED` branch of `main` in `c_runtime/govfuzz_driver.c`.
`cap` is the size of the driver's buffer; a length above it is clamped and
only the clamped number of bytes is read.
-/

namespace GovFuzz.CRuntime

open GovFuzz.Lib GovFuzz.ForkServer

/-- `govfuzz_read_n`: `n` bytes, or failure at the end of the stream. -/
def govfuzzReadN (n : Nat) (stdin : Pipe) : Option (List UInt8) × Pipe :=
  let r := stdin.readLoop n
  (if r.1.length = n then some r.1 else none, r.2)

theorem govfuzzReadN_of_le {n : Nat} {stdin : Pipe} (h : n ≤ stdin.pending.length) :
    (govfuzzReadN n stdin).1 = some (stdin.pending.take n) := by
  simp [govfuzzReadN, Pipe.readLoop_fst, h]

theorem govfuzzReadN_of_lt {n : Nat} {stdin : Pipe} (h : stdin.pending.length < n) :
    (govfuzzReadN n stdin).1 = none := by
  simp only [govfuzzReadN, Pipe.readLoop_fst, List.length_take]
  rw [if_neg (by omega)]

theorem govfuzzReadN_pending (n : Nat) (stdin : Pipe) :
    (govfuzzReadN n stdin).2.pending = stdin.pending.drop n :=
  Pipe.readLoop_snd n stdin

theorem length_of_govfuzzReadN {n : Nat} {stdin : Pipe} {bytes : List UInt8}
    (h : (govfuzzReadN n stdin).1 = some bytes) : n ≤ stdin.pending.length := by
  by_contra hlt
  rw [govfuzzReadN_of_lt (by omega)] at h
  cases h

/-- The `for (;;)` loop. -/
def framedLoop (cap offset : Nat) (stdin : Pipe) : List Act :=
  match _h : (govfuzzReadN 4 stdin).1 with
  | none => [.stop offset]
  | some header =>
      let len := if leNat header > cap then cap else leNat header
      let body := govfuzzReadN len (govfuzzReadN 4 stdin).2
      match body.1 with
      | none => [.stop offset]
      | some payload =>
          .testcase offset (offset + 4) payload :: .control 1 ::
            framedLoop cap (offset + 4 + len) body.2
termination_by stdin.pending.length
decreasing_by
  have := length_of_govfuzzReadN _h
  simp only [govfuzzReadN_pending, List.length_drop]
  omega

/-- The framed run: the ready byte, then the loop over a `1u << 20` buffer. -/
def framedMain (stdin : Pipe) : List Act := .control 1 :: framedLoop (1 <<< 20) 0 stdin

theorem framedLoop_end {stdin : Pipe} (h : stdin.pending = []) (cap offset : Nat) :
    framedLoop cap offset stdin = [.stop offset] := by
  have hnone : (govfuzzReadN 4 stdin).1 = none := govfuzzReadN_of_lt (by simp [h])
  rw [framedLoop]
  split <;> simp_all

/-- One frame in front of the stream is one testcase and one sync byte, and
the loop goes on exactly behind the frame. -/
theorem framedLoop_frame {stdin : Pipe} {input rest : List UInt8} (offset : Nat)
    (h : stdin.pending = writeInputFrame input ++ rest) :
    ∃ stdin' : Pipe, stdin'.pending = rest ∧
      framedLoop framedInputCap offset stdin
        = .testcase offset (offset + 4) (input.take framedInputCap) :: .control 1 ::
            framedLoop framedInputCap (offset + (writeInputFrame input).length) stdin' := by
  have hheader : (govfuzzReadN 4 stdin).1
      = some (leBytes 4 (min input.length framedInputCap)) := by
    have hlong : 4 ≤ stdin.pending.length := by
      rw [h, List.length_append, writeInputFrame_length]
      omega
    rw [govfuzzReadN_of_le hlong, h, writeInputFrame_take_four]
  have hrest : (govfuzzReadN 4 stdin).2.pending
      = input.take (min input.length framedInputCap) ++ rest := by
    rw [govfuzzReadN_pending, h, writeInputFrame_drop_four]
  have hlen : (if leNat (leBytes 4 (min input.length framedInputCap)) > framedInputCap
        then framedInputCap else leNat (leBytes 4 (min input.length framedInputCap)))
      = (input.take (min input.length framedInputCap)).length := by
    rw [leNat_header, if_neg (by omega), List.length_take]
    omega
  -- the writer and the reader cut at the same cap
  have hcut : input.take (min input.length framedInputCap) = input.take framedInputCap := by
    rw [Nat.min_comm, List.take_eq_take_min (i := framedInputCap)]
  refine ⟨(govfuzzReadN (input.take (min input.length framedInputCap)).length
    (govfuzzReadN 4 stdin).2).2, ?_, ?_⟩
  · rw [govfuzzReadN_pending, hrest, List.drop_left]
  · have hbody : (govfuzzReadN (input.take (min input.length framedInputCap)).length
          (govfuzzReadN 4 stdin).2).1 = some (input.take framedInputCap) := by
      rw [govfuzzReadN_of_le (by simp [hrest]), hrest, List.take_left, hcut]
    rw [framedLoop]
    split
    · simp_all
    · rename_i header hh
      rw [hheader] at hh
      cases hh
      simp only [hlen, hbody]
      rw [writeInputFrame_length, List.length_take, Nat.min_eq_left (Nat.min_le_left _ _),
        Nat.add_assoc]

/-- Over any cutting of the stream into reads, the driver serves the inputs
one by one. -/
theorem framedLoop_frames (inputs : List (List UInt8)) {stdin : Pipe} (offset : Nat)
    (h : stdin.pending = sentFrames inputs) :
    framedLoop framedInputCap offset stdin = served framedInputCap 1 offset inputs := by
  induction inputs generalizing stdin offset with
  | nil => exact framedLoop_end h _ _
  | cons input inputs ih =>
      have hsplit : stdin.pending = writeInputFrame input ++ sentFrames inputs := by
        rw [h, sentFrames, List.flatMap_cons, sentFrames]
      obtain ⟨stdin', hrest, hloop⟩ := framedLoop_frame offset hsplit
      rw [hloop, ih _ hrest, served]

end GovFuzz.CRuntime
