import GovFuzz.FuzzEngine.BoundedRange

/-!
# CRuntime — the control channel of a sequence harness

`GF_CTRL_LEN`, `gf_open_data`, `gf_ctrl_step_count`, `gf_ctrl_bounded` and
`gf_ctrl_op` of `c_runtime/govfuzz_decode.h`.  Each read of the buffer is
logged, so that what a decoder looks at can be spoken of.  `size_t` has 64
bits.
-/

namespace GovFuzz.CRuntime

open GovFuzz.Lib GovFuzz.FuzzEngine

/-! ## Decoders -/

/-- A decoder with the log of the indices it reads. -/
abbrev Decoder (α : Type) := List Nat → α × List Nat

namespace Decoder

variable {α β : Type}

def pure (a : α) : Decoder α := fun log => (a, log)

def bind (m : Decoder α) (f : α → Decoder β) : Decoder β := fun log => f (m log).1 (m log).2

/-- `data[at]`. -/
def byte (data : List UInt8) (index : Nat) : Decoder UInt8 := fun log =>
  (data.getD index 0, log ++ [index])

def value (m : Decoder α) : α := (m []).1

def reads (m : Decoder α) : List Nat := (m []).2

instance : Monad Decoder where
  pure := pure
  bind := bind

end Decoder

def gfCtrlSlot : Nat := 5

def gfCtrlLen (maxSteps : Nat) : Nat := (1 + maxSteps * gfCtrlSlot) % usizeSize

structure GfCursor where
  size : Nat
  pos : Nat
  deriving DecidableEq

def gfOpenData (size ctrlLen : Nat) : GfCursor where
  size := if size > ctrlLen then size - ctrlLen else size
  pos := 0

def gfCtrlStepCount (data : List UInt8) (size maxSteps : Nat) : Decoder Nat :=
  let ctrlLen := gfCtrlLen maxSteps
  if maxSteps = 0 ∨ size < ctrlLen then Pure.pure 0
  else do
    let count ← Decoder.byte data (size - ctrlLen)
    Pure.pure (count.toNat % ((maxSteps + 1) % usizeSize))

/-- The `switch` of `gf_ctrl_bounded` and the clamp behind it. -/
def gfBoundary (selector : UInt8) (min max : UInt32) : UInt32 :=
  let raw := match (selector % 6).toNat with
    | 0 => min
    | 1 => min + 1
    | 2 => max - 1
    | 3 => max
    | 4 => 0
    | _ => 0xffffffff
  let raw := if raw < min then min else raw
  if raw > max then max else raw

/-- The four bytes as a little-endian word. -/
def gfWord (b1 b2 b3 b4 : UInt8) : UInt32 :=
  b1.toUInt32 ||| (b2.toUInt32 <<< 8) ||| (b3.toUInt32 <<< 16) ||| (b4.toUInt32 <<< 24)

def gfCtrlBounded (data : List UInt8) (index : Nat) (min max : UInt32) : Decoder UInt32 :=
  if max ≤ min then Pure.pure min
  else do
    let selector ← Decoder.byte data index
    if selector % 4 = 0 then Pure.pure (gfBoundary selector min max)
    else do
      let b1 ← Decoder.byte data (index + 1)
      let b2 ← Decoder.byte data (index + 2)
      let b3 ← Decoder.byte data (index + 3)
      let b4 ← Decoder.byte data (index + 4)
      Pure.pure (min + gfWord b1 b2 b3 b4 % (max - min + 1))

def gfCtrlOp (data : List UInt8) (size step maxSteps : Nat) (opCount : UInt32) :
    Decoder UInt32 :=
  let ctrlLen := gfCtrlLen maxSteps
  if opCount = 0 ∨ step ≥ maxSteps ∨ size < ctrlLen then Pure.pure 0
  else gfCtrlBounded data ((size - ctrlLen + 1 + step * gfCtrlSlot) % usizeSize) 0 (opCount - 1)

/-! ## What is read -/

theorem gfCtrlLen_eq {maxSteps : Nat} (h : 1 + maxSteps * gfCtrlSlot < usizeSize) :
    gfCtrlLen maxSteps = 1 + maxSteps * gfCtrlSlot := Nat.mod_eq_of_lt h

theorem gfCtrlStepCount_reads (data : List UInt8) {size maxSteps : Nat} (hsteps : 1 ≤ maxSteps) :
    (gfCtrlStepCount data size maxSteps).reads
      = if size < gfCtrlLen maxSteps then [] else [size - gfCtrlLen maxSteps] := by
  have hzero : maxSteps ≠ 0 := by omega
  unfold gfCtrlStepCount
  by_cases h : size < gfCtrlLen maxSteps
  · rw [if_pos (.inr h), if_pos h]
    rfl
  · rw [if_neg (by simp [hzero, h]), if_neg h]
    rfl

/-- One value, with the bytes looked at. -/
theorem gfCtrlBounded_eq (data : List UInt8) (index : Nat) {min max : UInt32} (h : min < max)
    (log : List Nat) :
    gfCtrlBounded data index min max log =
      if data.getD index 0 % 4 = 0 then
        (gfBoundary (data.getD index 0) min max, log ++ [index])
      else
        (min + gfWord (data.getD (index + 1) 0) (data.getD (index + 2) 0)
            (data.getD (index + 3) 0) (data.getD (index + 4) 0) % (max - min + 1),
          log ++ [index] ++ [index + 1] ++ [index + 2] ++ [index + 3] ++ [index + 4]) := by
  rw [gfCtrlBounded, if_neg (UInt32.not_le.mpr h)]
  show (if (Decoder.byte data index log).1 % 4 = 0 then _ else _ : Decoder UInt32) _ = _
  by_cases hselector : data.getD index 0 % 4 = 0
  · have hfirst : (Decoder.byte data index log).1 % 4 = 0 := hselector
    rw [if_pos hfirst, if_pos hselector]
    rfl
  · have hfirst : ¬ (Decoder.byte data index log).1 % 4 = 0 := hselector
    rw [if_neg hfirst, if_neg hselector]
    rfl

theorem mem_gfCtrlBounded_reads {data : List UInt8} {index i : Nat} {min max : UInt32}
    (h : i ∈ (gfCtrlBounded data index min max).reads) : index ≤ i ∧ i < index + 5 := by
  by_cases hle : max ≤ min
  · rw [gfCtrlBounded, if_pos hle] at h
    cases h
  · rw [Decoder.reads, gfCtrlBounded_eq data index (UInt32.not_le.mp hle)] at h
    split at h
    · simp only [List.nil_append, List.mem_singleton] at h
      omega
    · simp only [List.nil_append, List.cons_append, List.mem_cons, List.not_mem_nil,
        or_false] at h
      omega

/-- Everything a decoder of operations reads lies in the last bytes. -/
theorem mem_gfCtrlOp_reads {data : List UInt8} {size step maxSteps i : Nat} {opCount : UInt32}
    (hlen : 1 + maxSteps * gfCtrlSlot < usizeSize) (hsize : size < usizeSize)
    (h : i ∈ (gfCtrlOp data size step maxSteps opCount).reads) :
    gfCtrlLen maxSteps ≤ size ∧ size - gfCtrlLen maxSteps < i ∧ i < size := by
  simp only [gfCtrlOp] at h
  split at h
  · cases h
  · rename_i hgo
    have hstep : step < maxSteps ∧ gfCtrlLen maxSteps ≤ size := by omega
    have hread := mem_gfCtrlBounded_reads h
    rw [gfCtrlLen_eq hlen] at hread hstep ⊢
    unfold gfCtrlSlot at hread hstep ⊢
    rw [Nat.mod_eq_of_lt (by omega)] at hread
    omega

/-! ## Arguments and control -/

/-- The bytes from the count byte on, if there is room for all of them. -/
def controlRegion (size maxSteps : Nat) : List Nat :=
  if size < gfCtrlLen maxSteps then []
  else (List.range size).filter fun i => size - gfCtrlLen maxSteps ≤ i

/-- The bytes the typed decoders may consume. -/
def argumentRegion (size maxSteps : Nat) : List Nat :=
  List.range (gfOpenData size (gfCtrlLen maxSteps)).size

/-- Two buffers that differ in the argument region only. -/
def SameOutside (size maxSteps : Nat) (data data' : List UInt8) : Prop :=
  ∀ i, i ∉ argumentRegion size maxSteps → data.getD i 0 = data'.getD i 0

/-- No byte means two things: what the control decoders read lies outside the
argument region, the regions make up the buffer, and an edit of arguments
leaves the program alone. -/
structure Separated (data : List UInt8) (maxSteps : Nat) : Prop where
  count : ∀ i ∈ (gfCtrlStepCount data data.length maxSteps).reads,
    i ∈ controlRegion data.length maxSteps ∧ i ∉ argumentRegion data.length maxSteps
  op : ∀ step opCount, ∀ i ∈ (gfCtrlOp data data.length step maxSteps opCount).reads,
    i ∈ controlRegion data.length maxSteps ∧ i ∉ argumentRegion data.length maxSteps
  whole : ∀ i, i < data.length ↔
    i ∈ argumentRegion data.length maxSteps ∨ i ∈ controlRegion data.length maxSteps
  edit : ∀ data', data'.length = data.length → SameOutside data.length maxSteps data data' →
    (gfCtrlStepCount data' data.length maxSteps).value
        = (gfCtrlStepCount data data.length maxSteps).value ∧
      ∀ step opCount, (gfCtrlOp data' data.length step maxSteps opCount).value
        = (gfCtrlOp data data.length step maxSteps opCount).value

/-- The value depends on the bytes that are read. -/
theorem gfCtrlBounded_congr {data data' : List UInt8} {index : Nat} {min max : UInt32}
    (h : ∀ i, index ≤ i → i < index + 5 → data.getD i 0 = data'.getD i 0) :
    gfCtrlBounded data' index min max = gfCtrlBounded data index min max := by
  have hbyte : ∀ k < 5, Decoder.byte data' (index + k) = Decoder.byte data (index + k) := by
    intro k hk
    unfold Decoder.byte
    rw [h (index + k) (by omega) (by omega)]
  have h0 := hbyte 0 (by omega)
  rw [Nat.add_zero] at h0
  unfold gfCtrlBounded
  rw [h0, hbyte 1 (by omega), hbyte 2 (by omega), hbyte 3 (by omega), hbyte 4 (by omega)]

theorem mem_controlRegion {size maxSteps i : Nat} :
    i ∈ controlRegion size maxSteps ↔
      gfCtrlLen maxSteps ≤ size ∧ size - gfCtrlLen maxSteps ≤ i ∧ i < size := by
  unfold controlRegion
  split
  · rename_i hlt
    simp only [List.not_mem_nil, false_iff]
    omega
  · simp only [List.mem_filter, List.mem_range, decide_eq_true_eq]
    omega

theorem mem_argumentRegion {size maxSteps i : Nat} :
    i ∈ argumentRegion size maxSteps ↔
      if gfCtrlLen maxSteps < size then i < size - gfCtrlLen maxSteps else i < size := by
  unfold argumentRegion gfOpenData
  split <;> simp [*]

/-- Argument and control bytes are separated for every buffer but those that
are exactly as long as the control channel: there `gf_open_data` takes all of
the channel for arguments. -/
theorem separated_iff (data : List UInt8) {maxSteps : Nat} (hsteps : 1 ≤ maxSteps)
    (hlen : 1 + maxSteps * gfCtrlSlot < usizeSize) (hsize : data.length < usizeSize) :
    Separated data maxSteps ↔ data.length ≠ gfCtrlLen maxSteps := by
  have hpos : 0 < gfCtrlLen maxSteps := by
    rw [gfCtrlLen_eq hlen]
    omega
  constructor
  · -- at equality the count is read from a byte that the arguments have too
    intro h heq
    have hread : data.length - gfCtrlLen maxSteps ∈
        (gfCtrlStepCount data data.length maxSteps).reads := by
      rw [gfCtrlStepCount_reads data hsteps, if_neg (by omega)]
      exact List.mem_singleton_self _
    have hout := (h.count _ hread).2
    rw [mem_argumentRegion, if_neg (by omega)] at hout
    omega
  · intro hne
    have hcontrol : ∀ i, i ∈ controlRegion data.length maxSteps →
        i ∉ argumentRegion data.length maxSteps := by
      intro i hi
      rw [mem_controlRegion] at hi
      rw [mem_argumentRegion, if_pos (by omega)]
      omega
    refine ⟨?_, ?_, ?_, ?_⟩
    · intro i hi
      rw [gfCtrlStepCount_reads data hsteps] at hi
      split at hi
      · cases hi
      · rw [List.mem_singleton] at hi
        have hmem : i ∈ controlRegion data.length maxSteps := by
          rw [mem_controlRegion]
          omega
        exact ⟨hmem, hcontrol i hmem⟩
    · intro step opCount i hi
      have hread := mem_gfCtrlOp_reads hlen hsize hi
      have hmem : i ∈ controlRegion data.length maxSteps := by
        rw [mem_controlRegion]
        omega
      exact ⟨hmem, hcontrol i hmem⟩
    · intro i
      rw [mem_controlRegion, mem_argumentRegion]
      split <;> omega
    · intro data' hlen' hsame
      have hagree : ∀ i, i ∈ controlRegion data.length maxSteps →
          data.getD i 0 = data'.getD i 0 := fun i hi => hsame i (hcontrol i hi)
      constructor
      · simp only [gfCtrlStepCount]
        split
        · rfl
        · rename_i hgo
          have hbyte : Decoder.byte data' (data.length - gfCtrlLen maxSteps)
              = Decoder.byte data (data.length - gfCtrlLen maxSteps) := by
            unfold Decoder.byte
            rw [hagree _ (by rw [mem_controlRegion]; omega)]
          simp only [hbyte]
      · intro step opCount
        simp only [gfCtrlOp]
        split
        · rfl
        · rename_i hgo
          rw [gfCtrlBounded_congr]
          intro i hle hlt
          apply hagree
          rw [mem_controlRegion]
          rw [gfCtrlLen_eq hlen] at hle hlt hgo ⊢
          unfold gfCtrlSlot at hle hlt hgo ⊢
          rw [Nat.mod_eq_of_lt (by omega)] at hle hlt
          omega

theorem separated_of_length_fifty :
    (List.replicate 50 (7 : UInt8)).length ≠ gfCtrlLen 8 ∧
      Separated (List.replicate 50 (7 : UInt8)) 8 :=
  ⟨by decide, (separated_iff (List.replicate 50 (7 : UInt8)) (by decide) (by decide)
    (by decide)).mpr (by decide)⟩

/-- Six bytes and one step: the count byte is also the first argument byte. -/
theorem not_separated_at_control_length : ¬ Separated [1, 0, 0, 0, 0, 0] 1 := by
  intro h
  have hread : 0 ∈ (gfCtrlStepCount [1, 0, 0, 0, 0, 0] 6 1).reads := by decide
  have hargument : 0 ∈ argumentRegion 6 1 := by decide
  exact (h.count 0 hread).2 hargument

end GovFuzz.CRuntime
