import GovFuzz.CRuntime.Control

/-!
# CRuntime — the harness and the engine select the same operation

`gf_ctrl_op` computes in `uint32_t`, `decode_bounded_range` in `usize` with a
clamp; the header says the two must agree.
-/

namespace GovFuzz.CRuntime

open GovFuzz.Lib GovFuzz.FuzzEngine

theorem shiftLeft_or {a b k : Nat} (h : a < 2 ^ k) : a ||| b <<< k = a + b * 2 ^ k := by
  rw [Nat.or_comm, ← Nat.shiftLeft_add_eq_or_of_lt h, Nat.shiftLeft_eq, Nat.add_comm]

/-- The four bytes are read as one little-endian word. -/
theorem gfWord_toNat (b1 b2 b3 b4 : UInt8) :
    (gfWord b1 b2 b3 b4).toNat = leNat [b1, b2, b3, b4] := by
  have h1 := b1.toNat_lt
  have h2 := b2.toNat_lt
  have h3 := b3.toNat_lt
  have h4 := b4.toNat_lt
  have hshift : ∀ (b : UInt8) (k : UInt32), k.toNat ≤ 24 →
      (b.toUInt32 <<< k).toNat = b.toNat <<< k.toNat := by
    intro b k hk
    have hb := b.toNat_lt
    rw [UInt32.toNat_shiftLeft, UInt8.toNat_toUInt32, Nat.mod_eq_of_lt (by omega : k.toNat < 32),
      Nat.mod_eq_of_lt]
    rw [Nat.shiftLeft_eq]
    calc b.toNat * 2 ^ k.toNat < 2 ^ 8 * 2 ^ k.toNat :=
          Nat.mul_lt_mul_of_pos_right hb (Nat.two_pow_pos _)
      _ ≤ 2 ^ 8 * 2 ^ 24 := Nat.mul_le_mul_left _ (Nat.pow_le_pow_right (by omega) hk)
  have hor : (gfWord b1 b2 b3 b4).toNat
      = b1.toNat ||| b2.toNat <<< 8 ||| b3.toNat <<< 16 ||| b4.toNat <<< 24 := by
    rw [gfWord, UInt32.toNat_or, UInt32.toNat_or, UInt32.toNat_or, hshift b2 8 (by decide),
      hshift b3 16 (by decide), hshift b4 24 (by decide), UInt8.toNat_toUInt32]
    rfl
  have hlow : b1.toNat + b2.toNat * 2 ^ 8 < 2 ^ 16 := by omega
  have hmid : b1.toNat + b2.toNat * 2 ^ 8 + b3.toNat * 2 ^ 16 < 2 ^ 24 := by omega
  rw [hor, shiftLeft_or (by omega : b1.toNat < 2 ^ 8), shiftLeft_or hlow, shiftLeft_or hmid]
  simp only [leNat]
  omega

/-- Boundary values. -/
theorem gfBoundary_toNat (selector : UInt8) {min max : UInt32} (h : min < max) :
    (gfBoundary selector min max).toNat
      = selectorBoundedValue selector min.toNat max.toNat := by
  have hlt : min.toNat < max.toNat := UInt32.lt_iff_toNat_lt.mp h
  have hmax := max.toNat_lt
  have hsucc : (min + 1).toNat = min.toNat + 1 := by
    rw [UInt32.toNat_add, UInt32.toNat_one]
    omega
  have hpred : (max - 1).toNat = max.toNat - 1 := by
    rw [UInt32.toNat_sub_of_le _ _ (by rw [UInt32.le_iff_toNat_le, UInt32.toNat_one]; omega),
      UInt32.toNat_one]
  have hmod : (selector % 6).toNat = selector.toNat % 6 := UInt8.toNat_mod selector 6
  have hword : usizeSize = 18446744073709551616 := rfl
  have hclamp : ∀ raw : UInt32,
      (if (if raw < min then min else raw) > max then max else
        if raw < min then min else raw).toNat = clamp raw.toNat min.toNat max.toNat := by
    intro raw
    unfold clamp
    by_cases hlow : raw < min
    · have hraw : raw.toNat < min.toNat := UInt32.lt_iff_toNat_lt.mp hlow
      have hnot : ¬ min > max := by
        rw [gt_iff_lt, UInt32.lt_iff_toNat_lt]
        omega
      rw [if_pos hlow, if_neg hnot]
      omega
    · have hraw : ¬ raw.toNat < min.toNat := fun hc => hlow (UInt32.lt_iff_toNat_lt.mpr hc)
      rw [if_neg hlow]
      by_cases hhigh : raw > max
      · have hraw' : max.toNat < raw.toNat := UInt32.lt_iff_toNat_lt.mp hhigh
        rw [if_pos hhigh]
        omega
      · have hraw' : ¬ max.toNat < raw.toNat := fun hc => hhigh (UInt32.lt_iff_toNat_lt.mpr hc)
        rw [if_neg hhigh]
        omega
  unfold gfBoundary selectorBoundedValue
  simp only [hclamp, hmod]
  have hcases := Nat.mod_lt selector.toNat (by omega : 0 < 6)
  generalize selector.toNat % 6 = m at hcases
  have hm : m = 0 ∨ m = 1 ∨ m = 2 ∨ m = 3 ∨ m = 4 ∨ m = 5 := by omega
  rcases hm with rfl | rfl | rfl | rfl | rfl | rfl
  · rfl
  · have hfits : min.toNat + 1 ≤ usizeSize - 1 := by
      rw [hword]
      omega
    simp only [hsucc, saturatingAdd, Nat.min_eq_left hfits]
  · simp only [hpred]
  · rfl
  · rfl
  · -- `0xffffffff` and `usize::MAX` are both above `max`
    have hall : (0xffffffff : UInt32).toNat = 4294967295 := rfl
    have hhigh : max.toNat ≤ usizeSize - 1 := by
      rw [hword]
      omega
    simp only [hall, clamp, Nat.min_eq_right hhigh,
      Nat.min_eq_right (by omega : max.toNat ≤ 4294967295)]

theorem leNat_drop_take {data : List UInt8} {index : Nat} (h : index + 4 ≤ data.length) :
    leNat ((data.drop index).take 4) = leNat [data.getD index 0, data.getD (index + 1) 0,
      data.getD (index + 2) 0, data.getD (index + 3) 0] := by
  have hword : (data.drop index).take 4 = [data.getD index 0, data.getD (index + 1) 0,
      data.getD (index + 2) 0, data.getD (index + 3) 0] := by
    apply List.ext_getElem
    · simp only [List.length_take, List.length_drop, List.length_cons, List.length_nil]
      omega
    · intro i hi hi'
      have hbound : i < 4 := by simpa using hi'
      rw [List.getElem_take, List.getElem_drop]
      have hget : ∀ j (hj : index + j < data.length), data.getD (index + j) 0 = data[index + j] :=
        fun j hj => by rw [List.getD_eq_getElem?_getD, List.getElem?_eq_getElem hj]; rfl
      have hi4 : i = 0 ∨ i = 1 ∨ i = 2 ∨ i = 3 := by omega
      rcases hi4 with rfl | rfl | rfl | rfl
      · exact (hget 0 (by omega)).symm
      · exact (hget 1 (by omega)).symm
      · exact (hget 2 (by omega)).symm
      · exact (hget 3 (by omega)).symm
  rw [hword]

/-- The bounded decoder of the harness is that of the engine. -/
theorem gfCtrlBounded_value (data : List UInt8) {index : Nat} (h : index + 5 ≤ data.length)
    {min max : UInt32} (hle : min ≤ max) (hrange : max.toNat - min.toNat + 1 < 2 ^ 32) :
    decodeBoundedRange data ⟨index, index + 5⟩ min.toNat max.toNat
      = some (gfCtrlBounded data index min max).value.toNat := by
  have hle' : min.toNat ≤ max.toNat := UInt32.le_iff_toNat_le.mp hle
  have hok : ¬ (min.toNat > max.toNat ∨ index ≥ index + 5 ∨ index + 5 > data.length) := by omega
  rw [decodeBoundedRange, if_neg hok]
  by_cases heq : max ≤ min
  · have hmin : (gfCtrlBounded data index min max).value = min := by
      rw [gfCtrlBounded, if_pos heq]
      rfl
    rw [if_pos (UInt32.le_iff_toNat_le.mp heq), hmin]
  · have hlt : min < max := UInt32.not_le.mp heq
    have hlt' : min.toNat < max.toNat := UInt32.lt_iff_toNat_lt.mp hlt
    have hselector : (data.getD index 0).toNat % 4 = 0 ↔ data.getD index 0 % 4 = 0 := by
      rw [← UInt8.toNat_inj, UInt8.toNat_mod]
      rfl
    rw [if_neg (by omega), Decoder.value, gfCtrlBounded_eq data index hlt]
    by_cases hsel : data.getD index 0 % 4 = 0
    · rw [if_pos (hselector.mpr hsel), if_pos hsel, gfBoundary_toNat _ hlt]
    · have hlen : ¬ ByteSpan.len ⟨index, index + 5⟩ < 5 := by
        simp [ByteSpan.len]
      have hdiff : (max - min).toNat = max.toNat - min.toNat := UInt32.toNat_sub_of_le _ _ hle
      have hcount : (max - min + 1).toNat = max.toNat - min.toNat + 1 := by
        rw [UInt32.toNat_add, hdiff, UInt32.toNat_one, Nat.mod_eq_of_lt hrange]
      rw [if_neg (fun hc => hsel (hselector.mp hc)), if_neg hlen, if_neg hsel,
        leNat_drop_take (by omega), ← gfWord_toNat]
      generalize gfWord (data.getD (index + 1) 0) (data.getD (index + 1 + 1) 0)
        (data.getD (index + 1 + 2) 0) (data.getD (index + 1 + 3) 0) = word
      -- nothing wraps around: the sum is at most `max`
      have hmax := max.toNat_lt
      have hmod := Nat.mod_lt word.toNat (by omega : 0 < max.toNat - min.toNat + 1)
      have hsum : (min.toNat + word.toNat % (max.toNat - min.toNat + 1)) % 2 ^ 32
          = min.toNat + word.toNat % (max.toNat - min.toNat + 1) := Nat.mod_eq_of_lt (by omega)
      rw [UInt32.toNat_add, UInt32.toNat_mod, hcount, hsum]

/-- The slot of a step. -/
def slot (size maxSteps step : Nat) : ByteSpan :=
  let start := size - gfCtrlLen maxSteps + 1 + gfCtrlSlot * step
  ⟨start, start + gfCtrlSlot⟩

/-- `gf_ctrl_op` is `gf_ctrl_bounded` on the slot of its step. -/
theorem gfCtrlOp_eq (data : List UInt8) {maxSteps step : Nat} {opCount : UInt32}
    (hlen : 1 + maxSteps * gfCtrlSlot < usizeSize) (hsize : data.length < usizeSize)
    (hbuf : gfCtrlLen maxSteps ≤ data.length) (hstep : step < maxSteps) (hop : opCount ≠ 0) :
    gfCtrlOp data data.length step maxSteps opCount
        = gfCtrlBounded data (slot data.length maxSteps step).start 0 (opCount - 1) ∧
      (slot data.length maxSteps step).start + 5 ≤ data.length := by
  have hgo : ¬ (opCount = 0 ∨ step ≥ maxSteps ∨ data.length < gfCtrlLen maxSteps) := by
    rintro (hzero | hge | hlt)
    · exact hop hzero
    · omega
    · omega
  have hctrl := gfCtrlLen_eq hlen
  unfold gfCtrlSlot at hctrl
  have hin : data.length - gfCtrlLen maxSteps + 1 + step * 5 + 5 ≤ data.length := by omega
  constructor
  · simp only [gfCtrlOp, if_neg hgo, slot, gfCtrlSlot]
    rw [Nat.mod_eq_of_lt (by omega), Nat.mul_comm step]
  · simp only [slot, gfCtrlSlot]
    omega

/-- The harness selects the operation the engine reads from the slot, and the
one the engine encoded there. -/
theorem gfCtrlOp_decodeBoundedRange (data : List UInt8) {opCount maxSteps step : Nat}
    (hop : 1 ≤ opCount) (hfits : opCount < 2 ^ 32) (hstep : step < maxSteps)
    (hlen : 1 + maxSteps * gfCtrlSlot < usizeSize) (hsize : data.length < usizeSize)
    (hbuf : gfCtrlLen maxSteps ≤ data.length) :
    decodeBoundedRange data (slot data.length maxSteps step) 0 (opCount - 1)
        = some (gfCtrlOp data data.length step maxSteps (UInt32.ofNat opCount)).value.toNat ∧
      ∀ value < opCount, ∃ encoded,
        encodeBoundedRange data (slot data.length maxSteps step) 0 (opCount - 1) value
          = some encoded ∧ encoded.length = data.length ∧
        (gfCtrlOp encoded data.length step maxSteps (UInt32.ofNat opCount)).value.toNat
          = value := by
  have hcount : (UInt32.ofNat opCount).toNat = opCount := UInt32.toNat_ofNat_of_lt' hfits
  have hne : UInt32.ofNat opCount ≠ 0 := by
    intro hzero
    rw [hzero, UInt32.toNat_zero] at hcount
    omega
  have hmax : (UInt32.ofNat opCount - 1).toNat = opCount - 1 := by
    rw [UInt32.toNat_sub_of_le _ _ (by rw [UInt32.le_iff_toNat_le, UInt32.toNat_one]; omega),
      UInt32.toNat_one, hcount]
  -- on every buffer of this length
  have hagree : ∀ bytes : List UInt8, bytes.length = data.length →
      decodeBoundedRange bytes (slot data.length maxSteps step) 0 (opCount - 1)
        = some (gfCtrlOp bytes data.length step maxSteps (UInt32.ofNat opCount)).value.toNat := by
    intro bytes hbytes
    rw [← hbytes] at hsize hbuf ⊢
    obtain ⟨hval, hslot⟩ := gfCtrlOp_eq bytes hlen hsize hbuf hstep hne
    have hzero : (0 : UInt32) ≤ UInt32.ofNat opCount - 1 := UInt32.zero_le
    have hbounded := gfCtrlBounded_value bytes hslot hzero
      (by rw [hmax, UInt32.toNat_zero]; omega)
    rw [hmax, UInt32.toNat_zero] at hbounded
    rw [hval]
    exact hbounded
  refine ⟨hagree data rfl, fun value hvalue => ?_⟩
  obtain ⟨-, hslot⟩ := gfCtrlOp_eq data hlen hsize hbuf hstep hne
  have hwidth : 5 ≤ (slot data.length maxSteps step).len := by
    simp [slot, ByteSpan.len, gfCtrlSlot]
  obtain ⟨encoded, hencoded, hlength, hfirst, hrest⟩ :=
    encodeBoundedRange_of_le (Nat.zero_le value) (by omega : value ≤ opCount - 1) hwidth hslot
  refine ⟨encoded, hencoded, hlength, ?_⟩
  have hdecode := hagree encoded hlength
  have hok : ¬ (0 > opCount - 1 ∨ (slot data.length maxSteps step).start ≥
      (slot data.length maxSteps step).stop ∨
      (slot data.length maxSteps step).stop > encoded.length) := by
    simp only [slot, gfCtrlSlot] at hslot ⊢
    omega
  rw [decodeBoundedRange, if_neg hok] at hdecode
  by_cases hone : opCount - 1 ≤ 0
  · rw [if_pos hone, Option.some.injEq] at hdecode
    omega
  · have hraw : leNat (leBytes 4 (value - 0)) = value := by
      rw [Nat.sub_zero]
      exact leNat_leBytes (by omega)
    rw [if_neg hone, hfirst, hrest, hraw] at hdecode
    have hmod : value % (opCount - 1 - 0 + 1) = value := Nat.mod_eq_of_lt (by omega)
    simp only [slot, ByteSpan.len, gfCtrlSlot, hmod] at hdecode
    simpa using hdecode.symm

/-- A buffer of two slots, three operations. -/
theorem gfCtrlOp_decodeBoundedRange_second :
    decodeBoundedRange (List.replicate 11 9) (slot 11 2 1) 0 2
        = some (gfCtrlOp (List.replicate 11 9) 11 1 2 3).value.toNat ∧
      ∀ value < 3, ∃ encoded,
        encodeBoundedRange (List.replicate 11 9) (slot 11 2 1) 0 2 value = some encoded ∧
          encoded.length = 11 ∧ (gfCtrlOp encoded 11 1 2 3).value.toNat = value :=
  gfCtrlOp_decodeBoundedRange (List.replicate 11 9) (by decide : 1 ≤ 3) (by decide)
    (by decide : 1 < 2) (by decide) (by decide) (by decide)

end GovFuzz.CRuntime
