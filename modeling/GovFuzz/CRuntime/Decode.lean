import GovFuzz.CRuntime.Selection

/-!
# CRuntime — bounded arguments

`gf_u8`, `gf_i32`, `gf_i64`, `gf_c_string`, `gf_data_slice`, `gf_bounded_i32`
and `gf_bounded_length` of `c_runtime/govfuzz_decode.h`: an argument of the
target from the next bytes of the input, a number also between two bounds.  The
number of values in between is counted in the type of the bounds, where the
whole type counts as none.  Signed arithmetic wraps, `size_t` has 64 bits and
`malloc` succeeds.
-/

namespace GovFuzz.CRuntime

open GovFuzz.Lib

/-- `gf_cursor`, with the bytes behind its pointer. -/
structure GfDataCursor extends GfCursor where
  data : List UInt8
  inside : size ≤ data.length

def gfOpen (data : List UInt8) : GfDataCursor where
  size := data.length
  pos := 0
  data := data
  inside := Nat.le_refl _

namespace GfDataCursor

def remaining (c : GfDataCursor) : Nat := if c.size > c.pos then c.size - c.pos else 0

/-- `c->data[c->pos++]`. -/
def next (c : GfDataCursor) : UInt8 × GfDataCursor :=
  (c.data.getD c.pos 0, { c with pos := c.pos + 1 })

end GfDataCursor

def gfU8 (c : GfDataCursor) : UInt8 × GfDataCursor :=
  if c.remaining = 0 then (0, c) else c.next

/-- The loop of `gf_i32` and `gf_i64` from byte `i` on. -/
def gfBytes (w : Nat) : (left i : Nat) → BitVec w → GfDataCursor → BitVec w × GfDataCursor
  | 0, _, v, c => (v, c)
  | left + 1, i, v, c =>
      if 0 < c.remaining then
        let (byte, c) := c.next
        gfBytes w left (i + 1) (v ||| BitVec.ofNat w byte.toNat <<< (i * 8)) c
      else (v, c)

def gfI32 (c : GfDataCursor) : Int32 × GfDataCursor :=
  let (v, c) := gfBytes 32 4 0 0 c
  ((UInt32.ofBitVec v).toInt32, c)

def gfI64 (c : GfDataCursor) : Int64 × GfDataCursor :=
  let (v, c) := gfBytes 64 8 0 0 c
  ((UInt64.ofBitVec v).toInt64, c)

/-- The allocated buffer, the `NUL` at its end included. -/
def gfCString (c : GfDataCursor) (max : Nat) : List UInt8 × GfDataCursor :=
  let (low, c) := gfU8 c
  let (high, c) := gfU8 c
  let lengthPrefix := low.toUInt16 ||| high.toUInt16 <<< 8
  let avail := c.remaining
  let want := lengthPrefix.toNat
  let want := if want > max then max else want
  let want := if want > avail then avail else want
  ((c.data.drop c.pos).take want ++ [0], { c with pos := c.pos + want })

/-- The span lent to the target. -/
def gfDataSlice (c : GfDataCursor) : List UInt8 × GfDataCursor :=
  ((c.data.drop c.pos).take c.remaining, { c with pos := c.size })

inductive CFault where
  | divisionByZero
  deriving DecidableEq, Repr

def gfBoundedI32 (c : GfDataCursor) (lo hi : Int32) : Except CFault (Int32 × GfDataCursor) :=
  let range := (hi - lo).toUInt32 + 1
  let (raw, c) := gfI32 c
  if hi ≤ lo then .ok (lo, c)
  else if range = 0 then .error .divisionByZero
  else .ok (lo + (raw.toUInt32 % range).toInt32, c)

def gfBoundedLength (c : GfDataCursor) (lo hi : UInt64) :
    Except CFault (UInt64 × GfDataCursor) :=
  let range := hi - lo + 1
  let (raw, c) := gfI64 c
  if hi ≤ lo then .ok (lo, c)
  else if range = 0 then .error .divisionByZero
  else .ok (lo + raw.toUInt64 % range, c)

/-! ## The next bytes -/

/-- A byte is put in above the bytes read before it. -/
theorem toNat_or_byte {w i : Nat} {v : BitVec w} (byte : UInt8) (hv : v.toNat < 2 ^ (i * 8))
    (hw : (i + 1) * 8 ≤ w) :
    (v ||| BitVec.ofNat w byte.toNat <<< (i * 8)).toNat = v.toNat + byte.toNat * 2 ^ (i * 8)
      ∧ v.toNat + byte.toNat * 2 ^ (i * 8) < 2 ^ ((i + 1) * 8) := by
  have hbyte := byte.toNat_lt
  have hpow : 2 ^ ((i + 1) * 8) = 2 ^ (i * 8) * 256 := by
    rw [Nat.add_one_mul, Nat.pow_add]
  have hwide : 2 ^ ((i + 1) * 8) ≤ 2 ^ w := Nat.pow_le_pow_right (by omega) hw
  have hscaled : byte.toNat * 2 ^ (i * 8) + 2 ^ (i * 8) ≤ 2 ^ ((i + 1) * 8) := by
    rw [hpow, ← Nat.add_one_mul, Nat.mul_comm]
    exact Nat.mul_le_mul_left _ (by omega)
  have hsmall : byte.toNat < 2 ^ w := by
    have hone := Nat.one_le_two_pow (n := i * 8)
    have hle := Nat.le_mul_of_pos_right byte.toNat hone
    omega
  constructor
  · rw [BitVec.toNat_or, BitVec.toNat_shiftLeft, BitVec.toNat_ofNat, Nat.mod_eq_of_lt hsmall,
      Nat.mod_eq_of_lt (by rw [Nat.shiftLeft_eq]; omega), shiftLeft_or hv]
  · omega

/-- The loop adds the bytes up as a little-endian number. -/
theorem gfBytes_toNat {w : Nat} (left i : Nat) (v : BitVec w) (c : GfDataCursor)
    (hbytes : c.pos + left ≤ c.size) (hv : v.toNat < 2 ^ (i * 8)) (hw : (i + left) * 8 ≤ w) :
    (gfBytes w left i v c).1.toNat
      = v.toNat + 2 ^ (i * 8) * leNat ((c.data.drop c.pos).take left) := by
  induction left generalizing i v c with
  | zero => simp [gfBytes, leNat]
  | succ left ih =>
      have hinside := c.inside
      have hremaining : 0 < c.remaining := by
        rw [GfDataCursor.remaining, if_pos (by omega)]
        omega
      have hdrop : c.data.drop c.pos = c.data.getD c.pos 0 :: c.data.drop (c.pos + 1) := by
        rw [List.getD_eq_getElem c.data 0 (by omega)]
        exact List.drop_eq_getElem_cons (by omega)
      have hpow : 2 ^ ((i + 1) * 8) = 2 ^ (i * 8) * 256 := by
        rw [Nat.add_one_mul, Nat.pow_add]
      obtain ⟨hnext, hfits⟩ := toNat_or_byte (c.data.getD c.pos 0) hv (by omega)
      unfold gfBytes
      rw [if_pos hremaining]
      simp only [GfDataCursor.next]
      rw [ih (i + 1) _ _ (by dsimp only; omega) (by rw [hnext]; omega) (by omega), hnext, hdrop,
        List.take_succ_cons, leNat, hpow]
      ring

/-- Every number is read from some bytes. -/
theorem gfBytes_leBytes {w n : Nat} (hw : n * 8 = w) (v : BitVec w) :
    (gfBytes w n 0 0 (gfOpen (leBytes n v.toNat))).1 = v := by
  apply BitVec.eq_of_toNat_eq
  have hlen : (leBytes n v.toNat).length = n := leBytes_length n v.toNat
  have hv : v.toNat < 256 ^ n := by
    have hpow : 256 ^ n = 2 ^ w := by
      rw [← hw, Nat.mul_comm, Nat.pow_mul]
    have hlt := v.isLt
    omega
  rw [gfBytes_toNat n 0 0 _ (by simp [gfOpen]) (by simp) (by omega)]
  simp only [gfOpen, List.drop_zero, Nat.zero_mul, Nat.pow_zero, Nat.one_mul]
  rw [List.take_of_length_le (Nat.le_of_eq hlen), leNat_leBytes hv]
  exact Nat.zero_add _

theorem gfI32_surjective (raw : UInt32) : ∃ c, (gfI32 c).1.toUInt32 = raw := by
  refine ⟨gfOpen (leBytes 4 raw.toBitVec.toNat), ?_⟩
  have hread := gfBytes_leBytes (w := 32) (n := 4) rfl raw.toBitVec
  simp only [gfI32, hread]
  rfl

theorem gfI64_surjective (raw : UInt64) : ∃ c, (gfI64 c).1.toUInt64 = raw := by
  refine ⟨gfOpen (leBytes 8 raw.toBitVec.toNat), ?_⟩
  have hread := gfBytes_leBytes (w := 64) (n := 8) rfl raw.toBitVec
  simp only [gfI64, hread]
  rfl

/-! ## Between the bounds -/

/-- Two bounds in order. -/
structure Bounds (α : Type) [LE α] where
  lo : α
  hi : α
  ordered : lo ≤ hi

section

variable {α σ ε : Type} [LE α]

/-- A decoder returns, and what it returns is between the bounds. -/
def ReturnsWithin (bounds : Bounds α) (result : Except ε (α × σ)) : Prop :=
  ∃ value c, result = .ok (value, c) ∧ bounds.lo ≤ value ∧ value ≤ bounds.hi

/-- Everything between the bounds is returned for some input. -/
def Reaches (bounds : Bounds α) (decode : σ → Except ε (α × σ)) : Prop :=
  ∀ value, bounds.lo ≤ value → value ≤ bounds.hi → ∃ c c', decode c = .ok (value, c')

end

/-- The number of values between two bounds of `int32_t`, less one. -/
def spread (bounds : Bounds Int32) : Nat := (bounds.hi.toInt - bounds.lo.toInt).toNat

theorem spread_eq (bounds : Bounds Int32) :
    (spread bounds : Int) = bounds.hi.toInt - bounds.lo.toInt := by
  have h := Int32.le_iff_toInt_le.mp bounds.ordered
  rw [spread]
  omega

theorem spread_lt (bounds : Bounds Int32) : spread bounds < 2 ^ 32 := by
  have hspread := spread_eq bounds
  have hlo := bounds.lo.le_toInt
  have hhi := bounds.hi.toInt_lt
  omega

/-- A signed word and the same word unsigned. -/
theorem toInt_eq_toNat (x : Int32) :
    x.toInt = if 2 * x.toUInt32.toNat < 2 ^ 32 then (x.toUInt32.toNat : Int)
      else x.toUInt32.toNat - 2 ^ 32 :=
  BitVec.toInt_eq_toNat_cond x.toBitVec

/-- The unsigned difference does not wrap, the count of values may. -/
theorem toNat_range (bounds : Bounds Int32) :
    ((bounds.hi - bounds.lo).toUInt32 + 1).toNat = (spread bounds + 1) % 2 ^ 32 := by
  have hspread := spread_eq bounds
  have hlt := spread_lt bounds
  have hlo := toInt_eq_toNat bounds.lo
  have hhi := toInt_eq_toNat bounds.hi
  have hlo' := bounds.lo.toUInt32.toNat_lt
  have hhi' := bounds.hi.toUInt32.toNat_lt
  have hdiff : (bounds.hi - bounds.lo).toUInt32.toNat = spread bounds := by
    rw [Int32.toUInt32_sub, UInt32.toNat_sub]
    omega
  rw [UInt32.toNat_add, hdiff]
  rfl

/-- A signed sum that stays in the type. -/
theorem toInt_add_toInt32 {lo : Int32} {k : UInt32} (h : lo.toInt + k.toNat < 2 ^ 31) :
    (lo + k.toInt32).toInt = lo.toInt + k.toNat := by
  have hlo := toInt_eq_toNat lo
  have hsum := toInt_eq_toNat (lo + k.toInt32)
  have hlo' := lo.toUInt32.toNat_lt
  have hk := k.toNat_lt
  rw [Int32.toUInt32_add, UInt32.toUInt32_toInt32, UInt32.toNat_add] at hsum
  omega

/-- The value is `lo` plus the raw word modulo the count of values. -/
theorem gfBoundedI32_value {bounds : Bounds Int32} (h : spread bounds + 1 < 2 ^ 32)
    (c : GfDataCursor) :
    ∃ value, gfBoundedI32 c bounds.lo bounds.hi = .ok (value, (gfI32 c).2)
      ∧ value.toInt
        = bounds.lo.toInt + ((gfI32 c).1.toUInt32.toNat % (spread bounds + 1) : Nat) := by
  have hspread := spread_eq bounds
  have hrange := toNat_range bounds
  rw [Nat.mod_eq_of_lt h] at hrange
  simp only [gfBoundedI32]
  by_cases hle : bounds.hi ≤ bounds.lo
  · have hsingle : spread bounds = 0 := by
      have hle := Int32.le_iff_toInt_le.mp hle
      omega
    rw [if_pos hle]
    exact ⟨bounds.lo, rfl, by rw [hsingle]; omega⟩
  · have hnonzero : (bounds.hi - bounds.lo).toUInt32 + 1 ≠ 0 := by
      intro hzero
      rw [hzero] at hrange
      simp at hrange
    rw [if_neg hle, if_neg hnonzero]
    refine ⟨_, rfl, ?_⟩
    have hmod : (gfI32 c).1.toUInt32.toNat % (spread bounds + 1) < spread bounds + 1 :=
      Nat.mod_lt _ (Nat.succ_pos _)
    have hhi := bounds.hi.toInt_lt
    rw [toInt_add_toInt32, UInt32.toNat_mod, hrange]
    rw [UInt32.toNat_mod, hrange]
    omega

theorem gfBoundedI32_full {bounds : Bounds Int32} (h : spread bounds + 1 = 2 ^ 32)
    (c : GfDataCursor) : gfBoundedI32 c bounds.lo bounds.hi = .error .divisionByZero := by
  have hspread := spread_eq bounds
  have hrange : (bounds.hi - bounds.lo).toUInt32 + 1 = 0 := by
    apply UInt32.toNat_inj.mp
    rw [toNat_range, h]
    rfl
  have hlt : ¬ bounds.hi ≤ bounds.lo := by
    rw [Int32.le_iff_toInt_le]
    omega
  simp only [gfBoundedI32]
  rw [if_neg hlt, if_pos hrange]

theorem spread_full_iff (bounds : Bounds Int32) :
    spread bounds + 1 = 2 ^ 32 ↔ bounds.lo = Int32.minValue ∧ bounds.hi = Int32.maxValue := by
  have hspread := spread_eq bounds
  have hlo := bounds.lo.le_toInt
  have hhi := bounds.hi.toInt_lt
  rw [← Int32.toInt_inj, ← Int32.toInt_inj, Int32.toInt_minValue, Int32.toInt_maxValue]
  omega

/-- Total and in range for every cursor, and onto: unless the bounds are those
of the type. -/
theorem gfBoundedI32_iff (c : GfDataCursor) (bounds : Bounds Int32) :
    (ReturnsWithin bounds (gfBoundedI32 c bounds.lo bounds.hi)
      ∧ Reaches bounds fun c => gfBoundedI32 c bounds.lo bounds.hi)
    ↔ ¬ (bounds.lo = Int32.minValue ∧ bounds.hi = Int32.maxValue) := by
  rw [← spread_full_iff]
  constructor
  · rintro ⟨⟨value, c', hreturns, -⟩, -⟩ hfull
    rw [gfBoundedI32_full hfull] at hreturns
    cases hreturns
  · intro hfull
    have hspread := spread_eq bounds
    have hlt := spread_lt bounds
    have hnotFull : spread bounds + 1 < 2 ^ 32 := by omega
    constructor
    · obtain ⟨value, hreturns, hvalue⟩ := gfBoundedI32_value hnotFull c
      have hmod : (gfI32 c).1.toUInt32.toNat % (spread bounds + 1) < spread bounds + 1 :=
        Nat.mod_lt _ (Nat.succ_pos _)
      refine ⟨value, _, hreturns, ?_, ?_⟩
      · rw [Int32.le_iff_toInt_le]
        omega
      · rw [Int32.le_iff_toInt_le]
        omega
    · intro value hlo hhi
      rw [Int32.le_iff_toInt_le] at hlo hhi
      obtain ⟨c, hraw⟩ := gfI32_surjective (UInt32.ofNat (value.toInt - bounds.lo.toInt).toNat)
      obtain ⟨returned, hreturns, hreturned⟩ := gfBoundedI32_value hnotFull c
      rw [hraw, UInt32.toNat_ofNat_of_lt' (by rw [UInt32.size]; omega),
        Nat.mod_eq_of_lt (by omega)] at hreturned
      have hsame : returned = value := by
        apply Int32.toInt_inj.mp
        omega
      rw [hsame] at hreturns
      exact ⟨c, _, hreturns⟩

/-! ## Lengths -/

/-- The length is the lower bound and the drawn word modulo the span. -/
theorem gfBoundedLength_value {bounds : Bounds UInt64}
    (h : bounds.hi.toNat - bounds.lo.toNat + 1 < 2 ^ 64) (c : GfDataCursor) :
    ∃ value, gfBoundedLength c bounds.lo bounds.hi = .ok (value, (gfI64 c).2)
      ∧ value.toNat = bounds.lo.toNat
        + (gfI64 c).1.toUInt64.toNat % (bounds.hi.toNat - bounds.lo.toNat + 1) := by
  have hordered := UInt64.le_iff_toNat_le.mp bounds.ordered
  have hhi := bounds.hi.toNat_lt
  have hrange : (bounds.hi - bounds.lo + 1).toNat = bounds.hi.toNat - bounds.lo.toNat + 1 := by
    rw [UInt64.toNat_add, UInt64.toNat_sub_of_le _ _ bounds.ordered, UInt64.toNat_one]
    omega
  simp only [gfBoundedLength]
  by_cases hle : bounds.hi ≤ bounds.lo
  · have hsingle : bounds.hi.toNat - bounds.lo.toNat = 0 := by
      have hle := UInt64.le_iff_toNat_le.mp hle
      omega
    rw [if_pos hle]
    exact ⟨bounds.lo, rfl, by rw [hsingle]; omega⟩
  · have hnonzero : bounds.hi - bounds.lo + 1 ≠ 0 := by
      intro hzero
      rw [hzero] at hrange
      simp at hrange
    have hmod : (gfI64 c).1.toUInt64.toNat % (bounds.hi.toNat - bounds.lo.toNat + 1)
        < bounds.hi.toNat - bounds.lo.toNat + 1 := Nat.mod_lt _ (Nat.succ_pos _)
    rw [if_neg hle, if_neg hnonzero]
    refine ⟨_, rfl, ?_⟩
    rw [UInt64.toNat_add, UInt64.toNat_mod, hrange]
    omega

theorem gfBoundedLength_full {bounds : Bounds UInt64}
    (h : bounds.hi.toNat - bounds.lo.toNat + 1 = 2 ^ 64) (c : GfDataCursor) :
    gfBoundedLength c bounds.lo bounds.hi = .error .divisionByZero := by
  have hrange : bounds.hi - bounds.lo + 1 = 0 := by
    apply UInt64.toNat_inj.mp
    rw [UInt64.toNat_add, UInt64.toNat_sub_of_le _ _ bounds.ordered, UInt64.toNat_one, h]
    rfl
  have hlt : ¬ bounds.hi ≤ bounds.lo := by
    rw [UInt64.le_iff_toNat_le]
    omega
  simp only [gfBoundedLength]
  rw [if_neg hlt, if_pos hrange]

/-- The lengths are within their bounds and all of them reached, except for the bounds that
span the whole type. -/
theorem gfBoundedLength_iff (c : GfDataCursor) (bounds : Bounds UInt64) :
    (ReturnsWithin bounds (gfBoundedLength c bounds.lo bounds.hi)
      ∧ Reaches bounds fun c => gfBoundedLength c bounds.lo bounds.hi)
    ↔ ¬ (bounds.lo.toNat = 0 ∧ bounds.hi.toNat = 2 ^ 64 - 1) := by
  have hordered := UInt64.le_iff_toNat_le.mp bounds.ordered
  have hhi := bounds.hi.toNat_lt
  constructor
  · rintro ⟨⟨value, c', hreturns, -⟩, -⟩ ⟨hzero, hmax⟩
    rw [gfBoundedLength_full (by omega)] at hreturns
    cases hreturns
  · intro hfull
    have hnotFull : bounds.hi.toNat - bounds.lo.toNat + 1 < 2 ^ 64 := by omega
    constructor
    · obtain ⟨value, hreturns, hvalue⟩ := gfBoundedLength_value hnotFull c
      have hmod : (gfI64 c).1.toUInt64.toNat % (bounds.hi.toNat - bounds.lo.toNat + 1)
          < bounds.hi.toNat - bounds.lo.toNat + 1 := Nat.mod_lt _ (Nat.succ_pos _)
      refine ⟨value, _, hreturns, ?_, ?_⟩
      · rw [UInt64.le_iff_toNat_le]
        omega
      · rw [UInt64.le_iff_toNat_le]
        omega
    · intro value hlow hhigh
      rw [UInt64.le_iff_toNat_le] at hlow hhigh
      obtain ⟨c, hraw⟩ := gfI64_surjective (UInt64.ofNat (value.toNat - bounds.lo.toNat))
      obtain ⟨returned, hreturns, hreturned⟩ := gfBoundedLength_value hnotFull c
      rw [hraw, UInt64.toNat_ofNat_of_lt' (by rw [UInt64.size]; omega),
        Nat.mod_eq_of_lt (by omega)] at hreturned
      have hsame : returned = value := by
        apply UInt64.toNat_inj.mp
        omega
      rw [hsame] at hreturns
      exact ⟨c, _, hreturns⟩

end GovFuzz.CRuntime
