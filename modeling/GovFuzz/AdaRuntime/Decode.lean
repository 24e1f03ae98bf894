import GovFuzz.CRuntime.Decode
import GovFuzz.Lib.Except

/-!
# AdaRuntime — bounded arguments

`Bounded_Range` of `ada_runtime/adafuzz-decode.adb`.  Its cursor starts again
at the first byte when the input is used up.  `Integer` has 32 bits, and every
operation on it is checked: what leaves the type raises `Constraint_Error`.
At the end, the bounded decoders of both runtimes.
-/

namespace GovFuzz.AdaRuntime

open GovFuzz.Lib
open GovFuzz.CRuntime (GfDataCursor Bounds ReturnsWithin Reaches gfBoundedI32 gfBoundedLength
  spread spread_eq toInt_eq_toNat gfBoundedI32_iff gfBoundedLength_iff)

/-! ## The cursor -/

/-- `Stream_Element_Array`: its first index and its elements.  Its indices,
and the one behind them, are of `Stream_Element_Offset`. -/
structure StreamElementArray where
  first : Int
  elements : List UInt8
  fits : first + elements.length < 2 ^ 63

def StreamElementArray.last (buffer : StreamElementArray) : Int :=
  buffer.first + buffer.elements.length - 1

/-- `Cursor`: what `Open` makes of an array and an index of it, and what the
reads make of that. -/
structure Cursor where
  data : Option StreamElementArray
  pos : Int
  last : Int
  inside : ∀ buffer, data = some buffer → buffer.first ≤ pos ∧ last ≤ buffer.last

def Cursor.open (buffer : StreamElementArray) (last : Int) (h : last ≤ buffer.last) : Cursor where
  data := some buffer
  pos := buffer.first
  last := last
  inside := by
    intro other hother
    cases hother
    exact ⟨Int.le_refl _, h⟩

/-- `Wrap_If_Needed`, where there is data from `first` on. -/
def Cursor.wrapped (c : Cursor) (first : Int) : Int := if c.pos > c.last then first else c.pos

theorem Cursor.le_wrapped (c : Cursor) {first : Int} (h : first ≤ c.pos) :
    first ≤ c.wrapped first := by
  unfold Cursor.wrapped
  split
  · exact Int.le_refl _
  · exact h

def u8 (c : Cursor) : UInt8 × Cursor :=
  match hdata : c.data with
  | none => (0, c)
  | some buffer =>
      if c.last < buffer.first then (0, c)
      else
        (buffer.elements.getD (c.wrapped buffer.first - buffer.first).toNat 0,
          { c with
            pos := c.wrapped buffer.first + 1
            inside := by
              intro other hother
              have hsame : buffer = other := Option.some.inj (hdata.symm.trans hother)
              have hinside := c.inside buffer hdata
              have hwrapped := c.le_wrapped hinside.1
              rw [← hsame]
              exact ⟨by omega, hinside.2⟩ })

def u16 (c : Cursor) : UInt16 × Cursor :=
  let (b0, c) := u8 c
  let (b1, c) := u8 c
  (b0.toUInt16 ||| (b1.toUInt16 <<< 8), c)

def u32 (c : Cursor) : UInt32 × Cursor :=
  let (w0, c) := u16 c
  let (w1, c) := u16 c
  (w0.toUInt32 ||| (w1.toUInt32 <<< 16), c)

/-! ## Checks -/

/-- The checks of `Bounded_Range` that can fail. -/
inductive Check where
  | overflow
  | range
  | division
  deriving DecidableEq, Repr

/-- A value of `Integer`, if it is one. -/
def integer (check : Check) (value : Int) : Except Check Int32 :=
  if -2 ^ 31 ≤ value ∧ value < 2 ^ 31 then .ok (.ofInt value) else .error check

/-- The conversion to `Natural`. -/
def natural (value : Int32) : Except Check Int32 :=
  if value < 0 then .error .range else .ok value

/-- `mod` of a modular type. -/
def modulo (value divisor : UInt32) : Except Check UInt32 :=
  if divisor = 0 then .error .division else .ok (value % divisor)

def clamp (value lo hi : Int32) : Int32 :=
  if value < lo then lo else if value > hi then hi else value

/-- The `case` on the selector. -/
def boundaryValue (selector : UInt8) (lo hi : Int32) : Except Check Int32 :=
  match selector.toNat % 6 with
  | 0 => .ok (clamp lo lo hi)
  | 1 => do
      let value ← integer .overflow (lo.toInt + 1)
      return clamp value lo hi
  | 2 => do
      let value ← integer .overflow (hi.toInt - 1)
      return clamp value lo hi
  | 3 => .ok (clamp hi lo hi)
  | 4 => .ok (clamp 0 lo hi)
  | _ => .ok (clamp (-1) lo hi)

/-- `Natural (Hi - Lo + 1)`. -/
def widthOf (lo hi : Int32) : Except Check Int32 := do
  let difference ← integer .overflow (hi.toInt - lo.toInt)
  let width ← integer .overflow (difference.toInt + 1)
  natural width

/-- The last statements: the next word modulo the width. -/
def scaledValue (c : Cursor) (lo hi : Int32) : Except Check (Int32 × Cursor) := do
  let width ← widthOf lo hi
  let remainder ← modulo (u32 c).1 width.toUInt32
  let index ← integer .range remainder.toNat
  let value ← integer .overflow (lo.toInt + index.toInt)
  return (value, (u32 c).2)

def boundedRange (c : Cursor) (lo hi : Int32) : Except Check (Int32 × Cursor) :=
  let (selector, c) := u8 c
  if hi ≤ lo then .ok (lo, c)
  else if selector.toNat % 4 = 0 then do
    let value ← boundaryValue selector lo hi
    return (value, c)
  else scaledValue c lo hi

/-! ## What is checked -/

theorem integer_ok (check : Check) {value : Int} (h : -2 ^ 31 ≤ value) (h' : value < 2 ^ 31) :
    integer check value = .ok (.ofInt value) ∧ (Int32.ofInt value).toInt = value :=
  ⟨if_pos ⟨h, h'⟩, Int32.toInt_ofInt_of_le h h'⟩

theorem integer_error (check : Check) {value : Int} (h : 2 ^ 31 ≤ value) :
    integer check value = .error check := by
  rw [integer, if_neg (by omega)]

theorem clamp_within {value lo hi : Int32} (h : lo ≤ hi) :
    lo ≤ clamp value lo hi ∧ clamp value lo hi ≤ hi := by
  rw [Int32.le_iff_toInt_le] at h
  simp only [clamp, Int32.le_iff_toInt_le, gt_iff_lt, Int32.lt_iff_toInt_lt]
  split
  · omega
  · split <;> omega

/-- The next value up and the next one down exist: the bounds differ. -/
theorem boundaryValue_within (selector : UInt8) {lo hi : Int32} (h : lo < hi) :
    ∃ value, boundaryValue selector lo hi = .ok value ∧ lo ≤ value ∧ value ≤ hi := by
  have hlt := Int32.lt_iff_toInt_lt.mp h
  have hle : lo ≤ hi := Int32.le_iff_toInt_le.mpr hlt.le
  have hlo := lo.le_toInt
  have hhi := hi.toInt_lt
  unfold boundaryValue
  split
  · exact ⟨_, rfl, clamp_within hle⟩
  · rw [(integer_ok .overflow (by omega) (by omega)).1]
    exact ⟨_, rfl, clamp_within hle⟩
  · rw [(integer_ok .overflow (by omega) (by omega)).1]
    exact ⟨_, rfl, clamp_within hle⟩
  · exact ⟨_, rfl, clamp_within hle⟩
  · exact ⟨_, rfl, clamp_within hle⟩
  · exact ⟨_, rfl, clamp_within hle⟩

theorem widthOf_ok {bounds : Bounds Int32} (h : spread bounds + 1 < 2 ^ 31) :
    ∃ width, widthOf bounds.lo bounds.hi = .ok width
      ∧ width.toUInt32.toNat = spread bounds + 1 := by
  have hspread := spread_eq bounds
  have hdifference' : bounds.hi.toInt - bounds.lo.toInt < 2 ^ 31 := by omega
  have hwidth' : bounds.hi.toInt - bounds.lo.toInt + 1 < 2 ^ 31 := by omega
  obtain ⟨hdifference, hvalue⟩ := integer_ok .overflow (by omega) hdifference'
  obtain ⟨hwidth, hvalue'⟩ := integer_ok .overflow (by omega) hwidth'
  refine ⟨Int32.ofInt (bounds.hi.toInt - bounds.lo.toInt + 1), ?_, ?_⟩
  · have hpositive : ¬ Int32.ofInt (bounds.hi.toInt - bounds.lo.toInt + 1) < 0 := by
      rw [Int32.lt_iff_toInt_lt, hvalue', Int32.toInt_zero]
      omega
    simp only [widthOf, hdifference, hvalue, hwidth, bind, Except.bind, natural]
    rw [if_neg hpositive]
  · have hunsigned := toInt_eq_toNat (Int32.ofInt (bounds.hi.toInt - bounds.lo.toInt + 1))
    have hword := (Int32.ofInt (bounds.hi.toInt - bounds.lo.toInt + 1)).toUInt32.toNat_lt
    rw [hvalue'] at hunsigned
    split at hunsigned <;> omega

theorem widthOf_overflow {lo hi : Int32} (h : 2 ^ 31 ≤ hi.toInt - lo.toInt + 1) :
    widthOf lo hi = .error .overflow := by
  rcases lt_or_ge (hi.toInt - lo.toInt) (2 ^ 31) with hnarrow | hwide
  · obtain ⟨hdifference, hvalue⟩ := integer_ok .overflow (by omega) hnarrow
    simp only [widthOf, hdifference, bind, Except.bind]
    rw [hvalue, integer_error .overflow h]
  · simp only [widthOf, integer_error .overflow hwide, bind, Except.bind]

/-- A scaled value is within its bounds when the spread fits an integer. -/
theorem scaledValue_within {bounds : Bounds Int32} (h : spread bounds + 1 < 2 ^ 31) (c : Cursor) :
    ReturnsWithin bounds (scaledValue c bounds.lo bounds.hi) := by
  have hspread := spread_eq bounds
  have hlo := bounds.lo.le_toInt
  have hhi := bounds.hi.toInt_lt
  obtain ⟨width, hwidth, hcount⟩ := widthOf_ok h
  have hnonzero : width.toUInt32 ≠ 0 := by
    intro hzero
    rw [hzero] at hcount
    simp at hcount
  have hmodulo : modulo (u32 c).1 width.toUInt32 = .ok ((u32 c).1 % width.toUInt32) :=
    if_neg hnonzero
  have hremainder : ((u32 c).1 % width.toUInt32).toNat < spread bounds + 1 := by
    rw [UInt32.toNat_mod, hcount]
    exact Nat.mod_lt _ (Nat.succ_pos _)
  generalize (u32 c).1 % width.toUInt32 = remainder at *
  have hindex : (remainder.toNat : Int) < 2 ^ 31 := by omega
  have hsum : bounds.lo.toInt + remainder.toNat < 2 ^ 31 := by omega
  obtain ⟨hconverted, hindex⟩ := integer_ok .range (by omega) hindex
  obtain ⟨hadded, hvalue⟩ := integer_ok .overflow (by omega) hsum
  refine ⟨Int32.ofInt (bounds.lo.toInt + remainder.toNat), (u32 c).2, ?_, ?_, ?_⟩
  · exact bind_eq_ok.mpr ⟨width, hwidth, bind_eq_ok.mpr ⟨remainder, hmodulo, bind_eq_ok.mpr
      ⟨_, hconverted, bind_eq_ok.mpr ⟨_, by rw [hindex]; exact hadded, rfl⟩⟩⟩⟩
  · rw [Int32.le_iff_toInt_le, hvalue]
    omega
  · rw [Int32.le_iff_toInt_le, hvalue]
    omega

/-- Total and in range unless the width is out of `Integer` and asked for. -/
theorem boundedRange_iff (c : Cursor) (bounds : Bounds Int32) :
    ReturnsWithin bounds (boundedRange c bounds.lo bounds.hi)
      ↔ spread bounds + 1 < 2 ^ 31 ∨ (u8 c).1.toNat % 4 = 0 := by
  have hspread := spread_eq bounds
  have hordered := bounds.ordered
  have hle := Int32.le_iff_toInt_le.mp hordered
  have hlo := bounds.lo.le_toInt
  have hhi := bounds.hi.toInt_lt
  simp only [boundedRange]
  by_cases hsingle : bounds.hi ≤ bounds.lo
  · rw [if_pos hsingle]
    rw [Int32.le_iff_toInt_le] at hsingle
    constructor
    · intro _
      left
      omega
    · intro _
      exact ⟨bounds.lo, _, rfl, Int32.le_refl _, hordered⟩
  rw [if_neg hsingle]
  rw [Int32.le_iff_toInt_le] at hsingle
  by_cases hselector : (u8 c).1.toNat % 4 = 0
  · rw [if_pos hselector]
    have hlt : bounds.lo < bounds.hi := by
      rw [Int32.lt_iff_toInt_lt]
      omega
    obtain ⟨value, hvalue, hwithin⟩ := boundaryValue_within (u8 c).1 hlt
    constructor
    · intro _
      exact .inr hselector
    · intro _
      rw [hvalue]
      exact ⟨value, _, rfl, hwithin⟩
  rw [if_neg hselector]
  constructor
  · rintro ⟨value, c', hreturns, -⟩
    left
    by_contra hwide
    obtain ⟨width, hwidth, -⟩ := bind_eq_ok.mp hreturns
    rw [widthOf_overflow (by omega)] at hwidth
    cases hwidth
  · rintro (hwidth | hselector')
    · exact scaledValue_within hwidth (u8 c).2
    · exact absurd hselector' hselector

/-! ## Both runtimes -/

/-- The C helpers return a value between the bounds, and each of them for some
input, unless the bounds are those of the type; `Bounded_Range` does unless
the width leaves `Integer` and the selector asks for it. -/
theorem boundedDecoders_iff (c : GfDataCursor) (cursor : Cursor) (bounds : Bounds Int32)
    (lengths : Bounds UInt64) :
    ((ReturnsWithin bounds (gfBoundedI32 c bounds.lo bounds.hi)
        ∧ Reaches bounds fun c => gfBoundedI32 c bounds.lo bounds.hi)
      ↔ ¬ (bounds.lo = Int32.minValue ∧ bounds.hi = Int32.maxValue))
    ∧ ((ReturnsWithin lengths (gfBoundedLength c lengths.lo lengths.hi)
        ∧ Reaches lengths fun c => gfBoundedLength c lengths.lo lengths.hi)
      ↔ ¬ (lengths.lo.toNat = 0 ∧ lengths.hi.toNat = 2 ^ 64 - 1))
    ∧ (ReturnsWithin bounds (boundedRange cursor bounds.lo bounds.hi)
      ↔ bounds.hi.toInt - bounds.lo.toInt + 1 < 2 ^ 31 ∨ (u8 cursor).1.toNat % 4 = 0) := by
  refine ⟨gfBoundedI32_iff c bounds, gfBoundedLength_iff c lengths, ?_⟩
  have hspread := spread_eq bounds
  rw [boundedRange_iff]
  omega

/-- `Bounded_Range (C, 0, Integer'Last)` on the bytes 1, 0, 0, 0, 0: the width
is `Integer'Last + 1`.  The bounds of the types in C: the width is 0. -/
theorem not_boundedDecoders_full :
    ¬ ReturnsWithin ⟨0, Int32.maxValue, by decide⟩
        (boundedRange (.open ⟨1, [1, 0, 0, 0, 0], by decide⟩ 5 (by decide)) 0 Int32.maxValue)
    ∧ ¬ ReturnsWithin ⟨Int32.minValue, Int32.maxValue, by decide⟩
        (gfBoundedI32 (CRuntime.gfOpen [1, 0, 0, 0]) Int32.minValue Int32.maxValue)
    ∧ ¬ ReturnsWithin ⟨0, 0xffffffffffffffff, by decide⟩
        (gfBoundedLength (CRuntime.gfOpen [1, 0, 0, 0, 0, 0, 0, 0]) 0 0xffffffffffffffff) := by
  refine ⟨?_, ?_, ?_⟩
  · rintro ⟨value, c, hreturns, -⟩
    have hcheck : boundedRange (.open ⟨1, [1, 0, 0, 0, 0], by decide⟩ 5 (by decide)) 0
        Int32.maxValue = .error .overflow := by rfl
    rw [hcheck] at hreturns
    cases hreturns
  · rintro ⟨value, c, hreturns, -⟩
    have hfault : gfBoundedI32 (CRuntime.gfOpen [1, 0, 0, 0]) Int32.minValue Int32.maxValue
        = .error .divisionByZero := by rfl
    rw [hfault] at hreturns
    cases hreturns
  · rintro ⟨value, c, hreturns, -⟩
    have hfault : gfBoundedLength (CRuntime.gfOpen [1, 0, 0, 0, 0, 0, 0, 0]) 0
        0xffffffffffffffff = .error .divisionByZero := by rfl
    rw [hfault] at hreturns
    cases hreturns

end GovFuzz.AdaRuntime
