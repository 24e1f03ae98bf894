import Mathlib.Data.Nat.Bitwise

/-!
# Lib — checked machine words and alignment

`usize` arithmetic with overflow made visible, and the mask trick that
rounds a word up to a power of two.  The one fact worth a proof is
`and_not_mask`: clearing the low `j` bits of a 64-bit word is division and
multiplication by `2 ^ j`.
-/

namespace GovFuzz.Lib

/-- One past the largest `usize`. -/
def usizeSize : Nat := 2 ^ 64

def checkedAdd (a b : Nat) : Option Nat := if a + b < usizeSize then some (a + b) else none

def checkedMul (a b : Nat) : Option Nat := if a * b < usizeSize then some (a * b) else none

def checkedSub (a b : Nat) : Option Nat := if b ≤ a then some (a - b) else none

/-- `!a` on a 64-bit word. -/
def wordNot (a : Nat) : Nat := usizeSize - (a + 1)

theorem and_not_mask {x j : Nat} (hj : j ≤ 64) (hx : x < usizeSize) :
    x &&& wordNot (2 ^ j - 1) = x / 2 ^ j * 2 ^ j := by
  have hpow : 2 ^ j ≤ 2 ^ 64 := Nat.pow_le_pow_right (by omega) hj
  have hpos : 0 < 2 ^ j := Nat.two_pow_pos j
  rw [← Nat.shiftRight_eq_div_pow, ← Nat.shiftLeft_eq]
  apply Nat.eq_of_testBit_eq
  intro i
  rw [Nat.testBit_and, wordNot, usizeSize, Nat.testBit_two_pow_sub_succ (by omega),
    Nat.testBit_two_pow_sub_one, Nat.testBit_shiftLeft, Nat.testBit_shiftRight]
  by_cases hi : i < j
  · simp [hi]
  · have hge : j ≤ i := by omega
    by_cases h64 : i < 64
    · simp [hi, hge, h64, Nat.add_sub_cancel' hge]
    · have hbit : x.testBit i = false := by
        apply Nat.testBit_lt_two_pow
        calc x < 2 ^ 64 := hx
          _ ≤ 2 ^ i := Nat.pow_le_pow_right (by omega) (by omega)
      simp [hi, hge, h64, Nat.add_sub_cancel' hge, hbit]

/-! ## Rounding up -/

/-- The padding that takes `n` to the next multiple of `a`. -/
def padTo (a n : Nat) : Nat := (a - n % a) % a

@[simp] theorem padTo_one (n : Nat) : padTo 1 n = 0 := by simp [padTo, Nat.mod_one]

/-- Adding the mask and rounding down is adding the padding. -/
theorem round_up_eq {a : Nat} (ha : 0 < a) (n : Nat) :
    (n + (a - 1)) / a * a = n + padTo a n := by
  have hdiv := Nat.div_add_mod n a
  have hlt : n % a < a := Nat.mod_lt n ha
  obtain hr | hr := Nat.eq_zero_or_pos (n % a)
  · have hq : (n + (a - 1)) / a = n / a := by
      rw [Nat.div_eq_of_lt_le]
      · rw [Nat.mul_comm]
        omega
      · rw [Nat.add_one_mul, Nat.mul_comm]
        omega
    rw [hq, padTo, hr, Nat.sub_zero, Nat.mod_self, Nat.mul_comm]
    omega
  · have hq : (n + (a - 1)) / a = n / a + 1 := by
      rw [Nat.div_eq_of_lt_le]
      · rw [Nat.add_one_mul, Nat.mul_comm]
        omega
      · rw [Nat.add_one_mul, Nat.add_one_mul, Nat.mul_comm]
        omega
    rw [hq, padTo, Nat.mod_eq_of_lt (by omega : a - n % a < a), Nat.add_one_mul, Nat.mul_comm]
    omega

/-- The mask computation, `(x + mask) & !mask`. -/
theorem mask_round_up {x j : Nat} (hj : j ≤ 64) (hx : x + (2 ^ j - 1) < usizeSize) :
    (x + (2 ^ j - 1)) &&& wordNot (2 ^ j - 1) = x + padTo (2 ^ j) x := by
  rw [and_not_mask hj hx, round_up_eq (Nat.two_pow_pos j)]

end GovFuzz.Lib
