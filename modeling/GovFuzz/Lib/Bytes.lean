import GovFuzz.Lib.Decide
import Mathlib.Data.Nat.Bitwise
import Mathlib.Tactic.Ring

/-!
# Lib — fixed-width byte encodings of naturals

The one integer codec every wire format of the development rests on: a
natural becomes exactly `w` bytes, least or most significant first, and
`w` bytes become a natural below `256 ^ w`.  Nothing here knows which
format it serves.
-/

namespace GovFuzz.Lib

/-- A property of all bytes, by its 256 cases. -/
theorem forall_byte {p : UInt8 → Prop} (h : ∀ n < 256, p (UInt8.ofNat n)) (b : UInt8) : p b := by
  have hb := h b.toNat b.toNat_lt
  rwa [UInt8.ofNat_toNat] at hb

/-- `u8::to_ascii_lowercase`. -/
def toAsciiLowercase (b : UInt8) : UInt8 := if 65 ≤ b && b ≤ 90 then b + 32 else b

/-! ## Least significant byte first -/

/-- The `w` little-endian bytes of `n`; what does not fit is dropped. -/
def leBytes : Nat → Nat → List UInt8
  | 0, _ => []
  | w + 1, n => UInt8.ofNat n :: leBytes w (n / 256)

/-- The natural a little-endian byte string stands for. -/
def leNat : List UInt8 → Nat
  | [] => 0
  | b :: bs => b.toNat + 256 * leNat bs

@[simp] theorem leBytes_length (w n : Nat) : (leBytes w n).length = w := by
  induction w generalizing n with
  | zero => rfl
  | succ w ih => simp [leBytes, ih]

theorem leNat_lt (bs : List UInt8) : leNat bs < 256 ^ bs.length := by
  induction bs with
  | nil => simp [leNat]
  | cons b bs ih =>
      have hb : b.toNat < 256 := b.toNat_lt
      simp only [leNat, List.length_cons, Nat.pow_succ]
      omega

/-- Reading back what was written is exact below the width's ceiling. -/
theorem leNat_leBytes {w n : Nat} (h : n < 256 ^ w) : leNat (leBytes w n) = n := by
  induction w generalizing n with
  | zero =>
      have : n = 0 := by simpa using h
      simp [leBytes, leNat, this]
  | succ w ih =>
      have hdiv : n / 256 < 256 ^ w := by
        apply Nat.div_lt_of_lt_mul
        rw [Nat.mul_comm]
        simpa [Nat.pow_succ] using h
      simp only [leBytes, leNat, ih hdiv, UInt8.toNat_ofNat']
      omega

/-- Every byte string of length `w` is the encoding of its own value. -/
theorem leBytes_leNat (bs : List UInt8) : leBytes bs.length (leNat bs) = bs := by
  induction bs with
  | nil => rfl
  | cons b bs ih =>
      have hb : b.toNat < 256 := b.toNat_lt
      have hdiv : (b.toNat + 256 * leNat bs) / 256 = leNat bs := by omega
      simp only [List.length_cons, leBytes, leNat, hdiv, ih, List.cons.injEq, and_true]
      apply UInt8.toNat_inj.mp
      rw [UInt8.toNat_ofNat']
      omega

/-! ## Most significant byte first -/

/-- The `w` big-endian bytes of `n`. -/
def beBytes (w n : Nat) : List UInt8 := (leBytes w n).reverse

/-- The natural a big-endian byte string stands for. -/
def beNat (bs : List UInt8) : Nat := leNat bs.reverse

@[simp] theorem beBytes_length (w n : Nat) : (beBytes w n).length = w := by
  simp [beBytes]

theorem beNat_beBytes {w n : Nat} (h : n < 256 ^ w) : beNat (beBytes w n) = n := by
  simp [beNat, beBytes, leNat_leBytes h]

theorem beNat_lt (bs : List UInt8) : beNat bs < 256 ^ bs.length := by
  simpa [beNat] using leNat_lt bs.reverse

end GovFuzz.Lib
