import GovFuzz.Lib.Align

/-!
# Lib — byte slices

A byte slice as a machine can hold one: never longer than `isize::MAX`
bytes.  Offsets into it, and sums of two of them, are therefore far from
overflowing a `usize`.
-/

namespace GovFuzz.Lib

/-- The longest a slice can be. -/
def isizeMax : Nat := 2 ^ 63 - 1

structure Slice where
  bytes : List UInt8
  fits : bytes.length ≤ isizeMax
  deriving DecidableEq

namespace Slice

@[ext] theorem ext {s t : Slice} (h : s.bytes = t.bytes) : s = t := by
  cases s
  cases t
  cases h
  rfl

def length (s : Slice) : Nat := s.bytes.length

/-- `&s[from..]`. -/
def dropFront (s : Slice) (k : Nat) : Slice where
  bytes := s.bytes.drop k
  fits := by
    have := s.fits
    rw [List.length_drop]
    omega

/-- `&s[from..to]`. -/
def range (s : Slice) (k m : Nat) : Slice where
  bytes := (s.bytes.take m).drop k
  fits := by
    have := s.fits
    rw [List.length_drop, List.length_take]
    omega

@[simp] theorem dropFront_bytes (s : Slice) (k : Nat) : (s.dropFront k).bytes = s.bytes.drop k :=
  rfl

@[simp] theorem dropFront_length (s : Slice) (k : Nat) : (s.dropFront k).length = s.length - k :=
  List.length_drop

@[simp] theorem range_bytes (s : Slice) (k m : Nat) :
    (s.range k m).bytes = (s.bytes.take m).drop k := rfl

theorem length_lt_usizeSize (s : Slice) : s.length + s.length < usizeSize := by
  have := s.fits
  simp only [length, isizeMax, usizeSize] at *
  omega

end Slice

end GovFuzz.Lib
