import Mathlib.Data.List.Basic

/-!
# Lib — a byte pipe that delivers in pieces

A pipe is the list of pieces in which its bytes will arrive; a `read` hands
out part or all of the next piece, never more than was asked for, and
nothing only at the end.  The cutting is arbitrary, so a fact about every
pipe is a fact about every way the kernel may split the stream.  The one
result: a loop that reads until it has `n` bytes sees only the bytes, never
the cutting (`readLoop_fst`, `readLoop_snd`).
-/

namespace GovFuzz.Lib

abbrev Pipe := List (List UInt8)

namespace Pipe

/-- All bytes still to come. -/
def pending (p : Pipe) : List UInt8 := p.flatten

/-- One blocking read of at most `n` bytes. -/
def read (n : Nat) : Pipe → List UInt8 × Pipe
  | [] => ([], [])
  | [] :: rest => read n rest
  | piece :: rest => (piece.take n, piece.drop n :: rest)

theorem read_append (n : Nat) (p : Pipe) : (p.read n).1 ++ (p.read n).2.pending = p.pending := by
  induction p with
  | nil => rfl
  | cons piece rest ih =>
      cases piece with
      | nil => simpa [read, pending] using ih
      | cons b bs => simp [read, pending, ← List.append_assoc]

theorem read_length_le (n : Nat) (p : Pipe) : (p.read n).1.length ≤ n := by
  induction p with
  | nil => simp [read]
  | cons piece rest ih =>
      cases piece with
      | nil => simpa [read] using ih
      | cons b bs =>
          simp only [read, List.length_take]
          omega

/-- A read that returns nothing has met the end. -/
theorem pending_of_read_nil {n : Nat} (hn : n ≠ 0) {p : Pipe} (h : (p.read n).1 = []) :
    p.pending = [] := by
  induction p with
  | nil => rfl
  | cons piece rest ih =>
      cases piece with
      | nil =>
          have hrest := ih (by simpa [read] using h)
          simpa [pending] using hrest
      | cons b bs =>
          obtain ⟨m, rfl⟩ := Nat.exists_eq_succ_of_ne_zero hn
          simp [read] at h

/-- Read until `n` bytes are there or the pipe ends. -/
def readLoop (n : Nat) (p : Pipe) : List UInt8 × Pipe :=
  if n = 0 then ([], p)
  else if _h : (p.read n).1 = [] then ([], (p.read n).2)
  else
    let more := readLoop (n - (p.read n).1.length) (p.read n).2
    ((p.read n).1 ++ more.1, more.2)
termination_by n
decreasing_by
  have := List.length_pos_iff.mpr _h
  omega

theorem readLoop_spec (n : Nat) (p : Pipe) :
    (p.readLoop n).1 = p.pending.take n ∧ (p.readLoop n).2.pending = p.pending.drop n := by
  induction n, p using readLoop.induct with
  | case1 p =>
      rw [readLoop]
      simp
  | case2 n p hn h =>
      have hempty := pending_of_read_nil hn h
      have happend := read_append n p
      rw [h, hempty, List.nil_append] at happend
      rw [readLoop, if_neg hn, dif_pos h]
      simp [hempty, happend]
  | case3 n p hn h ih =>
      obtain ⟨ih1, ih2⟩ := ih
      have happend := read_append n p
      have hle := read_length_le n p
      rw [readLoop, if_neg hn, dif_neg h]
      simp only [ih1, ih2]
      rw [← happend, List.take_append, List.drop_append,
        List.take_of_length_le hle, List.drop_eq_nil_of_le hle, List.nil_append]
      exact ⟨rfl, rfl⟩

/-- The loop returns the next `n` bytes, or all there are. -/
theorem readLoop_fst (n : Nat) (p : Pipe) : (p.readLoop n).1 = p.pending.take n :=
  (readLoop_spec n p).1

/-- The loop takes exactly what it returns off the stream. -/
theorem readLoop_snd (n : Nat) (p : Pipe) : (p.readLoop n).2.pending = p.pending.drop n :=
  (readLoop_spec n p).2

end Pipe

end GovFuzz.Lib
