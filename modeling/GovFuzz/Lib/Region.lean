import GovFuzz.Lib.Bytes

/-!
# Lib — memory of a fixed size

A mapping whose bytes have the addresses below its size.  A load or a store
anywhere else fails.  A store is known by what it stored and by the bytes it
left alone.
-/

namespace GovFuzz.Lib

/-- `&bytes[start..stop]`, where it does not panic. -/
def subslice? (bytes : List UInt8) (start stop : Nat) : Option (List UInt8) :=
  if start ≤ stop ∧ stop ≤ bytes.length then some ((bytes.drop start).take (stop - start))
  else none

structure Region (size : Nat) where
  cells : Fin size → UInt8

namespace Region

variable {size : Nat}

def load (m : Region size) (i : Nat) : Option UInt8 :=
  if h : i < size then some (m.cells ⟨i, h⟩) else none

def store (m : Region size) (i : Nat) (b : UInt8) : Option (Region size) :=
  if i < size then some ⟨fun j => if j.val = i then b else m.cells j⟩ else none

/-- The `n` bytes from `i` on, one by one. -/
def loadRange (m : Region size) (i : Nat) : (n : Nat) → Option (List UInt8)
  | 0 => some []
  | n + 1 => do
      let b ← m.load i
      let bs ← m.loadRange (i + 1) n
      some (b :: bs)

def storeRange (m : Region size) (i : Nat) : List UInt8 → Option (Region size)
  | [] => some m
  | b :: bs => do
      let m ← m.store i b
      m.storeRange (i + 1) bs

/-! ## Loads -/

/-- What stands at an address; outside there are zeros. -/
def byte (m : Region size) (i : Nat) : UInt8 := if h : i < size then m.cells ⟨i, h⟩ else 0

def slice (m : Region size) (i n : Nat) : List UInt8 := (List.range' i n).map m.byte

@[simp] theorem slice_zero (m : Region size) (i : Nat) : m.slice i 0 = [] := rfl

theorem slice_succ (m : Region size) (i n : Nat) :
    m.slice i (n + 1) = m.byte i :: m.slice (i + 1) n := rfl

@[simp] theorem slice_length (m : Region size) (i n : Nat) : (m.slice i n).length = n := by
  simp [slice]

theorem slice_add (m : Region size) (i n k : Nat) :
    m.slice i (n + k) = m.slice i n ++ m.slice (i + n) k := by
  simp [slice, ← List.map_append, List.range'_append_1]

theorem load_eq (m : Region size) {i : Nat} (h : i < size) : m.load i = some (m.byte i) := by
  simp [load, byte, h]

theorem loadRange_eq (m : Region size) {i n : Nat} (h : i + n ≤ size) :
    m.loadRange i n = some (m.slice i n) := by
  induction n generalizing i with
  | zero => rfl
  | succ n ih =>
      have hrest := ih (i := i + 1) (by omega)
      simp [loadRange, m.load_eq (by omega : i < size), hrest, slice_succ]

/-! ## Stores -/

/-- `m'` is `m` with `bs` from `i` on. -/
structure Written (m : Region size) (i : Nat) (bs : List UInt8) (m' : Region size) : Prop where
  stored : m'.slice i bs.length = bs
  frame : ∀ j, j < i ∨ i + bs.length ≤ j → m'.byte j = m.byte j

namespace Written

variable {m m' m'' : Region size} {i j n : Nat} {bs cs : List UInt8}

theorem slice (h : Written m i bs m') (hd : j + n ≤ i ∨ i + bs.length ≤ j) :
    m'.slice j n = m.slice j n := by
  apply List.map_congr_left
  intro k hk
  have hrange := List.mem_range'_1.mp hk
  exact h.frame k (by omega)

theorem nil (m : Region size) (i : Nat) : Written m i [] m :=
  ⟨rfl, fun _ _ => rfl⟩

/-- Two stores back to back are one. -/
theorem append (h : Written m i bs m') (h' : Written m' (i + bs.length) cs m'') :
    Written m i (bs ++ cs) m'' := by
  constructor
  · rw [List.length_append, slice_add, h'.stored, h'.slice (Or.inl (Nat.le_refl _)), h.stored]
  · intro k hk
    rw [List.length_append] at hk
    rw [h'.frame k (by omega), h.frame k (by omega)]

end Written

theorem store_written (m : Region size) {i : Nat} (b : UInt8) (h : i < size) :
    ∃ m', m.store i b = some m' ∧ Written m i [b] m' := by
  refine ⟨_, if_pos h, ?_, ?_⟩
  · simp [slice_succ, byte, h]
  · intro j hj
    have hne : j ≠ i := by
      rw [List.length_singleton] at hj
      omega
    simp [byte, hne]

theorem storeRange_written (m : Region size) {i : Nat} (bs : List UInt8)
    (h : i + bs.length ≤ size) :
    ∃ m', m.storeRange i bs = some m' ∧ Written m i bs m' := by
  induction bs generalizing m i with
  | nil => exact ⟨m, rfl, Written.nil m i⟩
  | cons b bs ih =>
      rw [List.length_cons] at h
      obtain ⟨m₁, hfirst, hone⟩ := m.store_written b (by omega : i < size)
      obtain ⟨m₂, hrest, htail⟩ := ih m₁ (i := i + 1) (by omega)
      exact ⟨m₂, by simp [storeRange, hfirst, hrest], hone.append htail⟩

end Region

end GovFuzz.Lib
