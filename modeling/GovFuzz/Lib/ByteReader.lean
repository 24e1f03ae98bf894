import GovFuzz.Lib.Bytes

/-!
# Lib — readers over a byte stream

A reader takes what it wants from the front of the remaining bytes or
fails.  The one notion proofs use is `Yields r enc out`: run on `enc`
followed by ANYTHING, the reader ends with outcome `out` and, when that is
a success, stands exactly behind `enc`.  Framing facts compose through
`Yields.bind`; an unframed stream stays in step exactly when every record
`Yields`.
-/

namespace GovFuzz.Lib

/-- A reader over the bytes that are still to come. -/
abbrev ByteReader (ε α : Type) := StateT (List UInt8) (Except ε) α

namespace ByteReader

variable {ε α β : Type}

/-- Exactly `n` bytes, or `short` when the stream ends before them. -/
def exact (short : ε) (n : Nat) : ByteReader ε (List UInt8) := fun bytes =>
  if bytes.length < n then .error short else .ok (bytes.take n, bytes.drop n)

/-- `r` reads the encoding `enc` with outcome `out`, whatever follows. -/
def Yields (r : ByteReader ε α) (enc : List UInt8) (out : Except ε α) : Prop :=
  ∀ rest, r.run (enc ++ rest) = out.map (fun a => (a, rest))

theorem Yields.pure (a : α) : Yields (Pure.pure a : ByteReader ε α) [] (.ok a) := by
  intro rest
  rfl

/-- Two records back to back: the second is read from where the first one
ends, and a failure of the first is the failure of both. -/
theorem Yields.bind {r : ByteReader ε α} {f : α → ByteReader ε β} {enc enc' : List UInt8}
    {x : Except ε α} {y : α → Except ε β} (h : Yields r enc x)
    (h' : ∀ a, x = .ok a → Yields (f a) enc' (y a)) :
    Yields (r >>= f) (enc ++ enc') (x >>= y) := by
  intro rest
  rw [StateT.run_bind, List.append_assoc, h (enc' ++ rest)]
  cases hx : x with
  | error e => rfl
  | ok a => exact h' a hx rest

/-- The last field of a record: nothing is read after it. -/
theorem Yields.bind_pure {r : ByteReader ε α} {enc : List UInt8} {out : Except ε α}
    (h : Yields r enc out) (g : α → β) :
    Yields (r >>= fun a => Pure.pure (g a)) enc (out >>= fun a => .ok (g a)) := by
  have := h.bind (f := fun a => Pure.pure (g a)) (y := fun a => .ok (g a))
    (fun a _ => Yields.pure (g a))
  simpa using this

theorem Yields.exact {short : ε} {n : Nat} {enc : List UInt8} (h : enc.length = n) :
    Yields (exact short n) enc (.ok enc) := by
  intro rest
  subst h
  simp [ByteReader.exact, StateT.run, Except.map]

/-- The reader never hands back more bytes than it was given. -/
def Shrinks (r : ByteReader ε α) : Prop :=
  ∀ bytes a rest, r.run bytes = .ok (a, rest) → rest.length ≤ bytes.length

theorem Shrinks.pure (a : α) : Shrinks (Pure.pure a : ByteReader ε α) := by
  intro bytes b rest h
  cases h
  exact Nat.le_refl _

theorem Shrinks.throw (e : ε) : Shrinks (throw e : ByteReader ε α) := by
  intro bytes b rest h
  cases h

theorem Shrinks.bind {r : ByteReader ε α} {f : α → ByteReader ε β} (h : Shrinks r)
    (h' : ∀ a, Shrinks (f a)) : Shrinks (r >>= f) := by
  intro bytes b rest hrun
  rw [StateT.run_bind] at hrun
  cases hr : r.run bytes with
  | error e => rw [hr] at hrun; cases hrun
  | ok p =>
      obtain ⟨a, mid⟩ := p
      rw [hr] at hrun
      exact Nat.le_trans (h' a mid b rest hrun) (h bytes a mid hr)

theorem Shrinks.exact (short : ε) (n : Nat) : Shrinks (exact short n) := by
  intro bytes a rest h
  simp only [ByteReader.exact, StateT.run] at h
  split at h
  · cases h
  · cases h
    simp

end ByteReader

end GovFuzz.Lib
