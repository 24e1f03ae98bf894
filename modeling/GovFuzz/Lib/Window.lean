import GovFuzz.Lib.Bytes
import GovFuzz.Lib.Slice
import GovFuzz.Lib.Stateful

/-!
# Lib — reading a buffer through windows

A parser of a binary format cuts slices out of a buffer, and slices out of
those.  A `Window` is such a slice that remembers where in the buffer it
lies.  `Parse` is the monad of a parser whose arithmetic traps: a sum that
does not fit a word and a slice that leaves its window end the run, and every
field that is read is put on record, with the place it was read at.  `Total`
is the rule to reason with: the run returns, and the record is exact.
-/

namespace GovFuzz.Lib

/-- The bytes `start .. start + length` of a buffer. -/
structure Window (buffer : Slice) where
  start : Nat
  length : Nat
  inside : start + length ≤ buffer.length
  deriving DecidableEq

namespace Window

variable {buffer : Slice}

def whole (buffer : Slice) : Window buffer := ⟨0, buffer.length, by omega⟩

/-- `&[]`. -/
def empty : Window buffer := ⟨0, 0, by omega⟩

def bytes (w : Window buffer) : List UInt8 := (buffer.bytes.drop w.start).take w.length

/-- `w.get(k..m)`. -/
def get? (w : Window buffer) (k m : Nat) : Option (Window buffer) :=
  if h : k ≤ m ∧ m ≤ w.length then
    some ⟨w.start + k, m - k, by have := w.inside; omega⟩
  else none

/-- `w.get(k..)`. -/
def getFrom? (w : Window buffer) (k : Nat) : Option (Window buffer) := w.get? k w.length

@[simp] theorem whole_length : (whole buffer).length = buffer.length := rfl

@[simp] theorem whole_bytes : (whole buffer).bytes = buffer.bytes := by
  simp [bytes, whole, Slice.length]

@[simp] theorem length_bytes (w : Window buffer) : w.bytes.length = w.length := by
  have := w.inside
  simp only [bytes, List.length_take, List.length_drop, Slice.length] at *
  omega

theorem length_le (w : Window buffer) : w.length ≤ isizeMax := by
  have hinside := w.inside
  have hfits := buffer.fits
  simp only [Slice.length] at hinside
  omega

/-- No sum of two offsets into a window reaches a word's limit. -/
theorem length_lt (w : Window buffer) : w.length + w.length + 1 < usizeSize := by
  have := w.length_le
  simp only [isizeMax, usizeSize] at *
  omega

theorem get?_eq_some {w v : Window buffer} {k m : Nat} (h : w.get? k m = some v) :
    k ≤ m ∧ m ≤ w.length ∧ v.start = w.start + k ∧ v.length = m - k := by
  unfold get? at h
  split at h
  · rename_i hle
    cases h
    exact ⟨hle.1, hle.2, rfl, rfl⟩
  · cases h

theorem get?_of_le {w : Window buffer} {k m : Nat} (h : k ≤ m) (h' : m ≤ w.length) :
    ∃ v, w.get? k m = some v :=
  ⟨_, dif_pos ⟨h, h'⟩⟩

/-- The bytes of a window in a window. -/
theorem bytes_get? {w v : Window buffer} {k m : Nat} (h : w.get? k m = some v) :
    v.bytes = (w.bytes.drop k).take (m - k) := by
  obtain ⟨hle, hlen, hstart, hlength⟩ := get?_eq_some h
  simp only [bytes, hstart, hlength, List.drop_take, List.drop_drop, List.take_take]
  congr 1
  omega

end Window

/-! ## The monad of a parser -/

inductive Trap where
  | overflow
  | bounds
  deriving DecidableEq, Repr

/-- What a run puts on record: bytes read at an offset of the buffer, or a
value that stands for a field there were no bytes for. -/
inductive Event where
  | read (offset : Nat) (bytes : List UInt8)
  | defaulted
  deriving DecidableEq, Repr

/-- The bytes are those of the buffer at the offset. -/
def Event.ExactIn (buffer : Slice) : Event → Prop
  | .read offset bytes =>
      offset + bytes.length ≤ buffer.length
        ∧ (buffer.bytes.drop offset).take bytes.length = bytes
  | .defaulted => False

instance (buffer : Slice) : DecidablePred (Event.ExactIn buffer)
  | .read _ _ => inferInstanceAs (Decidable (_ ∧ _))
  | .defaulted => inferInstanceAs (Decidable False)

abbrev Parse := Op (List Event) Trap

namespace Parse

variable {α β : Type} {buffer : Slice}

def add (a b : Nat) : Parse Nat := if a + b < usizeSize then pure (a + b) else throw .overflow

def mul (a b : Nat) : Parse Nat := if a * b < usizeSize then pure (a * b) else throw .overflow

def sub (a b : Nat) : Parse Nat := if b ≤ a then pure (a - b) else throw .overflow

/-- The outcome of a checked operation, for the run to go on from. -/
def checked (o : Option α) : Parse (Option α) := pure o

/-- `and_then`. -/
def andThen (o : Option α) (f : α → Parse (Option β)) : Parse (Option β) :=
  match o with
  | some a => f a
  | none => pure none

/-- `&w[k..m]`. -/
def slice (w : Window buffer) (k m : Nat) : Parse (Window buffer) :=
  match w.get? k m with
  | some v => pure v
  | none => throw .bounds

def record (event : Event) : Parse Unit := do
  let log ← get
  set (log ++ [event])

/-- All bytes of a window. -/
def peek (w : Window buffer) : Parse (List UInt8) := do
  record (.read w.start w.bytes)
  return w.bytes

/-- `w[i]`. -/
def index (w : Window buffer) (i : Nat) : Parse UInt8 :=
  match w.bytes[i]? with
  | some byte => do
      record (.read (w.start + i) [byte])
      return byte
  | none => throw .bounds

/-- `unwrap_or`. -/
def orDefault (standIn : α) : Option α → Parse α
  | some a => pure a
  | none => do
      record .defaulted
      return standIn

/-- From an empty record. -/
def run (m : Parse α) : Except Trap (α × List Event) :=
  match Op.exec m [] with
  | (.ok a, log) => .ok (a, log)
  | (.error trap, _) => .error trap

/-- What follows a sum gets the sum. -/
theorem add_bind_congr {a b : Nat} {f g : Nat → Parse α} (h : f (a + b) = g (a + b)) :
    add a b >>= f = add a b >>= g := by
  unfold add
  split
  · exact h
  · rfl

/-! ## Total runs -/

def Clean (buffer : Slice) (log : List Event) : Prop := ∀ event ∈ log, event.ExactIn buffer

/-- The run returns a value with `P`, and every read is exact. -/
def Total (buffer : Slice) (P : α → Prop) (m : Parse α) : Prop := Op.Returns (Clean buffer) P m

variable {P : α → Prop} {Q : β → Prop}

namespace Total

theorem pure {a : α} (h : P a) : Total buffer P (Pure.pure a) := Op.Returns.pure h

/-- A value nothing is said about. -/
theorem done (a : α) : Total buffer (fun _ => True) (Pure.pure a) := pure trivial

theorem bind {m : Parse α} {f : α → Parse β} (h : Total buffer P m)
    (h' : ∀ a, P a → Total buffer Q (f a)) : Total buffer Q (m >>= f) := Op.Returns.bind h h'

theorem mono {P' : α → Prop} {m : Parse α} (h : Total buffer P m) (h' : ∀ a, P a → P' a) :
    Total buffer P' m := Op.Returns.mono h h'

theorem ite {c : Prop} [Decidable c] {m m' : Parse α} (h : c → Total buffer P m)
    (h' : ¬ c → Total buffer P m') : Total buffer P (if c then m else m') := by
  split
  · exact h ‹_›
  · exact h' ‹_›

/-- `let some a ← m | other`. -/
theorem bindSome {R : Option α → Prop} {m : Parse (Option α)} {f : Option α → Parse β}
    (h : Total buffer R m) (hnone : Total buffer Q (f none))
    (hsome : ∀ a, R (some a) → Total buffer Q (f (some a))) : Total buffer Q (m >>= f) := by
  refine h.bind ?_
  rintro (_ | a) ha
  · exact hnone
  · exact hsome a ha

theorem checked (o : Option α) : Total buffer (fun out => o = out) (Parse.checked o) := pure rfl

theorem andThen {R : Option β → Prop} {o : Option α} {f : α → Parse (Option β)} (hnone : R none)
    (h : ∀ a, o = some a → Total buffer R (f a)) : Total buffer R (Parse.andThen o f) := by
  cases o with
  | none => exact pure hnone
  | some a => exact h a rfl

theorem add {a b : Nat} (h : a + b < usizeSize) :
    Total buffer (fun c => c = a + b) (Parse.add a b) := by
  rw [Parse.add, if_pos h]
  exact pure rfl

theorem mul {a b : Nat} (h : a * b < usizeSize) :
    Total buffer (fun c => c = a * b) (Parse.mul a b) := by
  rw [Parse.mul, if_pos h]
  exact pure rfl

/-- The rest of a run behind a sum that fits. -/
theorem addBind {a b : Nat} {f : Nat → Parse β} (h : a + b < usizeSize)
    (h' : Total buffer Q (f (a + b))) : Total buffer Q (Parse.add a b >>= f) := by
  refine (add h).bind ?_
  rintro _ rfl
  exact h'

theorem mulBind {a b : Nat} {f : Nat → Parse β} (h : a * b < usizeSize)
    (h' : Total buffer Q (f (a * b))) : Total buffer Q (Parse.mul a b >>= f) := by
  refine (mul h).bind ?_
  rintro _ rfl
  exact h'

theorem sub {a b : Nat} (h : b ≤ a) : Total buffer (fun c => c = a - b) (Parse.sub a b) := by
  rw [Parse.sub, if_pos h]
  exact pure rfl

theorem slice {w : Window buffer} {k m : Nat} (h : k ≤ m) (h' : m ≤ w.length) :
    Total buffer (fun v => w.get? k m = some v) (Parse.slice w k m) := by
  obtain ⟨v, hv⟩ := Window.get?_of_le h h'
  rw [Parse.slice, hv]
  exact pure rfl

theorem record {event : Event} (h : event.ExactIn buffer) :
    Total buffer (fun _ => True) (Parse.record event) := by
  intro log hlog
  refine ⟨(), log ++ [event], rfl, trivial, ?_⟩
  intro e he
  rcases List.mem_append.mp he with he | he
  · exact hlog e he
  · rw [List.mem_singleton.mp he]
    exact h

theorem peek (w : Window buffer) : Total buffer (fun bytes => bytes = w.bytes) (Parse.peek w) := by
  have hexact : (Event.read w.start w.bytes).ExactIn buffer := by
    refine ⟨?_, ?_⟩
    · rw [Window.length_bytes]
      exact w.inside
    · rw [Window.length_bytes]
      rfl
  exact (record hexact).bind fun _ _ => pure rfl

theorem index {w : Window buffer} {i : Nat} (h : i < w.length) :
    Total buffer (fun byte => w.bytes[i]? = some byte) (Parse.index w i) := by
  have hlt : i < w.bytes.length := by rwa [Window.length_bytes]
  have hat : w.bytes[i]? = some w.bytes[i] := List.getElem?_eq_getElem hlt
  have hexact : (Event.read (w.start + i) [w.bytes[i]]).ExactIn buffer := by
    have hinside := w.inside
    refine ⟨by simp only [List.length_singleton]; omega, ?_⟩
    have hbuffer : w.start + i < buffer.bytes.length := by
      simp only [Slice.length] at hinside
      omega
    have hbyte : buffer.bytes[w.start + i] = w.bytes[i] := by
      simp [Window.bytes]
    rw [List.length_singleton, List.drop_eq_getElem_cons hbuffer, hbyte]
    rfl
  unfold Parse.index
  rw [hat]
  exact (record hexact).bind fun _ _ => pure rfl

theorem orDefault {a standIn : α} (h : P a) :
    Total buffer P (Parse.orDefault standIn (some a)) := pure h

/-- The loop's variables keep `P`. -/
theorem forEach {body : β → α → Parse (ForInStep α)} {l : List β}
    (h : ∀ b ∈ l, ∀ acc, P acc → Total buffer (fun step => P (Op.stepValue step)) (body b acc))
    {acc : α} (hacc : P acc) : Total buffer P (Op.forEach body l acc) :=
  Op.Returns.forEach h hacc

/-- A loop whose body is total from any values of its variables. -/
theorem forAll {body : β → α → Parse (ForInStep α)} {l : List β}
    (h : ∀ b ∈ l, ∀ acc, Total buffer (fun _ => True) (body b acc)) (acc : α) :
    Total buffer (fun _ => True) (Op.forEach body l acc) :=
  forEach (fun b hb acc _ => h b hb acc) trivial

end Total

/-! ## Runs that trap -/

/-- No run returns. -/
def Traps (buffer : Slice) (m : Parse α) : Prop := Op.Fails (Clean buffer) m

namespace Traps

theorem add {a b : Nat} (h : usizeSize ≤ a + b) : Traps buffer (Parse.add a b) := by
  intro log _
  rw [Parse.add, if_neg (by omega)]
  exact ⟨.overflow, log, rfl⟩

theorem of_bind {m : Parse α} (h : Traps buffer m) (f : α → Parse β) : Traps buffer (m >>= f) :=
  Op.Fails.of_bind h f

theorem bind {m : Parse α} {f : α → Parse β} (h : Total buffer P m)
    (h' : ∀ a, P a → Traps buffer (f a)) : Traps buffer (m >>= f) := Op.Returns.bind_fails h h'

end Traps

theorem Total.run {m : Parse α} (h : Total buffer P m) :
    ∃ a log, Parse.run m = .ok (a, log) ∧ P a ∧ Clean buffer log := by
  obtain ⟨a, log, hexec, ha, hlog⟩ := h [] nofun
  exact ⟨a, log, by rw [Parse.run, hexec], ha, hlog⟩

theorem Traps.run {m : Parse α} (h : Traps buffer m) : ∃ trap, Parse.run m = .error trap := by
  obtain ⟨trap, log, hexec⟩ := h [] nofun
  exact ⟨trap, by rw [Parse.run, hexec]⟩

end Parse

end GovFuzz.Lib
