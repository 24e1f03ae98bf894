import GovFuzz.CRuntime.Decode
import GovFuzz.Lib.Region

/-!
# RustRuntime — the cursor of a Rust harness

`Cursor` of `rust_runtime`, read by read beside `gf_cursor` of
`c_runtime/govfuzz_decode.h`.  A slice out of bounds panics; a C string ends
with a `NUL` that the Rust bytes do not have.
-/

namespace GovFuzz.RustRuntime

open GovFuzz.Lib GovFuzz.CRuntime

/-- The input and the place in it. -/
structure Cursor where
  data : List UInt8
  pos : Nat
  deriving DecidableEq, Repr

namespace Cursor

def new (data : List UInt8) : Cursor where
  data := data
  pos := 0

def remaining (c : Cursor) : Nat := c.data.length - c.pos

/-- The loop over the slots of `take_le`; those behind the end keep their zero. -/
def takeLe : (slots : Nat) → Cursor → List UInt8 × Cursor
  | 0, c => ([], c)
  | slots + 1, c =>
      if h : c.pos < c.data.length then
        let (out, c') := takeLe slots { c with pos := c.pos + 1 }
        (c.data[c.pos] :: out, c')
      else (List.replicate (slots + 1) 0, c)

/-- One byte, zero at the end. -/
def u8 (c : Cursor) : UInt8 × Cursor :=
  let (out, c) := takeLe 1 c
  (out.headD 0, c)

/-- Two bytes, zeros behind the end. -/
def u16 (c : Cursor) : UInt16 × Cursor :=
  let (out, c) := takeLe 2 c
  (UInt16.ofNat (leNat out), c)

/-- Four bytes, signed. -/
def i32 (c : Cursor) : Int32 × Cursor :=
  let (out, c) := takeLe 4 c
  ((UInt32.ofNat (leNat out)).toInt32, c)

/-- Eight bytes, signed. -/
def i64 (c : Cursor) : Int64 × Cursor :=
  let (out, c) := takeLe 8 c
  ((UInt64.ofNat (leNat out)).toInt64, c)

/-- A length from the input, no more than is allowed and left. -/
def boundedLen (c : Cursor) (max : Nat) : Nat × Cursor :=
  let (lengthPrefix, c) := c.u16
  (min (min lengthPrefix.toNat max) c.remaining, c)

/-- That many bytes. -/
def bytes (c : Cursor) (max : Nat) : Option (List UInt8 × Cursor) :=
  let (want, c) := c.boundedLen max
  let start := c.pos
  let stop := start + want
  (subslice? c.data start stop).map fun taken => (taken, { c with pos := stop })

/-- All bytes ahead. -/
def restSlice (c : Cursor) : Option (List UInt8 × Cursor) :=
  let start := c.pos
  (subslice? c.data start c.data.length).map fun taken => (taken, { c with pos := c.data.length })

end Cursor

/-! ## Reads -/

/-- The reads of a harness. -/
inductive Read where
  | u8
  | i32
  | i64
  | bytes (max : Nat)
  | rest
  deriving DecidableEq, Repr

/-- What one read hands to the target. -/
inductive Value where
  | u8 (value : UInt8)
  | i32 (value : Int32)
  | i64 (value : Int64)
  | bytes (value : List UInt8)
  | rest (value : List UInt8)
  deriving DecidableEq

/-- What the C cursor's reads give. -/
inductive GfValue where
  | u8 (value : UInt8)
  | i32 (value : Int32)
  | i64 (value : Int64)
  | cString (buffer : List UInt8)
  | dataSlice (span : List UInt8)
  deriving DecidableEq

/-- The same value in a C harness. -/
def Value.inC : Value → GfValue
  | u8 value => .u8 value
  | i32 value => .i32 value
  | i64 value => .i64 value
  | bytes value => .cString (value ++ [0])
  | rest value => .dataSlice value

/-- A read of the Rust cursor. -/
def Cursor.read (c : Cursor) : Read → Option (Value × Cursor)
  | .u8 => some (.u8 c.u8.1, c.u8.2)
  | .i32 => some (.i32 c.i32.1, c.i32.2)
  | .i64 => some (.i64 c.i64.1, c.i64.2)
  | .bytes max => (c.bytes max).map fun (value, c) => (.bytes value, c)
  | .rest => c.restSlice.map fun (value, c) => (.rest value, c)

/-- A read of the C cursor. -/
def gfRead (c : GfDataCursor) : Read → GfValue × GfDataCursor
  | .u8 => (.u8 (gfU8 c).1, (gfU8 c).2)
  | .i32 => (.i32 (gfI32 c).1, (gfI32 c).2)
  | .i64 => (.i64 (gfI64 c).1, (gfI64 c).2)
  | .bytes max => (.cString (gfCString c max).1, (gfCString c max).2)
  | .rest => (.dataSlice (gfDataSlice c).1, (gfDataSlice c).2)

/-- The value of each read and the position behind it. -/
def Cursor.run (c : Cursor) : List Read → Option (List (Value × Nat))
  | [] => some []
  | r :: reads => do
      let (value, c) ← c.read r
      let after ← c.run reads
      some ((value, c.pos) :: after)

/-- The values and the places after each read. -/
def gfRun (c : GfDataCursor) : List Read → List (GfValue × Nat)
  | [] => []
  | r :: reads => ((gfRead c r).1, (gfRead c r).2.pos) :: gfRun (gfRead c r).2 reads

/-! ## Side by side -/

/-- The two cursors stand at the same byte of the same input. -/
structure Mirrors (c : Cursor) (g : GfDataCursor) : Prop where
  data : g.data = c.data
  size : g.size = c.data.length
  pos : g.pos = c.pos
  inside : c.pos ≤ c.data.length

namespace Mirrors

theorem new (input : List UInt8) : Mirrors (Cursor.new input) (gfOpen input) :=
  ⟨rfl, rfl, rfl, Nat.zero_le _⟩

variable {c : Cursor} {g : GfDataCursor}

theorem remaining (h : Mirrors c g) : g.remaining = c.remaining := by
  rw [GfDataCursor.remaining, Cursor.remaining, h.size, h.pos]
  split
  · rfl
  · omega

/-- Both cursors over one byte. -/
theorem next (h : Mirrors c g) (hpos : c.pos < c.data.length) :
    g.next.1 = c.data[c.pos] ∧ Mirrors { c with pos := c.pos + 1 } g.next.2 := by
  constructor
  · change g.data.getD g.pos 0 = c.data[c.pos]
    rw [h.data, h.pos]
    exact List.getD_eq_getElem _ _ hpos
  · exact ⟨h.data, h.size, congrArg (· + 1) h.pos, hpos⟩

/-- Both cursors forward to one position. -/
theorem advance (h : Mirrors c g) {k k' : Nat} (hk : k ≤ c.data.length) (hsame : k' = k) :
    Mirrors { c with pos := k } { g with pos := k' } :=
  ⟨h.data, h.size, hsame, hk⟩

end Mirrors

theorem leNat_replicate_zero (n : Nat) : leNat (List.replicate n 0) = 0 := by
  induction n with
  | zero => rfl
  | succ n ih => simp [List.replicate_succ, leNat, ih]

theorem takeLe_length (slots : Nat) (c : Cursor) : (c.takeLe slots).1.length = slots := by
  induction slots generalizing c with
  | zero => rfl
  | succ slots ih =>
      unfold Cursor.takeLe
      split
      · simp [ih]
      · simp

theorem takeLe_succ (slots : Nat) (c : Cursor) :
    c.takeLe (slots + 1)
      = (c.u8.1 :: (c.u8.2.takeLe slots).1, (c.u8.2.takeLe slots).2) := by
  by_cases hpos : c.pos < c.data.length
  · simp [Cursor.takeLe, Cursor.u8, hpos]
  · cases slots with
    | zero => simp [Cursor.takeLe, Cursor.u8, hpos]
    | succ slots => simp [Cursor.takeLe, Cursor.u8, hpos, List.replicate_succ]

/-- The zeros the Rust cursor fills in are the bits the C loop does not set. -/
theorem gfBytes_takeLe {w : Nat} (left i : Nat) (v : BitVec w) {c : Cursor} {g : GfDataCursor}
    (h : Mirrors c g) (hv : v.toNat < 2 ^ (i * 8)) (hw : (i + left) * 8 ≤ w) :
    (gfBytes w left i v g).1.toNat = v.toNat + 2 ^ (i * 8) * leNat (c.takeLe left).1
      ∧ Mirrors (c.takeLe left).2 (gfBytes w left i v g).2 := by
  induction left generalizing i v c g with
  | zero => simpa [gfBytes, Cursor.takeLe, leNat] using h
  | succ left ih =>
      unfold gfBytes Cursor.takeLe
      rw [h.remaining, Cursor.remaining]
      by_cases hpos : c.pos < c.data.length
      · obtain ⟨hbyte, hmirrors⟩ := h.next hpos
        obtain ⟨hnext, hfits⟩ := toNat_or_byte c.data[c.pos] hv (by omega)
        have hpow : 2 ^ ((i + 1) * 8) = 2 ^ (i * 8) * 256 := by
          rw [Nat.add_one_mul, Nat.pow_add]
        obtain ⟨hvalue, hafter⟩ := ih (i + 1) _ hmirrors (by rw [hnext]; exact hfits) (by omega)
        rw [if_pos (Nat.sub_pos_of_lt hpos), dif_pos hpos]
        simp only [hbyte]
        refine ⟨?_, hafter⟩
        rw [hvalue, hnext, leNat, hpow]
        ring
      · rw [if_neg (by omega), dif_neg hpos]
        exact ⟨by rw [leNat_replicate_zero, Nat.mul_zero, Nat.add_zero], h⟩

/-- The two caps of `gf_c_string`. -/
theorem gfWant_eq (lengthPrefix max avail : Nat) :
    (let want := if lengthPrefix > max then max else lengthPrefix
      if want > avail then avail else want) = min (min lengthPrefix max) avail := by
  dsimp only
  split <;> split <;> omega

theorem toNat_lowHigh (low high : UInt8) :
    (low.toUInt16 ||| high.toUInt16 <<< 8).toNat = low.toNat + high.toNat * 2 ^ 8 := by
  have hhigh := high.toNat_lt
  have height : (8 : UInt16).toNat % 16 = 8 := rfl
  rw [UInt16.toNat_or, UInt16.toNat_shiftLeft, UInt8.toNat_toUInt16, UInt8.toNat_toUInt16, height,
    Nat.mod_eq_of_lt (by rw [Nat.shiftLeft_eq]; omega), shiftLeft_or low.toNat_lt]

section

variable {c : Cursor} {g : GfDataCursor} (h : Mirrors c g)
include h

theorem gfU8_u8 : (gfU8 g).1 = c.u8.1 ∧ Mirrors c.u8.2 (gfU8 g).2 := by
  unfold gfU8 Cursor.u8 Cursor.takeLe
  rw [h.remaining, Cursor.remaining]
  by_cases hpos : c.pos < c.data.length
  · obtain ⟨hbyte, hmirrors⟩ := h.next hpos
    rw [if_neg (by omega), dif_pos hpos]
    exact ⟨hbyte, hmirrors⟩
  · rw [if_pos (by omega), dif_neg hpos]
    exact ⟨rfl, h⟩

theorem gfI32_i32 : (gfI32 g).1 = c.i32.1 ∧ Mirrors c.i32.2 (gfI32 g).2 := by
  obtain ⟨hvalue, hmirrors⟩ := gfBytes_takeLe 4 0 (0 : BitVec 32) h (by simp) (by omega)
  have hraw : UInt32.ofBitVec (gfBytes 32 4 0 0 g).1 = UInt32.ofNat (leNat (c.takeLe 4).1) := by
    have hlt := leNat_lt (c.takeLe 4).1
    rw [takeLe_length] at hlt
    apply UInt32.toNat_inj.mp
    rw [UInt32.toNat_ofNat_of_lt' hlt]
    simpa using hvalue
  exact ⟨congrArg UInt32.toInt32 hraw, hmirrors⟩

theorem gfI64_i64 : (gfI64 g).1 = c.i64.1 ∧ Mirrors c.i64.2 (gfI64 g).2 := by
  obtain ⟨hvalue, hmirrors⟩ := gfBytes_takeLe 8 0 (0 : BitVec 64) h (by simp) (by omega)
  have hraw : UInt64.ofBitVec (gfBytes 64 8 0 0 g).1 = UInt64.ofNat (leNat (c.takeLe 8).1) := by
    have hlt := leNat_lt (c.takeLe 8).1
    rw [takeLe_length] at hlt
    apply UInt64.toNat_inj.mp
    rw [UInt64.toNat_ofNat_of_lt' hlt]
    simpa using hvalue
  exact ⟨congrArg UInt64.toInt64 hraw, hmirrors⟩

/-- The two bytes of the length, read one by one. -/
theorem gfPrefix_u16 :
    (gfU8 g).1.toUInt16 ||| (gfU8 (gfU8 g).2).1.toUInt16 <<< 8 = c.u16.1
      ∧ Mirrors c.u16.2 (gfU8 (gfU8 g).2).2 := by
  obtain ⟨hlow, hafterLow⟩ := gfU8_u8 h
  obtain ⟨hhigh, hafterHigh⟩ := gfU8_u8 hafterLow
  have htwo := takeLe_succ 1 c
  rw [takeLe_succ 0 c.u8.2] at htwo
  have hlowLt := c.u8.1.toNat_lt
  have hhighLt := c.u8.2.u8.1.toNat_lt
  rw [hlow, hhigh, Cursor.u16, htwo]
  refine ⟨?_, hafterHigh⟩
  apply UInt16.toNat_inj.mp
  rw [toNat_lowHigh]
  simp only [leNat, Cursor.takeLe]
  rw [UInt16.toNat_ofNat_of_lt' (by rw [UInt16.size]; omega)]
  omega

theorem gfCString_bytes (max : Nat) :
    ∃ taken c', c.bytes max = some (taken, c') ∧ (gfCString g max).1 = taken ++ [0]
      ∧ Mirrors c' (gfCString g max).2 := by
  obtain ⟨hlength, hmirrors⟩ := gfPrefix_u16 h
  have hinside := hmirrors.inside
  have hwant : (c.boundedLen max).1 = min (min c.u16.1.toNat max) c.u16.2.remaining := rfl
  have hremaining : c.u16.2.remaining = c.u16.2.data.length - c.u16.2.pos := rfl
  have hend : c.u16.2.pos + (c.boundedLen max).1 ≤ c.u16.2.data.length := by omega
  have hslice : subslice? c.u16.2.data c.u16.2.pos (c.u16.2.pos + (c.boundedLen max).1)
      = some ((c.u16.2.data.drop c.u16.2.pos).take (c.boundedLen max).1) := by
    rw [subslice?, if_pos ⟨by omega, hend⟩, Nat.add_sub_cancel_left]
  have hread : c.bytes max
      = some ((c.u16.2.data.drop c.u16.2.pos).take (c.boundedLen max).1,
        { c.u16.2 with pos := c.u16.2.pos + (c.boundedLen max).1 }) := by
    unfold Cursor.bytes
    exact congrArg (Option.map _) hslice
  have hwantC := gfWant_eq c.u16.1.toNat max c.u16.2.remaining
  rw [← hwant, ← hlength, ← hmirrors.remaining] at hwantC
  refine ⟨_, _, hread, ?_, hmirrors.data, hmirrors.size, ?_, hend⟩
  · rw [← hmirrors.data, ← hmirrors.pos, ← hwantC]
    rfl
  · exact congrArg₂ (· + ·) hmirrors.pos hwantC

theorem gfDataSlice_restSlice :
    ∃ taken c', c.restSlice = some (taken, c') ∧ (gfDataSlice g).1 = taken
      ∧ Mirrors c' (gfDataSlice g).2 := by
  have hslice : subslice? c.data c.pos c.data.length
      = some ((c.data.drop c.pos).take (c.data.length - c.pos)) :=
    if_pos ⟨h.inside, Nat.le_refl _⟩
  refine ⟨_, _, by rw [Cursor.restSlice, hslice]; rfl, ?_, h.advance (Nat.le_refl _) h.size⟩
  change (g.data.drop g.pos).take g.remaining = _
  rw [h.remaining, h.data, h.pos]
  rfl

/-- One read of the two runtimes. -/
theorem gfRead_read (r : Read) :
    ∃ value c', c.read r = some (value, c') ∧ (gfRead g r).1 = value.inC
      ∧ Mirrors c' (gfRead g r).2 := by
  cases r with
  | u8 =>
      obtain ⟨hvalue, hafter⟩ := gfU8_u8 h
      exact ⟨_, _, rfl, congrArg GfValue.u8 hvalue, hafter⟩
  | i32 =>
      obtain ⟨hvalue, hafter⟩ := gfI32_i32 h
      exact ⟨_, _, rfl, congrArg GfValue.i32 hvalue, hafter⟩
  | i64 =>
      obtain ⟨hvalue, hafter⟩ := gfI64_i64 h
      exact ⟨_, _, rfl, congrArg GfValue.i64 hvalue, hafter⟩
  | bytes max =>
      obtain ⟨taken, c', hread, hvalue, hafter⟩ := gfCString_bytes h max
      exact ⟨.bytes taken, c', by rw [Cursor.read, hread]; rfl, congrArg GfValue.cString hvalue,
        hafter⟩
  | rest =>
      obtain ⟨taken, c', hread, hvalue, hafter⟩ := gfDataSlice_restSlice h
      exact ⟨.rest taken, c', by rw [Cursor.read, hread]; rfl, congrArg GfValue.dataSlice hvalue,
        hafter⟩

end

theorem Mirrors.run {c : Cursor} {g : GfDataCursor} (h : Mirrors c g) (reads : List Read) :
    ∃ values, c.run reads = some values
      ∧ gfRun g reads = values.map fun after => (after.1.inC, after.2) := by
  induction reads generalizing c g with
  | nil => exact ⟨[], rfl, rfl⟩
  | cons r reads ih =>
      obtain ⟨value, c', hread, hvalue, hafter⟩ := gfRead_read h r
      obtain ⟨values, hvalues, hrun⟩ := ih hafter
      refine ⟨(value, c'.pos) :: values, ?_, ?_⟩
      · simp [Cursor.run, hread, hvalues]
      · simp [gfRun, hvalue, hrun, hafter.pos]

/-- No read of a Rust harness panics, and each has the value and leaves the
position of the same read in a C harness. -/
theorem gfRun_run (input : List UInt8) (reads : List Read) :
    ∃ values, (Cursor.new input).run reads = some values
      ∧ gfRun (gfOpen input) reads = values.map fun after => (after.1.inC, after.2) :=
  (Mirrors.new input).run reads

example : (Cursor.new [5, 0, 1, 2]).run [.bytes 8, .i32]
    = some [(.bytes [1, 2], 4), (.i32 0, 4)] := by decide

end GovFuzz.RustRuntime
