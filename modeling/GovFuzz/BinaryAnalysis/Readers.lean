import GovFuzz.Lib.Lossy
import GovFuzz.Lib.Window
import GovFuzz.Runtrace.Readers
import Mathlib.Data.List.Destutter

/-!
# Binary analysis — the readers

The functions of `crates/binary_analysis/src/lib.rs` that every parser of a
header goes through: the readers of a word at an offset, `checked_slice`,
`table_entry_offset`, and the two that turn bytes into a name.  The readers
add the width to the offset with a plain `+`; so each has a bound on the
offset that its caller has to keep (`readAs_total`).
-/

namespace GovFuzz.BinaryAnalysis

open GovFuzz.Lib
open GovFuzz.Runtrace (trim)

/-! ## What is scanned -/

/-- The formats that are recognized. -/
inductive Format where
  | elf
  | pe
  | machO
  | firmwareBlob
  deriving DecidableEq, Repr

/-- The processors that are recognized. -/
inductive Architecture where
  | x86
  | arm
  | x86_64
  | aarch64
  | riscv
  | unknown
  deriving DecidableEq, Repr

/-- The byte order of a file, when it is known. -/
inductive Endian where
  | little
  | big
  | unknown
  deriving DecidableEq, Repr

/-- What a header says of the file. -/
structure BinaryKind where
  format : Format
  architecture : Architecture
  bits : Nat
  endian : Endian
  deriving DecidableEq, Repr

/-- A section or a segment. -/
inductive SectionKind where
  | section
  | segment
  deriving DecidableEq, Repr

/-- The properties of a section. -/
inductive SectionFlag where
  | readable
  | writable
  | executable
  | allocated
  | stringTable
  | nobits
  | initializedData
  deriving DecidableEq, Repr

/-- A section or segment of the report. -/
structure BinarySection where
  name : List Char
  kind : SectionKind
  virtualAddress : Option UInt64
  fileOffset : Option UInt64
  size : Option UInt64
  flags : List SectionFlag
  deriving DecidableEq, Repr

/-- Where the program starts and how it is divided. -/
structure BinaryLayout where
  entrypoint : Option UInt64
  imageBase : Option UInt64
  programHeaderCount : Option UInt32
  sectionCount : Option UInt32
  loadCommandCount : Option UInt32
  loadCommandBytes : Option UInt32
  sections : List BinarySection
  deriving DecidableEq, Repr

/-- The names a binary takes and gives. -/
structure BinarySymbolNames where
  imports : List (List Char)
  exports : List (List Char)
  deriving DecidableEq, Repr

variable {buffer : Slice} {τ : Type}

/-! ## Words

A `usize` has 64 bits, so `usize_from_u64`, `usize_from_u32` and `as usize`
all are `toNat`. -/

/-- The word that bytes stand for; an unknown order is taken for little. -/
def Endian.decode : Endian → List UInt8 → Nat
  | .little, raw => leNat raw
  | .big, raw => beNat raw
  | .unknown, raw => leNat raw

/-- A number of `width` bytes, none when they are not all there. -/
def readAs (width : Nat) (ofNat : Nat → τ) (bytes : Window buffer) (offset : Nat)
    (endian : Endian) : Parse (Option τ) := do
  let stop ← Parse.add offset width
  match bytes.get? offset stop with
  | some raw =>
      let raw ← Parse.peek raw
      return some (ofNat (endian.decode raw))
  | none => return none

/-- Two bytes. -/
def readU16 (bytes : Window buffer) (offset : Nat) (endian : Endian) : Parse (Option UInt16) :=
  readAs 2 UInt16.ofNat bytes offset endian

/-- Four bytes. -/
def readU32 (bytes : Window buffer) (offset : Nat) (endian : Endian) : Parse (Option UInt32) :=
  readAs 4 UInt32.ofNat bytes offset endian

/-- Four bytes, little-endian. -/
def readU32Le (bytes : Window buffer) (offset : Nat) : Parse (Option UInt32) :=
  readAs 4 UInt32.ofNat bytes offset .little

/-- Eight bytes. -/
def readU64 (bytes : Window buffer) (offset : Nat) (endian : Endian) : Parse (Option UInt64) :=
  readAs 8 UInt64.ofNat bytes offset endian

/-- The word of some width at an offset, if the bytes reach that far. -/
def wordAt (width : Nat) (ofNat : Nat → τ) (bytes : Window buffer) (offset : Nat)
    (endian : Endian) : Option τ :=
  (bytes.get? offset (offset + width)).map fun raw => ofNat (endian.decode raw.bytes)

section
variable {width offset : Nat} {ofNat : Nat → τ} {bytes : Window buffer} {endian : Endian}

theorem le_of_wordAt {word : τ} (h : wordAt width ofNat bytes offset endian = some word) :
    offset + width ≤ bytes.length := by
  obtain ⟨raw, hraw, -⟩ := Option.map_eq_some_iff.mp h
  exact (Window.get?_eq_some hraw).2.1

theorem exists_wordAt (h : offset + width ≤ bytes.length) :
    ∃ word, wordAt width ofNat bytes offset endian = some word := by
  obtain ⟨raw, hraw⟩ := Window.get?_of_le (Nat.le_add_right offset width) h
  exact ⟨_, Option.map_eq_some_iff.mpr ⟨raw, hraw, rfl⟩⟩

theorem readAs_total (h : offset + width < usizeSize) :
    Parse.Total buffer (fun word => wordAt width ofNat bytes offset endian = word)
      (readAs width ofNat bytes offset endian) := by
  refine (Parse.Total.add h).bind ?_
  rintro stop rfl
  unfold wordAt
  cases bytes.get? offset (offset + width) with
  | none => exact Parse.Total.pure rfl
  | some raw =>
      refine (Parse.Total.peek raw).bind ?_
      rintro raw' rfl
      exact Parse.Total.pure rfl

theorem readAs_traps (h : usizeSize ≤ offset + width) :
    Parse.Traps buffer (readAs width ofNat bytes offset endian) :=
  (Parse.Traps.add h).of_bind _

/-- A read that the window has the bytes for. -/
theorem readAs_some (h : offset + width ≤ bytes.length) :
    Parse.Total buffer (fun word => word.isSome) (readAs width ofNat bytes offset endian) := by
  have hlt := bytes.length_lt
  refine (readAs_total (by omega)).mono ?_
  rintro word rfl
  have hword : ∃ word, wordAt width ofNat bytes offset endian = some word := exists_wordAt h
  exact Option.isSome_iff_exists.mpr hword

/-- A field that the window has the bytes for is read, not made up. -/
theorem field_total {standIn : τ} (h : offset + width ≤ bytes.length) :
    Parse.Total buffer (fun _ => True)
      (readAs width ofNat bytes offset endian >>= Parse.orDefault standIn) := by
  refine (readAs_some h).bind ?_
  rintro (_ | word) hword
  · cases hword
  · exact Parse.Total.orDefault trivial

end

/-- `read(..).unwrap_or(0)`. -/
def fieldU16 (bytes : Window buffer) (offset : Nat) (endian : Endian) : Parse UInt16 := do
  Parse.orDefault 0 (← readU16 bytes offset endian)

/-- Four bytes, zero when they are not there. -/
def fieldU32 (bytes : Window buffer) (offset : Nat) (endian : Endian) : Parse UInt32 := do
  Parse.orDefault 0 (← readU32 bytes offset endian)

/-- Eight bytes, zero when they are not there. -/
def fieldU64 (bytes : Window buffer) (offset : Nat) (endian : Endian) : Parse UInt64 := do
  Parse.orDefault 0 (← readU64 bytes offset endian)

/-- `bytes.get(offset).copied().unwrap_or(0)`. -/
def fieldU8 (bytes : Window buffer) (offset : Nat) : Parse UInt8 := do
  let raw := bytes.get? offset (offset + 1)
  match ← Parse.andThen raw fun raw => return some (← Parse.peek raw) with
  | some [byte] => return byte
  | _ => Parse.orDefault 0 none

theorem fieldU8_total {bytes : Window buffer} {offset : Nat} (h : offset + 1 ≤ bytes.length) :
    Parse.Total buffer (fun _ => True) (fieldU8 bytes offset) := by
  obtain ⟨raw, hraw⟩ := Window.get?_of_le (Nat.le_succ offset) h
  obtain ⟨-, -, -, hlength⟩ := Window.get?_eq_some hraw
  unfold fieldU8
  rw [hraw]
  refine ((Parse.Total.peek raw).bind fun found hfound => .pure ?_ : Parse.Total buffer
    (fun out => ∃ byte, out = some [byte]) _).bind ?_
  · have hone : found.length = 1 := by
      rw [hfound, Window.length_bytes]
      omega
    obtain ⟨byte, hbyte⟩ := List.length_eq_one_iff.mp hone
    exact ⟨byte, by rw [hbyte]⟩
  · rintro _ ⟨byte, rfl⟩
    exact .done _

/-! ## Slices -/

/-- Where an entry starts, unless that overflows. -/
def tableEntryOffset (base index entrySize : Nat) : Option Nat := do
  let delta ← checkedMul index entrySize
  checkedAdd delta base

/-- The bytes of a range, unless it leaves the buffer. -/
def checkedSlice (bytes : Window buffer) (offset len : Nat) : Option (Window buffer) := do
  let stop ← checkedAdd offset len
  bytes.get? offset stop

/-- The next multiple of four, unless that overflows. -/
def align4 (value : Nat) : Option Nat := (checkedAdd value 3).map (· &&& wordNot 3)

theorem checkedAdd_eq_some {a b c : Nat} (h : checkedAdd a b = some c) :
    a + b < usizeSize ∧ c = a + b := by
  unfold checkedAdd at h
  split at h
  · cases h
    exact ⟨‹_›, rfl⟩
  · cases h

theorem checkedMul_eq_some {a b c : Nat} (h : checkedMul a b = some c) :
    a * b < usizeSize ∧ c = a * b := by
  unfold checkedMul at h
  split at h
  · cases h
    exact ⟨‹_›, rfl⟩
  · cases h

theorem tableEntryOffset_eq_some {base index entrySize offset : Nat}
    (h : tableEntryOffset base index entrySize = some offset) :
    offset < usizeSize ∧ offset = index * entrySize + base := by
  obtain ⟨delta, hdelta, hoffset⟩ := Option.bind_eq_some_iff.mp h
  obtain ⟨-, rfl⟩ := checkedMul_eq_some hdelta
  obtain ⟨hlt, rfl⟩ := checkedAdd_eq_some hoffset
  exact ⟨hlt, rfl⟩

/-- A slice that was cut lies at its exact offset. -/
theorem checkedSlice_eq_some {bytes part : Window buffer} {offset len : Nat}
    (h : checkedSlice bytes offset len = some part) :
    offset + len ≤ bytes.length ∧ part.start = bytes.start + offset ∧ part.length = len := by
  obtain ⟨stop, hstop, hpart⟩ := Option.bind_eq_some_iff.mp h
  obtain ⟨-, rfl⟩ := checkedAdd_eq_some hstop
  obtain ⟨-, hle, hstart, hlength⟩ := Window.get?_eq_some hpart
  exact ⟨hle, hstart, by omega⟩

/-! ## Names -/

/-- The text up to the first zero byte. -/
def fixedName (raw : Window buffer) : Parse (List Char) := do
  let stop := raw.bytes.idxOf 0
  let name ← Parse.slice raw 0 stop
  return trim (lossy (← Parse.peek name))

/-- The name at an offset, empty outside the table. -/
def stringTableName (table : Window buffer) (offset : Nat) : Parse (List Char) :=
  match table.getFrom? offset with
  | some rest => fixedName rest
  | none => return []

/-- `fixed_name(bytes.get(offset..).unwrap_or_default())`. -/
def nameFrom (bytes : Window buffer) (offset : Nat) : Parse (List Char) :=
  fixedName ((bytes.getFrom? offset).getD .empty)

theorem fixedName_total (raw : Window buffer) :
    Parse.Total buffer (fun _ => True) (fixedName raw) := by
  have hstop : raw.bytes.idxOf 0 ≤ raw.length := by
    have hle := List.idxOf_le_length (a := 0) (l := raw.bytes)
    rwa [Window.length_bytes] at hle
  refine (Parse.Total.slice (Nat.zero_le _) hstop).bind ?_
  intro name _
  refine (Parse.Total.peek name).bind ?_
  intro _ _
  exact Parse.Total.pure trivial

theorem stringTableName_total (table : Window buffer) (offset : Nat) :
    Parse.Total buffer (fun _ => True) (stringTableName table offset) := by
  unfold stringTableName
  split
  · exact fixedName_total _
  · exact Parse.Total.pure trivial

/-! ## Lists of names -/

/-- A name the report shows. -/
def isBinarySymbolName (name : List Char) : Bool :=
  name ≠ [] && (name.map Char.utf8Size).sum ≤ 256
    && name.all fun ch => ch.isAlphanum || ch ∈ ['_', '@', '$', '.', '-']

/-- The order of strings: that of their characters. -/
def textLe : List Char → List Char → Bool
  | [], _ => true
  | _ :: _, [] => false
  | a :: as, b :: bs => a.toNat < b.toNat || (a = b && textLe as bs)

/-- `sort` and `dedup`. -/
def sortDedup (names : List (List Char)) : List (List Char) :=
  (names.mergeSort textLe).destutter (· ≠ ·)

/-- Both lists sorted, without repetition. -/
def BinarySymbolNames.sorted (names : BinarySymbolNames) : BinarySymbolNames :=
  ⟨sortDedup names.imports, sortDedup names.exports⟩

end GovFuzz.BinaryAnalysis
