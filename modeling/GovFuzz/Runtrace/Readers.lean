import GovFuzz.Lib.Json
import Mathlib.Data.List.Basic

/-!
# Runtrace — the readers of the log

`parse_str` of `crates/cli/src/auto/runtrace.rs`, for whatever is made of a
line, and `ingest_from_jsonl_log` of `crates/cmplog/src/lib.rs`.  Both go
through the log line by line; the second gives up at the first operand that
is not hexadecimal.
-/

namespace GovFuzz.Runtrace

open GovFuzz.Lib

/-! ## Runtrace events -/

/-- Unicode's `White_Space`. -/
def isWhitespace (c : Char) : Bool :=
  let n := c.toNat
  (9 ≤ n && n ≤ 13) || n = 0x20 || n = 0x85 || n = 0xA0 || n = 0x1680
    || (0x2000 ≤ n && n ≤ 0x200A) || n = 0x2028 || n = 0x2029 || n = 0x202F || n = 0x205F
    || n = 0x3000

def trim (line : List Char) : List Char :=
  ((line.dropWhile isWhitespace).reverse.dropWhile isWhitespace).reverse

theorem not_isWhitespace_digit {c : Char} (h : c.isDigit) : isWhitespace c = false := by
  have hrange := Char.isDigit_iff_toNat.mp h
  simp only [isWhitespace]
  grind

/-- Nothing is trimmed from a text between two visible characters. -/
theorem trim_eq {text : List Char}
    (hfirst : ∀ c, text.head? = some c → isWhitespace c = false)
    (hlast : ∀ c, text.getLast? = some c → isWhitespace c = false) :
    trim text = text := by
  have hkeep : ∀ s : List Char, (∀ c, s.head? = some c → isWhitespace c = false) →
      s.dropWhile isWhitespace = s := by
    intro s hs
    cases s with
    | nil => rfl
    | cons c s => exact List.dropWhile_cons_of_neg (by simp [hs c rfl])
  rw [trim, hkeep text hfirst, hkeep text.reverse (by simpa using hlast),
    List.reverse_reverse]

def stripCr (line : List Char) : List Char :=
  if line.getLast? = some '\r' then line.dropLast else line

/-- `str::lines`: the pieces that a newline ends, without a `\r` before it,
and what is left behind the last newline. -/
def strLines (text : List Char) : List (List Char) :=
  let pieces := text.splitOn '\n'
  pieces.dropLast.map stripCr ++ pieces.getLast?.toList.filter (· ≠ [])

/-- The first line, and the lines of what is behind its newline. -/
theorem strLines_line {line : List Char} (h : '\n' ∉ line) (rest : List Char) :
    strLines (line ++ '\n' :: rest) = stripCr line :: strLines rest := by
  obtain ⟨piece, pieces, hpieces⟩ := List.exists_cons_of_ne_nil
    (List.splitOnP_ne_nil (· == '\n') rest)
  unfold strLines
  rw [List.splitOn_append_cons_self_of_not_mem h, List.splitOn, hpieces]
  rfl

section ParseStr

variable {ε : Type} (parseLine : List Char → Option ε) (shouldKeepEvent : ε → Bool)
  (unknown : List Char → ε)

def parseStrLine (line : List Char) : List ε :=
  let line := trim line
  if line = [] then []
  else
    match parseLine line with
    | some ev => if shouldKeepEvent ev then [ev] else []
    | none => [unknown line]

def parseStr (text : String) : List ε :=
  (strLines text.toList).flatMap (parseStrLine parseLine shouldKeepEvent unknown)

end ParseStr

/-! ## Comparison operands -/

inductive CmpKind where
  | bufferEquality
  | cStringEquality
  | integerCompare
  deriving DecidableEq, Repr

structure CmpEntry where
  siteId : Nat
  operandA : List UInt8
  operandB : List UInt8
  kind : CmpKind
  deriving DecidableEq, Repr

inductive CmpLogError where
  | badHex
  deriving DecidableEq, Repr

def hexNibble (b : UInt8) : Option UInt8 :=
  if 48 ≤ b && b ≤ 57 then some (b - 48)
  else if 97 ≤ b && b ≤ 102 then some (b - 97 + 10)
  else if 65 ≤ b && b ≤ 70 then some (b - 65 + 10)
  else none

def hexChunks : List UInt8 → Option (List UInt8)
  | hi :: lo :: rest =>
      match hexNibble hi, hexNibble lo with
      | some hi, some lo => (hexChunks rest).map fun out => ((hi <<< 4) ||| lo) :: out
      | _, _ => none
  | _ => some []

def hexDecode (s : String) : Option (List UInt8) :=
  if (toUtf8 s).length % 2 ≠ 0 then none else hexChunks (toUtf8 s)

/-- The body of the loop, for a line that is JSON. -/
def ingestValue (lineNo : Nat) (value : Json) : Except CmpLogError (Option CmpEntry) :=
  if (value.get "e").bind Json.asStr = some "cmplog" then
    let k := ((value.get "k").bind Json.asStr).getD ""
    let kind := if k = "strcmp" ∨ k = "strncmp" then .cStringEquality else .bufferEquality
    let aHex := ((value.get "a").bind Json.asStr).getD ""
    let bHex := ((value.get "b").bind Json.asStr).getD ""
    match hexDecode aHex, hexDecode bHex with
    | some operandA, some operandB => .ok (some ⟨lineNo, operandA, operandB, kind⟩)
    | _, _ => .error .badHex
  else .ok none

def ingestLine (lineNo : Nat) (line : List UInt8) : Except CmpLogError (Option CmpEntry) :=
  if line = [] then .ok none
  else
    match Json.fromSlice line with
    | some value => ingestValue lineNo value
    | none => .ok none

/-- The lines from `lineNo` on. -/
def ingestLines : Nat → List (List UInt8) → Except CmpLogError (List CmpEntry)
  | _, [] => .ok []
  | lineNo, line :: lines =>
      match ingestLine lineNo line with
      | .error err => .error err
      | .ok entry => (ingestLines (lineNo + 1) lines).map fun log => entry.toList ++ log

def ingestFromJsonlLog (bytes : List UInt8) : Except CmpLogError (List CmpEntry) :=
  ingestLines 0 (bytes.splitOn 10)

end GovFuzz.Runtrace
