import GovFuzz.Lib.Utf8
import Mathlib.Algebra.GroupWithZero.Nat

/-!
# Lib — reading JSON

A reader of JSON texts over bytes, in the manner of `serde_json`: strings are
gathered as UTF-8 bytes and decoded at the end, a number is kept as its
literal, and arrays and objects may be nested up to a fixed depth.  Every
part of the reader takes what it needs from the front and returns the rest.
-/

namespace GovFuzz.Lib

/-- A JSON value; the members of an object in order. -/
inductive Json where
  | null
  | bool (b : Bool)
  | number (literal : List UInt8)
  | string (s : String)
  | array (items : List Json)
  | object (members : List (String × Json))

namespace Json

/-- The last of the members of a key. -/
def lookup (key : String) : List (String × Json) → Option Json
  | [] => none
  | entry :: members => (lookup key members).or (if entry.1 = key then some entry.2 else none)

/-- A member of an object. -/
def get (key : String) : Json → Option Json
  | object members => lookup key members
  | _ => none

/-- `as_str`. -/
def asStr : Json → Option String
  | string s => some s
  | _ => none

/-- `as_bool`. -/
def asBool : Json → Option Bool
  | bool b => some b
  | _ => none

/-- `as_object`. -/
def asObject : Json → Option (List (String × Json))
  | object members => some members
  | _ => none

/-- `is_null`. -/
def isNull : Json → Bool
  | null => true
  | _ => false

/-! ## Spaces, digits, words -/

/-- The blanks between tokens. -/
def isSpace (b : UInt8) : Bool := b = 32 || b = 10 || b = 13 || b = 9

/-- Behind the blanks. -/
def skipSpace (s : List UInt8) : List UInt8 := s.dropWhile isSpace

/-- A decimal digit. -/
def isDigit (b : UInt8) : Bool := 48 ≤ b && b ≤ 57

/-- A literal word and the value it stands for. -/
def word (w s : List UInt8) (v : Json) : Option (Json × List UInt8) :=
  if w <+: s then some (v, s.drop w.length) else none

/-! ## Strings -/

/-- The value of a hexadecimal digit. -/
def hexValue (b : UInt8) : Option Nat :=
  if 48 ≤ b && b ≤ 57 then some (b.toNat - 48)
  else if 97 ≤ b && b ≤ 102 then some (b.toNat - 87)
  else if 65 ≤ b && b ≤ 70 then some (b.toNat - 55)
  else none

/-- The number of a `\u` escape. -/
def hex4 : List UInt8 → Option (Nat × List UInt8)
  | a :: b :: c :: d :: rest =>
      match hexValue a, hexValue b, hexValue c, hexValue d with
      | some a, some b, some c, some d => some (((a * 16 + b) * 16 + c) * 16 + d, rest)
      | _, _, _, _ => none
  | _ => none

/-- The low half of a surrogate pair, with its `\u`. -/
def lowSurrogate : List UInt8 → Option (Nat × List UInt8)
  | 92 :: 117 :: rest =>
      match hex4 rest with
      | some (m, rest) => if 0xDC00 ≤ m && m ≤ 0xDFFF then some (m, rest) else none
      | none => none
  | _ => none

/-- The character of one escape or of a surrogate pair. -/
def unicodeEscape (s : List UInt8) : Option (Char × List UInt8) :=
  match hex4 s with
  | none => none
  | some (n, rest) =>
      if 0xDC00 ≤ n && n ≤ 0xDFFF then none
      else if 0xD800 ≤ n && n ≤ 0xDBFF then
        match lowSurrogate rest with
        | some (m, rest) =>
            some (Char.ofNat (0x10000 + (n - 0xD800) * 0x400 + (m - 0xDC00)), rest)
        | none => none
      else some (Char.ofNat n, rest)

/-- An escape, behind its backslash. -/
def escape : List UInt8 → Option (Char × List UInt8)
  | [] => none
  | b :: rest =>
      if b = 34 then some ('"', rest)
      else if b = 92 then some ('\\', rest)
      else if b = 47 then some ('/', rest)
      else if b = 98 then some ('\x08', rest)
      else if b = 102 then some ('\x0c', rest)
      else if b = 110 then some ('\n', rest)
      else if b = 114 then some ('\r', rest)
      else if b = 116 then some ('\t', rest)
      else if b = 117 then unicodeEscape rest
      else none

/-- A string behind its opening quote, as UTF-8 bytes. -/
def stringBody : Nat → List UInt8 → Option (List UInt8 × List UInt8)
  | 0, _ => none
  | _ + 1, [] => none
  | n + 1, b :: rest =>
      if b = 34 then some ([], rest)
      else if b = 92 then
        match escape rest with
        | some (ch, rest) =>
            (stringBody n rest).map fun p => (String.utf8EncodeChar ch ++ p.1, p.2)
        | none => none
      -- control characters have to be escaped
      else if b < 32 then none
      else (stringBody n rest).map fun p => (b :: p.1, p.2)

/-- A string, when its bytes are UTF-8. -/
def text (s : List UInt8) : Option (String × List UInt8) :=
  match stringBody (s.length + 1) s with
  | some (bytes, rest) => (fromUtf8 bytes).map fun text => (text, rest)
  | none => none

/-! ## Numbers -/

/-- A minus sign, when there is one. -/
def sign : List UInt8 → List UInt8 × List UInt8
  | 45 :: rest => ([45], rest)
  | s => ([], s)

/-- The fraction of a number. -/
def fraction : List UInt8 → Option (List UInt8 × List UInt8)
  | 46 :: rest =>
      if rest.takeWhile isDigit = [] then none
      else some (46 :: rest.takeWhile isDigit, rest.dropWhile isDigit)
  | s => some ([], s)

/-- The sign of an exponent. -/
def exponentSign : List UInt8 → List UInt8 × List UInt8
  | 43 :: rest => ([43], rest)
  | s => sign s

/-- The exponent of a number. -/
def exponent : List UInt8 → Option (List UInt8 × List UInt8)
  | [] => some ([], [])
  | b :: rest =>
      if b = 101 || b = 69 then
        let (mark, digits) := exponentSign rest
        if digits.takeWhile isDigit = [] then none
        else some (b :: mark ++ digits.takeWhile isDigit, digits.dropWhile isDigit)
      else some ([], b :: rest)

/-- The digits before the point: `0`, or no leading zero. -/
def integerDigits (s : List UInt8) : Option (List UInt8 × List UInt8) :=
  match s.takeWhile isDigit with
  | [] => none
  | d :: digits => if d = 48 && digits ≠ [] then none else some (d :: digits, s.dropWhile isDigit)

/-- A number. -/
def numeral (s : List UInt8) : Option (Json × List UInt8) :=
  let (mark, s) := sign s
  match integerDigits s with
  | none => none
  | some (digits, s) =>
      match fraction s with
      | none => none
      | some (frac, s) =>
          match exponent s with
          | none => none
          | some (exp, s) => some (.number (mark ++ digits ++ frac ++ exp), s)

/-- The value of a list of digits. -/
def digitsValue (digits : List UInt8) : Nat :=
  digits.foldl (fun value b => value * 10 + (b.toNat - 48)) 0

/-- A number written as an integer that fits; `-0` is not one. -/
def asI64 : Json → Option Int
  | number literal =>
      let (mark, digits) := sign literal
      let magnitude := digitsValue digits
      if digits = [] || !digits.all isDigit then none
      else if mark = [] then
        if magnitude < 2 ^ 63 then some magnitude else none
      else if 0 < magnitude && magnitude ≤ 2 ^ 63 then some (-magnitude)
      else none
  | _ => none

/-! ## Arrays, objects, values -/

section Parts

variable (value : List UInt8 → Option (Json × List UInt8))

/-- The rest of an array. -/
def items : Nat → List UInt8 → Option (List Json × List UInt8)
  | 0, _ => none
  | n + 1, s =>
      match value s with
      | none => none
      | some (item, rest) =>
          match skipSpace rest with
          | [] => none
          | b :: rest =>
              if b = 93 then some ([item], rest)
              else if b = 44 then
                (items n (skipSpace rest)).map fun p => (item :: p.1, p.2)
              else none

/-- A key, a colon and a value. -/
def member : List UInt8 → Option ((String × Json) × List UInt8)
  | [] => none
  | b :: s =>
      if b = 34 then
        match text s with
        | none => none
        | some (key, rest) =>
            match skipSpace rest with
            | [] => none
            | b :: rest =>
                if b = 58 then (value (skipSpace rest)).map fun p => ((key, p.1), p.2)
                else none
      else none

/-- The rest of an object. -/
def members : Nat → List UInt8 → Option (List (String × Json) × List UInt8)
  | 0, _ => none
  | n + 1, s =>
      match member value s with
      | none => none
      | some (entry, rest) =>
          match skipSpace rest with
          | [] => none
          | b :: rest =>
              if b = 125 then some ([entry], rest)
              else if b = 44 then
                (members n (skipSpace rest)).map fun p => (entry :: p.1, p.2)
              else none

end Parts

/-- A value of bounded depth: the bound is what remains of it. -/
def value : Nat → List UInt8 → Option (Json × List UInt8)
  | 0, _ => none
  | _ + 1, [] => none
  | depth + 1, b :: rest =>
      if b = 34 then (text rest).map fun p => (.string p.1, p.2)
      else if b = 123 then
        if depth = 0 then none
        else
          match skipSpace rest with
          | [] => none
          | c :: rest =>
              if c = 125 then some (.object [], rest)
              else (members (value depth) (c :: rest).length (c :: rest)).map fun p =>
                (.object p.1, p.2)
      else if b = 91 then
        if depth = 0 then none
        else
          match skipSpace rest with
          | [] => none
          | c :: rest =>
              if c = 93 then some (.array [], rest)
              else (items (value depth) (c :: rest).length (c :: rest)).map fun p =>
                (.array p.1, p.2)
      else if b = 116 then word [116, 114, 117, 101] (b :: rest) (.bool true)
      else if b = 102 then word [102, 97, 108, 115, 101] (b :: rest) (.bool false)
      else if b = 110 then word [110, 117, 108, 108] (b :: rest) .null
      else numeral (b :: rest)

/-- `serde_json`'s recursion limit. -/
def maxDepth : Nat := 128

/-- A whole text: one value, and spaces around it. -/
def fromSlice (s : List UInt8) : Option Json :=
  match value maxDepth (skipSpace s) with
  | some (v, rest) => if skipSpace rest = [] then some v else none
  | none => none

end Json

end GovFuzz.Lib
