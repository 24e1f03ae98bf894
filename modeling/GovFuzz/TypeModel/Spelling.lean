import GovFuzz.Cli.Seeds
import GovFuzz.Runtrace.Readers

/-!
# TypeModel — spellings

The text side of `crates/type_model/src/lib.rs`: how a raw C type is
normalized, and where it is taken apart.  A spelling is its characters.
-/

namespace GovFuzz.TypeModel

open GovFuzz.Runtrace (isWhitespace trim)
open GovFuzz.Cli (parseUsize)

/-! ## Whitespace -/

/-- `str::trim_start`. -/
def trimStart (text : List Char) : List Char := text.dropWhile isWhitespace

/-- `str::trim_end`. -/
def trimEnd (text : List Char) : List Char := (text.reverse.dropWhile isWhitespace).reverse

/-- `str::split_whitespace`. -/
def splitWhitespace (text : List Char) : List (List Char) :=
  (text.splitOnP isWhitespace).filter (· ≠ [])

/-- `join(" ")`. -/
def joinWords (words : List (List Char)) : List Char := List.intercalate [' '] words

/-! ## Scalars -/

/-- The scalar types. -/
inductive ScalarKind where
  | bool
  | i8
  | u8
  | i16
  | u16
  | i32
  | u32
  | i64
  | u64
  | f32
  | f64
  deriving DecidableEq, Repr

/-- The spellings of C's scalar types. -/
def scalarSpellings : List (String × ScalarKind) :=
  [("int", .i32), ("signed int", .i32), ("signed", .i32), ("unsigned", .u32),
   ("unsigned int", .u32), ("long", .i64), ("signed long", .i64), ("long int", .i64),
   ("unsigned long", .u64), ("unsigned long int", .u64), ("long long", .i64),
   ("signed long long", .i64), ("unsigned long long", .u64), ("short", .i16),
   ("signed short", .i16), ("unsigned short", .u16), ("u_char", .u8), ("u_short", .u16),
   ("u_int", .u32), ("u_long", .u64), ("u_quad_t", .u64), ("quad_t", .i64), ("u_int8_t", .u8),
   ("u_int16_t", .u16), ("u_int32_t", .u32), ("u_int64_t", .u64), ("uchar", .u8),
   ("ushort", .u16), ("uint", .u32), ("ulong", .u64), ("size_t", .u64), ("std::size_t", .u64),
   ("ssize_t", .i64), ("time_t", .i64), ("MZ_TIME_T", .i64), ("uint8_t", .u8),
   ("std::uint8_t", .u8), ("int8_t", .i8), ("std::int8_t", .i8), ("unsigned char", .u8),
   ("signed char", .i8), ("char", .i8), ("char8_t", .u8), ("char16_t", .u16), ("char32_t", .u32),
   ("wchar_t", .i32), ("uint16_t", .u16), ("std::uint16_t", .u16), ("int16_t", .i16),
   ("std::int16_t", .i16), ("uint32_t", .u32), ("std::uint32_t", .u32), ("int32_t", .i32),
   ("std::int32_t", .i32), ("uint64_t", .u64), ("std::uint64_t", .u64), ("int64_t", .i64),
   ("std::int64_t", .i64), ("__int8", .i8), ("signed __int8", .i8), ("unsigned __int8", .u8),
   ("__int16", .i16), ("signed __int16", .i16), ("unsigned __int16", .u16), ("__int32", .i32),
   ("signed __int32", .i32), ("unsigned __int32", .u32), ("__int64", .i64),
   ("signed __int64", .i64), ("unsigned __int64", .u64), ("BOOL", .i32), ("BOOLEAN", .u8),
   ("INT", .i32), ("UINT", .u32), ("INT8", .i8), ("UINT8", .u8), ("INT16", .i16),
   ("UINT16", .u16), ("INT32", .i32), ("UINT32", .u32), ("INT64", .i64), ("UINT64", .u64),
   ("LONG", .i32), ("ULONG", .u32), ("LONG32", .i32), ("ULONG32", .u32), ("LONG64", .i64),
   ("ULONG64", .u64), ("LONGLONG", .i64), ("ULONGLONG", .u64), ("DWORD", .u32), ("DWORD32", .u32),
   ("DWORD64", .u64), ("DWORDLONG", .u64), ("QWORD", .u64), ("WORD", .u16), ("SHORT", .i16),
   ("USHORT", .u16), ("CHAR", .i8), ("UCHAR", .u8), ("BYTE", .u8), ("pid_t", .i32),
   ("uid_t", .u32), ("gid_t", .u32), ("id_t", .u32), ("mode_t", .u32), ("key_t", .i32),
   ("off_t", .i64), ("off64_t", .i64), ("loff_t", .i64), ("dev_t", .u64), ("ino_t", .u64),
   ("ino64_t", .u64), ("nlink_t", .u64), ("blkcnt_t", .i64), ("blksize_t", .i64),
   ("fsblkcnt_t", .u64), ("fsfilcnt_t", .u64), ("rlim_t", .u64), ("clock_t", .i64),
   ("clockid_t", .i32), ("suseconds_t", .i64), ("useconds_t", .u32), ("socklen_t", .u32),
   ("sa_family_t", .u16), ("in_addr_t", .u32), ("in_port_t", .u16), ("intptr_t", .i64),
   ("uintptr_t", .u64), ("ptrdiff_t", .i64), ("wint_t", .u32), ("gboolean", .i32), ("gchar", .i8),
   ("guchar", .u8), ("gint", .i32), ("guint", .u32), ("gshort", .i16), ("gushort", .u16),
   ("glong", .i64), ("gulong", .u64), ("gint8", .i8), ("guint8", .u8), ("gint16", .i16),
   ("guint16", .u16), ("gint32", .i32), ("guint32", .u32), ("gint64", .i64), ("guint64", .u64),
   ("gsize", .u64), ("gssize", .i64), ("goffset", .i64), ("gunichar", .u32), ("gunichar2", .u16),
   ("gfloat", .f32), ("gdouble", .f64), ("float", .f32), ("double", .f64), ("_Bool", .bool),
   ("bool", .bool)]

/-- The scalar a spelling names. -/
def scalarKind (normalized : List Char) : Option ScalarKind :=
  (scalarSpellings.find? fun entry => entry.1.toList = normalized).map Prod.snd

theorem scalarKind_toList (text : String) :
    scalarKind text.toList = (scalarSpellings.find? fun entry => entry.1 = text).map Prod.snd := by
  simp only [scalarKind, String.toList_inj]

/-- The endings of project-prefixed scalar types. -/
def projectScalarSuffixes : List (String × ScalarKind) :=
  [("_bool", .bool), ("_int8_t", .i8), ("_uint8_t", .u8), ("_int16_t", .i16), ("_uint16_t", .u16),
   ("_int32_t", .i32), ("_uint32_t", .u32), ("_int64_t", .i64), ("_uint64_t", .u64),
   ("_ssize_t", .i64), ("_size_t", .u64), ("_option_t", .i32), ("_flags_t", .u32)]

/-- The scalar of a name with such an ending. -/
def projectPrefixedScalarKind (normalized : List Char) : Option ScalarKind :=
  (projectScalarSuffixes.find? fun entry =>
    entry.1.toList.length < normalized.length && entry.1.toList <:+ normalized).map Prod.snd

/-! ## Normal form -/

/-- The words that do not change a type. -/
def qualifiers : List (List Char) :=
  ["const".toList, "volatile".toList, "restrict".toList, "register".toList]

/-- `replace('*', " * ")`. -/
def spaceStars (text : List Char) : List Char :=
  text.flatMap fun c => if c = '*' then [' ', '*', ' '] else [c]

/-- `replace(" * ", " *")`: from the left, without overlap. -/
def attachStars : List Char → List Char
  | ' ' :: '*' :: ' ' :: rest => ' ' :: '*' :: attachStars rest
  | c :: rest => c :: attachStars rest
  | [] => []

/-- The spelling without qualifiers, its blanks settled. -/
def normalize (raw : List Char) : List Char :=
  let collapsed := spaceStars
    (joinWords ((splitWhitespace raw).filter fun token => token ∉ qualifiers))
  trim (attachStars (joinWords (splitWhitespace collapsed)))

/-! ## Taking a spelling apart -/

/-- `str::strip_prefix`. -/
def stripStart (start text : List Char) : Option (List Char) :=
  if start <+: text then some (text.drop start.length) else none

/-- `str::strip_suffix`. -/
def stripEnd (ending text : List Char) : Option (List Char) :=
  if ending <:+ text then some (text.take (text.length - ending.length)) else none

/-- Whether `function_pointer_declarator` finds one: an innermost
parenthesis with a star in it, and another one opened behind it. -/
def functionPointerDeclarator : List Char → Bool
  | [] => false
  | '(' :: rest =>
      let declarator := rest.takeWhile fun c => c ≠ ')' && c ≠ '('
      let behind := rest.dropWhile fun c => c ≠ ')' && c ≠ '('
      (behind.head? = some ')' && declarator.contains '*'
        && (trimStart behind.tail).head? = some '(')
      || functionPointerDeclarator rest
  | _ :: rest => functionPointerDeclarator rest

/-- The length behind a function-pointer declarator. -/
def funcptrArrayLen (raw : List Char) : Option Nat :=
  if ')' ∈ raw then do
    let suffix := trim (raw.reverse.takeWhile (· ≠ ')')).reverse
    let inner ← stripEnd [']'] (← stripStart ['['] suffix)
    parseUsize (trim inner)
  else none

/-- The text before the first `[` and the number between it and the last `]`. -/
def splitArray (normalized : List Char) : Option (List Char × Nat) :=
  match normalized.dropWhile (· ≠ '[') with
  | [] => none
  | _ :: behind =>
      if ']' ∈ behind then
        let inner := (behind.reverse.dropWhile (· ≠ ']')).tail.reverse
        (parseUsize (trim inner)).map fun len =>
          (trimEnd (normalized.takeWhile (· ≠ '[')), len)
      else none

/-- What is behind the last `::`. -/
def afterColons : List Char → Option (List Char)
  | ':' :: ':' :: rest => (afterColons (':' :: rest)).or (some rest)
  | _ :: rest => afterColons rest
  | [] => none

/-- The last part of a qualified name. -/
def qualifiedLeaf (normalized : List Char) : Option (List Char) :=
  (afterColons normalized).map trim

end GovFuzz.TypeModel
