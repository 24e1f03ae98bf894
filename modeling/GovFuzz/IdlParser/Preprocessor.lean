import GovFuzz.IdlParser.Expression
import Mathlib.Logic.Function.Basic

/-!
# IDL parser — the preprocessor

`process_source` of `crates/idl_parser/src/preprocessor.rs` for a source that
is not read from a file: logical lines, macros, and the conditional groups as
a stack of frames.  `preprocess_c_like_with_line_map` runs it in recovering
mode with includes passed through.
-/

namespace GovFuzz.IdlParser

open GovFuzz.Lib
open GovFuzz.Runtrace (isWhitespace trim strLines)

/-- `str::trim_start`. -/
def trimStart (s : List Char) : List Char := s.dropWhile isWhitespace

/-- `str::trim_end`. -/
def trimEnd (s : List Char) : List Char := (s.reverse.dropWhile isWhitespace).reverse

/-- An error with the line of its span. -/
structure IdlParseError where
  message : String
  line : Nat
  deriving DecidableEq, Repr

/-! ## Logical lines -/

/-- A line with its continuations joined, and where it starts. -/
structure LogicalLine where
  lineNo : Nat
  line : List Char
  hasNewline : Bool
  deriving DecidableEq, Repr

/-- `split_inclusive('\n')`: each line without its newline, and whether it
has one. -/
def splitInclusive (source : List Char) : List (List Char × Bool) :=
  let pieces := source.splitOn '\n'
  pieces.dropLast.map (·, true) ++ (pieces.getLast?.toList.filter (· ≠ [])).map (·, false)

/-- The line ends in a backslash. -/
def continues (line : List Char) : Bool := (trimEnd line).getLast? = some '\\'

/-- `line[..line.rfind(ch)]`. -/
def beforeLast (ch : Char) (line : List Char) : List Char :=
  (line.reverse.dropWhile (· ≠ ch)).tail.reverse

/-- The line without its continuation mark. -/
def lineSegment (line : List Char) : List Char :=
  if continues line then trimEnd (beforeLast '\\' line) else line

/-- The variables of the loop. -/
structure Splice where
  lines : List LogicalLine
  continued : List Char
  continuedStart : Nat
  inContinuation : Bool
  lastHasNewline : Bool
  deriving DecidableEq, Repr

/-- One physical line. -/
def Splice.push (s : Splice) (lineNo : Nat) (line : List Char) (hasNewline : Bool) : Splice :=
  if !s.inContinuation && !continues line then
    { s with lines := s.lines ++ [⟨lineNo, line, hasNewline⟩] }
  else
    let continuedStart := if s.inContinuation then s.continuedStart else lineNo
    let continued := s.continued ++ lineSegment line
    if continues line then
      { s with
        continued := continued ++ [' '], continuedStart, inContinuation := true
        lastHasNewline := hasNewline }
    else
      { lines := s.lines ++ [⟨continuedStart, continued, hasNewline⟩]
        continued := [], continuedStart, inContinuation := false, lastHasNewline := hasNewline }

/-- The logical lines, an open continuation closed. -/
def Splice.finish (s : Splice) : List LogicalLine :=
  if s.inContinuation then s.lines ++ [⟨s.continuedStart, s.continued, s.lastHasNewline⟩]
  else s.lines

/-- The loop, from the number of the next line. -/
def spliceLines : Nat → List (List Char × Bool) → Splice → List LogicalLine
  | _, [], s => s.finish
  | lineNo, (line, hasNewline) :: rest, s =>
      spliceLines (lineNo + 1) rest (s.push lineNo line hasNewline)

/-- The logical lines of a source. -/
def logicalLines (source : List Char) : List LogicalLine :=
  spliceLines 1 (splitInclusive source)
    { lines := [], continued := [], continuedStart := 1, inContinuation := false
      lastHasNewline := false }

/-! ## Directives -/

/-- The identifier that the text starts with, and what is behind it. -/
def readIdentifier : List Char → Option (List Char × List Char)
  | [] => none
  | first :: rest =>
      if isIdentifierStart first then
        some (first :: rest.takeWhile isIdentifierContinue, rest.dropWhile isIdentifierContinue)
      else none

/-- The rest of a literal, up to its closing quote. -/
def takeLiteral (quote : Char) : Bool → List Char → List Char
  | _, [] => []
  | escaped, ch :: chars =>
      if escaped then ch :: takeLiteral quote false chars
      else if ch = '\\' then ch :: takeLiteral quote true chars
      else if ch = quote then [ch]
      else ch :: takeLiteral quote false chars

/-- `skip` characters belong to the literal before. -/
def stripFrom : Nat → List Char → List Char
  | _, [] => []
  | skip + 1, ch :: chars => ch :: stripFrom skip chars
  | 0, ch :: chars =>
      if ch = '"' ∨ ch = '\'' then ch :: stripFrom (takeLiteral ch false chars).length chars
      else if ch = '/' ∧ (chars.head? = some '/' ∨ chars.head? = some '*') then []
      else ch :: stripFrom 0 chars

/-- The payload in front of a comment. -/
def stripTrailingComment (payload : List Char) : List Char := stripFrom 0 payload

/-- The identifier a directive is about. -/
def parseDirectiveIdentifier (payload : List Char) (lineNo : Nat) :
    Except IdlParseError (List Char) :=
  match readIdentifier (trimStart payload) with
  | none => .error ⟨"expected identifier in preprocessor directive", lineNo⟩
  | some (name, rest) =>
      if trim (stripTrailingComment rest) ≠ [] then
        .error ⟨"unexpected trailing tokens in preprocessor directive", lineNo⟩
      else .ok name

/-- The line that stands for a directive that is not supported. -/
def warningPragma (message : String) : List Char :=
  "#pragma govfuzz_warning \"".toList
    ++ (message.toList.flatMap fun ch =>
      if ch = '\\' then ['\\', '\\'] else if ch = '"' then ['"', '"'] else [ch])
    ++ ['"']

/-! ## The preprocessor -/

/-- What an unsupported directive does. -/
inductive RecoveryMode where
  | strict
  | recover
  deriving DecidableEq, Repr

/-- One open conditional. -/
structure ConditionalFrame where
  parentActive : Bool
  conditionActive : Bool
  seenElse : Bool
  deriving DecidableEq, Repr

/-- The frames stand innermost first. -/
structure Preprocessor where
  defines : Defines
  frames : List ConditionalFrame
  recovery : RecoveryMode
  passthroughIncludes : Bool
  trackLines : Bool
  lineMap : List Nat

/-- No open conditional hides the line. -/
def Preprocessor.isActive (p : Preprocessor) : Bool :=
  match p.frames with
  | [] => true
  | frame :: _ => frame.parentActive && frame.conditionActive

/-- The first ink of the line is `#`. -/
def isDirective (line : List Char) : Bool := (trimStart line).head? = some '#'

/-- `split_directive`, behind the `#`. -/
def splitDirective (line : List Char) : Option (List Char × List Char) :=
  readIdentifier (trimStart (trimStart line).tail)

/-- A macro without parameters, by its name. -/
def defineMacro (defines : Defines) (payload : List Char) (lineNo : Nat) :
    Except IdlParseError Defines :=
  match readIdentifier (trimStart payload) with
  | none => .error ⟨"expected macro name after #define", lineNo⟩
  | some (name, replacement) =>
      if replacement.head? = some '(' then
        .error ⟨"function-like macros are unsupported", lineNo⟩
      else .ok (Function.update defines name (some (trimStart replacement)))

/-- One more open conditional. -/
def Preprocessor.pushFrame (p : Preprocessor) (conditionActive : Bool) : Preprocessor :=
  { p with frames := ⟨p.isActive, conditionActive, false⟩ :: p.frames }

/-- `#else` and `#endif`: no arguments, and a frame above the entry depth. -/
def checkFrame (p : Preprocessor) (directive : String) (payload : List Char) (lineNo depth : Nat) :
    Except IdlParseError Unit :=
  if trim (stripTrailingComment payload) ≠ [] then
    .error ⟨"#" ++ directive ++ " does not take arguments", lineNo⟩
  else if p.frames.length = depth then .error ⟨"unmatched #" ++ directive, lineNo⟩
  else .ok ()

/-- `#define`, in active text only. -/
def defineDirective (p : Preprocessor) (payload : List Char) (lineNo : Nat) :
    Except IdlParseError (Option (List Char) × Preprocessor) :=
  if p.isActive then
    match defineMacro p.defines payload lineNo with
    | .ok defines => .ok (none, { p with defines })
    | .error error =>
        if p.recovery = .recover then
          .ok (some (warningPragma ("unsupported macro definition ignored at line "
            ++ toString lineNo ++ ": " ++ error.message)), p)
        else .error error
  else .ok (none, p)

/-- `#if`; a condition that cannot be evaluated hides its text when recovering. -/
def ifDirective (p : Preprocessor) (payload : List Char) (lineNo : Nat) :
    Except IdlParseError (Option (List Char) × Preprocessor) :=
  if p.isActive then
    match evalIfExpression (stripTrailingComment payload) p.defines with
    | .ok active => .ok (none, p.pushFrame active)
    | .error error =>
        if p.recovery = .recover then
          .ok (some (warningPragma ("unsupported #if expression treated as inactive at line "
            ++ toString lineNo ++ ": " ++ error)), p.pushFrame false)
        else .error ⟨error, lineNo⟩
  else .ok (none, p.pushFrame false)

/-- `#else`, once per conditional. -/
def elseDirective (p : Preprocessor) (payload : List Char) (lineNo depth : Nat) :
    Except IdlParseError (Option (List Char) × Preprocessor) := do
  checkFrame p "else" payload lineNo depth
  match p.frames with
  | [] => throw ⟨"unmatched #else", lineNo⟩
  | frame :: frames =>
      if frame.seenElse then throw ⟨"duplicate #else", lineNo⟩
      let frame := { frame with seenElse := true, conditionActive := !frame.conditionActive }
      return (none, { p with frames := frame :: frames })

/-- With no current file an `#include` is passed through or an error. -/
def includeDirective (p : Preprocessor) (line : List Char) (lineNo : Nat) :
    Except IdlParseError (Option (List Char) × Preprocessor) :=
  if p.passthroughIncludes then .ok (if p.isActive then some (trimStart line) else none, p)
  else if p.isActive then .error ⟨"#include requires parse_idl_file", lineNo⟩
  else .ok (none, p)

/-- One directive: what it leaves in the output and the new state. -/
def processDirective (p : Preprocessor) (line : List Char) (lineNo depth : Nat) :
    Except IdlParseError (Option (List Char) × Preprocessor) := do
  let some (directive, payload) := splitDirective line
    | throw ⟨"expected preprocessor directive", lineNo⟩
  match String.ofList directive with
  | "define" => defineDirective p payload lineNo
  | "undef" =>
      if p.isActive then
        let name ← parseDirectiveIdentifier payload lineNo
        return (none, { p with defines := Function.update p.defines name none })
      return (none, p)
  | "ifdef" =>
      let name ← parseDirectiveIdentifier payload lineNo
      return (none, p.pushFrame (p.defines name).isSome)
  | "ifndef" =>
      let name ← parseDirectiveIdentifier payload lineNo
      return (none, p.pushFrame (!(p.defines name).isSome))
  | "if" => ifDirective p payload lineNo
  | "else" => elseDirective p payload lineNo depth
  | "endif" =>
      checkFrame p "endif" payload lineNo depth
      return (none, { p with frames := p.frames.tail })
  | "include" => includeDirective p line lineNo
  | "pragma" => return (if p.isActive then some (trimStart line) else none, p)
  | unsupported =>
      if p.recovery = .recover then
        return (some (warningPragma ("unsupported directive '#" ++ unsupported
          ++ "' ignored at line " ++ toString lineNo)), p)
      throw ⟨"unsupported directive '#" ++ unsupported ++ "'", lineNo⟩

/-- `skip` characters are taken care of. -/
def expandFrom (defines : Defines) : Nat → List Char → List Char
  | _, [] => []
  | skip + 1, _ :: chars => expandFrom defines skip chars
  | 0, ch :: chars =>
      if ch = '"' ∨ ch = '\'' then
        let literal := takeLiteral ch false chars
        ch :: literal ++ expandFrom defines literal.length chars
      else if isIdentifierStart ch then
        let more := chars.takeWhile isIdentifierContinue
        (defines (ch :: more)).getD (ch :: more) ++ expandFrom defines more.length chars
      else ch :: expandFrom defines 0 chars

/-- The line with its macros replaced. -/
def expandLine (defines : Defines) (line : List Char) : List Char := expandFrom defines 0 line

/-- `if self.track_lines { self.line_map.push(line_no) }`. -/
def Preprocessor.track (p : Preprocessor) (lineNo : Nat) : Preprocessor :=
  if p.trackLines then { p with lineMap := p.lineMap ++ [lineNo] } else p

/-- What a logical line leaves in the output, before its newline. -/
def processLine (depth : Nat) (p : Preprocessor) (entry : LogicalLine) :
    Except IdlParseError (List Char × Preprocessor) := do
  let p := p.track entry.lineNo
  if isDirective entry.line then
    let (expansion, p) ← processDirective p entry.line entry.lineNo depth
    return (expansion.getD [], p)
  else if p.isActive then return (expandLine p.defines entry.line, p)
  else return ([], p)

/-- The lines in order. -/
def processLines (depth : Nat) :
    List LogicalLine → Preprocessor → Except IdlParseError (List (List Char) × Preprocessor)
  | [], p => .ok ([], p)
  | entry :: rest, p => do
      let (text, p) ← processLine depth p entry
      let (texts, p) ← processLines depth rest p
      return (text :: texts, p)

/-- Each text with the newline of its line. -/
def joinLines : List LogicalLine → List (List Char) → List Char
  | entry :: rest, text :: texts =>
      text ++ (if entry.hasNewline then ['\n'] else []) ++ joinLines rest texts
  | _, _ => []

/-- The text of a source; conditionals must close where they opened. -/
def processSource (p : Preprocessor) (source : List Char) :
    Except IdlParseError (List Char × Preprocessor) := do
  let depth := p.frames.length
  let lines := logicalLines source
  let (texts, p) ← processLines depth lines p
  if p.frames.length > depth then throw ⟨"missing #endif", max (strLines source).length 1⟩
  return (joinLines lines texts, p)

/-! ## Discovery of C sources -/

/-- `defines.iter().cloned().collect()`. -/
def collectDefines (defines : List (List Char × List Char)) : Defines :=
  defines.foldl (fun map entry => Function.update map entry.1 (some entry.2)) fun _ => none

/-- The source line of each output line. -/
structure LineMap where
  original : List Nat
  deriving DecidableEq, Repr

/-- The map of a source without directives. -/
def LineMap.identity : LineMap := ⟨[]⟩

/-- Line numbers are `u32`; the entries of the map are `usize`. -/
def LineMap.toOriginal (map : LineMap) (preprocessedLine : Nat) : Nat :=
  if preprocessedLine = 0 then preprocessedLine
  else match map.original[preprocessedLine - 1]? with
    | some line => line % 2 ^ 32
    | none => preprocessedLine

/-- The preprocessor that `preprocess_c_like_with_line_map` starts. -/
def discoveryPreprocessor (defines : List (List Char × List Char)) : Preprocessor :=
  { defines := collectDefines defines, frames := [], recovery := .recover
    passthroughIncludes := true, trackLines := true, lineMap := [] }

/-- The text and its map, the source itself where it cannot be processed. -/
def preprocessCLikeWithLineMap (source : List Char) (defines : List (List Char × List Char)) :
    List Char × LineMap :=
  match processSource (discoveryPreprocessor defines) source with
  | .ok (output, p) => (output, ⟨p.lineMap⟩)
  | .error _ => (source, LineMap.identity)

end GovFuzz.IdlParser
