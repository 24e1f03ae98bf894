import GovFuzz.AdaParser.Token

/-!
# Ada parser — the grammar of bodies

The token sequences the extractors are meant for, as trees.  A tree is read
off in two steps: into marks, the groups of tokens that mean something to a
scanner (`end if` is one mark, and so is `end Name`), and from marks into
token kinds.  Expressions are kept flat: a phrase is any sequence of tokens
without structure, in which an if- or case-expression shows by its keyword.
-/

namespace GovFuzz.AdaParser

/-! ## Words -/

/-- Kinds that no scanner of bodies reacts to by themselves. -/
def TokenKind.isPlain : TokenKind → Bool
  | .kwIf | .kwCase | .kwLoop | .kwSelect | .kwParallel | .kwDeclare | .kwBegin | .kwRecord
  | .kwEnd | .kwException | .semicolon | .comment _ | .eof => false
  | _ => true

/-- A token of a phrase. `condIf` and `condCase` open an if- and a
case-expression, `nullRecord` is an empty extension. -/
inductive Word where
  | plain (kind : TokenKind) (h : kind.isPlain = true)
  | nullRecord
  | condIf
  | condCase

/-- Words that no bracket encloses. -/
abbrev Phrase := List Word

/-! ## Marks -/

/-- The token in front of a `record` that opens a component list. -/
inductive RecordLead where
  | is | tagged | limited | «with»
  deriving DecidableEq

/-- Constructs that end in `end` and a keyword. -/
inductive Bracket where
  | «if» | case | loop | select | parallelDo
  | record (lead : RecordLead)
  deriving DecidableEq

/-- A group of tokens. `closeBlock` is the `end` of a block or body with the
parts of the name behind it. -/
inductive Mark where
  | plain (kind : TokenKind) (h : kind.isPlain = true)
  | nullRecord
  | semicolon
  | «open» (bracket : Bracket)
  | close (bracket : Bracket)
  | declare
  | begin
  | exception
  | closeBlock (name : List String)

/-- The token in front of `record`. -/
def RecordLead.kind : RecordLead → TokenKind
  | .is => .kwIs
  | .tagged => .kwTagged
  | .limited => .kwLimited
  | .with => .kwWith

/-- The keyword behind `end`. -/
def Bracket.keyword : Bracket → TokenKind
  | .if => .kwIf
  | .case => .kwCase
  | .loop => .kwLoop
  | .select => .kwSelect
  | .parallelDo => .kwDo
  | .record _ => .kwRecord

/-- The tokens that open the bracket. -/
def Bracket.openKinds : Bracket → List TokenKind
  | .parallelDo => [.kwParallel, .kwDo]
  | .record lead => [lead.kind, .kwRecord]
  | bracket => [bracket.keyword]

/-- The selected parts of a dotted name. -/
def selectorKinds : List String → List TokenKind
  | [] => []
  | name :: rest => .dot :: .identifier name :: selectorKinds rest

/-- A dotted name. -/
def nameKinds : List String → List TokenKind
  | [] => []
  | name :: rest => .identifier name :: selectorKinds rest

/-- The tokens of a mark. -/
def Mark.kinds : Mark → List TokenKind
  | .plain kind _ => [kind]
  | .nullRecord => [.kwNull, .kwRecord]
  | .semicolon => [.semicolon]
  | .open bracket => bracket.openKinds
  | .close bracket => [.kwEnd, bracket.keyword]
  | .declare => [.kwDeclare]
  | .begin => [.kwBegin]
  | .exception => [.kwException]
  | .closeBlock name => .kwEnd :: nameKinds name

/-- A word as a mark. -/
def Word.mark : Word → Mark
  | .plain kind h => .plain kind h
  | .nullRecord => .nullRecord
  | .condIf => .open .if
  | .condCase => .open .case

/-- The marks of a phrase. -/
def Phrase.marks (words : Phrase) : List Mark := words.map Word.mark

/-! ## Handler arms -/

/-- One choice of a handler. -/
inductive ArmChoice where
  | others
  | name (first : String) (rest : List String)
  deriving DecidableEq

/-- `when [binding :] first {| rest} =>`. -/
structure ArmLead where
  binding : Option String
  first : ArmChoice
  rest : List ArmChoice
  deriving DecidableEq

/-- A name as a word. -/
def identifierWord (name : String) : Word := .plain (.identifier name) rfl

/-- The selected parts of a name as words. -/
def selectorWords : List String → Phrase
  | [] => []
  | name :: rest => .plain .dot rfl :: identifierWord name :: selectorWords rest

/-- A choice as words. -/
def ArmChoice.words : ArmChoice → Phrase
  | .others => [.plain .kwOthers rfl]
  | .name first rest => identifierWord first :: selectorWords rest

/-- The lexer has no token for the bar between two choices. -/
def barWord : Word := .plain (.error "|") rfl

def colonWord : Word := .plain .colon rfl

def procedureWord : Word := .plain .kwProcedure rfl

def isWord : Word := .plain .kwIs rfl

def whenWord : Word := .plain .kwWhen rfl

def arrowWord : Word := .plain .arrow rfl

/-- `when`, the binding, the choices and the arrow. -/
def ArmLead.words (lead : ArmLead) : Phrase :=
  .plain .kwWhen rfl ::
    (match lead.binding with
      | some name => [identifierWord name, .plain .colon rfl]
      | none => []) ++
    lead.first.words ++ lead.rest.flatMap (fun choice => barWord :: choice.words) ++
    [.plain .arrow rfl]

/-! ## Trees -/

mutual

/-- Statements.  The sections of a compound statement hold its statement
lists, each behind the words that lead it in: `if C then S else S end if;`
has the sections `C then S` and `else S`.  Words in front of the opening
keyword (a label, `for I in R`) are its header, words behind the `end` its
trailer. -/
inductive Stmt where
  | simple (words : Phrase)
  | compound (bracket : Bracket) (header : Phrase) (sections : Sections) (trailer : Phrase)
  | block (label : Phrase) (body : Stmts) (arms : Arms) (name : List String)
  | declareBlock (label : Phrase) (decls : Decls) (body : Stmts) (arms : Arms)
      (name : List String)

/-- A sequence of statements. -/
inductive Stmts where
  | nil
  | cons (stmt : Stmt) (rest : Stmts)

/-- The arms of a compound statement, each with its lead. -/
inductive Sections where
  | nil
  | cons (lead : Phrase) (body : Stmts) (rest : Sections)

/-- The arms of an exception part; none means there is no such part. -/
inductive Arms where
  | nil
  | cons (lead : ArmLead) (body : Stmts) (rest : Arms)

/-- Declarations.  `header` is a list of phrases with semicolons between
them, as in `procedure P (A : T; B : T) is`; the components of a record read
like statements, its variant part like a case statement. -/
inductive Decl where
  | plain (words : Phrase)
  | record (lead : RecordLead) (header : List Phrase) (components : Stmts) (trailer : Phrase)
  | unitBody (header : List Phrase) (decls : Decls) (body : Stmts) (arms : Arms)
      (name : List String)
  | packageBody (header : List Phrase) (decls : Decls) (name : List String)

/-- A sequence of declarations. -/
inductive Decls where
  | nil
  | cons (decl : Decl) (rest : Decls)

end

/-- `null;`. -/
def nullStatement : Stmt := .simple [.plain .kwNull rfl]

/-- The statements of a sequence. -/
def Stmts.toList : Stmts → List Stmt
  | .nil => []
  | .cons stmt rest => stmt :: rest.toList

/-- A header of several phrases, semicolons between them. -/
def headerMarks : List Phrase → List Mark
  | [] => []
  | [words] => words.marks
  | words :: rest => words.marks ++ .semicolon :: headerMarks rest

mutual

/-- A statement with everything inside. -/
def Stmt.marks : Stmt → List Mark
  | .simple words => words.marks ++ [.semicolon]
  | .compound bracket header sections trailer =>
      header.marks ++ .open bracket :: (sections.marks ++ .close bracket ::
        (trailer.marks ++ [.semicolon]))
  | .block label body arms name =>
      label.marks ++ .begin :: (body.marks ++ arms.part ++ [.closeBlock name, .semicolon])
  | .declareBlock label decls body arms name =>
      label.marks ++ .declare :: (decls.marks ++ .begin :: (body.marks ++ arms.part ++
        [.closeBlock name, .semicolon]))

def Stmts.marks : Stmts → List Mark
  | .nil => []
  | .cons stmt rest => stmt.marks ++ rest.marks

def Sections.marks : Sections → List Mark
  | .nil => []
  | .cons lead body rest => lead.marks ++ body.marks ++ rest.marks

/-- The exception part of a block or body. -/
def Arms.part : Arms → List Mark
  | .nil => []
  | .cons lead body rest => .exception :: (lead.words.marks ++ body.marks ++ rest.marks)

/-- Handlers one behind the other. -/
def Arms.marks : Arms → List Mark
  | .nil => []
  | .cons lead body rest => lead.words.marks ++ body.marks ++ rest.marks

/-- A declaration with everything inside. -/
def Decl.marks : Decl → List Mark
  | .plain words => words.marks ++ [.semicolon]
  | .record lead header components trailer =>
      headerMarks header ++ .open (.record lead) :: (components.marks ++
        .close (.record lead) :: (trailer.marks ++ [.semicolon]))
  | .unitBody header decls body arms name =>
      headerMarks header ++ decls.marks ++ .begin :: (body.marks ++ arms.part ++
        [.closeBlock name, .semicolon])
  | .packageBody header decls name =>
      headerMarks header ++ decls.marks ++ [.closeBlock name, .semicolon]

def Decls.marks : Decls → List Mark
  | .nil => []
  | .cons decl rest => decl.marks ++ rest.marks

end

/-- All of a statement but its semicolon. -/
def Stmt.front : Stmt → List Mark
  | .simple words => words.marks
  | .compound bracket header sections trailer =>
      header.marks ++ .open bracket :: (sections.marks ++ .close bracket :: trailer.marks)
  | .block label body arms name =>
      label.marks ++ .begin :: (body.marks ++ arms.part ++ [.closeBlock name])
  | .declareBlock label decls body arms name =>
      label.marks ++ .declare :: (decls.marks ++ .begin :: (body.marks ++ arms.part ++
        [.closeBlock name]))

theorem Stmt.marks_eq_front (stmt : Stmt) : stmt.marks = stmt.front ++ [.semicolon] := by
  cases stmt <;> simp [Stmt.marks, Stmt.front]

/-! ## Conditional expressions -/

/-- The keyword opens a conditional expression, and is `counted`. -/
def Word.isConditional (counted : Bracket → Bool) : Word → Bool
  | .condIf => counted .if
  | .condCase => counted .case
  | _ => false

/-- Number of such expressions, here and in all of a tree. -/
def Phrase.conditionals (counted : Bracket → Bool) (words : Phrase) : Nat :=
  words.countP (Word.isConditional counted)

mutual

/-- The counted brackets a statement opens, at any depth. -/
def Stmt.conditionals (counted : Bracket → Bool) : Stmt → Nat
  | .simple words => words.conditionals counted
  | .compound _ header sections trailer =>
      header.conditionals counted + sections.conditionals counted + trailer.conditionals counted
  | .block label body arms _ =>
      label.conditionals counted + (body.conditionals counted + arms.conditionals counted)
  | .declareBlock label decls body arms _ =>
      label.conditionals counted + decls.conditionals counted +
        (body.conditionals counted + arms.conditionals counted)

def Stmts.conditionals (counted : Bracket → Bool) : Stmts → Nat
  | .nil => 0
  | .cons stmt rest => stmt.conditionals counted + rest.conditionals counted

def Sections.conditionals (counted : Bracket → Bool) : Sections → Nat
  | .nil => 0
  | .cons lead body rest =>
      lead.conditionals counted + body.conditionals counted + rest.conditionals counted

def Arms.conditionals (counted : Bracket → Bool) : Arms → Nat
  | .nil => 0
  | .cons _ body rest => body.conditionals counted + rest.conditionals counted

/-- The counted brackets a declaration opens, at any depth. -/
def Decl.conditionals (counted : Bracket → Bool) : Decl → Nat
  | .plain words => words.conditionals counted
  | .record _ header components trailer =>
      (header.map (Phrase.conditionals counted)).sum + components.conditionals counted +
        trailer.conditionals counted
  | .unitBody header decls body arms _ =>
      (header.map (Phrase.conditionals counted)).sum + decls.conditionals counted +
        (body.conditionals counted + arms.conditionals counted)
  | .packageBody header decls _ =>
      (header.map (Phrase.conditionals counted)).sum + decls.conditionals counted

def Decls.conditionals (counted : Bracket → Bool) : Decls → Nat
  | .nil => 0
  | .cons decl rest => decl.conditionals counted + rest.conditionals counted

end

/-- The token kinds of a list of marks. -/
def kindsOf (marks : List Mark) : List TokenKind := marks.flatMap Mark.kinds

end GovFuzz.AdaParser
