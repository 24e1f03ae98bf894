import GovFuzz.IdlParser.TypeReference
import GovFuzz.IdlParser.ConstFolding
import GovFuzz.IdlParser.MacroExpansion
import Mathlib.Logic.Relation

/-!
# IDL parser — constants and scopes

`register_constant` and `lookup_constant` of `crates/idl_parser/src/parser.rs`
over the files of modules, interfaces, typedefs and constants: a file is
parsed step by step, with what is open around the parser as a stack.  The
parser keeps the integer constants only, so that a declaration without an
integer value does not hide a constant of an outer scope.
-/

namespace GovFuzz.IdlParser

open GovFuzz.Lib

/-! ## Keys -/

theorem IsIdentifier.colon_not_mem {text : List Char} (h : IsIdentifier text) : ':' ∉ text := by
  intro hmem
  exact absurd (h.all_continue _ hmem) (by decide)

instance (text : List Char) : Decidable (IsIdentifier text) :=
  decidable_of_iff (text.head?.any isIdentifierStart ∧ text.tail.all isIdentifierContinue) <| by
    cases text with
    | nil => simp [IsIdentifier]
    | cons ch more => simp [IsIdentifier]

/-- `::` before every part. -/
def qualified (parts : List (List Char)) : List Char := parts.flatMap ([':', ':'] ++ ·)

theorem joinParts_cons (part : List Char) (parts : List (List Char)) :
    Parser.joinParts (part :: parts) = part ++ qualified parts := by
  induction parts generalizing part with
  | nil => simp [Parser.joinParts, qualified]
  | cons next parts ih =>
      have hnext := ih next
      simp only [Parser.joinParts, qualified, List.intercalate, List.intersperse_cons_cons,
        List.flatten_cons, List.flatMap_cons] at hnext ⊢
      rw [hnext]
      simp

theorem constantKey_eq {scope parts : List (List Char)} (h : parts ≠ []) :
    Parser.constantKey scope (Parser.joinParts parts) = Parser.joinParts (scope ++ parts) := by
  obtain ⟨part, parts, rfl⟩ := List.exists_cons_of_ne_nil h
  induction scope with
  | nil => simp [Parser.constantKey]
  | cons name scope ih =>
      have hrest : ∃ first rest, scope ++ part :: parts = first :: rest :=
        List.exists_cons_of_ne_nil (by simp)
      obtain ⟨first, rest, hrest⟩ := hrest
      rw [hrest] at ih
      rw [List.cons_append, hrest, joinParts_cons name]
      simp only [Parser.constantKey, List.flatMap_cons, List.append_assoc] at ih ⊢
      rw [ih, joinParts_cons first]
      simp [qualified]

theorem append_qualified_inj {part part' : List Char} {parts parts' : List (List Char)}
    (hpart : ':' ∉ part) (hpart' : ':' ∉ part')
    (h : part ++ qualified parts = part' ++ qualified parts') :
    part = part' ∧ qualified parts = qualified parts' := by
  have htake : ∀ {part : List Char} {parts : List (List Char)}, ':' ∉ part →
      (part ++ qualified parts).takeWhile (· ≠ ':') = part := by
    intro part parts hcolon
    rw [List.takeWhile_append_of_pos (by
      intro ch hch
      have hne : ch ≠ ':' := fun heq => hcolon (heq ▸ hch)
      simpa using hne)]
    cases parts with
    | nil => simp [qualified]
    | cons next parts => simp [qualified]
  have hsame : part = part' := by
    have hboth := congrArg (List.takeWhile (· ≠ ':')) h
    rwa [htake hpart, htake hpart'] at hboth
  subst hsame
  exact ⟨rfl, List.append_cancel_left h⟩

theorem qualified_inj {parts parts' : List (List Char)} (h : ∀ part ∈ parts, IsIdentifier part)
    (h' : ∀ part ∈ parts', IsIdentifier part) (heq : qualified parts = qualified parts') :
    parts = parts' := by
  induction parts generalizing parts' with
  | nil =>
      cases parts' with
      | nil => rfl
      | cons part' parts' => simp [qualified] at heq
  | cons part parts ih =>
      cases parts' with
      | nil => simp [qualified] at heq
      | cons part' parts' =>
          rw [List.forall_mem_cons] at h h'
          simp only [qualified, List.flatMap_cons, List.append_assoc,
            List.append_cancel_left_eq] at heq
          obtain ⟨rfl, hrest⟩ := append_qualified_inj h.1.colon_not_mem h'.1.colon_not_mem heq
          rw [ih h.2 h'.2 hrest]

/-- Two names have one key only if they are the same. -/
theorem joinParts_inj {parts parts' : List (List Char)} (h : ∀ part ∈ parts, IsIdentifier part)
    (h' : ∀ part ∈ parts', IsIdentifier part) (hne : parts ≠ []) (hne' : parts' ≠ [])
    (heq : Parser.joinParts parts = Parser.joinParts parts') : parts = parts' := by
  obtain ⟨part, parts, rfl⟩ := List.exists_cons_of_ne_nil hne
  obtain ⟨part', parts', rfl⟩ := List.exists_cons_of_ne_nil hne'
  rw [joinParts_cons, joinParts_cons] at heq
  rw [List.forall_mem_cons] at h h'
  obtain ⟨rfl, hrest⟩ := append_qualified_inj h.1.colon_not_mem h'.1.colon_not_mem heq
  rw [qualified_inj h.2 h'.2 hrest]

/-! ## The declarations -/

structure Const where
  name : List Char
  ty : TypeRef
  value : ConstValue
  deriving DecidableEq, Repr

namespace Parser

/-- The rest of `parse_scoped_name_list`, if this text is ahead. -/
def moreScopedNames : Nat → List Char → Parser → Except SpannedError (List ScopedName × Parser)
  | 0, _, p => p.errorHere "out of fuel"
  | fuel + 1, separator, p =>
      if p.atText separator then do
        let (name, p) ← p.bump.parseScopedName
        let (names, p) ← moreScopedNames fuel [','] p
        return (name :: names, p)
      else return ([], p)

/-- The head of `parse_module`, from behind its keyword. -/
def openModule (p : Parser) : Except SpannedError (List Char × Parser) := do
  let p ← p.enterNesting
  let (name, p) ← p.expectIdentifier
  let p ← p.expectText ['{']
  return (name, { p with scope := p.scope ++ [name] })

/-- The end of `parse_module`, from behind the brace. -/
def closeModule (p : Parser) : Except SpannedError Parser := do
  let p ← expectText { p with scope := p.scope.dropLast } [';']
  return { p with depth := p.depth - 1 }

/-- The head of `parse_interface`, from behind its keyword, and whether a body
is opened. -/
def openInterface (fuel : Nat) (p : Parser) :
    Except SpannedError ((List Char × Bool) × Parser) := do
  let (name, p) ← p.expectIdentifier
  let (_, p) ← moreScopedNames fuel [':'] p
  if p.atText [';'] then return ((name, false), p.bump)
  else
    let p ← p.expectText ['{']
    return ((name, true), { p with scope := p.scope ++ [name] })

/-- The end of `parse_interface`, from behind the brace. -/
def closeInterface (p : Parser) : Except SpannedError Parser :=
  expectText { p with scope := p.scope.dropLast } [';']

section
variable {F : Type} (floats : FloatOps F)

/-- `parse_const_value_and_numeric`. -/
def parseConstValueAndNumeric (fuel : Nat) (p : Parser) :
    Except SpannedError ((ConstValue × Option Int) × Parser) := do
  let (expression, p) ← parseConstFuel floats fuel minConstPrecedence p
  let result := match expression.hasOperator, expression.value, expression.numericValue with
    | true, _, some value => (.integer (wrapConstInteger value), some value)
    | true, _, none => (constExpressionValue floats none expression.floatValue, none)
    | false, .integer _, some value => (.integer (wrapConstInteger value), some value)
    | false, value, numeric => (value, numeric)
  return (result, p)

/-- `parse_const`, from behind its keyword, and the value of the constant. -/
def parseConst (fuel : Nat) (p : Parser) :
    Except SpannedError ((Const × Option Int) × Parser) := do
  let (ty, p) ← parseType floats fuel p
  let (name, p) ← p.expectIdentifier
  let p ← p.expectText ['=']
  let ((value, numeric), p) ← parseConstValueAndNumeric floats fuel p
  let p ← p.expectText [';']
  return ((⟨name, ty, value⟩, numeric), p.registerConstant name numeric)

/-- A round of the loop of `parse_typedef`, and whether it goes on. -/
def declarator (fuel : Nat) (base : TypeRef) (p : Parser) :
    Except SpannedError ((List Char × TypeRef × Bool) × Parser) := do
  let (name, p) ← p.expectIdentifier
  let (ty, p) ← parseArraySuffix floats fuel base p
  if p.atText [','] then return ((name, ty, true), p.bump)
  else
    let p ← p.expectText [';']
    return ((name, ty, false), p)

end

end Parser

/-! ### What they leave behind -/

namespace Parser

/-- The name is that of an identifier ahead. -/
def ReadsName (p : Parser) (name : List Char) : Prop :=
  ∃ token ∈ p.tokens, token.kind = .identifier ∧ token.text = name

theorem ReadsName.of_advances {p q : Parser} {name : List Char} (h : q.ReadsName name)
    (hq : Advances p q) : p.ReadsName name := by
  obtain ⟨token, htoken, hname⟩ := h
  exact ⟨token, hq.tokens htoken, hname⟩

structure Enters (p : Parser) (name : List Char) (q : Parser) : Prop where
  tokens : q.tokens ⊆ p.tokens
  scope : q.scope = p.scope ++ [name]
  constants : q.constants = p.constants
  name : p.ReadsName name

structure Leaves (p q : Parser) : Prop where
  tokens : q.tokens ⊆ p.tokens
  scope : q.scope = p.scope.dropLast
  constants : q.constants = p.constants

theorem expectIdentifier_spec {p q : Parser} {name : List Char}
    (h : p.expectIdentifier = .ok (name, q)) : p.ReadsName name ∧ Advances p q := by
  refine ⟨?_, keeps_expectIdentifier p _ h⟩
  unfold expectIdentifier at h
  split at h
  · rename_i hkind
    obtain ⟨rfl, -⟩ := Prod.mk.inj (Except.ok.inj h)
    cases htokens : p.tokens with
    | nil => simp [htokens, peek, endToken] at hkind
    | cons token tokens =>
        rw [htokens] at hkind
        exact ⟨token, by simp [htokens], hkind, by simp⟩
  · cases h

theorem openModule_spec {p q : Parser} {name : List Char} (h : p.openModule = .ok (name, q)) :
    Enters p name q := by
  obtain ⟨p₁, hnesting, h⟩ := bind_eq_ok.mp h
  obtain ⟨⟨name, p₂⟩, hname, h⟩ := bind_eq_ok.mp h
  obtain ⟨p₃, htext, h⟩ := bind_eq_ok.mp h
  obtain ⟨rfl, rfl⟩ := Prod.mk.inj (Except.ok.inj h)
  have hfirst := keeps_enterNesting p _ hnesting
  obtain ⟨hreads, hsecond⟩ := expectIdentifier_spec hname
  have hall := (hfirst.trans hsecond).trans (keeps_expectText _ _ _ htext)
  exact ⟨hall.tokens, congrArg (· ++ [name]) hall.scope, hall.constants, hreads.of_advances hfirst⟩

theorem keeps_moreScopedNames (fuel : Nat) (separator : List Char) (p : Parser) :
    Keeps Prod.snd p (moreScopedNames fuel separator p) := by
  induction fuel generalizing separator p with
  | zero => exact .errorHere _ _
  | succ fuel ih =>
      refine .ite (.of_advances (advances_bump p) ?_) (.ok (.refl p))
      refine .bind Prod.snd (keeps_parseScopedName _) fun x => ?_
      exact .bind Prod.snd (ih _ _) fun _ => .ok (.refl _)

theorem openInterface_spec {p q : Parser} {name : List Char} {body : Bool} {fuel : Nat}
    (h : p.openInterface fuel = .ok ((name, body), q)) :
    if body then Enters p name q else Advances p q ∧ p.ReadsName name := by
  obtain ⟨⟨name, p₁⟩, hname, h⟩ := bind_eq_ok.mp h
  obtain ⟨⟨names, p₂⟩, hnames, h⟩ := bind_eq_ok.mp h
  obtain ⟨hreads, hfirst⟩ := expectIdentifier_spec hname
  have hsecond := hfirst.trans (keeps_moreScopedNames _ _ _ _ hnames)
  dsimp only at h
  split at h
  · obtain ⟨hpair, rfl⟩ := Prod.mk.inj (Except.ok.inj h)
    obtain ⟨rfl, rfl⟩ := Prod.mk.inj hpair
    exact ⟨hsecond.trans (advances_bump _), hreads⟩
  · obtain ⟨p₃, htext, h⟩ := bind_eq_ok.mp h
    obtain ⟨hpair, rfl⟩ := Prod.mk.inj (Except.ok.inj h)
    obtain ⟨rfl, rfl⟩ := Prod.mk.inj hpair
    have hall := hsecond.trans (keeps_expectText _ _ _ htext)
    exact ⟨hall.tokens, congrArg (· ++ [name]) hall.scope, hall.constants, hreads⟩

theorem closeInterface_spec {p q : Parser} (h : p.closeInterface = .ok q) : Leaves p q := by
  have hall := keeps_expectText _ _ _ h
  exact ⟨hall.tokens, hall.scope, hall.constants⟩

theorem closeModule_spec {p q : Parser} (h : p.closeModule = .ok q) : Leaves p q := by
  obtain ⟨p₁, htext, h⟩ := bind_eq_ok.mp h
  obtain rfl := Except.ok.inj h
  have hall := keeps_expectText _ _ _ htext
  exact ⟨hall.tokens, hall.scope, hall.constants⟩

section
variable {F : Type} {floats : FloatOps F}

theorem keepsNames_parseConstValueAndNumeric (fuel : Nat) :
    KeepsNames (parseConstValueAndNumeric floats fuel) :=
  fun p => .bind Prod.snd (keepsNames_parseConstFuel floats fuel _ p) fun _ => .ok (.refl _)

theorem parseConst_spec {p q : Parser} {const : Const} {value : Option Int} {fuel : Nat}
    (h : p.parseConst floats fuel = .ok ((const, value), q)) :
    p.ReadsName const.name ∧ ∃ r, Advances p r ∧ q = r.registerConstant const.name value := by
  obtain ⟨⟨ty, p₁⟩, htype, h⟩ := bind_eq_ok.mp h
  obtain ⟨⟨name, p₂⟩, hname, h⟩ := bind_eq_ok.mp h
  obtain ⟨p₃, hequals, h⟩ := bind_eq_ok.mp h
  obtain ⟨⟨folded, p₄⟩, hvalue, h⟩ := bind_eq_ok.mp h
  obtain ⟨p₅, hsemicolon, h⟩ := bind_eq_ok.mp h
  obtain ⟨hpair, rfl⟩ := Prod.mk.inj (Except.ok.inj h)
  obtain ⟨rfl, rfl⟩ := Prod.mk.inj hpair
  have hfirst := keepsNames_parseType floats fuel p _ htype
  obtain ⟨hreads, hsecond⟩ := expectIdentifier_spec hname
  have hthird := (hfirst.trans hsecond).trans (keeps_expectText _ _ _ hequals)
  have hfourth := hthird.trans (keepsNames_parseConstValueAndNumeric fuel p₃ _ hvalue)
  exact ⟨hreads.of_advances hfirst, p₅, hfourth.trans (keeps_expectText _ _ _ hsemicolon), rfl⟩

theorem declarator_spec {p q : Parser} {base ty : TypeRef} {name : List Char} {more : Bool}
    {fuel : Nat} (h : p.declarator floats fuel base = .ok ((name, ty, more), q)) :
    Advances p q ∧ p.ReadsName name := by
  obtain ⟨⟨name, p₁⟩, hname, h⟩ := bind_eq_ok.mp h
  obtain ⟨⟨ty, p₂⟩, hsuffix, h⟩ := bind_eq_ok.mp h
  obtain ⟨hreads, hfirst⟩ := expectIdentifier_spec hname
  have hsecond := hfirst.trans (keepsNames_parseArraySuffix floats fuel base p₁ _ hsuffix)
  dsimp only at h
  split at h
  · obtain ⟨hpair, rfl⟩ := Prod.mk.inj (Except.ok.inj h)
    obtain ⟨rfl, -⟩ := Prod.mk.inj hpair
    exact ⟨hsecond.trans (advances_bump _), hreads⟩
  · obtain ⟨p₃, htext, h⟩ := bind_eq_ok.mp h
    obtain ⟨hpair, rfl⟩ := Prod.mk.inj (Except.ok.inj h)
    obtain ⟨rfl, -⟩ := Prod.mk.inj hpair
    exact ⟨hsecond.trans (keeps_expectText _ _ _ htext), hreads⟩

end

end Parser

/-! ## A file -/

/-- What is open around the parser. -/
inductive Frame where
  | module
  | interface
  | typedef (base : TypeRef)
  deriving DecidableEq, Repr

/-- A declared name with the scope it stands in; the value is that of an
integer constant. -/
structure Declared where
  parts : List (List Char)
  value : Option Int
  deriving DecidableEq, Repr

/-- A file under way; the latest declaration stands first. -/
structure File where
  parser : Parser
  frames : List Frame
  declared : List Declared

namespace File

def start (tokens : List Token) : File where
  parser := ⟨tokens, 0, [], fun _ => none, 0⟩
  frames := []
  declared := []

/-- A declaration in the current scope. -/
def declare (file : File) (name : List Char) (value : Option Int) : List Declared :=
  ⟨file.parser.scope ++ [name], value⟩ :: file.declared

/-- A keyword is taken where a declaration may stand. -/
def takeKeyword (file : File) (keyword : String) (p : Parser) : Prop :=
  (∀ base, file.frames.head? ≠ some (.typedef base)) ∧
    file.parser.consumeKeyword keyword.toList = (true, p)

section
variable {F : Type} (floats : FloatOps F)

/-- The rounds of `parse_file`, `parse_module`, `parse_interface` and
`parse_typedef`. -/
inductive Step : File → File → Prop
  | openModule {file : File} {p q : Parser} {name : List Char}
      (inside : file.frames.head? ≠ some .interface) (keyword : file.takeKeyword "module" p)
      (head : p.openModule = .ok (name, q)) :
      Step file ⟨q, .module :: file.frames, file.declare name none⟩
  | closeModule {file : File} {p q : Parser} {frames : List Frame}
      (inside : file.frames = .module :: frames)
      (brace : file.parser.consumeText ['}'] = (true, p)) (tail : p.closeModule = .ok q) :
      Step file ⟨q, frames, file.declared⟩
  | openInterface {file : File} {p q : Parser} {name : List Char} {fuel : Nat}
      (inside : file.frames.head? ≠ some .interface) (keyword : file.takeKeyword "interface" p)
      (head : p.openInterface fuel = .ok ((name, true), q)) :
      Step file ⟨q, .interface :: file.frames, file.declare name none⟩
  | forward {file : File} {p q : Parser} {name : List Char} {fuel : Nat}
      (inside : file.frames.head? ≠ some .interface) (keyword : file.takeKeyword "interface" p)
      (head : p.openInterface fuel = .ok ((name, false), q)) :
      Step file ⟨q, file.frames, file.declare name none⟩
  | closeInterface {file : File} {p q : Parser} {frames : List Frame}
      (inside : file.frames = .interface :: frames)
      (brace : file.parser.consumeText ['}'] = (true, p)) (tail : p.closeInterface = .ok q) :
      Step file ⟨q, frames, file.declared⟩
  | const {file : File} {p q : Parser} {const : Const} {value : Option Int} {fuel : Nat}
      (keyword : file.takeKeyword "const" p)
      (body : p.parseConst floats fuel = .ok ((const, value), q)) :
      Step file ⟨q, file.frames, file.declare const.name value⟩
  | typedef {file : File} {p q : Parser} {base : TypeRef} {fuel : Nat}
      (keyword : file.takeKeyword "typedef" p) (plain : p.atKeyword "struct" = false)
      (type : Parser.parseType floats fuel p = .ok (base, q)) :
      Step file ⟨q, .typedef base :: file.frames, file.declared⟩
  | declarator {file : File} {p : Parser} {frames : List Frame} {base ty : TypeRef}
      {name : List Char} {more : Bool} {fuel : Nat}
      (inside : file.frames = .typedef base :: frames)
      (round : file.parser.declarator floats fuel base = .ok ((name, ty, more), p)) :
      Step file ⟨p, if more then file.frames else frames, file.declare name none⟩

end

/-! ### What a name means -/

/-- The names it may stand for, the innermost scope first. -/
def candidates (file : File) (name : ScopedName) : List (List (List Char)) :=
  if name.absolute then [name.parts]
  else (List.range (file.parser.scope.length + 1)).reverse.map fun depth =>
    file.parser.scope.take depth ++ name.parts

/-- The latest declaration of a qualified name. -/
def declaration (file : File) (parts : List (List Char)) : Option Declared :=
  file.declared.find? (·.parts = parts)

/-- The declaration the scopes select: the nearest scope that has declared the
name. -/
def selected (file : File) (name : ScopedName) : Option Declared :=
  (file.candidates name).findSome? file.declaration

/-- A value is that of the selected declaration. -/
def Resolves (file : File) (name : ScopedName) : Prop :=
  (∀ value, file.parser.lookupConstant name = some value →
    ∃ declared, file.selected name = some declared ∧ declared.value = some value) ∧
  (∀ declared, file.selected name = some declared → declared.value = none →
    file.parser.lookupConstant name = none)

/-- Where the selected declaration has no integer value, no other declaration
of the name, in its scope or in one around it, has one. -/
def Unhidden (file : File) (name : ScopedName) : Prop :=
  ∀ declared, file.selected name = some declared → declared.value = none →
    ∀ other ∈ file.declared, other.parts ∈ file.candidates name → other.value = none

/-! ### The constants of a file -/

/-- The latest integer value declared for a qualified name. -/
def latest (file : File) (parts : List (List Char)) : Option Int :=
  file.declared.findSome? fun declared => if declared.parts = parts then declared.value else none

/-- The parser knows the latest integer value of every name. -/
structure Inv (file : File) : Prop where
  tokens : ∀ token ∈ file.parser.tokens, token.kind = .identifier → IsIdentifier token.text
  scope : ∀ part ∈ file.parser.scope, IsIdentifier part
  constants : ∀ parts, parts ≠ [] → (∀ part ∈ parts, IsIdentifier part) →
    file.parser.constants (Parser.joinParts parts) = file.latest parts

theorem Inv.readsName {file : File} (h : file.Inv) {p : Parser} (hp : file.parser.Advances p)
    {name : List Char} (hname : p.ReadsName name) : IsIdentifier name := by
  obtain ⟨token, htoken, hkind, rfl⟩ := hname
  exact h.tokens token (hp.tokens htoken) hkind

theorem latest_declare_none (file : File) (p : Parser) (frames : List Frame) (name : List Char)
    (parts : List (List Char)) :
    File.latest ⟨p, frames, file.declare name none⟩ parts = file.latest parts := by
  simp [latest, declare]

/-- A step that declares no value keeps the constants. -/
theorem Inv.keep {file next : File} (h : file.Inv)
    (htokens : next.parser.tokens ⊆ file.parser.tokens)
    (hscope : ∀ part ∈ next.parser.scope, IsIdentifier part)
    (hconstants : next.parser.constants = file.parser.constants)
    (hlatest : ∀ parts, next.latest parts = file.latest parts) : next.Inv where
  tokens := fun token htoken => h.tokens token (htokens htoken)
  scope := hscope
  constants := fun parts hne hparts => by
    rw [hconstants, hlatest]
    exact h.constants parts hne hparts

theorem Inv.enter {file : File} (h : file.Inv) {p q : Parser} {name : List Char}
    (hp : file.parser.Advances p) (hq : p.Enters name q) (frames : List Frame) :
    File.Inv ⟨q, frames, file.declare name none⟩ := by
  refine h.keep (fun _ ht => hp.tokens (hq.tokens ht)) ?_ (hq.constants.trans hp.constants)
    (latest_declare_none file q frames name)
  intro part hpart
  rw [hq.scope, hp.scope] at hpart
  rcases List.mem_append.1 hpart with hpart | hpart
  · exact h.scope part hpart
  · rw [List.mem_singleton.1 hpart]
    exact h.readsName hp hq.name

theorem Inv.leave {file : File} (h : file.Inv) {p q : Parser} (hp : file.parser.Advances p)
    (hq : p.Leaves q) (frames : List Frame) : File.Inv ⟨q, frames, file.declared⟩ := by
  refine h.keep (fun _ ht => hp.tokens (hq.tokens ht)) ?_ (hq.constants.trans hp.constants)
    fun _ => rfl
  intro part hpart
  rw [hq.scope, hp.scope] at hpart
  exact h.scope part (List.dropLast_subset _ hpart)

theorem Inv.advance {file : File} (h : file.Inv) {q : Parser} (hq : file.parser.Advances q)
    (name : List Char) (frames : List Frame) :
    File.Inv ⟨q, frames, file.declare name none⟩ ∧ File.Inv ⟨q, frames, file.declared⟩ := by
  have hscope : ∀ part ∈ q.scope, IsIdentifier part := hq.scope ▸ h.scope
  exact ⟨h.keep hq.tokens hscope hq.constants (latest_declare_none file q frames name),
    h.keep hq.tokens hscope hq.constants fun _ => rfl⟩

/-- Declaring a name in the parser and in the file keeps the invariant. -/
theorem Inv.register {file : File} (h : file.Inv) {p : Parser} (hp : file.parser.Advances p)
    {name : List Char} (hname : IsIdentifier name) (value : Option Int) (frames : List Frame) :
    File.Inv ⟨p.registerConstant name value, frames, file.declare name value⟩ := by
  cases value with
  | none => exact (h.advance hp name frames).1
  | some value =>
      refine ⟨fun token htoken => h.tokens token (hp.tokens htoken), hp.scope ▸ h.scope, ?_⟩
      intro parts hne hparts
      have hkey : Parser.constantKey p.scope name
          = Parser.joinParts (file.parser.scope ++ [name]) := by
        rw [hp.scope, ← constantKey_eq (by simp)]
        simp [Parser.joinParts]
      have hidentifiers : ∀ part ∈ file.parser.scope ++ [name], IsIdentifier part := by
        intro part hpart
        rcases List.mem_append.1 hpart with hpart | hpart
        · exact h.scope part hpart
        · exact List.mem_singleton.1 hpart ▸ hname
      have hold := h.constants parts hne hparts
      show Function.update p.constants (Parser.constantKey p.scope name) (some value)
        (Parser.joinParts parts) = _
      rw [hkey, hp.constants]
      by_cases hparts' : parts = file.parser.scope ++ [name]
      · subst hparts'
        simp [latest, declare]
      · have hkeys : Parser.joinParts parts ≠ Parser.joinParts (file.parser.scope ++ [name]) :=
          fun heq => hparts' (joinParts_inj hparts hidentifiers hne (by simp) heq)
        rw [Function.update_of_ne hkeys, hold]
        simp [latest, declare, Ne.symm hparts']

theorem advances_takeKeyword {file : File} {keyword : String} {p : Parser}
    (h : file.takeKeyword keyword p) : file.parser.Advances p := by
  have hadvances := Parser.advances_consumeKeyword file.parser keyword.toList
  rwa [h.2] at hadvances

/-- Every step of the file keeps the invariant, a case per step. -/
theorem Step.inv {F : Type} {floats : FloatOps F} {file next : File}
    (h : Step floats file next) (hinv : file.Inv) : next.Inv := by
  cases h with
  | openModule inside keyword head =>
      exact hinv.enter (advances_takeKeyword keyword) (Parser.openModule_spec head) _
  | closeModule inside brace tail =>
      have hbrace := Parser.advances_consumeText file.parser ['}']
      rw [brace] at hbrace
      exact hinv.leave hbrace (Parser.closeModule_spec tail) _
  | openInterface inside keyword head =>
      exact hinv.enter (advances_takeKeyword keyword) (Parser.openInterface_spec head) _
  | forward inside keyword head =>
      have hhead := (Parser.openInterface_spec head).1
      exact (hinv.advance ((advances_takeKeyword keyword).trans hhead) _ _).1
  | closeInterface inside brace tail =>
      have hbrace := Parser.advances_consumeText file.parser ['}']
      rw [brace] at hbrace
      exact hinv.leave hbrace (Parser.closeInterface_spec tail) _
  | const keyword body =>
      have htake := advances_takeKeyword keyword
      obtain ⟨hname, r, hr, rfl⟩ := Parser.parseConst_spec body
      exact hinv.register (htake.trans hr) (hinv.readsName htake hname) _ _
  | typedef keyword plain type =>
      have htype := Parser.keepsNames_parseType floats _ _ _ type
      exact (hinv.advance ((advances_takeKeyword keyword).trans htype) [] _).2
  | declarator inside round =>
      exact (hinv.advance (Parser.declarator_spec round).1 _ _).1

/-- The identifiers are those the lexer takes. -/
def Lexed (tokens : List Token) : Prop :=
  ∀ token ∈ tokens, token.kind = .identifier → IsIdentifier token.text

instance (tokens : List Token) : Decidable (Lexed tokens) :=
  inferInstanceAs (Decidable (∀ token ∈ tokens, _))

theorem inv_start {tokens : List Token} (h : Lexed tokens) : (start tokens).Inv where
  tokens := h
  scope := by simp [start]
  constants := fun _ _ _ => rfl

theorem Inv.run {F : Type} {floats : FloatOps F} {file next : File} (h : file.Inv)
    (hrun : Relation.ReflTransGen (Step floats) file next) : next.Inv := by
  induction hrun with
  | refl => exact h
  | tail _ hstep ih => exact hstep.inv ih

/-! ### Lookups -/

theorem lookupFrom_eq (constants : List Char → Option Int) (scope : List (List Char))
    (suffix : List Char) (depth : Nat) :
    Parser.lookupFrom constants scope suffix depth
      = (List.range (depth + 1)).reverse.findSome? fun outer =>
          constants (Parser.constantKey (scope.take outer) suffix) := by
  induction depth with
  | zero => simp [Parser.lookupFrom]
  | succ depth ih =>
      rw [List.range_succ, List.reverse_append, List.reverse_singleton, List.singleton_append,
        List.findSome?_cons, ← ih, Parser.lookupFrom]
      split <;> simp [*]

theorem candidates_valid {file : File} (h : file.Inv) {name : ScopedName} (hne : name.parts ≠ [])
    (hparts : ∀ part ∈ name.parts, IsIdentifier part) {parts : List (List Char)}
    (hcandidate : parts ∈ file.candidates name) :
    parts ≠ [] ∧ ∀ part ∈ parts, IsIdentifier part := by
  unfold candidates at hcandidate
  split at hcandidate
  · rw [List.mem_singleton.1 hcandidate]
    exact ⟨hne, hparts⟩
  · obtain ⟨depth, -, rfl⟩ := List.mem_map.1 hcandidate
    refine ⟨by simp [hne], fun part hpart => ?_⟩
    rcases List.mem_append.1 hpart with hpart | hpart
    · exact h.scope part (List.mem_of_mem_take hpart)
    · exact hparts part hpart

theorem findSome?_congr {α β : Type} {f g : α → Option β} {l : List α}
    (h : ∀ x ∈ l, f x = g x) : l.findSome? f = l.findSome? g := by
  induction l with
  | nil => rfl
  | cons x l ih =>
      rw [List.forall_mem_cons] at h
      rw [List.findSome?_cons, List.findSome?_cons, h.1, ih h.2]

/-- A lookup finds the latest integer value of the first candidate with one. -/
theorem lookupConstant_eq {file : File} (h : file.Inv) {name : ScopedName}
    (hne : name.parts ≠ []) (hparts : ∀ part ∈ name.parts, IsIdentifier part) :
    file.parser.lookupConstant name = (file.candidates name).findSome? file.latest := by
  have hlatest : ∀ parts ∈ file.candidates name,
      file.parser.constants (Parser.joinParts parts) = file.latest parts := by
    intro parts hcandidate
    obtain ⟨hcand, hidentifiers⟩ := candidates_valid h hne hparts hcandidate
    exact h.constants parts hcand hidentifiers
  have hkeys : file.parser.lookupConstant name
      = (file.candidates name).findSome? fun parts =>
          file.parser.constants (Parser.joinParts parts) := by
    cases habsolute : name.absolute with
    | true => simp [Parser.lookupConstant, candidates, habsolute]
    | false =>
        simp only [Parser.lookupConstant, candidates, habsolute, Bool.false_eq_true, if_false,
          lookupFrom_eq, constantKey_eq hne, List.findSome?_map]
        rfl
  rw [hkeys]
  exact findSome?_congr hlatest

theorem latest_eq_none_iff (file : File) (parts : List (List Char)) :
    file.latest parts = none ↔
      ∀ declared ∈ file.declared, declared.parts = parts → declared.value = none := by
  simp [latest, List.findSome?_eq_none_iff]

theorem declaration_eq_none_iff (file : File) (parts : List (List Char)) :
    file.declaration parts = none ↔ ∀ declared ∈ file.declared, declared.parts ≠ parts := by
  simp [declaration, List.find?_eq_none]

theorem latest_of_undeclared {file : File} {parts : List (List Char)}
    (h : file.declaration parts = none) : file.latest parts = none := by
  rw [latest_eq_none_iff]
  intro declared hdeclared hsame
  exact absurd hsame ((declaration_eq_none_iff file parts).1 h declared hdeclared)

/-- The latest declaration of a name, where it has a value, is the latest with
one. -/
theorem latest_of_declaration {file : File} {parts : List (List Char)} {declared : Declared}
    (h : file.declaration parts = some declared) {value : Int}
    (hvalue : declared.value = some value) : file.latest parts = some value := by
  obtain ⟨hparts, later, earlier, hdeclared, hlater⟩ := List.find?_eq_some_iff_append.1 h
  refine List.findSome?_eq_some_iff.2 ⟨later, declared, earlier, hdeclared, ?_, ?_⟩
  · rw [if_pos (of_decide_eq_true hparts), hvalue]
  · intro other hother
    have hne : other.parts ≠ parts := by simpa using hlater other hother
    rw [if_neg hne]

/-- **A name resolves by scope where nothing is hidden**: at every use in every
file, a value is that of the selected declaration, and there is none where that
declaration has none, exactly if no integer constant is hidden by a declaration
without an integer value. -/
theorem resolves_iff_unhidden {F : Type} (floats : FloatOps F) {tokens : List Token}
    (htokens : Lexed tokens) {file : File}
    (hrun : Relation.ReflTransGen (Step floats) (start tokens) file) {name : ScopedName}
    (hne : name.parts ≠ []) (hparts : ∀ part ∈ name.parts, IsIdentifier part) :
    file.Resolves name ↔ file.Unhidden name := by
  have hinv := (inv_start htokens).run hrun
  have hlookup := lookupConstant_eq hinv hne hparts
  unfold Resolves Unhidden
  constructor
  · intro ⟨_, hnone⟩ declared hselected hvalue other hother hcandidate
    have hlookup' := hnone declared hselected hvalue
    rw [hlookup, List.findSome?_eq_none_iff] at hlookup'
    exact (latest_eq_none_iff file _).1 (hlookup' _ hcandidate) other hother rfl
  intro hunhidden
  have hnone : ∀ declared, file.selected name = some declared → declared.value = none →
      file.parser.lookupConstant name = none := by
    intro declared hselected hvalue
    rw [hlookup, List.findSome?_eq_none_iff]
    intro parts hcandidate
    rw [latest_eq_none_iff]
    rintro other hother rfl
    exact hunhidden declared hselected hvalue other hother hcandidate
  refine ⟨?_, hnone⟩
  intro value hvalue
  cases hselected : file.selected name with
  | none =>
      -- nothing is declared under any of the names
      rw [selected, List.findSome?_eq_none_iff] at hselected
      have hnothing : file.parser.lookupConstant name = none := by
        rw [hlookup, List.findSome?_eq_none_iff]
        exact fun parts hcandidate => latest_of_undeclared (hselected parts hcandidate)
      rw [hnothing] at hvalue
      cases hvalue
  | some declared =>
      refine ⟨declared, rfl, ?_⟩
      cases hdeclared : declared.value with
      | none =>
          rw [hnone declared hselected hdeclared] at hvalue
          cases hvalue
      | some found =>
          -- it is the first candidate with a value
          obtain ⟨inner, parts, outer, hcandidates, hfound, hinner⟩ :=
            List.findSome?_eq_some_iff.1 hselected
          have hfirst : (file.candidates name).findSome? file.latest = some found := by
            exact List.findSome?_eq_some_iff.2 ⟨inner, parts, outer, hcandidates,
              latest_of_declaration hfound hdeclared,
              fun other hother => latest_of_undeclared (hinner other hother)⟩
          rw [hlookup, hfirst] at hvalue
          exact hvalue

end File

/-! ## On tokens -/

def identifierToken (text : String) : Token := ⟨.identifier, text.toList, .begin⟩

/-- `const long A = 5; module M {` -/
def outerTokens : List Token :=
  [identifierToken "const", identifierToken "long", identifierToken "A", punctuationToken '=',
    numberToken ['5'], punctuationToken ';', identifierToken "module", identifierToken "M",
    punctuationToken '{']

/-- Behind `outerTokens`, with `behind` ahead. -/
def insideModule (behind : List Token) : File where
  parser := ⟨behind, 1, [['M']], Function.update (fun _ => none) ['A'] (some 5), 0⟩
  frames := [.module]
  declared := [⟨[['M']], none⟩, ⟨[['A']], some 5⟩]

theorem outerTokens_run (behind : List Token) :
    Relation.ReflTransGen (File.Step smallFloats) (File.start (outerTokens ++ behind))
      (insideModule behind) := by
  let before : Parser := ⟨(outerTokens ++ behind).drop 1, 0, [], fun _ => none, 0⟩
  let after : Parser := ⟨(outerTokens ++ behind).drop 6, 0, [],
    Function.update (fun _ => none) ['A'] (some 5), 0⟩
  have htype : Parser.parseType smallFloats 8 before
      = .ok (.primitive .long, { before with tokens := (outerTokens ++ behind).drop 2 }) := rfl
  have hvalue : Parser.parseConstFuel smallFloats 8 1
      { before with tokens := (outerTokens ++ behind).drop 4 }
      = .ok (⟨.integer (wrapConstInteger 5), some 5, some 5, (toString (5 : Int)).toList, false⟩,
          { before with tokens := (outerTokens ++ behind).drop 5 }) := rfl
  have hconst : before.parseConst smallFloats 8
      = .ok ((⟨['A'], .primitive .long, .integer (wrapConstInteger 5)⟩, some 5), after) := by
    refine bind_eq_ok.mpr ⟨_, htype, bind_eq_ok.mpr ⟨_, rfl, bind_eq_ok.mpr ⟨_, rfl, ?_⟩⟩⟩
    refine bind_eq_ok.mpr ⟨_, bind_eq_ok.mpr ⟨_, hvalue, rfl⟩, bind_eq_ok.mpr ⟨_, rfl, rfl⟩⟩
  have hmodule : Parser.openModule { after with tokens := (outerTokens ++ behind).drop 7 }
      = .ok (['M'], (insideModule behind).parser) := rfl
  refine .tail (.single (.const ⟨by simp [File.start], rfl⟩ hconst)) ?_
  exact .openModule (by simp [File.start]) ⟨by simp [File.start], rfl⟩ hmodule

/-- `const string A = "x"; typedef sequence<octet, A> T;` -/
def hidingTokens : List Token :=
  [identifierToken "const", identifierToken "string", identifierToken "A", punctuationToken '=',
    ⟨.stringLiteral, ['"', 'x', '"'], .begin⟩, punctuationToken ';', identifierToken "typedef",
    identifierToken "sequence", punctuationToken '<', identifierToken "octet",
    punctuationToken ',', identifierToken "A", punctuationToken '>', identifierToken "T",
    punctuationToken ';']

/-- Behind the string constant. -/
def behindHiding : File where
  parser := { (insideModule []).parser with tokens := hidingTokens.drop 6 }
  frames := [.module]
  declared := ⟨[['M'], ['A']], none⟩ :: (insideModule []).declared

/-- Inside the module the outer constant is found. -/
theorem resolves_iff_unhidden_outer :
    (insideModule []).Resolves ⟨false, [['A']]⟩ ↔ (insideModule []).Unhidden ⟨false, [['A']]⟩ :=
  File.resolves_iff_unhidden smallFloats (show File.Lexed (outerTokens ++ []) by decide)
    (outerTokens_run []) (by simp) (by simpa using ⟨'A', [], rfl, by decide, by simp⟩)

/-- A string constant of the module does not hide the integer constant around
it, which then bounds the sequence. -/
theorem not_resolves :
    File.Lexed (outerTokens ++ hidingTokens) ∧
    Relation.ReflTransGen (File.Step smallFloats) (File.start (outerTokens ++ hidingTokens))
      behindHiding ∧ ¬ behindHiding.Resolves ⟨false, [['A']]⟩ ∧
    ∃ file, File.Step smallFloats behindHiding file ∧
      file.frames.head? = some (.typedef (.sequence (.primitive .octet) (some 5))) := by
  have hconst : Parser.parseConst smallFloats 8
      { (insideModule []).parser with tokens := hidingTokens.drop 1 }
      = .ok ((⟨['A'], .string false none, .string ['"', 'x', '"']⟩, none),
          behindHiding.parser) := rfl
  have htype : Parser.parseType smallFloats 8
      { behindHiding.parser with tokens := hidingTokens.drop 7 }
      = .ok (.sequence (.primitive .octet) (some 5),
          { behindHiding.parser with tokens := hidingTokens.drop 13 }) := rfl
  refine ⟨by decide, (outerTokens_run hidingTokens).tail
    (.const ⟨by simp [insideModule], rfl⟩ hconst), ?_, ?_⟩
  · intro hresolves
    have hnone := hresolves.2 ⟨[['M'], ['A']], none⟩ rfl rfl
    exact absurd hnone (by decide)
  · exact ⟨_, .typedef ⟨by simp [behindHiding], rfl⟩ rfl htype, rfl⟩

end GovFuzz.IdlParser
