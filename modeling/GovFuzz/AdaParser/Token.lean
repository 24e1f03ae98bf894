import Mathlib.Algebra.GroupWithZero.Nat
import Mathlib.Data.List.Basic

/-!
# Ada parser — tokens

`Token` and `TokenKind` of `crates/ada_parser/src/lexer.rs`, and the span of
`ast.rs`.  Offsets, lines and columns are `u32` in the source; nothing here
adds to them.  The extractors see the tokens without comments and read
`effective_kind`, which is `kind` except for words the dialect does not
reserve.
-/

namespace GovFuzz.AdaParser

inductive TokenKind where
  | kwAbort | kwAbs | kwAccept | kwAccess | kwAll | kwAnd | kwArray | kwAt | kwBegin | kwBody
  | kwCase | kwConstant | kwDeclare | kwDelay | kwDelta | kwDigits | kwDo | kwElse | kwElsif
  | kwEnd | kwEntry | kwException | kwExit | kwFor | kwFunction | kwGeneric | kwGoto | kwIf
  | kwIn | kwIs | kwLimited | kwLoop | kwMod | kwNew | kwNot | kwNull | kwOf | kwOr | kwOthers
  | kwOut | kwPackage | kwPragma | kwPrivate | kwProcedure | kwProtected | kwRaise | kwRange
  | kwRecord | kwRem | kwRenames | kwRequeue | kwReturn | kwReverse | kwSelect | kwSeparate
  | kwSubtype | kwTagged | kwTask | kwTerminate | kwThen | kwType | kwUntil | kwUse | kwWhen
  | kwWhile | kwWith | kwXor | kwAbstract | kwAliased | kwInterface | kwOverriding
  | kwSynchronized | kwSome | kwParallel | identifier (text : String)
  | intLiteral (text : String) | realLiteral (text : String) | basedLiteral (text : String)
  | charLiteral (text : Char) | stringLiteral (text : String) | comment (text : String) | lParen
  | rParen | semicolon | comma | colon | assign | arrow | dotDot | tick | dot | box | plus
  | minus | star | slash | ampersand | doubleStar | eq | neq | lt | le | gt | ge
  | error (text : String) | eof
  deriving DecidableEq

structure ByteRange where
  start : Nat
  stop : Nat
  deriving DecidableEq

structure Token where
  kind : TokenKind
  effectiveKind : TokenKind
  textSpan : ByteRange
  line : Nat
  col : Nat
  deriving DecidableEq

structure Span where
  startByte : Nat
  endByte : Nat
  line : Nat
  col : Nat
  deriving DecidableEq

def tokenKindAt (tokens : List Token) (index : Nat) : Option TokenKind :=
  tokens[index]?.map Token.effectiveKind

def kindAt (tokens : List Token) (index : Nat) (kind : TokenKind) : Bool :=
  tokenKindAt tokens index = some kind

theorem lt_of_kindAt {tokens : List Token} {index : Nat} {kind : TokenKind}
    (h : kindAt tokens index kind) : index < tokens.length := by
  by_contra hge
  simp [kindAt, tokenKindAt, List.getElem?_eq_none (Nat.le_of_not_lt hge)] at h

/-- The text of an identifier. -/
def identifierText : Option TokenKind → Option String
  | some (.identifier name) => some name
  | _ => none

/-- Positions as the lexer gives them: tokens follow on one another, and only
the end of the file is empty. -/
structure Positioned (tokens : List Token) : Prop where
  ordered : tokens.Pairwise fun a b => a.textSpan.stop ≤ b.textSpan.start
  nonempty : ∀ t ∈ tokens, t.effectiveKind ≠ .eof → t.textSpan.start < t.textSpan.stop

/-- Two tokens that end at the same byte are one. -/
theorem Positioned.eq_of_stop {tokens : List Token} {a b : Nat} {s t : Token}
    (h : Positioned tokens)
    (ha : tokens[a]? = some s) (hb : tokens[b]? = some t) (hs : s.effectiveKind ≠ .eof)
    (ht : t.effectiveKind ≠ .eof) (hstop : s.textSpan.stop = t.textSpan.stop) : a = b := by
  obtain ⟨ha', rfl⟩ := List.getElem?_eq_some_iff.mp ha
  obtain ⟨hb', rfl⟩ := List.getElem?_eq_some_iff.mp hb
  have hspan := h.nonempty _ (List.getElem_mem ha') hs
  have hspan' := h.nonempty _ (List.getElem_mem hb') ht
  rcases Nat.lt_trichotomy a b with hlt | heq | hgt
  · have := List.pairwise_iff_getElem.mp h.ordered a b ha' hb' hlt
    omega
  · exact heq
  · have := List.pairwise_iff_getElem.mp h.ordered b a hb' ha' hgt
    omega

/-! ## Tokens at a place -/

/-- The tokens from `index` on have these kinds, and start in front of
`endByte`. -/
def At (tokens : List Token) (endByte : Nat) : Nat → List TokenKind → Prop
  | _, [] => True
  | index, kind :: kinds =>
      (∃ token, tokens[index]? = some token ∧ token.effectiveKind = kind ∧
        token.textSpan.start < endByte) ∧ At tokens endByte (index + 1) kinds

section
variable {tokens : List Token} {endByte index : Nat}

theorem At.append {a b : List TokenKind} (h : At tokens endByte index (a ++ b)) :
    At tokens endByte index a ∧ At tokens endByte (index + a.length) b := by
  induction a generalizing index with
  | nil => exact ⟨trivial, h⟩
  | cons kind a ih =>
      obtain ⟨hkind, hrest⟩ := h
      obtain ⟨ha, hb⟩ := ih hrest
      refine ⟨⟨hkind, ha⟩, ?_⟩
      rwa [List.length_cons, Nat.add_comm a.length, ← Nat.add_assoc]

theorem At.tokenKindAt {kind : TokenKind} {kinds : List TokenKind}
    (h : At tokens endByte index (kind :: kinds)) : tokenKindAt tokens index = some kind := by
  obtain ⟨token, htoken, hkind, -⟩ := h.1
  rw [AdaParser.tokenKindAt, htoken, Option.map_some, hkind]

end

/-! ## Tokens on a line -/

/-- One byte for each token. -/
def lineToken (start : Nat) (kind : TokenKind) : Token :=
  { kind := kind, effectiveKind := kind, textSpan := ⟨start, start + 1⟩, line := 1
    col := start + 1 }

def tokenLine : Nat → List TokenKind → List Token
  | _, [] => []
  | start, kind :: kinds => lineToken start kind :: tokenLine (start + 1) kinds

theorem start_of_mem_tokenLine {start : Nat} {kinds : List TokenKind} {token : Token}
    (h : token ∈ tokenLine start kinds) :
    start ≤ token.textSpan.start ∧ token.textSpan.stop = token.textSpan.start + 1 := by
  induction kinds generalizing start with
  | nil => cases h
  | cons kind kinds ih =>
      rcases List.mem_cons.mp h with rfl | h
      · exact ⟨Nat.le_refl _, rfl⟩
      · have := ih h
        omega

theorem positioned_tokenLine (start : Nat) (kinds : List TokenKind) :
    Positioned (tokenLine start kinds) := by
  constructor
  · induction kinds generalizing start with
    | nil => exact .nil
    | cons kind kinds ih =>
        refine List.pairwise_cons.mpr ⟨fun token htoken => ?_, ih (start + 1)⟩
        exact (start_of_mem_tokenLine htoken).1
  · intro token htoken _
    have := (start_of_mem_tokenLine htoken).2
    omega

theorem getElem?_tokenLine (start : Nat) (kinds : List TokenKind) (i : Nat) :
    (tokenLine start kinds)[i]? = kinds[i]?.map (lineToken (start + i)) := by
  induction kinds generalizing start i with
  | nil => rfl
  | cons kind kinds ih =>
      cases i with
      | zero => rfl
      | succ i =>
          rw [tokenLine, List.getElem?_cons_succ, List.getElem?_cons_succ, ih, Nat.add_assoc,
            Nat.add_comm 1]

theorem at_tokenLine {front kinds rest : List TokenKind} {endByte : Nat}
    (h : front.length + kinds.length ≤ endByte) :
    At (tokenLine 0 (front ++ (kinds ++ rest))) endByte front.length kinds := by
  induction kinds generalizing front with
  | nil => trivial
  | cons kind kinds ih =>
      rw [List.length_cons] at h
      constructor
      · refine ⟨lineToken front.length kind, ?_, rfl, ?_⟩
        · rw [getElem?_tokenLine, List.getElem?_append_right (Nat.le_refl _)]
          simp
        · show front.length < endByte
          omega
      · have hlen : (front ++ [kind]).length + kinds.length ≤ endByte := by
          rw [List.length_append, List.length_singleton]
          omega
        have hrest := ih hlen
        rw [List.append_assoc, List.length_append] at hrest
        exact hrest

end GovFuzz.AdaParser
