import GovFuzz.IdlParser.Preprocessor
import GovFuzz.Lib.Except
import Mathlib.Data.List.TakeWhile

/-!
# IDL parser — messages stay on their line

A warning quotes names, characters and tokens of the line it is about.
Whatever it quotes has been read as a token, and no token has a newline.
-/

namespace GovFuzz.IdlParser

open GovFuzz.Lib
open GovFuzz.Runtrace (isWhitespace)

/-- On one line. -/
def OneLine (message : String) : Prop := '\n' ∉ message.toList

instance (message : String) : Decidable (OneLine message) :=
  inferInstanceAs (Decidable ('\n' ∉ message.toList))

theorem OneLine.append {first second : String} (h : OneLine first) (h' : OneLine second) :
    OneLine (first ++ second) := by
  rw [OneLine, String.toList_append, List.mem_append, not_or]
  exact ⟨h, h'⟩

theorem oneLine_ofList {text : List Char} (h : '\n' ∉ text) : OneLine (String.ofList text) := by
  rw [OneLine, String.toList_ofList]
  exact h

theorem oneLine_nat (n : Nat) : OneLine (toString n) := by
  intro h
  have hdigit : '\n' ∈ Nat.toDigits 10 n := by
    simpa [toString, Nat.repr] using h
  exact absurd (Nat.isDigit_of_mem_toDigits (by decide) (by decide) hdigit) (by decide)

theorem oneLine_int (n : Int) : OneLine (toString n) := by
  cases n with
  | ofNat n => exact oneLine_nat n
  | negSucc n =>
      have hminus : OneLine "-" := by decide
      exact hminus.append (oneLine_nat (n + 1))

/-- A computation whose error is on one line, and whose value has `P`. -/
def Quotes {α : Type} (P : α → Prop) : Except String α → Prop
  | .ok a => P a
  | .error message => OneLine message

theorem Quotes.bind {α β : Type} {P : α → Prop} {Q : β → Prop} {x : Except String α}
    {f : α → Except String β} (hx : Quotes P x) (hf : ∀ a, P a → Quotes Q (f a)) :
    Quotes Q (x >>= f) := by
  cases x with
  | ok a => exact hf a hx
  | error message => exact hx

/-! ## Tokens -/

def ExprToken.OnLine (token : ExprToken) : Prop := OneLine token.debug

theorem onLine_number (value : Int) : (ExprToken.number value).OnLine := by
  have hopen : OneLine "Number(" := by decide
  exact (hopen.append (oneLine_int value)).append (by decide)

theorem newline_not_mem_word {ch : Char} {chars : List Char} (h : isIdentifierStart ch = true) :
    '\n' ∉ ch :: chars.takeWhile isIdentifierContinue := by
  rw [List.mem_cons, not_or]
  constructor
  · rintro rfl
    revert h
    decide
  · intro hmem
    have := List.mem_takeWhile_imp hmem
    revert this
    decide

theorem onLine_word {word : List Char} (h : '\n' ∉ word) : (wordToken word).OnLine := by
  unfold wordToken
  split
  · show OneLine "Defined"
    decide
  · have hopen : OneLine "Ident(\"" := by decide
    exact (hopen.append (oneLine_ofList h)).append (by decide)

theorem quotes_integerConstant {text : List Char} (h : '\n' ∉ text) :
    Quotes (fun _ => True) (integerConstant text) := by
  have hopen : OneLine "invalid integer constant '" := by decide
  unfold integerConstant
  dsimp only
  split
  · trivial
  · exact (hopen.append (oneLine_ofList h)).append (by decide)

/-- Tokens that a message may quote. -/
def AllOnLine (tokens : List ExprToken) : Prop := ∀ token ∈ tokens, token.OnLine

theorem quotes_cons {token : ExprToken} {rest : Except String (List ExprToken)}
    (htoken : token.OnLine) (hrest : Quotes AllOnLine rest) :
    Quotes AllOnLine (do return token :: (← rest)) :=
  hrest.bind fun _ htokens => List.forall_mem_cons.mpr ⟨htoken, htokens⟩

/-- Each token of the lexer is on one line, and so is its error. -/
theorem quotes_lexFrom (skip : Nat) (chars : List Char) :
    Quotes AllOnLine (lexFrom skip chars) := by
  fun_induction lexFrom skip chars with
  | case1 => exact List.forall_mem_nil _
  | case2 skip ch chars ih => exact ih
  | case3 ch chars hblank ih => exact ih
  | case4 => exact (by decide : OneLine "operator '!=' is unsupported")
  | case5 chars _ _ ih => exact quotes_cons (by decide : OneLine "Not") ih
  | case6 chars _ _ _ ih => exact quotes_cons (by decide : OneLine "And") ih
  | case7 => exact (by decide : OneLine "expected '&&' in #if expression")
  | case8 chars _ _ _ _ ih => exact quotes_cons (by decide : OneLine "Or") ih
  | case9 => exact (by decide : OneLine "expected '||' in #if expression")
  | case10 chars _ _ _ _ ih => exact quotes_cons (by decide : OneLine "LParen") ih
  | case11 chars _ _ _ _ _ ih => exact quotes_cons (by decide : OneLine "RParen") ih
  | case12 ch chars _ _ _ _ _ _ hdigit more ih =>
      have hconstant : '\n' ∉ ch :: more := by
        rw [List.mem_cons, not_or]
        constructor
        · rintro rfl
          revert hdigit
          decide
        · intro hmem
          have := List.mem_takeWhile_imp hmem
          revert this
          decide
      exact (quotes_integerConstant hconstant).bind fun value _ =>
        quotes_cons (onLine_number value) ih
  | case13 ch chars _ _ _ _ _ _ _ hident more ih =>
      exact quotes_cons (onLine_word (newline_not_mem_word hident)) ih
  | case14 ch chars hblank =>
      have hopen : OneLine "unsupported token '" := by decide
      have hch : '\n' ∉ [ch] := by
        rw [List.mem_singleton]
        rintro rfl
        revert hblank
        decide
      exact (hopen.append (oneLine_ofList hch)).append (by decide)

/-! ## The parser -/

/-- What a parser leaves of the tokens it may still quote. -/
def QuotesTokens (parse : ExprParse) : Prop :=
  ∀ tokens, AllOnLine tokens → Quotes (fun result => AllOnLine result.2) (parse tokens)

theorem AllOnLine.tail {token : ExprToken} {rest : List ExprToken}
    (h : AllOnLine (token :: rest)) : AllOnLine rest :=
  fun other hother => h other (List.mem_cons_of_mem _ hother)

theorem AllOnLine.consume {tokens rest : List ExprToken} {taken : Bool} (h : AllOnLine tokens)
    {token : ExprToken} (hconsume : consume token tokens = (taken, rest)) : AllOnLine rest := by
  rcases consume_cases token tokens with ⟨rest', rfl, htaken⟩ | ⟨-, hkept⟩
  · rw [htaken] at hconsume
    cases hconsume
    exact h.tail
  · rw [hkept] at hconsume
    cases hconsume
    exact h

theorem quotes_expect {token : ExprToken} (htoken : token.OnLine) {tokens : List ExprToken}
    (h : AllOnLine tokens) : Quotes AllOnLine (expect token tokens) := by
  unfold expect
  split
  case h_1 rest hconsume => exact h.consume hconsume
  case h_2 =>
      have hopen : OneLine "expected " := by decide
      exact (hopen.append htoken).append (by decide)

theorem quotes_expectIdent {tokens : List ExprToken} (h : AllOnLine tokens) :
    Quotes (fun result => AllOnLine result.2) (expectIdent tokens) := by
  unfold expectIdent
  split
  · exact h.tail
  · exact (by decide : OneLine "expected identifier in defined expression")

theorem quotes_whileConsume {token : ExprToken} {decisive : Bool} {operand : ExprParse}
    (hoperand : QuotesTokens operand) (rounds : Nat) (value : Bool) :
    QuotesTokens (whileConsume token decisive operand rounds value) := by
  induction rounds generalizing value with
  | zero => exact fun tokens h => h
  | succ rounds ih =>
      intro tokens h
      rw [whileConsume]
      split
      case h_1 rest hconsume =>
          have hrest := h.consume hconsume
          split
          · exact ih value rest hrest
          · exact (hoperand rest hrest).bind fun result hresult => ih result.1 result.2 hresult
      case h_2 rest hconsume => exact h.consume hconsume

theorem quotes_parseChain {token : ExprToken} {decisive : Bool} {operand : ExprParse}
    (hoperand : QuotesTokens operand) (rounds : Nat) :
    QuotesTokens (parseChain token decisive operand rounds) :=
  fun tokens h => (hoperand tokens h).bind fun result hresult =>
    quotes_whileConsume hoperand rounds result.1 result.2 hresult

section Parser

variable (defines : Defines)

theorem quotes_parsePrimary {nested : ExprParse} (hnested : QuotesTokens nested) :
    QuotesTokens (parsePrimary defines nested) := by
  intro tokens h
  unfold parsePrimary
  split
  · refine (hnested _ h.tail).bind fun result hresult => ?_
    have hclosing : ExprToken.rParen.OnLine := by
      show OneLine "RParen"
      decide
    exact (quotes_expect hclosing hresult).bind fun rest hrest => hrest
  · exact h.tail
  · exact h.tail
  · have hopen : OneLine "unexpected token " := by decide
    exact (hopen.append (h _ List.mem_cons_self)).append (by decide)
  · exact (by decide : OneLine "expected expression after #if")

theorem quotes_parseDefined : QuotesTokens (parseDefined defines) := by
  intro tokens h
  unfold parseDefined
  split
  · refine (quotes_expectIdent h.tail).bind fun result hresult => ?_
    have hclosing : ExprToken.rParen.OnLine := by
      show OneLine "RParen"
      decide
    exact (quotes_expect hclosing hresult).bind fun rest hrest => hrest
  · exact (quotes_expectIdent h).bind fun result hresult => hresult

theorem quotes_parseUnary {nested : ExprParse} (hnested : QuotesTokens nested) :
    QuotesTokens (parseUnary defines nested) := by
  intro tokens h
  fun_induction parseUnary defines nested tokens with
  | case1 rest ih => exact (ih h.tail).bind fun result hresult => hresult
  | case2 rest => exact quotes_parseDefined defines rest h.tail
  | case3 tokens => exact quotes_parsePrimary defines hnested tokens h

theorem quotes_parseOr (fuel : Nat) : QuotesTokens (parseOr defines fuel) := by
  induction fuel with
  | zero => exact fun _ _ => (by decide : OneLine "out of fuel")
  | succ fuel ih =>
      have hand : QuotesTokens (parseAnd defines fuel (parseOr defines fuel)) :=
        quotes_parseChain (quotes_parseUnary defines ih) fuel
      exact quotes_parseChain hand fuel

/-- The error of an `#if` expression is on one line. -/
theorem oneLine_evalIfExpression {expression : List Char} {error : String}
    (h : evalIfExpression expression defines = .error error) : OneLine error := by
  have hquotes : Quotes (fun _ => True) (evalIfExpression expression defines) := by
    refine (quotes_lexFrom 0 expression).bind fun tokens htokens => ?_
    refine (quotes_parseOr defines _ tokens htokens).bind fun result _ => ?_
    obtain ⟨value, rest⟩ := result
    cases rest with
    | nil => trivial
    | cons token rest =>
        exact (by decide : OneLine "unexpected trailing tokens in #if expression")
  rw [h] at hquotes
  exact hquotes

end Parser

/-! ## Directives -/

theorem newline_not_mem_readIdentifier {text name rest : List Char}
    (h : readIdentifier text = some (name, rest)) : '\n' ∉ name := by
  cases text with
  | nil => cases h
  | cons first text =>
      simp only [readIdentifier] at h
      split at h
      case isTrue hfirst =>
          cases h
          exact newline_not_mem_word hfirst
      case isFalse => cases h

theorem mem_of_readIdentifier {text name rest : List Char} {ch : Char}
    (h : readIdentifier text = some (name, rest)) (hch : ch ∈ rest) : ch ∈ text := by
  cases text with
  | nil => cases h
  | cons first text =>
      simp only [readIdentifier] at h
      split at h
      case isTrue =>
          cases h
          exact List.mem_cons_of_mem _ ((List.dropWhile_sublist _).subset hch)
      case isFalse => cases h

theorem mem_of_trimStart {text : List Char} {ch : Char} (h : ch ∈ trimStart text) : ch ∈ text :=
  (List.dropWhile_sublist _).subset h

theorem mem_of_splitDirective {line directive payload : List Char} {ch : Char}
    (h : splitDirective line = some (directive, payload)) (hch : ch ∈ payload) : ch ∈ line :=
  mem_of_trimStart (List.mem_of_mem_tail (mem_of_trimStart (mem_of_readIdentifier h hch)))

theorem oneLine_defineMacro {defines : Defines} {payload : List Char} {lineNo : Nat}
    {error : IdlParseError} (h : defineMacro defines payload lineNo = .error error) :
    OneLine error.message := by
  unfold defineMacro at h
  split at h
  · cases h
    exact (by decide : OneLine "expected macro name after #define")
  · split at h
    · cases h
      exact (by decide : OneLine "function-like macros are unsupported")
    · cases h

theorem newline_not_mem_warningPragma {message : String} (h : OneLine message) :
    '\n' ∉ warningPragma message := by
  unfold warningPragma
  simp only [List.mem_append, List.mem_flatMap, not_or, not_exists, not_and]
  refine ⟨⟨by decide, fun ch hch => ?_⟩, by decide⟩
  split
  · simp
  · split
    · simp
    · rw [List.mem_singleton]
      rintro rfl
      exact h hch

theorem warningPragma_ne_nil (message : String) : warningPragma message ≠ [] := by
  unfold warningPragma
  simp

end GovFuzz.IdlParser
