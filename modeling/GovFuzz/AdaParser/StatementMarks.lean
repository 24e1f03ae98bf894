import GovFuzz.AdaParser.Brackets
import GovFuzz.AdaParser.Statements

/-!
# Ada parser — the statement scanner on marks

The scanner reads tokens, looks one name ahead at `end` and one token back
at `record`.  On marks it is a plain stack machine: `Mark.apply` is what a
mark does to the stack, `none` where the scan ends inside it.
-/

namespace GovFuzz.AdaParser

/-! ## The machine -/

@[grind =] def Bracket.construct : Bracket → ConstructKind
  | .if => .if
  | .case => .case
  | .loop => .loop
  | .select => .select
  | .parallelDo => .parallel
  | .record _ => .record

/-- The `end` of a bracket that is not on top: the `end` is passed over, and
the keyword behind it read as an opening one. -/
def Bracket.reopen (bracket : Bracket) (stack : List ConstructKind) : List ConstructKind :=
  match bracket with
  | .parallelDo => stack
  | _ => bracket.construct :: stack

@[grind =] def Mark.apply : Mark → List ConstructKind → Option (List ConstructKind)
  | .plain .., stack => some stack
  | .nullRecord, stack => some stack
  | .semicolon, stack => if stack = [] then none else some stack
  | .exception, stack => if stack = [] then none else some stack
  | .open bracket, stack => some (bracket.construct :: stack)
  | .close _, [] => none
  | .close bracket, top :: rest =>
      some (if top = bracket.construct then rest else bracket.reopen (top :: rest))
  | .declare, stack => some (.declare :: stack)
  | .begin, .declare :: rest => some (.block :: rest)
  | .begin, stack => some (.block :: stack)
  | .closeBlock _, [] => none
  | .closeBlock _, stack => some ((popBlockConstruct stack).getD stack)

/-- The stack behind a list of marks, if the scan gets there. -/
@[grind =] def runMarks : List Mark → List ConstructKind → Option (List ConstructKind)
  | [], stack => some stack
  | mark :: marks, stack => (mark.apply stack).bind (runMarks marks)

theorem runMarks_append (a b : List Mark) (stack : List ConstructKind) :
    runMarks (a ++ b) stack = (runMarks a stack).bind (runMarks b) := by
  induction a generalizing stack with
  | nil => rfl
  | cons mark a ih =>
      rw [List.cons_append, runMarks, runMarks, Option.bind_assoc]
      congr 1
      funext stack
      exact ih stack

/-! ## One token -/

section
variable {tokens : List Token} {endByte index : Nat} {stack : List ConstructKind}

/-- One token of the scan. -/
theorem findStatementSemicolonLoop_token {kind : TokenKind} {kinds : List TokenKind}
    (h : At tokens endByte index (kind :: kinds)) :
    findStatementSemicolonLoop tokens endByte index stack
      = if stack = [] ∧ (kind = .kwException ∨ kind = .kwEnd) then none
        else if stack = [] ∧ kind = .semicolon then some index
        else findStatementSemicolonLoop tokens endByte
          (index + (scanToken tokens index kind stack).1)
          (scanToken tokens index kind stack).2 := by
  obtain ⟨token, htoken, rfl, hbyte⟩ := h.1
  rw [findStatementSemicolonLoop]
  split
  · rename_i hnone
    rw [htoken] at hnone
    cases hnone
  · rename_i token' htoken'
    obtain rfl : token = token' := Option.some.inj (htoken.symm.trans htoken')
    rw [if_neg (Nat.not_le.mpr hbyte)]

theorem scanToken_plain {kind : TokenKind} (h : kind.isPlain = true) :
    scanToken tokens index kind stack = (1, stack) := by
  unfold scanToken
  split <;> first | rfl | cases h

theorem findStatementSemicolonLoop_plain {kind : TokenKind} {kinds : List TokenKind}
    (hplain : kind.isPlain = true) (h : At tokens endByte index (kind :: kinds)) :
    findStatementSemicolonLoop tokens endByte index stack
      = findStatementSemicolonLoop tokens endByte (index + 1) stack := by
  have hexc : kind ≠ .kwException := by rintro rfl; cases hplain
  have hend : kind ≠ .kwEnd := by rintro rfl; cases hplain
  have hsemi : kind ≠ .semicolon := by rintro rfl; cases hplain
  rw [findStatementSemicolonLoop_token h, scanToken_plain hplain]
  simp [hexc, hend, hsemi]

theorem findStatementSemicolonLoop_plains {kinds : List TokenKind}
    (hplain : ∀ kind ∈ kinds, kind.isPlain = true) (h : At tokens endByte index kinds) :
    findStatementSemicolonLoop tokens endByte index stack
      = findStatementSemicolonLoop tokens endByte (index + kinds.length) stack := by
  induction kinds generalizing index with
  | nil => rfl
  | cons kind kinds ih =>
      rw [findStatementSemicolonLoop_plain (hplain kind List.mem_cons_self) h,
        ih (fun k hk => hplain k (List.mem_cons_of_mem _ hk)) h.2, List.length_cons,
        Nat.add_comm kinds.length, Nat.add_assoc]

/-! ## Names behind `end` -/

theorem skipSelectors_selectorKinds (names : List String) {kinds : List TokenKind}
    (h : At tokens endByte index (selectorKinds names ++ .semicolon :: kinds)) :
    skipSelectors tokens index = index + (selectorKinds names).length := by
  induction names generalizing index with
  | nil =>
      have hkind : tokenKindAt tokens index = some .semicolon := h.tokenKindAt
      rw [skipSelectors]
      simp [kindAt, hkind, selectorKinds]
  | cons name names ih =>
      have hdot : tokenKindAt tokens index = some .dot := h.tokenKindAt
      have hname : tokenKindAt tokens (index + 1) = some (.identifier name) := h.2.tokenKindAt
      rw [skipSelectors]
      simp only [kindAt, hdot, decide_true, dite_true, hname, ih h.2.2, selectorKinds,
        List.length_cons]
      omega

theorem namedEndSemicolonIndex_name {name : String} {names : List String}
    (h : At tokens endByte index (.kwEnd :: nameKinds (name :: names) ++ [.semicolon])) :
    namedEndSemicolonIndex tokens index
      = some (index + (Mark.closeBlock (name :: names)).kinds.length) := by
  have hname : tokenKindAt tokens (index + 1) = some (.identifier name) := h.2.tokenKindAt
  have hselectors : At tokens endByte (index + 2) (selectorKinds names ++ [.semicolon]) := h.2.2
  have hsemi := hselectors.append.2.tokenKindAt
  simp only [namedEndSemicolonIndex, hname, skipSelectors_selectorKinds names hselectors, kindAt,
    hsemi, decide_true, if_true, Mark.kinds, nameKinds, List.length_cons]
  congr 1
  omega

theorem namedEndSemicolonIndex_anonymous
    (h : At tokens endByte index [.kwEnd, .semicolon]) :
    namedEndSemicolonIndex tokens index = none := by
  have hsemi : tokenKindAt tokens (index + 1) = some .semicolon := h.2.tokenKindAt
  simp [namedEndSemicolonIndex, hsemi]

/-- `end` or `end A.B` in front of its semicolon. -/
theorem scanToken_closeBlock (name : List String)
    (h : At tokens endByte index ((Mark.closeBlock name).kinds ++ [.semicolon])) :
    scanToken tokens index .kwEnd stack
      = match popBlockConstruct stack with
        | some rest => ((Mark.closeBlock name).kinds.length, rest)
        | none => (1, stack) := by
  have hread : closeStatementConstruct tokens index stack = popBlockConstruct stack := by
    cases name with
    | nil =>
        have hsemi : tokenKindAt tokens (index + 1) = some .semicolon := h.2.tokenKindAt
        simp only [closeStatementConstruct, hsemi]
    | cons name names =>
        have hname : tokenKindAt tokens (index + 1) = some (.identifier name) := h.2.tokenKindAt
        simp only [closeStatementConstruct, hname, namedEndSemicolonIndex_name h,
          Option.isSome_some, if_true]
  have hwidth : endConstructWidth tokens index = (Mark.closeBlock name).kinds.length := by
    cases name with
    | nil =>
        have hsemi : tokenKindAt tokens (index + 1) = some .semicolon := h.2.tokenKindAt
        simp only [endConstructWidth, hsemi, namedEndSemicolonIndex_anonymous h]
        rfl
    | cons name names =>
        have hname : tokenKindAt tokens (index + 1) = some (.identifier name) := h.2.tokenKindAt
        simp only [endConstructWidth, hname, namedEndSemicolonIndex_name h,
          Nat.add_sub_cancel_left]
  show (match closeStatementConstruct tokens index stack with
    | some rest => (endConstructWidth tokens index, rest)
    | none => (1, stack)) = _
  rw [hread, hwidth]

theorem nameKinds_plain (names : List String) :
    ∀ kind ∈ nameKinds names, kind.isPlain = true :=
  fun _ hkind => isPlain_of_isNamePart (isNamePart_of_mem_nameKinds hkind)

/-! ## One mark -/

/-- The scan from `index` over `width` tokens does what `result` says: it
arrives behind them with that stack, or it ends among them. -/
def Reads (tokens : List Token) (endByte index : Nat) (stack : List ConstructKind) (width : Nat)
    (result : Option (List ConstructKind)) : Prop :=
  match result with
  | some stack' => findStatementSemicolonLoop tokens endByte index stack
      = findStatementSemicolonLoop tokens endByte (index + width) stack'
  | none => ∀ found, findStatementSemicolonLoop tokens endByte index stack = some found →
      found < index + width

/-- A keyword that neither ends the scan nor moves it by more than one. -/
theorem findStatementSemicolonLoop_keyword {kind : TokenKind} {kinds : List TokenKind}
    {stack' : List ConstructKind} (h : At tokens endByte index (kind :: kinds))
    (hexc : kind ≠ .kwException) (hend : kind ≠ .kwEnd) (hsemi : kind ≠ .semicolon)
    (hscan : scanToken tokens index kind stack = (1, stack')) :
    findStatementSemicolonLoop tokens endByte index stack
      = findStatementSemicolonLoop tokens endByte (index + 1) stack' := by
  rw [findStatementSemicolonLoop_token h, hscan]
  simp [hexc, hend, hsemi]

theorem isNullRecord_succ (kind : TokenKind) (h : tokenKindAt tokens index = some kind) :
    isNullRecord tokens (index + 1) = decide (kind = .kwNull) := by
  simp [isNullRecord, kindAt, h]

/-- `record` behind a token other than `null`. -/
theorem findStatementSemicolonLoop_record {kind : TokenKind} {kinds : List TokenKind}
    (h : At tokens endByte index (kind :: .kwRecord :: kinds)) (hkind : kind ≠ .kwNull) :
    findStatementSemicolonLoop tokens endByte (index + 1) stack
      = findStatementSemicolonLoop tokens endByte (index + 2) (.record :: stack) := by
  apply findStatementSemicolonLoop_keyword h.2 (by decide) (by decide) (by decide)
  simp [scanToken, isNullRecord_succ kind h.tokenKindAt, hkind]

theorem reads_open (bracket : Bracket) (h : At tokens endByte index bracket.openKinds) :
    Reads tokens endByte index stack bracket.openKinds.length
      (some (bracket.construct :: stack)) := by
  cases bracket with
  | parallelDo =>
      have hdo : tokenKindAt tokens (index + 1) = some .kwDo := h.2.tokenKindAt
      show findStatementSemicolonLoop _ _ _ _ = _
      rw [findStatementSemicolonLoop_token h]
      simp [scanToken, kindAt, hdo, Bracket.openKinds, Bracket.construct]
  | record lead =>
      have hplain : lead.kind.isPlain = true := by cases lead <;> rfl
      have hnull : lead.kind ≠ .kwNull := by cases lead <;> decide
      show findStatementSemicolonLoop _ _ _ _ = _
      rw [findStatementSemicolonLoop_plain hplain h, findStatementSemicolonLoop_record h hnull]
      rfl
  | _ => exact findStatementSemicolonLoop_keyword h (by decide) (by decide) (by decide) rfl

theorem reads_close (bracket : Bracket) (h : At tokens endByte index [.kwEnd, bracket.keyword]) :
    Reads tokens endByte index stack 2 ((Mark.close bracket).apply stack) := by
  have hkeyword : tokenKindAt tokens (index + 1) = some bracket.keyword := h.2.tokenKindAt
  cases stack with
  | nil =>
      intro found hfound
      rw [findStatementSemicolonLoop_token h] at hfound
      simp at hfound
  | cons top rest =>
      have hclose : closeStatementConstruct tokens index (top :: rest)
          = if top = bracket.construct then some rest else none := by
        cases bracket <;> simp only [closeStatementConstruct, hkeyword, Bracket.keyword] <;> rfl
      have hwidth : endConstructWidth tokens index = 2 := by
        cases bracket <;> simp only [endConstructWidth, hkeyword, Bracket.keyword]
      show findStatementSemicolonLoop _ _ _ _ = _
      rw [findStatementSemicolonLoop_token h, scanToken, hclose, hwidth]
      by_cases htop : top = bracket.construct
      · simp [htop]
      · -- not on top: the keyword is read once more, as an opening one
        simp only [htop, if_false, reduceCtorEq, false_and]
        cases bracket with
        | parallelDo => exact findStatementSemicolonLoop_plain rfl h.2
        | record lead => exact findStatementSemicolonLoop_record h (by decide)
        | _ => exact findStatementSemicolonLoop_keyword h.2 (by decide) (by decide) (by decide) rfl

theorem reads_closeBlock (name : List String)
    (h : At tokens endByte index ((Mark.closeBlock name).kinds ++ [.semicolon])) :
    Reads tokens endByte index stack (Mark.closeBlock name).kinds.length
      ((Mark.closeBlock name).apply stack) := by
  have hend : At tokens endByte index (.kwEnd :: (nameKinds name ++ [.semicolon])) := h
  cases stack with
  | nil =>
      intro found hfound
      rw [findStatementSemicolonLoop_token hend] at hfound
      simp at hfound
  | cons top rest =>
      show findStatementSemicolonLoop _ _ _ _ = _
      rw [findStatementSemicolonLoop_token hend, scanToken_closeBlock name h]
      cases hpop : popBlockConstruct (top :: rest) with
      | some rest' => simp
      | none =>
          simp only [reduceCtorEq, false_and, if_false, Option.getD_none]
          rw [findStatementSemicolonLoop_plains (nameKinds_plain name) hend.2.append.1,
            Nat.add_assoc, Nat.add_comm 1]
          rfl

/-- One mark of a statement moves the parser's stack as the mark says: a case per mark. -/
theorem reads_mark (mark : Mark) (h : At tokens endByte index (mark.kinds ++ mark.lookahead)) :
    Reads tokens endByte index stack mark.kinds.length (mark.apply stack) := by
  cases mark with
  | plain kind hplain => exact findStatementSemicolonLoop_plain hplain h
  | nullRecord =>
      show findStatementSemicolonLoop _ _ _ _ = _
      rw [findStatementSemicolonLoop_plain rfl h]
      apply findStatementSemicolonLoop_keyword h.2 (by decide) (by decide) (by decide)
      simp [scanToken, isNullRecord_succ .kwNull h.tokenKindAt]
  | semicolon =>
      by_cases hstack : stack = []
      · subst hstack
        intro found hfound
        rw [findStatementSemicolonLoop_token h] at hfound
        simp at hfound
        subst hfound
        exact Nat.lt_succ_self _
      · simp only [Mark.apply, hstack, if_false]
        show findStatementSemicolonLoop _ _ _ _ = _
        rw [findStatementSemicolonLoop_token h]
        simp [hstack, scanToken, Mark.kinds]
  | exception =>
      by_cases hstack : stack = []
      · subst hstack
        intro found hfound
        rw [findStatementSemicolonLoop_token h] at hfound
        simp at hfound
      · simp only [Mark.apply, hstack, if_false]
        show findStatementSemicolonLoop _ _ _ _ = _
        rw [findStatementSemicolonLoop_token h]
        simp [hstack, scanToken, Mark.kinds]
  | «open» bracket => exact reads_open bracket h.append.1
  | close bracket => exact reads_close bracket h.append.1
  | declare =>
      exact findStatementSemicolonLoop_keyword h (by decide) (by decide) (by decide) rfl
  | begin =>
      have hbegin : ∃ stack', scanToken tokens index .kwBegin stack = (1, stack') ∧
          Mark.begin.apply stack = some stack' := by
        rcases stack with _ | ⟨top, rest⟩
        · exact ⟨_, rfl, rfl⟩
        · cases top <;> exact ⟨_, rfl, rfl⟩
      obtain ⟨stack', hscan, happly⟩ := hbegin
      rw [happly]
      exact findStatementSemicolonLoop_keyword h (by decide) (by decide) (by decide) hscan
  | closeBlock name => exact reads_closeBlock name h

/-! ## Lists of marks -/

/-- The scanner and the machine agree. -/
theorem reads_marks (marks rest : List Mark) (hwell : WellPlaced (marks ++ rest))
    (h : At tokens endByte index (kindsOf (marks ++ rest))) :
    Reads tokens endByte index stack (kindsOf marks).length (runMarks marks stack) := by
  induction marks generalizing index stack with
  | nil => rfl
  | cons mark marks ih =>
      have hmark : Reads tokens endByte index stack mark.kinds.length (mark.apply stack) :=
        reads_mark mark (h.lookahead hwell)
      have hrest : At tokens endByte (index + mark.kinds.length) (kindsOf (marks ++ rest)) := by
        rw [List.cons_append, kindsOf_cons] at h
        exact h.append.2
      rw [runMarks, kindsOf_cons, List.length_append]
      cases happly : mark.apply stack with
      | none =>
          rw [happly] at hmark
          intro found hfound
          have := hmark found hfound
          omega
      | some stack' =>
          rw [happly] at hmark
          have hstep : findStatementSemicolonLoop tokens endByte index stack
            = findStatementSemicolonLoop tokens endByte (index + mark.kinds.length) stack' := hmark
          have hmarks : Reads tokens endByte (index + mark.kinds.length) stack'
            (kindsOf marks).length (runMarks marks stack') := ih hwell.tail hrest
          rw [Option.bind_some]
          unfold Reads at hmarks ⊢
          rw [hstep, ← Nat.add_assoc]
          exact hmarks

end

end GovFuzz.AdaParser
