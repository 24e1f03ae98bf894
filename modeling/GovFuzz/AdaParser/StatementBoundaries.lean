import GovFuzz.AdaParser.StatementRuns

/-!
# Ada parser — statement boundaries

When the scanner cuts a body into its statements.  It takes the keyword of a
conditional expression for the start of a statement that never ends, and in
a declare block that is itself a statement of the body the first nested body
leaves no frame behind.
-/

namespace GovFuzz.AdaParser

/-! ## Conditional expressions stay on the stack -/

/-- Frames of if and case. -/
def weight (stack : List ConstructKind) : Nat :=
  stack.countP fun kind => kind = .if ∨ kind = .case

/-- Whatever a closing mark finds, it takes at most one frame away. -/
theorem apply_weight {mark : Mark} {stack stack' : List ConstructKind}
    (h : mark.apply stack = some stack') :
    weight stack + (mark.opens ifCase).toNat ≤ weight stack' + (mark.closes ifCase).toNat := by
  cases mark with
  | plain kind hplain => cases h; exact Nat.le_refl _
  | nullRecord => cases h; exact Nat.le_refl _
  | semicolon =>
      simp only [Mark.apply] at h
      split at h
      · cases h
      · cases h; exact Nat.le_refl _
  | exception =>
      simp only [Mark.apply] at h
      split at h
      · cases h
      · cases h; exact Nat.le_refl _
  | «open» bracket =>
      cases h
      cases bracket <;> simp [weight, Bracket.construct, Mark.opens, Mark.closes, ifCase]
  | close bracket =>
      cases stack with
      | nil => cases h
      | cons top rest =>
          simp only [Mark.apply, Option.some.injEq] at h
          subst h
          split
          · rename_i htop
            subst htop
            cases bracket <;> simp [weight, Bracket.construct, Mark.opens, Mark.closes, ifCase]
          · cases bracket <;>
              simp [weight, Bracket.reopen, Bracket.construct, Mark.opens, Mark.closes, ifCase] <;>
              omega
  | declare => cases h; simp [weight, Mark.opens, Mark.closes]
  | begin =>
      rcases stack with _ | ⟨top, rest⟩
      · cases h
        simp [weight, Mark.opens, Mark.closes]
      · cases top <;> (cases h; simp [weight, Mark.opens, Mark.closes])
  | closeBlock name =>
      rcases stack with _ | ⟨top, rest⟩
      · cases h
      · cases top <;> (cases h; simp [weight, popBlockConstruct, Mark.opens, Mark.closes])

theorem runMarks_weight (marks : List Mark) {stack stack' : List ConstructKind}
    (h : runMarks marks stack = some stack') :
    weight stack + marks.countP (Mark.opens ifCase)
      ≤ weight stack' + marks.countP (Mark.closes ifCase) := by
  induction marks generalizing stack with
  | nil => cases h; exact Nat.le_refl _
  | cons mark marks ih =>
      obtain ⟨mid, hmark, hmarks⟩ := Option.bind_eq_some_iff.mp h
      have hfirst := apply_weight hmark
      have hrest := ih hmarks
      have hopens : (mark :: marks).countP (Mark.opens ifCase)
          = (mark.opens ifCase).toNat + marks.countP (Mark.opens ifCase) := by
        rw [List.countP_cons]
        cases mark.opens ifCase <;> simp [Nat.add_comm]
      have hcloses : (mark :: marks).countP (Mark.closes ifCase)
          = (mark.closes ifCase).toNat + marks.countP (Mark.closes ifCase) := by
        rw [List.countP_cons]
        cases mark.closes ifCase <;> simp [Nat.add_comm]
      omega

/-! ## One statement of the body -/

/-- The conditions on a statement of the body itself.  A block must not
have stray `end`s left over, and no nested body may stand in the declarative
part of the block: it would close the only frame there is. -/
def Stmt.unbroken : Stmt → Bool
  | .simple _ => true
  | .compound .. => true
  | .block _ body arms _ => body.strays + arms.strays = 0
  | .declareBlock _ decls body arms _ => decls.bodiless && body.strays + arms.strays = 0

/-- The statement is scanned up to its own semicolon. -/
def Stmt.separable (stmt : Stmt) : Bool := stmt.conditionals ifCase = 0 && stmt.unbroken

theorem conditionals_of_run {stmt : Stmt} (h : runMarks stmt.front [] = some []) :
    stmt.conditionals ifCase = 0 := by
  have hweight := runMarks_weight _ h
  have hformed := (stmt.formed : Formed ifCase _ _).surplus
  rw [stmt.marks_eq_front, List.countP_append, List.countP_append] at hformed
  have hsemi : [Mark.semicolon].countP (Mark.opens ifCase) = 0 := rfl
  have hsemi' : [Mark.semicolon].countP (Mark.closes ifCase) = 0 := rfl
  have hnil : weight [] = 0 := rfl
  omega

theorem barrier_nil : Barrier [] := ⟨by decide, by decide⟩

/-- Behind the `begin` of a block of the body there is one frame. -/
theorem runMarks_topBody {body : Stmts} {arms : Arms} (name : List String)
    (hbody : body.conditionals ifCase = 0) (harms : arms.conditionals ifCase = 0) :
    runMarks (body.marks ++ arms.part ++ [.closeBlock name]) [.block] = some [] ↔
      body.strays + arms.strays = 0 := by
  have hframe : frames [] 1 false = [.block] := rfl
  have hrun : runMarks (body.marks ++ arms.part) [.block]
      = settle (frames [] (1 - (body.strays + arms.strays)) false) := by
    rw [← hframe]
    exact runMarks_bodyArms (Stmts.run body barrier_nil hbody (by simp [frames]))
      fun k hk => Arms.run arms barrier_nil harms hk
  rw [runMarks_append, hrun]
  constructor
  · intro h
    by_contra hne
    rw [Nat.sub_eq_zero_of_le (by omega)] at h
    cases h
  · intro h
    rw [h]
    rfl

/-- A statement up to its end leaves the empty stack as it is exactly when it is unbroken.
-/
theorem runMarks_front_unconditional {stmt : Stmt} (hc : stmt.conditionals ifCase = 0) :
    runMarks stmt.front [] = some [] ↔ stmt.unbroken = true := by
  cases stmt with
  | simple words => exact ⟨fun _ => rfl, fun _ => runMarks_phrase hc []⟩
  | compound bracket header sections trailer =>
      simp only [Stmt.conditionals, Nat.add_eq_zero_iff] at hc
      rw [Stmt.front, runMarks_append, runMarks_phrase hc.1.1, Option.bind_some,
        runMarks_bracket bracket (fun bar hbar hne => Sections.run sections hbar hc.1.2 hne) hc.2]
      exact ⟨fun _ => rfl, fun _ => rfl⟩
  | block label body arms name =>
      simp only [Stmt.conditionals, Nat.add_eq_zero_iff] at hc
      rw [Stmt.front, runMarks_append, runMarks_phrase hc.1, Option.bind_some, runMarks,
        Mark.apply, Option.bind_some, runMarks_topBody name hc.2.1 hc.2.2, Stmt.unbroken,
        decide_eq_true_eq]
      simp
  | declareBlock label decls body arms name =>
      simp only [Stmt.conditionals, Nat.add_eq_zero_iff] at hc
      have hframe : [ConstructKind.declare] = frames [] 0 true := rfl
      rw [Stmt.front, runMarks_append, runMarks_phrase hc.1.1, Option.bind_some, runMarks,
        Mark.apply, Option.bind_some, runMarks_append, hframe,
        Decls.run decls barrier_nil hc.1.2 (by simp [frames]), Nat.zero_sub, Bool.true_and,
        Stmt.unbroken, Bool.and_eq_true, decide_eq_true_eq]
      cases hbodiless : decls.bodiless with
      | true =>
          show runMarks (body.marks ++ arms.part ++ [.closeBlock name]) [.block] = some [] ↔ _
          rw [runMarks_topBody name hc.2.1 hc.2.2]
          simp
      | false =>
          constructor
          · intro h
            cases h
          · intro h
            cases h.1

theorem runMarks_front_iff (stmt : Stmt) :
    runMarks stmt.front [] = some [] ↔ stmt.separable = true := by
  rw [Stmt.separable, Bool.and_eq_true, decide_eq_true_eq]
  constructor
  · intro h
    have hc := conditionals_of_run h
    exact ⟨hc, (runMarks_front_unconditional hc).mp h⟩
  · intro h
    exact (runMarks_front_unconditional h.1).mpr h.2

section
variable {tokens : List Token} {endByte index : Nat}

/-- The scan of a statement ends at its own semicolon exactly when the
statement is separable. -/
theorem findStatementSemicolon_iff (stmt : Stmt)
    (h : At tokens endByte index (kindsOf stmt.marks)) :
    findStatementSemicolon tokens index endByte = some (index + (kindsOf stmt.front).length) ↔
      stmt.separable = true := by
  rw [← runMarks_front_iff]
  have hwell := (stmt.formed : Formed ifCase _ _).wellPlaced
  rw [stmt.marks_eq_front] at h hwell
  have hreads : Reads tokens endByte index [] _ _ := reads_marks stmt.front [.semicolon] hwell h
  have hsemi : At tokens endByte (index + (kindsOf stmt.front).length) [.semicolon] := by
    rw [kindsOf_append] at h
    exact h.append.2
  unfold findStatementSemicolon
  cases hrun : runMarks stmt.front [] with
  | none =>
      rw [hrun] at hreads
      constructor
      · intro hfound
        have := hreads _ hfound
        omega
      · intro hrun
        cases hrun
  | some stack =>
      rw [hrun] at hreads
      have hstep : findStatementSemicolonLoop tokens endByte index []
          = findStatementSemicolonLoop tokens endByte (index + (kindsOf stmt.front).length) stack :=
        hreads
      rw [hstep, findStatementSemicolonLoop_token hsemi]
      by_cases hstack : stack = []
      · simp [hstack]
      · -- the semicolon is passed over, so whatever is found lies behind it
        simp only [hstack, false_and, if_false, Option.some.injEq, iff_false]
        intro hfound
        have := le_of_findStatementSemicolonLoop hfound
        have := scanToken_pos tokens (index + (kindsOf stmt.front).length) .semicolon stack
        omega

theorem tokenKindAt_of_findStatementSemicolonLoop {stack : List ConstructKind} {found : Nat}
    (h : findStatementSemicolonLoop tokens endByte index stack = some found) :
    tokenKindAt tokens found = some .semicolon := by
  fun_induction findStatementSemicolonLoop tokens endByte index stack with
  | case1 => cases h
  | case2 => cases h
  | case3 => cases h
  | case4 index stack token htoken _ _ hsemi =>
      cases h
      rw [tokenKindAt, htoken, Option.map_some, hsemi.2]
  | case5 index stack token _ _ _ _ next ih => exact ih h

/-! ## The first token of a statement -/

/-- Marks that a statement can start with. -/
def Mark.leads : Mark → Bool
  | .close _ | .closeBlock _ | .exception => false
  | _ => true

theorem kinds_of_leads {mark : Mark} (h : mark.leads = true) :
    ∃ kind rest, mark.kinds = kind :: rest ∧ kind ≠ .kwEnd ∧ kind ≠ .kwException := by
  cases mark with
  | plain kind hplain =>
      refine ⟨kind, [], rfl, ?_, ?_⟩
      · rintro rfl; cases hplain
      · rintro rfl; cases hplain
  | close bracket => cases h
  | closeBlock name => cases h
  | exception => cases h
  | «open» bracket =>
      cases bracket with
      | record lead => cases lead <;> exact ⟨_, _, rfl, by decide, by decide⟩
      | _ => exact ⟨_, _, rfl, by decide, by decide⟩
  | _ => exact ⟨_, _, rfl, by decide, by decide⟩

theorem leads_phrase_append {words : Phrase} {mark : Mark} {marks : List Mark}
    (h : mark.leads = true) :
    ∃ first rest, words.marks ++ mark :: marks = first :: rest ∧ first.leads = true := by
  cases words with
  | nil => exact ⟨mark, marks, rfl, h⟩
  | cons word words => exact ⟨word.mark, _, rfl, by cases word <;> rfl⟩

theorem Stmt.first_kind (stmt : Stmt) :
    ∃ kind rest, kindsOf stmt.marks = kind :: rest ∧ kind ≠ .kwEnd ∧ kind ≠ .kwException := by
  have hmarks : ∃ first rest, stmt.marks = first :: rest ∧ first.leads = true := by
    cases stmt <;> exact leads_phrase_append rfl
  obtain ⟨first, rest, hmarks, hleads⟩ := hmarks
  obtain ⟨kind, kinds, hkinds, hend, hexc⟩ := kinds_of_leads hleads
  refine ⟨kind, kinds ++ kindsOf rest, ?_, hend, hexc⟩
  rw [hmarks, kindsOf_cons, hkinds, List.cons_append]

theorem nextStatementToken_eq {kind : TokenKind} {kinds : List TokenKind}
    (h : At tokens endByte index (kind :: kinds)) :
    nextStatementToken tokens index endByte
      = if kind = .kwEnd ∨ kind = .kwException then none else some index := by
  obtain ⟨token, htoken, rfl, hbyte⟩ := h.1
  simp [nextStatementToken, htoken, Nat.not_le.mpr hbyte]

end

/-! ## The statements of a body -/

/-- The spans a body should get: one for each statement, from its first
token to its own semicolon. -/
def expectedSpans (tokens : List Token) (owner : StatementOwner) :
    Nat → Nat → List Stmt → List StatementSpan → List StatementSpan
  | _, _, [], statements => statements
  | cursor, indexInBlock, stmt :: stmts, statements =>
      expectedSpans tokens owner (cursor + (kindsOf stmt.marks).length) (indexInBlock + 1) stmts
        (pushStatement statements owner tokens cursor (cursor + (kindsOf stmt.front).length)
          indexInBlock)

section
variable {tokens : List Token} {endByte : Nat} {owner : StatementOwner}

/-- The span of the tokens `startIndex` to `endIndex`. -/
theorem pushStatement_eq (owner : StatementOwner) {startIndex endIndex : Nat}
    {start stop : Token}
    (hstart : tokens[startIndex]? = some start) (hstop : tokens[endIndex]? = some stop)
    (statements : List StatementSpan) (indexInBlock : Nat) :
    ∃ span, pushStatement statements owner tokens startIndex endIndex indexInBlock
      = statements ++ [span] ∧ span.endByteOffset = stop.textSpan.stop := by
  simp only [pushStatement, hstart, hstop]
  exact ⟨_, rfl, rfl⟩

theorem prefix_pushStatement (statements : List StatementSpan)
    (startIndex endIndex indexInBlock : Nat) :
    statements <+: pushStatement statements owner tokens startIndex endIndex indexInBlock := by
  unfold pushStatement
  split
  · exact List.prefix_append _ _
  · exact List.prefix_rfl

theorem prefix_collectStatementsLoop (cursor indexInBlock : Nat)
    (statements : List StatementSpan) :
    statements <+: collectStatementsLoop tokens endByte owner cursor indexInBlock statements := by
  fun_induction collectStatementsLoop tokens endByte owner cursor indexInBlock statements with
  | case1 => exact List.prefix_rfl
  | case2 => exact List.prefix_rfl
  | case3 _ _ _ _ _ _ _ ih => exact (prefix_pushStatement _ _ _ _).trans ih

theorem prefix_expectedSpans (stmts : List Stmt) (cursor indexInBlock : Nat)
    (statements : List StatementSpan) :
    statements <+: expectedSpans tokens owner cursor indexInBlock stmts statements := by
  induction stmts generalizing cursor indexInBlock statements with
  | nil => exact List.prefix_rfl
  | cons stmt stmts ih => exact (prefix_pushStatement _ _ _ _).trans (ih _ _ _)

theorem exists_of_tokenKindAt {index : Nat} {kind : TokenKind}
    (h : tokenKindAt tokens index = some kind) :
    ∃ token, tokens[index]? = some token ∧ token.effectiveKind = kind :=
  Option.map_eq_some_iff.mp h

theorem collectStatementsLoop_next {cursor : Nat}
    (hnext : nextStatementToken tokens cursor endByte = some cursor) (indexInBlock : Nat)
    (statements : List StatementSpan) :
    collectStatementsLoop tokens endByte owner cursor indexInBlock statements
      = match findStatementSemicolon tokens cursor endByte with
        | none => statements
        | some endIndex => collectStatementsLoop tokens endByte owner (endIndex + 1)
            (indexInBlock + 1)
            (pushStatement statements owner tokens cursor endIndex indexInBlock) := by
  rw [collectStatementsLoop]
  split
  · rename_i hnone
    rw [hnext] at hnone
    cases hnone
  · rename_i startIndex hstart
    obtain rfl : cursor = startIndex := Option.some.inj (hnext.symm.trans hstart)
    split
    · rename_i hnone
      rw [hnone]
    · rename_i endIndex hend
      rw [hend]

/-- A statement that is scanned wrong leaves its span out or wrong. -/
theorem collectStatementsLoop_ne (hpos : Positioned tokens) {stmt : Stmt} (stmts : List Stmt)
    {cursor : Nat} (h : At tokens endByte cursor (kindsOf stmt.marks))
    (hsep : ¬ stmt.separable = true) (indexInBlock : Nat) (statements : List StatementSpan) :
    collectStatementsLoop tokens endByte owner cursor indexInBlock statements
      ≠ expectedSpans tokens owner cursor indexInBlock (stmt :: stmts) statements := by
  obtain ⟨kind, rest, hkinds, hend, hexc⟩ := stmt.first_kind
  have hfirst : At tokens endByte cursor (kind :: rest) := hkinds ▸ h
  obtain ⟨start, hstart, -⟩ := hfirst.1
  have hsemi : tokenKindAt tokens (cursor + (kindsOf stmt.front).length) = some .semicolon := by
    rw [stmt.marks_eq_front, kindsOf_append] at h
    exact h.append.2.tokenKindAt
  obtain ⟨own, hown, hownKind⟩ := exists_of_tokenKindAt hsemi
  obtain ⟨span, hpush, hspan⟩ := pushStatement_eq owner hstart hown statements indexInBlock
  have hexpected : statements ++ [span]
      <+: expectedSpans tokens owner cursor indexInBlock (stmt :: stmts) statements := by
    rw [← hpush]
    exact prefix_expectedSpans stmts _ _ _
  have hnext : nextStatementToken tokens cursor endByte = some cursor := by
    rw [nextStatementToken_eq hfirst, if_neg (by simp [hend, hexc])]
  intro heq
  rw [← heq, collectStatementsLoop_next hnext] at hexpected
  -- Without a semicolon a span is missing; behind another one the first span ends elsewhere.
  cases hfind : findStatementSemicolon tokens cursor endByte with
  | none =>
      rw [hfind] at hexpected
      have := hexpected.length_le
      simp only [List.length_append, List.length_singleton] at this
      omega
  | some found =>
      obtain ⟨semi, hsemi, hsemiKind⟩ :=
        exists_of_tokenKindAt (tokenKindAt_of_findStatementSemicolonLoop hfind)
      obtain ⟨span', hpush', hspan'⟩ := pushStatement_eq owner hstart hsemi statements indexInBlock
      have hfound : statements ++ [span'] <+: collectStatementsLoop tokens endByte owner
          (found + 1) (indexInBlock + 1) (statements ++ [span']) :=
        prefix_collectStatementsLoop _ _ _
      rw [hfind] at hexpected
      simp only [hpush'] at hexpected
      have hsame : statements ++ [span] = statements ++ [span'] :=
        (List.prefix_of_prefix_length_le hexpected hfound (by simp)).eq_of_length (by simp)
      have hspans : span = span' := by simpa using hsame
      have hstop : semi.textSpan.stop = own.textSpan.stop := by
        rw [← hspan', ← hspan, hspans]
      have hindex : found = cursor + (kindsOf stmt.front).length :=
        hpos.eq_of_stop hsemi hown (by simp [hsemiKind]) (by simp [hownKind]) hstop
      rw [hindex] at hfind
      exact hsep ((findStatementSemicolon_iff stmt h).mp hfind)

/-- The loop over the statements of a body. -/
theorem collectStatementsLoop_iff (hpos : Positioned tokens) {terminator : TokenKind}
    (hterm : terminator = .kwEnd ∨ terminator = .kwException) (stmts : List Stmt) {cursor : Nat}
    (h : At tokens endByte cursor (kindsOf (stmts.flatMap Stmt.marks) ++ [terminator]))
    (indexInBlock : Nat) (statements : List StatementSpan) :
    collectStatementsLoop tokens endByte owner cursor indexInBlock statements
        = expectedSpans tokens owner cursor indexInBlock stmts statements ↔
      ∀ stmt ∈ stmts, stmt.separable = true := by
  induction stmts generalizing cursor indexInBlock statements with
  | nil =>
      have hnone : nextStatementToken tokens cursor endByte = none := by
        rw [nextStatementToken_eq h, if_pos hterm]
      rw [collectStatementsLoop]
      split
      · simp [expectedSpans]
      · rename_i hsome
        rw [hnone] at hsome
        cases hsome
  | cons stmt stmts ih =>
      rw [List.flatMap_cons, kindsOf_append, List.append_assoc] at h
      obtain ⟨hstmt, hrest⟩ := h.append
      -- a separable statement is collected, and the loop goes on behind it
      by_cases hsep : stmt.separable = true
      · obtain ⟨kind, rest, hkinds, hend, hexc⟩ := stmt.first_kind
        have hfirst : At tokens endByte cursor (kind :: rest) := hkinds ▸ hstmt
        have hnext : nextStatementToken tokens cursor endByte = some cursor := by
          rw [nextStatementToken_eq hfirst, if_neg (by simp [hend, hexc])]
        have hwidth : (kindsOf stmt.marks).length = (kindsOf stmt.front).length + 1 := by
          rw [stmt.marks_eq_front, kindsOf_append, List.length_append]
          rfl
        rw [collectStatementsLoop_next hnext, (findStatementSemicolon_iff stmt hstmt).mpr hsep]
        rw [hwidth, ← Nat.add_assoc] at hrest
        simp only [expectedSpans, hwidth, ← Nat.add_assoc, ih hrest, List.forall_mem_cons, hsep,
          true_and]
      · constructor
        · intro heq
          exact absurd heq (collectStatementsLoop_ne hpos stmts hstmt hsep _ _)
        · intro hall
          exact absurd (hall stmt List.mem_cons_self) hsep

end

theorem Stmts.marks_eq_flatMap (stmts : Stmts) :
    stmts.marks = stmts.toList.flatMap Stmt.marks := by
  match stmts with
  | .nil => rfl
  | .cons stmt rest =>
      rw [Stmts.marks, Stmts.toList, List.flatMap_cons, Stmts.marks_eq_flatMap rest]

/-- A body whose statements stand behind `beginIndex` gets exactly the spans
of its statements if and only if none of them holds a conditional expression
and no block among them is broken. -/
theorem collectBodyStatements_exact_iff {tokens : List Token} {bodySpan : Span}
    {beginSearchStart beginIndex : Nat} {terminator : TokenKind} (body : Stmts)
    (owner : StatementOwner) (statements : List StatementSpan) (hpos : Positioned tokens)
    (hbegin : findTokenInSpan tokens beginSearchStart bodySpan.endByte .kwBegin = some beginIndex)
    (hbody : At tokens bodySpan.endByte (beginIndex + 1) (kindsOf body.marks ++ [terminator]))
    (hterm : terminator = .kwEnd ∨ terminator = .kwException) :
    collectBodyStatements tokens bodySpan beginSearchStart owner statements
        = expectedSpans tokens owner (beginIndex + 1) 0 body.toList statements ↔
      ∀ stmt ∈ body.toList, stmt.separable = true := by
  rw [body.marks_eq_flatMap] at hbody
  rw [collectBodyStatements, hbegin]
  exact collectStatementsLoop_iff hpos hterm body.toList hbody 0 statements

/-! ## Two bodies -/

/-- `X : T;` -/
def objectDecl : Decl :=
  .plain [identifierWord "x", colonWord, identifierWord "t"]

/-- `procedure Q is begin null; end Q;` -/
def procedureBody : Decl :=
  .unitBody [[procedureWord, identifierWord "q", isWord]] .nil
    (.cons nullStatement .nil) .nil ["q"]

/-- `declare X : T; begin null; end;` -/
def plainBlock : Stmt :=
  .declareBlock [] (.cons objectDecl .nil) (.cons nullStatement .nil) .nil []

/-- `declare procedure Q is begin null; end Q; X : T; begin null; end;` -/
def nestedBlock : Stmt :=
  .declareBlock [] (.cons procedureBody (.cons objectDecl .nil)) (.cons nullStatement .nil) .nil []

/-- `begin`, the statements, `end P;` -/
def bodyTokens (body : Stmts) : List Token :=
  tokenLine 0 ([.kwBegin] ++ (kindsOf body.marks ++ [.kwEnd] ++ [.identifier "p", .semicolon]))

theorem at_bodyTokens (body : Stmts) {endByte : Nat}
    (h : 1 + (kindsOf body.marks ++ [TokenKind.kwEnd]).length ≤ endByte) :
    At (bodyTokens body) endByte (0 + 1) (kindsOf body.marks ++ [.kwEnd]) := by
  have hat : At (bodyTokens body) endByte [TokenKind.kwBegin].length
      (kindsOf body.marks ++ [.kwEnd]) := at_tokenLine h
  exact hat

/-- `null;` and a block without nested bodies. -/
def plainBody : Stmts := .cons nullStatement (.cons plainBlock .nil)

theorem collectBodyStatements_exact_plain :
    collectBodyStatements (bodyTokens plainBody) ⟨0, 16, 1, 1⟩ 0 (.subprogram 0) []
      = expectedSpans (bodyTokens plainBody) (.subprogram 0) 1 0
        [nullStatement, plainBlock] [] := by
  have hbegin : findTokenInSpan (bodyTokens plainBody) 0 (Span.mk 0 16 1 1).endByte .kwBegin
      = some 0 := by decide
  have h := collectBodyStatements_exact_iff plainBody (.subprogram 0) []
    (positioned_tokenLine 0 _ : Positioned (bodyTokens plainBody)) hbegin
    (at_bodyTokens plainBody (by decide)) (.inl rfl)
  exact h.mpr (by decide)

/-- Three spans for one statement, the second one in its declarative part. -/
theorem collectBodyStatements_nested_not_exact :
    (collectBodyStatements (bodyTokens (.cons nestedBlock .nil)) ⟨0, 22, 1, 1⟩ 0
        (.subprogram 0) []).map (fun span => (span.fileByteOffset, span.endByteOffset))
      = [(1, 11), (11, 15), (15, 20)] ∧
    (expectedSpans (bodyTokens (.cons nestedBlock .nil)) (.subprogram 0) 1 0
        [nestedBlock] []).map (fun span => (span.fileByteOffset, span.endByteOffset))
      = [(1, 20)] := by
  constructor
  · decide +kernel
  · decide

end GovFuzz.AdaParser
