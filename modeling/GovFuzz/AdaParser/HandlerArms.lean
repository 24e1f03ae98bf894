import GovFuzz.AdaParser.Names
import GovFuzz.AdaParser.Pieces

/-!
# Ada parser — one arm of an exception part

`parse_handler_arm` reads the choices up to the arrow and takes everything up
to the next `when` or block `end` at depth 0 for the statements of the arm.
-/

namespace GovFuzz.AdaParser

/-! ## What an arm says -/

def ArmChoice.parts : ArmChoice → Name
  | .others => ["others"]
  | .name first rest => first :: rest

def ArmLead.choices (lead : ArmLead) : List Name := (lead.first :: lead.rest).map ArmChoice.parts

def ArmChoice.kinds : ArmChoice → List TokenKind
  | .others => [.kwOthers]
  | .name first rest => nameKinds (first :: rest)

def ArmLead.bindingKinds (lead : ArmLead) : List TokenKind :=
  match lead.binding with
  | some name => [.identifier name, .colon]
  | none => []

def restKinds (choices : List ArmChoice) : List TokenKind :=
  choices.flatMap fun choice => .error "|" :: choice.kinds

theorem kindsOf_selectorWords (names : List String) :
    kindsOf (selectorWords names).marks = selectorKinds names := by
  induction names with
  | nil => rfl
  | cons name names ih =>
      show .dot :: .identifier name :: kindsOf (selectorWords names).marks = _
      rw [ih]
      rfl

theorem kindsOf_choiceWords (choice : ArmChoice) : kindsOf choice.words.marks = choice.kinds := by
  cases choice with
  | others => rfl
  | name first rest =>
      show .identifier first :: kindsOf (selectorWords rest).marks = _
      rw [kindsOf_selectorWords]
      rfl

theorem kindsOf_phrase_append (a b : Phrase) :
    kindsOf (Phrase.marks (a ++ b)) = kindsOf a.marks ++ kindsOf b.marks := by
  rw [Phrase.marks, List.map_append, kindsOf_append]
  rfl

theorem kindsOf_restWords (choices : List ArmChoice) :
    kindsOf (Phrase.marks (choices.flatMap fun choice => barWord :: choice.words))
      = restKinds choices := by
  induction choices with
  | nil => rfl
  | cons choice choices ih =>
      rw [List.flatMap_cons, kindsOf_phrase_append, ih]
      show .error "|" :: kindsOf choice.words.marks ++ _ = _
      rw [kindsOf_choiceWords]
      rfl

theorem kindsOf_lead (lead : ArmLead) :
    kindsOf lead.words.marks = .kwWhen :: (lead.bindingKinds ++ (lead.first.kinds ++
      restKinds lead.rest) ++ [.arrow]) := by
  obtain ⟨binding, first, rest⟩ := lead
  rw [ArmLead.words, kindsOf_phrase_append, kindsOf_phrase_append, kindsOf_phrase_append,
    kindsOf_restWords, kindsOf_choiceWords, ← List.append_assoc]
  cases binding with
  | none => rfl
  | some name => rfl

/-! ## Reading it -/

section
variable {tokens : List Token} {limit index : Nat}

/-- `find_arrow` passes these. -/
def TokenKind.isArrowless : TokenKind → Bool
  | .arrow | .kwWhen | .kwEnd => false
  | _ => true

theorem findArrow_pass {kinds : List TokenKind} (hkinds : ∀ kind ∈ kinds, kind.isArrowless = true)
    (h : At tokens limit index kinds) :
    findArrow tokens index limit = findArrow tokens (index + kinds.length) limit := by
  induction kinds generalizing index with
  | nil => rfl
  | cons kind kinds ih =>
      have hkind := hkinds kind List.mem_cons_self
      rw [findArrow, dif_pos (tokenStartsBefore_of_at h), h.tokenKindAt, List.length_cons,
        Nat.add_comm kinds.length, ← Nat.add_assoc,
        ← ih (fun k hk => hkinds k (List.mem_cons_of_mem _ hk)) h.2]
      cases kind <;> first | rfl | cases hkind

theorem findArrow_arrow {kinds : List TokenKind} (h : At tokens limit index (.arrow :: kinds)) :
    findArrow tokens index limit = some index := by
  rw [findArrow, dif_pos (tokenStartsBefore_of_at h), h.tokenKindAt]

theorem findArrow_none {kind : TokenKind} {kinds : List TokenKind}
    (hkind : kind = .kwWhen ∨ kind = .kwEnd) (h : At tokens limit index (kind :: kinds)) :
    findArrow tokens index limit = none := by
  rw [findArrow, dif_pos (tokenStartsBefore_of_at h), h.tokenKindAt]
  rcases hkind with rfl | rfl <;> rfl

theorem choiceKinds_isArrowless (choice : ArmChoice) :
    ∀ kind ∈ choice.kinds, kind.isArrowless = true := by
  intro kind hkind
  cases choice with
  | others =>
      rw [ArmChoice.kinds, List.mem_singleton] at hkind
      rw [hkind]
      rfl
  | name first rest =>
      rw [ArmChoice.kinds] at hkind
      have hpart := isNamePart_of_mem_nameKinds hkind
      cases kind <;> first | rfl | cases hpart

/-- Between `when` and the arrow. -/
theorem leadKinds_isArrowless (lead : ArmLead) :
    ∀ kind ∈ lead.bindingKinds ++ (lead.first.kinds ++ restKinds lead.rest),
      kind.isArrowless = true := by
  intro kind hkind
  simp only [restKinds, List.mem_append, List.mem_flatMap, List.mem_cons] at hkind
  rcases hkind with hbinding | hfirst | ⟨choice, -, rfl | hchoice⟩
  · unfold ArmLead.bindingKinds at hbinding
    split at hbinding
    · rw [List.mem_cons, List.mem_singleton] at hbinding
      rcases hbinding with rfl | rfl <;> rfl
    · cases hbinding
  · exact choiceKinds_isArrowless lead.first kind hfirst
  · rfl
  · exact choiceKinds_isArrowless choice kind hchoice

/-- One choice, in front of a token that does not continue it. -/
theorem parseChoicesLoop_choice (choice : ArmChoice) {next : TokenKind} (hnext : next ≠ .dot)
    {arrowIndex : Nat} (h : At tokens limit index (choice.kinds ++ [next]))
    (hlt : index < arrowIndex) (choices : List Name) :
    parseChoicesLoop tokens index arrowIndex choices
      = parseChoicesLoop tokens (index + choice.kinds.length) arrowIndex
        (choices ++ [choice.parts]) := by
  cases choice with
  | others =>
      rw [parseChoicesLoop, dif_pos hlt, h.tokenKindAt]
      rfl
  | name first rest =>
      have hname := parseDottedName_nameKinds first rest hnext h
      have hkind : tokenKindAt tokens index = some (.identifier first) := h.tokenKindAt
      rw [parseChoicesLoop, dif_pos hlt, hkind]
      simp only
      split
      · rename_i found after hfound
        rw [hname, Option.some.injEq, Prod.mk.injEq] at hfound
        rw [← hfound.1, ← hfound.2]
        rfl
      · rename_i hfound
        rw [hname] at hfound
        cases hfound

theorem parseChoicesLoop_done {arrowIndex : Nat} (h : arrowIndex ≤ index) (choices : List Name) :
    parseChoicesLoop tokens index arrowIndex choices = choices := by
  rw [parseChoicesLoop, dif_neg (by omega)]

theorem ArmChoice.kinds_pos (choice : ArmChoice) : 0 < choice.kinds.length := by
  cases choice <;> simp [ArmChoice.kinds, nameKinds]

/-- A choice and those behind it. -/
theorem parseChoicesLoop_choices (first : ArmChoice) (rest : List ArmChoice) {arrowIndex : Nat}
    (h : At tokens limit index (first.kinds ++ restKinds rest ++ [.arrow]))
    (harrow : arrowIndex = index + (first.kinds ++ restKinds rest).length)
    (choices : List Name) :
    parseChoicesLoop tokens index arrowIndex choices
      = choices ++ (first :: rest).map ArmChoice.parts := by
  have hpos := first.kinds_pos
  induction rest generalizing index first choices with
  | nil =>
      simp only [restKinds, List.flatMap_nil, List.append_nil] at h harrow
      rw [parseChoicesLoop_choice first (by simp) h (by omega), parseChoicesLoop_done (by omega)]
      rfl
  | cons choice rest ih =>
      have hsplit : restKinds (choice :: rest)
          = .error "|" :: (choice.kinds ++ restKinds rest) := by
        simp [restKinds]
      rw [hsplit] at h harrow
      rw [List.length_append, List.length_cons] at harrow
      have hfirst : At tokens limit index (first.kinds ++ [.error "|"] ++
          (choice.kinds ++ restKinds rest ++ [.arrow])) := by simpa using h
      have hbar : tokenKindAt tokens (index + first.kinds.length) = some (.error "|") :=
        hfirst.append.1.append.2.tokenKindAt
      have hrest := hfirst.append.2
      rw [List.length_append, List.length_singleton, ← Nat.add_assoc] at hrest
      rw [parseChoicesLoop_choice first (by simp) hfirst.append.1 (by omega), parseChoicesLoop,
        dif_pos (by omega), hbar]
      simp only
      rw [ih choice hrest (by omega) _ choice.kinds_pos]
      simp

/-- Binding and choices of an arm. -/
theorem parseChoices_lead (lead : ArmLead) {arrowIndex : Nat}
    (h : At tokens limit index (lead.bindingKinds ++ (lead.first.kinds ++
      restKinds lead.rest) ++ [.arrow]))
    (harrow : arrowIndex = index + (lead.bindingKinds ++ (lead.first.kinds ++
      restKinds lead.rest)).length) :
    parseChoices tokens index arrowIndex = (lead.binding, lead.choices) := by
  rw [List.append_assoc] at h
  have hchoices := h.append.2
  rw [List.length_append, ← Nat.add_assoc] at harrow
  have hloop := parseChoicesLoop_choices lead.first lead.rest hchoices harrow []
  rw [List.nil_append] at hloop
  unfold parseChoices
  cases hbinding : lead.binding with
  | some name =>
      have hkinds : lead.bindingKinds = [.identifier name, .colon] := by
        simp [ArmLead.bindingKinds, hbinding]
      rw [hkinds] at h hloop
      have hname : tokenKindAt tokens index = some (.identifier name) := h.tokenKindAt
      have hcolon : tokenKindAt tokens (index + 1) = some .colon := h.2.tokenKindAt
      rw [hname]
      simp only [identifierText, kindAt, hcolon, decide_true, if_true]
      exact congrArg (some name, ·) hloop
  | none =>
      have hkinds : lead.bindingKinds = [] := by simp [ArmLead.bindingKinds, hbinding]
      rw [hkinds] at h hloop
      rw [List.length_nil, Nat.add_zero] at hloop
      -- a first choice is `others`, or a name with no colon behind it
      cases hfirst : lead.first with
      | others =>
          rw [hfirst] at h
          have hkind : tokenKindAt tokens index = some .kwOthers := h.tokenKindAt
          rw [hkind]
          simp only [identifierText]
          exact congrArg (none, ·) hloop
      | name first rest =>
          rw [hfirst] at h
          have hkind : tokenKindAt tokens index = some (.identifier first) := h.tokenKindAt
          have hcolon : kindAt tokens (index + 1) .colon = false := by
            have hnext : At tokens limit (index + 1) (selectorKinds rest ++
              restKinds lead.rest ++ [.arrow]) := by simpa [ArmChoice.kinds, nameKinds] using h.2
            cases rest with
            | cons name rest => simp [kindAt, hnext.tokenKindAt]
            | nil =>
                cases hlead : lead.rest with
                | nil =>
                    rw [hlead] at hnext
                    simp [kindAt, hnext.tokenKindAt]
                | cons choice choices =>
                    rw [hlead] at hnext
                    simp [kindAt, hnext.tokenKindAt]
          rw [hkind]
          simp only [identifierText, hcolon, Bool.false_eq_true, if_false]
          exact congrArg (none, ·) hloop

end

/-! ## The end of an arm -/

/-- What a scan from depth 0 makes of marks without case expressions. -/
def Read (target : TokenKind) (marks : List Mark) (clear : Bool) : Prop :=
  runDepth caseOrSelect target marks 0 = if clear then some 0 else none

theorem Read.append {target : TokenKind} {a b : List Mark} {clearA clearB : Bool}
    (ha : Read target a clearA) (hb : Read target b clearB) :
    Read target (a ++ b) (clearA && clearB) := by
  rw [Read, runDepth_append, ha]
  cases clearA with
  | true => exact hb
  | false => rfl

theorem Read.mark (target : TokenKind) {mark : Mark} (hopens : mark.opens caseOrSelect = false)
    (hcloses : mark.closes caseOrSelect = false) : Read target [mark] (!mark.stops target) := by
  rw [Read, runDepth, shift_uncounted hopens hcloses]
  cases mark.stops target <;> rfl

theorem Read.phrase (target : TokenKind) {words : Phrase}
    (h : words.conditionals caseOrSelect = 0) : Read target words.marks (words.clear target) := by
  induction words with
  | nil => rfl
  | cons word words ih =>
      rw [Phrase.conditionals_eq_zero] at h
      have hword : word.mark.opens caseOrSelect = false := by
        have hopens : word.mark.opens caseOrSelect = word.isConditional caseOrSelect := by
          cases word <;> rfl
        rw [hopens]
        exact h word List.mem_cons_self
      have hcloses : word.mark.closes caseOrSelect = false := by cases word <;> rfl
      have hrest := ih (Phrase.conditionals_eq_zero.mpr fun w hw => h w (List.mem_cons_of_mem _ hw))
      exact (Read.mark target hword hcloses).append hrest

/-- No arm or block survives the end of a block. -/
theorem Read.block (target : TokenKind) {front : List Mark} (name : List String)
    (rest : List Mark) (h : Climbs caseOrSelect front 0) :
    Read target (front ++ .closeBlock name :: rest) false := by
  rw [Read, runDepth_append]
  rcases h target 0 with hrun | ⟨-, hrun⟩
  · rw [hrun]
    rfl
  · rw [hrun]
    rfl

mutual

/-- The search for a handler's end goes over a statement as it is written, as long as no
bracket of a case or select is left open in it. -/
theorem Stmt.read (target : TokenKind) (stmt : Stmt)
    (h : stmt.conditionals caseOrSelect = 0) : Read target stmt.marks (stmt.clear target) := by
  have hsemi : Read target [.semicolon] true := rfl
  cases stmt with
  | simple words =>
      have hread := (Read.phrase target h).append hsemi
      rwa [Bool.and_true] at hread
  | compound bracket header sections trailer =>
      rw [Stmt.conditionals] at h
      have hheader : Read target header.marks (header.clear target) :=
        Read.phrase target (by omega)
      have htrailer :=
        (Read.phrase target (by omega : trailer.conditionals caseOrSelect = 0)).append hsemi
      rw [Bool.and_true] at htrailer
      have hsections := Sections.read target sections (by omega)
      rw [Stmt.marks, Stmt.clear, Bool.and_assoc]
      refine hheader.append ?_
      cases hcounted : caseOrSelect bracket with
      | true =>
          have hformed : Formed caseOrSelect sections.marks (sections.conditionals caseOrSelect) :=
            sections.formed
          rw [Bool.true_or, Bool.true_and, Read, runDepth_bracket hcounted hformed.climbs,
            show 0 + sections.conditionals caseOrSelect = 0 by omega]
          exact htrailer
      | false =>
          have hopen : Read target [.open bracket] true := Read.mark target hcounted rfl
          have hclose : Read target [.close bracket] true := Read.mark target rfl hcounted
          rw [Bool.false_or]
          have hall := hopen.append (hsections.append (hclose.append htrailer))
          rwa [Bool.true_and, Bool.true_and] at hall
  | block label body arms name =>
      rw [Stmt.conditionals] at h
      have hfront : Formed caseOrSelect
          (label.marks ++ .begin :: (body.marks ++ arms.part)) _ :=
        (formed_phrase label).append (((body.formed).append (formed_part arms.formed)).cons .begin
          rfl rfl rfl)
      rw [show label.conditionals caseOrSelect + (body.conditionals caseOrSelect +
        arms.conditionals caseOrSelect) = 0 by omega] at hfront
      have hread := Read.block target name [.semicolon] hfront.climbs
      simpa [Stmt.marks, Stmt.clear] using hread
  | declareBlock label decls body arms name =>
      rw [Stmt.conditionals] at h
      have hfront : Formed caseOrSelect
          (label.marks ++ .declare :: (decls.marks ++ .begin :: (body.marks ++ arms.part))) _ :=
        (formed_phrase label).append ((decls.formed.append (((body.formed).append
          (formed_part arms.formed)).cons .begin rfl rfl rfl)).cons .declare rfl rfl rfl)
      rw [show label.conditionals caseOrSelect + (decls.conditionals caseOrSelect +
        (body.conditionals caseOrSelect + arms.conditionals caseOrSelect)) = 0 by omega] at hfront
      have hread := Read.block target name [.semicolon] hfront.climbs
      simpa [Stmt.marks, Stmt.clear] using hread

theorem Stmts.read (target : TokenKind) (stmts : Stmts)
    (h : stmts.conditionals caseOrSelect = 0) : Read target stmts.marks (stmts.clear target) := by
  cases stmts with
  | nil => rfl
  | cons stmt rest =>
      rw [Stmts.conditionals] at h
      exact (Stmt.read target stmt (by omega)).append (Stmts.read target rest (by omega))

theorem Sections.read (target : TokenKind) (sections : Sections)
    (h : sections.conditionals caseOrSelect = 0) :
    Read target sections.marks (sections.clear target) := by
  cases sections with
  | nil => rfl
  | cons lead body rest =>
      rw [Sections.conditionals] at h
      exact ((Read.phrase target (by omega)).append (Stmts.read target body (by omega))).append
        (Sections.read target rest (by omega))

end

/-- The statements of an arm that end where the next arm starts: no case
expression, and outside `case` and `select` no block and no `when`. -/
def Stmts.separable (body : Stmts) : Bool :=
  body.conditionals caseOrSelect = 0 && body.clear .kwWhen

theorem runDepth_separable_iff (body : Stmts) :
    runDepth caseOrSelect .kwWhen body.marks 0 = some 0 ↔ body.separable = true := by
  rw [Stmts.separable, Bool.and_eq_true, decide_eq_true_iff]
  constructor
  · intro hrun
    have hformed : Formed caseOrSelect body.marks (body.conditionals caseOrSelect) := body.formed
    have hzero : body.conditionals caseOrSelect = 0 := by
      rcases hformed.climbs .kwWhen 0 with h | ⟨-, h⟩
      · rw [hrun, Option.some.injEq] at h
        omega
      · rw [hrun] at h
        cases h
    refine ⟨hzero, ?_⟩
    have hread : Read .kwWhen body.marks (body.clear .kwWhen) := body.read .kwWhen hzero
    rw [Read, hrun] at hread
    by_contra hclear
    rw [if_neg hclear] at hread
    cases hread
  · rintro ⟨hzero, hclear⟩
    have hread : Read .kwWhen body.marks (body.clear .kwWhen) := body.read .kwWhen hzero
    rwa [Read, if_pos hclear] at hread

end GovFuzz.AdaParser
