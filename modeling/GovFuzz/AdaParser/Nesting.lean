import GovFuzz.AdaParser.Brackets
import GovFuzz.AdaParser.Handlers

/-!
# Ada parser — the handler scans on marks

Both scans of `handler.rs` keep the depth as `observe` does and stop at depth
0.  What they have in common is `Steps`; on marks it is `runDepth`.
-/

namespace GovFuzz.AdaParser

/-- The brackets `NestingDepth` counts. -/
def caseOrSelect : Bracket → Bool
  | .case | .select => true
  | _ => false

/-- The scans look for one of these. -/
def TokenKind.isTarget : TokenKind → Bool
  | .kwWhen | .kwException => true
  | _ => false

/-- Tokens no scan reacts to. -/
def TokenKind.isQuiet : TokenKind → Bool
  | .kwCase | .kwSelect | .kwEnd | .kwWhen | .kwException => false
  | _ => true

/-- At `index`, the scan `f` stops with `halt` or observes the token. -/
def Steps {α : Type} (target : TokenKind) (tokens : List Token) (halt : Nat → α)
    (f : Nat → Nat → α) (index : Nat) : Prop :=
  ∀ depth, f index depth =
    if depth = 0 ∧ (kindAt tokens index target ∨
        (kindAt tokens index .kwEnd ∧ isHandlerBlockEnd tokens index)) then halt index
    else f (observe tokens index depth).2 (observe tokens index depth).1

/-- The same at each of `width` tokens. -/
abbrev StepsOver {α : Type} (target : TokenKind) (tokens : List Token) (halt : Nat → α)
    (f : Nat → Nat → α) (index width : Nat) : Prop :=
  ∀ k, index ≤ k → k < index + width → Steps target tokens halt f k

section
variable {α : Type} {target : TokenKind} {tokens : List Token} {halt : Nat → α}
  {f : Nat → Nat → α} {limit index : Nat}

/-! ## One token -/

theorem observe_of_ne {kind : TokenKind} (hkind : tokenKindAt tokens index = some kind)
    (hcase : kind ≠ .kwCase) (hselect : kind ≠ .kwSelect) (hend : kind ≠ .kwEnd) (depth : Nat) :
    observe tokens index depth = (depth, index + 1) := by
  unfold observe
  rw [hkind]
  cases kind <;> simp at hcase hselect hend <;> rfl

/-- A word: it may be what the scan looks for. -/
theorem Steps.plain {kind : TokenKind} (hstep : Steps target tokens halt f index)
    (hplain : kind.isPlain = true) (hkind : tokenKindAt tokens index = some kind) (depth : Nat) :
    f index depth = if depth = 0 ∧ kind = target then halt index else f (index + 1) depth := by
  have hcase : kind ≠ .kwCase := by rintro rfl; cases hplain
  have hselect : kind ≠ .kwSelect := by rintro rfl; cases hplain
  have hend : kind ≠ .kwEnd := by rintro rfl; cases hplain
  rw [hstep depth, observe_of_ne hkind hcase hselect hend]
  simp [kindAt, hkind, hend]

theorem Steps.quiet {kind : TokenKind} (hstep : Steps target tokens halt f index)
    (htarget : target.isTarget = true) (hquiet : kind.isQuiet = true)
    (hkind : tokenKindAt tokens index = some kind) (depth : Nat) :
    f index depth = f (index + 1) depth := by
  have hcase : kind ≠ .kwCase := by rintro rfl; cases hquiet
  have hselect : kind ≠ .kwSelect := by rintro rfl; cases hquiet
  have hend : kind ≠ .kwEnd := by rintro rfl; cases hquiet
  have hne : kind ≠ target := by
    rintro rfl
    cases kind <;> simp [TokenKind.isQuiet, TokenKind.isTarget] at hquiet htarget
  rw [hstep depth, observe_of_ne hkind hcase hselect hend]
  simp [kindAt, hkind, hend, hne]

/-- Behind an `end` stands the keyword of a bracket, a name or a semicolon. -/
theorem Steps.end {kind : TokenKind} (hstep : Steps target tokens halt f index)
    (htarget : target.isTarget = true) (hkind : tokenKindAt tokens index = some .kwEnd)
    (hnext : tokenKindAt tokens (index + 1) = some kind) (depth : Nat) :
    f index depth =
      if depth = 0 ∧ isHandlerBlockEnd tokens index then halt index
      else if kind = .kwCase ∨ kind = .kwSelect then f (index + 2) (depth - 1)
      else f (index + 1) depth := by
  have hne : TokenKind.kwEnd ≠ target := by rintro rfl; cases htarget
  have hobserve : observe tokens index depth
      = if kind = .kwCase ∨ kind = .kwSelect then (depth - 1, index + 2)
        else (depth, index + 1) := by
    unfold observe
    rw [hkind, hnext]
    cases kind <;> simp
  rw [hstep depth, hobserve]
  simp only [kindAt, hkind, Option.some.injEq, hne, decide_false, decide_true, Bool.false_eq_true,
    true_and, false_or]
  split
  · rfl
  · split
    · rfl
    · rfl

/-! ## One mark -/

theorem StepsOver.head {width : Nat} (h : StepsOver target tokens halt f index (width + 1)) :
    Steps target tokens halt f index := h index (Nat.le_refl _) (by omega)

theorem StepsOver.tail {width : Nat} (h : StepsOver target tokens halt f index (width + 1)) :
    StepsOver target tokens halt f (index + 1) width :=
  fun k hle hlt => h k (by omega) (by omega)

theorem StepsOver.quiet {kinds : List TokenKind}
    (hsteps : StepsOver target tokens halt f index kinds.length)
    (htarget : target.isTarget = true) (hquiet : ∀ kind ∈ kinds, kind.isQuiet = true)
    (h : At tokens limit index kinds) (depth : Nat) :
    f index depth = f (index + kinds.length) depth := by
  induction kinds generalizing index with
  | nil => rfl
  | cons kind kinds ih =>
      rw [hsteps.head.quiet htarget (hquiet kind List.mem_cons_self) h.tokenKindAt,
        ih hsteps.tail (fun k hk => hquiet k (List.mem_cons_of_mem _ hk)) h.2, List.length_cons,
        Nat.add_comm kinds.length, Nat.add_assoc]

theorem isQuiet_of_isNamePart {kind : TokenKind} (h : kind.isNamePart = true) :
    kind.isQuiet = true := by
  cases kind <;> first | rfl | cases h

/-- The end of a block halts the scan at depth zero, and leaves the depth elsewhere. -/
theorem scan_closeBlock (htarget : target.isTarget = true) (name : List String)
    (h : At tokens limit index ((Mark.closeBlock name).kinds ++ [.semicolon]))
    (hsteps : StepsOver target tokens halt f index (Mark.closeBlock name).kinds.length)
    (depth : Nat) :
    f index depth = if depth = 0 then halt index
      else f (index + (Mark.closeBlock name).kinds.length) depth := by
  have hnames : At tokens limit (index + 1) (nameKinds name ++ [.semicolon]) := h.2
  obtain ⟨kind, hnext, hkind⟩ : ∃ kind, tokenKindAt tokens (index + 1) = some kind ∧
      (kind.isNamePart = true ∨ kind = .semicolon) := by
    cases name with
    | nil => exact ⟨.semicolon, hnames.tokenKindAt, .inr rfl⟩
    | cons first rest => exact ⟨.identifier first, hnames.tokenKindAt, .inl rfl⟩
  have hblock : isHandlerBlockEnd tokens index = true := by
    unfold isHandlerBlockEnd
    rw [hnext]
    cases kind <;> simp [TokenKind.isNamePart] at hkind <;> rfl
  have hcase : ¬ (kind = .kwCase ∨ kind = .kwSelect) := by
    cases kind <;> simp [TokenKind.isNamePart] at hkind <;> simp
  rw [StepsOver.head hsteps |>.end htarget h.tokenKindAt hnext, hblock, if_neg hcase]
  simp only [and_true]
  split
  · rfl
  · have hquiet : ∀ kind ∈ nameKinds name, kind.isQuiet = true :=
      fun kind hkind => isQuiet_of_isNamePart (isNamePart_of_mem_nameKinds hkind)
    rw [StepsOver.quiet hsteps.tail htarget hquiet hnames.append.1, Mark.kinds, List.length_cons,
      Nat.add_comm (nameKinds name).length, Nat.add_assoc]

theorem scan_close (htarget : target.isTarget = true) (bracket : Bracket)
    (h : At tokens limit index [.kwEnd, bracket.keyword])
    (hsteps : StepsOver target tokens halt f index 2) (depth : Nat) :
    f index depth = f (index + 2) ((Mark.close bracket).shift caseOrSelect depth) := by
  have hnext : tokenKindAt tokens (index + 1) = some bracket.keyword := h.2.tokenKindAt
  have hblock : isHandlerBlockEnd tokens index = false := by
    unfold isHandlerBlockEnd
    rw [hnext]
    cases bracket <;> rfl
  rw [StepsOver.head hsteps |>.end htarget h.tokenKindAt hnext, hblock,
    if_neg (fun h => Bool.false_ne_true h.2), Mark.shift]
  by_cases hcounted : caseOrSelect bracket = true
  · rw [if_pos hcounted, if_pos]
    cases bracket <;> simp [caseOrSelect, Bracket.keyword] at hcounted ⊢
  · -- the keyword is then passed as a token of its own
    have hquiet : bracket.keyword.isQuiet = true := by
      cases bracket <;> simp [caseOrSelect] at hcounted <;> rfl
    rw [if_neg hcounted, if_neg, hsteps.tail.head.quiet htarget hquiet hnext]
    rintro (hkeyword | hkeyword) <;> rw [hkeyword] at hquiet <;> cases hquiet

theorem openKinds_isQuiet {bracket : Bracket} (h : caseOrSelect bracket = false) :
    ∀ kind ∈ bracket.openKinds, kind.isQuiet = true := by
  have hall : bracket.openKinds.all TokenKind.isQuiet = true := by
    cases bracket with
    | record lead => cases lead <;> rfl
    | case => cases h
    | select => cases h
    | _ => rfl
  exact List.all_eq_true.mp hall

theorem scan_open (htarget : target.isTarget = true) (bracket : Bracket)
    (h : At tokens limit index bracket.openKinds)
    (hsteps : StepsOver target tokens halt f index bracket.openKinds.length) (depth : Nat) :
    f index depth
      = f (index + bracket.openKinds.length) ((Mark.open bracket).shift caseOrSelect depth) := by
  by_cases hcounted : caseOrSelect bracket = true
  · have hkinds : bracket.openKinds = [bracket.keyword] := by
      cases bracket <;> first | rfl | cases hcounted
    rw [hkinds] at h hsteps
    have hkind : tokenKindAt tokens index = some bracket.keyword := h.tokenKindAt
    have hobserve : observe tokens index depth = (depth + 1, index + 1) := by
      unfold observe
      rw [hkind]
      cases bracket <;> first | rfl | cases hcounted
    have hne : bracket.keyword ≠ target := by
      rintro rfl
      cases bracket <;> cases htarget
    have hend : bracket.keyword ≠ .kwEnd := by cases bracket <;> simp [Bracket.keyword]
    rw [StepsOver.head hsteps depth, hobserve, hkinds, Mark.shift, if_pos hcounted]
    simp [kindAt, hkind, hne, hend]
  · rw [Bool.not_eq_true] at hcounted
    rw [StepsOver.quiet hsteps htarget (openKinds_isQuiet hcounted) h, Mark.shift, hcounted,
      if_neg Bool.false_ne_true]

/-- The scan steps over one mark, or halts at it where it is the target at depth zero. -/
theorem scan_mark (htarget : target.isTarget = true) (mark : Mark)
    (h : At tokens limit index (mark.kinds ++ mark.lookahead))
    (hsteps : StepsOver target tokens halt f index mark.kinds.length) (depth : Nat) :
    f index depth = if depth = 0 ∧ mark.stops target then halt index
      else f (index + mark.kinds.length) (mark.shift caseOrSelect depth) := by
  -- a single keyword that is neither counted nor looked for
  have hsingle : ∀ kind, kind.isQuiet = true → mark.kinds = [kind] →
      f index depth = f (index + mark.kinds.length) depth := by
    intro kind hquiet hkinds
    rw [hkinds] at h hsteps ⊢
    exact StepsOver.head hsteps |>.quiet htarget hquiet h.tokenKindAt depth
  cases mark with
  | plain kind hplain =>
      rw [StepsOver.head hsteps |>.plain hplain h.tokenKindAt]
      simp [Mark.stops, Mark.kinds, Mark.shift]
  | nullRecord =>
      have hquiet : ∀ kind ∈ Mark.nullRecord.kinds, kind.isQuiet = true := by
        simp [Mark.kinds, TokenKind.isQuiet]
      rw [StepsOver.quiet hsteps htarget hquiet h.append.1]
      simp [Mark.stops, Mark.shift]
  | semicolon => simpa [Mark.stops, Mark.shift] using hsingle .semicolon rfl rfl
  | «open» bracket =>
      rw [if_neg (by simp [Mark.stops])]
      exact scan_open htarget bracket h.append.1 hsteps depth
  | close bracket =>
      rw [if_neg (by simp [Mark.stops])]
      exact scan_close htarget bracket h.append.1 hsteps depth
  | declare => simpa [Mark.stops, Mark.shift] using hsingle .kwDeclare rfl rfl
  | begin => simpa [Mark.stops, Mark.shift] using hsingle .kwBegin rfl rfl
  | exception =>
      have hstep : Steps target tokens halt f index := StepsOver.head hsteps
      have hkind : tokenKindAt tokens index = some .kwException := h.tokenKindAt
      have hobserve : observe tokens index depth = (depth, index + 1) :=
        observe_of_ne hkind (by simp) (by simp) (by simp) depth
      have hstops : kindAt tokens index target = Mark.exception.stops target := by
        simp [kindAt, hkind, Mark.stops, eq_comm]
      rw [hstep depth, hobserve, hstops]
      simp [kindAt, hkind, Mark.kinds, Mark.shift]
  | closeBlock name =>
      rw [scan_closeBlock htarget name h hsteps]
      simp [Mark.stops, Mark.shift]

end

/-! ## `nestingScan` -/

section
variable {target : TokenKind} {tokens : List Token} {limit index : Nat}

theorem tokenStartsBefore_of_at {kind : TokenKind} {kinds : List TokenKind}
    (h : At tokens limit index (kind :: kinds)) : tokenStartsBefore tokens index limit = true := by
  obtain ⟨token, htoken, -, hbyte⟩ := h.1
  simp [tokenStartsBefore, htoken, hbyte]

theorem nestingScan_steps (h : tokenStartsBefore tokens index limit = true) :
    Steps target tokens id (nestingScan target tokens limit) index := by
  intro depth
  rw [nestingScan, dif_pos h]
  rfl

theorem At.startsBefore {kinds : List TokenKind} (h : At tokens limit index kinds) :
    ∀ k, index ≤ k → k < index + kinds.length → tokenStartsBefore tokens k limit = true := by
  induction kinds generalizing index with
  | nil =>
      intro k hle hlt
      rw [List.length_nil] at hlt
      omega
  | cons kind kinds ih =>
      intro k hle hlt
      rw [List.length_cons] at hlt
      rcases Nat.eq_or_lt_of_le hle with rfl | hlt'
      · exact tokenStartsBefore_of_at h
      · exact ih h.2 k hlt' (by omega)

theorem nestingScan_mark (htarget : target.isTarget = true) (mark : Mark)
    (h : At tokens limit index (mark.kinds ++ mark.lookahead)) (depth : Nat) :
    nestingScan target tokens limit index depth =
      if depth = 0 ∧ mark.stops target then index
      else nestingScan target tokens limit (index + mark.kinds.length)
        (mark.shift caseOrSelect depth) :=
  scan_mark htarget mark h
    (fun k hle hlt => nestingScan_steps (h.append.1.startsBefore k hle hlt)) depth

/-- Marks the scan does not stop among. -/
theorem nestingScan_marks (htarget : target.isTarget = true) (marks rest : List Mark)
    (hwell : WellPlaced (marks ++ rest)) (h : At tokens limit index (kindsOf (marks ++ rest)))
    {depth depth' : Nat} (hrun : runDepth caseOrSelect target marks depth = some depth') :
    nestingScan target tokens limit index depth
      = nestingScan target tokens limit (index + (kindsOf marks).length) depth' := by
  induction marks generalizing index depth with
  | nil =>
      cases hrun
      rfl
  | cons mark marks ih =>
      have hmark := nestingScan_mark htarget mark (At.lookahead hwell h) depth
      rw [runDepth] at hrun
      split at hrun
      · cases hrun
      · rename_i hgo
        rw [List.cons_append, kindsOf_cons] at h
        rw [hmark, if_neg hgo, ih hwell.tail h.append.2 hrun, kindsOf_cons, List.length_append,
          Nat.add_assoc]

/-- Where a run that stops does so. -/
theorem exists_stop_of_runDepth {counted : Bracket → Bool} {marks : List Mark} {depth : Nat}
    (h : runDepth counted target marks depth = none) :
    ∃ front mark behind, marks = front ++ mark :: behind ∧
      runDepth counted target front depth = some 0 ∧ mark.stops target = true := by
  induction marks generalizing depth with
  | nil => cases h
  | cons mark marks ih =>
      rw [runDepth] at h
      split at h
      · rename_i hstop
        exact ⟨[], mark, marks, rfl, by rw [runDepth, hstop.1], hstop.2⟩
      · rename_i hgo
        obtain ⟨front, mark', behind, rfl, hfront, hstops⟩ := ih h
        refine ⟨mark :: front, mark', behind, rfl, ?_, hstops⟩
        rw [runDepth, if_neg hgo]
        exact hfront

end

end GovFuzz.AdaParser
