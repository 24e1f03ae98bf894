import GovFuzz.AdaParser.HandlerArms

/-!
# Ada parser — reading an exception part

`parse_handler_block` on the arms of a body, where it is right exactly if the
statements of every arm are `separable`, and on those of a block the search
took for the body's own, where it never gets out of the block.
-/

namespace GovFuzz.AdaParser

/-! ## Scans to the end -/

section
variable {tokens : List Token} {limit index : Nat}

theorem nestingScan_done {target : TokenKind} {depth : Nat}
    (h : tokenStartsBefore tokens index limit = false) :
    nestingScan target tokens limit index depth = index := by
  rw [nestingScan, dif_neg (by simp [h])]

/-- A scan ends in front of a mark it stops at, or behind all of them. -/
theorem nestingScan_result (target : TokenKind) (htarget : target.isTarget = true)
    {marks : List Mark} (hwell : WellPlaced marks) (h : At tokens limit index (kindsOf marks))
    (hdone : tokenStartsBefore tokens (index + (kindsOf marks).length) limit = false)
    (depth : Nat) :
    ∃ front behind, marks = front ++ behind ∧
      nestingScan target tokens limit index depth = index + (kindsOf front).length ∧
      ((behind = [] ∧ (runDepth caseOrSelect target front depth).isSome) ∨
        (∃ mark rest, behind = mark :: rest ∧ mark.stops target = true) ∧
          runDepth caseOrSelect target front depth = some 0) := by
  cases hrun : runDepth caseOrSelect target marks depth with
  | some depth' =>
      refine ⟨marks, [], (List.append_nil marks).symm, ?_, .inl ⟨rfl, by rw [hrun]; rfl⟩⟩
      have hwell' : WellPlaced (marks ++ []) := by rwa [List.append_nil]
      have h' : At tokens limit index (kindsOf (marks ++ [])) := by rwa [List.append_nil]
      rw [nestingScan_marks htarget marks [] hwell' h' hrun, nestingScan_done hdone]
  | none =>
      obtain ⟨front, mark, rest, rfl, hfront, hstops⟩ := exists_stop_of_runDepth hrun
      refine ⟨front, mark :: rest, rfl, ?_, .inr ⟨⟨mark, rest, rfl, hstops⟩, hfront⟩⟩
      rw [nestingScan_marks htarget front _ hwell h hfront]
      rw [kindsOf_append] at h
      rw [nestingScan_mark htarget mark (At.lookahead hwell.of_append h.append.2),
        if_pos ⟨rfl, hstops⟩]

theorem At.length_le {kinds : List TokenKind} (h : At tokens limit index kinds)
    (hne : kinds ≠ []) : index + kinds.length ≤ tokens.length := by
  have hpos : 0 < kinds.length := List.length_pos_iff.mpr hne
  have hlast := h.startsBefore (index + (kinds.length - 1)) (by omega) (by omega)
  have := lt_of_tokenStartsBefore hlast
  omega

theorem kinds_ne_nil (mark : Mark) : mark.kinds ≠ [] := by
  cases mark with
  | «open» bracket => cases bracket <;> simp [Mark.kinds, Bracket.openKinds]
  | _ => simp [Mark.kinds]

theorem kindsOf_pos {marks : List Mark} (h : marks ≠ []) : 0 < (kindsOf marks).length := by
  cases marks with
  | nil => exact absurd rfl h
  | cons mark marks =>
      rw [kindsOf_cons, List.length_append]
      have := List.length_pos_iff.mpr (kinds_ne_nil mark)
      omega

theorem At.get {kinds : List TokenKind} (h : At tokens limit index kinds) {j : Nat}
    {kind : TokenKind} (hj : kinds[j]? = some kind) :
    ∃ token, tokens[index + j]? = some token ∧ token.effectiveKind = kind := by
  induction kinds generalizing index j with
  | nil => cases hj
  | cons first kinds ih =>
      cases j with
      | zero =>
          obtain ⟨token, htoken, hkind, -⟩ := h.1
          rw [List.getElem?_cons_zero, Option.some.injEq] at hj
          exact ⟨token, htoken, hkind.trans hj⟩
      | succ j =>
          obtain ⟨token, htoken, hkind⟩ := ih h.2 hj
          rw [Nat.add_assoc, Nat.add_comm 1] at htoken
          exact ⟨token, htoken, hkind⟩

theorem eof_not_mem_kinds (mark : Mark) : TokenKind.eof ∉ mark.kinds := by
  intro h
  cases mark with
  | plain kind hplain =>
      rw [Mark.kinds, List.mem_singleton] at h
      rw [← h] at hplain
      cases hplain
  | «open» bracket =>
      cases bracket with
      | record lead => cases lead <;> simp [Mark.kinds, Bracket.openKinds, RecordLead.kind] at h
      | _ => simp [Mark.kinds, Bracket.openKinds, Bracket.keyword] at h
  | close bracket => cases bracket <;> simp [Mark.kinds, Bracket.keyword] at h
  | closeBlock name =>
      rcases List.mem_cons.mp h with h | h
      · cases h
      · cases isNamePart_of_mem_nameKinds h
  | _ => simp [Mark.kinds] at h

/-- A token of a tree is not the end of the file. -/
theorem At.get_marks {marks : List Mark} (h : At tokens limit index (kindsOf marks)) {j : Nat}
    (hj : j < (kindsOf marks).length) :
    ∃ token, tokens[index + j]? = some token ∧ token.effectiveKind ≠ .eof := by
  obtain ⟨token, htoken, hkind⟩ := h.get (List.getElem?_eq_getElem hj)
  refine ⟨token, htoken, ?_⟩
  rw [hkind]
  intro heof
  obtain ⟨mark, -, hmem⟩ := List.mem_flatMap.mp (List.getElem_mem hj)
  exact eof_not_mem_kinds mark (heof ▸ hmem)

theorem kinds_of_stops {mark : Mark} (h : mark.stops .kwWhen = true) :
    ∃ kind kinds, mark.kinds = kind :: kinds ∧ (kind = .kwWhen ∨ kind = .kwEnd) := by
  cases mark with
  | plain kind hplain => exact ⟨kind, [], rfl, .inl (by simpa [Mark.stops] using h)⟩
  | closeBlock name => exact ⟨.kwEnd, nameKinds name, rfl, .inr rfl⟩
  | exception => simp [Mark.stops] at h
  | _ => cases h

/-! ## The statements of an arm -/

theorem findNextArmOrEnd_result {marks : List Mark} (hwell : WellPlaced marks)
    (h : At tokens limit index (kindsOf marks)) (hne : marks ≠ [])
    (hdone : tokenStartsBefore tokens (index + (kindsOf marks).length) limit = false) :
    ∃ front behind, marks = front ++ behind ∧
      findNextArmOrEnd tokens index limit = index + (kindsOf front).length ∧
      ((behind = [] ∧ (runDepth caseOrSelect .kwWhen front 0).isSome) ∨
        (∃ mark rest, behind = mark :: rest ∧ mark.stops .kwWhen = true) ∧
          runDepth caseOrSelect .kwWhen front 0 = some 0) := by
  obtain ⟨front, behind, rfl, hscan, hstop⟩ :=
    nestingScan_result .kwWhen rfl hwell h hdone 0
  refine ⟨front, behind, rfl, ?_, hstop⟩
  have hle := h.length_le (List.length_pos_iff.mp (kindsOf_pos hne))
  rw [kindsOf_append, List.length_append] at hle
  rw [findNextArmOrEnd, hscan]
  omega

/-- Two fronts of one list that are equally wide are the same. -/
theorem eq_of_kindsOf_length {a b c d : List Mark} (h : a ++ b = c ++ d)
    (hlen : (kindsOf a).length = (kindsOf c).length) : a = c := by
  rcases List.append_eq_append_iff.mp h with ⟨l, rfl, -⟩ | ⟨l, rfl, -⟩
  · rw [kindsOf_append, List.length_append] at hlen
    have hnil : l = [] := by
      by_contra hne
      have := kindsOf_pos hne
      omega
    rw [hnil, List.append_nil]
  · rw [kindsOf_append, List.length_append] at hlen
    have hnil : l = [] := by
      by_contra hne
      have := kindsOf_pos hne
      omega
    rw [hnil, List.append_nil]

/-- The statements of an arm are delimited exactly if they are `separable`. -/
theorem findNextArmOrEnd_iff {body : Stmts} {next : Mark} {after : List Mark}
    (hwell : WellPlaced (body.marks ++ next :: after))
    (h : At tokens limit index (kindsOf (body.marks ++ next :: after)))
    (hdone : tokenStartsBefore tokens
      (index + (kindsOf (body.marks ++ next :: after)).length) limit = false)
    (hnext : next.stops .kwWhen = true) :
    findNextArmOrEnd tokens index limit = index + (kindsOf body.marks).length ↔
      body.separable = true := by
  rw [← runDepth_separable_iff]
  constructor
  · intro heq
    obtain ⟨front, behind, hsplit, hfound, hstop⟩ :=
      findNextArmOrEnd_result hwell h (by simp) hdone
    have hfront : body.marks = front := by
      refine eq_of_kindsOf_length hsplit ?_
      omega
    rcases hstop with ⟨rfl, -⟩ | ⟨-, hrun⟩
    · rw [hfront, List.append_nil] at hsplit
      have := congrArg List.length hsplit
      simp at this
    · rw [hfront]
      exact hrun
  · intro hrun
    have htarget : TokenKind.kwWhen.isTarget = true := rfl
    have hscan := nestingScan_marks htarget body.marks _ hwell h hrun
    have hle := h.length_le (List.length_pos_iff.mp (kindsOf_pos (by simp)))
    rw [kindsOf_append, List.length_append] at hle
    rw [kindsOf_append] at h
    rw [nestingScan_mark rfl next (At.lookahead hwell.of_append h.append.2),
      if_pos ⟨rfl, hnext⟩] at hscan
    rw [findNextArmOrEnd, hscan]
    omega

theorem Stmts.marks_ends {body : Stmts} (h : body ≠ .nil) :
    ∃ front, body.marks = front ++ [.semicolon] := by
  match body, h with
  | .cons stmt .nil, _ => exact ⟨stmt.front, by simp [Stmts.marks, stmt.marks_eq_front]⟩
  | .cons stmt (.cons stmt' rest), _ =>
      have hne : Stmts.cons stmt' rest ≠ .nil := nofun
      obtain ⟨front, hfront⟩ := Stmts.marks_ends hne
      exact ⟨stmt.marks ++ front, by rw [Stmts.marks, hfront, List.append_assoc]⟩

theorem spanFromTokenRange_end {start : Nat} (stop : Nat) {first last : Token} (h : start < stop)
    (hfirst : tokens[start]? = some first) (hlast : tokens[stop - 1]? = some last) :
    (spanFromTokenRange tokens start stop).endByte = last.textSpan.stop := by
  simp [spanFromTokenRange, hfirst, hlast, h]

/-- The span of the statements is right only if their end is. -/
theorem bodySpan_iff (hpos : Positioned tokens) {body : Stmts} {next : Mark} {after : List Mark}
    (hwell : WellPlaced (body.marks ++ next :: after))
    (h : At tokens limit index (kindsOf (body.marks ++ next :: after)))
    (hdone : tokenStartsBefore tokens
      (index + (kindsOf (body.marks ++ next :: after)).length) limit = false)
    (hnext : next.stops .kwWhen = true) :
    spanFromTokenRange tokens index (findNextArmOrEnd tokens index limit)
        = spanFromTokenRange tokens index (index + (kindsOf body.marks).length) ↔
      body.separable = true := by
  rw [← findNextArmOrEnd_iff hwell h hdone hnext]
  constructor
  · intro hspan
    by_cases hnil : body = .nil
    · rw [findNextArmOrEnd_iff hwell h hdone hnext, hnil]
      rfl
    · obtain ⟨front', hbody⟩ := Stmts.marks_ends hnil
      obtain ⟨front, behind, hsplit, hfound, hstop⟩ :=
        findNextArmOrEnd_result hwell h (by simp) hdone
      have hwidth : (kindsOf body.marks).length = (kindsOf front').length + 1 := by
        rw [hbody, kindsOf_append, List.length_append]
        rfl
      have hsemiKind : (kindsOf (body.marks ++ next :: after))[(kindsOf front').length]?
          = some .semicolon := by
        rw [hbody, kindsOf_append, kindsOf_append, List.append_assoc,
          List.getElem?_append_right (Nat.le_refl _), Nat.sub_self]
        rfl
      obtain ⟨semi, hsemi, hsemiKind⟩ := h.get hsemiKind
      have hsemiEof : semi.effectiveKind ≠ .eof := by simp [hsemiKind]
      obtain ⟨first, hfirst, hfirstEof⟩ := h.get_marks (j := 0) (kindsOf_pos (by simp))
      rw [Nat.add_zero] at hfirst
      have hright := spanFromTokenRange_end (index + (kindsOf body.marks).length) (by omega) hfirst
        (by rwa [hwidth])
      rw [← hspan] at hright
      cases front with
      | nil =>
          -- the first token would be the last semicolon, and stop the scan
          have hleft : (spanFromTokenRange tokens index
              (findNextArmOrEnd tokens index limit)).endByte = first.textSpan.stop := by
            rw [hfound]
            simp [spanFromTokenRange, hfirst, kindsOf]
          have hsame := hpos.eq_of_stop hfirst hsemi hfirstEof hsemiEof (hleft.symm.trans hright)
          rw [← hsame, hfirst, Option.some.injEq] at hsemi
          rcases hstop with ⟨rfl, -⟩ | ⟨⟨mark, rest, rfl, hstops⟩, -⟩
          · simp at hsplit
          · rw [hsplit] at h
            obtain ⟨kind, kinds, hkinds, hkind⟩ := kinds_of_stops hstops
            have hat : At tokens limit index (kind :: (kinds ++ kindsOf rest)) := by
              have hcons : kindsOf ([] ++ mark :: rest) = mark.kinds ++ kindsOf rest := rfl
              rwa [hcons, hkinds] at h
            obtain ⟨token, htoken, htokenKind, -⟩ := hat.1
            rw [hfirst, Option.some.injEq] at htoken
            rw [← htokenKind, ← htoken, hsemi, hsemiKind] at hkind
            simp at hkind
      | cons mark front =>
          have hlt : 0 < (kindsOf (mark :: front)).length := kindsOf_pos (by simp)
          have hin : (kindsOf (mark :: front)).length - 1
              < (kindsOf (body.marks ++ next :: after)).length := by
            rw [hsplit, kindsOf_append, List.length_append]
            omega
          obtain ⟨last, hlast, hlastEof⟩ := h.get_marks hin
          have hlast' : tokens[index + (kindsOf (mark :: front)).length - 1]? = some last := by
            rw [← hlast]
            congr 1
            omega
          have hleft := spanFromTokenRange_end (index + (kindsOf (mark :: front)).length)
            (by omega) hfirst hlast'
          rw [← hfound, hright] at hleft
          have hsame := hpos.eq_of_stop hlast hsemi hlastEof hsemiEof hleft.symm
          omega
  · intro heq
    rw [heq]

end

/-! ## Arms -/

/-- What is said of a handler: choices, binding, where it starts, and the
span of its statements. -/
structure ArmView where
  choices : List Name
  binds : Option String
  start : Nat
  bodySpan : Span
  deriving DecidableEq

def ExceptionHandler.view (handler : ExceptionHandler) : ArmView :=
  ⟨handler.choices, handler.binds, handler.span.startByte, handler.bodySpan⟩

def startOf (tokens : List Token) (index : Nat) : Nat :=
  match tokens[index]? with
  | some token => token.textSpan.start
  | none => 0

/-- The arms from `index` on, as they stand there. -/
def expectedArms (tokens : List Token) : Nat → Arms → List ArmView
  | _, .nil => []
  | index, .cons lead body rest =>
      let bodyStart := index + (kindsOf lead.words.marks).length
      let bodyEnd := bodyStart + (kindsOf body.marks).length
      { choices := lead.choices
        binds := lead.binding
        start := startOf tokens index
        bodySpan := spanFromTokenRange tokens bodyStart bodyEnd } ::
        expectedArms tokens bodyEnd rest

def Arms.separable : Arms → Bool
  | .nil => true
  | .cons _ body rest => body.separable && rest.separable

section
variable {tokens : List Token} {limit index : Nat} {owner : HandlerOwner}

theorem spanFromTokenRange_start (start stop : Nat) :
    (spanFromTokenRange tokens start stop).startByte = startOf tokens start := by
  unfold spanFromTokenRange startOf
  cases tokens[start]? <;> rfl

/-- The tokens of a lead, read as an arm. -/
theorem parseHandlerArm_lead (lead : ArmLead) {marks : List Mark}
    (h : At tokens limit index (kindsOf (lead.words.marks ++ marks)))
    (handlers : List ExceptionHandler) :
    ∃ handler, parseHandlerArm tokens index owner limit handlers
        = (findNextArmOrEnd tokens (index + (kindsOf lead.words.marks).length) limit,
          handlers ++ [handler]) ∧ handler.owner = owner ∧
      handler.view = ⟨lead.choices, lead.binding, startOf tokens index,
        spanFromTokenRange tokens (index + (kindsOf lead.words.marks).length)
          (findNextArmOrEnd tokens (index + (kindsOf lead.words.marks).length) limit)⟩ := by
  rw [kindsOf_append] at h
  have hlead := h.append.1
  have hwidth : (kindsOf lead.words.marks).length = (lead.bindingKinds ++ (lead.first.kinds ++
      restKinds lead.rest)).length + 2 := by
    rw [kindsOf_lead, List.length_cons, List.length_append, List.length_singleton]
  rw [kindsOf_lead] at hlead
  have hrest : At tokens limit (index + 1) (lead.bindingKinds ++ (lead.first.kinds ++
      restKinds lead.rest) ++ [.arrow]) := hlead.2
  have harrow : findArrow tokens (index + 1) limit = some (index + 1 +
      (lead.bindingKinds ++ (lead.first.kinds ++ restKinds lead.rest)).length) := by
    rw [findArrow_pass (leadKinds_isArrowless lead) hrest.append.1]
    exact findArrow_arrow hrest.append.2
  have hbody : index + 1 + (lead.bindingKinds ++ (lead.first.kinds ++
      restKinds lead.rest)).length + 1 = index + (kindsOf lead.words.marks).length := by omega
  have hchoices := parseChoices_lead lead hrest rfl
  have hne : lead.choices.isEmpty = false := rfl
  simp only [parseHandlerArm, harrow, hchoices, hne, hbody, Bool.false_eq_true, if_false]
  exact ⟨_, rfl, rfl, by simp [ExceptionHandler.view, spanFromTokenRange_start]⟩

/-- Handlers are only added, and belong to the owner. -/
def Adds (owner : HandlerOwner) (handlers result : List ExceptionHandler) : Prop :=
  ∃ new, result = handlers ++ new ∧ ∀ handler ∈ new, handler.owner = owner

theorem Adds.refl (handlers : List ExceptionHandler) : Adds owner handlers handlers :=
  ⟨[], (List.append_nil _).symm, nofun⟩

theorem Adds.trans {a b c : List ExceptionHandler} (hab : Adds owner a b) (hbc : Adds owner b c) :
    Adds owner a c := by
  obtain ⟨new, rfl, hnew⟩ := hab
  obtain ⟨more, rfl, hmore⟩ := hbc
  refine ⟨new ++ more, List.append_assoc _ _ _, fun handler hmem => ?_⟩
  rcases List.mem_append.mp hmem with hmem | hmem
  · exact hnew handler hmem
  · exact hmore handler hmem

theorem adds_parseHandlerArm (whenIndex : Nat) (handlers : List ExceptionHandler) :
    Adds owner handlers (parseHandlerArm tokens whenIndex owner limit handlers).2 := by
  unfold parseHandlerArm
  split
  · exact .refl handlers
  · simp only
    split
    · exact .refl handlers
    · exact ⟨[_], rfl, by simp⟩

theorem adds_parseHandlerLoop (index : Nat) (handlers : List ExceptionHandler) :
    Adds owner handlers (parseHandlerLoop tokens owner limit index handlers) := by
  fun_induction parseHandlerLoop tokens owner limit index handlers with
  | case1 index handlers _ _ _ ih => exact (adds_parseHandlerArm index handlers).trans ih
  | case2 index handlers _ _ _ ih => exact (adds_parseHandlerArm index handlers).trans ih
  | case3 index handlers => exact .refl handlers
  | case4 index handlers _ _ _ ih => exact ih
  | case5 index handlers => exact .refl handlers

theorem parseHandlerLoop_when (hbefore : tokenStartsBefore tokens index limit = true)
    (hkind : kindAt tokens index .kwWhen = true) {handlers handlers' : List ExceptionHandler}
    {next : Nat} (harm : parseHandlerArm tokens index owner limit handlers = (next, handlers'))
    (hlt : index < next) :
    parseHandlerLoop tokens owner limit index handlers
      = parseHandlerLoop tokens owner limit next handlers' := by
  rw [parseHandlerLoop, dif_pos hbefore, if_pos hkind,
    dif_neg (by rw [harm]; exact Nat.not_le.mpr hlt), harm]

/-- The loop ends at the `end` of a block. -/
theorem parseHandlerLoop_close {name : List String} {marks : List Mark}
    (hwell : WellPlaced (.closeBlock name :: marks))
    (h : At tokens limit index (kindsOf (.closeBlock name :: marks)))
    (handlers : List ExceptionHandler) :
    parseHandlerLoop tokens owner limit index handlers = handlers := by
  have hkind : tokenKindAt tokens index = some .kwEnd := h.tokenKindAt
  have hblock : isHandlerBlockEnd tokens index = true := by
    have hnext : At tokens limit (index + 1) (nameKinds name ++ [.semicolon]) :=
      (At.lookahead hwell h).2
    unfold isHandlerBlockEnd
    cases name with
    | nil => rw [show tokenKindAt tokens (index + 1) = some .semicolon from hnext.tokenKindAt]
    | cons first rest =>
        rw [show tokenKindAt tokens (index + 1) = some (.identifier first) from hnext.tokenKindAt]
  rw [parseHandlerLoop, dif_pos (tokenStartsBefore_of_at h),
    if_neg (by simp [kindAt, hkind]), if_pos ⟨by simp [kindAt, hkind], hblock⟩]

theorem lead_marks (lead : ArmLead) :
    ∃ marks, lead.words.marks = .plain .kwWhen rfl :: marks := ⟨_, rfl⟩

theorem Arms.marks_stop (arms : Arms) (name : List String) (rest : List Mark) :
    ∃ next after, arms.marks ++ .closeBlock name :: rest = next :: after ∧
      next.stops .kwWhen = true := by
  cases arms with
  | nil => exact ⟨_, _, rfl, rfl⟩
  | cons lead body arms => exact ⟨.plain .kwWhen rfl, _, rfl, rfl⟩

theorem le_nestingScan (target : TokenKind) (tokens : List Token) (limit index depth : Nat) :
    index ≤ nestingScan target tokens limit index depth := by
  fun_induction nestingScan target tokens limit index depth with
  | case1 => exact Nat.le_refl _
  | case2 index depth h _ ih =>
      have := lt_observe h depth
      omega
  | case3 => exact Nat.le_refl _

theorem le_findNextArmOrEnd (h : index ≤ tokens.length) :
    index ≤ findNextArmOrEnd tokens index limit := by
  have := le_nestingScan .kwWhen tokens limit index 0
  rw [findNextArmOrEnd]
  omega

/-- The own arms of a body.  `starts` are the places of interest, which
include those of the arms. -/
theorem parseHandlerLoop_arms (hpos : Positioned tokens) (starts : List Nat) (arms : Arms)
    {index : Nat} {name : List String} {rest : List Mark}
    (hwell : WellPlaced (arms.marks ++ .closeBlock name :: rest))
    (h : At tokens limit index (kindsOf (arms.marks ++ .closeBlock name :: rest)))
    (hdone : tokenStartsBefore tokens
      (index + (kindsOf (arms.marks ++ .closeBlock name :: rest)).length) limit = false)
    (hstarts : ∀ view ∈ expectedArms tokens index arms, view.start ∈ starts)
    (handlers : List ExceptionHandler) :
    ∃ new, parseHandlerLoop tokens owner limit index handlers = handlers ++ new ∧
      (∀ handler ∈ new, handler.owner = owner) ∧
      ((new.map ExceptionHandler.view).filter (fun view => view.start ∈ starts)
        = expectedArms tokens index arms ↔ arms.separable = true) ∧
      (arms.separable = true → new.map ExceptionHandler.view = expectedArms tokens index arms) := by
  match arms with
  | .nil =>
      refine ⟨[], ?_, by simp, ⟨fun _ => rfl, fun _ => rfl⟩, fun _ => rfl⟩
      rw [parseHandlerLoop_close hwell h, List.append_nil]
  | .cons lead body arms =>
      obtain ⟨next, after, hafter, hnext⟩ := arms.marks_stop name rest
      have hmarks : (Arms.cons lead body arms).marks ++ .closeBlock name :: rest
          = lead.words.marks ++ (body.marks ++ (arms.marks ++ .closeBlock name :: rest)) := by
        simp [Arms.marks]
      rw [hmarks] at hwell h hdone
      have hbody : At tokens limit (index + (kindsOf lead.words.marks).length)
          (kindsOf (body.marks ++ (arms.marks ++ .closeBlock name :: rest))) := by
        rw [kindsOf_append] at h
        exact h.append.2
      have hbodyWell := hwell.of_append
      have hbodyDone : tokenStartsBefore tokens (index + (kindsOf lead.words.marks).length +
          (kindsOf (body.marks ++ (arms.marks ++ .closeBlock name :: rest))).length) limit
          = false := by
        rw [kindsOf_append, List.length_append, ← Nat.add_assoc] at hdone
        exact hdone
      have harms : At tokens limit
          (index + (kindsOf lead.words.marks).length + (kindsOf body.marks).length)
          (kindsOf (arms.marks ++ .closeBlock name :: rest)) := by
        rw [kindsOf_append] at hbody
        exact hbody.append.2
      have harmsDone : tokenStartsBefore tokens (index + (kindsOf lead.words.marks).length +
          (kindsOf body.marks).length +
          (kindsOf (arms.marks ++ .closeBlock name :: rest)).length) limit = false := by
        rw [kindsOf_append, List.length_append, ← Nat.add_assoc] at hbodyDone
        exact hbodyDone
      have hend := findNextArmOrEnd_iff (hafter ▸ hbodyWell) (hafter ▸ hbody) (hafter ▸ hbodyDone)
        hnext
      have hspan := bodySpan_iff hpos (hafter ▸ hbodyWell) (hafter ▸ hbody) (hafter ▸ hbodyDone)
        hnext
      obtain ⟨handler, harm, howner, hview⟩ := parseHandlerArm_lead lead h handlers
      obtain ⟨front, -, -, hfound, -⟩ := findNextArmOrEnd_result hbodyWell hbody
        (by simp [hafter]) hbodyDone
      have hwidth : 0 < (kindsOf lead.words.marks).length := by
        rw [kindsOf_lead]
        exact Nat.succ_pos _
      have hkind : kindAt tokens index .kwWhen = true := by
        have hwhen : tokenKindAt tokens index = some .kwWhen := h.tokenKindAt
        simp [kindAt, hwhen]
      have hloop := parseHandlerLoop_when (tokenStartsBefore_of_at h) hkind harm (by omega)
      have hmem : handler.view.start ∈ starts := by
        rw [expectedArms, List.forall_mem_cons] at hstarts
        rw [hview]
        exact hstarts.1
      rw [hloop]
      -- the search for the next arm ends there only when the body is separable
      by_cases hsep : body.separable = true
      · rw [hend.mpr hsep] at hview ⊢
        obtain ⟨new, hnew, hownerNew, hiff, hall⟩ := parseHandlerLoop_arms hpos starts arms
          hbodyWell.of_append harms harmsDone
          (fun view hview => hstarts view (List.mem_cons_of_mem _ hview)) (handlers ++ [handler])
        refine ⟨handler :: new, by rw [hnew, List.append_assoc]; rfl, ?_, ?_, ?_⟩
        · intro other hother
          rcases List.mem_cons.mp hother with rfl | hother
          · exact howner
          · exact hownerNew other hother
        · rw [List.map_cons, List.filter_cons_of_pos (by simpa using hmem), hview, expectedArms,
            List.cons.injEq, Arms.separable, hsep, Bool.true_and, ← hiff]
          exact and_iff_right rfl
        · intro hseps
          rw [Arms.separable, hsep, Bool.true_and] at hseps
          rw [List.map_cons, hview, hall hseps, expectedArms]
      · -- it overshoots: whatever is read from there, the body of this arm is too long
        obtain ⟨more, hmore, hownerMore⟩ : Adds owner (handlers ++ [handler])
            (parseHandlerLoop tokens owner limit (findNextArmOrEnd tokens
              (index + (kindsOf lead.words.marks).length) limit) (handlers ++ [handler])) :=
          adds_parseHandlerLoop _ _
        have hfalse : (Arms.cons lead body arms).separable = false := by
          rw [Bool.not_eq_true] at hsep
          rw [Arms.separable, hsep, Bool.false_and]
        refine ⟨handler :: more, by rw [hmore, List.append_assoc]; rfl, ?_, ?_, ?_⟩
        · intro other hother
          rcases List.mem_cons.mp hother with rfl | hother
          · exact howner
          · exact hownerMore other hother
        · rw [hfalse]
          refine ⟨fun heq => ?_, fun htrue => by cases htrue⟩
          rw [List.map_cons, List.filter_cons_of_pos (by simpa using hmem), hview, expectedArms,
            List.cons.injEq, ArmView.mk.injEq] at heq
          exact absurd (hspan.mp heq.1.2.2.2) hsep
        · rw [hfalse]
          intro htrue
          cases htrue

/-! ## The exception part of a block -/

/-- An arrow is found among marks, or none up to the next `end`. -/
theorem findArrow_marks {name : List String} {outside : List Mark} (inside : List Mark)
    {index : Nat} (h : At tokens limit index (kindsOf (inside ++ .closeBlock name :: outside))) :
    findArrow tokens index limit = none ∨
      ∃ front mark behind, inside = front ++ mark :: behind ∧ mark.kinds.length = 1 ∧
        findArrow tokens index limit = some (index + (kindsOf front).length) := by
  induction inside generalizing index with
  | nil => exact .inl (findArrow_none (.inr rfl) h)
  | cons mark inside ih =>
      rw [List.cons_append, kindsOf_cons] at h
      -- a mark that is passed
      have hpass : (∀ kind ∈ mark.kinds, kind.isArrowless = true) →
          findArrow tokens index limit = none ∨
            ∃ front mark' behind, mark :: inside = front ++ mark' :: behind ∧
              mark'.kinds.length = 1 ∧
              findArrow tokens index limit = some (index + (kindsOf front).length) := by
        intro hkinds
        rw [findArrow_pass hkinds h.append.1]
        rcases ih h.append.2 with hnone | ⟨front, mark', behind, rfl, hwidth, hsome⟩
        · exact .inl hnone
        · refine .inr ⟨mark :: front, mark', behind, rfl, hwidth, ?_⟩
          rw [hsome, kindsOf_cons, List.length_append, Nat.add_assoc]
      cases mark with
      | plain kind hplain =>
          by_cases harrow : kind = .arrow
          · subst harrow
            exact .inr ⟨[], .plain .arrow hplain, inside, rfl, rfl, findArrow_arrow h⟩
          · by_cases hwhen : kind = .kwWhen
            · exact .inl (findArrow_none (.inl hwhen) h)
            · refine hpass fun kind' hkind' => ?_
              rw [Mark.kinds, List.mem_singleton] at hkind'
              rw [hkind']
              cases kind <;>
                first | rfl | exact absurd rfl harrow | exact absurd rfl hwhen | cases hplain
      | close bracket => exact .inl (findArrow_none (.inr rfl) h)
      | closeBlock name' => exact .inl (findArrow_none (.inr rfl) h)
      | «open» bracket =>
          refine hpass (List.all_eq_true.mp ?_)
          cases bracket with
          | record lead => cases lead <;> rfl
          | _ => rfl
      | _ => exact hpass (List.all_eq_true.mp rfl)

/-- From inside a block, the scan for the next arm does not leave it, or runs
to the end of the body. -/
theorem findNextArmOrEnd_trapped {inside : List Mark} {name : List String} {outside : List Mark}
    {m : Nat} (hclimbs : Climbs caseOrSelect outside m)
    (hwell : WellPlaced (inside ++ .closeBlock name :: outside))
    (h : At tokens limit index (kindsOf (inside ++ .closeBlock name :: outside)))
    (hdone : tokenStartsBefore tokens
      (index + (kindsOf (inside ++ .closeBlock name :: outside)).length) limit = false) :
    tokenStartsBefore tokens (findNextArmOrEnd tokens index limit) limit = false ∨
      ∃ front behind, inside = front ++ behind ∧
        findNextArmOrEnd tokens index limit = index + (kindsOf front).length ∧
        (behind = [] ∨ ∃ mark rest, behind = mark :: rest ∧ mark.stops .kwWhen = true) := by
  obtain ⟨front, behind, hsplit, hfound, hstop⟩ :=
    findNextArmOrEnd_result hwell h (by simp) hdone
  rcases hstop with ⟨rfl, -⟩ | ⟨⟨mark, rest, rfl, hstops⟩, hrun⟩
  · left
    rw [List.append_nil] at hsplit
    rw [hfound, ← hsplit]
    exact hdone
  · right
    rcases List.append_eq_append_iff.mp hsplit with ⟨l, hfront, houtside⟩ | ⟨l, hinside, hbehind⟩
    · cases l with
      | nil =>
          rw [List.append_nil] at hfront
          exact ⟨front, [], by rw [List.append_nil, hfront], hfound, .inl rfl⟩
      | cons close l =>
          -- behind the `end` the depth is positive and stays so
          exfalso
          rw [List.cons_append, List.cons.injEq] at houtside
          obtain ⟨rfl, rfl⟩ := houtside
          rw [hfront, runDepth_append] at hrun
          cases hin : runDepth caseOrSelect .kwWhen inside 0 with
          | none =>
              rw [hin] at hrun
              cases hrun
          | some depth =>
              rw [hin, Option.bind_some, runDepth] at hrun
              split at hrun
              · cases hrun
              · rename_i hgo
                have hdepth : depth ≠ 0 := fun hzero => hgo ⟨hzero, rfl⟩
                have hout := (hclimbs .kwWhen depth).resolve_right (fun hz => hdepth hz.1)
                have hrun' : runDepth caseOrSelect .kwWhen l depth = some 0 := hrun
                rw [runDepth_append, hrun', Option.bind_some, runDepth,
                  if_pos ⟨rfl, hstops⟩] at hout
                cases hout
    · refine ⟨front, l, hinside, hfound, ?_⟩
      cases l with
      | nil => exact .inl rfl
      | cons mark' l =>
          rw [List.cons_append, List.cons.injEq] at hbehind
          exact .inr ⟨mark', l, rfl, hbehind.1 ▸ hstops⟩

/-- Whatever is read at a `when`, the handler starts there and the loop goes on
behind some front of what follows. -/
theorem parseHandlerArm_marks (owner : HandlerOwner) {name : List String} {outside : List Mark}
    (inside : List Mark)
    (h : At tokens limit (index + 1) (kindsOf (inside ++ .closeBlock name :: outside)))
    (handlers : List ExceptionHandler) :
    ∃ front behind new, inside = front ++ behind ∧
      parseHandlerArm tokens index owner limit handlers
        = (findNextArmOrEnd tokens (index + 1 + (kindsOf front).length) limit, handlers ++ new) ∧
      ∀ handler ∈ new, handler.view.start = startOf tokens index := by
  unfold parseHandlerArm
  rcases findArrow_marks inside h with hnone | ⟨front, mark, behind, rfl, hwidth, hsome⟩
  · rw [hnone]
    exact ⟨[], inside, [], rfl, by rw [List.append_nil]; rfl, nofun⟩
  · have hbody : index + 1 + (kindsOf front).length + 1
        = index + 1 + (kindsOf (front ++ [mark])).length := by
      rw [kindsOf_append, List.length_append, kindsOf_cons, List.length_append, hwidth]
      rfl
    have hinside : front ++ mark :: behind = (front ++ [mark]) ++ behind := by simp
    rw [hsome]
    simp only [hbody]
    split
    · exact ⟨front ++ [mark], behind, [], hinside, by rw [List.append_nil], nofun⟩
    · refine ⟨front ++ [mark], behind, [_], hinside, rfl, fun handler hmem => ?_⟩
      rw [List.mem_singleton] at hmem
      rw [hmem]
      exact spanFromTokenRange_start _ _

/-- Handlers read from inside a block start inside it. -/
theorem parseHandlerLoop_trapped {name : List String} {outside : List Mark} {m : Nat}
    (hclimbs : Climbs caseOrSelect outside m) (inside : List Mark) {index : Nat}
    (hwell : WellPlaced (inside ++ .closeBlock name :: outside))
    (h : At tokens limit index (kindsOf (inside ++ .closeBlock name :: outside)))
    (hdone : tokenStartsBefore tokens
      (index + (kindsOf (inside ++ .closeBlock name :: outside)).length) limit = false)
    (hfirst : inside = [] ∨ ∃ mark rest, inside = mark :: rest ∧ mark.stops .kwWhen = true)
    (handlers : List ExceptionHandler) :
    ∃ new, parseHandlerLoop tokens owner limit index handlers = handlers ++ new ∧
      ∀ handler ∈ new, ∃ j, handler.view.start = startOf tokens j ∧
        kindAt tokens j .kwWhen = true ∧ j < index + (kindsOf inside).length := by
  rcases hfirst with rfl | ⟨mark, inside, rfl, hstops⟩
  · exact ⟨[], by rw [parseHandlerLoop_close hwell h, List.append_nil], nofun⟩
  · cases mark with
    | closeBlock name' =>
        exact ⟨[], by rw [parseHandlerLoop_close hwell h, List.append_nil], nofun⟩
    | plain kind hplain =>
        have hkind : kind = .kwWhen := by simpa [Mark.stops] using hstops
        subst hkind
        have hrest : At tokens limit (index + 1)
            (kindsOf (inside ++ .closeBlock name :: outside)) := h.2
        have hwhen : kindAt tokens index .kwWhen = true := by
          have hkind : tokenKindAt tokens index = some .kwWhen := h.tokenKindAt
          simp [kindAt, hkind]
        obtain ⟨front, behind, new, rfl, harm, hstart⟩ :=
          parseHandlerArm_marks owner inside hrest handlers
        have hsplit : front ++ behind ++ .closeBlock name :: outside
            = front ++ (behind ++ .closeBlock name :: outside) := List.append_assoc _ _ _
        have hwell' : WellPlaced (behind ++ .closeBlock name :: outside) := by
          have htail : WellPlaced (front ++ behind ++ .closeBlock name :: outside) := hwell.tail
          rw [hsplit] at htail
          exact htail.of_append
        have hthere : At tokens limit (index + 1 + (kindsOf front).length)
            (kindsOf (behind ++ .closeBlock name :: outside)) := by
          rw [hsplit, kindsOf_append] at hrest
          exact hrest.append.2
        have hdone' : tokenStartsBefore tokens (index + 1 + (kindsOf front).length +
            (kindsOf (behind ++ .closeBlock name :: outside)).length) limit = false := by
          rw [List.cons_append, hsplit, kindsOf_cons, kindsOf_append, List.length_append,
            List.length_append] at hdone
          rw [← hdone]
          congr 1
          show _ = index + (1 + _)
          omega
        have hle : index + 1 + (kindsOf front).length
            ≤ findNextArmOrEnd tokens (index + 1 + (kindsOf front).length) limit := by
          have := hthere.length_le (List.length_pos_iff.mp (kindsOf_pos (by simp)))
          exact le_findNextArmOrEnd (by omega)
        have hloop := parseHandlerLoop_when (tokenStartsBefore_of_at h) hwhen harm (by omega)
        have hnew : ∀ handler ∈ new, ∃ j, handler.view.start = startOf tokens j ∧
            kindAt tokens j .kwWhen = true ∧
            j < index + (kindsOf (.plain .kwWhen hplain :: (front ++ behind))).length := by
          intro handler hmem
          refine ⟨index, hstart handler hmem, hwhen, ?_⟩
          have hpos : 0 < (kindsOf (.plain .kwWhen hplain :: (front ++ behind))).length :=
            kindsOf_pos (by simp)
          omega
        rw [hloop]
        -- the next arm is one inside, or the loop is over
        rcases findNextArmOrEnd_trapped hclimbs hwell' hthere hdone' with
          hout | ⟨front', behind', rfl, hnext, hfirst'⟩
        · exact ⟨new, by rw [parseHandlerLoop, dif_neg (by simp [hout])], hnew⟩
        · have hsplit' : front' ++ behind' ++ .closeBlock name :: outside
              = front' ++ (behind' ++ .closeBlock name :: outside) := List.append_assoc _ _ _
          rw [hsplit'] at hwell' hthere hdone'
          rw [kindsOf_append] at hthere hdone'
          rw [List.length_append, ← Nat.add_assoc] at hdone'
          rw [hnext]
          obtain ⟨more, hmore, hstarts⟩ := parseHandlerLoop_trapped hclimbs behind'
            hwell'.of_append hthere.append.2 hdone' hfirst' (handlers ++ new)
          refine ⟨new ++ more, by rw [hmore, List.append_assoc], fun handler hmem => ?_⟩
          rcases List.mem_append.mp hmem with hmem | hmem
          · exact hnew handler hmem
          · obtain ⟨j, hj, hkind, hlt⟩ := hstarts handler hmem
            refine ⟨j, hj, hkind, ?_⟩
            rw [kindsOf_cons, kindsOf_append, kindsOf_append, List.length_append,
              List.length_append, List.length_append]
            show j < index + (1 + _)
            omega
    | exception => simp [Mark.stops] at hstops
    | _ => cases hstops
termination_by inside.length
decreasing_by
  subst_vars
  simp only [List.length_append, List.length_cons]
  omega

end

end GovFuzz.AdaParser
