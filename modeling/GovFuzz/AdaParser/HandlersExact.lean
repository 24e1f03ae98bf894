import Mathlib.Data.Nat.Init
import GovFuzz.AdaParser.ExceptionSearch
import GovFuzz.AdaParser.HandlerRuns

/-!
# Ada parser — the handlers of a body

What `extract_handlers` returns for a subprogram body: one handler for each
arm of its exception part, with the arm's choices, binding and statements,
exactly if the search finds that part and every arm ends where its statements
do.
-/

namespace GovFuzz.AdaParser

/-! ## Arms of a tree -/

def width (marks : List Mark) : Nat := (kindsOf marks).length

mutual

/-- Token indices of the arms of every exception part in a tree that starts
at `index`. -/
def Stmt.armIndices : Stmt → Nat → List Nat
  | .simple _, _ => []
  | .compound bracket header sections _, index =>
      sections.armIndices (index + width (header.marks ++ [.open bracket]))
  | .block label body arms _, index =>
      let start := index + width (label.marks ++ [.begin])
      body.armIndices start ++ arms.armIndices (start + width body.marks + 1)
  | .declareBlock label decls body arms _, index =>
      let declStart := index + width (label.marks ++ [.declare])
      let start := declStart + width (decls.marks ++ [.begin])
      decls.armIndices declStart ++ body.armIndices start ++
        arms.armIndices (start + width body.marks + 1)

def Stmts.armIndices : Stmts → Nat → List Nat
  | .nil, _ => []
  | .cons stmt rest, index => stmt.armIndices index ++ rest.armIndices (index + width stmt.marks)

def Sections.armIndices : Sections → Nat → List Nat
  | .nil, _ => []
  | .cons lead body rest, index =>
      body.armIndices (index + width lead.marks) ++
        rest.armIndices (index + width (lead.marks ++ body.marks))

def Arms.armIndices : Arms → Nat → List Nat
  | .nil, _ => []
  | .cons lead body rest, index =>
      index :: (body.armIndices (index + width lead.words.marks) ++
        rest.armIndices (index + width lead.words.marks + width body.marks))

def Decl.armIndices : Decl → Nat → List Nat
  | .plain _, _ => []
  | .record lead header components _, index =>
      components.armIndices (index + width (headerMarks header ++ [.open (.record lead)]))
  | .unitBody header decls body arms _, index =>
      let declStart := index + width (headerMarks header)
      let start := declStart + width decls.marks + 1
      decls.armIndices declStart ++ body.armIndices start ++
        arms.armIndices (start + width body.marks + 1)
  | .packageBody header decls _, index => decls.armIndices (index + width (headerMarks header))

def Decls.armIndices : Decls → Nat → List Nat
  | .nil, _ => []
  | .cons decl rest, index => decl.armIndices index ++ rest.armIndices (index + width decl.marks)

end

namespace BodyTree

def armIndices (tree : BodyTree) (base : Nat) : List Nat :=
  (Decl.unitBody tree.header tree.decls tree.body tree.arms tree.name).armIndices base

/-- The arms of the exception part of the body itself. -/
def ownArms (tokens : List Token) (tree : BodyTree) (base : Nat) : List ArmView :=
  expectedArms tokens (tree.exceptionIndex base + 1) tree.arms

end BodyTree

/-- For the exception part of the body there is one handler for each arm, in
order; and no handler of the body starts anywhere but at an arm. -/
structure HandlersExact (tokens : List Token) (owner : HandlerOwner) (tree : BodyTree)
    (base : Nat) (handlers : List ExceptionHandler) : Prop where
  own : ((handlers.filter fun handler => handler.owner = owner).map ExceptionHandler.view).filter
      (fun view => view.start ∈ (tree.ownArms tokens base).map ArmView.start)
    = tree.ownArms tokens base
  arms : ∀ handler ∈ handlers, handler.owner = owner →
    ∃ index ∈ tree.armIndices base, handler.span.startByte = startOf tokens index

theorem start_of_mem_expectedArms {tokens : List Token} (arms : Arms) {index : Nat}
    {view : ArmView} (h : view ∈ expectedArms tokens index arms) :
    ∃ i ∈ arms.armIndices index, view.start = startOf tokens i := by
  match arms with
  | .nil => cases h
  | .cons lead body rest =>
      rw [expectedArms] at h
      rcases List.mem_cons.mp h with rfl | h
      · exact ⟨index, List.mem_cons_self, rfl⟩
      · obtain ⟨i, hi, hstart⟩ := start_of_mem_expectedArms rest h
        exact ⟨i, List.mem_cons_of_mem _ (List.mem_append_right _ hi), hstart⟩

theorem BodyTree.mem_armIndices {tree : BodyTree} {base i : Nat}
    (h : i ∈ tree.arms.armIndices (tree.exceptionIndex base + 1)) : i ∈ tree.armIndices base := by
  have hindex : tree.exceptionIndex base + 1
      = base + width (headerMarks tree.header) + width tree.decls.marks + 1 +
        width tree.body.marks + 1 := by
    simp only [BodyTree.exceptionIndex, BodyTree.beginIndex, BodyTree.front, flat_append,
      flat_plains, Decls.flat_pieces, kindsOf_append, List.length_append, width]
    omega
  rw [hindex] at h
  exact List.mem_append_right _ h

/-! ## Owners -/

theorem minByKey_spec {α : Type} (list : List (α × Nat)) {best : α × Nat}
    (h : minByKey list = some best) : best ∈ list ∧ ∀ other ∈ list, best.2 ≤ other.2 := by
  cases list with
  | nil => cases h
  | cons first rest =>
      rw [minByKey, Option.some.injEq] at h
      induction rest generalizing first with
      | nil =>
          rw [List.foldl_nil] at h
          subst h
          simp
      | cons next rest ih =>
          rw [List.foldl_cons] at h
          obtain ⟨hmem, hle⟩ := ih _ h
          rw [List.forall_mem_cons] at hle
          split at hmem
          · rename_i hlt
            rw [if_pos hlt] at hle
            refine ⟨List.mem_cons_of_mem _ hmem, ?_⟩
            simp only [List.forall_mem_cons]
            exact ⟨by omega, hle.1, hle.2⟩
          · rename_i hge
            rw [if_neg hge] at hle
            refine ⟨?_, ?_⟩
            · rcases List.mem_cons.mp hmem with rfl | hmem
              · exact List.mem_cons_self
              · exact List.mem_cons_of_mem _ (List.mem_cons_of_mem _ hmem)
            · simp only [List.forall_mem_cons]
              exact ⟨hle.1, by omega, hle.2⟩

/-- The token is in the body, and in no scope nested in it. -/
structure InBody (scopeTree : ScopeTree) (tokens : List Token) (span : Span) (token : Token) :
    Prop where
  inside : spanContainsByte span token.textSpan.start = true
  visible : ∃ index, tokens[index]? = some token ∧
    skipNestedScope scopeTree tokens span index = none

/-- `span` belongs to the body of `subprogram`, and every other body around a
token of it is wider. -/
structure OwnBody (scopeTree : ScopeTree) (subprograms : List Subprogram) (tokens : List Token)
    (subprogram : Subprogram) (span : Span) : Prop where
  mem : subprogram ∈ subprograms
  bodySpan : subprogram.bodySpan = some span
  unique : ∀ other ∈ subprograms, other.id = subprogram.id → other = subprogram
  subprograms : ∀ other ∈ subprograms, other ≠ subprogram → ∀ span', other.bodySpan = some span' →
    ∀ token, InBody scopeTree tokens span token →
      spanContainsByte span' token.textSpan.start = true →
      span.endByte - span.startByte < span'.endByte - span'.startByte
  packages : ∀ scope ∈ scopeTree.scopes, scope.kind = .packageBody → ∀ span',
    scope.bodySpan = some span' → ∀ token, InBody scopeTree tokens span token →
      spanContainsByte span' token.textSpan.start = true →
      span.endByte - span.startByte < span'.endByte - span'.startByte

section
variable {scopeTree : ScopeTree} {packages : List Package} {subprograms : List Subprogram}
  {tokens : List Token} {subprogram : Subprogram} {span : Span}

/-- A token of a subprogram's own body is owned by that subprogram. -/
theorem OwnBody.owner (h : OwnBody scopeTree subprograms tokens subprogram span) {token : Token}
    (htoken : InBody scopeTree tokens span token) :
    ownerForException scopeTree packages subprograms token
      = some (.subprogram subprogram.id) := by
  have hcandidate : subprogramCandidate token.textSpan.start subprogram
      = some (.subprogram subprogram.id, span.endByte - span.startByte) := by
    simp [subprogramCandidate, h.bodySpan, htoken.inside]
  have hmem : (HandlerOwner.subprogram subprogram.id, span.endByte - span.startByte) ∈
      subprograms.filterMap (subprogramCandidate token.textSpan.start) ++
        scopeTree.scopes.filterMap (packageBodyCandidate packages token.textSpan.start) :=
    List.mem_append_left _ (List.mem_filterMap.mpr ⟨subprogram, h.mem, hcandidate⟩)
  -- every other candidate is wider
  have hother : ∀ candidate ∈
      subprograms.filterMap (subprogramCandidate token.textSpan.start) ++
        scopeTree.scopes.filterMap (packageBodyCandidate packages token.textSpan.start),
      candidate.1 = .subprogram subprogram.id ∨
        span.endByte - span.startByte < candidate.2 := by
    intro candidate hlisted
    rcases List.mem_append.mp hlisted with hsub | hpkg
    · obtain ⟨other, hmem, hfound⟩ := List.mem_filterMap.mp hsub
      by_cases heq : other = subprogram
      · left
        rw [heq, hcandidate] at hfound
        cases hfound
        rfl
      · right
        cases hspan : other.bodySpan with
        | none => simp [subprogramCandidate, hspan] at hfound
        | some span' =>
            simp only [subprogramCandidate, hspan, Option.bind_eq_bind, Option.bind_some] at hfound
            split at hfound
            · rename_i hin
              cases hfound
              exact h.subprograms other hmem heq span' hspan token htoken hin
            · cases hfound
    · right
      obtain ⟨scope, hmem, hfound⟩ := List.mem_filterMap.mp hpkg
      unfold packageBodyCandidate at hfound
      split at hfound
      · cases hfound
      · rename_i hkind
        cases hspan : scope.bodySpan with
        | none => simp [hspan] at hfound
        | some span' =>
            simp only [hspan, Option.bind_eq_bind, Option.bind_some] at hfound
            split at hfound
            · rename_i hin
              cases hid : packageIdForScope packages scope with
              | none => simp [hid] at hfound
              | some id =>
                  simp only [hid, Option.bind_some, Option.some.injEq] at hfound
                  rw [← hfound]
                  exact h.packages scope hmem (not_not.mp hkind) span' hspan token htoken hin
            · cases hfound
  -- so the narrowest candidate is the subprogram itself
  cases hmin : minByKey (subprograms.filterMap (subprogramCandidate token.textSpan.start) ++
      scopeTree.scopes.filterMap (packageBodyCandidate packages token.textSpan.start)) with
  | none =>
      cases hlist : subprograms.filterMap (subprogramCandidate token.textSpan.start) ++
        scopeTree.scopes.filterMap (packageBodyCandidate packages token.textSpan.start) with
      | nil =>
          rw [hlist] at hmem
          cases hmem
      | cons first rest =>
          rw [hlist] at hmin
          cases hmin
  | some best =>
      obtain ⟨hbest, hle⟩ := minByKey_spec _ hmin
      have := hle _ hmem
      rcases hother best hbest with howner | hlt
      · simp only [ownerForException, hmin, Option.map_some, howner]
      · simp only at this
        omega

theorem OwnBody.ownerBodySpan (h : OwnBody scopeTree subprograms tokens subprogram span) :
    ownerBodySpan scopeTree packages subprograms (.subprogram subprogram.id) = some span := by
  have hfind : (subprograms.find? fun other => other.id = subprogram.id) = some subprogram := by
    cases hfound : subprograms.find? fun other => other.id = subprogram.id with
    | none =>
        have := List.find?_eq_none.mp hfound subprogram h.mem
        simp at this
    | some other =>
        have hid := List.find?_some hfound
        rw [h.unique other (List.mem_of_find?_eq_some hfound) (by simpa using hid)]
  rw [AdaParser.ownerBodySpan, hfind]
  exact h.bodySpan

/-! ## The outer loop -/

theorem topLevelExceptionLoop_some {index depth k : Nat} {sawBegin : Bool}
    (h : topLevelExceptionLoop scopeTree tokens span index sawBegin depth = some k) :
    index ≤ k ∧ tokenStartsBefore tokens k span.endByte = true ∧
      skipNestedScope scopeTree tokens span k = none ∧ kindAt tokens k .kwException = true := by
  fun_induction topLevelExceptionLoop scopeTree tokens span index sawBegin depth with
  | case1 index _ _ _ next _ hlt ih =>
      obtain ⟨hle, hrest⟩ := ih h
      exact ⟨by omega, hrest⟩
  | case2 => cases h
  | case3 index _ _ _ _ _ ih =>
      obtain ⟨hle, hrest⟩ := ih h
      exact ⟨by omega, hrest⟩
  | case4 index _ _ hbefore hskip _ hstop =>
      cases h
      exact ⟨Nat.le_refl _, hbefore, hskip, hstop.2⟩
  | case5 => cases h
  | case6 index _ depth hbefore _ _ _ _ ih =>
      obtain ⟨hle, hrest⟩ := ih h
      have := lt_observe hbefore depth
      exact ⟨by omega, hrest⟩
  | case7 => cases h

/-- Tokens other than the one the search answers with add nothing. -/
theorem filter_extractHandlersAt {owner : HandlerOwner}
    (hspan : ownerBodySpan scopeTree packages subprograms owner = some span)
    (handlers : List ExceptionHandler) (entry : Token × Nat)
    (h : topLevelExceptionIndex scopeTree tokens span ≠ some entry.2) :
    ((extractHandlersAt scopeTree packages subprograms tokens handlers entry).filter
        fun handler => handler.owner = owner)
      = handlers.filter fun handler => handler.owner = owner := by
  unfold extractHandlersAt
  split
  · rfl
  · split
    · rfl
    · rename_i owner' howner
      split
      · rfl
      · rename_i span' hspan'
        split
        · rfl
        · rename_i hindex
          have hne : owner' ≠ owner := by
            rintro rfl
            rw [hspan, Option.some.injEq] at hspan'
            rw [← hspan'] at hindex
            exact hindex h
          obtain ⟨new, hnew, howners⟩ : Adds owner' handlers
              (parseHandlerBlock tokens entry.2 owner' span'.endByte handlers) :=
            adds_parseHandlerLoop _ _
          have hnone : new.filter (fun handler => handler.owner = owner) = [] := by
            rw [List.filter_eq_nil_iff]
            intro handler hmem
            rw [howners handler hmem]
            simpa using hne
          rw [hnew, List.filter_append, hnone, List.append_nil]

theorem filter_foldl {owner : HandlerOwner}
    (hspan : ownerBodySpan scopeTree packages subprograms owner = some span)
    (entries : List (Token × Nat)) (handlers : List ExceptionHandler)
    (h : ∀ entry ∈ entries, topLevelExceptionIndex scopeTree tokens span ≠ some entry.2) :
    ((entries.foldl (extractHandlersAt scopeTree packages subprograms tokens) handlers).filter
        fun handler => handler.owner = owner)
      = handlers.filter fun handler => handler.owner = owner := by
  induction entries generalizing handlers with
  | nil => rfl
  | cons entry entries ih =>
      rw [List.forall_mem_cons] at h
      rw [List.foldl_cons, ih _ h.2, filter_extractHandlersAt hspan handlers entry h.1]

theorem extractHandlers_none {owner : HandlerOwner}
    (hspan : ownerBodySpan scopeTree packages subprograms owner = some span)
    (h : topLevelExceptionIndex scopeTree tokens span = none) :
    (extractHandlers scopeTree packages subprograms tokens).filter
      (fun handler => handler.owner = owner) = [] := by
  rw [extractHandlers, filter_foldl hspan _ _ fun entry _ => by rw [h]; nofun]
  rfl

/-- The handlers of an owner come from the one place the search answers with. -/
theorem extractHandlers_some {owner : HandlerOwner} {k : Nat} {token : Token}
    (hspan : ownerBodySpan scopeTree packages subprograms owner = some span)
    (h : topLevelExceptionIndex scopeTree tokens span = some k) (htoken : tokens[k]? = some token)
    (hkind : token.effectiveKind = .kwException)
    (howner : ownerForException scopeTree packages subprograms token = some owner) :
    ∃ handlers new, parseHandlerLoop tokens owner span.endByte (k + 1) handlers
        = handlers ++ new ∧ (∀ handler ∈ new, handler.owner = owner) ∧
      (extractHandlers scopeTree packages subprograms tokens).filter
        (fun handler => handler.owner = owner) = new := by
  obtain ⟨hlt, hget⟩ := List.getElem?_eq_some_iff.mp htoken
  have hsplit : tokens.zipIdx = (tokens.take k).zipIdx ++
      (token, k) :: (tokens.drop (k + 1)).zipIdx (k + 1) := by
    have htokens : tokens = tokens.take k ++ token :: tokens.drop (k + 1) := by
      rw [← hget, ← List.drop_eq_getElem_cons hlt, List.take_append_drop]
    have hlen : (tokens.take k).length = k := by
      rw [List.length_take]
      omega
    conv_lhs => rw [htokens]
    rw [List.zipIdx_append, List.zipIdx_cons, hlen, Nat.zero_add]
  have hact : ∀ handlers, extractHandlersAt scopeTree packages subprograms tokens handlers
      (token, k) = parseHandlerLoop tokens owner span.endByte (k + 1) handlers := by
    intro handlers
    simp only [extractHandlersAt, hkind, ne_eq, not_true_eq_false, if_false, howner, hspan, h,
      parseHandlerBlock]
  refine ⟨(tokens.take k).zipIdx.foldl (extractHandlersAt scopeTree packages subprograms tokens)
    [], ?_⟩
  have hbefore : ∀ entry ∈ (tokens.take k).zipIdx,
      topLevelExceptionIndex scopeTree tokens span ≠ some entry.2 := by
    intro entry hmem
    have := List.snd_lt_of_mem_zipIdx hmem
    rw [List.length_take] at this
    rw [h, ne_eq, Option.some.injEq]
    omega
  have hfront := filter_foldl hspan (tokens.take k).zipIdx [] hbefore
  obtain ⟨new, hnew, howners⟩ : Adds owner _ (parseHandlerLoop tokens owner span.endByte (k + 1)
    ((tokens.take k).zipIdx.foldl (extractHandlersAt scopeTree packages subprograms tokens) [])) :=
    adds_parseHandlerLoop _ _
  refine ⟨new, hnew, howners, ?_⟩
  rw [extractHandlers, hsplit, List.foldl_append, List.foldl_cons, hact, filter_foldl hspan, hnew,
    List.filter_append, hfront, List.filter_nil, List.nil_append, List.filter_eq_self]
  · intro handler hmem
    simp [howners handler hmem]
  · intro entry hmem
    have := List.le_snd_of_mem_zipIdx hmem
    rw [h, ne_eq, Option.some.injEq]
    omega

/-! ## Bodies -/

theorem Positioned.startOf_lt (hpos : Positioned tokens) {j k : Nat} {token : Token} (hlt : j < k)
    (hj : tokens[j]? = some token) (hkind : token.effectiveKind ≠ .eof)
    (hk : k < tokens.length) : startOf tokens j < startOf tokens k := by
  obtain ⟨hj', hget⟩ := List.getElem?_eq_some_iff.mp hj
  have hordered := List.pairwise_iff_getElem.mp hpos.ordered j k hj' hk hlt
  have hnonempty := hpos.nonempty token (hget ▸ List.getElem_mem hj') hkind
  rw [hget] at hordered
  simp only [startOf, hj, List.getElem?_eq_getElem hk]
  omega

/-- The place the search answers with belongs to the body. -/
theorem OwnBody.search_owner {tree : BodyTree} {base k : Nat}
    (hown : OwnBody scopeTree subprograms tokens subprogram span) (packages : List Package)
    (hpos : Positioned tokens) (hbody : BodyAt scopeTree tokens span tree base)
    (h : topLevelExceptionIndex scopeTree tokens span = some k) :
    ∃ token, tokens[k]? = some token ∧ token.effectiveKind = .kwException ∧
      ownerForException scopeTree packages subprograms token
        = some (.subprogram subprogram.id) := by
  have hloop := h
  rw [hbody.search_begin] at hloop
  obtain ⟨hle, hbefore, hskip, hkind⟩ := topLevelExceptionLoop_some hloop
  have hk := lt_of_tokenStartsBefore hbefore
  have htoken : tokens[k]? = some tokens[k] := List.getElem?_eq_getElem hk
  refine ⟨tokens[k], htoken, ?_, hown.owner ⟨?_, k, htoken, hskip⟩⟩
  · simpa [kindAt, tokenKindAt, htoken] using hkind
  · have hbase : base < k := by
      have : base ≤ tree.beginIndex base := Nat.le_add_right _ _
      omega
    have hfirst : tokens[base]? = some tokens[base] := List.getElem?_eq_getElem (by omega)
    have hstart := hbody.first _ hfirst
    obtain ⟨first, hfirst', hkind'⟩ := hbody.kinds.get_marks (j := 0)
      (kindsOf_pos (by simp [BodyTree.marks, Decl.marks]))
    rw [Nat.add_zero] at hfirst'
    have hlt := hpos.startOf_lt hbase hfirst' hkind' hk
    simp only [startOf, hfirst, htoken] at hlt
    simp only [tokenStartsBefore, htoken, decide_eq_true_eq] at hbefore
    simp only [spanContainsByte, Bool.and_eq_true, decide_eq_true_eq]
    omega

end

/-! ## Two bodies -/

instance decidableFits (skip : Nat → Option Nat) :
    ∀ index pieces, Decidable (Fits skip index pieces)
  | _, [] => inferInstanceAs (Decidable True)
  | index, .mark mark :: pieces =>
      have := decidableFits skip (index + mark.kinds.length) pieces
      inferInstanceAs (Decidable (_ ∧ _))
  | index, .body marks :: pieces =>
      have := decidableFits skip (index + (kindsOf marks).length) pieces
      inferInstanceAs (Decidable (_ ∧ _))

def treeTokens (tree : BodyTree) : List Token := tokenLine 0 (kindsOf tree.marks)

def treeSpan (tree : BodyTree) : Span := ⟨0, (kindsOf tree.marks).length, 1, 1⟩

/-- A body alone in its file. -/
theorem bodyAt_treeTokens {scopeTree : ScopeTree} {tree : BodyTree}
    (hnested : Fits (skipNestedScope scopeTree (treeTokens tree) (treeSpan tree)) 0 tree.pieces)
    (hrecords : (visible tree.front).all fun mark => decide (.kwBegin ∉ mark.kinds)) :
    BodyAt scopeTree (treeTokens tree) (treeSpan tree) tree 0 := by
  refine ⟨?_, fun i token hi => absurd hi (Nat.not_lt_zero i), ?_, ?_, hnested, ?_⟩
  · have hat : At (tokenLine 0 ([] ++ (kindsOf tree.marks ++ []))) (kindsOf tree.marks).length
        ([] : List TokenKind).length (kindsOf tree.marks) := at_tokenLine (by simp)
    rwa [List.nil_append, List.append_nil] at hat
  · intro token htoken
    rw [treeTokens, getElem?_tokenLine] at htoken
    obtain ⟨kind, -, rfl⟩ := Option.map_eq_some_iff.mp htoken
    rfl
  · intro token htoken
    rw [treeTokens, getElem?_tokenLine, List.getElem?_eq_none (by omega)] at htoken
    cases htoken
  · intro hmem
    have hkinds := List.all_eq_true.mp hrecords _ hmem
    simp [Mark.kinds] at hkinds

def whenOthers : ArmLead := ⟨none, .others, []⟩

/-- `when E : Foo | Bar.Baz =>` -/
def whenFoo : ArmLead := ⟨some "e", .name "foo" [], [.name "bar" ["baz"]]⟩

def procedureHeader (name : String) : List Phrase :=
  [[procedureWord, identifierWord name, isWord]]

/-- `procedure P is procedure Q is begin null; end Q; begin
case X is when A => begin null; end; end case;
exception when E : Foo | Bar.Baz => null; when others => null; end P;` -/
def caseTree : BodyTree where
  header := procedureHeader "p"
  decls := .cons (.unitBody (procedureHeader "q") .nil (.cons nullStatement .nil) .nil ["q"]) .nil
  body := .cons (.compound .case [] (.cons
    [identifierWord "x", isWord, whenWord, identifierWord "a", arrowWord]
    (.cons (.block [] (.cons nullStatement .nil) .nil []) .nil) .nil) []) .nil
  arms := .cons whenFoo (.cons nullStatement .nil)
    (.cons whenOthers (.cons nullStatement .nil) .nil)
  name := ["p"]

/-- `procedure P is begin begin null; end; exception when others => null;
end P;` -/
def blockTree : BodyTree where
  header := procedureHeader "p"
  decls := .nil
  body := .cons (.block [] (.cons nullStatement .nil) .nil []) .nil
  arms := .cons whenOthers (.cons nullStatement .nil) .nil
  name := ["p"]

def procedureScope (name : String) (span : Span) (parent : Option Nat) : Scope :=
  ⟨.subprogramBody, [name], span, some span, parent, false⟩

def caseScopes : ScopeTree :=
  ⟨[procedureScope "p" (treeSpan caseTree) none, procedureScope "q" ⟨3, 12, 1, 4⟩ (some 0)]⟩

def caseSubprograms : List Subprogram :=
  [⟨0, some (treeSpan caseTree)⟩, ⟨1, some ⟨3, 12, 1, 4⟩⟩]

theorem ownBody_caseTree : OwnBody caseScopes caseSubprograms (treeTokens caseTree)
    ⟨0, some (treeSpan caseTree)⟩ (treeSpan caseTree) := by
  -- the tokens of `Q` are hidden by its scope
  have hhidden : ∀ i < (treeTokens caseTree).length,
      skipNestedScope caseScopes (treeTokens caseTree) (treeSpan caseTree) i = none →
      spanContainsByte ⟨3, 12, 1, 4⟩ (startOf (treeTokens caseTree) i) = false := by
    decide
  refine ⟨List.mem_cons_self, rfl, ?_, ?_, ?_⟩
  · simp [caseSubprograms]
  · intro other hother hne span' hspan token hbody hin
    obtain ⟨-, index, htoken, hskip⟩ := hbody
    simp only [caseSubprograms, List.mem_cons, List.not_mem_nil, or_false] at hother
    rcases hother with rfl | rfl
    · exact absurd rfl hne
    · cases hspan
      have hlt := (List.getElem?_eq_some_iff.mp htoken).1
      have hout := hhidden index hlt hskip
      simp only [startOf, htoken, hin] at hout
      cases hout
  · intro scope hscope hkind
    simp only [caseScopes, procedureScope, List.mem_cons, List.not_mem_nil, or_false] at hscope
    rcases hscope with rfl | rfl
    · cases hkind
    · cases hkind

end GovFuzz.AdaParser
