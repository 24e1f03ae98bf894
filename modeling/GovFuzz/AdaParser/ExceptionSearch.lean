import GovFuzz.AdaParser.Pieces

/-!
# Ada parser — the search for the exception part

`top_level_exception_index` on the tokens of a body.  It answers with the
body's own exception part exactly if the statements are `searchable`;
otherwise with none, or with the exception part of a block.
-/

namespace GovFuzz.AdaParser

/-! ## The search on pieces -/

/-- The tokens at `index` are jumped over where the pieces say so, and
nowhere else. -/
def Fits (skip : Nat → Option Nat) : Nat → List Piece → Prop
  | _, [] => True
  | index, .mark mark :: pieces =>
      (∀ k, index ≤ k → k < index + mark.kinds.length → skip k = none) ∧
        Fits skip (index + mark.kinds.length) pieces
  | index, .body marks :: pieces =>
      (0 < (kindsOf marks).length ∧ skip index = some (index + (kindsOf marks).length)) ∧
        Fits skip (index + (kindsOf marks).length) pieces

theorem Fits.append {skip : Nat → Option Nat} {index : Nat} {a b : List Piece}
    (h : Fits skip index (a ++ b)) :
    Fits skip index a ∧ Fits skip (index + (kindsOf (flat a)).length) b := by
  induction a generalizing index with
  | nil => exact ⟨trivial, h⟩
  | cons piece a ih =>
      cases piece with
      | mark mark =>
          obtain ⟨hclear, hrest⟩ := h
          obtain ⟨ha, hb⟩ := ih hrest
          refine ⟨⟨hclear, ha⟩, ?_⟩
          rwa [flat_mark, kindsOf_cons, List.length_append, ← Nat.add_assoc]
      | body marks =>
          obtain ⟨hjump, hrest⟩ := h
          obtain ⟨ha, hb⟩ := ih hrest
          refine ⟨⟨hjump, ha⟩, ?_⟩
          have hflat : flat (.body marks :: a) = marks ++ flat a := rfl
          rwa [hflat, kindsOf_append, List.length_append, ← Nat.add_assoc]

section
variable {scopeTree : ScopeTree} {tokens : List Token} {span : Span} {index depth : Nat}

/-- What the search answers where it stops. -/
def ownException (tokens : List Token) (index : Nat) : Option Nat :=
  if kindAt tokens index .kwException then some index else none

theorem topLevelExceptionLoop_steps (hbefore : tokenStartsBefore tokens index span.endByte = true)
    (hskip : skipNestedScope scopeTree tokens span index = none) :
    Steps .kwException tokens (ownException tokens)
      (fun i d => topLevelExceptionLoop scopeTree tokens span i true d) index := by
  intro depth
  show topLevelExceptionLoop scopeTree tokens span index true depth = _
  rw [topLevelExceptionLoop, dif_pos hbefore, hskip]
  by_cases hexc : kindAt tokens index .kwException = true
  · by_cases hzero : depth = 0
    · simp [hexc, hzero, ownException]
    · simp [hzero]
  · simp only [hexc, ownException, Bool.not_true, Bool.false_eq_true, if_false, and_false,
      false_or]

theorem topLevelExceptionLoop_jump {next : Nat} (sawBegin : Bool)
    (hbefore : tokenStartsBefore tokens index span.endByte = true)
    (hskip : skipNestedScope scopeTree tokens span index = some next) (hlt : index < next) :
    topLevelExceptionLoop scopeTree tokens span index sawBegin depth
      = topLevelExceptionLoop scopeTree tokens span next sawBegin depth := by
  rw [topLevelExceptionLoop, dif_pos hbefore, hskip]
  simp only [hlt, dif_pos]

theorem topLevelExceptionLoop_done (hbefore : tokenStartsBefore tokens index span.endByte = false)
    (sawBegin : Bool) :
    topLevelExceptionLoop scopeTree tokens span index sawBegin depth = none := by
  rw [topLevelExceptionLoop, dif_neg (by simp [hbefore])]

theorem topLevelExceptionLoop_mark {mark : Mark} {marks : List Mark}
    (hwell : WellPlaced (mark :: marks))
    (h : At tokens span.endByte index (kindsOf (mark :: marks)))
    (hskip : ∀ k, index ≤ k → k < index + mark.kinds.length →
      skipNestedScope scopeTree tokens span k = none) (depth : Nat) :
    topLevelExceptionLoop scopeTree tokens span index true depth
      = if depth = 0 ∧ mark.stops .kwException then ownException tokens index
        else topLevelExceptionLoop scopeTree tokens span (index + mark.kinds.length) true
          (mark.shift caseOrSelect depth) := by
  have hkinds := At.lookahead hwell h
  have hsteps : StepsOver .kwException tokens (ownException tokens)
      (fun i d => topLevelExceptionLoop scopeTree tokens span i true d) index
      mark.kinds.length := fun k hle hlt =>
    topLevelExceptionLoop_steps (hkinds.append.1.startsBefore k hle hlt) (hskip k hle hlt)
  exact scan_mark rfl mark hkinds hsteps depth

/-- Pieces the search does not stop among. -/
theorem topLevelExceptionLoop_pieces (pieces : List Piece) (rest : List Mark)
    (hwell : WellPlaced (flat pieces ++ rest))
    (h : At tokens span.endByte index (kindsOf (flat pieces ++ rest)))
    (hfits : Fits (skipNestedScope scopeTree tokens span) index pieces) {depth depth' : Nat}
    (hrun : runDepth caseOrSelect .kwException (visible pieces) depth = some depth') :
    topLevelExceptionLoop scopeTree tokens span index true depth
      = topLevelExceptionLoop scopeTree tokens span (index + (kindsOf (flat pieces)).length) true
        depth' := by
  induction pieces generalizing index depth with
  | nil =>
      cases hrun
      rfl
  | cons piece pieces ih =>
      cases piece with
      | mark mark =>
          obtain ⟨hskip, hfits⟩ := hfits
          rw [visible_mark, runDepth] at hrun
          split at hrun
          · cases hrun
          · rename_i hgo
            have hmark := topLevelExceptionLoop_mark hwell h hskip depth
            rw [flat_mark, List.cons_append, kindsOf_cons] at h
            rw [hmark, if_neg hgo, ih hwell.tail h.append.2 hfits hrun, flat_mark, kindsOf_cons,
              List.length_append, Nat.add_assoc]
      | body marks =>
          obtain ⟨⟨hpos, hskip⟩, hfits⟩ := hfits
          have hflat : flat (.body marks :: pieces) = marks ++ flat pieces := rfl
          rw [hflat, List.append_assoc] at hwell h
          rw [kindsOf_append] at h
          have hbefore := h.append.1.startsBefore index (Nat.le_refl _) (by omega)
          rw [topLevelExceptionLoop_jump true hbefore hskip (by omega),
            ih hwell.of_append h.append.2 hfits hrun, hflat, kindsOf_append, List.length_append,
            Nat.add_assoc]

end

/-! ## Subprogram bodies -/

structure BodyTree where
  header : List Phrase
  decls : Decls
  body : Stmts
  arms : Arms
  name : List String

namespace BodyTree

/-- Header and declarations. -/
def front (tree : BodyTree) : List Piece := plains (headerMarks tree.header) ++ tree.decls.pieces

/-- From the exception part on. -/
def back (tree : BodyTree) : List Piece :=
  tree.arms.partPieces ++ [.mark (.closeBlock tree.name), .mark .semicolon]

def pieces (tree : BodyTree) : List Piece :=
  tree.front ++ .mark .begin :: (tree.body.pieces ++ tree.back)

def marks (tree : BodyTree) : List Mark :=
  (Decl.unitBody tree.header tree.decls tree.body tree.arms tree.name).marks

theorem flat_pieces (tree : BodyTree) : flat tree.pieces = tree.marks := by
  simp [pieces, front, back, marks, Decl.marks, Decls.flat_pieces, Stmts.flat_pieces,
    Arms.flat_partPieces]

theorem wellPlaced (tree : BodyTree) : WellPlaced (flat tree.pieces) := by
  rw [flat_pieces]
  exact (Decl.formed (.unitBody tree.header tree.decls tree.body tree.arms tree.name) :
    Formed caseOrSelect _ _).wellPlaced

/-- The search finds the exception part of these statements. -/
def searchable (tree : BodyTree) : Bool :=
  tree.body.openCases = 0 && tree.body.clear .kwException

/-- Token index of `begin`, when the header starts at `base`. -/
def beginIndex (tree : BodyTree) (base : Nat) : Nat := base + (kindsOf (flat tree.front)).length

/-- Token index behind the statements, where the exception part starts. -/
def exceptionIndex (tree : BodyTree) (base : Nat) : Nat :=
  tree.beginIndex base + 1 + (kindsOf tree.body.marks).length

end BodyTree

/-- The body stands at `base`, its span covers it, and the scopes nested in
it are those of its nested bodies. -/
structure BodyAt (scopeTree : ScopeTree) (tokens : List Token) (span : Span) (tree : BodyTree)
    (base : Nat) : Prop where
  kinds : At tokens span.endByte base (kindsOf tree.marks)
  before : ∀ i token, i < base → tokens[i]? = some token → token.textSpan.start < span.startByte
  first : ∀ token, tokens[base]? = some token → token.textSpan.start = span.startByte
  after : ∀ token, tokens[base + (kindsOf tree.marks).length]? = some token →
    span.endByte ≤ token.textSpan.start
  nested : Fits (skipNestedScope scopeTree tokens span) base tree.pieces
  /-- Among the components of a record there are no blocks. -/
  records : Mark.begin ∉ visible tree.front

section
variable {scopeTree : ScopeTree} {tokens : List Token} {span : Span} {index depth : Nat}

theorem eq_begin_of_mem_kinds {mark : Mark} (h : TokenKind.kwBegin ∈ mark.kinds) :
    mark = .begin := by
  cases mark with
  | begin => rfl
  | plain kind hplain =>
      rw [Mark.kinds, List.mem_singleton] at h
      rw [← h] at hplain
      cases hplain
  | «open» bracket =>
      cases bracket with
      | record lead => cases lead <;> simp [Mark.kinds, Bracket.openKinds, RecordLead.kind] at h
      | _ => simp [Mark.kinds, Bracket.openKinds, Bracket.keyword] at h
  | close bracket => cases bracket <;> simp [Mark.kinds, Bracket.keyword] at h
  | closeBlock name =>
      rcases List.mem_cons.mp h with h | h
      · cases h
      · cases isNamePart_of_mem_nameKinds h
  | _ => simp [Mark.kinds] at h

theorem topLevelExceptionLoop_kinds (kinds : List TokenKind) (hbegin : .kwBegin ∉ kinds)
    (h : At tokens span.endByte index kinds)
    (hskip : ∀ k, index ≤ k → k < index + kinds.length →
      skipNestedScope scopeTree tokens span k = none) :
    topLevelExceptionLoop scopeTree tokens span index false depth
      = topLevelExceptionLoop scopeTree tokens span (index + kinds.length) false depth := by
  induction kinds generalizing index with
  | nil => rfl
  | cons kind kinds ih =>
      have hne : kind ≠ .kwBegin := fun heq => hbegin (heq ▸ List.mem_cons_self)
      have hkind : kindAt tokens index .kwBegin = false := by
        simp [kindAt, h.tokenKindAt, hne]
      rw [List.length_cons] at hskip ⊢
      rw [topLevelExceptionLoop, dif_pos (tokenStartsBefore_of_at h),
        hskip index (Nat.le_refl _) (by omega), hkind, Nat.add_comm kinds.length, ← Nat.add_assoc]
      exact ih (fun hmem => hbegin (List.mem_cons_of_mem _ hmem)) h.2
        fun k hle hlt => hskip k (by omega) (by omega)

/-- In front of `begin`. -/
theorem topLevelExceptionLoop_front (pieces : List Piece) (rest : List Mark)
    (hbegin : Mark.begin ∉ visible pieces)
    (h : At tokens span.endByte index (kindsOf (flat pieces ++ rest)))
    (hfits : Fits (skipNestedScope scopeTree tokens span) index pieces) :
    topLevelExceptionLoop scopeTree tokens span index false depth
      = topLevelExceptionLoop scopeTree tokens span (index + (kindsOf (flat pieces)).length) false
        depth := by
  induction pieces generalizing index with
  | nil => rfl
  | cons piece pieces ih =>
      cases piece with
      | mark mark =>
          obtain ⟨hskip, hfits⟩ := hfits
          rw [visible_mark, List.mem_cons, not_or] at hbegin
          rw [flat_mark, List.cons_append, kindsOf_cons] at h
          have hkinds : .kwBegin ∉ mark.kinds := fun hmem =>
            hbegin.1 (eq_begin_of_mem_kinds hmem).symm
          rw [topLevelExceptionLoop_kinds mark.kinds hkinds h.append.1 hskip,
            ih hbegin.2 h.append.2 hfits, flat_mark, kindsOf_cons, List.length_append,
            Nat.add_assoc]
      | body marks =>
          obtain ⟨⟨hpos, hskip⟩, hfits⟩ := hfits
          have hflat : flat (.body marks :: pieces) = marks ++ flat pieces := rfl
          rw [hflat, List.append_assoc, kindsOf_append] at h
          have hbefore := h.append.1.startsBefore index (Nat.le_refl _) (by omega)
          rw [topLevelExceptionLoop_jump false hbefore hskip (by omega),
            ih hbegin h.append.2 hfits, hflat, kindsOf_append, List.length_append, Nat.add_assoc]

theorem firstTokenAtOrAfter_eq {base byte : Nat} {token : Token}
    (htoken : tokens[base]? = some token)
    (hbyte : byte ≤ token.textSpan.start)
    (hbefore : ∀ i token, i < base → tokens[i]? = some token → token.textSpan.start < byte) :
    firstTokenAtOrAfter tokens byte = base := by
  have hlt := (List.getElem?_eq_some_iff.mp htoken).1
  have hfound : tokens.findIdx? (fun token => byte ≤ token.textSpan.start) = some base := by
    rw [List.findIdx?_eq_some_iff_getElem]
    refine ⟨hlt, ?_, fun j hj => ?_⟩
    · rw [List.getElem?_eq_getElem hlt, Option.some.injEq] at htoken
      simpa [htoken] using hbyte
    · have := hbefore j tokens[j] hj (List.getElem?_eq_getElem _)
      simpa using this
  rw [firstTokenAtOrAfter, hfound, Option.getD_some]

end

/-- Behind `index` stands the rest of a block that ends in front of `stop`,
and then the rest of the body. -/
def Trapped (tokens : List Token) (limit index stop : Nat) : Prop :=
  ∃ inside name outside m,
    At tokens limit (index + 1) (kindsOf (inside ++ .closeBlock name :: outside)) ∧
    WellPlaced (.exception :: (inside ++ .closeBlock name :: outside)) ∧
    Climbs caseOrSelect outside m ∧ index + 1 + (kindsOf inside).length < stop ∧
    tokenStartsBefore tokens
      (index + 1 + (kindsOf (inside ++ .closeBlock name :: outside)).length) limit = false

namespace BodyAt

variable {scopeTree : ScopeTree} {tokens : List Token} {span : Span} {tree : BodyTree}
  {base : Nat}

theorem at_front (h : BodyAt scopeTree tokens span tree base) :
    At tokens span.endByte base
      (kindsOf (flat tree.front ++ .begin :: (flat tree.body.pieces ++ flat tree.back))) := by
  have hkinds := h.kinds
  rw [← tree.flat_pieces] at hkinds
  simpa [BodyTree.pieces] using hkinds

theorem at_begin (h : BodyAt scopeTree tokens span tree base) :
    At tokens span.endByte (tree.beginIndex base)
      (kindsOf (.begin :: (flat tree.body.pieces ++ flat tree.back))) := by
  have hfront := h.at_front
  rw [kindsOf_append] at hfront
  exact hfront.append.2

theorem at_body (h : BodyAt scopeTree tokens span tree base) :
    At tokens span.endByte (tree.beginIndex base + 1)
      (kindsOf (flat tree.body.pieces ++ flat tree.back)) := h.at_begin.2

theorem at_back (h : BodyAt scopeTree tokens span tree base) :
    At tokens span.endByte (tree.exceptionIndex base) (kindsOf (flat tree.back)) := by
  have hbody := h.at_body
  rw [kindsOf_append, Stmts.flat_pieces] at hbody
  exact hbody.append.2

theorem fits_body (h : BodyAt scopeTree tokens span tree base) :
    Fits (skipNestedScope scopeTree tokens span) (tree.beginIndex base + 1)
      (tree.body.pieces ++ tree.back) := h.nested.append.2.2

theorem fits_back (h : BodyAt scopeTree tokens span tree base) :
    Fits (skipNestedScope scopeTree tokens span) (tree.exceptionIndex base) tree.back := by
  have hback := h.fits_body.append.2
  rwa [Stmts.flat_pieces] at hback

theorem done (h : BodyAt scopeTree tokens span tree base) :
    tokenStartsBefore tokens (tree.exceptionIndex base + (kindsOf (flat tree.back)).length)
      span.endByte = false := by
  have hwidth : tree.exceptionIndex base + (kindsOf (flat tree.back)).length
      = base + (kindsOf tree.marks).length := by
    rw [← tree.flat_pieces]
    simp only [BodyTree.exceptionIndex, BodyTree.beginIndex, BodyTree.pieces, flat_append,
      flat_mark, kindsOf_append, kindsOf_cons, Stmts.flat_pieces, List.length_append, Mark.kinds,
      List.length_singleton]
    omega
  rw [hwidth]
  unfold tokenStartsBefore
  split
  · rename_i token htoken
    have := h.after token htoken
    simp only [decide_eq_false_iff_not]
    omega
  · rfl

/-- The search gets to `begin`. -/
theorem search_begin (h : BodyAt scopeTree tokens span tree base) :
    topLevelExceptionIndex scopeTree tokens span
      = topLevelExceptionLoop scopeTree tokens span (tree.beginIndex base + 1) true 0 := by
  obtain ⟨token, htoken⟩ : ∃ token, tokens[base]? = some token := by
    have hne : kindsOf (flat tree.front ++ .begin :: (flat tree.body.pieces ++ flat tree.back))
        ≠ [] := by simp [kindsOf_append, kindsOf_cons, Mark.kinds]
    have hat := h.at_front
    cases hkinds : kindsOf (flat tree.front ++
        .begin :: (flat tree.body.pieces ++ flat tree.back)) with
    | nil => exact absurd hkinds hne
    | cons kind kinds =>
        rw [hkinds] at hat
        obtain ⟨token, htoken, -⟩ := hat.1
        exact ⟨token, htoken⟩
  rw [topLevelExceptionIndex,
    firstTokenAtOrAfter_eq htoken (Nat.le_of_eq (h.first token htoken).symm) h.before,
    topLevelExceptionLoop_front tree.front _ h.records h.at_front h.nested.append.1,
    ← BodyTree.beginIndex, topLevelExceptionLoop, dif_pos (tokenStartsBefore_of_at h.at_begin)]
  have hskip : skipNestedScope scopeTree tokens span (tree.beginIndex base) = none :=
    h.nested.append.2.1 _ (Nat.le_refl _) (Nat.lt_succ_self _)
  have hkind : kindAt tokens (tree.beginIndex base) .kwBegin = true := by
    simp [kindAt, h.at_begin.tokenKindAt]
  rw [hskip, hkind]
  rfl

theorem wellPlaced_body : WellPlaced (flat tree.body.pieces ++ flat tree.back) := by
  have hwell := tree.wellPlaced
  rw [BodyTree.pieces, flat_append, flat_mark] at hwell
  have hbody := hwell.of_append.tail
  rwa [flat_append] at hbody

/-- The exception part is found if the statements are `searchable`. -/
theorem search_own (h : BodyAt scopeTree tokens span tree base) (hs : tree.searchable = true)
    (harms : tree.arms ≠ .nil) :
    topLevelExceptionIndex scopeTree tokens span = some (tree.exceptionIndex base) := by
  simp only [BodyTree.searchable, Bool.and_eq_true, decide_eq_true_eq] at hs
  have hsearched := tree.body.searched
  rw [hs.1, hs.2] at hsearched
  have hrun : runDepth caseOrSelect .kwException (visible tree.body.pieces) 0 = some 0 := by
    rcases hsearched.search with ⟨hrun, -⟩ | ⟨hfree, -⟩
    · exact hrun
    · cases hfree
  have hloop := topLevelExceptionLoop_pieces tree.body.pieces (flat tree.back) wellPlaced_body
    h.at_body h.fits_body.append.1 hrun
  rw [Stmts.flat_pieces] at hloop
  rw [h.search_begin, hloop]
  show topLevelExceptionLoop scopeTree tokens span (tree.exceptionIndex base) true 0 = _
  obtain ⟨pieces, hback⟩ : ∃ pieces, tree.back = .mark .exception :: pieces := by
    unfold BodyTree.back
    cases htree : tree.arms with
    | nil => exact absurd htree harms
    | cons lead body rest => exact ⟨_, rfl⟩
  have hat := h.at_back
  have hfits := h.fits_back
  have hwell : WellPlaced (flat tree.back) := wellPlaced_body.of_append
  rw [hback] at hat hfits hwell
  rw [topLevelExceptionLoop_mark hwell hat hfits.1, if_pos ⟨rfl, rfl⟩, ownException,
    if_pos (by simp [kindAt, At.tokenKindAt hat])]

theorem climbs_back (tree : BodyTree) :
    (∃ n, Climbs caseOrSelect (visible tree.back) n) ∧
      ∃ m, Climbs caseOrSelect (flat tree.back) m := by
  obtain ⟨free, harms⟩ := tree.arms.searched
  obtain ⟨hvisible, m, hflat⟩ := harms.part
  have hclose : Climbs caseOrSelect [.closeBlock tree.name, .semicolon] 0 :=
    (formed_close tree.name).climbs
  refine ⟨⟨tree.arms.openCases + 0, ?_⟩, ⟨m + 0, ?_⟩⟩
  · rw [BodyTree.back, visible_append]
    exact hvisible.append hclose
  · rw [BodyTree.back, flat_append]
    exact hflat.append hclose

/-- Otherwise the search finds nothing, or the exception part of a block. -/
theorem search_lost (h : BodyAt scopeTree tokens span tree base)
    (hs : tree.searchable = false) :
    topLevelExceptionIndex scopeTree tokens span = none ∨
      ∃ k, topLevelExceptionIndex scopeTree tokens span = some k ∧
        Trapped tokens span.endByte k (tree.exceptionIndex base) := by
  obtain ⟨⟨n, hvisible⟩, ⟨m, hflat⟩⟩ := climbs_back tree
  rw [h.search_begin]
  rcases tree.body.searched.search with ⟨hrun, hpos⟩ | ⟨-, front, mark, behind, hsplit, hrun, hmark⟩
  · -- a case that is left open hides the exception part to the end of the body
    left
    have hopen : 0 < tree.body.openCases := by
      rcases Nat.eq_zero_or_pos tree.body.openCases with hzero | hlt
      · have hclear : tree.body.clear .kwException = false := by
          simpa [BodyTree.searchable, hzero] using hs
        exact hpos hclear
      · exact hlt
    have hback : runDepth caseOrSelect .kwException (visible tree.back) tree.body.openCases
        = some (tree.body.openCases + n) := (hvisible _ _).resolve_right (by omega)
    have hbody := topLevelExceptionLoop_pieces tree.body.pieces (flat tree.back) wellPlaced_body
      h.at_body h.fits_body.append.1 hrun
    rw [Stmts.flat_pieces] at hbody
    have hwell : WellPlaced (flat tree.back ++ []) := by
      rw [List.append_nil]
      exact wellPlaced_body.of_append
    have hat := h.at_back
    rw [← List.append_nil (flat tree.back)] at hat
    rw [hbody]
    refine (topLevelExceptionLoop_pieces tree.back [] hwell hat h.fits_back hback).trans ?_
    exact topLevelExceptionLoop_done h.done true
  · -- the search stops early, at a mark inside the body
    have hflatBody : flat tree.body.pieces = flat front ++ mark :: flat behind := by
      rw [hsplit, flat_append, flat_mark]
    have hat := h.at_body
    have hwell : WellPlaced (flat tree.body.pieces ++ flat tree.back) := wellPlaced_body
    rw [hflatBody, List.append_assoc] at hat hwell
    have hfits := h.fits_body.append.1
    rw [hsplit] at hfits
    have hfront := topLevelExceptionLoop_pieces front _ hwell hat hfits.append.1 hrun
    rw [kindsOf_append] at hat
    have hthere := hat.append.2
    have hstops : mark.stops .kwException = true := by
      rcases hmark with ⟨name, rfl⟩ | ⟨rfl, -⟩
      · rfl
      · rfl
    rw [hfront, topLevelExceptionLoop_mark hwell.of_append hthere hfits.append.2.1,
      if_pos ⟨rfl, hstops⟩, ownException]
    rcases hmark with ⟨name, rfl⟩ | ⟨rfl, inside, name, outside, l, hbehind, hclimbs⟩
    · left
      rw [if_neg]
      simp [kindAt, hthere.tokenKindAt]
    · right
      have hafter : flat behind ++ flat tree.back
          = flat inside ++ .closeBlock name :: (flat outside ++ flat tree.back) := by
        rw [hbehind]
        simp
      refine ⟨_, if_pos (by simp [kindAt, hthere.tokenKindAt]), flat inside, name,
        flat outside ++ flat tree.back, l + m, ?_, ?_, hclimbs.append hflat, ?_, ?_⟩
      · have hrest : At tokens span.endByte (_ + 1) (kindsOf (flat behind ++ flat tree.back)) :=
          hthere.2
        rwa [hafter] at hrest
      · have hrest : WellPlaced (.exception :: (flat behind ++ flat tree.back)) :=
          hwell.of_append
        rwa [hafter] at hrest
      · rw [BodyTree.exceptionIndex, ← Stmts.flat_pieces, hflatBody, hbehind]
        simp only [flat_append, flat_mark, kindsOf_append, kindsOf_cons, List.length_append,
          Mark.kinds, List.length_cons]
        omega
      · rw [← hafter]
        have hdone := h.done
        rw [BodyTree.exceptionIndex, ← Stmts.flat_pieces, hflatBody] at hdone
        simp only [kindsOf_append, kindsOf_cons, List.length_append, Mark.kinds,
          List.length_cons, List.length_nil] at hdone ⊢
        convert hdone using 2
        omega

end BodyAt

end GovFuzz.AdaParser
