import GovFuzz.Instrumenter.Rewriter

/-!
# Instrumenter — what a rewritten text is made of

The output is a list of pieces: stretches of the source, and between them
the operations.  Reading every piece as what it puts into the output gives
the output; reading it as what it stands for in the source gives the source
back.  That is the sense in which instrumentation can be erased.
-/

namespace GovFuzz.Instrumenter

open GovFuzz.Lib

/-- A stretch of the source from position `pos`, or an operation. -/
inductive Piece where
  | copy (pos : Nat) (bytes : List UInt8)
  | edit (op : RewriteOp)
  deriving DecidableEq

/-- What the operation puts into the output. -/
def RewriteOp.text : RewriteOp → List UInt8
  | .insert insertion => insertion.text
  | .replace _ _ replacement _ => replacement

/-- What the operation takes out of the source. -/
@[grind =] def RewriteOp.replaced (source : List UInt8) : RewriteOp → List UInt8
  | .insert _ => []
  | .replace start stop _ _ => (source.take stop.toNat).drop start.toNat

@[grind =] def Piece.outText : Piece → List UInt8
  | .copy _ bytes => bytes
  | .edit op => op.text

@[grind =] def Piece.srcText (source : List UInt8) : Piece → List UInt8
  | .copy _ bytes => bytes
  | .edit op => op.replaced source

/-- Where copying goes on after an operation. -/
@[grind =] def RewriteOp.nextCursor (cursor : Nat) : RewriteOp → Nat
  | .insert insertion => max cursor insertion.byteOffset.toNat
  | .replace start stop _ _ => max (max cursor start.toNat) stop.toNat

@[grind =] def pieces (source : List UInt8) : Nat → List RewriteOp → List Piece
  | cursor, [] => [.copy cursor (source.drop cursor)]
  | cursor, op :: ops =>
      .copy cursor ((source.take op.startByte.toNat).drop cursor) :: .edit op ::
        pieces source (op.nextCursor cursor) ops

/-! ## The two loops are one -/

/-- The loop without groups: copy, apply, next. -/
@[grind =] def applyFlat (source : List UInt8) : List RewriteOp → Rewriting →
    Except InstrumenterError Rewriting
  | [], st => .ok st
  | op :: ops, st => do
      let st ← copyUpTo source op.startByte.toNat st
      applyFlat source ops (applyOp source st op)

theorem copyUpTo_of_le {source : List UInt8} {groupStart : Nat} {st : Rewriting}
    (h : groupStart ≤ st.cursor) : copyUpTo source groupStart st = .ok st := by
  rw [copyUpTo, if_neg (Nat.not_lt.mpr h)]
  rfl

/-- What a copy that succeeds has done. -/
theorem copyUpTo_eq_ok {source : List UInt8} {groupStart : Nat} {st st' : Rewriting}
    (h : copyUpTo source groupStart st = .ok st') :
    (groupStart ≤ st.cursor ∧ st' = st) ∨
      (st.cursor < groupStart ∧ groupStart ≤ source.length ∧
        st' = { st with
          out := st.out ++ (source.take groupStart).drop st.cursor
          outLine := saturatingAdd st.outLine
            (countNewlines ((source.take groupStart).drop st.cursor))
          srcLine := saturatingAdd st.srcLine
            (countNewlines ((source.take groupStart).drop st.cursor))
          cursor := groupStart }) := by
  rcases Nat.lt_or_ge st.cursor groupStart with hlt | hge
  · rw [copyUpTo, if_pos hlt] at h
    obtain ⟨slice, hslice, h⟩ := bind_eq_ok.mp h
    unfold sourceSlice at hslice
    split at hslice
    · rename_i hbounds
      cases hslice
      cases h
      exact .inr ⟨hlt, hbounds.2.1, rfl⟩
    · cases hslice
  · rw [copyUpTo_of_le hge] at h
    cases h
    exact .inl ⟨hge, rfl⟩

theorem copyUpTo_out {source : List UInt8} {groupStart : Nat} {st st' : Rewriting}
    (h : copyUpTo source groupStart st = .ok st') :
    st'.out = st.out ++ (source.take groupStart).drop st.cursor ∧
      st'.cursor = max st.cursor groupStart := by
  rcases copyUpTo_eq_ok h with ⟨hle, rfl⟩ | ⟨hlt, -, rfl⟩
  · have hnil : (source.take groupStart).drop st'.cursor = [] := by
      rw [List.drop_eq_nil_iff, List.length_take]
      omega
    rw [hnil, List.append_nil]
    exact ⟨rfl, by omega⟩
  · exact ⟨rfl, by show groupStart = _; omega⟩

theorem applyOp_out (source : List UInt8) (st : Rewriting) (op : RewriteOp) :
    (applyOp source st op).out = st.out ++ op.text := by
  cases op with
  | insert insertion =>
      simp only [applyOp]
      split <;> rfl
  | replace start stop replacement kind => rfl

theorem applyOp_cursor (source : List UInt8) {st : Rewriting} {op : RewriteOp}
    (h : op.startByte.toNat ≤ st.cursor) :
    (applyOp source st op).cursor = op.nextCursor st.cursor := by
  cases op with
  | insert insertion =>
      have hle : insertion.byteOffset.toNat ≤ st.cursor := h
      simp only [applyOp, RewriteOp.nextCursor]
      split
      · show st.cursor = _
        omega
      · show st.cursor = _
        omega
  | replace start stop replacement kind =>
      have hle : start.toNat ≤ st.cursor := h
      simp only [applyOp, RewriteOp.nextCursor]
      omega

theorem RewriteOp.le_nextCursor (cursor : Nat) (op : RewriteOp) :
    max cursor op.startByte.toNat ≤ op.nextCursor cursor := by
  cases op with
  | insert insertion => exact Nat.le_refl _
  | replace start stop replacement kind => exact Nat.le_max_left _ _

/-- Copying up to the operation first makes no difference. -/
theorem RewriteOp.nextCursor_max (cursor : Nat) (op : RewriteOp) :
    op.nextCursor (max cursor op.startByte.toNat) = op.nextCursor cursor := by
  cases op with
  | insert insertion =>
      simp only [RewriteOp.nextCursor, RewriteOp.startByte]
      omega
  | replace start stop replacement kind =>
      simp only [RewriteOp.nextCursor, RewriteOp.startByte]
      omega

/-- A group's later operations start where the cursor already is. -/
theorem applyFlat_group (source : List UInt8) (groupStart : UInt32) (ops : List RewriteOp)
    {st : Rewriting} (h : groupStart.toNat ≤ st.cursor) :
    applyFlat source ops st
      = applyFlat source (applyGroup source groupStart ops st).2
          (applyGroup source groupStart ops st).1 := by
  induction ops generalizing st with
  | nil => rfl
  | cons op ops ih =>
      by_cases hop : op.startByte = groupStart
      · have hle : op.startByte.toNat ≤ st.cursor := by rwa [hop]
        have hnext : groupStart.toNat ≤ (applyOp source st op).cursor := by
          rw [applyOp_cursor source hle]
          have := op.le_nextCursor st.cursor
          omega
        simp only [applyGroup, if_pos hop]
        rw [← ih hnext, applyFlat, copyUpTo_of_le hle]
        rfl
      · simp only [applyGroup, if_neg hop]

theorem applyLoop_eq_applyFlat (source : List UInt8) (ops : List RewriteOp) (st : Rewriting) :
    applyLoop source ops st = applyFlat source ops st := by
  induction ops, st using applyLoop.induct source with
  | case1 st =>
      rw [applyLoop]
      rfl
  | case2 st op ops ih =>
      rw [applyLoop, applyFlat]
      cases hcopy : copyUpTo source op.startByte.toNat st with
      | error e => rfl
      | ok st' =>
          have hcursor := (copyUpTo_out hcopy).2
          have hle : op.startByte.toNat ≤ st'.cursor := by omega
          have hnext : op.startByte.toNat ≤ (applyOp source st' op).cursor := by
            rw [applyOp_cursor source hle]
            have := op.le_nextCursor st'.cursor
            omega
          show applyLoop source _ _ = applyFlat source ops (applyOp source st' op)
          rw [ih st', ← applyFlat_group source op.startByte ops hnext]

/-! ## The text -/

theorem finish_eq_ok {source : List UInt8} {st : Rewriting} {out : List UInt8} {map : LineMap}
    (h : finish source st = .ok (out, map)) :
    out = st.out ++ source.drop st.cursor ∧ map = ⟨st.anchors⟩ := by
  unfold finish at h
  split at h
  · obtain ⟨slice, hslice, h⟩ := bind_eq_ok.mp h
    unfold sourceSlice at hslice
    split at hslice
    · cases hslice
      cases h
      rw [List.take_length]
      exact ⟨rfl, rfl⟩
    · cases hslice
  · rename_i hend
    cases h
    rw [List.drop_eq_nil_of_le (Nat.not_lt.mp hend), List.append_nil]
    exact ⟨rfl, rfl⟩

theorem applyFlat_out {source : List UInt8} (ops : List RewriteOp) {st st' : Rewriting}
    (h : applyFlat source ops st = .ok st') :
    st'.out ++ source.drop st'.cursor
      = st.out ++ (pieces source st.cursor ops).flatMap Piece.outText := by
  induction ops generalizing st with
  | nil =>
      cases h
      simp [pieces, Piece.outText]
  | cons op ops ih =>
      obtain ⟨st₁, hcopy, h⟩ := bind_eq_ok.mp h
      obtain ⟨hout, hcursor⟩ := copyUpTo_out hcopy
      have hle : op.startByte.toNat ≤ st₁.cursor := by omega
      rw [ih h, applyOp_out, applyOp_cursor source hle, hcursor, op.nextCursor_max, hout, pieces]
      simp only [List.flatMap_cons, Piece.outText, List.append_assoc]

/-- Replaced ranges follow on one another. -/
def NoOverlap (ops : List RewriteOp) : Prop :=
  ops.Pairwise fun a b => ∀ r ∈ replacementRange a, ∀ r' ∈ replacementRange b, r.2 ≤ r'.1

/-- Every replacement still to come starts at or behind the cursor. -/
def Ahead (cursor : Nat) (ops : List RewriteOp) : Prop :=
  ∀ op ∈ ops, ∀ r ∈ replacementRange op, cursor ≤ r.1.toNat

theorem Ahead.next {cursor : Nat} {op : RewriteOp} {ops : List RewriteOp}
    (h : Ahead cursor (op :: ops)) (hdisjoint : NoOverlap (op :: ops))
    (hordered : (op :: ops).Pairwise fun a b => a.startByte.toNat ≤ b.startByte.toNat) :
    Ahead (op.nextCursor cursor) ops := by
  intro b hb r hr
  have hcursor := h b (List.mem_cons_of_mem _ hb) r hr
  have hstart : op.startByte.toNat ≤ r.1.toNat := by
    have := (List.pairwise_cons.mp hordered).1 b hb
    cases b with
    | insert insertion => cases hr
    | replace start stop replacement kind =>
        cases hr
        exact this
  cases op with
  | insert insertion =>
      simp only [RewriteOp.nextCursor, RewriteOp.startByte] at hstart ⊢
      omega
  | replace start stop replacement kind =>
      have hstop : stop ≤ r.1 := (List.pairwise_cons.mp hdisjoint).1 b hb (start, stop) rfl r hr
      have hstop' := UInt32.le_iff_toNat_le.mp hstop
      simp only [RewriteOp.nextCursor, RewriteOp.startByte] at hstart ⊢
      omega

/-- Taking the inserted text out and putting the replaced text back gives
the source from the cursor on. -/
theorem pieces_srcText {source : List UInt8} (ops : List RewriteOp) {cursor : Nat}
    (hahead : Ahead cursor ops) (hdisjoint : NoOverlap ops)
    (hordered : ops.Pairwise fun a b => a.startByte.toNat ≤ b.startByte.toNat) :
    (pieces source cursor ops).flatMap (Piece.srcText source) = source.drop cursor := by
  induction ops generalizing cursor with
  | nil => simp [pieces, Piece.srcText]
  | cons op ops ih =>
      have hrest := ih (hahead.next hdisjoint hordered) hdisjoint.of_cons hordered.of_cons
      have hslice : ∀ a b, (source.take b).drop a ++ source.drop (max a b) = source.drop a := by
        intro a b
        rcases Nat.le_total a b with hab | hab
        · rw [Nat.max_eq_right hab, List.drop_take, ← Nat.add_sub_cancel' hab,
            ← List.drop_drop, Nat.add_sub_cancel_left, List.take_append_drop]
        · have hnil : (source.take b).drop a = [] := by
            rw [List.drop_eq_nil_iff, List.length_take]
            omega
          rw [Nat.max_eq_left hab, hnil, List.nil_append]
      simp only [pieces, List.flatMap_cons, Piece.srcText, hrest]
      cases op with
      | insert insertion =>
          simp only [RewriteOp.replaced, RewriteOp.nextCursor, RewriteOp.startByte, List.nil_append]
          exact hslice _ _
      | replace start stop replacement kind =>
          have hcursor : cursor ≤ start.toNat := hahead _ List.mem_cons_self (start, stop) rfl
          simp only [RewriteOp.replaced, RewriteOp.nextCursor, RewriteOp.startByte,
            Nat.max_eq_right hcursor, hslice start.toNat stop.toNat]
          have := hslice cursor start.toNat
          rwa [Nat.max_eq_right hcursor] at this

/-- A copied stretch is what the source has there. -/
theorem pieces_copy_eq {source : List UInt8} (ops : List RewriteOp) {cursor pos : Nat}
    {bytes : List UInt8} (h : Piece.copy pos bytes ∈ pieces source cursor ops) :
    bytes = (source.drop pos).take bytes.length := by
  induction ops generalizing cursor with
  | nil =>
      obtain ⟨rfl, rfl⟩ : pos = cursor ∧ bytes = source.drop cursor := by simpa [pieces] using h
      rw [List.take_length]
  | cons op ops ih =>
      simp only [pieces, List.mem_cons, Piece.copy.injEq, reduceCtorEq, false_or] at h
      rcases h with ⟨rfl, rfl⟩ | h
      · rw [List.drop_take, List.length_take, ← List.take_take, List.take_length]
      · exact ih h

/-! ## Placement -/

/-- Source position `q` is copied by the piece. -/
def Piece.copies (q : Nat) : Piece → Prop
  | .copy pos bytes => pos ≤ q ∧ q < pos + bytes.length
  | .edit _ => False

/-- `a` before `b` is right: an operation stands behind all copied source
in front of its offset, and before all copied source from its offset on. -/
def Piece.InPlace : Piece → Piece → Prop
  | a, .edit op => ∀ q, a.copies q → q < op.startByte.toNat
  | .edit op, b => ∀ q, b.copies q → op.startByte.toNat ≤ q
  | .copy .., .copy .. => True

/-- The operations in the order of the pieces. -/
@[grind =] def editsOf (ps : List Piece) : List RewriteOp :=
  ps.filterMap fun
    | .edit op => some op
    | .copy .. => none

theorem editsOf_pieces (source : List UInt8) (ops : List RewriteOp) (cursor : Nat) :
    editsOf (pieces source cursor ops) = ops := by
  induction ops generalizing cursor with
  | nil => rfl
  | cons op ops ih =>
      have := ih (op.nextCursor cursor)
      simp only [editsOf] at this ⊢
      simp [pieces, this]

theorem pieces_copies_ge {source : List UInt8} (ops : List RewriteOp) {cursor q : Nat} {p : Piece}
    (hp : p ∈ pieces source cursor ops) (hq : p.copies q) : cursor ≤ q := by
  induction ops generalizing cursor with
  | nil =>
      simp only [pieces, List.mem_singleton] at hp
      subst hp
      exact hq.1
  | cons op ops ih =>
      simp only [pieces, List.mem_cons] at hp
      rcases hp with rfl | rfl | hp
      · exact hq.1
      · exact hq.elim
      · have := ih hp
        have := op.le_nextCursor cursor
        omega

theorem pieces_edit_mem {source : List UInt8} {ops : List RewriteOp} {cursor : Nat}
    {op : RewriteOp} (h : .edit op ∈ pieces source cursor ops) : op ∈ ops := by
  rw [← editsOf_pieces source ops cursor, editsOf, List.mem_filterMap]
  exact ⟨_, h, rfl⟩

/-- Ordered edits leave every piece in its place, copied text and inserted text alike. -/
theorem pieces_inPlace {source : List UInt8} (ops : List RewriteOp) (cursor : Nat)
    (hordered : ops.Pairwise fun a b => a.startByte.toNat ≤ b.startByte.toNat) :
    (pieces source cursor ops).Pairwise Piece.InPlace := by
  induction ops generalizing cursor with
  | nil => exact List.pairwise_singleton _ _
  | cons op ops ih =>
      rw [List.pairwise_cons] at hordered
      -- the stretch in front of the operation ends at its offset
      have hstretch : ∀ q, (Piece.copy cursor
          ((source.take op.startByte.toNat).drop cursor)).copies q → q < op.startByte.toNat := by
        rintro q ⟨hge, hlt⟩
        rw [List.length_drop, List.length_take] at hlt
        omega
      rw [pieces, List.pairwise_cons, List.pairwise_cons]
      refine ⟨?_, ?_, ih _ hordered.2⟩
      · intro b hb
        rw [List.mem_cons] at hb
        rcases hb with rfl | hb
        · exact hstretch
        · cases b with
          | copy pos bytes => trivial
          | edit op' =>
              intro q hq
              have hle := hordered.1 op' (pieces_edit_mem hb)
              have := hstretch q hq
              omega
      · intro b hb
        cases b with
        | copy pos bytes =>
            intro q hq
            have hge := pieces_copies_ge ops hb hq
            have := op.le_nextCursor cursor
            omega
        | edit op' =>
            intro q hq
            exact hq.elim

/-! ## What validation gives -/

/-- Only neighbours are compared, but the ranges come in order. -/
theorem checkReplacements_pairwise {ranges : List (UInt32 × UInt32)}
    (hordered : ranges.Pairwise fun a b => a.1 ≤ b.1)
    (h : checkReplacements ranges = .ok ()) : ranges.Pairwise fun a b => a.2 ≤ b.1 := by
  induction ranges with
  | nil => exact .nil
  | cons a ranges ih =>
      cases ranges with
      | nil => exact List.pairwise_singleton _ _
      | cons b rest =>
          rw [checkReplacements] at h
          split at h
          · cases h
          · rename_i hab
            have hle : a.2 ≤ b.1 := UInt32.not_lt.mp hab
            refine List.pairwise_cons.mpr ⟨?_, ih hordered.of_cons h⟩
            intro c hc
            rw [List.mem_cons] at hc
            rcases hc with rfl | hc
            · exact hle
            · exact UInt32.le_trans hle
                ((List.pairwise_cons.mp hordered.of_cons).1 c hc)

theorem noOverlap_of_validateRewrites {ops : List RewriteOp}
    (hordered : ops.Pairwise fun a b => a.startByte.toNat ≤ b.startByte.toNat)
    (h : validateRewrites ops = .ok ()) : NoOverlap ops := by
  obtain ⟨_, hranges, -⟩ := bind_eq_ok.mp h
  have hstarts : (replacementRanges ops).Pairwise fun a b => a.1 ≤ b.1 := by
    rw [replacementRanges, List.pairwise_filterMap]
    refine hordered.imp ?_
    intro a b hab r hr r' hr'
    cases a with
    | insert insertion => cases hr
    | replace start stop replacement kind =>
        cases b with
        | insert insertion => cases hr'
        | replace start' stop' replacement' kind' =>
            cases hr
            cases hr'
            exact UInt32.le_iff_toNat_le.mpr hab
  have hpairs := checkReplacements_pairwise hstarts hranges
  rwa [replacementRanges, List.pairwise_filterMap] at hpairs

/-- A rewrite that succeeds, piece by piece. -/
theorem applyWithLineMap_eq_ok {source : List UInt8} {ops : List RewriteOp} {out : List UInt8}
    {map : LineMap} (h : applyWithLineMap source ops = .ok (out, map)) :
    NoOverlap (sortedOps ops) ∧
      ∃ st, applyFlat source (sortedOps ops) ⟨[], 0, 1, 1, []⟩ = .ok st ∧
        out = (pieces source 0 (sortedOps ops)).flatMap Piece.outText ∧ map = ⟨st.anchors⟩ := by
  obtain ⟨_, hvalid, h⟩ := bind_eq_ok.mp h
  obtain ⟨st, hloop, hfinish⟩ := bind_eq_ok.mp h
  rw [applyLoop_eq_applyFlat] at hloop
  obtain ⟨hout, hmap⟩ := finish_eq_ok hfinish
  refine ⟨noOverlap_of_validateRewrites (stableSortBy_ordered _ ops) hvalid, st, hloop, ?_, hmap⟩
  rw [hout, applyFlat_out _ hloop, List.nil_append]

end GovFuzz.Instrumenter
