import GovFuzz.Instrumenter.Pieces

/-!
# Instrumenter — the line map is exact

Source and output lines run in lockstep while the source is copied and
drift apart at every inserted newline.  `Tracks` is the loop invariant: the
two line counters are right, and from the current output line on the
anchors map to the current source line.  Line numbers are `u32` and
saturate, so all of it holds up to `u32::MAX`; `runs_stable` says that what
is settled below that is never touched again.
-/

namespace GovFuzz.Instrumenter

open GovFuzz.Lib

/-- The 1-based line of the byte at `p`. -/
def lineAt (text : List UInt8) (p : Nat) : Nat := 1 + (text.take p).count newline

/-- The bytes copied from the source: their position in the output and in
the source. -/
def copiedPositions : Nat → List Piece → List (Nat × Nat)
  | _, [] => []
  | offset, .copy pos bytes :: ps =>
      (List.range bytes.length).map (fun j => (offset + j, pos + j)) ++
        copiedPositions (offset + bytes.length) ps
  | offset, .edit op :: ps => copiedPositions (offset + op.text.length) ps

/-! ## Counting -/

theorem lineAt_le (text : List UInt8) (p : Nat) : lineAt text p ≤ 1 + p := by
  have hcount : (text.take p).count newline ≤ (text.take p).length := List.count_le_length
  rw [List.length_take] at hcount
  rw [lineAt]
  omega

theorem lineAt_add (text : List UInt8) (p j : Nat) :
    lineAt text (p + j) = lineAt text p + ((text.drop p).take j).count newline := by
  rw [lineAt, lineAt, List.take_add, List.count_append, Nat.add_assoc]

/-- Moving on over a stretch counts its newlines. -/
theorem lineAt_stretch (source : List UInt8) {cursor stop : Nat} (h : cursor ≤ stop) :
    lineAt source stop
      = lineAt source cursor + ((source.take stop).drop cursor).count newline := by
  have hstop : stop = cursor + (stop - cursor) := by omega
  rw [List.drop_take, hstop, lineAt_add, Nat.add_sub_cancel_left]

theorem countNewlines_eq {text : List UInt8} (h : text.count newline < 2 ^ 32) :
    countNewlines text = text.count newline := Nat.mod_eq_of_lt h

/-! ## The invariant -/

/-- The line the output has reached. -/
def Rewriting.line (st : Rewriting) : Nat := 1 + st.out.count newline

theorem Rewriting.lineAt_append (st : Rewriting) (rest : List UInt8) (j : Nat) :
    lineAt (st.out ++ rest) (st.out.length + j)
      = st.line + (rest.take j).count newline := by
  rw [lineAt_add, lineAt, List.take_left' rfl, List.drop_left' rfl, Rewriting.line]

structure Tracks (source : List UInt8) (st : Rewriting) : Prop where
  srcLine : st.srcLine = min (lineAt source st.cursor) u32Max
  outLine_le : st.outLine ≤ u32Max
  outLine : st.line ≤ u32Max → st.outLine = st.line
  ascending : Ascending st.anchors st.outLine
  lookup : st.line ≤ u32Max → ∀ L, st.line ≤ L → L ≤ u32Max →
    LineMap.toOriginal ⟨st.anchors⟩ L = min (lineAt source st.cursor + (L - st.line)) u32Max

theorem Tracks.start (source : List UInt8) : Tracks source ⟨[], 0, 1, 1, []⟩ where
  srcLine := rfl
  outLine_le := by decide
  outLine := fun _ => rfl
  ascending := .nil 1
  lookup := by
    intro _ L hge hle
    have hline : Rewriting.line ⟨[], 0, 1, 1, []⟩ = 1 := rfl
    have hsrc : lineAt source 0 = 1 := rfl
    rw [hline] at hge ⊢
    rw [toOriginal_nil, hsrc]
    omega

/-- Copying moves both counters by the same number of lines. -/
theorem Tracks.copied {source : List UInt8} (hsource : source.length < 2 ^ 32)
    {groupStart : Nat} {st st' : Rewriting} (h : Tracks source st)
    (hcopy : copyUpTo source groupStart st = .ok st') :
    Tracks source st' ∧ st'.anchors = st.anchors ∧
      (st.line ≤ u32Max → st'.outLine = min st'.line u32Max) := by
  have hout := (copyUpTo_out hcopy).1
  rcases copyUpTo_eq_ok hcopy with ⟨-, rfl⟩ | ⟨hlt, hstop, rfl⟩
  · refine ⟨h, rfl, fun hline => ?_⟩
    rw [h.outLine hline]
    omega
  · have hn : ((source.take groupStart).drop st.cursor).count newline ≤ source.length := by
      have := List.count_le_length (a := newline) (l := (source.take groupStart).drop st.cursor)
      rw [List.length_drop, List.length_take] at this
      omega
    have hcount := countNewlines_eq (Nat.lt_of_le_of_lt hn hsource)
    have hsrc := lineAt_stretch source (Nat.le_of_lt hlt)
    have hline : ∀ st' : Rewriting, st'.out = st.out ++ (source.take groupStart).drop st.cursor →
        st'.line = st.line + ((source.take groupStart).drop st.cursor).count newline := by
      intro st' hst'
      rw [Rewriting.line, hst', List.count_append, Rewriting.line, Nat.add_assoc]
    have hline' := hline _ hout
    have hsrcLine := h.srcLine
    have hmono : st.outLine ≤ saturatingAdd st.outLine
        (((source.take groupStart).drop st.cursor).count newline) := by
      have := h.outLine_le
      rw [saturatingAdd]
      omega
    refine ⟨?_, rfl, ?_⟩
    · constructor
      · show saturatingAdd st.srcLine _ = min (lineAt source groupStart) u32Max
        rw [hcount, hsrcLine, hsrc, saturatingAdd]
        omega
      · show saturatingAdd st.outLine _ ≤ u32Max
        exact Nat.min_le_right _ _
      · intro hle
        rw [hline'] at hle ⊢
        show saturatingAdd st.outLine _ = _
        rw [hcount, h.outLine (by omega), saturatingAdd]
        omega
      · show Ascending st.anchors (saturatingAdd st.outLine _)
        rw [hcount]
        exact h.ascending.mono hmono
      · intro hle L hge hL
        rw [hline'] at hle hge ⊢
        show LineMap.toOriginal ⟨st.anchors⟩ L = min (lineAt source groupStart + _) u32Max
        rw [h.lookup (by omega) L (by omega) hL, hsrc]
        omega
    · intro hle
      rw [hline']
      show saturatingAdd st.outLine _ = _
      rw [hcount, h.outLine hle, saturatingAdd]

/-- What an operation does that replaces no newline. -/
def editLines (st : Rewriting) (op : RewriteOp) : Rewriting :=
  let outLine := saturatingAdd st.outLine (countNewlines op.text)
  { out := st.out ++ op.text
    cursor := op.nextCursor st.cursor
    outLine := outLine
    srcLine := st.srcLine
    anchors := if countNewlines op.text > 0 then pushAnchor st.anchors outLine st.srcLine
      else st.anchors }

/-- A range without newlines has none behind the cursor either. -/
theorem count_drop_eq_zero {source : List UInt8} {start stop : Nat}
    (h : newline ∉ (source.take stop).drop start) {c : Nat} (hc : start ≤ c ∨ stop ≤ c) :
    ((source.take stop).drop c).count newline = 0 := by
  rw [List.count_eq_zero]
  rcases hc with hc | hc
  · have hsplit : c = start + (c - start) := by omega
    rw [hsplit, ← List.drop_drop]
    exact fun hmem => h (List.mem_of_mem_drop hmem)
  · rw [List.drop_eq_nil_of_le (by rw [List.length_take]; omega)]
    exact List.not_mem_nil

theorem replacedNewlines_eq_zero {source : List UInt8} {start stop cursor : Nat}
    (h : newline ∉ (source.take stop).drop start) (hcursor : start ≤ cursor) :
    replacedNewlines source cursor stop = 0 := by
  unfold replacedNewlines sourceSlice
  split
  · rename_i slice hslice
    split at hslice
    · cases hslice
      rw [countNewlines, count_drop_eq_zero h (by omega), Nat.zero_mod]
    · cases hslice
  · rfl

theorem applyOp_eq_editLines {source : List UInt8} {st : Rewriting} {op : RewriteOp}
    (hstart : op.startByte.toNat ≤ st.cursor) (hplain : newline ∉ op.replaced source)
    (hout : st.outLine ≤ u32Max) (hsrc : st.srcLine ≤ u32Max) :
    applyOp source st op = editLines st op := by
  cases op with
  | insert insertion =>
      have hle : insertion.byteOffset.toNat ≤ st.cursor := hstart
      have hcursor : max st.cursor insertion.byteOffset.toNat = st.cursor := by omega
      have hzero : saturatingAdd st.outLine 0 = st.outLine := Nat.min_eq_left hout
      unfold applyOp editLines
      by_cases hadded : countNewlines insertion.text > 0
      · simp [RewriteOp.text, RewriteOp.nextCursor, hcursor, hadded]
      · simp [RewriteOp.text, RewriteOp.nextCursor, hcursor, Nat.eq_zero_of_not_pos hadded, hzero]
  | replace start stop replacement kind =>
      have hle : start.toNat ≤ st.cursor := hstart
      have hcursor : max (max st.cursor start.toNat) stop.toNat = max st.cursor stop.toNat := by
        omega
      have hzero : saturatingAdd st.srcLine 0 = st.srcLine := Nat.min_eq_left hsrc
      have hreplaced : replacedNewlines source st.cursor stop.toNat = 0 :=
        replacedNewlines_eq_zero hplain hle
      unfold applyOp editLines
      simp [RewriteOp.text, RewriteOp.nextCursor, hcursor, hreplaced, hzero, Nat.pos_iff_ne_zero]

theorem lineAt_nextCursor {source : List UInt8} {cursor : Nat} {op : RewriteOp}
    (hstart : op.startByte.toNat ≤ cursor) (hplain : newline ∉ op.replaced source) :
    lineAt source (op.nextCursor cursor) = lineAt source cursor := by
  cases op with
  | insert insertion =>
      have hle : insertion.byteOffset.toNat ≤ cursor := hstart
      rw [RewriteOp.nextCursor, Nat.max_eq_left hle]
  | replace start stop replacement kind =>
      have hle : start.toNat ≤ cursor := hstart
      rw [RewriteOp.nextCursor, Nat.max_eq_left hle]
      rcases Nat.le_total cursor stop.toNat with hc | hc
      · rw [Nat.max_eq_right hc, lineAt_stretch source hc,
          count_drop_eq_zero hplain (.inl hle), Nat.add_zero]
      · rw [Nat.max_eq_left hc]

/-- An operation moves the output line only, and leaves an anchor behind
when it does.  Settled lines keep their original. -/
theorem Tracks.edited {source : List UInt8} {st : Rewriting} {op : RewriteOp}
    (h : Tracks source st) (hstart : op.startByte.toNat ≤ st.cursor)
    (hplain : newline ∉ op.replaced source) :
    Tracks source (applyOp source st op) ∧ st.outLine ≤ (applyOp source st op).outLine ∧
      ∀ L, L < u32Max → L ≤ st.outLine →
        LineMap.toOriginal ⟨(applyOp source st op).anchors⟩ L
          = LineMap.toOriginal ⟨st.anchors⟩ L := by
  have hsrc : st.srcLine ≤ u32Max := by
    rw [h.srcLine]
    exact Nat.min_le_right _ _
  have heq := applyOp_eq_editLines hstart hplain h.outLine_le hsrc
  have hcursor := lineAt_nextCursor hstart hplain
  have hline : (applyOp source st op).line = st.line + op.text.count newline := by
    rw [Rewriting.line, applyOp_out, List.count_append, Rewriting.line, Nat.add_assoc]
  have hmono : st.outLine ≤ saturatingAdd st.outLine (countNewlines op.text) := by
    have := h.outLine_le
    rw [saturatingAdd]
    omega
  -- without overflow the truncated count is the count
  have hexact : st.line + op.text.count newline ≤ u32Max →
      countNewlines op.text = op.text.count newline := by
    intro hle
    apply countNewlines_eq
    rw [u32Max] at hle
    omega
  rw [heq, editLines] at hline ⊢
  by_cases hadded : countNewlines op.text > 0
  · simp only [if_pos hadded] at hline ⊢
    obtain ⟨kept, hpush, hsorted, hbelow, hkept⟩ := pushAnchor_eq st.srcLine h.ascending hmono
    refine ⟨⟨?_, Nat.min_le_right _ _, ?_, ?_, ?_⟩, hmono, ?_⟩
    · show st.srcLine = min (lineAt source (op.nextCursor st.cursor)) u32Max
      rw [hcursor, h.srcLine]
    · intro hle
      rw [hline] at hle ⊢
      show saturatingAdd st.outLine _ = _
      rw [hexact hle, h.outLine (by omega), saturatingAdd]
      omega
    · show Ascending (pushAnchor _ _ _) _
      rw [hpush]
      refine ⟨?_, ?_⟩
      · rw [List.pairwise_append]
        exact ⟨hsorted, List.pairwise_singleton _ _, fun p hp q hq => by
          rw [List.mem_singleton] at hq
          rw [hq]
          exact hbelow p hp⟩
      · intro p hp
        rw [List.mem_append, List.mem_singleton] at hp
        rcases hp with hp | rfl
        · exact Nat.le_of_lt (hbelow p hp)
        · exact Nat.le_refl _
    · intro hle L hge hL
      rw [hline] at hle hge ⊢
      show LineMap.toOriginal ⟨pushAnchor _ _ _⟩ L
        = min (lineAt source (op.nextCursor st.cursor) + _) u32Max
      have hout : saturatingAdd st.outLine (countNewlines op.text)
          = st.line + op.text.count newline := by
        rw [hexact hle, h.outLine (by omega), saturatingAdd]
        omega
      rw [hpush, toOriginal_concat_of_le hbelow hsrc (by omega), hcursor, hout, h.srcLine,
        saturatingAdd]
      omega
    · intro L hmax hL
      have hlt : L < saturatingAdd st.outLine (countNewlines op.text) := by
        rw [saturatingAdd]
        omega
      rw [hpush, toOriginal_concat_of_lt kept hlt, hkept L hlt]
  · have hzero : countNewlines op.text = 0 := by omega
    have hsame : saturatingAdd st.outLine (countNewlines op.text) = st.outLine := by
      have := h.outLine_le
      rw [hzero, saturatingAdd]
      omega
    simp only [if_neg hadded, hsame] at hline ⊢
    refine ⟨⟨?_, h.outLine_le, ?_, h.ascending, ?_⟩, Nat.le_refl _, fun _ _ _ => trivial⟩
    · show st.srcLine = min (lineAt source (op.nextCursor st.cursor)) u32Max
      rw [hcursor, h.srcLine]
    · intro hle
      rw [hline] at hle ⊢
      have := hexact hle
      show st.outLine = _
      rw [h.outLine (by omega)]
      omega
    · intro hle L hge hL
      rw [hline] at hle hge ⊢
      have hnone := hexact hle
      show LineMap.toOriginal ⟨st.anchors⟩ L
        = min (lineAt source (op.nextCursor st.cursor) + _) u32Max
      rw [hcursor, h.lookup (by omega) L (by omega) hL]
      omega

/-! ## The whole run -/

section
variable {source : List UInt8}

/-- No operation replaces a newline. -/
def PlainOps (source : List UInt8) (ops : List RewriteOp) : Prop :=
  ∀ op ∈ ops, newline ∉ op.replaced source

theorem outLine_copied_le {groupStart : Nat}
    {st st' : Rewriting} (h : Tracks source st)
    (hcopy : copyUpTo source groupStart st = .ok st') : st.outLine ≤ st'.outLine := by
  have hle := h.outLine_le
  rcases copyUpTo_eq_ok hcopy with ⟨-, rfl⟩ | ⟨-, -, rfl⟩
  · exact Nat.le_refl _
  · show st.outLine ≤ saturatingAdd st.outLine _
    rw [saturatingAdd]
    omega

/-- Once a line below `u32::MAX` is settled, the rest of the run leaves its
original alone. -/
theorem runs_stable (hsource : source.length < 2 ^ 32) (ops : List RewriteOp)
    (hplain : PlainOps source ops) {st st' : Rewriting} (h : Tracks source st)
    (hrun : applyFlat source ops st = .ok st') {L : Nat} (hmax : L < u32Max)
    (hL : L ≤ st.outLine) :
    LineMap.toOriginal ⟨st'.anchors⟩ L = LineMap.toOriginal ⟨st.anchors⟩ L := by
  induction ops generalizing st with
  | nil =>
      cases hrun
      rfl
  | cons op ops ih =>
      obtain ⟨st₁, hcopy, hrun⟩ := bind_eq_ok.mp hrun
      obtain ⟨h₁, hanchors, -⟩ := h.copied hsource hcopy
      have hcursor := (copyUpTo_out hcopy).2
      have hgrow := outLine_copied_le h hcopy
      obtain ⟨h₂, hmono, hkeep⟩ :=
        h₁.edited (by omega : op.startByte.toNat ≤ st₁.cursor) (hplain op List.mem_cons_self)
      rw [ih (fun o ho => hplain o (List.mem_cons_of_mem _ ho)) h₂ hrun (by omega),
        hkeep L hmax (by omega), hanchors]

/-- The bytes of the stretch in front of the next operation. -/
theorem stretch_exact (hsource : source.length < 2 ^ 32) {st : Rewriting} (h : Tracks source st)
    {j : Nat} (hj : st.cursor + j < source.length)
    (hmax : st.line + ((source.drop st.cursor).take j).count newline < u32Max) :
    LineMap.toOriginal ⟨st.anchors⟩
        (st.line + ((source.drop st.cursor).take j).count newline)
      = lineAt source (st.cursor + j) := by
  have hle := lineAt_le source (st.cursor + j)
  have hadd := lineAt_add source st.cursor j
  rw [h.lookup (by omega) _ (by omega) (by omega), hadd]
  rw [hadd] at hle
  have hu : u32Max = 2 ^ 32 - 1 := rfl
  omega

/-- Every copied byte, from any state of the run on. -/
theorem copied_exact (hsource : source.length < 2 ^ 32) (ops : List RewriteOp)
    (hplain : PlainOps source ops) {st st' : Rewriting} (h : Tracks source st)
    (hrun : applyFlat source ops st = .ok st') {p q : Nat}
    (hpq : (p, q) ∈ copiedPositions st.out.length (pieces source st.cursor ops))
    (hmax : lineAt (st.out ++ (pieces source st.cursor ops).flatMap Piece.outText) p < u32Max) :
    LineMap.toOriginal ⟨st'.anchors⟩
        (lineAt (st.out ++ (pieces source st.cursor ops).flatMap Piece.outText) p)
      = lineAt source q := by
  induction ops generalizing st with
  | nil =>
      cases hrun
      simp only [pieces, copiedPositions, List.append_nil, List.mem_map, List.mem_range,
        Prod.mk.injEq] at hpq
      obtain ⟨j, hj, rfl, rfl⟩ := hpq
      rw [List.length_drop] at hj
      simp only [pieces, List.flatMap_cons, List.flatMap_nil, Piece.outText, List.append_nil,
        Rewriting.lineAt_append] at hmax ⊢
      exact stretch_exact hsource h (by omega) hmax
  | cons op ops ih =>
      obtain ⟨st₁, hcopy, hrun⟩ := bind_eq_ok.mp hrun
      obtain ⟨h₁, hanchors, hline₁⟩ := h.copied hsource hcopy
      obtain ⟨hout₁, hcursor₁⟩ := copyUpTo_out hcopy
      have hstart : op.startByte.toNat ≤ st₁.cursor := by omega
      obtain ⟨h₂, hmono, hkeep⟩ := h₁.edited hstart (hplain op List.mem_cons_self)
      have hplain' : PlainOps source ops := fun o ho => hplain o (List.mem_cons_of_mem _ ho)
      simp only [pieces, copiedPositions, List.mem_append, List.mem_map, List.mem_range,
        Prod.mk.injEq] at hpq
      rcases hpq with ⟨j, hj, rfl, rfl⟩ | hpq
      · -- in the stretch: settled before the operation, and kept after it
        have hj' := hj
        rw [List.length_drop, List.length_take] at hj'
        have hslice : ((source.take op.startByte.toNat).drop st.cursor).take j
            = (source.drop st.cursor).take j := by
          rw [List.drop_take, List.take_take, Nat.min_eq_left (by omega)]
        have htake : ((source.take op.startByte.toNat).drop st.cursor ++
              (op.text ++ (pieces source (op.nextCursor st.cursor) ops).flatMap
                Piece.outText)).take j
            = (source.drop st.cursor).take j := by
          rw [List.take_append_of_le_length (Nat.le_of_lt hj), hslice]
        simp only [pieces, List.flatMap_cons, Piece.outText, Rewriting.lineAt_append,
          htake] at hmax ⊢
        have hexact := stretch_exact hsource h (by omega : st.cursor + j < source.length) hmax
        have hsettled : st.line + ((source.drop st.cursor).take j).count newline
            ≤ st₁.outLine := by
          have hcount := (List.take_sublist j
            ((source.take op.startByte.toNat).drop st.cursor)).count_le newline
          rw [hslice] at hcount
          rw [hline₁ (by omega), Rewriting.line, Rewriting.line, hout₁, List.count_append]
          rw [Rewriting.line] at hmax
          omega
        rw [runs_stable hsource ops hplain' h₂ hrun hmax (by omega), hkeep _ hmax hsettled,
          hanchors]
        exact hexact
      · -- behind the operation: the run goes on from its state
        have hnext : op.nextCursor st.cursor = (applyOp source st₁ op).cursor := by
          rw [applyOp_cursor source hstart, hcursor₁, op.nextCursor_max]
        have hlen : st.out.length + ((source.take op.startByte.toNat).drop st.cursor).length +
            op.text.length = (applyOp source st₁ op).out.length := by
          rw [applyOp_out, hout₁]
          simp only [List.length_append]
        have htext : st.out ++ (pieces source st.cursor (op :: ops)).flatMap Piece.outText
            = (applyOp source st₁ op).out ++
              (pieces source (applyOp source st₁ op).cursor ops).flatMap Piece.outText := by
          rw [applyOp_out, hout₁, ← hnext, pieces]
          simp only [List.flatMap_cons, Piece.outText, List.append_assoc]
        rw [htext] at hmax ⊢
        rw [hlen, hnext] at hpq
        exact ih hplain' h₂ hrun hpq hmax

end

end GovFuzz.Instrumenter
