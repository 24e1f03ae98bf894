import GovFuzz.Lib.Decide
import GovFuzz.Corpus.LineRemap
import GovFuzz.Instrumenter.LineExact

/-!
# Corpus — crash lines name the original source

The two ends of the line map put together: what the instrumenter wrote down
while it rewrote a file is what the message of a crash is corrected with.
-/

namespace GovFuzz.Corpus

open GovFuzz.Lib GovFuzz.Instrumenter

/-- What the pieces of a rewrite say about it: `out` is the source with
every operation at its offset, and taking them out again gives the source. -/
structure Erasable (source : List UInt8) (ops : List RewriteOp) (out : List UInt8)
    (ps : List Piece) : Prop where
  outText : ps.flatMap Piece.outText = out
  srcText : ps.flatMap (Piece.srcText source) = source
  copied : ∀ pos bytes, Piece.copy pos bytes ∈ ps → bytes = (source.drop pos).take bytes.length
  edits : (editsOf ps).Perm ops
  edits_at : ∀ offset, (editsOf ps).filter (fun op => op.startByte.toNat = offset)
    = ops.filter fun op => op.startByte.toNat = offset
  inPlace : ps.Pairwise Piece.InPlace

/-- The pieces of the rewrite of `source` by `ops`. -/
def rewritePieces (source : List UInt8) (ops : List RewriteOp) : List Piece :=
  pieces source 0 (sortedOps ops)

theorem erasable_pieces {source : List UInt8} {ops : List RewriteOp} {out : List UInt8}
    (hdisjoint : NoOverlap (sortedOps ops))
    (hout : out = (rewritePieces source ops).flatMap Piece.outText) :
    Erasable source ops out (rewritePieces source ops) where
  outText := hout.symm
  srcText := by
    have hahead : Ahead 0 (sortedOps ops) := fun _ _ _ _ => Nat.zero_le _
    rw [rewritePieces, pieces_srcText _ hahead hdisjoint (stableSortBy_ordered _ ops),
      List.drop_zero]
  copied := fun _ _ => pieces_copy_eq _
  edits := by
    rw [rewritePieces, editsOf_pieces]
    exact stableSortBy_perm _ ops
  edits_at := fun offset => by
    rw [rewritePieces, editsOf_pieces]
    exact filter_stableSortBy _ ops offset
  inPlace := pieces_inPlace _ 0 (stableSortBy_ordered _ ops)

/-- The reference `ref` behind `pre` is rewritten to `line`. -/
def Rewrites (maps : SourceLineMaps) (pre : List Char) (ref : FileLine) (line : Nat) : Prop :=
  ∃ front behind : List Segment,
    front.flatMap Segment.text = pre ∧ behind.flatMap Segment.text = ref.after ∧
      (maps.remapMessage (pre ++ (ref.text ++ ref.after))).1
        = front.flatMap Segment.remapped ++ ref.basename ++ ':' :: Nat.toDigits 10 line ++
          behind.flatMap Segment.remapped

theorem rewrites_reference {maps : SourceLineMaps} {ref : FileLine} {path : List Char}
    {anchors : List (Nat × Nat)} {pre : List Char}
    (hget : maps.get ref.basename = some (path, anchors)) (h : ref.StandsBehind maps none pre) :
    Rewrites maps pre ref (LineMap.toOriginal ⟨anchors⟩ ref.line) := by
  obtain ⟨front, behind, hfront, hbehind, hsplits⟩ := splits_at_reference hget none pre h
  refine ⟨front, behind, hfront, hbehind, ?_⟩
  rw [hsplits.remapMessage, List.flatMap_append, List.flatMap_cons, Segment.remapped]
  simp only [SourceLineMaps.toOriginal, List.append_assoc, List.cons_append]

/-- Everything but the line numbers of references with a known map is
copied. -/
theorem remapMessage_segments (maps : SourceLineMaps) (message : List Char) :
    ∃ segs, segs.flatMap Segment.text = message ∧ Known maps none segs ∧
      (maps.remapMessage message).1 = segs.flatMap Segment.remapped := by
  obtain ⟨segs, hsegs⟩ := exists_splits maps none message
  exact ⟨segs, hsegs.text, hsegs.known, hsegs.remapMessage⟩

/-- Instrumentation is erasable and its line map exact, up to the line
`u32::MAX` that the counters saturate at. -/
theorem instrumented_lines_exact {source : List UInt8} {ops : List RewriteOp} {out : List UInt8}
    {map : LineMap} (hsource : source.length < 2 ^ 32) (hplain : PlainOps source ops)
    (hok : applyWithLineMap source ops = .ok (out, map)) :
    Erasable source ops out (rewritePieces source ops) ∧
      (∀ p q, (p, q) ∈ copiedPositions 0 (rewritePieces source ops) → lineAt out p < u32Max →
        map.toOriginal (lineAt out p) = lineAt source q ∧
        ∀ maps pre ref path, SourceLineMaps.get maps ref.basename = some (path, map.anchors) →
          ref.StandsBehind maps none pre → ref.line = lineAt out p →
          Rewrites maps pre ref (lineAt source q)) ∧
      ∀ (maps : SourceLineMaps) message,
        ∃ segs, segs.flatMap Segment.text = message ∧ Known maps none segs ∧
          (maps.remapMessage message).1 = segs.flatMap Segment.remapped := by
  obtain ⟨hdisjoint, st, hrun, hout, rfl⟩ := applyWithLineMap_eq_ok hok
  have hplain' : PlainOps source (sortedOps ops) :=
    fun op hop => hplain op ((stableSortBy_perm _ ops).mem_iff.mp hop)
  refine ⟨erasable_pieces hdisjoint hout, ?_, remapMessage_segments⟩
  intro p q hpq hmax
  have hline : LineMap.toOriginal ⟨st.anchors⟩ (lineAt out p) = lineAt source q := by
    rw [hout] at hmax ⊢
    exact copied_exact hsource _ hplain' (Tracks.start source) hrun hpq hmax
  refine ⟨hline, ?_⟩
  intro maps pre ref path hget hstands href
  have hrewrites := rewrites_reference hget hstands
  rwa [href, hline] at hrewrites

/-! ## Two runs -/

/-- Operations given in order need no sorting. -/
theorem applyWithLineMap_of_ordered {source : List UInt8} {ops : List RewriteOp}
    (h : ops.Pairwise fun a b => a.startByte.toNat ≤ b.startByte.toNat) :
    applyWithLineMap source ops = (do
      validateRewrites ops
      let st ← applyFlat source ops ⟨[], 0, 1, 1, []⟩
      finish source st) := by
  have hsorted : sortedOps ops = ops := stableSortBy_of_ordered h
  simp only [applyWithLineMap, hsorted, applyLoop_eq_applyFlat]

/-- Two lines of source. -/
def twoLines : List UInt8 := [97, 10, 98]

/-- A line in front of the first and one in front of the second. -/
def linesInserted (text : List UInt8) : List RewriteOp :=
  [.insert ⟨0, text, .breadcrumbBefore⟩, .insert ⟨2, [newline], .breadcrumbBefore⟩]

theorem linesInserted_ordered (text : List UInt8) :
    (linesInserted text).Pairwise fun a b => a.startByte.toNat ≤ b.startByte.toNat := by
  simp [linesInserted, RewriteOp.startByte]

theorem linesInserted_plain (text : List UInt8) : PlainOps twoLines (linesInserted text) := by
  simp [PlainOps, linesInserted, RewriteOp.replaced]

theorem rewritePieces_linesInserted (text : List UInt8) :
    rewritePieces twoLines (linesInserted text)
      = [.copy 0 [], .edit (.insert ⟨0, text, .breadcrumbBefore⟩), .copy 0 [97, 10],
        .edit (.insert ⟨2, [newline], .breadcrumbBefore⟩), .copy 2 [98]] := by
  have hsorted : sortedOps (linesInserted text) = linesInserted text :=
    stableSortBy_of_ordered (linesInserted_ordered _)
  rw [rewritePieces, hsorted]
  rfl

theorem applyWithLineMap_short :
    applyWithLineMap twoLines (linesInserted [120, 10])
      = .ok ([120, 10, 97, 10, 10, 98], ⟨[(2, 1), (4, 2)]⟩) := by
  rw [applyWithLineMap_of_ordered (linesInserted_ordered _)]
  rfl

/-- The maps with the run above for `f.adb`, and a crash in its line 4. -/
def shortMaps : SourceLineMaps :=
  ⟨[("f.adb".toList, "/src/f.adb".toList, [(2, 1), (4, 2)])]⟩

def crashLine : FileLine := ⟨"f.adb".toList, ['4'], 4, " boom".toList⟩

theorem crashLine_standsBehind : crashLine.StandsBehind shortMaps none [] where
  placed := by
    refine ⟨rfl, ⟨['f'], ".adb".toList, rfl, by decide, by decide, by decide⟩, by decide,
      by decide, by decide, by decide⟩
  free := by
    intro before other hpre
    simp at hpre

theorem instrumented_lines_exact_short :
    applyWithLineMap twoLines (linesInserted [120, 10])
      = .ok ([120, 10, 97, 10, 10, 98], ⟨[(2, 1), (4, 2)]⟩) ∧
    LineMap.toOriginal ⟨[(2, 1), (4, 2)]⟩ 4 = 2 ∧ Rewrites shortMaps [] crashLine 2 := by
  have hcopied : (5, 2) ∈ copiedPositions 0 (rewritePieces twoLines (linesInserted [120, 10])) := by
    rw [rewritePieces_linesInserted]
    decide
  obtain ⟨-, hlines, -⟩ := instrumented_lines_exact (by decide : twoLines.length < 2 ^ 32)
    (linesInserted_plain _) applyWithLineMap_short
  obtain ⟨hline, hremap⟩ := hlines 5 2 hcopied (by decide)
  exact ⟨applyWithLineMap_short, hline,
    hremap shortMaps [] crashLine _ rfl crashLine_standsBehind rfl⟩

/-- Behind 2^32 - 2 lines the line of the anchor saturates. -/
theorem applyWithLineMap_saturated {text : List UInt8} (h : text.count newline = 2 ^ 32 - 2) :
    applyWithLineMap twoLines (linesInserted text)
      = .ok (text ++ [97, 10, 10, 98], ⟨[(u32Max, 2)]⟩) := by
  have hcount : countNewlines text = 2 ^ 32 - 2 := by
    rw [countNewlines_eq (by omega), h]
  have hfirst : applyOp twoLines ⟨[], 0, 1, 1, []⟩ (.insert ⟨0, text, .breadcrumbBefore⟩)
      = ⟨text, 0, u32Max, 1, [(u32Max, 1)]⟩ := by
    simp [applyOp, hcount, saturatingAdd, pushAnchor, u32Max]
  have hcopy : copyUpTo twoLines 2 ⟨text, 0, u32Max, 1, [(u32Max, 1)]⟩
      = .ok ⟨text ++ [97, 10], 2, u32Max, 2, [(u32Max, 1)]⟩ := rfl
  have hsecond : applyOp twoLines ⟨text ++ [97, 10], 2, u32Max, 2, [(u32Max, 1)]⟩
        (.insert ⟨2, [newline], .breadcrumbBefore⟩)
      = ⟨text ++ [97, 10] ++ [newline], 2, u32Max, 2, [(u32Max, 2)]⟩ := rfl
  have hrun : applyFlat twoLines (linesInserted text) ⟨[], 0, 1, 1, []⟩
      = .ok ⟨text ++ [97, 10] ++ [newline], 2, u32Max, 2, [(u32Max, 2)]⟩ := by
    show (copyUpTo twoLines 0 ⟨[], 0, 1, 1, []⟩ >>= _) = _
    rw [copyUpTo_of_le (Nat.le_refl 0)]
    show (copyUpTo twoLines 2 (applyOp _ _ _) >>= _) = _
    rw [hfirst, hcopy]
    show Except.ok (applyOp _ _ _) = _
    rw [hsecond]
  have hfinish : finish twoLines ⟨text ++ [97, 10] ++ [newline], 2, u32Max, 2, [(u32Max, 2)]⟩
      = .ok (text ++ [97, 10, 10, 98], ⟨[(u32Max, 2)]⟩) := by
    have htail : finish twoLines ⟨text ++ [97, 10] ++ [newline], 2, u32Max, 2, [(u32Max, 2)]⟩
        = .ok (text ++ [97, 10] ++ [newline] ++ [98], ⟨[(u32Max, 2)]⟩) := by
      have hslice : sourceSlice twoLines 2 3 = .ok [98] := rfl
      have hlen : twoLines.length = 3 := rfl
      simp only [finish, hlen, hslice]
      rfl
    rw [htail]
    simp [newline]
  rw [applyWithLineMap_of_ordered (linesInserted_ordered _), hrun]
  exact hfinish

/-- The `a` is the first byte copied. -/
theorem copied_linesInserted (text : List UInt8) :
    (text.length, 0) ∈ copiedPositions 0 (rewritePieces twoLines (linesInserted text)) := by
  rw [rewritePieces_linesInserted]
  simp [copiedPositions, RewriteOp.text]

/-- `2 ^ 32 - 2` newlines. -/
def manyLines : List UInt8 := List.replicate (2 ^ 32 - 2) newline

/-- Line `2 ^ 32 - 1` holds `a` of source line 1, and is mapped to 2: the
second inserted newline does not move the saturated output line and takes
over its anchor. -/
theorem saturated_line_not_exact :
    PlainOps twoLines (linesInserted manyLines) ∧
      applyWithLineMap twoLines (linesInserted manyLines)
        = .ok (manyLines ++ [97, 10, 10, 98], ⟨[(u32Max, 2)]⟩) ∧
      (manyLines.length, 0) ∈ copiedPositions 0 (rewritePieces twoLines (linesInserted manyLines)) ∧
      lineAt twoLines 0 = 1 ∧ lineAt (manyLines ++ [97, 10, 10, 98]) manyLines.length = u32Max ∧
      LineMap.toOriginal ⟨[(u32Max, 2)]⟩ u32Max = 2 := by
  have hcount : manyLines.count newline = 2 ^ 32 - 2 := List.count_replicate_self
  refine ⟨linesInserted_plain _, applyWithLineMap_saturated hcount, ?_, rfl, ?_, rfl⟩
  · exact copied_linesInserted manyLines
  · rw [lineAt, List.take_left' rfl, hcount]
    rfl

end GovFuzz.Corpus
