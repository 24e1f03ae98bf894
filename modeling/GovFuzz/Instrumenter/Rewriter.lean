import GovFuzz.Instrumenter.LineMap
import GovFuzz.Lib.Except
import GovFuzz.Lib.StableSort

/-!
# Instrumenter — the source rewriter

`SourceRewriter` of `crates/instrumenter/src/rewriter.rs` over the UTF-8
bytes of the source.  Offsets are `u32`; a slice of the source exists only
between character boundaries.
-/

namespace GovFuzz.Instrumenter

open GovFuzz.Lib

inductive InsertionKind where
  | breadcrumbBefore
  | contextClause
  | handlerProbe
  | raiseProbe
  | bindOccurrence
  deriving DecidableEq

structure Insertion where
  byteOffset : UInt32
  text : List UInt8
  kind : InsertionKind
  deriving DecidableEq

inductive RewriteOp where
  | insert (insertion : Insertion)
  | replace (start stop : UInt32) (replacement : List UInt8) (kind : InsertionKind)
  deriving DecidableEq

inductive InstrumenterError where
  | overlappingRewrites (firstStart firstEnd secondStart secondEnd : UInt32)
  | astSourceMismatch (what : String)
  deriving DecidableEq

def RewriteOp.startByte : RewriteOp → UInt32
  | .insert insertion => insertion.byteOffset
  | .replace start _ _ _ => start

/-- `b'\n'`. -/
def newline : UInt8 := 10

/-- `count() as u32`. -/
def countNewlines (text : List UInt8) : Nat := text.count newline % 2 ^ 32

/-! ## Validation -/

def replacementRange : RewriteOp → Option (UInt32 × UInt32)
  | .replace start stop _ _ => some (start, stop)
  | .insert _ => none

/-- The byte ranges of the replacements. -/
def replacementRanges (ops : List RewriteOp) : List (UInt32 × UInt32) :=
  ops.filterMap replacementRange

/-- Neighbouring replacements do not overlap (`windows(2)`). -/
def checkReplacements : List (UInt32 × UInt32) → Except InstrumenterError Unit
  | first :: second :: rest =>
      if first.2 > second.1 then
        .error (.overlappingRewrites first.1 first.2 second.1 second.2)
      else checkReplacements (second :: rest)
  | _ => .ok ()

/-- No insertion falls strictly inside a replaced range. -/
def checkInsertion (replacements : List (UInt32 × UInt32)) : RewriteOp →
    Except InstrumenterError Unit
  | .replace .. => .ok ()
  | .insert insertion =>
      match replacements.find? fun r =>
        insertion.byteOffset > r.1 && insertion.byteOffset < r.2 with
      | some r => .error (.overlappingRewrites r.1 r.2 insertion.byteOffset insertion.byteOffset)
      | none => .ok ()

def validateRewrites (ops : List RewriteOp) : Except InstrumenterError Unit := do
  checkReplacements (replacementRanges ops)
  ops.forM (checkInsertion (replacementRanges ops))

/-! ## The loop -/

/-- `str::is_char_boundary`: not in front of a continuation byte. -/
def isCharBoundary (source : List UInt8) (i : Nat) : Bool :=
  i = 0 || i = source.length || (i < source.length && source.getD i 0 &&& 0xC0 != 0x80)

def sourceSlice (source : List UInt8) (start stop : Nat) :
    Except InstrumenterError (List UInt8) :=
  if start ≤ stop ∧ stop ≤ source.length ∧ isCharBoundary source start ∧
      isCharBoundary source stop then
    .ok ((source.take stop).drop start)
  else .error (.astSourceMismatch "source byte offsets")

/-- The locals of `apply_with_line_map`. -/
structure Rewriting where
  out : List UInt8
  cursor : Nat
  outLine : Nat
  srcLine : Nat
  anchors : List (Nat × Nat)
  deriving DecidableEq

/-- Copy the source up to the next operation. -/
def copyUpTo (source : List UInt8) (groupStart : Nat) (st : Rewriting) :
    Except InstrumenterError Rewriting :=
  if groupStart > st.cursor then do
    let slice ← sourceSlice source st.cursor groupStart
    let lines := countNewlines slice
    return { st with
      out := st.out ++ slice
      outLine := saturatingAdd st.outLine lines
      srcLine := saturatingAdd st.srcLine lines
      cursor := groupStart }
  else return st

/-- Newlines between the cursor and the end of a replaced range; a slice that
does not exist counts as none. -/
def replacedNewlines (source : List UInt8) (cursor stop : Nat) : Nat :=
  match sourceSlice source (min cursor stop) stop with
  | .ok slice => countNewlines slice
  | .error _ => 0

/-- One operation. -/
def applyOp (source : List UInt8) (st : Rewriting) : RewriteOp → Rewriting
  | .insert insertion =>
      let inserted := countNewlines insertion.text
      let st := { st with out := st.out ++ insertion.text }
      if inserted > 0 then
        let outLine := saturatingAdd st.outLine inserted
        { st with outLine := outLine, anchors := pushAnchor st.anchors outLine st.srcLine }
      else st
  | .replace _ stop replacement _ =>
      let replaced := replacedNewlines source st.cursor stop.toNat
      let added := countNewlines replacement
      let outLine := saturatingAdd st.outLine added
      let srcLine := saturatingAdd st.srcLine replaced
      { out := st.out ++ replacement
        cursor := max st.cursor stop.toNat
        outLine := outLine
        srcLine := srcLine
        anchors := if added ≠ replaced then pushAnchor st.anchors outLine srcLine
          else st.anchors }

/-- The inner loop: all operations at one offset, and what is left. -/
def applyGroup (source : List UInt8) (groupStart : UInt32) :
    List RewriteOp → Rewriting → Rewriting × List RewriteOp
  | [], st => (st, [])
  | op :: ops, st =>
      if op.startByte = groupStart then applyGroup source groupStart ops (applyOp source st op)
      else (st, op :: ops)

theorem applyGroup_length (source : List UInt8) (groupStart : UInt32) (ops : List RewriteOp)
    (st : Rewriting) : (applyGroup source groupStart ops st).2.length ≤ ops.length := by
  induction ops generalizing st with
  | nil => simp [applyGroup]
  | cons op ops ih =>
      simp only [applyGroup]
      split
      · exact Nat.le_succ_of_le (ih _)
      · exact Nat.le_refl _

/-- The outer loop. -/
def applyLoop (source : List UInt8) (ops : List RewriteOp) (st : Rewriting) :
    Except InstrumenterError Rewriting :=
  match ops with
  | [] => .ok st
  | op :: ops => do
      let st ← copyUpTo source op.startByte.toNat st
      -- the first operation is in its own group
      let group := applyGroup source op.startByte ops (applyOp source st op)
      applyLoop source group.2 group.1
termination_by ops.length
decreasing_by
  have := applyGroup_length source op.startByte ops (applyOp source st op)
  simp only [List.length_cons]
  omega

/-- The tail of the source. -/
def finish (source : List UInt8) (st : Rewriting) :
    Except InstrumenterError (List UInt8 × LineMap) := do
  if st.cursor < source.length then
    let slice ← sourceSlice source st.cursor source.length
    return (st.out ++ slice, ⟨st.anchors⟩)
  else return (st.out, ⟨st.anchors⟩)

def sortedOps (ops : List RewriteOp) : List RewriteOp :=
  stableSortBy (fun op => op.startByte.toNat) ops

def applyWithLineMap (source : List UInt8) (ops : List RewriteOp) :
    Except InstrumenterError (List UInt8 × LineMap) := do
  let ops := sortedOps ops
  validateRewrites ops
  let st ← applyLoop source ops ⟨[], 0, 1, 1, []⟩
  finish source st

end GovFuzz.Instrumenter
