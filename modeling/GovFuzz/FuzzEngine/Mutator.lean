import GovFuzz.FuzzEngine.OperationSteps
import GovFuzz.FuzzEngine.StructuredText

/-!
# Fuzz engine — the mutator

`MutatorSuite::mutate` draws one of the available kinds of mutation after
the other until one has a result; `try_mutate_with_kind` runs the mutator of
one kind.  Whatever the kind and the random numbers, a result is no longer
than `max_len`, and no index or subtraction goes out of range.
-/

namespace GovFuzz.FuzzEngine

open GovFuzz.Lib

/-- The mutators. -/
inductive MutationKind
  | bitFlip
  | byteFlip
  | arithmetic
  | interesting
  | splice
  | dictionaryInsert
  | structuredRecord
  | structuredJson
  | structuredXml
  | structuredKeyValue
  | structuredUrlEncoded
  | structuredMultipart
  | structuredCsv
  | structuredHttp
  | structuredIni
  | structuredToml
  | structuredYaml
  | structuredChunked
  | structuredRecursive
  | structuredGrammar
  | typedValue
  | opSequence
  | cmpLogSplice
  deriving DecidableEq

/-- The mutators in the order they are weighed. -/
def MutationKind.all : List MutationKind :=
  [.bitFlip, .byteFlip, .arithmetic, .interesting, .splice, .dictionaryInsert, .structuredRecord,
    .structuredJson, .structuredXml, .structuredKeyValue, .structuredUrlEncoded,
    .structuredMultipart, .structuredCsv, .structuredHttp, .structuredIni, .structuredToml,
    .structuredYaml, .structuredChunked, .structuredRecursive, .structuredGrammar, .typedValue,
    .opSequence, .cmpLogSplice]

/-- Further tickets of the comparison splice. -/
def cmplogSpliceExtraWeight : Nat := 8

/-- The new input and the mutator that made it. -/
structure MutationResult where
  bytes : List UInt8
  kind : MutationKind

/-- The input and all a mutator may draw on. -/
structure MutationInput where
  bytes : List UInt8
  peer : Option (List UInt8)
  dictionary : Dictionary
  typedSpans : List TypedSpan
  operationSequence : Option OperationSequenceLayout
  cmplog : Option CmpLog
  grammar : Option Grammar

/-! ## Byte mutations -/

section
variable (bytes : List UInt8)

/-- One bit turned over. -/
def bitFlip : Mutation (List UInt8) := do
  let index ← choose bytes.length
  let bit ← choose 8
  let byte ← Op.index bytes index
  Op.assign bytes index (byte ^^^ ((1 : UInt8) <<< UInt8.ofNat bit))

/-- One byte replaced by another. -/
def byteFlip : Mutation (List UInt8) := do
  let index ← choose bytes.length
  let replacement ← nextU8
  let byte ← Op.index bytes index
  let replacement := if replacement = byte then replacement + 1 else replacement
  Op.assign bytes index replacement

/-- One added to a byte. -/
def arithmetic : Mutation (List UInt8) := do
  let index ← choose bytes.length
  let byte ← Op.index bytes index
  Op.assign bytes index (byte + 1)

/-- Boundary values no longer than the input. -/
def interestingCandidates (maxLen : Nat) : List (List UInt8) :=
  let fits := fun candidate : List UInt8 => decide (candidate.length ≤ maxLen)
  let wide := [leBytes 2 0x8000, leBytes 2 0x7fff, leBytes 4 0x80000000, leBytes 4 0x7fffffff]
  ([[0], [1], [0xff], [0x7f], [0x80]] ++ wide.filter fits).filter fits

/-- The placements of one candidate. -/
def candidatePlacements (candidate : List UInt8) : Mutation (List (Nat × List UInt8)) := do
  let last ← Op.sub bytes.length candidate.length
  Op.collect (fun start => do
    let current ← Op.slice bytes start (start + candidate.length)
    pure (if candidate = current then [] else [(start, candidate)])) (List.range (last + 1))

/-- Each boundary value at each place where it changes something. -/
def interestingPlacements : Mutation (List (Nat × List UInt8)) :=
  Op.collect (candidatePlacements bytes) (interestingCandidates bytes.length)

/-- A boundary value written over the input. -/
def interesting : Mutation (List UInt8) := do
  let placements ← interestingPlacements bytes
  let index ← choose placements.length
  let (start, candidate) ← Op.ofOption placements[index]?
  copyFromSlice bytes start (start + candidate.length) candidate

theorem bitFlip_safe :
    Op.Safe (fun output => output.length = bytes.length) (bitFlip bytes) := by
  refine (choose_safe _).bind fun index hindex => ?_
  refine (choose_safe _).bind fun bit _ => ?_
  refine (Op.Safe.index hindex).bind fun byte _ => ?_
  refine (Op.Safe.assign hindex).mono fun output houtput => ?_
  rw [houtput, List.length_set]

theorem byteFlip_safe :
    Op.Safe (fun output => output.length = bytes.length) (byteFlip bytes) := by
  refine (choose_safe _).bind fun index hindex => ?_
  refine nextU8_safe.bind fun replacement _ => ?_
  refine (Op.Safe.index hindex).bind fun byte _ => ?_
  refine (Op.Safe.assign hindex).mono fun output houtput => ?_
  rw [houtput, List.length_set]

theorem arithmetic_safe :
    Op.Safe (fun output => output.length = bytes.length) (arithmetic bytes) := by
  refine (choose_safe _).bind fun index hindex => ?_
  refine (Op.Safe.index hindex).bind fun byte _ => ?_
  refine (Op.Safe.assign hindex).mono fun output houtput => ?_
  rw [houtput, List.length_set]

theorem interestingPlacements_safe :
    Op.Safe (fun placements => ∀ placement ∈ placements,
      placement.1 + placement.2.length ≤ bytes.length) (interestingPlacements bytes) := by
  refine Op.Safe.collect fun candidate hcandidate => ?_
  have hlen : candidate.length ≤ bytes.length := by
    rw [interestingCandidates, List.mem_filter] at hcandidate
    exact of_decide_eq_true hcandidate.2
  refine (Op.Safe.sub hlen).bind fun last hlast => ?_
  refine Op.Safe.collect fun start hstart => ?_
  rw [List.mem_range] at hstart
  refine (Op.Safe.slice (Nat.le_add_right _ _) (by omega)).bind fun current _ => ?_
  refine Op.Safe.pure fun placement hplacement => ?_
  split at hplacement
  next => cases hplacement
  next =>
    rw [List.mem_singleton.mp hplacement]
    dsimp only
    omega

theorem interesting_safe :
    Op.Safe (fun output => output.length = bytes.length) (interesting bytes) := by
  refine (interestingPlacements_safe bytes).bind fun placements hplacements => ?_
  refine (choose_safe _).bind fun index _ => ?_
  refine (Op.Safe.ofOption fun _ hplacement =>
    hplacements _ (List.mem_of_getElem? hplacement)).bind fun placement hplacement => ?_
  obtain ⟨start, candidate⟩ := placement
  exact copyFromSlice_safe (Nat.le_add_right _ _) hplacement (by omega)

/-- The filter that availability and mutation share. -/
def cmplogSpliceCandidates (log : CmpLog) : Mutation (List SpliceCandidate) := do
  let candidates ← log.spliceCandidates bytes
  Op.collect (fun candidate =>
    match checkedAdd candidate.offset candidate.originalLen with
    | none => pure []
    | some stop =>
        if stop > bytes.length then pure []
        else do
          let current ← Op.slice bytes candidate.offset stop
          pure (if current ≠ candidate.replacement then [candidate] else [])) candidates

theorem checkedAdd_eq_some {a b c : Nat} (h : checkedAdd a b = some c) : c = a + b := by
  unfold checkedAdd at h
  split at h
  next => exact (Option.some.inj h).symm
  next => cases h

theorem cmplogSpliceCandidates_safe (log : CmpLog) :
    Op.Safe (fun _ => True) (cmplogSpliceCandidates bytes log) := by
  refine (log.spliceCandidates_safe bytes).bind fun candidates _ => ?_
  refine (Op.Safe.collect (Q := fun _ => True) fun candidate _ => ?_).mono fun _ _ => trivial
  cases hstop : checkedAdd candidate.offset candidate.originalLen with
  | none => exact Op.Safe.pure nofun
  | some stop =>
      have hadd := checkedAdd_eq_some hstop
      refine Op.Safe.ite (fun _ => Op.Safe.pure nofun) fun hinside => ?_
      refine (Op.Safe.slice (by omega) (by omega)).bind fun current _ => ?_
      exact Op.Safe.pure fun _ _ => trivial

end

/-! ## The suite -/

/-- The edits of an operation sequence. -/
inductive OperationSequenceAction
  | changeOp
  | insert
  | remove
  | swap

namespace MutatorSuite

variable (suite : MutatorSuite)

/-- A head of the input and a tail of its peer. -/
def splice (bytes peer : List UInt8) : Mutation (List UInt8) :=
  if bytes.isEmpty ∨ peer.isEmpty ∨ suite.config.maxLen = 0 then throw .missing
  else do
    let cut ← choose bytes.length
    let currentCut := cut + 1
    let peerCut ← choose peer.length
    let _capacity ← Op.sub (currentCut + peer.length) peerCut
    let front ← Op.slice bytes 0 currentCut
    let back ← Op.slice peer peerCut peer.length
    let output := (front ++ back).take suite.config.maxLen
    if output.isEmpty then throw .missing else pure output

/-- One candidate: `none` is `continue`, and a failed `?` ends the mutation. -/
def cmplogSpliceAttempt (bytes : List UInt8) (candidate : SpliceCandidate) :
    Mutation (Option (List UInt8)) := do
  let kept ← Op.ofOption (checkedSub bytes.length candidate.originalLen)
  let newLen ← Op.ofOption (checkedAdd kept candidate.replacement.length)
  if newLen > suite.config.maxLen then pure none
  else do
    let stop ← Op.ofOption (checkedAdd candidate.offset candidate.originalLen)
    if stop > bytes.length then pure none
    else do
      let current ← Op.slice bytes candidate.offset stop
      if current = candidate.replacement then pure none
      else do
        let front ← Op.slice bytes 0 candidate.offset
        let back ← Op.slice bytes stop bytes.length
        pure (some (front ++ candidate.replacement ++ back))

/-- One operand replaced by what it was compared with. -/
def cmplogSplice (bytes : List UInt8) (log : CmpLog) : Mutation (List UInt8) := do
  let candidates ← cmplogSpliceCandidates bytes log
  Op.drain choose (suite.cmplogSpliceAttempt bytes) candidates

/-- A token put in somewhere. -/
def dictionaryInsert (bytes : List UInt8) (dictionary : Dictionary) : Mutation (List UInt8) := do
  let remaining ← Op.ofOption (checkedSub suite.config.maxLen bytes.length)
  if remaining = 0 then throw .missing
  else do
    let token ← dictionary.chooseToken
    let tokenLen := min token.length remaining
    if tokenLen = 0 then throw .missing
    else do
      let insertAt ← choose (bytes.length + 1)
      let front ← Op.slice bytes 0 insertAt
      let inserted ← Op.slice token 0 tokenLen
      let back ← Op.slice bytes insertAt bytes.length
      pure (front ++ inserted ++ back)

/-- The valid spans and the values that would change them. -/
def typedSpanCandidates (bytes : List UInt8) (dictionary : Dictionary)
    (typedSpans : List TypedSpan) : Mutation (List (TypedSpan × List (List UInt8))) :=
  Op.collect (fun span =>
    if !span.validFor bytes.length then pure []
    else do
      let current ← Op.slice bytes span.range.start span.range.stop
      let candidates ← Op.collect (fun candidate =>
        if candidate = current then pure []
        else do
          let kept ← Op.sub bytes.length current.length
          pure (if kept + candidate.length ≤ suite.config.maxLen then [candidate] else []))
        (typedCandidates span.kind dictionary)
      pure (if candidates.isEmpty then [] else [(span, candidates)])) typedSpans

/-- One typed span replaced. -/
def typedValue (bytes : List UInt8) (dictionary : Dictionary) (typedSpans : List TypedSpan) :
    Mutation (List UInt8) := do
  let spanCandidates ← suite.typedSpanCandidates bytes dictionary typedSpans
  let index ← choose spanCandidates.length
  let (span, candidates) ← Op.ofOption spanCandidates[index]?
  let index ← choose candidates.length
  let candidate ← Op.ofOption candidates[index]?
  let width ← Op.sub span.range.stop span.range.start
  let _capacity ← Op.sub bytes.length width
  let front ← Op.slice bytes 0 span.range.start
  let back ← Op.slice bytes span.range.stop bytes.length
  pure (front ++ candidate ++ back)

/-- `ChangeOp`, if some step has another operation to select. -/
def changeActions (bytes : List UInt8) (layout : OperationSequenceLayout)
    (steps : List OperationStepSpan) : Mutation (List OperationSequenceAction) :=
  if layout.operationCount > 1 then do
    let changeable ← Op.any (layout.hasAlternative bytes) steps
    pure (if changeable then [.changeOp] else [])
  else pure []

/-- `Insert` and `Remove`, for a decoded count. -/
def countedActions (bytes : List UInt8) (layout : OperationSequenceLayout)
    (steps : List OperationStepSpan) (range : ByteSpan) (count : Nat) :
    Mutation (List OperationSequenceAction) := do
  let insert :=
    if count < layout.maxSteps ∧ !steps.isEmpty ∧
        steps.any (fun step => bytes.length + step.range.len ≤ suite.config.maxLen) ∧
        canEncodeBoundedRange range layout.minSteps layout.maxSteps (count + 1) then
      [.insert]
    else []
  if count > layout.minSteps ∧ !steps.isEmpty then do
    let fewer ← Op.sub count 1
    pure (if canEncodeBoundedRange range layout.minSteps layout.maxSteps fewer then
      insert ++ [.remove] else insert)
  else pure insert

/-- `Insert` and `Remove` need a count field before the steps. -/
def countActions (bytes : List UInt8) (layout : OperationSequenceLayout)
    (steps : List OperationStepSpan) : Mutation (List OperationSequenceAction) :=
  match layout.stepCountRange with
  | none => pure []
  | some range =>
      if layout.countFieldPrecedesSteps steps then do
        match ← Op.optional (layout.decodedStepCount bytes) with
        | none => pure []
        | some count => suite.countedActions bytes layout steps range count
      else pure []

/-- The edits the input leaves possible. -/
def operationSequenceActions (bytes : List UInt8) (layout : OperationSequenceLayout) :
    Mutation (List OperationSequenceAction) := do
  let steps := layout.validSteps bytes.length
  let change ← changeActions bytes layout steps
  let counted ← suite.countActions bytes layout steps
  pure (change ++ counted ++ (if steps.length ≥ 2 then [.swap] else []))

/-- One edit. -/
def runAction (bytes : List UInt8) (layout : OperationSequenceLayout) :
    OperationSequenceAction → Mutation (List UInt8)
  | .changeOp => layout.changeOperationSelector bytes
  | .insert => layout.insertOperationStep bytes suite.config.maxLen
  | .remove => layout.removeOperationStep bytes
  | .swap => layout.swapOperationSteps bytes

/-- An action counts only if it changes the input. -/
def operationSequence (bytes : List UInt8) (layout : OperationSequenceLayout) :
    Mutation (List UInt8) := do
  let actions ← suite.operationSequenceActions bytes layout
  Op.drain choose (fun action => do
    match ← Op.optional (suite.runAction bytes layout action) with
    | none => pure none
    | some result => pure (if result ≠ bytes then some result else none)) actions

/-- The mutator of each kind. -/
def mutateBytes (input : MutationInput) : MutationKind → Mutation (List UInt8)
  | .bitFlip => bitFlip input.bytes
  | .byteFlip => byteFlip input.bytes
  | .arithmetic => arithmetic input.bytes
  | .interesting => interesting input.bytes
  | .splice => do
      let peer ← Op.ofOption input.peer
      suite.splice input.bytes peer
  | .dictionaryInsert => suite.dictionaryInsert input.bytes input.dictionary
  | .structuredRecord => suite.structuredRecord input.dictionary
  | .structuredJson => suite.structuredJson input.dictionary
  | .structuredXml => suite.structuredXml input.dictionary
  | .structuredKeyValue => suite.structuredKeyValue input.dictionary
  | .structuredUrlEncoded => suite.structuredUrlEncoded input.dictionary
  | .structuredMultipart => suite.structuredMultipart input.dictionary
  | .structuredCsv => suite.structuredCsv input.dictionary
  | .structuredHttp => suite.structuredHttp input.dictionary
  | .structuredIni => suite.structuredIni input.dictionary
  | .structuredToml => suite.structuredToml input.dictionary
  | .structuredYaml => suite.structuredYaml input.dictionary
  | .structuredChunked => suite.structuredChunked input.dictionary
  | .structuredRecursive => suite.structuredRecursive input.dictionary
  | .structuredGrammar => do
      let grammar ← Op.ofOption input.grammar
      grammar.generate suite.config.maxLen
  | .typedValue => suite.typedValue input.bytes input.dictionary input.typedSpans
  | .opSequence => do
      let layout ← Op.ofOption input.operationSequence
      suite.operationSequence input.bytes layout
  | .cmpLogSplice => do
      let log ← Op.ofOption input.cmplog
      suite.cmplogSplice input.bytes log

/-- The result of one mutator, or none. -/
def tryMutateWithKind (input : MutationInput) (kind : MutationKind) :
    Mutation MutationResult := do
  let bytes ← suite.mutateBytes input kind
  pure ⟨bytes, kind⟩

/-- The gate of the generators that need a dictionary. -/
def dictionaryGate (input : MutationInput) (enabled : Bool) (minLen : Nat) : Bool :=
  enabled && !input.dictionary.isEmpty && suite.config.maxLen ≥ minLen

/-- The mutator has something to work on. -/
def kindAvailable (input : MutationInput) : MutationKind → Mutation Bool
  | .bitFlip | .byteFlip | .arithmetic => pure !input.bytes.isEmpty
  | .interesting => do
      let placements ← interestingPlacements input.bytes
      pure !placements.isEmpty
  | .splice => pure (suite.config.maxLen > 0 && !input.bytes.isEmpty &&
      input.peer.any fun peer => !peer.isEmpty)
  | .dictionaryInsert =>
      pure (!input.dictionary.isEmpty && input.bytes.length < suite.config.maxLen)
  | .structuredRecord =>
      pure (suite.dictionaryGate input suite.config.structuredRecords minStructuredRecordLen)
  | .structuredJson =>
      pure (suite.dictionaryGate input suite.config.structuredJson minStructuredJsonLen)
  | .structuredXml =>
      pure (suite.dictionaryGate input suite.config.structuredXml minStructuredXmlLen)
  | .structuredKeyValue =>
      pure (suite.dictionaryGate input suite.config.structuredKeyValue minStructuredKeyValueLen)
  | .structuredUrlEncoded =>
      pure (suite.dictionaryGate input suite.config.structuredUrlEncoded
        minStructuredUrlEncodedLen)
  | .structuredMultipart =>
      pure (suite.dictionaryGate input suite.config.structuredMultipart minStructuredMultipartLen)
  | .structuredCsv =>
      pure (suite.dictionaryGate input suite.config.structuredCsv minStructuredCsvLen)
  | .structuredHttp =>
      pure (suite.dictionaryGate input suite.config.structuredHttp minStructuredHttpLen)
  | .structuredIni =>
      pure (suite.dictionaryGate input suite.config.structuredIni minStructuredIniLen)
  | .structuredToml =>
      pure (suite.dictionaryGate input suite.config.structuredToml minStructuredTomlLen)
  | .structuredYaml =>
      pure (suite.dictionaryGate input suite.config.structuredYaml minStructuredYamlLen)
  | .structuredChunked =>
      pure (suite.dictionaryGate input suite.config.structuredChunked minStructuredChunkedLen)
  | .structuredRecursive => pure (suite.config.structuredRecursive &&
      suite.config.maxLen ≥ minStructuredRecursiveLen)
  | .structuredGrammar => pure (input.grammar.isSome && suite.config.maxLen > 0)
  | .typedValue => do
      let candidates ← suite.typedSpanCandidates input.bytes input.dictionary input.typedSpans
      pure !candidates.isEmpty
  | .opSequence =>
      match input.operationSequence with
      | none => pure false
      | some layout => do
          let actions ← suite.operationSequenceActions input.bytes layout
          pure !actions.isEmpty
  | .cmpLogSplice =>
      match input.cmplog with
      | none => pure false
      | some log =>
          if input.bytes.isEmpty then pure false
          else do
            let candidates ← cmplogSpliceCandidates input.bytes log
            pure !candidates.isEmpty

/-- Recorded comparisons make the splice they suggest the likely choice. -/
def weighted (input : MutationInput) (available : List MutationKind) : List MutationKind :=
  if input.cmplog.isSome ∧ MutationKind.cmpLogSplice ∈ available then
    available ++ List.replicate cmplogSpliceExtraWeight .cmpLogSplice
  else available

/-- One of the available mutators, drawn by weight. -/
def mutate (input : MutationInput) : Mutation MutationResult := do
  let available ← Op.collect (fun kind => do
    let possible ← suite.kindAvailable input kind
    pure (if possible then [kind] else [])) MutationKind.all
  Op.drain choose (fun kind => Op.optional (suite.tryMutateWithKind input kind))
    (weighted input available)

/-! ## Every result fits -/

theorem splice_safe (bytes peer : List UInt8) :
    Op.Safe (fun output => output.length ≤ suite.config.maxLen) (suite.splice bytes peer) := by
  unfold splice
  refine Op.Safe.ite (fun _ => Op.Safe.missing) fun _ => ?_
  refine (choose_safe _).bind fun cut hcut => ?_
  refine (choose_safe _).bind fun peerCut hpeer => ?_
  refine (Op.Safe.sub (by omega)).bind fun _ _ => ?_
  refine (Op.Safe.slice (Nat.zero_le _) hcut).bind fun front _ => ?_
  refine (Op.Safe.slice hpeer.le le_rfl).bind fun back _ => ?_
  refine Op.Safe.ite (fun _ => Op.Safe.missing) fun _ => Op.Safe.pure ?_
  rw [List.length_take]
  exact Nat.min_le_left _ _

theorem cmplogSpliceAttempt_safe (bytes : List UInt8) (candidate : SpliceCandidate) :
    Op.Safe (fun o => ∀ output, o = some output → output.length ≤ suite.config.maxLen)
      (suite.cmplogSpliceAttempt bytes candidate) := by
  refine (Op.Safe.checkedSub _ _).bind fun kept hkept => ?_
  refine (Op.Safe.ofOption fun _ hlen => checkedAdd_eq_some hlen).bind fun newLen hlen => ?_
  refine Op.Safe.ite (fun _ => Op.Safe.pure nofun) fun hroom => ?_
  refine (Op.Safe.ofOption fun _ hstop => checkedAdd_eq_some hstop).bind fun stop hstop => ?_
  refine Op.Safe.ite (fun _ => Op.Safe.pure nofun) fun hinside => ?_
  refine (Op.Safe.slice (by omega) (by omega)).bind fun current _ => ?_
  refine Op.Safe.ite (fun _ => Op.Safe.pure nofun) fun _ => ?_
  refine (Op.Safe.slice (Nat.zero_le _) (by omega)).bind fun front hfront => ?_
  refine (Op.Safe.slice (by omega) le_rfl).bind fun back hback => ?_
  refine Op.Safe.pure fun output houtput => ?_
  cases houtput
  rw [hfront, hback]
  simp only [List.length_append, List.length_drop, List.length_take]
  omega

theorem cmplogSplice_safe (bytes : List UInt8) (log : CmpLog) :
    Op.Safe (fun output => output.length ≤ suite.config.maxLen)
      (suite.cmplogSplice bytes log) := by
  refine (cmplogSpliceCandidates_safe bytes log).bind fun candidates _ => ?_
  exact Op.Safe.drain choose_safe _ fun candidate _ =>
    suite.cmplogSpliceAttempt_safe bytes candidate

theorem dictionaryInsert_safe (bytes : List UInt8) (dictionary : Dictionary) :
    Op.Safe (fun output => output.length ≤ suite.config.maxLen)
      (suite.dictionaryInsert bytes dictionary) := by
  refine (Op.Safe.checkedSub _ _).bind fun remaining hremaining => ?_
  refine Op.Safe.ite (fun _ => Op.Safe.missing) fun _ => ?_
  refine dictionary.chooseToken_safe.bind fun token _ => ?_
  refine Op.Safe.ite (fun _ => Op.Safe.missing) fun _ => ?_
  refine (choose_safe _).bind fun insertAt hinsert => ?_
  refine (Op.Safe.slice (Nat.zero_le _) (by omega)).bind fun front hfront => ?_
  refine (Op.Safe.slice (Nat.zero_le _) (Nat.min_le_left _ _)).bind fun inserted hinserted => ?_
  refine (Op.Safe.slice (by omega) le_rfl).bind fun back hback => ?_
  refine Op.Safe.pure ?_
  rw [hfront, hinserted, hback]
  simp only [List.length_append, List.length_drop, List.length_take]
  omega

/-- Every candidate of a span leaves room for the bytes around it. -/
theorem typedSpanCandidates_safe (bytes : List UInt8) (dictionary : Dictionary)
    (typedSpans : List TypedSpan) :
    Op.Safe (fun found => ∀ item ∈ found,
        (item.1.range.start < item.1.range.stop ∧ item.1.range.stop ≤ bytes.length) ∧
        ∀ candidate ∈ item.2, bytes.length - item.1.range.len + candidate.length ≤
          suite.config.maxLen)
      (suite.typedSpanCandidates bytes dictionary typedSpans) := by
  refine Op.Safe.collect fun span _ => ?_
  refine Op.Safe.ite (fun _ => Op.Safe.pure nofun) fun hvalid => ?_
  have hrange : span.range.start < span.range.stop ∧ span.range.stop ≤ bytes.length := by
    simpa [TypedSpan.validFor] using hvalid
  refine (Op.Safe.slice hrange.1.le hrange.2).bind fun current hcurrent => ?_
  have hlen : current.length = span.range.len := by
    rw [hcurrent, List.length_drop, List.length_take, Nat.min_eq_left hrange.2]
    rfl
  refine (Op.Safe.collect (Q := fun candidate => bytes.length - span.range.len +
    candidate.length ≤ suite.config.maxLen) fun candidate _ => ?_).bind
      fun candidates hcandidates => ?_
  · refine Op.Safe.ite (fun _ => Op.Safe.pure nofun) fun _ => ?_
    refine (Op.Safe.sub ?_).bind fun kept hkept => ?_
    · rw [hlen]
      unfold ByteSpan.len
      omega
    refine Op.Safe.pure fun accepted haccepted => ?_
    split at haccepted
    next hfits =>
      rw [List.mem_singleton.mp haccepted, ← hlen, ← hkept]
      exact hfits
    next => cases haccepted
  · refine Op.Safe.pure fun item hitem => ?_
    split at hitem
    next => cases hitem
    next =>
      rw [List.mem_singleton.mp hitem]
      exact ⟨hrange, hcandidates⟩

theorem typedValue_safe (bytes : List UInt8) (dictionary : Dictionary)
    (typedSpans : List TypedSpan) :
    Op.Safe (fun output => output.length ≤ suite.config.maxLen)
      (suite.typedValue bytes dictionary typedSpans) := by
  refine (suite.typedSpanCandidates_safe bytes dictionary typedSpans).bind fun found hfound => ?_
  refine (choose_safe _).bind fun index _ => ?_
  refine (Op.Safe.ofOption fun _ hitem => hfound _ (List.mem_of_getElem? hitem)).bind
    fun item hitem => ?_
  obtain ⟨span, candidates⟩ := item
  obtain ⟨⟨hstart, hstop⟩, hroom⟩ := hitem
  dsimp only at hstart hstop hroom ⊢
  refine (choose_safe _).bind fun index _ => ?_
  refine (Op.Safe.ofOption fun _ hcandidate => hroom _ (List.mem_of_getElem? hcandidate)).bind
    fun candidate hcandidate => ?_
  unfold ByteSpan.len at hcandidate
  refine (Op.Safe.sub hstart.le).bind fun width hwidth => ?_
  refine (Op.Safe.sub (by omega)).bind fun _ _ => ?_
  refine (Op.Safe.slice (Nat.zero_le _) (by omega)).bind fun front hfront => ?_
  refine (Op.Safe.slice hstop le_rfl).bind fun back hback => ?_
  refine Op.Safe.pure ?_
  rw [hfront, hback]
  simp only [List.length_append, List.length_drop, List.length_take]
  omega

theorem countedActions_safe (bytes : List UInt8) (layout : OperationSequenceLayout)
    (steps : List OperationStepSpan) (range : ByteSpan) (count : Nat) :
    Op.Safe (fun _ => True) (suite.countedActions bytes layout steps range count) := by
  unfold countedActions
  refine Op.Safe.ite (fun hcount => ?_) fun _ => Op.Safe.pure trivial
  exact (Op.Safe.sub (by omega)).bind fun fewer _ => Op.Safe.pure trivial

theorem operationSequenceActions_safe (bytes : List UInt8) (layout : OperationSequenceLayout) :
    Op.Safe (fun _ => True) (suite.operationSequenceActions bytes layout) := by
  have hchange : Op.Safe (fun _ => True)
      (changeActions bytes layout (layout.validSteps bytes.length)) := by
    unfold changeActions
    refine Op.Safe.ite (fun _ => ?_) fun _ => Op.Safe.pure trivial
    refine (Op.Safe.any fun step _ => layout.hasAlternative_safe bytes step).bind
      fun changeable _ => Op.Safe.pure trivial
  have hcount : Op.Safe (fun _ => True)
      (suite.countActions bytes layout (layout.validSteps bytes.length)) := by
    unfold countActions
    cases layout.stepCountRange with
    | none => exact Op.Safe.pure trivial
    | some range =>
        refine Op.Safe.ite (fun _ => ?_) fun _ => Op.Safe.pure trivial
        refine (layout.decodedStepCount_safe bytes).optional.bind fun decoded _ => ?_
        cases decoded with
        | none => exact Op.Safe.pure trivial
        | some count => exact suite.countedActions_safe _ _ _ _ _
  refine hchange.bind fun change _ => ?_
  exact hcount.bind fun counted _ => Op.Safe.pure trivial

theorem runAction_safe {bytes : List UInt8} (h : bytes.length ≤ suite.config.maxLen)
    (layout : OperationSequenceLayout) (action : OperationSequenceAction) :
    Op.Safe (fun output => output.length ≤ suite.config.maxLen)
      (suite.runAction bytes layout action) := by
  cases action with
  | changeOp => exact (layout.changeOperationSelector_safe bytes).mono fun _ hlen => hlen ▸ h
  | insert => exact layout.insertOperationStep_safe bytes suite.config.maxLen
  | remove => exact (layout.removeOperationStep_safe bytes).mono fun _ hlen => hlen.trans h
  | swap => exact (layout.swapOperationSteps_safe bytes).mono fun _ hlen => hlen.trans h

theorem operationSequence_safe {bytes : List UInt8} (h : bytes.length ≤ suite.config.maxLen)
    (layout : OperationSequenceLayout) :
    Op.Safe (fun output => output.length ≤ suite.config.maxLen)
      (suite.operationSequence bytes layout) := by
  refine (suite.operationSequenceActions_safe bytes layout).bind fun actions _ => ?_
  refine Op.Safe.drain choose_safe _ fun action _ => ?_
  refine (suite.runAction_safe h layout action).optional.bind fun result hresult => ?_
  cases result with
  | none => exact Op.Safe.pure nofun
  | some result =>
      refine Op.Safe.pure fun output houtput => ?_
      split at houtput
      next =>
        cases houtput
        exact hresult _ rfl
      next => cases houtput

variable {input : MutationInput}

/-- One case per kind. -/
theorem mutateBytes_safe (h : input.bytes.length ≤ suite.config.maxLen) (kind : MutationKind) :
    Op.Safe (fun output => output.length ≤ suite.config.maxLen)
      (suite.mutateBytes input kind) := by
  cases kind with
  | bitFlip => exact (bitFlip_safe input.bytes).mono fun _ hlen => hlen ▸ h
  | byteFlip => exact (byteFlip_safe input.bytes).mono fun _ hlen => hlen ▸ h
  | arithmetic => exact (arithmetic_safe input.bytes).mono fun _ hlen => hlen ▸ h
  | interesting => exact (interesting_safe input.bytes).mono fun _ hlen => hlen ▸ h
  | splice =>
      exact (Op.Safe.ofOption fun _ _ => trivial).bind fun peer _ => suite.splice_safe _ peer
  | dictionaryInsert => exact suite.dictionaryInsert_safe _ _
  | structuredRecord => exact suite.structuredRecord_safe _
  | structuredJson => exact suite.structuredJson_safe _
  | structuredXml => exact suite.structuredXml_safe _
  | structuredKeyValue => exact suite.structuredKeyValue_safe _
  | structuredUrlEncoded => exact suite.structuredUrlEncoded_safe _
  | structuredMultipart => exact suite.structuredMultipart_safe _
  | structuredCsv => exact suite.structuredCsv_safe _
  | structuredHttp => exact suite.structuredHttp_safe _
  | structuredIni => exact suite.structuredSections_safe _ _ _ _
  | structuredToml => exact suite.structuredSections_safe _ _ _ _
  | structuredYaml => exact suite.structuredSections_safe _ _ _ _
  | structuredChunked => exact suite.structuredChunked_safe _
  | structuredRecursive => exact suite.structuredRecursive_safe _
  | structuredGrammar =>
      exact (Op.Safe.ofOption fun _ _ => trivial).bind fun grammar _ => grammar.generate_safe _
  | typedValue => exact suite.typedValue_safe _ _ _
  | opSequence =>
      exact (Op.Safe.ofOption fun _ _ => trivial).bind fun layout _ =>
        suite.operationSequence_safe h layout
  | cmpLogSplice =>
      exact (Op.Safe.ofOption fun _ _ => trivial).bind fun log _ => suite.cmplogSplice_safe _ log

theorem tryMutateWithKind_safe (h : input.bytes.length ≤ suite.config.maxLen)
    (kind : MutationKind) :
    Op.Safe (fun result => result.bytes.length ≤ suite.config.maxLen)
      (suite.tryMutateWithKind input kind) :=
  (suite.mutateBytes_safe h kind).bind fun _ hlen => Op.Safe.pure hlen

theorem kindAvailable_safe (input : MutationInput) (kind : MutationKind) :
    Op.Safe (fun _ => True) (suite.kindAvailable input kind) := by
  cases kind with
  | interesting =>
      exact (interestingPlacements_safe _).bind fun placements _ => Op.Safe.pure trivial
  | typedValue =>
      exact (suite.typedSpanCandidates_safe _ _ _).bind fun candidates _ => Op.Safe.pure trivial
  | opSequence =>
      unfold kindAvailable
      cases input.operationSequence with
      | none => exact Op.Safe.pure trivial
      | some layout =>
          exact (suite.operationSequenceActions_safe _ layout).bind fun actions _ =>
            Op.Safe.pure trivial
  | cmpLogSplice =>
      unfold kindAvailable
      cases input.cmplog with
      | none => exact Op.Safe.pure trivial
      | some log =>
          refine Op.Safe.ite (fun _ => Op.Safe.pure trivial) fun _ => ?_
          exact (cmplogSpliceCandidates_safe _ log).bind fun candidates _ => Op.Safe.pure trivial
  | _ => exact Op.Safe.pure trivial

theorem mutate_safe (h : input.bytes.length ≤ suite.config.maxLen) :
    Op.Safe (fun result => result.bytes.length ≤ suite.config.maxLen) (suite.mutate input) := by
  refine (Op.Safe.collect (Q := fun _ => True) fun kind _ => ?_).bind fun available _ => ?_
  · refine (suite.kindAvailable_safe input kind).bind fun possible _ => ?_
    exact Op.Safe.pure fun _ _ => trivial
  · exact Op.Safe.drain choose_safe _ fun kind _ => (suite.tryMutateWithKind_safe h kind).optional

/-- How a mutation may end: with a result that fits, or without one and with
every index and subtraction in range. -/
def Fits (maxLen : Nat) : Except Stop MutationResult → Prop
  | .ok result => result.bytes.length ≤ maxLen
  | .error stop => stop ≠ .panic .index ∧ stop ≠ .panic .subtract

/-- **No mutation exceeds `max_len`**: for every configuration, input, kind
and state of the random number generator. -/
theorem mutation_fits (input : MutationInput) (kind : MutationKind) (rng : MutationRng)
    (h : input.bytes.length ≤ suite.config.maxLen) :
    Fits suite.config.maxLen (Op.exec (suite.tryMutateWithKind input kind) rng).1 ∧
      Fits suite.config.maxLen (Op.exec (suite.mutate input) rng).1 := by
  have hkind := suite.tryMutateWithKind_safe h kind rng
  have hall := suite.mutate_safe h rng
  constructor
  · cases hout : (Op.exec (suite.tryMutateWithKind input kind) rng).1 with
    | ok result => rwa [hout] at hkind
    | error stop => rwa [hout] at hkind
  · cases hout : (Op.exec (suite.mutate input) rng).1 with
    | ok result => rwa [hout] at hall
    | error stop => rwa [hout] at hall

/-- Four bytes are left for two tokens of five. -/
def smallInput : MutationInput where
  bytes := [1, 2, 3, 4]
  peer := some [9, 9]
  dictionary := ⟨[ascii "magic"], []⟩
  typedSpans := [⟨⟨0, 2⟩, .bytes⟩]
  operationSequence := none
  cmplog := none
  grammar := none

/-- A suite of six bytes with every generator on. -/
def smallSuite : MutatorSuite where
  config := ⟨6, true, true, true, true, true, true, true, true, true, true, true, true, true⟩

theorem small_mutation_fits :
    Fits 6 (Op.exec (smallSuite.tryMutateWithKind smallInput .dictionaryInsert) ⟨7⟩).1 ∧
      Fits 6 (Op.exec (smallSuite.mutate smallInput) ⟨7⟩).1 :=
  smallSuite.mutation_fits smallInput .dictionaryInsert ⟨7⟩ (by decide)

end MutatorSuite

end GovFuzz.FuzzEngine
