import GovFuzz.EventLog.Testcase
import GovFuzz.FuzzEngine.Scheduler
import GovFuzz.Lib.Novelty
import GovFuzz.Lib.Utf8
import Std.Data.HashMap.Basic

/-!
# Fuzz engine — coverage novelty

`crates/fuzz_engine/builtin/src/coverage.rs`: `CoverageProxy::record` turns
a testcase into keys of eight channels and counts those not seen before.
The source writes its fields out; here each is also known by its
`Channel`, and what is proved of one is proved of all.
-/

namespace GovFuzz.FuzzEngine

open GovFuzz.EventLog GovFuzz.Lib

/-- A per-input hit count as a logarithmic bucket. -/
def countToBucket (n : UInt32) : UInt8 :=
  if n ≤ 1 then 0
  else if n = 2 then 1
  else if n = 3 then 2
  else if n ≤ 7 then 3
  else if n ≤ 15 then 4
  else if n ≤ 31 then 5
  else if n ≤ 127 then 6
  else 7

/-- The `[u8; 32]` of the source. -/
abbrev CoverageSignature := Vector UInt8 32

/-- What one execution reports. -/
structure CoverageInput where
  testcase : Testcase
  exceptionSignatures : List CoverageSignature

/-- How much of it is new, channel by channel. -/
structure CoverageFeedback where
  newExceptionSignatures : Nat
  newBreadcrumbBits : Nat
  newEdgeBits : Nat
  newHandlerBits : Nat
  newRaiseBits : Nat
  newTopLevelBits : Nat
  newReturnClassBits : Nat
  newMockCallBits : Nat
  deriving DecidableEq, Repr

/-- Nothing new. -/
def CoverageFeedback.default : CoverageFeedback := ⟨0, 0, 0, 0, 0, 0, 0, 0⟩

/-- The new keys of all bitmap channels, saturating. -/
def CoverageFeedback.newBitmapBits (feedback : CoverageFeedback) : Nat :=
  let bits := saturating 32 (feedback.newBreadcrumbBits + feedback.newEdgeBits)
  let bits := saturating 32 (bits + feedback.newHandlerBits)
  let bits := saturating 32 (bits + feedback.newRaiseBits)
  let bits := saturating 32 (bits + feedback.newTopLevelBits)
  let bits := saturating 32 (bits + feedback.newReturnClassBits)
  saturating 32 (bits + feedback.newMockCallBits)

/-- The execution brought nothing new. -/
def CoverageFeedback.isEmpty (feedback : CoverageFeedback) : Bool :=
  feedback.newExceptionSignatures == 0 && feedback.newBitmapBits == 0

/-- How many keys each channel holds. -/
structure CoverageSnapshot where
  exceptionSignatures : Nat
  breadcrumbBits : Nat
  edgeBits : Nat
  handlerBits : Nat
  raiseBits : Nat
  topLevelBits : Nat
  returnClassBits : Nat
  mockCallBits : Nat
  deriving DecidableEq, Repr

/-- The keys seen so far, channel by channel. -/
structure CoverageProxy where
  exceptionSignatures : Finset CoverageSignature
  breadcrumbBits : Finset UInt64
  edgeBits : Finset UInt64
  handlerBits : Finset UInt64
  raiseBits : Finset UInt64
  topLevelBits : Finset UInt64
  returnClassBits : Finset UInt64
  mockCallBits : Finset UInt64

/-- Nothing seen. -/
def CoverageProxy.default : CoverageProxy := ⟨∅, ∅, ∅, ∅, ∅, ∅, ∅, ∅⟩

/-- The counts of a proxy. -/
def CoverageProxy.snapshot (proxy : CoverageProxy) : CoverageSnapshot where
  exceptionSignatures := proxy.exceptionSignatures.card
  breadcrumbBits := proxy.breadcrumbBits.card
  edgeBits := proxy.edgeBits.card
  handlerBits := proxy.handlerBits.card
  raiseBits := proxy.raiseBits.card
  topLevelBits := proxy.topLevelBits.card
  returnClassBits := proxy.returnClassBits.card
  mockCallBits := proxy.mockCallBits.card

/-! ## Keys -/

/-- The FNV-1a hash the keys are made with. -/
structure StableHash where
  value : UInt64

/-- The offset basis. -/
def StableHash.new : StableHash := ⟨0xcbf29ce484222325⟩

/-- One round per byte. -/
def StableHash.writeBytes (hash : StableHash) (bytes : List UInt8) : StableHash :=
  bytes.foldl (fun hash byte => ⟨(hash.value ^^^ byte.toUInt64) * 0x00000100000001b3⟩) hash

def StableHash.writeU32 (hash : StableHash) (value : UInt32) : StableHash :=
  hash.writeBytes (leBytes 4 value.toNat)

/-- The text and a zero byte behind it. -/
def StableHash.writeStr (hash : StableHash) (value : String) : StableHash :=
  (hash.writeBytes (toUtf8 value)).writeBytes [0]

/-- The hash so far. -/
def StableHash.finish (hash : StableHash) : UInt64 := hash.value

/-- The key of a breadcrumb hit that often. -/
def breadcrumbBucketBit (crumb : UInt32) (bucket : UInt8) : UInt64 :=
  (((StableHash.new.writeBytes (toUtf8 "block")).writeU32 crumb).writeBytes [bucket]).finish

/-- The key of a step from one breadcrumb to the next. -/
def edgeBit (prev cur : UInt32) : UInt64 :=
  (((StableHash.new.writeBytes (toUtf8 "edge")).writeU32 prev).writeU32 cur).finish

/-- The key of a handler that ran. -/
def handlerBit (handler : HandlerEvent) : UInt64 :=
  let hash := StableHash.new.writeU32 handler.targetId
  let hash := hash.writeStr handler.handlerFile
  let hash := hash.writeU32 handler.handlerLine
  let hash := hash.writeU32 handler.lastBreadcrumb
  (hash.writeStr handler.exceptionName.toLower).finish

/-- The key of a raised exception, its name without case. -/
def raiseBit (raise : RaiseEvent) : UInt64 :=
  let hash := StableHash.new.writeStr raise.exceptionName.toLower
  let hash := hash.writeStr raise.file
  ((hash.writeU32 raise.line).writeU32 raise.breadcrumb).finish

/-- The key of an exception nothing handled. -/
def topLevelBit (topLevel : TopLevelEvent) : UInt64 :=
  let hash := StableHash.new.writeStr topLevel.exceptionName.toLower
  (hash.writeStr topLevel.exceptionMessage).finish

/-- The hash of some bytes. -/
def stableHashBytes (bytes : List UInt8) : UInt64 := (StableHash.new.writeBytes bytes).finish

namespace CoverageInput

/-- How often each block was run, in whatever order the table has. -/
def hits (input : CoverageInput) : List (UInt32 × UInt32) :=
  let table : Std.HashMap UInt32 UInt32 := input.testcase.crumbs.foldl
    (fun table crumb => table.insert crumb (table.getD crumb 0 + 1)) ∅
  table.toList

def breadcrumbKeys (input : CoverageInput) : List UInt64 :=
  input.hits.map fun (crumb, count) => breadcrumbBucketBit crumb (countToBucket count)

/-- `windows(2)`: the consecutive pairs. -/
def edgeKeys (input : CoverageInput) : List UInt64 :=
  (input.testcase.crumbs.zip input.testcase.crumbs.tail).map fun (prev, cur) => edgeBit prev cur

def handlerKeys (input : CoverageInput) : List UInt64 := input.testcase.handlers.map handlerBit

def raiseKeys (input : CoverageInput) : List UInt64 := input.testcase.raises.map raiseBit

def topLevelKeys (input : CoverageInput) : List UInt64 :=
  input.testcase.topLevel.toList.map topLevelBit

def returnClassKeys (input : CoverageInput) : List UInt64 :=
  input.testcase.endEvent.toList.map fun endEvent => endEvent.resultClass.toUInt64

def mockCallKeys (input : CoverageInput) : List UInt64 :=
  input.testcase.mocks.map fun mock => stableHashBytes (toUtf8 mock.symbol)

end CoverageInput

/-- The loop of one channel: insert each key, count the new ones. -/
def insertKeys {κ : Type} [DecidableEq κ] (seen : Finset κ) (keys : List κ) : Finset κ × Nat :=
  absorb (2 ^ 32 - 1) seen keys

/-- Counts and keeps what an execution brings, channel by channel. -/
def CoverageProxy.record (proxy : CoverageProxy) (input : CoverageInput) :
    CoverageFeedback × CoverageProxy :=
  let signatures := insertKeys proxy.exceptionSignatures input.exceptionSignatures
  let breadcrumbs := insertKeys proxy.breadcrumbBits input.breadcrumbKeys
  let edges := insertKeys proxy.edgeBits input.edgeKeys
  let handlers := insertKeys proxy.handlerBits input.handlerKeys
  let raises := insertKeys proxy.raiseBits input.raiseKeys
  let topLevels := insertKeys proxy.topLevelBits input.topLevelKeys
  let returnClasses := insertKeys proxy.returnClassBits input.returnClassKeys
  let mockCalls := insertKeys proxy.mockCallBits input.mockCallKeys
  ({ newExceptionSignatures := signatures.2
     newBreadcrumbBits := breadcrumbs.2
     newEdgeBits := edges.2
     newHandlerBits := handlers.2
     newRaiseBits := raises.2
     newTopLevelBits := topLevels.2
     newReturnClassBits := returnClasses.2
     newMockCallBits := mockCalls.2 },
   { exceptionSignatures := signatures.1
     breadcrumbBits := breadcrumbs.1
     edgeBits := edges.1
     handlerBits := handlers.1
     raiseBits := raises.1
     topLevelBits := topLevels.1
     returnClassBits := returnClasses.1
     mockCallBits := mockCalls.1 })

/-- The inputs one after the other: the feedback of each and the proxy behind them. -/
def CoverageProxy.recordAll (proxy : CoverageProxy) :
    List CoverageInput → List CoverageFeedback × CoverageProxy
  | [] => ([], proxy)
  | input :: inputs =>
      let (feedback, proxy) := proxy.record input
      let (feedbacks, proxy) := proxy.recordAll inputs
      (feedback :: feedbacks, proxy)

/-! ## Channels -/

/-- The eight channels. -/
inductive Channel where
  | exceptionSignatures
  | breadcrumbBits
  | edgeBits
  | handlerBits
  | raiseBits
  | topLevelBits
  | returnClassBits
  | mockCallBits

/-- What a channel is keyed by. -/
abbrev Channel.Key : Channel → Type
  | .exceptionSignatures => CoverageSignature
  | _ => UInt64

instance : (channel : Channel) → DecidableEq channel.Key
  | .exceptionSignatures => inferInstanceAs (DecidableEq CoverageSignature)
  | .breadcrumbBits | .edgeBits | .handlerBits | .raiseBits | .topLevelBits | .returnClassBits
  | .mockCallBits => inferInstanceAs (DecidableEq UInt64)

/-- The keys an execution reports on a channel. -/
def CoverageInput.keys (input : CoverageInput) : (channel : Channel) → List channel.Key
  | .exceptionSignatures => input.exceptionSignatures
  | .breadcrumbBits => input.breadcrumbKeys
  | .edgeBits => input.edgeKeys
  | .handlerBits => input.handlerKeys
  | .raiseBits => input.raiseKeys
  | .topLevelBits => input.topLevelKeys
  | .returnClassBits => input.returnClassKeys
  | .mockCallBits => input.mockCallKeys

/-- The keys a channel holds. -/
def CoverageProxy.seen (proxy : CoverageProxy) : (channel : Channel) → Finset channel.Key
  | .exceptionSignatures => proxy.exceptionSignatures
  | .breadcrumbBits => proxy.breadcrumbBits
  | .edgeBits => proxy.edgeBits
  | .handlerBits => proxy.handlerBits
  | .raiseBits => proxy.raiseBits
  | .topLevelBits => proxy.topLevelBits
  | .returnClassBits => proxy.returnClassBits
  | .mockCallBits => proxy.mockCallBits

/-- The new keys of a channel. -/
def CoverageFeedback.count (feedback : CoverageFeedback) : Channel → Nat
  | .exceptionSignatures => feedback.newExceptionSignatures
  | .breadcrumbBits => feedback.newBreadcrumbBits
  | .edgeBits => feedback.newEdgeBits
  | .handlerBits => feedback.newHandlerBits
  | .raiseBits => feedback.newRaiseBits
  | .topLevelBits => feedback.newTopLevelBits
  | .returnClassBits => feedback.newReturnClassBits
  | .mockCallBits => feedback.newMockCallBits

/-- The size of a channel. -/
def CoverageSnapshot.count (snapshot : CoverageSnapshot) : Channel → Nat
  | .exceptionSignatures => snapshot.exceptionSignatures
  | .breadcrumbBits => snapshot.breadcrumbBits
  | .edgeBits => snapshot.edgeBits
  | .handlerBits => snapshot.handlerBits
  | .raiseBits => snapshot.raiseBits
  | .topLevelBits => snapshot.topLevelBits
  | .returnClassBits => snapshot.returnClassBits
  | .mockCallBits => snapshot.mockCallBits

namespace CoverageProxy

@[simp] theorem default_seen (channel : Channel) : default.seen channel = ∅ := by
  cases channel <;> rfl

theorem snapshot_count (proxy : CoverageProxy) (channel : Channel) :
    proxy.snapshot.count channel = (proxy.seen channel).card := by
  cases channel <;> rfl

/-- What a call does to any of its channels. -/
theorem record_seen (proxy : CoverageProxy) (input : CoverageInput) (channel : Channel) :
    (proxy.record input).2.seen channel
      = proxy.seen channel ∪ (input.keys channel).toFinset := by
  rw [← absorb_fst (2 ^ 32 - 1)]
  cases channel <;> rfl

theorem record_count (proxy : CoverageProxy) (input : CoverageInput) (channel : Channel) :
    (proxy.record input).1.count channel
      = (absorb (2 ^ 32 - 1) (proxy.seen channel) (input.keys channel)).2 := by
  cases channel <;> rfl

theorem ext_seen {proxy proxy' : CoverageProxy}
    (h : ∀ channel, proxy.seen channel = proxy'.seen channel) : proxy = proxy' := by
  have hsignatures := h .exceptionSignatures
  have hbreadcrumbs := h .breadcrumbBits
  have hedges := h .edgeBits
  have hhandlers := h .handlerBits
  have hraises := h .raiseBits
  have htops := h .topLevelBits
  have hclasses := h .returnClassBits
  have hmocks := h .mockCallBits
  cases proxy
  cases proxy'
  simp only [seen] at *
  simp [*]

/-- The input has no key that the proxy has not seen. -/
def Knows (proxy : CoverageProxy) (input : CoverageInput) : Prop :=
  ∀ channel, ∀ key ∈ input.keys channel, key ∈ proxy.seen channel

theorem record_count_eq_zero {proxy : CoverageProxy} {input : CoverageInput} {channel : Channel} :
    (proxy.record input).1.count channel = 0
      ↔ ∀ key ∈ input.keys channel, key ∈ proxy.seen channel := by
  rw [record_count]
  exact absorb_count_eq_zero (by omega)

end CoverageProxy

theorem CoverageFeedback.eq_default_iff {feedback : CoverageFeedback} :
    feedback = .default ↔ ∀ channel, feedback.count channel = 0 := by
  constructor
  · intro h channel
    subst h
    cases channel <;> rfl
  · intro h
    have hsignatures := h .exceptionSignatures
    have hbreadcrumbs := h .breadcrumbBits
    have hedges := h .edgeBits
    have hhandlers := h .handlerBits
    have hraises := h .raiseBits
    have htops := h .topLevelBits
    have hclasses := h .returnClassBits
    have hmocks := h .mockCallBits
    cases feedback
    simp only [count] at *
    simp [default, *]

/-- No saturation makes a count disappear. -/
theorem CoverageFeedback.isEmpty_iff {feedback : CoverageFeedback} :
    feedback.isEmpty = true ↔ feedback = .default := by
  cases feedback
  simp only [isEmpty, newBitmapBits, saturating, default, mk.injEq, Bool.and_eq_true, beq_iff_eq]
  omega

namespace CoverageProxy

theorem record_isEmpty {proxy : CoverageProxy} {input : CoverageInput} :
    (proxy.record input).1.isEmpty = true ↔ proxy.Knows input := by
  rw [CoverageFeedback.isEmpty_iff, CoverageFeedback.eq_default_iff]
  simp only [record_count_eq_zero, Knows]

/-! ## Runs -/

@[simp] theorem recordAll_nil (proxy : CoverageProxy) : proxy.recordAll [] = ([], proxy) := rfl

@[simp] theorem recordAll_cons (proxy : CoverageProxy) (input : CoverageInput)
    (inputs : List CoverageInput) :
    proxy.recordAll (input :: inputs)
      = ((proxy.record input).1 :: ((proxy.record input).2.recordAll inputs).1,
          ((proxy.record input).2.recordAll inputs).2) := rfl

/-- A run leaves the union of all keys in each channel. -/
theorem recordAll_seen (proxy : CoverageProxy) (inputs : List CoverageInput) (channel : Channel) :
    (proxy.recordAll inputs).2.seen channel
      = proxy.seen channel ∪ (inputs.flatMap (CoverageInput.keys · channel)).toFinset := by
  induction inputs generalizing proxy with
  | nil => simp
  | cons input inputs ih =>
      rw [recordAll_cons, ih, record_seen, List.flatMap_cons, List.toFinset_append,
        Finset.union_assoc]

theorem recordAll_perm {inputs inputs' : List CoverageInput} (h : inputs.Perm inputs')
    (proxy : CoverageProxy) : (proxy.recordAll inputs).2 = (proxy.recordAll inputs').2 := by
  apply ext_seen
  intro channel
  rw [recordAll_seen, recordAll_seen, List.toFinset_eq_of_perm _ _ (h.flatMap_right _)]

theorem recordAll_knows {proxy : CoverageProxy} {inputs : List CoverageInput}
    {input : CoverageInput} (h : input ∈ inputs) : (proxy.recordAll inputs).2.Knows input := by
  intro channel key hkey
  rw [recordAll_seen]
  apply Finset.mem_union_right
  rw [List.mem_toFinset, List.mem_flatMap]
  exact ⟨input, h, hkey⟩

/-- How much a channel grows in a call. -/
def growth (proxy : CoverageProxy) (input : CoverageInput) (channel : Channel) : Nat :=
  (proxy.record input).2.snapshot.count channel - proxy.snapshot.count channel

theorem growth_add (proxy : CoverageProxy) (input : CoverageInput) (channel : Channel) :
    proxy.snapshot.count channel + proxy.growth input channel
      = (proxy.record input).2.snapshot.count channel := by
  have hle : proxy.snapshot.count channel ≤ (proxy.record input).2.snapshot.count channel := by
    rw [snapshot_count, snapshot_count, record_seen]
    exact Finset.card_le_card Finset.subset_union_left
  unfold growth
  omega

/-- A count is the growth, up to what a `u32` holds. -/
theorem record_count_eq_growth (proxy : CoverageProxy) (input : CoverageInput)
    (channel : Channel) :
    (proxy.record input).1.count channel = min (proxy.growth input channel) (2 ^ 32 - 1) := by
  rw [record_count, absorb_snd, growth, snapshot_count, snapshot_count, record_seen]

/-- No call of the run grows the channel by more than a `u32` counts. -/
def Unsaturated (proxy : CoverageProxy) (channel : Channel) : List CoverageInput → Prop
  | [] => True
  | input :: inputs =>
      proxy.growth input channel < 2 ^ 32 ∧ (proxy.record input).2.Unsaturated channel inputs

theorem recordAll_sum {proxy : CoverageProxy} {inputs : List CoverageInput} {channel : Channel}
    (h : proxy.Unsaturated channel inputs) :
    proxy.snapshot.count channel
        + ((proxy.recordAll inputs).1.map (CoverageFeedback.count · channel)).sum
      = (proxy.recordAll inputs).2.snapshot.count channel := by
  induction inputs generalizing proxy with
  | nil => simp
  | cons input inputs ih =>
      obtain ⟨hgrowth, hrest⟩ := h
      have hcount := proxy.record_count_eq_growth input channel
      have hadd := proxy.growth_add input channel
      have hsum := ih hrest
      simp only [recordAll_cons, List.map_cons, List.sum_cons]
      omega

/-- What the accounting of a session says about the inputs it was fed. -/
structure AccountsExactly (inputs : List CoverageInput) : Prop where
  sum : ∀ channel, default.Unsaturated channel inputs →
    ((default.recordAll inputs).1.map (CoverageFeedback.count · channel)).sum
      = (default.recordAll inputs).2.snapshot.count channel
  again : ∀ input ∈ inputs, ((default.recordAll inputs).2.record input).1 = .default
  order : ∀ inputs', inputs.Perm inputs' →
    (default.recordAll inputs).2.snapshot = (default.recordAll inputs').2.snapshot
  empty : ∀ input, ((default.recordAll inputs).2.record input).1.isEmpty = true
    ↔ (default.recordAll inputs).2.Knows input

theorem record_accounts (inputs : List CoverageInput) : AccountsExactly inputs where
  sum := by
    intro channel h
    have hsum := recordAll_sum h
    rw [snapshot_count, default_seen, Finset.card_empty, Nat.zero_add] at hsum
    exact hsum
  again := by
    intro input hinput
    rw [← CoverageFeedback.isEmpty_iff, record_isEmpty]
    exact recordAll_knows hinput
  order := by
    intro inputs' h
    rw [recordAll_perm h]
  empty := fun input => record_isEmpty

/-- Two blocks, one of them twice, and a raise. -/
def sampleInput : CoverageInput where
  testcase :=
    { Testcase.new 1 with
      crumbs := [7, 7, 9]
      raises := [⟨0, "Constraint_Error", "main.adb", 12, 9⟩] }
  exceptionSignatures := []

-- The edges and raises of a second run of one input are known.
example : ((default.recordAll [sampleInput, sampleInput]).1.map fun feedback =>
    (feedback.newEdgeBits, feedback.newRaiseBits)) = [(2, 1), (0, 0)] := by
  decide +kernel

end CoverageProxy

end GovFuzz.FuzzEngine
