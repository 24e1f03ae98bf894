import GovFuzz.Lib.KeyedFold
import GovFuzz.Runtrace.SinkLines
import Mathlib.Data.List.Perm.Basic

/-!
# Runtrace — sinks that the input controls

`SinkTaintTracker` of `crates/cli/src/auto/runtrace.rs`: over all executions,
a subject is confirmed if it was tainted once and never reached without a
taint.  Failed probes of a path are read as untainted opens of it, offsets
of 32 bits and more are lost, and the input kept with a sink is cut to a
bound that its offset need not respect; `confirmsExactly_iff` says that
nothing else comes between the log and what is confirmed.
-/

namespace GovFuzz.Runtrace

open GovFuzz.Lib

/-! ## The tracker -/

/-- The kinds of sink. -/
inductive SinkClass where
  | openPath
  | destructivePath
  | processExec
  | networkEgress
  | libraryLoad
  | sqlQuery
  deriving DecidableEq, Repr

/-- A sink: its kind and what was handed to it. -/
structure SinkKey where
  sinkClass : SinkClass
  subject : String
  deriving DecidableEq, Repr

/-- The class first, in the order of its declaration, then the subject. -/
def SinkKey.order : SinkKey → SinkKey → Ordering :=
  compareLex (compareOn fun key => key.sinkClass.ctorIdx) (compareOn SinkKey.subject)

instance : Ord SinkKey := ⟨SinkKey.order⟩

instance : Std.TransOrd SinkKey :=
  inferInstanceAs (Std.TransCmp
    (compareLex (compareOn fun key : SinkKey => key.sinkClass.ctorIdx) (compareOn SinkKey.subject)))

instance : Std.LawfulEqOrd SinkKey where
  eq_of_compare {a b} h := by
    obtain ⟨hclass, hsubject⟩ := compareLex_eq_eq.mp h
    have hclass := Std.LawfulEqOrd.eq_of_compare hclass
    have hsubject := Std.LawfulEqOrd.eq_of_compare hsubject
    obtain ⟨aclass, asubject⟩ := a
    obtain ⟨bclass, bsubject⟩ := b
    cases hsubject
    cases aclass <;> cases bclass <;> first | rfl | cases hclass

/-- One call of a sink. -/
structure Observation where
  sinkClass : SinkClass
  api : String
  subject : String
  taint : Option Nat
  deriving DecidableEq, Repr

/-- The sink an event stands for, if it is one. -/
def sinkObservation : RuntraceEvent → Option Observation
  | .fileOpened syscall _ path taintOffset => some ⟨.openPath, syscall, path, taintOffset⟩
  | .fileMissing syscall path taintOffset => some ⟨.openPath, syscall, path, taintOffset⟩
  | .commandExecuted api command taintOffset => some ⟨.processExec, api, command, taintOffset⟩
  | .processExec api program taintOffset => some ⟨.processExec, api, program, taintOffset⟩
  | .networkEgress api address taintOffset => some ⟨.networkEgress, api, address, taintOffset⟩
  | .libraryLoad api library taintOffset => some ⟨.libraryLoad, api, library, taintOffset⟩
  | .sqlQuery api query taintOffset => some ⟨.sqlQuery, api, query, taintOffset⟩
  | .destructiveFsOp api path taintOffset => some ⟨.destructivePath, api, path, taintOffset⟩
  | _ => none

/-- What is known of a sink so far. -/
structure SinkStat where
  api : String
  taintOffset : Option Nat
  untaintedSeen : Bool
  representativeInput : List UInt8
  deriving DecidableEq, Repr

/-- What one event of one execution adds to its sink. -/
structure Sighting where
  api : String
  taint : Option Nat
  input : List UInt8
  deriving DecidableEq, Repr

/-- One more call; the first tainted one keeps its input. -/
def SinkStat.see (representativeInputBytes : Nat) (stat : Option SinkStat) (s : Sighting) :
    SinkStat :=
  let stat := stat.getD ⟨s.api, none, false, []⟩
  match s.taint with
  | some offset =>
      if stat.taintOffset.isNone then
        { stat with
          taintOffset := some offset
          representativeInput := s.input.take (min s.input.length representativeInputBytes)
          api := s.api }
      else stat
  | none => { stat with untaintedSeen := true }

/-- The sinks seen and the limits they are kept under. -/
structure SinkTaintTracker where
  entries : Std.TreeMap SinkKey SinkStat
  droppedEntries : Nat
  entryLimit : Nat
  subjectBytes : Nat
  representativeInputBytes : Nat

/-- The limits of a tracker. -/
structure SinkLimits where
  entryLimit : Nat
  subjectBytes : Nat
  representativeInputBytes : Nat

/-- The characters that fit whole into a number of bytes. -/
def charsWithin : Nat → List Char → List Char
  | _, [] => []
  | n, c :: cs => if c.utf8Size ≤ n then c :: charsWithin (n - c.utf8Size) cs else []

/-- The subject cut at the limit, at a character boundary. -/
def boundedSinkSubject (subject : String) (maxBytes : Nat) : String :=
  if subject.utf8ByteSize ≤ maxBytes then subject
  else String.ofList (charsWithin maxBytes subject.toList)

/-- A sink that was tainted in every call. -/
structure ConfirmedSink where
  sinkClass : SinkClass
  api : String
  subject : String
  taintOffset : Nat
  input : List UInt8
  deriving DecidableEq, Repr

namespace SinkTaintTracker

/-- A tracker that has seen nothing. -/
def new (limits : SinkLimits) : SinkTaintTracker :=
  ⟨∅, 0, limits.entryLimit, limits.subjectBytes, limits.representativeInputBytes⟩

/-- One event of an execution. -/
def observeEvent (input : List UInt8) (tracker : SinkTaintTracker) (event : RuntraceEvent) :
    SinkTaintTracker :=
  match sinkObservation event with
  | none => tracker
  | some o =>
      let key : SinkKey := ⟨o.sinkClass, boundedSinkSubject o.subject tracker.subjectBytes⟩
      if !tracker.entries.contains key && decide (tracker.entryLimit ≤ tracker.entries.size) then
        { tracker with droppedEntries := min (tracker.droppedEntries + 1) (2 ^ 64 - 1) }
      else
        let stat := SinkStat.see tracker.representativeInputBytes tracker.entries[key]?
          ⟨o.api, o.taint, input⟩
        { tracker with entries := tracker.entries.insert key stat }

/-- The events of one execution. -/
def observe (tracker : SinkTaintTracker) (events : List RuntraceEvent) (input : List UInt8) :
    SinkTaintTracker :=
  events.foldl (observeEvent input) tracker

/-- In the order of the class and the subject; `into_confirmed` gives the same. -/
def confirmed (tracker : SinkTaintTracker) : List ConfirmedSink :=
  tracker.entries.toList.filterMap fun entry =>
    entry.2.taintOffset.bind fun taintOffset =>
      if entry.2.untaintedSeen then none
      else some ⟨entry.1.sinkClass, entry.2.api, entry.1.subject, taintOffset,
        entry.2.representativeInput⟩

end SinkTaintTracker

/-! ## Runs -/

/-- The events of a log. -/
@[grind =] def parseLines (lines : List LogLine) : List RuntraceEvent :=
  lines.filterMap fun line => parseLine line.text

/-- The lines an execution logged and its input. -/
structure Execution where
  lines : List LogLine
  input : List UInt8

/-- A tracker that was fed the executions of a run. -/
def tracked (limits : SinkLimits) (run : List Execution) : SinkTaintTracker :=
  run.foldl (fun tracker execution => tracker.observe (parseLines execution.lines) execution.input)
    (SinkTaintTracker.new limits)

/-- The run confirms the sink. -/
def Confirms (limits : SinkLimits) (run : List Execution) (key : SinkKey) : Prop :=
  ∃ sink ∈ (tracked limits run).confirmed, sink.sinkClass = key.sinkClass
    ∧ sink.subject = key.subject

/-- The kind of sink of a call. -/
def CallKind.sinkClass : CallKind → SinkClass
  | exec => .processExec
  | netEgress => .networkEgress
  | libLoad => .libraryLoad
  | sql => .sqlQuery
  | fsDestroy => .destructivePath

/-- The call of a sink that a line is about, and where its subject comes
from. -/
def LogLine.sinkCall : LogLine → Option (SinkKey × Option Offset)
  | opened _ path _ taint => some (⟨.openPath, latin1 path⟩, taint)
  | missing _ path _ _ taint => some (⟨.openPath, latin1 path⟩, taint)
  | command _ text taint => some (⟨.processExec, latin1 text⟩, taint)
  | call kind _ subject taint => some (⟨kind.sinkClass, latin1 subject⟩, taint)
  | probe .. => none
  | other .. => none

/-- The path that a line has probed in vain. -/
def LogLine.probed : LogLine → Option SinkKey
  | probe _ path _ _ _ => some ⟨.openPath, latin1 path⟩
  | _ => none

/-- The subject of a line. -/
def LogLine.named (line : LogLine) : Option SinkKey := (line.sinkCall.map Prod.fst).or line.probed

/-- The offset a line's taint names. -/
def LogLine.offset : LogLine → Option Offset
  | opened _ _ _ taint => taint
  | missing _ _ _ _ taint => taint
  | probe _ _ _ _ taint => taint
  | command _ _ taint => taint
  | call _ _ _ taint => taint
  | other .. => none

/-- One call of a sink as the run made it. -/
structure SinkCall where
  taint : Option Offset
  input : List UInt8

/-- The calls of the sinks in the order of the log. -/
@[grind =] def sinkCalls (run : List Execution) : List (SinkKey × SinkCall) :=
  run.flatMap fun execution => execution.lines.filterMap fun line =>
    line.sinkCall.map fun call => (call.1, ⟨call.2, execution.input⟩)

/-- Some call of the sink was tainted. -/
def Derived (run : List Execution) (key : SinkKey) : Prop :=
  ∃ call, (key, call) ∈ sinkCalls run ∧ call.taint.isSome

/-- Some call of the sink was not. -/
def NotDerived (run : List Execution) (key : SinkKey) : Prop :=
  ∃ call, (key, call) ∈ sinkCalls run ∧ call.taint.isNone

/-- Some line probed the sink's path. -/
def Probed (run : List Execution) (key : SinkKey) : Prop :=
  ∃ execution ∈ run, ∃ line ∈ execution.lines, line.probed = some key

/-- The sinks the run names. -/
@[grind =] def subjects (run : List Execution) : List SinkKey :=
  run.flatMap fun execution => execution.lines.filterMap LogLine.named

/-- Every taint points into its own input. -/
def OffsetsInside (run : List Execution) : Prop :=
  ∀ execution ∈ run, ∀ line ∈ execution.lines, ∀ offset, line.offset = some offset →
    offset.value < execution.input.length

/-- The subjects fit into the tracker, and so does each of them. -/
structure Fits (limits : SinkLimits) (run : List Execution) : Prop where
  count : (subjects run).toFinset.card ≤ limits.entryLimit
  length : ∀ key ∈ subjects run, key.subject.utf8ByteSize ≤ limits.subjectBytes

/-- Confirmed are the sinks tainted in every call, in any order of the executions. -/
structure ConfirmsExactly (limits : SinkLimits) (run : List Execution) : Prop where
  derived : ∀ key, Confirms limits run key ↔ Derived run key ∧ ¬ NotDerived run key
  order : ∀ run', run'.Perm run → ∀ key, Confirms limits run' key ↔ Confirms limits run key
  offset : OffsetsInside run → ∀ sink ∈ (tracked limits run).confirmed,
    sink.taintOffset < sink.input.length

/-- Only ever derived from the input. -/
def Controlled (run : List Execution) (key : SinkKey) : Prop :=
  Derived run key ∧ ¬ NotDerived run key

/-- No probe, no wide offset and no late one for what the input controls. -/
structure Trackable (limits : SinkLimits) (run : List Execution) : Prop where
  probe : ∀ key, Controlled run key → ¬ Probed run key
  wide : ∀ key, Controlled run key → ∀ call, (key, call) ∈ sinkCalls run →
    ∀ offset, call.taint = some offset → offset.value < 2 ^ 32
  late : OffsetsInside run → ∀ key, Controlled run key → ∀ call offset,
    (KeyedFold.seen key (sinkCalls run)).head? = some call → call.taint = some offset →
      offset.value < limits.representativeInputBytes

/-! ## What the tracker sees of a line -/

/-- A probe counts as an untainted open. -/
def LogLine.observation : LogLine → Option Observation
  | opened api path _ taint => some ⟨.openPath, api.name, latin1 path, readTaint taint⟩
  | missing api path _ _ taint => some ⟨.openPath, api.name, latin1 path, readTaint taint⟩
  | probe api path _ _ _ => some ⟨.openPath, api.name, latin1 path, none⟩
  | command api text taint => some ⟨.processExec, api.name, latin1 text, readTaint taint⟩
  | call kind api subject taint =>
      some ⟨kind.sinkClass, latin1 api, latin1 subject, readTaint taint⟩
  | other .. => none

theorem sinkObservation_openEventOf (api : OpenApi) (path : List UInt8) (result : Int)
    (taint : Option Offset) :
    sinkObservation (openEventOf api path result taint)
      = some ⟨.openPath, api.name, latin1 path, readTaint taint⟩ := by
  unfold openEventOf
  split <;> rfl

theorem bind_ite_eq_none {α β : Type} {f : α → Option β} {p : Prop} [Decidable p]
    {a b : Option α} (ha : p → a.bind f = none) (hb : ¬ p → b.bind f = none) :
    (if p then a else b).bind f = none := by
  by_cases hp : p
  · rw [if_pos hp]
    exact ha hp
  · rw [if_neg hp]
    exact hb hp

theorem sinkObservation_parseGetenv (obj : List (String × Json)) (kind : String) :
    (parseGetenv obj kind).bind sinkObservation = none := by
  unfold parseGetenv
  cases strField obj "n" with
  | none => rfl
  | some name => exact bind_ite_eq_none (fun _ => rfl) (fun _ => rfl)

theorem sinkObservation_parseClose (obj : List (String × Json)) :
    (parseClose obj).bind sinkObservation = none := by
  refine bind_ite_eq_none (fun _ => ?_) (fun _ => rfl)
  cases i64Field obj "d" <;> rfl

theorem sinkObservation_parseDelete (obj : List (String × Json)) (kind : String) :
    (parseDelete obj kind).bind sinkObservation = none := by
  refine bind_ite_eq_none (fun _ => ?_) (fun _ => rfl)
  cases strField obj "p" <;> rfl

theorem sinkObservation_parseFormat (obj : List (String × Json)) :
    (parseFormat obj).bind sinkObservation = none := by
  unfold parseFormat
  cases strField obj "a" with
  | none => rfl
  | some api => cases strField obj "f" <;> rfl

theorem sinkObservation_parseRuntimeCheck (obj : List (String × Json)) :
    (parseRuntimeCheck obj).bind sinkObservation = none := by
  unfold parseRuntimeCheck
  cases strField obj "x" with
  | none => rfl
  | some exception => cases strField obj "c" <;> rfl

/-- Other kinds give no sinks. -/
theorem sinkObservation_parseKind {kind : String} (hkind : kind ∉ sinkKinds)
    (obj : List (String × Json)) : (parseKind obj kind).bind sinkObservation = none := by
  have hnot : ∀ kinds, kinds ⊆ sinkKinds → kind ∈ kinds →
      ∀ result : Option RuntraceEvent, result.bind sinkObservation = none :=
    fun kinds hsub hmem => absurd (hsub hmem) hkind
  have hne : ∀ name, name ∈ sinkKinds → kind = name →
      ∀ result : Option RuntraceEvent, result.bind sinkObservation = none :=
    fun name hmem heq => absurd (heq ▸ hmem) hkind
  unfold parseKind
  refine bind_ite_eq_none (fun _ => sinkObservation_parseGetenv obj kind) fun _ => ?_
  refine bind_ite_eq_none (fun h => hnot _ (by decide) h _) fun _ => ?_
  refine bind_ite_eq_none (fun h => hnot _ (by decide) h _) fun _ => ?_
  refine bind_ite_eq_none (fun _ => ?_) fun _ => ?_
  · unfold parsePathCheck
    cases strField obj "p" <;> rfl
  refine bind_ite_eq_none (fun _ => sinkObservation_parseClose obj) fun _ => ?_
  refine bind_ite_eq_none (fun _ => sinkObservation_parseDelete obj kind) fun _ => ?_
  refine bind_ite_eq_none (fun _ => rfl) fun _ => ?_
  refine bind_ite_eq_none (fun _ => rfl) fun _ => ?_
  refine bind_ite_eq_none (fun _ => rfl) fun _ => ?_
  refine bind_ite_eq_none (fun _ => rfl) fun _ => ?_
  refine bind_ite_eq_none (fun _ => ?_) fun _ => ?_
  · unfold parseGetaddrinfo
    cases strField obj "n" <;> rfl
  refine bind_ite_eq_none (fun _ => ?_) fun _ => ?_
  · unfold parseDlopen
    cases strField obj "l" <;> rfl
  refine bind_ite_eq_none (fun h => hnot _ (by decide) h _) fun _ => ?_
  refine bind_ite_eq_none (fun h => hne _ (by decide) h _) fun _ => ?_
  refine bind_ite_eq_none (fun h => hne _ (by decide) h _) fun _ => ?_
  refine bind_ite_eq_none (fun h => hne _ (by decide) h _) fun _ => ?_
  refine bind_ite_eq_none (fun h => hne _ (by decide) h _) fun _ => ?_
  refine bind_ite_eq_none (fun h => hne _ (by decide) h _) fun _ => ?_
  refine bind_ite_eq_none (fun _ => sinkObservation_parseFormat obj) fun _ => ?_
  refine bind_ite_eq_none (fun _ => sinkObservation_parseRuntimeCheck obj) fun _ => ?_
  exact bind_ite_eq_none (fun _ => rfl) fun _ => rfl

/-- A line of the log that is parsed shows the observation it was written for. -/
theorem sinkObservation_parseLine (line : LogLine) :
    (parseLine line.text).bind sinkObservation = line.observation := by
  cases line with
  | opened api path fd taint =>
      rw [parseLine_opened, Option.bind_some, sinkObservation_openEventOf]
      rfl
  | missing api path result errno taint =>
      rw [parseLine_missing, Option.bind_some, sinkObservation_openEventOf]
      rfl
  | probe api path result errno taint =>
      rw [parseLine_probe]
      rfl
  | command api text taint =>
      rw [parseLine_command]
      rfl
  | call kind api subject taint =>
      rw [parseLine_call]
      cases kind <;> rfl
  | other text hother =>
      -- a line of another kind is observed as nothing, whether or not it is an object
      show (parseLine text).bind sinkObservation = none
      unfold parseLine
      unfold kindOf at hother
      cases hjson : Json.fromSlice (toUtf8 (String.ofList text)) with
      | none => rfl
      | some value =>
          rw [hjson] at hother
          rw [Option.bind_some, parseObject]
          cases hobj : value.asObject with
          | none => rfl
          | some obj =>
              cases hkind : strField obj "e" with
              | none => simp [hkind]
              | some kind =>
                  have hno := hother kind (by simp [hobj, hkind])
                  simpa [hkind] using sinkObservation_parseKind hno obj

/-! ## The tracker as folds of the sightings -/

/-- An observation under the subject that the tracker keeps. -/
@[grind =] def Observation.entry (limits : SinkLimits) (input : List UInt8) (o : Observation) :
    SinkKey × Sighting :=
  (⟨o.sinkClass, boundedSinkSubject o.subject limits.subjectBytes⟩, ⟨o.api, o.taint, input⟩)

/-- The calls in the order the tracker sees them. -/
def sightings (limits : SinkLimits) (run : List Execution) : List (SinkKey × Sighting) :=
  run.flatMap fun execution => execution.lines.filterMap fun line =>
    line.observation.map (Observation.entry limits execution.input)

/-- A tracker keeps its limits. -/
def SinkTaintTracker.Under (limits : SinkLimits) (tracker : SinkTaintTracker) : Prop :=
  tracker.entryLimit = limits.entryLimit ∧ tracker.subjectBytes = limits.subjectBytes
    ∧ tracker.representativeInputBytes = limits.representativeInputBytes

theorem entries_observeEvent {limits : SinkLimits} {tracker : SinkTaintTracker}
    (hunder : tracker.Under limits) (input : List UInt8) (event : RuntraceEvent) :
    (tracker.observeEvent input event).Under limits
      ∧ (tracker.observeEvent input event).entries
        = KeyedFold.run limits.entryLimit (SinkStat.see limits.representativeInputBytes)
            tracker.entries
            ((sinkObservation event).map (Observation.entry limits input)).toList := by
  obtain ⟨hentry, hsubject, hinput⟩ := hunder
  unfold SinkTaintTracker.observeEvent
  cases sinkObservation event with
  | none => exact ⟨⟨hentry, hsubject, hinput⟩, rfl⟩
  | some o =>
      dsimp only [Option.map_some, Option.toList_some, Observation.entry]
      rw [hentry, hsubject, hinput]
      simp only [KeyedFold.run, List.foldl_cons, List.foldl_nil, KeyedFold.step]
      split
      · exact ⟨⟨rfl, rfl, rfl⟩, rfl⟩
      · exact ⟨⟨rfl, rfl, rfl⟩, rfl⟩

/-- One execution. -/
theorem entries_observe {limits : SinkLimits} {tracker : SinkTaintTracker}
    (hunder : tracker.Under limits) (lines : List LogLine) (input : List UInt8) :
    (tracker.observe (parseLines lines) input).Under limits
      ∧ (tracker.observe (parseLines lines) input).entries
        = KeyedFold.run limits.entryLimit (SinkStat.see limits.representativeInputBytes)
            tracker.entries (lines.filterMap fun line =>
              line.observation.map (Observation.entry limits input)) := by
  induction lines generalizing tracker with
  | nil => exact ⟨hunder, rfl⟩
  | cons line lines ih =>
      have hline := sinkObservation_parseLine line
      cases hparse : parseLine line.text with
      | none =>
          rw [hparse, Option.bind_none] at hline
          simp only [parseLines, List.filterMap_cons, hparse, ← hline, Option.map_none]
          exact ih hunder
      | some event =>
          rw [hparse, Option.bind_some] at hline
          obtain ⟨hunder', hentries⟩ := entries_observeEvent hunder input event
          obtain ⟨hunder'', hrest⟩ := ih hunder'
          have hevents : parseLines (line :: lines) = event :: parseLines lines := by
            simp only [parseLines, List.filterMap_cons, hparse]
          rw [hevents]
          refine ⟨hunder'', hrest.trans ?_⟩
          rw [hentries, ← KeyedFold.run_append, hline, List.filterMap_cons]
          cases line.observation <;> rfl

/-- The whole run. -/
theorem entries_tracked (limits : SinkLimits) (run : List Execution) :
    (tracked limits run).entries
      = KeyedFold.run limits.entryLimit (SinkStat.see limits.representativeInputBytes) ∅
          (sightings limits run) := by
  have hrun : ∀ (executions : List Execution) (tracker : SinkTaintTracker), tracker.Under limits →
      (executions.foldl (fun tracker execution =>
        tracker.observe (parseLines execution.lines) execution.input) tracker).entries
      = KeyedFold.run limits.entryLimit (SinkStat.see limits.representativeInputBytes)
          tracker.entries (sightings limits executions) := by
    intro executions
    induction executions with
    | nil => exact fun tracker _ => rfl
    | cons execution executions ih =>
        intro tracker hunder
        obtain ⟨hunder', hentries⟩ := entries_observe hunder execution.lines execution.input
        rw [List.foldl_cons, ih _ hunder', hentries, ← KeyedFold.run_append]
        rfl
  exact hrun run (SinkTaintTracker.new limits) ⟨rfl, rfl, rfl⟩

/-! ## The state of one sink -/

/-- The offset and the input a confirmed sink is reported with. -/
@[grind =] def SinkStat.evidence (stat : SinkStat) : Option (Nat × List UInt8) :=
  stat.taintOffset.map fun offset => (offset, stat.representativeInput)

/-- The first taint and the input that goes with it. -/
@[grind =] def firstTaint (representativeInputBytes : Nat) (observed : List Sighting) :
    Option (Nat × List UInt8) :=
  observed.findSome? fun s => s.taint.map fun offset =>
    (offset, s.input.take representativeInputBytes)

theorem take_min_length (input : List UInt8) (n : Nat) :
    input.take (min input.length n) = input.take n := by
  rw [List.take_eq_take_iff]
  omega

/-- Neither flag is ever lost: one sighting. -/
theorem see_some (n : Nat) (stat : SinkStat) (s : Sighting) :
    (SinkStat.see n (some stat) s).untaintedSeen = (stat.untaintedSeen || s.taint.isNone)
      ∧ (SinkStat.see n (some stat) s).evidence
        = stat.evidence.or (s.taint.map fun offset => (offset, s.input.take n)) := by
  unfold SinkStat.see
  cases htaint : s.taint with
  | none => simp [SinkStat.evidence]
  | some offset =>
      cases hoffset : stat.taintOffset with
      | none => simp [SinkStat.evidence, hoffset, take_min_length]
      | some first => simp [SinkStat.evidence, hoffset]

theorem stateOf_some (n : Nat) (observed : List Sighting) (stat : SinkStat) :
    ∃ last, KeyedFold.stateOf (SinkStat.see n) (some stat) observed = some last
      ∧ last.untaintedSeen = (stat.untaintedSeen || observed.any fun s => s.taint.isNone)
      ∧ last.evidence = stat.evidence.or (firstTaint n observed) := by
  induction observed generalizing stat with
  | nil => exact ⟨stat, rfl, by simp, by simp [firstTaint]⟩
  | cons s observed ih =>
      obtain ⟨hflag, hevidence⟩ := see_some n stat s
      obtain ⟨last, heq, hflag', hevidence'⟩ := ih (SinkStat.see n (some stat) s)
      refine ⟨last, heq, ?_, ?_⟩
      · rw [hflag', hflag, List.any_cons, Bool.or_assoc]
      · rw [hevidence', hevidence, Option.or_assoc, firstTaint, firstTaint, List.findSome?_cons]
        cases s.taint <;> rfl

theorem stateOf_none (n : Nat) {observed : List Sighting} (hne : observed ≠ []) :
    ∃ last, KeyedFold.stateOf (SinkStat.see n) none observed = some last
      ∧ last.untaintedSeen = (observed.any fun s => s.taint.isNone)
      ∧ last.evidence = firstTaint n observed := by
  cases observed with
  | nil => exact absurd rfl hne
  | cons s observed =>
      -- a new entry starts out empty
      obtain ⟨last, heq, hflag, hevidence⟩ :=
        stateOf_some n (s :: observed) ⟨s.api, none, false, []⟩
      exact ⟨last, heq, by simpa using hflag, by simpa [SinkStat.evidence] using hevidence⟩

theorem mem_confirmed {tracker : SinkTaintTracker} {sink : ConfirmedSink} :
    sink ∈ tracker.confirmed ↔ ∃ stat,
      tracker.entries[(⟨sink.sinkClass, sink.subject⟩ : SinkKey)]? = some stat
        ∧ stat.untaintedSeen = false ∧ stat.api = sink.api
        ∧ stat.evidence = some (sink.taintOffset, sink.input) := by
  unfold SinkTaintTracker.confirmed
  rw [List.mem_filterMap]
  constructor
  · rintro ⟨⟨key, stat⟩, hmem, heq⟩
    rw [Std.TreeMap.mem_toList_iff_getElem?_eq_some] at hmem
    obtain ⟨offset, hoffset, heq⟩ := Option.bind_eq_some_iff.mp heq
    split at heq
    case isTrue => cases heq
    case isFalse hflag =>
      cases heq
      refine ⟨stat, hmem, by simpa using hflag, rfl, ?_⟩
      rw [SinkStat.evidence, show stat.taintOffset = some offset from hoffset, Option.map_some]
  · rintro ⟨stat, hentry, hflag, hapi, hevidence⟩
    refine ⟨(⟨sink.sinkClass, sink.subject⟩, stat),
      Std.TreeMap.mem_toList_iff_getElem?_eq_some.mpr hentry, ?_⟩
    obtain ⟨offset, hoffset, heq⟩ := Option.map_eq_some_iff.mp hevidence
    obtain ⟨hplace, hinput⟩ := Prod.mk.inj heq
    simp [hoffset, hflag, hapi, hplace, hinput]

/-! ## Subjects that fit -/

theorem boundedSinkSubject_of_le {subject : String} {n : Nat} (h : subject.utf8ByteSize ≤ n) :
    boundedSinkSubject subject n = subject := if_pos h

/-- The sink an observation belongs to. -/
@[grind =] def Observation.key (o : Observation) : SinkKey := ⟨o.sinkClass, o.subject⟩

theorem LogLine.named_eq (line : LogLine) :
    line.named = line.observation.map Observation.key := by
  cases line <;> rfl

/-- What the tracker is fed, with the subjects as the lines have them. -/
@[grind =] def observations (run : List Execution) : List (SinkKey × Sighting) :=
  run.flatMap fun execution => execution.lines.filterMap fun line =>
    line.observation.map fun o => (o.key, ⟨o.api, o.taint, execution.input⟩)

theorem mem_subjects {run : List Execution} {key : SinkKey} :
    key ∈ subjects run ↔ ∃ execution ∈ run, ∃ line ∈ execution.lines, line.named = some key := by
  simp only [subjects, List.mem_flatMap, List.mem_filterMap]

theorem sightings_eq {limits : SinkLimits} {run : List Execution} (hfits : Fits limits run) :
    sightings limits run = observations run := by
  unfold sightings observations
  refine List.flatMap_congr fun execution hexecution => ?_
  refine List.filterMap_congr fun line hline => ?_
  cases hobs : line.observation with
  | none => rfl
  | some o =>
      have hnamed : line.named = some o.key := by rw [line.named_eq, hobs, Option.map_some]
      have hlen : o.subject.utf8ByteSize ≤ limits.subjectBytes :=
        hfits.length o.key (mem_subjects.mpr ⟨execution, hexecution, line, hline, hnamed⟩)
      simp only [Option.map_some, Observation.entry, Observation.key]
      rw [boundedSinkSubject_of_le hlen]

theorem keys_observations (run : List Execution) :
    (observations run).map Prod.fst = subjects run := by
  unfold observations subjects
  rw [List.map_flatMap]
  refine List.flatMap_congr fun execution _ => ?_
  rw [List.map_filterMap]
  refine List.filterMap_congr fun line _ => ?_
  rw [line.named_eq, Option.map_map]
  rfl

theorem entries_of_fits {limits : SinkLimits} {run : List Execution} (hfits : Fits limits run)
    (key : SinkKey) :
    (tracked limits run).entries[key]?
      = KeyedFold.stateOf (SinkStat.see limits.representativeInputBytes) none
          (KeyedFold.seen key (observations run)) := by
  rw [entries_tracked, sightings_eq hfits]
  refine KeyedFold.getElem?_run ?_ key
  rw [keys_observations]
  exact hfits.count

/-- A confirmed sink has sightings, all of them tainted, and the first is kept. -/
theorem mem_confirmed_iff {limits : SinkLimits} {run : List Execution} (hfits : Fits limits run)
    (key : SinkKey) (offset : Nat) (input : List UInt8) :
    (∃ sink ∈ (tracked limits run).confirmed, sink.sinkClass = key.sinkClass
        ∧ sink.subject = key.subject ∧ sink.taintOffset = offset ∧ sink.input = input)
      ↔ (∀ s ∈ KeyedFold.seen key (observations run), s.taint ≠ none)
        ∧ firstTaint limits.representativeInputBytes (KeyedFold.seen key (observations run))
          = some (offset, input) := by
  have hentry := entries_of_fits hfits key
  generalize KeyedFold.seen key (observations run) = observed at hentry
  have hflag_iff : ∀ stat : SinkStat, stat.untaintedSeen = (observed.any fun s => s.taint.isNone) →
      (stat.untaintedSeen = false ↔ ∀ s ∈ observed, s.taint ≠ none) := by
    intro stat heq
    rw [heq, List.any_eq_false]
    simp only [Option.isNone_iff_eq_none, Ne]
  by_cases hne : observed = []
  · subst hne
    simp only [firstTaint, List.findSome?_nil, reduceCtorEq, and_false, iff_false]
    rintro ⟨sink, hsink, hclass, hsubject, -⟩
    obtain ⟨stat, hstat, -⟩ := mem_confirmed.mp hsink
    rw [hclass, hsubject, hentry] at hstat
    cases hstat
  · obtain ⟨last, hlast, hflag, hevidence⟩ :=
      stateOf_none limits.representativeInputBytes hne
    rw [hlast] at hentry
    constructor
    · rintro ⟨sink, hsink, hclass, hsubject, hoffset, hinput⟩
      obtain ⟨stat, hstat, hseen, -, hkept⟩ := mem_confirmed.mp hsink
      rw [hclass, hsubject, hentry] at hstat
      cases hstat
      exact ⟨(hflag_iff last hflag).mp hseen, by rw [← hevidence, hkept, hoffset, hinput]⟩
    · rintro ⟨hall, hfirst⟩
      exact ⟨⟨key.sinkClass, last.api, key.subject, offset, input⟩,
        mem_confirmed.mpr ⟨last, hentry, (hflag_iff last hflag).mpr hall, rfl,
          hevidence.trans hfirst⟩, rfl, rfl, rfl, rfl⟩

theorem confirms_iff {limits : SinkLimits} {run : List Execution} (hfits : Fits limits run)
    (key : SinkKey) :
    Confirms limits run key ↔ (∃ s, (key, s) ∈ observations run)
      ∧ ∀ s, (key, s) ∈ observations run → s.taint ≠ none := by
  simp only [← KeyedFold.mem_seen]
  constructor
  · rintro ⟨sink, hsink, hclass, hsubject⟩
    obtain ⟨hall, hfirst⟩ := (mem_confirmed_iff hfits key sink.taintOffset sink.input).mp
      ⟨sink, hsink, hclass, hsubject, rfl, rfl⟩
    obtain ⟨s, hs, -⟩ := List.exists_of_findSome?_eq_some hfirst
    exact ⟨⟨s, hs⟩, hall⟩
  · rintro ⟨⟨s, hs⟩, hall⟩
    have hfirst : firstTaint limits.representativeInputBytes
        (KeyedFold.seen key (observations run)) ≠ none := by
      intro hnone
      have hnone := List.findSome?_eq_none_iff.mp hnone s hs
      exact hall s hs (Option.map_eq_none_iff.mp hnone)
    obtain ⟨⟨offset, input⟩, hfirst⟩ := Option.ne_none_iff_exists'.mp hfirst
    obtain ⟨sink, hsink, hclass, hsubject, -⟩ :=
      (mem_confirmed_iff hfits key offset input).mpr ⟨hall, hfirst⟩
    exact ⟨sink, hsink, hclass, hsubject⟩

/-! ## Sightings and calls -/

/-- A line is a call, a failed probe or neither. -/
theorem LogLine.observation_cases (line : LogLine) :
    (∃ key taint api, line.sinkCall = some (key, taint) ∧ line.probed = none
        ∧ line.offset = taint
        ∧ line.observation = some ⟨key.sinkClass, api, key.subject, readTaint taint⟩)
      ∨ (∃ key api, line.sinkCall = none ∧ line.probed = some key
        ∧ line.observation = some ⟨key.sinkClass, api, key.subject, none⟩)
      ∨ (line.sinkCall = none ∧ line.probed = none ∧ line.observation = none) := by
  cases line with
  | opened api path fd taint => exact .inl ⟨_, taint, _, rfl, rfl, rfl, rfl⟩
  | missing api path result errno taint => exact .inl ⟨_, taint, _, rfl, rfl, rfl, rfl⟩
  | probe api path result errno taint => exact .inr (.inl ⟨_, _, rfl, rfl, rfl⟩)
  | command api text taint => exact .inl ⟨_, taint, _, rfl, rfl, rfl, rfl⟩
  | call kind api subject taint => exact .inl ⟨_, taint, _, rfl, rfl, rfl, rfl⟩
  | other text hother => exact .inr (.inr ⟨rfl, rfl, rfl⟩)

theorem mem_sinkCalls {run : List Execution} {key : SinkKey} {call : SinkCall} :
    (key, call) ∈ sinkCalls run ↔ ∃ execution ∈ run, ∃ line ∈ execution.lines,
      line.sinkCall = some (key, call.taint) ∧ call.input = execution.input := by
  simp only [sinkCalls, List.mem_flatMap, List.mem_filterMap, Option.map_eq_some_iff]
  constructor
  · rintro ⟨execution, hexecution, line, hline, ⟨key', taint⟩, hcall, heq⟩
    cases heq
    exact ⟨execution, hexecution, line, hline, hcall, rfl⟩
  · rintro ⟨execution, hexecution, line, hline, hcall, hinput⟩
    refine ⟨execution, hexecution, line, hline, (key, call.taint), hcall, ?_⟩
    rw [← hinput]

/-- The tracker sees the calls, as far as their offsets can be read, and the
probes. -/
theorem mem_observations {run : List Execution} {key : SinkKey} {taint : Option Nat} :
    (∃ s, (key, s) ∈ observations run ∧ s.taint = taint)
      ↔ (∃ call, (key, call) ∈ sinkCalls run ∧ readTaint call.taint = taint)
        ∨ (Probed run key ∧ taint = none) := by
  have hmem : ∀ s, (key, s) ∈ observations run ↔ ∃ execution ∈ run, ∃ line ∈ execution.lines,
      ∃ o, line.observation = some o ∧ o.key = key ∧ s = ⟨o.api, o.taint, execution.input⟩ := by
    intro s
    simp only [observations, List.mem_flatMap, List.mem_filterMap, Option.map_eq_some_iff,
      Prod.mk.injEq]
    simp only [eq_comm]
  -- A line is a call of a sink, a probe or neither.
  constructor
  · rintro ⟨s, hs, htaint⟩
    obtain ⟨execution, hexecution, line, hline, o, hobs, hkey, rfl⟩ := (hmem s).mp hs
    rcases line.observation_cases with ⟨key', taint', api, hcall, -, -, hsome⟩
        | ⟨key', api, -, hprobed, hsome⟩ | ⟨-, -, hnone⟩
    · rw [hsome] at hobs
      cases hobs
      subst hkey
      exact .inl ⟨⟨taint', execution.input⟩,
        mem_sinkCalls.mpr ⟨execution, hexecution, line, hline, hcall, rfl⟩, htaint⟩
    · rw [hsome] at hobs
      cases hobs
      subst hkey
      exact .inr ⟨⟨execution, hexecution, line, hline, hprobed⟩, htaint.symm⟩
    · rw [hnone] at hobs
      cases hobs
  · rintro (⟨call, hcall, htaint⟩ | ⟨⟨execution, hexecution, line, hline, hprobed⟩, rfl⟩)
    · obtain ⟨execution, hexecution, line, hline, hsink, -⟩ := mem_sinkCalls.mp hcall
      rcases line.observation_cases with ⟨key', taint', api, hcall', -, -, hsome⟩
          | ⟨key', api, hnone, -, -⟩ | ⟨hnone, -, -⟩
      · rw [hcall'] at hsink
        cases hsink
        exact ⟨_, (hmem _).mpr ⟨execution, hexecution, line, hline, _, hsome, rfl, rfl⟩, htaint⟩
      · rw [hnone] at hsink
        cases hsink
      · rw [hnone] at hsink
        cases hsink
    · rcases line.observation_cases with ⟨key', taint', api, -, hnone, -, -⟩
          | ⟨key', api, -, hprobed', hsome⟩ | ⟨-, hnone, -⟩
      · rw [hnone] at hprobed
        cases hprobed
      · rw [hprobed'] at hprobed
        cases hprobed
        exact ⟨_, (hmem _).mpr ⟨execution, hexecution, line, hline, _, hsome, rfl, rfl⟩, rfl⟩
      · rw [hnone] at hprobed
        cases hprobed

/-- Confirmed is what was called with offsets that can be read, each time, and
never probed. -/
theorem confirms_iff_calls {limits : SinkLimits} {run : List Execution} (hfits : Fits limits run)
    (key : SinkKey) :
    Confirms limits run key ↔ (∃ call, (key, call) ∈ sinkCalls run)
      ∧ (∀ call, (key, call) ∈ sinkCalls run → readTaint call.taint ≠ none)
      ∧ ¬ Probed run key := by
  rw [confirms_iff hfits]
  constructor
  · rintro ⟨⟨s, hs⟩, hall⟩
    have hcalls : ∀ call, (key, call) ∈ sinkCalls run → readTaint call.taint ≠ none := by
      intro call hcall hnone
      obtain ⟨s', hs', hnone'⟩ := mem_observations.mpr (.inl ⟨call, hcall, hnone⟩)
      exact hall s' hs' hnone'
    have hprobed : ¬ Probed run key := by
      intro hprobed
      obtain ⟨s', hs', hnone'⟩ := mem_observations.mpr (.inr ⟨hprobed, rfl⟩)
      exact hall s' hs' hnone'
    rcases mem_observations.mp ⟨s, hs, rfl⟩ with ⟨call, hcall, -⟩ | ⟨hprobed', -⟩
    · exact ⟨⟨call, hcall⟩, hcalls, hprobed⟩
    · exact absurd hprobed' hprobed
  · rintro ⟨⟨call, hcall⟩, hcalls, hprobed⟩
    obtain ⟨s, hs, -⟩ := mem_observations.mpr (.inl ⟨call, hcall, rfl⟩)
    refine ⟨⟨s, hs⟩, fun s hs hnone => ?_⟩
    rcases mem_observations.mp ⟨s, hs, hnone⟩ with ⟨call, hcall, hnone⟩ | ⟨hprobed', -⟩
    · exact hcalls call hcall hnone
    · exact hprobed hprobed'

theorem readTaint_eq_some {taint : Option Offset} {n : Nat} :
    readTaint taint = some n ↔ ∃ offset, taint = some offset ∧ offset.value = n ∧ n < 2 ^ 32 := by
  cases taint with
  | none => simp [readTaint]
  | some offset =>
      simp only [readTaint, Option.bind_some, Option.some.injEq, exists_eq_left']
      constructor
      · intro h
        split at h
        case isTrue hlt =>
          cases h
          exact ⟨rfl, hlt⟩
        case isFalse => cases h
      · rintro ⟨rfl, hlt⟩
        exact if_pos hlt

theorem controlled_iff {run : List Execution} {key : SinkKey} :
    Controlled run key ↔ (∃ call, (key, call) ∈ sinkCalls run)
      ∧ ∀ call, (key, call) ∈ sinkCalls run → ∃ offset, call.taint = some offset := by
  constructor
  · rintro ⟨⟨call, hcall, -⟩, hnot⟩
    refine ⟨⟨call, hcall⟩, fun call hcall => ?_⟩
    cases htaint : call.taint with
    | none => exact absurd ⟨call, hcall, by rw [htaint]; rfl⟩ hnot
    | some offset => exact ⟨offset, rfl⟩
  · rintro ⟨⟨call, hcall⟩, hall⟩
    obtain ⟨offset, hoffset⟩ := hall call hcall
    refine ⟨⟨call, hcall, by rw [hoffset]; rfl⟩, ?_⟩
    rintro ⟨call', hcall', hnone⟩
    obtain ⟨offset', hoffset'⟩ := hall call' hcall'
    rw [hoffset'] at hnone
    cases hnone

/-- The flags are right exactly without probes and wide offsets. -/
theorem derived_iff {limits : SinkLimits} {run : List Execution} (hfits : Fits limits run) :
    (∀ key, Confirms limits run key ↔ Derived run key ∧ ¬ NotDerived run key)
      ↔ (∀ key, Controlled run key → ¬ Probed run key)
        ∧ ∀ key, Controlled run key → ∀ call, (key, call) ∈ sinkCalls run →
          ∀ offset, call.taint = some offset → offset.value < 2 ^ 32 := by
  constructor
  · intro hexact
    have hconfirmed : ∀ key, Controlled run key → Confirms limits run key :=
      fun key hcontrolled => (hexact key).mpr hcontrolled
    constructor
    · intro key hcontrolled
      exact ((confirms_iff_calls hfits key).mp (hconfirmed key hcontrolled)).2.2
    · intro key hcontrolled call hcall offset htaint
      -- an offset beyond 32 bits would be read as none
      obtain ⟨-, hall, -⟩ := (confirms_iff_calls hfits key).mp (hconfirmed key hcontrolled)
      obtain ⟨n, hn⟩ := Option.ne_none_iff_exists'.mp (hall call hcall)
      obtain ⟨offset', hoffset', rfl, hlt⟩ := readTaint_eq_some.mp hn
      rw [htaint] at hoffset'
      cases hoffset'
      exact hlt
  · rintro ⟨hprobe, hwide⟩ key
    show _ ↔ Controlled run key
    constructor
    · intro hconfirms
      obtain ⟨hcall, hall, -⟩ := (confirms_iff_calls hfits key).mp hconfirms
      refine controlled_iff.mpr ⟨hcall, fun call hcall => ?_⟩
      obtain ⟨n, hn⟩ := Option.ne_none_iff_exists'.mp (hall call hcall)
      obtain ⟨offset, hoffset, -⟩ := readTaint_eq_some.mp hn
      exact ⟨offset, hoffset⟩
    · intro hcontrolled
      obtain ⟨hcall, hall⟩ := controlled_iff.mp hcontrolled
      refine (confirms_iff_calls hfits key).mpr ⟨hcall, fun call hcall => ?_,
        hprobe key hcontrolled⟩
      obtain ⟨offset, hoffset⟩ := hall call hcall
      have hlt := hwide key hcontrolled call hcall offset hoffset
      have hread : readTaint call.taint = some offset.value :=
        readTaint_eq_some.mpr ⟨offset, hoffset, rfl, hlt⟩
      rw [hread]
      exact Option.some_ne_none _

/-! ## The order of the executions -/

theorem Fits.perm {limits : SinkLimits} {run run' : List Execution} (hperm : run'.Perm run)
    (hfits : Fits limits run) : Fits limits run' := by
  have hmem : ∀ key, key ∈ subjects run' ↔ key ∈ subjects run := by
    intro key
    simp only [mem_subjects, hperm.mem_iff]
  have hset : (subjects run').toFinset = (subjects run).toFinset := by
    ext key
    rw [List.mem_toFinset, List.mem_toFinset, hmem]
  exact ⟨by rw [hset]; exact hfits.count, fun key hkey => hfits.length key ((hmem key).mp hkey)⟩

theorem confirms_perm {limits : SinkLimits} {run run' : List Execution} (hfits : Fits limits run)
    (hperm : run'.Perm run) (key : SinkKey) :
    Confirms limits run' key ↔ Confirms limits run key := by
  rw [confirms_iff_calls (hfits.perm hperm), confirms_iff_calls hfits]
  simp only [mem_sinkCalls, Probed, hperm.mem_iff]

/-! ## The input that is kept -/

/-- Without probes the tracker sees the calls in their order. -/
theorem seen_observations {run : List Execution} {key : SinkKey} (hprobe : ¬ Probed run key) :
    (KeyedFold.seen key (observations run)).map (fun s => (s.taint, s.input))
      = (KeyedFold.seen key (sinkCalls run)).map
          fun call => (readTaint call.taint, call.input) := by
  simp only [KeyedFold.seen, observations, sinkCalls, List.filterMap_flatMap, List.map_flatMap,
    List.filterMap_filterMap, List.map_filterMap]
  refine List.flatMap_congr fun execution hexecution => ?_
  refine List.filterMap_congr fun line hline => ?_
  rcases line.observation_cases with ⟨key', taint, api, hcall, -, -, hsome⟩
      | ⟨key', api, hcall, hprobed, hsome⟩ | ⟨hcall, -, hnone⟩
  · rw [hcall, hsome]
    by_cases hkey : key' = key
    · simp [Observation.key, hkey]
    · simp [Observation.key, hkey]
  · have hkey' : (⟨key'.sinkClass, key'.subject⟩ : SinkKey) ≠ key := by
      rintro rfl
      exact hprobe ⟨execution, hexecution, line, hline, hprobed⟩
    rw [hcall, hsome]
    simp [Observation.key, hkey']
  · rw [hcall, hnone]
    rfl

theorem firstTaint_of_tainted (n : Nat) {observed : List Sighting}
    (hall : ∀ s ∈ observed, s.taint ≠ none) :
    firstTaint n observed = (observed.map fun s => (s.taint, s.input)).head?.bind fun first =>
      first.1.map fun offset => (offset, first.2.take n) := by
  cases observed with
  | nil => rfl
  | cons s observed =>
      obtain ⟨offset, hoffset⟩ := Option.ne_none_iff_exists'.mp (hall s List.mem_cons_self)
      simp [firstTaint, hoffset]

/-- What is kept of a confirmed sink: the offset and the input of its first
call. -/
theorem mem_confirmed_calls {limits : SinkLimits} {run : List Execution}
    (hfits : Fits limits run) {key : SinkKey} (hconfirms : Confirms limits run key) (offset : Nat)
    (input : List UInt8) :
    (∃ sink ∈ (tracked limits run).confirmed, sink.sinkClass = key.sinkClass
        ∧ sink.subject = key.subject ∧ sink.taintOffset = offset ∧ sink.input = input)
      ↔ ∃ call, (KeyedFold.seen key (sinkCalls run)).head? = some call
        ∧ readTaint call.taint = some offset
        ∧ call.input.take limits.representativeInputBytes = input := by
  obtain ⟨-, hall⟩ := (confirms_iff hfits key).mp hconfirms
  obtain ⟨-, -, hprobe⟩ := (confirms_iff_calls hfits key).mp hconfirms
  have hall : ∀ s ∈ KeyedFold.seen key (observations run), s.taint ≠ none :=
    fun s hs => hall s (KeyedFold.mem_seen.mp hs)
  rw [mem_confirmed_iff hfits, firstTaint_of_tainted _ hall, seen_observations hprobe,
    List.head?_map, and_iff_right hall]
  simp only [Option.bind_eq_some_iff, Option.map_eq_some_iff, Prod.mk.injEq]
  constructor
  · rintro ⟨first, ⟨call, hhead, rfl⟩, offset', hread, rfl, hinput⟩
    exact ⟨call, hhead, hread, hinput⟩
  · rintro ⟨call, hhead, hread, hinput⟩
    exact ⟨_, ⟨call, hhead, rfl⟩, offset, hread, rfl, hinput⟩

theorem offset_lt_of_mem_sinkCalls {run : List Execution} (hinside : OffsetsInside run)
    {key : SinkKey} {call : SinkCall} (hcall : (key, call) ∈ sinkCalls run) {offset : Offset}
    (htaint : call.taint = some offset) : offset.value < call.input.length := by
  obtain ⟨execution, hexecution, line, hline, hsink, hinput⟩ := mem_sinkCalls.mp hcall
  rcases line.observation_cases with ⟨key', taint, api, hcall', -, hoffset, -⟩
      | ⟨key', api, hnone, -, -⟩ | ⟨hnone, -, -⟩
  · rw [hcall'] at hsink
    cases hsink
    rw [hinput]
    exact hinside execution hexecution line hline offset (hoffset.trans htaint)
  · rw [hnone] at hsink
    cases hsink
  · rw [hnone] at hsink
    cases hsink

theorem head_seen_mem {run : List Execution} {key : SinkKey} {call : SinkCall}
    (hhead : (KeyedFold.seen key (sinkCalls run)).head? = some call) :
    (key, call) ∈ sinkCalls run :=
  KeyedFold.mem_seen.mp (List.mem_of_mem_head? hhead)

/-- A path that was opened from the input and found missing by a `stat`. -/
def probedRun : List Execution :=
  [⟨[.missing .open [47, 97, 98, 99] (-1) 2 (some ⟨0, by decide⟩),
      .probe .stat [47, 97, 98, 99] (-1) 2 (some ⟨0, by decide⟩)], [47, 97, 98, 99]⟩]

def sinkLimits : SinkLimits := ⟨1024, 16 * 1024, 32 * 1024⟩

theorem fits_probedRun : Fits sinkLimits probedRun := by
  constructor <;> decide

/-- A path that two inputs open, each from its own first byte. -/
def openedRun : List Execution :=
  [⟨[.opened .open [47, 97, 98, 99] 3 (some ⟨0, by decide⟩)], [47, 97, 98, 99]⟩,
    ⟨[.missing .openat [47, 97, 98, 99] (-1) 2 (some ⟨0, by decide⟩)], [47, 97, 98, 99, 100]⟩]

theorem trackable_openedRun : Trackable sinkLimits openedRun := by
  have hcalls : ∀ key call, (key, call) ∈ sinkCalls openedRun →
      ∀ offset, call.taint = some offset → offset.value = 0 := by
    intro key call hcall offset htaint
    have hall : sinkCalls openedRun
        = [(⟨.openPath, latin1 [47, 97, 98, 99]⟩, ⟨some ⟨0, by decide⟩, [47, 97, 98, 99]⟩),
          (⟨.openPath, latin1 [47, 97, 98, 99]⟩, ⟨some ⟨0, by decide⟩, [47, 97, 98, 99, 100]⟩)] :=
      rfl
    rw [hall] at hcall
    simp only [List.mem_cons, Prod.mk.injEq, List.not_mem_nil, or_false] at hcall
    rcases hcall with ⟨-, rfl⟩ | ⟨-, rfl⟩ <;>
      · cases htaint
        rfl
  refine ⟨fun key _ => ?_, fun key _ call hcall offset htaint => ?_,
    fun _ key _ call offset hfirst htaint => ?_⟩
  · rintro ⟨execution, hexecution, line, hline, hprobed⟩
    simp only [openedRun, List.mem_cons, List.not_mem_nil, or_false] at hexecution
    rcases hexecution with rfl | rfl <;>
      · rw [List.mem_singleton.mp hline] at hprobed
        cases hprobed
  · rw [hcalls key call hcall offset htaint]
    decide
  · rw [hcalls key call (head_seen_mem hfirst) offset htaint]
    decide

end GovFuzz.Runtrace
