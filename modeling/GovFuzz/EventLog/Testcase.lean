import GovFuzz.EventLog.Reader

/-!
# EventLog — testcase windows

`crates/event_log/src/testcase.rs`: the reader's events grouped into
testcases.  The model keeps the loop's three variables (`testcases`,
`current`, `sequence_index`) as one state.
-/

namespace GovFuzz.EventLog

structure HandlerEvent where
  sequenceIndex : Nat
  exceptionName : String
  exceptionMessage : String
  handlerFile : String
  handlerLine : UInt32
  lastBreadcrumb : UInt32
  targetId : UInt32
  testcaseId : UInt64
  deriving DecidableEq, Repr

structure RaiseEvent where
  sequenceIndex : Nat
  exceptionName : String
  file : String
  line : UInt32
  breadcrumb : UInt32
  deriving DecidableEq, Repr

structure TopLevelEvent where
  exceptionName : String
  exceptionMessage : String
  deriving DecidableEq, Repr

structure EndEvent where
  resultClass : UInt8
  deriving DecidableEq, Repr

structure MockEvent where
  symbol : String
  deriving DecidableEq, Repr

structure Testcase where
  testcaseId : UInt64
  targetId : UInt32
  targetEntered : Bool
  crumbs : List UInt32
  handlers : List HandlerEvent
  raises : List RaiseEvent
  topLevel : Option TopLevelEvent
  endEvent : Option EndEvent
  mocks : List MockEvent
  deriving DecidableEq, Repr

def Testcase.new (testcaseId : UInt64) : Testcase :=
  { testcaseId
    targetId := 0
    targetEntered := false
    crumbs := []
    handlers := []
    raises := []
    topLevel := none
    endEvent := none
    mocks := [] }

/-- The variables of the loop of `group_into_testcases`. -/
structure Grouping where
  testcases : List Testcase
  current : Option Testcase
  sequenceIndex : Nat

def Grouping.start : Grouping := { testcases := [], current := none, sequenceIndex := 0 }

/-- `if let Some(testcase) = &mut current`: edit the open testcase, if any. -/
def Grouping.update (g : Grouping) (edit : Testcase → Testcase) : Grouping :=
  { g with current := g.current.map edit }

/-- One round of the loop. -/
def Grouping.step (g : Grouping) (event : Event) : Grouping :=
  let currentIndex := g.sequenceIndex
  let g := { g with sequenceIndex := g.sequenceIndex + 1 }
  match event with
  | .begin testcaseId =>
      { g with
        testcases := g.testcases ++ g.current.toList
        current := some (Testcase.new testcaseId) }
  | .end resultClass =>
      match g.current with
      | some testcase =>
          { g with
            testcases := g.testcases ++ [{ testcase with endEvent := some ⟨resultClass⟩ }]
            current := none }
      | none => g
  | .crumb id => g.update fun testcase => { testcase with crumbs := testcase.crumbs ++ [id] }
  | .target id => g.update fun testcase => { testcase with targetId := id }
  | .targetEntry => g.update fun testcase => { testcase with targetEntered := true }
  | .handler exceptionName exceptionMessage handlerFile handlerLine lastBreadcrumb targetId
      testcaseId =>
      g.update fun testcase =>
        { testcase with
          handlers := testcase.handlers ++
            [{ sequenceIndex := currentIndex, exceptionName, exceptionMessage, handlerFile,
               handlerLine, lastBreadcrumb, targetId, testcaseId }] }
  | .raise exceptionName file line breadcrumb =>
      g.update fun testcase =>
        { testcase with
          raises := testcase.raises ++
            [{ sequenceIndex := currentIndex, exceptionName, file, line, breadcrumb }] }
  | .mock symbol =>
      g.update fun testcase => { testcase with mocks := testcase.mocks ++ [⟨symbol⟩] }
  | .topLevel exceptionName exceptionMessage =>
      g.update fun testcase =>
        { testcase with topLevel := some { exceptionName, exceptionMessage } }

/-- The testcases once the stream has ended: an open one is pushed as it is. -/
def Grouping.finish (g : Grouping) : List Testcase := g.testcases ++ g.current.toList

def groupLoop (g : Grouping) (bytes : List UInt8) : Except EventReadError (List Testcase) :=
  match _h : nextEvent.run bytes with
  | .error e => .error e
  | .ok (none, _) => .ok g.finish
  | .ok (some event, rest) => groupLoop (g.step event) rest
termination_by bytes.length
decreasing_by exact nextEvent_lt _h

def groupIntoTestcases (bytes : List UInt8) : Except EventReadError (List Testcase) :=
  groupLoop .start bytes

/-- The loop over a reader is the fold of its events. -/
theorem groupLoop_of_readEvents {bytes left : List UInt8} {events : List Event}
    (h : readEvents bytes = .ok (events, left)) (g : Grouping) :
    groupLoop g bytes = .ok (events.foldl Grouping.step g).finish := by
  induction bytes using readEvents.induct generalizing events left g with
  | case1 bytes e hrun =>
      rw [readEvents_error hrun] at h
      cases h
  | case2 bytes rest hrun =>
      rw [readEvents_end hrun] at h
      cases h
      rw [groupLoop]
      split <;> simp_all
  | case3 bytes event rest hrun ih =>
      rw [readEvents_cons hrun] at h
      cases hrest : readEvents rest with
      | error e => rw [hrest] at h; cases h
      | ok p =>
          obtain ⟨events', left'⟩ := p
          rw [hrest] at h
          cases h
          rw [groupLoop, List.foldl_cons, ← ih hrest]
          split <;> simp_all

theorem groupIntoTestcases_of_readEvents {bytes left : List UInt8} {events : List Event}
    (h : readEvents bytes = .ok (events, left)) :
    groupIntoTestcases bytes = .ok (events.foldl Grouping.step .start).finish :=
  groupLoop_of_readEvents h .start

end GovFuzz.EventLog
