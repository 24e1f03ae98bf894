import GovFuzz.EventLog.Testcase
import Mathlib.Data.List.TakeWhile

/-!
# Corpus — grouping recorded events

`group_events` of `crates/corpus/src/manager.rs` is written a second time,
over a slice instead of a reader.  Both groupers are compared with one
statement of what a testcase is: the events of its WINDOW, the stretch
from a `Begin` to the next `Begin` or `End` (or the end of the stream).
-/

namespace GovFuzz.Corpus

open GovFuzz.EventLog

/-- The loop body of `group_events`: the testcases pushed so far, the open
one, and the event with its `enumerate` index. -/
def groupEventsStep : List Testcase × Option Testcase → Event × Nat →
    List Testcase × Option Testcase
  | (testcases, current), (event, sequenceIndex) =>
      match event with
      | .begin testcaseId =>
          (testcases ++ current.toList,
            some
              { testcaseId
                targetId := 0
                targetEntered := false
                crumbs := []
                handlers := []
                raises := []
                topLevel := none
                endEvent := none
                mocks := [] })
      | .end resultClass =>
          match current with
          | some testcase =>
              (testcases ++ [{ testcase with endEvent := some ⟨resultClass⟩ }], none)
          | none => (testcases, none)
      | .crumb id =>
          (testcases, current.map fun testcase =>
            { testcase with crumbs := testcase.crumbs ++ [id] })
      | .target id =>
          (testcases, current.map fun testcase => { testcase with targetId := id })
      | .targetEntry =>
          (testcases, current.map fun testcase => { testcase with targetEntered := true })
      | .handler exceptionName exceptionMessage handlerFile handlerLine lastBreadcrumb targetId
          testcaseId =>
          (testcases, current.map fun testcase =>
            { testcase with
              handlers := testcase.handlers ++
                [{ sequenceIndex, exceptionName, exceptionMessage, handlerFile, handlerLine,
                   lastBreadcrumb, targetId, testcaseId }] })
      | .raise exceptionName file line breadcrumb =>
          (testcases, current.map fun testcase =>
            { testcase with
              raises := testcase.raises ++
                [{ sequenceIndex, exceptionName, file, line, breadcrumb }] })
      | .mock symbol =>
          (testcases, current.map fun testcase =>
            { testcase with mocks := testcase.mocks ++ [⟨symbol⟩] })
      | .topLevel exceptionName exceptionMessage =>
          (testcases, current.map fun testcase =>
            { testcase with topLevel := some { exceptionName, exceptionMessage } })

def groupEvents (events : List Event) : List Testcase :=
  let (testcases, current) := events.zipIdx.foldl groupEventsStep ([], none)
  testcases ++ current.toList

/-! ## Windows: what a testcase is made of -/

/-- An event of a window's inside: neither of the two that bound windows. -/
def inside : Event → Bool
  | .begin _ => false
  | .end _ => false
  | _ => true

/-- A `Begin`, the events after it up to the next `Begin` or `End`, and
the result class when it is an `End` that stops the window. -/
structure Window where
  testcaseId : UInt64
  events : List (Event × Nat)
  closing : Option UInt8

/-- The result class when the first event is an `End`. -/
def closingOf : List (Event × Nat) → Option UInt8
  | (.end resultClass, _) :: _ => some resultClass
  | _ => none

/-- The windows of a stream of numbered events.  Whatever stands between a
closed window and the next `Begin` belongs to none. -/
def windows : List (Event × Nat) → List Window
  | [] => []
  | (.begin testcaseId, _) :: rest =>
      { testcaseId
        events := rest.takeWhile (fun e => inside e.1)
        closing := closingOf (rest.dropWhile (fun e => inside e.1)) }
        :: windows (rest.dropWhile (fun e => inside e.1))
  | _ :: rest => windows rest
termination_by l => l.length
decreasing_by
  all_goals simp_wf
  all_goals
    have := (List.dropWhile_sublist (fun e : Event × Nat => inside e.1) (l := rest)).length_le
    omega

def targetOf : Event × Nat → Option UInt32
  | (.target id, _) => some id
  | _ => none

def isTargetEntry : Event × Nat → Bool
  | (.targetEntry, _) => true
  | _ => false

def crumbOf : Event × Nat → Option UInt32
  | (.crumb id, _) => some id
  | _ => none

def handlerOf : Event × Nat → Option HandlerEvent
  | (.handler exceptionName exceptionMessage handlerFile handlerLine lastBreadcrumb targetId
      testcaseId, sequenceIndex) =>
      some { sequenceIndex, exceptionName, exceptionMessage, handlerFile, handlerLine,
             lastBreadcrumb, targetId, testcaseId }
  | _ => none

def raiseOf : Event × Nat → Option RaiseEvent
  | (.raise exceptionName file line breadcrumb, sequenceIndex) =>
      some { sequenceIndex, exceptionName, file, line, breadcrumb }
  | _ => none

def mockOf : Event × Nat → Option MockEvent
  | (.mock symbol, _) => some ⟨symbol⟩
  | _ => none

def topLevelOf : Event × Nat → Option TopLevelEvent
  | (.topLevel exceptionName exceptionMessage, _) => some { exceptionName, exceptionMessage }
  | _ => none

/-- What a testcase becomes when a stretch of inside events is added to
it: the lists grow by the events of their kind in order, a later target or
top-level event replaces an earlier one. -/
def absorb (testcase : Testcase) (events : List (Event × Nat)) : Testcase :=
  { testcase with
    targetId := (events.filterMap targetOf).getLast?.getD testcase.targetId
    targetEntered := testcase.targetEntered || events.any isTargetEntry
    crumbs := testcase.crumbs ++ events.filterMap crumbOf
    handlers := testcase.handlers ++ events.filterMap handlerOf
    raises := testcase.raises ++ events.filterMap raiseOf
    topLevel := (events.filterMap topLevelOf).getLast?.or testcase.topLevel
    mocks := testcase.mocks ++ events.filterMap mockOf }

/-- The testcase of a window: built from the window's own events only. -/
def Window.testcase (w : Window) : Testcase :=
  { absorb (Testcase.new w.testcaseId) w.events with endEvent := w.closing.map EndEvent.mk }

/-! ## The slice grouper builds the windows' testcases -/

theorem absorb_nil (testcase : Testcase) : absorb testcase [] = testcase := by
  simp [absorb]

/-- One inside event edits the open testcase as `absorb` says. -/
theorem groupEventsStep_inside {e : Event × Nat} (he : inside e.1 = true)
    (testcases : List Testcase) (testcase : Testcase) :
    groupEventsStep (testcases, some testcase) e = (testcases, some (absorb testcase [e])) := by
  obtain ⟨event, i⟩ := e
  cases event <;>
    simp_all [groupEventsStep, absorb, inside, targetOf, isTargetEntry, crumbOf, handlerOf,
      raiseOf, mockOf, topLevelOf]

theorem absorb_append (testcase : Testcase) (first second : List (Event × Nat)) :
    absorb (absorb testcase first) second = absorb testcase (first ++ second) := by
  simp [absorb, List.getLast?_append, Option.or_assoc, Bool.or_assoc]

theorem foldl_inside {l : List (Event × Nat)} (h : ∀ e ∈ l, inside e.1 = true)
    (testcases : List Testcase) (testcase : Testcase) :
    l.foldl groupEventsStep (testcases, some testcase)
      = (testcases, some (absorb testcase l)) := by
  induction l generalizing testcase with
  | nil => rw [absorb_nil, List.foldl_nil]
  | cons e l ih =>
      rw [List.foldl_cons, groupEventsStep_inside (h e (by simp)),
        ih (fun e' he' => h e' (by simp [he'])), absorb_append, List.singleton_append]

/-- Events outside any window leave no trace. -/
theorem groupEventsStep_none {e : Event × Nat} (h : ∀ id, e.1 ≠ .begin id)
    (testcases : List Testcase) :
    groupEventsStep (testcases, none) e = (testcases, none) := by
  obtain ⟨event, i⟩ := e
  cases event <;> simp_all [groupEventsStep]

/-- The testcases of the final loop state. -/
def pushed (s : List Testcase × Option Testcase) : List Testcase := s.1 ++ s.2.toList

/-- From a stop event on, an open testcase is pushed (closed when the stop
is an `End`) and the loop goes on as if from outside. -/
theorem pushed_foldl_tail {tail : List (Event × Nat)}
    (htail : ∀ e ∈ tail.head?, inside e.1 = false)
    (testcases : List Testcase) (testcase : Testcase) :
    pushed (tail.foldl groupEventsStep (testcases, some testcase))
      = pushed (tail.foldl groupEventsStep
          (testcases ++ [{ testcase with
              endEvent := ((closingOf tail).map EndEvent.mk).or testcase.endEvent }], none)) := by
  cases tail with
  | nil => simp [pushed, closingOf]
  | cons e tail =>
      obtain ⟨event, i⟩ := e
      have he : inside event = false := htail (event, i) (by simp)
      cases event <;> simp_all [inside, groupEventsStep, closingOf]

theorem head?_dropWhile_inside (l : List (Event × Nat)) :
    ∀ e ∈ (l.dropWhile (fun e => inside e.1)).head?, inside e.1 = false := by
  intro e he
  have := List.head?_dropWhile_not (fun e : Event × Nat => inside e.1) l
  simp only [Option.mem_def] at he
  simpa [he] using this

/-- Over a run of the loop from outside any window, each window of the
stream yields its testcase, in order, and nothing else is pushed. -/
theorem pushed_foldl_windows (l : List (Event × Nat)) (testcases : List Testcase) :
    pushed (l.foldl groupEventsStep (testcases, none))
      = testcases ++ (windows l).map Window.testcase := by
  induction l using windows.induct generalizing testcases with
  | case1 => simp [pushed, windows]
  | case2 testcaseId i rest ih =>
      have hsplit := List.takeWhile_append_dropWhile (p := fun e : Event × Nat => inside e.1)
        (l := rest)
      have hbody := foldl_inside (l := rest.takeWhile (fun e => inside e.1))
        (fun e he => by simpa using List.mem_takeWhile_imp he) testcases (Testcase.new testcaseId)
      have htail := pushed_foldl_tail (head?_dropWhile_inside rest) testcases
        (absorb (Testcase.new testcaseId) (rest.takeWhile (fun e => inside e.1)))
      calc pushed (((.begin testcaseId, i) :: rest).foldl groupEventsStep (testcases, none))
          = pushed (rest.foldl groupEventsStep (testcases, some (Testcase.new testcaseId))) := by
            simp [groupEventsStep, Testcase.new]
        _ = pushed ((rest.dropWhile (fun e => inside e.1)).foldl groupEventsStep
              (testcases, some (absorb (Testcase.new testcaseId)
                (rest.takeWhile (fun e => inside e.1))))) := by
            rw [← hbody, ← List.foldl_append, hsplit]
        _ = testcases ++ (windows ((.begin testcaseId, i) :: rest)).map Window.testcase := by
            rw [htail, ih, windows]
            simp [Window.testcase, absorb, Testcase.new]
  | case3 e rest hne ih =>
      have hstep := groupEventsStep_none (e := e) (fun id hid => hne id e.2 (by
        rw [← hid])) testcases
      rw [List.foldl_cons, hstep, ih, windows]
      exact fun id i h => hne id i h

/-- `group_events` yields exactly the testcases of the stream's windows. -/
theorem groupEvents_eq_windows (events : List Event) :
    groupEvents events = (windows events.zipIdx).map Window.testcase := by
  have h := pushed_foldl_windows events.zipIdx []
  simpa [groupEvents, pushed] using h

/-! ## The two groupers step together -/

/-- One round of either loop, from the same variables. -/
theorem step_eq_groupEventsStep (g : Grouping) (event : Event) :
    (g.step event).sequenceIndex = g.sequenceIndex + 1
      ∧ ((g.step event).testcases, (g.step event).current)
        = groupEventsStep (g.testcases, g.current) (event, g.sequenceIndex) := by
  cases event with
  | «end» resultClass =>
      cases hc : g.current <;> simp [Grouping.step, groupEventsStep, hc]
  | _ => simp [Grouping.step, groupEventsStep, Grouping.update, Testcase.new]

theorem foldl_step_eq (events : List Event) (g : Grouping) :
    ((events.foldl Grouping.step g).testcases, (events.foldl Grouping.step g).current)
      = (events.zipIdx g.sequenceIndex).foldl groupEventsStep (g.testcases, g.current) := by
  induction events generalizing g with
  | nil => simp
  | cons event events ih =>
      obtain ⟨hindex, hvars⟩ := step_eq_groupEventsStep g event
      rw [List.foldl_cons, ih, hindex, hvars, List.zipIdx_cons, List.foldl_cons]

theorem finish_foldl_step (events : List Event) :
    (events.foldl Grouping.step .start).finish = groupEvents events := by
  have h := foldl_step_eq events .start
  simp only [Grouping.start] at h
  simp only [Grouping.finish, groupEvents, Grouping.start, ← h]

/-- The reader's grouper and the slice grouper agree on every stream the
reader can read, and each testcase they return holds the events of its
own window and no others. -/
theorem groupIntoTestcases_eq_groupEvents {bytes left : List UInt8} {events : List Event}
    (h : readEvents bytes = .ok (events, left)) :
    groupIntoTestcases bytes = .ok (groupEvents events)
      ∧ groupEvents events = (windows events.zipIdx).map Window.testcase := by
  refine ⟨?_, groupEvents_eq_windows events⟩
  rw [groupIntoTestcases_of_readEvents h, finish_foldl_step]

/-- A stray `Crumb`, then a window that only the next `Begin` stops, then a
closed one: `[3,9,…]`, `Begin 7`, `Crumb 5`, `Begin 8`, `End 2`. -/
theorem groupIntoTestcases_two_windows :
    groupIntoTestcases [3, 9, 0, 0, 0, 1, 7, 0, 0, 0, 0, 0, 0, 0, 3, 5, 0, 0, 0,
        1, 8, 0, 0, 0, 0, 0, 0, 0, 2, 2]
      = .ok [{ Testcase.new 7 with crumbs := [5] },
             { Testcase.new 8 with endEvent := some ⟨2⟩ }] := by
  have h : readEvents [3, 9, 0, 0, 0, 1, 7, 0, 0, 0, 0, 0, 0, 0, 3, 5, 0, 0, 0,
        1, 8, 0, 0, 0, 0, 0, 0, 0, 2, 2]
      = .ok ([.crumb 9, .begin 7, .crumb 5, .begin 8, .end 2], []) := by
    rw [readEvents_cons (e := .crumb 9) rfl, readEvents_cons (e := .begin 7) rfl,
      readEvents_cons (e := .crumb 5) rfl, readEvents_cons (e := .begin 8) rfl,
      readEvents_cons (e := .end 2) rfl, readEvents_end (r := []) rfl]
    rfl
  rw [(groupIntoTestcases_eq_groupEvents h).1]
  rfl

end GovFuzz.Corpus
