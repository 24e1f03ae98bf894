import GovFuzz.Corpus.Classify

/-!
# Corpus — escaped faults in triage

`finding_tier` of `crates/corpus/src/classify.rs`.  Only the entry that
`classify` adds for the top level can have the tier of a real fault.  It is
left out where a handler has seen an exception of the same name, whatever
came between the two.
-/

namespace GovFuzz.Corpus

open GovFuzz.EventLog

def isAssertionException (name : String) : Bool :=
  eqIgnoreAsciiCase (lastSegment name) "ASSERTION_ERROR" ||
    eqIgnoreAsciiCase (lastSegment name) "ASSERT_FAILURE"

inductive FindingTier where
  | realFault
  | swallowedCheck
  | intendedRejection
  deriving DecidableEq

def findingTier (classification : Classification) (exceptionName : String) : FindingTier :=
  match classification with
  | .unhandled =>
      if isPredefinedException exceptionName || isAssertionException exceptionName then .realFault
      else .intendedRejection
  | .swallowedPredefined => .swallowedCheck
  | .swallowedUser | .explicitRaise => .intendedRejection

/-! ## Entries -/

/-- A caught exception is never unhandled. -/
theorem classifyHandler_ne_unhandled (testcase : Testcase) (handler : HandlerEvent) :
    classifyHandler testcase handler ≠ .unhandled := by
  unfold classifyHandler
  split_ifs <;> simp

/-- A handler has seen an exception of this name. -/
def handledByName (testcase : Testcase) (top : TopLevelEvent) : Bool :=
  testcase.handlers.any fun handler =>
    eqIgnoreAsciiCase handler.exceptionName top.exceptionName

theorem classify_of_topLevel {testcase : Testcase} {top : TopLevelEvent}
    (h : testcase.topLevel = some top) :
    classify testcase
      = testcase.handlers.zipIdx.map (fun (handler, handlerIndex) =>
            (handlerIndex, classifyHandler testcase handler))
        ++ if handledByName testcase top then [] else [(unhandledHandlerIndex, .unhandled)] := by
  rw [classify, h]
  rfl

/-- The unhandled entries are those of the top level. -/
theorem mem_classify_unhandled {testcase : Testcase} {top : TopLevelEvent} {handlerIndex : Nat}
    (h : testcase.topLevel = some top) :
    (handlerIndex, Classification.unhandled) ∈ classify testcase
      ↔ handlerIndex = unhandledHandlerIndex ∧ handledByName testcase top = false := by
  rw [classify_of_topLevel h, List.mem_append]
  constructor
  · rintro (hmem | hmem)
    · obtain ⟨⟨handler, index⟩, -, heq⟩ := List.mem_map.mp hmem
      exact absurd (Prod.ext_iff.mp heq).2 (classifyHandler_ne_unhandled testcase handler)
    · by_cases hseen : handledByName testcase top
      · rw [if_pos hseen] at hmem
        cases hmem
      · rw [if_neg hseen, List.mem_singleton] at hmem
        exact ⟨(Prod.ext_iff.mp hmem).1, Bool.eq_false_iff.mpr hseen⟩
  · rintro ⟨rfl, hseen⟩
    right
    rw [if_neg (by simp [hseen])]
    exact List.mem_singleton_self _

/-! ## Escapes -/

/-- The escaped exception has an entry of its own, and that of a language
check or an assertion is a real fault. -/
structure EscapeKept (testcase : Testcase) (top : TopLevelEvent) : Prop where
  entry : ∃ entry ∈ classify testcase, entry.2 = .unhandled ∧
    resolveHandler testcase entry.1 = some (syntheticTopLevelHandler testcase top)
  realFault : isPredefinedException top.exceptionName ∨ isAssertionException top.exceptionName →
    ∃ entry ∈ classify testcase, ∃ handler, resolveHandler testcase entry.1 = some handler ∧
      handler.exceptionName = top.exceptionName ∧
      findingTier entry.2 handler.exceptionName = .realFault

theorem resolveHandler_unhandled {testcase : Testcase} {top : TopLevelEvent}
    (h : testcase.topLevel = some top) :
    resolveHandler testcase unhandledHandlerIndex
      = some (syntheticTopLevelHandler testcase top) := by
  rw [resolveHandler, if_pos rfl, h, Option.map_some]

theorem escapeKept_iff {testcase : Testcase} {top : TopLevelEvent}
    (h : testcase.topLevel = some top) :
    EscapeKept testcase top ↔ handledByName testcase top = false := by
  constructor
  · rintro ⟨⟨⟨handlerIndex, classification⟩, hmem, rfl, -⟩, -⟩
    exact ((mem_classify_unhandled h).mp hmem).2
  · intro hseen
    have hmem := (mem_classify_unhandled h).mpr ⟨rfl, hseen⟩
    refine ⟨⟨_, hmem, rfl, resolveHandler_unhandled h⟩, fun hfault => ?_⟩
    refine ⟨_, hmem, _, resolveHandler_unhandled h, rfl, if_pos ?_⟩
    exact Bool.or_eq_true_iff.mpr hfault

/-- An escaped exception is kept exactly if no handler has seen one of its
name, upper and lower case aside. -/
theorem classify_keeps_escape_iff (testcase : Testcase) :
    (∀ top, testcase.topLevel = some top → EscapeKept testcase top) ↔
      ∀ top, testcase.topLevel = some top → ∀ handler ∈ testcase.handlers,
        eqIgnoreAsciiCase handler.exceptionName top.exceptionName = false := by
  refine forall_congr' fun top => forall_congr' fun h => ?_
  rw [escapeKept_iff h, handledByName, List.any_eq_false]
  exact forall_congr' fun handler => forall_congr' fun _ => by rw [Bool.not_eq_true]

/-- A range check that was caught, and then one that was not. -/
def caughtThenEscaped : Testcase :=
  { Testcase.new 1 with
    targetId := 0x42
    handlers := [{
      sequenceIndex := 1, exceptionName := "CONSTRAINT_ERROR", exceptionMessage := ""
      handlerFile := "pkg.adb", handlerLine := 9, lastBreadcrumb := 1, targetId := 0x42
      testcaseId := 1 }]
    topLevel := some { exceptionName := "CONSTRAINT_ERROR", exceptionMessage := "escaped" } }

theorem not_escapeKept_caughtThenEscaped :
    ¬ ∀ testcase : Testcase, ∀ top, testcase.topLevel = some top → EscapeKept testcase top := by
  intro hall
  have hkept := hall caughtThenEscaped _ rfl
  rw [escapeKept_iff rfl] at hkept
  have hseen : handledByName caughtThenEscaped
      { exceptionName := "CONSTRAINT_ERROR", exceptionMessage := "escaped" } = true := by
    simp [handledByName, caughtThenEscaped, eqIgnoreAsciiCase]
  rw [hseen] at hkept
  cases hkept

end GovFuzz.Corpus
