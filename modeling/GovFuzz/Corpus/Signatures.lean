import GovFuzz.Corpus.Classify

/-!
# Corpus — what a signature tells apart

The corpus keeps one entry a signature, so two exceptions whose signatures
are equal are one finding.  `compute_signature` writes the site of an
exception into one text, with a NUL between the fields.
-/

namespace GovFuzz.Corpus

open GovFuzz.EventLog

/-- What identifies an exception. -/
structure Site where
  targetId : UInt32
  exceptionName : String
  handlerFile : String
  handlerLine : UInt32
  lastBreadcrumb : UInt32
  /-- Where the same exception was last raised before it was seen. -/
  raised : Option UInt32
  deriving DecidableEq

def lastRaise (testcase : Testcase) (handler : HandlerEvent) : Option RaiseEvent :=
  (testcase.raises.filter (isPrecedingMatchingRaise handler)).getLast?

def siteOf (testcase : Testcase) (handler : HandlerEvent) : Site where
  targetId := handler.targetId
  exceptionName := handler.exceptionName
  handlerFile := handler.handlerFile
  handlerLine := handler.handlerLine
  lastBreadcrumb := handler.lastBreadcrumb
  raised := (lastRaise testcase handler).map (·.breadcrumb)

/-- The exceptions that are recorded for an event list. -/
def recorded (events : List Event) : List (Testcase × HandlerEvent) :=
  (groupEvents events).flatMap fun testcase =>
    (classify testcase).filterMap fun entry => (resolveHandler testcase entry.1).map (testcase, ·)

theorem foundSignatures_eq_recorded (sha256 : List UInt8 → Signature) (events : List Event) :
    (foundSignatures sha256 events).map (·.1) =
      (recorded events).map fun found => computeSignature sha256 found.1 found.2 := by
  simp only [foundSignatures, recorded, List.map_flatMap, List.map_filterMap, Option.map_map]
  rfl

/-! ## The latest raise -/

theorem latestRaise_of_sorted (raises : List RaiseEvent)
    (h : raises.Pairwise fun a b => a.sequenceIndex < b.sequenceIndex) :
    latestRaise raises = raises.getLast? := by
  induction raises with
  | nil => rfl
  | cons raise raises ih =>
      have hrest := ih h.of_cons
      rw [latestRaise, hrest, List.getLast?_cons]
      cases hlast : raises.getLast? with
      | none => rfl
      | some later =>
          have hlater : raise.sequenceIndex < later.sequenceIndex :=
            List.rel_of_pairwise_cons h (List.mem_of_getLast? hlast)
          show (if later.sequenceIndex < raise.sequenceIndex then some raise else some later) =
            some later
          rw [if_neg (by omega)]

theorem windows_sublist (events : List (Event × Nat)) :
    ∀ window ∈ windows events, window.events.Sublist events := by
  induction events using windows.induct with
  | case1 => simp [windows]
  | case2 testcaseId index rest ih =>
      intro window hmem
      rw [windows, List.mem_cons] at hmem
      rcases hmem with rfl | hmem
      · exact (List.takeWhile_sublist _).cons _
      · exact ((ih window hmem).trans (List.dropWhile_sublist _)).cons _
  | case3 event rest hne ih =>
      intro window hmem
      rw [windows] at hmem
      · exact (ih window hmem).cons _
      · exact hne

theorem zipIdx_sorted (events : List Event) :
    events.zipIdx.Pairwise fun a b => a.2 < b.2 := by
  have hindices : (events.zipIdx.map Prod.snd).Pairwise (· < ·) := by
    rw [List.zipIdx_map_snd]
    exact List.pairwise_lt_range'
  exact List.pairwise_map.mp hindices

theorem sequenceIndex_of_raiseOf {event : Event × Nat} {raise : RaiseEvent}
    (h : raiseOf event = some raise) : raise.sequenceIndex = event.2 := by
  unfold raiseOf at h
  split at h
  case h_1 =>
    cases h
    rfl
  case h_2 => cases h

/-- The raises of a testcase stand in the order of their sequence indices. -/
theorem raises_sorted {events : List Event} {testcase : Testcase}
    (hmem : testcase ∈ groupEvents events) :
    testcase.raises.Pairwise fun a b => a.sequenceIndex < b.sequenceIndex := by
  rw [groupEvents_eq_windows] at hmem
  obtain ⟨window, hwindow, rfl⟩ := List.mem_map.mp hmem
  have hsorted := (zipIdx_sorted events).sublist (windows_sublist _ window hwindow)
  have hraises : window.testcase.raises = window.events.filterMap raiseOf := by
    simp [Window.testcase, absorb, Testcase.new]
  rw [hraises, List.pairwise_filterMap]
  refine hsorted.imp ?_
  intro a b hlt raise hraise raise' hraise'
  rw [sequenceIndex_of_raiseOf hraise, sequenceIndex_of_raiseOf hraise']
  exact hlt

/-! ## The fields of the text -/

def Site.fields (site : Site) : List (List Char) :=
  [Nat.toDigits 10 site.targetId.toNat,
    site.exceptionName.toList,
    site.handlerFile.toList ++ ':' :: Nat.toDigits 10 site.handlerLine.toNat,
    Nat.toDigits 10 site.lastBreadcrumb.toNat,
    (site.raised.map fun breadcrumb => Nat.toDigits 10 breadcrumb.toNat).getD [],
    ['0'], [], [], []]

theorem toList_signatureText {testcase : Testcase} (handler : HandlerEvent)
    (hsorted : testcase.raises.Pairwise fun a b => a.sequenceIndex < b.sequenceIndex) :
    (signatureText testcase handler).toList =
      ['\x00'].intercalate (siteOf testcase handler).fields := by
  have hlatest : latestRaise (testcase.raises.filter (isPrecedingMatchingRaise handler)) =
      lastRaise testcase handler := latestRaise_of_sorted _ (hsorted.filter _)
  rw [signatureText, precedingMatchingRaiseBreadcrumb, hlatest, String.toList_intercalate]
  cases hraise : lastRaise testcase handler with
  | none => simp [Site.fields, siteOf, hraise]
  | some raise => simp [Site.fields, siteOf, hraise]

/-- A decimal has only digits in it. -/
theorem notMem_toDigits {c : Char} (hc : c.isDigit = false) (n : Nat) :
    c ∉ Nat.toDigits 10 n := by
  intro hmem
  have hdigit := Nat.isDigit_of_mem_toDigits (by omega) (by omega) hmem
  rw [hc] at hdigit
  cases hdigit

theorem toDigits_inj {a b : Nat} (h : Nat.toDigits 10 a = Nat.toDigits 10 b) : a = b := by
  have hread := congrArg (Nat.ofDigitChars 10 · 0) h
  simpa only [Nat.ofDigitChars_ten_toDigits] using hread

/-- A site whose names can be told from the separator. -/
def Site.NulFree (site : Site) : Prop :=
  '\x00' ∉ site.exceptionName.toList ∧ '\x00' ∉ site.handlerFile.toList

theorem Site.notMem_fields {site : Site} (h : site.NulFree) :
    ∀ field ∈ site.fields, '\x00' ∉ field := by
  have hdigits : ∀ n, '\x00' ∉ Nat.toDigits 10 n := notMem_toDigits rfl
  intro field hfield
  simp only [Site.fields, List.mem_cons, List.not_mem_nil, or_false] at hfield
  rcases hfield with rfl | rfl | rfl | rfl | rfl | rfl | rfl | rfl | rfl
  · exact hdigits _
  · exact h.1
  · simp [h.2, hdigits]
  · exact hdigits _
  · cases site.raised with
    | none => simp
    | some breadcrumb => simpa using hdigits _
  all_goals simp

/-- What stands in front of the last separator, and what behind it. -/
theorem append_cons_inj_last {c : Char} {front front' back back' : List Char} (hback : c ∉ back)
    (hback' : c ∉ back') (h : front ++ c :: back = front' ++ c :: back') :
    front = front' ∧ back = back' := by
  have htake : ∀ front back : List Char, c ∉ back →
      ((front ++ c :: back).reverse.takeWhile (· ≠ c)).reverse = back := by
    intro front back hback
    have hall : ∀ d ∈ back.reverse, decide (d ≠ c) = true := by
      intro d hd
      have hne : d ≠ c := by
        rintro rfl
        exact hback (List.mem_reverse.mp hd)
      simpa using hne
    rw [List.reverse_append, List.reverse_cons, List.append_assoc,
      List.takeWhile_append_of_pos hall]
    simp
  have heq : back = back' := by
    rw [← htake front back hback, h, htake front' back' hback']
  subst heq
  exact ⟨List.append_cancel_right h, rfl⟩

/-- The fields of a site determine it. -/
theorem Site.fields_injective {site other : Site} (h : site.fields = other.fields) :
    site = other := by
  obtain ⟨target, name, file, line, crumb, raised⟩ := site
  obtain ⟨target', name', file', line', crumb', raised'⟩ := other
  simp only [Site.fields, List.cons.injEq, and_true] at h
  obtain ⟨htarget, hname, hlocation, hcrumb, hraised⟩ := h
  obtain ⟨hfile, hline⟩ :=
    append_cons_inj_last (notMem_toDigits rfl _) (notMem_toDigits rfl _) hlocation
  obtain rfl : target = target' := UInt32.toNat_inj.mp (toDigits_inj htarget)
  obtain rfl : name = name' := String.toList_inj.mp hname
  obtain rfl : file = file' := String.toList_inj.mp hfile
  obtain rfl : line = line' := UInt32.toNat_inj.mp (toDigits_inj hline)
  obtain rfl : crumb = crumb' := UInt32.toNat_inj.mp (toDigits_inj hcrumb)
  -- An absent raise is an empty field, and no decimal is empty.
  have hraised' : raised = raised' := by
    cases raised with
    | none =>
        cases raised' with
        | none => rfl
        | some breadcrumb' => exact absurd hraised.symm Nat.toDigits_ne_nil
    | some breadcrumb =>
        cases raised' with
        | none => exact absurd hraised Nat.toDigits_ne_nil
        | some breadcrumb' => rw [UInt32.toNat_inj.mp (toDigits_inj hraised)]
  rw [hraised']

/-- The texts of two sites are equal only if the sites are. -/
theorem intercalate_fields_inj {site other : Site} (hsite : site.NulFree) (hother : other.NulFree)
    (h : ['\x00'].intercalate site.fields = ['\x00'].intercalate other.fields) :
    site = other := by
  apply Site.fields_injective
  rw [← List.splitOn_intercalate '\x00' (Site.notMem_fields hsite) (List.cons_ne_nil _ _), h,
    List.splitOn_intercalate '\x00' (Site.notMem_fields hother) (List.cons_ne_nil _ _)]

theorem raises_sorted_of_recorded {events : List Event} {found : Testcase × HandlerEvent}
    (hmem : found ∈ recorded events) :
    found.1.raises.Pairwise fun a b => a.sequenceIndex < b.sequenceIndex := by
  obtain ⟨testcase, htestcase, hentry⟩ := List.mem_flatMap.mp hmem
  obtain ⟨entry, -, hfound⟩ := List.mem_filterMap.mp hentry
  obtain ⟨handler, -, rfl⟩ := Option.map_eq_some_iff.mp hfound
  exact raises_sorted htestcase

/-- Two recorded exceptions, of one event list or of two, have one signature
exactly when they have one site, as long as their texts do not collide. -/
theorem computeSignature_eq_iff_site (sha256 : List UInt8 → Signature)
    (events events' : List Event)
    (found : Testcase × HandlerEvent) (hfound : found ∈ recorded events)
    (found' : Testcase × HandlerEvent) (hfound' : found' ∈ recorded events')
    (hnul : (siteOf found.1 found.2).NulFree) (hnul' : (siteOf found'.1 found'.2).NulFree)
    (hdigest : ∀ text ∈ [signatureText found.1 found.2, signatureText found'.1 found'.2],
      ∀ text' ∈ [signatureText found.1 found.2, signatureText found'.1 found'.2],
        sha256 text.toUTF8.toList = sha256 text'.toUTF8.toList → text = text') :
    computeSignature sha256 found.1 found.2 = computeSignature sha256 found'.1 found'.2 ↔
      siteOf found.1 found.2 = siteOf found'.1 found'.2 := by
  have htext := toList_signatureText found.2 (raises_sorted_of_recorded hfound)
  have htext' := toList_signatureText found'.2 (raises_sorted_of_recorded hfound')
  constructor
  · intro h
    have hsame := hdigest _ (by simp) _ (by simp) h
    apply intercalate_fields_inj hnul hnul'
    rw [← htext, ← htext', hsame]
  · intro h
    have hsame : signatureText found.1 found.2 = signatureText found'.1 found'.2 := by
      rw [← String.toList_inj, htext, htext', h]
    rw [computeSignature, computeSignature, hsame]

/-- The exception that a raise explains. -/
def raisedEvents : List Event :=
  [.begin 1, .raise "E" "f" 3 7, .handler "E" "" "f" 9 1 1 1, .end 0]

def caughtEvents : List Event := [.begin 1, .handler "E" "" "f" 9 1 1 1, .end 0]

/-- SHA-256 of the texts of the two signatures: one has the breadcrumb of the
raise, the other one has none. -/
def textDigest (bytes : List UInt8) : Signature :=
  if bytes = [49, 0, 69, 0, 102, 58, 57, 0, 49, 0, 55, 0, 48, 0, 0, 0] then
    ⟨[19, 62, 93, 247, 60, 162, 14, 232, 64, 197, 221, 30, 233, 98, 125, 146, 230, 170, 173, 81,
      49, 193, 55, 71, 94, 48, 60, 182, 163, 107, 73, 133], rfl⟩
  else
    ⟨[66, 140, 70, 210, 103, 22, 67, 163, 83, 11, 13, 50, 31, 129, 129, 254, 135, 240, 173, 57,
      174, 64, 169, 195, 151, 65, 95, 152, 93, 16, 136, 46], rfl⟩

def sampleHandler (sequenceIndex : Nat) : HandlerEvent :=
  { sequenceIndex, exceptionName := "E", exceptionMessage := "", handlerFile := "f"
    handlerLine := 9, lastBreadcrumb := 1, targetId := 1, testcaseId := 1 }

def raisedFound : Testcase × HandlerEvent :=
  ({ Testcase.new 1 with
      handlers := [sampleHandler 2]
      raises := [{ sequenceIndex := 1, exceptionName := "E", file := "f", line := 3,
                   breadcrumb := 7 }]
      endEvent := some ⟨0⟩ }, sampleHandler 2)

def caughtFound : Testcase × HandlerEvent :=
  ({ Testcase.new 1 with handlers := [sampleHandler 1], endEvent := some ⟨0⟩ }, sampleHandler 1)

theorem computeSignature_eq_iff_site_raised :
    computeSignature textDigest raisedFound.1 raisedFound.2 ≠
      computeSignature textDigest caughtFound.1 caughtFound.2 := by
  have hsites : siteOf raisedFound.1 raisedFound.2 ≠ siteOf caughtFound.1 caughtFound.2 := by
    decide +kernel
  intro h
  apply hsites
  refine (computeSignature_eq_iff_site textDigest raisedEvents caughtEvents
    raisedFound (by decide +kernel) caughtFound (by decide +kernel)
    (by unfold Site.NulFree; decide +kernel) (by unfold Site.NulFree; decide +kernel) ?_).mp h
  decide +kernel

end GovFuzz.Corpus
