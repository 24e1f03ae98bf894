import GovFuzz.Corpus.Classify
import GovFuzz.FuzzEngine.Coverage
import GovFuzz.Lib.Stateful

/-!
# Cli — the coverage-minimal corpus

`select_coverage_minimal` of `crates/cli/src/corpus.rs` replays the inputs
one after the other and keeps those that show something new.  What it keeps
covers, key for key, what all the inputs cover
(`selectCoverageMinimal_covers`).
-/

namespace GovFuzz.Cli

open GovFuzz.Lib GovFuzz.Lib.Op GovFuzz.EventLog GovFuzz.Corpus GovFuzz.FuzzEngine

/-- `CoverageSignature::from_bytes`. -/
def coverageSignature (signature : Signature) : CoverageSignature :=
  ⟨signature.bytes.toArray, by simp [signature.length_eq]⟩

section

variable {σ : Type} (sha256 : List UInt8 → Signature)
  (replay : List UInt8 → Op σ String (List Testcase))

def testcaseSignatures (testcase : Testcase) : List CoverageSignature :=
  testcase.handlers.map fun handler => coverageSignature (computeSignature sha256 testcase handler)

def coverageInput (testcase : Testcase) : CoverageInput :=
  ⟨testcase, testcaseSignatures sha256 testcase⟩

/-- The inner loop: whether something was added, and the proxy behind it. -/
def recordTestcases : List Testcase → Bool × CoverageProxy → Bool × CoverageProxy
  | [], out => out
  | testcase :: rest, (added, proxy) =>
      let recorded := proxy.record (coverageInput sha256 testcase)
      recordTestcases rest (if !recorded.1.isEmpty then true else added, recorded.2)

def selectLoop :
    List (String × List UInt8) → CoverageProxy → List String → Op σ String (List String)
  | [], _, kept => pure kept
  | (name, input) :: rest, proxy, kept => do
      let testcases ← replay input
      let recorded := recordTestcases sha256 testcases (false, proxy)
      selectLoop rest recorded.2 (if recorded.1 then kept ++ [name] else kept)

def selectCoverageMinimal (inputs : List (String × List UInt8)) : Op σ String (List String) :=
  selectLoop sha256 replay inputs .default []

/-- What the replays of the inputs gave. -/
abbrev Replayed := String × List Testcase

/-- The replays alone. -/
def replayAll : List (String × List UInt8) → Op σ String (List Replayed)
  | [] => pure []
  | (name, input) :: rest => do
      let testcases ← replay input
      let others ← replayAll rest
      pure ((name, testcases) :: others)

end

/-! ## One input -/

section

variable (sha256 : List UInt8 → Signature)

theorem record_of_knows {proxy : CoverageProxy} {input : CoverageInput} (h : proxy.Knows input) :
    (proxy.record input).2 = proxy := by
  refine CoverageProxy.ext_seen fun channel => ?_
  rw [CoverageProxy.record_seen]
  exact Finset.union_eq_left.mpr fun key hkey => h channel key (List.mem_toFinset.mp hkey)

theorem recordTestcases_snd (testcases : List Testcase) (added : Bool) (proxy : CoverageProxy) :
    (recordTestcases sha256 testcases (added, proxy)).2
      = (proxy.recordAll (testcases.map (coverageInput sha256))).2 := by
  induction testcases generalizing added proxy with
  | nil => rfl
  | cons testcase rest ih =>
      rw [recordTestcases, List.map_cons, CoverageProxy.recordAll_cons]
      exact ih _ _

theorem recordTestcases_true (testcases : List Testcase) (proxy : CoverageProxy) :
    (recordTestcases sha256 testcases (true, proxy)).1 = true := by
  induction testcases generalizing proxy with
  | nil => rfl
  | cons testcase rest ih =>
      rw [recordTestcases, ite_self]
      exact ih _

/-- Something is added when one of the testcases is not known at the start. -/
theorem recordTestcases_fst (testcases : List Testcase) (proxy : CoverageProxy) :
    (recordTestcases sha256 testcases (false, proxy)).1 = true
      ↔ ∃ testcase ∈ testcases, ¬ proxy.Knows (coverageInput sha256 testcase) := by
  induction testcases with
  | nil => simp [recordTestcases]
  | cons testcase rest ih =>
      rw [recordTestcases]
      by_cases hknown : proxy.Knows (coverageInput sha256 testcase)
      · have hempty := CoverageProxy.record_isEmpty.mpr hknown
        simp only [hempty, Bool.not_true, Bool.false_eq_true, if_false]
        rw [record_of_knows hknown, ih]
        simp [hknown]
      · have hfull := mt CoverageProxy.record_isEmpty.mp hknown
        simp only [hfull, Bool.not_false, if_true]
        exact ⟨fun _ => ⟨testcase, List.mem_cons_self, hknown⟩,
          fun _ => recordTestcases_true sha256 rest _⟩

/-! ## The greedy choice -/

/-- What some replays show, on top of what the proxy has seen. -/
def coverFrom (proxy : CoverageProxy) (replays : List Replayed) : CoverageProxy :=
  (proxy.recordAll (replays.flatMap fun replayed => replayed.2.map (coverageInput sha256))).2

theorem recordAll_append (proxy : CoverageProxy) (inputs more : List CoverageInput) :
    (proxy.recordAll (inputs ++ more)).2 = ((proxy.recordAll inputs).2.recordAll more).2 := by
  induction inputs generalizing proxy with
  | nil => rfl
  | cons input inputs ih =>
      rw [List.cons_append, CoverageProxy.recordAll_cons, CoverageProxy.recordAll_cons]
      exact ih _

theorem coverFrom_cons (proxy : CoverageProxy) (replayed : Replayed) (replays : List Replayed) :
    coverFrom sha256 proxy (replayed :: replays)
      = coverFrom sha256 (recordTestcases sha256 replayed.2 (false, proxy)).2 replays := by
  rw [coverFrom, List.flatMap_cons, recordAll_append, recordTestcases_snd]
  rfl

/-- The replays that add something to the ones in front of them. -/
def chosen : CoverageProxy → List Replayed → List Replayed
  | _, [] => []
  | proxy, replayed :: rest =>
      let recorded := recordTestcases sha256 replayed.2 (false, proxy)
      if recorded.1 then replayed :: chosen recorded.2 rest else chosen recorded.2 rest

theorem recordTestcases_unchanged {testcases : List Testcase} {proxy : CoverageProxy}
    (h : (recordTestcases sha256 testcases (false, proxy)).1 = false) :
    (recordTestcases sha256 testcases (false, proxy)).2 = proxy := by
  have hknown : ∀ testcase ∈ testcases, proxy.Knows (coverageInput sha256 testcase) := by
    intro testcase hmem
    by_contra hnot
    rw [(recordTestcases_fst sha256 testcases proxy).mpr ⟨testcase, hmem, hnot⟩] at h
    cases h
  rw [recordTestcases_snd]
  clear h
  induction testcases with
  | nil => rfl
  | cons testcase rest ih =>
      rw [List.map_cons, CoverageProxy.recordAll_cons,
        record_of_knows (hknown testcase List.mem_cons_self)]
      exact ih fun other hother => hknown other (List.mem_cons_of_mem _ hother)

theorem chosen_sublist (proxy : CoverageProxy) (replays : List Replayed) :
    (chosen sha256 proxy replays).Sublist replays := by
  induction replays generalizing proxy with
  | nil => exact List.Sublist.refl _
  | cons replayed rest ih =>
      rw [chosen]
      split
      · exact (ih _).cons_cons replayed
      · exact (ih _).cons replayed

theorem coverFrom_chosen (proxy : CoverageProxy) (replays : List Replayed) :
    coverFrom sha256 proxy (chosen sha256 proxy replays) = coverFrom sha256 proxy replays := by
  induction replays generalizing proxy with
  | nil => rfl
  | cons replayed rest ih =>
      rw [chosen, coverFrom_cons]
      split
      case isTrue => rw [coverFrom_cons, ih]
      case isFalse hskip =>
        have hsame := recordTestcases_unchanged sha256 (Bool.eq_false_iff.mpr hskip)
        rw [hsame, ih]

theorem chosen_adds (proxy : CoverageProxy) {replays front back : List Replayed}
    {replayed : Replayed} (h : chosen sha256 proxy replays = front ++ replayed :: back) :
    ∃ testcase ∈ replayed.2,
      ¬ (coverFrom sha256 proxy front).Knows (coverageInput sha256 testcase) := by
  induction replays generalizing proxy front with
  | nil => cases front <;> cases h
  | cons first rest ih =>
      rw [chosen] at h
      split at h
      case isTrue hadded =>
        cases front with
        | nil =>
            obtain ⟨rfl, -⟩ := List.cons.inj h
            exact (recordTestcases_fst sha256 _ proxy).mp hadded
        | cons kept front =>
            obtain ⟨rfl, hrest⟩ := List.cons.inj h
            rw [coverFrom_cons]
            exact ih _ hrest
      case isFalse hskip =>
        rw [recordTestcases_unchanged sha256 (Bool.eq_false_iff.mpr hskip)] at h
        exact ih proxy h

end

/-! ## The loop -/

section

variable {σ : Type} (sha256 : List UInt8 → Signature)
  (replay : List UInt8 → Op σ String (List Testcase))

theorem selectLoop_eq (inputs : List (String × List UInt8)) (proxy : CoverageProxy)
    (kept : List String) :
    selectLoop sha256 replay inputs proxy kept
      = replayAll replay inputs >>= fun replays =>
          pure (kept ++ (chosen sha256 proxy replays).map Prod.fst) := by
  induction inputs generalizing proxy kept with
  | nil =>
      rw [selectLoop, replayAll, pure_bind]
      simp [chosen]
  | cons input rest ih =>
      rw [selectLoop, replayAll]
      simp only [bind_assoc, pure_bind]
      congr 1
      funext testcases
      rw [ih]
      congr 1
      funext replays
      rw [chosen]
      split
      · rw [List.map_cons, List.append_assoc, List.singleton_append]
      · rfl

/-- What is kept covers all that the inputs cover, and each input kept shows
something that those kept before it do not. -/
theorem selectCoverageMinimal_covers (inputs : List (String × List UInt8)) (s t : σ)
    (kept : List String)
    (h : (selectCoverageMinimal sha256 replay inputs).exec s = (.ok kept, t)) :
    ∃ replays keptReplays, (replayAll replay inputs).exec s = (.ok replays, t)
      ∧ keptReplays.Sublist replays ∧ kept = keptReplays.map Prod.fst
      ∧ coverFrom sha256 .default keptReplays = coverFrom sha256 .default replays
      ∧ ∀ front replayed back, keptReplays = front ++ replayed :: back →
          ∃ testcase ∈ replayed.2,
            ¬ (coverFrom sha256 .default front).Knows (coverageInput sha256 testcase) := by
  rw [selectCoverageMinimal, selectLoop_eq] at h
  obtain ⟨replays, u, hreplays, hkept⟩ := exec_bind_eq_ok h
  cases hkept
  exact ⟨replays, chosen sha256 .default replays, hreplays, chosen_sublist sha256 _ replays,
    List.nil_append _, coverFrom_chosen sha256 _ replays,
    fun front replayed back hsplit => chosen_adds sha256 _ hsplit⟩

end

/-- A harness that ends in another result class for each length of the input. -/
def lengthHarness (input : List UInt8) : Op Unit String (List Testcase) :=
  pure [{ Testcase.new 1 with endEvent := some ⟨UInt8.ofNat input.length⟩ }]

/-- Stands for a hash that no run asks for: there are no handlers. -/
def noHash (_ : List UInt8) : Signature := ⟨List.replicate 32 0, rfl⟩

theorem selectCoverageMinimal_covers_three :
    ∃ replays keptReplays,
      (replayAll lengthHarness [("a", [1]), ("b", [2]), ("c", [1, 2])]).exec () = (.ok replays, ())
      ∧ keptReplays.Sublist replays ∧ ["a", "c"] = keptReplays.map Prod.fst
      ∧ coverFrom noHash .default keptReplays = coverFrom noHash .default replays
      ∧ ∀ front replayed back, keptReplays = front ++ replayed :: back →
          ∃ testcase ∈ replayed.2,
            ¬ (coverFrom noHash .default front).Knows (coverageInput noHash testcase) :=
  selectCoverageMinimal_covers noHash lengthHarness [("a", [1]), ("b", [2]), ("c", [1, 2])] () ()
    ["a", "c"] (by decide +kernel)

end GovFuzz.Cli
