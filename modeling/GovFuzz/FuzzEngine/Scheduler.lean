import GovFuzz.Lib.RoundRobin
import Mathlib.Algebra.GroupWithZero.Nat

/-!
# Fuzz engine — the power scheduler

`crates/fuzz_engine/builtin/src/scheduler.rs`: every seed has an energy
from its feedback, and `select_next` takes the seed of greatest
`energy * 1024 / (selections + 1)`, the one of lowest id among equals.
The quotient is an integer, so the decay that is to pass the turn on stops
passing it at the first plateau of the quotient.
-/

namespace GovFuzz.FuzzEngine

open GovFuzz.Lib

/-- A saturating result of so many bits. -/
def saturating (bits n : Nat) : Nat := min n (2 ^ bits - 1)

structure ScheduleFeedback where
  newExceptionSignatures : UInt32
  newBreadcrumbBits : UInt32
  deriving DecidableEq, Repr

structure PowerScheduleConfig where
  baseEnergy : UInt32
  maxEnergy : UInt32
  exceptionSignatureBonus : UInt32
  breadcrumbBitBonus : UInt32
  deriving DecidableEq, Repr

def PowerScheduleConfig.default : PowerScheduleConfig where
  baseEnergy := 1
  maxEnergy := 64
  exceptionSignatureBonus := 16
  breadcrumbBitBonus := 1

structure SeedEntry where
  id : Nat
  bytes : List UInt8
  feedback : ScheduleFeedback
  selections : Nat
  deriving DecidableEq, Repr

structure ScheduledSeed where
  id : Nat
  bytes : List UInt8
  energy : Nat
  priorityScore : Nat
  deriving DecidableEq, Repr

/-- The energy of a seed is read off its feedback alone. -/
def energyOf (config : PowerScheduleConfig) (feedback : ScheduleFeedback) : Nat :=
  let raw := saturating 32
    (saturating 32
      (config.baseEnergy.toNat
        + saturating 32
            (config.exceptionSignatureBonus.toNat * feedback.newExceptionSignatures.toNat))
      + saturating 32 (config.breadcrumbBitBonus.toNat * feedback.newBreadcrumbBits.toNat))
  min (max raw 1) (max config.maxEnergy.toNat 1)

def SeedEntry.energy (seed : SeedEntry) (config : PowerScheduleConfig) : Nat :=
  energyOf config seed.feedback

/-- The score of a seed of some energy after so many selections. -/
def scoreAt (energy selections : Nat) : Nat :=
  saturating 64 (energy * 1024) / saturating 64 (selections + 1)

def SeedEntry.priorityScore (seed : SeedEntry) (config : PowerScheduleConfig) : Nat :=
  scoreAt (seed.energy config) seed.selections

structure PowerScheduler where
  config : PowerScheduleConfig
  nextId : Nat
  seeds : List SeedEntry
  deriving DecidableEq, Repr

def PowerScheduler.new (config : PowerScheduleConfig) : PowerScheduler :=
  { config, nextId := 0, seeds := [] }

def PowerScheduler.insertWithFeedback (scheduler : PowerScheduler) (bytes : List UInt8)
    (feedback : ScheduleFeedback) : PowerScheduler :=
  { scheduler with
    nextId := saturating 64 (scheduler.nextId + 1)
    seeds := scheduler.seeds ++ [{ id := scheduler.nextId, bytes, feedback, selections := 0 }] }

/-- The loop variables of `best_seed_index`. -/
structure Best where
  index : Option Nat
  score : Nat
  id : Nat

def Best.step (config : PowerScheduleConfig) (best : Best) (entry : SeedEntry × Nat) : Best :=
  let score := entry.1.priorityScore config
  if best.index = none ∨ score > best.score ∨ (score = best.score ∧ entry.1.id < best.id) then
    { index := some entry.2, score, id := entry.1.id }
  else best

def PowerScheduler.bestSeedIndex (scheduler : PowerScheduler) : Option Nat :=
  (scheduler.seeds.zipIdx.foldl (Best.step scheduler.config)
    { index := none, score := 0, id := 2 ^ 64 - 1 }).index

/-- The returned seed and the scheduler left behind.  The index is in
bounds, so the inner `none` is never taken (`bestSeedIndex_spec`). -/
def PowerScheduler.selectNext (scheduler : PowerScheduler) :
    Option ScheduledSeed × PowerScheduler :=
  match scheduler.bestSeedIndex with
  | none => (none, scheduler)
  | some selectedIndex =>
      match scheduler.seeds[selectedIndex]? with
      | none => (none, scheduler)
      | some seed =>
          (some
            { id := seed.id
              bytes := seed.bytes
              energy := seed.energy scheduler.config
              priorityScore := seed.priorityScore scheduler.config },
            { scheduler with
              seeds := scheduler.seeds.set selectedIndex
                { seed with selections := saturating 64 (seed.selections + 1) } })

/-! ## What is inserted, and what runs -/

/-- A scheduler of this configuration with these seeds inserted in order. -/
def PowerScheduler.load (config : PowerScheduleConfig)
    (inserted : List (List UInt8 × ScheduleFeedback)) : PowerScheduler :=
  inserted.foldl (fun scheduler seed => scheduler.insertWithFeedback seed.1 seed.2) (.new config)

/-- So many calls of `select_next` in a row. -/
def PowerScheduler.selects (scheduler : PowerScheduler) : Nat → PowerScheduler
  | 0 => scheduler
  | n + 1 => (scheduler.selects n).selectNext.2

/-- The selection counts of the seeds that have this feedback, in the
order of their insertion. -/
def PowerScheduler.counts (scheduler : PowerScheduler) (feedback : ScheduleFeedback) :
    List Nat :=
  (scheduler.seeds.filter (fun seed => seed.feedback = feedback)).map SeedEntry.selections

/-! ## One selection -/

/-- Ids never decrease along the seeds: the first of equal scores wins. -/
def PowerScheduler.Ordered (scheduler : PowerScheduler) : Prop :=
  (scheduler.seeds.map SeedEntry.id).Pairwise (· ≤ ·)

/-- The best of a non-empty prefix: where it stands and what it beats. -/
def BestOf (config : PowerScheduleConfig) (best : Best) (seen : List SeedEntry) : Prop :=
  ∃ before seed after, seen = before ++ seed :: after
    ∧ best = { index := some before.length, score := seed.priorityScore config, id := seed.id }
    ∧ (∀ x ∈ before, x.priorityScore config < seed.priorityScore config)
    ∧ ∀ x ∈ after, x.priorityScore config ≤ seed.priorityScore config

/-- One more seed, whose id is not below the earlier ones: it becomes the
best only with a greater score. -/
theorem BestOf.step {config : PowerScheduleConfig} {best : Best} {seen : List SeedEntry}
    (h : BestOf config best seen) {entry : SeedEntry} (hid : ∀ x ∈ seen, x.id ≤ entry.id) :
    BestOf config (best.step config (entry, seen.length)) (seen ++ [entry]) := by
  obtain ⟨before, seed, after, rfl, rfl, hbefore, hafter⟩ := h
  have hseed : ¬ entry.id < seed.id := by
    have := hid seed (by simp)
    omega
  by_cases hgt : entry.priorityScore config > seed.priorityScore config
  · refine ⟨before ++ seed :: after, entry, [], rfl, ?_, ?_, by simp⟩
    · simp [Best.step, hgt]
    · intro x hx
      rcases List.mem_append.mp hx with hx | hx
      · exact lt_trans (hbefore x hx) hgt
      · rcases List.mem_cons.mp hx with rfl | hx
        · exact hgt
        · exact lt_of_le_of_lt (hafter x hx) hgt
  · refine ⟨before, seed, after ++ [entry], by simp, ?_, hbefore, ?_⟩
    · simp [Best.step, hgt, hseed]
    · intro x hx
      rcases List.mem_append.mp hx with hx | hx
      · exact hafter x hx
      · rw [List.mem_singleton.mp hx]
        omega

theorem BestOf.foldl {config : PowerScheduleConfig} (rest : List SeedEntry) {best : Best}
    {seen : List SeedEntry} (h : BestOf config best seen)
    (hid : ((seen ++ rest).map SeedEntry.id).Pairwise (· ≤ ·)) :
    BestOf config ((rest.zipIdx seen.length).foldl (Best.step config) best) (seen ++ rest) := by
  induction rest generalizing best seen with
  | nil => simpa using h
  | cons entry rest ih =>
      have hle : ∀ x ∈ seen, x.id ≤ entry.id := by
        intro x hx
        simp only [List.map_append, List.map_cons, List.pairwise_append] at hid
        exact hid.2.2 x.id (List.mem_map_of_mem hx) entry.id (by simp)
      have hnext := ih (h.step hle) (by simpa using hid)
      simpa [List.zipIdx_cons] using hnext

/-- The seed that `select_next` takes: the first of greatest score. -/
theorem PowerScheduler.bestSeedIndex_spec {scheduler : PowerScheduler}
    (hordered : scheduler.Ordered) (hne : scheduler.seeds ≠ []) :
    ∃ before seed after, scheduler.seeds = before ++ seed :: after
      ∧ scheduler.bestSeedIndex = some before.length
      ∧ (∀ x ∈ before, x.priorityScore scheduler.config < seed.priorityScore scheduler.config)
      ∧ ∀ x ∈ after, x.priorityScore scheduler.config ≤ seed.priorityScore scheduler.config := by
  obtain ⟨first, rest, hseeds⟩ := List.exists_cons_of_ne_nil hne
  have hfirst : BestOf scheduler.config
      ⟨some 0, first.priorityScore scheduler.config, first.id⟩ [first] :=
    ⟨[], first, [], rfl, rfl, by simp, by simp⟩
  have hbest := hfirst.foldl rest (by simpa [PowerScheduler.Ordered, hseeds] using hordered)
  obtain ⟨before, seed, after, hsplit, hbest, hbefore, hafter⟩ := hbest
  refine ⟨before, seed, after, by simpa [hseeds] using hsplit, ?_, hbefore, hafter⟩
  have hstart : Best.step scheduler.config { index := none, score := 0, id := 2 ^ 64 - 1 }
      (first, 0) = ⟨some 0, first.priorityScore scheduler.config, first.id⟩ := by
    simp [Best.step]
  rw [PowerScheduler.bestSeedIndex, hseeds, List.zipIdx_cons, List.foldl_cons, hstart]
  simpa using congrArg Best.index hbest

theorem PowerScheduler.selectNext_spec {scheduler : PowerScheduler}
    (hordered : scheduler.Ordered) (hne : scheduler.seeds ≠ []) :
    ∃ before seed after, scheduler.seeds = before ++ seed :: after
      ∧ scheduler.selectNext =
          (some
            { id := seed.id
              bytes := seed.bytes
              energy := seed.energy scheduler.config
              priorityScore := seed.priorityScore scheduler.config },
            { scheduler with
              seeds := before
                ++ { seed with selections := saturating 64 (seed.selections + 1) } :: after })
      ∧ (∀ x ∈ before, x.priorityScore scheduler.config < seed.priorityScore scheduler.config)
      ∧ ∀ x ∈ after, x.priorityScore scheduler.config ≤ seed.priorityScore scheduler.config := by
  obtain ⟨before, seed, after, hseeds, hbest, hbefore, hafter⟩ :=
    PowerScheduler.bestSeedIndex_spec hordered hne
  refine ⟨before, seed, after, hseeds, ?_, hbefore, hafter⟩
  have hget : scheduler.seeds[before.length]? = some seed := by simp [hseeds]
  simp only [PowerScheduler.selectNext, hbest, hget]
  simp [hseeds]

/-! ## Whole runs -/

theorem saturating_of_lt {bits n : Nat} (h : n < 2 ^ bits) : saturating bits n = n :=
  Nat.min_eq_left (by omega)

/-- What insertion and selection keep: the ids in order, none above the
next one, and that one a `u64`. -/
structure PowerScheduler.WellFormed (scheduler : PowerScheduler) : Prop where
  ordered : scheduler.Ordered
  below : ∀ seed ∈ scheduler.seeds, seed.id ≤ scheduler.nextId
  fits : scheduler.nextId < 2 ^ 64

theorem PowerScheduler.WellFormed.insertWithFeedback {scheduler : PowerScheduler}
    (h : scheduler.WellFormed) (bytes : List UInt8) (feedback : ScheduleFeedback) :
    (scheduler.insertWithFeedback bytes feedback).WellFormed := by
  have hnext : scheduler.nextId ≤ saturating 64 (scheduler.nextId + 1) := by
    have := h.fits
    rw [saturating]
    omega
  refine ⟨?_, ?_, ?_⟩
  · show ((scheduler.seeds ++ [_]).map SeedEntry.id).Pairwise (· ≤ ·)
    rw [List.map_append, List.pairwise_append]
    refine ⟨h.ordered, by simp, ?_⟩
    intro id hid id' hid'
    obtain ⟨seed, hseed, rfl⟩ := List.mem_map.mp hid
    simp only [List.map_cons, List.map_nil, List.mem_singleton] at hid'
    rw [hid']
    exact h.below seed hseed
  · intro seed hseed
    rcases List.mem_append.mp hseed with hseed | hseed
    · exact le_trans (h.below seed hseed) hnext
    · rw [List.mem_singleton.mp hseed]
      exact hnext
  · show saturating 64 _ < 2 ^ 64
    rw [saturating]
    omega

theorem PowerScheduler.load_wellFormed (config : PowerScheduleConfig)
    (inserted : List (List UInt8 × ScheduleFeedback)) :
    (PowerScheduler.load config inserted).WellFormed := by
  have hstart : (PowerScheduler.new config).WellFormed :=
    ⟨List.Pairwise.nil, by simp [PowerScheduler.new], by simp [PowerScheduler.new]⟩
  unfold PowerScheduler.load
  generalize PowerScheduler.new config = scheduler at hstart
  induction inserted generalizing scheduler with
  | nil => exact hstart
  | cons seed inserted ih => exact ih _ (hstart.insertWithFeedback seed.1 seed.2)

/-- Selecting changes nothing but counts. -/
theorem PowerScheduler.WellFormed.selectNext {scheduler : PowerScheduler}
    (h : scheduler.WellFormed) : scheduler.selectNext.2.WellFormed := by
  by_cases hne : scheduler.seeds = []
  · have hnone : scheduler.bestSeedIndex = none := by simp [PowerScheduler.bestSeedIndex, hne]
    simpa only [PowerScheduler.selectNext, hnone] using h
  · obtain ⟨before, seed, after, hseeds, hnext, -, -⟩ :=
      PowerScheduler.selectNext_spec h.ordered hne
    have hordered := h.ordered
    have hbelow := h.below
    rw [hnext]
    refine ⟨?_, ?_, h.fits⟩
    · simp only [PowerScheduler.Ordered, hseeds, List.map_append, List.map_cons] at hordered ⊢
      exact hordered
    · simp only [hseeds, List.mem_append, List.mem_cons] at hbelow ⊢
      rintro x (hx | rfl | hx)
      · exact hbelow x (.inl hx)
      · exact hbelow seed (.inr (.inl rfl))
      · exact hbelow x (.inr (.inr hx))

theorem PowerScheduler.WellFormed.selects {scheduler : PowerScheduler}
    (h : scheduler.WellFormed) (n : Nat) : (scheduler.selects n).WellFormed := by
  induction n with
  | zero => exact h
  | succ n ih => exact ih.selectNext

theorem PowerScheduler.selectNext_config (scheduler : PowerScheduler) :
    scheduler.selectNext.2.config = scheduler.config := by
  simp only [PowerScheduler.selectNext]
  split
  · rfl
  · split <;> rfl

theorem PowerScheduler.selects_config (scheduler : PowerScheduler) (n : Nat) :
    (scheduler.selects n).config = scheduler.config := by
  induction n with
  | zero => rfl
  | succ n ih => exact (PowerScheduler.selectNext_config _).trans ih

theorem PowerScheduler.load_config (config : PowerScheduleConfig)
    (inserted : List (List UInt8 × ScheduleFeedback)) :
    (PowerScheduler.load config inserted).config = config := by
  unfold PowerScheduler.load
  have hstart : (PowerScheduler.new config).config = config := rfl
  generalize PowerScheduler.new config = scheduler at hstart ⊢
  induction inserted generalizing scheduler with
  | nil => exact hstart
  | cons seed inserted ih => exact ih _ hstart

/-- Freshly inserted seeds have not been selected. -/
theorem PowerScheduler.load_counts (config : PowerScheduleConfig)
    (inserted : List (List UInt8 × ScheduleFeedback)) (feedback : ScheduleFeedback) :
    (PowerScheduler.load config inserted).counts feedback
      = List.replicate (inserted.countP (fun seed => seed.2 = feedback)) 0 := by
  suffices hfold : ∀ scheduler : PowerScheduler,
      (inserted.foldl (fun scheduler seed => scheduler.insertWithFeedback seed.1 seed.2)
          scheduler).counts feedback
        = scheduler.counts feedback
          ++ List.replicate (inserted.countP (fun seed => seed.2 = feedback)) 0 from hfold _
  induction inserted with
  | nil => simp
  | cons seed inserted ih =>
      intro scheduler
      rw [List.foldl_cons, ih]
      by_cases hseed : seed.2 = feedback
      · simp [PowerScheduler.counts, PowerScheduler.insertWithFeedback, hseed,
          List.replicate_succ]
      · simp [PowerScheduler.counts, PowerScheduler.insertWithFeedback, hseed]

/-- Seen from the seeds of one feedback, a selection either passes them by
or takes the first of greatest score among them. -/
theorem PowerScheduler.counts_selectNext {scheduler : PowerScheduler}
    (h : scheduler.WellFormed) (feedback : ScheduleFeedback) :
    (scheduler.selectNext.2.counts feedback = scheduler.counts feedback
        ∧ (scheduler.seeds ≠ [] → ∃ seed ∈ scheduler.seeds, seed.feedback ≠ feedback))
      ∨ ∃ before c after, scheduler.counts feedback = before ++ c :: after
          ∧ scheduler.selectNext.2.counts feedback = before ++ saturating 64 (c + 1) :: after
          ∧ (∀ x ∈ before, scoreAt (energyOf scheduler.config feedback) x
              < scoreAt (energyOf scheduler.config feedback) c)
          ∧ ∀ x ∈ after, scoreAt (energyOf scheduler.config feedback) x
              ≤ scoreAt (energyOf scheduler.config feedback) c := by
  by_cases hne : scheduler.seeds = []
  · have hnone : scheduler.bestSeedIndex = none := by simp [PowerScheduler.bestSeedIndex, hne]
    exact .inl ⟨by simp only [PowerScheduler.selectNext, hnone], fun h => absurd hne h⟩
  obtain ⟨before, seed, after, hseeds, hnext, hbefore, hafter⟩ :=
    PowerScheduler.selectNext_spec h.ordered hne
  by_cases hseed : seed.feedback = feedback
  · refine .inr
      ⟨(before.filter (fun seed => seed.feedback = feedback)).map SeedEntry.selections,
        seed.selections,
        (after.filter (fun seed => seed.feedback = feedback)).map SeedEntry.selections,
        ?_, ?_, ?_, ?_⟩
    · rw [PowerScheduler.counts, hseeds, List.filter_append, List.filter_cons_of_pos (by simpa),
        List.map_append, List.map_cons]
    · rw [PowerScheduler.counts, hnext, List.filter_append, List.filter_cons_of_pos (by simpa),
        List.map_append, List.map_cons]
    · intro x hx
      obtain ⟨other, hother, rfl⟩ := List.mem_map.mp hx
      obtain ⟨hother, hfeedback⟩ := List.mem_filter.mp hother
      have := hbefore other hother
      rwa [SeedEntry.priorityScore, SeedEntry.priorityScore, SeedEntry.energy, SeedEntry.energy,
        of_decide_eq_true hfeedback, hseed] at this
    · intro x hx
      obtain ⟨other, hother, rfl⟩ := List.mem_map.mp hx
      obtain ⟨hother, hfeedback⟩ := List.mem_filter.mp hother
      have := hafter other hother
      rwa [SeedEntry.priorityScore, SeedEntry.priorityScore, SeedEntry.energy, SeedEntry.energy,
        of_decide_eq_true hfeedback, hseed] at this
  · refine .inl ⟨?_, fun _ => ⟨seed, by simp [hseeds], hseed⟩⟩
    rw [PowerScheduler.counts, PowerScheduler.counts, hseeds, hnext, List.filter_append,
      List.filter_append, List.filter_cons_of_neg (by simpa), List.filter_cons_of_neg (by simpa)]

/-- The selections of the seeds of one feedback, all together. -/
def PowerScheduler.visits (scheduler : PowerScheduler) (feedback : ScheduleFeedback) : Nat :=
  (scheduler.counts feedback).sum

theorem PowerScheduler.visits_selectNext {scheduler : PowerScheduler}
    (h : scheduler.WellFormed) (feedback : ScheduleFeedback)
    (hfits : ∀ c ∈ scheduler.counts feedback, c < 2 ^ 64) :
    scheduler.visits feedback ≤ scheduler.selectNext.2.visits feedback
      ∧ scheduler.selectNext.2.visits feedback ≤ scheduler.visits feedback + 1
      ∧ ∀ c ∈ scheduler.selectNext.2.counts feedback, c < 2 ^ 64 := by
  simp only [PowerScheduler.visits]
  rcases PowerScheduler.counts_selectNext h feedback with
    ⟨heq, -⟩ | ⟨before, c, after, heq, hnext, -, -⟩
  · rw [heq]
    exact ⟨le_rfl, by omega, hfits⟩
  · rw [heq] at hfits
    have hc := hfits c (by simp)
    rw [heq, hnext]
    simp only [List.sum_append, List.sum_cons, saturating]
    refine ⟨by omega, by omega, ?_⟩
    intro x hx
    rcases List.mem_append.mp hx with hx | hx
    · exact hfits x (by simp [hx])
    · rcases List.mem_cons.mp hx with rfl | hx
      · omega
      · exact hfits x (by simp [hx])

/-! ## The plateau of the score -/

theorem scoreAt_succ_le (energy s : Nat) : scoreAt energy (s + 1) ≤ scoreAt energy s := by
  have hle : saturating 64 (s + 1) ≤ saturating 64 (s + 1 + 1) := by
    simp only [saturating]
    omega
  have hpos : 0 < saturating 64 (s + 1) := by
    simp only [saturating]
    omega
  exact Nat.div_le_div_left hle hpos

theorem energyOf_lt (config : PowerScheduleConfig) (feedback : ScheduleFeedback) :
    energyOf config feedback < 2 ^ 32 := by
  simp only [energyOf, saturating]
  omega

/-- After so many selections the score is zero. -/
theorem scoreAt_eq_zero {energy s : Nat} (henergy : energy < 2 ^ 32) (hs : 2 ^ 42 ≤ s) :
    scoreAt energy s = 0 := by
  apply Nat.div_eq_of_lt
  simp only [saturating]
  omega

theorem exists_plateau (energy : Nat) : ∃ s, scoreAt energy (s + 1) = scoreAt energy s :=
  ⟨2 ^ 64, rfl⟩

/-- The least number of selections at which one more does not lower the
score. -/
def firstPlateau (energy : Nat) : Nat := Nat.find (exists_plateau energy)

theorem scoreAt_firstPlateau (energy : Nat) :
    scoreAt energy (firstPlateau energy + 1) = scoreAt energy (firstPlateau energy) :=
  Nat.find_spec (exists_plateau energy)

theorem scoreAt_succ_lt {energy s : Nat} (h : s < firstPlateau energy) :
    scoreAt energy (s + 1) < scoreAt energy s :=
  lt_of_le_of_ne (scoreAt_succ_le energy s) (Nat.find_min (exists_plateau energy) h)

theorem firstPlateau_le {energy : Nat} (henergy : energy < 2 ^ 32) :
    firstPlateau energy ≤ 2 ^ 42 := by
  apply Nat.find_min'
  rw [scoreAt_eq_zero henergy (by omega), scoreAt_eq_zero henergy (le_refl _)]

/-! ## Taking turns -/

section Turns

variable {scheduler : PowerScheduler} {feedback : ScheduleFeedback} {n : Nat}

theorem PowerScheduler.counts_fit (h : scheduler.WellFormed)
    (hstart : scheduler.counts feedback = List.replicate n 0) (k : Nat) :
    ∀ c ∈ (scheduler.selects k).counts feedback, c < 2 ^ 64 := by
  induction k with
  | zero =>
      intro c hc
      rw [PowerScheduler.selects, hstart] at hc
      rw [(List.mem_replicate.mp hc).2]
      decide
  | succ k ih => exact (PowerScheduler.visits_selectNext (h.selects k) feedback ih).2.2

theorem PowerScheduler.visits_mono (h : scheduler.WellFormed)
    (hstart : scheduler.counts feedback = List.replicate n 0) {j k : Nat} (hjk : j ≤ k) :
    (scheduler.selects j).visits feedback ≤ (scheduler.selects k).visits feedback := by
  induction hjk with
  | refl => exact le_rfl
  | step _ ih =>
      have hfit := PowerScheduler.counts_fit h hstart
      exact le_trans ih (PowerScheduler.visits_selectNext (h.selects _) feedback (hfit _)).1

/-- A selection among seeds taken in turn so far, before the counts come
near saturation, is a pick. -/
theorem PowerScheduler.picks_of_levels (h : scheduler.WellFormed) {v : Nat}
    (hcounts : scheduler.counts feedback = levels n v) (hv : v / n + 2 < 2 ^ 64) :
    (scheduler.selectNext.2.counts feedback = scheduler.counts feedback
        ∧ (scheduler.seeds ≠ [] → ∃ seed ∈ scheduler.seeds, seed.feedback ≠ feedback))
      ∨ Picks (scoreAt (energyOf scheduler.config feedback)) (levels n v)
          (scheduler.selectNext.2.counts feedback) := by
  rcases PowerScheduler.counts_selectNext h feedback with
    hpass | ⟨before, c, after, heq, hnext, hbefore, hafter⟩
  · exact .inl hpass
  · have hc : c ∈ levels n v := by rw [← hcounts, heq]; simp
    have hsat : saturating 64 (c + 1) = c + 1 := by
      apply saturating_of_lt
      have := mem_levels hc
      omega
    rw [hsat] at hnext
    exact .inr ⟨before, c, after, hcounts ▸ heq, hnext, hbefore, hafter⟩

/-- Up to the first plateau every state is a round robin's. -/
theorem PowerScheduler.counts_selects (h : scheduler.WellFormed) (hn : 0 < n)
    (hstart : scheduler.counts feedback = List.replicate n 0) {k : Nat}
    (hv : (scheduler.selects k).visits feedback
      ≤ n * firstPlateau (energyOf scheduler.config feedback) + 1) :
    (scheduler.selects k).counts feedback
      = levels n ((scheduler.selects k).visits feedback) := by
  induction k with
  | zero =>
      have hzero : (scheduler.selects 0).visits feedback = 0 := by
        simp [PowerScheduler.visits, PowerScheduler.selects, hstart]
      rw [hzero, levels_zero]
      exact hstart
  | succ k ih =>
      have hmono := PowerScheduler.visits_mono h hstart (Nat.le_add_right k 1)
      have hcounts := ih (le_trans hmono hv)
      have hplateau := firstPlateau_le (energyOf_lt scheduler.config feedback)
      have hconfig := PowerScheduler.selects_config scheduler k
      generalize hvisits : (scheduler.selects k).visits feedback = v at hcounts hmono
      have hdiv : v / n ≤ firstPlateau (energyOf scheduler.config feedback) + 1 := by
        apply Nat.div_le_of_le_mul
        rw [Nat.mul_add]
        omega
      rcases PowerScheduler.picks_of_levels (h.selects k) hcounts (by omega) with ⟨heq, -⟩ | hpick
      · rw [PowerScheduler.visits, PowerScheduler.selects, heq]
        rw [← PowerScheduler.visits, hvisits, hcounts]
      · rw [hconfig] at hpick
        have hsum : v + 1 ≤ n * firstPlateau (energyOf scheduler.config feedback) + 1 := by
          obtain ⟨before, c, after, hsplit, hnext, -, -⟩ := hpick
          have hv' : (scheduler.selects (k + 1)).visits feedback = v + 1 := by
            rw [PowerScheduler.visits, PowerScheduler.selects, hnext, ← sum_levels hn v, hsplit]
            simp only [List.sum_append, List.sum_cons]
            omega
          omega
        -- either a round begins, or its level is below the plateau
        have hscore : v % n = 0 ∨ scoreAt (energyOf scheduler.config feedback) (v / n + 1)
            < scoreAt (energyOf scheduler.config feedback) (v / n) := by
          rcases Nat.lt_or_ge (v / n) (firstPlateau (energyOf scheduler.config feedback)) with
            hlt | hge
          · exact .inr (scoreAt_succ_lt hlt)
          · left
            have hmul := Nat.mul_le_mul_left n hge
            have hsplit := Nat.div_add_mod v n
            omega
        have hnext := hpick.levels hn hscore
        rw [PowerScheduler.visits, PowerScheduler.selects, hnext, sum_levels hn]

/-- The selection after the plateau's first one breaks the turn. -/
theorem PowerScheduler.not_balanced_at_plateau (h : scheduler.WellFormed) (hn : 2 ≤ n)
    (hstart : scheduler.counts feedback = List.replicate n 0) {k : Nat}
    (hat : (scheduler.selects k).visits feedback
      = n * firstPlateau (energyOf scheduler.config feedback) + 1)
    (hpast : (scheduler.selects (k + 1)).visits feedback
      = n * firstPlateau (energyOf scheduler.config feedback) + 2) :
    ¬ Balanced ((scheduler.selects (k + 1)).counts feedback) := by
  have hcounts := PowerScheduler.counts_selects h (by omega) hstart (le_of_eq hat)
  have hplateau := firstPlateau_le (energyOf_lt scheduler.config feedback)
  rw [hat] at hcounts
  have hdiv : (n * firstPlateau (energyOf scheduler.config feedback) + 1) / n
      = firstPlateau (energyOf scheduler.config feedback) := by
    rw [Nat.mul_add_div (by omega), Nat.div_eq_of_lt (by omega), Nat.add_zero]
  have hmod : (n * firstPlateau (energyOf scheduler.config feedback) + 1) % n = 1 := by
    rw [Nat.mul_add_mod, Nat.mod_eq_of_lt (by omega)]
  rcases PowerScheduler.picks_of_levels (h.selects k) hcounts (by omega) with ⟨heq, -⟩ | hpick
  · have hsame : (scheduler.selects (k + 1)).visits feedback
        = (scheduler.selects k).visits feedback := by
      rw [PowerScheduler.visits, PowerScheduler.selects, heq]
      rfl
    omega
  · rw [PowerScheduler.selects_config] at hpick
    refine hpick.not_balanced (by omega) (by omega) ?_
    rw [hdiv]
    exact scoreAt_firstPlateau _

/-- Beyond so many visits, some selection on the way was the one after the
plateau's first. -/
theorem PowerScheduler.exists_plateau_step (h : scheduler.WellFormed)
    (hstart : scheduler.counts feedback = List.replicate n 0) {k bound : Nat}
    (hpast : bound + 1 < (scheduler.selects k).visits feedback) :
    ∃ j < k, (scheduler.selects j).visits feedback = bound + 1
      ∧ (scheduler.selects (j + 1)).visits feedback = bound + 2 := by
  induction k with
  | zero =>
      simp only [PowerScheduler.selects, PowerScheduler.visits, hstart, List.sum_replicate_nat,
        Nat.mul_zero] at hpast
      omega
  | succ k ih =>
      have hstep := PowerScheduler.visits_selectNext (h.selects k) feedback
        (PowerScheduler.counts_fit h hstart k)
      have hnext : (scheduler.selects (k + 1)).visits feedback
          = (scheduler.selects k).selectNext.2.visits feedback := rfl
      by_cases hbefore : bound + 1 < (scheduler.selects k).visits feedback
      · obtain ⟨j, hj, hat⟩ := ih hbefore
        exact ⟨j, by omega, hat⟩
      · exact ⟨k, by omega, by omega, by omega⟩

/-- A scheduler whose seeds of one feedback start unselected keeps them in
balance exactly as long as the plateau's second selection is not reached. -/
theorem PowerScheduler.balanced_iff_visits (h : scheduler.WellFormed) (hn : 2 ≤ n)
    (hstart : scheduler.counts feedback = List.replicate n 0) (calls : Nat) :
    (∀ k ≤ calls, Balanced ((scheduler.selects k).counts feedback))
      ↔ (scheduler.selects calls).visits feedback
          ≤ n * firstPlateau (energyOf scheduler.config feedback) + 1 := by
  constructor
  · intro hbal
    by_contra hpast
    obtain ⟨j, hj, hat, hnext⟩ := PowerScheduler.exists_plateau_step h hstart (not_le.mp hpast)
    exact PowerScheduler.not_balanced_at_plateau h hn hstart hat hnext (hbal (j + 1) (by omega))
  · intro hv k hk
    rw [PowerScheduler.counts_selects h (by omega) hstart
      (le_trans (PowerScheduler.visits_mono h hstart hk) hv)]
    exact levels_balanced _ _

/-- With seeds of one feedback only, every call is one of their visits. -/
theorem PowerScheduler.visits_eq_calls (h : scheduler.WellFormed) (hn : 0 < n)
    (hstart : scheduler.counts feedback = List.replicate n 0)
    (huniform : ∀ k, ∀ seed ∈ (scheduler.selects k).seeds, seed.feedback = feedback) {calls : Nat}
    (hcalls : calls ≤ n * firstPlateau (energyOf scheduler.config feedback) + 2) :
    (scheduler.selects calls).visits feedback = calls := by
  induction calls with
  | zero => simp [PowerScheduler.visits, PowerScheduler.selects, hstart]
  | succ k ih =>
      have hvisits := ih (by omega)
      have hcounts := PowerScheduler.counts_selects h hn hstart (k := k) (by omega)
      have hplateau := firstPlateau_le (energyOf_lt scheduler.config feedback)
      rw [hvisits] at hcounts
      have hdiv : k / n ≤ firstPlateau (energyOf scheduler.config feedback) + 1 := by
        apply Nat.div_le_of_le_mul
        rw [Nat.mul_add]
        omega
      rcases PowerScheduler.picks_of_levels (h.selects k) hcounts (by omega) with
        ⟨-, hother⟩ | ⟨before, c, after, hsplit, hnext, -, -⟩
      · -- someone is there to be taken, and all are of this feedback
        have hne : (scheduler.selects k).seeds ≠ [] := by
          intro hnil
          have hlen := congrArg List.length hcounts
          have hlt := Nat.mod_lt k hn
          simp only [PowerScheduler.counts, hnil, levels, List.filter_nil, List.map_nil,
            List.length_nil, List.length_append, List.length_replicate] at hlen
          omega
        obtain ⟨seed, hseed, hdiffers⟩ := hother hne
        exact absurd (huniform k seed hseed) hdiffers
      · rw [PowerScheduler.visits, PowerScheduler.selects, hnext]
        have hsum := sum_levels hn k
        rw [hsplit] at hsum
        simp only [List.sum_append, List.sum_cons] at hsum ⊢
        omega

theorem PowerScheduler.balanced_iff_calls (h : scheduler.WellFormed) (hn : 2 ≤ n)
    (hstart : scheduler.counts feedback = List.replicate n 0)
    (huniform : ∀ k, ∀ seed ∈ (scheduler.selects k).seeds, seed.feedback = feedback)
    (calls : Nat) :
    (∀ k ≤ calls, Balanced ((scheduler.selects k).counts feedback))
      ↔ calls ≤ n * firstPlateau (energyOf scheduler.config feedback) + 1 := by
  have hvisits : ∀ k ≤ n * firstPlateau (energyOf scheduler.config feedback) + 2,
      (scheduler.selects k).visits feedback = k :=
    fun k hk => PowerScheduler.visits_eq_calls h (by omega) hstart huniform hk
  rw [PowerScheduler.balanced_iff_visits h hn hstart]
  constructor
  · intro hv
    by_contra hpast
    have hmono := PowerScheduler.visits_mono h hstart (not_le.mp hpast)
    rw [hvisits _ le_rfl] at hmono
    omega
  · intro hcalls
    rw [hvisits calls (by omega)]
    exact hcalls

end Turns

/-! ## The end of every run -/

/-- Selecting touches neither ids nor feedback. -/
theorem PowerScheduler.selectNext_tags {scheduler : PowerScheduler} (h : scheduler.WellFormed) :
    scheduler.selectNext.2.seeds.map (fun seed => (seed.id, seed.feedback))
      = scheduler.seeds.map (fun seed => (seed.id, seed.feedback)) := by
  by_cases hne : scheduler.seeds = []
  · have hnone : scheduler.bestSeedIndex = none := by simp [PowerScheduler.bestSeedIndex, hne]
    simp only [PowerScheduler.selectNext, hnone]
  · obtain ⟨before, seed, after, hseeds, hnext, -, -⟩ :=
      PowerScheduler.selectNext_spec h.ordered hne
    rw [hnext, hseeds]
    simp

theorem PowerScheduler.selects_tags {scheduler : PowerScheduler} (h : scheduler.WellFormed)
    (k : Nat) :
    (scheduler.selects k).seeds.map (fun seed => (seed.id, seed.feedback))
      = scheduler.seeds.map (fun seed => (seed.id, seed.feedback)) := by
  induction k with
  | zero => rfl
  | succ k ih => exact (PowerScheduler.selectNext_tags (h.selects k)).trans ih

/-- Every seed's score is down to zero. -/
def PowerScheduler.Spent (scheduler : PowerScheduler) : Prop :=
  ∀ seed ∈ scheduler.seeds, seed.priorityScore scheduler.config = 0

/-- With all scores at zero the first seed is taken, and nothing rises. -/
theorem PowerScheduler.Spent.selectNext {scheduler : PowerScheduler} (h : scheduler.WellFormed)
    (hspent : scheduler.Spent) {first : SeedEntry} {rest : List SeedEntry}
    (hseeds : scheduler.seeds = first :: rest) :
    scheduler.selectNext.1.map ScheduledSeed.id = some first.id
      ∧ scheduler.selectNext.2.Spent := by
  obtain ⟨before, seed, after, hsplit, hnext, hbefore, -⟩ :=
    PowerScheduler.selectNext_spec h.ordered (by simp [hseeds])
  have hseed : seed.priorityScore scheduler.config = 0 := hspent seed (by simp [hsplit])
  cases before with
  | cons x before =>
      have := hbefore x (by simp)
      omega
  | nil =>
      rw [List.nil_append, hseeds] at hsplit
      obtain ⟨rfl, rfl⟩ := List.cons.inj hsplit
      rw [hnext]
      refine ⟨rfl, ?_⟩
      intro x hx
      rcases List.mem_cons.mp hx with rfl | hx
      · -- one more selection of a seed that scored zero
        have hle : saturating 64 (first.selections + 1)
            ≤ saturating 64 (saturating 64 (first.selections + 1) + 1) := by
          simp only [saturating]
          omega
        have hpos : 0 < saturating 64 (first.selections + 1) := by
          simp only [saturating]
          omega
        exact Nat.le_zero.mp (le_trans (Nat.div_le_div_left hle hpos) (le_of_eq hseed))
      · exact hspent x (by simp [hseeds, hx])

/-- The selections left before a seed surely scores zero. -/
def PowerScheduler.left (scheduler : PowerScheduler) : Nat :=
  (scheduler.seeds.map (fun seed => 2 ^ 42 - seed.selections)).sum

/-- A selection uses up some of what is left, until all is spent. -/
theorem PowerScheduler.left_selectNext_lt {scheduler : PowerScheduler}
    (h : scheduler.WellFormed) (hspent : ¬ scheduler.Spent) :
    scheduler.selectNext.2.left < scheduler.left := by
  have hne : scheduler.seeds ≠ [] := by
    intro hnil
    exact hspent (by simp [PowerScheduler.Spent, hnil])
  obtain ⟨before, seed, after, hseeds, hnext, hbefore, hafter⟩ :=
    PowerScheduler.selectNext_spec h.ordered hne
  -- the greatest score is positive, so its seed is below the bound
  have hpos : 0 < seed.priorityScore scheduler.config := by
    by_contra hzero
    refine hspent fun x hx => ?_
    rw [hseeds] at hx
    rcases List.mem_append.mp hx with hx | hx
    · have := hbefore x hx
      omega
    · rcases List.mem_cons.mp hx with rfl | hx
      · omega
      · have := hafter x hx
        omega
  have hlt : seed.selections < 2 ^ 42 := by
    by_contra hge
    have hzero := scoreAt_eq_zero (energyOf_lt scheduler.config seed.feedback) (not_lt.mp hge)
    rw [SeedEntry.priorityScore, SeedEntry.energy, hzero] at hpos
    exact absurd hpos (lt_irrefl _)
  rw [PowerScheduler.left, PowerScheduler.left, hnext, hseeds]
  simp only [List.map_append, List.map_cons, List.sum_append, List.sum_cons]
  rw [saturating_of_lt (by omega)]
  omega

theorem PowerScheduler.exists_spent {scheduler : PowerScheduler} (h : scheduler.WellFormed) :
    ∃ calls, (scheduler.selects calls).Spent := by
  by_contra hnever
  have hdrop : ∀ k, (scheduler.selects k).left + k ≤ scheduler.left := by
    intro k
    induction k with
    | zero => exact le_rfl
    | succ k ih =>
        have := PowerScheduler.left_selectNext_lt (h.selects k) (fun hs => hnever ⟨k, hs⟩)
        rw [PowerScheduler.selects]
        omega
  have := hdrop (scheduler.left + 1)
  omega

/-- From some call on, every call selects the first seed. -/
theorem PowerScheduler.first_forever {scheduler : PowerScheduler} (h : scheduler.WellFormed)
    {first : SeedEntry} {rest : List SeedEntry} (hseeds : scheduler.seeds = first :: rest) :
    ∃ calls, ∀ k ≥ calls,
      (scheduler.selects k).selectNext.1.map ScheduledSeed.id = some first.id := by
  obtain ⟨calls, hspent⟩ := PowerScheduler.exists_spent h
  have hfirst : ∀ k, ∃ first' rest', (scheduler.selects k).seeds = first' :: rest'
      ∧ first'.id = first.id := by
    intro k
    have htags := PowerScheduler.selects_tags h k
    rw [hseeds, List.map_cons] at htags
    obtain ⟨first', rest', hsplit, htag, -⟩ := List.map_eq_cons_iff.mp htags
    exact ⟨first', rest', hsplit, congrArg Prod.fst htag⟩
  refine ⟨calls, fun k hk => ?_⟩
  have hspent' : (scheduler.selects k).Spent := by
    induction hk with
    | refl => exact hspent
    | step _ ih =>
        obtain ⟨first', rest', hsplit, -⟩ := hfirst _
        exact (PowerScheduler.Spent.selectNext (h.selects _) ih hsplit).2
  obtain ⟨first', rest', hsplit, hid⟩ := hfirst k
  rw [← hid]
  exact (PowerScheduler.Spent.selectNext (h.selects k) hspent' hsplit).1

theorem PowerScheduler.load_feedbacks (config : PowerScheduleConfig)
    (inserted : List (List UInt8 × ScheduleFeedback)) :
    (PowerScheduler.load config inserted).seeds.map SeedEntry.feedback
      = inserted.map Prod.snd := by
  suffices hfold : ∀ scheduler : PowerScheduler,
      (inserted.foldl (fun scheduler seed => scheduler.insertWithFeedback seed.1 seed.2)
          scheduler).seeds.map SeedEntry.feedback
        = scheduler.seeds.map SeedEntry.feedback ++ inserted.map Prod.snd from hfold _
  induction inserted with
  | nil => simp
  | cons seed inserted ih =>
      intro scheduler
      rw [List.foldl_cons, ih]
      simp [PowerScheduler.insertWithFeedback]

/-- The seed inserted first has id zero. -/
theorem PowerScheduler.load_cons (config : PowerScheduleConfig)
    (seed : List UInt8 × ScheduleFeedback) (inserted : List (List UInt8 × ScheduleFeedback)) :
    ∃ first rest, (PowerScheduler.load config (seed :: inserted)).seeds = first :: rest
      ∧ first.id = 0 := by
  suffices hfold : ∀ scheduler : PowerScheduler,
      ∃ added, (inserted.foldl
          (fun scheduler seed => scheduler.insertWithFeedback seed.1 seed.2) scheduler).seeds
        = scheduler.seeds ++ added by
    obtain ⟨added, hadded⟩ := hfold ((PowerScheduler.new config).insertWithFeedback seed.1 seed.2)
    exact ⟨_, added, hadded, rfl⟩
  induction inserted with
  | nil => exact fun scheduler => ⟨[], by simp⟩
  | cons seed inserted ih =>
      intro scheduler
      obtain ⟨added, hadded⟩ := ih (scheduler.insertWithFeedback seed.1 seed.2)
      exact ⟨_ :: added, by rw [List.foldl_cons, hadded, PowerScheduler.insertWithFeedback,
        List.append_assoc, List.singleton_append]⟩

/-- Among any seeds inserted into a scheduler, those of one feedback stay
within one selection of each other exactly as long as they were selected
at most once per seed for each selection before the first plateau, and
once more.  When all seeds have that feedback the number of calls says it.
In the end every run selects its first seed for ever. -/
theorem selects_balanced_iff (config : PowerScheduleConfig)
    (inserted : List (List UInt8 × ScheduleFeedback)) (feedback : ScheduleFeedback)
    (hseveral : 2 ≤ inserted.countP (fun seed => seed.2 = feedback)) (calls : Nat) :
    ((∀ k ≤ calls, Balanced (((PowerScheduler.load config inserted).selects k).counts feedback))
        ↔ (((PowerScheduler.load config inserted).selects calls).counts feedback).sum
          ≤ inserted.countP (fun seed => seed.2 = feedback)
              * firstPlateau (energyOf config feedback) + 1)
      ∧ ((∀ seed ∈ inserted, seed.2 = feedback) →
          ((∀ k ≤ calls,
              Balanced (((PowerScheduler.load config inserted).selects k).counts feedback))
            ↔ calls ≤ inserted.length * firstPlateau (energyOf config feedback) + 1))
      ∧ ∃ last, ∀ k ≥ last,
          ((PowerScheduler.load config inserted).selects k).selectNext.1.map ScheduledSeed.id
            = some 0 := by
  have hwf := PowerScheduler.load_wellFormed config inserted
  have hstart := PowerScheduler.load_counts config inserted feedback
  have hconfig := PowerScheduler.load_config config inserted
  refine ⟨?_, ?_, ?_⟩
  · have hiff := PowerScheduler.balanced_iff_visits hwf hseveral hstart calls
    rwa [hconfig] at hiff
  · intro hall
    have hcount : inserted.countP (fun seed => seed.2 = feedback) = inserted.length :=
      List.countP_eq_length.mpr (by simpa using hall)
    have huniform : ∀ k, ∀ seed ∈ ((PowerScheduler.load config inserted).selects k).seeds,
        seed.feedback = feedback := by
      intro k seed hseed
      have htags := congrArg (List.map Prod.snd) (PowerScheduler.selects_tags hwf k)
      simp only [List.map_map, Function.comp_def] at htags
      have hmem : seed.feedback ∈ (PowerScheduler.load config inserted).seeds.map
          SeedEntry.feedback := by
        rw [← htags]
        exact List.mem_map_of_mem hseed
      rw [PowerScheduler.load_feedbacks] at hmem
      obtain ⟨pair, hpair, heq⟩ := List.mem_map.mp hmem
      rw [← heq, hall pair hpair]
    have hiff := PowerScheduler.balanced_iff_calls hwf hseveral hstart huniform calls
    rwa [hconfig, hcount] at hiff
  · cases inserted with
    | nil => simp at hseveral
    | cons seed inserted =>
        obtain ⟨first, rest, hseeds, hid⟩ := PowerScheduler.load_cons config seed inserted
        obtain ⟨last, hlast⟩ := PowerScheduler.first_forever hwf hseeds
        exact ⟨last, fun k hk => by rw [hlast k hk, hid]⟩

/-- Two seeds without feedback under the default configuration, whose
energy is one: the score first stands still at 37 selections. -/
theorem selects_balanced_default :
    Balanced (((PowerScheduler.load .default
        [([0], ⟨0, 0⟩), ([1], ⟨0, 0⟩)]).selects 75).counts ⟨0, 0⟩) := by
  have hplateau : 37 ≤ firstPlateau (energyOf .default ⟨0, 0⟩) := by
    apply (Nat.le_find_iff _ _).mpr
    decide
  refine ((selects_balanced_iff .default [([0], ⟨0, 0⟩), ([1], ⟨0, 0⟩)] ⟨0, 0⟩ (by decide)
    75).2.1 (by decide)).mpr ?_ 75 le_rfl
  simp only [List.length_cons, List.length_nil]
  omega

/-- One call later the first seed is two selections ahead. -/
theorem selects_unbalanced_default :
    ¬ Balanced (((PowerScheduler.load .default
        [([0], ⟨0, 0⟩), ([1], ⟨0, 0⟩)]).selects 76).counts ⟨0, 0⟩) := by
  decide +kernel

end GovFuzz.FuzzEngine
