import GovFuzz.FuzzEngine.MutationInput
import Mathlib.Data.Finset.Card
import Mathlib.Data.Fintype.Pi

/-!
# Cli — colorization

`colorize_base` and `capture_cmplog` of `crates/cli/src/fuzz.rs`, and the part
of `CoverageTracker` they use.  The harness is a deterministic function: what
one run of an input hits in the edge bitmap, what it compares, and whether the
server is there afterwards.  A server that has died stays dead until the
caller's next real run.
-/

namespace GovFuzz.Cli.Colorize

/-! ## The harness -/

/-- The operands of a comparison. -/
abbrev OperandPair := List UInt8 × List UInt8

/-- One run of an input: the edges it hits and the operands it compares, up to
its death where it does not survive. -/
structure Execution (bits : Nat) where
  footprint : List (Fin bits)
  compares : List OperandPair
  survives : Bool

/-- What the target does with an input. -/
abbrev Harness (bits : Nat) := List UInt8 → Execution bits

/-- The edge bitmap that the driver shares with the engine, a byte an edge. -/
abbrev Bitmap (bits : Nat) := Fin bits → UInt8

/-- Nothing covered. -/
def Bitmap.zero (bits : Nat) : Bitmap bits := fun _ => 0

/-- The driver stores 1 for every edge that is hit. -/
def Bitmap.join {bits : Nat} (map : Bitmap bits) (footprint : List (Fin bits)) : Bitmap bits :=
  fun edge => if edge ∈ footprint then 1 else map edge

/-- The shared map and the count last seen. -/
structure CoverageTracker (bits : Nat) where
  map : Bitmap bits
  lastCount : Nat

/-- The operand ring that the driver shares with the engine. -/
structure CmpRing where
  armed : Bool
  records : List OperandPair
  deriving DecidableEq, Repr

/-- What the two functions are given and leave behind. -/
structure World (bits : Nat) (ρ : Type) where
  cov : CoverageTracker bits
  ring : CmpRing
  alive : Bool
  rng : ρ

/-- What became of a run in the server. -/
inductive ForkOutcome where
  | ran
  | died
  deriving DecidableEq, Repr

/-- Comparisons that the ring holds. -/
def govfuzzCmpCap : Nat := 2048

/-- Records while the ring is armed, up to its cap. -/
def CmpRing.append (ring : CmpRing) (compares : List OperandPair) : CmpRing :=
  if ring.armed then { ring with records := (ring.records ++ compares).take govfuzzCmpCap }
  else ring

section
variable {bits : Nat} {ρ : Type} (harness : Harness bits)

namespace CoverageTracker

/-- Cells that are not zero. -/
def count (cov : CoverageTracker bits) : Nat := (Finset.univ.filter (cov.map · ≠ 0)).card

/-- The cells gained since the last gain. -/
def inputIncreasedCoverage (cov : CoverageTracker bits) : Nat × CoverageTracker bits :=
  let added := cov.count - cov.lastCount
  (added, if 0 < added then { cov with lastCount := cov.count } else cov)

/-- How many edges an input with this footprint is credited with. -/
def credit (cov : CoverageTracker bits) (footprint : List (Fin bits)) : Nat :=
  ({ cov with map := cov.map.join footprint }).inputIncreasedCoverage.1

/-- The map as it stands. -/
def snapshot (cov : CoverageTracker bits) : Bitmap bits := cov.map

def zero (cov : CoverageTracker bits) : CoverageTracker bits := { cov with map := .zero bits }

def restore (cov : CoverageTracker bits) (snapshot : Bitmap bits) : CoverageTracker bits :=
  { cov with map := snapshot }

end CoverageTracker

namespace World

def zero (w : World bits ρ) : World bits ρ := { w with cov := w.cov.zero }

def restore (w : World bits ρ) (snapshot : Bitmap bits) : World bits ρ :=
  { w with cov := w.cov.restore snapshot }

end World

/-- The server that runs an input shares its maps; a dead one reads nothing. -/
def runOne (input : List UInt8) (w : World bits ρ) : ForkOutcome × World bits ρ :=
  if w.alive then
    let run := harness input
    (if run.survives then .ran else .died,
      { w with
        cov := { w.cov with map := w.cov.map.join run.footprint }
        ring := w.ring.append run.compares
        alive := run.survives })
  else (.died, w)

/-! ## Colorization -/

/-- `MAX_COLORIZE_PROBES`. -/
def maxColorizeProbes : Nat := 64

/-- `MIN_COLORIZE_LEN`. -/
def minColorizeLen : Nat := 4

variable (nextU8 : ρ → UInt8 × ρ)

/-- The loop over the positions, with what is left of them. -/
def probeFrom (baseCov : Bitmap bits) :
    Nat → Nat → List UInt8 → World bits ρ → List UInt8 × World bits ρ
  | 0, _, colored, w => (colored, w)
  | left + 1, i, colored, w =>
      let original := colored.getD i 0
      let (candidate, rng) := nextU8 w.rng
      let w := { w with rng := rng }
      if candidate = original then probeFrom baseCov left (i + 1) colored w
      else
        let probe := colored.set i candidate
        let (outcome, w) := runOne harness probe w.zero
        match outcome with
        -- the probe crashed or hung: it is taken back, and the loop ends
        | .died => (probe.set i original, w)
        | .ran =>
            if w.cov.snapshot ≠ baseCov then
              probeFrom baseCov left (i + 1) (probe.set i original) w
            else probeFrom baseCov left (i + 1) probe w

/-- The input with every byte replaced that coverage does not depend on. -/
def colorizeBase (base : List UInt8) (w : World bits ρ) : List UInt8 × World bits ρ :=
  if base.length < minColorizeLen then (base, w)
  else
    let backup := w.cov.snapshot
    let (outcome, w) := runOne harness base w.zero
    match outcome with
    | .died => (base, w.restore backup)
    | .ran =>
        let baseCov := w.cov.snapshot
        let probes := min base.length maxColorizeProbes
        let (colored, w) := probeFrom harness nextU8 baseCov probes 0 base w
        (colored, w.restore backup)

/-- `read_log`: the pairs of the ring, each once and with its first index,
but for those without an operand. -/
def CmpRing.readLog (ring : CmpRing) : List (Nat × OperandPair) :=
  let pairs := ring.records.take govfuzzCmpCap
  (List.range pairs.length).filterMap fun i =>
    match pairs[i]? with
    | some pair =>
        if pair = ([], []) ∨ pair ∈ pairs.take i then none else some (i, pair)
    | none => none

/-- The comparisons of one run. -/
def captureCmplog (base : List UInt8) (w : World bits ρ) :
    List (Nat × OperandPair) × World bits ρ :=
  let w := { w with ring := ⟨true, []⟩ }
  let (_, w) := runOne harness base w
  (w.ring.readLog, { w with ring := { w.ring with armed := false } })

/-- The two in a row, as the engine calls them when it first mutates a base. -/
def colorizeAndCapture (base : List UInt8) (w : World bits ρ) :
    (List UInt8 × List (Nat × OperandPair)) × World bits ρ :=
  let (colored, w) := colorizeBase harness nextU8 base w
  let (log, w) := captureCmplog harness colored w
  ((colored, log), w)

/-! ## What a probe may change -/

/-- The bytes that differ are among those that are probed. -/
structure SameShape (base colored : List UInt8) : Prop where
  length : colored.length = base.length
  behind : ∀ i, maxColorizeProbes ≤ i → colored[i]? = base[i]?

/-- A run of the one input is, for the engine, a run of the other. -/
structure SameRun (base colored : List UInt8) : Prop where
  footprint : ∀ edge, edge ∈ (harness colored).footprint ↔ edge ∈ (harness base).footprint
  survives : (harness colored).survives = (harness base).survives

omit ρ in
theorem SameShape.refl (base : List UInt8) : SameShape base base := ⟨rfl, fun _ _ => rfl⟩

theorem SameRun.refl (base : List UInt8) : SameRun harness base base :=
  ⟨fun _ => Iff.rfl, rfl⟩

theorem SameShape.set {base colored : List UInt8} (h : SameShape base colored) {i : Nat}
    (hi : i < maxColorizeProbes) (byte : UInt8) : SameShape base (colored.set i byte) := by
  constructor
  · rw [List.length_set, h.length]
  · intro j hj
    rw [List.getElem?_set_ne (by omega)]
    exact h.behind j hj

/-- A byte that is put back. -/
theorem set_set_getD {colored : List UInt8} {i : Nat} (hi : i < colored.length) (byte : UInt8) :
    (colored.set i byte).set i (colored.getD i 0) = colored := by
  rw [List.set_set, List.getD_eq_getElem _ _ hi, List.set_getElem_self]

theorem join_congr {map : Bitmap bits} {footprint footprint' : List (Fin bits)}
    (h : ∀ edge, edge ∈ footprint ↔ edge ∈ footprint') :
    map.join footprint = map.join footprint' := by
  funext edge
  simp only [Bitmap.join, h edge]

/-- A footprint can be read off an empty bitmap. -/
theorem mem_iff_of_join_zero_eq {footprint footprint' : List (Fin bits)}
    (h : (Bitmap.zero bits).join footprint = (Bitmap.zero bits).join footprint')
    (edge : Fin bits) : edge ∈ footprint ↔ edge ∈ footprint' := by
  have hedge := congrFun h edge
  simp only [Bitmap.join, Bitmap.zero] at hedge
  by_cases hmem : edge ∈ footprint <;> by_cases hmem' : edge ∈ footprint' <;>
    simp [hmem, hmem'] at hedge ⊢

theorem runOne_ran {input : List UInt8} {w : World bits ρ}
    (h : (runOne harness input w).1 = .ran) :
    w.alive = true ∧ (harness input).survives = true ∧
      (runOne harness input w).2.alive = true ∧
      (runOne harness input w).2.cov.map = w.cov.map.join (harness input).footprint := by
  unfold runOne at h ⊢
  by_cases halive : w.alive = true
  · by_cases hsurvives : (harness input).survives = true
    · simp [halive, hsurvives]
    · simp [halive, hsurvives] at h
  · simp [halive] at h

@[simp] theorem runOne_lastCount (input : List UInt8) (w : World bits ρ) :
    (runOne harness input w).2.cov.lastCount = w.cov.lastCount := by
  unfold runOne
  split <;> rfl

/-! ## The loop -/

/-- The candidate runs as the base does, before and after any number of
probes; a probe that is not taken back has just been seen to. -/
theorem probeFrom_spec {base : List UInt8} {baseCov : Bitmap bits}
    (hbase : (harness base).survives = true)
    (hcov : baseCov = (Bitmap.zero bits).join (harness base).footprint)
    (left i : Nat) (colored : List UInt8) (w : World bits ρ)
    (hroom : i + left ≤ min base.length maxColorizeProbes)
    (hshape : SameShape base colored) (hrun : SameRun harness base colored) :
    SameShape base (probeFrom harness nextU8 baseCov left i colored w).1 ∧
      SameRun harness base (probeFrom harness nextU8 baseCov left i colored w).1 ∧
      (probeFrom harness nextU8 baseCov left i colored w).2.cov.lastCount = w.cov.lastCount := by
  induction left generalizing i colored w with
  | zero => exact ⟨hshape, hrun, rfl⟩
  | succ left ih =>
      have hi : i < maxColorizeProbes := by omega
      have hlen : i < colored.length := by
        rw [hshape.length]
        omega
      have hnext : i + 1 + left ≤ min base.length maxColorizeProbes := by omega
      simp only [probeFrom]
      -- the byte that is drawn may be the one there: then nothing is run
      by_cases hsame : (nextU8 w.rng).1 = colored.getD i 0
      · rw [if_pos hsame]
        exact ih _ _ _ hnext hshape hrun
      · rw [if_neg hsame]
        generalize hw : World.zero { w with rng := (nextU8 w.rng).2 } = w'
        have hzero : w'.cov.map = Bitmap.zero bits := by rw [← hw]; rfl
        have hcount : w'.cov.lastCount = w.cov.lastCount := by rw [← hw]; rfl
        generalize hprobe : colored.set i (nextU8 w.rng).1 = probe
        have hback : probe.set i (colored.getD i 0) = colored := by
          rw [← hprobe, set_set_getD hlen]
        rw [hback, ← hcount, ← runOne_lastCount harness probe w']
        cases houtcome : (runOne harness probe w').1 with
        | died => exact ⟨hshape, hrun, rfl⟩
        | ran =>
            obtain ⟨-, hsurvives, -, hmap⟩ := runOne_ran harness houtcome
            dsimp only
            -- on another path the old byte is put back, on the same path the new one stays
            split_ifs with hdiffers
            · exact ih _ _ _ hnext hshape hrun
            · refine ih _ _ _ hnext (hprobe ▸ hshape.set hi _) ⟨?_, by rw [hsurvives, hbase]⟩
              intro edge
              refine mem_iff_of_join_zero_eq ?_ edge
              rw [← hzero, ← hmap, hzero, ← hcov]
              exact not_not.1 hdiffers

/-! ## The pass -/

/-- Colorization restores the tracker on every way out. -/
theorem colorizeBase_spec (base : List UInt8) (w : World bits ρ) :
    (colorizeBase harness nextU8 base w).2.cov = w.cov ∧
      SameShape base (colorizeBase harness nextU8 base w).1 ∧
      SameRun harness base (colorizeBase harness nextU8 base w).1 := by
  unfold colorizeBase
  split_ifs with hlen
  · exact ⟨rfl, .refl base, .refl harness base⟩
  · cases houtcome : (runOne harness base w.zero).1 with
    | died =>
        have hcount := runOne_lastCount harness base w.zero
        simp only [houtcome]
        refine ⟨?_, .refl base, .refl harness base⟩
        simp only [World.restore, CoverageTracker.restore, hcount]
        rfl
    | ran =>
        obtain ⟨-, hsurvives, -, hmap⟩ := runOne_ran harness houtcome
        have hloop := probeFrom_spec harness nextU8 hsurvives hmap
          (min base.length maxColorizeProbes) 0 base (runOne harness base w.zero).2 (by omega)
          (.refl base) (.refl harness base)
        have hcount := hloop.2.2.trans (runOne_lastCount harness base w.zero)
        simp only [houtcome, CoverageTracker.snapshot] at hloop hcount ⊢
        refine ⟨?_, hloop.1, hloop.2.1⟩
        simp only [World.restore, CoverageTracker.restore, hcount]
        rfl

theorem captureCmplog_cov (base : List UInt8) (w : World bits ρ) :
    (captureCmplog harness base w).2.cov
      = if w.alive then { w.cov with map := w.cov.map.join (harness base).footprint }
        else w.cov := by
  simp only [captureCmplog, runOne]
  split <;> rfl

/-- What a pass over a base leaves behind. -/
structure Neutral (harness : Harness bits) (base : List UInt8) (w : World bits ρ)
    (colored : List UInt8) (alive : Bool) (cov : CoverageTracker bits) : Prop where
  shape : SameShape base colored
  run : SameRun harness base colored
  lastCount : cov.lastCount = w.cov.lastCount
  /-- A server that has died on a probe does not run the input again. -/
  map : cov.map = if alive then w.cov.map.join (harness colored).footprint else w.cov.map

theorem Neutral.cov_eq_of_executed {base colored : List UInt8} {w : World bits ρ} {alive : Bool}
    {cov : CoverageTracker bits} (h : Neutral harness base w colored alive cov)
    (hexecuted : w.cov.map.join (harness base).footprint = w.cov.map) : cov = w.cov := by
  have hmap : cov.map = w.cov.map := by
    rw [h.map, join_congr h.run.footprint, hexecuted, ite_self]
  calc cov = ⟨cov.map, cov.lastCount⟩ := rfl
    _ = ⟨w.cov.map, w.cov.lastCount⟩ := by rw [hmap, h.lastCount]
    _ = w.cov := rfl

/-- **Colorization is neutral**: with any harness, any bitmap and any random
numbers, the pass over a base keeps the shape and the run of its input, and
adds at most the footprint of the base to the bitmap.  A base that was executed
before leaves the tracker as it is, so that a later input is credited with what
it would be credited with otherwise. -/
theorem colorizeAndCapture_neutral (harness : Harness bits) (nextU8 : ρ → UInt8 × ρ)
    (base : List UInt8) (w : World bits ρ) :
    Neutral harness base w (colorizeAndCapture harness nextU8 base w).1.1
        (colorizeBase harness nextU8 base w).2.alive
        (colorizeAndCapture harness nextU8 base w).2.cov ∧
      (w.cov.map.join (harness base).footprint = w.cov.map →
        (colorizeAndCapture harness nextU8 base w).2.cov = w.cov ∧
        ∀ later, (colorizeAndCapture harness nextU8 base w).2.cov.credit later
          = w.cov.credit later) ∧
      ∀ edge, (colorizeAndCapture harness nextU8 base w).2.cov.map edge ≠ w.cov.map edge →
        edge ∈ (harness base).footprint := by
  obtain ⟨hcov, hshape, hrun⟩ :=
    colorizeBase_spec harness nextU8 base w
  have hcapture := captureCmplog_cov harness (colorizeBase harness nextU8 base w).1
    (colorizeBase harness nextU8 base w).2
  have hneutral : Neutral harness base w (colorizeAndCapture harness nextU8 base w).1.1
      (colorizeBase harness nextU8 base w).2.alive
      (colorizeAndCapture harness nextU8 base w).2.cov := by
    refine ⟨hshape, hrun, ?_, ?_⟩
    all_goals
      simp only [colorizeAndCapture, hcapture, hcov]
      split <;> rfl
  refine ⟨hneutral, ?_, ?_⟩
  · intro hexecuted
    have hsame := hneutral.cov_eq_of_executed harness hexecuted
    exact ⟨hsame, fun later => by rw [hsame]⟩
  intro edge hchanged
  by_contra hnot
  apply hchanged
  rw [hneutral.map, join_congr hneutral.run.footprint]
  split
  · simp [Bitmap.join, hnot]
  · rfl

end

/-! ## With the generator of the engine -/

open GovFuzz.FuzzEngine GovFuzz.Lib in
/-- A byte of the generator. -/
def drawU8 (rng : MutationRng) : UInt8 × MutationRng :=
  match Op.exec nextU8 rng with
  | (.ok byte, rng) => (byte, rng)
  | (.error _, rng) => (0, rng)

/-- A harness that survives one input only. -/
def fragile : Harness 1 := fun input =>
  if input = [1, 2, 3, 4] then ⟨[0], [], true⟩ else ⟨[], [], false⟩

/-- A world with a live server and an empty map. -/
def started : World 1 GovFuzz.FuzzEngine.MutationRng :=
  ⟨⟨.zero 1, 0⟩, ⟨false, []⟩, true, ⟨0⟩⟩

/-- The first probe kills the server, and the capture runs nothing: the edge of
the base is not in the bitmap, which is what it was. -/
theorem not_colorizeAndCapture_joins :
    ¬ ∀ (harness : Harness 1) (base : List UInt8)
        (w : World 1 GovFuzz.FuzzEngine.MutationRng), w.alive = true →
      (colorizeAndCapture harness drawU8 base w).2.cov.map
        = w.cov.map.join (harness (colorizeAndCapture harness drawU8 base w).1.1).footprint := by
  intro h
  have hmap := congrFun (h fragile [1, 2, 3, 4] started rfl) 0
  exact absurd hmap (by decide)

theorem colorizeAndCapture_neutral_fragile :
    (colorizeAndCapture fragile drawU8 [1, 2, 3, 4]
      { started with cov := ⟨fun _ => 1, 1⟩ }).2.cov = ⟨fun _ => 1, 1⟩ :=
  ((colorizeAndCapture_neutral fragile drawU8 [1, 2, 3, 4] _).2.1 (by decide)).1

end GovFuzz.Cli.Colorize
