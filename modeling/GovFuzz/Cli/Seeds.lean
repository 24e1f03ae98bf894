import GovFuzz.Lib.Lossy

/-!
# Cli — seeds on their way to the engine

How the programmatic entry points of `crates/cli/src/fuzz.rs` hand their
seeds to `prepare`.  The seeds are bytes, the arguments of `prepare` are
strings, and the step between them is `String::from_utf8_lossy`; so a seed
arrives as it is only as far as it is UTF-8 (`seedsArrive_iff`).
-/

namespace GovFuzz.Cli

open GovFuzz.Lib

/-! ## Limits -/

structure CorpusLimits where
  entries : Nat
  bytes : Nat

/-- The byte budget comes from the environment and the memory of the host. -/
def corpusLimits (bytes : Nat) (entriesOverride : Option Nat) (maxLen : Nat) : CorpusLimits :=
  let estimatedEntryBytes := min (max maxLen 1024) (64 * 1024)
  let derivedEntries := min (max (bytes / estimatedEntryBytes) 4096) 262144
  ⟨entriesOverride.getD derivedEntries, bytes⟩

def saturatingAdd (a b : Nat) : Nat := min (a + b) (2 ^ 64 - 1)

def keepSeed (limits : CorpusLimits) (maxLen : Nat) (state : List (List UInt8) × Nat)
    (seed : List UInt8) : List (List UInt8) × Nat :=
  let (kept, bytes) := state
  let seed := seed.take maxLen
  if limits.entries ≤ kept.length then (kept, bytes)
  -- the first seed is retained at any size
  else if kept ≠ [] ∧ limits.bytes < saturatingAdd bytes seed.length then (kept, bytes)
  else (kept ++ [seed], saturatingAdd bytes seed.length)

def boundSeedCorpus (limits : CorpusLimits) (maxLen : Nat) (seeds : List (List UInt8)) :
    List (List UInt8) :=
  let kept := (seeds.foldl (keepSeed limits maxLen) ([], 0)).1
  if kept = [] then [[]] else kept

/-! ## The length of an input -/

def defaultMaxLen : Nat := 4096

def autoMaxLenCeiling : Nat := 64 * 1024 * 1024

/-- `str::parse::<usize>`. -/
def parseUsize (text : List Char) : Option Nat :=
  let digits := if text.head? = some '+' then text.tail else text
  if digits = [] || !digits.all Char.isDigit then none
  else
    let value := digits.foldl (fun value c => value * 10 + (c.toNat - 48)) 0
    if value < 2 ^ 64 then some value else none

theorem parseUsize_toDigits {n : Nat} (h : n < 2 ^ 64) :
    parseUsize (Nat.toDigits 10 n) = some n := by
  have hdigit : ∀ c ∈ Nat.toDigits 10 n, c.isDigit := fun c hc =>
    Nat.isDigit_of_mem_toDigits (by omega) (by omega) hc
  have hsign : ¬ (Nat.toDigits 10 n).head? = some '+' := by
    intro hplus
    have hplus := hdigit '+' (List.mem_of_head? hplus)
    simp at hplus
  have hall : (Nat.toDigits 10 n).all Char.isDigit = true := List.all_eq_true.mpr hdigit
  have hvalue : (Nat.toDigits 10 n).foldl (fun value c => value * 10 + (c.toNat - 48)) 0 = n := by
    have hread := Nat.ofDigitChars_ten_toDigits (n := n)
    have hzero : '0'.toNat = 48 := rfl
    rw [Nat.ofDigitChars_eq_foldl] at hread
    simpa only [Nat.mul_comm, hzero] using hread
  simp only [parseUsize, if_neg hsign, hall, hvalue, if_pos h]
  simp [Nat.toDigits_ne_nil]

def resolveMaxLenSpec (spec : Option String) (largestSeed : Nat) : Nat :=
  match spec with
  | some spec =>
      if spec.toLower = "auto" then max autoMaxLenCeiling largestSeed
      else ((parseUsize spec.toList).filter (0 < ·)).getD defaultMaxLen
  | none => defaultMaxLen

def largestSeed (seeds : List (List UInt8)) : Nat := (seeds.map List.length).max?.getD 0

/-! ## From the arguments to the run -/

inductive FuzzEngine where
  | builtin
  | aflPlusPlus
  deriving DecidableEq, Repr

/-- The arguments that decide about the seeds; of a seed file, its content. -/
structure FuzzArgs where
  maxLen : Nat
  seedInputs : List String
  seedFiles : List (List UInt8)
  symbolicSeeds : List (List UInt8)

/-- `run_one_target_programmatic_with_runner` and
`run_afl_plus_plus_programmatic`: the second has a fixed length. -/
def programmaticArgs (engine : FuzzEngine) (maxLenSpec : Option String)
    (seeds : List (List UInt8)) : FuzzArgs where
  maxLen := match engine with
    | .builtin => resolveMaxLenSpec maxLenSpec (largestSeed seeds)
    | .aflPlusPlus => defaultMaxLen
  seedInputs := seeds.map fun seed => String.ofList (lossy seed)
  seedFiles := []
  symbolicSeeds := []

/-- The seeds of the run that `prepare` returns. -/
def prepareSeeds (budget : Nat) (entriesOverride : Option Nat) (args : FuzzArgs) :
    List (List UInt8) :=
  let maxLen := max args.maxLen 1
  let seeds := args.seedInputs.map toUtf8 ++ args.seedFiles.map (List.take maxLen)
    ++ args.symbolicSeeds
  boundSeedCorpus (corpusLimits budget entriesOverride maxLen) maxLen seeds

section Spec

variable (budget : Nat) (entriesOverride : Option Nat) (engine : FuzzEngine)
  (maxLenSpec : Option String) (seeds : List (List UInt8))

/-- The length that the engine is started with. -/
def engineMaxLen : Nat := (programmaticArgs engine maxLenSpec seeds).maxLen

def resolvedMaxLen : Nat := resolveMaxLenSpec maxLenSpec (largestSeed seeds)

def engineLimits : CorpusLimits :=
  corpusLimits budget entriesOverride (engineMaxLen engine maxLenSpec seeds)

structure WithinLimits : Prop where
  entries : seeds.length ≤ (engineLimits budget entriesOverride engine maxLenSpec seeds).entries
  bytes : (seeds.map fun seed => min seed.length (engineMaxLen engine maxLenSpec seeds)).sum
    ≤ (engineLimits budget entriesOverride engine maxLenSpec seeds).bytes

/-- The seeds byte for byte, each cut to the resolved length. -/
def SeedsArrive : Prop :=
  prepareSeeds budget entriesOverride (programmaticArgs engine maxLenSpec seeds)
    = if seeds = [] then [[]] else seeds.map (List.take (resolvedMaxLen maxLenSpec seeds))

/-- What survives the detour, and is cut where it should be. -/
def Survives (seed : List UInt8) : Prop :=
  KeptUpTo (engineMaxLen engine maxLenSpec seeds) seed
    ∧ min seed.length (engineMaxLen engine maxLenSpec seeds)
      = min seed.length (resolvedMaxLen maxLenSpec seeds)

end Spec

/-! ## The bound -/

/-- What is kept are seeds in their order. -/
theorem keepSeed_sublist (limits : CorpusLimits) (maxLen : Nat) (seeds kept : List (List UInt8))
    (bytes : Nat) :
    ∃ picked, (seeds.foldl (keepSeed limits maxLen) (kept, bytes)).1 = kept ++ picked
      ∧ picked.Sublist (seeds.map (List.take maxLen)) := by
  induction seeds generalizing kept bytes with
  | nil => exact ⟨[], by simp, .slnil⟩
  | cons seed seeds ih =>
      have hdrop : ∀ kept' bytes', kept' = kept → ∃ picked,
          (seeds.foldl (keepSeed limits maxLen) (kept', bytes')).1 = kept ++ picked
            ∧ picked.Sublist ((seed :: seeds).map (List.take maxLen)) := by
        rintro kept' bytes' rfl
        obtain ⟨picked, heq, hsub⟩ := ih kept' bytes'
        exact ⟨picked, heq, hsub.cons _⟩
      rw [List.foldl_cons, keepSeed]
      split
      · exact hdrop kept bytes rfl
      · split
        · exact hdrop kept bytes rfl
        · obtain ⟨picked, heq, hsub⟩ := ih (kept ++ [seed.take maxLen])
            (saturatingAdd bytes (seed.take maxLen).length)
          refine ⟨seed.take maxLen :: picked, ?_, hsub.cons_cons _⟩
          rw [heq, List.append_assoc, List.singleton_append]

/-- Seeds that fit are all kept. -/
theorem keepSeed_all {limits : CorpusLimits} {maxLen : Nat} {seeds kept : List (List UInt8)}
    {bytes : Nat} (hentries : kept.length + seeds.length ≤ limits.entries)
    (hbytes : bytes + (seeds.map fun seed => (seed.take maxLen).length).sum ≤ limits.bytes) :
    (seeds.foldl (keepSeed limits maxLen) (kept, bytes)).1
      = kept ++ seeds.map (List.take maxLen) := by
  induction seeds generalizing kept bytes with
  | nil => simp
  | cons seed seeds ih =>
      simp only [List.length_cons, List.map_cons, List.sum_cons] at hentries hbytes
      have hsum : saturatingAdd bytes (seed.take maxLen).length
          ≤ bytes + (seed.take maxLen).length := Nat.min_le_left _ _
      rw [List.foldl_cons, keepSeed]
      rw [if_neg (by omega), if_neg (by omega), ih, List.map_cons, List.append_assoc,
        List.singleton_append]
      · rw [List.length_append, List.length_singleton]
        omega
      · omega

/-! ## The length -/

theorem resolveMaxLenSpec_pos (spec : Option String) (largest : Nat) :
    0 < resolveMaxLenSpec spec largest := by
  cases spec with
  | none => exact (by decide : 0 < defaultMaxLen)
  | some spec =>
      rw [resolveMaxLenSpec]
      split
      · exact lt_of_lt_of_le (by decide : 0 < autoMaxLenCeiling) (Nat.le_max_left _ _)
      · cases hparse : (parseUsize spec.toList).filter (0 < ·) with
        | none => exact (by decide : 0 < defaultMaxLen)
        | some n =>
            have hpos := (Option.filter_eq_some_iff.mp hparse).2
            simpa using hpos

theorem engineMaxLen_pos (engine : FuzzEngine) (maxLenSpec : Option String)
    (seeds : List (List UInt8)) : 0 < engineMaxLen engine maxLenSpec seeds := by
  cases engine with
  | builtin => exact resolveMaxLenSpec_pos _ _
  | aflPlusPlus => exact (by decide : 0 < defaultMaxLen)

theorem prepareSeeds_eq (budget : Nat) (entriesOverride : Option Nat) (engine : FuzzEngine)
    (maxLenSpec : Option String) (seeds : List (List UInt8)) :
    prepareSeeds budget entriesOverride (programmaticArgs engine maxLenSpec seeds)
      = boundSeedCorpus (engineLimits budget entriesOverride engine maxLenSpec seeds)
          (engineMaxLen engine maxLenSpec seeds) (seeds.map lossyBytes) := by
  have hpos := engineMaxLen_pos engine maxLenSpec seeds
  have hmax : max (programmaticArgs engine maxLenSpec seeds).maxLen 1
      = engineMaxLen engine maxLenSpec seeds := Nat.max_eq_left hpos
  rw [prepareSeeds, hmax]
  simp only [programmaticArgs, List.map_map, List.map_nil, List.append_nil]
  rfl

/-! ## What arrives -/

/-- A seed arrives if and only if it survives. -/
theorem take_lossyBytes_take {seed : List UInt8} {n m : Nat} :
    (lossyBytes seed).take n = seed.take m
      ↔ KeptUpTo n seed ∧ min seed.length n = min seed.length m := by
  have hlong : seed.length ≤ (lossyBytes seed).length := length_le_lossyBytes seed
  constructor
  · intro heq
    have hlen := congrArg List.length heq
    rw [List.length_take, List.length_take] at hlen
    have hcut : seed.take n = seed.take m := by
      rw [List.take_eq_take_iff]
      omega
    refine ⟨(take_lossyBytes_iff n seed).mp (heq.trans hcut.symm), ?_⟩
    omega
  · rintro ⟨hkept, hmin⟩
    have hcut : seed.take n = seed.take m := by
      rw [List.take_eq_take_iff]
      omega
    exact ((take_lossyBytes_iff n seed).mpr hkept).trans hcut

theorem boundSeedCorpus_of_fits {limits : CorpusLimits} {maxLen : Nat}
    {seeds : List (List UInt8)} (hne : seeds ≠ []) (hentries : seeds.length ≤ limits.entries)
    (hbytes : (seeds.map fun seed => (seed.take maxLen).length).sum ≤ limits.bytes) :
    boundSeedCorpus limits maxLen seeds = seeds.map (List.take maxLen) := by
  have hall : (seeds.foldl (keepSeed limits maxLen) ([], 0)).1 = seeds.map (List.take maxLen) :=
    keepSeed_all (by simpa using hentries) (by simpa using hbytes)
  rw [boundSeedCorpus, hall, if_neg (by simpa using hne)]

/-- A bounded corpus that has all the seeds has them as they were. -/
theorem map_take_of_boundSeedCorpus {limits : CorpusLimits} {maxLen : Nat}
    {seeds expected : List (List UInt8)} (hlen : expected.length = seeds.length)
    (hne : expected ≠ [[]]) (h : boundSeedCorpus limits maxLen seeds = expected) :
    seeds.map (List.take maxLen) = expected := by
  obtain ⟨picked, hpicked, hsub⟩ := keepSeed_sublist limits maxLen seeds [] 0
  rw [List.nil_append] at hpicked
  rw [boundSeedCorpus, hpicked] at h
  split at h
  · exact absurd h.symm hne
  · subst h
    exact (hsub.eq_of_length (by rw [hlen, List.length_map])).symm

/-- Seeds within the limits arrive byte for byte exactly if each of them is
UTF-8 up to where it is cut, and is cut at the resolved length. -/
theorem seedsArrive_iff {budget : Nat} {entriesOverride : Option Nat} {engine : FuzzEngine}
    {maxLenSpec : Option String} {seeds : List (List UInt8)}
    (hwithin : WithinLimits budget entriesOverride engine maxLenSpec seeds) :
    SeedsArrive budget entriesOverride engine maxLenSpec seeds
      ↔ ∀ seed ∈ seeds, Survives engine maxLenSpec seeds seed := by
  by_cases hnil : seeds = []
  · subst hnil
    refine iff_of_true ?_ (fun seed hseed => by cases hseed)
    rw [SeedsArrive, prepareSeeds_eq]
    rfl
  · rw [SeedsArrive, prepareSeeds_eq, if_neg hnil]
    constructor
    · intro heq seed hseed
      by_cases hempty : seeds.map (List.take (resolvedMaxLen maxLenSpec seeds)) = [[]]
      · -- one empty seed, which is UTF-8
        have htake : seed.take (resolvedMaxLen maxLenSpec seeds) = [] := by
          have hmem := List.mem_map_of_mem (f := List.take (resolvedMaxLen maxLenSpec seeds)) hseed
          rw [hempty] at hmem
          exact List.mem_singleton.mp hmem
        have hpos : 0 < resolvedMaxLen maxLenSpec seeds := resolveMaxLenSpec_pos _ _
        have hseed' : seed = [] := by
          rcases List.take_eq_nil_iff.mp htake with hzero | hseed'
          · omega
          · exact hseed'
        subst hseed'
        exact ⟨⟨[], List.nil_prefix, .inl (by simp)⟩, by simp⟩
      · have hmap := map_take_of_boundSeedCorpus (by simp) hempty heq
        rw [List.map_map, List.map_eq_map_iff] at hmap
        exact take_lossyBytes_take.mp (hmap seed hseed)
    · intro hall
      have hcut : (seeds.map lossyBytes).map (List.take (engineMaxLen engine maxLenSpec seeds))
          = seeds.map (List.take (resolvedMaxLen maxLenSpec seeds)) := by
        rw [List.map_map, List.map_eq_map_iff]
        exact fun seed hseed => take_lossyBytes_take.mpr (hall seed hseed)
      have hsizes : ((seeds.map lossyBytes).map fun seed =>
          (seed.take (engineMaxLen engine maxLenSpec seeds)).length)
          = seeds.map fun seed => min seed.length (engineMaxLen engine maxLenSpec seeds) := by
        rw [List.map_map, List.map_eq_map_iff]
        intro seed hseed
        rw [Function.comp_apply, take_lossyBytes_take.mpr (hall seed hseed), List.length_take,
          Nat.min_comm, (hall seed hseed).2]
      rw [boundSeedCorpus_of_fits (by simpa using hnil) (by simpa using hwithin.entries)
        (by rw [hsizes]; exact hwithin.bytes), hcut]

/-! ## A seed that is no text -/

theorem not_seedsArrive_FF :
    ¬ SeedsArrive (128 * 1024 * 1024) none .builtin none [[0xFF]] := by
  have hcode : prepareSeeds (128 * 1024 * 1024) none (programmaticArgs .builtin none [[0xFF]])
      = [[0xEF, 0xBF, 0xBD]] := by
    decide
  rw [SeedsArrive, hcode]
  decide

/-- An empty object and a string with a letter of two bytes. -/
theorem seedsArrive_text_iff :
    SeedsArrive (128 * 1024 * 1024) none .aflPlusPlus (some "auto")
        [[0x7B, 0x7D], [0x22, 0xC3, 0xA9, 0x22]]
      ∧ ∀ seed ∈ [[0x7B, 0x7D], [0x22, 0xC3, 0xA9, 0x22]],
        Survives .aflPlusPlus (some "auto") [[0x7B, 0x7D], [0x22, 0xC3, 0xA9, 0x22]] seed := by
  have hwithin : WithinLimits (128 * 1024 * 1024) none .aflPlusPlus (some "auto")
      [[0x7B, 0x7D], [0x22, 0xC3, 0xA9, 0x22]] := by
    constructor <;> decide
  have hcode : prepareSeeds (128 * 1024 * 1024) none (programmaticArgs .aflPlusPlus (some "auto")
      [[0x7B, 0x7D], [0x22, 0xC3, 0xA9, 0x22]]) = [[0x7B, 0x7D], [0x22, 0xC3, 0xA9, 0x22]] := by
    decide +kernel
  have harrive : SeedsArrive (128 * 1024 * 1024) none .aflPlusPlus (some "auto")
      [[0x7B, 0x7D], [0x22, 0xC3, 0xA9, 0x22]] := by
    rw [SeedsArrive, hcode]
    decide +kernel
  exact ⟨harrive, (seedsArrive_iff hwithin).mp harrive⟩

end GovFuzz.Cli
