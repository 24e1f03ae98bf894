import GovFuzz.FuzzEngine.Structured
import GovFuzz.Lib.Nested

/-!
# Fuzz engine — recursive outputs are balanced

An output of the recursive generator is a terminal inside one pair of
delimiters a level.  The pairs that the loop opened are kept in order; their
closing halves are what the stack of pending closes holds.
-/

namespace GovFuzz.FuzzEngine

open GovFuzz.Lib

namespace MutatorSuite

/-- What may stand innermost. -/
def IsRecursiveTerminal (word : List UInt8) : Prop :=
  ∀ byte ∈ word, isRecursiveDelimiterByte byte = false

/-- A terminal inside at least one level, and at most as many as allowed. -/
def IsRecursiveNest (output : List UInt8) : Prop :=
  ∃ depth, 1 ≤ depth ∧ depth ≤ maxStructuredRecursiveDepth ∧
    Nested structuredRecursiveDelimiters IsRecursiveTerminal depth output

/-- After so many turns, these levels are open. -/
def LevelsOpen (turns : Nat) (nest : Nest) : Prop :=
  ∃ levels : List (List UInt8 × List UInt8),
    (∀ level ∈ levels, level ∈ structuredRecursiveDelimiters) ∧ levels.length ≤ turns ∧
    nest.output = levels.flatMap Prod.fst ∧ nest.closes = levels.map Prod.snd

variable (suite : MutatorSuite) (dictionary : Dictionary)

theorem levelPair_mem {primary : List UInt8 × List UInt8} (mixed : Bool)
    (hprimary : primary ∈ structuredRecursiveDelimiters) :
    Op.Safe (fun pair => pair ∈ structuredRecursiveDelimiters) (levelPair primary mixed) := by
  unfold levelPair
  refine Op.Safe.ite (fun _ => ?_) fun _ => Op.Safe.pure hprimary
  refine (choose_safe _).bind fun index hindex => ?_
  exact (Op.Safe.index hindex).mono fun _ hpair => List.mem_of_getElem? hpair

theorem openLevel_levels {primary : List UInt8 × List UInt8} (mixed : Bool)
    (hprimary : primary ∈ structuredRecursiveDelimiters) {turns : Nat} {nest : Nest}
    (h : LevelsOpen turns nest) :
    Op.Safe (fun r => LevelsOpen (turns + 1) r.run) (suite.openLevel primary mixed nest) := by
  obtain ⟨levels, hlevels, hturns, houtput, hcloses⟩ := h
  refine (levelPair_mem mixed hprimary).bind fun pair hpair => ?_
  obtain ⟨opening, close⟩ := pair
  dsimp only
  refine Op.Safe.ite (fun _ => ?_) fun _ => ?_
  · exact Op.Safe.pure ⟨levels, hlevels, Nat.le_succ_of_le hturns, houtput, hcloses⟩
  · have hall := List.forall_mem_append.mpr ⟨hlevels, List.forall_mem_singleton.mpr hpair⟩
    refine Op.Safe.pure ⟨levels ++ [(opening, close)], hall, ?_, ?_, ?_⟩
    · rw [List.length_append, List.length_singleton]
      exact Nat.succ_le_succ hturns
    · show nest.output ++ opening = _
      rw [houtput, List.flatMap_append, List.flatMap_singleton]
    · show nest.closes ++ [close] = _
      rw [hcloses, List.map_append, List.map_singleton]

theorem innermost_terminal (nest : Nest) :
    Op.Safe (fun output => ∃ word, IsRecursiveTerminal word ∧ output = nest.output ++ word)
      (suite.innermost dictionary nest) := by
  have hnone : ∃ word, IsRecursiveTerminal word ∧ nest.output = nest.output ++ word :=
    ⟨[], nofun, (List.append_nil _).symm⟩
  unfold innermost
  refine Op.Safe.ite (fun _ => Op.Safe.pure hnone) fun _ => ?_
  refine (choose_safe _).bind fun index _ => ?_
  cases dictionary.get index with
  | none => exact Op.Safe.pure hnone
  | some token =>
      refine (Op.Safe.slice (Nat.zero_le _) ?_).bind fun terminal _ => ?_
      · omega
      refine Op.Safe.pure ⟨_, fun byte hbyte => ?_, rfl⟩
      have hkept := (List.mem_filter.mp hbyte).2
      simpa using hkept

/-- Whatever the dictionary, the limit and the state of the generator, an
output is balanced. -/
theorem structuredRecursive_balanced :
    Op.Safe IsRecursiveNest (suite.structuredRecursive dictionary) := by
  unfold structuredRecursive
  refine Op.Safe.ite (fun _ => Op.Safe.missing) fun _ => ?_
  refine (choose_safe _).bind fun index hindex => ?_
  refine (Op.Safe.index hindex).bind fun primary hprimary => ?_
  have hmem := List.mem_of_getElem? hprimary
  refine (choose_safe _).bind fun mixed _ => ?_
  refine (choose_safe _).bind fun extra hextra => ?_
  have hstart : LevelsOpen 0 ⟨[], [], 0⟩ := ⟨[], nofun, Nat.le_refl 0, rfl, rfl⟩
  have hloop := Op.Safe.upTo_turns
    (fun turns nest hnest => suite.openLevel_levels (mixed = 1) hmem hnest)
    (fun turns nest ⟨levels, hlevels, hturns, hrest⟩ =>
      ⟨levels, hlevels, Nat.le_succ_of_le hturns, hrest⟩) (1 + extra) hstart
  refine hloop.bind fun nest hnest => ?_
  obtain ⟨levels, hlevels, hturns, houtput, hcloses⟩ := hnest
  refine Op.Safe.ite (fun _ => Op.Safe.missing) fun hsome => ?_
  refine (suite.innermost_terminal dictionary nest).bind fun output hword => ?_
  obtain ⟨word, hword, rfl⟩ := hword
  refine Op.Safe.pure ⟨levels.length, ?_, ?_, ?_⟩
  · rw [hcloses] at hsome
    cases levels with
    | nil => exact absurd rfl hsome
    | cons level levels => exact Nat.succ_le_succ (Nat.zero_le _)
  · have hbudget : clamp (suite.config.maxLen / (primary.1.length + primary.2.length)) 1
        maxStructuredRecursiveDepth ≤ maxStructuredRecursiveDepth :=
      Nat.max_le.mpr ⟨by decide, Nat.min_le_right _ _⟩
    omega
  · rw [houtput, hcloses]
    exact Nested.wrap hword hlevels

example : (Op.exec (sampleSuite.structuredRecursive sampleDictionary) ⟨3⟩).1
    = .ok (ascii "<e>\x7b<e>(\x7b\x7b\x7b\x7d\x7d\x7d)</e>\x7d</e>") := by
  decide +kernel

end MutatorSuite

end GovFuzz.FuzzEngine
