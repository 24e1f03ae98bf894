import GovFuzz.FuzzEngine.BoundedRange
import GovFuzz.Lib.Checked
import GovFuzz.Lib.Occurrences
import GovFuzz.Runtrace.Readers
import Mathlib.Data.List.MinMax

/-!
# Fuzz engine — what a mutation reads

The random number generator (`rng.rs`), the dictionary (`dictionary.rs`),
typed spans (`typed.rs`), recorded comparisons (`cmplog`), the user's grammar
(`grammar.rs`) and the layout of an operation sequence: everything the
mutators of `crates/fuzz_engine/builtin/src/mutator.rs` are given beside the
input itself.
-/

namespace GovFuzz.FuzzEngine

open GovFuzz.Lib
open GovFuzz.Runtrace (CmpEntry)

/-- The bytes of an ASCII text. -/
def ascii (text : String) : List UInt8 := text.toList.map fun c => UInt8.ofNat c.toNat

/-- The byte of an ASCII character. -/
def byteOf (c : Char) : UInt8 := UInt8.ofNat c.toNat

/-! ## Random numbers -/

/-- The state of SplitMix64. -/
structure MutationRng where
  state : UInt64
  deriving DecidableEq, Repr

/-- A mutation draws random numbers, may have no result, and may panic. -/
abbrev Mutation := Op MutationRng Stop

/-- The next word of the generator. -/
def nextU64 : Mutation UInt64 := do
  let rng ← get
  let state := rng.state + 0x9e3779b97f4a7c15
  set (MutationRng.mk state)
  let value := (state ^^^ (state >>> 30)) * 0xbf58476d1ce4e5b9
  let value := (value ^^^ (value >>> 27)) * 0x94d049bb133111eb
  pure (value ^^^ (value >>> 31))

/-- The low byte of the next word. -/
def nextU8 : Mutation UInt8 := do
  let value ← nextU64
  pure value.toUInt8

/-- An index below `len`, none when there is none. -/
def chooseIndex (len : Nat) : Mutation (Option Nat) :=
  if len = 0 then pure none
  else do
    let value ← nextU64
    pure (some (value.toNat % len))

/-- `rng.choose_index(len)?`. -/
def choose (len : Nat) : Mutation Nat := do
  let index ← chooseIndex len
  Op.ofOption index

theorem nextU64_safe : Op.Safe (fun _ => True) nextU64 := fun _ => trivial

theorem nextU8_safe : Op.Safe (fun _ => True) nextU8 := fun _ => trivial

theorem chooseIndex_safe (len : Nat) :
    Op.Safe (fun index => ∀ i, index = some i → i < len) (chooseIndex len) := by
  unfold chooseIndex
  by_cases hlen : len = 0
  · rw [if_pos hlen]
    exact Op.Safe.pure nofun
  · rw [if_neg hlen]
    refine nextU64_safe.bind fun value _ => Op.Safe.pure fun i hi => ?_
    cases hi
    exact Nat.mod_lt _ (Nat.pos_of_ne_zero hlen)

theorem choose_safe (len : Nat) : Op.Safe (fun i => i < len) (choose len) :=
  (chooseIndex_safe len).bind fun _ hindex => Op.Safe.ofOption hindex

/-! ## Dictionary -/

/-- What kind of thing a token is in its source. -/
inductive DictionaryBucket
  | string
  | wideString
  | wideWideString
  | enumLiteral (typeName : String)
  | exceptionName
  | idlOperationName
  | integerConstant (typeName : String)
  deriving DecidableEq

/-- A token and its bucket. -/
structure DictionaryEntry where
  bucket : DictionaryBucket
  token : List UInt8

/-- All tokens, and the curated ones by bucket. -/
structure Dictionary where
  tokens : List (List UInt8)
  entries : List DictionaryEntry

namespace Dictionary

def isEmpty (dictionary : Dictionary) : Bool := dictionary.tokens.isEmpty

def len (dictionary : Dictionary) : Nat := dictionary.tokens.length

def get (dictionary : Dictionary) (index : Nat) : Option (List UInt8) := dictionary.tokens[index]?

def hasCuratedEntries (dictionary : Dictionary) : Bool := !dictionary.entries.isEmpty

/-- The curated tokens of one bucket. -/
def tokensForBucket (dictionary : Dictionary) (bucket : DictionaryBucket) : List (List UInt8) :=
  (dictionary.entries.filter fun entry => entry.bucket = bucket).map DictionaryEntry.token

/-- `dictionary.get(rng.choose_index(dictionary.len())?)?`. -/
def chooseToken (dictionary : Dictionary) : Mutation (List UInt8) := do
  let index ← choose dictionary.len
  Op.ofOption (dictionary.get index)

theorem chooseToken_mem (dictionary : Dictionary) :
    Op.Safe (fun token => token ∈ dictionary.tokens) dictionary.chooseToken :=
  (choose_safe dictionary.len).bind fun _ _ =>
    Op.Safe.ofOption fun _ htoken => List.mem_of_getElem? htoken

theorem chooseToken_safe (dictionary : Dictionary) :
    Op.Safe (fun _ => True) dictionary.chooseToken :=
  dictionary.chooseToken_mem.mono fun _ _ => trivial

end Dictionary

/-! ## Typed spans -/

/-- The type a span of the input is read as. -/
inductive TypedValueKind
  | boolean
  | signedInteger
  | unsignedInteger
  | float64
  | bytes
  | string
  deriving DecidableEq

/-- A span of the input and its type. -/
structure TypedSpan where
  range : ByteSpan
  kind : TypedValueKind

/-- The span is not empty and inside the input. -/
def TypedSpan.validFor (span : TypedSpan) (len : Nat) : Bool :=
  span.range.start < span.range.stop && span.range.stop ≤ len

/-- The tokens themselves, or one empty token when there are none. -/
def orEmptyToken (tokens : List (List UInt8)) : List (List UInt8) :=
  if tokens.isEmpty then [[]] else tokens

/-- The values a typed span may be replaced by. -/
def typedCandidates (kind : TypedValueKind) (dictionary : Dictionary) : List (List UInt8) :=
  match kind with
  | .boolean => [[0], [1]]
  | .signedInteger => [0, 1, 0xffffffff, 0x80000000, 0x7fffffff].map (leBytes 4)
  | .unsignedInteger => [0, 1, 0xffffffff].map (leBytes 4)
  | .float64 =>
      -- 0.0, -0.0, NaN, infinity, negative infinity
      [0, 0x8000000000000000, 0x7ff8000000000000, 0x7ff0000000000000,
        0xfff0000000000000].map (leBytes 8)
  | .bytes => orEmptyToken dictionary.tokens
  | .string =>
      if dictionary.hasCuratedEntries then orEmptyToken (dictionary.tokensForBucket .string)
      else orEmptyToken dictionary.tokens

/-! ## Recorded comparisons -/

/-- A place of the input where an operand stands, and the other operand. -/
structure SpliceCandidate where
  siteId : Nat
  offset : Nat
  replacement : List UInt8
  originalLen : Nat

/-- The first place of the needle. -/
def findSubslice (haystack needle : List UInt8) : Option Nat :=
  if needle.isEmpty ∨ haystack.length < needle.length then none
  else windowPosition needle haystack

/-- The `while let` over the occurrences of one operand from `searchFrom` on. -/
def spliceOccurrences (siteId : Nat) (input src dst : List UInt8) (searchFrom : Nat) :
    Mutation (List SpliceCandidate) :=
  if searchFrom ≤ input.length then
    match findSubslice (input.drop searchFrom) src with
    | none => pure []
    | some pos => do
        let absolute := searchFrom + pos
        let rest ← spliceOccurrences siteId input src dst (absolute + 1)
        pure (⟨siteId, absolute, dst, src.length⟩ :: rest)
  else throw (.panic .index)
termination_by input.length + 1 - searchFrom
decreasing_by omega

/-- One entry, one of its two directions. -/
def spliceDirection (input : List UInt8) (siteId : Nat) (src dst : List UInt8) :
    Mutation (List SpliceCandidate) :=
  if src.isEmpty then pure [] else spliceOccurrences siteId input src dst 0

/-- The comparisons of an execution. -/
structure CmpLog where
  entries : List CmpEntry

/-- The loop of `splice_candidates` over the entries. -/
def spliceEntries (input : List UInt8) : List CmpEntry → Mutation (List SpliceCandidate)
  | [] => pure []
  | entry :: rest => do
      let forth ← spliceDirection input entry.siteId entry.operandA entry.operandB
      let back ← spliceDirection input entry.siteId entry.operandB entry.operandA
      let others ← spliceEntries input rest
      pure (forth ++ back ++ others)

/-- The candidates of all comparisons. -/
def CmpLog.spliceCandidates (log : CmpLog) (input : List UInt8) :
    Mutation (List SpliceCandidate) := spliceEntries input log.entries

theorem findSubslice_lt {haystack needle : List UInt8} {pos : Nat}
    (h : findSubslice haystack needle = some pos) : pos < haystack.length := by
  unfold findSubslice at h
  by_cases hshort : needle.isEmpty ∨ haystack.length < needle.length
  · rw [if_pos hshort] at h
    cases h
  · rw [if_neg hshort, windowPosition_eq] at h
    have hne : needle ≠ [] := fun hempty => hshort (.inl (List.isEmpty_iff.mpr hempty))
    have hplace := head?_places_lt hne h
    have hpos := List.length_pos_iff.mpr hne
    omega

/-- The search never starts beyond the end: an occurrence lies inside the input. -/
theorem spliceOccurrences_safe (siteId : Nat) (input src dst : List UInt8) (searchFrom : Nat)
    (h : searchFrom ≤ input.length) :
    Op.Safe (fun _ => True) (spliceOccurrences siteId input src dst searchFrom) := by
  induction hn : input.length - searchFrom using Nat.strongRecOn generalizing searchFrom with
  | ind n ih =>
      rw [spliceOccurrences, if_pos h]
      cases hfind : findSubslice (input.drop searchFrom) src with
      | none => exact Op.Safe.pure trivial
      | some pos =>
          have hpos := findSubslice_lt hfind
          rw [List.length_drop] at hpos
          refine (ih (input.length - (searchFrom + pos + 1)) ?_ (searchFrom + pos + 1) ?_
            rfl).bind fun _ _ => Op.Safe.pure trivial
          · omega
          · omega

theorem spliceDirection_safe (input : List UInt8) (siteId : Nat) (src dst : List UInt8) :
    Op.Safe (fun _ => True) (spliceDirection input siteId src dst) := by
  unfold spliceDirection
  by_cases hsrc : src.isEmpty
  · rw [if_pos hsrc]
    exact Op.Safe.pure trivial
  · rw [if_neg hsrc]
    exact spliceOccurrences_safe _ _ _ _ _ (Nat.zero_le _)

theorem CmpLog.spliceCandidates_safe (log : CmpLog) (input : List UInt8) :
    Op.Safe (fun _ => True) (log.spliceCandidates input) := by
  unfold CmpLog.spliceCandidates
  induction log.entries with
  | nil => exact Op.Safe.pure trivial
  | cons entry rest ih =>
      refine (spliceDirection_safe _ _ _ _).bind fun _ _ => ?_
      refine (spliceDirection_safe _ _ _ _).bind fun _ _ => ?_
      exact ih.bind fun _ _ => Op.Safe.pure trivial

/-! ## Grammar -/

/-- A symbol of a production. -/
inductive Symbol
  | literal (bytes : List UInt8)
  | nonTerminal (name : String)
  deriving DecidableEq

/-- The symbol names a rule. -/
def Symbol.isNonTerminal : Symbol → Bool
  | .literal _ => false
  | .nonTerminal _ => true

/-- The rules by name and the start. -/
structure Grammar where
  rules : List (String × List (List Symbol))
  start : String
  deriving DecidableEq

namespace Grammar

/-- Expansions below each other. -/
def maxDepth : Nat := 48

/-- Levels from the bottom at which short alternatives are taken. -/
def collapseMargin : Nat := 8

/-- The expansions an alternative asks for. -/
def nonterminalCount (alt : List Symbol) : Nat := alt.countP Symbol.isNonTerminal

/-- The symbols of one production, until the output is long enough. -/
def expandSymbols (maxLen : Nat) (expandChild : String → List UInt8 → Mutation (List UInt8)) :
    List Symbol → List UInt8 → Mutation (List UInt8)
  | [], out => pure out
  | symbol :: rest, out =>
      if out.length ≥ maxLen then pure out
      else do
        let out ← match symbol with
          | .literal bytes => pure (out ++ bytes)
          | .nonTerminal child => expandChild child out
        expandSymbols maxLen expandChild rest out

/-- The production to expand: near the cap the first with the fewest
non-terminals, so that the derivation collapses. -/
def chooseProduction (levels : Nat) (alts : List (List Symbol)) :
    Mutation (Option (List Symbol)) :=
  if levels ≤ collapseMargin then pure (alts.argmin nonterminalCount)
  else do
    let index ← chooseIndex alts.length
    pure (index.bind fun i => alts[i]?)

/-- `expand`, by the levels left below `MAX_DEPTH`: at depth `d` there are
`maxDepth - d` of them. -/
def expand (grammar : Grammar) (maxLen : Nat) :
    Nat → String → List UInt8 → Mutation (List UInt8)
  | 0, _, out => pure out
  | levels + 1, nt, out =>
      if out.length ≥ maxLen then pure out
      else
        match grammar.rules.lookup nt with
        | none => pure out
        | some alts => do
            match ← chooseProduction (levels + 1) alts with
            | none => pure out
            | some alt => expandSymbols maxLen (expand grammar maxLen levels) alt out

/-- A sentence of the grammar, cut at the limit. -/
def generate (grammar : Grammar) (maxLen : Nat) : Mutation (List UInt8) := do
  let out ← grammar.expand maxLen maxDepth grammar.start []
  if out.isEmpty then throw .missing else pure (out.take maxLen)

theorem expandSymbols_safe {maxLen : Nat}
    {expandChild : String → List UInt8 → Mutation (List UInt8)}
    (h : ∀ child out, Op.Safe (fun _ => True) (expandChild child out)) (alt : List Symbol)
    (out : List UInt8) : Op.Safe (fun _ => True) (expandSymbols maxLen expandChild alt out) := by
  induction alt generalizing out with
  | nil => exact Op.Safe.pure trivial
  | cons symbol rest ih =>
      unfold expandSymbols
      by_cases hfull : out.length ≥ maxLen
      · rw [if_pos hfull]
        exact Op.Safe.pure trivial
      · rw [if_neg hfull]
        cases symbol with
        | literal bytes =>
            exact (Op.Safe.pure (P := fun _ => True) trivial).bind fun out _ => ih out
        | nonTerminal child => exact (h child out).bind fun out _ => ih out

theorem chooseProduction_safe (levels : Nat) (alts : List (List Symbol)) :
    Op.Safe (fun _ => True) (chooseProduction levels alts) := by
  unfold chooseProduction
  by_cases hnear : levels ≤ collapseMargin
  · rw [if_pos hnear]
    exact Op.Safe.pure trivial
  · rw [if_neg hnear]
    exact (chooseIndex_safe _).bind fun _ _ => Op.Safe.pure trivial

theorem expand_safe (grammar : Grammar) (maxLen levels : Nat) (nt : String) (out : List UInt8) :
    Op.Safe (fun _ => True) (grammar.expand maxLen levels nt out) := by
  induction levels generalizing nt out with
  | zero => exact Op.Safe.pure trivial
  | succ levels ih =>
      unfold expand
      by_cases hfull : out.length ≥ maxLen
      · rw [if_pos hfull]
        exact Op.Safe.pure trivial
      rw [if_neg hfull]
      cases grammar.rules.lookup nt with
      | none => exact Op.Safe.pure trivial
      | some alts =>
          refine (chooseProduction_safe _ alts).bind fun chosen _ => ?_
          cases chosen with
          | none => exact Op.Safe.pure trivial
          | some alt => exact expandSymbols_safe ih alt out

/-- A derivation is cut to the limit. -/
theorem generate_safe (grammar : Grammar) (maxLen : Nat) :
    Op.Safe (fun out => out.length ≤ maxLen) (grammar.generate maxLen) := by
  refine (expand_safe grammar maxLen _ _ _).bind fun out _ => ?_
  by_cases hempty : out.isEmpty
  · rw [if_pos hempty]
    exact Op.Safe.missing
  · rw [if_neg hempty]
    refine Op.Safe.pure ?_
    rw [List.length_take]
    omega

end Grammar

end GovFuzz.FuzzEngine
