import GovFuzz.FuzzEngine.Fragments

/-!
# Fuzz engine — structured inputs

The generators of `mutator.rs` that synthesize a fresh input of a known
shape from dictionary tokens.  Each keeps a byte budget of its own while it
appends fragments; the specification of each is the same: the output is not
longer than `max_len`, and no index or subtraction on the way leaves its
range.
-/

namespace GovFuzz.FuzzEngine

open GovFuzz.Lib

/-- The length cap and one switch for each structured generator. -/
structure MutatorConfig where
  maxLen : Nat
  structuredRecords : Bool
  structuredJson : Bool
  structuredXml : Bool
  structuredKeyValue : Bool
  structuredUrlEncoded : Bool
  structuredMultipart : Bool
  structuredCsv : Bool
  structuredHttp : Bool
  structuredIni : Bool
  structuredToml : Bool
  structuredYaml : Bool
  structuredChunked : Bool
  structuredRecursive : Bool

/-- Records of one synthesized input. -/
def maxStructuredRecords : Nat := 4
/-- The tag length byte and the two bytes of the value length. -/
def structuredRecordOverhead : Nat := 3
/-- Chunks behind one magic. -/
def maxStructuredChunks : Nat := 6
/-- The four length bytes of a chunk. -/
def structuredChunkOverhead : Nat := 4
/-- Bytes of a token that serve as a magic. -/
def structuredChunkedMaxMagic : Nat := 16
def minStructuredChunkedLen : Nat := 6
def minStructuredRecursiveLen : Nat := 2
/-- Levels a nested input opens at most. -/
def maxStructuredRecursiveDepth : Nat := 512
/-- Bytes of the innermost token. -/
def structuredRecursiveTerminalMax : Nat := 32
/-- A record with a tag and a value of one byte each. -/
def minStructuredRecordFieldLen : Nat := structuredRecordOverhead + 2
def minStructuredRecordLen : Nat := 1 + minStructuredRecordFieldLen
/-- Items of one array. -/
def maxStructuredJsonItems : Nat := 3
def minStructuredJsonLen : Nat := 2
/-- `{"k":"v"}` without the key and the value. -/
def minStructuredJsonObjectLen : Nat := 7
def minStructuredXmlLen : Nat := 8
/-- Pairs of `key=value` lines. -/
def maxStructuredKeyValuePairs : Nat := 4
def structuredKeyValueOverhead : Nat := 2
def minStructuredKeyValueLen : Nat := 4
/-- Pairs of one query string. -/
def maxStructuredUrlEncodedPairs : Nat := 4
def structuredUrlEncodedOverhead : Nat := 1
def minStructuredUrlEncodedLen : Nat := 3
/-- Parts of one multipart body. -/
def maxStructuredMultipartParts : Nat := 3
def minStructuredMultipartLen : Nat := 61
/-- Rows of one table. -/
def maxStructuredCsvRows : Nat := 4
/-- Cells of one row. -/
def maxStructuredCsvColumns : Nat := 3
def minStructuredCsvLen : Nat := 1
def minStructuredHttpLen : Nat := 28
/-- Sections of one INI file. -/
def maxStructuredIniSections : Nat := 3
/-- Bytes set aside beside the three tokens of an INI section. -/
def structuredIniOverhead : Nat := 5
def minStructuredIniLen : Nat := structuredIniOverhead + 3
/-- Tables of one TOML file. -/
def maxStructuredTomlTables : Nat := 3
/-- Bytes set aside beside the three tokens of a TOML table. -/
def structuredTomlOverhead : Nat := 8
def minStructuredTomlLen : Nat := structuredTomlOverhead + 3
/-- Documents of one YAML stream. -/
def maxStructuredYamlDocuments : Nat := 3
/-- Bytes set aside beside the three tokens of a YAML document. -/
def structuredYamlOverhead : Nat := 9
def minStructuredYamlLen : Nat := structuredYamlOverhead + 3

/-- The pairs that nested inputs are built from. -/
def structuredRecursiveDelimiters : List (List UInt8 × List UInt8) :=
  [(ascii "(", ascii ")"), (ascii "[", ascii "]"), (ascii "\x7b", ascii "\x7d"),
    (ascii "<e>", ascii "</e>")]

/-- The verbs a request line starts with. -/
def httpMethods : List (List UInt8) := [ascii "GET", ascii "POST", ascii "PUT", ascii "DELETE"]

/-- The output and the number of items in it. -/
abbrev Items := List UInt8 × Nat

/-- One more item: `break` when the cap is reached. -/
def addItem (cap : Nat) (output : List UInt8) (count : Nat) : ForInStep Items :=
  if count + 1 = cap then .done (output, count + 1) else .yield (output, count + 1)

@[simp] theorem addItem_run (cap : Nat) (output : List UInt8) (count : Nat) :
    (addItem cap output count).run = (output, count + 1) := by
  unfold addItem
  split <;> rfl

/-- `if output.len() <= self.config.max_len { Some(output) } else { None }`. -/
def withinLimit (maxLen : Nat) (output : List UInt8) : Mutation (List UInt8) :=
  if output.length ≤ maxLen then pure output else throw .missing

theorem withinLimit_safe (maxLen : Nat) (output : List UInt8) :
    Op.Safe (fun output => output.length ≤ maxLen) (withinLimit maxLen output) := by
  unfold withinLimit
  by_cases h : output.length ≤ maxLen
  · rw [if_pos h]
    exact Op.Safe.pure h
  · rw [if_neg h]
    exact Op.Safe.missing

/-- The mutators under one configuration. -/
structure MutatorSuite where
  config : MutatorConfig

namespace MutatorSuite

variable (suite : MutatorSuite) (dictionary : Dictionary)

/-! ## Records -/

/-- One `[tag length][tag][u16 length][value]` record. -/
def recordBody : Items → Mutation (ForInStep Items)
  | (output, recordCount) =>
      if output.length + minStructuredRecordFieldLen > suite.config.maxLen then
        pure (.done (output, recordCount))
      else do
        let tag ← dictionary.chooseToken
        let value ← dictionary.chooseToken
        let available ← Op.ofOption (checkedSub suite.config.maxLen output.length)
        let payloadBudget ← Op.ofOption (checkedSub available structuredRecordOverhead)
        if payloadBudget < 2 then pure (.done (output, recordCount))
        else do
          let tagBudget := clamp (payloadBudget / 2) 1 255
          let tagLen := min tag.length tagBudget
          let valueBudget ← Op.ofOption (checkedSub payloadBudget tagLen)
          let valueLen := min (min value.length valueBudget) 65535
          if tagLen = 0 ∨ valueLen = 0 then pure (.done (output, recordCount))
          else do
            let tagBytes ← Op.slice tag 0 tagLen
            let valueBytes ← Op.slice value 0 valueLen
            pure (addItem maxStructuredRecords
              (output ++ [UInt8.ofNat tagLen] ++ tagBytes ++ leBytes 2 valueLen ++ valueBytes)
              recordCount)

/-- A count byte and that many tagged records. -/
def structuredRecord : Mutation (List UInt8) :=
  if !suite.config.structuredRecords ∨ dictionary.isEmpty ∨
      suite.config.maxLen < minStructuredRecordLen then
    throw .missing
  else do
    let extra ← choose maxStructuredRecords
    let (output, recordCount) ←
      Op.upTo (suite.recordBody dictionary) (1 + extra) ([0], 0)
    if recordCount = 0 then throw .missing
    else Op.assign output 0 (UInt8.ofNat recordCount)

theorem recordBody_safe {items : Items}
    (h : 0 < items.1.length ∧ items.1.length ≤ suite.config.maxLen) :
    Op.Safe (fun r => 0 < r.run.1.length ∧ r.run.1.length ≤ suite.config.maxLen)
      (suite.recordBody dictionary items) := by
  obtain ⟨output, recordCount⟩ := items
  rw [recordBody]
  refine Op.Safe.ite (fun _ => Op.Safe.pure h) fun hroom => ?_
  refine dictionary.chooseToken_safe.bind fun tag _ => ?_
  refine dictionary.chooseToken_safe.bind fun value _ => ?_
  refine (Op.Safe.checkedSub _ _).bind fun available havailable => ?_
  refine (Op.Safe.checkedSub _ _).bind fun payloadBudget hbudget => ?_
  refine Op.Safe.ite (fun _ => Op.Safe.pure h) fun hpayload => ?_
  refine (Op.Safe.checkedSub _ _).bind fun valueBudget hvalue => ?_
  dsimp only
  refine Op.Safe.ite (fun _ => Op.Safe.pure h) fun hne => ?_
  refine (Op.Safe.slice (Nat.zero_le _) (Nat.min_le_left _ _)).bind fun tagBytes htag => ?_
  refine (Op.Safe.slice (Nat.zero_le _) ?_).bind fun valueBytes hvalueBytes => ?_
  · omega
  refine Op.Safe.pure ?_
  subst htag hvalueBytes
  simp only [structuredRecordOverhead] at hbudget
  simp only [addItem_run, List.length_append, List.length_singleton, List.drop_zero,
    List.length_take, leBytes_length]
  omega

theorem structuredRecord_safe : Op.Safe (fun output => output.length ≤ suite.config.maxLen)
    (suite.structuredRecord dictionary) := by
  unfold structuredRecord
  refine Op.Safe.ite (fun _ => Op.Safe.missing) fun hgate => ?_
  have hmin : minStructuredRecordLen ≤ suite.config.maxLen := by omega
  refine (choose_safe _).bind fun extra _ => ?_
  refine (Op.Safe.upTo (fun items => suite.recordBody_safe dictionary) _ ?_).bind
    fun items hitems => ?_
  · exact ⟨Nat.one_pos, Nat.le_trans (by decide) hmin⟩
  obtain ⟨output, recordCount⟩ := items
  dsimp only
  refine Op.Safe.ite (fun _ => Op.Safe.missing) fun _ => ?_
  refine (Op.Safe.assign hitems.1).mono fun output' houtput => ?_
  rw [houtput, List.length_set]
  exact hitems.2

/-! ## Chunks -/

/-- One `[u32 length][payload]` chunk, in the byte order drawn for the input. -/
def chunkBody (bigEndian : Bool) (output : List UInt8) : Mutation (ForInStep (List UInt8)) :=
  if output.length + structuredChunkOverhead + 1 > suite.config.maxLen then pure (.done output)
  else do
    let payload ← dictionary.chooseToken
    let available ←
      Op.ofOption (checkedSub suite.config.maxLen (output.length + structuredChunkOverhead))
    let payloadLen := min (min payload.length available) (2 ^ 32 - 1)
    if payloadLen = 0 then pure (.done output)
    else do
      let lenBytes := if bigEndian then beBytes 4 payloadLen else leBytes 4 payloadLen
      let payloadBytes ← Op.slice payload 0 payloadLen
      pure (.yield (output ++ lenBytes ++ payloadBytes))

/-- A magic and length-prefixed chunks behind it. -/
def structuredChunked : Mutation (List UInt8) :=
  if !suite.config.structuredChunked ∨ dictionary.isEmpty ∨
      suite.config.maxLen < minStructuredChunkedLen then
    throw .missing
  else do
    let magic ← dictionary.chooseToken
    let magicLen := min (min magic.length structuredChunkedMaxMagic) suite.config.maxLen
    if magicLen = 0 then throw .missing
    else do
      let endian ← choose 2
      let output ← Op.slice magic 0 magicLen
      let extra ← choose maxStructuredChunks
      let output ← Op.upTo (suite.chunkBody dictionary (endian = 1)) (1 + extra) output
      if output.length ≤ magicLen then throw .missing else pure output

theorem chunkBody_safe (bigEndian : Bool) {output : List UInt8}
    (h : output.length ≤ suite.config.maxLen) :
    Op.Safe (fun r => r.run.length ≤ suite.config.maxLen)
      (suite.chunkBody dictionary bigEndian output) := by
  unfold chunkBody
  refine Op.Safe.ite (fun _ => Op.Safe.pure h) fun hroom => ?_
  refine dictionary.chooseToken_safe.bind fun payload _ => ?_
  refine (Op.Safe.checkedSub _ _).bind fun available havailable => ?_
  dsimp only
  refine Op.Safe.ite (fun _ => Op.Safe.pure h) fun _ => ?_
  refine (Op.Safe.slice (Nat.zero_le _) ?_).bind fun payloadBytes hpayload => ?_
  · omega
  refine Op.Safe.pure ?_
  have hlen : (if bigEndian then
      beBytes 4 (min (min payload.length available) (2 ^ 32 - 1))
      else leBytes 4 (min (min payload.length available) (2 ^ 32 - 1))).length = 4 := by
    split
    · rw [beBytes, List.length_reverse, leBytes_length]
    · exact leBytes_length _ _
  simp only [structuredChunkOverhead] at havailable
  subst hpayload
  simp only [ForInStep.run, List.length_append, hlen, List.drop_zero, List.length_take]
  omega

theorem structuredChunked_safe : Op.Safe (fun output => output.length ≤ suite.config.maxLen)
    (suite.structuredChunked dictionary) := by
  unfold structuredChunked
  refine Op.Safe.ite (fun _ => Op.Safe.missing) fun _ => ?_
  refine dictionary.chooseToken_safe.bind fun magic _ => ?_
  dsimp only
  refine Op.Safe.ite (fun _ => Op.Safe.missing) fun _ => ?_
  refine (choose_safe _).bind fun endian _ => ?_
  refine (Op.Safe.slice (Nat.zero_le _) ?_).bind fun header hheader => ?_
  · omega
  refine (choose_safe _).bind fun extra _ => ?_
  refine (Op.Safe.upTo (fun _ => suite.chunkBody_safe dictionary _) _ ?_).bind
    fun output houtput => ?_
  · subst hheader
    rw [List.drop_zero, List.length_take]
    omega
  refine Op.Safe.ite (fun _ => Op.Safe.missing) fun _ => ?_
  exact Op.Safe.pure houtput

/-! ## Nested delimiters -/

/-- A byte of some delimiter, kept out of the innermost token. -/
def isRecursiveDelimiterByte (byte : UInt8) : Bool :=
  byte ∈ ascii "()[]\x7b\x7d<>/"

/-- The opened levels: output, pending closes (innermost last) and their bytes. -/
structure Nest where
  output : List UInt8
  closes : List (List UInt8)
  closeReserve : Nat

/-- The delimiter pair of one level. -/
def levelPair (primary : List UInt8 × List UInt8) (mixed : Bool) :
    Mutation (List UInt8 × List UInt8) :=
  if mixed then do
    let index ← choose structuredRecursiveDelimiters.length
    Op.index structuredRecursiveDelimiters index
  else pure primary

/-- One more level, while its opening and its close still fit. -/
def openLevel (primary : List UInt8 × List UInt8) (mixed : Bool) (nest : Nest) :
    Mutation (ForInStep Nest) := do
  let (opening, close) ← levelPair primary mixed
  if nest.output.length + opening.length + nest.closeReserve + close.length
      > suite.config.maxLen then
    pure (.done nest)
  else
    pure (.yield ⟨nest.output ++ opening, nest.closes ++ [close],
      nest.closeReserve + close.length⟩)

/-- The optional innermost terminal, without delimiter bytes. -/
def innermost (nest : Nest) : Mutation (List UInt8) :=
  if dictionary.isEmpty then pure nest.output
  else do
    let index ← choose dictionary.len
    match dictionary.get index with
    | none => pure nest.output
    | some token =>
        let room := suite.config.maxLen - (nest.output.length + nest.closeReserve)
        let take := min (min token.length room) structuredRecursiveTerminalMax
        let terminal ← Op.slice token 0 take
        pure (nest.output ++ terminal.filter fun byte => !isRecursiveDelimiterByte byte)

/-- Nested delimiters around an optional token. -/
def structuredRecursive : Mutation (List UInt8) :=
  if !suite.config.structuredRecursive ∨ suite.config.maxLen < minStructuredRecursiveLen then
    throw .missing
  else do
    let index ← choose structuredRecursiveDelimiters.length
    let primary ← Op.index structuredRecursiveDelimiters index
    let mixed ← choose 2
    let minUnit := primary.1.length + primary.2.length
    let depthBudget := clamp (suite.config.maxLen / minUnit) 1 maxStructuredRecursiveDepth
    let extra ← choose depthBudget
    let nest ← Op.upTo (suite.openLevel primary (mixed = 1)) (1 + extra) ⟨[], [], 0⟩
    if nest.closes.isEmpty then throw .missing
    else do
      let output ← suite.innermost dictionary nest
      pure (output ++ nest.closes.reverse.flatten)

theorem levelPair_safe (primary : List UInt8 × List UInt8) (mixed : Bool) :
    Op.Safe (fun _ => True) (levelPair primary mixed) := by
  unfold levelPair
  refine Op.Safe.ite (fun _ => ?_) fun _ => Op.Safe.pure trivial
  refine (choose_safe _).bind fun index hindex => ?_
  exact (Op.Safe.index hindex).mono fun _ _ => trivial

/-- Room is kept for every pending close. -/
def Nest.Fits (maxLen : Nat) (nest : Nest) : Prop :=
  nest.output.length + nest.closeReserve ≤ maxLen ∧
    nest.closes.flatten.length = nest.closeReserve

theorem openLevel_safe (primary : List UInt8 × List UInt8) (mixed : Bool) {nest : Nest}
    (h : nest.Fits suite.config.maxLen) :
    Op.Safe (fun r => r.run.Fits suite.config.maxLen) (suite.openLevel primary mixed nest) := by
  refine (levelPair_safe primary mixed).bind fun pair _ => ?_
  obtain ⟨opening, close⟩ := pair
  dsimp only
  refine Op.Safe.ite (fun _ => Op.Safe.pure h) fun hroom => ?_
  refine Op.Safe.pure ⟨?_, ?_⟩
  · show (nest.output ++ opening).length + (nest.closeReserve + close.length) ≤ _
    rw [List.length_append]
    omega
  · show (nest.closes ++ [close]).flatten.length = nest.closeReserve + close.length
    rw [List.flatten_append, List.length_append, h.2, List.flatten_singleton]

theorem innermost_safe {nest : Nest} (h : nest.Fits suite.config.maxLen) :
    Op.Safe (fun output => output.length + nest.closeReserve ≤ suite.config.maxLen)
      (suite.innermost dictionary nest) := by
  unfold innermost
  refine Op.Safe.ite (fun _ => Op.Safe.pure h.1) fun _ => ?_
  refine (choose_safe _).bind fun index _ => ?_
  cases dictionary.get index with
  | none => exact Op.Safe.pure h.1
  | some token =>
      refine (Op.Safe.slice (Nat.zero_le _) ?_).bind fun terminal hterminal => ?_
      · omega
      refine Op.Safe.pure ?_
      have hfilter := List.length_filter_le (fun byte => !isRecursiveDelimiterByte byte) terminal
      have hfits := h.1
      have hlen : terminal.length ≤
          suite.config.maxLen - (nest.output.length + nest.closeReserve) := by
        rw [hterminal, List.drop_zero, List.length_take]
        omega
      rw [List.length_append]
      omega

theorem structuredRecursive_safe : Op.Safe (fun output => output.length ≤ suite.config.maxLen)
    (suite.structuredRecursive dictionary) := by
  unfold structuredRecursive
  refine Op.Safe.ite (fun _ => Op.Safe.missing) fun _ => ?_
  refine (choose_safe _).bind fun index hindex => ?_
  refine (Op.Safe.index hindex).bind fun primary _ => ?_
  refine (choose_safe _).bind fun mixed _ => ?_
  refine (choose_safe _).bind fun extra _ => ?_
  refine (Op.Safe.upTo (fun _ => suite.openLevel_safe primary _) _ ?_).bind
    fun nest hnest => ?_
  · exact ⟨Nat.zero_le _, rfl⟩
  refine Op.Safe.ite (fun _ => Op.Safe.missing) fun _ => ?_
  refine (suite.innermost_safe dictionary hnest).bind fun output houtput => ?_
  refine Op.Safe.pure ?_
  have hcloses : nest.closes.reverse.flatten.length = nest.closeReserve := by
    rw [← hnest.2, List.length_flatten, List.length_flatten, List.map_reverse,
      List.sum_reverse]
  rw [List.length_append, hcloses]
  exact houtput

/-- Every mutation on, outputs of at most 24 bytes. -/
def sampleSuite : MutatorSuite where
  config := ⟨24, true, true, true, true, true, true, true, true, true, true, true, true, true⟩

end MutatorSuite

/-- Two tokens that every text format has to quote. -/
def sampleDictionary : Dictionary := ⟨[ascii "a\"", ascii "b,c"], []⟩

end GovFuzz.FuzzEngine
