import GovFuzz.FuzzEngine.Structured

/-!
# Fuzz engine — structured text

JSON, XML, key-value lines, URL-encoded pairs, multipart bodies, CSV, HTTP
requests, INI, TOML and YAML.
-/

namespace GovFuzz.FuzzEngine

open GovFuzz.Lib

namespace MutatorSuite

variable (suite : MutatorSuite) (dictionary : Dictionary)

/-! ## JSON -/

/-- An object of one member. -/
def structuredJsonObject : Mutation (List UInt8) :=
  if suite.config.maxLen < minStructuredJsonObjectLen then throw .missing
  else do
    let key ← dictionary.chooseToken
    let value ← dictionary.chooseToken
    let escapedBudget ← Op.ofOption (checkedSub suite.config.maxLen minStructuredJsonObjectLen)
    let keyBudget := escapedBudget / 2
    let valueBudget ← Op.sub escapedBudget keyBudget
    let key := jsonEscapedFragment key keyBudget
    let value := jsonEscapedFragment value valueBudget
    withinLimit suite.config.maxLen
      (ascii "\x7b\"" ++ key ++ ascii "\":\"" ++ value ++ ascii "\"\x7d")

/-- One array item, behind a comma unless it is the first. -/
def jsonItemBody : Items → Mutation (ForInStep Items)
  | (output, itemCount) => do
      let available ← Op.ofOption (checkedSub suite.config.maxLen output.length)
      let available ← Op.ofOption (checkedSub available 1)
      let itemOverhead := if itemCount = 0 then 2 else 3
      if available < itemOverhead then pure (.done (output, itemCount))
      else do
        let token ← dictionary.chooseToken
        let budget ← Op.sub available itemOverhead
        let token := jsonEscapedFragment token budget
        let separator := if itemCount > 0 then ascii "," else []
        pure (.yield
          (output ++ separator ++ [byteOf '"'] ++ token ++ [byteOf '"'], itemCount + 1))

/-- An array of strings. -/
def structuredJsonArray : Mutation (List UInt8) :=
  if suite.config.maxLen < minStructuredJsonLen then throw .missing
  else do
    let extra ← choose maxStructuredJsonItems
    let (output, _) ← Op.upTo (suite.jsonItemBody dictionary) (1 + extra) ([byteOf '['], 0)
    pure (output ++ [byteOf ']'])

/-- An object or an array, drawn; the other one where that does not fit. -/
def structuredJson : Mutation (List UInt8) :=
  if !suite.config.structuredJson ∨ dictionary.isEmpty ∨
      suite.config.maxLen < minStructuredJsonLen then
    throw .missing
  else do
    let shape ← choose 2
    if shape = 0 then
      Op.orElse (suite.structuredJsonObject dictionary) (suite.structuredJsonArray dictionary)
    else
      Op.orElse (suite.structuredJsonArray dictionary) (suite.structuredJsonObject dictionary)

theorem structuredJsonObject_safe : Op.Safe (fun output => output.length ≤ suite.config.maxLen)
    (suite.structuredJsonObject dictionary) := by
  unfold structuredJsonObject
  refine Op.Safe.ite (fun _ => Op.Safe.missing) fun _ => ?_
  refine dictionary.chooseToken_safe.bind fun key _ => ?_
  refine dictionary.chooseToken_safe.bind fun value _ => ?_
  refine (Op.Safe.checkedSub _ _).bind fun escapedBudget _ => ?_
  refine (Op.Safe.sub (Nat.div_le_self _ _)).bind fun valueBudget _ => ?_
  exact withinLimit_safe _ _

/-- One byte is kept for the closing bracket. -/
theorem jsonItemBody_safe {items : Items} (h : items.1.length + 1 ≤ suite.config.maxLen) :
    Op.Safe (fun r => r.run.1.length + 1 ≤ suite.config.maxLen)
      (suite.jsonItemBody dictionary items) := by
  obtain ⟨output, itemCount⟩ := items
  rw [jsonItemBody]
  refine (Op.Safe.checkedSub _ _).bind fun room hroom => ?_
  refine (Op.Safe.checkedSub _ _).bind fun available havailable => ?_
  dsimp only
  refine Op.Safe.ite (fun _ => Op.Safe.pure h) fun hfits => ?_
  refine dictionary.chooseToken_safe.bind fun token _ => ?_
  refine (Op.Safe.sub (Nat.le_of_not_lt hfits)).bind fun budget hbudget => ?_
  refine Op.Safe.pure ?_
  have htoken := length_jsonEscapedFragment token budget
  have hseparator : (if itemCount > 0 then ascii "," else []).length + 2 =
      if itemCount = 0 then 2 else 3 := by
    cases itemCount with
    | zero => rfl
    | succ n => rfl
  simp only [ForInStep.run, List.length_append, List.length_singleton]
  omega

theorem structuredJsonArray_safe : Op.Safe (fun output => output.length ≤ suite.config.maxLen)
    (suite.structuredJsonArray dictionary) := by
  unfold structuredJsonArray
  refine Op.Safe.ite (fun _ => Op.Safe.missing) fun hmin => ?_
  refine (choose_safe _).bind fun extra _ => ?_
  refine (Op.Safe.upTo (fun _ => suite.jsonItemBody_safe dictionary) _ ?_).bind
    fun items hitems => ?_
  · exact Nat.le_of_not_lt hmin
  refine Op.Safe.pure ?_
  rw [List.length_append]
  exact hitems

theorem structuredJson_safe : Op.Safe (fun output => output.length ≤ suite.config.maxLen)
    (suite.structuredJson dictionary) := by
  have hobject := suite.structuredJsonObject_safe dictionary
  have harray := suite.structuredJsonArray_safe dictionary
  unfold structuredJson
  refine Op.Safe.ite (fun _ => Op.Safe.missing) fun _ => ?_
  refine (choose_safe _).bind fun shape _ => ?_
  split
  next => exact hobject.orElse harray
  next => exact harray.orElse hobject

/-! ## XML -/

/-- One element with an escaped text. -/
def structuredXml : Mutation (List UInt8) :=
  if !suite.config.structuredXml ∨ dictionary.isEmpty ∨
      suite.config.maxLen < minStructuredXmlLen then
    throw .missing
  else do
    let tagToken ← dictionary.chooseToken
    let valueToken ← dictionary.chooseToken
    let budget ← Op.ofOption (checkedSub suite.config.maxLen 6)
    let maxTagLen := clamp (budget / 2) 1 32
    let tag ← Op.ofOption (xmlNameFragment tagToken maxTagLen)
    let valueBudget ← Op.ofOption (checkedSub suite.config.maxLen (5 + 2 * tag.length))
    if valueBudget = 0 then throw .missing
    else do
      let value ← Op.ofOption (xmlTextFragment valueToken valueBudget)
      withinLimit suite.config.maxLen
        (ascii "<" ++ tag ++ ascii ">" ++ value ++ ascii "</" ++ tag ++ ascii ">")

/-- Whatever the fragments, the length is checked at the end. -/
theorem structuredXml_safe : Op.Safe (fun output => output.length ≤ suite.config.maxLen)
    (suite.structuredXml dictionary) := by
  unfold structuredXml
  refine Op.Safe.ite (fun _ => Op.Safe.missing) fun _ => ?_
  refine dictionary.chooseToken_safe.bind fun tagToken _ => ?_
  refine dictionary.chooseToken_safe.bind fun valueToken _ => ?_
  refine (Op.Safe.checkedSub _ _).bind fun budget _ => ?_
  refine (Op.Safe.ofOption fun tag _ => trivial).bind fun tag _ => ?_
  refine (Op.Safe.checkedSub _ _).bind fun valueBudget _ => ?_
  refine Op.Safe.ite (fun _ => Op.Safe.missing) fun _ => ?_
  refine (Op.Safe.ofOption fun value _ => trivial).bind fun value _ => ?_
  exact withinLimit_safe _ _

/-! ## Key-value lines -/

/-- One `key=value` line. -/
def keyValueBody : Items → Mutation (ForInStep Items)
  | (output, pairCount) => do
      let available ← Op.ofOption (checkedSub suite.config.maxLen output.length)
      if available < minStructuredKeyValueLen then pure (.done (output, pairCount))
      else do
        let keyToken ← dictionary.chooseToken
        let valueToken ← dictionary.chooseToken
        let payloadBudget ← Op.ofOption (checkedSub available structuredKeyValueOverhead)
        let keyBudget := max (payloadBudget / 2) 1
        let key ← Op.ofOption (keyValueFragment keyToken keyBudget .key)
        let valueBudget ← Op.ofOption (checkedSub payloadBudget key.length)
        if valueBudget = 0 then pure (.done (output, pairCount))
        else do
          let value ← Op.ofOption (keyValueFragment valueToken valueBudget .value)
          let sign ← choose 2
          let separator := if sign = 0 then byteOf '=' else byteOf ':'
          pure (addItem maxStructuredKeyValuePairs
            (output ++ key ++ [separator] ++ value ++ [byteOf '\n']) pairCount)

/-- `if count == 0 { None } else { Some(output) }`. -/
def someItems : Items → Mutation (List UInt8)
  | (output, count) => if count = 0 then throw .missing else pure output

theorem someItems_safe {P : List UInt8 → Prop} {items : Items} (h : P items.1) :
    Op.Safe P (someItems items) := by
  obtain ⟨output, count⟩ := items
  rw [someItems]
  refine Op.Safe.ite (fun _ => Op.Safe.missing) fun _ => ?_
  exact Op.Safe.pure h

/-- Lines of pairs. -/
def structuredKeyValue : Mutation (List UInt8) :=
  if !suite.config.structuredKeyValue ∨ dictionary.isEmpty ∨
      suite.config.maxLen < minStructuredKeyValueLen then
    throw .missing
  else do
    let extra ← choose maxStructuredKeyValuePairs
    let items ← Op.upTo (suite.keyValueBody dictionary) (1 + extra) ([], 0)
    someItems items

theorem keyValueBody_safe {items : Items} (h : items.1.length ≤ suite.config.maxLen) :
    Op.Safe (fun r => r.run.1.length ≤ suite.config.maxLen)
      (suite.keyValueBody dictionary items) := by
  obtain ⟨output, pairCount⟩ := items
  rw [keyValueBody]
  refine (Op.Safe.checkedSub _ _).bind fun available havailable => ?_
  refine Op.Safe.ite (fun _ => Op.Safe.pure h) fun _ => ?_
  refine dictionary.chooseToken_safe.bind fun keyToken _ => ?_
  refine dictionary.chooseToken_safe.bind fun valueToken _ => ?_
  refine (Op.Safe.checkedSub _ _).bind fun payloadBudget hpayload => ?_
  refine (Op.Safe.ofOption fun key _ => trivial).bind fun key _ => ?_
  refine (Op.Safe.checkedSub _ _).bind fun valueBudget hvalueBudget => ?_
  refine Op.Safe.ite (fun _ => Op.Safe.pure h) fun _ => ?_
  refine (Op.Safe.ofOption fun value hvalue => length_percentFragment hvalue).bind
    fun value hvalue => ?_
  refine (choose_safe _).bind fun sign _ => ?_
  refine Op.Safe.pure ?_
  simp only [structuredKeyValueOverhead] at hpayload
  simp only [addItem_run, List.length_append, List.length_singleton]
  omega

theorem structuredKeyValue_safe : Op.Safe (fun output => output.length ≤ suite.config.maxLen)
    (suite.structuredKeyValue dictionary) := by
  unfold structuredKeyValue
  refine Op.Safe.ite (fun _ => Op.Safe.missing) fun _ => ?_
  refine (choose_safe _).bind fun extra _ => ?_
  refine (Op.Safe.upTo (fun _ => suite.keyValueBody_safe dictionary) _ ?_).bind
    fun items hitems => ?_
  · exact Nat.zero_le _
  exact someItems_safe hitems

/-! ## URL-encoded pairs -/

/-- One pair, behind `&` when it is not the first. -/
def urlEncodedBody : Items → Mutation (ForInStep Items)
  | (output, pairCount) => do
      let available ← Op.ofOption (checkedSub suite.config.maxLen output.length)
      let pairOverhead := if pairCount = 0 then structuredUrlEncodedOverhead
        else structuredUrlEncodedOverhead + 1
      if available < pairOverhead + 2 then pure (.done (output, pairCount))
      else do
        let keyToken ← dictionary.chooseToken
        let valueToken ← dictionary.chooseToken
        let payloadBudget ← Op.ofOption (checkedSub available pairOverhead)
        let keyBudget := max (payloadBudget / 2) 1
        let key ← Op.ofOption (urlEncodedFragment keyToken keyBudget)
        let valueBudget ← Op.ofOption (checkedSub payloadBudget key.length)
        if valueBudget = 0 then pure (.done (output, pairCount))
        else do
          let value ← Op.ofOption (urlEncodedFragment valueToken valueBudget)
          let separator := if pairCount > 0 then ascii "&" else []
          pure (addItem maxStructuredUrlEncodedPairs
            (output ++ separator ++ key ++ [byteOf '='] ++ value) pairCount)

/-- A query string. -/
def structuredUrlEncoded : Mutation (List UInt8) :=
  if !suite.config.structuredUrlEncoded ∨ dictionary.isEmpty ∨
      suite.config.maxLen < minStructuredUrlEncodedLen then
    throw .missing
  else do
    let extra ← choose maxStructuredUrlEncodedPairs
    let items ← Op.upTo (suite.urlEncodedBody dictionary) (1 + extra) ([], 0)
    someItems items

/-- One turn of the loop neither panics nor exceeds the limit. -/
theorem urlEncodedBody_safe {items : Items} (h : items.1.length ≤ suite.config.maxLen) :
    Op.Safe (fun r => r.run.1.length ≤ suite.config.maxLen)
      (suite.urlEncodedBody dictionary items) := by
  obtain ⟨output, pairCount⟩ := items
  rw [urlEncodedBody]
  refine (Op.Safe.checkedSub _ _).bind fun available havailable => ?_
  dsimp only
  refine Op.Safe.ite (fun _ => Op.Safe.pure h) fun _ => ?_
  refine dictionary.chooseToken_safe.bind fun keyToken _ => ?_
  refine dictionary.chooseToken_safe.bind fun valueToken _ => ?_
  refine (Op.Safe.checkedSub _ _).bind fun payloadBudget hpayload => ?_
  refine (Op.Safe.ofOption fun key _ => trivial).bind fun key _ => ?_
  refine (Op.Safe.checkedSub _ _).bind fun valueBudget hvalueBudget => ?_
  refine Op.Safe.ite (fun _ => Op.Safe.pure h) fun _ => ?_
  refine (Op.Safe.ofOption fun value hvalue => length_percentFragment hvalue).bind
    fun value hvalue => ?_
  refine Op.Safe.pure ?_
  -- the separator is what the second overhead is larger for
  have hseparator : (if pairCount > 0 then ascii "&" else []).length + 1 =
      if pairCount = 0 then structuredUrlEncodedOverhead
      else structuredUrlEncodedOverhead + 1 := by
    cases pairCount with
    | zero => rfl
    | succ n => rfl
  simp only [addItem_run, List.length_append, List.length_singleton]
  omega

theorem structuredUrlEncoded_safe : Op.Safe (fun output => output.length ≤ suite.config.maxLen)
    (suite.structuredUrlEncoded dictionary) := by
  unfold structuredUrlEncoded
  refine Op.Safe.ite (fun _ => Op.Safe.missing) fun _ => ?_
  refine (choose_safe _).bind fun extra _ => ?_
  refine (Op.Safe.upTo (fun _ => suite.urlEncodedBody_safe dictionary) _ ?_).bind
    fun items hitems => ?_
  · exact Nat.zero_le _
  exact someItems_safe hitems

/-! ## Multipart bodies -/

/-- The boundary that separates the parts. -/
def multipartBoundary : List UInt8 := ascii "gf"
def multipartDelimiterLen : Nat := 2 + multipartBoundary.length + 2
def multipartClosingLen : Nat := 2 + multipartBoundary.length + 4
def multipartHeaderPrefix : List UInt8 := ascii "Content-Disposition: form-data; name=\""
def multipartHeaderSuffix : List UInt8 := ascii "\"\r\n\r\n"

/-- One part: delimiter, header, value and line end. -/
def multipartPartBody : Items → Mutation (ForInStep Items)
  | (output, partCount) => do
      let remaining ← Op.ofOption (checkedSub suite.config.maxLen output.length)
      let remaining ← Op.ofOption (checkedSub remaining multipartClosingLen)
      let partOverhead := multipartDelimiterLen + multipartHeaderPrefix.length +
        multipartHeaderSuffix.length + (ascii "\r\n").length
      if remaining < partOverhead + 2 then pure (.done (output, partCount))
      else do
        let nameToken ← dictionary.chooseToken
        let valueToken ← dictionary.chooseToken
        let payloadBudget ← Op.ofOption (checkedSub remaining partOverhead)
        let name ← Op.ofOption (multipartNameFragment nameToken 1)
        let valueBudget ← Op.ofOption (checkedSub payloadBudget name.length)
        if valueBudget = 0 then pure (.done (output, partCount))
        else do
          let value ← Op.ofOption (multipartValueFragment valueToken valueBudget)
          pure (addItem maxStructuredMultipartParts
            (output ++ ascii "--" ++ multipartBoundary ++ ascii "\r\n" ++ multipartHeaderPrefix ++
              name ++ multipartHeaderSuffix ++ value ++ ascii "\r\n") partCount)

/-- The parts and the closing delimiter. -/
def structuredMultipart : Mutation (List UInt8) :=
  if !suite.config.structuredMultipart ∨ dictionary.isEmpty ∨
      suite.config.maxLen < minStructuredMultipartLen then
    throw .missing
  else do
    let extra ← choose maxStructuredMultipartParts
    let (output, partCount) ← Op.upTo (suite.multipartPartBody dictionary) (1 + extra) ([], 0)
    if partCount = 0 then throw .missing
    else
      withinLimit suite.config.maxLen
        (output ++ ascii "--" ++ multipartBoundary ++ ascii "--\r\n")

theorem multipartPartBody_safe (items : Items) :
    Op.Safe (fun _ => True) (suite.multipartPartBody dictionary items) := by
  obtain ⟨output, partCount⟩ := items
  rw [multipartPartBody]
  refine (Op.Safe.checkedSub _ _).bind fun room _ => ?_
  refine (Op.Safe.checkedSub _ _).bind fun remaining _ => ?_
  dsimp only
  refine Op.Safe.ite (fun _ => Op.Safe.pure trivial) fun _ => ?_
  refine dictionary.chooseToken_safe.bind fun nameToken _ => ?_
  refine dictionary.chooseToken_safe.bind fun valueToken _ => ?_
  refine (Op.Safe.checkedSub _ _).bind fun payloadBudget _ => ?_
  refine (Op.Safe.ofOption fun name _ => trivial).bind fun name _ => ?_
  refine (Op.Safe.checkedSub _ _).bind fun valueBudget _ => ?_
  refine Op.Safe.ite (fun _ => Op.Safe.pure trivial) fun _ => ?_
  refine (Op.Safe.ofOption fun value _ => trivial).bind fun value _ => ?_
  exact Op.Safe.pure trivial

theorem structuredMultipart_safe : Op.Safe (fun output => output.length ≤ suite.config.maxLen)
    (suite.structuredMultipart dictionary) := by
  unfold structuredMultipart
  refine Op.Safe.ite (fun _ => Op.Safe.missing) fun _ => ?_
  refine (choose_safe _).bind fun extra _ => ?_
  refine (Op.Safe.upTo (I := fun _ => True) (fun items _ =>
    suite.multipartPartBody_safe dictionary items) _ trivial).bind fun items _ => ?_
  obtain ⟨output, partCount⟩ := items
  dsimp only
  refine Op.Safe.ite (fun _ => Op.Safe.missing) fun _ => ?_
  exact withinLimit_safe _ _

/-! ## CSV -/

/-- One cell of a row, behind a comma unless it is the first. -/
def csvCellBody (maxLen : Nat) : Items → Mutation (ForInStep Items)
  | (output, colCount) =>
      let cellPrefix := if colCount > 0 then 1 else 0
      if output.length + cellPrefix ≥ maxLen then pure (.done (output, colCount))
      else do
        let room ← Op.sub maxLen output.length
        let cellBudget ← Op.sub room cellPrefix
        let token ← dictionary.chooseToken
        let cell ← Op.ofOption (csvCellFragment token cellBudget)
        if cell.isEmpty then pure (.done (output, colCount))
        else
          let separator := if colCount > 0 then ascii "," else []
          pure (addItem maxStructuredCsvColumns (output ++ separator ++ cell) colCount)

/-- One row of as many cells as fit. -/
def structuredCsvRow (maxLen requestedCols : Nat) : Mutation (List UInt8) :=
  if maxLen = 0 then throw .missing
  else do
    let items ← Op.upTo (csvCellBody dictionary maxLen) requestedCols ([], 0)
    someItems items

/-- One more row, behind a line end when it is not the first. -/
def csvRowBody : Items → Mutation (ForInStep Items)
  | (output, rowCount) =>
      let rowPrefix := if output.isEmpty then 0 else 1
      if output.length + rowPrefix ≥ suite.config.maxLen then pure (.done (output, rowCount))
      else do
        let room ← Op.sub suite.config.maxLen output.length
        let rowBudget ← Op.sub room rowPrefix
        let extra ← choose maxStructuredCsvColumns
        let row ← structuredCsvRow dictionary rowBudget (1 + extra)
        if row.isEmpty then pure (.done (output, rowCount))
        else
          let separator := if output.isEmpty then [] else ascii "\n"
          pure (addItem maxStructuredCsvRows (output ++ separator ++ row) rowCount)

/-- A table of rows. -/
def structuredCsv : Mutation (List UInt8) :=
  if !suite.config.structuredCsv ∨ dictionary.isEmpty ∨
      suite.config.maxLen < minStructuredCsvLen then
    throw .missing
  else do
    let extra ← choose maxStructuredCsvRows
    let items ← Op.upTo (suite.csvRowBody dictionary) (1 + extra) ([], 0)
    someItems items

theorem csvCellBody_safe {maxLen : Nat} {items : Items} (h : items.1.length ≤ maxLen) :
    Op.Safe (fun r => r.run.1.length ≤ maxLen) (csvCellBody dictionary maxLen items) := by
  obtain ⟨output, colCount⟩ := items
  rw [csvCellBody]
  dsimp only
  have hseparator : (if colCount > 0 then ascii "," else []).length =
      if colCount > 0 then 1 else 0 := by
    split <;> rfl
  refine Op.Safe.ite (fun _ => Op.Safe.pure h) fun hroom => ?_
  refine (Op.Safe.sub h).bind fun room hsub => ?_
  refine (Op.Safe.sub ?_).bind fun cellBudget hbudget => ?_
  · dsimp only at hsub
    omega
  refine dictionary.chooseToken_safe.bind fun token _ => ?_
  refine (Op.Safe.ofOption fun cell hcell => length_csvCellFragment hcell).bind
    fun cell hcell => ?_
  refine Op.Safe.ite (fun _ => Op.Safe.pure h) fun _ => ?_
  refine Op.Safe.pure ?_
  simp only [addItem_run, List.length_append]
  dsimp only at hsub
  omega

theorem structuredCsvRow_safe (maxLen requestedCols : Nat) :
    Op.Safe (fun row => row.length ≤ maxLen)
      (structuredCsvRow dictionary maxLen requestedCols) := by
  unfold structuredCsvRow
  refine Op.Safe.ite (fun _ => Op.Safe.missing) fun _ => ?_
  refine (Op.Safe.upTo (fun _ => csvCellBody_safe dictionary) _ ?_).bind
    fun items hitems => ?_
  · exact Nat.zero_le _
  exact someItems_safe hitems

theorem csvRowBody_safe {items : Items} (h : items.1.length ≤ suite.config.maxLen) :
    Op.Safe (fun r => r.run.1.length ≤ suite.config.maxLen)
      (suite.csvRowBody dictionary items) := by
  obtain ⟨output, rowCount⟩ := items
  rw [csvRowBody]
  dsimp only
  have hseparator : (if output.isEmpty then [] else ascii "\n").length =
      if output.isEmpty then 0 else 1 := by
    split <;> rfl
  refine Op.Safe.ite (fun _ => Op.Safe.pure h) fun hroom => ?_
  refine (Op.Safe.sub h).bind fun room hsub => ?_
  refine (Op.Safe.sub ?_).bind fun rowBudget hbudget => ?_
  · dsimp only at hsub
    omega
  refine (choose_safe _).bind fun extra _ => ?_
  refine (structuredCsvRow_safe dictionary _ _).bind fun row hrow => ?_
  refine Op.Safe.ite (fun _ => Op.Safe.pure h) fun _ => ?_
  refine Op.Safe.pure ?_
  simp only [addItem_run, List.length_append]
  dsimp only at hsub
  omega

theorem structuredCsv_safe : Op.Safe (fun output => output.length ≤ suite.config.maxLen)
    (suite.structuredCsv dictionary) := by
  unfold structuredCsv
  refine Op.Safe.ite (fun _ => Op.Safe.missing) fun _ => ?_
  refine (choose_safe _).bind fun extra _ => ?_
  refine (Op.Safe.upTo (fun _ => suite.csvRowBody_safe dictionary) _ ?_).bind
    fun items hitems => ?_
  · exact Nat.zero_le _
  exact someItems_safe hitems

/-! ## HTTP requests -/

/-- A request with a path, a `Host` header and a body. -/
def structuredHttp : Mutation (List UInt8) :=
  if !suite.config.structuredHttp ∨ dictionary.isEmpty ∨
      suite.config.maxLen < minStructuredHttpLen then
    throw .missing
  else do
    let index ← choose httpMethods.length
    let method ← Op.index httpMethods index
    let pathToken ← dictionary.chooseToken
    let hostToken ← dictionary.chooseToken
    let bodyToken ← dictionary.chooseToken
    let fixedLen := method.length + (ascii " /").length + (ascii " HTTP/1.1\r\nHost: ").length +
      (ascii "\r\n\r\n").length
    let payloadBudget ← Op.ofOption (checkedSub suite.config.maxLen fixedLen)
    let pathBudget := clamp (payloadBudget / 3) 1 32
    let path ← Op.ofOption (httpPathFragment pathToken pathBudget)
    let remaining ← Op.ofOption (checkedSub payloadBudget path.length)
    if remaining = 0 then throw .missing
    else do
      let hostBudget := max (remaining / 2) 1
      let host ← Op.ofOption (httpHeaderValueFragment hostToken hostBudget)
      let bodyBudget ← Op.ofOption (checkedSub remaining host.length)
      let body := httpBodyFragment bodyToken bodyBudget
      withinLimit suite.config.maxLen (method ++ ascii " /" ++ path ++
        ascii " HTTP/1.1\r\nHost: " ++ host ++ ascii "\r\n\r\n" ++ body)

theorem structuredHttp_safe : Op.Safe (fun output => output.length ≤ suite.config.maxLen)
    (suite.structuredHttp dictionary) := by
  unfold structuredHttp
  refine Op.Safe.ite (fun _ => Op.Safe.missing) fun _ => ?_
  refine (choose_safe _).bind fun index hindex => ?_
  refine (Op.Safe.index hindex).bind fun method _ => ?_
  refine dictionary.chooseToken_safe.bind fun pathToken _ => ?_
  refine dictionary.chooseToken_safe.bind fun hostToken _ => ?_
  refine dictionary.chooseToken_safe.bind fun bodyToken _ => ?_
  refine (Op.Safe.checkedSub _ _).bind fun payloadBudget _ => ?_
  refine (Op.Safe.ofOption fun path _ => trivial).bind fun path _ => ?_
  refine (Op.Safe.checkedSub _ _).bind fun remaining _ => ?_
  refine Op.Safe.ite (fun _ => Op.Safe.missing) fun _ => ?_
  refine (Op.Safe.ofOption fun host _ => trivial).bind fun host _ => ?_
  refine (Op.Safe.checkedSub _ _).bind fun bodyBudget _ => ?_
  exact withinLimit_safe _ _

/-! ## INI, TOML and YAML -/

/-- How the three sectioned formats differ: the cap on items, the bytes of an
item beside its fragments, the least value budget, the fragments and the
layout of an item. -/
structure SectionFormat where
  cap : Nat
  overhead : Nat
  minValueBudget : Nat
  nameFragment : List UInt8 → Nat → Option (List UInt8)
  valueFragment : List UInt8 → Nat → Option (List UInt8)
  layout : List UInt8 → List UInt8 → List UInt8 → List UInt8

/-- `[section]` and one assignment. -/
def iniFormat : SectionFormat where
  cap := maxStructuredIniSections
  overhead := structuredIniOverhead
  minValueBudget := 1
  nameFragment := iniNameFragment
  valueFragment := iniValueFragment
  layout name key value :=
    ascii "[" ++ name ++ ascii "]\n" ++ key ++ ascii "=" ++ value ++ ascii "\n"

/-- `[table]` and one assignment of a basic string. -/
def tomlFormat : SectionFormat where
  cap := maxStructuredTomlTables
  overhead := structuredTomlOverhead
  minValueBudget := 2
  nameFragment := tomlBareKeyFragment
  valueFragment := tomlBasicStringFragment
  layout table key value :=
    ascii "[" ++ table ++ ascii "]\n" ++ key ++ ascii " = " ++ value ++ ascii "\n"

/-- A document of one nested mapping. -/
def yamlFormat : SectionFormat where
  cap := maxStructuredYamlDocuments
  overhead := structuredYamlOverhead
  minValueBudget := 2
  nameFragment := tomlBareKeyFragment
  valueFragment := tomlBasicStringFragment
  layout name key value := name ++ ascii ":\n  " ++ key ++ ascii ": " ++ value ++ ascii "\n"

/-- One section with one key. -/
def sectionBody (format : SectionFormat) (minLen : Nat) : Items → Mutation (ForInStep Items)
  | (output, sectionCount) => do
      let available ← Op.ofOption (checkedSub suite.config.maxLen output.length)
      if available < minLen then pure (.done (output, sectionCount))
      else do
        let sectionToken ← dictionary.chooseToken
        let keyToken ← dictionary.chooseToken
        let valueToken ← dictionary.chooseToken
        let payloadBudget ← Op.ofOption (checkedSub available format.overhead)
        let sectionBudget := clamp (payloadBudget / 3) 1 32
        let name ← Op.ofOption (format.nameFragment sectionToken sectionBudget)
        let remaining ← Op.ofOption (checkedSub payloadBudget name.length)
        let keyBudget := max (remaining / 2) 1
        let key ← Op.ofOption (format.nameFragment keyToken keyBudget)
        let valueBudget ← Op.ofOption (checkedSub remaining key.length)
        if valueBudget < format.minValueBudget then pure (.done (output, sectionCount))
        else do
          let value ← Op.ofOption (format.valueFragment valueToken valueBudget)
          pure (addItem format.cap (output ++ format.layout name key value) sectionCount)

/-- Sections of one format until the cap or the budget ends them. -/
def structuredSections (format : SectionFormat) (enabled : Bool) (minLen : Nat) :
    Mutation (List UInt8) :=
  if !enabled ∨ dictionary.isEmpty ∨ suite.config.maxLen < minLen then throw .missing
  else do
    let extra ← choose format.cap
    let (output, sectionCount) ←
      Op.upTo (suite.sectionBody dictionary format minLen) (1 + extra) ([], 0)
    if sectionCount = 0 then throw .missing else withinLimit suite.config.maxLen output

/-- The INI generator. -/
def structuredIni : Mutation (List UInt8) :=
  suite.structuredSections dictionary iniFormat suite.config.structuredIni minStructuredIniLen

/-- The TOML generator. -/
def structuredToml : Mutation (List UInt8) :=
  suite.structuredSections dictionary tomlFormat suite.config.structuredToml minStructuredTomlLen

/-- The YAML generator. -/
def structuredYaml : Mutation (List UInt8) :=
  suite.structuredSections dictionary yamlFormat suite.config.structuredYaml minStructuredYamlLen

theorem sectionBody_safe (format : SectionFormat) (minLen : Nat) (items : Items) :
    Op.Safe (fun _ => True) (suite.sectionBody dictionary format minLen items) := by
  obtain ⟨output, sectionCount⟩ := items
  rw [sectionBody]
  refine (Op.Safe.checkedSub _ _).bind fun available _ => ?_
  refine Op.Safe.ite (fun _ => Op.Safe.pure trivial) fun _ => ?_
  refine dictionary.chooseToken_safe.bind fun sectionToken _ => ?_
  refine dictionary.chooseToken_safe.bind fun keyToken _ => ?_
  refine dictionary.chooseToken_safe.bind fun valueToken _ => ?_
  refine (Op.Safe.checkedSub _ _).bind fun payloadBudget _ => ?_
  refine (Op.Safe.ofOption fun name _ => trivial).bind fun name _ => ?_
  refine (Op.Safe.checkedSub _ _).bind fun remaining _ => ?_
  refine (Op.Safe.ofOption fun key _ => trivial).bind fun key _ => ?_
  refine (Op.Safe.checkedSub _ _).bind fun valueBudget _ => ?_
  refine Op.Safe.ite (fun _ => Op.Safe.pure trivial) fun _ => ?_
  refine (Op.Safe.ofOption fun value _ => trivial).bind fun value _ => ?_
  exact Op.Safe.pure trivial

theorem structuredSections_safe (format : SectionFormat) (enabled : Bool) (minLen : Nat) :
    Op.Safe (fun output => output.length ≤ suite.config.maxLen)
      (suite.structuredSections dictionary format enabled minLen) := by
  unfold structuredSections
  refine Op.Safe.ite (fun _ => Op.Safe.missing) fun _ => ?_
  refine (choose_safe _).bind fun extra _ => ?_
  refine (Op.Safe.upTo (I := fun _ => True) (fun items _ =>
    suite.sectionBody_safe dictionary format minLen items) _ trivial).bind fun items _ => ?_
  obtain ⟨output, sectionCount⟩ := items
  dsimp only
  refine Op.Safe.ite (fun _ => Op.Safe.missing) fun _ => ?_
  exact withinLimit_safe _ _

end MutatorSuite

end GovFuzz.FuzzEngine
