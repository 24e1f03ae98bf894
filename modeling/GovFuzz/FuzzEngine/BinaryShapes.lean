import GovFuzz.FuzzEngine.Shapes
import GovFuzz.Lib.Framed

/-!
# Fuzz engine — records and chunks are read back

What a parser of the two binary formats reads of an output: records of a tag
and a value, each behind its length and as many as the first byte says; or a
magic and chunks, each behind a length of four bytes, to the end.  A length
is cut to what its field can hold before the bytes are, so the fields never
wrap.
-/

namespace GovFuzz.FuzzEngine

open GovFuzz.Lib

/-- Some bytes from the front of a token. -/
def TokenPrefix (dictionary : Dictionary) (bytes : List UInt8) : Prop :=
  bytes ≠ [] ∧ ∃ token ∈ dictionary.tokens, bytes <+: token

/-! ## The formats -/

structure TaggedRecord where
  tag : List UInt8
  value : List UInt8

/-- `[u8 tag length][tag][u16 value length][value]`. -/
def TaggedRecord.bytes (record : TaggedRecord) : List UInt8 :=
  [UInt8.ofNat record.tag.length] ++ record.tag ++ leBytes 2 record.value.length ++ record.value

def readRecord (bytes : List UInt8) : Option (TaggedRecord × List UInt8) := do
  let (tag, bytes) ← readPiece 1 leNat bytes
  let (value, bytes) ← readPiece 2 leNat bytes
  return (⟨tag, value⟩, bytes)

/-- A count and so many records, and nothing behind them. -/
def readRecords : List UInt8 → Option (List TaggedRecord)
  | [] => none
  | count :: bytes =>
      match readExactly readRecord count.toNat bytes with
      | some (records, []) => some records
      | _ => none

/-- `[u32 length][payload]`. -/
def chunkBytes (bigEndian : Bool) (payload : List UInt8) : List UInt8 :=
  (if bigEndian then beBytes 4 payload.length else leBytes 4 payload.length) ++ payload

def readChunk (bigEndian : Bool) (bytes : List UInt8) : Option (List UInt8 × List UInt8) :=
  readPiece 4 (if bigEndian then beNat else leNat) bytes

/-- Both lengths fit in their fields. -/
structure TaggedRecord.Fits (record : TaggedRecord) : Prop where
  tag : record.tag ≠ []
  tagLen : record.tag.length < 256
  value : record.value ≠ []
  valueLen : record.value.length < 65536

theorem readRecord_append {record : TaggedRecord} (h : record.Fits) (rest : List UInt8) :
    readRecord (record.bytes ++ rest) = some (record, rest) := by
  have htagLen : leNat [UInt8.ofNat record.tag.length] = record.tag.length := by
    simp only [leNat, UInt8.toNat_ofNat']
    have hlen := h.tagLen
    omega
  have hvalueLen : leNat (leBytes 2 record.value.length) = record.value.length :=
    leNat_leBytes (by have hlen := h.valueLen; omega)
  have hheader : [UInt8.ofNat record.tag.length].length = 1 := rfl
  have htag := readPiece_append hheader htagLen h.tag
    (leBytes 2 record.value.length ++ record.value ++ rest)
  have hvalue := readPiece_append (leBytes_length 2 _) hvalueLen h.value rest
  have hbytes : record.bytes ++ rest = [UInt8.ofNat record.tag.length] ++ record.tag
      ++ (leBytes 2 record.value.length ++ record.value ++ rest) := by
    simp only [TaggedRecord.bytes, List.append_assoc]
  simp only [readRecord, hbytes, htag, Option.bind_eq_bind, Option.bind_some, hvalue]
  rfl

theorem readRecords_flatMap {records : List TaggedRecord} (h : ∀ record ∈ records, record.Fits)
    (hcount : records.length < 256) :
    readRecords (UInt8.ofNat records.length :: records.flatMap TaggedRecord.bytes)
      = some records := by
  have hlen : (UInt8.ofNat records.length).toNat = records.length := by
    rw [UInt8.toNat_ofNat']
    omega
  have hread := readExactly_flatMap (fun record hrecord => readRecord_append (h record hrecord)) []
  rw [List.append_nil] at hread
  simp only [readRecords, hlen, hread]

theorem readChunk_append (bigEndian : Bool) {payload : List UInt8} (hne : payload ≠ [])
    (hlen : payload.length < 2 ^ 32) (rest : List UInt8) :
    readChunk bigEndian (chunkBytes bigEndian payload ++ rest) = some (payload, rest) := by
  have hpow : payload.length < 256 ^ 4 := by omega
  cases bigEndian with
  | true => exact readPiece_append (beBytes_length 4 _) (beNat_beBytes hpow) hne rest
  | false => exact readPiece_append (leBytes_length 4 _) (leNat_leBytes hpow) hne rest

/-! ## Records -/

/-- A record of the dictionary whose lengths fit. -/
def RecordOf (dictionary : Dictionary) (record : TaggedRecord) : Prop :=
  record.Fits ∧ TokenPrefix dictionary record.tag ∧ TokenPrefix dictionary record.value

/-- What the loop over the records wrote, behind the byte for their count. -/
def RecordsWritten (dictionary : Dictionary) : (turns : Nat) → Items → Prop :=
  Written (fun records => 0 :: records.flatMap TaggedRecord.bytes)
    fun records => ∀ record ∈ records, RecordOf dictionary record

/-- An output that is read as records of the dictionary. -/
def ReadsAsRecords (dictionary : Dictionary) (output : List UInt8) : Prop :=
  ∃ records, readRecords output = some records ∧ 1 ≤ records.length ∧ records.length ≤ 4
    ∧ ∀ record ∈ records, TokenPrefix dictionary record.tag ∧ TokenPrefix dictionary record.value

/-- An output that is a magic and chunks of the dictionary. -/
def ReadsAsChunks (dictionary : Dictionary) (output : List UInt8) : Prop :=
  ∃ magic body bigEndian chunks, output = magic ++ body
    ∧ TokenPrefix dictionary magic ∧ magic.length ≤ 16
    ∧ readToEnd (readChunk bigEndian) body = some chunks
    ∧ 1 ≤ chunks.length ∧ chunks.length ≤ 6 ∧ ∀ chunk ∈ chunks, TokenPrefix dictionary chunk

namespace MutatorSuite

variable (suite : MutatorSuite) (dictionary : Dictionary)

theorem tokenPrefix_take {dictionary : Dictionary} {token : List UInt8} {n : Nat}
    (htoken : token ∈ dictionary.tokens) (hpos : n ≠ 0) (hlen : n ≤ token.length) :
    TokenPrefix dictionary (token.take n) := by
  refine ⟨?_, token, htoken, List.take_prefix n token⟩
  rw [← List.length_pos_iff, List.length_take]
  omega

/-- One turn of the loop writes one record at most. -/
theorem recordBody_written {turns : Nat} {items : Items}
    (h : RecordsWritten dictionary turns items) :
    Op.Safe (fun r => RecordsWritten dictionary (turns + 1) r.run)
      (suite.recordBody dictionary items) := by
  have hdone : RecordsWritten dictionary (turns + 1) items := h.later
  obtain ⟨records, rfl, hturns, hrecords⟩ := h
  rw [recordBody]
  refine Op.Safe.ite (fun _ => Op.Safe.pure hdone) fun _ => ?_
  refine dictionary.chooseToken_mem.bind fun tag htag => ?_
  refine dictionary.chooseToken_mem.bind fun value hvalue => ?_
  refine (Op.Safe.checkedSub _ _).bind fun available _ => ?_
  refine (Op.Safe.checkedSub _ _).bind fun payloadBudget _ => ?_
  refine Op.Safe.ite (fun _ => Op.Safe.pure hdone) fun _ => ?_
  refine (Op.Safe.checkedSub _ _).bind fun valueBudget _ => ?_
  dsimp only
  generalize htagLen : min tag.length (clamp (payloadBudget / 2) 1 255) = tagLen
  generalize hvalueLen : min (min value.length valueBudget) 65535 = valueLen
  have htagLe : tagLen ≤ tag.length ∧ tagLen < 256 := by
    unfold clamp at htagLen
    omega
  have hvalueLe : valueLen ≤ value.length ∧ valueLen < 65536 := by omega
  refine Op.Safe.ite (fun _ => Op.Safe.pure hdone) fun hne => ?_
  refine (Op.Safe.slice (Nat.zero_le _) htagLe.1).bind fun tagBytes htagBytes => ?_
  refine (Op.Safe.slice (Nat.zero_le _) hvalueLe.1).bind fun valueBytes hvalueBytes => ?_
  rw [List.drop_zero] at htagBytes hvalueBytes
  have htagPrefix : TokenPrefix dictionary tagBytes := by
    rw [htagBytes]
    exact tokenPrefix_take htag (by omega) htagLe.1
  have hvaluePrefix : TokenPrefix dictionary valueBytes := by
    rw [hvalueBytes]
    exact tokenPrefix_take hvalue (by omega) hvalueLe.1
  have htagCount : tagBytes.length = tagLen := by
    rw [htagBytes, List.length_take]
    omega
  have hvalueCount : valueBytes.length = valueLen := by
    rw [hvalueBytes, List.length_take]
    omega
  have hrecord : RecordOf dictionary ⟨tagBytes, valueBytes⟩ := by
    refine ⟨⟨htagPrefix.1, ?_, hvaluePrefix.1, ?_⟩, htagPrefix, hvaluePrefix⟩
    · rw [htagCount]
      exact htagLe.2
    · rw [hvalueCount]
      exact hvalueLe.2
  have hall := List.forall_mem_append.mpr ⟨hrecords, List.forall_mem_singleton.mpr hrecord⟩
  refine Op.Safe.pure ?_
  rw [addItem_run]
  refine Written.concat hturns hall ?_
  simp [TaggedRecord.bytes, htagCount, hvalueCount]

theorem structuredRecord_reads :
    Op.Safe (ReadsAsRecords dictionary) (suite.structuredRecord dictionary) := by
  unfold structuredRecord
  refine Op.Safe.ite (fun _ => Op.Safe.missing) fun _ => ?_
  refine (choose_safe _).bind fun extra hextra => ?_
  have hstart : RecordsWritten dictionary 0 ([0], 0) := Written.start nofun
  refine (upTo_written (fun turns items => suite.recordBody_written dictionary) _
    hstart).bind fun items hitems => ?_
  obtain ⟨records, rfl, hturns, hrecords⟩ := hitems
  dsimp only
  refine Op.Safe.ite (fun _ => Op.Safe.missing) fun hsome => ?_
  refine (Op.Safe.assign (by simp)).mono fun output houtput => ?_
  rw [List.set_cons_zero] at houtput
  have hfour : records.length ≤ 4 := by
    have hcap : maxStructuredRecords = 4 := rfl
    omega
  refine ⟨records, ?_, by omega, hfour, fun record hrecord => (hrecords record hrecord).2⟩
  rw [houtput]
  exact readRecords_flatMap (fun record hrecord => (hrecords record hrecord).1) (by omega)

/-! ## Chunks -/

/-- The output of the loop behind the magic. -/
def ChunksWritten (dictionary : Dictionary) (bigEndian : Bool) (magic : List UInt8) (turns : Nat)
    (output : List UInt8) : Prop :=
  ∃ chunks : List (List UInt8), output = magic ++ chunks.flatMap (chunkBytes bigEndian)
    ∧ chunks.length ≤ turns
    ∧ ∀ chunk ∈ chunks, TokenPrefix dictionary chunk ∧ chunk.length < 2 ^ 32

/-- One turn of the loop writes one chunk at most. -/
theorem chunkBody_written {bigEndian : Bool} {magic : List UInt8} {turns : Nat}
    {output : List UInt8} (h : ChunksWritten dictionary bigEndian magic turns output) :
    Op.Safe (fun r => ChunksWritten dictionary bigEndian magic (turns + 1) r.run)
      (suite.chunkBody dictionary bigEndian output) := by
  obtain ⟨chunks, rfl, hturns, hchunks⟩ := h
  have hdone : ChunksWritten dictionary bigEndian magic (turns + 1)
      (magic ++ chunks.flatMap (chunkBytes bigEndian)) := ⟨chunks, rfl, by omega, hchunks⟩
  unfold chunkBody
  refine Op.Safe.ite (fun _ => Op.Safe.pure hdone) fun _ => ?_
  refine dictionary.chooseToken_mem.bind fun payload hpayload => ?_
  refine (Op.Safe.checkedSub _ _).bind fun available _ => ?_
  dsimp only
  generalize hpayloadLen : min (min payload.length available) (2 ^ 32 - 1) = payloadLen
  have hle : payloadLen ≤ payload.length ∧ payloadLen < 2 ^ 32 := by omega
  refine Op.Safe.ite (fun _ => Op.Safe.pure hdone) fun hne => ?_
  refine (Op.Safe.slice (Nat.zero_le _) hle.1).bind fun payloadBytes hpayloadBytes => ?_
  rw [List.drop_zero] at hpayloadBytes
  have hfront : TokenPrefix dictionary payloadBytes := by
    rw [hpayloadBytes]
    exact tokenPrefix_take hpayload hne hle.1
  have hcount : payloadBytes.length = payloadLen := by
    rw [hpayloadBytes, List.length_take]
    omega
  refine Op.Safe.pure ⟨chunks ++ [payloadBytes], ?_, ?_, ?_⟩
  · simp [ForInStep.run, chunkBytes, hcount]
  · simp
    omega
  · intro chunk hchunk
    rcases List.mem_append.mp hchunk with hchunk | hchunk
    · exact hchunks chunk hchunk
    · obtain rfl := List.mem_singleton.mp hchunk
      exact ⟨hfront, hcount ▸ hle.2⟩

/-- An output is read as a magic and its chunks to the last byte. -/
theorem structuredChunked_reads :
    Op.Safe (ReadsAsChunks dictionary) (suite.structuredChunked dictionary) := by
  unfold structuredChunked
  refine Op.Safe.ite (fun _ => Op.Safe.missing) fun _ => ?_
  refine dictionary.chooseToken_mem.bind fun token htoken => ?_
  dsimp only
  generalize hmagicLen : min (min token.length structuredChunkedMaxMagic) suite.config.maxLen
    = magicLen
  have hsixteen : structuredChunkedMaxMagic = 16 := rfl
  have hle : magicLen ≤ token.length := by omega
  refine Op.Safe.ite (fun _ => Op.Safe.missing) fun hne => ?_
  refine (choose_safe _).bind fun endian _ => ?_
  refine (Op.Safe.slice (Nat.zero_le _) hle).bind fun magic hmagic => ?_
  rw [List.drop_zero] at hmagic
  have hcount : magic.length = magicLen := by
    rw [hmagic, List.length_take]
    omega
  have hfront : TokenPrefix dictionary magic := by
    rw [hmagic]
    exact tokenPrefix_take htoken hne hle
  refine (choose_safe _).bind fun extra hextra => ?_
  have hstart : ChunksWritten dictionary (endian = 1) magic 0 magic :=
    ⟨[], by simp, Nat.le_refl _, nofun⟩
  refine (Op.Safe.upTo_turns (fun turns output => suite.chunkBody_written dictionary) ?_ _
    hstart).bind fun output houtput => ?_
  · rintro turns output ⟨chunks, houtput, hturns, hchunks⟩
    exact ⟨chunks, houtput, by omega, hchunks⟩
  obtain ⟨chunks, rfl, hturns, hchunks⟩ := houtput
  refine Op.Safe.ite (fun _ => Op.Safe.missing) fun hlong => Op.Safe.pure ?_
  have hsix : maxStructuredChunks = 6 := rfl
  have hread := readToEnd_flatMap (fun chunk hchunk =>
    readChunk_append (endian = 1) (hchunks chunk hchunk).1.1 (hchunks chunk hchunk).2)
    (fun chunk hchunk hnil => (hchunks chunk hchunk).1.1 (List.append_eq_nil_iff.mp hnil).2)
  refine ⟨magic, _, endian = 1, chunks, rfl, hfront, by omega, hread, ?_, by omega,
    fun chunk hchunk => (hchunks chunk hchunk).1⟩
  rcases Nat.eq_zero_or_pos chunks.length with hzero | hpos
  · rw [List.length_eq_zero_iff.mp hzero] at hlong
    simp at hlong
    omega
  · exact hpos

/-- Whatever the dictionary, the limit and the state of the generator: an
output of one is read as one to four records, an output of the other as a
magic and one to six chunks, to the last byte. -/
theorem structuredBinary_reads :
    Op.Safe (ReadsAsRecords dictionary) (suite.structuredRecord dictionary)
      ∧ Op.Safe (ReadsAsChunks dictionary) (suite.structuredChunked dictionary) :=
  ⟨suite.structuredRecord_reads dictionary, suite.structuredChunked_reads dictionary⟩

example : (Op.exec (sampleSuite.structuredRecord sampleDictionary) ⟨1⟩).1
    = .ok ([2, 3] ++ ascii "b,c" ++ [2, 0] ++ ascii "a\"" ++ [3] ++ ascii "b,c"
      ++ [3, 0] ++ ascii "b,c") := by
  decide +kernel

end MutatorSuite

end GovFuzz.FuzzEngine
