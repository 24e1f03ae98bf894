import GovFuzz.AdaParser.LexerLiterals
import GovFuzz.FuzzEngine.MutationInput
import GovFuzz.Instrumenter.LineMap
import GovFuzz.Lib.KeyedFold
import GovFuzz.Lib.Lossy
import GovFuzz.Lib.Novelty
import GovFuzz.Lib.StableSort
import GovFuzz.Lib.Utf8

/-!
# Fuzz engine — how a dictionary is curated

`DictionaryCurator` of `crates/fuzz_engine/builtin/src/dictionary.rs` mines
Ada sources for words.  What it finds of one word in one bucket is one
candidate, with the spelling and the place of the first occurrence and a score
that grows with each; of the candidates of a bucket it keeps the best ones, but
none that is nearly one it keeps already.
-/

namespace GovFuzz.FuzzEngine

open GovFuzz.AdaParser (ByteRange Token TokenKind lex byteLength)
open GovFuzz.Instrumenter (u32Max)
open GovFuzz.Lib

/-! ## Buckets, sources and the configuration -/

/-- The type a bucket is about. -/
def DictionaryBucket.typeName : DictionaryBucket → String
  | .enumLiteral typeName => typeName
  | .integerConstant typeName => typeName
  | _ => ""

/-- In the order of the declaration, then of the type. -/
def DictionaryBucket.order : DictionaryBucket → DictionaryBucket → Ordering :=
  compareLex (compareOn DictionaryBucket.ctorIdx) (compareOn DictionaryBucket.typeName)

instance : Ord DictionaryBucket := ⟨DictionaryBucket.order⟩

instance : Std.TransOrd DictionaryBucket :=
  inferInstanceAs (Std.TransCmp
    (compareLex (compareOn DictionaryBucket.ctorIdx) (compareOn DictionaryBucket.typeName)))

instance : Std.LawfulEqOrd DictionaryBucket where
  eq_of_compare {a b} h := by
    obtain ⟨hctor, htype⟩ := compareLex_eq_eq.mp h
    have hctor := Std.LawfulEqOrd.eq_of_compare hctor
    have htype := Std.LawfulEqOrd.eq_of_compare htype
    cases a <;> cases b <;> first
      | rfl
      | exact congrArg DictionaryBucket.enumLiteral htype
      | exact congrArg DictionaryBucket.integerConstant htype
      | cases hctor

/-- How far a source is from the target. -/
inductive DictionaryProximity where
  | target
  | oneHop
  | distance (hops : UInt8)
  | utility
  deriving DecidableEq

/-- `weight`, per occurrence. -/
def DictionaryProximity.weight : DictionaryProximity → Nat
  | target => 16
  | oneHop => 16
  | distance hops =>
      if hops.toNat ≤ 1 then 16 else max (16 >>> min (hops.toNat - 1) 4) 1
  | utility => 1

/-- The bounds a token must keep. -/
structure DictionaryCurationConfig where
  minStringLen : Nat := 4
  maxStringLen : Nat := 256
  minIdentifierLen : Nat := 1
  maxIdentifierLen : Nat := 32
  topKPerBucket : Nat := 64
  nearDuplicateJaccardPercent : UInt8 := 90

/-- A source file and the unit it declares. -/
structure DictionarySource where
  sourceUnit : String
  path : String
  contents : List Char
  proximity : DictionaryProximity

/-- Where the first occurrence of a token stands. -/
structure DictionaryProvenance where
  sourceUnit : String
  span : ByteRange
  deriving DecidableEq

/-- A token before the cut to the bucket's limit. -/
structure Candidate where
  bucket : DictionaryBucket
  token : List UInt8
  normalized : List UInt8
  occurrences : Nat
  score : Nat
  provenance : DictionaryProvenance
  deriving DecidableEq

/-- What `record` is called with. -/
structure Mined where
  source : DictionarySource
  bucket : DictionaryBucket
  token : List UInt8
  span : ByteRange

/-! ## Mining -/

section Mining

/-- The language's own units and the files under `fake_corba` are not mined. -/
def shouldSkipSource (sourceUnit path : String) : Bool :=
  let lowercase := fun text : List Char => text.map Char.toLower
  let unit := lowercase sourceUnit.toList
  let roots := ["ada".toList, "system".toList, "interfaces".toList, "gnat".toList]
  roots.any (fun root => unit = root || (root ++ ['.']).isPrefixOf unit) ||
    ((path.toList.map fun c => if c = '\\' then '/' else c).splitOn '/').any fun component =>
      lowercase component = "fake_corba".toList

/-- `str::split_at_checked`: what is in front of a byte and behind it, if it
stands between characters. -/
def splitAtByte : Nat → List Char → Option (List Char × List Char)
  | 0, text => some ([], text)
  | _ + 1, [] => none
  | n + 1, c :: text =>
      if c.utf8Size ≤ n + 1 then
        (splitAtByte (n + 1 - c.utf8Size) text).map fun (front, back) => (c :: front, back)
      else none

/-- `str::get`. -/
def getBytes (text : List Char) (range : ByteRange) : Option (List Char) :=
  if range.start ≤ range.stop then do
    let (_, behind) ← splitAtByte range.start text
    let (inside, _) ← splitAtByte (range.stop - range.start) behind
    some inside
  else none

/-- The text of a token in its source. -/
def tokenSourceText (contents : List Char) (token : Token) : Option String :=
  (getBytes contents token.textSpan).map String.ofList

variable (source : DictionarySource) (tokens : List Token)

/-- The kind of the token at an index. -/
def kindOf (index : Nat) : Option TokenKind := tokens[index]?.map Token.kind

/-- With the place of the identifier. -/
def identifierTextAt (index : Nat) : Option (String × Nat) :=
  match tokens[index]? with
  | some token =>
      match token.kind with
      | .identifier name => some ((tokenSourceText source.contents token).getD name, index)
      | _ => none
  | none => none

/-- The loop of `next_kind_index`, from `index` on. -/
def nextKindLoop (predicate : TokenKind → Bool) : Nat → List Token → Option Nat
  | _, [] => none
  | index, token :: rest =>
      if token.kind = .semicolon ∨ token.kind = .eof then none
      else if predicate token.kind then some index
      else nextKindLoop predicate (index + 1) rest

/-- The first token at or behind an index whose kind passes, before the next semicolon. -/
def nextKindIndex (start : Nat) (predicate : TokenKind → Bool) : Option Nat :=
  nextKindLoop predicate start (tokens.drop start)

/-- A comment. -/
def isComment : TokenKind → Bool
  | .comment _ => true
  | _ => false

/-- The first token at or behind an index that is no comment, before the next semicolon. -/
def nextNonCommentIndex (start : Nat) : Option Nat :=
  nextKindIndex tokens start fun kind => !isComment kind

/-- Of a byte or a character. -/
def isAsciiWhitespace (code : Nat) : Bool := code ∈ [9, 10, 12, 13, 32]

/-- The name of a type is an identifier, and so it is ASCII. -/
def normalizeTypeName (typeName : String) : String :=
  String.ofList ((typeName.toList.filter fun c => !isAsciiWhitespace c.toNat).map Char.toLower)

/-- The bucket of the literals of a string type. -/
def stringBucketForType (typeName : String) : DictionaryBucket :=
  if normalizeTypeName typeName = "wide_string" then .wideString
  else if normalizeTypeName typeName = "wide_wide_string" then .wideWideString
  else .string

/-- The value of a constant declaration that begins here, and its place if it
is a string. -/
def mineConstantAt (index : Nat) : Option (Mined × Option Nat) :=
  match kindOf tokens index, kindOf tokens (index + 1), kindOf tokens (index + 2) with
  | some (.identifier _), some .colon, some .kwConstant => do
      let (typeName, afterTypeName) ← identifierTextAt source tokens (index + 3)
      let assignIndex ← nextKindIndex tokens afterTypeName (· = .assign)
      let valueToken ← tokens[assignIndex + 1]?
      let mined := fun bucket value => Mined.mk source bucket (toUtf8 value) valueToken.textSpan
      match valueToken.kind with
      | .intLiteral value => some (mined (.integerConstant typeName) value, none)
      | .basedLiteral value => some (mined (.integerConstant typeName) value, none)
      | .stringLiteral value =>
          some (mined (stringBucketForType typeName) value, some (assignIndex + 1))
      | _ => none
  | _, _, _ => none

/-- What is recorded, and the typed string literals. -/
def mineConstantDeclarations : List Mined × List Nat :=
  let found := (List.range tokens.length).filterMap (mineConstantAt source tokens)
  (found.map Prod.fst, found.filterMap Prod.snd)

/-- The identifiers in front of one of the kinds that end the loop: of
`mine_enum_literals` and of `mine_handler_choices`. -/
def mineIdentifiers (ends : TokenKind → Bool) (bucket : DictionaryBucket) :
    List Token → List Mined
  | [] => []
  | token :: rest =>
      match token.kind with
      | .identifier canonical =>
          let text := (tokenSourceText source.contents token).getD canonical
          ⟨source, bucket, toUtf8 text, token.textSpan⟩ :: mineIdentifiers ends bucket rest
      | kind => if ends kind then [] else mineIdentifiers ends bucket rest

/-- The name of a type that is declared as a list, and where the list opens. -/
def enumOpenIndex (index : Nat) : Option (String × Nat) := do
  let (typeName, afterTypeName) ← identifierTextAt source tokens (index + 1)
  let isIndex ← nextKindIndex tokens afterTypeName (· = .kwIs)
  let openIndex ← nextNonCommentIndex tokens (isIndex + 1)
  if kindOf tokens openIndex = some TokenKind.lParen then some (typeName, openIndex) else none

/-- The literals of an enumeration type. -/
def mineEnumLiterals (index : Nat) : List Mined :=
  match enumOpenIndex source tokens index with
  | some (typeName, openIndex) =>
      mineIdentifiers source (· ∈ [.rParen, .semicolon, .eof]) (.enumLiteral typeName)
        (tokens.drop (openIndex + 1))
  | none => []

/-- The identifier at a place, for `mine_exception_declaration`,
`mine_raise_name` and `mine_operation_name`. -/
def mineName (bucket : DictionaryBucket) (index : Nat) : List Mined :=
  match identifierTextAt source tokens index, tokens[index]? with
  | some (name, _), some token => [⟨source, bucket, toUtf8 name, token.textSpan⟩]
  | _, _ => []

/-- The name in `Name : exception`. -/
def mineExceptionDeclaration (index : Nat) : List Mined :=
  if kindOf tokens (index + 1) = some .colon ∧ kindOf tokens (index + 2) = some .kwException then
    mineName source tokens .exceptionName index
  else []

/-- The names between `when` and `=>`. -/
def mineHandlerChoices (index : Nat) : List Mined :=
  mineIdentifiers source (· ∈ [.arrow, .semicolon, .eof]) .exceptionName (tokens.drop (index + 1))

/-- The name behind `raise`. -/
def mineRaiseName (index : Nat) : List Mined :=
  mineName source tokens .exceptionName (index + 1)

/-- The name behind `procedure` or `function`. -/
def mineOperationName (index : Nat) : List Mined :=
  mineName source tokens .idlOperationName (index + 1)

/-- What one source yields: its constants first, then token by token. -/
def mineTokens : List Mined :=
  let (constants, typedStringLiterals) := mineConstantDeclarations source tokens
  constants ++ tokens.zipIdx.flatMap fun (token, index) =>
    match token.kind with
    | .stringLiteral value =>
        if index ∈ typedStringLiterals then []
        else [⟨source, .string, toUtf8 value, token.textSpan⟩]
    | .kwType => mineEnumLiterals source tokens index
    | .identifier _ => mineExceptionDeclaration source tokens index
    | .kwWhen => mineHandlerChoices source tokens index
    | .kwRaise => mineRaiseName source tokens index
    | .kwProcedure => mineOperationName source tokens index
    | .kwFunction => mineOperationName source tokens index
    | _ => []

end Mining

/-- What a source yields, nothing when it is skipped. -/
def mineSource (source : DictionarySource) : Option (List Mined) :=
  if shouldSkipSource source.sourceUnit source.path then some []
  else (lex source.contents .ada2022).map (mineTokens source)

/-- All that `record` is called with, in its order. -/
def mineSources (sources : List DictionarySource) : Option (List Mined) :=
  (sources.mapM mineSource).map List.flatten

/-! ## Recording -/

/-- `u8::is_ascii_punctuation`. -/
def isAsciiPunctuation (b : UInt8) : Bool :=
  (0x21 ≤ b && b ≤ 0x2F) || (0x3A ≤ b && b ≤ 0x40) || (0x5B ≤ b && b ≤ 0x60) ||
    (0x7B ≤ b && b ≤ 0x7E)

/-- The loop of `normalize_token`. -/
def normalizeLoop (output : List UInt8) (pendingSpace : Bool) : List UInt8 → List UInt8
  | [] => output
  | byte :: rest =>
      if isAsciiWhitespace byte.toNat then normalizeLoop output (!output.isEmpty) rest
      else
        let output := if pendingSpace then output ++ [32] else output
        normalizeLoop (output ++ [toAsciiLowercase byte]) false rest

/-- The token in lower case with its runs of blanks joined. -/
def normalizeToken (token : List UInt8) : List UInt8 := normalizeLoop [] false token

/-- A token that says nothing of the target. -/
def isBoilerplate (normalized : List UInt8) : Bool :=
  let text := lossy normalized
  normalized.all (fun byte => isAsciiPunctuation byte || isAsciiWhitespace byte.toNat) ||
    ["spdx-license-identifier", "copyright", "http://", "https://", "www."].any
      (fun mark => mark.toList <:+: text) ||
    ["the", "and", "or", "with", "from", "this", "that", "todo", "fixme"].any
      fun word => text = word.toList

/-- The length is within the bucket's bounds. -/
def DictionaryCurationConfig.tokenLengthAllowed (config : DictionaryCurationConfig)
    (bucket : DictionaryBucket) (token : List UInt8) : Bool :=
  let text := config.minStringLen ≤ token.length && token.length ≤ config.maxStringLen
  match bucket with
  | .string => text
  | .wideString => text
  | .wideWideString => text
  | _ => config.minIdentifierLen ≤ token.length && token.length ≤ config.maxIdentifierLen

/-- A word in a bucket. -/
structure DictionaryKey where
  bucket : DictionaryBucket
  normalized : List UInt8
  deriving DecidableEq

/-- The derived order: bucket, then normalized token. -/
def DictionaryKey.order : DictionaryKey → DictionaryKey → Ordering :=
  compareLex (compareOn DictionaryKey.bucket) (compareOn DictionaryKey.normalized)

instance : Ord DictionaryKey := ⟨DictionaryKey.order⟩

instance : Std.TransOrd DictionaryKey :=
  inferInstanceAs (Std.TransCmp
    (compareLex (compareOn DictionaryKey.bucket) (compareOn DictionaryKey.normalized)))

instance : Std.LawfulEqOrd DictionaryKey where
  eq_of_compare {a b} h := by
    obtain ⟨hbucket, hnormalized⟩ := compareLex_eq_eq.mp h
    have hbucket := Std.LawfulEqOrd.eq_of_compare hbucket
    have hnormalized := Std.LawfulEqOrd.eq_of_compare hnormalized
    cases a
    cases b
    cases hbucket
    cases hnormalized
    rfl

/-- The candidates found so far, by key. -/
abbrev Aggregated := Std.TreeMap DictionaryKey Candidate

/-- `and_modify`, and `or_insert_with`. -/
def Candidate.note (candidate : Option Candidate) (mined : Mined) : Candidate :=
  let weight := mined.source.proximity.weight
  match candidate with
  | some candidate =>
      { candidate with
        occurrences := Instrumenter.saturatingAdd candidate.occurrences 1
        score := Instrumenter.saturatingAdd candidate.score weight }
  | none =>
      { bucket := mined.bucket
        token := mined.token
        normalized := normalizeToken mined.token
        occurrences := 1
        score := weight
        provenance := ⟨mined.source.sourceUnit, mined.span⟩ }

section Curator

variable (config : DictionaryCurationConfig)

/-- One mined token counted under its key. -/
def record (aggregated : Aggregated) (mined : Mined) : Aggregated :=
  if !config.tokenLengthAllowed mined.bucket mined.token then aggregated
  else
    let normalized := normalizeToken mined.token
    if normalized.isEmpty || isBoilerplate normalized then aggregated
    else
      let key := DictionaryKey.mk mined.bucket normalized
      aggregated.insert key (Candidate.note aggregated[key]? mined)

/-! ## Retaining -/

/-- The substrings of four bytes. -/
def grams4 (value : List UInt8) : Finset (List UInt8) :=
  ((List.range (value.length - 3)).map fun start => (value.drop start).take 4).toFinset

/-- The overlap of two tokens' substrings, in percent. -/
def jaccardPercent4gram (left right : List UInt8) : UInt8 :=
  if left = right then 100
  else if left.length < 4 ∨ right.length < 4 then 0
  else
    let leftGrams := grams4 left
    let rightGrams := grams4 right
    let intersection := (leftGrams ∩ rightGrams).card
    let union := leftGrams.card + rightGrams.card - intersection
    if union = 0 then 0 else UInt8.ofNat (intersection * 100 / union)

/-- Of higher score, then more frequent, then by the place of the first
occurrence and by the spelling. -/
def Candidate.order : Candidate → Candidate → Ordering :=
  compareLex (fun left right => compare right.score left.score)
    (compareLex (fun left right => compare right.occurrences left.occurrences)
      (compareLex (compareOn fun candidate => candidate.provenance.sourceUnit)
        (compareLex (compareOn fun candidate => candidate.provenance.span.start)
          (compareOn Candidate.token))))

/-- The overlap reaches the configured bound. -/
def nearDuplicate (existing candidate : Candidate) : Bool :=
  config.nearDuplicateJaccardPercent ≤
    jaccardPercent4gram existing.normalized candidate.normalized

/-- The candidates of a bucket that are kept. -/
def retainCandidates (candidates : List Candidate) : List Candidate :=
  retain (nearDuplicate config) config.topKPerBucket []
    (candidates.mergeSort fun left right => (left.order right).isLE)

/-- `by_bucket`: a candidate goes to the end of its bucket. -/
def byBucket (candidates : List Candidate) : Std.TreeMap DictionaryBucket (List Candidate) :=
  KeyedFold.fold (fun bucket candidate => bucket.getD [] ++ [candidate]) ∅
    (candidates.map fun candidate => (candidate.bucket, candidate))

/-- `into_values`. -/
def candidatesOf (aggregated : Aggregated) : List Candidate := aggregated.toList.map Prod.snd

/-- The retained candidates, bucket by bucket. -/
def retainEntries (aggregated : Aggregated) : List Candidate :=
  (byBucket (candidatesOf aggregated)).toList.flatMap fun group =>
    retainCandidates config group.2

/-- The dictionary of the curated entries. -/
def Dictionary.fromEntries (entries : List Candidate) : Dictionary where
  tokens := entries.map Candidate.token
  entries := entries.map fun entry => ⟨entry.bucket, entry.token⟩

/-- The entries of the dictionary, with all that is known of them. -/
def curateEntries (sources : List DictionarySource) : Option (List Candidate) :=
  (mineSources sources).map fun mined => retainEntries config (mined.foldl (record config) ∅)

/-- `curate_dictionary`; `none` where a source does not lex. -/
def curate (sources : List DictionarySource) : Option Dictionary :=
  (curateEntries config sources).map Dictionary.fromEntries

end Curator

/-! ## What the dictionary is to be -/

/-- The key a mined token is counted under. -/
def Mined.key (mined : Mined) : DictionaryKey := ⟨mined.bucket, normalizeToken mined.token⟩

/-- The key of a candidate. -/
def Candidate.key (candidate : Candidate) : DictionaryKey :=
  ⟨candidate.bucket, candidate.normalized⟩

/-- The candidate that the records of one word make up: with the spelling and
the place of the first. -/
def tally : List Mined → Option Candidate
  | [] => none
  | first :: rest =>
      some
        { bucket := first.bucket
          token := first.token
          normalized := normalizeToken first.token
          occurrences := min (first :: rest).length u32Max
          score := min ((first :: rest).map fun mined => mined.source.proximity.weight).sum u32Max
          provenance := ⟨first.source.sourceUnit, first.span⟩ }

/-- The candidate is the count of its own records. -/
def Tallied (records : List Mined) (candidate : Candidate) : Prop :=
  tally (records.filter fun mined => mined.key = candidate.key) = some candidate

/-- What is not left out for its length or as boilerplate. -/
def DictionaryCurationConfig.admits (config : DictionaryCurationConfig) (mined : Mined) : Bool :=
  config.tokenLengthAllowed mined.bucket mined.token &&
    !((normalizeToken mined.token).isEmpty || isBoilerplate (normalizeToken mined.token))

/-- The candidate is retained first. -/
def Candidate.Before (a b : Candidate) : Prop := a.order b = .lt

/-- The buckets are in their order; and of each bucket the entries are
tallies, the better ones first, no two of them nearly the same, as many as the
configuration allows, and no other tally has a place: it is nearly the same as
a better entry, or the bucket is full of better ones. -/
structure IsCuration (config : DictionaryCurationConfig) (records : List Mined)
    (entries : List Candidate) : Prop where
  ordered : entries.Pairwise fun a b => (compare a.bucket b.bucket).isLE
  retained : ∀ bucket,
    Retained (nearDuplicate config) config.topKPerBucket Candidate.Before
      {candidate | Tallied records candidate ∧ candidate.bucket = bucket}
      (entries.filter fun entry => entry.bucket = bucket)

/-! ### The records of one word -/

theorem record_eq (config : DictionaryCurationConfig) (aggregated : Aggregated) (mined : Mined) :
    record config aggregated mined
      = if config.admits mined then
          aggregated.insert mined.key (Candidate.note aggregated[mined.key]? mined)
        else aggregated := by
  unfold record
  dsimp only
  split
  case isTrue hlength =>
    rw [if_neg]
    simp only [Bool.not_eq_true'] at hlength
    simp [DictionaryCurationConfig.admits, hlength]
  case isFalse hlength =>
    split
    case isTrue hplain =>
      rw [if_neg]
      simp [DictionaryCurationConfig.admits, hplain]
    case isFalse hplain =>
      have hadmits : config.admits mined = true := by
        simp only [Bool.not_eq_true', Bool.not_eq_false] at hlength
        rw [DictionaryCurationConfig.admits, hlength, Bool.true_and, Bool.not_eq_true']
        exact Bool.eq_false_iff.mpr hplain
      rw [if_pos hadmits]
      rfl

theorem foldl_record (config : DictionaryCurationConfig) (records : List Mined)
    (aggregated : Aggregated) :
    records.foldl (record config) aggregated
      = KeyedFold.fold Candidate.note aggregated
          ((records.filter config.admits).map fun mined => (mined.key, mined)) := by
  induction records generalizing aggregated with
  | nil => rfl
  | cons mined records ih =>
      rw [List.foldl_cons, ih, record_eq, List.filter_cons]
      cases config.admits mined with
      | false => rfl
      | true => rfl

theorem seen_map_key {α κ : Type} [DecidableEq κ] (keyOf : α → κ) (key : κ) (l : List α) :
    KeyedFold.seen key (l.map fun a => (keyOf a, a)) = l.filter fun a => keyOf a = key := by
  rw [KeyedFold.seen, List.filterMap_map, ← List.filterMap_eq_filter]
  refine List.filterMap_congr fun a _ => ?_
  simp [Option.guard, Function.comp_apply]

/-- From a candidate on, which saturates. -/
theorem stateOf_note (group : List Mined) (candidate : Candidate) {count sum : Nat}
    (hcount : candidate.occurrences = min count u32Max) (hsum : candidate.score = min sum u32Max) :
    KeyedFold.stateOf Candidate.note (some candidate) group
      = some { candidate with
          occurrences := min (count + group.length) u32Max
          score := min (sum + (group.map fun mined => mined.source.proximity.weight).sum)
            u32Max } := by
  induction group generalizing candidate count sum with
  | nil =>
      cases candidate
      simpa [KeyedFold.stateOf] using ⟨hcount, hsum⟩
  | cons mined group ih =>
      have hstep : (Candidate.note (some candidate) mined).occurrences = min (count + 1) u32Max ∧
          (Candidate.note (some candidate) mined).score
            = min (sum + mined.source.proximity.weight) u32Max := by
        simp only [Candidate.note, Instrumenter.saturatingAdd, hcount, hsum, u32Max]
        omega
      show KeyedFold.stateOf Candidate.note (some (Candidate.note (some candidate) mined)) group = _
      rw [ih _ hstep.1 hstep.2, List.length_cons, List.map_cons, List.sum_cons, Nat.add_assoc,
        Nat.add_assoc, Nat.add_comm 1]
      rfl

theorem weight_le (proximity : DictionaryProximity) : proximity.weight ≤ u32Max := by
  cases proximity with
  | target => decide
  | oneHop => decide
  | utility => decide
  | distance hops =>
      have hshift : 16 >>> min (hops.toNat - 1) 4 ≤ 16 := Nat.shiftRight_le 16 _
      have hmax : 16 ≤ u32Max := by decide
      simp only [DictionaryProximity.weight]
      split
      · exact hmax
      · omega

theorem stateOf_eq_tally (group : List Mined) :
    KeyedFold.stateOf Candidate.note none group = tally group := by
  cases group with
  | nil => rfl
  | cons first rest =>
      have hone : 1 ≤ u32Max := by decide
      have hweight := weight_le first.source.proximity
      show KeyedFold.stateOf Candidate.note (some (Candidate.note none first)) rest = _
      rw [stateOf_note rest (Candidate.note none first) (Nat.min_eq_left hone).symm
        (Nat.min_eq_left hweight).symm, tally, List.length_cons, List.map_cons, List.sum_cons,
        Nat.add_comm 1]
      rfl

/-- What is aggregated of each word. -/
theorem getElem?_aggregated (config : DictionaryCurationConfig) (records : List Mined)
    (key : DictionaryKey) :
    (records.foldl (record config) ∅)[key]?
      = tally ((records.filter config.admits).filter fun mined => mined.key = key) := by
  have hnone : (∅ : Aggregated)[key]? = none := Std.TreeMap.getElem?_emptyc
  rw [foldl_record, KeyedFold.getElem?_fold, hnone, seen_map_key, stateOf_eq_tally]

theorem key_of_tally {records : List Mined} {key : DictionaryKey} {candidate : Candidate}
    (h : tally (records.filter fun mined => mined.key = key) = some candidate) :
    candidate.key = key ∧ candidate.normalized = normalizeToken candidate.token := by
  cases hgroup : records.filter fun mined => mined.key = key with
  | nil =>
      rw [hgroup] at h
      cases h
  | cons first rest =>
      have hfirst : first ∈ records.filter fun mined => mined.key = key := by
        rw [hgroup]
        exact List.mem_cons_self
      rw [hgroup] at h
      cases h
      exact ⟨of_decide_eq_true (List.mem_filter.mp hfirst).2, rfl⟩

/-! ### The candidates -/

section Aggregated

variable {config : DictionaryCurationConfig} {records : List Mined} {aggregated : Aggregated}
  (haggregated : ∀ key : DictionaryKey,
    aggregated[key]? = tally (records.filter fun mined => mined.key = key))
include haggregated

theorem mem_candidatesOf {candidate : Candidate} :
    candidate ∈ candidatesOf aggregated ↔ Tallied records candidate := by
  constructor
  · intro h
    obtain ⟨⟨key, candidate⟩, hmem, rfl⟩ := List.mem_map.mp h
    have htally := Std.TreeMap.mem_toList_iff_getElem?_eq_some.mp hmem
    rw [haggregated] at htally
    rw [Tallied, (key_of_tally htally).1]
    exact htally
  · intro h
    rw [Tallied, ← haggregated] at h
    exact List.mem_map.mpr
      ⟨(candidate.key, candidate), Std.TreeMap.mem_toList_iff_getElem?_eq_some.mpr h, rfl⟩

theorem nodup_keys_candidatesOf : ((candidatesOf aggregated).map Candidate.key).Nodup := by
  have hkeys : (candidatesOf aggregated).map Candidate.key = aggregated.toList.map Prod.fst := by
    rw [candidatesOf, List.map_map]
    refine List.map_congr_left fun entry hentry => ?_
    have htally := Std.TreeMap.mem_toList_iff_getElem?_eq_some.mp hentry
    rw [haggregated] at htally
    exact (key_of_tally htally).1
  rw [hkeys, Std.TreeMap.map_fst_toList_eq_keys]
  exact Std.TreeMap.nodup_keys

end Aggregated

/-! ### The order in a bucket -/

instance transCmp_order : Std.TransCmp Candidate.order := by
  have hscore : Std.TransCmp fun left right : Candidate => compare right.score left.score :=
    @Std.TransCmp.opposite _ (compareOn Candidate.score) inferInstance
  have hoccurrences :
      Std.TransCmp fun left right : Candidate => compare right.occurrences left.occurrences :=
    @Std.TransCmp.opposite _ (compareOn Candidate.occurrences) inferInstance
  unfold Candidate.order
  infer_instance

theorem token_eq_of_order {a b : Candidate} (h : a.order b = .eq) : a.token = b.token := by
  obtain ⟨-, h⟩ := compareLex_eq_eq.mp h
  obtain ⟨-, h⟩ := compareLex_eq_eq.mp h
  obtain ⟨-, h⟩ := compareLex_eq_eq.mp h
  obtain ⟨-, h⟩ := compareLex_eq_eq.mp h
  exact Std.LawfulEqOrd.eq_of_compare h

theorem Candidate.Before.asymm (a b : Candidate) (h : a.Before b) : ¬ b.Before a := by
  have hgt : b.order a = .gt := Std.OrientedCmp.gt_of_lt h
  intro hlt
  rw [Candidate.Before, hgt] at hlt
  cases hlt

/-- The candidates of a bucket are different words, so their order is strict. -/
theorem sorted_before {candidates : List Candidate} {bucket : DictionaryBucket}
    (hkeys : (candidates.map Candidate.key).Nodup)
    (hbucket : ∀ candidate ∈ candidates, candidate.bucket = bucket)
    (hnormalized : ∀ candidate ∈ candidates,
      candidate.normalized = normalizeToken candidate.token) :
    (candidates.mergeSort fun left right => (left.order right).isLE).Pairwise
      Candidate.Before := by
  have hperm := List.mergeSort_perm candidates fun left right => (left.order right).isLE
  have hle : (candidates.mergeSort fun left right => (left.order right).isLE).Pairwise
      fun left right => (left.order right).isLE := by
    refine List.pairwise_mergeSort (fun _ _ _ => Std.TransCmp.isLE_trans) (fun a b => ?_) _
    have hswap : b.order a = (a.order b).swap := Std.OrientedCmp.eq_swap
    rw [hswap]
    cases a.order b <;> rfl
  have hdistinct := List.pairwise_map.mp ((hperm.map Candidate.key).nodup_iff.mpr hkeys)
  refine (hle.and hdistinct).imp_of_mem fun {a b} ha hb hab => ?_
  have ha := hperm.mem_iff.mp ha
  have hb := hperm.mem_iff.mp hb
  have hne : a.order b ≠ .eq := by
    intro heq
    apply hab.2
    rw [Candidate.key, Candidate.key, hbucket a ha, hbucket b hb, hnormalized a ha,
      hnormalized b hb, token_eq_of_order heq]
  exact (Ordering.isLE_iff_eq_lt_or_eq_eq.mp hab.1).resolve_right hne

/-! ### The buckets -/

theorem stateOf_push (group : List Candidate) (front : Option (List Candidate)) :
    KeyedFold.stateOf (fun bucket candidate => bucket.getD [] ++ [candidate]) front group
      = if group = [] then front else some (front.getD [] ++ group) := by
  induction group generalizing front with
  | nil => rfl
  | cons candidate group ih =>
      show KeyedFold.stateOf _ (some (front.getD [] ++ [candidate])) group = _
      rw [ih, if_neg (List.cons_ne_nil _ _)]
      split
      case isTrue hnil => rw [hnil]
      case isFalse => rw [Option.getD_some, List.append_assoc, List.singleton_append]

theorem getElem?_byBucket (candidates : List Candidate) (bucket : DictionaryBucket) :
    (byBucket candidates)[bucket]?
      = if candidates.filter (fun candidate => candidate.bucket = bucket) = [] then none
        else some (candidates.filter fun candidate => candidate.bucket = bucket) := by
  have hnone : (∅ : Std.TreeMap DictionaryBucket (List Candidate))[bucket]? = none :=
    Std.TreeMap.getElem?_emptyc
  rw [byBucket, KeyedFold.getElem?_fold, hnone, seen_map_key, stateOf_push]
  rfl

theorem mem_byBucket {candidates : List Candidate} {group : DictionaryBucket × List Candidate} :
    group ∈ (byBucket candidates).toList ↔
      group.2 = candidates.filter (fun candidate => candidate.bucket = group.1) ∧
        group.2 ≠ [] := by
  obtain ⟨bucket, members⟩ := group
  rw [Std.TreeMap.mem_toList_iff_getElem?_eq_some, getElem?_byBucket]
  dsimp only
  constructor
  · intro h
    split at h
    case isTrue => cases h
    case isFalse hne =>
      cases h
      exact ⟨rfl, hne⟩
  · rintro ⟨heq, hne⟩
    rw [← heq, if_neg hne]

section Buckets

variable {config : DictionaryCurationConfig} {records : List Mined} {aggregated : Aggregated}
  (haggregated : ∀ key : DictionaryKey,
    aggregated[key]? = tally (records.filter fun mined => mined.key = key))
include haggregated

/-- What may be kept of a bucket, in the order of the sort. -/
theorem sorted_bucket (bucket : DictionaryBucket) :
    (((candidatesOf aggregated).filter fun candidate => candidate.bucket = bucket).mergeSort
      fun left right => (left.order right).isLE).Pairwise Candidate.Before := by
  have hsub := (List.filter_sublist (l := candidatesOf aggregated)
    (p := fun candidate => candidate.bucket = bucket)).map Candidate.key
  have hbucket : ∀ candidate ∈ (candidatesOf aggregated).filter fun c => c.bucket = bucket,
      candidate.bucket = bucket := fun candidate h => of_decide_eq_true (List.mem_filter.mp h).2
  refine sorted_before (hsub.nodup (nodup_keys_candidatesOf haggregated)) hbucket fun _ h => ?_
  exact (key_of_tally ((mem_candidatesOf haggregated).mp (List.mem_filter.mp h).1)).2

theorem retained_bucket_iff (bucket : DictionaryBucket) {kept : List Candidate} :
    Retained (nearDuplicate config) config.topKPerBucket Candidate.Before
        {candidate | Tallied records candidate ∧ candidate.bucket = bucket} kept ↔
      kept = retainCandidates config
        ((candidatesOf aggregated).filter fun candidate => candidate.bucket = bucket) := by
  have hset : {candidate | Tallied records candidate ∧ candidate.bucket = bucket}
      = {candidate | candidate ∈
          ((candidatesOf aggregated).filter fun candidate => candidate.bucket = bucket).mergeSort
            fun left right => (left.order right).isLE} := by
    ext candidate
    rw [Set.mem_ofPred_eq, Set.mem_ofPred_eq, List.mem_mergeSort, List.mem_filter,
      mem_candidatesOf haggregated, decide_eq_true_eq]
  rw [hset]
  exact retained_iff Candidate.Before.asymm (sorted_bucket haggregated bucket)

theorem bucket_of_mem_retain {bucket : DictionaryBucket} {entry : Candidate}
    (h : entry ∈ retainCandidates config
      ((candidatesOf aggregated).filter fun candidate => candidate.bucket = bucket)) :
    entry.bucket = bucket :=
  (((retained_bucket_iff haggregated bucket).mpr rfl).mem entry h).2

/-- What is retained of a bucket is what its own candidates leave. -/
theorem filter_retainEntries (bucket : DictionaryBucket) :
    (retainEntries config aggregated).filter (fun entry => entry.bucket = bucket)
      = retainCandidates config
          ((candidatesOf aggregated).filter fun candidate => candidate.bucket = bucket) := by
  have hmembers : ∀ group ∈ (byBucket (candidatesOf aggregated)).toList,
      ∀ entry ∈ retainCandidates config group.2, entry.bucket = group.1 := by
    intro group hgroup entry hentry
    rw [(mem_byBucket.mp hgroup).1] at hentry
    exact bucket_of_mem_retain haggregated hentry
  by_cases hnil : (candidatesOf aggregated).filter (fun c => c.bucket = bucket) = []
  · have hnone : retainCandidates config [] = [] := by
      rw [retainCandidates, List.mergeSort_nil, retain]
    rw [hnil, hnone]
    refine List.filter_eq_nil_iff.mpr fun entry hentry => ?_
    obtain ⟨group, hgroup, hentry⟩ := List.mem_flatMap.mp hentry
    rw [decide_eq_true_eq, hmembers group hgroup entry hentry]
    rintro rfl
    obtain ⟨hgroup, hne⟩ := mem_byBucket.mp hgroup
    exact hne (hgroup.trans hnil)
  · have hnodup : ((byBucket (candidatesOf aggregated)).toList.map Prod.fst).Nodup := by
      rw [Std.TreeMap.map_fst_toList_eq_keys]
      exact Std.TreeMap.nodup_keys
    have hgroup : (bucket, (candidatesOf aggregated).filter fun c => c.bucket = bucket)
        ∈ (byBucket (candidatesOf aggregated)).toList := mem_byBucket.mpr ⟨rfl, hnil⟩
    exact filter_flatMap hnodup hmembers hgroup

theorem ordered_retainEntries :
    (retainEntries config aggregated).Pairwise fun a b => (compare a.bucket b.bucket).isLE := by
  refine List.pairwise_flatMap.mpr ⟨fun group hgroup => ?_, ?_⟩
  · refine List.pairwise_of_forall_mem_list fun a ha b hb => ?_
    rw [(mem_byBucket.mp hgroup).1] at ha hb
    have hself : compare group.1 group.1 = .eq := Std.ReflCmp.compare_self
    rw [bucket_of_mem_retain haggregated ha, bucket_of_mem_retain haggregated hb, hself]
    rfl
  · refine Std.TreeMap.ordered_keys_toList.imp_of_mem fun {g g'} hg hg' hlt => ?_
    intro a ha b hb
    rw [(mem_byBucket.mp hg).1] at ha
    rw [(mem_byBucket.mp hg').1] at hb
    rw [bucket_of_mem_retain haggregated ha, bucket_of_mem_retain haggregated hb, hlt]
    rfl

theorem isCuration_iff {entries : List Candidate} :
    IsCuration config records entries ↔ entries = retainEntries config aggregated := by
  constructor
  · intro h
    refine eq_of_filter_eq Candidate.bucket (fun a b => (compare a b).isLE)
      (fun a b hab hba => ?_) h.ordered (ordered_retainEntries haggregated) fun bucket => ?_
    · exact Std.LawfulEqOrd.eq_of_compare (Std.OrientedCmp.isLE_antisymm hab hba)
    · rw [filter_retainEntries haggregated]
      exact (retained_bucket_iff haggregated bucket).mp (h.retained bucket)
  · rintro rfl
    refine ⟨ordered_retainEntries haggregated, fun bucket => ?_⟩
    rw [filter_retainEntries haggregated]
    exact (retained_bucket_iff haggregated bucket).mpr rfl

end Buckets

/-! ### Curation -/

theorem exists_mineSources {sources : List DictionarySource}
    (hshort : ∀ source ∈ sources, byteLength source.contents < 4294967296) :
    ∃ records, mineSources sources = some records := by
  induction sources with
  | nil => exact ⟨[], rfl⟩
  | cons source sources ih =>
      rw [List.forall_mem_cons] at hshort
      obtain ⟨records, hrecords⟩ := ih hshort.2
      obtain ⟨parts, hparts, rfl⟩ := Option.map_eq_some_iff.mp hrecords
      obtain ⟨own, hown⟩ : ∃ own, mineSource source = some own := by
        obtain ⟨tokens, hlex, -⟩ := AdaParser.lex_tiled hshort.1 .ada2022
        unfold mineSource
        split
        case isTrue => exact ⟨[], rfl⟩
        case isFalse =>
          rw [hlex]
          exact ⟨_, rfl⟩
      refine ⟨(own :: parts).flatten, ?_⟩
      simp [mineSources, hown, hparts]

/-- A string in two spellings, and an exception. -/
def sampleSource : DictionarySource where
  sourceUnit := "P"
  path := "src/p.adb"
  contents := ("A : constant String := \"High\"; B : constant String := \"HIGH\"; " ++
    "Lost : exception;").toList
  proximity := .target

/-- **The curation is exact**: the entries are the one list that the records
with an admitted word call for. -/
theorem curateEntries_exact (config : DictionaryCurationConfig) {sources : List DictionarySource}
    (hshort : ∀ source ∈ sources, byteLength source.contents < 4294967296) :
    ∃ records entries, mineSources sources = some records ∧
      curateEntries config sources = some entries ∧
      ∀ other, IsCuration config (records.filter config.admits) other ↔ other = entries := by
  obtain ⟨records, hrecords⟩ := exists_mineSources hshort
  refine ⟨records, retainEntries config (records.foldl (record config) ∅), hrecords, ?_,
    fun other => ?_⟩
  · rw [curateEntries, hrecords, Option.map_some]
  · exact isCuration_iff (getElem?_aggregated config records)

theorem curateEntries_exact_sample : ∃ records entries,
    mineSources [sampleSource] = some records ∧ curateEntries {} [sampleSource] = some entries ∧
      ∀ other, IsCuration {} (records.filter (DictionaryCurationConfig.admits {})) other ↔
        other = entries :=
  curateEntries_exact {} (by decide +kernel)

/-! ## Where the words stand -/

theorem splitAtByte_append (front back : List Char) :
    splitAtByte (byteLength front) (front ++ back) = some (front, back) := by
  induction front with
  | nil => exact splitAtByte.eq_1 back
  | cons c front ih =>
      have hpos := c.utf8Size_pos
      have hlength : byteLength (c :: front) = c.utf8Size + byteLength front := rfl
      obtain ⟨n, hn⟩ := Nat.exists_eq_succ_of_ne_zero (show byteLength (c :: front) ≠ 0 by omega)
      rw [hn, Nat.succ_eq_add_one, List.cons_append, splitAtByte, if_pos (by omega)]
      have hbehind : n + 1 - c.utf8Size = byteLength front := by omega
      rw [hbehind, ih]
      rfl

theorem getBytes_append (front text rest : List Char) :
    getBytes (front ++ (text ++ rest)) ⟨byteLength front, byteLength (front ++ text)⟩
      = some text := by
  have hlength := AdaParser.byteLength_append front text
  have hinside : byteLength (front ++ text) - byteLength front = byteLength text := by omega
  rw [getBytes, if_pos (by dsimp only; omega)]
  simp only [splitAtByte_append, hinside, Option.bind_eq_bind, Option.bind_some]

/-- A bucket of string literals. -/
def DictionaryBucket.isText : DictionaryBucket → Bool
  | .string => true
  | .wideString => true
  | .wideWideString => true
  | _ => false

/-- A string stands in quotes, with its own quotes doubled; a name or a number
as it is. -/
def spelling (bucket : DictionaryBucket) (word : List Char) : List Char :=
  if bucket.isText then '"' :: (AdaParser.Literal.doubled word ++ ['"']) else word

/-- The word is in the text between these offsets. -/
def StandsAt (contents : List Char) (bucket : DictionaryBucket) (token : List UInt8)
    (span : ByteRange) : Prop :=
  ∃ front word rest, contents = front ++ (spelling bucket word ++ rest) ∧
    token = toUtf8 (String.ofList word) ∧
    span = ⟨byteLength front, byteLength (front ++ spelling bucket word)⟩

/-- A record of this source. -/
def Placed (source : DictionarySource) (mined : Mined) : Prop :=
  mined.source = source ∧ StandsAt source.contents mined.bucket mined.token mined.span

theorem isText_stringBucketForType (typeName : String) :
    (stringBucketForType typeName).isText = true := by
  unfold stringBucketForType
  split
  · rfl
  · split <;> rfl

section Placed

variable {source : DictionarySource} {tokens : List Token}
  (hstands : ∀ token ∈ tokens, token.kind ≠ .eof →
    AdaParser.Stands source.contents .ada2022 token)
include hstands

theorem standsAt_identifier {token : Token} (htoken : token ∈ tokens) {name : String}
    (hkind : token.kind = .identifier name) {bucket : DictionaryBucket}
    (hbucket : bucket.isText = false) :
    StandsAt source.contents bucket
      (toUtf8 ((tokenSourceText source.contents token).getD name)) token.textSpan := by
  obtain ⟨front, rest, _, _, _, e, -, hsource, -, hspan⟩ :=
    hstands token htoken (by simp [hkind])
  have hspelling : spelling bucket e.text = e.text := if_neg (by simp [hbucket])
  refine ⟨front, e.text, rest, by rw [hspelling, hsource], ?_, by rw [hspelling, hspan]⟩
  rw [tokenSourceText, hsource, hspan, getBytes_append]
  rfl

theorem standsAt_literal {token : Token} (htoken : token ∈ tokens) {value : String}
    {bucket : DictionaryBucket}
    (hkind : AdaParser.Element.literalText token.kind = some (spelling bucket value.toList)) :
    StandsAt source.contents bucket (toUtf8 value) token.textSpan := by
  have hnoteof : token.kind ≠ .eof := by
    intro heof
    rw [heof] at hkind
    cases hkind
  obtain ⟨front, rest, _, _, _, e, he, hsource, hsame, hspan⟩ := hstands token htoken hnoteof
  rw [hsame] at hkind
  have htext := AdaParser.Element.first_text he hkind
  rw [htext] at hsource hspan
  exact ⟨front, value.toList, rest, hsource, by rw [String.ofList_toList], hspan⟩

theorem placed_mineIdentifiers (ends : TokenKind → Bool) {bucket : DictionaryBucket}
    (hbucket : bucket.isText = false) {rest : List Token} (hrest : rest ⊆ tokens) :
    ∀ mined ∈ mineIdentifiers source ends bucket rest, Placed source mined := by
  induction rest with
  | nil => simp [mineIdentifiers]
  | cons token rest ih =>
      obtain ⟨htoken, hrest⟩ := List.cons_subset.mp hrest
      intro mined hmined
      rw [mineIdentifiers] at hmined
      split at hmined
      case h_1 canonical hkind =>
        rcases List.mem_cons.mp hmined with rfl | hmined
        · exact ⟨rfl, standsAt_identifier hstands htoken hkind hbucket⟩
        · exact ih hrest mined hmined
      case h_2 =>
        split at hmined
        · cases hmined
        · exact ih hrest mined hmined

theorem placed_mineName {bucket : DictionaryBucket} (hbucket : bucket.isText = false)
    (index : Nat) : ∀ mined ∈ mineName source tokens bucket index, Placed source mined := by
  intro mined hmined
  unfold mineName identifierTextAt at hmined
  cases htoken : tokens[index]? with
  | none => simp [htoken] at hmined
  | some token =>
      have hmem := List.mem_of_getElem? htoken
      cases hkind : token.kind <;> simp only [htoken, hkind, List.not_mem_nil] at hmined
      case identifier name =>
        obtain rfl := List.mem_singleton.mp hmined
        exact ⟨rfl, standsAt_identifier hstands hmem hkind hbucket⟩

theorem placed_mineConstantAt {index : Nat} {found : Mined × Option Nat}
    (h : mineConstantAt source tokens index = some found) : Placed source found.1 := by
  unfold mineConstantAt at h
  split at h
  case h_1 =>
    simp only [Option.bind_eq_bind, Option.bind_eq_some_iff] at h
    obtain ⟨⟨typeName, after⟩, -, assignIndex, -, token, htoken, h⟩ := h
    have hmem := List.mem_of_getElem? htoken
    split at h
    case h_1 value hkind =>
      cases h
      exact ⟨rfl, standsAt_literal hstands hmem (by rw [hkind]; rfl)⟩
    case h_2 value hkind =>
      cases h
      exact ⟨rfl, standsAt_literal hstands hmem (by rw [hkind]; rfl)⟩
    case h_3 value hkind =>
      cases h
      refine ⟨rfl, standsAt_literal hstands hmem ?_⟩
      rw [hkind, spelling, if_pos (isText_stringBucketForType typeName)]
      rfl
    case h_4 => cases h
  case h_2 => cases h

/-- Every token that is mined stands at its place in the source. -/
theorem placed_mineTokens : ∀ mined ∈ mineTokens source tokens, Placed source mined := by
  intro mined hmined
  unfold mineTokens at hmined
  -- The constants of the declarations first, then what each token starts.
  rcases List.mem_append.mp hmined with hmined | hmined
  · obtain ⟨found, hfound, rfl⟩ := List.mem_map.mp hmined
    obtain ⟨index, -, hfound⟩ := List.mem_filterMap.mp hfound
    exact placed_mineConstantAt hstands hfound
  · obtain ⟨⟨token, index⟩, htoken, hmined⟩ := List.mem_flatMap.mp hmined
    have hmem : token ∈ tokens := List.fst_mem_of_mem_zipIdx htoken
    dsimp only at hmined
    split at hmined
    case h_1 value hkind =>
      split at hmined
      case isTrue => cases hmined
      case isFalse =>
        obtain rfl := List.mem_singleton.mp hmined
        exact ⟨rfl, standsAt_literal hstands hmem (by rw [hkind]; rfl)⟩
    case h_2 =>
      unfold mineEnumLiterals at hmined
      split at hmined
      · exact placed_mineIdentifiers hstands _ rfl (List.drop_subset _ _) mined hmined
      · cases hmined
    case h_3 =>
      unfold mineExceptionDeclaration at hmined
      split at hmined
      · exact placed_mineName hstands rfl _ mined hmined
      · cases hmined
    case h_4 => exact placed_mineIdentifiers hstands _ rfl (List.drop_subset _ _) mined hmined
    case h_5 => exact placed_mineName hstands rfl _ mined hmined
    case h_6 => exact placed_mineName hstands rfl _ mined hmined
    case h_7 => exact placed_mineName hstands rfl _ mined hmined
    case h_8 => cases hmined

end Placed

theorem placed_mineSource {source : DictionarySource}
    (hshort : byteLength source.contents < 4294967296) {records : List Mined}
    (h : mineSource source = some records) {mined : Mined} (hmined : mined ∈ records) :
    shouldSkipSource source.sourceUnit source.path = false ∧ Placed source mined := by
  unfold mineSource at h
  split at h
  case isTrue =>
    cases h
    cases hmined
  case isFalse hskip =>
    obtain ⟨tokens, hlex, rfl⟩ := Option.map_eq_some_iff.mp h
    refine ⟨Bool.eq_false_iff.mpr hskip, placed_mineTokens (fun token htoken hkind => ?_) _ hmined⟩
    exact AdaParser.lex_stands hshort hlex htoken hkind

theorem placed_mineSources {sources : List DictionarySource}
    (hshort : ∀ source ∈ sources, byteLength source.contents < 4294967296) {records : List Mined}
    (h : mineSources sources = some records) {mined : Mined} (hmined : mined ∈ records) :
    ∃ source ∈ sources, shouldSkipSource source.sourceUnit source.path = false ∧
      Placed source mined := by
  induction sources generalizing records with
  | nil =>
      cases h
      cases hmined
  | cons source sources ih =>
      rw [List.forall_mem_cons] at hshort
      obtain ⟨parts, hparts, rfl⟩ := Option.map_eq_some_iff.mp h
      rw [List.mapM_cons] at hparts
      simp only [Option.bind_eq_bind, Option.bind_eq_some_iff, Option.pure_def,
        Option.some.injEq] at hparts
      obtain ⟨own, hown, others, hothers, rfl⟩ := hparts
      rw [List.flatten_cons] at hmined
      rcases List.mem_append.mp hmined with hmined | hmined
      · exact ⟨source, List.mem_cons_self, placed_mineSource hshort.1 hown hmined⟩
      · have hrest : mineSources sources = some others.flatten := by
          rw [mineSources, hothers, Option.map_some]
        obtain ⟨found, hfound, hplaced⟩ := ih hshort.2 hrest hmined
        exact ⟨found, List.mem_cons_of_mem _ hfound, hplaced⟩

/-- A tally has the spelling and the place of one of its records. -/
theorem exists_mined_of_tallied {records : List Mined} {candidate : Candidate}
    (h : Tallied records candidate) :
    ∃ mined ∈ records, mined.bucket = candidate.bucket ∧ mined.token = candidate.token ∧
      candidate.provenance = ⟨mined.source.sourceUnit, mined.span⟩ := by
  unfold Tallied at h
  cases hgroup : records.filter fun mined => mined.key = candidate.key with
  | nil =>
      rw [hgroup] at h
      cases h
  | cons first rest =>
      have hfirst : first ∈ records.filter fun mined => mined.key = candidate.key := by
        rw [hgroup]
        exact List.mem_cons_self
      rw [hgroup, tally, Option.some.injEq] at h
      exact ⟨first, (List.mem_filter.mp hfirst).1, congrArg Candidate.bucket h,
        congrArg Candidate.token h, (congrArg Candidate.provenance h).symm⟩

theorem exists_mined_of_mem {config : DictionaryCurationConfig} {records : List Mined}
    {entry : Candidate} (h : entry ∈ retainEntries config (records.foldl (record config) ∅)) :
    ∃ mined ∈ records, config.admits mined ∧ mined.bucket = entry.bucket ∧
      mined.token = entry.token ∧ entry.provenance = ⟨mined.source.sourceUnit, mined.span⟩ := by
  have hcuration : IsCuration config (records.filter config.admits)
      (retainEntries config (records.foldl (record config) ∅)) :=
    (isCuration_iff (getElem?_aggregated config records)).mpr rfl
  have hentry := (hcuration.retained entry.bucket).mem entry
    (List.mem_filter.mpr ⟨h, decide_eq_true rfl⟩)
  obtain ⟨mined, hmined, hsame⟩ := exists_mined_of_tallied hentry.1
  exact ⟨mined, (List.mem_filter.mp hmined).1, (List.mem_filter.mp hmined).2, hsame⟩

/-- **The provenance is true**: what the dictionary has is of an allowed
length, and stands letter for letter where its provenance says, in a source
that is not skipped. -/
theorem curateEntries_placed (config : DictionaryCurationConfig)
    {sources : List DictionarySource}
    (hshort : ∀ source ∈ sources, byteLength source.contents < 4294967296)
    {entries : List Candidate} (h : curateEntries config sources = some entries) :
    ∀ entry ∈ entries, config.tokenLengthAllowed entry.bucket entry.token ∧
      ∃ source ∈ sources, shouldSkipSource source.sourceUnit source.path = false ∧
        entry.provenance.sourceUnit = source.sourceUnit ∧
        StandsAt source.contents entry.bucket entry.token entry.provenance.span := by
  obtain ⟨records, hrecords, rfl⟩ := Option.map_eq_some_iff.mp h
  intro entry hentry
  obtain ⟨mined, hmined, hadmits, hbucket, htoken, hprovenance⟩ := exists_mined_of_mem hentry
  obtain ⟨source, hsource, hkept, rfl, hplaced⟩ := placed_mineSources hshort hrecords hmined
  rw [hbucket, htoken] at hplaced
  rw [DictionaryCurationConfig.admits, hbucket, htoken, Bool.and_eq_true] at hadmits
  refine ⟨hadmits.1, mined.source, hsource, hkept, ?_, ?_⟩
  · rw [hprovenance]
  · rw [hprovenance]
    exact hplaced

def sampleEntries : List Candidate :=
  [{ bucket := .string, token := ascii "High", normalized := ascii "high", occurrences := 2
     score := 32, provenance := ⟨"P", ⟨23, 29⟩⟩ },
    { bucket := .exceptionName, token := ascii "Lost", normalized := ascii "lost"
      occurrences := 1, score := 16, provenance := ⟨"P", ⟨62, 66⟩⟩ }]

theorem curateEntries_sample : curateEntries {} [sampleSource] = some sampleEntries := by
  decide +kernel

/-- The string of the sample, at the bytes 23 to 29 of its source. -/
theorem curateEntries_placed_sample :
    DictionaryCurationConfig.tokenLengthAllowed {} .string (ascii "High") ∧
      ∃ source ∈ [sampleSource],
        shouldSkipSource source.sourceUnit source.path = false ∧
        "P" = source.sourceUnit ∧
        StandsAt source.contents .string (ascii "High") ⟨23, 29⟩ :=
  have hentries : curateEntries {} [sampleSource] = some sampleEntries := curateEntries_sample
  curateEntries_placed {} (by decide +kernel) hentries _ List.mem_cons_self

end GovFuzz.FuzzEngine
