import GovFuzz.FuzzEngine.MutationInput

/-!
# Fuzz engine — fragments of structured inputs

How a dictionary token becomes a piece of a structured input: escaped,
percent-encoded or reduced to the bytes the format allows, and cut to a byte
budget on the way.  Every fragment is built by one loop over the token
(`pushEach`) that stops before the budget is exceeded; what differs is the
byte, or the bytes, that stand for a byte of the token.
-/

namespace GovFuzz.FuzzEngine

open GovFuzz.Lib

/-- `for byte in token { .. }` over the growing output; `none` is `break`. -/
@[grind =] def pushEach (push : List UInt8 → UInt8 → Option (List UInt8)) :
    List UInt8 → List UInt8 → List UInt8
  | output, [] => output
  | output, byte :: token =>
      match push output byte with
      | none => output
      | some grown => pushEach push grown token

theorem pushEach_keeps {I : List UInt8 → Prop}
    {push : List UInt8 → UInt8 → Option (List UInt8)}
    (hpush : ∀ output byte grown, push output byte = some grown → I output → I grown)
    (token : List UInt8) {output : List UInt8} (h : I output) :
    I (pushEach push output token) := by
  induction token generalizing output with
  | nil => exact h
  | cons byte token ih =>
      unfold pushEach
      cases hgrown : push output byte with
      | none => exact h
      | some grown => exact ih (hpush output byte grown hgrown h)

/-- `if output.is_empty() { output.push(filler) }`. -/
@[grind =] def orFiller (output : List UInt8) (filler : UInt8) : List UInt8 :=
  if output.isEmpty then [filler] else output

theorem length_orFiller {output : List UInt8} {filler : UInt8} {maxLen : Nat}
    (hpos : maxLen ≠ 0) (h : output.length ≤ maxLen) :
    (orFiller output filler).length ≤ maxLen := by
  unfold orFiller
  by_cases hempty : output.isEmpty
  · rw [if_pos hempty]
    exact Nat.one_le_iff_ne_zero.mpr hpos
  · rwa [if_neg hempty]

theorem orFiller_ne_nil (output : List UInt8) (filler : UInt8) : orFiller output filler ≠ [] := by
  unfold orFiller
  split
  · exact List.cons_ne_nil _ _
  next hempty => simpa using hempty

theorem mem_orFiller {output : List UInt8} {filler byte : UInt8}
    (h : byte ∈ orFiller output filler) : byte ∈ output ∨ byte = filler := by
  unfold orFiller at h
  split at h
  · exact .inr (List.mem_singleton.mp h)
  · exact .inl h

/-- A printable ASCII byte. -/
def printable (byte : UInt8) : Bool := 0x20 ≤ byte && byte ≤ 0x7e

/-- An ASCII letter. -/
def isAlpha (byte : UInt8) : Bool :=
  (0x41 ≤ byte && byte ≤ 0x5a) || (0x61 ≤ byte && byte ≤ 0x7a)

/-- An ASCII digit. -/
def isDigit (byte : UInt8) : Bool := 0x30 ≤ byte && byte ≤ 0x39

/-! ## One byte for a byte -/

/-- One more byte, unless the budget is used up. -/
@[grind =] def pushImage (maxLen : Nat) (image : List UInt8 → UInt8 → UInt8) (output : List UInt8)
    (byte : UInt8) : Option (List UInt8) :=
  if output.length ≥ maxLen then none else some (output ++ [image output byte])

theorem length_pushImage {maxLen : Nat} {image : List UInt8 → UInt8 → UInt8} (token : List UInt8) :
    (pushEach (pushImage maxLen image) [] token).length ≤ maxLen := by
  refine pushEach_keeps (I := fun output => output.length ≤ maxLen) ?_ token (Nat.zero_le _)
  intro output byte grown hgrown _
  unfold pushImage at hgrown
  by_cases hfull : output.length ≥ maxLen
  · rw [if_pos hfull] at hgrown
    cases hgrown
  · rw [if_neg hfull] at hgrown
    cases hgrown
    rw [List.length_append, List.length_singleton]
    omega

/-- Where what was written does not matter, the images of some bytes from the
front of the token. -/
theorem pushImage_prefix (maxLen : Nat) (image : UInt8 → UInt8) (token output : List UInt8) :
    ∃ used, used <+: token ∧
      pushEach (pushImage maxLen fun _ => image) output token = output ++ used.map image := by
  induction token generalizing output with
  | nil => exact ⟨[], List.nil_prefix, by simp [pushEach]⟩
  | cons byte token ih =>
      by_cases hfull : output.length ≥ maxLen
      · exact ⟨[], List.nil_prefix, by simp [pushEach, pushImage, hfull]⟩
      · obtain ⟨used, hused, hpushed⟩ := ih (output ++ [image byte])
        refine ⟨byte :: used, List.cons_prefix_cons.mpr ⟨rfl, hused⟩, ?_⟩
        simp [pushEach, pushImage, hfull, hpushed]

/-- A fragment that maps the token byte by byte. -/
@[grind =] def imageFragment (image : List UInt8 → UInt8 → UInt8) (filler : UInt8)
    (token : List UInt8) (maxLen : Nat) : Option (List UInt8) :=
  if maxLen = 0 then none
  else some (orFiller (pushEach (pushImage maxLen image) [] token) filler)

/-- A fragment is not empty, and every byte of it is an image or the filler. -/
theorem imageFragment_all {image : List UInt8 → UInt8 → UInt8} {filler : UInt8}
    {p : UInt8 → Prop} (himage : ∀ output byte, p (image output byte)) (hfiller : p filler)
    {token output : List UInt8} {maxLen : Nat}
    (h : imageFragment image filler token maxLen = some output) :
    output ≠ [] ∧ ∀ byte ∈ output, p byte := by
  unfold imageFragment at h
  by_cases hzero : maxLen = 0
  · rw [if_pos hzero] at h
    cases h
  rw [if_neg hzero] at h
  cases h
  have hpushed : ∀ byte ∈ pushEach (pushImage maxLen image) [] token, p byte := by
    refine pushEach_keeps (I := fun output => ∀ byte ∈ output, p byte) ?_ token nofun
    intro output byte grown hgrown hout
    unfold pushImage at hgrown
    by_cases hfull : output.length ≥ maxLen
    · rw [if_pos hfull] at hgrown
      cases hgrown
    · rw [if_neg hfull] at hgrown
      cases hgrown
      intro b hb
      rcases List.mem_append.mp hb with hb | hb
      · exact hout b hb
      · rw [List.mem_singleton.mp hb]
        exact himage output byte
  refine ⟨orFiller_ne_nil _ _, fun byte hbyte => ?_⟩
  rcases mem_orFiller hbyte with hbyte | rfl
  · exact hpushed byte hbyte
  · exact hfiller

/-- A byte of an XML name; the first one is no digit. -/
def xmlNameByte (output : List UInt8) (byte : UInt8) : UInt8 :=
  let isFirst := output.isEmpty
  if isAlpha byte || byte = byteOf '_' then byte
  else if (isDigit byte || byte = byteOf '-' || byte = byteOf '.') && !isFirst then byte
  else if (byte = byteOf ' ' || byte = byteOf '\t') && !isFirst then byteOf '_'
  else if isFirst then byteOf 'x'
  else byteOf '_'

/-- A token as an XML name. -/
def xmlNameFragment : List UInt8 → Nat → Option (List UInt8) :=
  imageFragment xmlNameByte (byteOf 'x')

/-- A byte of a header value: no line end and no tab. -/
def httpHeaderValueByte (_ : List UInt8) (byte : UInt8) : UInt8 :=
  if byte = byteOf '\r' || byte = byteOf '\n' || byte = byteOf '\t' then byteOf '_'
  else if printable byte then byte
  else byteOf '_'

/-- A token as a header value. -/
def httpHeaderValueFragment : List UInt8 → Nat → Option (List UInt8) :=
  imageFragment httpHeaderValueByte (byteOf 'h')

/-- A byte of an INI section or key. -/
def iniNameByte (output : List UInt8) (byte : UInt8) : UInt8 :=
  if isAlpha byte || isDigit byte || byte = byteOf '_' || byte = byteOf '-' ||
      byte = byteOf '.' then byte
  else if byte = byteOf ' ' || byte = byteOf '\t' then byteOf '_'
  else if output.isEmpty then byteOf 'x'
  else byteOf '_'

/-- A token as an INI name. -/
def iniNameFragment : List UInt8 → Nat → Option (List UInt8) :=
  imageFragment iniNameByte (byteOf 'x')

/-- A byte of a bare key; blanks and dots become `_`. -/
def tomlBareKeyByte (output : List UInt8) (byte : UInt8) : UInt8 :=
  if isAlpha byte || isDigit byte || byte = byteOf '_' || byte = byteOf '-' then byte
  else if byte = byteOf ' ' || byte = byteOf '\t' || byte = byteOf '.' then byteOf '_'
  else if output.isEmpty then byteOf 'x'
  else byteOf '_'

/-- A token as a bare key. -/
def tomlBareKeyFragment : List UInt8 → Nat → Option (List UInt8) :=
  imageFragment tomlBareKeyByte (byteOf 'x')

/-- A byte of a body: line ends become blanks. -/
def httpBodyByte (_ : List UInt8) (byte : UInt8) : UInt8 :=
  if byte = byteOf '\r' || byte = byteOf '\n' then byteOf ' '
  else if printable byte then byte
  else byteOf '_'

/-- The body may be empty: no filler, and no budget is too small. -/
def httpBodyFragment (token : List UInt8) (maxLen : Nat) : List UInt8 :=
  pushEach (pushImage maxLen httpBodyByte) [] token

/-! ## Percent encoding -/

/-- One byte where there is room. -/
@[grind =] def pushKeyValueByte (output : List UInt8) (byte : UInt8) (maxLen : Nat) : List UInt8 :=
  if output.length < maxLen then output ++ [byte] else output

/-- The digits of a percent escape. -/
def hex : List UInt8 := ascii "0123456789ABCDEF"

theorem high_lt_hex (byte : UInt8) : byte.toNat / 16 < hex.length := by
  have := byte.toNat_lt
  show byte.toNat / 16 < 16
  omega

theorem low_lt_hex (byte : UInt8) : byte.toNat % 16 < hex.length :=
  Nat.mod_lt _ (by decide)

/-- `%XX` where there is room for all three bytes. -/
@[grind =] def pushPercentEncoded (output : List UInt8) (byte : UInt8) (maxLen : Nat) :
    List UInt8 :=
  if output.length + 3 > maxLen then output
  else output ++ [byteOf '%', hex.get ⟨byte.toNat / 16, high_lt_hex byte⟩,
    hex.get ⟨byte.toNat % 16, low_lt_hex byte⟩]

theorem length_pushKeyValueByte {output : List UInt8} {byte : UInt8} {maxLen : Nat}
    (h : output.length ≤ maxLen) : (pushKeyValueByte output byte maxLen).length ≤ maxLen := by
  unfold pushKeyValueByte
  split
  · rw [List.length_append, List.length_singleton]
    omega
  · exact h

theorem length_pushPercentEncoded {output : List UInt8} {byte : UInt8} {maxLen : Nat}
    (h : output.length ≤ maxLen) : (pushPercentEncoded output byte maxLen).length ≤ maxLen := by
  unfold pushPercentEncoded
  split
  · exact h
  · rw [List.length_append]
    simp only [List.length_cons, List.length_nil]
    omega

/-- A byte that `image` maps is pushed as one byte, any other is percent-encoded. -/
@[grind =] def pushPercent (maxLen : Nat) (image : UInt8 → Option UInt8) (output : List UInt8)
    (byte : UInt8) : Option (List UInt8) :=
  if output.length ≥ maxLen then none
  else
    match image byte with
    | some plain => some (pushKeyValueByte output plain maxLen)
    | none => some (pushPercentEncoded output byte maxLen)

/-- A fragment that percent-encodes the bytes without an image. -/
@[grind =] def percentFragment (image : UInt8 → Option UInt8) (filler : UInt8) (token : List UInt8)
    (maxLen : Nat) : Option (List UInt8) :=
  if maxLen = 0 then none
  else some (orFiller (pushEach (pushPercent maxLen image) [] token) filler)

/-- A fragment fits its room. -/
theorem length_percentFragment {image : UInt8 → Option UInt8} {filler : UInt8}
    {token output : List UInt8} {maxLen : Nat}
    (h : percentFragment image filler token maxLen = some output) : output.length ≤ maxLen := by
  unfold percentFragment at h
  by_cases hzero : maxLen = 0
  · rw [if_pos hzero] at h
    cases h
  rw [if_neg hzero] at h
  cases h
  refine length_orFiller hzero ?_
  refine pushEach_keeps (I := fun output => output.length ≤ maxLen) ?_ token (Nat.zero_le _)
  intro output byte grown hgrown hlen
  unfold pushPercent at hgrown
  by_cases hfull : output.length ≥ maxLen
  · rw [if_pos hfull] at hgrown
    cases hgrown
  rw [if_neg hfull] at hgrown
  cases himage : image byte with
  | some plain =>
      rw [himage] at hgrown
      cases hgrown
      exact length_pushKeyValueByte hlen
  | none =>
      rw [himage] at hgrown
      cases hgrown
      exact length_pushPercentEncoded hlen

theorem percentFragment_ne_nil {image : UInt8 → Option UInt8} {filler : UInt8}
    {token output : List UInt8} {maxLen : Nat}
    (h : percentFragment image filler token maxLen = some output) : output ≠ [] := by
  unfold percentFragment at h
  by_cases hzero : maxLen = 0
  · rw [if_pos hzero] at h
    cases h
  · rw [if_neg hzero] at h
    cases h
    exact orFiller_ne_nil _ _

/-- What is not an image, nor the filler, nor of an escape, is not in a fragment. -/
theorem not_mem_percentFragment {image : UInt8 → Option UInt8} {filler bad : UInt8}
    {token output : List UInt8} {maxLen : Nat}
    (himage : ∀ byte, image byte ≠ some bad) (hfiller : bad ≠ filler)
    (hescape : bad ∉ byteOf '%' :: hex)
    (h : percentFragment image filler token maxLen = some output) : bad ∉ output := by
  unfold percentFragment at h
  by_cases hzero : maxLen = 0
  · rw [if_pos hzero] at h
    cases h
  rw [if_neg hzero] at h
  cases h
  have hpushed : bad ∉ pushEach (pushPercent maxLen image) [] token := by
    refine pushEach_keeps (I := fun output => bad ∉ output) ?_ token List.not_mem_nil
    intro output byte grown hgrown hout
    unfold pushPercent at hgrown
    by_cases hfull : output.length ≥ maxLen
    · rw [if_pos hfull] at hgrown
      cases hgrown
    rw [if_neg hfull] at hgrown
    cases hbyte : image byte with
    | some plain =>
        rw [hbyte] at hgrown
        cases hgrown
        have hplain : bad ≠ plain := by
          rintro rfl
          exact himage byte hbyte
        unfold pushKeyValueByte
        split
        · simp [hout, hplain]
        · exact hout
    | none =>
        rw [hbyte] at hgrown
        cases hgrown
        unfold pushPercentEncoded
        split
        · exact hout
        · intro hmem
          rcases List.mem_append.mp hmem with hmem | hmem
          · exact hout hmem
          · refine hescape ?_
            rcases List.mem_cons.mp hmem with rfl | hmem
            · exact List.mem_cons_self
            refine List.mem_cons_of_mem _ ?_
            rcases List.mem_cons.mp hmem with rfl | hmem
            · exact List.get_mem _ _
            · rw [List.mem_singleton.mp hmem]
              exact List.get_mem _ _
  intro hmem
  rcases mem_orFiller hmem with hmem | heq
  · exact hpushed hmem
  · exact hfiller heq

/-- The side of a pair a fragment stands on. -/
inductive KeyValueFragmentRole
  | key
  | value

/-- A byte that may stand in a pair; a line end becomes `_`. -/
def keyValueByte (role : KeyValueFragmentRole) (byte : UInt8) : Option UInt8 :=
  if byte = byteOf '\n' || byte = byteOf '\r' then some (byteOf '_')
  else
    match role with
    | .key =>
        if byte = byteOf '=' || byte = byteOf ':' then some (byteOf '_')
        else if byte = byteOf ' ' || byte = byteOf '\t' then some (byteOf '_')
        else if 0x21 ≤ byte && byte ≤ 0x7e then some byte
        else none
    | .value => if printable byte then some byte else none

/-- What stands for an empty side. -/
def keyValueFiller : KeyValueFragmentRole → UInt8
  | .key => byteOf 'k'
  | .value => byteOf 'v'

/-- A token as one side of a pair. -/
def keyValueFragment (token : List UInt8) (maxLen : Nat) (role : KeyValueFragmentRole) :
    Option (List UInt8) := percentFragment (keyValueByte role) (keyValueFiller role) token maxLen

/-- The unreserved bytes of a query. -/
def urlEncodedByte (byte : UInt8) : Option UInt8 :=
  if isAlpha byte || isDigit byte || byte = byteOf '-' || byte = byteOf '_' ||
      byte = byteOf '.' || byte = byteOf '~' then some byte
  else if byte = byteOf ' ' || byte = byteOf '\t' then some (byteOf '+')
  else none

/-- A token as one side of a query's pair. -/
def urlEncodedFragment : List UInt8 → Nat → Option (List UInt8) :=
  percentFragment urlEncodedByte (byteOf 'x')

/-- The bytes a part's name keeps. -/
def multipartNameByte (byte : UInt8) : Option UInt8 :=
  if isAlpha byte || isDigit byte || byte = byteOf '_' || byte = byteOf '-' ||
      byte = byteOf '.' || byte = byteOf '~' then some byte
  else if byte = byteOf ' ' || byte = byteOf '\t' then some (byteOf '_')
  else none

/-- A token as a part's name. -/
def multipartNameFragment : List UInt8 → Nat → Option (List UInt8) :=
  percentFragment multipartNameByte (byteOf 'f')

/-- A token as a part's value. -/
def multipartValueFragment (token : List UInt8) (maxLen : Nat) : Option (List UInt8) :=
  keyValueFragment token maxLen .value

/-- A token as a request's path. -/
def httpPathFragment (token : List UInt8) (maxLen : Nat) : Option (List UInt8) :=
  urlEncodedFragment token maxLen

/-- A token as an INI value. -/
def iniValueFragment (token : List UInt8) (maxLen : Nat) : Option (List UInt8) :=
  keyValueFragment token maxLen .value

/-! ## Escapes -/

/-- The escape of a byte, if it still fits with `reserve` bytes behind it. -/
@[grind =] def pushEscape (maxLen reserve : Nat) (escape : UInt8 → List UInt8) (output : List UInt8)
    (byte : UInt8) : Option (List UInt8) :=
  if output.length + (escape byte).length + reserve > maxLen then none
  else some (output ++ escape byte)

theorem length_pushEscape {maxLen : Nat} (reserve : Nat) {escape : UInt8 → List UInt8}
    (token : List UInt8) {output : List UInt8} (h : output.length + reserve ≤ maxLen) :
    (pushEach (pushEscape maxLen reserve escape) output token).length + reserve ≤ maxLen := by
  refine pushEach_keeps (I := fun output => output.length + reserve ≤ maxLen) ?_ token h
  intro output byte grown hgrown _
  unfold pushEscape at hgrown
  by_cases hfull : output.length + (escape byte).length + reserve > maxLen
  · rw [if_pos hfull] at hgrown
    cases hgrown
  · rw [if_neg hfull] at hgrown
    cases hgrown
    rw [List.length_append]
    omega

/-- An escape is written whole or not at all: the escapes of some bytes from
the front of the token. -/
theorem pushEscape_prefix (maxLen reserve : Nat) (escape : UInt8 → List UInt8)
    (token output : List UInt8) : ∃ used, used <+: token ∧
      pushEach (pushEscape maxLen reserve escape) output token = output ++ used.flatMap escape := by
  induction token generalizing output with
  | nil => exact ⟨[], List.nil_prefix, by simp [pushEach]⟩
  | cons byte token ih =>
      by_cases hfull : output.length + (escape byte).length + reserve > maxLen
      · exact ⟨[], List.nil_prefix, by simp [pushEach, pushEscape, hfull]⟩
      · obtain ⟨used, hused, hpushed⟩ := ih (output ++ escape byte)
        refine ⟨byte :: used, List.cons_prefix_cons.mpr ⟨rfl, hused⟩, ?_⟩
        simp [pushEach, pushEscape, hfull, hpushed]

/-- A digit of `{byte:02x}`. -/
def lowerHexDigit (n : Nat) : UInt8 := if n < 10 then UInt8.ofNat (48 + n) else UInt8.ofNat (87 + n)

/-- The bytes a JSON string writes for a byte. -/
def jsonEscape (byte : UInt8) : List UInt8 :=
  if byte = byteOf '"' then ascii "\\\""
  else if byte = byteOf '\\' then ascii "\\\\"
  else if byte = byteOf '\n' then ascii "\\n"
  else if byte = byteOf '\r' then ascii "\\r"
  else if byte = byteOf '\t' then ascii "\\t"
  else if byte = 0x08 then ascii "\\b"
  else if byte = 0x0c then ascii "\\f"
  else if printable byte then [byte]
  else ascii "\\u00" ++ [lowerHexDigit (byte.toNat / 16), lowerHexDigit (byte.toNat % 16)]

/-- A token as the inside of a JSON string. -/
def jsonEscapedFragment (token : List UInt8) (maxLen : Nat) : List UInt8 :=
  pushEach (pushEscape maxLen 0 jsonEscape) [] token

theorem length_jsonEscapedFragment (token : List UInt8) (maxLen : Nat) :
    (jsonEscapedFragment token maxLen).length ≤ maxLen :=
  length_pushEscape 0 token (Nat.zero_le _)

/-- The entity of a byte, or the byte itself. -/
def xmlEscape (byte : UInt8) : List UInt8 :=
  if byte = byteOf '&' then ascii "&amp;"
  else if byte = byteOf '<' then ascii "&lt;"
  else if byte = byteOf '>' then ascii "&gt;"
  else if byte = byteOf '"' then ascii "&quot;"
  else if byte = 0x27 then ascii "&apos;"
  else if byte = byteOf '\n' || byte = byteOf '\r' || byte = byteOf '\t' then ascii " "
  else if printable byte then [byte]
  else ascii "_"

/-- A token as an element's text. -/
def xmlTextFragment (token : List UInt8) (maxLen : Nat) : Option (List UInt8) :=
  if maxLen = 0 then none
  else some (orFiller (pushEach (pushEscape maxLen 0 xmlEscape) [] token) (byteOf 'x'))

/-! ## Quoted fragments -/

/-- Behind the opening quote: a filler when nothing followed it and there is
room, then the closing quote. -/
@[grind =] def closeQuote (output : List UInt8) (maxLen : Nat) : List UInt8 :=
  if output.length = 1 ∧ output.length + 2 ≤ maxLen then output ++ [byteOf 'x', byteOf '"']
  else output ++ [byteOf '"']

theorem length_closeQuote {output : List UInt8} {maxLen : Nat} (h : output.length + 1 ≤ maxLen) :
    (closeQuote output maxLen).length ≤ maxLen := by
  unfold closeQuote
  split
  next hroom =>
    rw [List.length_append]
    exact hroom.2
  next =>
    rw [List.length_append]
    exact h

theorem closeQuote_nil {maxLen : Nat} (hroom : 3 ≤ maxLen) (quote : UInt8) :
    closeQuote [quote] maxLen = [quote, byteOf 'x', byteOf '"'] := by
  simp [closeQuote, hroom]

theorem closeQuote_cons {body : List UInt8} (hne : body ≠ []) (quote : UInt8) (maxLen : Nat) :
    closeQuote (quote :: body) maxLen = quote :: body ++ [byteOf '"'] := by
  have hpos := List.length_pos_iff.mpr hne
  have hlong : ¬ ((quote :: body).length = 1 ∧ (quote :: body).length + 2 ≤ maxLen) := by
    rw [List.length_cons]
    omega
  rw [closeQuote, if_neg hlong]

/-- A byte inside a quoted cell. -/
def csvEscape (byte : UInt8) : List UInt8 :=
  if byte = byteOf '"' then ascii "\"\""
  else if byte = byteOf '\n' || byte = byteOf '\r' then ascii " "
  else if printable byte then [byte]
  else ascii "_"

/-- A byte of a cell without quotes. -/
def csvByte (_ : List UInt8) (byte : UInt8) : UInt8 :=
  if byte = byteOf ',' || byte = byteOf '"' || byte = byteOf '\n' || byte = byteOf '\r' ||
      byte = byteOf '\t' then byteOf '_'
  else if printable byte then byte
  else byteOf '_'

/-- A token as a cell, quoted where it must be and the room allows. -/
def csvCellFragment (token : List UInt8) (maxLen : Nat) : Option (List UInt8) :=
  if maxLen = 0 then none
  else
    let needsQuotes := token.any fun byte =>
      byte = byteOf ',' || byte = byteOf '"' || byte = byteOf '\n' || byte = byteOf '\r'
    if needsQuotes ∧ maxLen ≥ 3 then
      some (closeQuote (pushEach (pushEscape maxLen 1 csvEscape) [byteOf '"'] token) maxLen)
    else some (orFiller (pushEach (pushImage maxLen csvByte) [] token) (byteOf 'x'))

theorem length_csvCellFragment {token output : List UInt8} {maxLen : Nat}
    (h : csvCellFragment token maxLen = some output) : output.length ≤ maxLen := by
  unfold csvCellFragment at h
  by_cases hzero : maxLen = 0
  · rw [if_pos hzero] at h
    cases h
  rw [if_neg hzero] at h
  dsimp only at h
  split at h
  next hquoted =>
    cases h
    refine length_closeQuote (length_pushEscape 1 token ?_)
    exact Nat.le_trans (by decide) hquoted.2
  next =>
    cases h
    exact length_orFiller hzero (length_pushImage token)

/-- The letter behind the backslash of an escaped byte. -/
def tomlEscapeOf (byte : UInt8) : Option UInt8 :=
  if byte = byteOf '"' || byte = byteOf '\\' then some byte
  else if byte = byteOf '\n' then some (byteOf 'n')
  else if byte = byteOf '\r' then some (byteOf 'r')
  else if byte = byteOf '\t' then some (byteOf 't')
  else none

/-- An escape that does not fit any more falls through to the last two arms:
the byte itself if it is printable, an underscore if not. -/
def pushToml (maxLen : Nat) (output : List UInt8) (byte : UInt8) : Option (List UInt8) :=
  if output.length + 1 ≥ maxLen then none
  else
    let plain := if printable byte then byte else byteOf '_'
    match tomlEscapeOf byte with
    | some escape =>
        if output.length + 3 ≤ maxLen then some (output ++ [byteOf '\\', escape])
        else some (output ++ [plain])
    | none => some (output ++ [plain])

/-- A token as a basic string, its closing quote always in place. -/
def tomlBasicStringFragment (token : List UInt8) (maxLen : Nat) : Option (List UInt8) :=
  if maxLen < 2 then none
  else some (closeQuote (pushEach (pushToml maxLen) [byteOf '"'] token) maxLen)

end GovFuzz.FuzzEngine
