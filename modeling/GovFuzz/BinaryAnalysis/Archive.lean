import GovFuzz.BinaryAnalysis.Readers
import GovFuzz.Cli.Seeds
import GovFuzz.Lib.Occurrences

/-!
# Binary analysis — archives and Go build information

`parse_ar_archive` and `go_buildinfo_modules` of
`crates/binary_analysis/src/lib.rs`.  A member's size is text of ten bytes, so
it is below `10 ^ 10` and the plain sum with the offset fits; the length of a
Go string is any 64-bit number, and the sum with it is a checked one.
-/

namespace GovFuzz.BinaryAnalysis

open GovFuzz.Lib
open GovFuzz.Cli (parseUsize saturatingAdd)
open GovFuzz.Runtrace (trim strLines)

variable {buffer : Slice}

/-! ## ar -/

/-- `to_vec`. -/
def toVec (w : Window buffer) : Slice := ⟨w.bytes, by
  rw [Window.length_bytes]
  exact w.length_le⟩

/-- A member and its contents. -/
structure ArchiveMember where
  name : List Char
  data : Slice
  deriving DecidableEq

/-- Why an archive is refused. -/
inductive ArError where
  | truncatedHeader
  | invalidMagic
  | invalidSize (sizeText : List Char)
  | truncatedMember (name : List Char)
  deriving DecidableEq, Repr

/-- The archive's magic. -/
def isArArchive (bytes : Window buffer) : Bool := (toUtf8 "!<arch>\n").isPrefixOf bytes.bytes

/-- `from_utf8(..).unwrap_or("").trim()`. -/
def arText (raw : List UInt8) : List Char := trim ((fromUtf8 raw).getD "").toList

/-- The name without trailing slashes. -/
def arName (raw : List UInt8) : List Char := ((arText raw).reverse.dropWhile (· = '/')).reverse

/-- The loop, from `offset` on.  A member has a header of 60 bytes, so there
are fewer of them than bytes. -/
def arMembers (bytes : Window buffer) :
    (fuel offset : Nat) → List ArchiveMember → Parse (Except ArError (List ArchiveMember))
  | 0, _, members => return .ok members
  | fuel + 1, offset, members => do
      if bytes.length ≤ offset then return .ok members
      else
        let offset' ← Parse.add offset 60
        if bytes.length < offset' then return .error .truncatedHeader
        else
          let header ← Parse.slice bytes offset offset'
          let magic ← Parse.peek (← Parse.slice header 58 60)
          if magic ≠ toUtf8 "\x60\n" then return .error .invalidMagic
          else
            let name := arName (← Parse.peek (← Parse.slice header 0 16))
            let sizeText := arText (← Parse.peek (← Parse.slice header 48 58))
            match parseUsize sizeText with
            | none => return .error (.invalidSize sizeText)
            | some size =>
                let stop ← Parse.add offset' size
                if bytes.length < stop then return .error (.truncatedMember name)
                else
                  let data ← Parse.slice bytes offset' stop
                  let next := if size % 2 ≠ 0 then saturatingAdd stop 1 else stop
                  arMembers bytes fuel next
                    (if name = [] then members else members ++ [⟨name, toVec data⟩])

/-- The members of an archive. -/
def parseArArchive (bytes : Window buffer) :
    Parse (Except ArError (List ArchiveMember)) := do
  if !isArArchive bytes then return .ok [] else arMembers bytes (bytes.length + 1) 8 []

/-! ## Go build information -/

/-- `\xff Go buildinf:`. -/
def goMagic : List UInt8 := 0xff :: toUtf8 " Go buildinf:"

/-- The loop carries the value and the shift. -/
def uvarintLoop : List UInt8 → (index : Nat) → (result : UInt64) → (shift : Nat) →
    Parse (Option (UInt64 × Nat))
  | [], _, _, _ => return none
  | byte :: rest, index, result, shift => do
      if 10 ≤ index then return none
      -- a shift by the width of the word or more traps
      else if 64 ≤ shift then throw .overflow
      else
        let result := result ||| (byte &&& 0x7f).toUInt64 <<< UInt64.ofNat shift
        if byte &&& 0x80 = 0 then return some (result, ← Parse.add index 1)
        else uvarintLoop rest (index + 1) result (shift + 7)

/-- A varint at the front and its length. -/
def uvarint (data : Window buffer) : Parse (Option (UInt64 × Nat)) :=
  uvarintLoop data.bytes 0 0 0

/-- The string at the front, and what is behind it. -/
def decodeGoString (data : Window buffer) :
    Parse (Option (Window buffer × Window buffer)) := do
  let some (len, read) ← uvarint data | return none
  let some stop ← Parse.checked (checkedAdd read len.toNat) | return none
  let some string ← Parse.checked (data.get? read stop) | return none
  return some (string, ← Parse.slice data stop data.length)

/-- A line `mod` or `dep`, with a path and a version. -/
def goModule (line : List Char) : Option (List Char × List Char) :=
  match line.splitOn '\t' with
  | word :: path :: version :: _ =>
      if word = "mod".toList ∨ word = "dep".toList then
        if trim path ≠ [] ∧ trim version ≠ [] then some (trim path, trim version) else none
      else none
  | _ => none

/-- The modules of a build's module list. -/
def parseGoModinfo (modinfo : List UInt8) : List (List Char × List Char) :=
  (strLines (lossy modinfo)).filterMap goModule

/-- The toolchain and the modules of a Go binary. -/
def goBuildinfoModules (bytes : Window buffer) :
    Parse (Option (List Char × List (List Char × List Char))) := do
  let some magicOff ← Parse.checked (windowPosition goMagic bytes.bytes) | return none
  let flagsAt ← Parse.add magicOff 15
  let some flags ← Parse.checked (bytes.bytes[flagsAt]?) | return none
  if flags &&& 0x2 = 0 then return none
  else
    let some afterHeader ← Parse.checked (bytes.getFrom? (← Parse.add magicOff 32)) | return none
    let some (goVersion, rest) ← decodeGoString afterHeader | return none
    let goVersion := trim (lossy (← Parse.peek goVersion))
    let some (modinfo, _) ← decodeGoString rest | return none
    if modinfo.length < 33 then return some (goVersion, [])
    else
      let last ← Parse.sub modinfo.length 17
      let newline ← Parse.peek (← Parse.slice modinfo last (last + 1))
      if newline ≠ toUtf8 "\n" then return some (goVersion, [])
      else
        let stop ← Parse.sub modinfo.length 16
        let modules ← Parse.peek (← Parse.slice modinfo 16 stop)
        return some (goVersion, parseGoModinfo modules)

/-! ## The sizes of members -/

theorem digits_value_lt (digits : List Char) (value : Nat) (h : digits.all Char.isDigit) :
    digits.foldl (fun value c => value * 10 + (c.toNat - 48)) value
      < (value + 1) * 10 ^ digits.length := by
  induction digits generalizing value with
  | nil => simp
  | cons c digits ih =>
      simp only [List.all_cons, Bool.and_eq_true] at h
      have hdigit : c.toNat - 48 ≤ 9 := by
        have hc : c.val ≤ '9'.val := by
          have := h.1
          simp only [Char.isDigit, Bool.and_eq_true, decide_eq_true_eq] at this
          exact this.2
        have hle : c.toNat ≤ 57 := hc
        omega
      calc (c :: digits).foldl (fun value c => value * 10 + (c.toNat - 48)) value
          < (value * 10 + (c.toNat - 48) + 1) * 10 ^ digits.length := ih _ h.2
        _ ≤ ((value + 1) * 10) * 10 ^ digits.length := Nat.mul_le_mul_right _ (by omega)
        _ = (value + 1) * 10 ^ (c :: digits).length := by
          rw [List.length_cons, Nat.pow_succ, Nat.mul_assoc, Nat.mul_comm 10]

theorem parseUsize_lt {text : List Char} {size : Nat} (h : parseUsize text = some size) :
    size < 10 ^ text.length := by
  have hsign : (if text.head? = some '+' then text.tail else text).length ≤ text.length := by
    split
    · simp
    · exact Nat.le_refl _
  unfold parseUsize at h
  generalize (if text.head? = some '+' then text.tail else text) = digits at h hsign
  dsimp only at h
  split at h
  · cases h
  rename_i hdigits
  simp only [Bool.or_eq_true, decide_eq_true_eq, Bool.not_eq_eq_eq_not, Bool.not_true,
    not_or, Bool.not_eq_false] at hdigits
  split at h
  · have hlt := digits_value_lt digits 0 hdigits.2
    simp only [Nat.zero_add, Nat.one_mul] at hlt
    rw [← Option.some.inj h]
    exact lt_of_lt_of_le hlt (Nat.pow_le_pow_right (by decide) hsign)
  · cases h

theorem length_trim_le (text : List Char) : (trim text).length ≤ text.length := by
  have hinner : ((text.dropWhile Runtrace.isWhitespace).reverse.dropWhile
      Runtrace.isWhitespace).length ≤ text.length :=
    calc _ ≤ (text.dropWhile Runtrace.isWhitespace).reverse.length :=
            (List.dropWhile_suffix _).length_le
      _ = (text.dropWhile Runtrace.isWhitespace).length := List.length_reverse
      _ ≤ text.length := (List.dropWhile_suffix _).length_le
  rwa [trim, List.length_reverse]

theorem length_arText_le (raw : List UInt8) : (arText raw).length ≤ raw.length := by
  refine (length_trim_le _).trans ?_
  cases htext : fromUtf8 raw with
  | none => simp
  | some text =>
      have hbytes := fromUtf8_eq_some.mp htext
      have hle := length_le_flatMap_utf8 text.toList
      rw [← toUtf8_ofList, String.ofList_toList, hbytes] at hle
      exact hle

/-- The loop ends at the end of the bytes, not with the fuel. -/
theorem arMembers_fuel (bytes : Window buffer) {fuel fuel' offset : Nat}
    (h : bytes.length < offset + fuel) (h' : bytes.length < offset + fuel')
    (members : List ArchiveMember) :
    arMembers bytes fuel offset members = arMembers bytes fuel' offset members := by
  have hlen := bytes.length_le
  have hlimit : isizeMax < 2 ^ 64 - 1 := by decide
  induction fuel generalizing fuel' offset members with
  | zero =>
      cases fuel' with
      | zero => rfl
      | succ fuel' =>
          unfold arMembers
          rw [if_pos (by omega)]
  | succ fuel ih =>
      cases fuel' with
      | zero =>
          unfold arMembers
          rw [if_pos (by omega)]
      | succ fuel' =>
          unfold arMembers
          split
          · rfl
          refine Parse.add_bind_congr ?_
          split
          · rfl
          refine bind_congr fun header => ?_
          refine bind_congr fun raw => ?_
          refine bind_congr fun magic => ?_
          split
          · rfl
          refine bind_congr fun raw => ?_
          refine bind_congr fun name => ?_
          refine bind_congr fun raw => ?_
          refine bind_congr fun sizeText => ?_
          dsimp only
          split
          · rfl
          refine Parse.add_bind_congr ?_
          split
          · rfl
          refine bind_congr fun data => ?_
          rename_i size _ hmember
          have hnext : offset + 60 ≤ (if size % 2 ≠ 0 then saturatingAdd (offset + 60 + size) 1
              else offset + 60 + size) := by
            simp only [saturatingAdd]
            split <;> omega
          exact ih (by omega) (by omega) _

/-! ## Both parsers are total -/

/-- The loop over the members neither panics nor reads outside the buffer, with whatever
fuel. -/
theorem arMembers_total (bytes : Window buffer) (fuel offset : Nat)
    (members : List ArchiveMember) :
    Parse.Total buffer (fun _ => True) (arMembers bytes fuel offset members) := by
  have hlen := bytes.length_le
  have hlimit : isizeMax + 10 ^ 10 + 60 < usizeSize := by decide
  induction fuel generalizing offset members with
  | zero => exact .done _
  | succ fuel ih =>
      refine .ite (fun _ => .done _) fun hinside => ?_
      refine .addBind (by omega) ?_
      refine .ite (fun _ => .done _) fun hheader => ?_
      refine (Parse.Total.slice (by omega) (by omega)).bind fun header hslice => ?_
      obtain ⟨-, -, -, hlength⟩ := Window.get?_eq_some hslice
      refine (Parse.Total.slice (by omega) (by omega)).bind fun raw _ => ?_
      refine (Parse.Total.peek raw).bind fun magic _ => ?_
      refine .ite (fun _ => .done _) fun _ => ?_
      refine (Parse.Total.slice (by omega) (by omega)).bind fun raw _ => ?_
      refine (Parse.Total.peek raw).bind fun name _ => ?_
      refine (Parse.Total.slice (by omega) (by omega)).bind fun raw hraw => ?_
      obtain ⟨-, -, -, hten⟩ := Window.get?_eq_some hraw
      refine (Parse.Total.peek raw).bind ?_
      rintro _ rfl
      dsimp only
      cases hsize : parseUsize (arText raw.bytes) with
      | none => exact .done _
      | some size =>
          have hsmall : size < 10 ^ 10 := by
            refine (parseUsize_lt hsize).trans_le (Nat.pow_le_pow_right (by decide) ?_)
            have hle := length_arText_le raw.bytes
            rw [Window.length_bytes] at hle
            omega
          refine .addBind (by omega) ?_
          refine .ite (fun _ => .done _) fun hmember => ?_
          refine (Parse.Total.slice (by omega) (by omega)).bind fun data _ => ?_
          exact ih _ _

theorem parseArArchive_total (bytes : Window buffer) :
    Parse.Total buffer (fun _ => True) (parseArArchive bytes) :=
  .ite (fun _ => .done _) fun _ => arMembers_total bytes _ _ _

/-- The shift is seven times the index, and the tenth byte is the last. -/
theorem uvarintLoop_total (data : List UInt8) (index : Nat) (result : UInt64) :
    Parse.Total buffer (fun _ => True) (uvarintLoop data index result (7 * index)) := by
  induction data generalizing index result with
  | nil => exact .done _
  | cons byte rest ih =>
      have hlimit : 11 < usizeSize := by decide
      refine .ite (fun _ => .done _) fun hindex => ?_
      rw [if_neg (by omega)]
      refine .ite (fun _ => .addBind (by omega) (.done _)) fun _ => ?_
      exact ih (index + 1) _

theorem decodeGoString_total (data : Window buffer) :
    Parse.Total buffer (fun _ => True) (decodeGoString data) := by
  refine (uvarintLoop_total data.bytes 0 0).bindSome (.done _) fun (len, read) _ => ?_
  refine (Parse.Total.checked _).bindSome (.done _) fun stop _ => ?_
  refine (Parse.Total.checked _).bindSome (.done _) fun string hstring => ?_
  obtain ⟨-, hle, -, -⟩ := Window.get?_eq_some hstring
  exact (Parse.Total.slice hle (Nat.le_refl _)).bind fun _ _ => .done _

/-- The modules of a Go binary are decided without a panic. -/
theorem goBuildinfoModules_total (bytes : Window buffer) :
    Parse.Total buffer (fun _ => True) (goBuildinfoModules bytes) := by
  have hlen := bytes.length_le
  have hlimit : isizeMax + 32 < usizeSize := by decide
  refine (Parse.Total.checked _).bindSome (.done _) fun magicOff hmagic => ?_
  have hplace := windowPosition_le hmagic
  rw [Window.length_bytes] at hplace
  refine .addBind (by omega) ?_
  refine (Parse.Total.checked _).bindSome (.done _) fun flags _ => ?_
  refine .ite (fun _ => .done _) fun _ => ?_
  refine .addBind (by omega) ?_
  refine (Parse.Total.checked _).bindSome (.done _) fun afterHeader _ => ?_
  refine (decodeGoString_total afterHeader).bindSome (.done _) fun (goVersion, rest) _ => ?_
  refine (Parse.Total.peek goVersion).bind fun _ _ => ?_
  refine (decodeGoString_total rest).bindSome (.done _) fun (modinfo, _) _ => ?_
  refine .ite (fun _ => .done _) fun hlong => ?_
  refine (Parse.Total.sub (by omega)).bind ?_
  rintro last rfl
  refine (Parse.Total.slice (by omega) (by omega)).bind fun raw _ => ?_
  refine (Parse.Total.peek raw).bind fun newline _ => ?_
  refine .ite (fun _ => .done _) fun _ => ?_
  refine (Parse.Total.sub (by omega)).bind ?_
  rintro stop rfl
  refine (Parse.Total.slice (by omega) (by omega)).bind fun raw _ => ?_
  exact (Parse.Total.peek raw).bind fun _ _ => .done _

/-! ## The members tile the archive -/

/-- A header and the data behind it. -/
structure ArRecord where
  header : List UInt8
  data : Slice
  length_header : header.length = 60
  magic : header.drop 58 = toUtf8 "\x60\n"
  size : parseUsize (arText ((header.drop 48).take 10)) = some data.length

/-- The name in a member's header. -/
def ArRecord.name (record : ArRecord) : List Char := arName (record.header.take 16)

/-- A record without a name (the symbol index, the name table) is no member. -/
def ArRecord.member? (record : ArRecord) : Option ArchiveMember :=
  if record.name = [] then none else some ⟨record.name, record.data⟩

/-- The records one behind the other, with a byte of any value behind data of
odd length, which may be missing at the end. -/
def ArTiles : List UInt8 → List ArRecord → Prop
  | bytes, [] => bytes = []
  | bytes, record :: records => ∃ pad rest,
      bytes = record.header ++ (record.data.bytes ++ (pad ++ rest)) ∧
        (pad.length = record.data.length % 2 ∨ pad = [] ∧ rest = []) ∧ ArTiles rest records

/-- How many bytes a record and its pad take. -/
def ArRecord.stride (record : ArRecord) : Nat :=
  60 + record.data.length + record.data.length % 2

/-- An archive of a first record and others is that record's bytes and behind its stride an
archive of the others. -/
theorem arTiles_cons {bytes : List UInt8} {record : ArRecord} {records : List ArRecord} :
    ArTiles bytes (record :: records) ↔
      60 + record.data.length ≤ bytes.length ∧ record.header = bytes.take 60 ∧
        record.data.bytes = (bytes.drop 60).take record.data.length ∧
        ArTiles (bytes.drop record.stride) records := by
  have hheader := record.length_header
  constructor
  · rintro ⟨pad, rest, rfl, hpad, hrest⟩
    have hbody : ∀ tail : List UInt8, (record.header ++ tail).drop 60 = tail := by
      intro tail
      rw [← hheader, List.drop_left]
    refine ⟨?_, ?_, ?_, ?_⟩
    · simp only [List.length_append, hheader, Slice.length]
      omega
    · rw [← hheader, List.take_left]
    · rw [hbody, Slice.length, List.take_left]
    · have hdrop : (record.header ++ (record.data.bytes ++ (pad ++ rest))).drop record.stride =
          (pad ++ rest).drop (record.data.length % 2) := by
        rw [ArRecord.stride, Nat.add_assoc, ← List.drop_drop, hbody, ← List.drop_drop,
          Slice.length, List.drop_left]
      rw [hdrop]
      rcases hpad with hlen | ⟨rfl, rfl⟩
      · rwa [← hlen, List.drop_left]
      · rwa [List.append_nil, List.drop_nil]
  · rintro ⟨hlen, htake, hdata, hrest⟩
    refine ⟨((bytes.drop 60).drop record.data.length).take (record.data.length % 2),
      bytes.drop record.stride, ?_, ?_, hrest⟩
    · have htail : ((bytes.drop 60).drop record.data.length).take (record.data.length % 2)
          ++ bytes.drop record.stride = (bytes.drop 60).drop record.data.length := by
        rw [ArRecord.stride, Nat.add_assoc, ← List.drop_drop, ← List.drop_drop,
          List.take_append_drop]
      have hbody : record.data.bytes ++ (bytes.drop 60).drop record.data.length
          = bytes.drop 60 := by
        conv_lhs => rw [hdata]
        rw [List.take_append_drop]
      rw [htail, hbody, htake, List.take_append_drop]
    · by_cases hpad : record.stride ≤ bytes.length
      · left
        simp only [ArRecord.stride] at hpad
        simp only [List.length_take, List.length_drop]
        omega
      · right
        simp only [ArRecord.stride] at hpad ⊢
        constructor
        · rw [List.drop_drop, List.drop_of_length_le (by omega), List.take_nil]
        · exact List.drop_of_length_le (by omega)

/-- The members of the tiling are what is returned, and without one there is
an error. -/
def ArAccepts (bytes : List UInt8) (members : List ArchiveMember)
    (result : Except ArError (List ArchiveMember)) : Prop :=
  ∀ out, result = .ok out ↔
    ∃ records, ArTiles bytes records ∧ out = members ++ records.filterMap ArRecord.member?

theorem ArAccepts.nil (members : List ArchiveMember) : ArAccepts [] members (.ok members) := by
  intro out
  constructor
  · intro h
    cases h
    exact ⟨[], rfl, by simp⟩
  · rintro ⟨records, htiles, rfl⟩
    cases records with
    | nil => simp
    | cons record records =>
        have hlen := (arTiles_cons.mp htiles).1
        simp only [List.length_nil] at hlen
        omega

/-- Bytes that are no tiling. -/
theorem ArAccepts.error {bytes : List UInt8} {e : ArError} (hne : bytes ≠ [])
    (h : ∀ record : ArRecord, 60 + record.data.length ≤ bytes.length →
      record.header ≠ bytes.take 60) (members : List ArchiveMember) :
    ArAccepts bytes members (.error e) := by
  intro out
  constructor
  · intro hout
    cases hout
  · rintro ⟨records, htiles, -⟩
    cases records with
    | nil => exact absurd htiles hne
    | cons record records =>
        obtain ⟨hlen, hheader, -⟩ := arTiles_cons.mp htiles
        exact absurd hheader (h record hlen)

/-- The header says how long the data is, so the first record is given. -/
theorem ArAccepts.cons {bytes : List UInt8} {record : ArRecord} {members : List ArchiveMember}
    {result : Except ArError (List ArchiveMember)}
    (hlen : 60 + record.data.length ≤ bytes.length) (hheader : record.header = bytes.take 60)
    (hdata : record.data.bytes = (bytes.drop 60).take record.data.length)
    (h : ArAccepts (bytes.drop record.stride) (members ++ record.member?.toList) result) :
    ArAccepts bytes members result := by
  intro out
  rw [h out]
  have hfilter : ∀ records : List ArRecord,
      members ++ record.member?.toList ++ records.filterMap ArRecord.member? =
        members ++ (record :: records).filterMap ArRecord.member? := by
    intro records
    cases hmember : record.member? with
    | none => simp [hmember]
    | some member => simp [hmember]
  constructor
  · rintro ⟨records, htiles, rfl⟩
    exact ⟨record :: records, arTiles_cons.mpr ⟨hlen, hheader, hdata, htiles⟩, hfilter records⟩
  · rintro ⟨records, htiles, rfl⟩
    cases records with
    | nil =>
        rw [show bytes = [] from htiles, List.length_nil] at hlen
        omega
    | cons other records =>
        obtain ⟨-, hheader', hdata', hrest⟩ := arTiles_cons.mp htiles
        have hsame : other.header = record.header := hheader'.trans hheader.symm
        have hlength : other.data.length = record.data.length := by
          have hsize := other.size
          rw [hsame, record.size] at hsize
          exact (Option.some.inj hsize).symm
        have hother : other = record := by
          obtain ⟨header, data, _, _, _⟩ := other
          obtain ⟨header', data', _, _, _⟩ := record
          obtain rfl : header = header' := hsame
          obtain rfl : data = data' := by
            apply Slice.ext
            rw [hdata', hdata]
            exact congrArg (fun n => (bytes.drop 60).take n) hlength
          rfl
        subst hother
        exact ⟨records, hrest, (hfilter records).symm⟩

theorem memberSize_lt {raw : List UInt8} {size : Nat} (hlen : raw.length ≤ 10)
    (h : parseUsize (arText raw) = some size) : size < 10 ^ 10 :=
  (parseUsize_lt h).trans_le
    (Nat.pow_le_pow_right (by decide) ((length_arText_le raw).trans hlen))

theorem padded_eq {stop size : Nat} (hstop : stop + 1 ≤ 2 ^ 64 - 1) :
    (if size % 2 ≠ 0 then saturatingAdd stop 1 else stop) = stop + size % 2 := by
  rw [saturatingAdd, Nat.min_eq_left hstop]
  split <;> omega

theorem ArRecord.append_member (record : ArRecord) (members : List ArchiveMember) :
    (if record.name = [] then members else members ++ [⟨record.name, record.data⟩]) =
      members ++ record.member?.toList := by
  rw [ArRecord.member?]
  split
  · rw [Option.toList_none, List.append_nil]
  · rw [Option.toList_some]

/-- The induction is on the fuel. Where the loop stops with an error, no record
has the header that stands at `offset`; else the record read there is the first
one of every tiling. -/
theorem arMembers_exact (bytes : Window buffer) {fuel offset : Nat}
    (hfuel : bytes.length < offset + fuel) (members : List ArchiveMember) :
    Parse.Total buffer (ArAccepts (bytes.bytes.drop offset) members)
      (arMembers bytes fuel offset members) := by
  have hbytes := bytes.length_bytes
  have hlen := bytes.length_le
  have hlimit : isizeMax + 10 ^ 10 + 60 < usizeSize := by decide
  have hword : usizeSize = 2 ^ 64 := rfl
  induction fuel generalizing offset members with
  | zero =>
      rw [List.drop_of_length_le (by omega)]
      exact .pure (.nil members)
  | succ fuel ih =>
      refine .ite (fun hend => ?_) fun hinside => ?_
      · rw [List.drop_of_length_le (by omega)]
        exact .pure (.nil members)
      have hne : bytes.bytes.drop offset ≠ [] := by
        intro hnil
        have hzero := congrArg List.length hnil
        simp only [List.length_drop, List.length_nil] at hzero
        omega
      have hdrop : (bytes.bytes.drop offset).length = bytes.length - offset := by
        rw [List.length_drop, hbytes]
      -- The header is cut short, or its magic is wrong.
      refine .addBind (by omega) ?_
      refine .ite (fun hshort => ?_) fun hheader => ?_
      · refine .pure (.error hne (fun record hrecord _ => ?_) members)
        omega
      refine (Parse.Total.slice (by omega) (by omega)).bind fun header hslice => ?_
      have hheaderBytes : header.bytes = (bytes.bytes.drop offset).take 60 := by
        rw [Window.bytes_get? hslice, Nat.add_sub_cancel_left]
      obtain ⟨-, -, -, hlength⟩ := Window.get?_eq_some hslice
      refine (Parse.Total.slice (by omega) (by omega)).bind fun raw hraw => ?_
      refine (Parse.Total.peek raw).bind ?_
      rintro _ rfl
      have hmagic : raw.bytes = header.bytes.drop 58 := by
        have hsixty : header.bytes.length = 60 := by rw [Window.length_bytes]; omega
        rw [Window.bytes_get? hraw, List.take_of_length_le (by rw [List.length_drop]; omega)]
      refine .ite (fun hbad => ?_) fun hgood => ?_
      · refine .pure (.error hne (fun record _ heq => ?_) members)
        rw [hmagic, hheaderBytes, ← heq] at hbad
        exact hbad record.magic
      -- The name and the size; a size that is no number is an error.
      refine (Parse.Total.slice (by omega) (by omega)).bind fun raw hrawName => ?_
      refine (Parse.Total.peek raw).bind ?_
      rintro _ rfl
      refine (Parse.Total.slice (by omega) (by omega)).bind fun rawSize hrawSize => ?_
      refine (Parse.Total.peek rawSize).bind ?_
      rintro _ rfl
      have hsizeBytes : rawSize.bytes = (header.bytes.drop 48).take 10 := Window.bytes_get? hrawSize
      have hnameBytes : raw.bytes = header.bytes.take 16 := by
        rw [Window.bytes_get? hrawName]
        rfl
      dsimp only
      cases hsize : parseUsize (arText rawSize.bytes) with
      | none =>
          refine .pure (.error hne (fun record _ heq => ?_) members)
          have hrecord := record.size
          rw [heq, ← hheaderBytes, ← hsizeBytes, hsize] at hrecord
          cases hrecord
      | some size =>
          have hten : rawSize.bytes.length ≤ 10 := by
            rw [hsizeBytes, List.length_take]
            omega
          have hsmall := memberSize_lt hten hsize
          -- The data is cut short.
          refine .addBind (by omega) ?_
          refine .ite (fun hcut => ?_) fun hmember => ?_
          · refine .pure (.error hne (fun record hrecord heq => ?_) members)
            have hsame := record.size
            rw [heq, ← hheaderBytes, ← hsizeBytes, hsize] at hsame
            have hlength := Option.some.inj hsame
            omega
          refine (Parse.Total.slice (by omega) (by omega)).bind fun data hdata => ?_
          obtain ⟨-, -, -, hdataLength⟩ := Window.get?_eq_some hdata
          have hdataBytes : data.bytes = ((bytes.bytes.drop offset).drop 60).take size := by
            rw [Window.bytes_get? hdata, List.drop_drop, Nat.add_sub_cancel_left]
          have hvec : (toVec data).length = size := by
            show data.bytes.length = size
            rw [Window.length_bytes]
            omega
          -- The record at the offset, and what the next round starts from.
          let record : ArRecord :=
            { header := header.bytes
              data := toVec data
              length_header := by rw [Window.length_bytes]; omega
              magic := by rw [← hmagic]; exact not_not.mp hgood
              size := by rw [← hsizeBytes, hsize, hvec] }
          have hname : arName raw.bytes = record.name := by rw [hnameBytes]; rfl
          have hstride : record.stride = 60 + size + size % 2 := by
            show 60 + (toVec data).length + (toVec data).length % 2 = _
            rw [hvec]
          have hnext : offset + 60 + size + size % 2 = offset + record.stride := by omega
          rw [padded_eq (by omega), hnext, hname, record.append_member members]
          refine (ih (by simp only [ArRecord.stride]; omega) _).mono fun result hresult => ?_
          have hfits : 60 + record.data.length ≤ (bytes.bytes.drop offset).length := by
            show 60 + (toVec data).length ≤ _
            omega
          have hdata' : record.data.bytes =
              ((bytes.bytes.drop offset).drop 60).take record.data.length := by
            show data.bytes = ((bytes.bytes.drop offset).drop 60).take (toVec data).length
            rw [hvec, hdataBytes]
          refine .cons hfits hheaderBytes hdata' ?_
          rwa [List.drop_drop]

theorem parseArArchive_accepts {bytes : Window buffer} (hmagic : isArArchive bytes = true) :
    Parse.Total buffer (ArAccepts (bytes.bytes.drop 8) []) (parseArArchive bytes) := by
  refine .ite (fun hnot => ?_) fun _ => arMembers_exact bytes (by omega) []
  rw [hmagic] at hnot
  cases hnot

/-- An archive is accepted exactly when records tile it behind the magic, and
then its members are the data of those that have a name. -/
theorem parseArArchive_exact (bytes : Window buffer) :
    Parse.Total buffer
      (fun result => ∀ members, result = .ok members ↔
        if isArArchive bytes then ∃ records, ArTiles (bytes.bytes.drop 8) records ∧
          members = records.filterMap ArRecord.member?
        else members = [])
      (parseArArchive bytes) := by
  cases hmagic : isArArchive bytes with
  | true =>
      refine (parseArArchive_accepts hmagic).mono fun result hresult members => ?_
      rw [if_pos rfl, hresult members]
      simp only [List.nil_append]
  | false =>
      refine .ite (fun _ => .pure fun members => ?_) fun hnot => absurd ?_ hnot
      · rw [if_neg Bool.false_ne_true]
        constructor
        · intro h
          cases h
          rfl
        · rintro rfl
          rfl
      · rw [hmagic]
        rfl

/-! ## What archivers write -/

/-- A field of a header: the text, with blanks behind it. -/
def arField (text : List Char) (width : Nat) : List UInt8 :=
  toUtf8 (String.ofList text) ++ List.replicate (width - (toUtf8 (String.ofList text)).length) 32

theorem arField_eq (text : List Char) (width : Nat) :
    arField text width = toUtf8 (String.ofList (text ++ List.replicate
      (width - (toUtf8 (String.ofList text)).length) ' ')) := by
  have hblanks : ∀ n, (List.replicate n ' ').flatMap String.utf8EncodeChar =
      List.replicate n 32 := by
    intro n
    induction n with
    | zero => rfl
    | succ n ih =>
        rw [List.replicate_succ, List.flatMap_cons, ih, List.replicate_succ]
        rfl
  rw [toUtf8_ofList, List.flatMap_append, hblanks, ← toUtf8_ofList]
  rfl

theorem length_arField {text : List Char} {width : Nat}
    (h : (toUtf8 (String.ofList text)).length ≤ width) : (arField text width).length = width := by
  rw [arField, List.length_append, List.length_replicate]
  omega

/-- A text padded to its field is read back. -/
theorem arText_arField {text : List Char} (hne : text ≠ [])
    (hhead : ∀ c, text.head? = some c → Runtrace.isWhitespace c = false)
    (hlast : ∀ c, text.getLast? = some c → Runtrace.isWhitespace c = false) (width : Nat) :
    arText (arField text width) = text := by
  rw [arText, arField_eq, fromUtf8_toUtf8, Option.getD_some, String.toList_ofList]
  generalize width - (toUtf8 (String.ofList text)).length = blanks
  have hkeep : ∀ tail : List Char,
      (text ++ tail).dropWhile Runtrace.isWhitespace = text ++ tail := by
    intro tail
    cases text with
    | nil => exact absurd rfl hne
    | cons c text => simp [hhead c rfl]
  have hblanks : ∀ c ∈ (List.replicate blanks ' ').reverse, Runtrace.isWhitespace c = true := by
    intro c hc
    rw [List.mem_reverse, List.mem_replicate] at hc
    rw [hc.2]
    rfl
  have hback : text.reverse.dropWhile Runtrace.isWhitespace = text.reverse := by
    have hhead' := hlast
    rw [← List.head?_reverse] at hhead'
    cases hrev : text.reverse with
    | nil => rfl
    | cons c back => simp [hhead' c (by rw [hrev]; rfl)]
  rw [trim, hkeep, List.reverse_append, List.dropWhile_append_of_pos hblanks, hback,
    List.reverse_reverse]

/-- A member whose name stands in its header. -/
structure ShortMember where
  name : List Char
  data : Slice
  /-- Date, owner, group and mode. -/
  fill : List UInt8
  name_fits : (toUtf8 (String.ofList name)).length ≤ 15
  name_ne : name ≠ []
  name_head : ∀ c, name.head? = some c → Runtrace.isWhitespace c = false
  name_last : name.getLast? ≠ some '/'
  length_fill : fill.length = 32
  data_fits : data.length < 10 ^ 10

/-- The header of a member. -/
def ShortMember.header (member : ShortMember) : List UInt8 :=
  arField (member.name ++ ['/']) 16 ++ (member.fill ++
    (arField (Nat.toDigits 10 member.data.length) 10 ++ toUtf8 "\x60\n"))

/-- The member, padded to an even length. -/
def ShortMember.bytes (member : ShortMember) : List UInt8 :=
  member.header ++ (member.data.bytes ++ List.replicate (member.data.length % 2) 10)

/-- An archive of these members. -/
def arFile (members : List ShortMember) : List UInt8 :=
  toUtf8 "!<arch>\n" ++ members.flatMap ShortMember.bytes

section
variable (member : ShortMember)

theorem ShortMember.length_name :
    (arField (member.name ++ ['/']) 16).length = 16 := by
  apply length_arField
  have hfits := member.name_fits
  rw [toUtf8_ofList] at hfits ⊢
  rw [List.flatMap_append, List.length_append]
  have hslash : (['/'].flatMap String.utf8EncodeChar).length = 1 := rfl
  omega

theorem ShortMember.length_size :
    (arField (Nat.toDigits 10 member.data.length) 10).length = 10 := by
  apply length_arField
  have hdigits : (Nat.toDigits 10 member.data.length).length ≤ 10 :=
    (Nat.length_toDigits_le_iff (by omega) (by omega)).mpr member.data_fits
  have hascii : ∀ digits : List Char, (∀ c ∈ digits, c.isDigit = true) →
      (digits.flatMap String.utf8EncodeChar).length = digits.length := by
    intro digits hall
    induction digits with
    | nil => rfl
    | cons c digits ih =>
        have hc : c.toNat ≤ 57 := (Char.isDigit_iff_toNat.mp (hall c (by simp))).2
        rw [List.flatMap_cons, List.length_append, ih fun d hd => hall d (by simp [hd]),
          String.length_utf8EncodeChar, List.length_cons]
        have hsize : c.utf8Size = 1 := by
          rw [Char.utf8Size_eq_one_iff, UInt32.le_iff_toNat_le]
          exact hc.trans (by decide)
        omega
  rw [toUtf8_ofList, hascii _ fun c hc => Nat.isDigit_of_mem_toDigits (by omega) (by omega) hc]
  exact hdigits

/-- The header's parts, in their places. -/
theorem ShortMember.header_parts :
    member.header.length = 60 ∧ member.header.drop 58 = toUtf8 "\x60\n" ∧
      member.header.take 16 = arField (member.name ++ ['/']) 16 ∧
      (member.header.drop 48).take 10 = arField (Nat.toDigits 10 member.data.length) 10 := by
  have hname := member.length_name
  have hsize := member.length_size
  have hfill := member.length_fill
  have hmagic : (toUtf8 "\x60\n").length = 2 := by decide +kernel
  have hbehind : ∀ k, member.header.drop (48 + k) =
      (arField (Nat.toDigits 10 member.data.length) 10 ++ toUtf8 "\x60\n").drop k := by
    intro k
    rw [ShortMember.header, ← List.drop_drop, show 48 = 16 + 32 from rfl, ← List.drop_drop,
      List.drop_left' hname, List.drop_left' hfill]
  refine ⟨?_, ?_, ?_, ?_⟩
  · simp only [ShortMember.header, List.length_append, hname, hsize, hfill, hmagic]
  · rw [show 58 = 48 + 10 from rfl, hbehind, List.drop_left' hsize]
  · rw [ShortMember.header, List.take_left' hname]
  · rw [show 48 = 48 + 0 from rfl, hbehind, List.drop_zero, List.take_left' hsize]

/-- The member as a record. -/
def ShortMember.record : ArRecord where
  header := member.header
  data := member.data
  length_header := member.header_parts.1
  magic := member.header_parts.2.1
  size := by
    have hdigit : ∀ c ∈ Nat.toDigits 10 member.data.length, Runtrace.isWhitespace c = false :=
      fun c hc => Runtrace.not_isWhitespace_digit
        (Nat.isDigit_of_mem_toDigits (by omega) (by omega) hc)
    have hfits := member.data_fits
    have htext := arText_arField Nat.toDigits_ne_nil
      (fun c hc => hdigit c (List.mem_of_head? hc))
      (fun c hc => hdigit c (List.mem_of_getLast? hc)) 10
    rw [member.header_parts.2.2.2, htext, Cli.parseUsize_toDigits (by omega)]

theorem ShortMember.name_record : member.record.name = member.name := by
  have hhead : ∀ c, (member.name ++ ['/']).head? = some c → Runtrace.isWhitespace c = false := by
    intro c hc
    rw [List.head?_append_of_ne_nil _ member.name_ne] at hc
    exact member.name_head c hc
  have hlast : ∀ c, (member.name ++ ['/']).getLast? = some c → Runtrace.isWhitespace c = false := by
    intro c hc
    rw [List.getLast?_concat] at hc
    cases hc
    rfl
  show arName (member.header.take 16) = member.name
  rw [member.header_parts.2.2.1, arName, arText_arField (by simp) hhead hlast, List.reverse_concat,
    List.dropWhile_cons_of_pos (by simp)]
  have hname : member.name.reverse.dropWhile (· = '/') = member.name.reverse := by
    have hslash := member.name_last
    rw [← List.head?_reverse] at hslash
    cases hrev : member.name.reverse with
    | nil => rfl
    | cons c back =>
        rw [hrev] at hslash
        exact List.dropWhile_cons_of_neg (by simpa using hslash)
  rw [hname, List.reverse_reverse]

theorem ShortMember.member?_record :
    member.record.member? = some ⟨member.name, member.data⟩ := by
  have hdata : member.record.data = member.data := rfl
  rw [ArRecord.member?, member.name_record, if_neg member.name_ne, hdata]

end

theorem arTiles_arFile (members : List ShortMember) :
    ArTiles (members.flatMap ShortMember.bytes) (members.map ShortMember.record) := by
  induction members with
  | nil => rfl
  | cons member members ih =>
      refine ⟨List.replicate (member.data.length % 2) 10, members.flatMap ShortMember.bytes,
        ?_, .inl List.length_replicate, ih⟩
      rw [List.flatMap_cons, ShortMember.bytes, List.append_assoc, List.append_assoc]
      rfl

/-- Members with names of up to fifteen bytes are read back as they were
written, whatever else their headers say. -/
theorem parseArArchive_arFile (members : List ShortMember)
    (hfits : (arFile members).length ≤ isizeMax) :
    Parse.Total ⟨arFile members, hfits⟩
      (fun result => result = .ok (members.map fun member => ⟨member.name, member.data⟩))
      (parseArArchive (Window.whole ⟨arFile members, hfits⟩)) := by
  have hmagic : isArArchive (Window.whole ⟨arFile members, hfits⟩) = true := by
    rw [isArArchive, Window.whole_bytes, List.isPrefixOf_iff_prefix]
    exact List.prefix_append _ _
  refine (parseArArchive_accepts hmagic).mono fun result hresult => ?_
  rw [hresult]
  refine ⟨members.map ShortMember.record, ?_, ?_⟩
  · have height : (toUtf8 "!<arch>\n").length = 8 := by decide +kernel
    rw [Window.whole_bytes]
    show ArTiles ((toUtf8 "!<arch>\n" ++ _).drop 8) _
    rw [List.drop_left' height]
    exact arTiles_arFile members
  · rw [List.nil_append, List.filterMap_map, ← List.filterMap_eq_map]
    refine List.filterMap_congr fun member _ => ?_
    simp only [Function.comp_apply, ShortMember.member?_record]

/-- A member of odd length: a newline is put behind it. -/
def sampleMember : ShortMember where
  name := ['a']
  data := ⟨[1, 2, 3], by decide⟩
  fill := List.replicate 32 32
  name_fits := by decide +kernel
  name_ne := by decide
  name_head := by
    intro c hc
    cases hc
    rfl
  name_last := by decide
  length_fill := by decide
  data_fits := by
    show 3 < 10 ^ 10
    omega

/-- A member of even length: nothing is put behind it. -/
def evenMember : ShortMember where
  name := ['b', '.', 'o']
  data := ⟨[4, 5], by decide⟩
  fill := List.replicate 32 32
  name_fits := by decide +kernel
  name_ne := by decide
  name_head := by
    intro c hc
    cases hc
    rfl
  name_last := by decide
  length_fill := by decide
  data_fits := by
    show 2 < 10 ^ 10
    omega

theorem parseArArchive_arFile_sample :
    Parse.Total ⟨arFile [sampleMember, evenMember], by decide +kernel⟩
      (fun result => result
        = .ok [⟨['a'], ⟨[1, 2, 3], by decide⟩⟩, ⟨['b', '.', 'o'], ⟨[4, 5], by decide⟩⟩])
      (parseArArchive (Window.whole ⟨arFile [sampleMember, evenMember], by decide +kernel⟩)) :=
  parseArArchive_arFile [sampleMember, evenMember] (by decide +kernel)

end GovFuzz.BinaryAnalysis
