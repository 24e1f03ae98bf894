import GovFuzz.BinaryAnalysis.Archive

/-!
# Binary analysis — what the Go linker embeds

The build information that a Go binary carries in the inline format: a magic,
two strings with their lengths in front, and in the second one a line for each
module.  `go_buildinfo_modules` of `crates/binary_analysis/src/lib.rs` reads
it back from a binary, whatever stands around it.
-/

namespace GovFuzz.BinaryAnalysis

open GovFuzz.Lib
open GovFuzz.Runtrace (trim strLines stripCr strLines_line)

variable {buffer : Slice}

/-! ## Lengths -/

def putUvarintLoop : Nat → Nat → List UInt8
  | 0, _ => []
  | fuel + 1, n =>
      if n < 128 then [UInt8.ofNat n]
      else UInt8.ofNat (n % 128 + 128) :: putUvarintLoop fuel (n / 128)

/-- Seven bits a byte, the lowest first; ten bytes hold every 64-bit number. -/
def putUvarint (n : Nat) : List UInt8 := putUvarintLoop 10 n

/-- The upper bit of a byte says that more follow. -/
theorem and_upperBit (b : UInt8) : b &&& 0x80 = 0 ↔ b.toNat < 128 := by
  have hall : ∀ k : Fin 256, UInt8.ofNat k.val &&& 0x80 = 0 ↔ k.val < 128 := by decide +kernel
  have hb := hall ⟨b.toNat, b.toNat_lt⟩
  rwa [UInt8.ofNat_toNat] at hb

theorem toNat_and_lowerBits (b : UInt8) : (b &&& 0x7f).toNat = b.toNat % 128 := by
  rw [UInt8.toNat_and]
  exact Nat.and_two_pow_sub_one_eq_mod b.toNat 7

/-- A digit that is put above the bits that are there. -/
theorem toNat_or_shiftLeft {result : UInt64} {b : UInt8} {shift : Nat} (hshift : shift < 64)
    (hlow : result.toNat < 2 ^ shift) (hfits : b.toNat * 2 ^ shift < 2 ^ 64) :
    (result ||| b.toUInt64 <<< UInt64.ofNat shift).toNat = result.toNat + b.toNat * 2 ^ shift := by
  have hword : (UInt64.ofNat shift).toNat % 64 = shift := by
    rw [UInt64.toNat_ofNat']
    omega
  have hdigit : (b.toUInt64 <<< UInt64.ofNat shift).toNat = 2 ^ shift * b.toNat := by
    rw [UInt64.toNat_shiftLeft, hword, UInt8.toNat_toUInt64, Nat.shiftLeft_eq, Nat.mul_comm]
    exact Nat.mod_eq_of_lt (by rwa [Nat.mul_comm])
  calc (result ||| b.toUInt64 <<< UInt64.ofNat shift).toNat
      = 2 ^ shift * b.toNat ||| result.toNat := by rw [UInt64.toNat_or, hdigit, Nat.or_comm]
    _ = 2 ^ shift * b.toNat + result.toNat := (Nat.two_pow_add_eq_or_of_lt hlow b.toNat).symm
    _ = result.toNat + b.toNat * 2 ^ shift := by rw [Nat.add_comm, Nat.mul_comm]

/-- The loop reads on from where it is, at any digit. -/
theorem uvarintLoop_put (behind : List UInt8) {fuel index n : Nat} {result : UInt64}
    (hn : n < 128 ^ (fuel + 1)) (hindex : index + fuel < 10)
    (hlow : result.toNat < 2 ^ (7 * index))
    (hfits : result.toNat + n * 2 ^ (7 * index) < 2 ^ 64) :
    Parse.Total buffer
      (fun out => ∃ value, out = some (value, index + (putUvarintLoop (fuel + 1) n).length) ∧
        value.toNat = result.toNat + n * 2 ^ (7 * index))
      (uvarintLoop (putUvarintLoop (fuel + 1) n ++ behind) index result (7 * index)) := by
  have hlimit : 11 < usizeSize := by decide
  induction fuel generalizing index n result with
  | zero =>
      have hsmall : n < 128 := by omega
      have hbyte : (UInt8.ofNat n).toNat = n := by
        rw [UInt8.toNat_ofNat']
        omega
      have hdigit : (UInt8.ofNat n &&& 0x7f).toNat = n := by
        rw [toNat_and_lowerBits, hbyte]
        omega
      rw [putUvarintLoop, if_pos hsmall, List.singleton_append, uvarintLoop, if_neg (by omega),
        if_neg (by omega), if_pos ((and_upperBit _).mpr (by omega))]
      refine .addBind (by omega) (.pure ⟨_, rfl, ?_⟩)
      rw [toNat_or_shiftLeft (by omega) hlow (by rw [hdigit]; omega), hdigit]
  | succ fuel ih =>
      by_cases hsmall : n < 128
      · have hagain : putUvarintLoop (fuel + 1 + 1) n = putUvarintLoop (fuel + 1) n := by
          rw [putUvarintLoop, if_pos hsmall, putUvarintLoop, if_pos hsmall]
        have hpow : 128 ≤ 128 ^ (fuel + 1) := Nat.le_self_pow (Nat.succ_ne_zero fuel) 128
        rw [hagain]
        exact ih (by omega) (by omega) hlow hfits
      have hbyte : (UInt8.ofNat (n % 128 + 128)).toNat = n % 128 + 128 := by
        rw [UInt8.toNat_ofNat']
        omega
      have hdigit : (UInt8.ofNat (n % 128 + 128) &&& 0x7f).toNat = n % 128 := by
        rw [toNat_and_lowerBits, hbyte]
        omega
      have hpow : 2 ^ (7 * (index + 1)) = 128 * 2 ^ (7 * index) := by
        rw [Nat.mul_succ, Nat.pow_add, Nat.mul_comm]
      -- The digit goes to its place, and what is left of the number above it.
      have hsplit : n * 2 ^ (7 * index) =
          n % 128 * 2 ^ (7 * index) + n / 128 * 2 ^ (7 * (index + 1)) := by
        calc n * 2 ^ (7 * index) = (n % 128 + 128 * (n / 128)) * 2 ^ (7 * index) := by
              rw [Nat.mod_add_div]
          _ = n % 128 * 2 ^ (7 * index) + n / 128 * 2 ^ (7 * (index + 1)) := by
              rw [hpow]
              ring
      have hput := toNat_or_shiftLeft (by omega) hlow
        (show (UInt8.ofNat (n % 128 + 128) &&& 0x7f).toNat * 2 ^ (7 * index) < 2 ^ 64 by
          rw [hdigit]
          omega)
      rw [hdigit] at hput
      have hdigitLe : n % 128 * 2 ^ (7 * index) ≤ 127 * 2 ^ (7 * index) :=
        Nat.mul_le_mul_right _ (by omega)
      rw [putUvarintLoop, if_neg hsmall, List.cons_append, uvarintLoop, if_neg (by omega),
        if_neg (by omega), if_neg (by rw [and_upperBit]; omega)]
      refine (@ih (index + 1) (n / 128) _ ?_ (by omega) ?_ ?_).mono ?_
      · rw [Nat.pow_succ] at hn
        omega
      · rw [hput, hpow]
        omega
      · rw [hput]
        omega
      · rintro out ⟨value, rfl, hvalue⟩
        refine ⟨value, ?_, ?_⟩
        · rw [List.length_cons]
          congr 2
          omega
        · rw [hvalue, hput]
          omega

/-- Every 64-bit number is read back from its bytes. -/
theorem uvarint_put {data : Window buffer} {n : Nat} {behind : List UInt8} (hn : n < 2 ^ 64)
    (hdata : data.bytes = putUvarint n ++ behind) :
    Parse.Total buffer
      (fun out => ∃ value, out = some (value, (putUvarint n).length) ∧ value.toNat = n)
      (uvarint data) := by
  have hpow : 2 ^ 64 ≤ 128 ^ 10 := by decide
  rw [uvarint, hdata]
  refine (uvarintLoop_put behind (by omega) (by omega) (by decide) (by simpa using hn)).mono ?_
  rintro out ⟨value, rfl, hvalue⟩
  exact ⟨value, by rw [Nat.zero_add]; rfl, by simpa using hvalue⟩

/-! ## Strings -/

/-- A string with its length in front. -/
def goString (string : List UInt8) : List UInt8 := putUvarint string.length ++ string

/-- A string with its length in front is decoded to itself, and the rest behind it is left.
-/
theorem decodeGoString_goString {data : Window buffer} {string behind : List UInt8}
    (hdata : data.bytes = goString string ++ behind) :
    Parse.Total buffer
      (fun out => ∃ found rest : Window buffer, out = some (found, rest) ∧
        found.bytes = string ∧ rest.bytes = behind)
      (decodeGoString data) := by
  have hlength : (putUvarint string.length).length + string.length + behind.length =
      data.length := by
    rw [← data.length_bytes, hdata, goString, List.length_append, List.length_append]
  have hlimit := data.length_le
  have hword : isizeMax < 2 ^ 64 ∧ usizeSize = 2 ^ 64 := by decide
  have hput := @uvarint_put buffer data string.length (string ++ behind) (by omega)
    (by rw [hdata, goString, List.append_assoc])
  refine hput.bind ?_
  rintro _ ⟨value, rfl, hvalue⟩
  -- the sum of the two lengths fits the word
  have hstop : checkedAdd (putUvarint string.length).length value.toNat =
      some ((putUvarint string.length).length + string.length) := by
    rw [hvalue, checkedAdd, if_pos (by omega)]
  refine (Parse.Total.checked _).bind ?_
  rintro _ rfl
  rw [hstop]
  obtain ⟨found, hfound⟩ := @Window.get?_of_le buffer data (putUvarint string.length).length
    ((putUvarint string.length).length + string.length) (by omega) (by omega)
  refine (Parse.Total.checked _).bind ?_
  rintro _ rfl
  rw [hfound]
  refine (Parse.Total.slice (by omega) (Nat.le_refl _)).bind fun rest hrest => ?_
  refine .pure ⟨found, rest, rfl, ?_, ?_⟩
  · rw [Window.bytes_get? hfound, hdata, goString, List.append_assoc, List.drop_left,
      Nat.add_sub_cancel_left, List.take_left]
  · have hgone : (goString string).length = (putUvarint string.length).length + string.length :=
      List.length_append
    have hall : (data.bytes.drop ((putUvarint string.length).length + string.length)).length ≤
        data.length - ((putUvarint string.length).length + string.length) := by
      rw [List.length_drop, Window.length_bytes]
    rw [Window.bytes_get? hrest, List.take_of_length_le hall, hdata, List.drop_left' hgone]

/-! ## Modules -/

/-- What stands between two tabs. -/
def GoField := { text : List Char // ∀ c ∈ ['\t', '\n', '\r'], c ∉ text }

/-- A field that names something. -/
def GoName := { field : GoField // field.1 ≠ [] ∧ trim field.1 = field.1 }

/-- A line of the module information: the main module and the dependencies
have their path and version in it, any other line (a replacement, a build
setting) begins with another word. -/
inductive GoLine where
  | main (path version : GoName) (more : List GoField)
  | dep (path version : GoName) (more : List GoField)
  | other (word : GoField) (more : List GoField)
      (hword : word.1 ≠ "mod".toList ∧ word.1 ≠ "dep".toList)

def GoLine.fields : GoLine → List (List Char)
  | .main path version more =>
      "mod".toList :: path.1.1 :: version.1.1 :: more.map (·.1)
  | .dep path version more => "dep".toList :: path.1.1 :: version.1.1 :: more.map (·.1)
  | .other word more _ => word.1 :: more.map (·.1)

def GoLine.text (line : GoLine) : List Char := ['\t'].intercalate line.fields

def GoLine.module? : GoLine → Option (List Char × List Char)
  | .main path version _ => some (path.1.1, version.1.1)
  | .dep path version _ => some (path.1.1, version.1.1)
  | .other _ _ _ => none

theorem GoLine.notMem_fields (line : GoLine) {c : Char} (hc : c ∈ ['\t', '\n', '\r']) :
    ∀ field ∈ line.fields, c ∉ field := by
  have hmod : c ∉ "mod".toList ∧ c ∉ "dep".toList := by
    revert c
    decide
  have hmore : ∀ more : List GoField, ∀ field ∈ more.map (·.1), c ∉ field := by
    intro more field hfield
    obtain ⟨other, -, rfl⟩ := List.mem_map.mp hfield
    exact other.2 c hc
  cases line with
  | main path version more =>
      simp only [GoLine.fields, List.forall_mem_cons]
      exact ⟨hmod.1, path.1.2 c hc, version.1.2 c hc, hmore more⟩
  | dep path version more =>
      simp only [GoLine.fields, List.forall_mem_cons]
      exact ⟨hmod.2, path.1.2 c hc, version.1.2 c hc, hmore more⟩
  | other word more hword =>
      simp only [GoLine.fields, List.forall_mem_cons]
      exact ⟨word.2 c hc, hmore more⟩

theorem GoLine.fields_ne_nil (line : GoLine) : line.fields ≠ [] := by
  cases line <;> exact List.cons_ne_nil _ _

/-- What joined texts hold is the separator's or one of theirs. -/
theorem mem_intercalate {c tab : Char} {fields : List (List Char)}
    (h : c ∈ [tab].intercalate fields) : c = tab ∨ ∃ field ∈ fields, c ∈ field := by
  induction fields with
  | nil => cases h
  | cons field fields ih =>
      cases fields with
      | nil =>
          rw [List.intercalate_singleton] at h
          exact .inr ⟨field, by simp, h⟩
      | cons next fields =>
          rw [List.intercalate_cons_cons, List.mem_append, List.mem_append,
            List.mem_singleton] at h
          rcases h with (h | h) | h
          · exact .inr ⟨field, by simp, h⟩
          · exact .inl h
          · rcases ih h with htab | ⟨other, hother, hmem⟩
            · exact .inl htab
            · exact .inr ⟨other, List.mem_cons_of_mem _ hother, hmem⟩

theorem GoLine.notMem_text (line : GoLine) {c : Char} (hc : c ∈ ['\n', '\r']) :
    c ∉ line.text := by
  intro hmem
  rcases mem_intercalate hmem with rfl | ⟨field, hfield, hfound⟩
  · revert hc
    decide
  · exact line.notMem_fields (List.mem_cons_of_mem _ hc) field hfield hfound

/-- A line is split into its fields again. -/
theorem goModule_text (line : GoLine) : goModule line.text = line.module? := by
  have hsplit : line.text.splitOn '\t' = line.fields :=
    List.splitOn_intercalate '\t' (line.notMem_fields (by simp)) line.fields_ne_nil
  rw [goModule, hsplit]
  cases line with
  | main path version more =>
      simp [GoLine.fields, GoLine.module?, path.2.1, path.2.2, version.2.1, version.2.2]
  | dep path version more =>
      simp [GoLine.fields, GoLine.module?, path.2.1, path.2.2, version.2.1, version.2.2]
  | other word more hword =>
      rcases more with _ | ⟨path, _ | ⟨version, more⟩⟩
      · rfl
      · rfl
      · exact if_neg (not_or.mpr hword)

def goText (lines : List GoLine) : List Char := lines.flatMap fun line => line.text ++ ['\n']

theorem strLines_goText (lines : List GoLine) :
    strLines (goText lines) = lines.map GoLine.text := by
  induction lines with
  | nil => rfl
  | cons line lines ih =>
      have hreturn : stripCr line.text = line.text := by
        rw [stripCr, if_neg]
        intro hlast
        exact line.notMem_text (by simp) (List.mem_of_getLast? hlast)
      have htext : goText (line :: lines) = line.text ++ '\n' :: goText lines := by
        simp [goText]
      rw [htext, strLines_line (line.notMem_text (by simp)), hreturn, ih, List.map_cons]

/-- Text in UTF-8 is read as it is. -/
theorem lossy_utf8 (text : List Char) : lossy (text.flatMap String.utf8EncodeChar) = text := by
  induction text with
  | nil => rfl
  | cons c text ih =>
      have hne : (c :: text).flatMap String.utf8EncodeChar ≠ [] := by
        rw [List.flatMap_cons]
        simp [String.utf8EncodeChar_ne_nil]
      obtain ⟨b, rest, hbytes⟩ := List.exists_cons_of_ne_nil hne
      have hahead : String.utf8EncodeChar c ++ text.flatMap String.utf8EncodeChar = b :: rest := by
        rw [← hbytes, List.flatMap_cons]
      obtain ⟨width, hfront⟩ := utf8Front_encode hahead
      have hwidth := @length_take_width b rest
      have hpos := width_pos b rest
      rw [hfront] at hwidth hpos
      obtain ⟨-, hencode⟩ := encode_utf8Front hfront
      rw [Char.ofNat_toNat] at hencode
      have hdrop : rest.drop (width - 1) = text.flatMap String.utf8EncodeChar := by
        calc rest.drop (width - 1) = (b :: rest).drop width := by
              conv_rhs => rw [show width = width - 1 + 1 from (Nat.sub_add_cancel hpos).symm]
              rfl
          _ = text.flatMap String.utf8EncodeChar := by
              have hlength : (String.utf8EncodeChar c).length = width := by
                rw [hencode]
                exact hwidth
              rw [← hahead, List.drop_left' hlength]
      rw [hbytes, lossy_cons, hfront]
      show Char.ofNat c.toNat :: lossy (rest.drop (width - 1)) = c :: text
      rw [hdrop, ih, Char.ofNat_toNat]

theorem parseGoModinfo_goText (lines : List GoLine) :
    parseGoModinfo (toUtf8 (String.ofList (goText lines))) = lines.filterMap GoLine.module? := by
  rw [parseGoModinfo, toUtf8_ofList, lossy_utf8, strLines_goText, List.filterMap_map]
  exact List.filterMap_congr fun line _ => goModule_text line

/-! ## The blob in a binary -/

/-- What the linker writes, and what stands around it. -/
structure BuildInfo where
  before : List UInt8
  ptrSize : UInt8
  flags : UInt8
  fill : List UInt8
  goVersion : List Char
  firstSentinel : List UInt8
  lines : List GoLine
  lastSentinel : List UInt8
  behind : List UInt8
  inline : flags &&& 0x2 ≠ 0
  length_fill : fill.length = 16
  length_firstSentinel : firstSentinel.length = 16
  length_lastSentinel : lastSentinel.length = 16

namespace BuildInfo

variable (info : BuildInfo)

def modinfo : List UInt8 :=
  info.firstSentinel ++ (toUtf8 (String.ofList (goText info.lines)) ++ info.lastSentinel)

def header : List UInt8 := goMagic ++ (info.ptrSize :: info.flags :: info.fill)

def bytes : List UInt8 :=
  info.before ++ (info.header ++ (goString (toUtf8 (String.ofList info.goVersion)) ++
    (goString info.modinfo ++ info.behind)))

/-- The search takes the first magic, wherever it lies. -/
def First : Prop := ∀ k < info.before.length, ¬ goMagic <+: info.bytes.drop k

end BuildInfo

/-- The text of the modules ends in a newline, if there is a line. -/
theorem goText_endsWith {lines : List GoLine} (hlines : lines ≠ []) :
    ∃ front, toUtf8 (String.ofList (goText lines)) = front ++ toUtf8 "\n" := by
  obtain ⟨init, line, rfl⟩ := List.eq_nil_or_concat lines |>.resolve_left hlines
  refine ⟨(goText init ++ line.text).flatMap String.utf8EncodeChar, ?_⟩
  have htext : goText (init ++ [line]) = goText init ++ line.text ++ ['\n'] := by simp [goText]
  rw [List.concat_eq_append, toUtf8_ofList, htext, List.flatMap_append]
  rfl

theorem newline_before_sentinel (info : BuildInfo) (hlines : info.lines ≠ []) :
    33 ≤ info.modinfo.length ∧
      (info.modinfo.drop (info.modinfo.length - 17)).take 1 = toUtf8 "\n" := by
  obtain ⟨front, hfront⟩ := goText_endsWith hlines
  have hone : (toUtf8 "\n").length = 1 := by decide +kernel
  have hfirst := info.length_firstSentinel
  have hlast := info.length_lastSentinel
  have hmodinfo : info.modinfo =
      (info.firstSentinel ++ front) ++ (toUtf8 "\n" ++ info.lastSentinel) := by
    rw [BuildInfo.modinfo, hfront]
    simp
  have hlength : info.modinfo.length = (info.firstSentinel ++ front).length + 17 := by
    rw [hmodinfo]
    simp only [List.length_append, hone, hlast]
  constructor
  · rw [hlength, List.length_append]
    omega
  · rw [hlength, Nat.add_sub_cancel, hmodinfo, List.drop_left, List.take_left' hone]

section
variable (info : BuildInfo)

theorem BuildInfo.length_header : info.header.length = 32 := by
  have hmagic : goMagic.length = 14 := by decide +kernel
  rw [BuildInfo.header, List.length_append, hmagic, List.length_cons, List.length_cons,
    info.length_fill]

theorem BuildInfo.magic_at (hfirst : info.First) :
    windowPosition goMagic info.bytes = some info.before.length := by
  apply windowPosition_first (List.cons_ne_nil _ _) _ hfirst
  rw [BuildInfo.bytes, List.drop_left, BuildInfo.header, List.append_assoc]
  exact List.prefix_append _ _

theorem BuildInfo.flags_at : info.bytes[info.before.length + 15]? = some info.flags := by
  have hmagic : goMagic.length = 14 := by decide +kernel
  rw [BuildInfo.bytes, List.getElem?_append_right (Nat.le_add_right _ _),
    Nat.add_sub_cancel_left, List.getElem?_append_left (by rw [info.length_header]; decide),
    BuildInfo.header, List.getElem?_append_right (by omega), hmagic]
  rfl

theorem BuildInfo.behind_header :
    info.bytes.drop (info.before.length + 32) =
      goString (toUtf8 (String.ofList info.goVersion)) ++ (goString info.modinfo ++ info.behind) :=
    by
  rw [BuildInfo.bytes, ← List.drop_drop, List.drop_left, List.drop_left' info.length_header]

end

/-- The build information of a Go binary is read back from it: the version of
the toolchain and each module that is linked in, whatever stands before the
magic (but another magic) and behind the blob. -/
theorem goBuildinfoModules_embedded (info : BuildInfo) (hfits : info.bytes.length ≤ isizeMax)
    (hfirst : info.First) :
    Parse.Total ⟨info.bytes, hfits⟩
      (fun out => out = some (trim info.goVersion, info.lines.filterMap GoLine.module?))
      (goBuildinfoModules (Window.whole ⟨info.bytes, hfits⟩)) := by
  have hlimit : isizeMax + 32 < usizeSize := by decide
  have hplace : info.before.length + 32 ≤ info.bytes.length := by
    rw [BuildInfo.bytes, List.length_append, List.length_append, info.length_header]
    omega
  have hwhole : (Window.whole ⟨info.bytes, hfits⟩).bytes = info.bytes := Window.whole_bytes
  -- The header: the magic is the one of `info`, since no other stands before it.
  refine (Parse.Total.checked _).bind ?_
  rintro _ rfl
  rw [hwhole, info.magic_at hfirst]
  refine .addBind (by omega) ?_
  refine (Parse.Total.checked _).bind ?_
  rintro _ rfl
  rw [info.flags_at]
  -- The flag of the inline layout is set; the older layout with pointers is not read.
  refine .ite (fun hzero => absurd hzero info.inline) fun _ => ?_
  refine .addBind (by omega) ?_
  obtain ⟨afterHeader, hafter⟩ := @Window.get?_of_le _ (Window.whole ⟨info.bytes, hfits⟩)
    (info.before.length + 32) info.bytes.length hplace (Nat.le_refl _)
  have hbytes : afterHeader.bytes = goString (toUtf8 (String.ofList info.goVersion)) ++
      (goString info.modinfo ++ info.behind) := by
    rw [Window.bytes_get? hafter, hwhole, List.take_of_length_le (by rw [List.length_drop]),
      info.behind_header]
  refine (Parse.Total.checked _).bind ?_
  rintro _ rfl
  rw [show (Window.whole ⟨info.bytes, hfits⟩).getFrom? (info.before.length + 32) =
    some afterHeader from hafter]
  -- Two strings with their lengths stand behind the header.
  refine (decodeGoString_goString hbytes).bind ?_
  rintro _ ⟨goVersion, rest, rfl, hversion, hrest⟩
  refine (Parse.Total.peek goVersion).bind ?_
  rintro _ rfl
  rw [hversion, toUtf8_ofList, lossy_utf8]
  refine (decodeGoString_goString hrest).bind ?_
  rintro _ ⟨modinfo, -, rfl, hmodinfo, -⟩
  have hlength : modinfo.length = info.modinfo.length := by
    rw [← hmodinfo, Window.length_bytes]
  have hsentinels := info.length_firstSentinel
  have hsentinels' := info.length_lastSentinel
  -- Without a line there is no newline before the last sentinel, and 32 bytes are too few.
  by_cases hlines : info.lines = []
  · have hshort : modinfo.length < 33 := by
      rw [hlength, BuildInfo.modinfo, hlines]
      simp only [List.length_append, hsentinels, hsentinels']
      decide +kernel
    refine .ite (fun _ => .pure ?_) fun hlong => absurd hshort hlong
    rw [hlines]
    rfl
  obtain ⟨hlong, hnewline⟩ := newline_before_sentinel info hlines
  refine .ite (fun hshort => absurd hshort (by omega)) fun _ => ?_
  refine (Parse.Total.sub (by omega)).bind ?_
  rintro last rfl
  refine (Parse.Total.slice (by omega) (by omega)).bind fun raw hraw => ?_
  refine (Parse.Total.peek raw).bind ?_
  rintro _ rfl
  have hrawBytes : raw.bytes = toUtf8 "\n" := by
    rw [Window.bytes_get? hraw, hmodinfo, hlength, Nat.add_sub_cancel_left, hnewline]
  refine .ite (fun hbad => absurd hrawBytes hbad) fun _ => ?_
  refine (Parse.Total.sub (by omega)).bind ?_
  rintro stop rfl
  refine (Parse.Total.slice (by omega) (by omega)).bind fun modules hmodules => ?_
  refine (Parse.Total.peek modules).bind ?_
  rintro _ rfl
  have hmodulesBytes : modules.bytes = toUtf8 (String.ofList (goText info.lines)) := by
    have htext : modinfo.length - 16 - 16 =
        (toUtf8 (String.ofList (goText info.lines))).length := by
      rw [hlength, BuildInfo.modinfo, List.length_append, List.length_append]
      omega
    rw [Window.bytes_get? hmodules, hmodinfo, htext, BuildInfo.modinfo,
      List.drop_left' hsentinels, List.take_left]
  refine .pure ?_
  rw [hmodulesBytes, parseGoModinfo_goText]

/-- A binary with one dependency, and a replacement of it. -/
def sampleInfo : BuildInfo where
  before := [0x7f, 0xff]
  ptrSize := 8
  flags := 2
  fill := List.replicate 16 0
  goVersion := "go1".toList
  firstSentinel := List.replicate 16 48
  lines :=
    [.dep ⟨⟨['p'], by decide⟩, by decide⟩ ⟨⟨['v', '1'], by decide⟩, by decide⟩ [],
      .other ⟨['=', '>'], by decide⟩ [⟨['q'], by decide⟩, ⟨['v', '2'], by decide⟩] (by decide)]
  lastSentinel := List.replicate 16 49
  behind := [0]
  inline := by decide
  length_fill := by decide
  length_firstSentinel := by decide
  length_lastSentinel := by decide

theorem sampleInfo_fits : sampleInfo.bytes.length ≤ isizeMax := by decide +kernel

theorem goBuildinfoModules_embedded_sample :
    Parse.Total ⟨sampleInfo.bytes, sampleInfo_fits⟩
      (fun out => out = some ("go1".toList, [(['p'], ['v', '1'])]))
      (goBuildinfoModules (Window.whole ⟨sampleInfo.bytes, sampleInfo_fits⟩)) :=
  goBuildinfoModules_embedded sampleInfo sampleInfo_fits
    (by unfold BuildInfo.First; decide +kernel)

end GovFuzz.BinaryAnalysis
