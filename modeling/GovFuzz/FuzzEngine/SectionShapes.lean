import GovFuzz.FuzzEngine.Shapes
import GovFuzz.FuzzEngine.StructuredText
import GovFuzz.Lib.Framed
import GovFuzz.Lib.Sections

/-!
# Fuzz engine — TOML and YAML outputs and the escape that is cut

A quote or a backslash of the value token is escaped while two bytes of the
budget are left beside the closing quote.  Where only one is left the arm of
the escape does not match, the arm of the printable bytes does, and the byte
is written as it is: the string is not closed where it should be.  That is
the only way in which an output does not read back.
-/

namespace GovFuzz.FuzzEngine

open GovFuzz.Lib Sections MutatorSuite

/-! ## Where an escape is cut -/

/-- Two bytes for what is escaped, one for any other byte. -/
@[grind =] def escapedWidth (byte : UInt8) : Nat := if (tomlEscapeOf byte).isSome then 2 else 1

/-- Behind `written` bytes of the budget, a quote or a backslash of the token
falls where one byte is left beside the closing quote. -/
def CutsEscape (budget written : Nat) (token : List UInt8) : Prop :=
  ∃ i, ∃ h : i < token.length, (token[i] = byteOf '"' ∨ token[i] = byteOf '\\')
    ∧ written + ((token.take i).map escapedWidth).sum + 2 = budget

instance (budget written : Nat) (token : List UInt8) :
    Decidable (CutsEscape budget written token) :=
  inferInstanceAs (Decidable (∃ i, ∃ _ : i < token.length, _))

theorem cutsEscape_cons {budget written : Nat} {byte : UInt8} {token : List UInt8} :
    CutsEscape budget written (byte :: token)
      ↔ (byte = byteOf '"' ∨ byte = byteOf '\\') ∧ written + 2 = budget
        ∨ CutsEscape budget (written + escapedWidth byte) token := by
  constructor
  · rintro ⟨i, hi, hbyte, hat⟩
    cases i with
    | zero => exact .inl ⟨hbyte, hat⟩
    | succ i =>
        refine .inr ⟨i, Nat.lt_of_succ_lt_succ hi, hbyte, ?_⟩
        rw [List.take_succ_cons, List.map_cons, List.sum_cons] at hat
        omega
  · rintro (⟨hbyte, hat⟩ | ⟨i, hi, hbyte, hat⟩)
    · exact ⟨0, Nat.succ_pos _, hbyte, hat⟩
    · refine ⟨i + 1, Nat.succ_lt_succ hi, hbyte, ?_⟩
      rw [List.take_succ_cons, List.map_cons, List.sum_cons]
      omega

theorem not_cutsEscape_full {budget written : Nat} (hfull : budget < written + 2)
    (token : List UInt8) : ¬ CutsEscape budget written token := by
  rintro ⟨i, hi, -, hat⟩
  omega

theorem not_cutsEscape_nil (budget written : Nat) : ¬ CutsEscape budget written [] := by
  rintro ⟨i, hi, -⟩
  exact absurd hi (Nat.not_lt_zero i)

/-! ## Strings -/

theorem unescape_tomlEscapeOf {byte escape : UInt8} (h : tomlEscapeOf byte = some escape) :
    (unescape escape).isSome := by
  have hall : ∀ byte, (tomlEscapeOf byte).all fun escape => (unescape escape).isSome :=
    forall_byte (by decide +kernel)
  have hbyte := hall byte
  rwa [h] at hbyte

/-- A byte without an escape stands for itself or becomes an underscore. -/
theorem isPlain_of_not_escaped {byte : UInt8} (h : tomlEscapeOf byte = none) :
    isPlain (if printable byte then byte else byteOf '_') := by
  have hall : ∀ byte, tomlEscapeOf byte = none →
      isPlain (if printable byte then byte else byteOf '_') :=
    forall_byte (by decide +kernel)
  exact hall byte h

/-- A line end or a tab that is not escaped becomes an underscore. -/
theorem isPlain_of_not_quote {byte : UInt8} (hquote : byte ≠ byteOf '"')
    (hback : byte ≠ byteOf '\\') : isPlain (if printable byte then byte else byteOf '_') := by
  have hall : ∀ byte, byte ≠ byteOf '"' → byte ≠ byteOf '\\' →
      isPlain (if printable byte then byte else byteOf '_') :=
    forall_byte (by decide +kernel)
  exact hall byte hquote hback

/-- The loop pushes plain bytes and whole escapes, and behind them one quote
or backslash exactly when the token cuts an escape. -/
def PushedBody (cut : Prop) (body : List UInt8) : Prop :=
  ¬ cut ∧ BasicBody body
    ∨ cut ∧ ∃ whole last, body = whole ++ [last] ∧ BasicBody whole
      ∧ (last = byteOf '"' ∨ last = byteOf '\\')

theorem pushToml_full {maxLen : Nat} {output : List UInt8} (hfull : output.length + 1 ≥ maxLen)
    (token : List UInt8) : pushEach (pushToml maxLen) output token = output := by
  cases token with
  | nil => rfl
  | cons byte token => rw [pushEach, pushToml, if_pos hfull]

/-- A byte that is escaped, but is neither quote nor backslash, is a line end
or a tab: cut, it becomes an underscore. -/
theorem pushToml_pushed {maxLen : Nat} (token : List UInt8) {body : List UInt8}
    (hbody : BasicBody body) (hlen : body.length + 2 ≤ maxLen) :
    ∃ pushed, pushEach (pushToml maxLen) (byteOf '"' :: body) token = byteOf '"' :: pushed
      ∧ PushedBody (CutsEscape maxLen (body.length + 1) token) pushed := by
  induction token generalizing body with
  | nil => exact ⟨body, rfl, .inl ⟨not_cutsEscape_nil _ _, hbody⟩⟩
  | cons byte token ih =>
      have hwritten : (byteOf '"' :: body).length = body.length + 1 := List.length_cons
      by_cases hfull : (byteOf '"' :: body).length + 1 ≥ maxLen
      · refine ⟨body, pushToml_full hfull _, .inl ⟨not_cutsEscape_full ?_ _, hbody⟩⟩
        omega
      rw [pushEach, pushToml, if_neg hfull, cutsEscape_cons]
      cases hescape : tomlEscapeOf byte with
      | none =>
          have hwidth : escapedWidth byte = 1 := by rw [escapedWidth, hescape]; rfl
          have hplain := isPlain_of_not_escaped hescape
          have hgrown := ih (hbody.append (.plain hplain .nil)) (by
            rw [List.length_append, List.length_singleton]
            omega)
          have hkept : ¬ (byte = byteOf '"' ∨ byte = byteOf '\\') := by
            rintro (rfl | rfl) <;> cases hescape
          rw [List.length_append, List.length_singleton] at hgrown
          simp only [hwidth, hkept, false_and, false_or]
          exact hgrown
      | some escape =>
          have hwidth : escapedWidth byte = 2 := by rw [escapedWidth, hescape]; rfl
          dsimp only
          by_cases hroom : (byteOf '"' :: body).length + 3 ≤ maxLen
          · have hgrown := ih (hbody.append (.escape (unescape_tomlEscapeOf hescape) .nil)) (by
              simp only [List.length_append, List.length_cons, List.length_nil]
              omega)
            have hlater : ¬ (body.length + 1 + 2 = maxLen) := by omega
            have hcount : (body ++ [92, escape]).length + 1 = body.length + 1 + 2 := by
              simp only [List.length_append, List.length_cons, List.length_nil]
            rw [hcount] at hgrown
            rw [if_pos hroom]
            simp only [hwidth, hlater, and_false, false_or]
            exact hgrown
          · -- one byte is left, and whatever it becomes is the last
            have hat : body.length + 1 + 2 = maxLen := by omega
            have hlater : ¬ CutsEscape maxLen (body.length + 1 + escapedWidth byte) token := by
              rw [hwidth]
              exact not_cutsEscape_full (by omega) token
            have hlast : ∀ last, (byteOf '"' :: body ++ [last]).length + 1 ≥ maxLen := by
              intro last
              simp only [List.length_append, List.length_cons, List.length_nil]
              omega
            rw [if_neg hroom]
            dsimp only
            rw [pushToml_full (hlast _)]
            by_cases hquote : byte = byteOf '"' ∨ byte = byteOf '\\'
            · have hprintable : printable byte = true := by
                rcases hquote with rfl | rfl <;> rfl
              rw [if_pos hprintable]
              exact ⟨body ++ [byte], rfl,
                .inr ⟨.inl ⟨hquote, hat⟩, body, byte, rfl, hbody, hquote⟩⟩
            · rw [not_or] at hquote
              have hplain := isPlain_of_not_quote hquote.1 hquote.2
              refine ⟨_, rfl, .inl ⟨?_, hbody.append (.plain hplain .nil)⟩⟩
              rintro (⟨heq, -⟩ | hcut)
              · exact heq.elim hquote.1 hquote.2
              · exact hlater hcut

theorem not_isBasicString_of_cut {whole : List UInt8} (h : BasicBody whole) {last : UInt8}
    (hlast : last = byteOf '"' ∨ last = byteOf '\\') :
    ¬ IsBasicString (byteOf '"' :: (whole ++ [last]) ++ [byteOf '"']) := by
  have hopen : byteOf '"' = 34 := rfl
  rw [← readBasicString_isSome_iff, List.cons_append, readBasicString, if_pos hopen,
    List.append_assoc, List.singleton_append, readBody_append h (List.cons_ne_nil _ _)]
  rcases hlast with rfl | rfl <;> decide

/-- A fragment has no newline, and is a basic string exactly when the room does not cut an
escape. -/
theorem tomlBasicStringFragment_closed {token value : List UInt8} {maxLen : Nat}
    (h : tomlBasicStringFragment token maxLen = some value) :
    10 ∉ value ∧ (IsBasicString value ↔ ¬ CutsEscape maxLen 1 token) := by
  unfold tomlBasicStringFragment at h
  by_cases hshort : maxLen < 2
  · rw [if_pos hshort] at h
    cases h
  rw [if_neg hshort] at h
  cases h
  obtain ⟨pushed, heq, hpushed⟩ :=
    pushToml_pushed token BasicBody.nil (Nat.le_of_not_lt hshort)
  rw [heq]
  have hquote : (10 : UInt8) ≠ byteOf '"' := by decide
  rcases hpushed with ⟨hcut, hbody⟩ | ⟨hcut, whole, last, rfl, hwhole, hlast⟩
  · -- nothing is cut: the closing quote ends a body, or the filler is one
    obtain ⟨body, hbody, hclose⟩ : ∃ body, BasicBody body
        ∧ closeQuote (byteOf '"' :: pushed) maxLen = byteOf '"' :: body ++ [byteOf '"'] := by
      cases pushed with
      | nil =>
          by_cases hroom : 3 ≤ maxLen
          · exact ⟨[byteOf 'x'], .plain (by decide) .nil, closeQuote_nil hroom _⟩
          · have hfull : ¬ ([byteOf '"'].length = 1 ∧ [byteOf '"'].length + 2 ≤ maxLen) :=
              fun hand => hroom hand.2
            exact ⟨[], .nil, by rw [closeQuote, if_neg hfull]⟩
      | cons b pushed => exact ⟨b :: pushed, hbody, closeQuote_cons (List.cons_ne_nil b pushed) _ _⟩
    rw [hclose]
    refine ⟨?_, fun _ => hcut, fun _ => ⟨body, hbody, rfl⟩⟩
    simp [hbody.newline_not_mem, byteOf]
  · rw [closeQuote_cons (by simp)]
    refine ⟨?_, fun hbasic => absurd hbasic (not_isBasicString_of_cut hwhole hlast),
      fun hno => absurd hcut hno⟩
    have hmark : (10 : UInt8) ≠ last := by
      rcases hlast with rfl | rfl <;> decide
    simp [hwhole.newline_not_mem, hmark, byteOf]

/-! ## Sections -/

theorem isBareKey_eq (byte : UInt8) : isBareKey byte
    = (isAlpha byte || isDigit byte || byte = byteOf '_' || byte = byteOf '-') := by
  revert byte
  exact forall_byte (by decide +kernel)

theorem isBareKey_tomlBareKeyByte (output : List UInt8) (byte : UInt8) :
    isBareKey (tomlBareKeyByte output byte) := by
  unfold tomlBareKeyByte
  split_ifs with hkept hspace hfirst
  · rw [isBareKey_eq]
    exact hkept
  · decide
  · decide
  · decide

theorem tomlBareKeyFragment_bareKey {token name : List UInt8} {maxLen : Nat}
    (h : tomlBareKeyFragment token maxLen = some name) :
    name ≠ [] ∧ ∀ byte ∈ name, isBareKey byte :=
  imageFragment_all isBareKey_tomlBareKeyByte (by decide) h

def tomlDialect : Dialect where
  opening := ascii "["
  closing := ascii "]"
  indent := []
  separator := ascii " = "
  closing_stops := ⟨_, _, rfl, rfl⟩
  separator_stops := ⟨_, _, rfl, rfl⟩
  one_line := by decide

def yamlDialect : Dialect where
  opening := []
  closing := ascii ":"
  indent := ascii "  "
  separator := ascii ": "
  closing_stops := ⟨_, _, rfl, rfl⟩
  separator_stops := ⟨_, _, rfl, rfl⟩
  one_line := by decide

/-- The fragments of the format are bare keys and a basic string, in the
layout of the dialect. -/
structure MutatorSuite.SectionFormat.Speaks (format : SectionFormat) (dialect : Dialect) :
    Prop where
  name : format.nameFragment = tomlBareKeyFragment
  value : format.valueFragment = tomlBasicStringFragment
  layout : ∀ name key value, format.layout name key value
    = sectionBytes dialect ⟨name, key, value⟩

theorem tomlFormat_speaks : tomlFormat.Speaks tomlDialect := by
  refine ⟨rfl, rfl, fun name key value => ?_⟩
  simp [tomlFormat, tomlDialect, sectionBytes, headerLine, pairLine, ascii]

theorem yamlFormat_speaks : yamlFormat.Speaks yamlDialect := by
  refine ⟨rfl, rfl, fun name key value => ?_⟩
  simp [yamlFormat, yamlDialect, sectionBytes, headerLine, pairLine, ascii]

/-- A section, with the tokens that were drawn for it and the budget of its value. -/
structure DrawnSection where
  nameToken : List UInt8
  keyToken : List UInt8
  valueToken : List UInt8
  valueBudget : Nat
  written : Sections.Section

/-- A section behind `before` bytes: tokens of the dictionary, and all of the
limit that is left for the value. -/
structure DrawnSection.Drawn (dictionary : Dictionary) (maxLen overhead before : Nat)
    (s : DrawnSection) : Prop where
  nameToken : s.nameToken ∈ dictionary.tokens
  keyToken : s.keyToken ∈ dictionary.tokens
  valueToken : s.valueToken ∈ dictionary.tokens
  name : ∃ budget, tomlBareKeyFragment s.nameToken budget = some s.written.name
  key : ∃ budget, tomlBareKeyFragment s.keyToken budget = some s.written.key
  value : tomlBasicStringFragment s.valueToken s.valueBudget = some s.written.value
  budget : before + overhead + s.written.name.length + s.written.key.length + s.valueBudget
    = maxLen

/-- The value token cuts an escape, behind the opening quote. -/
def DrawnSection.CutsEscape (s : DrawnSection) : Prop :=
  FuzzEngine.CutsEscape s.valueBudget 1 s.valueToken

instance (s : DrawnSection) : Decidable s.CutsEscape :=
  inferInstanceAs (Decidable (FuzzEngine.CutsEscape _ _ _))

def drawnBytes (dialect : Dialect) (s : DrawnSection) : List UInt8 :=
  sectionBytes dialect s.written

def SectionsDrawn (dictionary : Dictionary) (dialect : Dialect) (maxLen overhead : Nat)
    (sections : List DrawnSection) : Prop :=
  AtOffsets (drawnBytes dialect) (fun before s => s.Drawn dictionary maxLen overhead before) 0
    sections

section
variable {dictionary : Dictionary} {maxLen overhead before : Nat}

theorem DrawnSection.Drawn.keyed {s : DrawnSection}
    (h : s.Drawn dictionary maxLen overhead before) : s.written.Keyed := by
  obtain ⟨nameBudget, hname⟩ := h.name
  obtain ⟨keyBudget, hkey⟩ := h.key
  exact ⟨tomlBareKeyFragment_bareKey hname, tomlBareKeyFragment_bareKey hkey,
    (tomlBasicStringFragment_closed h.value).1⟩

theorem DrawnSection.Drawn.isBasicString_iff {s : DrawnSection}
    (h : s.Drawn dictionary maxLen overhead before) :
    IsBasicString s.written.value ↔ ¬ s.CutsEscape :=
  (tomlBasicStringFragment_closed h.value).2

/-- Drawn sections are read back as they were written if none of their values
cuts an escape, and not at all if one does. -/
theorem SectionsDrawn.read {dialect : Dialect} {sections : List DrawnSection}
    (h : SectionsDrawn dictionary dialect maxLen overhead sections) :
    readSections dialect (sections.flatMap (drawnBytes dialect))
      = if ∀ s ∈ sections, ¬ s.CutsEscape then some (sections.map DrawnSection.written)
        else none := by
  have hbytes : sections.flatMap (drawnBytes dialect)
      = (sections.map DrawnSection.written).flatMap (sectionBytes dialect) := by
    rw [List.flatMap_map]
    rfl
  have hkeyed : ∀ s ∈ sections.map DrawnSection.written, s.Keyed := by
    intro s hs
    obtain ⟨drawn, hdrawn, rfl⟩ := List.mem_map.mp hs
    obtain ⟨offset, hat⟩ := AtOffsets.exists_offset h hdrawn
    exact hat.keyed
  have hclosed : (∀ s ∈ sections.map DrawnSection.written, IsBasicString s.value)
      ↔ ∀ s ∈ sections, ¬ s.CutsEscape := by
    rw [List.forall_mem_map]
    constructor
    · intro hbasic s hs
      obtain ⟨offset, hat⟩ := AtOffsets.exists_offset h hs
      exact hat.isBasicString_iff.mp (hbasic s hs)
    · intro hcut s hs
      obtain ⟨offset, hat⟩ := AtOffsets.exists_offset h hs
      exact hat.isBasicString_iff.mpr (hcut s hs)
  rw [hbytes, readSections_flatMap dialect hkeyed]
  simp only [hclosed]

end

/-- What the loop over the sections wrote. -/
def SectionsWritten (dictionary : Dictionary) (dialect : Dialect) (maxLen overhead : Nat) :
    (turns : Nat) → Items → Prop :=
  Written (fun sections => sections.flatMap (drawnBytes dialect))
    (SectionsDrawn dictionary dialect maxLen overhead)

/-- An output of drawn sections that reads back as them exactly when none of
their values cuts an escape, and does not read at all when one does. -/
def ReadsUnlessCut (dictionary : Dictionary) (dialect : Dialect) (maxLen : Nat)
    (format : SectionFormat) (output : List UInt8) : Prop :=
  ∃ sections, output = sections.flatMap (drawnBytes dialect)
    ∧ SectionsDrawn dictionary dialect maxLen format.overhead sections
    ∧ 1 ≤ sections.length ∧ sections.length ≤ format.cap
    ∧ (readSections dialect output = some (sections.map DrawnSection.written)
        ↔ ∀ s ∈ sections, ¬ s.CutsEscape)
    ∧ ((readSections dialect output).isSome ↔ ∀ s ∈ sections, ¬ s.CutsEscape)

namespace MutatorSuite

variable (suite : MutatorSuite) (dictionary : Dictionary)

/-- One turn of the loop writes one section at most, in the words of its dialect. -/
theorem sectionBody_written {format : SectionFormat} {dialect : Dialect}
    (hspeaks : format.Speaks dialect) (minLen : Nat) {turns : Nat} {items : Items}
    (h : SectionsWritten dictionary dialect suite.config.maxLen format.overhead turns items) :
    Op.Safe (fun r => SectionsWritten dictionary dialect suite.config.maxLen format.overhead
      (turns + 1) r.run) (suite.sectionBody dictionary format minLen items) := by
  have hdone : SectionsWritten dictionary dialect suite.config.maxLen format.overhead (turns + 1)
      items := h.later
  obtain ⟨sections, rfl, hturns, hsections⟩ := h
  rw [sectionBody]
  refine (Op.Safe.checkedSub _ _).bind fun available havailable => ?_
  refine Op.Safe.ite (fun _ => Op.Safe.pure hdone) fun _ => ?_
  refine dictionary.chooseToken_mem.bind fun nameToken hnameToken => ?_
  refine dictionary.chooseToken_mem.bind fun keyToken hkeyToken => ?_
  refine dictionary.chooseToken_mem.bind fun valueToken hvalueToken => ?_
  refine (Op.Safe.checkedSub _ _).bind fun payloadBudget hpayload => ?_
  dsimp only at havailable ⊢
  rw [hspeaks.name, hspeaks.value]
  refine (Op.Safe.ofOption fun name hname => hname).bind fun name hname => ?_
  refine (Op.Safe.checkedSub _ _).bind fun remaining hremaining => ?_
  refine (Op.Safe.ofOption fun key hkey => hkey).bind fun key hkey => ?_
  refine (Op.Safe.checkedSub _ _).bind fun valueBudget hbudget => ?_
  refine Op.Safe.ite (fun _ => Op.Safe.pure hdone) fun _ => ?_
  refine (Op.Safe.ofOption fun value hvalue => hvalue).bind fun value hvalue => ?_
  -- what is written so far, the overhead and the budget fill the limit
  have hlimit : 0 + (sections.flatMap (drawnBytes dialect)).length + format.overhead + name.length
      + key.length + valueBudget = suite.config.maxLen := by
    omega
  have hdrawn : SectionsDrawn dictionary dialect suite.config.maxLen format.overhead
      (sections ++ [⟨nameToken, keyToken, valueToken, valueBudget, ⟨name, key, value⟩⟩]) :=
    AtOffsets.concat hsections ⟨hnameToken, hkeyToken, hvalueToken, ⟨_, hname⟩, ⟨_, hkey⟩,
      hvalue, hlimit⟩
  refine Op.Safe.pure ?_
  rw [addItem_run, hspeaks.layout]
  refine Written.concat hturns hdrawn ?_
  simp [drawnBytes]

theorem structuredSections_reads {format : SectionFormat} {dialect : Dialect}
    (hspeaks : format.Speaks dialect) (enabled : Bool) (minLen : Nat) :
    Op.Safe (ReadsUnlessCut dictionary dialect suite.config.maxLen format)
      (suite.structuredSections dictionary format enabled minLen) := by
  unfold structuredSections
  refine Op.Safe.ite (fun _ => Op.Safe.missing) fun _ => ?_
  refine (choose_safe _).bind fun extra hextra => ?_
  have hstart : SectionsWritten dictionary dialect suite.config.maxLen format.overhead 0 ([], 0) :=
    Written.start trivial
  refine (upTo_written (fun turns items =>
    suite.sectionBody_written dictionary hspeaks minLen) _ hstart).bind fun items hitems => ?_
  obtain ⟨sections, rfl, hturns, hsections⟩ := hitems
  dsimp only
  refine Op.Safe.ite (fun _ => Op.Safe.missing) fun hcount => ?_
  refine Op.Safe.ite (fun _ => Op.Safe.pure ?_) fun _ => Op.Safe.missing
  refine ⟨sections, rfl, hsections, by omega, by omega, ?_, ?_⟩
  · rw [hsections.read]
    simp
  · rw [hsections.read]
    simp

/-- Whatever the dictionary, the limit and the state of the generator: a TOML
or YAML output reads exactly when none of the values drawn for it cuts an
escape, and any fragment is a basic string exactly when its token cuts none. -/
theorem structuredSections_reads_iff :
    Op.Safe (ReadsUnlessCut dictionary tomlDialect suite.config.maxLen tomlFormat)
        (suite.structuredToml dictionary)
      ∧ Op.Safe (ReadsUnlessCut dictionary yamlDialect suite.config.maxLen yamlFormat)
        (suite.structuredYaml dictionary)
      ∧ ∀ token maxLen value, tomlBasicStringFragment token maxLen = some value →
        (IsBasicString value ↔ ¬ FuzzEngine.CutsEscape maxLen 1 token) :=
  ⟨suite.structuredSections_reads dictionary tomlFormat_speaks _ _,
    suite.structuredSections_reads dictionary yamlFormat_speaks _ _,
    fun _ _ _ hvalue => (tomlBasicStringFragment_closed hvalue).2⟩

/-! ## A quote on the last byte -/

def tableSuite : MutatorSuite where
  config := ⟨13, true, true, true, true, true, true, true, true, true, true, true, true, true⟩

def quoteDictionary : Dictionary := ⟨[ascii "\""], []⟩

/-- The value is three quotes: the second one closes the string. -/
theorem structuredToml_reads_none :
    (Op.exec (tableSuite.structuredToml quoteDictionary) ⟨0⟩).1
        = .ok (ascii "[x]\nx = \"\"\"\n")
      ∧ readSections tomlDialect (ascii "[x]\nx = \"\"\"\n") = none
      ∧ ¬ IsBasicString (ascii "\"\"\"") := by
  refine ⟨by with_unfolding_all rfl, ?_, by decide⟩
  rfl

end MutatorSuite

end GovFuzz.FuzzEngine
