import GovFuzz.FuzzEngine.Shapes
import GovFuzz.FuzzEngine.StructuredText
import GovFuzz.Lib.Framed
import GovFuzz.Lib.Multipart

/-!
# Fuzz engine — multipart outputs and their delimiters

A value is one line of printable bytes, but nothing keeps it from being a
delimiter line itself.  An output is split back into the parts that were
written exactly when no value token spells a delimiter in the budget it was
drawn with.
-/

namespace GovFuzz.FuzzEngine

open GovFuzz.Lib MutatorSuite

/-! ## What a token leaves of itself -/

/-- A byte that is not printable leaves no trace: the budget is used up, or
has no room for an escape and the byte is no end of a line. -/
def LeavesNoTrace (budget written : Nat) (byte : UInt8) : Prop :=
  budget ≤ written ∨ byte ≠ byteOf '\n' ∧ byte ≠ byteOf '\r' ∧ budget < written + 3

instance (budget written : Nat) (byte : UInt8) : Decidable (LeavesNoTrace budget written byte) :=
  inferInstanceAs (Decidable (_ ∨ _))

/-- Every byte of the token that is not printable leaves no trace where it stands. -/
def Traceless (budget written : Nat) (token : List UInt8) : Prop :=
  ∀ i, ∀ h : i < token.length, printable token[i] = false →
    LeavesNoTrace budget (written + ((token.take i).filter printable).length) token[i]

instance (budget written : Nat) (token : List UInt8) : Decidable (Traceless budget written token) :=
  inferInstanceAs (Decidable (∀ i, ∀ _ : i < token.length, _))

/-- Behind `written` bytes of the budget, the token leaves `text`: its
printable bytes are the text, as far as the budget goes, and nothing else of
it is seen. -/
def Spells (budget written : Nat) (token text : List UInt8) : Prop :=
  (token.filter printable).take (budget - written) = text ∧ Traceless budget written token

instance (budget written : Nat) (token text : List UInt8) :
    Decidable (Spells budget written token text) :=
  inferInstanceAs (Decidable (_ ∧ _))

theorem traceless_cons {budget written : Nat} {byte : UInt8} {token : List UInt8} :
    Traceless budget written (byte :: token)
      ↔ (printable byte = false → LeavesNoTrace budget written byte)
        ∧ Traceless budget (written + ([byte].filter printable).length) token := by
  have hbehind : ∀ i, ((byte :: token).take (i + 1)).filter printable
      = [byte].filter printable ++ (token.take i).filter printable := by
    intro i
    rw [List.take_succ_cons, ← List.filter_append]
    rfl
  constructor
  · intro h
    refine ⟨h 0 (Nat.succ_pos _), fun i hi hbyte => ?_⟩
    have hnext := h (i + 1) (Nat.succ_lt_succ hi) hbyte
    rwa [hbehind, List.length_append, ← Nat.add_assoc] at hnext
  · rintro ⟨hfirst, hothers⟩ i hi hbyte
    cases i with
    | zero => exact hfirst hbyte
    | succ i =>
        have hnext := hothers i (Nat.lt_of_succ_lt_succ hi) hbyte
        rwa [Nat.add_assoc, ← List.length_append, ← hbehind] at hnext

theorem spells_nil {budget written : Nat} {text : List UInt8} :
    Spells budget written [] text ↔ text = [] := by
  constructor
  · rintro ⟨rfl, -⟩
    exact List.take_nil
  · rintro rfl
    exact ⟨List.take_nil, fun i hi => absurd hi (Nat.not_lt_zero i)⟩

theorem spells_full {budget written : Nat} (hfull : budget ≤ written) {token text : List UInt8} :
    Spells budget written token text ↔ text = [] := by
  have hzero : budget - written = 0 := by omega
  rw [Spells, hzero, List.take_zero]
  constructor
  · intro h
    exact h.1.symm
  · intro h
    exact ⟨h.symm, fun i hi _ => .inl (by omega)⟩

theorem spells_printable {budget written : Nat} (hroom : written < budget) {byte : UInt8}
    (hbyte : printable byte = true) {token text : List UInt8} :
    Spells budget written (byte :: token) text
      ↔ ∃ rest, text = byte :: rest ∧ Spells budget (written + 1) token rest := by
  have hbudget : budget - written = (budget - (written + 1)) + 1 := by omega
  have hfirst : ([byte].filter printable).length = 1 := by simp [hbyte]
  have htake : ((byte :: token).filter printable).take (budget - written)
      = byte :: (token.filter printable).take (budget - (written + 1)) := by
    rw [List.filter_cons_of_pos hbyte, hbudget, List.take_succ_cons]
  rw [Spells, traceless_cons, htake, hfirst]
  constructor
  · rintro ⟨rfl, -, hothers⟩
    exact ⟨_, rfl, rfl, hothers⟩
  · rintro ⟨rest, rfl, rfl, hothers⟩
    refine ⟨rfl, fun hno => ?_, hothers⟩
    rw [hbyte] at hno
    cases hno

theorem spells_traceless {budget written : Nat} {byte : UInt8} (hbyte : printable byte = false)
    (htrace : LeavesNoTrace budget written byte) {token text : List UInt8} :
    Spells budget written (byte :: token) text ↔ Spells budget written token text := by
  have hnone : ([byte].filter printable).length = 0 := by simp [hbyte]
  have hfilter : (byte :: token).filter printable = token.filter printable :=
    List.filter_cons_of_neg (by simp [hbyte])
  rw [Spells, Spells, traceless_cons, hfilter, hnone]
  constructor
  · rintro ⟨htext, -, hothers⟩
    exact ⟨htext, hothers⟩
  · rintro ⟨htext, hothers⟩
    exact ⟨htext, fun _ => htrace, hothers⟩

theorem not_spells_trace {budget written : Nat} {byte : UInt8} (hbyte : printable byte = false)
    (htrace : ¬ LeavesNoTrace budget written byte) {token text : List UInt8} :
    ¬ Spells budget written (byte :: token) text := by
  intro h
  exact htrace (h.2 0 (Nat.succ_pos _) hbyte)

/-! ## Values -/

theorem pushEach_extends {push : List UInt8 → UInt8 → Option (List UInt8)}
    (hpush : ∀ output byte grown, push output byte = some grown → output <+: grown)
    (token output : List UInt8) : output <+: pushEach push output token :=
  pushEach_keeps (I := fun grown => output <+: grown)
    (fun middle byte grown hgrown hfront => hfront.trans (hpush middle byte grown hgrown))
    token (List.prefix_refl output)

theorem pushPercent_extends (maxLen : Nat) (image : UInt8 → Option UInt8)
    (output : List UInt8) (byte : UInt8) (grown : List UInt8)
    (h : pushPercent maxLen image output byte = some grown) : output <+: grown := by
  unfold pushPercent pushKeyValueByte pushPercentEncoded at h
  split at h
  · cases h
  · split at h
    · cases h
      split
      · exact List.prefix_append _ _
      · exact List.prefix_refl _
    · cases h
      split
      · exact List.prefix_refl _
      · exact List.prefix_append _ _

/-- What is pushed behind some output begins with the byte pushed first. -/
theorem pushEach_ne_of_mark {maxLen : Nat} {image : UInt8 → Option UInt8} {mark : UInt8}
    {token output text more : List UInt8} (hmark : mark ∉ text) :
    pushEach (pushPercent maxLen image) (output ++ mark :: more) token ≠ output ++ text := by
  intro heq
  have hfront := pushEach_extends (pushPercent_extends maxLen image) token
    (output ++ mark :: more)
  rw [heq, List.prefix_append_right_inj] at hfront
  exact hmark (hfront.subset List.mem_cons_self)

theorem keyValueByte_printable {byte : UInt8} (h : printable byte = true) :
    keyValueByte .value byte = some byte := by
  have hline : ¬ (byte = byteOf '\n' || byte = byteOf '\r') = true := by
    intro hline
    simp only [Bool.or_eq_true, decide_eq_true_eq] at hline
    rcases hline with rfl | rfl <;> cases h
  rw [keyValueByte, if_neg hline]
  exact if_pos h

theorem keyValueByte_line {byte : UInt8} (h : byte = byteOf '\n' ∨ byte = byteOf '\r') :
    keyValueByte .value byte = some (byteOf '_') := by
  rcases h with rfl | rfl <;> rfl

theorem keyValueByte_other {byte : UInt8} (h : printable byte = false)
    (hnewline : byte ≠ byteOf '\n')
    (hreturn : byte ≠ byteOf '\r') : keyValueByte .value byte = none := by
  simp [keyValueByte, h, hnewline, hreturn]

/-- A text without underscores and percent signs is what the loop pushes
exactly when the token spells it. -/
theorem pushValue_eq_iff {budget : Nat} {text : List UInt8}
    (hplain : byteOf '_' ∉ text ∧ byteOf '%' ∉ text) (token output : List UInt8) :
    pushEach (pushPercent budget (keyValueByte .value)) output token = output ++ text
      ↔ Spells budget output.length token text := by
  induction token generalizing output text with
  | nil =>
      rw [spells_nil, pushEach]
      exact List.self_eq_append_right
  | cons byte token ih =>
      by_cases hfull : output.length ≥ budget
      · rw [spells_full hfull, pushEach, pushPercent, if_pos hfull]
        exact List.self_eq_append_right
      have hroom : output.length < budget := Nat.lt_of_not_le hfull
      rw [pushEach, pushPercent, if_neg hfull]
      cases hbyte : printable byte with
      | true =>
          rw [keyValueByte_printable hbyte, spells_printable hroom hbyte]
          dsimp only
          rw [pushKeyValueByte, if_pos hroom]
          constructor
          · intro hpushed
            have hfront := pushEach_extends (pushPercent_extends budget (keyValueByte .value))
              token (output ++ [byte])
            rw [hpushed, List.prefix_append_right_inj] at hfront
            obtain ⟨rest, rfl⟩ := hfront
            refine ⟨rest, rfl, ?_⟩
            have hrest : byteOf '_' ∉ rest ∧ byteOf '%' ∉ rest :=
              ⟨fun h => hplain.1 (List.mem_append_right _ h),
                fun h => hplain.2 (List.mem_append_right _ h)⟩
            rw [← List.append_assoc] at hpushed
            have hspells := (ih hrest (output ++ [byte])).mp hpushed
            rwa [List.length_append, List.length_singleton] at hspells
          · rintro ⟨rest, rfl, hspells⟩
            have hrest : byteOf '_' ∉ rest ∧ byteOf '%' ∉ rest :=
              ⟨fun h => hplain.1 (List.mem_cons_of_mem _ h),
                fun h => hplain.2 (List.mem_cons_of_mem _ h)⟩
            have hpushed := (ih hrest (output ++ [byte])).mpr (by
              rwa [List.length_append, List.length_singleton])
            rwa [List.append_assoc, List.singleton_append] at hpushed
      | false =>
          by_cases hline : byte = byteOf '\n' ∨ byte = byteOf '\r'
          · -- the end of a line leaves an underscore
            have htrace : ¬ LeavesNoTrace budget output.length byte := by
              rintro (hle | ⟨hnewline, hreturn, -⟩)
              · exact hfull hle
              · exact hline.elim hnewline hreturn
            rw [keyValueByte_line hline]
            dsimp only
            rw [pushKeyValueByte, if_pos hroom]
            exact iff_of_false (pushEach_ne_of_mark hplain.1) (not_spells_trace hbyte htrace)
          rw [not_or] at hline
          rw [keyValueByte_other hbyte hline.1 hline.2]
          dsimp only
          by_cases hescape : output.length + 3 > budget
          · rw [pushPercentEncoded, if_pos hescape,
              spells_traceless hbyte (.inr ⟨hline.1, hline.2, hescape⟩)]
            exact ih hplain output
          · -- an escape leaves its percent sign
            have htrace : ¬ LeavesNoTrace budget output.length byte := by
              rintro (hle | ⟨-, -, hlate⟩)
              · exact hfull hle
              · exact hescape hlate
            rw [pushPercentEncoded, if_neg hescape]
            exact iff_of_false (pushEach_ne_of_mark hplain.2) (not_spells_trace hbyte htrace)

/-- The value is a given text exactly when its token spells the text. -/
theorem multipartValueFragment_eq_iff {token value : List UInt8} {budget : Nat}
    (h : multipartValueFragment token budget = some value) (text : List UInt8) (hne : text ≠ [])
    (hplain : byteOf '_' ∉ text ∧ byteOf '%' ∉ text) (hfiller : text ≠ [byteOf 'v']) :
    value = text ↔ Spells budget 0 token text := by
  have hpushed : pushEach (pushPercent budget (keyValueByte .value)) [] token = [] ++ text
      ↔ Spells budget 0 token text := pushValue_eq_iff hplain token []
  unfold multipartValueFragment keyValueFragment percentFragment at h
  by_cases hzero : budget = 0
  · rw [if_pos hzero] at h
    cases h
  rw [if_neg hzero] at h
  cases h
  rw [← hpushed, List.nil_append]
  unfold orFiller
  by_cases hempty : (pushEach (pushPercent budget (keyValueByte .value)) [] token).isEmpty
  · rw [if_pos hempty, List.isEmpty_iff.mp hempty]
    exact iff_of_false (fun heq => hfiller heq.symm) fun heq => hne heq.symm
  · rw [if_neg hempty]

/-! ## Parts -/

/-- A part, with the tokens that were drawn for it and the budget of its value. -/
structure MultipartPart where
  nameToken : List UInt8
  valueToken : List UInt8
  valueBudget : Nat
  name : List UInt8
  value : List UInt8

/-- The bytes of a part beside its name and its value. -/
def multipartPartOverhead : Nat :=
  multipartDelimiterLen + multipartHeaderPrefix.length + multipartHeaderSuffix.length
    + (ascii "\r\n").length

namespace MultipartPart

/-- The header with the name, an empty line and the value. -/
def lines (part : MultipartPart) : List Multipart.Line :=
  [multipartHeaderPrefix ++ part.name ++ ascii "\"", [], part.value]

def bytes (part : MultipartPart) : List UInt8 :=
  ascii "--" ++ multipartBoundary ++ ascii "\r\n" ++ multipartHeaderPrefix ++ part.name
    ++ multipartHeaderSuffix ++ part.value ++ ascii "\r\n"

/-- The value token spells a delimiter in the budget of the value. -/
def SpellsDelimiter (part : MultipartPart) : Prop :=
  Spells part.valueBudget 0 part.valueToken (Multipart.delimiter multipartBoundary)
    ∨ Spells part.valueBudget 0 part.valueToken (Multipart.closing multipartBoundary)

instance (part : MultipartPart) : Decidable part.SpellsDelimiter :=
  inferInstanceAs (Decidable (_ ∨ _))

/-- A part behind `written` bytes: tokens of the dictionary, and all of the
limit that is left but for the closing delimiter. -/
structure Drawn (dictionary : Dictionary) (maxLen written : Nat) (part : MultipartPart) : Prop where
  nameToken : part.nameToken ∈ dictionary.tokens
  valueToken : part.valueToken ∈ dictionary.tokens
  name : multipartNameFragment part.nameToken 1 = some part.name
  value : multipartValueFragment part.valueToken part.valueBudget = some part.value
  budget : written + multipartPartOverhead + part.name.length + part.valueBudget
    + multipartClosingLen = maxLen

end MultipartPart

/-- Parts one behind the other. -/
def PartsDrawn (dictionary : Dictionary) (maxLen : Nat) (parts : List MultipartPart) : Prop :=
  AtOffsets MultipartPart.bytes (fun written part => part.Drawn dictionary maxLen written) 0 parts

def multipartBytes (parts : List MultipartPart) : List UInt8 :=
  parts.flatMap MultipartPart.bytes

section
variable {dictionary : Dictionary} {maxLen : Nat}

theorem multipartBytes_eq_body (parts : List MultipartPart) :
    multipartBytes parts ++ ascii "--" ++ multipartBoundary ++ ascii "--\r\n"
      = Multipart.body multipartBoundary (parts.map MultipartPart.lines) := by
  have hclosing : ascii "--" ++ (multipartBoundary ++ ascii "--\r\n")
      = Multipart.body multipartBoundary [] := by decide
  induction parts with
  | nil => exact hclosing
  | cons part parts ih =>
      have hbody : Multipart.body multipartBoundary ((part :: parts).map MultipartPart.lines)
          = part.bytes ++ Multipart.body multipartBoundary (parts.map MultipartPart.lines) := by
        simp [Multipart.body, Multipart.bodyLines, Multipart.delimiter, MultipartPart.lines,
          MultipartPart.bytes, multipartHeaderSuffix, ascii]
      rw [hbody, ← ih, multipartBytes, List.flatMap_cons]
      simp only [List.append_assoc]
      rfl

theorem MultipartPart.Drawn.no_return {written : Nat} {part : MultipartPart}
    (h : part.Drawn dictionary maxLen written) : ∀ line ∈ part.lines, 13 ∉ line := by
  have hhex : (13 : UInt8) ∉ byteOf '%' :: hex := by decide
  have hname : 13 ∉ part.name := by
    refine not_mem_percentFragment ?_ (by decide) hhex h.name
    exact forall_byte (by decide +kernel)
  have hvalue : 13 ∉ part.value := by
    refine not_mem_percentFragment ?_ (by decide) hhex h.value
    exact forall_byte (by decide +kernel)
  have hfront : 13 ∉ multipartHeaderPrefix ∧ 13 ∉ ascii "\"" := by decide
  intro line hline
  simp only [MultipartPart.lines, List.mem_cons, List.not_mem_nil, or_false] at hline
  rcases hline with rfl | rfl | rfl
  · simp only [List.mem_append, not_or]
    exact ⟨⟨hfront.1, hname⟩, hfront.2⟩
  · exact List.not_mem_nil
  · exact hvalue

/-- The header and the empty line are no delimiters; the value is none unless
its token spells one. -/
theorem MultipartPart.Drawn.clean_iff {written : Nat} {part : MultipartPart}
    (h : part.Drawn dictionary maxLen written) :
    (∀ line ∈ part.lines, Multipart.Clean multipartBoundary line) ↔ ¬ part.SpellsDelimiter := by
  have hdelimiter := multipartValueFragment_eq_iff h.value
    (Multipart.delimiter multipartBoundary) (by decide) (by decide) (by decide)
  have hclosing := multipartValueFragment_eq_iff h.value
    (Multipart.closing multipartBoundary) (by decide) (by decide) (by decide)
  have hheader : Multipart.Clean multipartBoundary
      (multipartHeaderPrefix ++ part.name ++ ascii "\"") := by
    constructor
    · intro heq
      cases (List.cons.inj heq).1
    · intro heq
      cases (List.cons.inj heq).1
  rw [List.append_assoc] at hheader
  have hempty : Multipart.Clean multipartBoundary [] := by decide
  have hlines : (∀ line ∈ part.lines, Multipart.Clean multipartBoundary line)
      ↔ Multipart.Clean multipartBoundary part.value := by
    simp [MultipartPart.lines, hheader, hempty]
  rw [hlines, MultipartPart.SpellsDelimiter, ← hdelimiter, ← hclosing, not_or]
  rfl

/-- What the loop over the parts wrote. -/
def PartsWritten (dictionary : Dictionary) (maxLen : Nat) : (turns : Nat) → Items → Prop :=
  Written multipartBytes (PartsDrawn dictionary maxLen)

/-- The output is split at its delimiter lines into these parts. -/
def SplitsInto (output : List UInt8) (parts : List MultipartPart) : Prop :=
  Multipart.split multipartBoundary output = some (parts.map MultipartPart.lines)

theorem splitsInto_iff {parts : List MultipartPart} (hne : parts ≠ [])
    (h : PartsDrawn dictionary maxLen parts) :
    SplitsInto (multipartBytes parts ++ ascii "--" ++ multipartBoundary ++ ascii "--\r\n") parts
      ↔ ∀ part ∈ parts, ¬ part.SpellsDelimiter := by
  have hsome : parts.map MultipartPart.lines ≠ [] := fun hnil => hne (List.map_eq_nil_iff.mp hnil)
  have hreturn : ∀ lines ∈ parts.map MultipartPart.lines, ∀ line ∈ lines, 13 ∉ line := by
    intro lines hlines
    obtain ⟨part, hpart, rfl⟩ := List.mem_map.mp hlines
    obtain ⟨before, hdrawn⟩ := h.exists_offset hpart
    exact hdrawn.no_return
  rw [SplitsInto, multipartBytes_eq_body,
    Multipart.split_body_iff multipartBoundary hsome (by decide) hreturn, List.forall_mem_map]
  constructor
  · intro hclean part hpart
    obtain ⟨before, hdrawn⟩ := h.exists_offset hpart
    exact hdrawn.clean_iff.mp (hclean part hpart)
  · intro hspells part hpart
    obtain ⟨before, hdrawn⟩ := h.exists_offset hpart
    exact hdrawn.clean_iff.mpr (hspells part hpart)

end

namespace MutatorSuite

variable (suite : MutatorSuite) (dictionary : Dictionary)

/-- One turn of the loop writes one part at most. -/
theorem multipartPartBody_written {turns : Nat} {items : Items}
    (h : PartsWritten dictionary suite.config.maxLen turns items) :
    Op.Safe (fun r => PartsWritten dictionary suite.config.maxLen (turns + 1) r.run)
      (suite.multipartPartBody dictionary items) := by
  have hdone : PartsWritten dictionary suite.config.maxLen (turns + 1) items := h.later
  obtain ⟨parts, rfl, hturns, hparts⟩ := h
  rw [multipartPartBody]
  refine (Op.Safe.checkedSub _ _).bind fun room hroom => ?_
  refine (Op.Safe.checkedSub _ _).bind fun remaining hremaining => ?_
  dsimp only
  refine Op.Safe.ite (fun _ => Op.Safe.pure hdone) fun _ => ?_
  refine dictionary.chooseToken_mem.bind fun nameToken hnameToken => ?_
  refine dictionary.chooseToken_mem.bind fun valueToken hvalueToken => ?_
  refine (Op.Safe.checkedSub _ _).bind fun payloadBudget hpayload => ?_
  refine (Op.Safe.ofOption fun name hname => hname).bind fun name hname => ?_
  refine (Op.Safe.checkedSub _ _).bind fun valueBudget hbudget => ?_
  refine Op.Safe.ite (fun _ => Op.Safe.pure hdone) fun _ => ?_
  refine (Op.Safe.ofOption fun value hvalue => hvalue).bind fun value hvalue => ?_
  have hlimit : 0 + (multipartBytes parts).length + multipartPartOverhead + name.length
      + valueBudget + multipartClosingLen = suite.config.maxLen := by
    unfold multipartPartOverhead
    omega
  have hdrawn : PartsDrawn dictionary suite.config.maxLen
      (parts ++ [⟨nameToken, valueToken, valueBudget, name, value⟩]) :=
    AtOffsets.concat hparts ⟨hnameToken, hvalueToken, hname, hvalue, hlimit⟩
  refine Op.Safe.pure ?_
  rw [addItem_run]
  refine Written.concat hturns hdrawn ?_
  simp [multipartBytes, MultipartPart.bytes]

/-- An output of one to three parts, each with a name and a value, that is
split into these parts exactly when none of the values drawn for it spells a
delimiter. -/
def SplitsUnlessSpelled (maxLen : Nat) (output : List UInt8) : Prop :=
  ∃ parts, output = multipartBytes parts ++ ascii "--" ++ multipartBoundary ++ ascii "--\r\n"
    ∧ PartsDrawn dictionary maxLen parts ∧ 1 ≤ parts.length
    ∧ parts.length ≤ maxStructuredMultipartParts
    ∧ (∀ part ∈ parts, part.name ≠ [] ∧ part.value ≠ [])
    ∧ (SplitsInto output parts ↔ ∀ part ∈ parts, ¬ part.SpellsDelimiter)

theorem structuredMultipart_splits_iff :
    Op.Safe (SplitsUnlessSpelled dictionary suite.config.maxLen)
      (suite.structuredMultipart dictionary) := by
  unfold structuredMultipart
  refine Op.Safe.ite (fun _ => Op.Safe.missing) fun _ => ?_
  refine (choose_safe _).bind fun extra hextra => ?_
  have hstart : PartsWritten dictionary suite.config.maxLen 0 ([], 0) := Written.start trivial
  refine (upTo_written (fun turns items => suite.multipartPartBody_written dictionary) _
    hstart).bind fun items hitems => ?_
  obtain ⟨parts, rfl, hturns, hparts⟩ := hitems
  dsimp only
  refine Op.Safe.ite (fun _ => Op.Safe.missing) fun hcount => ?_
  have hne : parts ≠ [] := fun hnil => hcount (by rw [hnil]; rfl)
  refine Op.Safe.ite (fun _ => Op.Safe.pure ?_) fun _ => Op.Safe.missing
  refine ⟨parts, rfl, hparts, by omega, by omega, fun part hpart => ?_, splitsInto_iff hne hparts⟩
  obtain ⟨before, hdrawn⟩ := hparts.exists_offset hpart
  exact ⟨percentFragment_ne_nil hdrawn.name, percentFragment_ne_nil hdrawn.value⟩

/-! ## A token that is the delimiter -/

def formSuite : MutatorSuite where
  config := ⟨64, true, true, true, true, true, true, true, true, true, true, true, true, true⟩

def hyphenDictionary : Dictionary := ⟨[ascii "--gf"], []⟩

def spelledOutput : List UInt8 :=
  ascii "--gf\r\nContent-Disposition: form-data; name=\"-\"\r\n\r\n--gf\r\n--gf--\r\n"

theorem split_spelledOutput : Multipart.split multipartBoundary spelledOutput
    = some [[ascii "Content-Disposition: form-data; name=\"-\"", []], []] := by
  decide +kernel

/-- The value `--gf` ends its own part before it, and begins one without a header. -/
theorem structuredMultipart_splits_none :
    (Op.exec (formSuite.structuredMultipart hyphenDictionary) ⟨0⟩).1 = .ok spelledOutput
      ∧ ∀ parts, ¬ SplitsInto spelledOutput parts := by
  refine ⟨by with_unfolding_all rfl, fun parts h => ?_⟩
  rw [SplitsInto, split_spelledOutput, Option.some.injEq] at h
  have hshort : [] ∈ parts.map MultipartPart.lines := by
    rw [← h]
    exact List.mem_cons_of_mem _ List.mem_cons_self
  obtain ⟨part, -, hlines⟩ := List.mem_map.mp hshort
  cases hlines

end MutatorSuite

end GovFuzz.FuzzEngine
