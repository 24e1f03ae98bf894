import GovFuzz.FuzzEngine.Shapes
import GovFuzz.FuzzEngine.StructuredText
import GovFuzz.Lib.JsonText

/-!
# Fuzz engine — JSON outputs are documents

A JSON output is read as an object of one string member or as an array of at
most three strings, and every string is the Latin-1 text of some bytes from
the front of a token: an escape that does not fit ends the fragment before
it.
-/

namespace GovFuzz.FuzzEngine

open GovFuzz.Lib

/-! ## Escapes -/

theorem hexValue_lowerHexDigit {n : Nat} (h : n < 16) :
    Json.hexValue (lowerHexDigit n) = some n := by
  have hall : ∀ m < 16, Json.hexValue (lowerHexDigit m) = some m := by decide
  exact hall n h

theorem jsonEscape_escapes : Json.Escapes jsonEscape := by
  intro byte n rest
  have hlt := byte.toNat_lt
  unfold jsonEscape
  split_ifs with hquote hback hnewline hreturn htab hbackspace hfeed hprintable
  · subst hquote; rfl
  · subst hback; rfl
  · subst hnewline; rfl
  · subst hreturn; rfl
  · subst htab; rfl
  · subst hbackspace; rfl
  · subst hfeed; rfl
  · simp only [printable, Bool.and_eq_true, decide_eq_true_eq] at hprintable
    exact Json.stringBody_printable hquote hback hprintable n rest
  · exact Json.stringBody_unicode (hexValue_lowerHexDigit (by omega))
      (hexValue_lowerHexDigit (by omega)) n rest

theorem jsonEscapedFragment_prefix (token : List UInt8) (maxLen : Nat) :
    ∃ used, used <+: token ∧ jsonEscapedFragment token maxLen = used.flatMap jsonEscape :=
  pushEscape_prefix maxLen 0 jsonEscape token []

/-! ## Documents -/

/-- A string whose text is the front of a token, or empty. -/
def TokenText (dictionary : Dictionary) (text : String) : Prop :=
  ∃ token ∈ dictionary.tokens, ∃ used, used <+: token ∧ text = latin1 used

/-- The documents of the two shapes. -/
inductive TokenDocument (dictionary : Dictionary) : Json → Prop
  | object {key value : String} (hkey : TokenText dictionary key)
      (hvalue : TokenText dictionary value) :
      TokenDocument dictionary (.object [(key, .string value)])
  | array {texts : List String} (hcount : texts.length ≤ maxStructuredJsonItems)
      (htexts : ∀ text ∈ texts, TokenText dictionary text) :
      TokenDocument dictionary (.array (texts.map .string))

def ReadsAsDocument (dictionary : Dictionary) (output : List UInt8) : Prop :=
  ∃ document, Json.fromSlice output = some document ∧ TokenDocument dictionary document

namespace MutatorSuite

variable (suite : MutatorSuite) (dictionary : Dictionary)

theorem structuredJsonObject_reads :
    Op.Safe (ReadsAsDocument dictionary) (suite.structuredJsonObject dictionary) := by
  unfold structuredJsonObject
  refine Op.Safe.ite (fun _ => Op.Safe.missing) fun _ => ?_
  refine dictionary.chooseToken_mem.bind fun key hkey => ?_
  refine dictionary.chooseToken_mem.bind fun value hvalue => ?_
  refine (Op.Safe.checkedSub _ _).bind fun escapedBudget _ => ?_
  refine (Op.Safe.sub (Nat.div_le_self _ _)).bind fun valueBudget _ => ?_
  obtain ⟨keyUsed, hkeyUsed, hkeyText⟩ := jsonEscapedFragment_prefix key (escapedBudget / 2)
  obtain ⟨valueUsed, hvalueUsed, hvalueText⟩ := jsonEscapedFragment_prefix value valueBudget
  dsimp only
  rw [hkeyText, hvalueText]
  refine Op.Safe.ite (fun _ => Op.Safe.pure ?_) fun _ => Op.Safe.missing
  refine ⟨_, ?_, .object ⟨key, hkey, keyUsed, hkeyUsed, rfl⟩
    ⟨value, hvalue, valueUsed, hvalueUsed, rfl⟩⟩
  rw [← jsonEscape_escapes.fromSlice_object]
  simp [Json.quoted, ascii]

/-- The output of the loop behind the bracket. -/
def ItemsWritten : (turns : Nat) → Items → Prop :=
  Written (fun values => 91 :: Json.quotedItems jsonEscape values)
    fun values => ∀ value ∈ values, ∃ token ∈ dictionary.tokens, value <+: token

theorem jsonItemBody_written {turns : Nat} {items : Items}
    (h : ItemsWritten dictionary turns items) :
    Op.Safe (fun r => ItemsWritten dictionary (turns + 1) r.run)
      (suite.jsonItemBody dictionary items) := by
  have hdone : ItemsWritten dictionary (turns + 1) items := h.later
  obtain ⟨values, rfl, hturns, hvalues⟩ := h
  rw [jsonItemBody]
  refine (Op.Safe.checkedSub _ _).bind fun room _ => ?_
  refine (Op.Safe.checkedSub _ _).bind fun available _ => ?_
  dsimp only
  refine Op.Safe.ite (fun _ => Op.Safe.pure hdone) fun hfits => ?_
  refine dictionary.chooseToken_mem.bind fun token htoken => ?_
  refine (Op.Safe.sub (Nat.le_of_not_lt hfits)).bind fun budget _ => ?_
  obtain ⟨used, hused, htext⟩ := jsonEscapedFragment_prefix token budget
  have hall := List.forall_mem_append.mpr
    ⟨hvalues, List.forall_mem_singleton.mpr ⟨token, htoken, hused⟩⟩
  refine Op.Safe.pure (Written.concat hturns hall ?_)
  rw [htext]
  cases values with
  | nil => simp [Json.quotedItems, separated, Json.quoted, byteOf]
  | cons value values => simp [Json.quotedItems, separated, Json.quoted, byteOf, ascii]

theorem structuredJsonArray_reads :
    Op.Safe (ReadsAsDocument dictionary) (suite.structuredJsonArray dictionary) := by
  unfold structuredJsonArray
  refine Op.Safe.ite (fun _ => Op.Safe.missing) fun _ => ?_
  refine (choose_safe _).bind fun extra hextra => ?_
  have hstart : ItemsWritten dictionary 0 ([byteOf '['], 0) := Written.start nofun
  refine (upTo_written (fun turns items => suite.jsonItemBody_written dictionary) _
    hstart).bind fun items hitems => ?_
  obtain ⟨values, rfl, hturns, hvalues⟩ := hitems
  have hcount : (values.map latin1).length ≤ maxStructuredJsonItems := by
    rw [List.length_map]
    omega
  refine Op.Safe.pure ⟨.array ((values.map latin1).map .string), ?_, .array hcount ?_⟩
  · rw [List.map_map]
    exact jsonEscape_escapes.fromSlice_array values
  · intro text htext
    obtain ⟨value, hvalue, rfl⟩ := List.mem_map.mp htext
    obtain ⟨token, htoken, hfront⟩ := hvalues value hvalue
    exact ⟨token, htoken, value, hfront, rfl⟩

/-- Whatever the dictionary, the limit and the state of the generator, an
output is read to its last byte as one of the two documents. -/
theorem structuredJson_reads :
    Op.Safe (ReadsAsDocument dictionary) (suite.structuredJson dictionary) := by
  have hobject := suite.structuredJsonObject_reads dictionary
  have harray := suite.structuredJsonArray_reads dictionary
  unfold structuredJson
  refine Op.Safe.ite (fun _ => Op.Safe.missing) fun _ => ?_
  refine (choose_safe _).bind fun shape _ => ?_
  split
  next => exact hobject.orElse harray
  next => exact harray.orElse hobject

example : (Op.exec (sampleSuite.structuredJson sampleDictionary) ⟨2⟩).1
    = .ok (ascii "\x7b\"a\\\"\":\"b,c\"\x7d") := by
  decide +kernel

end MutatorSuite

end GovFuzz.FuzzEngine
