import GovFuzz.Runtrace.CutLine
import GovFuzz.Runtrace.Readers

/-!
# Runtrace — the log as its events

When a log of the shim is read back as the events that were emitted.  An
event that does not fit the buffer loses its newline, and with it the next
event shares its line; one that is cut further is no JSON.  So an event may
be cut only if it is the last, and then only by its newline.
-/

namespace GovFuzz.Runtrace

open GovFuzz.Lib

/-! ## The bytes of a line -/

theorem mem_escaped {b c : UInt8} (hc : c ∈ escaped b) : 32 ≤ c ∧ c < 128 := by
  have hall : ∀ b : UInt8, ∀ c ∈ escaped b, 32 ≤ c ∧ c < 128 := forall_byte (by decide +kernel)
  exact hall b c hc

theorem mem_decimal {value : Int64} {c : UInt8} (hc : c ∈ decimal value) : 32 ≤ c ∧ c < 128 := by
  obtain ⟨mark, d, digits, heq, hmark, hdigits, -⟩ := decimal_eq value
  rw [heq] at hc
  rcases List.mem_append.mp hc with hc | hc
  · rcases hmark with rfl | rfl
    · cases hc
    · rw [List.mem_singleton.mp hc]
      decide
  · have h := hdigits c hc
    simp only [Json.isDigit, Bool.and_eq_true, decide_eq_true_eq] at h
    exact ⟨UInt8.le_trans (show (32 : UInt8) ≤ 48 by decide) h.1,
      UInt8.lt_of_le_of_lt h.2 (show (57 : UInt8) < 128 by decide)⟩

theorem FieldValue.mem_text {v : FieldValue} {c : UInt8} (hc : c ∈ v.text) :
    32 ≤ c ∧ c < 128 := by
  cases v with
  | str value =>
      rcases List.mem_cons.mp hc with rfl | hc
      · decide
      · rcases List.mem_append.mp hc with hc | hc
        · obtain ⟨b, -, hb⟩ := List.mem_flatMap.mp hc
          exact mem_escaped hb
        · rw [List.mem_singleton.mp hc]
          decide
  | i64 value => exact mem_decimal hc
  | null =>
      have hall : ∀ c ∈ FieldValue.null.text, (32 : UInt8) ≤ c ∧ c < 128 := by decide
      exact hall c hc

/-- All but the keys is printable. -/
theorem Field.mem_text {f : Field} {c : UInt8} (hc : c ∈ f.text) :
    c ∈ f.key.bytes ∨ (32 ≤ c ∧ c < 128) := by
  rcases List.mem_cons.mp hc with rfl | hc
  · exact .inr (by decide)
  · rcases List.mem_append.mp hc with hc | hc
    · exact .inl hc
    · rcases List.mem_cons.mp hc with rfl | hc
      · exact .inr (by decide)
      · rcases List.mem_cons.mp hc with rfl | hc
        · exact .inr (by decide)
        · exact .inr (FieldValue.mem_text hc)

theorem mem_fieldsText {fields : List Field} {c : UInt8} (hc : c ∈ fieldsText fields) :
    (∃ f ∈ fields, c ∈ f.key.bytes) ∨ (32 ≤ c ∧ c < 128) := by
  cases fields with
  | nil => cases hc
  | cons f fields =>
      rw [fieldsText_cons] at hc
      rcases List.mem_append.mp hc with hc | hc
      · rcases f.mem_text hc with hc | hc
        · exact .inl ⟨f, List.mem_cons_self, hc⟩
        · exact .inr hc
      · obtain ⟨g, hg, hc⟩ := List.mem_flatMap.mp hc
        rcases List.mem_cons.mp hc with rfl | hc
        · exact .inr (by decide)
        · rcases g.mem_text hc with hc | hc
          · exact .inl ⟨g, List.mem_cons_of_mem _ hg, hc⟩
          · exact .inr hc

theorem newline_not_mem_of_clean {e : Event} (h : e.Clean) : 10 ∉ fieldsText e.allFields := by
  intro hmem
  rcases mem_fieldsText hmem with ⟨f, hf, hc⟩ | hc
  · exact absurd (h.allFields f hf 10 hc) (by decide)
  · exact absurd hc.1 (by decide)

/-- A line without its newline. -/
def Event.object (e : Event) : List UInt8 := 123 :: (fieldsText e.allFields ++ [125])

theorem Event.line_eq (e : Event) : e.line = e.object ++ [10] := by
  simp [Event.line, Event.object]

theorem newline_not_mem_object {e : Event} (h : e.Clean) : 10 ∉ e.object := by
  have hbody := newline_not_mem_of_clean h
  simp [Event.object, hbody]

/-! ## The first line of a log -/

theorem length_line (e : Event) : e.line.length = (fieldsText e.allFields).length + 3 := by
  simp [Event.line]

/-- What the log gets of a line: all of it, all but the newline, or a part
that ends before the closing brace. -/
theorem emitted_cases (e : Event) :
    (e.line.length ≤ eventBufferSize ∧ emitted e = e.object ++ [10])
      ∨ (e.line.length = eventBufferSize + 1 ∧ emitted e = e.object)
      ∨ (eventBufferSize + 1 < e.line.length
          ∧ ∃ p, p <+: fieldsText e.allFields ∧ emitted e = 123 :: p) := by
  have hlen := length_line e
  rw [emitted_eq]
  by_cases hfits : e.line.length ≤ eventBufferSize
  · refine .inl ⟨hfits, ?_⟩
    rw [List.take_of_length_le hfits, e.line_eq]
  · by_cases hone : e.line.length = eventBufferSize + 1
    · refine .inr (.inl ⟨hone, ?_⟩)
      rw [e.line_eq, List.take_left' (by rw [e.line_eq] at hone; simpa using hone)]
    · have hbody : eventBufferSize - 1 ≤ (fieldsText e.allFields).length := by omega
      refine .inr (.inr ⟨by omega, (fieldsText e.allFields).take (eventBufferSize - 1),
        List.take_prefix _ _, ?_⟩)
      show List.take ((eventBufferSize - 1) + 1) e.line = _
      rw [Event.line, List.take_succ_cons, List.take_append_of_le_length hbody]

def firstLine (s : List UInt8) : List UInt8 := s.takeWhile (· ≠ 10)

theorem firstLine_cons (b : UInt8) (s : List UInt8) :
    firstLine (b :: s) = if b = 10 then [] else b :: firstLine s := by
  by_cases hb : b = 10
  · simp [firstLine, hb]
  · simp [firstLine, hb]

theorem firstLine_append_of_not_mem {l : List UInt8} (h : 10 ∉ l) (s : List UInt8) :
    firstLine (l ++ s) = l ++ firstLine s := by
  induction l with
  | nil => rfl
  | cons b l ih =>
      rw [List.mem_cons, not_or] at h
      rw [List.cons_append, firstLine_cons, if_neg (Ne.symm h.1), ih h.2, List.cons_append]

theorem firstLine_append_of_mem {l : List UInt8} (h : 10 ∈ l) (s : List UInt8) :
    firstLine (l ++ s) = firstLine l := by
  induction l with
  | nil => cases h
  | cons b l ih =>
      rw [List.cons_append, firstLine_cons, firstLine_cons]
      by_cases hb : b = 10
      · rw [if_pos hb, if_pos hb]
      · rcases List.mem_cons.mp h with heq | hmem
        · exact absurd heq.symm hb
        · rw [if_neg hb, if_neg hb, ih hmem]

theorem firstLine_ahead (l : List UInt8) : firstLine l <+: l := List.takeWhile_prefix _

theorem splitOn_newline (s : List UInt8) : ∃ more, s.splitOn 10 = firstLine s :: more := by
  induction s with
  | nil => exact ⟨[], rfl⟩
  | cons b s ih =>
      obtain ⟨more, heq⟩ := ih
      rw [List.splitOn_cons_eq_if_modifyHead, heq, firstLine_cons]
      by_cases hb : b = 10
      · exact ⟨firstLine s :: more, by simp [hb]⟩
      · exact ⟨more, by simp [hb]⟩

def logOf (events : List Event) : List UInt8 := events.flatMap emitted

theorem emitted_front (e : Event) : ∃ rest, emitted e = 123 :: 34 :: 101 :: rest := by
  have hline : ∃ s, e.line = 123 :: 34 :: 101 :: s := by
    rw [Event.line, Event.allFields, fieldsText_cons]
    exact ⟨_, rfl⟩
  obtain ⟨s, hs⟩ := hline
  refine ⟨s.take (eventBufferSize - 3), ?_⟩
  rw [emitted_eq, hs]
  rfl

theorem foreign_firstLine (events : List Event) : Foreign (firstLine (logOf events)) := by
  cases events with
  | nil => exact .inl rfl
  | cons e events =>
      obtain ⟨rest, hrest⟩ := emitted_front e
      refine .inr ⟨firstLine (rest ++ logOf events), ?_⟩
      rw [logOf, List.flatMap_cons, hrest]
      rfl

theorem deadEnd_nil (depth : Nat) : DeadEnd (Json.value depth []) := by
  cases depth <;> exact DeadEnd.none

/-- The first line of a log, read as a value. -/
inductive FirstLine (e : Event) (behind s : List UInt8) : Prop
  | whole (hclean : e.Clean) (hfits : e.line.length ≤ eventBufferSize) (heq : s = e.object)
  | joined (hclean : e.Clean) (hlen : e.line.length = eventBufferSize + 1)
      (heq : s = e.object ++ behind)
  | broken (hnone : ∀ depth, Json.value depth s = none)

/-- The first line of a log, read as a value, is the event's object, or the object with the
next line behind it, or nothing. -/
theorem firstLine_cases (e : Event) (events : List Event)
    (hbehind : ∀ depth, DeadEnd (Json.value depth (firstLine (logOf events)))) :
    FirstLine e (firstLine (logOf events)) (firstLine (logOf (e :: events))) := by
  have hforeign := foreign_firstLine events
  have hlog : logOf (e :: events) = emitted e ++ logOf events := List.flatMap_cons
  -- a newline in a key ends the line inside the fields
  have hkeyBreak : ∀ p, p <+: fieldsText e.allFields → 10 ∈ p → ∀ s,
      FirstLine e (firstLine (logOf events)) (firstLine (123 :: p ++ s)) := by
    intro p hp hmem s
    rw [firstLine_append_of_mem (List.mem_cons_of_mem _ hmem), firstLine_cons,
      if_neg (by decide)]
    refine .broken fun depth => ?_
    have h := value_event_cut ((firstLine_ahead p).trans hp) (.inl rfl) deadEnd_nil depth
    rw [List.append_nil] at h
    exact h
  have hobject : 10 ∉ fieldsText e.allFields → 10 ∉ e.object := by
    intro hno
    simp [Event.object, hno]
  rw [hlog]
  rcases emitted_cases e with ⟨hfits, heq⟩ | ⟨hlen, heq⟩ | ⟨-, p, hp, heq⟩
  · -- the whole line
    by_cases hnl : 10 ∈ fieldsText e.allFields
    · have h := hkeyBreak _ List.prefix_rfl hnl (125 :: 10 :: logOf events)
      rw [heq]
      simpa [Event.object] using h
    · have hfirst : firstLine (emitted e ++ logOf events) = e.object := by
        rw [heq, List.append_assoc, firstLine_append_of_not_mem (hobject hnl),
          List.singleton_append, firstLine_cons, if_pos rfl, List.append_nil]
      rw [hfirst]
      by_cases hclean : e.Clean
      · exact .whole hclean hfits rfl
      · exact .broken (value_event_unclean hclean · [125])
  · -- the line but for its newline: the next event is joined to it
    by_cases hnl : 10 ∈ fieldsText e.allFields
    · have h := hkeyBreak _ List.prefix_rfl hnl (125 :: logOf events)
      rw [heq]
      simpa [Event.object] using h
    · rw [heq, firstLine_append_of_not_mem (hobject hnl)]
      by_cases hclean : e.Clean
      · exact .joined hclean hlen rfl
      · refine .broken fun depth => ?_
        rw [Event.object, List.cons_append, List.append_assoc]
        exact value_event_unclean hclean depth _
  · -- a front of the line, cut inside the object
    rw [heq]
    by_cases hnl : 10 ∈ p
    · exact hkeyBreak p hp hnl _
    · have hno : 10 ∉ 123 :: p := by simp [hnl]
      rw [firstLine_append_of_not_mem hno]
      exact .broken (value_event_cut hp hforeign hbehind)

theorem value_object {e : Event} (hclean : e.Clean) {behind : List UInt8} (hdead : Dead behind)
    (depth : Nat) : DeadEnd (Json.value depth (e.object ++ behind)) := by
  match depth with
  | 0 => exact DeadEnd.none
  | 1 => exact DeadEnd.none
  | depth + 2 =>
      rw [Event.object, List.cons_append, List.append_assoc, List.singleton_append,
        value_event hclean depth behind]
      exact DeadEnd.some hdead

/-- Whatever is read from the front of a line, no event goes on behind it. -/
theorem deadEnd_firstLine (events : List Event) (depth : Nat) :
    DeadEnd (Json.value depth (firstLine (logOf events))) := by
  induction events generalizing depth with
  | nil => exact deadEnd_nil depth
  | cons e events ih =>
      cases firstLine_cases e events ih with
      | whole hclean hfits heq =>
          have h := value_object hclean (.inl rfl) depth
          rw [List.append_nil] at h
          rw [heq]
          exact h
      | joined hclean hlen heq =>
          rw [heq]
          exact value_object hclean (foreign_firstLine events).dead depth
      | broken hnone =>
          rw [hnone depth]
          exact DeadEnd.none

theorem fromSlice_object {e : Event} (hclean : e.Clean) :
    Json.fromSlice e.object = some e.toJson := by
  have hskip : Json.skipSpace e.object = e.object := Json.skipSpace_cons (by decide) _
  have hvalue : Json.value Json.maxDepth e.object = some (e.toJson, []) :=
    value_event hclean 126 []
  rw [Json.fromSlice, hskip, hvalue]
  rfl

/-- A first line that is JSON is a whole event, and is cut at most by its
newline, at the end of the log. -/
theorem fits_of_fromSlice {e : Event} {events : List Event} {json : Json}
    (h : Json.fromSlice (firstLine (logOf (e :: events))) = some json) :
    e.Clean ∧ (e.line.length ≤ eventBufferSize
      ∨ (e.line.length = eventBufferSize + 1 ∧ events = [])) := by
  have hskip : Json.skipSpace (firstLine (logOf (e :: events))) = firstLine (logOf (e :: events)) :=
    (foreign_firstLine (e :: events)).dead.skipSpace
  rw [Json.fromSlice, hskip] at h
  cases firstLine_cases e events (deadEnd_firstLine events) with
  | whole hclean hfits heq => exact ⟨hclean, .inl hfits⟩
  | joined hclean hlen heq =>
      refine ⟨hclean, .inr ⟨hlen, ?_⟩⟩
      have hvalue : Json.value Json.maxDepth (firstLine (logOf (e :: events)))
          = some (e.toJson, firstLine (logOf events)) := by
        rw [heq, Event.object, List.cons_append, List.append_assoc]
        exact value_event hclean 126 _
      rw [hvalue] at h
      dsimp only at h
      rw [(foreign_firstLine events).dead.skipSpace] at h
      cases events with
      | nil => rfl
      | cons e' events =>
          obtain ⟨rest, hrest⟩ := emitted_front e'
          have hne : firstLine (logOf (e' :: events)) ≠ [] := by
            rw [logOf, List.flatMap_cons, hrest, List.cons_append, firstLine_cons,
              if_neg (by decide)]
            exact List.cons_ne_nil _ _
          rw [if_neg hne] at h
          cases h
  | broken hnone =>
      rw [hnone] at h
      cases h

end GovFuzz.Runtrace
