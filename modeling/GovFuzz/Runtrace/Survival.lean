import GovFuzz.Runtrace.LogLines
import Mathlib.Data.List.Forall2

/-!
# Runtrace — events that survive

What it means that the emitted events are read back, each for itself, and
when that is so.  Every event but the last has to fit the buffer with its
newline, no key may hold a control character, and a comparison event with
an operand that is not hexadecimal takes all others with it.
-/

namespace GovFuzz.Runtrace

open GovFuzz.Lib

/-! ## What survives -/

def Event.Oversized (e : Event) : Prop := eventBufferSize < e.line.length

/-- What a member of a JSON object shows of a field: a string may be cut if
the event is too large. -/
inductive FieldCarried (oversized : Prop) : Field → String × Json → Prop
  | str (key : Key) (value shown : List UInt8) (hshown : shown <+: value)
      (hwhole : ¬ oversized → shown = value) :
      FieldCarried oversized ⟨key, .str value⟩ (latin1 key.bytes, .string (latin1 shown))
  | i64 (key : Key) (value : Int64) (number : Json) (hnumber : number.asI64 = some value.toInt) :
      FieldCarried oversized ⟨key, .i64 value⟩ (latin1 key.bytes, number)
  | null (key : Key) : FieldCarried oversized ⟨key, .null⟩ (latin1 key.bytes, .null)

/-- The line is a JSON object with the name and the fields of the event. -/
def Carried (e : Event) (line : List UInt8) : Prop :=
  ∃ members, Json.fromSlice line = some (.object (("e", .string (latin1 e.name)) :: members))
    ∧ List.Forall₂ (FieldCarried e.Oversized) e.fields members

def logLines (log : List UInt8) : List (List UInt8) := (log.splitOn 10).filter (· ≠ [])

/-- What `ingest_from_jsonl_log` has of the line `i`. -/
def readAt (result : Except CmpLogError (List CmpEntry)) (i : Nat) :
    Except CmpLogError (Option (List UInt8 × List UInt8 × CmpKind)) :=
  result.map fun log =>
    (log.find? fun entry => entry.siteId = i).map fun entry =>
      (entry.operandA, entry.operandB, entry.kind)

/-- One line for each event, which carries it, and either reader makes of
each event what it makes of it alone. -/
structure Survives (events : List Event) : Prop where
  lines : List.Forall₂ Carried events (logLines (emitAll events).written)
  parseStr : ∀ {ε : Type} (parseLine : List Char → Option ε) (shouldKeepEvent : ε → Bool)
      (unknown : List Char → ε),
    parseStr parseLine shouldKeepEvent unknown (latin1 (emitAll events).written)
      = events.flatMap fun e =>
          parseStr parseLine shouldKeepEvent unknown (latin1 (emitAll [e]).written)
  ingest : ∀ i e, events[i]? = some e →
    readAt (ingestFromJsonlLog (emitAll events).written) i
      = readAt (ingestFromJsonlLog (emitAll [e]).written) 0

/-- A comparison event with an operand that is not hexadecimal. -/
def Event.BadOperand (e : Event) : Prop :=
  (e.toJson.get "e").bind Json.asStr = some "cmplog"
    ∧ (hexDecode (((e.toJson.get "a").bind Json.asStr).getD "") = none
      ∨ hexDecode (((e.toJson.get "b").bind Json.asStr).getD "") = none)

structure Framed (events : List Event) : Prop where
  clean : ∀ e ∈ events, e.Clean
  fits : ∀ e ∈ events.dropLast, e.line.length ≤ eventBufferSize
  last : ∀ e ∈ events.getLast?, e.line.length ≤ eventBufferSize + 1

/-! ## Framing -/

theorem framed_nil : Framed [] := ⟨by simp, by simp, by simp⟩

theorem framed_single (e : Event) :
    Framed [e] ↔ e.Clean ∧ e.line.length ≤ eventBufferSize + 1 := by
  constructor
  · exact fun h => ⟨h.clean e (by simp), h.last e (by simp)⟩
  · exact fun h => ⟨by simpa using h.1, by simp, by simpa using h.2⟩

theorem framed_cons (e e' : Event) (events : List Event) :
    Framed (e :: e' :: events)
      ↔ e.Clean ∧ e.line.length ≤ eventBufferSize ∧ Framed (e' :: events) := by
  constructor
  · intro h
    refine ⟨h.clean e List.mem_cons_self, h.fits e (by simp), ?_, ?_, ?_⟩
    · exact fun x hx => h.clean x (List.mem_cons_of_mem _ hx)
    · intro x hx
      refine h.fits x ?_
      rw [List.dropLast_cons_cons]
      exact List.mem_cons_of_mem _ hx
    · intro x hx
      refine h.last x ?_
      rw [List.getLast?_cons_cons]
      exact hx
  · rintro ⟨hclean, hfits, h⟩
    refine ⟨?_, ?_, ?_⟩
    · exact List.forall_mem_cons.mpr ⟨hclean, h.clean⟩
    · rw [List.dropLast_cons_cons]
      exact List.forall_mem_cons.mpr ⟨hfits, h.fits⟩
    · rw [List.getLast?_cons_cons]
      exact h.last

theorem emitted_of_fits {e : Event} (h : e.line.length ≤ eventBufferSize) :
    emitted e = e.object ++ [10] := by
  rcases emitted_cases e with ⟨-, heq⟩ | ⟨hlen, -⟩ | ⟨hlen, -⟩
  · exact heq
  · omega
  · omega

/-- The pieces of a framed log: the events, and nothing behind them. -/
theorem splitOn_logOf {events : List Event} (h : Framed events) :
    ∃ tail, (logOf events).splitOn 10 = events.map Event.object ++ tail
      ∧ (tail = [[]] ∨ (tail = [] ∧ events ≠ [])) := by
  match events, h with
  | [], _ => exact ⟨[[]], rfl, .inl rfl⟩
  | [e], h =>
      obtain ⟨hclean, hlen⟩ := (framed_single e).mp h
      have hno := newline_not_mem_object hclean
      have hlog : logOf [e] = emitted e := by simp [logOf]
      rcases emitted_cases e with ⟨-, heq⟩ | ⟨-, heq⟩ | ⟨hover, -⟩
      · refine ⟨[[]], ?_, .inl rfl⟩
        rw [hlog, heq, List.splitOn_append_cons_self_of_not_mem hno]
        rfl
      · refine ⟨[], ?_, .inr ⟨rfl, by simp⟩⟩
        rw [hlog, heq, List.splitOn_eq_singleton hno]
        rfl
      · omega
  | e :: e' :: events, h =>
      obtain ⟨hclean, hfits, hrest⟩ := (framed_cons e e' events).mp h
      obtain ⟨tail, htail, hkind⟩ := splitOn_logOf hrest
      refine ⟨tail, ?_, ?_⟩
      · rw [logOf, List.flatMap_cons, emitted_of_fits hfits, List.append_assoc,
          List.singleton_append,
          List.splitOn_append_cons_self_of_not_mem (newline_not_mem_object hclean)]
        show e.object :: (logOf (e' :: events)).splitOn 10 = _
        rw [htail]
        rfl
      · rcases hkind with htail | ⟨htail, -⟩
        · exact .inl htail
        · exact .inr ⟨htail, by simp⟩

theorem logLines_logOf {events : List Event} (h : Framed events) :
    logLines (logOf events) = events.map Event.object := by
  obtain ⟨tail, heq, hkind⟩ := splitOn_logOf h
  have htail : tail.filter (· ≠ []) = [] := by
    rcases hkind with rfl | ⟨rfl, -⟩ <;> rfl
  have hobjects : (events.map Event.object).filter (· ≠ []) = events.map Event.object := by
    rw [List.filter_eq_self]
    intro line hline
    obtain ⟨e, -, rfl⟩ := List.mem_map.mp hline
    simp [Event.object]
  rw [logLines, heq, List.filter_append, htail, hobjects, List.append_nil]

/-- A log whose lines are JSON, one for each event, is framed. -/
theorem framed_of_lines {events : List Event}
    (h : List.Forall₂ Carried events (logLines (logOf events))) : Framed events := by
  induction events with
  | nil => exact framed_nil
  | cons e events ih =>
      obtain ⟨more, hmore⟩ := splitOn_newline (logOf (e :: events))
      have hne : firstLine (logOf (e :: events)) ≠ [] := by
        obtain ⟨rest, hrest⟩ := emitted_front e
        rw [logOf, List.flatMap_cons, hrest, List.cons_append, firstLine_cons, if_neg (by decide)]
        exact List.cons_ne_nil _ _
      have hlines : logLines (logOf (e :: events))
          = firstLine (logOf (e :: events)) :: more.filter (· ≠ []) := by
        rw [logLines, hmore, List.filter_cons_of_pos (by simpa using hne)]
      have hfirst := h
      rw [hlines, List.forall₂_cons] at hfirst
      obtain ⟨⟨members, hjson, -⟩, -⟩ := hfirst
      obtain ⟨hclean, hfits | ⟨hlen, rfl⟩⟩ := fits_of_fromSlice hjson
      · have hpieces : logLines (logOf (e :: events)) = e.object :: logLines (logOf events) := by
          rw [logLines, logOf, List.flatMap_cons, emitted_of_fits hfits, List.append_assoc,
            List.singleton_append,
            List.splitOn_append_cons_self_of_not_mem (newline_not_mem_object hclean)]
          rw [List.filter_cons_of_pos (by simp [Event.object])]
          rfl
        rw [hpieces, List.forall₂_cons] at h
        have hrest := ih h.2
        cases events with
        | nil => exact (framed_single e).mpr ⟨hclean, by omega⟩
        | cons e' events => exact (framed_cons e e' events).mpr ⟨hclean, hfits, hrest⟩
      · exact (framed_single e).mpr ⟨hclean, by omega⟩

/-! ## Events on their lines -/

theorem fieldCarried_entry (oversized : Prop) (f : Field) : FieldCarried oversized f f.entry := by
  obtain ⟨key, value⟩ := f
  cases value with
  | str value => exact .str key value value List.prefix_rfl fun _ => rfl
  | i64 value =>
      refine .i64 key value _ ?_
      obtain ⟨mark, d, digits, heq, -, -, -, hvalue⟩ := decimal_eq value
      show Json.asI64 (.number (decimal value)) = _
      rw [heq]
      exact hvalue
  | null => exact .null key

theorem carried_object {e : Event} (hclean : e.Clean) : Carried e e.object := by
  refine ⟨e.fields.map Field.entry, ?_, ?_⟩
  · rw [fromSlice_object hclean]
    rfl
  · rw [List.forall₂_map_right_iff, List.forall₂_same]
    exact fun f _ => fieldCarried_entry _ f

theorem carried_logLines {events : List Event} (h : Framed events) :
    List.Forall₂ Carried events (logLines (logOf events)) := by
  rw [logLines_logOf h, List.forall₂_map_right_iff, List.forall₂_same]
  exact fun e he => carried_object (h.clean e he)

/-! ## `parse_str` -/

theorem latin1Char_eq_newline (b : UInt8) : latin1Char b = '\n' ↔ b = 10 := by
  constructor
  · intro h
    have hval := latin1Char_val b
    rw [h] at hval
    exact UInt8.toNat_inj.mp hval.symm
  · rintro rfl
    rfl

theorem splitOn_map_latin1Char (s : List UInt8) :
    (s.map latin1Char).splitOn '\n' = (s.splitOn 10).map (List.map latin1Char) := by
  induction s with
  | nil => rfl
  | cons b s ih =>
      rw [List.map_cons, List.splitOn_cons_eq_if_modifyHead, List.splitOn_cons_eq_if_modifyHead, ih]
      by_cases hb : b = 10
      · simp [hb, (latin1Char_eq_newline 10).mpr rfl]
      · have hne : ¬ latin1Char b = '\n' := fun h => hb ((latin1Char_eq_newline b).mp h)
        simp only [beq_iff_eq, hb, hne, if_false]
        cases s.splitOn 10 <;> rfl

theorem stripCr_object (e : Event) :
    stripCr (e.object.map latin1Char) = e.object.map latin1Char := by
  have hlast : (e.object.map latin1Char).getLast? = some '}' := by
    rw [Event.object, ← List.cons_append, List.map_append, List.getLast?_append]
    rfl
  rw [stripCr, if_neg (by rw [hlast]; decide)]

/-- The lines of a framed log are its objects. -/
theorem strLines_logOf {events : List Event} (h : Framed events) :
    strLines (latin1 (logOf events)).toList
      = events.map fun e => e.object.map latin1Char := by
  obtain ⟨tail, heq, hkind⟩ := splitOn_logOf h
  have hstrip : ∀ es : List Event,
      (es.map fun e => e.object.map latin1Char).map stripCr
        = es.map fun e => e.object.map latin1Char := by
    intro es
    rw [List.map_map]
    exact List.map_congr_left fun e _ => stripCr_object e
  have hpieces : (latin1 (logOf events)).toList.splitOn '\n'
      = (events.map fun e => e.object.map latin1Char) ++ tail.map (List.map latin1Char) := by
    rw [latin1, String.toList_ofList, splitOn_map_latin1Char, heq, List.map_append, List.map_map]
    rfl
  unfold strLines
  rw [hpieces]
  rcases hkind with rfl | ⟨rfl, hne⟩
  · simp only [List.map_cons, List.map_nil, List.dropLast_concat, List.getLast?_concat, hstrip]
    simp
  · obtain ⟨before, e, rfl⟩ := List.eq_nil_or_concat events |>.resolve_left hne
    simp only [List.map_nil, List.append_nil, List.concat_eq_append, List.map_append,
      List.map_cons, List.dropLast_concat, List.getLast?_concat]
    rw [hstrip]
    simp [Event.object]

section ParseStr

variable {ε : Type} (parseLine : List Char → Option ε) (shouldKeepEvent : ε → Bool)
  (unknown : List Char → ε)

theorem parseStr_logOf {events : List Event} (h : Framed events) :
    parseStr parseLine shouldKeepEvent unknown (latin1 (logOf events))
      = events.flatMap fun e =>
          parseStrLine parseLine shouldKeepEvent unknown (e.object.map latin1Char) := by
  rw [parseStr, strLines_logOf h, List.flatMap_map]

end ParseStr

/-! ## `ingest_from_jsonl_log` -/

theorem ingestValue_badOperand {e : Event} (h : e.BadOperand) (n : Nat) :
    ingestValue n e.toJson = .error .badHex := by
  rw [ingestValue, if_pos h.1]
  rcases h.2 with ha | hb
  · simp only [ha]
  · simp only [hb]
    split
    · rename_i heq
      cases heq
    · rfl

/-- What an event is read as, whatever its line. -/
theorem ingestValue_good {e : Event} (h : ¬ e.BadOperand) :
    ∃ read : Option (List UInt8 × List UInt8 × CmpKind),
      ∀ n, ingestValue n e.toJson = .ok (read.map fun r => ⟨n, r.1, r.2.1, r.2.2⟩) := by
  by_cases hcmplog : (e.toJson.get "e").bind Json.asStr = some "cmplog"
  · rw [Event.BadOperand, not_and, not_or] at h
    obtain ⟨ha, hb⟩ := h hcmplog
    obtain ⟨a, ha⟩ := Option.ne_none_iff_exists'.mp ha
    obtain ⟨b, hb⟩ := Option.ne_none_iff_exists'.mp hb
    let k := ((e.toJson.get "k").bind Json.asStr).getD ""
    refine ⟨some (a, b, if k = "strcmp" ∨ k = "strncmp" then .cStringEquality
      else .bufferEquality), fun n => ?_⟩
    rw [ingestValue, if_pos hcmplog]
    simp only [ha, hb]
    rfl
  · refine ⟨none, fun n => ?_⟩
    rw [ingestValue, if_neg hcmplog]
    rfl

theorem ingestLine_object {e : Event} (hclean : e.Clean) (n : Nat) :
    ingestLine n e.object = ingestValue n e.toJson := by
  rw [ingestLine, if_neg (by simp [Event.object]), fromSlice_object hclean]

theorem ingestLines_tail {tail : List (List UInt8)} (h : tail = [[]] ∨ tail = []) (n : Nat) :
    ingestLines n tail = .ok [] := by
  rcases h with rfl | rfl <;> rfl

theorem ingestLines_bad {events : List Event} (hclean : ∀ e ∈ events, e.Clean)
    (hbad : ∃ e ∈ events, e.BadOperand) (tail : List (List UInt8)) (n : Nat) :
    ingestLines n (events.map Event.object ++ tail) = .error .badHex := by
  induction events generalizing n with
  | nil =>
      obtain ⟨e, he, -⟩ := hbad
      cases he
  | cons e events ih =>
      rw [List.forall_mem_cons] at hclean
      rw [List.map_cons, List.cons_append, ingestLines, ingestLine_object hclean.1]
      by_cases he : e.BadOperand
      · rw [ingestValue_badOperand he]
      · obtain ⟨read, hread⟩ := ingestValue_good he
        have hrest : ∃ e' ∈ events, e'.BadOperand := by
          obtain ⟨e', hmem, he'⟩ := hbad
          rcases List.mem_cons.mp hmem with rfl | hmem
          · exact absurd he' he
          · exact ⟨e', hmem, he'⟩
        rw [hread, ih hclean.2 hrest]
        rfl

/-- The entries of good events carry the numbers of their lines. -/
theorem ingestLines_good {events : List Event} (hclean : ∀ e ∈ events, e.Clean)
    (hgood : ∀ e ∈ events, ¬ e.BadOperand) {tail : List (List UInt8)}
    (htail : tail = [[]] ∨ tail = []) (n : Nat) :
    ∃ log, ingestLines n (events.map Event.object ++ tail) = .ok log
      ∧ (∀ entry ∈ log, n ≤ entry.siteId)
      ∧ ∀ i e read, events[i]? = some e →
          ingestValue 0 e.toJson = .ok (read.map fun r => ⟨0, r.1, r.2.1, r.2.2⟩) →
          readAt (.ok log) (n + i) = .ok read := by
  -- On the events, the number of the first line being any.
  induction events generalizing n with
  | nil =>
      refine ⟨[], ?_, by simp, by simp⟩
      rw [List.map_nil, List.nil_append, ingestLines_tail htail]
  | cons e events ih =>
      rw [List.forall_mem_cons] at hclean hgood
      obtain ⟨log, hlog, hnumbers, hreads⟩ := ih hclean.2 hgood.2 (n + 1)
      obtain ⟨own, hown⟩ := ingestValue_good hgood.1
      refine ⟨(own.map fun r => ⟨n, r.1, r.2.1, r.2.2⟩).toList ++ log, ?_, ?_, ?_⟩
      · rw [List.map_cons, List.cons_append, ingestLines, ingestLine_object hclean.1, hown, hlog]
        rfl
      · intro entry hentry
        rcases List.mem_append.mp hentry with hentry | hentry
        · rw [Option.mem_toList, Option.map_eq_some_iff] at hentry
          obtain ⟨r, -, rfl⟩ := hentry
          exact le_rfl
        · have := hnumbers entry hentry
          omega
      · intro i e' read hget hread
        cases i with
        | zero =>
            obtain rfl : e = e' := by simpa using hget
            have hown0 := hown 0
            rw [hread] at hown0
            have hsame : own = read := by
              cases own <;> cases read <;> simp_all [Prod.ext_iff]
            have hlater : log.find? (fun entry => entry.siteId = n + 0) = none := by
              rw [List.find?_eq_none]
              intro entry hentry
              have := hnumbers entry hentry
              simp only [decide_eq_true_eq]
              omega
            rw [← hsame]
            cases own with
            | none =>
                show readAt (.ok log) (n + 0) = _
                rw [readAt, Except.map, hlater]
                rfl
            | some r => simp [readAt, Except.map]
        | succ i =>
            have hlater := hreads i e' read (by simpa using hget) hread
            rw [show n + 1 + i = n + (i + 1) by omega] at hlater
            rw [← hlater]
            cases own with
            | none => rfl
            | some r => simp [readAt, Except.map]

/-! ## Survival -/

structure Readable (events : List Event) : Prop extends Framed events where
  operands : (∀ e ∈ events, ¬ e.BadOperand) ∨ ∀ e ∈ events, e.BadOperand

theorem Framed.single_of_mem {events : List Event} (h : Framed events) {e : Event}
    (he : e ∈ events) : Framed [e] := by
  refine (framed_single e).mpr ⟨h.clean e he, ?_⟩
  by_cases hlast : e ∈ events.getLast?
  · exact h.last e hlast
  · have hmem : e ∈ events.dropLast := by
      rcases List.eq_nil_or_concat events with rfl | ⟨before, x, rfl⟩
      · cases he
      · simp only [List.concat_eq_append, List.mem_append, List.mem_singleton,
          List.getLast?_concat, List.dropLast_concat, Option.mem_def, Option.some.injEq] at *
        rcases he with he | he
        · exact he
        · exact absurd he.symm hlast
    have := h.fits e hmem
    omega

theorem written_single (e : Event) : (emitAll [e]).written = logOf [e] :=
  written_emitAll (le_trans (logBytes_emitAll_le [e])
    (show 1 * eventBufferSize ≤ maxLogBytes by decide))

theorem ingest_logOf {events : List Event} (h : Framed events) :
    ((∀ e ∈ events, ¬ e.BadOperand) →
        ∀ i e read, events[i]? = some e →
          ingestValue 0 e.toJson = .ok (read.map fun r => ⟨0, r.1, r.2.1, r.2.2⟩) →
          readAt (ingestFromJsonlLog (logOf events)) i = .ok read)
      ∧ ((∃ e ∈ events, e.BadOperand) →
        ingestFromJsonlLog (logOf events) = .error .badHex) := by
  obtain ⟨tail, heq, hkind⟩ := splitOn_logOf h
  have htail : tail = [[]] ∨ tail = [] := hkind.imp_right And.left
  rw [ingestFromJsonlLog, heq]
  refine ⟨fun hgood i e read hget hread => ?_, fun hbad => ?_⟩
  · obtain ⟨log, hlog, -, hreads⟩ := ingestLines_good h.clean hgood htail 0
    rw [hlog, ← Nat.zero_add i]
    exact hreads i e read hget hread
  · exact ingestLines_bad h.clean hbad tail 0

/-- The reading of a framed log is that of its events alone exactly when all
of them, or none, have a bad operand. -/
theorem ingest_alone_iff {events : List Event} (h : Framed events) :
    (∀ i e, events[i]? = some e →
        readAt (ingestFromJsonlLog (logOf events)) i
          = readAt (ingestFromJsonlLog (logOf [e])) 0)
      ↔ ((∀ e ∈ events, ¬ e.BadOperand) ∨ ∀ e ∈ events, e.BadOperand) := by
  obtain ⟨hgoodLog, hbadLog⟩ := ingest_logOf h
  have halone : ∀ e ∈ events,
      (e.BadOperand → readAt (ingestFromJsonlLog (logOf [e])) 0 = .error .badHex)
        ∧ (¬ e.BadOperand → ∃ read,
          ingestValue 0 e.toJson = .ok (read.map fun r => ⟨0, r.1, r.2.1, r.2.2⟩)
            ∧ readAt (ingestFromJsonlLog (logOf [e])) 0 = .ok read) := by
    intro e he
    obtain ⟨hgood, hbad⟩ := ingest_logOf (h.single_of_mem he)
    constructor
    · intro hop
      rw [hbad ⟨e, by simp, hop⟩]
      rfl
    · intro hop
      obtain ⟨read, hread⟩ := ingestValue_good hop
      exact ⟨read, hread 0, hgood (by simpa using hop) 0 e read rfl (hread 0)⟩
  constructor
  · intro hsame
    -- one bad operand fails the whole log, so then every event has to fail alone
    by_cases hbad : ∃ e ∈ events, e.BadOperand
    · refine .inr fun e he => ?_
      by_contra hop
      obtain ⟨i, hi⟩ := List.mem_iff_getElem?.mp he
      obtain ⟨read, -, hread⟩ := (halone e he).2 hop
      have := hsame i e hi
      rw [hbadLog hbad, hread] at this
      cases this
    · exact .inl fun e he hop => hbad ⟨e, he, hop⟩
  · intro hops i e hget
    have he : e ∈ events := List.mem_iff_getElem?.mpr ⟨i, hget⟩
    rcases hops with hgood | hbad
    · obtain ⟨read, hvalue, hread⟩ := (halone e he).2 (hgood e he)
      rw [hgoodLog hgood i e read hget hvalue, hread]
    · rw [hbadLog ⟨e, he, hbad e he⟩, (halone e he).1 (hbad e he)]
      rfl

/-- Below the cap of the log, the events survive exactly when they can be
read. -/
theorem survives_iff_readable {events : List Event}
    (hcap : (emitAll events).logBytes ≤ maxLogBytes) : Survives events ↔ Readable events := by
  have hlog : (emitAll events).written = logOf events := written_emitAll hcap
  constructor
  · intro h
    have hlines := h.lines
    rw [hlog] at hlines
    have hframed := framed_of_lines hlines
    refine ⟨hframed, (ingest_alone_iff hframed).mp fun i e hget => ?_⟩
    have := h.ingest i e hget
    rw [hlog, written_single] at this
    exact this
  · intro h
    refine ⟨?_, ?_, ?_⟩
    · rw [hlog]
      exact carried_logLines h.toFramed
    · intro ε parseLine shouldKeepEvent unknown
      rw [hlog, parseStr_logOf _ _ _ h.toFramed]
      refine List.flatMap_congr fun e he => ?_
      rw [written_single, parseStr_logOf _ _ _ (h.toFramed.single_of_mem he)]
      simp
    · intro i e hget
      rw [hlog, written_single]
      exact (ingest_alone_iff h.toFramed).mpr h.operands i e hget

/-- `getenv` of `A`, which is not set. -/
def getenvEvent : Event :=
  ⟨[103, 101, 116, 101, 110, 118],
    [⟨⟨[110], by decide⟩, .str [65]⟩, ⟨⟨[114], by decide⟩, .null⟩]⟩

/-- A `memcmp` of `a` and `b`. -/
def compareEvent : Event :=
  ⟨[99, 109, 112, 108, 111, 103],
    [⟨⟨[107], by decide⟩, .str [109, 101, 109, 99, 109, 112]⟩,
      ⟨⟨[97], by decide⟩, .str [54, 49]⟩, ⟨⟨[98], by decide⟩, .str [54, 50]⟩]⟩

theorem survives_getenv :
    (emitAll [getenvEvent, compareEvent]).logBytes ≤ maxLogBytes
      ∧ Survives [getenvEvent, compareEvent] := by
  have hcap : (emitAll [getenvEvent, compareEvent]).logBytes ≤ maxLogBytes :=
    le_trans (logBytes_emitAll_le _) (by decide)
  have hgetenv : getenvEvent.Clean := by
    unfold Event.Clean Key.Clean
    decide
  have hcompare : compareEvent.Clean := by
    unfold Event.Clean Key.Clean
    decide
  have hframed : Framed [getenvEvent, compareEvent] :=
    (framed_cons _ _ _).mpr ⟨hgetenv, by decide, (framed_single _).mpr ⟨hcompare, by decide⟩⟩
  refine ⟨hcap, (survives_iff_readable hcap).mpr ⟨hframed, .inl ?_⟩⟩
  intro e he hbad
  simp only [List.mem_cons, List.not_mem_nil, or_false] at he
  rcases he with rfl | rfl
  · exact absurd hbad.1 (by decide)
  · exact absurd hbad.2 (by decide)

/-- An `open` of a path of 5000 bytes. -/
def openEvent : Event :=
  ⟨[111, 112, 101, 110], [⟨⟨[112], by decide⟩, .str (List.replicate 5000 97)⟩]⟩

theorem length_le_line_path (path : List UInt8) :
    path.length
      ≤ (Event.line ⟨[111, 112, 101, 110], [⟨⟨[112], by decide⟩, .str path⟩]⟩).length := by
  have hpath := length_le_flatMap fun b (_ : b ∈ path) => escaped_escapes.ne_nil b
  refine le_trans hpath ?_
  simp only [Event.line, Event.allFields, fieldsText, Field.text, FieldValue.text,
    List.length_cons, List.length_append]
  omega

/-- A path that does not fit takes the next event with it. -/
theorem not_survives_oversized :
    (emitAll [openEvent, getenvEvent]).logBytes ≤ maxLogBytes
      ∧ ¬ Survives [openEvent, getenvEvent] := by
  have hcap : (emitAll [openEvent, getenvEvent]).logBytes ≤ maxLogBytes :=
    le_trans (logBytes_emitAll_le _) (by decide)
  refine ⟨hcap, fun h => ?_⟩
  have hlines := h.lines
  rw [written_emitAll hcap] at hlines
  have hframed := framed_of_lines hlines
  have hfits := hframed.fits openEvent (by simp)
  have hlong : 5000 ≤ openEvent.line.length := by
    have hpath := length_le_line_path (List.replicate 5000 97)
    rwa [List.length_replicate] at hpath
  have hsize : eventBufferSize = 4096 := rfl
  omega

end GovFuzz.Runtrace
