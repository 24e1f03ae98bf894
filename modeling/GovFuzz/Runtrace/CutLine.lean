import GovFuzz.Runtrace.EventText

/-!
# Runtrace — reading a line that was cut

A line that was cut anywhere, with nothing or with the beginning of another
line behind the cut, is no JSON value.  Behind the cut the reader may still
bring a string or a number to an end, but then it stands at a DEAD END: what
follows starts neither with a comma nor with a closing brace.
-/

namespace GovFuzz.Runtrace

open GovFuzz.Lib

/-- Nothing, or the beginning of a line. -/
def Foreign (s : List UInt8) : Prop := s = [] ∨ ∃ rest, s = 123 :: 34 :: 101 :: rest

/-- Nothing, or the beginning of a line, or what is behind its first quote. -/
def Dead (s : List UInt8) : Prop := s = [] ∨ ∃ b rest, s = b :: rest ∧ (b = 101 ∨ b = 123)

def DeadEnd {α : Type} (result : Option (α × List UInt8)) : Prop :=
  ∀ a rest, result = some (a, rest) → Dead rest

theorem Foreign.dead {s : List UInt8} (h : Foreign s) : Dead s := by
  rcases h with rfl | ⟨rest, rfl⟩
  · exact .inl rfl
  · exact .inr ⟨123, _, rfl, .inr rfl⟩

theorem DeadEnd.none {α : Type} : DeadEnd (none : Option (α × List UInt8)) := by
  intro a rest h
  cases h

theorem DeadEnd.some {α : Type} {a : α} {s : List UInt8} (h : Dead s) :
    DeadEnd (some (a, s)) := by
  intro a' rest heq
  cases heq
  exact h

theorem DeadEnd.map {α β : Type} {result : Option (α × List UInt8)} (h : DeadEnd result)
    (f : α → β) : DeadEnd (result.map fun p => (f p.1, p.2)) := by
  intro b rest heq
  rw [Option.map_eq_some_iff] at heq
  obtain ⟨⟨a, rest'⟩, hresult, hpair⟩ := heq
  cases hpair
  exact h a rest' hresult

theorem Dead.skipSpace {s : List UInt8} (h : Dead s) : Json.skipSpace s = s := by
  rcases h with rfl | ⟨b, rest, rfl, hb⟩
  · rfl
  · refine Json.skipSpace_cons ?_ rest
    rcases hb with rfl | rfl <;> decide

theorem Dead.front {s : List UInt8} (h : Dead s) {b : UInt8} {rest : List UInt8}
    (hs : s = b :: rest) : b = 101 ∨ b = 123 := by
  rcases h with rfl | ⟨c, rest', rfl, hc⟩
  · cases hs
  · rw [← (List.cons.inj hs).1]
    exact hc

theorem prefix_append_cases {p a b : List UInt8} (h : p <+: a ++ b) :
    (∃ c t, p ++ c :: t = a) ∨ ∃ q, p = a ++ q ∧ q <+: b := by
  obtain ⟨t, ht⟩ := h
  rcases List.append_eq_append_iff.mp ht with ⟨c, hc, hb⟩ | ⟨c, hp, ht'⟩
  · cases c with
    | nil => exact .inr ⟨[], by simpa using hc.symm, List.nil_prefix⟩
    | cons c rest => exact .inl ⟨c, rest, hc.symm⟩
  · exact .inr ⟨c, hp, ⟨t, ht'.symm⟩⟩

/-! ## Strings -/

theorem stringBody_foreign {s : List UInt8} (h : Foreign s) (n : Nat) :
    DeadEnd (Json.stringBody n s) := by
  rcases h with rfl | ⟨rest, rfl⟩
  · cases n <;> exact DeadEnd.none
  · match n with
    | 0 => exact DeadEnd.none
    | 1 => exact DeadEnd.none
    | n + 2 =>
        have heq : Json.stringBody (n + 2) (123 :: 34 :: 101 :: rest)
            = some ([123], 101 :: rest) := rfl
        rw [heq]
        exact DeadEnd.some (.inr ⟨101, rest, rfl, .inl rfl⟩)

theorem escape_foreign {s : List UInt8} (h : Foreign s) : Json.escape s = none := by
  rcases h with rfl | ⟨rest, rfl⟩
  · rfl
  · rfl

theorem hexValue_brace : Json.hexValue 123 = none := by decide

theorem hex4_foreign {p s : List UInt8} (hp : p.length < 4) (h : Foreign s) :
    Json.hex4 (p ++ s) = none := by
  rcases h with rfl | ⟨rest, rfl⟩
  · rw [List.append_nil]
    match p, hp with
    | [], _ => rfl
    | [a], _ => rfl
    | [a, b], _ => rfl
    | [a, b, c], _ => rfl
  · match p, hp with
    | [], _ =>
        cases rest with
        | nil => rfl
        | cons d rest => simp [Json.hex4, hexValue_brace]
    | [a], _ => simp [Json.hex4, hexValue_brace]
    | [a, b], _ => simp [Json.hex4, hexValue_brace]
    | [a, b, c], _ => simp [Json.hex4, hexValue_brace]

theorem escaped_cases (b : UInt8) :
    (∃ x, escaped b = [92, x]) ∨ escaped b = [b]
      ∨ ∃ x y, escaped b = [92, 117, 48, 48, x, y] := by
  unfold escaped
  split_ifs
  · exact .inl ⟨34, rfl⟩
  · exact .inl ⟨92, rfl⟩
  · exact .inl ⟨110, rfl⟩
  · exact .inl ⟨114, rfl⟩
  · exact .inl ⟨116, rfl⟩
  · exact .inr (.inl rfl)
  · exact .inr (.inr ⟨_, _, rfl⟩)

/-- An escape that was cut. -/
theorem stringBody_cut_escaped {p t s : List UInt8} {a b c : UInt8}
    (hcut : a :: p ++ c :: t = escaped b) (h : Foreign s) (n : Nat) :
    Json.stringBody n (a :: p ++ s) = none := by
  cases n with
  | zero => rfl
  | succ n =>
      -- what is left of an escape is its backslash and at most three of four digits
      have hback : a = 92 ∧ (p = [] ∨ ∃ q, p = 117 :: q ∧ q.length < 4) := by
        rcases escaped_cases b with ⟨x, hx⟩ | hx | ⟨x, y, hx⟩
        · rw [hx] at hcut
          have hlen := congrArg List.length hcut
          simp only [List.cons_append, List.length_cons, List.length_append] at hlen
          exact ⟨(List.cons.inj hcut).1, .inl (List.eq_nil_of_length_eq_zero (by
            simp only [List.length_nil] at hlen
            omega))⟩
        · rw [hx] at hcut
          have hlen := congrArg List.length hcut
          simp at hlen
        · rw [hx] at hcut
          have hlen := congrArg List.length hcut
          obtain ⟨ha, htail⟩ := List.cons.inj hcut
          refine ⟨ha, ?_⟩
          cases p with
          | nil => exact .inl rfl
          | cons u q =>
              refine .inr ⟨q, ?_, ?_⟩
              · rw [(List.cons.inj htail).1]
              · simp only [List.cons_append, List.length_cons, List.length_append,
                  List.length_nil] at hlen
                omega
      obtain ⟨rfl, hp⟩ := hback
      rw [List.cons_append, Json.stringBody, if_neg (by decide), if_pos rfl]
      rcases hp with rfl | ⟨q, rfl, hq⟩
      · rw [List.nil_append, escape_foreign h]
      · have hunicode : Json.escape (117 :: q ++ s) = none := by
          show Json.unicodeEscape (q ++ s) = none
          rw [Json.unicodeEscape, hex4_foreign hq h]
        rw [hunicode]

theorem stringBody_cut_quoted {value p s : List UInt8} (hp : p <+: value.flatMap escaped)
    (h : Foreign s) (n : Nat) : DeadEnd (Json.stringBody n (p ++ s)) := by
  induction value generalizing p n with
  | nil =>
      rw [List.prefix_nil.mp hp, List.nil_append]
      exact stringBody_foreign h n
  | cons b value ih =>
      rw [List.flatMap_cons] at hp
      rcases prefix_append_cases hp with ⟨c, t, hcut⟩ | ⟨q, rfl, hq⟩
      · cases p with
        | nil => exact stringBody_foreign h n
        | cons a p =>
            rw [stringBody_cut_escaped hcut h n]
            exact DeadEnd.none
      · cases n with
        | zero => exact DeadEnd.none
        | succ n =>
            rw [List.append_assoc, stringBody_escaped]
            exact (ih hq n).map _

theorem stringBody_cut_key {key p s : List UInt8} (hplain : ∀ b ∈ key, b < 128 ∧ b ≠ 34 ∧ b ≠ 92)
    (hp : p <+: key) (h : Foreign s) (n : Nat) : DeadEnd (Json.stringBody n (p ++ s)) := by
  induction p generalizing key n with
  | nil => exact stringBody_foreign h n
  | cons b p ih =>
      obtain ⟨t, rfl⟩ := hp
      rw [List.cons_append, List.forall_mem_cons] at hplain
      cases n with
      | zero => exact DeadEnd.none
      | succ n =>
          rw [List.cons_append, stringBody_plain hplain.1.2.1 hplain.1.2.2]
          split
          · exact DeadEnd.none
          · exact (ih hplain.2 (List.prefix_append p t) n).map _

theorem deadEnd_text {s : List UInt8} (h : ∀ n, DeadEnd (Json.stringBody n s)) :
    DeadEnd (Json.text s) := by
  intro text rest heq
  unfold Json.text at heq
  split at heq
  case h_1 bytes rest' hbody =>
    rw [Option.map_eq_some_iff] at heq
    obtain ⟨text', -, hpair⟩ := heq
    cases hpair
    exact h _ _ _ hbody
  case h_2 => cases heq

/-! ## Values -/

theorem Foreign.stopsNumber {s : List UInt8} (h : Foreign s) : StopsNumber s := by
  intro b rest hs
  rcases h with rfl | ⟨rest', rfl⟩
  · cases hs
  · rw [← (List.cons.inj hs).1]
    decide

/-- A number that was cut. -/
theorem numeral_cut {value : Int64} {p s : List UInt8} (hp : p <+: decimal value) (h : Foreign s) :
    DeadEnd (Json.numeral (p ++ s)) := by
  obtain ⟨mark, d, digits, heq, hmark, hdigits, -⟩ := decimal_eq value
  rw [heq] at hp
  have hnothing : DeadEnd (Json.numeral s) := by
    rcases h with rfl | ⟨rest, rfl⟩
    · exact DeadEnd.none
    · exact DeadEnd.none
  rcases prefix_append_cases hp with ⟨c, t, hcut⟩ | ⟨q, rfl, hq⟩
  · have hnil : p = [] := by
      have hlen := congrArg List.length hcut
      rw [List.length_append, List.length_cons] at hlen
      rcases hmark with rfl | rfl
      · simp at hlen
      · exact List.eq_nil_of_length_eq_zero (by simp at hlen; omega)
    rw [hnil]
    exact hnothing
  · cases q with
    | nil =>
        rcases hmark with rfl | rfl
        · exact hnothing
        · rcases h with rfl | ⟨rest, rfl⟩
          · exact DeadEnd.none
          · exact DeadEnd.none
    | cons e q =>
        have hdigits' : ∀ b ∈ e :: q, Json.isDigit b := fun b hb => hdigits b (hq.subset hb)
        rw [List.append_assoc, numeral_digits hmark hdigits' h.stopsNumber]
        split
        · exact DeadEnd.none
        · exact DeadEnd.some h.dead

theorem text_cut {value p s : List UInt8} (hp : p <+: value.flatMap escaped ++ [34])
    (h : Foreign s) : DeadEnd (Json.text (p ++ s)) := by
  have hinside : p <+: value.flatMap escaped → DeadEnd (Json.text (p ++ s)) :=
    fun hp => deadEnd_text fun n => stringBody_cut_quoted hp h n
  rcases prefix_append_cases hp with ⟨c, t, hcut⟩ | ⟨q, hpq, hq⟩
  · exact hinside ⟨c :: t, hcut⟩
  · rcases List.prefix_cons_iff.mp hq with rfl | ⟨r, rfl, hr⟩
    · exact hinside ⟨[], by rw [hpq, List.append_nil, List.append_nil]⟩
    · rw [List.prefix_nil.mp hr] at hpq
      rw [hpq, List.append_assoc, List.singleton_append, text_quoted]
      exact DeadEnd.some h.dead

theorem word_null_cut {p s : List UInt8} {c : UInt8} {t : List UInt8}
    (hcut : p ++ c :: t = [110, 117, 108, 108]) (h : Foreign s) :
    Json.word [110, 117, 108, 108] (p ++ s) .null = none := by
  refine if_neg fun hahead => ?_
  -- the byte behind the cut would have to be that of the word
  rw [← hcut, List.prefix_append_right_inj] at hahead
  rcases h with rfl | ⟨rest, rfl⟩
  · cases List.prefix_nil.mp hahead
  · obtain ⟨t', ht'⟩ := hahead
    have hc : c = 123 := (List.cons.inj ht').1
    have hmem : (123 : UInt8) ∈ [110, 117, 108, 108] := by
      rw [← hcut, hc]
      simp
    exact absurd hmem (by decide)

/-- A value cut anywhere, with a foreign text behind the cut, is a dead end for the reader.
-/
theorem value_cut {v : FieldValue} {p s : List UInt8} (hp : p <+: v.text) (h : Foreign s)
    {depth : Nat} (hvalue : DeadEnd (Json.value depth s)) :
    DeadEnd (Json.value depth (p ++ s)) := by
  cases depth with
  | zero => exact DeadEnd.none
  | succ depth =>
      cases p with
      | nil => exact hvalue
      | cons b p =>
          cases v with
          | str value =>
              obtain ⟨hb, hrest⟩ := List.cons_prefix_cons.mp hp
              rw [hb, List.cons_append, Json.value, if_pos rfl]
              exact (text_cut hrest h).map _
          | i64 value =>
              obtain ⟨b', s', hfront, hb⟩ := decimal_front value
              have hhead : b = b' := by
                have hp' : b :: p <+: b' :: s' := hfront ▸ hp
                exact (List.cons_prefix_cons.mp hp').1
              rw [List.cons_append, value_numeral (hhead ▸ hb), ← List.cons_append]
              exact numeral_cut hp h
          | null =>
              obtain ⟨t, ht⟩ := hp
              have hb : b = 110 := (List.cons.inj ht).1
              have hword : Json.value (depth + 1) (b :: p ++ s)
                  = Json.word [110, 117, 108, 108] (b :: p ++ s) .null := by
                rw [hb]
                rfl
              rw [hword]
              cases t with
              | nil =>
                  rw [List.append_nil] at ht
                  rw [ht]
                  exact DeadEnd.some h.dead
              | cons c t =>
                  rw [word_null_cut ht h]
                  exact DeadEnd.none

/-! ## Fields -/

theorem member_foreign {s : List UInt8} (h : Foreign s)
    (value : List UInt8 → Option (Json × List UInt8)) : Json.member value s = none := by
  rcases h with rfl | ⟨rest, rfl⟩
  · rfl
  · rfl

/-- No colon comes at a dead end. -/
theorem member_dead {s : List UInt8} (h : DeadEnd (Json.text s))
    (value : List UInt8 → Option (Json × List UInt8)) : Json.member value (34 :: s) = none := by
  rw [Json.member, if_pos rfl]
  cases htext : Json.text s with
  | none => rfl
  | some read =>
      obtain ⟨key, rest⟩ := read
      have hdead := h key rest htext
      dsimp only
      rw [hdead.skipSpace]
      cases rest with
      | nil => rfl
      | cons b rest =>
          refine if_neg ?_
          rcases hdead.front rfl with rfl | rfl <;> decide

/-- A member cut anywhere, with a foreign text behind the cut, is a dead end for the reader.
-/
theorem member_cut {f : Field} {p s : List UInt8} (hp : p <+: f.text) (h : Foreign s)
    {depth : Nat} (hvalue : DeadEnd (Json.value depth s)) :
    DeadEnd (Json.member (Json.value depth) (p ++ s)) := by
  rcases List.prefix_cons_iff.mp hp with rfl | ⟨q, rfl, hq⟩
  · rw [List.nil_append, member_foreign h]
    exact DeadEnd.none
  · have hkey : q <+: f.key.bytes → DeadEnd (Json.member (Json.value depth) (34 :: q ++ s)) := by
      intro hq
      rw [List.cons_append,
        member_dead (deadEnd_text fun n => stringBody_cut_key f.key.plain hq h n)]
      exact DeadEnd.none
    rcases prefix_append_cases hq with ⟨c, t, hcut⟩ | ⟨r, hqr, hr⟩
    · exact hkey ⟨c :: t, hcut⟩
    · rcases List.prefix_cons_iff.mp hr with rfl | ⟨behind, rfl, hbehind⟩
      · exact hkey ⟨[], by rw [hqr, List.append_nil, List.append_nil]⟩
      · -- behind the key
        rw [hqr, List.cons_append, List.append_assoc, List.cons_append]
        by_cases hclean : f.key.Clean
        · have htext := text_key hclean (behind ++ s)
          rcases List.prefix_cons_iff.mp hbehind with rfl | ⟨r, rfl, hr'⟩
          · rw [member_dead (by rw [htext]; exact DeadEnd.some h.dead)]
            exact DeadEnd.none
          · rw [Json.member, if_pos rfl, htext]
            dsimp only
            rw [List.cons_append, Json.skipSpace_cons (by decide)]
            dsimp only
            rw [if_pos rfl]
            have hskip : Json.skipSpace (r ++ s) = r ++ s := by
              obtain ⟨b, t, hfront, hspace⟩ := f.value.text_front
              cases r with
              | nil => exact h.dead.skipSpace
              | cons c r =>
                  rw [hfront] at hr'
                  rw [List.cons_append, (List.cons_prefix_cons.mp hr').1,
                    Json.skipSpace_cons hspace]
            rw [hskip]
            exact (value_cut hr' h hvalue).map _
        · rw [Json.member, if_pos rfl, text_key_unclean hclean]
          exact DeadEnd.none

/-- Neither a comma nor a closing brace comes at a dead end. -/
theorem members_dead {value : List UInt8 → Option (Json × List UInt8)} {s : List UInt8}
    (h : DeadEnd (Json.member value s)) (n : Nat) : Json.members value n s = none := by
  cases n with
  | zero => rfl
  | succ n =>
      rw [Json.members]
      cases hmember : Json.member value s with
      | none => rfl
      | some read =>
          obtain ⟨entry, rest⟩ := read
          have hdead := h entry rest hmember
          dsimp only
          rw [hdead.skipSpace]
          cases rest with
          | nil => rfl
          | cons b rest =>
              have hb := hdead.front rfl
              dsimp only
              rw [if_neg (by rcases hb with rfl | rfl <;> decide),
                if_neg (by rcases hb with rfl | rfl <;> decide)]

theorem members_foreign {s : List UInt8} (h : Foreign s)
    (value : List UInt8 → Option (Json × List UInt8)) (n : Nat) :
    Json.members value n s = none := by
  refine members_dead ?_ n
  rw [member_foreign h]
  exact DeadEnd.none

/-- Fields cut anywhere, with a foreign text behind the cut, are no members. -/
theorem members_cut {fields : List Field} {f : Field} {p s : List UInt8}
    (hp : p <+: fieldsText (f :: fields)) (h : Foreign s) {depth : Nat}
    (hvalue : DeadEnd (Json.value (depth + 1) s)) (n : Nat) :
    Json.members (Json.value (depth + 1)) n (p ++ s) = none := by
  induction fields generalizing f p n with
  | nil => exact members_dead (member_cut hp h hvalue) n
  | cons g fields ih =>
      have hfirst : p <+: f.text → Json.members (Json.value (depth + 1)) n (p ++ s) = none :=
        fun hp => members_dead (member_cut hp h hvalue) n
      rcases prefix_append_cases hp with ⟨c, t, hcut⟩ | ⟨q, hpq, hq⟩
      · exact hfirst ⟨c :: t, hcut⟩
      · rcases List.prefix_cons_iff.mp hq with rfl | ⟨q, rfl, hq'⟩
        · exact hfirst ⟨[], by rw [hpq, List.append_nil, List.append_nil]⟩
        · cases n with
          | zero => rfl
          | succ n =>
              rw [hpq, List.append_assoc, List.cons_append, Json.members]
              by_cases hclean : f.key.Clean
              · rw [member_text hclean depth (stopsNumber_comma (q ++ s))]
                dsimp only
                rw [Json.skipSpace_cons (by decide)]
                dsimp only
                rw [if_neg (by decide), if_pos rfl]
                have hskip : Json.skipSpace (q ++ s) = q ++ s := by
                  obtain ⟨t, hfront⟩ := fieldsText_front g fields
                  cases q with
                  | nil => exact h.dead.skipSpace
                  | cons c q =>
                      rw [hfront] at hq'
                      rw [List.cons_append, (List.cons_prefix_cons.mp hq').1,
                        Json.skipSpace_cons (by decide)]
                rw [hskip, ih hq' n]
                rfl
              · rw [member_unclean hclean]

/-- A line that was cut before its closing brace is no value. -/
theorem value_event_cut {e : Event} {p s : List UInt8} (hp : p <+: fieldsText e.allFields)
    (h : Foreign s) (hvalue : ∀ depth, DeadEnd (Json.value depth s)) (depth : Nat) :
    Json.value depth (123 :: (p ++ s)) = none := by
  match depth with
  | 0 => rfl
  | 1 => rfl
  | depth + 2 =>
      rw [Json.value, if_neg (by decide), if_pos rfl, if_neg (by omega)]
      cases p with
      | nil =>
          rw [List.nil_append, h.dead.skipSpace]
          cases s with
          | nil => rfl
          | cons b s =>
              dsimp only
              rw [if_neg (by rcases h.dead.front rfl with rfl | rfl <;> decide),
                members_foreign h]
              rfl
      | cons b p =>
          obtain ⟨t, hfront⟩ := fieldsText_front ⟨eventKey, .str e.name⟩ e.fields
          have hb : b = 34 := by
            rw [Event.allFields, hfront] at hp
            exact (List.cons_prefix_cons.mp hp).1
          have hnone := members_cut hp h (hvalue (depth + 1)) (b :: p ++ s).length
          rw [List.cons_append, Json.skipSpace_cons (by rw [hb]; decide)]
          dsimp only
          rw [if_neg (by rw [hb]; decide)]
          rw [List.cons_append] at hnone
          rw [hnone]
          rfl

end GovFuzz.Runtrace
