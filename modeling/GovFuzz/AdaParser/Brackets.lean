import GovFuzz.AdaParser.Syntax

/-!
# Ada parser — what the marks of a tree have in common

Every bracket of a tree is closed in it, except that the keyword of a
conditional expression opens one that nothing closes; every `end` of a block
or body stands in front of its semicolon, and every `exception` in front of
an arm.
-/

namespace GovFuzz.AdaParser

theorem kindsOf_cons (mark : Mark) (marks : List Mark) :
    kindsOf (mark :: marks) = mark.kinds ++ kindsOf marks := rfl

theorem kindsOf_append (a b : List Mark) : kindsOf (a ++ b) = kindsOf a ++ kindsOf b :=
  List.flatMap_append

/-- What a name is made of. -/
def TokenKind.isNamePart : TokenKind → Bool
  | .identifier _ | .dot => true
  | _ => false

theorem isPlain_of_isNamePart {kind : TokenKind} (h : kind.isNamePart = true) :
    kind.isPlain = true := by
  cases kind <;> first | rfl | cases h

theorem isNamePart_of_mem_selectorKinds {names : List String} {kind : TokenKind}
    (h : kind ∈ selectorKinds names) : kind.isNamePart = true := by
  induction names with
  | nil => cases h
  | cons name names ih =>
      rw [selectorKinds, List.mem_cons, List.mem_cons] at h
      rcases h with rfl | rfl | h
      · rfl
      · rfl
      · exact ih h

theorem isNamePart_of_mem_nameKinds {names : List String} {kind : TokenKind}
    (h : kind ∈ nameKinds names) : kind.isNamePart = true := by
  cases names with
  | nil => cases h
  | cons name names =>
      rcases List.mem_cons.mp h with rfl | h
      · rfl
      · exact isNamePart_of_mem_selectorKinds h

/-- What a mark needs to see behind it. -/
def Mark.lookahead : Mark → List TokenKind
  | .closeBlock _ => [.semicolon]
  | _ => []

/-- Every `end` of a block or body stands in front of its semicolon, every
`exception` in front of an arm. -/
def WellPlaced : List Mark → Prop
  | [] => True
  | .closeBlock _ :: marks => (∃ rest, marks = .semicolon :: rest) ∧ WellPlaced marks
  | .exception :: marks =>
      (∃ (lead : ArmLead) (rest : List Mark), marks = lead.words.marks ++ rest) ∧ WellPlaced marks
  | _ :: marks => WellPlaced marks

theorem WellPlaced.append {a b : List Mark} (ha : WellPlaced a) (hb : WellPlaced b) :
    WellPlaced (a ++ b) := by
  induction a with
  | nil => exact hb
  | cons mark a ih =>
      cases mark with
      | closeBlock name =>
          obtain ⟨⟨rest, rfl⟩, ha⟩ := ha
          exact ⟨⟨rest ++ b, rfl⟩, ih ha⟩
      | exception =>
          obtain ⟨⟨lead, rest, rfl⟩, ha⟩ := ha
          exact ⟨⟨lead, rest ++ b, List.append_assoc _ _ _⟩, ih ha⟩
      | _ => exact ih ha

theorem WellPlaced.tail {mark : Mark} {marks : List Mark} (h : WellPlaced (mark :: marks)) :
    WellPlaced marks := by
  cases mark with
  | closeBlock name => exact h.2
  | exception => exact h.2
  | _ => exact h

theorem WellPlaced.of_append {a b : List Mark} (h : WellPlaced (a ++ b)) : WellPlaced b := by
  induction a with
  | nil => exact h
  | cons mark a ih => exact ih h.tail

theorem At.lookahead {tokens : List Token} {endByte index : Nat} {mark : Mark}
    {marks : List Mark} (hwell : WellPlaced (mark :: marks))
    (h : At tokens endByte index (kindsOf (mark :: marks))) :
    At tokens endByte index (mark.kinds ++ mark.lookahead) := by
  cases mark with
  | closeBlock name =>
      obtain ⟨⟨rest, rfl⟩, -⟩ := hwell
      rw [kindsOf_cons, kindsOf_cons, ← List.append_assoc] at h
      exact h.append.1
  | _ =>
      rw [kindsOf_cons] at h
      simpa only [Mark.lookahead, List.append_nil] using h.append.1

/-! ## Arms hold no expressions in front of their arrow -/

section
variable {counted : Bracket → Bool}

theorem Phrase.conditionals_eq_zero {words : Phrase} :
    words.conditionals counted = 0 ↔ ∀ word ∈ words, word.isConditional counted = false := by
  simp [Phrase.conditionals, List.countP_eq_zero]

theorem selectorWords_isConditional (names : List String) :
    ∀ word ∈ selectorWords names, word.isConditional counted = false := by
  induction names with
  | nil => simp [selectorWords]
  | cons name names ih =>
      intro word hword
      simp only [selectorWords, List.mem_cons] at hword
      rcases hword with rfl | rfl | hword
      · rfl
      · rfl
      · exact ih word hword

theorem ArmChoice.words_isConditional (choice : ArmChoice) :
    ∀ word ∈ choice.words, word.isConditional counted = false := by
  intro word hword
  cases choice with
  | others =>
      rw [ArmChoice.words, List.mem_singleton] at hword
      rw [hword]
      rfl
  | name first rest =>
      rcases List.mem_cons.mp hword with rfl | hword
      · rfl
      · exact selectorWords_isConditional rest word hword

theorem ArmLead.words_conditionals (counted : Bracket → Bool) (lead : ArmLead) :
    lead.words.conditionals counted = 0 := by
  rw [Phrase.conditionals_eq_zero]
  intro word hword
  simp only [ArmLead.words, List.mem_append, List.mem_cons, List.mem_flatMap,
    List.not_mem_nil, or_false] at hword
  rcases hword with (((rfl | hbinding) | hfirst) | ⟨choice, -, rfl | hchoice⟩) | rfl
  · rfl
  · cases hlead : lead.binding with
    | none => simp [hlead] at hbinding
    | some name =>
        simp only [hlead, List.mem_cons, List.not_mem_nil, or_false] at hbinding
        rcases hbinding with rfl | rfl
        · rfl
        · rfl
  · exact lead.first.words_isConditional word hfirst
  · rfl
  · exact choice.words_isConditional word hchoice
  · rfl

end

/-! ## Openings and closings -/

def Mark.opens (counted : Bracket → Bool) : Mark → Bool
  | .open bracket => counted bracket
  | _ => false

def Mark.closes (counted : Bracket → Bool) : Mark → Bool
  | .close bracket => counted bracket
  | _ => false

/-! ## Depth

A scanner that counts the open brackets and stops at some marks when none is
open. -/

def Mark.shift (counted : Bracket → Bool) : Mark → Nat → Nat
  | .open bracket, depth => if counted bracket then depth + 1 else depth
  | .close bracket, depth => if counted bracket then depth - 1 else depth
  | _, depth => depth

/-- The marks to stop at: a keyword, and the `end` of a block or body. -/
def Mark.stops (target : TokenKind) : Mark → Bool
  | .plain kind _ => kind = target
  | .exception => target = .kwException
  | .closeBlock _ => true
  | _ => false

/-- The depth behind a list of marks, if the scan does not stop among them. -/
def runDepth (counted : Bracket → Bool) (target : TokenKind) : List Mark → Nat → Option Nat
  | [], depth => some depth
  | mark :: marks, depth =>
      if depth = 0 ∧ mark.stops target then none
      else runDepth counted target marks (mark.shift counted depth)

theorem runDepth_append (counted : Bracket → Bool) (target : TokenKind) (a b : List Mark)
    (depth : Nat) :
    runDepth counted target (a ++ b) depth
      = (runDepth counted target a depth).bind (runDepth counted target b) := by
  induction a generalizing depth with
  | nil => rfl
  | cons mark a ih =>
      rw [List.cons_append, runDepth, runDepth]
      split
      · rfl
      · exact ih _

/-- The scan adds `n` to the depth; it can stop only at depth 0. -/
def Climbs (counted : Bracket → Bool) (marks : List Mark) (n : Nat) : Prop :=
  ∀ target depth, runDepth counted target marks depth = some (depth + n) ∨
    (depth = 0 ∧ runDepth counted target marks depth = none)

theorem Climbs.append {counted : Bracket → Bool} {a b : List Mark} {m n : Nat}
    (ha : Climbs counted a m) (hb : Climbs counted b n) : Climbs counted (a ++ b) (m + n) := by
  intro target depth
  rw [runDepth_append]
  rcases ha target depth with h | ⟨hzero, h⟩
  · rw [h, Option.bind_some, ← Nat.add_assoc]
    rcases hb target (depth + m) with h' | ⟨hzero, h'⟩
    · exact .inl h'
    · exact .inr ⟨by omega, h'⟩
  · exact .inr ⟨hzero, by rw [h]; rfl⟩

theorem Climbs.cons {counted : Bracket → Bool} {mark : Mark} {marks : List Mark} {n : Nat}
    (h : Climbs counted marks n) (hmark : ∀ depth, mark.shift counted depth = depth) :
    Climbs counted (mark :: marks) n := by
  intro target depth
  rw [runDepth, hmark]
  by_cases hstop : depth = 0 ∧ mark.stops target
  · exact .inr ⟨hstop.1, if_pos hstop⟩
  · rw [if_neg hstop]
    exact h target depth

/-- Inside a counted bracket the depth is positive, so nothing stops. -/
theorem runDepth_bracket {counted : Bracket → Bool} {bracket : Bracket} {inner : List Mark}
    {n : Nat} (hcounted : counted bracket = true) (hinner : Climbs counted inner n)
    (rest : List Mark) (target : TokenKind) (depth : Nat) :
    runDepth counted target (.open bracket :: (inner ++ .close bracket :: rest)) depth
      = runDepth counted target rest (depth + n) := by
  have hin : runDepth counted target inner (depth + 1) = some (depth + 1 + n) :=
    (hinner target (depth + 1)).resolve_right (by omega)
  have hdepth : depth + 1 + n - 1 = depth + n := by omega
  rw [runDepth, if_neg (by simp [Mark.stops]), Mark.shift, if_pos hcounted, runDepth_append, hin,
    Option.bind_some, runDepth, if_neg (by simp [Mark.stops]), Mark.shift, if_pos hcounted, hdepth]

theorem Climbs.bracket {counted : Bracket → Bool} {inner rest : List Mark} {m n : Nat}
    (bracket : Bracket) (hinner : Climbs counted inner m) (hrest : Climbs counted rest n) :
    Climbs counted (.open bracket :: (inner ++ .close bracket :: rest)) (m + n) := by
  cases hcounted : counted bracket with
  | true =>
      intro target depth
      rw [runDepth_bracket hcounted hinner, ← Nat.add_assoc]
      rcases hrest target (depth + m) with h | ⟨hzero, h⟩
      · exact .inl h
      · exact .inr ⟨by omega, h⟩
  | false =>
      have hskip : Climbs counted (.close bracket :: rest) n :=
        hrest.cons fun depth => by rw [Mark.shift, hcounted, if_neg Bool.false_ne_true]
      exact (hinner.append hskip).cons fun depth => by
        rw [Mark.shift, hcounted, if_neg Bool.false_ne_true]

/-! ## Trees -/

/-- What holds of the marks of every tree with `n` conditional expressions:
that many openings are not closed, the depth climbs by that much, and `end`
and `exception` stand where they should. -/
structure Formed (counted : Bracket → Bool) (marks : List Mark) (n : Nat) : Prop where
  surplus : marks.countP (Mark.opens counted) = marks.countP (Mark.closes counted) + n
  climbs : Climbs counted marks n
  wellPlaced : WellPlaced marks

section
variable {counted : Bracket → Bool}

theorem Formed.nil : Formed counted [] 0 := ⟨rfl, fun _ _ => .inl rfl, trivial⟩

theorem Formed.append {a b : List Mark} {m n : Nat} (ha : Formed counted a m)
    (hb : Formed counted b n) : Formed counted (a ++ b) (m + n) := by
  refine ⟨?_, ha.climbs.append hb.climbs, ha.wellPlaced.append hb.wellPlaced⟩
  rw [List.countP_append, List.countP_append, ha.surplus, hb.surplus]
  omega

/-- The marks that `WellPlaced` speaks of. -/
def Mark.isPlaced : Mark → Bool
  | .closeBlock _ | .exception => true
  | _ => false

theorem WellPlaced.cons {mark : Mark} {marks : List Mark} (h : WellPlaced marks)
    (hmark : mark.isPlaced = false) : WellPlaced (mark :: marks) := by
  cases mark with
  | closeBlock name => cases hmark
  | exception => cases hmark
  | _ => exact h

theorem shift_uncounted {mark : Mark} (hopens : mark.opens counted = false)
    (hcloses : mark.closes counted = false) (depth : Nat) : mark.shift counted depth = depth := by
  cases mark with
  | «open» bracket =>
      rw [Mark.opens] at hopens
      rw [Mark.shift, hopens, if_neg Bool.false_ne_true]
  | close bracket =>
      rw [Mark.closes] at hcloses
      rw [Mark.shift, hcloses, if_neg Bool.false_ne_true]
  | _ => rfl

/-- A mark that is neither counted nor bound to what follows it. -/
theorem Formed.cons {marks : List Mark} {n : Nat} (mark : Mark) (h : Formed counted marks n)
    (hopens : mark.opens counted = false) (hcloses : mark.closes counted = false)
    (hmark : mark.isPlaced = false) : Formed counted (mark :: marks) n := by
  refine ⟨?_, h.climbs.cons (shift_uncounted hopens hcloses), h.wellPlaced.cons hmark⟩
  rw [List.countP_cons, List.countP_cons, hopens, hcloses, h.surplus]
  simp

theorem formed_semicolon : Formed counted [.semicolon] 0 := Formed.nil.cons .semicolon rfl rfl rfl

theorem formed_close (name : List String) : Formed counted [.closeBlock name, .semicolon] 0 :=
  ⟨rfl, formed_semicolon.climbs.cons fun _ => rfl, ⟨[], rfl⟩, trivial⟩

/-- One word more in front of a phrase adds what it counts. -/
theorem climbs_word (word : Word) {words : Phrase}
    (h : Climbs counted words.marks (words.conditionals counted)) :
    Climbs counted (Phrase.marks (word :: words))
      (Phrase.conditionals counted (word :: words)) := by
  have hopens : word.mark.opens counted = word.isConditional counted := by cases word <;> rfl
  have hcloses : word.mark.closes counted = false := by cases word <;> rfl
  have hmarks : Phrase.marks (word :: words) = word.mark :: words.marks := rfl
  rw [hmarks, Phrase.conditionals, List.countP_cons, ← Phrase.conditionals]
  by_cases hword : word.isConditional counted = true
  · -- the keyword of a conditional expression opens, and does not stop
    intro target depth
    obtain ⟨bracket, hbracket⟩ : ∃ bracket, word.mark = .open bracket := by
      cases word with
      | condIf => exact ⟨.if, rfl⟩
      | condCase => exact ⟨.case, rfl⟩
      | _ => cases hword
    rw [hbracket] at hopens ⊢
    rw [hword, Mark.opens] at hopens
    have hshift : (Mark.open bracket).shift counted depth = depth + 1 := by
      rw [Mark.shift, if_pos hopens]
    rw [if_pos hword, runDepth, if_neg (by simp [Mark.stops]), hshift]
    rcases h target (depth + 1) with hrun | ⟨hzero, -⟩
    · left
      rw [hrun]
      congr 1
      omega
    · omega
  · rw [if_neg hword, Nat.add_zero]
    rw [Bool.not_eq_true] at hword
    exact h.cons (shift_uncounted (hopens.trans hword) hcloses)

theorem formed_phrase (words : Phrase) :
    Formed counted words.marks (words.conditionals counted) := by
  induction words with
  | nil => exact .nil
  | cons word words ih =>
      refine ⟨?_, climbs_word word ih.climbs, ih.wellPlaced.cons (by cases word <;> rfl)⟩
      have hopens : word.mark.opens counted = word.isConditional counted := by cases word <;> rfl
      have hcloses : word.mark.closes counted = false := by cases word <;> rfl
      have hrest := ih.surplus
      rw [Phrase.marks] at hrest
      rw [Phrase.marks, List.map_cons, Phrase.conditionals, List.countP_cons, List.countP_cons,
        List.countP_cons, ← Phrase.conditionals, hrest, hopens, hcloses, if_neg Bool.false_ne_true]
      omega

theorem formed_header (header : List Phrase) :
    Formed counted (headerMarks header) (header.map (Phrase.conditionals counted)).sum := by
  induction header with
  | nil => exact .nil
  | cons words header ih =>
      cases header with
      | nil =>
          rw [headerMarks, List.map_cons, List.map_nil, List.sum_cons, List.sum_nil, Nat.add_zero]
          exact formed_phrase words
      | cons words' header => exact (formed_phrase words).append (ih.cons .semicolon rfl rfl rfl)

/-- A bracket closes itself. -/
theorem Formed.bracket {inner rest : List Mark} {m n : Nat} (bracket : Bracket)
    (hinner : Formed counted inner m) (hrest : Formed counted rest n) :
    Formed counted (.open bracket :: (inner ++ .close bracket :: rest)) (m + n) := by
  refine ⟨?_, hinner.climbs.bracket bracket hrest.climbs,
    .cons (hinner.wellPlaced.append (hrest.wellPlaced.cons rfl)) rfl⟩
  have hsame : (Mark.open bracket).opens counted = (Mark.close bracket).closes counted := by
    cases bracket <;> rfl
  have hopens : (Mark.close bracket).opens counted = false := rfl
  have hcloses : (Mark.open bracket).closes counted = false := rfl
  have hinner := hinner.surplus
  have hrest := hrest.surplus
  simp only [List.countP_cons, List.countP_append, hopens, hcloses, ← hsame, hinner, hrest,
    Bool.false_eq_true, if_false, Nat.add_zero]
  omega

theorem formed_part {arms : Arms} (h : Formed counted arms.marks (arms.conditionals counted)) :
    Formed counted arms.part (arms.conditionals counted) := by
  cases arms with
  | nil => exact .nil
  | cons lead body rest =>
      refine ⟨?_, h.climbs.cons fun _ => rfl,
        ⟨lead, body.marks ++ rest.marks, List.append_assoc _ _ _⟩, h.wellPlaced⟩
      have hsurplus := h.surplus
      rw [Arms.marks] at hsurplus
      rw [Arms.part, List.countP_cons, List.countP_cons, hsurplus]
      rfl

/-- From a `begin` to the semicolon of its `end`. -/
theorem formed_body {body : Stmts} {arms : Arms} (name : List String)
    (hbody : Formed counted body.marks (body.conditionals counted))
    (harms : Formed counted arms.marks (arms.conditionals counted)) :
    Formed counted (.begin :: (body.marks ++ arms.part ++ [.closeBlock name, .semicolon]))
      (body.conditionals counted + arms.conditionals counted) :=
  ((hbody.append (formed_part harms)).append (formed_close name)).cons .begin rfl rfl rfl

mutual

theorem Stmt.formed (stmt : Stmt) : Formed counted stmt.marks (stmt.conditionals counted) := by
  cases stmt with
  | simple words => exact (formed_phrase words).append formed_semicolon
  | compound bracket header sections trailer =>
      rw [Stmt.marks, Stmt.conditionals, Nat.add_assoc]
      exact (formed_phrase header).append
        ((Sections.formed sections).bracket bracket
          ((formed_phrase trailer).append formed_semicolon))
  | block label body arms name =>
      exact (formed_phrase label).append (formed_body name (Stmts.formed body) (Arms.formed arms))
  | declareBlock label decls body arms name =>
      rw [Stmt.marks, Stmt.conditionals, Nat.add_assoc]
      exact (formed_phrase label).append (((Decls.formed decls).append
        (formed_body name (Stmts.formed body) (Arms.formed arms))).cons .declare rfl rfl rfl)

theorem Stmts.formed (stmts : Stmts) : Formed counted stmts.marks (stmts.conditionals counted) := by
  cases stmts with
  | nil => exact .nil
  | cons stmt rest => exact (Stmt.formed stmt).append (Stmts.formed rest)

theorem Sections.formed (sections : Sections) :
    Formed counted sections.marks (sections.conditionals counted) := by
  cases sections with
  | nil => exact .nil
  | cons lead body rest =>
      exact ((formed_phrase lead).append (Stmts.formed body)).append (Sections.formed rest)

theorem Arms.formed (arms : Arms) : Formed counted arms.marks (arms.conditionals counted) := by
  cases arms with
  | nil => exact .nil
  | cons lead body rest =>
      have hlead : Formed counted lead.words.marks _ := formed_phrase lead.words
      rw [lead.words_conditionals counted] at hlead
      have hall := (hlead.append (Stmts.formed body)).append (Arms.formed rest)
      rwa [Nat.zero_add] at hall

theorem Decl.formed (decl : Decl) : Formed counted decl.marks (decl.conditionals counted) := by
  cases decl with
  | plain words => exact (formed_phrase words).append formed_semicolon
  | record lead header components trailer =>
      rw [Decl.marks, Decl.conditionals, Nat.add_assoc]
      exact (formed_header header).append ((Stmts.formed components).bracket (.record lead)
        ((formed_phrase trailer).append formed_semicolon))
  | unitBody header decls body arms name =>
      exact ((formed_header header).append (Decls.formed decls)).append
        (formed_body name (Stmts.formed body) (Arms.formed arms))
  | packageBody header decls name =>
      exact ((formed_header header).append (Decls.formed decls)).append (formed_close name)

theorem Decls.formed (decls : Decls) : Formed counted decls.marks (decls.conditionals counted) := by
  cases decls with
  | nil => exact .nil
  | cons decl rest => exact (Decl.formed decl).append (Decls.formed rest)

end

end

end GovFuzz.AdaParser
