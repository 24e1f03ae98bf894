import GovFuzz.IdlParser.Preprocessor
import GovFuzz.Lib.Except

/-!
# IDL parser — conditional groups

The meaning of a text with nested groups, and the stack of frames that
follows it.  A line is emitted when every group around it is in its selected
branch; the frame on top says the same of the innermost group and, through
`parent_active`, of those around it.
-/

namespace GovFuzz.IdlParser

open GovFuzz.Lib

/-! ## Nested groups -/

inductive Conditional where
  | opens
  | elif
  | otherwise
  | closes
  deriving DecidableEq, Repr

/-- The name and the payload of a directive. -/
@[grind =] def directiveOf (line : List Char) : Option (String × List Char) :=
  if isDirective line then
    (splitDirective line).map fun split => (String.ofList split.1, split.2)
  else none

/-- `#elif` plays a part only where it is understood. -/
@[grind =] def conditionalNamed (elif : Bool) : String → Option Conditional
  | "if" => some .opens
  | "ifdef" => some .opens
  | "ifndef" => some .opens
  | "elif" => if elif then some .elif else none
  | "else" => some .otherwise
  | "endif" => some .closes
  | _ => none

/-- The part a line plays in a group. -/
@[grind =] def conditional (elif : Bool) (line : List Char) : Option Conditional :=
  (directiveOf line).bind fun directive => conditionalNamed elif directive.1

mutual

/-- Lines and groups, one behind the other. -/
inductive Items (elif : Bool) where
  | nil
  | line (entry : LogicalLine) (h : conditional elif entry.line = none) (rest : Items elif)
  | group (opening : LogicalLine) (h : conditional elif opening.line = some .opens)
      (body : Items elif) (tail : Tail elif) (rest : Items elif)

/-- A group behind its first branch. -/
inductive Tail (elif : Bool) where
  | closes (closing : LogicalLine) (h : conditional elif closing.line = some .closes)
  | orElse (middle : LogicalLine) (h : conditional elif middle.line = some .otherwise)
      (body : Items elif) (closing : LogicalLine)
      (h' : conditional elif closing.line = some .closes)
  | orElif (middle : LogicalLine) (h : conditional elif middle.line = some .elif)
      (body : Items elif) (tail : Tail elif)

end

mutual

@[grind =] def Items.flatten {elif : Bool} : Items elif → List LogicalLine
  | .nil => []
  | .line entry _ rest => entry :: rest.flatten
  | .group opening _ body tail rest => opening :: (body.flatten ++ (tail.flatten ++ rest.flatten))

@[grind =] def Tail.flatten {elif : Bool} : Tail elif → List LogicalLine
  | .closes closing _ => [closing]
  | .orElse middle _ body closing _ => middle :: (body.flatten ++ [closing])
  | .orElif middle _ body tail => middle :: (body.flatten ++ tail.flatten)

end

/-! ## What they mean -/

/-- An expression that is not understood does not hold. -/
@[grind =] def conditionNamed (defines : Defines) (name : String) (payload : List Char) : Bool :=
  let isDefined := ((readIdentifier (trimStart payload)).bind fun found =>
    defines found.1).isSome
  match name with
  | "ifdef" => isDefined
  | "ifndef" => !isDefined
  | _ =>
      match evalIfExpression (stripTrailingComment payload) defines with
      | .ok holds => holds
      | .error _ => false

@[grind =] def conditionHolds (defines : Defines) (line : List Char) : Bool :=
  (directiveOf line).any fun directive => conditionNamed defines directive.1 directive.2

@[grind =] def definesNamed (defines : Defines) (name : String) (payload : List Char) : Defines :=
  match name with
  | "define" => (defineMacro defines payload 0).toOption.getD defines
  | "undef" =>
      match readIdentifier (trimStart payload) with
      | some (name, _) => Function.update defines name none
      | none => defines
  | _ => defines

/-- `#define` and `#undef` take effect where they are emitted. -/
def definesAfter (emitted : Bool) (defines : Defines) (line : List Char) : Defines :=
  match emitted, directiveOf line with
  | true, some (name, payload) => definesNamed defines name payload
  | _, _ => defines

/-- Whether every group around a line is in its selected branch, and the
macros defined there. -/
abbrev Mark := Bool × Defines

mutual

/-- `enclosing` says of each group around the items whether this is its
selected branch. -/
def Items.marks {elif : Bool} (enclosing : List Bool) (defines : Defines) :
    Items elif → List Mark × Defines
  | .nil => ([], defines)
  | .line entry _ rest =>
      let emitted := enclosing.all id
      let (marks, after) := rest.marks enclosing (definesAfter emitted defines entry.line)
      ((emitted, defines) :: marks, after)
  | .group opening _ body tail rest =>
      let selected := conditionHolds defines opening.line
      let (inner, defines') := body.marks (selected :: enclosing) defines
      let (others, defines') := tail.marks enclosing selected defines'
      let (marks, after) := rest.marks enclosing defines'
      ((enclosing.all id, defines) :: (inner ++ (others ++ marks)), after)

/-- `taken`: a branch before was selected. -/
def Tail.marks {elif : Bool} (enclosing : List Bool) (taken : Bool) (defines : Defines) :
    Tail elif → List Mark × Defines
  | .closes _ _ => ([(enclosing.all id, defines)], defines)
  | .orElse _ _ body _ _ =>
      let (inner, after) := body.marks ((!taken) :: enclosing) defines
      ((enclosing.all id, defines) :: (inner ++ [(enclosing.all id, after)]), after)
  | .orElif middle _ body tail =>
      let selected := !taken && conditionHolds defines middle.line
      let (inner, defines') := body.marks (selected :: enclosing) defines
      let (others, after) := tail.marks enclosing (taken || selected) defines'
      ((enclosing.all id, defines) :: (inner ++ others), after)

end

/-- Each ordinary line leaves its content where it is emitted, and nothing
elsewhere. -/
def Agrees : List LogicalLine → List Mark → List (List Char) → Prop
  | [], [], [] => True
  | entry :: lines, (emitted, defines) :: marks, text :: texts =>
      (isDirective entry.line = false →
        text = if emitted then expandLine defines entry.line else []) ∧ Agrees lines marks texts
  | _, _, _ => False

theorem Agrees.length_eq {lines : List LogicalLine} {marks : List Mark}
    {texts : List (List Char)} (h : Agrees lines marks texts) : texts.length = lines.length := by
  fun_induction Agrees lines marks texts with
  | case1 => rfl
  | case2 entry lines emitted defines marks text texts ih =>
      rw [List.length_cons, List.length_cons, ih h.2]
  | case3 => exact h.elim

theorem Agrees.getElem? {lines : List LogicalLine} {marks : List Mark}
    {texts : List (List Char)} (h : Agrees lines marks texts) {index : Nat} {entry : LogicalLine}
    {mark : Mark} (hentry : lines[index]? = some entry) (hmark : marks[index]? = some mark)
    (hdirective : isDirective entry.line = false) :
    texts[index]? = some (if mark.1 then expandLine mark.2 entry.line else []) := by
  fun_induction Agrees lines marks texts generalizing index with
  | case1 => cases hentry
  | case2 first lines emitted defines marks text texts ih =>
      cases index with
      | zero =>
          cases hentry
          cases hmark
          exact congrArg some (h.1 hdirective)
      | succ index => exact ih h.2 hentry hmark
  | case3 => exact h.elim

theorem Agrees.append {lines lines' : List LogicalLine} {marks marks' : List Mark}
    {texts texts' : List (List Char)} (h : Agrees lines marks texts)
    (h' : Agrees lines' marks' texts') :
    Agrees (lines ++ lines') (marks ++ marks') (texts ++ texts') := by
  fun_induction Agrees lines marks texts with
  | case1 => exact h'
  | case2 entry lines emitted defines marks text texts ih => exact ⟨h.1, ih h.2⟩
  | case3 => exact h.elim

/-! ## What a directive does to the frames -/

/-- A directive opens a group, goes to its other branch, closes it, or leaves
the frames alone. -/
inductive Stepped (p : Preprocessor) (line : List Char) (p' : Preprocessor) :
    Option Conditional → Prop where
  | opens (condition : Bool) (hp' : p' = p.pushFrame condition)
      (hcondition : p.isActive = true → condition = conditionHolds p.defines line) :
      Stepped p line p' (some .opens)
  | otherwise (frame : ConditionalFrame) (frames : List ConditionalFrame)
      (hp : p.frames = frame :: frames)
      (hp' : p' = { p with frames :=
        { frame with seenElse := true, conditionActive := !frame.conditionActive } :: frames }) :
      Stepped p line p' (some .otherwise)
  | closes (hp' : p' = { p with frames := p.frames.tail }) : Stepped p line p' (some .closes)
  | plain (hp' : p' = { p with defines := definesAfter p.isActive p.defines line }) :
      Stepped p line p' none

section Directive

variable {p p' : Preprocessor} {line payload : List Char} {lineNo depth : Nat}
  {text : Option (List Char)}

theorem parseDirectiveIdentifier_ok {name : List Char}
    (h : parseDirectiveIdentifier payload lineNo = .ok name) :
    ∃ rest, readIdentifier (trimStart payload) = some (name, rest) := by
  unfold parseDirectiveIdentifier at h
  cases hread : readIdentifier (trimStart payload) with
  | none => rw [hread] at h; cases h
  | some found =>
      rw [hread] at h
      dsimp only at h
      split at h
      case isTrue => cases h
      case isFalse =>
          cases h
          exact ⟨found.2, rfl⟩

/-- The line of an error does not decide whether there is one. -/
theorem defineMacro_lineNo (defines : Defines) (payload : List Char) (lineNo : Nat) :
    (defineMacro defines payload lineNo).toOption = (defineMacro defines payload 0).toOption := by
  unfold defineMacro
  cases readIdentifier (trimStart payload) with
  | none => rfl
  | some found =>
      dsimp only
      split <;> rfl

theorem definesAfter_inactive {defines : Defines} : definesAfter false defines line = defines :=
  rfl

/-- A directive that has no part in a group and defines nothing. -/
theorem Stepped.unchanged {name : String} (hname : directiveOf line = some (name, payload))
    (hdefine : name ≠ "define") (hundef : name ≠ "undef") : Stepped p line p none := by
  refine .plain ?_
  cases hactive : p.isActive with
  | false => rfl
  | true => simp [definesAfter, hname, definesNamed]

theorem stepped_define (hname : directiveOf line = some ("define", payload))
    (h : defineDirective p payload lineNo = .ok (text, p')) : Stepped p line p' none := by
  refine .plain ?_
  unfold defineDirective at h
  cases hactive : p.isActive with
  | false =>
      simp only [hactive, Bool.false_eq_true, if_false, Except.ok.injEq, Prod.mk.injEq] at h
      rw [← h.2, definesAfter_inactive]
  | true =>
      have hlineNo := defineMacro_lineNo p.defines payload lineNo
      simp only [hactive, if_true] at h
      simp only [definesAfter, hname, definesNamed, ← hlineNo]
      cases hdefine : defineMacro p.defines payload lineNo with
      | ok defines =>
          simp only [hdefine, Except.ok.injEq, Prod.mk.injEq] at h
          exact h.2.symm
      | error error =>
          simp only [hdefine] at h
          split at h
          case isTrue =>
              cases h
              rfl
          case isFalse => cases h

theorem stepped_undef (hname : directiveOf line = some ("undef", payload))
    (h : (do
      if p.isActive then
        let name ← parseDirectiveIdentifier payload lineNo
        return (none, { p with defines := Function.update p.defines name none })
      return (none, p) : Except IdlParseError (Option (List Char) × Preprocessor))
        = .ok (text, p')) : Stepped p line p' none := by
  refine .plain ?_
  cases hactive : p.isActive with
  | false =>
      simp only [hactive] at h
      cases h
      rfl
  | true =>
      simp only [hactive, if_true] at h
      obtain ⟨name, hparse, hreturn⟩ := bind_eq_ok.mp h
      obtain ⟨rest, hread⟩ := parseDirectiveIdentifier_ok hparse
      cases hreturn
      simp only [definesAfter, hname, definesNamed, hread]

/-- An `if` opens a conditional. -/
theorem stepped_if (hname : directiveOf line = some ("if", payload))
    (h : ifDirective p payload lineNo = .ok (text, p')) : Stepped p line p' (some .opens) := by
  unfold ifDirective at h
  have hholds : conditionHolds p.defines line = conditionNamed p.defines "if" payload := by
    rw [conditionHolds, hname]
    rfl
  cases hactive : p.isActive with
  | false =>
      simp only [hactive] at h
      cases h
      exact .opens false rfl fun htrue => by simp [hactive] at htrue
  | true =>
      simp only [hactive, if_true] at h
      cases heval : evalIfExpression (stripTrailingComment payload) p.defines with
      | ok active =>
          simp only [heval] at h
          cases h
          exact .opens active rfl fun _ => by simp [hholds, conditionNamed, heval]
      | error error =>
          simp only [heval] at h
          split at h
          case isTrue =>
              cases h
              exact .opens false rfl fun _ => by simp [hholds, conditionNamed, heval]
          case isFalse => cases h

theorem stepped_else (h : elseDirective p payload lineNo depth = .ok (text, p')) :
    Stepped p line p' (some .otherwise) := by
  unfold elseDirective at h
  obtain ⟨_, -, h⟩ := bind_eq_ok.mp h
  cases hframes : p.frames with
  | nil => simp only [hframes] at h; cases h
  | cons frame frames =>
      simp only [hframes] at h
      split at h
      case isTrue => cases h
      case isFalse =>
          cases h
          exact .otherwise frame frames hframes rfl

theorem stepped_include (hname : directiveOf line = some ("include", payload))
    (h : includeDirective p line lineNo = .ok (text, p')) : Stepped p line p' none := by
  have hp' : p = p' := by
    unfold includeDirective at h
    split at h
    · cases h; rfl
    · split at h
      · cases h
      · cases h; rfl
  exact hp' ▸ Stepped.unchanged hname (by decide) (by decide)

/-- What a directive that is accepted does. -/
theorem stepped (hdirective : isDirective line = true)
    (h : processDirective p line lineNo depth = .ok (text, p')) :
    Stepped p line p' (conditional false line) := by
  unfold processDirective at h
  cases hsplit : splitDirective line with
  | none => rw [hsplit] at h; cases h
  | some split =>
      obtain ⟨directive, payload⟩ := split
      have hname : directiveOf line = some (String.ofList directive, payload) := by
        rw [directiveOf, if_pos hdirective, hsplit]
        rfl
      have hcond : conditional false line = conditionalNamed false (String.ofList directive) := by
        rw [conditional, hname]
        rfl
      have hholds : conditionHolds p.defines line
          = conditionNamed p.defines (String.ofList directive) payload := by
        rw [conditionHolds, hname]
        rfl
      rw [hsplit] at h
      rw [hcond]
      simp only at h
      split at h
      case h_1 heq => rw [heq] at hname ⊢; exact stepped_define hname h
      case h_2 heq => rw [heq] at hname ⊢; exact stepped_undef hname h
      case h_3 heq =>
          obtain ⟨name, hparse, hreturn⟩ := bind_eq_ok.mp h
          obtain ⟨rest, hread⟩ := parseDirectiveIdentifier_ok hparse
          cases hreturn
          rw [heq] at hholds ⊢
          exact .opens _ rfl fun _ => by simp [hholds, conditionNamed, hread]
      case h_4 heq =>
          obtain ⟨name, hparse, hreturn⟩ := bind_eq_ok.mp h
          obtain ⟨rest, hread⟩ := parseDirectiveIdentifier_ok hparse
          cases hreturn
          rw [heq] at hholds ⊢
          exact .opens _ rfl fun _ => by simp [hholds, conditionNamed, hread]
      case h_5 heq => rw [heq] at hname ⊢; exact stepped_if hname h
      case h_6 heq => rw [heq]; exact stepped_else h
      case h_7 heq =>
          obtain ⟨_, -, hreturn⟩ := bind_eq_ok.mp h
          cases hreturn
          rw [heq]
          exact .closes rfl
      case h_8 heq => rw [heq] at hname ⊢; exact stepped_include hname h
      case h_9 heq =>
          cases h
          rw [heq] at hname ⊢
          exact Stepped.unchanged hname (by decide) (by decide)
      case h_10 name hdefine hundef hifdef hifndef hif helse hendif hinclude hpragma =>
          have hnone : conditionalNamed false (String.ofList directive) = none := by
            unfold conditionalNamed
            split
            all_goals first | rfl | contradiction
          have hp' : p = p' := by
            split at h
            · cases h; rfl
            · cases h
          rw [hnone]
          exact hp' ▸ Stepped.unchanged hname hdefine hundef

end Directive

/-! ## The run over the lines -/

section Run

variable {depth : Nat} {p p' : Preprocessor} {entry : LogicalLine} {text : List Char}
  {texts : List (List Char)}

theorem defines_track (p : Preprocessor) (lineNo : Nat) : (p.track lineNo).defines = p.defines := by
  unfold Preprocessor.track
  split <;> rfl

theorem frames_track (p : Preprocessor) (lineNo : Nat) : (p.track lineNo).frames = p.frames := by
  unfold Preprocessor.track
  split <;> rfl

theorem isActive_track (p : Preprocessor) (lineNo : Nat) :
    (p.track lineNo).isActive = p.isActive := by
  simp only [Preprocessor.isActive, frames_track]

theorem processLine_directive (hdirective : isDirective entry.line = true)
    (h : processLine depth p entry = .ok (text, p')) :
    ∃ expansion, processDirective (p.track entry.lineNo) entry.line entry.lineNo depth
        = .ok (expansion, p') ∧ text = expansion.getD [] := by
  unfold processLine at h
  simp only [hdirective, if_true] at h
  obtain ⟨⟨expansion, q⟩, hq, hreturn⟩ := bind_eq_ok.mp h
  cases hreturn
  exact ⟨expansion, hq, rfl⟩

theorem processLine_stepped (hdirective : isDirective entry.line = true)
    (h : processLine depth p entry = .ok (text, p')) :
    Stepped (p.track entry.lineNo) entry.line p' (conditional false entry.line) := by
  obtain ⟨expansion, hq, -⟩ := processLine_directive hdirective h
  exact stepped hdirective hq

theorem processLine_ordinary (hdirective : isDirective entry.line = false)
    (h : processLine depth p entry = .ok (text, p')) :
    text = (if p.isActive then expandLine p.defines entry.line else [])
      ∧ p' = p.track entry.lineNo := by
  unfold processLine at h
  simp only [hdirective, Bool.false_eq_true, if_false, isActive_track, defines_track] at h
  split at h
  case isTrue hyes => cases h; exact ⟨by rw [if_pos hyes], rfl⟩
  case isFalse hno => cases h; exact ⟨by rw [if_neg hno], rfl⟩

theorem processLines_cons_ok {rest : List LogicalLine}
    (h : processLines depth (entry :: rest) p = .ok (texts, p')) :
    ∃ text q texts', processLine depth p entry = .ok (text, q)
      ∧ processLines depth rest q = .ok (texts', p') ∧ texts = text :: texts' := by
  rw [processLines] at h
  obtain ⟨⟨text, q⟩, hline, h⟩ := bind_eq_ok.mp h
  obtain ⟨⟨texts', q'⟩, hrest, hreturn⟩ := bind_eq_ok.mp h
  cases hreturn
  exact ⟨text, q, texts', hline, hrest, rfl⟩

theorem processLines_append_ok {lines rest : List LogicalLine}
    (h : processLines depth (lines ++ rest) p = .ok (texts, p')) :
    ∃ before q after, processLines depth lines p = .ok (before, q)
      ∧ processLines depth rest q = .ok (after, p') ∧ texts = before ++ after := by
  induction lines generalizing p texts with
  | nil => exact ⟨[], p, texts, rfl, h, rfl⟩
  | cons entry lines ih =>
      obtain ⟨text, q, texts', hline, hrest, rfl⟩ := processLines_cons_ok h
      obtain ⟨before, q', after, hbefore, hafter, rfl⟩ := ih hrest
      refine ⟨text :: before, q', after, ?_, hafter, rfl⟩
      rw [processLines, hline]
      simp only [bind, Except.bind, hbefore]
      rfl

theorem processLines_singleton_ok (h : processLines depth [entry] p = .ok (texts, p')) :
    ∃ text, processLine depth p entry = .ok (text, p') ∧ texts = [text] := by
  obtain ⟨text, q, texts', hline, hrest, rfl⟩ := processLines_cons_ok h
  cases hrest
  exact ⟨text, hline, rfl⟩

theorem isDirective_of_conditional {elif : Bool} {line : List Char} {role : Conditional}
    (h : conditional elif line = some role) : isDirective line = true := by
  by_contra hno
  rw [conditional, directiveOf, if_neg hno] at h
  cases h

theorem conditional_ne_elif (line : List Char) : conditional false line ≠ some .elif := by
  intro h
  obtain ⟨directive, -, hnamed⟩ := Option.bind_eq_some_iff.mp h
  unfold conditionalNamed at hnamed
  split at hnamed
  all_goals cases hnamed

/-- The text of a directive is no concern of the meaning. -/
theorem Agrees.cons_directive (hdirective : isDirective entry.line = true) {mark : Mark}
    {lines : List LogicalLine} {marks : List Mark} (h : Agrees lines marks texts)
    (text : List Char) : Agrees (entry :: lines) (mark :: marks) (text :: texts) :=
  ⟨fun hno => by simp [hdirective] at hno, h⟩

/-- What a plain line leaves, and what it does to the macros. -/
theorem processLine_plain (hplain : conditional false entry.line = none)
    (h : processLine depth p entry = .ok (text, p')) :
    (isDirective entry.line = false →
        text = if p.isActive then expandLine p.defines entry.line else [])
      ∧ p'.defines = definesAfter p.isActive p.defines entry.line ∧ p'.frames = p.frames := by
  cases hdirective : isDirective entry.line with
  | false =>
      obtain ⟨htext, rfl⟩ := processLine_ordinary hdirective h
      refine ⟨fun _ => htext, ?_, frames_track p _⟩
      have hnone : directiveOf entry.line = none := by
        rw [directiveOf, hdirective]
        rfl
      rw [defines_track]
      unfold definesAfter
      rw [hnone]
      cases p.isActive <;> rfl
  | true =>
      have hstep := processLine_stepped hdirective h
      rw [hplain] at hstep
      cases hstep with
      | plain hp' =>
          refine ⟨nofun, ?_, ?_⟩
          · rw [hp', isActive_track, defines_track]
          · rw [hp', frames_track]

/-- An opening line pushes a frame that stands for its group. -/
theorem processLine_opens (hopens : conditional false entry.line = some .opens)
    (h : processLine depth p entry = .ok (text, p')) :
    ∃ condition, (p.isActive = true → condition = conditionHolds p.defines entry.line)
      ∧ p'.defines = p.defines ∧ p'.frames = ⟨p.isActive, condition, false⟩ :: p.frames := by
  have hstep := processLine_stepped (isDirective_of_conditional hopens) h
  rw [hopens] at hstep
  cases hstep with
  | opens condition hp' hcondition =>
      rw [isActive_track, defines_track] at hcondition
      refine ⟨condition, hcondition, ?_, ?_⟩
      · rw [hp']
        exact defines_track p _
      · rw [hp', Preprocessor.pushFrame, isActive_track, frames_track]

theorem processLine_otherwise (hotherwise : conditional false entry.line = some .otherwise)
    {frame : ConditionalFrame} {frames : List ConditionalFrame}
    (hframes : p.frames = frame :: frames)
    (h : processLine depth p entry = .ok (text, p')) :
    p'.defines = p.defines
      ∧ p'.frames = ⟨frame.parentActive, !frame.conditionActive, true⟩ :: frames := by
  have hstep := processLine_stepped (isDirective_of_conditional hotherwise) h
  rw [hotherwise] at hstep
  cases hstep with
  | otherwise frame' frames' hp hp' =>
      rw [frames_track, hframes] at hp
      cases hp
      rw [hp']
      exact ⟨defines_track p _, rfl⟩

theorem processLine_closes (hcloses : conditional false entry.line = some .closes)
    {frame : ConditionalFrame} {frames : List ConditionalFrame}
    (hframes : p.frames = frame :: frames)
    (h : processLine depth p entry = .ok (text, p')) :
    p'.defines = p.defines ∧ p'.frames = frames := by
  have hstep := processLine_stepped (isDirective_of_conditional hcloses) h
  rw [hcloses] at hstep
  cases hstep with
  | closes hp' =>
      rw [hp', frames_track, hframes]
      exact ⟨defines_track p _, rfl⟩

end Run

/-! ## The frames follow the groups -/

theorem isActive_cons {p : Preprocessor} {frame : ConditionalFrame}
    {frames : List ConditionalFrame} (h : p.frames = frame :: frames) :
    p.isActive = (frame.parentActive && frame.conditionActive) := by
  rw [Preprocessor.isActive, h]

/-- In a region that is not emitted it does not matter which branch a frame
takes for the selected one. -/
theorem and_selected {active condition selected : Bool}
    (h : active = true → condition = selected) : (active && condition) = (selected && active) := by
  cases active with
  | false => simp
  | true => rw [h rfl, Bool.and_comm]

mutual

/-- With a top frame that is active exactly where the items are emitted, each
ordinary line leaves what it means, and the frames are as before. -/
theorem Items.run {depth : Nat} {enclosing : List Bool} {texts : List (List Char)}
    {p p' : Preprocessor} (hactive : p.isActive = enclosing.all id) :
    (items : Items false) → processLines depth items.flatten p = .ok (texts, p') →
      Agrees items.flatten (items.marks enclosing p.defines).1 texts
        ∧ p'.defines = (items.marks enclosing p.defines).2 ∧ p'.frames = p.frames
  | .nil, h => by
      rw [Items.flatten, processLines] at h
      cases h
      exact ⟨trivial, rfl, rfl⟩
  | .line entry hplain rest, h => by
      rw [Items.flatten] at h
      obtain ⟨text, q, texts', hline, hrest, rfl⟩ := processLines_cons_ok h
      obtain ⟨htext, hdefines, hframes⟩ := processLine_plain hplain hline
      have hq : q.isActive = enclosing.all id := by
        rw [← hactive]
        simp only [Preprocessor.isActive, hframes]
      obtain ⟨hagrees, hafter, hsame⟩ := Items.run hq rest hrest
      rw [hdefines, hactive] at hagrees hafter
      rw [hactive] at htext
      exact ⟨⟨htext, hagrees⟩, hafter, hsame.trans hframes⟩
  | .group opening hopens body tail rest, h => by
      rw [Items.flatten] at h
      obtain ⟨text, q, texts', hline, hinner, rfl⟩ := processLines_cons_ok h
      obtain ⟨bodyTexts, q', moreTexts, hbody, hmore, rfl⟩ := processLines_append_ok hinner
      obtain ⟨tailTexts, q'', restTexts, htail, hrest, rfl⟩ := processLines_append_ok hmore
      obtain ⟨condition, hcondition, hdefines, hframes⟩ := processLine_opens hopens hline
      have hselected := and_selected hcondition
      have hq : q.isActive
          = (conditionHolds p.defines opening.line :: enclosing).all id := by
        rw [isActive_cons hframes, List.all_cons, ← hactive]
        exact hselected
      obtain ⟨hbodyAgrees, hbodyDefines, hbodyFrames⟩ := Items.run hq body hbody
      rw [hdefines] at hbodyAgrees hbodyDefines
      obtain ⟨htailAgrees, htailDefines, htailFrames⟩ :=
        Tail.run (hbodyFrames.trans hframes) hactive hcondition tail htail
      rw [hbodyDefines] at htailAgrees htailDefines
      have hq'' : q''.isActive = enclosing.all id := by
        rw [← hactive]
        simp only [Preprocessor.isActive, htailFrames]
      obtain ⟨hrestAgrees, hrestDefines, hrestFrames⟩ := Items.run hq'' rest hrest
      rw [htailDefines] at hrestAgrees hrestDefines
      refine ⟨?_, hrestDefines, hrestFrames.trans htailFrames⟩
      exact (hbodyAgrees.append (htailAgrees.append hrestAgrees)).cons_directive
        (isDirective_of_conditional hopens) text

/-- The same behind the first branch of a group, with its frame on top. -/
theorem Tail.run {depth : Nat} {enclosing : List Bool} {taken : Bool} {texts : List (List Char)}
    {p p' : Preprocessor} {frame : ConditionalFrame} {frames : List ConditionalFrame}
    (hframes : p.frames = frame :: frames) (hparent : frame.parentActive = enclosing.all id)
    (htaken : frame.parentActive = true → frame.conditionActive = taken) :
    (tail : Tail false) → processLines depth tail.flatten p = .ok (texts, p') →
      Agrees tail.flatten (tail.marks enclosing taken p.defines).1 texts
        ∧ p'.defines = (tail.marks enclosing taken p.defines).2 ∧ p'.frames = frames
  | .closes closing hcloses, h => by
      rw [Tail.flatten] at h
      obtain ⟨text, hline, rfl⟩ := processLines_singleton_ok h
      obtain ⟨hdefines, hpopped⟩ := processLine_closes hcloses hframes hline
      have hnil : Agrees [] [] [] := trivial
      exact ⟨hnil.cons_directive (isDirective_of_conditional hcloses) text, hdefines, hpopped⟩
  | .orElse middle hotherwise body closing hcloses, h => by
      rw [Tail.flatten] at h
      obtain ⟨text, q, texts', hline, hinner, rfl⟩ := processLines_cons_ok h
      obtain ⟨bodyTexts, q', closingTexts, hbody, hclosing, rfl⟩ := processLines_append_ok hinner
      obtain ⟨closingText, hclosingLine, rfl⟩ := processLines_singleton_ok hclosing
      obtain ⟨hdefines, hflipped⟩ := processLine_otherwise hotherwise hframes hline
      -- the branch behind the else is active exactly if the first was not taken
      have hq : q.isActive = ((!taken) :: enclosing).all id := by
        rw [isActive_cons hflipped, List.all_cons, ← hparent]
        have hflip : frame.parentActive = true → (!frame.conditionActive) = !taken := by
          intro hactive
          rw [htaken hactive]
        exact and_selected hflip
      obtain ⟨hbodyAgrees, hbodyDefines, hbodyFrames⟩ := Items.run hq body hbody
      rw [hdefines] at hbodyAgrees hbodyDefines
      obtain ⟨hclosed, hpopped⟩ :=
        processLine_closes hcloses (hbodyFrames.trans hflipped) hclosingLine
      refine ⟨?_, hclosed.trans hbodyDefines, hpopped⟩
      have hnil : Agrees [] [] [] := trivial
      have hclosingAgrees : Agrees [closing] [(enclosing.all id, q'.defines)] [closingText] :=
        hnil.cons_directive (isDirective_of_conditional hcloses) closingText
      rw [hbodyDefines] at hclosingAgrees
      exact (hbodyAgrees.append hclosingAgrees).cons_directive
        (isDirective_of_conditional hotherwise) text
  | .orElif middle helif body tail, h => absurd helif (conditional_ne_elif middle.line)

end

theorem processSource_ok {start p : Preprocessor} {source output : List Char}
    (h : processSource start source = .ok (output, p)) :
    ∃ texts, processLines start.frames.length (logicalLines source) start = .ok (texts, p)
      ∧ output = joinLines (logicalLines source) texts := by
  unfold processSource at h
  obtain ⟨⟨texts, q⟩, hrun, h⟩ := bind_eq_ok.mp h
  simp only at h
  split at h
  case isTrue => cases h
  case isFalse =>
      cases h
      exact ⟨texts, hrun, rfl⟩

/-- In a text of nested groups each ordinary line leaves its content exactly
where every group around it is in its selected branch. -/
theorem processSource_agrees (source : List Char) (defines : List (List Char × List Char))
    (items : Items false) (hlines : items.flatten = logicalLines source) {output : List Char}
    {p : Preprocessor}
    (h : processSource (discoveryPreprocessor defines) source = .ok (output, p)) :
    ∃ texts, output = joinLines (logicalLines source) texts
      ∧ Agrees (logicalLines source) (items.marks [] (collectDefines defines)).1 texts := by
  obtain ⟨texts, hrun, houtput⟩ := processSource_ok h
  rw [← hlines] at hrun
  have hactive : (discoveryPreprocessor defines).isActive = ([] : List Bool).all id := rfl
  obtain ⟨hagrees, -, -⟩ := Items.run hactive items hrun
  rw [hlines] at hagrees
  exact ⟨texts, houtput, hagrees⟩

def guardedSource : List Char := "#ifdef A\nx\n#endif\n".toList

def guardedItems : Items false :=
  .group ⟨1, "#ifdef A".toList, true⟩ (by decide)
    (.line ⟨2, "x".toList, true⟩ (by decide) .nil)
    (.closes ⟨3, "#endif".toList, true⟩ (by decide)) .nil

theorem processSource_agrees_guarded :
    ∃ p, processSource (discoveryPreprocessor [(['A'], [])]) guardedSource
        = .ok ("\nx\n\n".toList, p)
      ∧ ∃ texts, "\nx\n\n".toList = joinLines (logicalLines guardedSource) texts
        ∧ Agrees (logicalLines guardedSource)
          (guardedItems.marks [] (collectDefines [(['A'], [])])).1 texts := by
  have hok : (processSource (discoveryPreprocessor [(['A'], [])]) guardedSource).toOption.map
      Prod.fst = some "\nx\n\n".toList := by decide +kernel
  cases h : processSource (discoveryPreprocessor [(['A'], [])]) guardedSource with
  | error error => rw [h] at hok; cases hok
  | ok result =>
      obtain ⟨output, p⟩ := result
      rw [h] at hok
      obtain rfl : output = "\nx\n\n".toList := Option.some.inj hok
      exact ⟨p, rfl, processSource_agrees _ _ guardedItems (by decide) h⟩

/-- A group with a second condition. -/
def elifSource : List Char := "#if 0\na\n#elif 1\nZ\n#endif\n".toList

def elifItems : Items true :=
  .group ⟨1, "#if 0".toList, true⟩ (by decide)
    (.line ⟨2, "a".toList, true⟩ (by decide) .nil)
    (.orElif ⟨3, "#elif 1".toList, true⟩ (by decide)
      (.line ⟨4, "Z".toList, true⟩ (by decide) .nil)
      (.closes ⟨5, "#endif".toList, true⟩ (by decide))) .nil

theorem mem_joinLines {ch : Char} {text : List Char} {lines : List LogicalLine}
    {texts : List (List Char)} {index : Nat} (hlen : texts.length ≤ lines.length)
    (h : texts[index]? = some text) (hch : ch ∈ text) : ch ∈ joinLines lines texts := by
  induction texts generalizing lines index with
  | nil => cases h
  | cons first texts ih =>
      cases lines with
      | nil => simp at hlen
      | cons entry lines =>
          simp only [List.length_cons, Nat.add_le_add_iff_right] at hlen
          rw [joinLines, List.mem_append, List.mem_append]
          cases index with
          | zero =>
              obtain rfl : first = text := Option.some.inj h
              exact .inl (.inl hch)
          | succ index => exact .inr (ih hlen h)

/-- The branch behind `#elif` is not emitted where its condition holds. -/
theorem not_processSource_agrees_elif :
    ¬ ∀ (source : List Char) (defines : List (List Char × List Char)) (items : Items true)
        (output : List Char) (p : Preprocessor), items.flatten = logicalLines source →
        processSource (discoveryPreprocessor defines) source = .ok (output, p) →
        ∃ texts, output = joinLines (logicalLines source) texts
          ∧ Agrees (logicalLines source) (items.marks [] (collectDefines defines)).1 texts := by
  intro hclaim
  have hlines : elifItems.flatten = logicalLines elifSource := by decide
  have hok : (processSource (discoveryPreprocessor []) elifSource).toOption.map
      (fun result => decide ('Z' ∈ result.1)) = some false := by decide +kernel
  cases h : processSource (discoveryPreprocessor []) elifSource with
  | error error => rw [h] at hok; cases hok
  | ok result =>
      obtain ⟨texts, houtput, hagrees⟩ := hclaim elifSource [] elifItems _ _ hlines h
      rw [h] at hok
      refine absurd ?_ (of_decide_eq_false (Option.some.inj hok))
      rw [← hlines] at houtput hagrees
      have hmark : ((elifItems.marks [] (collectDefines [])).1[3]?).map
          (fun mark => (mark.1, expandLine mark.2 ['Z'])) = some (true, ['Z']) := by
        decide +kernel
      obtain ⟨mark, hget, hexpanded⟩ := Option.map_eq_some_iff.mp hmark
      obtain ⟨hemitted, hexpanded⟩ := Prod.mk.inj hexpanded
      have hentry : elifItems.flatten[3]? = some ⟨4, ['Z'], true⟩ := by decide
      have htext := hagrees.getElem? hentry hget (by decide)
      rw [if_pos hemitted, hexpanded] at htext
      rw [houtput]
      exact mem_joinLines (Nat.le_of_eq hagrees.length_eq) htext (by decide)

end GovFuzz.IdlParser
