import GovFuzz.AdaParser.StatementMarks

/-!
# Ada parser — what the statement scanner does on a tree

Without conditional expressions, every bracket is opened and closed in
place; what can go wrong are the frames of blocks.  In the declarative part
of a declare block the first nested body takes the frame of the block for its
own.  A later `begin` pushes a new one, so the count comes out right, unless
a package body without `begin` closes a frame that is not its own: a stray
`end`.
-/

namespace GovFuzz.AdaParser

/-! ## Measures of a tree -/

/-- Brackets that conditional expressions open. -/
@[grind =] def ifCase : Bracket → Bool
  | .if | .case => true
  | _ => false

@[grind =] def Decl.isBody : Decl → Bool
  | .plain _ => false
  | .record .. => false
  | .unitBody .. => true
  | .packageBody .. => true

/-- No nested bodies in this declarative part. -/
@[grind =] def Decls.bodiless : Decls → Bool
  | .nil => true
  | .cons decl rest => !decl.isBody && rest.bodiless

mutual

/-- Number of stray `end`s that a statement leaves to the blocks around it.
A compound statement keeps its own to itself. -/
@[grind =] def Stmt.strays : Stmt → Nat
  | .simple _ => 0
  | .compound .. => 0
  | .block _ body arms _ => body.strays + arms.strays
  | .declareBlock _ decls body arms _ => decls.strays true + (body.strays + arms.strays)

@[grind =] def Stmts.strays : Stmts → Nat
  | .nil => 0
  | .cons stmt rest => stmt.strays + rest.strays

@[grind =] def Arms.strays : Arms → Nat
  | .nil => 0
  | .cons _ body rest => body.strays + rest.strays

/-- `fresh`: the frame of the declare block is still there. -/
@[grind =] def Decl.strays : Decl → Bool → Nat
  | .plain _, _ => 0
  | .record .., _ => 0
  | .unitBody _ decls body arms _, fresh => decls.strays fresh + (body.strays + arms.strays)
  | .packageBody _ decls _, fresh =>
      decls.strays fresh + if fresh && decls.bodiless then 0 else 1

@[grind =] def Decls.strays : Decls → Bool → Nat
  | .nil, _ => 0
  | .cons decl rest, fresh => decl.strays fresh + rest.strays (fresh && !decl.isBody)

end

/-! ## Frames -/

/-- `k` block frames on top of `bar`, and a declare frame on top of these
while it is `fresh`. -/
@[grind =] def frames (bar : List ConstructKind) (k : Nat) (fresh : Bool) : List ConstructKind :=
  (if fresh then [.declare] else []) ++ List.replicate k .block ++ bar

/-- `bar` does not end in a frame that a block could take. -/
@[grind =] def Barrier (bar : List ConstructKind) : Prop :=
  bar.head? ≠ some .declare ∧ bar.head? ≠ some .block

/-- A semicolon with this stack. -/
@[grind =] def settle (stack : List ConstructKind) : Option (List ConstructKind) :=
  if stack = [] then none else some stack

theorem settle_of_ne {stack : List ConstructKind} (h : stack ≠ []) :
    settle stack = some stack := if_neg h

theorem frames_eq_nil {bar : List ConstructKind} {k : Nat} {fresh : Bool} :
    frames bar k fresh = [] ↔ bar = [] ∧ k = 0 ∧ fresh = false := by
  cases fresh <;> simp [frames, and_comm]

theorem frames_succ (bar : List ConstructKind) (k : Nat) :
    frames bar (k + 1) false = .block :: frames bar k false := by
  simp [frames, List.replicate_succ]

theorem frames_fresh (bar : List ConstructKind) (k : Nat) :
    frames bar k true = .declare :: frames bar k false := by
  simp [frames]

theorem frames_zero (bar : List ConstructKind) : frames bar 0 false = bar := by
  simp [frames]

/-- When a first part has used up all frames, so has the whole. -/
theorem settle_bind {bar : List ConstructKind} {k n : Nat} (fresh keeps : Bool)
    {next : List ConstructKind → Option (List ConstructKind)}
    (h : frames bar k fresh ≠ [] →
      next (frames bar k fresh) = settle (frames bar (k - n) (fresh && keeps))) :
    (settle (frames bar k fresh)).bind next = settle (frames bar (k - n) (fresh && keeps)) := by
  by_cases hnil : frames bar k fresh = []
  · obtain ⟨rfl, rfl, rfl⟩ := frames_eq_nil.mp hnil
    simp [settle, frames]
  · rw [settle_of_ne hnil, Option.bind_some, h hnil]

theorem begin_frames {bar : List ConstructKind} (hbar : Barrier bar) (k : Nat) (fresh : Bool) :
    Mark.begin.apply (frames bar k fresh) = some (frames bar (k + 1) false) := by
  rw [frames_succ]
  cases fresh with
  | true => rw [frames_fresh]; rfl
  | false =>
      cases k with
      | succ k => rw [frames_succ]; rfl
      | zero =>
          rw [frames_zero]
          rcases bar with _ | ⟨top, bar⟩
          · rfl
          · cases top <;> first | rfl | exact absurd rfl hbar.1

theorem closeBlock_frames {bar : List ConstructKind} (hbar : Barrier bar) (name : List String)
    {k : Nat} (hne : frames bar k false ≠ []) :
    (Mark.closeBlock name).apply (frames bar k false) = some (frames bar (k - 1) false) := by
  cases k with
  | succ k => rw [frames_succ]; rfl
  | zero =>
      rw [frames_zero] at hne
      rw [frames_zero]
      rcases bar with _ | ⟨top, bar⟩
      · exact absurd rfl hne
      · cases top <;> first
          | rfl
          | exact absurd rfl hbar.1
          | exact absurd rfl hbar.2

theorem closeBlock_fresh (bar : List ConstructKind) (name : List String) (k : Nat) :
    (Mark.closeBlock name).apply (frames bar k true) = some (frames bar k false) := by
  rw [frames_fresh]
  rfl

/-! ## Phrases -/

theorem runMarks_phrase {words : Phrase} (h : words.conditionals ifCase = 0)
    (stack : List ConstructKind) : runMarks words.marks stack = some stack := by
  induction words with
  | nil => rfl
  | cons word words ih =>
      have hword : word.isConditional ifCase = false := by
        cases hword : word.isConditional ifCase with
        | false => rfl
        | true => simp [Phrase.conditionals, hword] at h
      have hwords : Phrase.conditionals ifCase words = 0 := by
        simpa [Phrase.conditionals, hword] using h
      have happly : word.mark.apply stack = some stack := by
        cases word <;> first | rfl | cases hword
      rw [Phrase.marks, List.map_cons, runMarks, happly]
      exact ih hwords

theorem runMarks_header {header : List Phrase}
    (h : (header.map (Phrase.conditionals ifCase)).sum = 0) {stack : List ConstructKind}
    (hne : stack ≠ []) :
    runMarks (headerMarks header) stack = some stack := by
  induction header with
  | nil => rfl
  | cons words header ih =>
      rw [List.map_cons, List.sum_cons, Nat.add_eq_zero_iff] at h
      cases header with
      | nil => exact runMarks_phrase h.1 stack
      | cons words' header =>
          rw [headerMarks, runMarks_append, runMarks_phrase h.1, Option.bind_some, runMarks]
          simp only [Mark.apply, hne, if_false, Option.bind_some]
          exact ih h.2
          · simp

/-! ## Trees -/

/-- With something on the stack the keyword `exception` does nothing. -/
theorem runMarks_part (arms : Arms) {stack : List ConstructKind} (hne : stack ≠ []) :
    runMarks arms.part stack = runMarks arms.marks stack := by
  cases arms with
  | nil => rfl
  | cons lead body rest =>
      rw [Arms.part, runMarks, Mark.apply, if_neg hne, Option.bind_some, Arms.marks]

theorem semicolon_frames (stack : List ConstructKind) :
    (some stack).bind (runMarks [.semicolon]) = settle stack := by
  simp only [Option.bind_some, runMarks, Mark.apply, settle]
  split <;> rfl

theorem bracket_append {α : Type} (o c s : α) (a b : List α) :
    (o :: (a ++ c :: b)) ++ [s] = o :: (a ++ c :: (b ++ [s])) := by
  simp

/-- A bracket with its sections does nothing to the stack below it. -/
theorem runMarks_bracket (bracket : Bracket) {sections : List Mark} {trailer : Phrase}
    (hsections : ∀ bar, Barrier bar → bar ≠ [] → runMarks sections bar = some bar)
    (htrailer : trailer.conditionals ifCase = 0) (stack : List ConstructKind) :
    runMarks (.open bracket :: (sections ++ .close bracket :: trailer.marks)) stack
      = some stack := by
  have hbar : Barrier (bracket.construct :: stack) := by
    cases bracket <;> simp [Barrier, Bracket.construct]
  rw [runMarks, Mark.apply, Option.bind_some, runMarks_append, hsections _ hbar (by simp),
    Option.bind_some, runMarks, Mark.apply, if_pos rfl, Option.bind_some,
    runMarks_phrase htrailer]

/-- The statements and the exception part behind a `begin`. -/
theorem runMarks_bodyArms {bar : List ConstructKind} {k : Nat} {body : Stmts} {arms : Arms}
    (hbody : runMarks body.marks (frames bar (k + 1) false)
      = settle (frames bar (k + 1 - body.strays) false))
    (harms : ∀ k, frames bar k false ≠ [] → runMarks arms.marks (frames bar k false)
      = settle (frames bar (k - arms.strays) false)) :
    runMarks (body.marks ++ arms.part) (frames bar (k + 1) false)
      = settle (frames bar (k + 1 - (body.strays + arms.strays)) false) := by
  rw [runMarks_append, hbody, ← Nat.sub_sub]
  apply settle_bind false false
  intro hne
  rw [runMarks_part arms hne, harms _ hne, Bool.false_and]

/-- The same up to the semicolon of the block or body. -/
theorem runMarks_body {bar : List ConstructKind} (hbar : Barrier bar) {k : Nat} {body : Stmts}
    {arms : Arms} (name : List String)
    (hbodyArms : runMarks (body.marks ++ arms.part) (frames bar (k + 1) false)
      = settle (frames bar (k + 1 - (body.strays + arms.strays)) false)) :
    runMarks (body.marks ++ arms.part ++ [.closeBlock name, .semicolon]) (frames bar (k + 1) false)
      = settle (frames bar (k - (body.strays + arms.strays)) false) := by
  have hsub : k - (body.strays + arms.strays)
      = k + 1 - (body.strays + arms.strays) - 1 := by omega
  rw [runMarks_append, hbodyArms, hsub]
  apply settle_bind false false
  intro hne
  rw [runMarks, closeBlock_frames hbar name hne]
  exact semicolon_frames _

mutual

/-- What a statement does to the stack: it takes off as many frames as it has stray ends. -/
theorem Stmt.run (stmt : Stmt) {bar : List ConstructKind} (hbar : Barrier bar) {k : Nat}
    (hc : stmt.conditionals ifCase = 0) :
    runMarks stmt.marks (frames bar k false) = settle (frames bar (k - stmt.strays) false) := by
  cases stmt with
  | simple words =>
      rw [Stmt.conditionals] at hc
      rw [Stmt.marks, runMarks_append, runMarks_phrase hc]
      exact semicolon_frames _
  | compound bracket header sections trailer =>
      simp only [Stmt.conditionals, Nat.add_eq_zero_iff] at hc
      rw [Stmt.marks, runMarks_append, runMarks_phrase hc.1.1, Option.bind_some,
        ← bracket_append, runMarks_append, runMarks_bracket bracket
          (fun bar' hbar' hne' => Sections.run sections hbar' hc.1.2 hne') hc.2]
      exact semicolon_frames _
  | block label body arms name =>
      simp only [Stmt.conditionals, Nat.add_eq_zero_iff] at hc
      rw [Stmt.marks, runMarks_append, runMarks_phrase hc.1, Option.bind_some, runMarks,
        begin_frames hbar, Option.bind_some, Stmt.strays]
      exact runMarks_body hbar name (runMarks_bodyArms
        (Stmts.run body hbar hc.2.1 (by simp [frames])) fun k hk => Arms.run arms hbar hc.2.2 hk)
  | declareBlock label decls body arms name =>
      simp only [Stmt.conditionals, Nat.add_eq_zero_iff] at hc
      rw [Stmt.marks, runMarks_append, runMarks_phrase hc.1.1, Option.bind_some, runMarks,
        Mark.apply, Option.bind_some, ← frames_fresh, runMarks_append,
        Decls.run decls hbar hc.1.2 (by simp [frames]), Stmt.strays, ← Nat.sub_sub,
        ← Bool.and_false (true && decls.bodiless)]
      apply settle_bind
      intro _
      rw [runMarks, begin_frames hbar, Option.bind_some, Bool.and_false]
      exact runMarks_body hbar name (runMarks_bodyArms
        (Stmts.run body hbar hc.2.1 (by simp [frames])) fun k hk => Arms.run arms hbar hc.2.2 hk)

theorem Stmts.run (stmts : Stmts) {bar : List ConstructKind} (hbar : Barrier bar) {k : Nat}
    (hc : stmts.conditionals ifCase = 0) (hne : frames bar k false ≠ []) :
    runMarks stmts.marks (frames bar k false) = settle (frames bar (k - stmts.strays) false) := by
  cases stmts with
  | nil => exact (settle_of_ne hne).symm
  | cons stmt rest =>
      rw [Stmts.conditionals, Nat.add_eq_zero_iff] at hc
      rw [Stmts.marks, runMarks_append, Stmt.run stmt hbar hc.1, Stmts.strays, ← Nat.sub_sub]
      exact settle_bind false false fun hne' => Stmts.run rest hbar hc.2 hne'

theorem Sections.run (sections : Sections) {bar : List ConstructKind} (hbar : Barrier bar)
    (hc : sections.conditionals ifCase = 0) (hne : bar ≠ []) :
    runMarks sections.marks bar = some bar := by
  cases sections with
  | nil => rfl
  | cons lead body rest =>
      simp only [Sections.conditionals, Nat.add_eq_zero_iff] at hc
      have hbody := Stmts.run body hbar (k := 0) hc.1.2 (by rwa [frames_zero])
      rw [Nat.zero_sub, frames_zero, settle_of_ne hne] at hbody
      rw [Sections.marks, List.append_assoc, runMarks_append, runMarks_phrase hc.1.1,
        Option.bind_some, runMarks_append, hbody, Option.bind_some]
      exact Sections.run rest hbar hc.2 hne

theorem Arms.run (arms : Arms) {bar : List ConstructKind} (hbar : Barrier bar) {k : Nat}
    (hc : arms.conditionals ifCase = 0) (hne : frames bar k false ≠ []) :
    runMarks arms.marks (frames bar k false) = settle (frames bar (k - arms.strays) false) := by
  cases arms with
  | nil => exact (settle_of_ne hne).symm
  | cons lead body rest =>
      rw [Arms.conditionals, Nat.add_eq_zero_iff] at hc
      rw [Arms.marks, List.append_assoc, runMarks_append,
        runMarks_phrase (lead.words_conditionals ifCase), Option.bind_some, runMarks_append,
        Stmts.run body hbar hc.1 hne, Arms.strays, ← Nat.sub_sub]
      exact settle_bind false false fun hne' => Arms.run rest hbar hc.2 hne'

/-- What a declaration does to the stack: it takes off as many frames as it has stray ends,
and a body ends a fresh frame. -/
theorem Decl.run (decl : Decl) {bar : List ConstructKind} (hbar : Barrier bar) {k : Nat}
    {fresh : Bool} (hc : decl.conditionals ifCase = 0) (hne : frames bar k fresh ≠ []) :
    runMarks decl.marks (frames bar k fresh)
      = settle (frames bar (k - decl.strays fresh) (fresh && !decl.isBody)) := by
  cases decl with
  | plain words =>
      rw [Decl.conditionals] at hc
      rw [Decl.marks, runMarks_append, runMarks_phrase hc, Decl.isBody, Bool.not_false,
        Bool.and_true]
      exact semicolon_frames _
  | record lead header components trailer =>
      simp only [Decl.conditionals, Nat.add_eq_zero_iff] at hc
      have hcomponents : ∀ bar', Barrier bar' → bar' ≠ [] →
          runMarks components.marks bar' = some bar' := by
        intro bar' hbar' hne'
        have hbody := Stmts.run components hbar' (k := 0) hc.1.2 (by rwa [frames_zero])
        rwa [Nat.zero_sub, frames_zero, settle_of_ne hne'] at hbody
      rw [Decl.marks, runMarks_append, runMarks_header hc.1.1 hne, Option.bind_some, Decl.isBody,
        Bool.not_false, Bool.and_true, ← bracket_append, runMarks_append,
        runMarks_bracket (.record lead) hcomponents hc.2]
      exact semicolon_frames _
  | unitBody header decls body arms name =>
      simp only [Decl.conditionals, Nat.add_eq_zero_iff] at hc
      rw [Decl.marks, List.append_assoc, runMarks_append, runMarks_header hc.1.1 hne,
        Option.bind_some, runMarks_append, Decls.run decls hbar hc.1.2 hne, Decl.strays,
        ← Nat.sub_sub, Decl.isBody, Bool.not_true, Bool.and_false,
        ← Bool.and_false (fresh && decls.bodiless)]
      apply settle_bind
      intro _
      rw [runMarks, begin_frames hbar, Option.bind_some, Bool.and_false]
      exact runMarks_body hbar name (runMarks_bodyArms
        (Stmts.run body hbar hc.2.1 (by simp [frames])) fun k hk => Arms.run arms hbar hc.2.2 hk)
  | packageBody header decls name =>
      simp only [Decl.conditionals, Nat.add_eq_zero_iff] at hc
      rw [Decl.marks, List.append_assoc, runMarks_append, runMarks_header hc.1 hne,
        Option.bind_some, runMarks_append, Decls.run decls hbar hc.2 hne, Decl.strays,
        ← Nat.sub_sub, Decl.isBody, Bool.not_true, Bool.and_false,
        ← Bool.and_false (fresh && decls.bodiless)]
      apply settle_bind
      intro hne'
      rw [runMarks, Bool.and_false]
      cases hfresh : fresh && decls.bodiless with
      | true =>
          rw [closeBlock_fresh]
          exact semicolon_frames _
      | false =>
          rw [hfresh] at hne'
          rw [closeBlock_frames hbar name hne']
          exact semicolon_frames _

theorem Decls.run (decls : Decls) {bar : List ConstructKind} (hbar : Barrier bar) {k : Nat}
    {fresh : Bool} (hc : decls.conditionals ifCase = 0) (hne : frames bar k fresh ≠ []) :
    runMarks decls.marks (frames bar k fresh)
      = settle (frames bar (k - decls.strays fresh) (fresh && decls.bodiless)) := by
  cases decls with
  | nil =>
      rw [Decls.bodiless, Bool.and_true]
      exact (settle_of_ne hne).symm
  | cons decl rest =>
      rw [Decls.conditionals, Nat.add_eq_zero_iff] at hc
      rw [Decls.marks, runMarks_append, Decl.run decl hbar hc.1 hne, Decls.strays, ← Nat.sub_sub,
        Decls.bodiless, ← Bool.and_assoc]
      exact settle_bind _ _ fun hne' => Decls.run rest hbar hc.2 hne'

end

end GovFuzz.AdaParser
