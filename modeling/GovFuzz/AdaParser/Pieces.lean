import GovFuzz.AdaParser.Nesting

/-!
# Ada parser — what the search for the exception part sees

`top_level_exception_index` reads the statements of a body from its `begin`
on.  It jumps over the scopes nested in the body, keeps count of `case` and
`select`, and takes the first `exception` or block `end` at depth 0 for the
body's own.  A begin or declare block outside `case` and `select` therefore
ends the search early, and the keyword of a case expression keeps it from
ending at all.
-/

namespace GovFuzz.AdaParser

/-! ## What the search sees of a tree -/

/-- A mark the search reads, or a nested body it jumps over. -/
inductive Piece where
  | mark (mark : Mark)
  | body (marks : List Mark)

/-- Marks outside any block. -/
def plains (marks : List Mark) : List Piece := marks.map .mark

/-- The marks that no block hides. -/
def visible (pieces : List Piece) : List Mark :=
  pieces.filterMap fun
    | .mark mark => some mark
    | .body _ => none

/-- All marks, those of the blocks with them. -/
def flat (pieces : List Piece) : List Mark :=
  pieces.flatMap fun
    | .mark mark => [mark]
    | .body marks => marks

mutual

/-- A statement with its nested blocks set apart. -/
def Stmt.pieces : Stmt → List Piece
  | .simple words => plains words.marks ++ [.mark .semicolon]
  | .compound bracket header sections trailer =>
      plains header.marks ++ .mark (.open bracket) :: (sections.pieces ++
        .mark (.close bracket) :: (plains trailer.marks ++ [.mark .semicolon]))
  | .block label body arms name =>
      plains label.marks ++ .mark .begin :: (body.pieces ++ arms.partPieces ++
        [.mark (.closeBlock name), .mark .semicolon])
  | .declareBlock label decls body arms name =>
      plains label.marks ++ .mark .declare :: (decls.pieces ++ .mark .begin :: (body.pieces ++
        arms.partPieces ++ [.mark (.closeBlock name), .mark .semicolon]))

def Stmts.pieces : Stmts → List Piece
  | .nil => []
  | .cons stmt rest => stmt.pieces ++ rest.pieces

def Sections.pieces : Sections → List Piece
  | .nil => []
  | .cons lead body rest => plains lead.marks ++ body.pieces ++ rest.pieces

/-- Handlers as parts of a block. -/
def Arms.partPieces : Arms → List Piece
  | .nil => []
  | .cons lead body rest =>
      .mark .exception :: (plains lead.words.marks ++ body.pieces ++ rest.pieces)

/-- Handlers one behind the other. -/
def Arms.pieces : Arms → List Piece
  | .nil => []
  | .cons lead body rest => plains lead.words.marks ++ body.pieces ++ rest.pieces

/-- The body of a nested subprogram or package is one piece. -/
def Decl.pieces : Decl → List Piece
  | .plain words => plains words.marks ++ [.mark .semicolon]
  | .record lead header components trailer =>
      plains (headerMarks header) ++ .mark (.open (.record lead)) :: (components.pieces ++
        .mark (.close (.record lead)) :: (plains trailer.marks ++ [.mark .semicolon]))
  | .unitBody header decls body arms name =>
      [.body (Decl.unitBody header decls body arms name).marks]
  | .packageBody header decls name => [.body (Decl.packageBody header decls name).marks]

def Decls.pieces : Decls → List Piece
  | .nil => []
  | .cons decl rest => decl.pieces ++ rest.pieces

end

mutual

/-- Number of case expressions outside nested bodies. -/
def Stmt.openCases : Stmt → Nat
  | .simple words => words.conditionals caseOrSelect
  | .compound _ header sections trailer =>
      header.conditionals caseOrSelect + (sections.openCases + trailer.conditionals caseOrSelect)
  | .block label body arms _ =>
      label.conditionals caseOrSelect + (body.openCases + arms.openCases)
  | .declareBlock label decls body arms _ =>
      label.conditionals caseOrSelect + (decls.openCases + (body.openCases + arms.openCases))

def Stmts.openCases : Stmts → Nat
  | .nil => 0
  | .cons stmt rest => stmt.openCases + rest.openCases

def Sections.openCases : Sections → Nat
  | .nil => 0
  | .cons lead body rest =>
      lead.conditionals caseOrSelect + body.openCases + rest.openCases

def Arms.openCases : Arms → Nat
  | .nil => 0
  | .cons _ body rest => body.openCases + rest.openCases

def Decl.openCases : Decl → Nat
  | .plain words => words.conditionals caseOrSelect
  | .record _ header components trailer =>
      (header.map (Phrase.conditionals caseOrSelect)).sum +
        (components.openCases + trailer.conditionals caseOrSelect)
  | .unitBody .. | .packageBody .. => 0

def Decls.openCases : Decls → Nat
  | .nil => 0
  | .cons decl rest => decl.openCases + rest.openCases

end

/-- The phrase does not stop the search. -/
def Phrase.clear (target : TokenKind) (words : Phrase) : Bool :=
  words.all fun word => !word.mark.stops target

mutual

/-- Outside `case` and `select` there is no block and no word `target`. -/
def Stmt.clear (target : TokenKind) : Stmt → Bool
  | .simple words => words.clear target
  | .compound bracket header sections trailer =>
      header.clear target && (caseOrSelect bracket || sections.clear target) &&
        trailer.clear target
  | .block .. | .declareBlock .. => false

def Stmts.clear (target : TokenKind) : Stmts → Bool
  | .nil => true
  | .cons stmt rest => stmt.clear target && rest.clear target

def Sections.clear (target : TokenKind) : Sections → Bool
  | .nil => true
  | .cons lead body rest => lead.clear target && body.clear target && rest.clear target

end

/-! ## Pieces and marks -/

@[simp] theorem flat_append (a b : List Piece) : flat (a ++ b) = flat a ++ flat b :=
  List.flatMap_append

@[simp] theorem flat_mark (mark : Mark) (pieces : List Piece) :
    flat (.mark mark :: pieces) = mark :: flat pieces := rfl

@[simp] theorem flat_nil : flat [] = [] := rfl

@[simp] theorem flat_body (marks : List Mark) : flat [.body marks] = marks :=
  List.append_nil marks

@[simp] theorem flat_plains (marks : List Mark) : flat (plains marks) = marks := by
  induction marks with
  | nil => rfl
  | cons mark marks ih =>
      show mark :: flat (plains marks) = _
      rw [ih]

@[simp] theorem visible_append (a b : List Piece) : visible (a ++ b) = visible a ++ visible b :=
  List.filterMap_append

@[simp] theorem visible_mark (mark : Mark) (pieces : List Piece) :
    visible (.mark mark :: pieces) = mark :: visible pieces := rfl

@[simp] theorem visible_body (marks : List Mark) (pieces : List Piece) :
    visible (.body marks :: pieces) = visible pieces := rfl

@[simp] theorem visible_nil : visible [] = [] := rfl

@[simp] theorem visible_plains (marks : List Mark) : visible (plains marks) = marks := by
  induction marks with
  | nil => rfl
  | cons mark marks ih =>
      show mark :: visible (plains marks) = _
      rw [ih]

mutual

theorem Stmt.flat_pieces (stmt : Stmt) : flat stmt.pieces = stmt.marks := by
  cases stmt with
  | simple words => simp [Stmt.pieces, Stmt.marks]
  | compound bracket header sections trailer =>
      simp [Stmt.pieces, Stmt.marks, Sections.flat_pieces sections]
  | block label body arms name =>
      simp [Stmt.pieces, Stmt.marks, Stmts.flat_pieces body, Arms.flat_partPieces arms]
  | declareBlock label decls body arms name =>
      simp [Stmt.pieces, Stmt.marks, Stmts.flat_pieces body, Arms.flat_partPieces arms,
        Decls.flat_pieces decls]

theorem Stmts.flat_pieces (stmts : Stmts) : flat stmts.pieces = stmts.marks := by
  cases stmts with
  | nil => rfl
  | cons stmt rest =>
      simp [Stmts.pieces, Stmts.marks, Stmt.flat_pieces stmt, Stmts.flat_pieces rest]

theorem Sections.flat_pieces (sections : Sections) : flat sections.pieces = sections.marks := by
  cases sections with
  | nil => rfl
  | cons lead body rest =>
      simp [Sections.pieces, Sections.marks, Stmts.flat_pieces body, Sections.flat_pieces rest]

theorem Arms.flat_partPieces (arms : Arms) : flat arms.partPieces = arms.part := by
  cases arms with
  | nil => rfl
  | cons lead body rest =>
      simp [Arms.partPieces, Arms.part, Stmts.flat_pieces body, Arms.flat_pieces rest]

theorem Arms.flat_pieces (arms : Arms) : flat arms.pieces = arms.marks := by
  cases arms with
  | nil => rfl
  | cons lead body rest =>
      simp [Arms.pieces, Arms.marks, Stmts.flat_pieces body, Arms.flat_pieces rest]

theorem Decl.flat_pieces (decl : Decl) : flat decl.pieces = decl.marks := by
  cases decl with
  | plain words => simp [Decl.pieces, Decl.marks]
  | record lead header components trailer =>
      simp [Decl.pieces, Decl.marks, Stmts.flat_pieces components]
  | unitBody header decls body arms name => simp [Decl.pieces]
  | packageBody header decls name => simp [Decl.pieces]

theorem Decls.flat_pieces (decls : Decls) : flat decls.pieces = decls.marks := by
  cases decls with
  | nil => rfl
  | cons decl rest =>
      simp [Decls.pieces, Decls.marks, Decl.flat_pieces decl, Decls.flat_pieces rest]

end

/-! ## Where the search stops -/

/-- The search stops inside the pieces: at the end of a block, or at the
`exception` of a block.  In the second case no counted bracket is open where
the block ends, so none is closed behind it. -/
def Stops (pieces : List Piece) : Prop :=
  ∃ front mark behind, pieces = front ++ .mark mark :: behind ∧
    runDepth caseOrSelect .kwException (visible front) 0 = some 0 ∧
    ((∃ name, mark = .closeBlock name) ∨
      (mark = .exception ∧ ∃ inside name outside m,
        behind = inside ++ .mark (.closeBlock name) :: outside ∧
          Climbs caseOrSelect (flat outside) m))

/-- What the search makes of pieces with `n` visible case expressions, `free`
if there is no block to stop at. -/
structure Searched (pieces : List Piece) (free : Bool) (n : Nat) : Prop where
  climbs : Climbs caseOrSelect (visible pieces) n
  flatClimbs : ∃ m, Climbs caseOrSelect (flat pieces) m
  search : (runDepth caseOrSelect .kwException (visible pieces) 0 = some n ∧
      (free = false → 0 < n)) ∨ (free = false ∧ Stops pieces)

theorem Stops.append_left {a b : List Piece}
    (ha : runDepth caseOrSelect .kwException (visible a) 0 = some 0) (hb : Stops b) :
    Stops (a ++ b) := by
  obtain ⟨front, mark, behind, rfl, hfront, hmark⟩ := hb
  refine ⟨a ++ front, mark, behind, (List.append_assoc _ _ _).symm, ?_, hmark⟩
  rw [visible_append, runDepth_append, ha]
  exact hfront

theorem Stops.append_right {a b : List Piece} (ha : Stops a) {n : Nat}
    (hb : Climbs caseOrSelect (flat b) n) : Stops (a ++ b) := by
  obtain ⟨front, mark, behind, rfl, hfront, hmark⟩ := ha
  refine ⟨front, mark, behind ++ b, by simp, hfront, ?_⟩
  rcases hmark with hclose | ⟨hexc, inside, name, outside, m, rfl, hclimbs⟩
  · exact .inl hclose
  · refine .inr ⟨hexc, inside, name, outside ++ b, m + n, by simp, ?_⟩
    rw [flat_append]
    exact hclimbs.append hb

/-- Two searches one after the other: free if both are, and the open cases add up. -/
theorem Searched.append {a b : List Piece} {freeA freeB : Bool} {m n : Nat}
    (ha : Searched a freeA m) (hb : Searched b freeB n) :
    Searched (a ++ b) (freeA && freeB) (m + n) := by
  obtain ⟨k, hflatA⟩ := ha.flatClimbs
  obtain ⟨l, hflatB⟩ := hb.flatClimbs
  have hclimbs : Climbs caseOrSelect (visible (a ++ b)) (m + n) := by
    rw [visible_append]
    exact ha.climbs.append hb.climbs
  have hflat : Climbs caseOrSelect (flat (a ++ b)) (k + l) := by
    rw [flat_append]
    exact hflatA.append hflatB
  refine ⟨hclimbs, ⟨k + l, hflat⟩, ?_⟩
  rw [visible_append, runDepth_append]
  rcases ha.search with ⟨hrun, hpos⟩ | ⟨hfree, hstops⟩
  · rw [hrun, Option.bind_some]
    rcases Nat.eq_zero_or_pos m with rfl | hm
    · have hfree : freeA = true := by
        by_contra hne
        exact Nat.lt_irrefl 0 (hpos (by simpa using hne))
      rw [hfree, Bool.true_and, Nat.zero_add]
      rcases hb.search with hrun' | ⟨hfree', hstops⟩
      · exact .inl hrun'
      · exact .inr ⟨hfree', hstops.append_left hrun⟩
    · -- a case expression is open, nothing stops any more
      left
      refine ⟨(hb.climbs .kwException m).resolve_right (by omega), fun _ => by omega⟩
  · right
    exact ⟨by rw [hfree, Bool.false_and], hstops.append_right hflatB⟩

theorem Searched.of_quiet {marks : List Mark} {n : Nat} (hclimbs : Climbs caseOrSelect marks n)
    (hquiet : ∀ mark ∈ marks, mark.stops .kwException = false) :
    Searched (plains marks) true n := by
  refine ⟨by rwa [visible_plains], ⟨n, by rwa [flat_plains]⟩, .inl ⟨?_, nofun⟩⟩
  rw [visible_plains]
  rcases hclimbs .kwException 0 with h | ⟨-, h⟩
  · rwa [Nat.zero_add] at h
  · obtain ⟨front, mark, behind, rfl, -, hstops⟩ := exists_stop_of_runDepth h
    rw [hquiet mark (by simp)] at hstops
    cases hstops

theorem Searched.mark {mark : Mark} (hstops : mark.stops .kwException = false)
    (hopens : mark.opens caseOrSelect = false) (hcloses : mark.closes caseOrSelect = false) :
    Searched [.mark mark] true 0 := by
  have hclimbs : Climbs caseOrSelect [mark] 0 :=
    Climbs.cons (Formed.nil).climbs (shift_uncounted hopens hcloses)
  exact .of_quiet hclimbs (by simpa using hstops)

theorem word_stops_exception (word : Word) : word.mark.stops .kwException = false := by
  cases word with
  | plain kind h =>
      have hne : kind ≠ .kwException := by rintro rfl; cases h
      simpa [Word.mark, Mark.stops] using hne
  | _ => rfl

theorem searched_phrase (words : Phrase) :
    Searched (plains words.marks) true (words.conditionals caseOrSelect) := by
  refine .of_quiet (formed_phrase words).climbs fun mark hmark => ?_
  obtain ⟨word, -, rfl⟩ := List.mem_map.mp hmark
  exact word_stops_exception word

theorem searched_header (header : List Phrase) :
    Searched (plains (headerMarks header)) true
      (header.map (Phrase.conditionals caseOrSelect)).sum := by
  refine .of_quiet (formed_header header).climbs ?_
  induction header with
  | nil => simp [headerMarks]
  | cons words header ih =>
      have hwords : ∀ mark ∈ words.marks, mark.stops .kwException = false := by
        intro mark hmark
        obtain ⟨word, -, rfl⟩ := List.mem_map.mp hmark
        exact word_stops_exception word
      cases header with
      | nil => exact hwords
      | cons words' header =>
          intro mark hmark
          rw [headerMarks, List.mem_append, List.mem_cons] at hmark
          · rcases hmark with hmark | rfl | hmark
            · exact hwords mark hmark
            · rfl
            · exact ih mark hmark
          · simp

/-- Inside `case` and `select` nothing stops the search. -/
theorem Searched.counted {inner : List Piece} {free : Bool} {n : Nat} {bracket : Bracket}
    (hcounted : caseOrSelect bracket = true) (h : Searched inner free n) :
    Searched (.mark (.open bracket) :: (inner ++ [.mark (.close bracket)])) true n := by
  obtain ⟨m, hflat⟩ := h.flatClimbs
  have hnil : Climbs caseOrSelect [] 0 := (Formed.nil).climbs
  refine ⟨?_, ⟨m, ?_⟩, .inl ⟨?_, nofun⟩⟩
  · simpa using h.climbs.bracket bracket hnil
  · simpa using hflat.bracket bracket hnil
  · rw [visible_mark, visible_append]
    refine (runDepth_bracket hcounted h.climbs [] .kwException 0).trans ?_
    rw [Nat.zero_add]
    rfl

/-- The statements of a block and what follows up to its `end`. -/
theorem Searched.block {body part : List Piece} {free : Bool} {m n : Nat} (name : List String)
    (hbody : Searched body free m) (hvisible : Climbs caseOrSelect (visible part) n)
    (hflat : ∃ k, Climbs caseOrSelect (flat part) k)
    (hpart : part = [] ∨ ∃ arms, part = .mark .exception :: arms) :
    Searched (body ++ (part ++ [.mark (.closeBlock name)])) false (m + n) := by
  obtain ⟨k, hflatPart⟩ := hflat
  obtain ⟨l, hflatBody⟩ := hbody.flatClimbs
  have hclose : Climbs caseOrSelect [.closeBlock name] 0 :=
    Climbs.cons (Formed.nil).climbs fun _ => rfl
  have hafter : Climbs caseOrSelect (visible (part ++ [.mark (.closeBlock name)])) n := by
    rw [visible_append]
    exact hvisible.append hclose
  have hflatAfter : Climbs caseOrSelect (flat (part ++ [.mark (.closeBlock name)])) k := by
    rw [flat_append]
    exact hflatPart.append hclose
  refine ⟨?_, ⟨l + k, ?_⟩, ?_⟩
  · rw [visible_append]
    exact hbody.climbs.append hafter
  · rw [flat_append]
    exact hflatBody.append hflatAfter
  · rcases hbody.search with ⟨hrun, -⟩ | ⟨-, hstops⟩
    · rcases Nat.eq_zero_or_pos m with rfl | hm
      · right
        refine ⟨rfl, Stops.append_left hrun ?_⟩
        rcases hpart with rfl | ⟨arms, rfl⟩
        · exact ⟨[], .closeBlock name, [], rfl, rfl, .inl ⟨name, rfl⟩⟩
        · exact ⟨[], .exception, arms ++ [.mark (.closeBlock name)], rfl, rfl,
            .inr ⟨rfl, arms, name, [], 0, rfl, (Formed.nil).climbs⟩⟩
      · left
        refine ⟨?_, fun _ => by omega⟩
        rw [visible_append, runDepth_append, hrun]
        exact (hafter .kwException m).resolve_right (by omega)
    · exact .inr ⟨rfl, hstops.append_right hflatAfter⟩

/-! ## Trees -/

theorem Searched.congr {a b : List Piece} {freeA freeB : Bool} {m n : Nat}
    (h : Searched a freeA m) (hpieces : b = a) (hfree : freeB = freeA) (hn : n = m) :
    Searched b freeB n := by
  rwa [hpieces, hfree, hn]

theorem searched_semicolon : Searched [.mark .semicolon] true 0 := .mark rfl rfl rfl

theorem Phrase.clear_exception (words : Phrase) : words.clear .kwException = true := by
  simp [Phrase.clear, word_stops_exception]

/-- A construct whose bracket is not counted. -/
theorem Searched.uncounted {inner : List Piece} {free : Bool} {n : Nat} {bracket : Bracket}
    (hcounted : caseOrSelect bracket = false) (h : Searched inner free n) :
    Searched (.mark (.open bracket) :: (inner ++ [.mark (.close bracket)])) free n := by
  have hopen : Searched [.mark (.open bracket)] true 0 := .mark rfl hcounted rfl
  have hclose : Searched [.mark (.close bracket)] true 0 := .mark rfl rfl hcounted
  refine (hopen.append (h.append hclose)).congr rfl ?_ ?_
  · rw [Bool.true_and, Bool.and_true]
  · omega

theorem searched_body (decl : Decl) : Searched [.body decl.marks] true 0 := by
  refine ⟨(Formed.nil).climbs, ⟨decl.conditionals caseOrSelect, ?_⟩, .inl ⟨rfl, nofun⟩⟩
  rw [flat_body]
  exact (Decl.formed decl).climbs

/-- The keyword in front of the arms makes no difference. -/
theorem Searched.part {arms : Arms} {free : Bool} {n : Nat} (h : Searched arms.pieces free n) :
    Climbs caseOrSelect (visible arms.partPieces) n ∧
      ∃ m, Climbs caseOrSelect (flat arms.partPieces) m := by
  obtain ⟨m, hflat⟩ := h.flatClimbs
  cases arms with
  | nil => exact ⟨h.climbs, m, hflat⟩
  | cons lead body rest => exact ⟨h.climbs.cons fun _ => rfl, m, hflat.cons fun _ => rfl⟩

/-- From a `begin` to the semicolon behind its `end`. -/
theorem Searched.beginBlock {body : List Piece} {arms : Arms} {free free' : Bool} {m : Nat}
    (name : List String) (hbody : Searched body free m)
    (harms : Searched arms.pieces free' arms.openCases) :
    Searched (.mark .begin :: (body ++ arms.partPieces ++
      [.mark (.closeBlock name), .mark .semicolon])) false (m + arms.openCases) := by
  obtain ⟨hvisible, hflat⟩ := harms.part
  have hpart : arms.partPieces = [] ∨ ∃ pieces, arms.partPieces = .mark .exception :: pieces := by
    cases arms with
    | nil => exact .inl rfl
    | cons lead body rest => exact .inr ⟨_, rfl⟩
  have hbegin : Searched [.mark .begin] true 0 := .mark rfl rfl rfl
  have hblock := Searched.block name hbody hvisible hflat hpart
  refine (hbegin.append (hblock.append searched_semicolon)).congr ?_ rfl ?_
  · simp
  · omega

mutual

/-- The search for an exception part goes over a statement as its pieces are written. -/
theorem Stmt.searched (stmt : Stmt) :
    Searched stmt.pieces (stmt.clear .kwException) stmt.openCases := by
  cases stmt with
  | simple words =>
      refine ((searched_phrase words).append searched_semicolon).congr rfl ?_ rfl
      rw [Stmt.clear, words.clear_exception]
      rfl
  | compound bracket header sections trailer =>
      have hsections := Sections.searched sections
      have htrailer := (searched_phrase trailer).append searched_semicolon
      cases hcounted : caseOrSelect bracket with
      | true =>
          refine ((searched_phrase header).append
            ((hsections.counted hcounted).append htrailer)).congr ?_ ?_ rfl
          · simp [Stmt.pieces]
          · simp [Stmt.clear, Phrase.clear_exception, hcounted]
      | false =>
          refine ((searched_phrase header).append
            ((hsections.uncounted hcounted).append htrailer)).congr ?_ ?_ rfl
          · simp [Stmt.pieces]
          · simp [Stmt.clear, Phrase.clear_exception, hcounted]
  | block label body arms name =>
      obtain ⟨free, harms⟩ := Arms.searched arms
      exact ((searched_phrase label).append
        ((Stmts.searched body).beginBlock name harms)).congr rfl rfl rfl
  | declareBlock label decls body arms name =>
      obtain ⟨free, harms⟩ := Arms.searched arms
      obtain ⟨free', hdecls⟩ := Decls.searched decls
      have hdeclare : Searched [.mark .declare] true 0 := .mark rfl rfl rfl
      refine ((searched_phrase label).append (hdeclare.append (hdecls.append
        ((Stmts.searched body).beginBlock name harms)))).congr rfl ?_ ?_
      · rw [Bool.and_false, Bool.and_false]
        rfl
      · rw [Stmt.openCases]
        omega

theorem Stmts.searched (stmts : Stmts) :
    Searched stmts.pieces (stmts.clear .kwException) stmts.openCases := by
  cases stmts with
  | nil => exact .of_quiet (Formed.nil).climbs nofun
  | cons stmt rest => exact (Stmt.searched stmt).append (Stmts.searched rest)

theorem Sections.searched (sections : Sections) :
    Searched sections.pieces (sections.clear .kwException) sections.openCases := by
  cases sections with
  | nil => exact .of_quiet (Formed.nil).climbs nofun
  | cons lead body rest =>
      refine (((searched_phrase lead).append (Stmts.searched body)).append
        (Sections.searched rest)).congr rfl ?_ rfl
      rw [Sections.clear, lead.clear_exception]

theorem Arms.searched (arms : Arms) : ∃ free, Searched arms.pieces free arms.openCases := by
  cases arms with
  | nil => exact ⟨true, .of_quiet (Formed.nil).climbs nofun⟩
  | cons lead body rest =>
      obtain ⟨free, hrest⟩ := Arms.searched rest
      refine ⟨_, (((searched_phrase lead.words).append (Stmts.searched body)).append
        hrest).congr rfl rfl ?_⟩
      rw [lead.words_conditionals caseOrSelect, Arms.openCases, Nat.zero_add]

theorem Decl.searched (decl : Decl) : ∃ free, Searched decl.pieces free decl.openCases := by
  cases decl with
  | plain words => exact ⟨_, (searched_phrase words).append searched_semicolon⟩
  | record lead header components trailer =>
      have htrailer := (searched_phrase trailer).append searched_semicolon
      have hcounted : caseOrSelect (.record lead) = false := rfl
      have hrecord := (Stmts.searched components).uncounted hcounted
      refine ⟨_, ((searched_header header).append (hrecord.append htrailer)).congr ?_ rfl rfl⟩
      simp [Decl.pieces]
  | unitBody header decls body arms name => exact ⟨true, searched_body _⟩
  | packageBody header decls name => exact ⟨true, searched_body _⟩

theorem Decls.searched (decls : Decls) : ∃ free, Searched decls.pieces free decls.openCases := by
  cases decls with
  | nil => exact ⟨true, .of_quiet (Formed.nil).climbs nofun⟩
  | cons decl rest =>
      obtain ⟨free, hdecl⟩ := Decl.searched decl
      obtain ⟨free', hrest⟩ := Decls.searched rest
      exact ⟨_, hdecl.append hrest⟩

end

end GovFuzz.AdaParser
