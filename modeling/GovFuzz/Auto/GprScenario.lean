import GovFuzz.Lib.Bytes
import Mathlib.Data.Finset.Lattice.Lemmas
import Mathlib.Data.List.TakeWhile

/-!
# Auto — the default configuration of a project file

`crates/cli/src/auto/gpr_scenario.rs` reads a GNAT project file without a
parser: it cuts it into tokens and walks over them with a stack of the case
statements it is in.  A string literal that stands under the branches that
the default values select is an active directory, any other one is inactive.
-/

namespace GovFuzz.Auto

/-! ## Tokens -/

/-- An ASCII letter. -/
def isAlphabetic (b : UInt8) : Bool := (65 ≤ b && b ≤ 90) || (97 ≤ b && b ≤ 122)

/-- `(b as char).is_ascii_alphanumeric() || b == b'_'`. -/
def isWordByte (b : UInt8) : Bool := isAlphabetic b || (48 ≤ b && b ≤ 57) || b == 95

/-- What begins a word. -/
def isWordStart (b : UInt8) : Bool := isAlphabetic b || b == 95

/-- `(b as char).is_whitespace()`: of Latin-1. -/
def isSpace (b : UInt8) : Bool := (9 ≤ b && b ≤ 13) || b == 32 || b == 0x85 || b == 0xA0

/-- `slice::to_ascii_lowercase`. -/
def toAsciiLowercase (text : List UInt8) : List UInt8 := text.map Lib.toAsciiLowercase

/-- A word, a string literal or a single character. -/
inductive Tok where
  | word (text : List UInt8)
  | str (text : List UInt8)
  | arrow
  | sym (b : UInt8)
  deriving DecidableEq, Repr

/-- The loop, with the text from `i` on. -/
def tokenizeLoop : Nat → List UInt8 → List Tok
  | 0, _ => []
  | _ + 1, [] => []
  | fuel + 1, b :: rest =>
      if b = 34 then
        let inner := rest.takeWhile (· ≠ 34)
        if inner.length < rest.length then
          .str inner :: tokenizeLoop fuel (rest.drop (inner.length + 1))
        else tokenizeLoop fuel rest
      else if b = 61 ∧ rest.head? = some 62 then .arrow :: tokenizeLoop fuel rest.tail
      else if isWordStart b then
        .word (b :: rest.takeWhile isWordByte) :: tokenizeLoop fuel (rest.dropWhile isWordByte)
      else if isSpace b then tokenizeLoop fuel rest
      else .sym b :: tokenizeLoop fuel rest

/-- The tokens of a project file. -/
def tokenize (text : List UInt8) : List Tok := tokenizeLoop text.length text

/-- `w.eq_ignore_ascii_case(..)`, with the keyword in lower case. -/
def Tok.isKeyword (keyword : List UInt8) : Tok → Bool
  | .word text => toAsciiLowercase text == keyword
  | _ => false

/-- `case`. -/
def kwCase : List UInt8 := [99, 97, 115, 101]
/-- `when`. -/
def kwWhen : List UInt8 := [119, 104, 101, 110]
/-- `end`. -/
def kwEnd : List UInt8 := [101, 110, 100]
/-- `others`. -/
def kwOthers : List UInt8 := [111, 116, 104, 101, 114, 115]

/-! ## Which branch a case selects -/

/-- The values of a branch, and whether `others` is among them. -/
abbrev Branch := List (List UInt8) × Bool

/-- The text of a string literal. -/
def strOf : Tok → Option (List UInt8)
  | .str text => some text
  | _ => none

/-- The tokens in front of the next arrow as the values of a branch. -/
def branchOf (choices : List Tok) : Branch :=
  (choices.filterMap strOf, choices.any (Tok.isKeyword kwOthers))

/-- `end` with `case` behind it. -/
def isEndCase (tok : Tok) (rest : List Tok) : Bool :=
  tok.isKeyword kwEnd && rest.head?.any (Tok.isKeyword kwCase)

theorem length_dropWhile_arrow (toks : List Tok) :
    (toks.dropWhile (fun tok => !decide (tok = .arrow))).length ≤ toks.length :=
  (List.dropWhile_sublist _).length_le

/-- The loop of `case_branch_selection`, from `i` on. -/
def collectBranches : List Tok → Int → List Branch → List Branch
  | [], _, branches => branches
  | tok :: rest, depth, branches =>
      if tok.isKeyword kwCase then collectBranches rest (depth + 1) branches
      else if isEndCase tok rest then
        if depth - 1 = 0 then branches else collectBranches rest.tail (depth - 1) branches
      else if depth = 1 ∧ tok.isKeyword kwWhen then
        collectBranches (rest.dropWhile (· ≠ .arrow)) depth
          (branches ++ [branchOf (rest.takeWhile (· ≠ .arrow))])
      else collectBranches rest depth branches
termination_by toks => toks.length
decreasing_by
  all_goals simp_wf
  all_goals
    have := length_dropWhile_arrow rest
    omega

/-- The branch with the value, else `others`, else the first. -/
def pickBranch (branches : List Branch) (value : List UInt8) : Nat :=
  ((branches.findIdx? fun branch => branch.1.any (· == value)).or
    (branches.findIdx? fun branch => branch.2)).getD 0

/-- From the `case` on. -/
def caseBranchSelection (toks : List Tok) (value : List UInt8) : Nat :=
  pickBranch (collectBranches toks 0 []) value

/-! ## The walk -/

/-- An open case: its selected branch and the branch reached. -/
structure CaseFrame where
  selected : Nat
  whenIndex : Nat
  branchActive : Bool
  deriving DecidableEq, Repr

/-- The variables of the walk, the innermost case first. -/
structure Walk where
  stack : List CaseFrame
  active : Finset (List UInt8)
  inactive : Finset (List UInt8)

/-- `when`: the next branch of the innermost case. -/
def Walk.nextBranch (walk : Walk) : Walk :=
  match walk.stack with
  | [] => walk
  | frame :: stack =>
      { walk with
        stack := ⟨frame.selected, frame.whenIndex + 1, frame.whenIndex == frame.selected⟩ :: stack }

/-- A literal, active when every open case is in its selected branch. -/
def Walk.literal (walk : Walk) (text : List UInt8) : Walk :=
  if walk.stack.all CaseFrame.branchActive then { walk with active := insert text walk.active }
  else { walk with inactive := insert text walk.inactive }

/-- The defaults of the scenario variables, by their names in lower case. -/
abbrev Scenario := List UInt8 → Option (List UInt8)

/-- The value of the variable behind `case`. -/
def caseValue (scenario : Scenario) (rest : List Tok) : List UInt8 :=
  let var := match rest.head? with
    | some (.word text) => toAsciiLowercase text
    | _ => []
  (scenario var).getD []

/-- The walk over a project's tokens. -/
def walkTokens (scenario : Scenario) : List Tok → Walk → Walk
  | [], walk => walk
  | tok :: rest, walk =>
      if tok.isKeyword kwCase then
        let selected := caseBranchSelection (tok :: rest) (caseValue scenario rest)
        walkTokens scenario rest.tail { walk with stack := ⟨selected, 0, false⟩ :: walk.stack }
      else if tok.isKeyword kwWhen then
        walkTokens scenario (rest.dropWhile (· ≠ .arrow)).tail walk.nextBranch
      else if tok.isKeyword kwEnd then
        if rest.head?.any (Tok.isKeyword kwCase) then
          walkTokens scenario rest.tail { walk with stack := walk.stack.tail }
        else walkTokens scenario rest walk
      else
        match strOf tok with
        | some text => walkTokens scenario rest (walk.literal text)
        | none => walkTokens scenario rest walk
termination_by toks => toks.length
decreasing_by
  all_goals simp_wf
  all_goals
    have := length_dropWhile_arrow rest
    omega

/-- The active and the inactive directory literals. -/
def classifyDirLiterals (text : List UInt8) (scenario : Scenario) :
    Finset (List UInt8) × Finset (List UInt8) :=
  let walk := walkTokens scenario (tokenize text) ⟨[], ∅, ∅⟩
  (walk.active, walk.inactive)

/-! ## The structure the walk follows -/

/-- A token that is no literal and no keyword of a case. -/
def Plain := { tok : Tok // strOf tok = none ∧
  ∀ keyword ∈ [kwCase, kwWhen, kwEnd], tok.isKeyword keyword = false }

/-- A token in front of an arrow: a value, `others` or a bar. -/
def Choice := { tok : Tok // tok ≠ .arrow ∧
  ∀ keyword ∈ [kwCase, kwEnd], tok.isKeyword keyword = false }

/-- One of the spellings of a keyword. -/
def Keyword (keyword : List UInt8) := { text : List UInt8 // toAsciiLowercase text = keyword }

/-- A keyword in the letters it is written with. -/
def Keyword.tok {keyword : List UInt8} (word : Keyword keyword) : Tok := .word word.1

mutual

/-- What stands between two keywords of the structure: declarations and
whole case statements. -/
inductive Body where
  | nil
  | plain (tok : Plain) (rest : Body)
  | literal (text : List UInt8) (rest : Body)
  /-- `end Name`. -/
  | closing (word : Keyword kwEnd) (name : Plain) (rest : Body)
  /-- `case Var is … end case`. -/
  | cases (word : Keyword kwCase) (var : Plain) (header : List Plain) (branches : Branches)
      (last : Keyword kwEnd) (close : Keyword kwCase) (rest : Body)

/-- The branches of a case. -/
inductive Branches where
  | nil
  /-- `when choices => body`. -/
  | when (word : Keyword kwWhen) (choices : List Choice) (body : Body) (rest : Branches)

end

mutual

/-- The tokens of a body. -/
def Body.tokens : Body → List Tok
  | .nil => []
  | .plain tok rest => tok.1 :: rest.tokens
  | .literal text rest => .str text :: rest.tokens
  | .closing word name rest => word.tok :: name.1 :: rest.tokens
  | .cases word var header branches last close rest =>
      word.tok :: var.1 :: (header.map (·.1) ++
        (branches.tokens ++ (last.tok :: close.tok :: rest.tokens)))

/-- The tokens of the branches. -/
def Branches.tokens : Branches → List Tok
  | .nil => []
  | .when word choices body rest =>
      word.tok :: (choices.map (·.1) ++ (.arrow :: (body.tokens ++ rest.tokens)))

end

/-- The branches of one case, without those of the cases in them. -/
def Branches.heads : Branches → List Branch
  | .nil => []
  | .when _ choices _ rest => branchOf (choices.map (·.1)) :: rest.heads

mutual

/-- The literals that are active (`side`) or inactive (`!side`), in a region
that is itself active when `on`. -/
def Body.dirs (scenario : Scenario) (on side : Bool) : Body → Finset (List UInt8)
  | .nil => ∅
  | .plain _ rest => rest.dirs scenario on side
  | .literal text rest => (if on = side then {text} else ∅) ∪ rest.dirs scenario on side
  | .closing _ _ rest => rest.dirs scenario on side
  | .cases _ var _ branches _ _ rest =>
      branches.dirs scenario on side (pickBranch branches.heads (caseValue scenario [var.1])) 0 ∪
        rest.dirs scenario on side

/-- A branch is active in an active region when it is the selected one. -/
def Branches.dirs (scenario : Scenario) (on side : Bool) (selected : Nat) :
    Nat → Branches → Finset (List UInt8)
  | _, .nil => ∅
  | index, .when _ _ body rest =>
      body.dirs scenario (on && index == selected) side ∪
        rest.dirs scenario on side selected (index + 1)

end

/-! ## The scan for the branches of one case -/

@[simp] theorem Keyword.isKeyword_tok {keyword : List UInt8} (word : Keyword keyword)
    (other : List UInt8) : word.tok.isKeyword other = (keyword == other) := by
  simp [Keyword.tok, Tok.isKeyword, word.2]

@[simp] theorem strOf_keyword {keyword : List UInt8} (word : Keyword keyword) :
    strOf word.tok = none := rfl

/-- A token that the scan passes over. -/
theorem collectBranches_skip {tok : Tok} {rest : List Tok} {depth : Int} {branches : List Branch}
    (hcase : tok.isKeyword kwCase = false) (hend : isEndCase tok rest = false)
    (hwhen : depth = 1 → tok.isKeyword kwWhen = false) :
    collectBranches (tok :: rest) depth branches = collectBranches rest depth branches := by
  have hnot : ¬ (depth = 1 ∧ tok.isKeyword kwWhen = true) := by
    rintro ⟨hdepth, hkey⟩
    rw [hwhen hdepth] at hkey
    cases hkey
  rw [collectBranches]
  simp [hcase, hend, hnot]

theorem Plain.isKeyword_eq (tok : Plain) (keyword : List UInt8)
    (hmem : keyword ∈ [kwCase, kwWhen, kwEnd]) : tok.1.isKeyword keyword = false :=
  tok.2.2 keyword hmem

theorem collectBranches_plain (tok : Plain) (rest : List Tok) (depth : Int)
    (branches : List Branch) :
    collectBranches (tok.1 :: rest) depth branches = collectBranches rest depth branches := by
  apply collectBranches_skip (tok.isKeyword_eq kwCase (by simp))
  · simp [isEndCase, tok.isKeyword_eq kwEnd (by simp)]
  · intro _
    exact tok.isKeyword_eq kwWhen (by simp)

theorem collectBranches_header (header : List Plain) (rest : List Tok) (depth : Int)
    (branches : List Branch) :
    collectBranches (header.map (·.1) ++ rest) depth branches =
      collectBranches rest depth branches := by
  induction header with
  | nil => rfl
  | cons tok header ih =>
      rw [List.map_cons, List.cons_append, collectBranches_plain, ih]

/-- The choices of a deeper case are not skipped but passed over one by one. -/
theorem collectBranches_choices (choices : List Choice) (rest : List Tok) {depth : Int}
    (hdepth : 1 < depth) (branches : List Branch) :
    collectBranches (choices.map (·.1) ++ rest) depth branches =
      collectBranches rest depth branches := by
  induction choices with
  | nil => rfl
  | cons tok choices ih =>
      have hcase : tok.1.isKeyword kwCase = false := tok.2.2 kwCase (by simp)
      have hend : tok.1.isKeyword kwEnd = false := tok.2.2 kwEnd (by simp)
      rw [List.map_cons, List.cons_append,
        collectBranches_skip hcase (by simp [isEndCase, hend]) (by omega), ih]

theorem collectBranches_case (word : Keyword kwCase) (rest : List Tok) (depth : Int)
    (branches : List Branch) :
    collectBranches (word.tok :: rest) depth branches =
      collectBranches rest (depth + 1) branches := by
  rw [collectBranches, if_pos (by simp)]

theorem collectBranches_endCase (last : Keyword kwEnd) (close : Keyword kwCase)
    (rest : List Tok) (depth : Int) (branches : List Branch) :
    collectBranches (last.tok :: close.tok :: rest) depth branches =
      if depth - 1 = 0 then branches else collectBranches rest (depth - 1) branches := by
  have hne : (kwEnd == kwCase) = false := by decide
  rw [collectBranches]
  simp [isEndCase, hne]

theorem collectBranches_arrow (rest : List Tok) (depth : Int) (branches : List Branch) :
    collectBranches (.arrow :: rest) depth branches = collectBranches rest depth branches :=
  collectBranches_skip rfl rfl fun _ => rfl

mutual

/-- Whole cases inside a branch leave the scan where it was. -/
theorem collectBranches_body (body : Body) (rest : List Tok) {depth : Int} (hdepth : 1 ≤ depth)
    (branches : List Branch) :
    collectBranches (body.tokens ++ rest) depth branches =
      collectBranches rest depth branches := by
  match body with
  | .nil => rfl
  | .plain tok body =>
      rw [Body.tokens, List.cons_append, collectBranches_plain,
        collectBranches_body body rest hdepth]
  | .literal text body =>
      rw [Body.tokens, List.cons_append, collectBranches_skip rfl rfl fun _ => rfl,
        collectBranches_body body rest hdepth]
  | .closing word name body =>
      have hne : (kwEnd == kwCase) = false := by decide
      have hnw : (kwEnd == kwWhen) = false := by decide
      have hname : name.1.isKeyword kwCase = false := name.isKeyword_eq kwCase (by simp)
      rw [Body.tokens, List.cons_append, List.cons_append,
        collectBranches_skip (by simp [hne]) (by simp [isEndCase, hname]) (by simp [hnw]),
        collectBranches_plain, collectBranches_body body rest hdepth]
  | .cases word var header inner last close body =>
      have hdeep : ¬ depth + 1 - 1 = 0 := by omega
      simp only [Body.tokens, List.cons_append, List.append_assoc]
      rw [collectBranches_case, collectBranches_plain, collectBranches_header,
        collectBranches_inner inner _ (by omega), collectBranches_endCase, if_neg hdeep,
        show depth + 1 - 1 = depth by omega, collectBranches_body body rest hdepth]

theorem collectBranches_inner (inner : Branches) (rest : List Tok) {depth : Int}
    (hdepth : 1 < depth) (branches : List Branch) :
    collectBranches (inner.tokens ++ rest) depth branches =
      collectBranches rest depth branches := by
  match inner with
  | .nil => rfl
  | .when word choices body inner =>
      have hne : (kwWhen == kwCase) = false := by decide
      have hnend : (kwWhen == kwEnd) = false := by decide
      simp only [Branches.tokens, List.cons_append, List.append_assoc]
      rw [collectBranches_skip (by simp [hne]) (by simp [isEndCase, hnend]) (by omega),
        collectBranches_choices choices _ hdepth, collectBranches_arrow,
        collectBranches_body body _ (by omega), collectBranches_inner inner rest hdepth]

end

theorem takeWhile_choices (choices : List Choice) (rest : List Tok) :
    (choices.map (·.1) ++ .arrow :: rest).takeWhile (· ≠ .arrow) = choices.map (·.1) ∧
    (choices.map (·.1) ++ .arrow :: rest).dropWhile (· ≠ .arrow) = .arrow :: rest := by
  induction choices with
  | nil => simp
  | cons tok choices ih =>
      have harrow : tok.1 ≠ .arrow := tok.2.1
      simpa [harrow] using ih

/-- The branches of the case itself are collected one after the other. -/
theorem collectBranches_own (own : Branches) (rest : List Tok) (branches : List Branch) :
    collectBranches (own.tokens ++ rest) 1 branches =
      collectBranches rest 1 (branches ++ own.heads) := by
  match own with
  | .nil => simp [Branches.tokens, Branches.heads]
  | .when word choices body own =>
      have hne : (kwWhen == kwCase) = false := by decide
      have hnend : (kwWhen == kwEnd) = false := by decide
      have hsplit := takeWhile_choices choices (body.tokens ++ (own.tokens ++ rest))
      have hhead : collectBranches ((Branches.when word choices body own).tokens ++ rest) 1
          branches = collectBranches (.arrow :: (body.tokens ++ (own.tokens ++ rest))) 1
            (branches ++ [branchOf (choices.map (·.1))]) := by
        simp only [Branches.tokens, List.cons_append, List.append_assoc]
        rw [collectBranches]
        simp only [Keyword.isKeyword_tok, isEndCase, hne, hnend, hsplit.1, hsplit.2]
        simp
      rw [hhead, collectBranches_arrow, collectBranches_body body _ (by omega),
        collectBranches_own own rest, Branches.heads, List.append_assoc, List.singleton_append]

theorem caseBranchSelection_cases (word : Keyword kwCase) (var : Plain) (header : List Plain)
    (branches : Branches) (last : Keyword kwEnd) (close : Keyword kwCase) (rest : List Tok)
    (value : List UInt8) :
    caseBranchSelection (word.tok :: var.1 :: (header.map (·.1) ++
      (branches.tokens ++ (last.tok :: close.tok :: rest)))) value =
      pickBranch branches.heads value := by
  rw [caseBranchSelection, collectBranches_case, collectBranches_plain, collectBranches_header,
    Int.zero_add, collectBranches_own, collectBranches_endCase]
  rfl

/-! ## The walk over a body -/

/-- Every open case is in its selected branch. -/
def Walk.region (walk : Walk) : Bool := walk.stack.all CaseFrame.branchActive

/-- The walk with these directories added. -/
def Walk.found (walk : Walk) (active inactive : Finset (List UInt8)) : Walk :=
  { walk with active := active ∪ walk.active, inactive := inactive ∪ walk.inactive }

@[simp] theorem Walk.found_stack (walk : Walk) (active inactive : Finset (List UInt8)) :
    (walk.found active inactive).stack = walk.stack := rfl

@[simp] theorem Walk.found_region (walk : Walk) (active inactive : Finset (List UInt8)) :
    (walk.found active inactive).region = walk.region := rfl

@[simp] theorem Walk.found_empty (walk : Walk) : walk.found ∅ ∅ = walk := by
  simp [Walk.found]

theorem Walk.found_found (walk : Walk) (active inactive active' inactive' : Finset (List UInt8)) :
    (walk.found active inactive).found active' inactive' =
      walk.found (active ∪ active') (inactive ∪ inactive') := by
  simp only [Walk.found, Walk.mk.injEq, true_and]
  constructor
  · rw [Finset.union_left_comm, Finset.union_assoc]
  · rw [Finset.union_left_comm, Finset.union_assoc]

theorem Walk.literal_eq_found (walk : Walk) (text : List UInt8) :
    walk.literal text = walk.found (if walk.region = true then {text} else ∅)
      (if walk.region = false then {text} else ∅) := by
  unfold Walk.literal Walk.found Walk.region
  cases walk.stack.all CaseFrame.branchActive <;> simp

/-- The walk in the case it has just met. -/
def Walk.enter (walk : Walk) (frame : CaseFrame) : Walk :=
  { walk with stack := frame :: walk.stack }

theorem Walk.enter_found (walk : Walk) (frame : CaseFrame) (active inactive : Finset (List UInt8)) :
    (walk.enter frame).found active inactive = (walk.found active inactive).enter frame := rfl

@[simp] theorem Walk.enter_region (walk : Walk) (frame : CaseFrame) :
    (walk.enter frame).region = (frame.branchActive && walk.region) := rfl

theorem walkTokens_plain (scenario : Scenario) (tok : Plain) (rest : List Tok) (walk : Walk) :
    walkTokens scenario (tok.1 :: rest) walk = walkTokens scenario rest walk := by
  rw [walkTokens]
  simp [tok.isKeyword_eq kwCase, tok.isKeyword_eq kwWhen,
    tok.isKeyword_eq kwEnd, tok.2.1]

theorem walkTokens_header (scenario : Scenario) (header : List Plain) (rest : List Tok)
    (walk : Walk) :
    walkTokens scenario (header.map (·.1) ++ rest) walk = walkTokens scenario rest walk := by
  induction header with
  | nil => rfl
  | cons tok header ih => rw [List.map_cons, List.cons_append, walkTokens_plain, ih]

theorem walkTokens_literal (scenario : Scenario) (text : List UInt8) (rest : List Tok)
    (walk : Walk) :
    walkTokens scenario (.str text :: rest) walk =
      walkTokens scenario rest (walk.literal text) := by
  rw [walkTokens]
  rfl

theorem walkTokens_closing (scenario : Scenario) (word : Keyword kwEnd) (name : Plain)
    (rest : List Tok) (walk : Walk) :
    walkTokens scenario (word.tok :: name.1 :: rest) walk = walkTokens scenario rest walk := by
  have hne : (kwEnd == kwCase) = false := by decide
  have hnw : (kwEnd == kwWhen) = false := by decide
  have hname : name.1.isKeyword kwCase = false := name.isKeyword_eq kwCase (by simp)
  rw [walkTokens]
  simp [hne, hnw, hname, walkTokens_plain]

theorem walkTokens_case (scenario : Scenario) (word : Keyword kwCase) (var : Tok)
    (rest : List Tok) (walk : Walk) :
    walkTokens scenario (word.tok :: var :: rest) walk =
      walkTokens scenario rest (walk.enter
        ⟨caseBranchSelection (word.tok :: var :: rest) (caseValue scenario [var]), 0, false⟩) := by
  rw [walkTokens, if_pos (by simp)]
  rfl

theorem walkTokens_endCase (scenario : Scenario) (last : Keyword kwEnd) (close : Keyword kwCase)
    (rest : List Tok) (walk : Walk) (frame : CaseFrame) :
    walkTokens scenario (last.tok :: close.tok :: rest) (walk.enter frame) =
      walkTokens scenario rest walk := by
  have hne : (kwEnd == kwCase) = false := by decide
  have hnw : (kwEnd == kwWhen) = false := by decide
  rw [walkTokens]
  simp [hne, hnw, Walk.enter]

theorem walkTokens_when (scenario : Scenario) (word : Keyword kwWhen) (choices : List Choice)
    (rest : List Tok) (walk : Walk) (frame : CaseFrame) :
    walkTokens scenario (word.tok :: (choices.map (·.1) ++ .arrow :: rest)) (walk.enter frame) =
      walkTokens scenario rest (walk.enter
        ⟨frame.selected, frame.whenIndex + 1, frame.whenIndex == frame.selected⟩) := by
  have hne : (kwWhen == kwCase) = false := by decide
  rw [walkTokens]
  simp only [Keyword.isKeyword_tok, hne, (takeWhile_choices choices rest).2]
  rfl

/-- What the walk has found behind a body. -/
def Walk.behind (walk : Walk) (scenario : Scenario) (body : Body) : Walk :=
  walk.found (body.dirs scenario walk.region true) (body.dirs scenario walk.region false)

mutual

/-- The walk over a body ends as its cases say. -/
theorem walkTokens_body (scenario : Scenario) (body : Body) (rest : List Tok) (walk : Walk) :
    walkTokens scenario (body.tokens ++ rest) walk =
      walkTokens scenario rest (walk.behind scenario body) := by
  match body with
  | .nil => simp [Body.tokens, Walk.behind, Body.dirs]
  | .plain tok body =>
      rw [Body.tokens, List.cons_append, walkTokens_plain, walkTokens_body scenario body]
      rfl
  | .literal text body =>
      rw [Body.tokens, List.cons_append, walkTokens_literal, walkTokens_body scenario body,
        Walk.literal_eq_found, Walk.behind, Walk.found_found]
      rfl
  | .closing word name body =>
      rw [Body.tokens, List.cons_append, List.cons_append, walkTokens_closing,
        walkTokens_body scenario body]
      rfl
  | .cases word var header branches last close body =>
      simp only [Body.tokens, List.cons_append, List.append_assoc]
      rw [walkTokens_case, caseBranchSelection_cases, walkTokens_header]
      obtain ⟨frame, hbranches⟩ := walkTokens_branches scenario branches
        (last.tok :: close.tok :: (body.tokens ++ rest)) walk
        ⟨pickBranch branches.heads (caseValue scenario [var.1]), 0, false⟩
      rw [hbranches, walkTokens_endCase, walkTokens_body scenario body, Walk.behind,
        Walk.found_found]
      rfl

/-- Behind the branches of a case only its frame is another one. -/
theorem walkTokens_branches (scenario : Scenario) (branches : Branches) (rest : List Tok)
    (walk : Walk) (frame : CaseFrame) :
    ∃ frame' : CaseFrame,
      walkTokens scenario (branches.tokens ++ rest) (walk.enter frame) =
        walkTokens scenario rest ((walk.found
          (branches.dirs scenario walk.region true frame.selected frame.whenIndex)
          (branches.dirs scenario walk.region false frame.selected frame.whenIndex)).enter
            frame') := by
  match branches with
  | .nil => exact ⟨frame, by simp [Branches.tokens, Branches.dirs]⟩
  | .when word choices body branches =>
      let next : CaseFrame :=
        ⟨frame.selected, frame.whenIndex + 1, frame.whenIndex == frame.selected⟩
      -- The body of the branch is walked in the region of its own frame.
      have hbody : walkTokens scenario
          ((Branches.when word choices body branches).tokens ++ rest) (walk.enter frame) =
          walkTokens scenario (branches.tokens ++ rest)
            ((walk.enter next).behind scenario body) := by
        simp only [Branches.tokens, List.cons_append, List.append_assoc]
        rw [walkTokens_when, walkTokens_body scenario body]
      obtain ⟨frame', hrest⟩ := walkTokens_branches scenario branches rest
        (walk.found (body.dirs scenario (walk.enter next).region true)
          (body.dirs scenario (walk.enter next).region false)) next
      refine ⟨frame', ?_⟩
      rw [hbody, Walk.behind, Walk.enter_found, hrest, Walk.found_found, Walk.found_region,
        Walk.enter_region, Branches.dirs, Branches.dirs, Bool.and_comm]

end

/-! ## What a project file spells -/

/-- `text` spells the tokens, with any white space between them. -/
inductive Spells : List UInt8 → List Tok → Prop
  | nil : Spells [] []
  | space {b : UInt8} {text : List UInt8} {toks : List Tok} (hspace : isSpace b = true)
      (rest : Spells text toks) : Spells (b :: text) toks
  | str {inner text : List UInt8} {toks : List Tok} (hinner : ∀ b ∈ inner, b ≠ 34)
      (rest : Spells text toks) : Spells (34 :: (inner ++ 34 :: text)) (.str inner :: toks)
  | arrow {text : List UInt8} {toks : List Tok} (rest : Spells text toks) :
      Spells (61 :: 62 :: text) (.arrow :: toks)
  | word {b : UInt8} {tail text : List UInt8} {toks : List Tok} (hstart : isWordStart b = true)
      (htail : ∀ c ∈ tail, isWordByte c = true) (hstop : text.head?.all (!isWordByte ·) = true)
      (rest : Spells text toks) : Spells (b :: (tail ++ text)) (.word (b :: tail) :: toks)
  | sym {b : UInt8} {text : List UInt8} {toks : List Tok} (hquote : b ≠ 34)
      (harrow : ¬ (b = 61 ∧ text.head? = some 62)) (hstart : isWordStart b = false)
      (hspace : isSpace b = false) (rest : Spells text toks) :
      Spells (b :: text) (.sym b :: toks)

/-- A byte of one class is in none of the others. -/
theorem isSpace_exclusive (b : UInt8) (hspace : isSpace b = true) :
    b ≠ 34 ∧ b ≠ 61 ∧ isWordStart b = false := by
  refine ⟨?_, ?_, ?_⟩
  · rintro rfl
    revert hspace
    decide
  · rintro rfl
    revert hspace
    decide
  · unfold isWordStart isAlphabetic
    unfold isSpace at hspace
    grind

theorem isWordStart_exclusive (b : UInt8) (hstart : isWordStart b = true) : b ≠ 34 ∧ b ≠ 61 := by
  constructor
  · rintro rfl
    revert hstart
    decide
  · rintro rfl
    revert hstart
    decide

theorem word_split {tail text : List UInt8} (htail : ∀ c ∈ tail, isWordByte c = true)
    (hstop : text.head?.all (!isWordByte ·) = true) :
    (tail ++ text).takeWhile isWordByte = tail ∧ (tail ++ text).dropWhile isWordByte = text := by
  rw [List.takeWhile_append_of_pos htail, List.dropWhile_append_of_pos htail]
  cases text with
  | nil => simp
  | cons c text =>
      have hc : isWordByte c = false := by simpa using hstop
      simp [hc]

/-- A text that spells tokens is cut into these tokens, with fuel for every byte. -/
theorem tokenizeLoop_of_spells {text : List UInt8} {toks : List Tok} (h : Spells text toks) :
    ∀ fuel, text.length ≤ fuel → tokenizeLoop fuel text = toks := by
  -- Every round reads at least a byte, so fuel for the bytes left is enough.
  induction h with
  | nil =>
      intro fuel _
      cases fuel <;> rfl
  | space hspace _ ih =>
      intro fuel hfuel
      obtain ⟨hquote, heq, hstart⟩ := isSpace_exclusive _ hspace
      cases fuel with
      | zero => simp at hfuel
      | succ fuel =>
          rw [tokenizeLoop, if_neg hquote, if_neg fun harrow => heq harrow.1]
          simp only [hstart, hspace]
          exact ih fuel (by simpa using hfuel)
  | @str inner text toks hinner _ ih =>
      intro fuel hfuel
      cases fuel with
      | zero => simp at hfuel
      | succ fuel =>
          have htake : (inner ++ 34 :: text).takeWhile (· ≠ 34) = inner := by
            rw [List.takeWhile_append_of_pos (by simpa using hinner)]
            simp
          have hdrop : (inner ++ 34 :: text).drop (inner.length + 1) = text := by
            simp [List.drop_append]
          have hlen : inner.length < (inner ++ 34 :: text).length := by simp
          rw [tokenizeLoop, if_pos rfl]
          simp only [htake, hdrop, if_pos hlen]
          rw [ih fuel (by simp at hfuel; omega)]
  | arrow _ ih =>
      intro fuel hfuel
      cases fuel with
      | zero => simp at hfuel
      | succ fuel =>
          have hne : (61 : UInt8) ≠ 34 := by decide
          rw [tokenizeLoop, if_neg hne, if_pos ⟨rfl, rfl⟩, List.tail_cons,
            ih fuel (by simp at hfuel; omega)]
  | @word b tail text toks hstart htail hstop _ ih =>
      intro fuel hfuel
      obtain ⟨hquote, heq⟩ := isWordStart_exclusive b hstart
      obtain ⟨htake, hdrop⟩ := word_split htail hstop
      cases fuel with
      | zero => simp at hfuel
      | succ fuel =>
          rw [tokenizeLoop, if_neg hquote, if_neg fun harrow => heq harrow.1, if_pos hstart,
            htake, hdrop, ih fuel (by simp at hfuel; omega)]
  | sym hquote harrow hstart hspace _ ih =>
      intro fuel hfuel
      cases fuel with
      | zero => simp at hfuel
      | succ fuel =>
          rw [tokenizeLoop, if_neg hquote, if_neg harrow]
          simp only [hstart, hspace]
          rw [← ih fuel (by simpa using hfuel)]
          rfl

theorem tokenize_of_spells {text : List UInt8} {toks : List Tok} (h : Spells text toks) :
    tokenize text = toks :=
  tokenizeLoop_of_spells h text.length le_rfl

/-! ## A spelling of every body -/

/-- A token as it is written. -/
def Tok.text : Tok → List UInt8
  | .word text => text
  | .str text => 34 :: (text ++ [34])
  | .arrow => [61, 62]
  | .sym b => [b]

/-- What the scanner can read as this token. -/
def Tok.written : Tok → Bool
  | .word [] => false
  | .word (b :: tail) => isWordStart b && tail.all isWordByte
  | .str text => text.all (· != 34)
  | .arrow => true
  | .sym b => b != 34 && !isWordStart b && !isSpace b

/-- The tokens with a blank behind each. -/
def spaced (toks : List Tok) : List UInt8 := toks.flatMap fun tok => tok.text ++ [32]

/-- Written tokens are spelled by their texts with a space behind each. -/
theorem spells_spaced (toks : List Tok) (h : ∀ tok ∈ toks, tok.written = true) :
    Spells (spaced toks) toks := by
  induction toks with
  | nil => exact .nil
  | cons tok toks ih =>
      have hrest : Spells (32 :: spaced toks) toks :=
        .space (by decide) (ih fun other hmem => h other (List.mem_cons_of_mem _ hmem))
      have htok : tok.written = true := h tok List.mem_cons_self
      have hsplit : spaced (tok :: toks) = tok.text ++ 32 :: spaced toks := by simp [spaced]
      rw [hsplit]
      cases tok with
      | word text =>
          cases text with
          | nil => cases htok
          | cons b tail =>
              simp only [Tok.written, Bool.and_eq_true, List.all_eq_true] at htok
              exact .word htok.1 htok.2 (by simp; decide) hrest
      | str text =>
          simp only [Tok.written, List.all_eq_true, bne_iff_ne] at htok
          have hquoted : (Tok.str text).text ++ 32 :: spaced toks =
              34 :: (text ++ 34 :: 32 :: spaced toks) := by simp [Tok.text]
          rw [hquoted]
          exact .str htok hrest
      | arrow => exact .arrow hrest
      | sym b =>
          simp only [Tok.written, Bool.and_eq_true, bne_iff_ne, Bool.not_eq_true'] at htok
          exact .sym htok.1.1 (by simp) htok.1.2 htok.2 hrest

/-- `Case K is when "a" => "d" when others => "e" end case ;`. -/
def sampleBody : Body :=
  .cases ⟨[67, 97, 115, 101], by decide⟩ ⟨.word [75], by decide⟩ [⟨.word [105, 115], by decide⟩]
    (.when ⟨kwWhen, by decide⟩ [⟨.str [97], by decide⟩] (.literal [100] .nil)
      (.when ⟨kwWhen, by decide⟩ [⟨.word kwOthers, by decide⟩] (.literal [101] .nil) .nil))
    ⟨kwEnd, by decide⟩ ⟨kwCase, by decide⟩ (.plain ⟨.sym 59, by decide⟩ .nil)

/-- However its text is laid out, the directories of a project file are
classified as the nesting of its case statements says. -/
theorem classifyDirLiterals_follows_cases (scenario : Scenario) (body : Body)
    (text : List UInt8) (h : Spells text body.tokens) :
    classifyDirLiterals text scenario =
      (body.dirs scenario true true, body.dirs scenario true false) := by
  have hwalk := walkTokens_body scenario body [] ⟨[], ∅, ∅⟩
  rw [List.append_nil] at hwalk
  simp only [classifyDirLiterals, tokenize_of_spells h, hwalk, walkTokens, Walk.behind, Walk.found,
    Walk.region, List.all_nil, Finset.union_empty]

theorem classifyDirLiterals_follows_cases_sample :
    classifyDirLiterals (spaced sampleBody.tokens)
        (fun var => if var = [107] then some [98] else none) = ({[101]}, {[100]}) := by
  rw [classifyDirLiterals_follows_cases _ sampleBody _ (spells_spaced _ (by decide))]
  decide +kernel

end GovFuzz.Auto
