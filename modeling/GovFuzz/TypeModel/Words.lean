import GovFuzz.TypeModel.Spelling
import Mathlib.Data.List.TakeWhile

/-!
# TypeModel — words and pieces

How `normalize` sees a text: as its whitespace-separated words, and those,
less the qualifiers among them, cut at the stars.  What it prints is these
pieces again, each star next to the piece behind it; a qualifier that ends
up next to a star is no word of its own, and the next `normalize` leaves it
where it is.
-/

namespace GovFuzz.TypeModel

open GovFuzz.Runtrace (isWhitespace trim)

/-! ## Words -/

@[grind =] def IsInk (text : List Char) : Prop := ∀ c ∈ text, isWhitespace c = false

def IsGap (text : List Char) : Prop := ∀ c ∈ text, isWhitespace c = true

@[simp] theorem splitWhitespace_nil : splitWhitespace [] = [] := rfl

/-- What is split at a whitespace character is split there. -/
theorem splitWhitespace_append {c : Char} (hc : isWhitespace c = true) (x y : List Char) :
    splitWhitespace (x ++ c :: y) = splitWhitespace x ++ splitWhitespace y := by
  unfold splitWhitespace
  rw [List.splitOnP_append_cons _ _ hc, List.filter_append]

theorem splitWhitespace_gap : ∀ {gap : List Char}, IsGap gap → ∀ text,
    splitWhitespace (gap ++ text) = splitWhitespace text
  | [], _, _ => rfl
  | c :: gap, h, text => by
      have hc := h c List.mem_cons_self
      have hgap : IsGap gap := fun d hd => h d (List.mem_cons_of_mem c hd)
      rw [List.cons_append, ← List.nil_append (c :: (gap ++ text)), splitWhitespace_append hc,
        splitWhitespace_gap hgap]
      rfl

theorem splitWhitespace_append_gap {gap : List Char} (hne : gap ≠ []) (h : IsGap gap)
    (x y : List Char) :
    splitWhitespace (x ++ (gap ++ y)) = splitWhitespace x ++ splitWhitespace y := by
  obtain ⟨c, gap, rfl⟩ := List.exists_cons_of_ne_nil hne
  rw [List.cons_append, splitWhitespace_append (h c List.mem_cons_self),
    splitWhitespace_gap fun d hd => h d (List.mem_cons_of_mem c hd)]

theorem splitWhitespace_ink {word : List Char} (hne : word ≠ []) (h : IsInk word) :
    splitWhitespace word = [word] := by
  unfold splitWhitespace
  rw [List.splitOnP_eq_singleton h]
  simp [hne]

/-- Ink in front of ink belongs to the same word. -/
theorem splitWhitespace_cons_ink {c d : Char} (hc : isWhitespace c = false)
    (hd : isWhitespace d = false) (text : List Char) :
    splitWhitespace (c :: d :: text) = (splitWhitespace (d :: text)).modifyHead (c :: ·) := by
  obtain ⟨first, others, hsplit⟩ :=
    List.exists_cons_of_ne_nil (List.splitOnP_ne_nil isWhitespace text)
  unfold splitWhitespace
  rw [List.splitOnP_cons_eq_if_modifyHead, List.splitOnP_cons_eq_if_modifyHead, hsplit]
  simp [hc, hd]

theorem splitWhitespace_ink_append {d : Char} (hd : isWhitespace d = false) (text : List Char) :
    ∀ {word : List Char}, IsInk word →
      splitWhitespace (word ++ d :: text) = (splitWhitespace (d :: text)).modifyHead (word ++ ·)
  | [], _ => by
      rw [List.nil_append]
      cases splitWhitespace (d :: text) <;> rfl
  | c :: word, h => by
      have hc := h c List.mem_cons_self
      have hword : IsInk word := fun e he => h e (List.mem_cons_of_mem c he)
      have ih := splitWhitespace_ink_append hd text hword
      cases word with
      | nil => exact splitWhitespace_cons_ink hc hd text
      | cons e word =>
          have he := h e (List.mem_cons_of_mem c List.mem_cons_self)
          rw [List.cons_append, List.cons_append, splitWhitespace_cons_ink hc he,
            ← List.cons_append, ih]
          cases splitWhitespace (d :: text) <;> rfl

theorem isWhitespace_space : isWhitespace ' ' = true := by decide

@[simp] theorem joinWords_nil : joinWords [] = [] := rfl

@[simp] theorem joinWords_singleton (word : List Char) : joinWords [word] = word :=
  List.intercalate_singleton

theorem joinWords_cons_cons (word word' : List Char) (words : List (List Char)) :
    joinWords (word :: word' :: words) = word ++ ' ' :: joinWords (word' :: words) := by
  simp [joinWords, List.intercalate_cons_cons]

/-- A text that is joined with spaces is split at them. -/
theorem splitWhitespace_joinWords : ∀ texts : List (List Char),
    splitWhitespace (joinWords texts) = texts.flatMap splitWhitespace
  | [] => rfl
  | [text] => by simp
  | text :: text' :: texts => by
      rw [joinWords_cons_cons, splitWhitespace_append isWhitespace_space,
        splitWhitespace_joinWords (text' :: texts)]
      rfl

/-! ## Pieces -/

/-- A word cut at its stars. -/
@[grind =] def starPieces (word : List Char) : List (List Char) := splitWhitespace (spaceStars word)

/-- What `normalize` keeps of a text, cut at the stars. -/
@[grind =] def pieces (text : List Char) : List (List Char) :=
  ((splitWhitespace text).filter fun token => token ∉ qualifiers).flatMap starPieces

/-- The pieces as `normalize` prints them. -/
@[grind =] def render (pieces : List (List Char)) : List Char := attachStars (joinWords pieces)

theorem spaceStars_append (x y : List Char) :
    spaceStars (x ++ y) = spaceStars x ++ spaceStars y := List.flatMap_append

theorem spaceStars_joinWords : ∀ words : List (List Char),
    spaceStars (joinWords words) = joinWords (words.map spaceStars)
  | [] => rfl
  | [word] => by simp
  | word :: word' :: words => by
      have ih := spaceStars_joinWords (word' :: words)
      rw [List.map_cons] at ih
      rw [joinWords_cons_cons, List.map_cons, List.map_cons, joinWords_cons_cons,
        spaceStars_append, ← ih]
      rfl

theorem normalize_eq (raw : List Char) : normalize raw = trim (render (pieces raw)) := by
  unfold normalize pieces render
  dsimp only
  rw [spaceStars_joinWords, splitWhitespace_joinWords, List.flatMap_map]
  rfl

theorem starPieces_append (x y : List Char) :
    starPieces (x ++ '*' :: y) = starPieces x ++ ['*'] :: starPieces y := by
  have hspace : spaceStars (x ++ '*' :: y)
      = spaceStars x ++ ' ' :: (['*'] ++ ' ' :: spaceStars y) := by
    rw [spaceStars_append]
    rfl
  rw [starPieces, hspace, splitWhitespace_append isWhitespace_space,
    splitWhitespace_append isWhitespace_space]
  rfl

theorem spaceStars_of_not_mem {text : List Char} (h : '*' ∉ text) : spaceStars text = text := by
  induction text with
  | nil => rfl
  | cons c text ih =>
      rw [List.mem_cons, not_or] at h
      obtain ⟨hc, htext⟩ := h
      rw [spaceStars, List.flatMap_cons, if_neg (Ne.symm hc)]
      exact congrArg (c :: ·) (ih htext)

/-! ## Names and stars -/

def isNameChar (c : Char) : Bool := !isWhitespace c && c ∉ ['*', '[', ']', '(']

def IsName (text : List Char) : Prop := text ≠ [] ∧ ∀ c ∈ text, isNameChar c = true

@[grind =] def star : List Char := ['*']

@[grind =] def IsPiece (piece : List Char) : Prop := piece = star ∨ IsName piece

theorem isNameChar_iff {c : Char} :
    isNameChar c = true ↔ isWhitespace c = false ∧ c ≠ '*' ∧ c ≠ '[' ∧ c ≠ ']' ∧ c ≠ '(' := by
  simp [isNameChar]

theorem IsName.ink {text : List Char} (h : IsName text) : IsInk text :=
  fun c hc => (isNameChar_iff.mp (h.2 c hc)).1

theorem IsName.not_mem {text : List Char} (h : IsName text) {c : Char} (hc : isNameChar c = false) :
    c ∉ text := by
  intro hmem
  rw [h.2 c hmem] at hc
  cases hc

theorem IsName.ne_star {text : List Char} (h : IsName text) : text ≠ star := by
  intro heq
  have hmem : '*' ∈ text := by simp [heq, star]
  exact h.not_mem (by decide) hmem

theorem IsPiece.ne_nil {piece : List Char} (h : IsPiece piece) : piece ≠ [] := by
  obtain rfl | h := h
  · decide
  · exact h.1

theorem IsPiece.ink {piece : List Char} (h : IsPiece piece) : IsInk piece := by
  obtain rfl | h := h
  · intro c hc
    rw [star, List.mem_singleton] at hc
    subst hc
    decide
  · exact h.ink

theorem IsPiece.not_space {piece : List Char} (h : IsPiece piece) : ' ' ∉ piece := by
  intro hmem
  have := h.ink ' ' hmem
  rw [isWhitespace_space] at this
  cases this

theorem isName_of_mem_qualifiers {token : List Char} (h : token ∈ qualifiers) : IsName token := by
  have hall : ∀ token ∈ qualifiers, token ≠ [] ∧ ∀ c ∈ token, isNameChar c = true := by
    decide
  exact hall token h

theorem star_not_mem_qualifiers : star ∉ qualifiers := by decide

theorem starPieces_name {name : List Char} (h : IsName name) : starPieces name = [name] := by
  rw [starPieces, spaceStars_of_not_mem (h.not_mem (by decide)), splitWhitespace_ink h.1 h.ink]

theorem starPieces_piece {piece : List Char} (h : IsPiece piece) : starPieces piece = [piece] := by
  obtain rfl | h := h
  · rfl
  · exact starPieces_name h

theorem starPieces_star_cons {piece : List Char} (h : IsPiece piece) :
    starPieces ('*' :: piece) = [star, piece] := by
  have := starPieces_append [] piece
  rw [List.nil_append, starPieces_piece h] at this
  exact this

/-! ## Reading a text by its pieces -/

@[simp] theorem pieces_nil : pieces [] = [] := rfl

theorem pieces_space (text : List Char) : pieces (' ' :: text) = pieces text := by
  have := splitWhitespace_append isWhitespace_space [] text
  rw [List.nil_append] at this
  rw [pieces, this]
  rfl

theorem pieces_append_space (x y : List Char) : pieces (x ++ ' ' :: y) = pieces x ++ pieces y := by
  simp only [pieces, splitWhitespace_append isWhitespace_space, List.filter_append,
    List.flatMap_append]

theorem pieces_name {name : List Char} (h : IsName name) :
    pieces name = if name ∈ qualifiers then [] else [name] := by
  rw [pieces, splitWhitespace_ink h.1 h.ink]
  by_cases hq : name ∈ qualifiers
  · simp [hq]
  · simp [hq, starPieces_name h]

theorem pieces_star_cons {piece : List Char} (h : IsPiece piece) :
    pieces ('*' :: piece) = [star, piece] := by
  have hink : IsInk ('*' :: piece) := by
    intro c hc
    obtain rfl | hc := List.mem_cons.mp hc
    · decide
    · exact h.ink c hc
  have hq : '*' :: piece ∉ qualifiers := fun hmem =>
    (isName_of_mem_qualifiers hmem).not_mem (by decide) List.mem_cons_self
  rw [pieces, splitWhitespace_ink (List.cons_ne_nil _ _) hink]
  simp [hq, starPieces_star_cons h]

/-! ## What is printed -/

/-- The pieces behind one; `glued` says that a star has taken the space in
front of the first. -/
@[grind =] def joined : Bool → List (List Char) → List Char
  | _, [] => []
  | glued, piece :: rest =>
      (if glued then piece else ' ' :: piece) ++ joined (piece = star && !glued) rest

/-- The pieces that are read again: a qualifier is dropped unless a star has
taken the space in front of it. -/
@[grind =] def settle : Bool → List (List Char) → List (List Char)
  | _, [] => []
  | glued, piece :: rest =>
      if piece ∈ qualifiers && !glued then settle false rest
      else piece :: settle (piece = star && !glued) rest

theorem joinWords_cons (word : List Char) : ∀ words : List (List Char),
    joinWords (word :: words) = word ++ words.flatMap (' ' :: ·)
  | [] => by simp
  | word' :: words => by
      rw [joinWords_cons_cons, joinWords_cons word' words]
      rfl

theorem attachStars_cons {c : Char} (h : c ≠ ' ') (text : List Char) :
    attachStars (c :: text) = c :: attachStars text := by
  rw [attachStars]
  intro rest hrest
  cases hrest
  exact absurd rfl h

theorem attachStars_append {word : List Char} (h : ' ' ∉ word) (text : List Char) :
    attachStars (word ++ text) = word ++ attachStars text := by
  induction word with
  | nil => rfl
  | cons c word ih =>
      rw [List.mem_cons, not_or] at h
      rw [List.cons_append, attachStars_cons (Ne.symm h.1), ih h.2]
      rfl

theorem attachStars_space {c : Char} (h : c ≠ '*') (text : List Char) :
    attachStars (' ' :: c :: text) = ' ' :: attachStars (c :: text) := by
  rw [attachStars]
  intro rest hspace hrest
  cases hrest
  exact h rfl

theorem attachStars_space_name {name : List Char} (h : IsName name) (text : List Char) :
    attachStars (' ' :: (name ++ text)) = ' ' :: (name ++ attachStars text) := by
  obtain ⟨c, name', rfl⟩ := List.exists_cons_of_ne_nil h.1
  have hc : c ≠ '*' := by
    intro heq
    exact h.not_mem (c := '*') (by decide) (heq ▸ List.mem_cons_self)
  rw [← attachStars_append (IsPiece.not_space (.inr h)), List.cons_append, attachStars_space hc]

/-- Spaces are taken from the left: a star takes the one behind it, unless
the one in front of it has been taken already. -/
theorem attachStars_spaced : ∀ {ps : List (List Char)}, (∀ p ∈ ps, IsPiece p) →
    attachStars (ps.flatMap (' ' :: ·)) = joined false ps
  | [], _ => rfl
  | [p], h => by
      obtain rfl | hp := h p List.mem_cons_self
      · rfl
      · have := attachStars_space_name hp []
        simp only [List.append_nil] at this
        simp [joined, this, attachStars]
  | p :: q :: ps, h => by
      have hq := h q (by simp)
      have hps : ∀ r ∈ ps, IsPiece r := fun r hr => h r (by simp [hr])
      obtain rfl | hp := h p List.mem_cons_self
      · have ih := attachStars_spaced hps
        show attachStars (' ' :: '*' :: ' ' :: (q ++ ps.flatMap (' ' :: ·))) = _
        rw [attachStars, attachStars_append hq.not_space, ih]
        simp [joined, star]
      · have hrest : ∀ r ∈ q :: ps, IsPiece r := fun r hr => h r (List.mem_cons_of_mem p hr)
        have ih := attachStars_spaced hrest
        show attachStars (' ' :: (p ++ (q :: ps).flatMap (' ' :: ·))) = _
        rw [attachStars_space_name hp, ih]
        simp [joined, hp.ne_star]

theorem render_cons {p : List Char} {ps : List (List Char)} (hp : IsName p)
    (hps : ∀ q ∈ ps, IsPiece q) : render (p :: ps) = p ++ joined false ps := by
  rw [render, joinWords_cons, attachStars_append (IsPiece.not_space (.inr hp)),
    attachStars_spaced hps]

theorem pieces_append_joined (front : List Char) (ps : List (List Char)) :
    pieces (front ++ joined false ps) = pieces front ++ pieces (joined false ps) := by
  cases ps with
  | nil => simp [joined]
  | cons p ps =>
      show pieces (front ++ ' ' :: _) = _ ++ pieces (' ' :: _)
      rw [pieces_append_space, pieces_space]

/-- Reading what was printed: behind a star that has taken the space, a
qualifier is not a word. -/
theorem pieces_joined : ∀ {ps : List (List Char)}, (∀ p ∈ ps, IsPiece p) →
    pieces (joined false ps) = settle false ps ∧
      pieces ('*' :: joined true ps) = star :: settle true ps
  | [], _ => ⟨rfl, by decide⟩
  | p :: ps, h => by
      have hp := h p List.mem_cons_self
      obtain ⟨ihfree, ihglued⟩ := pieces_joined fun q hq => h q (List.mem_cons_of_mem p hq)
      constructor
      · obtain rfl | hname := hp
        · show pieces (' ' :: ('*' :: joined true ps)) = _
          rw [pieces_space, ihglued]
          simp [settle, star_not_mem_qualifiers]
        · have hne := hname.ne_star
          simp only [joined, settle, hne, Bool.false_eq_true, if_false, decide_false,
            Bool.not_false, Bool.and_true]
          rw [List.cons_append, pieces_space, pieces_append_joined, ihfree, pieces_name hname]
          by_cases hq : p ∈ qualifiers <;> simp [hq]
      · simp only [joined, settle, Bool.not_true, Bool.and_false, if_true]
        rw [← List.cons_append, pieces_append_joined, ihfree, pieces_star_cons hp]
        simp

/-! ## Texts that are printed -/

theorem IsPiece.head_ink {piece : List Char} (h : IsPiece piece) (c : Char)
    (hc : piece.head? = some c) : isWhitespace c = false := h.ink c (List.mem_of_head? hc)

theorem IsPiece.last_ink {piece : List Char} (h : IsPiece piece) (c : Char)
    (hc : piece.getLast? = some c) : isWhitespace c = false := h.ink c (List.mem_of_getLast? hc)

/-- What is printed ends as its last piece does. -/
theorem getLast?_append_joined : ∀ {ps : List (List Char)}, (∀ p ∈ ps, IsPiece p) →
    ∀ (glued : Bool) (front : List Char),
      (front ++ joined glued ps).getLast? = ((front :: ps).getLast (List.cons_ne_nil _ _)).getLast?
  | [], _, _, front => by simp [joined]
  | p :: ps, h, glued, front => by
      have hp := (h p List.mem_cons_self).ne_nil
      have hps : ∀ q ∈ ps, IsPiece q := fun q hq => h q (List.mem_cons_of_mem p hq)
      have ih := getLast?_append_joined hps (p = star && !glued) p
      have hne : (p ++ joined (p = star && !glued) ps) ≠ [] := by simp [hp]
      rw [List.getLast_cons (List.cons_ne_nil p ps), ← ih, joined]
      cases glued with
      | true =>
          rw [if_pos rfl, List.getLast?_append_of_ne_nil _ hne]
      | false =>
          rw [if_neg Bool.false_ne_true, List.cons_append, ← List.singleton_append,
            ← List.append_assoc, List.getLast?_append_of_ne_nil _ hne]

theorem mem_joined : ∀ {ps : List (List Char)} {glued : Bool} {c : Char},
    c ∈ joined glued ps → c = ' ' ∨ ∃ p ∈ ps, c ∈ p
  | [], _, _, h => by cases h
  | p :: ps, glued, c, h => by
      rw [joined, List.mem_append] at h
      obtain h | h := h
      · cases glued with
        | true => exact .inr ⟨p, List.mem_cons_self, h⟩
        | false =>
            obtain h | h := List.mem_cons.mp h
            · exact .inl h
            · exact .inr ⟨p, List.mem_cons_self, h⟩
      · obtain h | ⟨q, hq, hc⟩ := mem_joined h
        · exact .inl h
        · exact .inr ⟨q, List.mem_cons_of_mem p hq, hc⟩

/-- The pieces of a declarator: first a name that is no qualifier, then names
and stars. -/
structure IsDeclarator (ps : List (List Char)) : Prop where
  head : ∀ p ∈ ps.head?, IsName p ∧ p ∉ qualifiers
  piece : ∀ p ∈ ps, IsPiece p

theorem IsDeclarator.cons {p : List Char} {ps : List (List Char)} (h : IsDeclarator (p :: ps)) :
    IsName p ∧ ∀ q ∈ ps, IsPiece q :=
  ⟨(h.head p rfl).1, fun q hq => h.piece q (List.mem_cons_of_mem p hq)⟩

theorem mem_render {ps : List (List Char)} (h : IsDeclarator ps) {c : Char} (hc : c ∈ render ps) :
    c = ' ' ∨ ∃ p ∈ ps, c ∈ p := by
  cases ps with
  | nil => cases hc
  | cons p ps =>
      rw [render_cons h.cons.1 h.cons.2, List.mem_append] at hc
      obtain hc | hc := hc
      · exact .inr ⟨p, List.mem_cons_self, hc⟩
      · obtain hc | ⟨q, hq, hc⟩ := mem_joined hc
        · exact .inl hc
        · exact .inr ⟨q, List.mem_cons_of_mem p hq, hc⟩

theorem getLast?_render {ps : List (List Char)} (h : IsDeclarator ps) (hne : ps ≠ []) :
    (render ps).getLast? = (ps.getLast hne).getLast? := by
  cases ps with
  | nil => exact absurd rfl hne
  | cons p ps => rw [render_cons h.cons.1 h.cons.2, getLast?_append_joined h.cons.2]

theorem trim_render {ps : List (List Char)} (h : IsDeclarator ps) :
    trim (render ps) = render ps := by
  cases ps with
  | nil => rfl
  | cons p ps =>
      apply Runtrace.trim_eq
      · intro c hc
        rw [render_cons h.cons.1 h.cons.2, List.head?_append_of_ne_nil _ h.cons.1.1] at hc
        exact IsPiece.head_ink (.inr h.cons.1) c hc
      · intro c hc
        rw [getLast?_render h (List.cons_ne_nil p ps)] at hc
        exact (h.piece _ (List.getLast_mem _)).last_ink c hc

theorem pieces_render {ps : List (List Char)} (h : IsDeclarator ps) :
    pieces (render ps) = settle false ps := by
  cases ps with
  | nil => rfl
  | cons p ps =>
      rw [render_cons h.cons.1 h.cons.2, pieces_append_joined, pieces_name h.cons.1,
        (pieces_joined h.cons.2).1]
      simp only [settle, h.cons.1.ne_star, decide_false, Bool.not_false, Bool.and_true,
        decide_eq_true_eq]
      split <;> rfl

/-- What is printed is normalized to the pieces that are read again. -/
theorem normalize_render {ps : List (List Char)} (h : IsDeclarator ps) :
    normalize (render ps) = trim (render (settle false ps)) := by
  rw [normalize_eq, pieces_render h]

/-! ## Settled pieces -/

theorem mem_of_mem_settle : ∀ {ps : List (List Char)} {glued : Bool} {p : List Char},
    p ∈ settle glued ps → p ∈ ps
  | [], _, _, h => h
  | q :: ps, glued, p, h => by
      rw [settle] at h
      split at h
      · exact List.mem_cons_of_mem q (mem_of_mem_settle h)
      · obtain rfl | h := List.mem_cons.mp h
        · exact List.mem_cons_self
        · exact List.mem_cons_of_mem q (mem_of_mem_settle h)

/-- Only qualifiers are dropped. -/
theorem filter_settle : ∀ (ps : List (List Char)) (glued : Bool),
    (settle glued ps).filter (fun p => p ∉ qualifiers) = ps.filter fun p => p ∉ qualifiers
  | [], _ => rfl
  | p :: ps, glued => by
      rw [settle]
      split
      · rename_i h
        have hp : p ∈ qualifiers := by simpa using (Bool.and_eq_true_iff.mp h).1
        rw [filter_settle, List.filter_cons_of_neg (by simpa using hp)]
      · rw [List.filter_cons, List.filter_cons, filter_settle]

theorem settle_idem : ∀ (ps : List (List Char)) (glued : Bool),
    settle glued (settle glued ps) = settle glued ps
  | [], _ => rfl
  | p :: ps, glued => by
      rw [settle]
      split
      · rename_i h
        have hglued : glued = false := by simpa using (Bool.and_eq_true_iff.mp h).2
        subst hglued
        exact settle_idem ps false
      · rename_i h
        rw [settle, if_neg h, settle_idem]

theorem settle_append : ∀ (ps qs : List (List Char)) (glued : Bool),
    ∃ glued', settle glued (ps ++ qs) = settle glued ps ++ settle glued' qs
  | [], qs, glued => ⟨glued, rfl⟩
  | p :: ps, qs, glued => by
      rw [List.cons_append, settle, settle]
      split
      · exact settle_append ps qs false
      · obtain ⟨glued', h⟩ := settle_append ps qs (p = star && !glued)
        exact ⟨glued', by rw [h, List.cons_append]⟩

/-- Without a star no qualifier stays. -/
theorem not_mem_qualifiers_of_mem_settle : ∀ {ps : List (List Char)}, star ∉ ps →
    ∀ p ∈ settle false ps, p ∉ qualifiers
  | [], _, _, h => by cases h
  | q :: ps, hstar, p, h => by
      rw [List.mem_cons, not_or] at hstar
      have hq : (decide (q = star) && !false) = false := by simp [Ne.symm hstar.1]
      rw [settle, hq] at h
      split at h
      · exact not_mem_qualifiers_of_mem_settle hstar.2 p h
      · rename_i hkeep
        obtain rfl | h := List.mem_cons.mp h
        · simpa using hkeep
        · exact not_mem_qualifiers_of_mem_settle hstar.2 p h

theorem settle_of_settle_star {ps : List (List Char)}
    (h : settle false (ps ++ [star]) = ps ++ [star]) : settle false ps = ps := by
  obtain ⟨glued, happend⟩ := settle_append ps [star] false
  have hstar : settle glued [star] = [star] := by simp [settle, star_not_mem_qualifiers]
  rw [happend, hstar] at h
  exact List.append_cancel_right h

theorem IsDeclarator.settle {ps : List (List Char)} (h : IsDeclarator ps) :
    IsDeclarator (settle false ps) := by
  refine ⟨?_, fun p hp => h.piece p (mem_of_mem_settle hp)⟩
  cases ps with
  | nil =>
      intro p hp
      cases hp
  | cons p ps =>
      have hp := h.head p rfl
      intro q hq
      rw [TypeModel.settle, if_neg (by simp [hp.2])] at hq
      cases hq
      exact hp

theorem IsDeclarator.left {ps qs : List (List Char)} (h : IsDeclarator (ps ++ qs)) :
    IsDeclarator ps := by
  refine ⟨fun p hp => h.head p ?_, fun p hp => h.piece p (List.mem_append_left qs hp)⟩
  cases ps with
  | nil => cases hp
  | cons q ps => exact hp

/-! ## The base and the stars of a declarator -/

/-- Without its qualifiers, a declarator is the words of its base and `m`
stars. -/
structure Denotes (ps words : List (List Char)) (m : Nat) : Prop where
  declarator : IsDeclarator ps
  base : star ∉ words
  unqualified : ps.filter (fun p => p ∉ qualifiers) = words ++ List.replicate m star

theorem Denotes.settle {ps words : List (List Char)} {m : Nat} (h : Denotes ps words m) :
    Denotes (settle false ps) words m :=
  ⟨h.declarator.settle, h.base, (filter_settle ps false).trans h.unqualified⟩

theorem mem_star_of_mem_replicate {words : List (List Char)} {m : Nat} (h : star ∉ words) :
    star ∈ words ++ List.replicate m star ↔ 0 < m := by
  simp [h, Nat.pos_iff_ne_zero]

theorem Denotes.star_mem_iff {ps words : List (List Char)} {m : Nat} (h : Denotes ps words m) :
    star ∈ ps ↔ 0 < m := by
  have hfilter : star ∈ ps ↔ star ∈ ps.filter fun p => p ∉ qualifiers := by
    simp [star_not_mem_qualifiers]
  rw [hfilter, h.unqualified, mem_star_of_mem_replicate h.base]

/-- The last star taken off. -/
theorem Denotes.star_left {ps words : List (List Char)} {m : Nat}
    (h : Denotes (ps ++ [star]) words m) : ∃ m', m = m' + 1 ∧ Denotes ps words m' := by
  have hpos : 0 < m := h.star_mem_iff.mp (by simp)
  obtain ⟨m', rfl⟩ := Nat.exists_eq_succ_of_ne_zero hpos.ne'
  have hfilter := h.unqualified
  have hstar : [star].filter (fun p => p ∉ qualifiers) = [star] := by
    simp [star_not_mem_qualifiers]
  rw [List.filter_append, hstar, List.replicate_succ', ← List.append_assoc] at hfilter
  exact ⟨m', rfl, h.declarator.left, h.base, List.append_cancel_right hfilter⟩

/-- A declarator that ends in a word of its base has no star. -/
theorem Denotes.name_last {ps words : List (List Char)} {m : Nat} {p : List Char}
    (h : Denotes (ps ++ [p]) words m) (hstar : p ≠ star) (hq : p ∉ qualifiers) : m = 0 := by
  have hfilter := h.unqualified
  have hp : [p].filter (fun p => p ∉ qualifiers) = [p] := by simp [hq]
  rw [List.filter_append, hp] at hfilter
  cases m with
  | zero => rfl
  | succ m =>
      rw [List.replicate_succ', ← List.append_assoc] at hfilter
      have hlast := List.append_inj_right' hfilter rfl
      exact absurd (List.cons.inj hlast).1 hstar

/-- Behind the first star there are only stars and qualifiers. -/
theorem Denotes.behind_star {ps qs words : List (List Char)} {m : Nat}
    (h : Denotes (ps ++ star :: qs) words m) (hps : star ∉ ps) :
    ∀ q ∈ qs, q = star ∨ q ∈ qualifiers := by
  intro q hq
  by_cases hqual : q ∈ qualifiers
  · exact .inr hqual
  left
  have hdrop := congrArg (List.dropWhile (· ≠ star)) h.unqualified
  have hfree : ∀ xs : List (List Char), star ∉ xs → ∀ ys,
      (xs ++ ys).dropWhile (· ≠ star) = ys.dropWhile (· ≠ star) := by
    intro xs hxs ys
    apply List.dropWhile_append_of_pos
    intro x hx
    simp only [ne_eq, decide_not, Bool.not_eq_true', decide_eq_false_iff_not]
    rintro rfl
    exact hxs hx
  have hstar : ∀ xs : List (List Char), (star :: xs).dropWhile (· ≠ star) = star :: xs := by
    intro xs
    exact List.dropWhile_cons_of_neg (by simp)
  rw [List.filter_append, List.filter_cons_of_pos (by simpa using star_not_mem_qualifiers),
    hfree _ (fun hmem => hps (List.mem_of_mem_filter hmem)), hfree _ h.base, hstar] at hdrop
  have hmem : q ∈ star :: qs.filter fun p => p ∉ qualifiers :=
    List.mem_cons_of_mem _ (List.mem_filter.mpr ⟨hq, by simpa using hqual⟩)
  rw [hdrop] at hmem
  exact List.eq_of_mem_replicate ((List.dropWhile_suffix _).subset hmem)

/-! ## Taking what is printed apart -/

theorem joined_append : ∀ (ps qs : List (List Char)) (glued : Bool),
    ∃ glued', joined glued (ps ++ qs) = joined glued ps ++ joined glued' qs
  | [], qs, glued => ⟨glued, rfl⟩
  | p :: ps, qs, glued => by
      obtain ⟨glued', h⟩ := joined_append ps qs (p = star && !glued)
      exact ⟨glued', by rw [List.cons_append, joined, joined, h, List.append_assoc]⟩

theorem stripEnd_concat (c : Char) (text : List Char) : stripEnd [c] (text ++ [c]) = some text := by
  simp [stripEnd]

theorem stripEnd_eq_none {c : Char} {text : List Char} (h : text.getLast? ≠ some c) :
    stripEnd [c] text = none := by
  rw [stripEnd, if_neg]
  rintro ⟨front, rfl⟩
  exact h List.getLast?_concat

theorem trimEnd_append_space (text : List Char) : trimEnd (text ++ [' ']) = trimEnd text := by
  simp [trimEnd, isWhitespace_space]

theorem trimEnd_eq {text : List Char}
    (h : ∀ c, text.getLast? = some c → isWhitespace c = false) : trimEnd text = text := by
  cases htext : text.reverse with
  | nil => simp [List.reverse_eq_nil_iff.mp htext, trimEnd]
  | cons c rest =>
      have hc := h c (by rw [← List.head?_reverse, htext]; rfl)
      rw [trimEnd, htext, List.dropWhile_cons_of_neg (by simp [hc]), ← htext, List.reverse_reverse]

theorem trimEnd_render {ps : List (List Char)} (h : IsDeclarator ps) :
    trimEnd (render ps) = render ps := by
  apply trimEnd_eq
  intro c hc
  cases ps with
  | nil => cases hc
  | cons p ps =>
      rw [getLast?_render h (List.cons_ne_nil p ps)] at hc
      exact (h.piece _ (List.getLast_mem _)).last_ink c hc

/-- Taking the last star off what is printed. -/
theorem strip_render {ps : List (List Char)} (h : IsDeclarator (ps ++ [star])) :
    ∃ base, stripEnd ['*'] (render (ps ++ [star])) = some base ∧ trimEnd base = render ps := by
  cases ps with
  | nil => exact absurd rfl (h.head star rfl).1.ne_star
  | cons p ps =>
      have hleft := h.left
      obtain ⟨glued, happend⟩ := joined_append ps [star] false
      have hrender : render (p :: ps ++ [star]) = render (p :: ps) ++ joined glued [star] := by
        rw [List.cons_append] at h ⊢
        rw [render_cons h.cons.1 h.cons.2, happend, ← List.append_assoc,
          ← render_cons hleft.cons.1 hleft.cons.2]
      rw [hrender]
      cases glued with
      | true =>
          exact ⟨render (p :: ps), stripEnd_concat '*' _, trimEnd_render hleft⟩
      | false =>
          refine ⟨render (p :: ps) ++ [' '], ?_, ?_⟩
          · have hspace : render (p :: ps) ++ joined false [star]
                = (render (p :: ps) ++ [' ']) ++ ['*'] := by simp [joined, star]
            rw [hspace, stripEnd_concat]
          · rw [trimEnd_append_space, trimEnd_render hleft]

theorem splitArray_eq_none {text : List Char} (h : '[' ∉ text) : splitArray text = none := by
  have hdrop : text.dropWhile (· ≠ '[') = [] := by
    rw [List.dropWhile_eq_nil_iff]
    intro c hc
    simp only [ne_eq, decide_not, Bool.not_eq_true', decide_eq_false_iff_not]
    rintro rfl
    exact h hc
  rw [splitArray, hdrop]

theorem functionPointerDeclarator_eq_false : ∀ {text : List Char}, '(' ∉ text →
    functionPointerDeclarator text = false
  | [], _ => rfl
  | c :: text, h => by
      rw [List.mem_cons, not_or] at h
      rw [functionPointerDeclarator, functionPointerDeclarator_eq_false h.2]
      exact fun heq => h.1 heq.symm

theorem IsPiece.not_mem_open {p : List Char} (h : IsPiece p) {c : Char}
    (hc : isNameChar c = false) (hstar : c ≠ '*') : c ∉ p := by
  obtain rfl | h := h
  · simpa [star] using hstar
  · exact h.not_mem hc

theorem not_mem_render {ps : List (List Char)} (h : IsDeclarator ps) {c : Char}
    (hc : isNameChar c = false) (hstar : c ≠ '*') (hspace : c ≠ ' ') : c ∉ render ps := by
  intro hmem
  obtain hmem | ⟨p, hp, hmem⟩ := mem_render h hmem
  · exact hspace hmem
  · exact (h.piece p hp).not_mem_open hc hstar hmem

theorem splitArray_render {ps : List (List Char)} (h : IsDeclarator ps) :
    splitArray (render ps) = none :=
  splitArray_eq_none (not_mem_render h (by decide) (by decide) (by decide))

theorem stripEnd_render {ps : List (List Char)} {p : List Char} (h : IsDeclarator (ps ++ [p]))
    (hp : p ≠ star) : stripEnd ['*'] (render (ps ++ [p])) = none := by
  apply stripEnd_eq_none
  rw [getLast?_render h (by simp), List.getLast_concat]
  intro hlast
  have hname := (h.piece p (by simp)).resolve_left hp
  exact hname.not_mem (c := '*') (by decide) (List.mem_of_getLast? hlast)

theorem attachStars_of_not_mem {text : List Char} (h : '*' ∉ text) : attachStars text = text := by
  induction text with
  | nil => rfl
  | cons c text ih =>
      rw [List.mem_cons, not_or] at h
      rw [attachStars, ih h.2]
      intro rest _ hrest
      rw [hrest] at h
      exact h.2 List.mem_cons_self

theorem mem_joinWords {c : Char} {words : List (List Char)} (h : c ∈ joinWords words) :
    c = ' ' ∨ ∃ w ∈ words, c ∈ w := by
  cases words with
  | nil => cases h
  | cons word words =>
      rw [joinWords_cons, List.mem_append, List.mem_flatMap] at h
      obtain h | ⟨w, hw, h⟩ := h
      · exact .inr ⟨word, List.mem_cons_self, h⟩
      · obtain h | h := List.mem_cons.mp h
        · exact .inl h
        · exact .inr ⟨w, List.mem_cons_of_mem word hw, h⟩

theorem render_words {words : List (List Char)} (h : ∀ w ∈ words, IsName w) :
    render words = joinWords words := by
  apply attachStars_of_not_mem
  intro hmem
  obtain hmem | ⟨w, hw, hmem⟩ := mem_joinWords hmem
  · cases hmem
  · exact (h w hw).not_mem (by decide) hmem

/-- The text of a declarator with a star in it, cut at its first star. -/
theorem render_at_star {ps qs : List (List Char)} (h : IsDeclarator (ps ++ star :: qs)) :
    ∃ front glued, render (ps ++ star :: qs) = front ++ '*' :: joined glued qs := by
  cases ps with
  | nil => exact absurd rfl (h.head star rfl).1.ne_star
  | cons p ps =>
      obtain ⟨glued, happend⟩ := joined_append ps (star :: qs) false
      rw [List.cons_append] at h ⊢
      rw [render_cons h.cons.1 h.cons.2, happend]
      cases glued with
      | true => exact ⟨p ++ joined false ps, false, by simp [joined, star]⟩
      | false => exact ⟨p ++ joined false ps ++ [' '], true, by simp [joined, star]⟩

theorem not_mem_joined {qs : List (List Char)} {c : Char} (hspace : c ≠ ' ')
    (h : ∀ q ∈ qs, c ∉ q) (glued : Bool) : c ∉ joined glued qs := by
  intro hmem
  obtain hmem | ⟨q, hq, hmem⟩ := mem_joined hmem
  · exact hspace hmem
  · exact h q hq hmem

/-- Only a name by itself prints as that name. -/
theorem render_eq_name {ps : List (List Char)} (h : IsDeclarator ps) {name : List Char}
    (hname : IsName name) : render ps = name ↔ ps = [name] := by
  constructor
  · intro heq
    cases ps with
    | nil => exact absurd heq.symm hname.1
    | cons p ps =>
        rw [render_cons h.cons.1 h.cons.2] at heq
        cases ps with
        | nil =>
            rw [joined, List.append_nil] at heq
            rw [heq]
        | cons q qs =>
            have hspace : ' ' ∈ name := by
              rw [← heq]
              simp [joined]
            exact absurd hspace (IsPiece.not_space (.inr hname))
  · rintro rfl
    rw [render_cons hname (by simp), joined, List.append_nil]

/-! ## Texts with a bracket in them -/

theorem joinWords_append_cons (x y : List Char) (after : List (List Char)) :
    ∀ before : List (List Char), joinWords (before ++ (x ++ y) :: after)
      = joinWords (before ++ [x]) ++ joinWords (y :: after)
  | [] => by
      rw [List.nil_append, List.nil_append, joinWords_singleton, joinWords_cons, joinWords_cons,
        List.append_assoc]
  | [word] => by
      have ih := joinWords_append_cons x y after []
      rw [List.nil_append, List.nil_append] at ih
      simp only [List.cons_append, List.nil_append]
      rw [joinWords_cons_cons, joinWords_cons_cons, ih]
      simp
  | word :: word' :: before => by
      have ih := joinWords_append_cons x y after (word' :: before)
      simp only [List.cons_append] at ih ⊢
      rw [joinWords_cons_cons, joinWords_cons_cons, ih]
      simp

theorem mem_attachStars {c : Char} : ∀ {text : List Char}, c ∈ attachStars text → c ∈ text
  | d :: text, h => by
      by_cases hpattern : ∃ rest, d = ' ' ∧ text = '*' :: ' ' :: rest
      · obtain ⟨rest, rfl, rfl⟩ := hpattern
        rw [attachStars] at h
        simp only [List.mem_cons] at h ⊢
        obtain h | h | h := h
        · exact .inl h
        · exact .inr (.inl h)
        · exact .inr (.inr (.inr (mem_attachStars h)))
      · rw [attachStars] at h
        · obtain rfl | h := List.mem_cons.mp h
          · exact List.mem_cons_self
          · exact List.mem_cons_of_mem d (mem_attachStars h)
        · intro rest hd htext
          exact hpattern ⟨rest, hd, htext⟩

theorem joinWords_modifyHead (c : Char) {words : List (List Char)} (h : words ≠ []) :
    joinWords (words.modifyHead (c :: ·)) = c :: joinWords words := by
  obtain ⟨word, words, rfl⟩ := List.exists_cons_of_ne_nil h
  rw [List.modifyHead_cons, joinWords_cons, joinWords_cons, List.cons_append]

theorem splitWhitespace_cons_space {c : Char} (hc : isWhitespace c = true) (text : List Char) :
    splitWhitespace (c :: text) = splitWhitespace text := by
  have := splitWhitespace_append hc [] text
  rwa [List.nil_append] at this

theorem splitWhitespace_cons_ne_nil {c : Char} (hc : isWhitespace c = false) (text : List Char) :
    splitWhitespace (c :: text) ≠ [] := by
  cases text with
  | nil =>
      rw [splitWhitespace_ink (List.cons_ne_nil c []) (by simpa [IsInk] using hc)]
      exact List.cons_ne_nil _ _
  | cons d text =>
      cases hd : isWhitespace d with
      | true =>
          have := splitWhitespace_append hd [c] text
          rw [List.singleton_append] at this
          rw [this, splitWhitespace_ink (List.cons_ne_nil c []) (by simpa [IsInk] using hc)]
          exact List.cons_ne_nil _ _
      | false =>
          rw [splitWhitespace_cons_ink hc hd]
          intro hnil
          have hsome := splitWhitespace_cons_ne_nil hd text
          cases hsplit : splitWhitespace (d :: text) with
          | nil => exact hsome hsplit
          | cons word words => simp [hsplit] at hnil

theorem splitWhitespace_ne_nil {c : Char} (hc : isWhitespace c = false) : ∀ {text : List Char},
    c ∈ text → splitWhitespace text ≠ []
  | d :: text, h => by
      cases hd : isWhitespace d with
      | false => exact splitWhitespace_cons_ne_nil hd text
      | true =>
          rw [splitWhitespace_cons_space hd]
          refine splitWhitespace_ne_nil hc ((List.mem_cons.mp h).resolve_left ?_)
          rintro rfl
          rw [hc] at hd
          cases hd

theorem joinWords_cons_ne_nil (word : List Char) {words : List (List Char)} (h : words ≠ []) :
    joinWords (word :: words) = word ++ ' ' :: joinWords words := by
  obtain ⟨word', words, rfl⟩ := List.exists_cons_of_ne_nil h
  exact joinWords_cons_cons word word' words

/-- The words of a text, joined again: up to a visible character, and from it on. -/
theorem joinWords_splitWhitespace_append {d : Char} (hd : isWhitespace d = false)
    (text : List Char) : ∀ front : List Char, ∃ gap, (gap = [] ∨ gap = [' ']) ∧
      (splitWhitespace front = [] → gap = []) ∧
      joinWords (splitWhitespace (front ++ d :: text))
        = joinWords (splitWhitespace front) ++ gap ++ joinWords (splitWhitespace (d :: text))
  | [] => ⟨[], .inl rfl, fun _ => rfl, rfl⟩
  | [c] => by
      refine ⟨[], .inl rfl, fun _ => rfl, ?_⟩
      cases hc : isWhitespace c with
      | true =>
          rw [List.singleton_append, splitWhitespace_cons_space hc, splitWhitespace_cons_space hc]
          rfl
      | false =>
          rw [List.singleton_append, splitWhitespace_cons_ink hc hd,
            joinWords_modifyHead c (splitWhitespace_cons_ne_nil hd text),
            splitWhitespace_ink (List.cons_ne_nil c []) (by simpa [IsInk] using hc)]
          simp
  | c :: e :: front => by
      cases hc : isWhitespace c with
      | true =>
          obtain ⟨gap, hgap, hnil, hjoin⟩ :=
            joinWords_splitWhitespace_append hd text (e :: front)
          rw [List.cons_append, splitWhitespace_cons_space hc, splitWhitespace_cons_space hc]
          exact ⟨gap, hgap, hnil, hjoin⟩
      | false =>
          have hne := splitWhitespace_cons_ne_nil hc (e :: front)
          cases he : isWhitespace e with
          | false =>
              obtain ⟨gap, hgap, -, hjoin⟩ :=
                joinWords_splitWhitespace_append hd text (e :: front)
              refine ⟨gap, hgap, fun h => absurd h hne, ?_⟩
              rw [List.cons_append] at hjoin
              rw [List.cons_append, List.cons_append, splitWhitespace_cons_ink hc he,
                splitWhitespace_cons_ink hc he,
                joinWords_modifyHead c (splitWhitespace_cons_ne_nil he _),
                joinWords_modifyHead c (splitWhitespace_cons_ne_nil he _), hjoin]
              rfl
          | true =>
              obtain ⟨gap, hgap, hnil, hjoin⟩ := joinWords_splitWhitespace_append hd text front
              have hsplit : ∀ rest, splitWhitespace (c :: e :: rest)
                  = [c] :: splitWhitespace rest := by
                intro rest
                have := splitWhitespace_append he [c] rest
                rwa [splitWhitespace_ink (List.cons_ne_nil c [])
                  (by simpa [IsInk] using hc)] at this
              have hbehind : splitWhitespace (front ++ d :: text) ≠ [] :=
                splitWhitespace_ne_nil hd (by simp)
              rw [List.cons_append, List.cons_append, hsplit, hsplit,
                joinWords_cons_ne_nil [c] hbehind, hjoin]
              by_cases hfront : splitWhitespace front = []
              · refine ⟨[' '], .inr rfl, fun h => (by cases h), ?_⟩
                simp [hfront, hnil hfront]
              · refine ⟨gap, hgap, fun h => (by cases h), ?_⟩
                rw [joinWords_cons_ne_nil [c] hfront]
                simp

theorem attachStars_append_cons {d : Char} (hspace : d ≠ ' ') (hstar : d ≠ '*') (text : List Char) :
    ∀ front : List Char,
      attachStars (front ++ d :: text) = attachStars front ++ attachStars (d :: text)
  | [] => rfl
  | c :: front => by
      by_cases hpattern : ∃ rest, c = ' ' ∧ front = '*' :: ' ' :: rest
      · obtain ⟨rest, rfl, rfl⟩ := hpattern
        have ih := attachStars_append_cons hspace hstar text rest
        simp only [List.cons_append]
        rw [attachStars, attachStars, ih]
        rfl
      · have ih := attachStars_append_cons hspace hstar text front
        have hleft : attachStars (c :: front) = c :: attachStars front := by
          rw [attachStars]
          intro rest hc hfront
          exact hpattern ⟨rest, hc, hfront⟩
        have hright :
            attachStars (c :: (front ++ d :: text)) = c :: attachStars (front ++ d :: text) := by
          rw [attachStars]
          intro rest hc hfront
          match front with
          | [] => exact hstar (List.cons.inj hfront).1
          | [e] =>
              have hd := (List.cons.inj (List.cons.inj hfront).2).1
              exact hspace hd
          | e :: e' :: front =>
              obtain ⟨rfl, hrest⟩ := List.cons.inj hfront
              obtain ⟨rfl, -⟩ := List.cons.inj hrest
              exact hpattern ⟨front, hc, rfl⟩
        rw [List.cons_append, hleft, hright, ih]
        rfl

/-- A space at the end is taken by a star, or stays. -/
theorem attachStars_concat_space : ∀ text : List Char,
    attachStars (text ++ [' ']) = attachStars text ∨
      attachStars (text ++ [' ']) = attachStars text ++ [' ']
  | [] => .inr rfl
  | c :: text => by
      by_cases hpattern : ∃ rest, c = ' ' ∧ text = '*' :: ' ' :: rest
      · obtain ⟨rest, rfl, rfl⟩ := hpattern
        simp only [List.cons_append]
        rw [attachStars, attachStars]
        obtain h | h := attachStars_concat_space rest
        · exact .inl (by rw [h])
        · exact .inr (by rw [h]; rfl)
      by_cases hlast : c = ' ' ∧ text = ['*']
      · obtain ⟨rfl, rfl⟩ := hlast
        exact .inl rfl
      have hleft : attachStars (c :: text) = c :: attachStars text := by
        rw [attachStars]
        intro rest hc htext
        exact hpattern ⟨rest, hc, htext⟩
      have hright : attachStars (c :: (text ++ [' '])) = c :: attachStars (text ++ [' ']) := by
        rw [attachStars]
        intro rest hc htext
        match text with
        | [] => cases htext
        | [e] => exact hlast ⟨hc, by rw [(List.cons.inj htext).1]⟩
        | e :: e' :: text =>
            obtain ⟨rfl, hrest⟩ := List.cons.inj htext
            obtain ⟨rfl, -⟩ := List.cons.inj hrest
            exact hpattern ⟨text, hc, rfl⟩
      rw [List.cons_append, hleft, hright]
      obtain h | h := attachStars_concat_space text
      · exact .inl (by rw [h])
      · exact .inr (by rw [h]; rfl)

theorem trimEnd_attachStars_gap {gap : List Char} (hgap : gap = [] ∨ gap = [' '])
    (text : List Char) :
    trimEnd (attachStars (text ++ gap)) = trimEnd (attachStars text) := by
  obtain rfl | rfl := hgap
  · rw [List.append_nil]
  · obtain h | h := attachStars_concat_space text
    · rw [h]
    · rw [h, trimEnd_append_space]

theorem getLast?_joinWords : ∀ {words : List (List Char)}, (∀ w ∈ words, w ≠ []) →
    (joinWords words).getLast? = words.flatten.getLast?
  | [], _ => rfl
  | [word], _ => by simp
  | word :: word' :: words, h => by
      have ih := getLast?_joinWords fun w hw => h w (List.mem_cons_of_mem word hw)
      have hword' : word' ≠ [] := h word' (by simp)
      have hflat : (word' :: words).flatten ≠ [] := by simp [hword']
      have hjoin : joinWords (word' :: words) ≠ [] := by
        rw [joinWords_cons]
        simp [hword']
      rw [joinWords_cons_cons, List.getLast?_append_of_ne_nil _ (List.cons_ne_nil _ _),
        ← List.singleton_append, List.getLast?_append_of_ne_nil _ hjoin, ih,
        ← List.getLast?_append_of_ne_nil word hflat]
      rfl

/-! ## Scopes -/

theorem afterColons_eq_none : ∀ {text : List Char}, ':' ∉ text → afterColons text = none
  | [], _ => rfl
  | c :: text, h => by
      rw [List.mem_cons, not_or] at h
      rw [afterColons, afterColons_eq_none h.2]
      intro rest heq
      exact absurd heq.symm h.1

/-- What is behind the last scope has all that no scope is behind. -/
theorem mem_afterColons {c : Char} (hc : c ≠ ':') {tail : List Char} (htail : ':' ∉ tail) :
    ∀ (front leaf : List Char), afterColons (front ++ c :: tail) = some leaf → c ∈ leaf := by
  intro front
  induction front with
  | nil =>
      intro leaf h
      have hnone : afterColons (c :: tail) = none :=
        afterColons_eq_none (by simp [hc.symm, htail])
      rw [List.nil_append, hnone] at h
      cases h
  | cons d front ih =>
      intro leaf h
      obtain ⟨e, rest, hrest⟩ : ∃ e rest, front ++ c :: tail = e :: rest := by
        cases front <;> exact ⟨_, _, rfl⟩
      rw [List.cons_append] at h
      rw [hrest] at h ih
      by_cases hcolons : d = ':' ∧ e = ':'
      · obtain ⟨rfl, rfl⟩ := hcolons
        rw [afterColons] at h
        cases hlater : afterColons (':' :: rest) with
        | some later =>
            rw [hlater] at h
            cases h
            exact ih _ hlater
        | none =>
            rw [hlater] at h
            have hmem : c ∈ ':' :: rest := hrest ▸ by simp
            rw [← Option.some.inj h]
            exact (List.mem_cons.mp hmem).resolve_left hc
      · rw [afterColons] at h
        · exact ih _ h
        · intro rest' hd he
          cases he
          exact hcolons ⟨hd, rfl⟩

theorem mem_of_mem_afterColons : ∀ (text leaf : List Char), afterColons text = some leaf →
    ∀ c ∈ leaf, c ∈ text := by
  intro text
  induction text with
  | nil => intro leaf h; cases h
  | cons d text ih =>
      intro leaf h c hc
      by_cases hcolons : ∃ rest, d = ':' ∧ text = ':' :: rest
      · obtain ⟨rest, rfl, rfl⟩ := hcolons
        rw [afterColons] at h
        cases hlater : afterColons (':' :: rest) with
        | some later =>
            rw [hlater] at h
            cases h
            exact List.mem_cons_of_mem _ (ih _ hlater c hc)
        | none =>
            rw [hlater] at h
            cases h
            exact List.mem_cons_of_mem _ (List.mem_cons_of_mem _ hc)
      · rw [afterColons] at h
        · exact List.mem_cons_of_mem _ (ih _ h c hc)
        · intro rest hd htext
          exact hcolons ⟨rest, hd, htext⟩

theorem mem_dropWhile {p : Char → Bool} {c : Char} (hc : p c = false) {text : List Char}
    (h : c ∈ text) : c ∈ text.dropWhile p := by
  rw [← List.takeWhile_append_dropWhile (p := p) (l := text), List.mem_append] at h
  obtain h | h := h
  · rw [List.mem_takeWhile_imp h] at hc
    cases hc
  · exact h

theorem mem_trim {c : Char} (hc : isWhitespace c = false) {text : List Char} (h : c ∈ text) :
    c ∈ trim text := by
  rw [trim, List.mem_reverse]
  exact mem_dropWhile hc (List.mem_reverse.mpr (mem_dropWhile hc h))

end GovFuzz.TypeModel
