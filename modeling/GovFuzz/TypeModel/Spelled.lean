import GovFuzz.TypeModel.Declarator
import Mathlib.Data.List.Chain

/-!
# TypeModel — spelled types

A C type as it is written: the words of its base with qualifiers among them,
its pointers with theirs, its array lengths, and whitespace between the
tokens.  A qualifier is erased where whitespace sets it off on both sides.
-/

namespace GovFuzz.TypeModel

open GovFuzz.Runtrace (isWhitespace trim)
open GovFuzz.Cli (parseUsize)

/-! ## Tokens and their spacing -/

/-- A token of a declaration. -/
inductive Token where
  | word (text : List Char)
  | star
  | openBracket
  | number (n : Nat)
  | closeBracket
  deriving DecidableEq

/-- The token as it is written. -/
@[grind =] def Token.text : Token → List Char
  | .word text => text
  | .star => TypeModel.star
  | .openBracket => ['[']
  | .number n => Nat.toDigits 10 n
  | .closeBracket => [']']

/-- The token is a word. -/
def Token.isWord : Token → Bool
  | .word _ => true
  | _ => false

/-- The token is a qualifier. -/
@[grind =] def Token.isQualifier : Token → Bool
  | .word text => text ∈ qualifiers
  | _ => false

/-- Each token with the whitespace in front of it. -/
abbrev Spaced := List (List Char × Token)

/-- The tokens and the blanks between them. -/
@[grind =] def Spaced.text (spaced : Spaced) (trailing : List Char) : List Char :=
  spaced.flatMap (fun entry => entry.1 ++ entry.2.text) ++ trailing

/-- The runs of tokens without whitespace in them. -/
@[grind =] def chunks : Spaced → List (List Token)
  | [] => []
  | entry :: rest =>
      match rest with
      | [] => [[entry.2]]
      | next :: _ =>
          if next.1 = [] then (chunks rest).modifyHead (entry.2 :: ·)
          else [entry.2] :: chunks rest

/-- The text of tokens without blanks between them. -/
@[grind =] def chunkText (chunk : List Token) : List Char := chunk.flatMap Token.text

/-- A qualifier that stands alone. -/
@[grind =] def loneQualifier : List Token → Bool
  | [token] => token.isQualifier
  | _ => false

/-- The tokens that are left when the qualifiers set off by whitespace are gone. -/
@[grind =] def survivors (spaced : Spaced) : List Token :=
  ((chunks spaced).filter fun chunk => !loneQualifier chunk).flatten

/-- An opening bracket. -/
def isOpen : Token → Bool
  | .openBracket => true
  | _ => false

/-- The tokens of array dimensions. -/
@[grind =] def dimTokens (dims : List Nat) : List Token :=
  dims.flatMap fun n => [.openBracket, .number n, .closeBracket]

/-- A declaration in one of its spellings. -/
structure Spelled where
  specifiers : List (List Char)
  pointers : List (List (List Char))
  dims : List Nat
  spaced : Spaced
  trailing : List Char
  tokens_eq : spaced.map Prod.snd = specifiers.map .word
    ++ pointers.flatMap (fun quals => .star :: quals.map .word) ++ dimTokens dims
  names : ∀ w ∈ specifiers, IsName w
  base : ∃ w ∈ specifiers, w ∉ qualifiers
  quals : ∀ quals ∈ pointers, ∀ q ∈ quals, q ∈ qualifiers
  lens : ∀ n ∈ dims, n < 2 ^ 64
  gaps : ∀ entry ∈ spaced, IsGap entry.1
  trailing_gap : IsGap trailing
  /-- Words do not run into each other. -/
  apart : spaced.IsChain fun a b => a.2.isWord = true → b.2.isWord = true → b.1 ≠ []

namespace Spelled

/-- The declaration as it is spelled. -/
@[grind =] def text (s : Spelled) : List Char := s.spaced.text s.trailing

/-- The words that name the type. -/
def baseWords (s : Spelled) : List (List Char) := s.specifiers.filter fun w => w ∉ qualifiers

/-- The type that is spelled, its qualifiers erased. -/
def type (s : Spelled) : CType :=
  s.dims.foldr (fun n elem => .array elem n) ((CType.name s.baseWords).pointers s.pointers.length)

/-- What is left of the base and the pointers. -/
@[grind =] def declarator (s : Spelled) : List (List Char) :=
  ((survivors s.spaced).takeWhile fun token => !isOpen token).map Token.text

end Spelled

/-! ## The words of a spelled text -/

theorem Token.text_ink {token : Token} (h : ∀ w, token = .word w → IsName w) :
    token.text ≠ [] ∧ IsInk token.text := by
  cases token with
  | word w =>
      have hname := h w rfl
      exact ⟨hname.1, hname.ink⟩
  | star => exact ⟨by decide, IsPiece.ink (.inl rfl)⟩
  | openBracket =>
      refine ⟨by decide, fun c hc => ?_⟩
      obtain rfl := List.mem_singleton.mp hc
      decide
  | closeBracket =>
      refine ⟨by decide, fun c hc => ?_⟩
      obtain rfl := List.mem_singleton.mp hc
      decide
  | number n =>
      refine ⟨Nat.toDigits_ne_nil, fun c hc => ?_⟩
      exact Runtrace.not_isWhitespace_digit
        (Nat.isDigit_of_mem_toDigits (by omega) (by omega) hc)

theorem chunks_flatten : ∀ spaced : Spaced, (chunks spaced).flatten = spaced.map Prod.snd
  | [] => rfl
  | [entry] => rfl
  | entry :: next :: rest => by
      have ih := chunks_flatten (next :: rest)
      rw [chunks, List.map_cons, ← ih]
      split
      · cases hchunks : chunks (next :: rest) with
        | nil =>
            rw [hchunks] at ih
            cases ih
        | cons chunk more => rfl
      · rfl

theorem chunk_ne_nil : ∀ spaced : Spaced, ∀ chunk ∈ chunks spaced, chunk ≠ []
  | [], _, h => by cases h
  | [entry], chunk, h => by
      obtain rfl := List.mem_singleton.mp h
      exact List.cons_ne_nil _ _
  | entry :: next :: rest, chunk, h => by
      have ih := chunk_ne_nil (next :: rest)
      rw [chunks] at h
      split at h
      · cases hchunks : chunks (next :: rest) with
        | nil =>
            rw [hchunks] at h
            cases h
        | cons first more =>
            rw [hchunks] at h ih
            obtain rfl | h := List.mem_cons.mp h
            · exact List.cons_ne_nil _ _
            · exact ih chunk (List.mem_cons_of_mem first h)
      · obtain rfl | h := List.mem_cons.mp h
        · exact List.cons_ne_nil _ _
        · exact ih chunk h

/-- The words of a text are its chunks. -/
theorem splitWhitespace_spaced {trailing : List Char} (htrailing : IsGap trailing) :
    ∀ spaced : Spaced, (∀ entry ∈ spaced, IsGap entry.1) →
      (∀ entry ∈ spaced, ∀ w, entry.2 = .word w → IsName w) →
      splitWhitespace (spaced.text trailing) = (chunks spaced).map chunkText
  | [], _, _ => by
      have := splitWhitespace_gap htrailing []
      rw [List.append_nil] at this
      exact this
  | [entry], hgaps, hnames => by
      obtain ⟨hne, hink⟩ := Token.text_ink (hnames entry List.mem_cons_self)
      have htext : Spaced.text [entry] trailing = entry.1 ++ (entry.2.text ++ trailing) := by
        simp [Spaced.text]
      rw [htext, splitWhitespace_gap (hgaps entry List.mem_cons_self)]
      by_cases htrail : trailing = []
      · rw [htrail, List.append_nil, splitWhitespace_ink hne hink]
        simp [chunks, chunkText]
      · have hsplit := splitWhitespace_append_gap htrail htrailing entry.2.text []
        rw [List.append_nil] at hsplit
        rw [hsplit, splitWhitespace_ink hne hink]
        simp [chunks, chunkText]
  | entry :: next :: rest, hgaps, hnames => by
      obtain ⟨hne, hink⟩ := Token.text_ink (hnames entry List.mem_cons_self)
      obtain ⟨hnextNe, hnextInk⟩ := Token.text_ink (hnames next (by simp))
      have ih := splitWhitespace_spaced htrailing (next :: rest)
        (fun e he => hgaps e (List.mem_cons_of_mem entry he))
        (fun e he => hnames e (List.mem_cons_of_mem entry he))
      have htext : Spaced.text (entry :: next :: rest) trailing
          = entry.1 ++ (entry.2.text ++ Spaced.text (next :: rest) trailing) := by
        simp [Spaced.text]
      have hnext : Spaced.text (next :: rest) trailing
          = next.1 ++ (next.2.text ++ Spaced.text rest trailing) := by
        simp [Spaced.text]
      rw [htext, splitWhitespace_gap (hgaps entry List.mem_cons_self), chunks]
      by_cases hglued : next.1 = []
      · obtain ⟨d, text, hd⟩ := List.exists_cons_of_ne_nil hnextNe
        have hdInk : isWhitespace d = false := hnextInk d (by simp [hd])
        rw [hglued, List.nil_append, hd, List.cons_append] at hnext
        rw [hnext] at ih
        rw [if_pos hglued, hnext, splitWhitespace_ink_append hdInk _ hink, ih]
        cases chunks (next :: rest) with
        | nil => rfl
        | cons chunk more => simp [chunkText]
      · rw [if_neg hglued, hnext, splitWhitespace_append_gap hglued (hgaps next (by simp)),
          splitWhitespace_ink hne hink]
        rw [hnext, splitWhitespace_gap (hgaps next (by simp))] at ih
        rw [ih]
        simp [chunkText]

/-! ## Qualifiers that stand alone -/

theorem chunks_cons : ∀ (entry : List Char × Token) (rest : Spaced),
    ∃ tail more, chunks (entry :: rest) = (entry.2 :: tail) :: more
  | _, [] => ⟨[], [], rfl⟩
  | entry, next :: rest => by
      obtain ⟨tail, more, hchunks⟩ := chunks_cons next rest
      rw [chunks, hchunks]
      split
      · exact ⟨next.2 :: tail, more, rfl⟩
      · exact ⟨[], (next.2 :: tail) :: more, rfl⟩

/-- Two tokens that need no blank between them. -/
def Apart (a b : Token) : Prop := ¬ (a.isWord = true ∧ b.isWord = true)

theorem chunk_apart : ∀ {spaced : Spaced},
    spaced.IsChain (fun a b => a.2.isWord = true → b.2.isWord = true → b.1 ≠ []) →
    ∀ chunk ∈ chunks spaced, chunk.IsChain Apart
  | [], _, _, h => by cases h
  | [entry], _, chunk, h => by
      obtain rfl := List.mem_singleton.mp h
      exact List.isChain_singleton _
  | entry :: next :: rest, happart, chunk, h => by
      rw [List.isChain_cons_cons] at happart
      have ih := chunk_apart happart.2
      obtain ⟨tail, more, hchunks⟩ := chunks_cons next rest
      rw [chunks] at h
      split at h
      · rename_i hglued
        rw [hchunks] at h ih
        obtain rfl | h := List.mem_cons.mp h
        · rw [List.isChain_cons_cons]
          exact ⟨fun hwords => happart.1 hwords.1 hwords.2 hglued, ih _ List.mem_cons_self⟩
        · exact ih chunk (List.mem_cons_of_mem _ h)
      · obtain rfl | h := List.mem_cons.mp h
        · exact List.isChain_singleton _
        · exact ih chunk h

/-- Qualifiers are lower-case words. -/
theorem le_of_mem_qualifier {q : List Char} (hq : q ∈ qualifiers) {c : Char} (hc : c ∈ q) :
    97 ≤ c.toNat := by
  have hall : ∀ q ∈ qualifiers, ∀ c ∈ q, 97 ≤ c.toNat := by decide
  exact hall q hq c hc

theorem Token.exists_lt_of_not_word {token : Token} (h : token.isWord = false) :
    ∃ c ∈ token.text, c.toNat < 97 := by
  cases token with
  | word w => cases h
  | star => exact ⟨'*', by decide, by decide⟩
  | openBracket => exact ⟨'[', by decide, by decide⟩
  | closeBracket => exact ⟨']', by decide, by decide⟩
  | number n =>
      obtain ⟨c, digits, hdigits⟩ :=
        List.exists_cons_of_ne_nil (Nat.toDigits_ne_nil (b := 10) (n := n))
      have hmem : c ∈ Nat.toDigits 10 n := by simp [hdigits]
      have hdigit := Char.isDigit_iff_toNat.mp
        (Nat.isDigit_of_mem_toDigits (by omega) (by omega) hmem)
      have hnine : '9'.toNat = 57 := rfl
      exact ⟨c, hmem, by omega⟩

/-- A chunk reads as a qualifier only if it is one. -/
theorem chunkText_mem_qualifiers {chunk : List Token} (hne : chunk ≠ [])
    (hchain : chunk.IsChain Apart) :
    chunkText chunk ∈ qualifiers ↔ loneQualifier chunk = true := by
  have hwords : chunkText chunk ∈ qualifiers → ∀ token ∈ chunk, token.isWord = true := by
    intro hq token htoken
    by_contra hword
    obtain ⟨c, hc, hlt⟩ := Token.exists_lt_of_not_word (Bool.eq_false_iff.mpr hword)
    have hmem : c ∈ chunkText chunk := List.mem_flatMap.mpr ⟨token, htoken, hc⟩
    have := le_of_mem_qualifier hq hmem
    omega
  match chunk with
  | [] => exact absurd rfl hne
  | [token] =>
      constructor
      · intro hq
        have hword := hwords hq token List.mem_cons_self
        cases token with
        | word w => simpa [loneQualifier, Token.isQualifier, chunkText, Token.text] using hq
        | _ => cases hword
      · intro hlone
        cases token with
        | word w => simpa [loneQualifier, Token.isQualifier, chunkText, Token.text] using hlone
        | _ => cases hlone
  | first :: second :: rest =>
      constructor
      · intro hq
        rw [List.isChain_cons_cons] at hchain
        have hall := hwords hq
        exact absurd ⟨hall first (by simp), hall second (by simp)⟩ hchain.1
      · intro hlone
        cases hlone

/-- A chunk of words and stars, cut at its stars. -/
theorem starPieces_chunkText : ∀ {chunk : List Token}, chunk.IsChain Apart →
    (∀ token ∈ chunk, token = .star ∨ ∃ w, token = .word w ∧ IsName w) →
    starPieces (chunkText chunk) = chunk.map Token.text
  | [], _, _ => rfl
  | [token], _, h => by
      have hpiece : IsPiece token.text := by
        obtain rfl | ⟨w, rfl, hw⟩ := h token List.mem_cons_self
        · exact .inl rfl
        · exact .inr hw
      simp [chunkText, starPieces_piece hpiece]
  | first :: second :: rest, hchain, h => by
      rw [List.isChain_cons_cons] at hchain
      obtain hfirst | ⟨w, hfirst, hw⟩ := h first List.mem_cons_self
      · have ih := starPieces_chunkText hchain.2 fun t ht => h t (List.mem_cons_of_mem first ht)
        subst hfirst
        have := starPieces_append [] (chunkText (second :: rest))
        rw [ih] at this
        exact this
      · obtain hsecond | ⟨v, hsecond, -⟩ := h second (by simp)
        · subst hfirst hsecond
          have hrest : rest.IsChain Apart := List.IsChain.tail hchain.2
          have ih := starPieces_chunkText hrest
            fun t ht => h t (List.mem_cons_of_mem _ (List.mem_cons_of_mem _ ht))
          have := starPieces_append w (chunkText rest)
          rw [ih, starPieces_name hw] at this
          exact this
        · subst hfirst hsecond
          exact absurd ⟨rfl, rfl⟩ hchain.1

/-! ## The declarator of a spelled type -/

theorem filter_flatten_chunks : ∀ more : List (List Token),
    ((more.filter fun chunk => !loneQualifier chunk).flatten).filter (fun t => !t.isQualifier)
      = more.flatten.filter fun t => !t.isQualifier
  | [] => rfl
  | chunk :: more => by
      have ih := filter_flatten_chunks more
      cases hlone : loneQualifier chunk with
      | true =>
          obtain ⟨token, rfl⟩ : ∃ token, chunk = [token] := by
            match chunk with
            | [token] => exact ⟨token, rfl⟩
          have htoken : token.isQualifier = true := hlone
          rw [List.filter_cons_of_neg (by simp [hlone]), ih]
          simp [htoken]
      | false =>
          rw [List.filter_cons_of_pos (by simp [hlone]), List.flatten_cons, List.flatten_cons,
            List.filter_append, List.filter_append, ih]

/-- Only qualifiers are gone. -/
theorem survivors_filter (spaced : Spaced) :
    (survivors spaced).filter (fun t => !t.isQualifier)
      = (spaced.map Prod.snd).filter fun t => !t.isQualifier := by
  rw [survivors, filter_flatten_chunks, chunks_flatten]

theorem filter_takeWhile {α : Type} {p q : α → Bool} (h : ∀ a, q a = false → p a = true) :
    ∀ l : List α, (l.takeWhile q).filter p = (l.filter p).takeWhile q
  | [] => rfl
  | a :: l => by
      have ih := filter_takeWhile h l
      cases hq : q a with
      | true =>
          rw [List.takeWhile_cons_of_pos hq, List.filter_cons, List.filter_cons, ih]
          split
          · rw [List.takeWhile_cons_of_pos hq]
          · rfl
      | false =>
          rw [List.takeWhile_cons_of_neg (by simp [hq]), List.filter_cons_of_pos (h a hq),
            List.takeWhile_cons_of_neg (by simp [hq])]
          rfl

/-- The first token that is left is a word of the base: behind a qualifier
comes a word, so whitespace sets it off. -/
theorem head_survivors : ∀ (more : List (List Token)) (specifiers : List (List Char))
    (rest : List Token), more.flatten = specifiers.map .word ++ rest →
    (∀ chunk ∈ more, chunk ≠ [] ∧ chunk.IsChain Apart) → (∃ w ∈ specifiers, w ∉ qualifiers) →
    ∃ w tail, w ∉ qualifiers ∧ w ∈ specifiers ∧
      (more.filter fun chunk => !loneQualifier chunk).flatten = .word w :: tail
  | [], specifiers, rest, hflat, _, hbase => by
      obtain ⟨w, hw, -⟩ := hbase
      cases specifiers with
      | nil => cases hw
      | cons v specifiers => cases hflat
  | chunk :: more, specifiers, rest, hflat, hchunks, hbase => by
      obtain ⟨hne, hchain⟩ := hchunks chunk List.mem_cons_self
      obtain ⟨token, tail, rfl⟩ := List.exists_cons_of_ne_nil hne
      cases specifiers with
      | nil =>
          obtain ⟨w, hw, -⟩ := hbase
          cases hw
      | cons v specifiers =>
          rw [List.flatten_cons, List.map_cons, List.cons_append, List.cons_append] at hflat
          obtain ⟨htoken, htail⟩ := List.cons.inj hflat
          subst htoken
          by_cases hv : v ∈ qualifiers
          · obtain ⟨w, hw, hwq⟩ := hbase
            have hw : w ∈ specifiers :=
              (List.mem_cons.mp hw).resolve_left fun heq => hwq (heq ▸ hv)
            cases tail with
            | nil =>
                have hlone : loneQualifier [.word v] = true := by
                  simpa [loneQualifier, Token.isQualifier] using hv
                rw [List.filter_cons_of_neg (by simp [hlone])]
                obtain ⟨u, tail, huq, hu, heq⟩ := head_survivors more specifiers rest htail
                  (fun c hc => hchunks c (List.mem_cons_of_mem _ hc)) ⟨w, hw, hwq⟩
                exact ⟨u, tail, huq, List.mem_cons_of_mem v hu, heq⟩
            | cons second tail =>
                cases specifiers with
                | nil => cases hw
                | cons u specifiers =>
                    obtain ⟨hsecond, -⟩ := List.cons.inj htail
                    subst hsecond
                    rw [List.isChain_cons_cons] at hchain
                    exact absurd ⟨rfl, rfl⟩ hchain.1
          · have hkeep : loneQualifier (.word v :: tail) = false := by
              cases tail with
              | nil => simpa [loneQualifier, Token.isQualifier] using hv
              | cons second tail => rfl
            rw [List.filter_cons_of_pos (by simp [hkeep])]
            exact ⟨v, _, hv, List.mem_cons_self, rfl⟩

namespace Spelled

variable (s : Spelled)

/-- The tokens in front of the dimensions. -/
@[grind =] def declTokens : List Token := (survivors s.spaced).takeWhile fun token => !isOpen token

/-- The tokens but for the qualifiers are the base, the stars and the dimensions. -/
theorem filter_tokens : (s.spaced.map Prod.snd).filter (fun t => !t.isQualifier)
    = s.baseWords.map .word ++ List.replicate s.pointers.length .star ++ dimTokens s.dims := by
  have hbase : (s.specifiers.map Token.word).filter (fun t => !t.isQualifier)
      = s.baseWords.map .word := by
    simp [baseWords, List.filter_map, Function.comp_def, Token.isQualifier]
  have hpointers : ∀ pointers : List (List (List Char)),
      (∀ quals ∈ pointers, ∀ q ∈ quals, q ∈ qualifiers) →
      (pointers.flatMap fun quals => Token.star :: quals.map .word).filter (fun t => !t.isQualifier)
        = List.replicate pointers.length .star := by
    intro pointers
    induction pointers with
    | nil => intro _; rfl
    | cons quals pointers ih =>
        intro h
        have hquals : (quals.map Token.word).filter (fun t => !t.isQualifier) = [] := by
          rw [List.filter_eq_nil_iff]
          intro t ht
          obtain ⟨q, hq, rfl⟩ := List.mem_map.mp ht
          simpa [Token.isQualifier] using h quals List.mem_cons_self q hq
        rw [List.flatMap_cons, List.cons_append, List.filter_cons_of_pos rfl, List.filter_append,
          hquals, List.nil_append, ih fun quals hmem => h quals (List.mem_cons_of_mem _ hmem)]
        rfl
  have hdims : (dimTokens s.dims).filter (fun t => !t.isQualifier) = dimTokens s.dims := by
    rw [List.filter_eq_self]
    intro t ht
    obtain ⟨n, -, ht⟩ := List.mem_flatMap.mp ht
    simp only [List.mem_cons, List.not_mem_nil, or_false] at ht
    obtain rfl | rfl | rfl := ht <;> rfl
  rw [s.tokens_eq, List.filter_append, List.filter_append, hbase, hpointers _ s.quals, hdims]

theorem takeWhile_open {words : List (List Char)} {m : Nat} {dims : List Nat} :
    (words.map Token.word ++ List.replicate m Token.star ++ dimTokens dims).takeWhile
        (fun token => !isOpen token)
      = words.map .word ++ List.replicate m .star := by
  have hall : ∀ t ∈ words.map Token.word ++ List.replicate m Token.star, (!isOpen t) = true := by
    intro t ht
    obtain ht | ht := List.mem_append.mp ht
    · obtain ⟨w, -, rfl⟩ := List.mem_map.mp ht
      rfl
    · rw [List.eq_of_mem_replicate ht]
      rfl
  rw [List.takeWhile_append_of_pos hall]
  cases dims with
  | nil => simp [dimTokens]
  | cons n dims => simp [dimTokens, isOpen]

theorem declTokens_filter : s.declTokens.filter (fun t => !t.isQualifier)
    = s.baseWords.map .word ++ List.replicate s.pointers.length .star := by
  have hopen : ∀ t : Token, (!isOpen t) = false → (!t.isQualifier) = true := by
    intro t ht
    cases t with
    | openBracket => rfl
    | _ => cases ht
  rw [declTokens, filter_takeWhile hopen, survivors_filter, filter_tokens, takeWhile_open]

theorem baseWords_name {w : List Char} (h : w ∈ s.baseWords) : IsName w ∧ w ∉ qualifiers := by
  obtain ⟨hmem, hq⟩ := List.mem_filter.mp h
  exact ⟨s.names w hmem, by simpa using hq⟩

/-- Before the first bracket there are words and stars. -/
theorem mem_declTokens {t : Token} (h : t ∈ s.declTokens) :
    t = .star ∨ ∃ w, t = .word w ∧ IsName w := by
  cases hq : t.isQualifier with
  | true =>
      cases t with
      | word w =>
          have hw : w ∈ qualifiers := by simpa [Token.isQualifier] using hq
          exact .inr ⟨w, rfl, isName_of_mem_qualifiers hw⟩
      | _ => cases hq
  | false =>
      have hmem : t ∈ s.declTokens.filter fun t => !t.isQualifier :=
        List.mem_filter.mpr ⟨h, by simp [hq]⟩
      rw [s.declTokens_filter] at hmem
      obtain hmem | hmem := List.mem_append.mp hmem
      · obtain ⟨w, hw, rfl⟩ := List.mem_map.mp hmem
        exact .inr ⟨w, rfl, (s.baseWords_name hw).1⟩
      · exact .inl (List.eq_of_mem_replicate hmem)

theorem token_name {entry : List Char × Token} (h : entry ∈ s.spaced) (w : List Char)
    (hw : entry.2 = .word w) : IsName w := by
  have hmem : Token.word w ∈ s.spaced.map Prod.snd := List.mem_map.mpr ⟨entry, h, hw⟩
  rw [s.tokens_eq, List.mem_append, List.mem_append] at hmem
  obtain (hmem | hmem) | hmem := hmem
  · obtain ⟨v, hv, heq⟩ := List.mem_map.mp hmem
    cases heq
    exact s.names _ hv
  · obtain ⟨quals, hquals, hmem⟩ := List.mem_flatMap.mp hmem
    obtain heq | hmem := List.mem_cons.mp hmem
    · cases heq
    · obtain ⟨q, hq, heq⟩ := List.mem_map.mp hmem
      cases heq
      exact isName_of_mem_qualifiers (s.quals quals hquals _ hq)
  · obtain ⟨n, -, hmem⟩ := List.mem_flatMap.mp hmem
    simp at hmem

theorem chunk_facts {chunk : List Token} (h : chunk ∈ chunks s.spaced) :
    chunk ≠ [] ∧ chunk.IsChain Apart :=
  ⟨chunk_ne_nil s.spaced chunk h, chunk_apart s.apart chunk h⟩

theorem map_text_filter : (s.declTokens.map Token.text).filter (fun p => p ∉ qualifiers)
    = (s.declTokens.filter fun t => !t.isQualifier).map Token.text := by
  rw [List.filter_map]
  apply congrArg (List.map Token.text)
  apply List.filter_congr
  intro t ht
  obtain rfl | ⟨w, rfl, -⟩ := s.mem_declTokens ht
  · simp [Token.text, Token.isQualifier, star_not_mem_qualifiers]
  · by_cases hw : w ∈ qualifiers <;> simp [Token.text, Token.isQualifier, hw]

theorem declTokens_head : ∃ w tail, w ∉ qualifiers ∧ IsName w ∧
    s.declTokens = .word w :: tail := by
  have hflat := chunks_flatten s.spaced
  rw [s.tokens_eq, List.append_assoc] at hflat
  obtain ⟨w, tail, hq, hw, heq⟩ := head_survivors (chunks s.spaced) s.specifiers _ hflat
    (fun chunk hchunk => s.chunk_facts hchunk) s.base
  refine ⟨w, tail.takeWhile fun token => !isOpen token, hq, s.names w hw, ?_⟩
  rw [declTokens, survivors, heq]
  exact List.takeWhile_cons_of_pos rfl

/-- What is left of the base and the pointers denotes the base's words and as
many stars as there are pointers. -/
theorem denotes : Denotes s.declarator s.baseWords s.pointers.length := by
  obtain ⟨w, tail, hq, hw, hhead⟩ := s.declTokens_head
  refine ⟨⟨?_, ?_⟩, ?_, ?_⟩
  · intro p hp
    rw [declarator, ← declTokens, hhead] at hp
    cases hp
    exact ⟨hw, hq⟩
  · intro p hp
    obtain ⟨t, ht, rfl⟩ := List.mem_map.mp hp
    obtain rfl | ⟨v, rfl, hv⟩ := s.mem_declTokens ht
    · exact .inl rfl
    · exact .inr hv
  · intro hmem
    exact (s.baseWords_name hmem).1.ne_star rfl
  · rw [declarator, ← declTokens, map_text_filter, declTokens_filter]
    simp [Token.text, Function.comp_def]

theorem declarator_ne_nil : s.declarator ≠ [] := by
  obtain ⟨w, tail, -, -, hhead⟩ := s.declTokens_head
  rw [declarator, ← declTokens, hhead]
  exact List.cons_ne_nil _ _

/-- The chunks that normalization keeps. -/
def keptChunks : List (List Token) := (chunks s.spaced).filter fun chunk => !loneQualifier chunk

theorem kept_words : (splitWhitespace s.text).filter (fun token => token ∉ qualifiers)
    = s.keptChunks.map chunkText := by
  rw [text, splitWhitespace_spaced s.trailing_gap s.spaced s.gaps fun e he => s.token_name he,
    List.filter_map, keptChunks]
  apply congrArg (List.map chunkText)
  apply List.filter_congr
  intro chunk hchunk
  obtain ⟨hne, hchain⟩ := s.chunk_facts hchunk
  have hiff := chunkText_mem_qualifiers hne hchain
  cases hlone : loneQualifier chunk with
  | true => simp [hiff.mpr hlone]
  | false =>
      have hnot : chunkText chunk ∉ qualifiers := by
        intro hmem
        rw [hiff.mp hmem] at hlone
        cases hlone
      simp [hnot]

theorem kept_facts {chunk : List Token} (h : chunk ∈ s.keptChunks) :
    chunk ≠ [] ∧ chunk.IsChain Apart := s.chunk_facts (List.mem_of_mem_filter h)

/-- A spelling has no parenthesis. -/
theorem text_no_paren : '(' ∉ s.text := by
  intro hmem
  rw [text, Spaced.text, List.mem_append, List.mem_flatMap] at hmem
  have hgap : ∀ gap : List Char, IsGap gap → '(' ∉ gap := by
    intro gap h hmem
    have := h '(' hmem
    revert this
    decide
  obtain ⟨entry, hentry, hmem⟩ | hmem := hmem
  · obtain hmem | hmem := List.mem_append.mp hmem
    · exact hgap _ (s.gaps entry hentry) hmem
    · have hname := s.token_name hentry
      cases htoken : entry.2 with
      | word w =>
          rw [htoken] at hmem
          exact (hname w htoken).not_mem (by decide) hmem
      | number n =>
          rw [htoken] at hmem
          have := Nat.isDigit_of_mem_toDigits (by omega) (by omega) hmem
          revert this
          decide
      | _ =>
          rw [htoken] at hmem
          revert hmem
          decide
  · exact hgap _ s.trailing_gap hmem

end Spelled

end GovFuzz.TypeModel
