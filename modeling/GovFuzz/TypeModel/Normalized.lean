import GovFuzz.TypeModel.Spelled

/-!
# TypeModel — what is normalized of a spelled type

Without an array the normal form is what is left of the declarator; with one
it is that and the brackets behind it, which no step takes apart.
-/

namespace GovFuzz.TypeModel

open GovFuzz.Runtrace (isWhitespace trim)
open GovFuzz.Cli (parseUsize)

/-! ## Chunks up to the first bracket -/

theorem exists_first_open : ∀ {more : List (List Token)}, .openBracket ∈ more.flatten →
    ∃ before front behind after, more = before ++ (front ++ .openBracket :: behind) :: after ∧
      .openBracket ∉ before.flatten ++ front
  | chunk :: more, h => by
      by_cases hchunk : .openBracket ∈ chunk
      · obtain ⟨front, behind, rfl, hfront⟩ := List.eq_append_cons_of_mem hchunk
        exact ⟨[], front, behind, more, rfl, by simpa using hfront⟩
      · have hmore : .openBracket ∈ more.flatten := by simpa [hchunk] using h
        obtain ⟨before, front, behind, after, rfl, hfree⟩ := exists_first_open hmore
        refine ⟨chunk :: before, front, behind, after, rfl, ?_⟩
        rw [List.flatten_cons, List.append_assoc, List.mem_append, not_or]
        exact ⟨hchunk, hfree⟩

theorem isOpen_iff {t : Token} : isOpen t = true ↔ t = .openBracket := by
  cases t <;> simp [isOpen]

theorem takeWhile_until_open {front behind : List Token} (h : .openBracket ∉ front) :
    (front ++ .openBracket :: behind).takeWhile (fun t => !isOpen t) = front := by
  rw [List.takeWhile_append_of_pos]
  · simp [isOpen]
  · intro t ht
    cases hopen : isOpen t with
    | true => exact absurd (isOpen_iff.mp hopen ▸ ht) h
    | false => rfl

theorem eq_of_first_open {front front' behind behind' : List Token}
    (h : front ++ .openBracket :: behind = front' ++ .openBracket :: behind')
    (hfront : .openBracket ∉ front) (hfront' : .openBracket ∉ front') :
    front = front' ∧ behind = behind' := by
  have htake := congrArg (List.takeWhile fun t => !isOpen t) h
  rw [takeWhile_until_open hfront, takeWhile_until_open hfront'] at htake
  subst htake
  exact ⟨rfl, (List.cons.inj (List.append_cancel_left h)).2⟩

/-! ## The text between the words -/

theorem chunkText_append (x y : List Token) : chunkText (x ++ y) = chunkText x ++ chunkText y :=
  List.flatMap_append

theorem normalize_kept {raw : List Char} {words : List (List Char)}
    (h : (splitWhitespace raw).filter (fun token => token ∉ qualifiers) = words) :
    normalize raw
      = trim (attachStars (joinWords (splitWhitespace (spaceStars (joinWords words))))) := by
  rw [← h]
  rfl

/-- Words up to a bracket, and from it on: what is in front is cut at its
stars and printed, what is behind stays as it is. -/
theorem normalize_at_bracket {raw x y : List Char} {before after : List (List Char)}
    (hkept : (splitWhitespace raw).filter (fun token => token ∉ qualifiers)
      = before ++ (x ++ '[' :: y) :: after)
    (hdecl : IsDeclarator ((before ++ [x]).flatMap starPieces))
    (hne : (before ++ [x]).flatMap starPieces ≠ [])
    (hafter : ∀ w ∈ ('[' :: y) :: after, w ≠ [] ∧ IsInk w ∧ '*' ∉ w) :
    ∃ front, normalize raw = front ++ joinWords (('[' :: y) :: after) ∧ '[' ∉ front ∧
      trimEnd front = render ((before ++ [x]).flatMap starPieces) := by
  have hstars : '*' ∉ joinWords (('[' :: y) :: after) := by
    intro hmem
    obtain hmem | ⟨w, hw, hmem⟩ := mem_joinWords hmem
    · cases hmem
    · exact (hafter w hw).2.2 hmem
  have hsplit : splitWhitespace (joinWords (('[' :: y) :: after)) = ('[' :: y) :: after := by
    rw [splitWhitespace_joinWords]
    have hone : ∀ words : List (List Char), (∀ w ∈ words, w ≠ [] ∧ IsInk w ∧ '*' ∉ w) →
        words.flatMap splitWhitespace = words := by
      intro words
      induction words with
      | nil => intro _; rfl
      | cons w words ih =>
          intro h
          have hw := h w List.mem_cons_self
          rw [List.flatMap_cons, splitWhitespace_ink hw.1 hw.2.1,
            ih fun v hv => h v (List.mem_cons_of_mem w hv)]
          rfl
    exact hone _ hafter
  obtain ⟨rest, hrest⟩ : ∃ rest, joinWords (('[' :: y) :: after) = '[' :: rest :=
    ⟨_, joinWords_cons _ _⟩
  obtain ⟨gap, hgap, -, hjoin⟩ := joinWords_splitWhitespace_append
    (d := '[') (by decide) rest (spaceStars (joinWords (before ++ [x])))
  rw [← hrest, hsplit] at hjoin
  have hpieces : splitWhitespace (spaceStars (joinWords (before ++ [x])))
      = (before ++ [x]).flatMap starPieces := by
    rw [spaceStars_joinWords, splitWhitespace_joinWords, List.flatMap_map]
    rfl
  rw [hpieces] at hjoin
  -- the bracket and what is behind it come through as they are
  have hcut : normalize raw = trim (attachStars
      (joinWords ((before ++ [x]).flatMap starPieces) ++ gap)
        ++ joinWords (('[' :: y) :: after)) := by
    rw [normalize_kept hkept, joinWords_append_cons x ('[' :: y) after before, spaceStars_append,
      spaceStars_of_not_mem hstars, hjoin, hrest, attachStars_append_cons (by decide) (by decide),
      ← hrest, attachStars_of_not_mem hstars]
  obtain ⟨p, ps, hps⟩ := List.exists_cons_of_ne_nil hne
  rw [hps] at hcut hdecl ⊢
  have hhead : ∃ text, attachStars (joinWords (p :: ps) ++ gap) = p ++ text := by
    rw [joinWords_cons, List.append_assoc,
      attachStars_append (IsPiece.not_space (.inr hdecl.cons.1))]
    exact ⟨_, rfl⟩
  refine ⟨attachStars (joinWords (p :: ps) ++ gap), ?_, ?_, ?_⟩
  · rw [hcut]
    apply Runtrace.trim_eq
    · intro c hc
      obtain ⟨text, htext⟩ := hhead
      rw [htext, List.append_assoc, List.head?_append_of_ne_nil _ hdecl.cons.1.1] at hc
      exact IsPiece.head_ink (.inr hdecl.cons.1) c hc
    · intro c hc
      have hjoinNe : joinWords (('[' :: y) :: after) ≠ [] := by simp [hrest]
      rw [List.getLast?_append_of_ne_nil _ hjoinNe,
        getLast?_joinWords fun w hw => (hafter w hw).1] at hc
      obtain ⟨w, hw, hc⟩ := List.mem_flatten.mp (List.mem_of_getLast? hc)
      exact (hafter w hw).2.1 c hc
  · intro hmem
    obtain hmem | hmem := List.mem_append.mp (mem_attachStars hmem)
    · obtain hmem | ⟨q, hq, hmem⟩ := mem_joinWords hmem
      · cases hmem
      · exact (hdecl.piece q hq).not_mem_open (by decide) (by decide) hmem
    · obtain rfl | rfl := hgap
      · cases hmem
      · simp at hmem
  · rw [trimEnd_attachStars_gap hgap]
    exact trimEnd_render hdecl

namespace Spelled

variable (s : Spelled)

theorem keptChunks_flatten : s.keptChunks.flatten = survivors s.spaced := rfl

theorem flatMap_starPieces {more : List (List Token)}
    (hchain : ∀ chunk ∈ more, chunk.IsChain Apart)
    (hdecl : ∀ t ∈ more.flatten, t = .star ∨ ∃ w, t = .word w ∧ IsName w) :
    (more.map chunkText).flatMap starPieces = more.flatten.map Token.text := by
  induction more with
  | nil => rfl
  | cons chunk more ih =>
      have hchunk := starPieces_chunkText (hchain chunk List.mem_cons_self)
        fun t ht => hdecl t (by simp [ht])
      rw [List.map_cons, List.flatMap_cons, List.flatten_cons, List.map_append, hchunk,
        ih (fun c hc => hchain c (List.mem_cons_of_mem chunk hc))
          fun t ht => hdecl t (List.mem_append_right chunk ht)]

theorem normalize_of_no_dims (h : s.dims = []) : normalize s.text = render s.declarator := by
  have hopen : .openBracket ∉ survivors s.spaced := by
    intro hmem
    have hmem : .openBracket ∈ (survivors s.spaced).filter fun t => !t.isQualifier :=
      List.mem_filter.mpr ⟨hmem, rfl⟩
    rw [survivors_filter, s.filter_tokens, h] at hmem
    simp [dimTokens] at hmem
  have hdecl : s.declTokens = survivors s.spaced := by
    rw [declTokens, List.takeWhile_eq_self_iff]
    intro t ht
    cases hiso : isOpen t with
    | true => exact absurd (isOpen_iff.mp hiso ▸ ht) hopen
    | false => rfl
  have hpieces : pieces s.text = s.declarator := by
    rw [pieces, s.kept_words, flatMap_starPieces (fun chunk hchunk => (s.kept_facts hchunk).2),
      keptChunks_flatten, ← hdecl]
    · rfl
    · intro t ht
      exact s.mem_declTokens (hdecl ▸ ht)
  rw [normalize_eq, hpieces, trim_render s.denotes.declarator]

theorem mem_dimTokens {t : Token} {dims : List Nat} (h : t ∈ dimTokens dims) :
    t.isQualifier = false ∧ t.text ≠ [] ∧ IsInk t.text ∧ '*' ∉ t.text := by
  obtain ⟨n, -, h⟩ := List.mem_flatMap.mp h
  simp only [List.mem_cons, List.not_mem_nil, or_false] at h
  have hword : ∀ w, t ≠ .word w := by
    rintro w rfl
    simp at h
  obtain ⟨hne, hink⟩ := Token.text_ink fun w hw => absurd hw (hword w)
  refine ⟨?_, hne, hink, ?_⟩
  · cases t with
    | word w => exact absurd rfl (hword w)
    | _ => rfl
  · obtain rfl | rfl | rfl := h
    · decide
    · intro hmem
      have := Nat.isDigit_of_mem_toDigits (by omega) (by omega) hmem
      revert this
      decide
    · decide

/-- The chunks that are kept, up to the first bracket and from it on. -/
theorem keptChunks_of_dims {n : Nat} {ns : List Nat} (h : s.dims = n :: ns) :
    ∃ kept front behind after,
      s.keptChunks = kept ++ (front ++ .openBracket :: behind) :: after ∧
      s.declTokens = kept.flatten ++ front ∧
      behind ++ after.flatten = .number n :: .closeBracket :: dimTokens ns := by
  have hflat := chunks_flatten s.spaced
  have htokens := s.tokens_eq
  have hdims : dimTokens s.dims
      = .openBracket :: .number n :: .closeBracket :: dimTokens ns := by rw [h]; rfl
  rw [hdims] at htokens
  rw [htokens] at hflat
  obtain ⟨before, front, behind, after, hchunks, hfree⟩ :=
    exists_first_open (hflat ▸ by simp : Token.openBracket ∈ (chunks s.spaced).flatten)
  have hparts : (before.flatten ++ front) ++ .openBracket :: (behind ++ after.flatten)
      = (s.specifiers.map .word ++ s.pointers.flatMap fun quals => .star :: quals.map .word)
        ++ .openBracket :: .number n :: .closeBracket :: dimTokens ns := by
    rw [← hflat, hchunks]
    simp
  obtain ⟨-, hbehind⟩ := eq_of_first_open hparts hfree (by simp)
  -- behind the bracket no qualifier is left to be dropped
  have hafter : after.filter (fun chunk => !loneQualifier chunk) = after := by
    rw [List.filter_eq_self]
    intro chunk hchunk
    rcases chunk with _ | ⟨t, _ | ⟨u, rest⟩⟩
    · rfl
    · have ht : t ∈ behind ++ after.flatten :=
        List.mem_append_right _ (List.mem_flatten.mpr ⟨[t], hchunk, by simp⟩)
      rw [hbehind] at ht
      have hdim : t ∈ dimTokens s.dims := hdims ▸ List.mem_cons_of_mem _ ht
      simp [loneQualifier, (mem_dimTokens hdim).1]
    · rfl
  have hlone : loneQualifier (front ++ .openBracket :: behind) = false := by
    rcases front with _ | ⟨t, _ | ⟨u, front⟩⟩
    · cases behind <;> rfl
    · rfl
    · rfl
  have hkept : s.keptChunks = (before.filter fun chunk => !loneQualifier chunk)
      ++ (front ++ .openBracket :: behind) :: after := by
    rw [keptChunks, hchunks, List.filter_append, List.filter_cons_of_pos (by simp [hlone]), hafter]
  refine ⟨_, front, behind, after, hkept, ?_, hbehind⟩
  have hsurvivors : survivors s.spaced
      = ((before.filter fun chunk => !loneQualifier chunk).flatten ++ front)
        ++ .openBracket :: (behind ++ after.flatten) := by
    rw [← keptChunks_flatten, hkept]
    simp
  rw [declTokens, hsurvivors, takeWhile_until_open]
  intro hmem
  obtain hmem | hmem := List.mem_append.mp hmem
  · obtain ⟨chunk, hchunk, hmem⟩ := List.mem_flatten.mp hmem
    exact hfree (List.mem_append_left _
      (List.mem_flatten.mpr ⟨chunk, List.mem_of_mem_filter hchunk, hmem⟩))
  · exact hfree (List.mem_append_right _ hmem)

theorem chunkText_dims {tokens : List Token} {dims : List Nat} (hne : tokens ≠ [])
    (h : ∀ t ∈ tokens, t ∈ dimTokens dims) :
    chunkText tokens ≠ [] ∧ IsInk (chunkText tokens) ∧ '*' ∉ chunkText tokens := by
  refine ⟨?_, fun c hc => ?_, fun hc => ?_⟩
  · obtain ⟨t, tokens, rfl⟩ := List.exists_cons_of_ne_nil hne
    have htext := (mem_dimTokens (h t List.mem_cons_self)).2.1
    simp [chunkText, htext]
  · obtain ⟨t, ht, hc⟩ := List.mem_flatMap.mp hc
    exact (mem_dimTokens (h t ht)).2.2.1 c hc
  · obtain ⟨t, ht, hc⟩ := List.mem_flatMap.mp hc
    exact (mem_dimTokens (h t ht)).2.2.2 hc

/-- A spelling with dimensions is normalized to its declarator and, behind the first
bracket, the dimensions as they were spaced. -/
theorem normalize_of_dims {n : Nat} {ns : List Nat} (h : s.dims = n :: ns) :
    ∃ (front : List Char) (behind : List Token) (after : List (List Token)), normalize s.text
        = front ++ joinWords (('[' :: chunkText behind) :: after.map chunkText) ∧
      '[' ∉ front ∧ trimEnd front = render s.declarator ∧
      behind ++ after.flatten = .number n :: .closeBracket :: dimTokens ns ∧
      ∀ chunk ∈ after, chunk ≠ [] := by
  obtain ⟨kept, front, behind, after, hkept, hdecl, hbehind⟩ := s.keptChunks_of_dims h
  have hdim : ∀ t ∈ .openBracket :: (behind ++ after.flatten), t ∈ dimTokens s.dims := by
    rw [hbehind, h]
    exact fun t ht => ht
  have hnonempty : ∀ chunk ∈ after, chunk ≠ [] := by
    intro chunk hchunk
    exact (s.kept_facts (by simp [hkept, hchunk])).1
  have hwords : (splitWhitespace s.text).filter (fun token => token ∉ qualifiers)
      = kept.map chunkText ++ (chunkText front ++ '[' :: chunkText behind)
        :: after.map chunkText := by
    rw [s.kept_words, hkept, List.map_append, List.map_cons, chunkText_append]
    rfl
  have hpieces : ((kept.map chunkText ++ [chunkText front]).flatMap starPieces) = s.declarator := by
    have hchain : ∀ chunk ∈ kept ++ [front], chunk.IsChain Apart := by
      intro chunk hchunk
      obtain hchunk | hchunk := List.mem_append.mp hchunk
      · exact (s.kept_facts (by simp [hkept, hchunk])).2
      · have hfront : front ++ .openBracket :: behind ∈ s.keptChunks := by simp [hkept]
        rw [List.mem_singleton.mp hchunk]
        exact (s.kept_facts hfront).2.left_of_append
    have hflatten : (kept ++ [front]).flatten = s.declTokens := by simp [hdecl]
    have hstars := flatMap_starPieces hchain fun t ht => s.mem_declTokens (hflatten ▸ ht)
    rw [List.map_append, List.map_singleton] at hstars
    rw [hstars, hflatten]
    rfl
  have hbrackets : ∀ w ∈ ('[' :: chunkText behind) :: after.map chunkText,
      w ≠ [] ∧ IsInk w ∧ '*' ∉ w := by
    intro w hw
    obtain rfl | hw := List.mem_cons.mp hw
    · exact chunkText_dims (List.cons_ne_nil .openBracket behind) fun t ht =>
        hdim t (List.cons_subset_cons _ (List.subset_append_left _ _) ht)
    · obtain ⟨chunk, hchunk, rfl⟩ := List.mem_map.mp hw
      exact chunkText_dims (hnonempty chunk hchunk) fun t ht => hdim t
        (List.mem_cons_of_mem _
          (List.mem_append_right _ (List.mem_flatten.mpr ⟨chunk, hchunk, ht⟩)))
  obtain ⟨start, hnormal, hstart, htrim⟩ := normalize_at_bracket hwords
    (hpieces.symm ▸ s.denotes.declarator) (hpieces.symm ▸ s.declarator_ne_nil) hbrackets
  exact ⟨start, behind, after, hnormal, hstart, hpieces ▸ htrim, hbehind, hnonempty⟩

end Spelled

/-! ## Between the brackets -/

/-- The text of some tokens, the first run of them glued to what is in front. -/
def tailText (behind : List Token) (after : List (List Token)) : List Char :=
  chunkText behind ++ (after.map chunkText).flatMap (' ' :: ·)

theorem joinWords_bracket (behind : List Token) (after : List (List Token)) :
    joinWords (('[' :: chunkText behind) :: after.map chunkText)
      = '[' :: tailText behind after := by
  rw [joinWords_cons]
  rfl

/-- One token at a time, with at most a space in front of it. -/
theorem tailText_peel {t : Token} {rest : List Token} {behind : List Token}
    {after : List (List Token)} (h : behind ++ after.flatten = t :: rest)
    (hne : ∀ chunk ∈ after, chunk ≠ []) :
    ∃ gap behind' after', IsGap gap ∧
      tailText behind after = gap ++ t.text ++ tailText behind' after' ∧
      behind' ++ after'.flatten = rest ∧ ∀ chunk ∈ after', chunk ≠ [] := by
  cases behind with
  | cons u behind =>
      obtain ⟨hu, hrest⟩ := List.cons.inj h
      subst hu
      refine ⟨[], behind, after, fun c hc => (by cases hc), ?_, hrest, hne⟩
      simp [tailText, chunkText]
  | nil =>
      cases after with
      | nil => cases h
      | cons chunk after =>
          obtain ⟨u, chunk, rfl⟩ := List.exists_cons_of_ne_nil (hne chunk List.mem_cons_self)
          obtain ⟨hu, hrest⟩ := List.cons.inj h
          subst hu
          refine ⟨[' '], chunk, after, ?_, ?_, hrest,
            fun c hc => hne c (List.mem_cons_of_mem _ hc)⟩
          · intro c hc
            rw [List.mem_singleton.mp hc]
            exact isWhitespace_space
          · simp [tailText, chunkText]

theorem tailText_nil {behind : List Token} {after : List (List Token)}
    (h : behind ++ after.flatten = []) (hne : ∀ chunk ∈ after, chunk ≠ []) :
    tailText behind after = [] := by
  obtain ⟨rfl, hafter⟩ := List.append_eq_nil_iff.mp h
  cases after with
  | nil => rfl
  | cons chunk after =>
    exact absurd (by simpa using hafter : _ ∧ _).1 (hne chunk List.mem_cons_self)

theorem tailText_concat (last : Token) : ∀ (tokens : List Token) {behind : List Token}
    {after : List (List Token)}, behind ++ after.flatten = tokens ++ [last] →
    (∀ chunk ∈ after, chunk ≠ []) → ∃ front, tailText behind after = front ++ last.text
  | [], behind, after, h, hne => by
      obtain ⟨gap, behind', after', -, htext, hrest, hne'⟩ := tailText_peel h hne
      exact ⟨gap, by rw [htext, tailText_nil hrest hne', List.append_nil]⟩
  | t :: tokens, behind, after, h, hne => by
      obtain ⟨gap, behind', after', -, htext, hrest, hne'⟩ := tailText_peel h hne
      obtain ⟨front, hfront⟩ := tailText_concat last tokens hrest hne'
      exact ⟨gap ++ t.text ++ front, by rw [htext, hfront, List.append_assoc _ front]⟩

theorem trim_gaps {before after word : List Char} (hbefore : IsGap before) (hafter : IsGap after)
    (hne : word ≠ []) (hword : IsInk word) : trim (before ++ word ++ after) = word := by
  have hdrop : ∀ gap text : List Char, IsGap gap → text ≠ [] → IsInk text → ∀ rest,
      (gap ++ (text ++ rest)).dropWhile isWhitespace = text ++ rest := by
    intro gap text hgap hne hink rest
    obtain ⟨c, text, rfl⟩ := List.exists_cons_of_ne_nil hne
    rw [List.dropWhile_append_of_pos hgap, List.cons_append]
    exact List.dropWhile_cons_of_neg (by simp [hink c List.mem_cons_self])
  have hinkRev : IsInk word.reverse := fun c hc => hword c (List.mem_reverse.mp hc)
  have hgapRev : IsGap after.reverse := fun c hc => hafter c (List.mem_reverse.mp hc)
  have hend := hdrop after.reverse word.reverse hgapRev (by simpa using hne) hinkRev []
  rw [trim, List.append_assoc, hdrop before word hbefore hne hword after, List.reverse_append]
  rw [List.append_nil] at hend
  rw [hend, List.reverse_reverse]

theorem parseUsize_bracket {text : List Char} (h : ']' ∈ text) : parseUsize text = none := by
  unfold parseUsize
  dsimp only
  have hmem : ']' ∈ (if text.head? = some '+' then text.tail else text) := by
    split
    · rename_i hplus
      cases text with
      | nil => cases h
      | cons c text =>
          cases hplus
          exact (List.mem_cons.mp h).resolve_left (by decide)
    · exact h
  rw [if_pos]
  rw [Bool.or_eq_true]
  right
  simp only [Bool.not_eq_true', List.all_eq_false]
  exact ⟨']', hmem, by decide⟩

theorem splitArray_append {front : List Char} (hfront : '[' ∉ front) (text : List Char) :
    splitArray (front ++ '[' :: text)
      = if ']' ∈ text then
          (parseUsize (trim (text.reverse.dropWhile (· ≠ ']')).tail.reverse)).map fun len =>
            (trimEnd front, len)
        else none := by
  have hall : ∀ c ∈ front, decide (c ≠ '[') = true := by
    intro c hc
    simp only [ne_eq, decide_not, Bool.not_eq_true', decide_eq_false_iff_not]
    rintro rfl
    exact hfront hc
  have hdrop : (front ++ '[' :: text).dropWhile (· ≠ '[') = '[' :: text := by
    rw [List.dropWhile_append_of_pos hall]
    exact List.dropWhile_cons_of_neg (by simp)
  have htake : (front ++ '[' :: text).takeWhile (· ≠ '[') = front := by
    rw [List.takeWhile_append_of_pos hall, List.takeWhile_cons_of_neg (by simp), List.append_nil]
  rw [splitArray, hdrop, htake]

namespace Spelled

variable (s : Spelled)

theorem splitArray_of_one {n : Nat} (h : s.dims = [n]) :
    splitArray (normalize s.text) = some (render s.declarator, n) := by
  obtain ⟨front, behind, after, hnormal, hfront, htrim, htokens, hne⟩ := s.normalize_of_dims h
  obtain ⟨before, behind', after', hbefore, htext, hrest, hne'⟩ := tailText_peel htokens hne
  obtain ⟨gap, behind'', after'', hgap, htext', hrest', hne''⟩ := tailText_peel hrest hne'
  have hall : tailText behind after = before ++ Nat.toDigits 10 n ++ gap ++ [']'] := by
    rw [htext, htext', tailText_nil hrest' hne'']
    simp [Token.text]
  have hinner : ((tailText behind after).reverse.dropWhile (· ≠ ']')).tail.reverse
      = before ++ Nat.toDigits 10 n ++ gap := by
    rw [hall, List.reverse_append, List.reverse_singleton, List.singleton_append,
      List.dropWhile_cons_of_neg (by simp), List.tail_cons, List.reverse_reverse]
  have hdigits : IsInk (Nat.toDigits 10 n) := fun c hc =>
    Runtrace.not_isWhitespace_digit (Nat.isDigit_of_mem_toDigits (by omega) (by omega) hc)
  have hlen : n < 2 ^ 64 := s.lens n (by simp [h])
  have hclose : ']' ∈ tailText behind after := by simp [hall]
  rw [hnormal, joinWords_bracket, splitArray_append hfront, if_pos hclose, hinner,
    trim_gaps hbefore hgap Nat.toDigits_ne_nil hdigits, Cli.parseUsize_toDigits hlen, htrim]
  rfl

theorem ends_in_bracket {n : Nat} {ns : List Nat} (h : s.dims = n :: ns) :
    ∃ front, normalize s.text = front ++ [']'] := by
  obtain ⟨front, behind, after, hnormal, -, -, htokens, hne⟩ := s.normalize_of_dims h
  have hlast : ∀ dims : List Nat, ∃ tokens,
      .number n :: .closeBracket :: dimTokens dims = tokens ++ [Token.closeBracket] := by
    intro dims
    rcases List.eq_nil_or_concat dims with rfl | ⟨dims, last, rfl⟩
    · exact ⟨[.number n], rfl⟩
    · refine ⟨.number n :: .closeBracket :: (dimTokens dims ++ [.openBracket, .number last]), ?_⟩
      simp [dimTokens]
  obtain ⟨tokens, htail⟩ := hlast ns
  obtain ⟨text, htext⟩ := tailText_concat .closeBracket tokens (htokens.trans htail) hne
  refine ⟨front ++ '[' :: text, ?_⟩
  rw [hnormal, joinWords_bracket, htext]
  simp [Token.text]

/-- The text between the first and the last bracket is no number. -/
theorem splitArray_of_two {n n' : Nat} {ns : List Nat} (h : s.dims = n :: n' :: ns) :
    splitArray (normalize s.text) = none := by
  obtain ⟨front, behind, after, hnormal, hfront, -, htokens, hne⟩ := s.normalize_of_dims h
  obtain ⟨before, behind', after', -, htext, hrest, hne'⟩ := tailText_peel htokens hne
  obtain ⟨gap, behind'', after'', -, htext', hrest', hne''⟩ := tailText_peel hrest hne'
  have hlater : ']' ∈ tailText behind'' after'' := by
    have hmem : Token.closeBracket ∈ behind'' ++ after''.flatten := by
      rw [hrest']
      simp [dimTokens]
    obtain hmem | hmem := List.mem_append.mp hmem
    · exact List.mem_append_left _ (List.mem_flatMap.mpr ⟨_, hmem, by simp [Token.text]⟩)
    · obtain ⟨chunk, hchunk, hmem⟩ := List.mem_flatten.mp hmem
      refine List.mem_append_right _ (List.mem_flatMap.mpr ⟨chunkText chunk, ?_, ?_⟩)
      · exact List.mem_map.mpr ⟨chunk, hchunk, rfl⟩
      · exact List.mem_cons_of_mem _ (List.mem_flatMap.mpr ⟨_, hmem, by simp [Token.text]⟩)
  have hinner : ']' ∈ ((tailText behind after).reverse.dropWhile (· ≠ ']')).tail.reverse := by
    obtain ⟨x, y, hsplit, hfree⟩ := List.eq_append_cons_of_mem (List.mem_reverse.mpr hlater)
    have hreverse : (tailText behind after).reverse
        = x ++ ']' :: (y ++ ']' :: (before ++ Nat.toDigits 10 n ++ gap).reverse) := by
      rw [htext, htext']
      simp [Token.text, hsplit]
    have hall : ∀ c ∈ x, decide (c ≠ ']') = true := by
      intro c hc
      simp only [ne_eq, decide_not, Bool.not_eq_true', decide_eq_false_iff_not]
      rintro rfl
      exact hfree hc
    rw [hreverse, List.dropWhile_append_of_pos hall, List.dropWhile_cons_of_neg (by simp)]
    simp
  rw [hnormal, joinWords_bracket, splitArray_append hfront]
  split
  · rw [parseUsize_bracket (mem_trim (by decide) hinner)]
    rfl
  · rfl

end Spelled

end GovFuzz.TypeModel
