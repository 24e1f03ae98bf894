import GovFuzz.AdaParser.LexicalElements

/-!
# Ada parser — positions of the lexer

The tokens of `lex` tile the source, whatever it is.  Their lines and columns
are those of their first characters as long as no number is followed by an
exponent mark without digits: the scanner then puts its byte position back,
but not its column.
-/

namespace GovFuzz.AdaParser

open GovFuzz.Runtrace (isWhitespace)

/-! ## Tiling -/

/-- The tokens lie one behind the other, with whitespace between them, from
behind `front` to the end of the source; only the last one is empty. -/
inductive Tiled : List Char → List Char → List Token → Prop
  | eof {front gap : List Char} {token : Token} (blank : ∀ ch ∈ gap, isWhitespace ch = true)
      (kind : token.kind = .eof) (effective : token.effectiveKind = .eof)
      (span : token.textSpan = ⟨byteLength (front ++ gap), byteLength (front ++ gap)⟩) :
      Tiled front gap [token]
  | token {front gap text rest : List Char} {token : Token} {tokens : List Token}
      (blank : ∀ ch ∈ gap, isWhitespace ch = true) (nonempty : text ≠ [])
      (kind : token.kind ≠ .eof)
      (span : token.textSpan
        = ⟨byteLength (front ++ gap), byteLength (front ++ gap ++ text)⟩)
      (behind : Tiled (front ++ gap ++ text) rest tokens) :
      Tiled front (gap ++ (text ++ rest)) (token :: tokens)

theorem Tiled.whitespace {front rest : List Char} {tokens : List Token} {ch : Char}
    (h : Tiled (front ++ [ch]) rest tokens) (hch : isWhitespace ch = true) :
    Tiled front (ch :: rest) tokens := by
  have hblank {gap : List Char} (hgap : ∀ ch ∈ gap, isWhitespace ch = true) :
      ∀ other ∈ ch :: gap, isWhitespace other = true :=
    List.forall_mem_cons.2 ⟨hch, hgap⟩
  cases h with
  | eof blank kind effective span =>
      rw [List.append_assoc, List.singleton_append] at span
      exact .eof (hblank blank) kind effective span
  | token blank nonempty kind span behind =>
      rw [List.append_assoc front, List.singleton_append] at span behind
      exact .token (hblank blank) nonempty kind span behind

/-- A cursor behind this part of the source. -/
structure Cursor.Behind (c : Cursor) (front : List Char) : Prop where
  position : c.position = byteLength front
  short : byteLength front + byteLength c.rest < 4294967296

theorem Cursor.Behind.start {source : List Char} (h : byteLength source < 4294967296) :
    (Cursor.start source).Behind [] := ⟨rfl, by simpa [byteLength, Cursor.start] using h⟩

theorem Cursor.Behind.position_eq {c : Cursor} {front : List Char} (h : c.Behind front) :
    wrapU32 c.position = byteLength front := by
  have hposition := h.position
  have hshort := h.short
  unfold wrapU32
  omega

theorem Cursor.Behind.bumpOver {c : Cursor} {front text rest : List Char} (h : c.Behind front)
    (hrest : c.rest = text ++ rest) : (c.bumpOver text).Behind (front ++ text) := by
  have hshort := h.short
  rw [hrest, byteLength_append] at hshort
  constructor
  · rw [Cursor.position_over hrest, h.position, byteLength_append]
  · rw [Cursor.rest_over hrest, byteLength_append]
    omega

theorem Cursor.Behind.shift {c : Cursor} {front : List Char} (h : c.Behind front)
    (text : List Char) : (c.shift text).Behind front := ⟨h.position, h.short⟩

/-! ### The rounds of the loop -/

theorem lexFrom_nil (dialect : AdaStandard) (rounds : Nat) (lastSignificant : Option TokenKind)
    {c : Cursor} (h : c.rest = []) :
    lexFrom dialect (rounds + 1) lastSignificant c = some [tokenAt .eof c c] := by
  simp [lexFrom, h]

theorem lexFrom_whitespace (dialect : AdaStandard) (rounds : Nat)
    (lastSignificant : Option TokenKind) {c : Cursor} {ch : Char} {chars : List Char}
    (h : c.rest = ch :: chars) (hch : isWhitespace ch = true) :
    lexFrom dialect (rounds + 1) lastSignificant c
      = lexFrom dialect rounds lastSignificant (c.bumpOver [ch]) := by
  simp [lexFrom, h, hch]

/-- The cursor behind an element. -/
@[grind =] def Cursor.past (c : Cursor) (e : Element) : Cursor :=
  (c.bumpOver e.text).shift e.dangling

theorem lexFrom_element (dialect : AdaStandard) (rounds : Nat)
    (lastSignificant : Option TokenKind) {c : Cursor} {ch : Char} {chars : List Char}
    (h : c.rest = ch :: chars) (hch : ¬ isWhitespace ch = true) {e : Element}
    (he : e = Element.first dialect lastSignificant ch chars) :
    lexFrom dialect (rounds + 1) lastSignificant c
      = (lexFrom dialect rounds (nextSignificant lastSignificant e.kind) (c.past e)).map
          (tokenAt e.kind c (c.past e) :: ·) := by
  have htakes := Cursor.scan_takes h dialect lastSignificant
  simp only [lexFrom, h, hch, Bool.false_eq_true, if_false]
  rw [htakes, he]
  rfl

/-- An element is not empty, and what is behind it is shorter. -/
theorem rest_past {c : Cursor} {ch : Char} {chars : List Char} (h : c.rest = ch :: chars)
    {dialect : AdaStandard} {lastSignificant : Option TokenKind} {e : Element}
    (he : e = Element.first dialect lastSignificant ch chars) :
    c.rest = e.text ++ (c.past e).rest ∧ (c.past e).rest.length < c.rest.length := by
  obtain ⟨rest, hsplit⟩ := Element.first_isPrefix dialect lastSignificant ch chars
  have hne := Element.first_ne_nil dialect lastSignificant ch chars
  rw [← he] at hsplit hne
  have hcut : c.rest = e.text ++ rest := by rw [h, hsplit]
  have hrest : (c.past e).rest = rest := Cursor.rest_over hcut
  have hpos := List.length_pos_of_ne_nil hne
  rw [hrest, hcut, List.length_append]
  exact ⟨rfl, by omega⟩

/-- With a round for every character the lexer ends, and its tokens tile the source. -/
theorem lexFrom_tiled (dialect : AdaStandard) {rounds : Nat} {lastSignificant : Option TokenKind}
    {c : Cursor} {front : List Char} (h : c.Behind front) (hrounds : c.rest.length < rounds) :
    ∃ tokens, lexFrom dialect rounds lastSignificant c = some tokens ∧
      Tiled front c.rest tokens := by
  induction rounds generalizing lastSignificant c front with
  | zero => exact absurd hrounds (Nat.not_lt_zero _)
  | succ rounds ih =>
      cases hrest : c.rest with
      | nil =>
          rw [lexFrom_nil dialect rounds lastSignificant hrest]
          refine ⟨_, rfl, .eof (by simp) rfl rfl ?_⟩
          simp [tokenAt, h.position_eq]
      | cons ch chars =>
          by_cases hblank : isWhitespace ch = true
          · have hbump : (c.bumpOver [ch]).rest = chars := Cursor.rest_over hrest
            have hover : (c.bumpOver [ch]).Behind (front ++ [ch]) := h.bumpOver hrest
            rw [hrest, List.length_cons] at hrounds
            obtain ⟨tokens, hlex, htiled⟩ := @ih lastSignificant _ _ hover (by rw [hbump]; omega)
            rw [hbump] at htiled
            rw [lexFrom_whitespace dialect rounds lastSignificant hrest hblank]
            exact ⟨tokens, hlex, htiled.whitespace hblank⟩
          · obtain ⟨e, he⟩ : ∃ e, e = Element.first dialect lastSignificant ch chars := ⟨_, rfl⟩
            obtain ⟨hcut, hshorter⟩ := rest_past hrest he
            have hbehind : (c.past e).Behind (front ++ e.text) := (h.bumpOver hcut).shift e.dangling
            obtain ⟨tokens, hlex, htiled⟩ :=
              @ih (nextSignificant lastSignificant e.kind) _ _ hbehind (by omega)
            rw [lexFrom_element dialect rounds lastSignificant hrest hblank he, hlex, ← hrest, hcut]
            refine ⟨_, rfl, @Tiled.token front [] e.text _ _ tokens (by simp) ?_ ?_ ?_
              (by simpa using htiled)⟩
            · exact he ▸ Element.first_ne_nil dialect lastSignificant ch chars
            · exact he ▸ Element.first_kind_ne_eof dialect lastSignificant ch chars
            · simp [tokenAt, h.position_eq, hbehind.position_eq]

/-! ## Lines and columns -/

/-- The line behind a part of the source. -/
def lineOf (front : List Char) : Nat := front.count '\n' + 1

/-- The column behind a part of the source. -/
def colOf (front : List Char) : Nat := (front.reverse.takeWhile (· ≠ '\n')).length + 1

theorem lineOf_append_singleton (front : List Char) (ch : Char) :
    lineOf (front ++ [ch]) = if ch = '\n' then lineOf front + 1 else lineOf front := by
  by_cases h : ch = '\n' <;> simp [lineOf, h]

theorem colOf_append_singleton (front : List Char) (ch : Char) :
    colOf (front ++ [ch]) = if ch = '\n' then 1 else colOf front + 1 := by
  by_cases h : ch = '\n' <;> simp [colOf, h]

theorem lineOf_le (front : List Char) : lineOf front ≤ byteLength front + 1 :=
  Nat.succ_le_succ ((List.count_le_length).trans (length_le_byteLength front))

theorem colOf_le (front : List Char) : colOf front ≤ byteLength front + 1 := by
  have htake := (List.takeWhile_sublist (l := front.reverse) (· ≠ '\n')).length_le
  rw [List.length_reverse] at htake
  exact Nat.succ_le_succ (htake.trans (length_le_byteLength front))

/-- The line and the column of a token are those of its first character. -/
def Located (source : List Char) (token : Token) : Prop :=
  ∃ front rest, source = front ++ rest ∧ token.textSpan.start = byteLength front ∧
    token.line = lineOf front ∧ token.col = colOf front

/-- A byte offset is behind one part of the source only. -/
theorem eq_of_byteLength_eq {a b a' b' : List Char} (h : a ++ b = a' ++ b')
    (hlen : byteLength a = byteLength a') : a = a' := by
  rcases List.append_eq_append_iff.1 h with ⟨more, rfl, -⟩ | ⟨more, rfl, -⟩
  · rw [byteLength_append] at hlen
    rw [(byteLength_eq_zero_iff more).1 (by omega), List.append_nil]
  · rw [byteLength_append] at hlen
    rw [(byteLength_eq_zero_iff more).1 (by omega), List.append_nil]

theorem located_iff {source front rest : List Char} (h : source = front ++ rest) {token : Token}
    (hstart : token.textSpan.start = byteLength front) :
    Located source token ↔ token.line = lineOf front ∧ token.col = colOf front := by
  constructor
  · rintro ⟨front', rest', hsource, hstart', hplace⟩
    rwa [eq_of_byteLength_eq (h.symm.trans hsource) (hstart.symm.trans hstart')]
  · rintro ⟨hline, hcol⟩
    exact ⟨front, rest, h, hstart, hline, hcol⟩

/-- A cursor whose counters are those of its place. -/
structure Cursor.Exact (c : Cursor) (source front : List Char) : Prop where
  behind : c.Behind front
  split : source = front ++ c.rest
  line : c.line = wrapU32 (lineOf front)
  col : c.col = wrapU32 (colOf front)

theorem wrapU32_wrapU32_add (n k : Nat) : wrapU32 (wrapU32 n + k) = wrapU32 (n + k) := by
  unfold wrapU32
  omega

theorem Cursor.Exact.bumpOver {c : Cursor} {source front text rest : List Char}
    (h : c.Exact source front) (hrest : c.rest = text ++ rest) :
    (c.bumpOver text).Exact source (front ++ text) := by
  induction text generalizing c front with
  | nil => simpa using h
  | cons ch text ih =>
      have hbump : c.bump.rest = text ++ rest := by rw [Cursor.rest_bump, hrest]; rfl
      have hone : c.bump.Exact source (front ++ [ch]) := by
        have hover : (c.bumpOver [ch]).Behind (front ++ [ch]) := h.behind.bumpOver hrest
        refine ⟨hover, ?_, ?_, ?_⟩
        · rw [h.split, hrest, hbump]
          simp
        · rw [lineOf_append_singleton]
          by_cases hline : ch = '\n'
          · simp [Cursor.bump, hrest, hline, h.line, wrapU32_wrapU32_add]
          · simp [Cursor.bump, hrest, hline, h.line]
        · rw [colOf_append_singleton]
          by_cases hline : ch = '\n'
          · simp [Cursor.bump, hrest, hline, wrapU32]
          · simp [Cursor.bump, hrest, hline, h.col, wrapU32_wrapU32_add]
      have hall := ih hone hbump
      rwa [List.append_assoc] at hall

/-- A token at an exact cursor is located where its counters fit. -/
theorem Cursor.Exact.located_iff {c : Cursor} {source front : List Char}
    (h : c.Exact source front) (kind : TokenKind) (stop : Cursor) :
    Located source (tokenAt kind c stop) ↔
      lineOf front < 4294967296 ∧ colOf front < 4294967296 := by
  rw [AdaParser.located_iff h.split h.behind.position_eq]
  simp only [tokenAt, h.line, h.col, wrapU32]
  omega

/-- In front of a character they fit. -/
theorem Cursor.Exact.located {c : Cursor} {source front : List Char} (h : c.Exact source front)
    (hrest : c.rest ≠ []) (kind : TokenKind) (stop : Cursor) :
    Located source (tokenAt kind c stop) := by
  have hshort := h.behind.short
  have hpos : byteLength c.rest ≠ 0 := fun hzero => hrest ((byteLength_eq_zero_iff _).1 hzero)
  have hline := lineOf_le front
  have hcol := colOf_le front
  exact (h.located_iff kind stop).2 ⟨by omega, by omega⟩

/-! ### What is left dangling -/

namespace Element

theorem exponent_of_dangling {chars : List Char} (h : danglingMark chars ≠ []) :
    exponent chars = [] ∧ danglingMark chars = exponentMark chars := by
  unfold danglingMark at h ⊢
  split_ifs at h with hdigits
  · exact ⟨by simp [exponent, hdigits], by simp [hdigits]⟩
  · exact absurd rfl h

theorem basedLiteral_dangling {base chars : List Char}
    (h : (basedLiteral base chars).dangling ≠ []) :
    ∃ rest, base ++ '#' :: chars = (basedLiteral base chars).text ++ rest ∧
      (basedLiteral base chars).dangling = exponentMark rest := by
  unfold basedLiteral at h ⊢
  generalize hp : (fun ch => decide (ch ≠ '#') && isWordish ch) = p at h ⊢
  have hcut := List.takeWhile_append_dropWhile (p := p) (l := chars)
  dsimp only at h ⊢
  split at h
  · exact absurd rfl h
  · rename_i hvalid
    rw [if_neg hvalid]
    obtain ⟨hexponent, hmark⟩ := exponent_of_dangling h
    have hhead : (chars.dropWhile p).head? = some '#' := by simp_all
    refine ⟨(chars.dropWhile p).tail, ?_, hmark⟩
    conv => lhs; rw [← hcut, List.eq_cons_of_mem_head? hhead]
    simp [hexponent]

theorem number_dangling {chars : List Char} (h : (number chars).dangling ≠ []) :
    ∃ rest, chars = (number chars).text ++ rest ∧
      (number chars).dangling = exponentMark rest := by
  unfold number at h ⊢
  have hcut := List.takeWhile_append_dropWhile (p := isDigitOrUnderscore) (l := chars)
  generalize chars.takeWhile isDigitOrUnderscore = digits at *
  generalize chars.dropWhile isDigitOrUnderscore = behind at *
  subst hcut
  dsimp only at h ⊢
  split at h
  · rename_i hsharp
    obtain ⟨rest, hrest, hmark⟩ := basedLiteral_dangling h
    rw [if_pos hsharp]
    refine ⟨rest, ?_, hmark⟩
    rwa [← List.eq_cons_of_mem_head? hsharp] at hrest
  · rename_i hsharp
    rw [if_neg hsharp]
    obtain ⟨hexponent, hmark⟩ := exponent_of_dangling h
    refine ⟨behind.drop (fraction behind).length, ?_, hmark⟩
    simp [hexponent, List.prefix_iff_eq_append.1 (fraction_isPrefix behind)]

/-- Behind a number an exponent mark without digits is ahead. -/
theorem first_dangling {dialect : AdaStandard} {lastSignificant : Option TokenKind}
    {ch : Char} {chars : List Char} {e : Element}
    (he : e = first dialect lastSignificant ch chars) (h : e.dangling ≠ []) :
    ∃ rest, ch :: chars = e.text ++ rest ∧ e.dangling = exponentMark rest := by
  subst he
  unfold first at h ⊢
  split_ifs at h ⊢ with hcomment hquote happostrophe hdigit
  · exact absurd rfl h
  · exact absurd rfl h
  · unfold apostrophe at h
    split at h
    · exact absurd rfl h
    · split at h <;> exact absurd rfl h
  · exact number_dangling h
  · exact absurd rfl h
  · unfold punctuation oneOrTwo at h
    split at h <;> (try split_ifs at h) <;> exact absurd rfl h

theorem exponentMark_cases {chars : List Char} (h : exponentMark chars ≠ []) :
    (∃ mark more, chars = mark :: more ∧ isExponentMark mark = true) ∧
      (exponentMark chars).length ≤ 2 := by
  unfold exponentMark at h ⊢
  split at h
  · exact absurd rfl h
  · rename_i mark more
    by_cases hmark : isExponentMark mark = true
    · refine ⟨⟨mark, more, rfl, hmark⟩, ?_⟩
      simp only [hmark, if_true]
      split
      · simp
      · split_ifs <;> simp
    · simp [hmark] at h

end Element

theorem isExponentMark_not_whitespace {ch : Char} (h : isExponentMark ch = true) :
    ¬ isWhitespace ch = true := by
  simp only [isExponentMark, Bool.or_eq_true, decide_eq_true_eq] at h
  rcases h with rfl | rfl <;> decide

theorem foldl_wrapU32 (n : Nat) (text : List Char) :
    text.foldl (fun col _ => wrapU32 (col + 1)) (wrapU32 n) = wrapU32 (n + text.length) := by
  induction text generalizing n with
  | nil => rfl
  | cons ch text ih =>
      rw [List.foldl_cons, wrapU32_wrapU32_add, ih, List.length_cons]
      congr 1
      omega

/-- Columns that were given back are still counted. -/
theorem Cursor.Exact.not_located_past {c : Cursor} {source front : List Char} {e : Element}
    (h : (c.bumpOver e.text).Exact source front) (hrest : (c.past e).rest ≠ [])
    (hdangling : e.dangling ≠ []) (hshort : e.dangling.length ≤ 2) (kind : TokenKind)
    (stop : Cursor) : ¬ Located source (tokenAt kind (c.past e) stop) := by
  have hplace : (tokenAt kind (c.past e) stop).textSpan.start = byteLength front :=
    h.behind.position_eq
  have hcol : (tokenAt kind (c.past e) stop).col = wrapU32 (colOf front + e.dangling.length) := by
    show e.dangling.foldl (fun col _ => wrapU32 (col + 1)) (c.bumpOver e.text).col = _
    rw [h.col, foldl_wrapU32]
  rw [AdaParser.located_iff h.split hplace, hcol]
  have hpos := List.length_pos_of_ne_nil hdangling
  have hfits := colOf_le front
  have hbytes := h.behind.short
  have hne : byteLength (c.bumpOver e.text).rest ≠ 0 :=
    fun hzero => hrest ((byteLength_eq_zero_iff _).1 hzero)
  unfold wrapU32
  omega

/-- All tokens stand where they say exactly when no element leaves anything dangling and
lines and columns fit 32 bits. -/
theorem lexFrom_located (dialect : AdaStandard) {rounds : Nat}
    {lastSignificant : Option TokenKind} {c : Cursor} {source front : List Char}
    (h : c.Exact source front) (hrounds : c.rest.length < rounds) {tokens : List Token}
    (hlex : lexFrom dialect rounds lastSignificant c = some tokens) :
    (∀ token ∈ tokens, Located source token) ↔
      (∀ e ∈ elementsFrom dialect rounds lastSignificant c.rest, e.dangling = []) ∧
        lineOf source < 4294967296 ∧ colOf source < 4294967296 := by
  induction rounds generalizing lastSignificant c front tokens with
  | zero => exact absurd hrounds (Nat.not_lt_zero _)
  | succ rounds ih =>
      cases hrest : c.rest with
      | nil =>
          rw [lexFrom_nil dialect rounds lastSignificant hrest] at hlex
          cases hlex
          obtain rfl : source = front := by rw [h.split, hrest, List.append_nil]
          simpa [elementsFrom] using h.located_iff .eof c
      | cons ch chars =>
          by_cases hblank : isWhitespace ch = true
          · have hbump : (c.bumpOver [ch]).rest = chars := Cursor.rest_over hrest
            rw [lexFrom_whitespace dialect rounds lastSignificant hrest hblank] at hlex
            have hover : (c.bumpOver [ch]).Exact source (front ++ [ch]) := h.bumpOver hrest
            rw [hrest, List.length_cons] at hrounds
            have hall := ih hover (by rw [hbump]; omega) hlex
            rw [hbump] at hall
            simpa [elementsFrom, hblank] using hall
          · obtain ⟨e, he⟩ : ∃ e, e = Element.first dialect lastSignificant ch chars := ⟨_, rfl⟩
            obtain ⟨hcut, hshorter⟩ := rest_past hrest he
            rw [lexFrom_element dialect rounds lastSignificant hrest hblank he,
              Option.map_eq_some_iff] at hlex
            obtain ⟨tail, htail, rfl⟩ := hlex
            have hdrop : (ch :: chars).drop e.text.length = (c.past e).rest := by
              rw [← hrest, hcut, List.drop_left]
            have hlocated := h.located (by simp [hrest]) e.kind (c.past e)
            simp only [elementsFrom, hblank, Bool.false_eq_true, if_false, ← he, hdrop,
              List.forall_mem_cons]
            by_cases hdangling : e.dangling = []
            · -- the counters stay those of the place
              have hpast : c.past e = c.bumpOver e.text := by rw [Cursor.past, hdangling]; rfl
              have hexact : (c.past e).Exact source (front ++ e.text) := hpast ▸ h.bumpOver hcut
              have hall := ih hexact (by omega) htail
              simp only [hlocated, hdangling, true_and, hall]
            · -- the next token starts with the exponent mark, and its column is too large
              obtain ⟨rest, hsplit, hmark⟩ := Element.first_dangling he hdangling
              have hrest' : (c.past e).rest = rest := by
                rw [← hrest, hcut] at hsplit
                exact List.append_cancel_left hsplit
              obtain ⟨⟨mark, more, hcons, hexponent⟩, hlength⟩ :=
                Element.exponentMark_cases (hmark ▸ hdangling)
              rw [hcons] at hrest'
              obtain ⟨rounds, rfl⟩ := Nat.exists_eq_succ_of_ne_zero (show rounds ≠ 0 by omega)
              rw [lexFrom_element dialect rounds _ hrest' (isExponentMark_not_whitespace hexponent)
                rfl, Option.map_eq_some_iff] at htail
              obtain ⟨tail, -, rfl⟩ := htail
              have hwrong := (h.bumpOver hcut).not_located_past (by simp [hrest']) hdangling
                (hmark ▸ hlength)
              simp [hdangling, hwrong]

/-- The tokens tile the source, and their lines and columns are true. -/
def LexesTruly (source : List Char) (dialect : AdaStandard) : Prop :=
  ∃ tokens, lex source dialect = some tokens ∧ Tiled [] source tokens ∧
    ∀ token ∈ tokens, Located source token

/-- No number stands in front of an exponent mark without digits. -/
def NothingDangles (source : List Char) (dialect : AdaStandard) : Prop :=
  ∀ e ∈ elements dialect source, e.dangling = []

/-- Every source is tiled. -/
theorem lex_tiled {source : List Char} (h : byteLength source < 4294967296)
    (dialect : AdaStandard) : ∃ tokens, lex source dialect = some tokens ∧
      Tiled [] source tokens :=
  lexFrom_tiled dialect (.start h) (Nat.lt_succ_self _)

/-- **The positions are true where nothing dangles**: the tokens of a source of
less than 2^32 bytes tile it, and have the lines and columns of their first
characters exactly if no number is followed by an exponent mark without
digits, and the line and the column of its end fit. -/
theorem lexesTruly_iff {source : List Char} (h : byteLength source < 4294967296)
    (dialect : AdaStandard) : LexesTruly source dialect ↔
      NothingDangles source dialect ∧ lineOf source < 4294967296 ∧ colOf source < 4294967296 := by
  obtain ⟨tokens, hlex, htiled⟩ := lex_tiled h dialect
  have hstart : (Cursor.start source).Exact source [] :=
    ⟨.start h, rfl, rfl, rfl⟩
  have hlocated := lexFrom_located dialect hstart (Nat.lt_succ_self _) hlex
  constructor
  · rintro ⟨tokens', hlex', -, htrue⟩
    rw [hlex] at hlex'
    cases hlex'
    exact hlocated.1 htrue
  · intro hsteady
    exact ⟨tokens, hlex, htiled, hlocated.2 hsteady⟩

/-- A line of its own for each number, with and without an exponent. -/
theorem lexesTruly_iff_numbers :
    LexesTruly "16#FF#E1\n1_000 else\n2.5e-3".toList .ada2012 ↔
      NothingDangles "16#FF#E1\n1_000 else\n2.5e-3".toList .ada2012 ∧
        lineOf "16#FF#E1\n1_000 else\n2.5e-3".toList < 4294967296 ∧
        colOf "16#FF#E1\n1_000 else\n2.5e-3".toList < 4294967296 :=
  lexesTruly_iff (by decide) .ada2012

/-- The word behind the number starts in the second column, not in the third. -/
theorem not_lexesTruly :
    lex "1else".toList .ada2012 = some
      [⟨.intLiteral "1", .intLiteral "1", ⟨0, 1⟩, 1, 1⟩, ⟨.kwElse, .kwElse, ⟨1, 5⟩, 1, 3⟩,
        ⟨.eof, .eof, ⟨5, 5⟩, 1, 7⟩] ∧
    ¬ LexesTruly "1else".toList .ada2012 := by
  have hlex : lex "1else".toList .ada2012 = some
      [⟨.intLiteral "1", .intLiteral "1", ⟨0, 1⟩, 1, 1⟩, ⟨.kwElse, .kwElse, ⟨1, 5⟩, 1, 3⟩,
        ⟨.eof, .eof, ⟨5, 5⟩, 1, 7⟩] := by decide
  refine ⟨hlex, ?_⟩
  rintro ⟨tokens, htokens, -, hlocated⟩
  rw [hlex] at htokens
  cases htokens
  have hword := hlocated ⟨.kwElse, .kwElse, ⟨1, 5⟩, 1, 3⟩ (by simp)
  have hsplit : "1else".toList = ['1'] ++ ['e', 'l', 's', 'e'] := by decide
  have hplace := (located_iff hsplit (by decide)).1 hword
  exact absurd hplace.2 (by decide)

/-! ## Tokens are elements -/

/-- The token is the element that stands between these offsets. -/
def Stands (source : List Char) (dialect : AdaStandard) (token : Token) : Prop :=
  ∃ front rest lastSignificant ch chars, ∃ e, e = Element.first dialect lastSignificant ch chars ∧
    source = front ++ (e.text ++ rest) ∧ token.kind = e.kind ∧
      token.textSpan = ⟨byteLength front, byteLength (front ++ e.text)⟩

/-- Every token but the last stands at its place in the source. -/
theorem lexFrom_stands (dialect : AdaStandard) {rounds : Nat} {lastSignificant : Option TokenKind}
    {c : Cursor} {source front : List Char} {tokens : List Token} (h : c.Behind front)
    (hsource : source = front ++ c.rest)
    (hlex : lexFrom dialect rounds lastSignificant c = some tokens) :
    ∀ token ∈ tokens, token.kind ≠ .eof → Stands source dialect token := by
  induction rounds generalizing lastSignificant c front tokens with
  | zero => cases hlex
  | succ rounds ih =>
      cases hrest : c.rest with
      | nil =>
          rw [lexFrom_nil dialect rounds lastSignificant hrest] at hlex
          cases hlex
          intro token htoken hkind
          rw [List.mem_singleton.mp htoken] at hkind
          exact absurd rfl hkind
      | cons ch chars =>
          by_cases hblank : isWhitespace ch = true
          · have hbump : (c.bumpOver [ch]).rest = chars := Cursor.rest_over hrest
            have hover : (c.bumpOver [ch]).Behind (front ++ [ch]) := h.bumpOver hrest
            rw [lexFrom_whitespace dialect rounds lastSignificant hrest hblank] at hlex
            exact ih hover (by rw [hbump, hsource, hrest]; simp) hlex
          · obtain ⟨e, he⟩ : ∃ e, e = Element.first dialect lastSignificant ch chars := ⟨_, rfl⟩
            obtain ⟨hcut, -⟩ := rest_past hrest he
            have hbehind : (c.past e).Behind (front ++ e.text) :=
              (h.bumpOver hcut).shift e.dangling
            have hsplit : source = front ++ (e.text ++ (c.past e).rest) := by rw [hsource, ← hcut]
            rw [lexFrom_element dialect rounds lastSignificant hrest hblank he,
              Option.map_eq_some_iff] at hlex
            obtain ⟨tail, htail, rfl⟩ := hlex
            intro token htoken hkind
            rcases List.mem_cons.mp htoken with rfl | htoken
            · refine ⟨front, (c.past e).rest, lastSignificant, ch, chars, e, he, hsplit, rfl, ?_⟩
              simp only [tokenAt, h.position_eq, hbehind.position_eq]
            · exact ih hbehind (by rw [hsplit, List.append_assoc]) htail token htoken hkind

theorem lex_stands {source : List Char} (h : byteLength source < 4294967296)
    {dialect : AdaStandard} {tokens : List Token} (hlex : lex source dialect = some tokens)
    {token : Token} (htoken : token ∈ tokens) (hkind : token.kind ≠ .eof) :
    Stands source dialect token :=
  lexFrom_stands dialect (.start h) rfl hlex token htoken hkind

end GovFuzz.AdaParser
