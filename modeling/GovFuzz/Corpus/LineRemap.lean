import GovFuzz.Instrumenter.LineMap
import Mathlib.Algebra.GroupWithZero.Nat

/-!
# Corpus — lines of exception messages, mapped back

`SourceLineMaps::remap_message` of `crates/corpus/src/line_remap.rs`.  A
message is its list of characters; only ASCII characters take part in a
match, so stepping by characters and stepping by bytes see the same ones.
-/

namespace GovFuzz.Corpus

open GovFuzz.Instrumenter

structure ResolvedLocation where
  sourcePath : List Char
  originalLine : Nat
  deriving DecidableEq

/-- Lower-cased base name of the instrumented file, with the path of the
original and the anchors of its line map. -/
structure SourceLineMaps where
  maps : List (List Char × List Char × List (Nat × Nat))

/-- The bytes of a file name stem. -/
def isStemByte (c : Char) : Bool := c.isAlphanum || c = '_' || c = '-'

def toAsciiLowercase (text : List Char) : List Char := text.map Char.toLower

def SourceLineMaps.get (maps : SourceLineMaps) (basename : List Char) :
    Option (List Char × List (Nat × Nat)) :=
  maps.maps.lookup (toAsciiLowercase basename)

/-- `to_original`, the lookup of the instrumenter in a second crate. -/
def SourceLineMaps.toOriginal (anchors : List (Nat × Nat)) (instrLine : Nat) : Nat :=
  LineMap.toOriginal ⟨anchors⟩ instrLine

/-- `str::parse::<u32>` of a run of digits. -/
def parseU32 (digits : List Char) : Option Nat :=
  let value := digits.foldl (fun n c => 10 * n + (c.toNat - '0'.toNat)) 0
  if value < 2 ^ 32 then some value else none

/-- A reference at the front of a text, and the text behind it. -/
structure FileLine where
  basename : List Char
  digits : List Char
  line : Nat
  after : List Char

def isSourceExtension (ext : List Char) : Bool :=
  toAsciiLowercase ext = ['.', 'a', 'd', 'b'] || toAsciiLowercase ext = ['.', 'a', 'd', 's']

/-- `match_file_line` at the position between `prev` and `rest`. -/
def matchFileLine (prev : Option Char) (rest : List Char) : Option FileLine :=
  if prev.any isStemByte then none
  else
    let stem := rest.takeWhile isStemByte
    let behind := rest.dropWhile isStemByte
    let ext := behind.take 4
    if !isSourceExtension ext then none
    else if (behind.drop 4).head? ≠ some ':' then none
    else if stem.isEmpty then none
    else
      let digits := (behind.drop 5).takeWhile Char.isDigit
      if digits.isEmpty then none
      else (parseU32 digits).map fun line =>
        { basename := stem ++ ext, digits, line, after := (behind.drop 5).dropWhile Char.isDigit }

/-! ## What is a reference -/

/-- The reference as it stands in the text. -/
def FileLine.text (ref : FileLine) : List Char := ref.basename ++ ':' :: ref.digits

def IsBasename (name : List Char) : Prop :=
  ∃ stem ext, name = stem ++ ext ∧ stem ≠ [] ∧ (∀ c ∈ stem, isStemByte c) ∧ isSourceExtension ext

/-- `ref` is a reference when it stands behind `prev`: a file name not cut
out of a longer one, a colon, and all of a line number. -/
structure FileLine.Placed (ref : FileLine) (prev : Option Char) : Prop where
  prev : prev.any isStemByte = false
  basename : IsBasename ref.basename
  digits_ne_nil : ref.digits ≠ []
  digits : ∀ c ∈ ref.digits, c.isDigit
  line : parseU32 ref.digits = some ref.line
  after : ref.after.head?.any Char.isDigit = false

/-! ## Characters -/

theorem toLower_cases (c : Char) :
    c.toLower = c ∨ (65 ≤ c.toNat ∧ c.toNat ≤ 90 ∧ c.toLower.toNat = c.toNat + 32) := by
  unfold Char.toLower
  split
  · rename_i h
    have hlow : 65 ≤ c.toNat := UInt32.le_iff_toNat_le.mp h.1
    have hhigh : c.toNat ≤ 90 := UInt32.le_iff_toNat_le.mp h.2
    refine .inr ⟨hlow, hhigh, ?_⟩
    show (c.val + 32).toNat = c.val.toNat + 32
    rw [UInt32.toNat_add]
    show (c.val.toNat + 32) % 2 ^ 32 = _
    have : c.val.toNat ≤ 90 := hhigh
    omega
  · exact .inl rfl

theorem eq_dot_of_toLower {c : Char} (h : c.toLower = '.') : c = '.' := by
  rcases toLower_cases c with hc | ⟨hlow, -, hval⟩
  · rw [← hc, h]
  · have hdot : c.toLower.toNat = 46 := by rw [h]; rfl
    omega

theorem isStemByte_of_toLower {c d : Char} (hd : d.isAlpha) (h : c.toLower = d) :
    isStemByte c := by
  have halpha : c.isAlpha := by
    rcases toLower_cases c with hc | ⟨hlow, hhigh, -⟩
    · rw [← hc, h]
      exact hd
    · have hupper : c.isUpper := by
        apply decide_eq_true
        exact ⟨UInt32.le_iff_toNat_le.mpr hlow, UInt32.le_iff_toNat_le.mpr hhigh⟩
      show (c.isUpper || c.isLower) = true
      rw [hupper, Bool.true_or]
  rw [isStemByte, Char.isAlphanum, halpha]
  rfl

theorem isStemByte_of_isDigit {c : Char} (h : c.isDigit) : isStemByte c := by
  rw [isStemByte, Char.isAlphanum, h, Bool.or_true]
  rfl

/-- An extension is a dot and three letters. -/
theorem isSourceExtension_eq {ext : List Char} (h : isSourceExtension ext) :
    ∃ a b c, ext = ['.', a, b, c] ∧ isStemByte a ∧ isStemByte b ∧ isStemByte c := by
  have hlower : ∃ d, d.isAlpha ∧ ext.map Char.toLower = ['.', 'a', 'd', d] := by
    simp only [isSourceExtension, toAsciiLowercase, Bool.or_eq_true] at h
    rcases h with h | h
    · exact ⟨'b', by decide, of_decide_eq_true h⟩
    · exact ⟨'s', by decide, of_decide_eq_true h⟩
  obtain ⟨d, hd, hlower⟩ := hlower
  simp only [List.map_eq_cons_iff, List.map_eq_nil_iff] at hlower
  obtain ⟨dot, _, rfl, hdot, a, _, rfl, ha, b, _, rfl, hb, c, _, rfl, hc, rfl⟩ := hlower
  rw [eq_dot_of_toLower hdot]
  exact ⟨a, b, c, rfl, isStemByte_of_toLower (by decide) ha,
    isStemByte_of_toLower (by decide) hb, isStemByte_of_toLower hd hc⟩

/-! ## Matching -/

theorem takeWhile_append_of_boundary {p : Char → Bool} {front rest : List Char}
    (hfront : ∀ c ∈ front, p c) (hrest : rest.head?.any p = false) :
    (front ++ rest).takeWhile p = front ∧ (front ++ rest).dropWhile p = rest := by
  rw [List.takeWhile_append_of_pos hfront, List.dropWhile_append_of_pos hfront]
  cases rest with
  | nil => simp
  | cons c cs =>
      have hc : p c = false := hrest
      simp [hc]

theorem head?_dropWhile_any (p : Char → Bool) (l : List Char) :
    (l.dropWhile p).head?.any p = false := by
  have h := List.head?_dropWhile_not p l
  cases hhead : (l.dropWhile p).head? with
  | none => rfl
  | some c => simpa [hhead] using h

/-- `match_file_line` finds exactly the references. -/
theorem matchFileLine_eq_some {prev : Option Char} {rest : List Char} {ref : FileLine} :
    matchFileLine prev rest = some ref ↔ ref.Placed prev ∧ rest = ref.text ++ ref.after := by
  constructor
  · intro h
    simp only [matchFileLine, Option.ite_none_left_eq_some] at h
    obtain ⟨hprev, hext, hcolon, hstem, hdigits, h⟩ := h
    obtain ⟨line, hline, rfl⟩ := Option.map_eq_some_iff.mp h
    -- the text falls into the stem, the extension, the colon and the digits
    have hbehind : (rest.dropWhile isStemByte).drop 4
        = ':' :: (rest.dropWhile isStemByte).drop 5 := by
      have hhead := not_not.mp hcolon
      have htail : (rest.dropWhile isStemByte).drop 5
          = ((rest.dropWhile isStemByte).drop 4).tail := List.tail_drop.symm
      rw [htail]
      cases hdrop : (rest.dropWhile isStemByte).drop 4 with
      | nil => simp [hdrop] at hhead
      | cons c cs => simpa [hdrop] using hhead
    refine ⟨⟨by simpa using hprev, ⟨_, _, rfl, by simpa using hstem, ?_, by simpa using hext⟩,
      by simpa using hdigits, ?_, hline, head?_dropWhile_any _ _⟩, ?_⟩
    · exact fun c hc => List.mem_takeWhile_imp hc
    · exact fun c hc => List.mem_takeWhile_imp hc
    · calc rest = rest.takeWhile isStemByte ++ rest.dropWhile isStemByte :=
            List.takeWhile_append_dropWhile.symm
        _ = rest.takeWhile isStemByte ++ ((rest.dropWhile isStemByte).take 4 ++
              (rest.dropWhile isStemByte).drop 4) := by rw [List.take_append_drop]
        _ = _ := by
            rw [hbehind, FileLine.text]
            simp only [List.append_assoc, List.cons_append, List.takeWhile_append_dropWhile]
  · intro h
    obtain ⟨basename, digits, line, after⟩ := ref
    obtain ⟨⟨hprev, ⟨stem, ext, hname, hne, hstem, hext⟩, hdigits, hall, hline, hafter⟩, hrest⟩ := h
    obtain ⟨a, b, c, rfl, -⟩ := isSourceExtension_eq hext
    have hsplit : rest = stem ++ ('.' :: a :: b :: c :: ':' :: (digits ++ after)) := by
      rw [hrest, FileLine.text, hname]
      simp
    have hdot : ('.' :: a :: b :: c :: ':' :: (digits ++ after)).head?.any isStemByte = false := rfl
    obtain ⟨htake, hdrop⟩ := takeWhile_append_of_boundary hstem hdot
    obtain ⟨htake', hdrop'⟩ := takeWhile_append_of_boundary hall hafter
    have hname' : basename = stem ++ ['.', a, b, c] := hname
    have hdigits' : digits ≠ [] := hdigits
    have hline' : parseU32 digits = some line := hline
    simp [matchFileLine, hprev, hsplit, htake, hdrop, hext, hne, htake', hdrop', hdigits', hline',
      hname']

/-! ## The loop -/

def SourceLineMaps.remapLoop (maps : SourceLineMaps) (prev : Option Char) (rest : List Char)
    (out : List Char) (resolved : Option ResolvedLocation) :
    List Char × Option ResolvedLocation :=
  match rest with
  | [] => (out, resolved)
  | ch :: chars =>
      match _hmatch : matchFileLine prev (ch :: chars) with
      | some ref =>
          match maps.get ref.basename with
          | some (sourcePath, anchors) =>
              let original := toOriginal anchors ref.line
              remapLoop maps ref.digits.getLast? ref.after
                (out ++ ref.basename ++ ':' :: Nat.toDigits 10 original)
                (resolved.or (some { sourcePath, originalLine := original }))
          | none => remapLoop maps (some ch) chars (out ++ [ch]) resolved
      | none => remapLoop maps (some ch) chars (out ++ [ch]) resolved
termination_by rest.length
decreasing_by
  · rw [(matchFileLine_eq_some.mp _hmatch).2, FileLine.text]
    simp only [List.length_append, List.length_cons]
    omega
  · simp
  · simp

def SourceLineMaps.remapMessage (maps : SourceLineMaps) (message : List Char) :
    List Char × Option ResolvedLocation :=
  if maps.maps.isEmpty || message.isEmpty then (message, none)
  else maps.remapLoop none message [] none

theorem FileLine.text_ne_nil (ref : FileLine) : ref.text ≠ [] := by
  simp [FileLine.text]

/-- A reference with a known map is consumed whole. -/
theorem remapLoop_reference {maps : SourceLineMaps} {prev : Option Char} {ref : FileLine}
    {path : List Char} {anchors : List (Nat × Nat)} (h : ref.Placed prev)
    (hget : maps.get ref.basename = some (path, anchors)) (out : List Char)
    (resolved : Option ResolvedLocation) :
    maps.remapLoop prev (ref.text ++ ref.after) out resolved
      = maps.remapLoop ref.digits.getLast? ref.after
          (out ++ ref.basename ++
            ':' :: Nat.toDigits 10 (SourceLineMaps.toOriginal anchors ref.line))
          (resolved.or (some { sourcePath := path
                               originalLine := SourceLineMaps.toOriginal anchors ref.line })) := by
  have hmatch := matchFileLine_eq_some.mpr ⟨h, rfl⟩
  cases hrest : ref.text ++ ref.after with
  | nil => simp [FileLine.text] at hrest
  | cons ch chars =>
      rw [hrest] at hmatch
      rw [SourceLineMaps.remapLoop]
      split
      · rename_i ref' hmatch'
        have href : ref' = ref := Option.some.inj (hmatch'.symm.trans hmatch)
        subst href
        simp only [hget]
      · rename_i hnone
        rw [hmatch] at hnone
        cases hnone

/-- Where no reference with a known map starts, one character is copied. -/
theorem remapLoop_char {maps : SourceLineMaps} {prev : Option Char} {ch : Char}
    {chars : List Char}
    (h : ∀ ref, matchFileLine prev (ch :: chars) = some ref → maps.get ref.basename = none)
    (out : List Char) (resolved : Option ResolvedLocation) :
    maps.remapLoop prev (ch :: chars) out resolved
      = maps.remapLoop (some ch) chars (out ++ [ch]) resolved := by
  rw [SourceLineMaps.remapLoop]
  split
  · rename_i ref hmatch
    simp only [h ref hmatch]
  · rfl

/-! ## Segments -/

/-- A character copied through, or a reference with the anchors of its file. -/
inductive Segment where
  | char (c : Char)
  | reference (basename digits : List Char) (line : Nat) (anchors : List (Nat × Nat))

/-- The segment in the message. -/
def Segment.text : Segment → List Char
  | .char c => [c]
  | .reference basename digits _ _ => basename ++ ':' :: digits

/-- The segment in the result: only the line number of a reference differs. -/
def Segment.remapped : Segment → List Char
  | .char c => [c]
  | .reference basename _ line anchors =>
      basename ++ ':' :: Nat.toDigits 10 (SourceLineMaps.toOriginal anchors line)

/-- Every reference among the segments is one where it stands, to a file
with a known map. -/
def Known (maps : SourceLineMaps) : Option Char → List Segment → Prop
  | _, [] => True
  | _, .char c :: segs => Known maps (some c) segs
  | prev, .reference basename digits line anchors :: segs =>
      FileLine.Placed { basename, digits, line, after := segs.flatMap Segment.text } prev ∧
        (∃ path, maps.get basename = some (path, anchors)) ∧ Known maps digits.getLast? segs

/-- What the loop makes of a text, as segments. -/
structure Splits (maps : SourceLineMaps) (prev : Option Char) (rest : List Char)
    (segs : List Segment) : Prop where
  text : segs.flatMap Segment.text = rest
  known : Known maps prev segs
  out : ∀ out resolved, (maps.remapLoop prev rest out resolved).1
    = out ++ segs.flatMap Segment.remapped

theorem Splits.nil (maps : SourceLineMaps) (prev : Option Char) : Splits maps prev [] [] where
  text := rfl
  known := trivial
  out := fun out resolved => by
    rw [SourceLineMaps.remapLoop]
    simp

theorem Splits.char {maps : SourceLineMaps} {prev : Option Char} {ch : Char} {chars : List Char}
    {segs : List Segment}
    (h : ∀ ref, matchFileLine prev (ch :: chars) = some ref → maps.get ref.basename = none)
    (hrest : Splits maps (some ch) chars segs) :
    Splits maps prev (ch :: chars) (.char ch :: segs) where
  text := by rw [List.flatMap_cons, hrest.text, Segment.text, List.singleton_append]
  known := hrest.known
  out := fun out resolved => by
    rw [remapLoop_char h, hrest.out, List.flatMap_cons, Segment.remapped, List.append_assoc]

theorem Splits.reference {maps : SourceLineMaps} {prev : Option Char} {ref : FileLine}
    {path : List Char} {anchors : List (Nat × Nat)} {segs : List Segment} (h : ref.Placed prev)
    (hget : maps.get ref.basename = some (path, anchors))
    (hrest : Splits maps ref.digits.getLast? ref.after segs) :
    Splits maps prev (ref.text ++ ref.after)
      (.reference ref.basename ref.digits ref.line anchors :: segs) where
  text := by rw [List.flatMap_cons, hrest.text, Segment.text, FileLine.text]
  known := by
    refine ⟨?_, ⟨path, hget⟩, hrest.known⟩
    rw [hrest.text]
    exact h
  out := fun out resolved => by
    rw [remapLoop_reference h hget, hrest.out, List.flatMap_cons, Segment.remapped]
    simp only [List.append_assoc, List.cons_append]

/-- Either a reference with a known map starts here, or none does. -/
theorem reference_or_char (maps : SourceLineMaps) (prev : Option Char) (rest : List Char) :
    (∃ ref path anchors, FileLine.Placed ref prev ∧ rest = ref.text ++ ref.after ∧
      maps.get ref.basename = some (path, anchors)) ∨
    ∀ ref, matchFileLine prev rest = some ref → maps.get ref.basename = none := by
  cases hmatch : matchFileLine prev rest with
  | none => exact .inr fun ref href => nomatch href
  | some ref =>
      obtain ⟨hplaced, hrest⟩ := matchFileLine_eq_some.mp hmatch
      cases hget : maps.get ref.basename with
      | some known => exact .inl ⟨ref, known.1, known.2, hplaced, hrest, hget⟩
      | none =>
          refine .inr fun ref' href => ?_
          cases href
          exact hget

theorem exists_splits (maps : SourceLineMaps) (prev : Option Char) (rest : List Char) :
    ∃ segs, Splits maps prev rest segs := by
  induction hlen : rest.length using Nat.strongRecOn generalizing prev rest with
  | _ n ih =>
    rcases reference_or_char maps prev rest with ⟨ref, path, anchors, hplaced, rfl, hget⟩ | hnone
    · have hpos := List.length_pos_of_ne_nil ref.text_ne_nil
      rw [List.length_append] at hlen
      obtain ⟨segs, hsegs⟩ := ih ref.after.length (by omega) ref.digits.getLast? ref.after rfl
      exact ⟨_, hsegs.reference hplaced hget⟩
    · cases rest with
      | nil => exact ⟨[], .nil maps prev⟩
      | cons ch chars =>
          rw [List.length_cons] at hlen
          obtain ⟨segs, hsegs⟩ := ih chars.length (by omega) (some ch) chars rfl
          exact ⟨_, hsegs.char hnone⟩

/-! ## No reference is missed -/

/-- `ref` is a reference behind `pre`, and its file name does not start
inside the line number of another one that is rewritten. -/
structure FileLine.StandsBehind (ref : FileLine) (maps : SourceLineMaps) (prev : Option Char)
    (pre : List Char) : Prop where
  placed : ref.Placed (pre.getLast?.or prev)
  free : ∀ (before : List Char) (other : FileLine), pre = before ++ other.basename ++ [':'] →
    ref.text ++ ref.after = other.digits ++ other.after →
    other.Placed (before.getLast?.or prev) → maps.get other.basename = none

theorem getLast?_append_or (front text : List Char) (prev : Option Char) :
    (front ++ text).getLast?.or prev = text.getLast?.or (front.getLast?.or prev) := by
  rw [List.getLast?_append]
  cases text.getLast? <;> rfl

theorem FileLine.Placed.getLast?_text {ref : FileLine} {prev : Option Char} (h : ref.Placed prev)
    (prev' : Option Char) : ref.text.getLast?.or prev' = ref.digits.getLast? := by
  obtain ⟨digits, d, hd⟩ := (List.eq_nil_or_concat' ref.digits).resolve_left h.digits_ne_nil
  have htext : ref.text = (ref.basename ++ ':' :: digits) ++ [d] := by
    rw [FileLine.text, hd]
    simp
  rw [htext, hd, List.getLast?_concat, List.getLast?_concat]
  rfl

/-- Moving on over the front of `pre`. -/
theorem FileLine.StandsBehind.advance {ref : FileLine} {maps : SourceLineMaps}
    {prev : Option Char} {front pre : List Char} (h : ref.StandsBehind maps prev (front ++ pre)) :
    ref.StandsBehind maps (front.getLast?.or prev) pre where
  placed := by
    have := h.placed
    rwa [getLast?_append_or] at this
  free := by
    intro before other hpre htext hplaced
    apply h.free (front ++ before) other _ htext
    · rwa [getLast?_append_or]
    · rw [hpre]
      simp only [List.append_assoc]

/-- A text whose last character is no stem byte does not end in one. -/
theorem not_ends_in_stem {pre front : List Char} {c : Char} {prev : Option Char}
    (h : (pre.getLast?.or prev).any isStemByte = false) (hpre : pre = front ++ [c])
    (hc : isStemByte c) : False := by
  rw [hpre, List.getLast?_concat] at h
  simp [hc] at h

/-- Behind the letters a file name starts with stands its dot. -/
theorem colon_not_behind_stem {ref : FileLine} (h : IsBasename ref.basename) {a b c : Char}
    {rest : List Char} (heq : ref.text ++ ref.after = (a :: b :: c :: ':' :: rest))
    (ha : isStemByte a) (hb : isStemByte b) (hc : isStemByte c) : False := by
  obtain ⟨stem, ext, hbase, -, hstem, hext⟩ := h
  obtain ⟨x, y, z, rfl, -⟩ := isSourceExtension_eq hext
  have hdot : ('.' :: x :: y :: z :: ':' :: (ref.digits ++ ref.after)).head?.any isStemByte
      = false := rfl
  have hdrop := (takeWhile_append_of_boundary hstem hdot).2
  have hsplit : stem ++ ('.' :: x :: y :: z :: ':' :: (ref.digits ++ ref.after))
      = a :: b :: c :: ':' :: rest := by
    rw [← heq, FileLine.text, hbase]
    simp
  have hcolon : isStemByte ':' = false := rfl
  rw [hsplit] at hdrop
  simp [ha, hb, hc, hcolon] at hdrop

/-- A reference that starts before `ref` and is not the one `free` speaks
of ends before it. -/
theorem FileLine.Placed.within {ref other : FileLine} {prev : Option Char} {pre : List Char}
    (hother : other.Placed prev) (hpre : pre ≠ [])
    (hlast : (pre.getLast?.or prev).any isStemByte = false) (hname : IsBasename ref.basename)
    (heq : pre ++ (ref.text ++ ref.after) = other.text ++ other.after)
    (hne : pre ≠ other.basename ++ [':']) : ∃ pre', pre = other.text ++ pre' := by
  obtain ⟨stem, ext, hbase, -, hstem, hext⟩ := hother.basename
  obtain ⟨a, b, c, rfl, ha, hb, hc⟩ := isSourceExtension_eq hext
  obtain ⟨init, z, rfl⟩ := (List.eq_nil_or_concat' pre).resolve_left hpre
  have hz : ¬ isStemByte z := fun hz => not_ends_in_stem hlast rfl hz
  rcases List.append_eq_append_iff.mp heq with ⟨cut, htext, hrest⟩ | ⟨pre', hpre', -⟩
  · -- `z` is a character of the other reference: only two of them are no stem bytes
    exfalso
    have htext' : stem ++ ('.' :: a :: b :: c :: ':' :: other.digits) = init ++ z :: cut := by
      rw [List.append_cons init, ← htext, FileLine.text, hbase]
      simp
    rcases List.append_eq_append_iff.mp htext' with ⟨inside, rfl, hcut⟩ | ⟨inside, hinside, hcut⟩
    · rcases inside with _ | ⟨_, _ | ⟨_, _ | ⟨_, _ | ⟨_, _ | ⟨_, inside⟩⟩⟩⟩⟩ <;>
        simp only [List.nil_append, List.cons_append, List.cons.injEq] at hcut
      · -- the dot: `ref` would have a colon behind three letters
        obtain ⟨-, rfl⟩ := hcut
        exact colon_not_behind_stem hname hrest ha hb hc
      · exact hz (hcut.2.1 ▸ ha)
      · exact hz (hcut.2.2.1 ▸ hb)
      · exact hz (hcut.2.2.2.1 ▸ hc)
      · -- the colon: `pre` ends in it
        obtain ⟨rfl, rfl, rfl, rfl, rfl, -⟩ := hcut
        exact hne (by rw [hbase])
      · obtain ⟨-, -, -, -, -, hdigits⟩ := hcut
        apply hz
        apply isStemByte_of_isDigit
        apply hother.digits
        rw [hdigits]
        simp
    · rcases inside with _ | ⟨z', inside⟩
      · simp only [List.nil_append, List.cons.injEq] at hcut
        obtain ⟨-, rfl⟩ := hcut
        exact colon_not_behind_stem hname hrest ha hb hc
      · simp only [List.cons_append, List.cons.injEq] at hcut
        apply hz
        apply hstem
        rw [hinside, hcut.1]
        simp
  · exact ⟨pre', hpre'⟩

/-- A reference that stands behind other text is one segment of a split of the whole
message. -/
theorem splits_at_reference {maps : SourceLineMaps} {ref : FileLine} {path : List Char}
    {anchors : List (Nat × Nat)} (hget : maps.get ref.basename = some (path, anchors))
    (prev : Option Char) (pre : List Char) (h : ref.StandsBehind maps prev pre) :
    ∃ front behind, front.flatMap Segment.text = pre ∧
      behind.flatMap Segment.text = ref.after ∧
      Splits maps prev (pre ++ (ref.text ++ ref.after))
        (front ++ .reference ref.basename ref.digits ref.line anchors :: behind) := by
  induction hlen : pre.length using Nat.strongRecOn generalizing prev pre with
  | _ n ih =>
    by_cases hpre : pre = []
    · subst hpre
      obtain ⟨behind, hbehind⟩ := exists_splits maps ref.digits.getLast? ref.after
      exact ⟨[], behind, rfl, hbehind.text, hbehind.reference h.placed hget⟩
    · rcases reference_or_char maps prev (pre ++ (ref.text ++ ref.after)) with
        ⟨other, path', anchors', hother, heq, hget'⟩ | hnone
      · -- an earlier reference: consumed before `ref` starts
        have hne : pre ≠ other.basename ++ [':'] := by
          intro hcolon
          have htext : ref.text ++ ref.after = other.digits ++ other.after := by
            have hsplit : other.text ++ other.after
                = (other.basename ++ [':']) ++ (other.digits ++ other.after) := by
              simp [FileLine.text]
            rw [hcolon, hsplit] at heq
            exact List.append_cancel_left heq
          have hnone := h.free [] other (by simpa using hcolon) htext hother
          rw [hnone] at hget'
          cases hget'
        obtain ⟨pre', rfl⟩ := hother.within hpre h.placed.prev h.placed.basename heq hne
        have hafter : other.after = pre' ++ (ref.text ++ ref.after) := by
          rw [List.append_assoc] at heq
          exact (List.append_cancel_left heq).symm
        have hadvance := h.advance
        rw [hother.getLast?_text] at hadvance
        have hpos := List.length_pos_of_ne_nil other.text_ne_nil
        rw [List.length_append] at hlen
        obtain ⟨front, behind, hfront, hbehind, hsplits⟩ :=
          ih pre'.length (by omega) _ pre' hadvance rfl
        refine ⟨.reference other.basename other.digits other.line anchors' :: front, behind, ?_,
          hbehind, ?_⟩
        · rw [List.flatMap_cons, hfront, Segment.text, FileLine.text]
        · rw [heq]
          rw [← hafter] at hsplits
          exact hsplits.reference hother hget'
      · -- no reference begins here: one character goes by
        obtain ⟨c, pre', rfl⟩ := List.exists_cons_of_ne_nil hpre
        have hcons : ref.StandsBehind maps prev ([c] ++ pre') := h
        have hadvance : ref.StandsBehind maps (some c) pre' := hcons.advance
        obtain ⟨front, behind, hfront, hbehind, hsplits⟩ :=
          ih pre'.length (by rw [List.length_cons] at hlen; omega) _ pre' hadvance rfl
        refine ⟨.char c :: front, behind, ?_, hbehind, ?_⟩
        · rw [List.flatMap_cons, hfront, Segment.text, List.singleton_append]
        · exact hsplits.char hnone

/-! ## Whole messages -/

/-- With no maps there is nothing to rewrite. -/
theorem Known.remapped_eq_text {maps : SourceLineMaps} (hmaps : maps.maps = [])
    (segs : List Segment) {prev : Option Char} (h : Known maps prev segs) :
    segs.flatMap Segment.remapped = segs.flatMap Segment.text := by
  induction segs generalizing prev with
  | nil => rfl
  | cons seg segs ih =>
      cases seg with
      | char c =>
          have hrest : Known maps (some c) segs := h
          rw [List.flatMap_cons, List.flatMap_cons, ih hrest, Segment.remapped, Segment.text]
      | reference basename digits line anchors =>
          obtain ⟨-, ⟨path, hget⟩, -⟩ := h
          rw [SourceLineMaps.get, hmaps] at hget
          cases hget

theorem Splits.remapMessage {maps : SourceLineMaps} {message : List Char} {segs : List Segment}
    (h : Splits maps none message segs) :
    (maps.remapMessage message).1 = segs.flatMap Segment.remapped := by
  unfold SourceLineMaps.remapMessage
  split
  · rename_i hempty
    simp only [Bool.or_eq_true, List.isEmpty_iff] at hempty
    rcases hempty with hmaps | rfl
    · rw [h.known.remapped_eq_text hmaps, h.text]
    · have hout := h.out [] none
      rw [SourceLineMaps.remapLoop] at hout
      exact hout
  · rw [h.out, List.nil_append]

end GovFuzz.Corpus
