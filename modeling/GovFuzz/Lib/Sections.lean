import GovFuzz.Lib.Decide
import Mathlib.Data.List.Basic

/-!
# Lib — sections of one key with a quoted value

A text of two lines a section: a header with a bare name, and a bare key with
a string in double quotes.  The dialects (TOML tables, nested YAML mappings)
differ in what stands around names and keys.  The reader goes line by line,
so a text that was written section by section is read back exactly when every
value is a basic string.
-/

namespace GovFuzz.Lib.Sections

/-! ## Basic strings -/

/-- The escapes of one letter. -/
def unescape (b : UInt8) : Option UInt8 :=
  if b = 34 ∨ b = 92 then some b
  else if b = 98 then some 8
  else if b = 116 then some 9
  else if b = 110 then some 10
  else if b = 102 then some 12
  else if b = 114 then some 13
  else none

/-- A byte that stands for itself. -/
def isPlain (b : UInt8) : Bool := 0x20 ≤ b && b ≤ 0x7e && b ≠ 34 && b ≠ 92

/-- What may stand between the quotes: plain bytes and whole escapes. -/
inductive BasicBody : List UInt8 → Prop
  | nil : BasicBody []
  | plain {b : UInt8} {body : List UInt8} (hb : isPlain b) (hbody : BasicBody body) :
      BasicBody (b :: body)
  | escape {b : UInt8} {body : List UInt8} (hb : (unescape b).isSome) (hbody : BasicBody body) :
      BasicBody (92 :: b :: body)

def IsBasicString (value : List UInt8) : Prop :=
  ∃ body, BasicBody body ∧ value = 34 :: body ++ [34]

/-- A string behind its opening quote; its closing quote is the last byte. -/
def readBody : List UInt8 → Option (List UInt8)
  | [] => none
  | [b] => if b = 34 then some [] else none
  | b :: c :: rest =>
      if isPlain b then (readBody (c :: rest)).map fun text => b :: text
      else if b = 92 then
        match unescape c with
        | some d => (readBody rest).map fun text => d :: text
        | none => none
      else none

def readBasicString : List UInt8 → Option (List UInt8)
  | [] => none
  | b :: rest => if b = 34 then readBody rest else none

theorem BasicBody.append {body body' : List UInt8} (h : BasicBody body) (h' : BasicBody body') :
    BasicBody (body ++ body') := by
  induction h with
  | nil => exact h'
  | plain hb _ ih => exact .plain hb ih
  | escape hb _ ih => exact .escape hb ih

/-- Whole escapes and plain bytes do not change whether the rest can be read. -/
theorem readBody_append {body : List UInt8} (h : BasicBody body) {rest : List UInt8}
    (hrest : rest ≠ []) : (readBody (body ++ rest)).isSome = (readBody rest).isSome := by
  induction h with
  | nil => rfl
  | @plain b body hb _ ih =>
      obtain ⟨c, l, hmore⟩ :=
        List.exists_cons_of_ne_nil (List.append_ne_nil_of_right_ne_nil body hrest)
      rw [hmore] at ih
      rw [List.cons_append, hmore, readBody, if_pos hb, Option.isSome_map, ih]
  | @escape b body hb _ ih =>
      obtain ⟨d, hd⟩ := Option.isSome_iff_exists.mp hb
      have hback : ¬ (isPlain 92) = true := by decide
      rw [List.cons_append, List.cons_append, readBody, if_neg hback, if_pos rfl, hd]
      dsimp only
      rw [Option.isSome_map, ih]

theorem BasicBody.newline_not_mem {body : List UInt8} (h : BasicBody body) : 10 ∉ body := by
  induction h with
  | nil => exact List.not_mem_nil
  | plain hb _ ih =>
      intro hmem
      rcases List.mem_cons.mp hmem with rfl | hmem
      · cases hb
      · exact ih hmem
  | escape hb _ ih =>
      intro hmem
      rcases List.mem_cons.mp hmem with heq | hmem
      · cases heq
      rcases List.mem_cons.mp hmem with rfl | hmem
      · cases hb
      · exact ih hmem

theorem readBody_sound {s : List UInt8} (h : (readBody s).isSome) :
    ∃ body, BasicBody body ∧ s = body ++ [34] := by
  fun_induction readBody s with
  | case1 => cases h
  | case2 => exact ⟨[], .nil, rfl⟩
  | case3 => cases h
  | case4 b c rest hb ih =>
      rw [Option.isSome_map] at h
      obtain ⟨body, hbody, heq⟩ := ih h
      exact ⟨b :: body, .plain hb hbody, by rw [heq]; rfl⟩
  | case5 c rest d hd _ ih =>
      rw [Option.isSome_map] at h
      obtain ⟨body, hbody, heq⟩ := ih h
      exact ⟨92 :: c :: body, .escape (by rw [hd]; rfl) hbody, by rw [heq]; rfl⟩
  | case6 => cases h
  | case7 => cases h

/-- The reader takes exactly the basic strings. -/
theorem readBasicString_isSome_iff {value : List UInt8} :
    (readBasicString value).isSome ↔ IsBasicString value := by
  constructor
  · intro h
    cases value with
    | nil => cases h
    | cons b rest =>
        rw [readBasicString] at h
        by_cases hquote : b = 34
        · rw [if_pos hquote] at h
          obtain ⟨body, hbody, rfl⟩ := readBody_sound h
          exact ⟨body, hbody, by rw [hquote]; rfl⟩
        · rw [if_neg hquote] at h
          cases h
  · rintro ⟨body, hbody, rfl⟩
    rw [List.cons_append, readBasicString, if_pos rfl,
      readBody_append hbody (List.cons_ne_nil 34 [])]
    rfl

instance (value : List UInt8) : Decidable (IsBasicString value) :=
  decidable_of_iff _ readBasicString_isSome_iff

/-! ## Lines -/

abbrev Line := List UInt8

def isBareKey (b : UInt8) : Bool :=
  (48 ≤ b && b ≤ 57) || (65 ≤ b && b ≤ 90) || (97 ≤ b && b ≤ 122) || b = 95 || b = 45

/-- A name ends before this. -/
def StopsKey (s : List UInt8) : Prop := ∃ b rest, s = b :: rest ∧ isBareKey b = false

/-- What stands around the names, the keys and the values. -/
structure Dialect where
  opening : List UInt8
  closing : List UInt8
  indent : List UInt8
  separator : List UInt8
  closing_stops : StopsKey closing
  separator_stops : StopsKey separator
  one_line : 10 ∉ opening ++ closing ++ indent ++ separator

structure Section where
  name : List UInt8
  key : List UInt8
  value : List UInt8

def strip (before line : Line) : Option Line :=
  if before <+: line then some (line.drop before.length) else none

def readKey (line : Line) : Option (List UInt8 × Line) :=
  if line.takeWhile isBareKey = [] then none
  else some (line.takeWhile isBareKey, line.dropWhile isBareKey)

section
variable (dialect : Dialect)

def readHeader (line : Line) : Option (List UInt8) := do
  let line ← strip dialect.opening line
  let (name, line) ← readKey line
  if line = dialect.closing then some name else none

def readPair (line : Line) : Option (List UInt8 × List UInt8) := do
  let line ← strip dialect.indent line
  let (key, line) ← readKey line
  let value ← strip dialect.separator line
  if IsBasicString value then some (key, value) else none

/-- Two lines for each section, and nothing behind the last line end. -/
def readLines : List Line → Option (List Section)
  | [] => none
  | [line] => if line = [] then some [] else none
  | header :: pair :: rest => do
      let name ← readHeader dialect header
      let (key, value) ← readPair dialect pair
      let sections ← readLines rest
      return ⟨name, key, value⟩ :: sections

def readSections (bytes : List UInt8) : Option (List Section) :=
  readLines dialect (bytes.splitOn 10)

def headerLine (s : Section) : Line := dialect.opening ++ s.name ++ dialect.closing

def pairLine (s : Section) : Line := dialect.indent ++ s.key ++ dialect.separator ++ s.value

def sectionBytes (s : Section) : List UInt8 :=
  headerLine dialect s ++ [10] ++ pairLine dialect s ++ [10]

/-- Bare names, and a value on one line. -/
structure Section.Keyed (s : Section) : Prop where
  name : s.name ≠ [] ∧ ∀ b ∈ s.name, isBareKey b
  key : s.key ≠ [] ∧ ∀ b ∈ s.key, isBareKey b
  value : 10 ∉ s.value

theorem strip_append (before line : Line) : strip before (before ++ line) = some line := by
  rw [strip, if_pos (List.prefix_append before line), List.drop_left]

theorem readKey_append {key rest : List UInt8} (hne : key ≠ []) (hkey : ∀ b ∈ key, isBareKey b)
    (hrest : StopsKey rest) : readKey (key ++ rest) = some (key, rest) := by
  obtain ⟨b, l, rfl, hstop⟩ := hrest
  have htake : (key ++ b :: l).takeWhile isBareKey = key := by
    rw [List.takeWhile_append_of_pos hkey, List.takeWhile_cons_of_neg (by simp [hstop]),
      List.append_nil]
  have hdrop : (key ++ b :: l).dropWhile isBareKey = b :: l := by
    rw [List.dropWhile_append_of_pos hkey, List.dropWhile_cons_of_neg (by simp [hstop])]
  rw [readKey, htake, hdrop, if_neg hne]

theorem readHeader_headerLine {s : Section} (h : s.Keyed) :
    readHeader dialect (headerLine dialect s) = some s.name := by
  have hkey := readKey_append h.name.1 h.name.2 dialect.closing_stops
  simp [readHeader, headerLine, List.append_assoc, strip_append, hkey]

theorem readPair_pairLine {s : Section} (h : s.Keyed) :
    readPair dialect (pairLine dialect s)
      = if IsBasicString s.value then some (s.key, s.value) else none := by
  have hstops : StopsKey (dialect.separator ++ s.value) := by
    obtain ⟨b, rest, heq, hb⟩ := dialect.separator_stops
    exact ⟨b, rest ++ s.value, by rw [heq]; rfl, hb⟩
  have hkey := readKey_append h.key.1 h.key.2 hstops
  simp [readPair, pairLine, List.append_assoc, strip_append, hkey]

theorem not_newline_of_bareKey {key : List UInt8} (h : ∀ b ∈ key, isBareKey b) : 10 ∉ key := by
  intro hmem
  exact absurd (h 10 hmem) (by decide)

theorem splitOn_sectionBytes {s : Section} (h : s.Keyed) (rest : List UInt8) :
    (sectionBytes dialect s ++ rest).splitOn 10
      = headerLine dialect s :: pairLine dialect s :: rest.splitOn 10 := by
  have hone := dialect.one_line
  simp only [List.mem_append, not_or] at hone
  have hheader : 10 ∉ headerLine dialect s := by
    simp only [headerLine, List.mem_append, not_or]
    exact ⟨⟨hone.1.1.1, not_newline_of_bareKey h.name.2⟩, hone.1.1.2⟩
  have hpair : 10 ∉ pairLine dialect s := by
    simp only [pairLine, List.mem_append, not_or]
    exact ⟨⟨⟨hone.1.2, not_newline_of_bareKey h.key.2⟩, hone.2⟩, h.value⟩
  have hbytes : sectionBytes dialect s ++ rest
      = headerLine dialect s ++ 10 :: (pairLine dialect s ++ 10 :: rest) := by
    simp only [sectionBytes, List.append_assoc, List.cons_append, List.nil_append]
  rw [hbytes, List.splitOn_append_cons_self_of_not_mem hheader,
    List.splitOn_append_cons_self_of_not_mem hpair]

/-- A text is read as the sections it was written from if all their values are
basic strings, and not at all if one is not. -/
theorem readSections_flatMap {sections : List Section} (h : ∀ s ∈ sections, s.Keyed) :
    readSections dialect (sections.flatMap (sectionBytes dialect))
      = if ∀ s ∈ sections, IsBasicString s.value then some sections else none := by
  induction sections with
  | nil => rfl
  | cons s sections ih =>
      rw [List.forall_mem_cons] at h
      have hothers := ih h.2
      rw [readSections] at hothers
      rw [readSections, List.flatMap_cons, splitOn_sectionBytes dialect h.1, readLines,
        readHeader_headerLine dialect h.1, readPair_pairLine dialect h.1, hothers]
      by_cases hfirst : IsBasicString s.value
      · by_cases hrest : ∀ t ∈ sections, IsBasicString t.value
        · have hall : ∀ t ∈ s :: sections, IsBasicString t.value :=
            List.forall_mem_cons.mpr ⟨hfirst, hrest⟩
          rw [if_pos hfirst, if_pos hrest, if_pos hall]
          rfl
        · have hsome : ¬ ∀ t ∈ s :: sections, IsBasicString t.value :=
            fun hall => hrest (List.forall_mem_cons.mp hall).2
          rw [if_pos hfirst, if_neg hrest, if_neg hsome]
          rfl
      · have hsome : ¬ ∀ t ∈ s :: sections, IsBasicString t.value :=
          fun hall => hfirst (List.forall_mem_cons.mp hall).1
        rw [if_neg hfirst, if_neg hsome]
        rfl

end

end GovFuzz.Lib.Sections
