import GovFuzz.TypeModel.Registry
import GovFuzz.TypeModel.Words

/-!
# TypeModel — what a declarator resolves to

A C type without its qualifiers, and the shape it has by recursion on its
structure.  Resolution goes through the printed text instead, one level at a
time; a qualifier that is settled next to a star stops it there.
-/

namespace GovFuzz.TypeModel

open GovFuzz.Lib.GuardedWalk (Memo)
open GovFuzz.Runtrace (isWhitespace trim)

/-! ## Types and their shapes -/

inductive CType where
  | name (words : List (List Char))
  | pointer (target : CType)
  | array (elem : CType) (len : Nat)
  deriving DecidableEq

/-- `char`, also under GLib's name. -/
def CType.isChar : CType → Bool
  | .name words => words = ["char".toList] || words = ["gchar".toList]
  | _ => false

def CType.pointers (t : CType) : Nat → CType
  | 0 => t
  | m + 1 => .pointer (t.pointers m)

/-- The shape of a type, `left` levels above the limit.  A name has the shape
it resolves to by itself. -/
def CType.shape (reg : TypeRegistry) : Nat → CType → TypeShape
  | left, .name words => (reg.resolveInner left (joinWords words) .empty).1
  | left, .pointer target =>
      if target.isChar then .cString else .pointer (target.shape reg (left - 1))
  | left, .array elem len => .array (elem.shape reg (left - 1)) len

/-- Made of another shape, one level deeper. -/
def TypeShape.isDerived : TypeShape → Bool
  | .pointer _ => true
  | .cString => true
  | .array _ _ => true
  | _ => false

namespace TypeRegistry

variable {reg : TypeRegistry} {call : Resolver} {memo : ResolveMemo} {raw raw' : List Char}

theorem resolveInner_empty (reg : TypeRegistry) (left : Nat) (raw : List Char) :
    (reg.resolveInner (left + 1) raw .empty).1
      = (reg.resolveUncached (reg.resolveInner left) raw .empty).1 := by
  have hempty : ({ (Memo.empty : ResolveMemo) with cycleTruncated := false } : ResolveMemo)
      = .empty := rfl
  have hmiss : (Memo.empty : ResolveMemo).shapes (raw, left) = none := rfl
  rw [resolveInner]
  simp only [hmiss, hempty]

/-! ## One level -/

section Congr

variable (h : normalize raw = normalize raw')

include h

theorem structShape_congr (tag : List Char) :
    structShape reg call tag raw memo = structShape reg call tag raw' memo := by
  unfold structShape
  rw [h]

theorem unionShape_congr (tag : List Char) :
    unionShape reg call tag raw memo = unionShape reg call tag raw' memo := by
  unfold unionShape
  rw [h]

theorem enumShape_congr (tag : List Char) : enumShape reg tag raw = enumShape reg tag raw' := by
  unfold enumShape
  rw [h]

theorem namedShape_congr (normalized : List Char) :
    namedShape reg call normalized raw memo = namedShape reg call normalized raw' memo := by
  unfold namedShape
  rw [structShape_congr h]

/-- Texts that normalize alike and have no parenthesis resolve alike. -/
theorem resolveUncached_congr (hraw : '(' ∉ raw) (hraw' : '(' ∉ raw') :
    resolveUncached reg call raw memo = resolveUncached reg call raw' memo := by
  unfold resolveUncached
  rw [functionPointerDeclarator_eq_false hraw, functionPointerDeclarator_eq_false hraw', h]
  simp only [Bool.false_eq_true, if_false, namedShape_congr h, structShape_congr h,
    unionShape_congr h, enumShape_congr h]

end Congr

theorem resolveInner_star (reg : TypeRegistry) (left : Nat) {base : List Char} (hraw : '(' ∉ raw)
    (harray : splitArray (normalize raw) = none)
    (hstar : stripEnd ['*'] (normalize raw) = some base) :
    (reg.resolveInner (left + 1) raw .empty).1
      = if trimEnd base = "char".toList ∨ trimEnd base = "gchar".toList then .cString
        else .pointer (reg.resolveInner left (trimEnd base) .empty).1 := by
  rw [resolveInner_empty]
  unfold resolveUncached
  rw [functionPointerDeclarator_eq_false hraw]
  simp only [Bool.false_eq_true, if_false, harray, hstar]
  split <;> rfl

theorem resolveInner_array (reg : TypeRegistry) (left : Nat) {base : List Char} {len : Nat}
    (hraw : '(' ∉ raw) (harray : splitArray (normalize raw) = some (base, len)) :
    (reg.resolveInner (left + 1) raw .empty).1
      = .array (reg.resolveInner left base .empty).1 len := by
  rw [resolveInner_empty]
  unfold resolveUncached
  rw [functionPointerDeclarator_eq_false hraw]
  simp only [Bool.false_eq_true, if_false, harray]

theorem structShape_not_derived (tag : List Char) :
    (structShape reg call tag raw memo).1.isDerived = false := by
  unfold structShape
  split
  · rfl
  · split <;> rfl

theorem unionShape_not_derived (tag : List Char) :
    (unionShape reg call tag raw memo).1.isDerived = false := by
  unfold unionShape
  split
  · rfl
  · split <;> rfl

theorem enumShape_not_derived (tag : List Char) : (enumShape reg tag raw).isDerived = false := by
  unfold enumShape
  split <;> rfl

theorem namedShape_not_derived {normalized : List Char} {shape : TypeShape} {memo' : ResolveMemo}
    (halias : reg.lookupNamed reg.typedefs normalized = none)
    (h : namedShape reg call normalized raw memo = (some shape, memo')) :
    shape.isDerived = false := by
  unfold namedShape at h
  split at h
  · cases h
    rfl
  · split at h
    · cases h
      exact structShape_not_derived normalized
    · rw [halias] at h
      cases h

/-- A text that is neither an array nor a pointer, and no typedef either, is
not made of another shape. -/
theorem resolveUncached_not_derived (hraw : '(' ∉ raw)
    (harray : splitArray (normalize raw) = none) (hstar : stripEnd ['*'] (normalize raw) = none)
    (halias : reg.lookupNamed reg.typedefs (normalize raw) = none) :
    (resolveUncached reg call raw memo).1.isDerived = false := by
  unfold resolveUncached
  rw [functionPointerDeclarator_eq_false hraw]
  simp only [Bool.false_eq_true, if_false, harray, hstar]
  split
  · rfl
  split
  · split
    · rename_i hnamed
      have hshape := namedShape_not_derived halias hnamed
      dsimp only
      split
      · rfl
      · exact hshape
    · rfl
  split
  · exact structShape_not_derived _
  split
  · exact unionShape_not_derived _
  split
  · exact enumShape_not_derived _
  split
  · rename_i hnamed
    exact namedShape_not_derived halias hnamed
  · split <;> rfl

/-! ## Names that no declaration has -/

/-- A name with a character that no declared name has is not found. -/
theorem lookupNamed_eq_none {α : Type} {map : NameMap α} {c : Char} (hc : c ≠ ':')
    (hink : isWhitespace c = false) (hmap : ∀ name ∈ map, c ∉ name) {front tail : List Char}
    (htail : ':' ∉ tail) : reg.lookupNamed map (front ++ c :: tail) = none := by
  have hexact : ∀ name : List Char, c ∈ name → map.lookup name = none := by
    intro name hname
    rw [AList.lookup_eq_none]
    exact fun hmem => hmap name hmem hname
  have hleaf : c ∈ (qualifiedLeaf (front ++ c :: tail)).getD (front ++ c :: tail) := by
    rw [qualifiedLeaf]
    cases hafter : afterColons (front ++ c :: tail) with
    | none => simp
    | some leaf => exact mem_trim hink (mem_afterColons hc htail front leaf hafter)
  have honly : (map.entries.filter fun entry => (afterColons entry.1).getD entry.1
      = (qualifiedLeaf (front ++ c :: tail)).getD (front ++ c :: tail)) = [] := by
    rw [List.filter_eq_nil_iff]
    intro entry hentry
    simp only [decide_eq_true_eq]
    intro heq
    rw [← heq] at hleaf
    have hkey : entry.1 ∈ map := AList.mem_keys.mpr (List.mem_keys_of_mem hentry)
    apply hmap entry.1 hkey
    cases hafter : afterColons entry.1 with
    | none => simpa [hafter] using hleaf
    | some leaf =>
        rw [hafter] at hleaf
        exact mem_of_mem_afterColons entry.1 leaf hafter c hleaf
  have hscoped : reg.cppLookupScopes.findSome? (fun scope =>
      map.lookup (scope ++ "::".toList ++ (front ++ c :: tail))) = none := by
    rw [List.findSome?_eq_none_iff]
    intro scope _
    exact hexact _ (by simp)
  simp only [lookupNamed, hexact (front ++ c :: tail) (by simp), hscoped, honly]
  split <;> rfl

/-- Typedef names have neither stars nor closing brackets in them: they are
identifiers. -/
def PlainTypedefs (reg : TypeRegistry) : Prop := ∀ name ∈ reg.typedefs, '*' ∉ name ∧ ']' ∉ name

/-! ## A declarator, level by level -/

/-- A printed declarator with a star in it is no typedef's name. -/
theorem lookupNamed_render (hnames : reg.PlainTypedefs) {ps words : List (List Char)} {m : Nat}
    (h : Denotes ps words m) (hstar : star ∈ ps) :
    reg.lookupNamed reg.typedefs (render ps) = none := by
  obtain ⟨ps, qs, rfl, hfirst⟩ := List.eq_append_cons_of_mem hstar
  obtain ⟨front, glued, htext⟩ := render_at_star h.declarator
  have hcolon : ':' ∉ joined glued qs := by
    apply not_mem_joined (by decide)
    intro q hq
    obtain rfl | hqual := h.behind_star hfirst q hq
    · decide
    · have hall : ∀ q ∈ qualifiers, ':' ∉ q := by decide
      exact hall q hqual
  rw [htext]
  exact lookupNamed_eq_none (by decide) (by decide) (fun name hname => (hnames name hname).1) hcolon

theorem normalize_declarator {ps words : List (List Char)} {m : Nat} (h : Denotes ps words m) :
    normalize (render ps) = render (settle false ps) := by
  rw [normalize_render h.declarator, trim_render h.settle.declarator]

/-- A qualifier that stays behind a star ends the resolution. -/
theorem resolve_stuck (hnames : reg.PlainTypedefs) (left : Nat) {ps words : List (List Char)}
    {q raw : List Char} {m : Nat} (h : Denotes (ps ++ [q]) words m) (hm : 0 < m)
    (hq : q ∈ qualifiers) (hraw : '(' ∉ raw) (hnormal : normalize raw = render (ps ++ [q])) :
    (reg.resolveInner (left + 1) raw .empty).1.isDerived = false := by
  have hstar : q ≠ star := fun heq => star_not_mem_qualifiers (heq ▸ hq)
  rw [resolveInner_empty]
  apply resolveUncached_not_derived hraw
  · rw [hnormal]
    exact splitArray_render h.declarator
  · rw [hnormal]
    exact stripEnd_render h.declarator hstar
  · rw [hnormal]
    exact lookupNamed_render hnames h (h.star_mem_iff.mpr hm)

theorem shape_pointers_derived (reg : TypeRegistry) (left : Nat) (t : CType) {m : Nat}
    (hm : 0 < m) : ((t.pointers m).shape reg left).isDerived = true := by
  obtain ⟨m, rfl⟩ := Nat.exists_eq_succ_of_ne_zero hm.ne'
  rw [CType.pointers, CType.shape]
  split <;> rfl

/-- A declarator whose qualifiers are all dropped is its base and its stars. -/
theorem eq_of_unqualified {ps words : List (List Char)} {m : Nat} (h : Denotes ps words m)
    (hall : ∀ p ∈ ps, p ∉ qualifiers) : ps = words ++ List.replicate m star := by
  have hfilter : ps.filter (fun p => p ∉ qualifiers) = ps :=
    List.filter_eq_self.mpr fun p hp => by simpa using hall p hp
  rw [← hfilter, h.unqualified]

theorem unqualified_of_settled {ps words : List (List Char)} (h : Denotes ps words 0)
    (hsettled : settle false ps = ps) : ∀ p ∈ ps, p ∉ qualifiers := by
  have hstar : star ∉ ps := fun hmem => absurd (h.star_mem_iff.mp hmem) (by simp)
  intro p hp
  rw [← hsettled] at hp
  exact not_mem_qualifiers_of_mem_settle hstar p hp

theorem eq_words_of_settled {ps words : List (List Char)} (h : Denotes ps words 0)
    (hsettled : settle false ps = ps) : ps = words := by
  simpa using eq_of_unqualified h (unqualified_of_settled h hsettled)

theorem isName_char :
    ∀ name ∈ ["char".toList, "gchar".toList], IsName name ∧ name ∉ qualifiers := by
  have hall : ∀ name ∈ ["char".toList, "gchar".toList],
      (name ≠ [] ∧ ∀ c ∈ name, isNameChar c = true) ∧ name ∉ qualifiers := by decide
  exact hall

theorem isChar_iff {ps words : List (List Char)} {m : Nat} (h : Denotes ps words m)
    (hsettled : settle false ps = ps) :
    (render ps = "char".toList ∨ render ps = "gchar".toList) ↔
      ((CType.name words).pointers m).isChar = true := by
  have hone : ∀ name ∈ ["char".toList, "gchar".toList],
      render ps = name ↔ m = 0 ∧ words = [name] := by
    intro name hmem
    obtain ⟨hword, hq⟩ := isName_char name hmem
    rw [render_eq_name h.declarator hword]
    constructor
    · rintro rfl
      have hfilter := h.unqualified
      rw [List.filter_cons_of_pos (by simpa using hq), List.filter_nil] at hfilter
      have hlast : Denotes ([] ++ [name]) words m := h
      have hm : m = 0 := hlast.name_last hword.ne_star hq
      subst hm
      exact ⟨rfl, by simpa using hfilter.symm⟩
    · rintro ⟨rfl, rfl⟩
      exact eq_words_of_settled h hsettled
  rw [hone _ (by simp), hone _ (by simp)]
  cases m with
  | zero => simp [CType.pointers, CType.isChar]
  | succ m => simp [CType.pointers, CType.isChar]

/-- What a settled declarator ends in: a star, a qualifier that stays, or the
last word of a base without stars. -/
theorem Settled.cases {ps words : List (List Char)} {m : Nat} (h : Denotes ps words m)
    (hsettled : settle false ps = ps) (hne : ps ≠ []) :
    (∃ front, ps = front ++ [star]) ∨ (0 < m ∧ ∃ front, ∃ q ∈ qualifiers, ps = front ++ [q]) ∨
      (m = 0 ∧ ps = words) := by
  obtain hnil | ⟨front, last, hlast⟩ := List.eq_nil_or_concat ps
  · exact absurd hnil hne
  rw [List.concat_eq_append] at hlast
  by_cases hstar : last = star
  · exact .inl ⟨front, hstar ▸ hlast⟩
  by_cases hq : last ∈ qualifiers
  · refine .inr (.inl ⟨?_, front, last, hq, hlast⟩)
    rw [← h.star_mem_iff]
    by_contra hfree
    have hmem : last ∈ settle false ps := by
      rw [hsettled, hlast]
      simp
    exact not_mem_qualifiers_of_mem_settle hfree last hmem hq
  · have hm : m = 0 := Denotes.name_last (hlast ▸ h) hstar hq
    subst hm
    exact .inr (.inr ⟨rfl, eq_words_of_settled h hsettled⟩)

theorem settle_ne_nil {ps : List (List Char)} (h : IsDeclarator ps) (hne : ps ≠ []) :
    settle false ps ≠ [] := by
  obtain ⟨p, ps, rfl⟩ := List.exists_cons_of_ne_nil hne
  rw [settle, if_neg (by simp [(h.head p rfl).2])]
  exact List.cons_ne_nil _ _

/-- A printed declarator resolves to the shape of its type if no qualifier
settles behind a star, and only then if typedefs are named plainly. -/
theorem resolve_declarator : ∀ (left : Nat) {ps words : List (List Char)} {m : Nat},
    Denotes ps words m → ps ≠ [] → m < left →
    ((∀ p ∈ settle false ps, p ∉ qualifiers) →
        (reg.resolveInner left (render ps) .empty).1
          = ((CType.name words).pointers m).shape reg left) ∧
      (reg.PlainTypedefs →
        (reg.resolveInner left (render ps) .empty).1
          = ((CType.name words).pointers m).shape reg left →
        ∀ p ∈ settle false ps, p ∉ qualifiers) := by
  intro left
  induction left with
  | zero => intro ps words m _ _ hleft; omega
  | succ left ih =>
      intro ps words m h hne hleft
      have hraw : '(' ∉ render ps :=
        not_mem_render h.declarator (by decide) (by decide) (by decide)
      have hnormal := normalize_declarator h
      have hsettled := settle_idem ps false
      have hsettle := h.settle
      obtain ⟨front, hlast⟩ | ⟨hm, front, q, hq, hlast⟩ | ⟨rfl, hwords⟩ :=
        Settled.cases hsettle hsettled (settle_ne_nil h.declarator hne)
      · -- one level of pointers
        rw [hlast] at hnormal hsettled hsettle ⊢
        obtain ⟨m, rfl, hfront⟩ := hsettle.star_left
        have hfrontSettled := settle_of_settle_star hsettled
        have hfrontNe : front ≠ [] := by
          rintro rfl
          exact (hsettle.declarator.head star rfl).1.ne_star rfl
        obtain ⟨base, hstrip, htrim⟩ := strip_render hsettle.declarator
        rw [← hnormal] at hstrip
        have hresolve := resolveInner_star reg left hraw
          (hnormal ▸ splitArray_render hsettle.declarator) hstrip
        rw [htrim] at hresolve
        rw [hresolve, CType.pointers, CType.shape, Nat.add_sub_cancel]
        have hall : (∀ p ∈ front ++ [star], p ∉ qualifiers) ↔ ∀ p ∈ front, p ∉ qualifiers := by
          simp [star_not_mem_qualifiers, or_imp, forall_and]
        rw [hall]
        by_cases hchar : ((CType.name words).pointers m).isChar = true
        · rw [if_pos ((isChar_iff hfront hfrontSettled).mpr hchar), if_pos hchar]
          have hm : m = 0 := by
            cases m with
            | zero => rfl
            | succ m => cases hchar
          subst hm
          exact ⟨fun _ => rfl, fun _ _ => unqualified_of_settled hfront hfrontSettled⟩
        · obtain ⟨hshape, herased⟩ := ih hfront hfrontNe (by omega)
          rw [hfrontSettled] at hshape herased
          rw [if_neg fun hbase => hchar ((isChar_iff hfront hfrontSettled).mp hbase), if_neg hchar,
            TypeShape.pointer.injEq]
          exact ⟨hshape, herased⟩
      · -- a qualifier that stays: nothing is taken off any more
        have hmem : q ∈ settle false ps := by simp [hlast]
        rw [hlast] at hnormal hsettle
        constructor
        · intro hall
          exact absurd hq (hall q hmem)
        · intro hnames heq
          have hstuck := resolve_stuck hnames left hsettle hm hq hraw hnormal
          rw [heq, shape_pointers_derived reg (left + 1) (.name words) hm] at hstuck
          cases hstuck
      · -- a base without stars: only its text differs
        refine ⟨fun _ => ?_, fun _ _ => unqualified_of_settled hsettle hsettled⟩
        rw [hwords] at hnormal hsettled hsettle
        have hnames : ∀ w ∈ words, IsName w := by
          intro w hw
          refine (hsettle.declarator.piece w hw).resolve_left ?_
          rintro rfl
          exact hsettle.base hw
        have hwordsRaw : '(' ∉ render words :=
          not_mem_render hsettle.declarator (by decide) (by decide) (by decide)
        have hwordsNormal := normalize_declarator hsettle
        rw [hsettled] at hwordsNormal
        rw [CType.pointers, CType.shape, ← render_words hnames, resolveInner_empty,
          resolveInner_empty,
          resolveUncached_congr (hnormal.trans hwordsNormal.symm) hraw hwordsRaw]

end TypeRegistry

end GovFuzz.TypeModel
