import GovFuzz.TypeModel.Normalized

/-!
# TypeModel — a spelled type resolves to its shape

The whole text is normalized first; from its second level on resolution reads
text it printed itself.
-/

namespace GovFuzz.TypeModel

open GovFuzz.Runtrace (trim)

namespace Spelled

variable (s : Spelled)

/-- Every qualifier is erased on the way and every dimension is read. -/
structure ReadsWhole : Prop where
  dims : s.dims.length ≤ 1
  erased : ∀ p ∈ settle false s.declarator, p ∉ qualifiers
  last : (∃ q ∈ s.declarator, q ∈ qualifiers) → s.dims ≠ [] ∨ (s.declarator.getLast? = some star ∧
    ¬ (s.pointers.length = 1 ∧ (CType.name s.baseWords).isChar = true))

/-! ## Qualifiers in a base by itself -/

theorem isWord_of_no_pointers (hdims : s.dims = []) (hpointers : s.pointers = [])
    {chunk : List Token} (hchunk : chunk ∈ chunks s.spaced) {t : Token} (ht : t ∈ chunk) :
    t.isWord = true := by
  have hmem : t ∈ (chunks s.spaced).flatten := List.mem_flatten.mpr ⟨chunk, hchunk, ht⟩
  rw [chunks_flatten, s.tokens_eq, hdims, hpointers] at hmem
  simp only [List.flatMap_nil, List.append_nil, dimTokens] at hmem
  obtain ⟨w, -, rfl⟩ := List.mem_map.mp hmem
  rfl

/-- Without a star or a bracket whitespace sets off every word. -/
theorem declarator_unqualified (hdims : s.dims = []) (hpointers : s.pointers = []) :
    ∀ p ∈ s.declarator, p ∉ qualifiers := by
  intro p hp hq
  obtain ⟨t, ht, rfl⟩ := List.mem_map.mp hp
  have hmem : t ∈ s.keptChunks.flatten := (List.takeWhile_prefix _).subset ht
  obtain ⟨chunk, hkept, ht⟩ := List.mem_flatten.mp hmem
  obtain ⟨hchunk, hlone⟩ := List.mem_filter.mp hkept
  have hword := fun u hu => s.isWord_of_no_pointers hdims hpointers (t := u) hchunk hu
  match chunk with
  | [u] =>
      obtain rfl := List.mem_singleton.mp ht
      have hu := hword t List.mem_cons_self
      cases t with
      | word w => simp [loneQualifier, Token.isQualifier, show w ∈ qualifiers from hq] at hlone
      | _ => cases hu
  | first :: second :: rest =>
      have hchain := (s.chunk_facts hchunk).2
      rw [List.isChain_cons_cons] at hchain
      exact hchain.1 ⟨hword first (by simp), hword second (by simp)⟩

theorem pointers_pos_of_qualified (hdims : s.dims = []) {q : List Char} (hmem : q ∈ s.declarator)
    (hq : q ∈ qualifiers) : 0 < s.pointers.length := by
  rw [List.length_pos_iff]
  intro hpointers
  exact s.declarator_unqualified hdims hpointers q hmem hq

end Spelled

namespace TypeRegistry

variable {reg : TypeRegistry} (s : Spelled)

theorem settle_concat_star (ps : List (List Char)) :
    settle false (ps ++ [star]) = settle false ps ++ [star] := by
  obtain ⟨glued, happend⟩ := settle_append ps [star] false
  rw [happend]
  simp [settle, star_not_mem_qualifiers]

/-- The last star is taken off the text as it was normalized first. -/
theorem resolve_star_iff (hdims : s.dims = []) {front : List (List Char)}
    (hlast : s.declarator = front ++ [star])
    (hlevel : ∀ m, m < s.pointers.length → Denotes front s.baseWords m → front ≠ [] →
      ((reg.resolveInner maxResolveDepth (render front) .empty).1
          = ((CType.name s.baseWords).pointers m).shape reg maxResolveDepth ↔
        ∀ p ∈ settle false front, p ∉ qualifiers)) :
    reg.resolve s.text = s.type.shape reg (maxResolveDepth + 1) ↔ s.ReadsWhole := by
  have hdenotes := s.denotes
  have hnormal := s.normalize_of_no_dims hdims
  rw [hlast] at hdenotes hnormal
  obtain ⟨m, hm, hfront⟩ := hdenotes.star_left
  obtain ⟨base, hstrip, htrim⟩ := strip_render hdenotes.declarator
  rw [← hnormal] at hstrip
  have hresolve := resolveInner_star reg maxResolveDepth s.text_no_paren
    (hnormal ▸ splitArray_render hdenotes.declarator) hstrip
  have hfrontNe : front ≠ [] := by
    rintro rfl
    exact (hdenotes.declarator.head star rfl).1.ne_star rfl
  have htype : s.type = .pointer ((CType.name s.baseWords).pointers m) := by
    rw [Spelled.type, hdims, hm]
    rfl
  rw [htrim] at hresolve
  rw [resolve, hresolve, htype, CType.shape, Nat.add_sub_cancel]
  have hchar : ∀ name ∈ ["char".toList, "gchar".toList],
      render front = name → m = 0 ∧ s.baseWords = [name] ∧ ∀ p ∈ front, p ∉ qualifiers := by
    intro name hmem heq
    obtain ⟨hword, hq⟩ := isName_char name hmem
    obtain rfl := (render_eq_name hfront.declarator hword).mp heq
    have hm : m = 0 :=
      Denotes.name_last (show Denotes ([] ++ [name]) s.baseWords m from hfront) hword.ne_star hq
    subst hm
    have hall : ∀ p ∈ [name], p ∉ qualifiers := by simpa using hq
    exact ⟨rfl, by simpa using (eq_of_unqualified hfront hall).symm, hall⟩
  have herased : (∀ p ∈ settle false s.declarator, p ∉ qualifiers) ↔
      ∀ p ∈ settle false front, p ∉ qualifiers := by
    rw [hlast, settle_concat_star]
    simp [star_not_mem_qualifiers, or_imp, forall_and]
  by_cases hisChar : ((CType.name s.baseWords).pointers m).isChar = true
  · -- a string, if nothing stands between the name and the star
    have hm0 : m = 0 := by
      cases m with
      | zero => rfl
      | succ m => cases hisChar
    subst hm0
    rw [if_pos hisChar]
    by_cases hqual : ∀ p ∈ front, p ∉ qualifiers
    · have hwords : front = s.baseWords := by simpa using eq_of_unqualified hfront hqual
      have hcstring : render front = "char".toList ∨ render front = "gchar".toList := by
        rw [hwords, render_words fun w hw => (s.baseWords_name hw).1]
        simp only [CType.pointers, CType.isChar, Bool.or_eq_true, decide_eq_true_eq] at hisChar
        obtain hbase | hbase := hisChar
        · exact .inl (by rw [hbase, joinWords_singleton])
        · exact .inr (by rw [hbase, joinWords_singleton])
      rw [if_pos hcstring]
      refine iff_of_true rfl ⟨by simp [hdims], ?_, ?_⟩
      · exact herased.mpr fun p hp => hqual p (mem_of_mem_settle hp)
      · rintro ⟨q, hq, hmem⟩
        rw [hlast] at hq
        obtain hq | hq := List.mem_append.mp hq
        · exact absurd hmem (hqual q hq)
        · rw [List.mem_singleton.mp hq] at hmem
          exact absurd hmem star_not_mem_qualifiers
    · have hnot : ¬ (render front = "char".toList ∨ render front = "gchar".toList) := by
        intro h
        obtain h | h := h
        · exact hqual (hchar _ (by simp) h).2.2
        · exact hqual (hchar _ (by simp) h).2.2
      rw [if_neg hnot]
      refine iff_of_false (by simp) fun hwhole => ?_
      push Not at hqual
      obtain ⟨q, hq, hmem⟩ := hqual
      obtain hdim | ⟨-, hbase⟩ := hwhole.last ⟨q, by simp [hlast, hq], hmem⟩
      · exact hdim hdims
      · exact hbase ⟨hm, hisChar⟩
  · have hnot : ¬ (render front = "char".toList ∨ render front = "gchar".toList) := by
      intro h
      obtain h | h := h
      · obtain ⟨rfl, hbase, -⟩ := hchar _ (by simp) h
        simp [CType.pointers, CType.isChar, hbase] at hisChar
      · obtain ⟨rfl, hbase, -⟩ := hchar _ (by simp) h
        simp [CType.pointers, CType.isChar, hbase] at hisChar
    rw [if_neg hnot, if_neg hisChar, TypeShape.pointer.injEq,
      hlevel m (by omega) hfront hfrontNe, ← herased]
    constructor
    · intro hall
      refine ⟨by simp [hdims], hall, fun _ => .inr ⟨by simp [hlast], ?_⟩⟩
      rintro ⟨hone, hbase⟩
      obtain rfl : m = 0 := by omega
      exact hisChar hbase
    · exact fun hwhole => hwhole.erased

/-- A spelling without pointers and dimensions resolves to its shape exactly when it is read
whole. -/
theorem resolve_base_iff (hdims : s.dims = []) (hpointers : s.pointers = []) :
    reg.resolve s.text = s.type.shape reg (maxResolveDepth + 1) ↔ s.ReadsWhole := by
  have hunqualified := s.declarator_unqualified hdims hpointers
  have hdenotes := s.denotes
  rw [hpointers] at hdenotes
  have hwords : s.declarator = s.baseWords := by simpa using eq_of_unqualified hdenotes hunqualified
  have hnormal := s.normalize_of_no_dims hdims
  rw [hwords] at hdenotes hnormal
  have hsettled : settle false s.baseWords = s.baseWords := by
    have hall : ∀ p ∈ settle false s.baseWords, p ∉ qualifiers :=
      fun p hp => (s.baseWords_name (mem_of_mem_settle hp)).2
    simpa using eq_of_unqualified hdenotes.settle hall
  have hnormalWords := normalize_declarator hdenotes
  rw [hsettled] at hnormalWords
  have hraw : '(' ∉ render s.baseWords :=
    not_mem_render hdenotes.declarator (by decide) (by decide) (by decide)
  have htype : s.type = .name s.baseWords := by
    rw [Spelled.type, hdims, hpointers]
    rfl
  refine iff_of_true ?_ ⟨by simp [hdims], ?_, ?_⟩
  · rw [resolve, htype, CType.shape, ← render_words fun w hw => (s.baseWords_name hw).1,
      resolveInner_empty, resolveInner_empty,
      resolveUncached_congr (hnormal.trans hnormalWords.symm) s.text_no_paren hraw]
  · intro p hp
    exact hunqualified p (mem_of_mem_settle hp)
  · rintro ⟨q, hq, hmem⟩
    exact absurd hmem (hunqualified q hq)

/-- What a declarator without dimensions ends in. -/
theorem last_cases (hdims : s.dims = []) :
    (∃ front, s.declarator = front ++ [star]) ∨
      (0 < s.pointers.length ∧ ∃ front, ∃ q ∈ qualifiers, s.declarator = front ++ [q]) ∨
      s.pointers = [] := by
  obtain hnil | ⟨front, last, hlast⟩ := List.eq_nil_or_concat s.declarator
  · exact absurd hnil s.declarator_ne_nil
  rw [List.concat_eq_append] at hlast
  by_cases hstar : last = star
  · exact .inl ⟨front, hstar ▸ hlast⟩
  by_cases hq : last ∈ qualifiers
  · have hpos := s.pointers_pos_of_qualified hdims (by simp [hlast]) hq
    exact .inr (.inl ⟨hpos, front, last, hq, hlast⟩)
  · have hdenotes := s.denotes
    rw [hlast] at hdenotes
    exact .inr (.inr (List.length_eq_zero_iff.mp (hdenotes.name_last hstar hq)))

theorem not_readsWhole_of_last (hdims : s.dims = []) {front : List (List Char)} {q : List Char}
    (hq : q ∈ qualifiers) (hlast : s.declarator = front ++ [q]) : ¬ s.ReadsWhole := by
  intro hwhole
  obtain hdim | ⟨hend, -⟩ := hwhole.last ⟨q, by simp [hlast], hq⟩
  · exact hdim hdims
  · rw [hlast, List.getLast?_concat] at hend
    exact star_not_mem_qualifiers (Option.some.inj hend ▸ hq)

theorem resolve_array_iff {n : Nat} (hdims : s.dims = [n])
    (hlevel : (reg.resolveInner maxResolveDepth (render s.declarator) .empty).1
        = ((CType.name s.baseWords).pointers s.pointers.length).shape reg maxResolveDepth ↔
      ∀ p ∈ settle false s.declarator, p ∉ qualifiers) :
    reg.resolve s.text = s.type.shape reg (maxResolveDepth + 1) ↔ s.ReadsWhole := by
  have htype : s.type = .array ((CType.name s.baseWords).pointers s.pointers.length) n := by
    rw [Spelled.type, hdims]
    rfl
  rw [resolve, resolveInner_array reg maxResolveDepth s.text_no_paren (s.splitArray_of_one hdims),
    htype, CType.shape, Nat.add_sub_cancel, TypeShape.array.injEq, and_iff_left rfl, hlevel]
  constructor
  · intro hall
    exact ⟨by simp [hdims], hall, fun _ => .inl (by simp [hdims])⟩
  · exact fun hwhole => hwhole.erased

/-- What is read whole resolves to its shape. -/
theorem resolve_spelled (hwhole : s.ReadsWhole)
    (hdepth : s.pointers.length + s.dims.length ≤ maxResolveDepth) :
    reg.resolve s.text = s.type.shape reg (maxResolveDepth + 1) := by
  match hdims : s.dims with
  | [] =>
      obtain ⟨front, hlast⟩ | ⟨-, front, q, hq, hlast⟩ | hpointers := last_cases s hdims
      · refine (resolve_star_iff s hdims hlast fun m hm hfront hne => ?_).mpr hwhole
        have herased : ∀ p ∈ settle false front, p ∉ qualifiers := by
          intro p hp
          apply hwhole.erased
          rw [hlast, settle_concat_star]
          exact List.mem_append_left _ hp
        exact iff_of_true ((resolve_declarator maxResolveDepth hfront hne (by omega)).1 herased)
          herased
      · exact absurd hwhole (not_readsWhole_of_last s hdims hq hlast)
      · exact (resolve_base_iff s hdims hpointers).mpr hwhole
  | [n] =>
      rw [hdims, List.length_singleton] at hdepth
      refine (resolve_array_iff s hdims ?_).mpr hwhole
      exact iff_of_true ((resolve_declarator maxResolveDepth s.denotes s.declarator_ne_nil
        (by omega)).1 hwhole.erased) hwhole.erased
  | n :: n' :: ns =>
      have := hwhole.dims
      simp [hdims] at this

/-- More than one dimension is no number, and the text no name either. -/
theorem resolve_dims_ne (hnames : reg.PlainTypedefs) {n n' : Nat} {ns : List Nat}
    (hdims : s.dims = n :: n' :: ns) :
    reg.resolve s.text ≠ s.type.shape reg (maxResolveDepth + 1) := by
  obtain ⟨front, hend⟩ := s.ends_in_bracket hdims
  have hstar : stripEnd ['*'] (normalize s.text) = none := by
    apply stripEnd_eq_none
    simp [hend]
  have halias : reg.lookupNamed reg.typedefs (normalize s.text) = none := by
    rw [hend]
    exact lookupNamed_eq_none (by decide) (by decide) (fun name hname => (hnames name hname).2)
      (by simp)
  have hshape : (s.type.shape reg (maxResolveDepth + 1)).isDerived = true := by
    rw [Spelled.type, hdims]
    rfl
  intro heq
  rw [← heq, resolve, resolveInner_empty, resolveUncached_not_derived s.text_no_paren
    (s.splitArray_of_two hdims) hstar halias] at hshape
  cases hshape

/-- A qualifier at the end keeps the last star out of reach. -/
theorem resolve_last_ne (hnames : reg.PlainTypedefs) (hdims : s.dims = [])
    (hpos : 0 < s.pointers.length) {front : List (List Char)} {q : List Char}
    (hq : q ∈ qualifiers) (hlast : s.declarator = front ++ [q]) :
    reg.resolve s.text ≠ s.type.shape reg (maxResolveDepth + 1) := by
  have hdenotes := s.denotes
  have hnormal := s.normalize_of_no_dims hdims
  rw [hlast] at hdenotes hnormal
  have hstuck := resolve_stuck hnames maxResolveDepth hdenotes hpos hq s.text_no_paren hnormal
  have htype : s.type = (CType.name s.baseWords).pointers s.pointers.length := by
    rw [Spelled.type, hdims]
    rfl
  have hderived := shape_pointers_derived reg (maxResolveDepth + 1) (.name s.baseWords) hpos
  intro heq
  rw [← htype, ← heq] at hderived
  exact absurd (hstuck.symm.trans hderived) (by simp)

/-- Where typedefs are named plainly, nothing else resolves to its shape. -/
theorem resolve_spelled_iff (hnames : reg.PlainTypedefs)
    (hdepth : s.pointers.length + s.dims.length ≤ maxResolveDepth) :
    reg.resolve s.text = s.type.shape reg (maxResolveDepth + 1) ↔ s.ReadsWhole := by
  refine ⟨fun heq => ?_, fun hwhole => resolve_spelled s hwhole hdepth⟩
  match hdims : s.dims with
  | [] =>
      obtain ⟨front, hlast⟩ | ⟨hpos, front, q, hq, hlast⟩ | hpointers := last_cases s hdims
      · refine (resolve_star_iff s hdims hlast fun m hm hfront hne => ?_).mp heq
        have hlevel :=
          @resolve_declarator reg maxResolveDepth front s.baseWords m hfront hne (by omega)
        exact ⟨hlevel.2 hnames, hlevel.1⟩
      · exact absurd heq (resolve_last_ne s hnames hdims hpos hq hlast)
      · exact (resolve_base_iff s hdims hpointers).mp heq
  | [n] =>
      rw [hdims, List.length_singleton] at hdepth
      have hlevel := @resolve_declarator reg maxResolveDepth s.declarator s.baseWords
        s.pointers.length s.denotes s.declarator_ne_nil (by omega)
      exact (resolve_array_iff s hdims ⟨hlevel.2 hnames, hlevel.1⟩).mp heq
  | n :: n' :: ns => exact absurd heq (resolve_dims_ne s hnames hdims)

/-! ## Typedef names -/

/-- A name that is declared as a typedef and as nothing else. -/
structure OnlyTypedef (reg : TypeRegistry) (name underlying : List Char) : Prop where
  word : IsName name
  unqualified : name ∉ qualifiers
  not_void : name ≠ "void".toList
  enums : reg.lookupNamed reg.enums name = none
  structs : reg.lookupNamed reg.structs name = none
  typedefs : reg.lookupNamed reg.typedefs name = some underlying

/-- The shape of a name that the tree declares with `shape`: the table of
scalars is for names whose declaration comes to nothing. -/
def declaredShape (name : List Char) (shape : TypeShape) : TypeShape :=
  if shape.isOpaque then ((scalarKind name).map .scalar).getD shape else shape

/-- One level of resolution less is enough for it. -/
def FitsBelow (reg : TypeRegistry) (raw : List Char) : Prop :=
  (reg.resolveInner (maxResolveDepth + 1) raw .empty).1
    = (reg.resolveInner maxResolveDepth raw .empty).1

theorem denotes_name {name : List Char} (h : IsName name) (hq : name ∉ qualifiers) :
    Denotes [name] [name] 0 := by
  refine ⟨⟨?_, ?_⟩, ?_, ?_⟩
  · intro p hp
    cases hp
    exact ⟨h, hq⟩
  · intro p hp
    exact .inr (List.mem_singleton.mp hp ▸ h)
  · intro hmem
    exact h.ne_star (List.mem_singleton.mp hmem).symm
  · simp [hq]

theorem render_name {name : List Char} (h : IsName name) : render [name] = name := by
  rw [render_words (by simpa using h), joinWords_singleton]

theorem normalize_name {name : List Char} (h : IsName name) (hq : name ∉ qualifiers) :
    normalize name = name := by
  have hnormal := normalize_declarator (denotes_name h hq)
  have hsettle : settle false [name] = [name] := by simp [settle, hq]
  rwa [hsettle, render_name h] at hnormal

theorem stripStart_eq_none {start text : List Char} {c : Char} (hmem : c ∈ start) (hc : c ∉ text) :
    stripStart start text = none := by
  rw [stripStart, if_neg]
  intro hstart
  exact hc (hstart.subset hmem)

/-- One level of a bare name. -/
theorem resolveUncached_name {call : Resolver} {name : List Char} {memo : ResolveMemo}
    (h : IsName name) (hq : name ∉ qualifiers) (hvoid : name ≠ "void".toList) :
    (resolveUncached reg call name memo).1
      = match (namedShape reg call name name memo).1 with
        | some shape => declaredShape name shape
        | none =>
            (((scalarKind name).or (projectPrefixedScalarKind name)).map .scalar).getD
              (.opaqueType name) := by
  have hraw : '(' ∉ name := h.not_mem (by decide)
  have harray : splitArray name = none := splitArray_eq_none (h.not_mem (by decide))
  have hstar : stripEnd ['*'] name = none := by
    apply stripEnd_eq_none
    intro hlast
    exact h.not_mem (by decide) (List.mem_of_getLast? hlast)
  have hspace : ' ' ∉ name := IsPiece.not_space (.inr h)
  have hstruct : stripStart "struct ".toList name = none := stripStart_eq_none (by decide) hspace
  have hunion : stripStart "union ".toList name = none := stripStart_eq_none (by decide) hspace
  have henum : stripStart "enum ".toList name = none := stripStart_eq_none (by decide) hspace
  unfold resolveUncached
  rw [functionPointerDeclarator_eq_false hraw, normalize_name h hq]
  simp only [Bool.false_eq_true, if_false, harray, hstar, if_neg hvoid, hstruct, hunion, henum]
  rcases namedShape reg call name name memo with ⟨named, memo'⟩
  cases hkind : scalarKind name with
  | none =>
      cases named with
      | none => cases projectPrefixedScalarKind name <;> rfl
      | some shape => simp [declaredShape, hkind]
  | some kind =>
      cases named with
      | none => rfl
      | some shape => simp [declaredShape, hkind]

theorem resolveInner_typedef {name underlying : List Char} (h : reg.OnlyTypedef name underlying)
    (left : Nat) : (reg.resolveInner (left + 1) name .empty).1
      = declaredShape name (reg.resolveInner left underlying .empty).1 := by
  rw [resolveInner_empty, resolveUncached_name h.word h.unqualified h.not_void, namedShape, h.enums,
    h.structs, h.typedefs]
  rfl

/-! ## Shapes of names -/

/-- A name without a struct or a typedef is that of an enum or is left to the
tables of scalars. -/
theorem resolveInner_name {name : List Char} (h : IsName name) (hq : name ∉ qualifiers)
    (hvoid : name ≠ "void".toList) (hstructs : reg.lookupNamed reg.structs name = none)
    (htypedefs : reg.lookupNamed reg.typedefs name = none) (left : Nat) :
    (reg.resolveInner (left + 1) name .empty).1
      = match reg.lookupNamed reg.enums name with
        | some enumDef => enumShapeForSpelling enumDef name
        | none =>
            (((scalarKind name).or (projectPrefixedScalarKind name)).map .scalar).getD
              (.opaqueType name) := by
  rw [resolveInner_empty, resolveUncached_name h hq hvoid, namedShape]
  cases henums : reg.lookupNamed reg.enums name with
  | some enumDef => rfl
  | none =>
      rw [hstructs, htypedefs]
      rfl

/-- A complete struct has the shapes of its fields, its own name active
below it. -/
theorem resolveInner_struct {name : List Char} {structDef : CStructDef} (h : IsName name)
    (hq : name ∉ qualifiers) (hvoid : name ≠ "void".toList)
    (henums : reg.lookupNamed reg.enums name = none)
    (hstructs : reg.lookupNamed reg.structs name = some structDef)
    (hcomplete : structDef.complete = true) (left : Nat) :
    (reg.resolveInner (left + 1) name .empty).1
      = .struct structDef.name (fieldsOf (reg.resolveInner left) structDef.fields
          { (.empty : ResolveMemo) with active := [name] }).1 := by
  have hfound : (reg.lookupNamed reg.structs name).filter CStructDef.complete
      = some structDef := by
    rw [hstructs, Option.filter_some, if_pos hcomplete]
  have hactive : name ∉ (.empty : ResolveMemo).active := List.not_mem_nil
  rw [resolveInner_empty, resolveUncached_name h hq hvoid, namedShape, henums]
  simp only [hstructs, Option.isSome_some, if_true]
  rw [structShape, if_neg hactive, hfound]
  rfl

/-! ## Nesting -/

/-- So many levels settle a spelling: a name without a struct or a typedef
takes one, a typedef's name, a pointer and an array one more than what they
are of. -/
inductive Nests (reg : TypeRegistry) : Nat → List Char → Prop
  | name {n : Nat} {name : List Char} (word : IsName name) (unqualified : name ∉ qualifiers)
      (not_void : name ≠ "void".toList) (structs : reg.lookupNamed reg.structs name = none)
      (typedefs : reg.lookupNamed reg.typedefs name = none) : Nests reg (n + 1) name
  | typedef {n : Nat} {name underlying : List Char} (declared : reg.OnlyTypedef name underlying)
      (below : Nests reg n underlying) : Nests reg (n + 1) name
  | pointer {n : Nat} {raw base : List Char} (no_paren : '(' ∉ raw)
      (no_array : splitArray (normalize raw) = none)
      (star : stripEnd ['*'] (normalize raw) = some base)
      (below : Nests reg n (trimEnd base)) : Nests reg (n + 1) raw
  | array {n len : Nat} {raw base : List Char} (no_paren : '(' ∉ raw)
      (split : splitArray (normalize raw) = some (base, len))
      (below : Nests reg n base) : Nests reg (n + 1) raw

/-- More levels than that change nothing. -/
theorem Nests.settled {n : Nat} {raw : List Char} (h : reg.Nests n raw) :
    ∀ left, n ≤ left →
      (reg.resolveInner left raw .empty).1 = (reg.resolveInner n raw .empty).1 := by
  induction h with
  | name word unqualified not_void structs typedefs =>
      rintro (_ | left) hle
      · omega
      · rw [resolveInner_name word unqualified not_void structs typedefs,
          resolveInner_name word unqualified not_void structs typedefs]
  | typedef declared _ ih =>
      rintro (_ | left) hle
      · omega
      · rw [resolveInner_typedef declared, resolveInner_typedef declared, ih left (by omega)]
  | pointer no_paren no_array star _ ih =>
      rintro (_ | left) hle
      · omega
      · rw [resolveInner_star reg left no_paren no_array star,
          resolveInner_star reg _ no_paren no_array star, ih left (by omega)]
  | array no_paren split _ ih =>
      rintro (_ | left) hle
      · omega
      · rw [resolveInner_array reg left no_paren split, resolveInner_array reg _ no_paren split,
          ih left (by omega)]

theorem Nests.fitsBelow {n : Nat} {raw : List Char} (h : reg.Nests n raw)
    (hn : n ≤ maxResolveDepth) : reg.FitsBelow raw := by
  rw [FitsBelow, h.settled _ (Nat.le_succ_of_le hn), h.settled _ hn]

/-! ## Types -/

/-- A spelling that is read whole has the shape of the type it denotes, and a
typedef's name that of its definition, or of its entry in the table of
scalars where the definition comes to nothing. -/
theorem resolve_type (reg : TypeRegistry) :
    (∀ s : Spelled, s.ReadsWhole → s.pointers.length + s.dims.length ≤ maxResolveDepth →
      reg.resolve s.text = s.type.shape reg (maxResolveDepth + 1)) ∧
    (∀ s s' : Spelled, s.ReadsWhole → s'.ReadsWhole → s.type = s'.type →
      s.pointers.length + s.dims.length ≤ maxResolveDepth →
      s'.pointers.length + s'.dims.length ≤ maxResolveDepth →
      reg.resolve s.text = reg.resolve s'.text) ∧
    ∀ name underlying, reg.OnlyTypedef name underlying →
      (∀ left, (CType.name [name]).shape reg (left + 1)
        = declaredShape name (reg.resolveInner left underlying .empty).1) ∧
      (reg.FitsBelow underlying →
        reg.resolve name = declaredShape name (reg.resolve underlying)) := by
  refine ⟨fun s hwhole hdepth => resolve_spelled s hwhole hdepth, ?_, ?_⟩
  · intro s s' hwhole hwhole' htype hdepth hdepth'
    rw [resolve_spelled s hwhole hdepth, resolve_spelled s' hwhole' hdepth', htype]
  · intro name underlying h
    refine ⟨fun left => ?_, fun hfits => ?_⟩
    · rw [CType.shape, joinWords_singleton, resolveInner_typedef h]
    · rw [resolve, resolve, resolveInner_typedef h, hfits]

/-! ## A qualifier behind a star

`char * const *` and, with the qualifier glued to its star, `char *const *`.
The registry knows of `typedef __u_int u_int` and not of `__u_int`.
-/

def constPointer (gap : List Char) (h : IsGap gap) : Spelled where
  specifiers := ["char".toList]
  pointers := [["const".toList], []]
  dims := []
  spaced := [([], .word "char".toList), ([' '], .star), (gap, .word "const".toList), ([' '], .star)]
  trailing := []
  tokens_eq := rfl
  names := by simpa using (isName_char "char".toList (by simp)).1
  base := ⟨"char".toList, by simp, (isName_char "char".toList (by simp)).2⟩
  quals := by
    have hconst : "const".toList ∈ qualifiers := by decide
    simpa using hconst
  lens := by simp
  gaps := by
    have hnil : IsGap [] := by simp [IsGap]
    have hspace : IsGap [' '] := by simp [IsGap, isWhitespace_space]
    simpa using ⟨hnil, hspace, h, hspace⟩
  trailing_gap := by simp [IsGap]
  apart := by simp [Token.isWord]

def spacedConst : Spelled := constPointer [' '] (by simp [IsGap, isWhitespace_space])

def gluedConst : Spelled := constPointer [] (by simp [IsGap])

def userDefs : CTypeDefs where
  structs := []
  enums := []
  typedefs := [⟨"u_int".toList, "__u_int".toList⟩]

def userRegistry : TypeRegistry := fromDefs [userDefs]

theorem onlyTypedef_user : userRegistry.OnlyTypedef "u_int".toList "__u_int".toList := by
  have hword : "u_int".toList ≠ [] ∧ ∀ c ∈ "u_int".toList, isNameChar c = true := by
    decide
  have henums : (userRegistry.lookupNamed userRegistry.enums "u_int".toList).isNone := by
    decide
  have hstructs : (userRegistry.lookupNamed userRegistry.structs "u_int".toList).isNone := by
    decide
  exact ⟨hword, by decide, by decide, Option.isNone_iff_eq_none.mp henums,
    Option.isNone_iff_eq_none.mp hstructs, by decide⟩

/-- Nothing declares the name that `u_int` is defined as. -/
theorem undeclared_user :
    IsName "__u_int".toList ∧ userRegistry.lookupNamed userRegistry.enums "__u_int".toList = none
      ∧ userRegistry.lookupNamed userRegistry.structs "__u_int".toList = none
      ∧ userRegistry.lookupNamed userRegistry.typedefs "__u_int".toList = none := by
  have hword : "__u_int".toList ≠ [] ∧ ∀ c ∈ "__u_int".toList, isNameChar c = true := by
    decide
  have henums : (userRegistry.lookupNamed userRegistry.enums "__u_int".toList).isNone := by
    decide
  have hstructs : (userRegistry.lookupNamed userRegistry.structs "__u_int".toList).isNone := by
    decide
  exact ⟨hword, Option.isNone_iff_eq_none.mp henums, Option.isNone_iff_eq_none.mp hstructs,
    by decide⟩

theorem nests_user : userRegistry.Nests 1 "__u_int".toList := by
  obtain ⟨hword, -, hstructs, htypedefs⟩ := undeclared_user
  exact .name hword (by decide) (by decide) hstructs htypedefs

theorem resolveInner_user (left : Nat) :
    (userRegistry.resolveInner (left + 1) "__u_int".toList .empty).1
      = .opaqueType "__u_int".toList := by
  obtain ⟨hword, henums, hstructs, htypedefs⟩ := undeclared_user
  have hscalar : (scalarKind "__u_int".toList).or (projectPrefixedScalarKind "__u_int".toList)
      = none := by
    rw [scalarKind_toList]
    decide
  rw [resolveInner_name hword (by decide) (by decide) hstructs htypedefs, henums, hscalar]
  rfl

theorem resolve_type_spacedConst :
    userRegistry.resolve spacedConst.text = .pointer .cString ∧
      userRegistry.resolve "u_int".toList = .scalar .u32 := by
  have hwhole : spacedConst.ReadsWhole := by
    refine ⟨by decide, by decide, ?_⟩
    intro h
    exact absurd h (by decide)
  obtain ⟨hshape, -, halias⟩ := resolve_type userRegistry
  have hfits : userRegistry.FitsBelow "__u_int".toList := nests_user.fitsBelow (by decide)
  have hscalar : scalarKind "u_int".toList = some .u32 := by
    rw [scalarKind_toList]
    decide
  constructor
  · rw [hshape spacedConst hwhole (by decide)]
    rfl
  · rw [(halias "u_int".toList "__u_int".toList onlyTypedef_user).2 hfits, resolve,
      resolveInner_user, declaredShape, hscalar]
    rfl

/-- With the qualifier glued to its star the pointer's target is not found,
and the table of scalars knows a name whose definition nothing is known of. -/
theorem resolve_type_ne :
    userRegistry.resolve gluedConst.text
        ≠ gluedConst.type.shape userRegistry (maxResolveDepth + 1) ∧
      userRegistry.OnlyTypedef "u_int".toList "__u_int".toList ∧
      userRegistry.resolve "u_int".toList ≠ userRegistry.resolve "__u_int".toList := by
  refine ⟨?_, onlyTypedef_user, ?_⟩
  · have hnames : userRegistry.PlainTypedefs := by
      intro name hname
      have hkeys : ∀ key ∈ userRegistry.typedefs.keys, '*' ∉ key ∧ ']' ∉ key := by decide
      exact hkeys name (AList.mem_keys.mp hname)
    rw [Ne, resolve_spelled_iff gluedConst hnames (by decide)]
    intro hwhole
    exact absurd hwhole.erased (by decide)
  · have hscalar : scalarKind "u_int".toList = some .u32 := by
      rw [scalarKind_toList]
      decide
    rw [resolve, resolve, resolveInner_typedef onlyTypedef_user, maxResolveDepth, resolveInner_user,
      resolveInner_user, declaredShape, hscalar]
    simp [TypeShape.isOpaque]

end TypeRegistry

end GovFuzz.TypeModel
