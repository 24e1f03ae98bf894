import GovFuzz.TypeModel.Registry

/-!
# TypeModel — resolving with and without the memo

What `resolveUncached` does with one spelling is a plan: answer at once, go
one level deeper, or expand the fields of a tag that the cycle guard knows.
So `resolve` is the memoised walk over these plans, and the recursion without
the shape cache is the other one.
-/

namespace GovFuzz.TypeModel

open GovFuzz.Lib GovFuzz.Lib.GuardedWalk
open GovFuzz.Runtrace (trim)

/-! ## The weight of a shape: its structs and unions -/

mutual

/-- The structs and unions in a shape. -/
def TypeShape.weight : TypeShape → Nat
  | .struct _ fields => 1 + weightAll fields
  | .union _ fields => 1 + weightAll fields
  | .pointer target => target.weight
  | .array elem _ => elem.weight
  | .scalar _ => 0
  | .cString => 0
  | .enum _ _ => 0
  | .funcPtr => 0
  | .opaqueType _ => 0

/-- The weight of the field's shape. -/
def Field.weight : Field → Nat
  | .mk _ shape _ => shape.weight

/-- The weight of several fields. -/
def weightAll : List Field → Nat
  | [] => 0
  | field :: fields => field.weight + weightAll fields

end

/-! ## Plans -/

/-- What resolving one spelling asks for. -/
abbrev TypePlan := Plan (List Char) (List Char) TypeShape

/-- A spelling that needs no other. -/
def leafPlan (shape : TypeShape) : TypePlan := ⟨none, [], fun _ => shape⟩

/-- One call, and what is made of its shape. -/
def deeperPlan (raw : List Char) (wrap : TypeShape → TypeShape) : TypePlan :=
  ⟨none, [raw], fun shapes => wrap (shapes.headD (.opaqueType raw))⟩

/-- The fields and the shapes of their spellings. -/
def fieldsOfShapes (fields : List CParamDescriptor) (shapes : List TypeShape) : List Field :=
  List.zipWith (fun f shape => .mk f.name shape f.cType) fields shapes

/-- A struct or union, guarded by its tag. -/
def aggregatePlan (tag raw : List Char) (found : Option CStructDef)
    (aggregate : List Char → List Field → TypeShape) : TypePlan :=
  match found.filter CStructDef.complete with
  | some structDef =>
      ⟨some (tag, .opaqueType (normalize raw)), structDef.fields.map CParamDescriptor.cType,
        fun shapes => aggregate structDef.name (fieldsOfShapes structDef.fields shapes)⟩
  | none => leafPlan (.opaqueType (normalize raw))

/-- A plan whose shape is worked on. -/
def mapPlan (f : TypeShape → TypeShape) (plan : TypePlan) : TypePlan :=
  ⟨plan.guard.map fun guard => (guard.1, f guard.2), plan.below,
    fun shapes => f (plan.build shapes)⟩

/-- The scalar, where the shape is opaque. -/
def orScalar (kind : ScalarKind) (shape : TypeShape) : TypeShape :=
  if shape.isOpaque then .scalar kind else shape

namespace TypeRegistry

variable (reg : TypeRegistry)

/-- The plan of a struct's tag. -/
def structPlan (tag raw : List Char) : TypePlan :=
  aggregatePlan tag raw (reg.lookupNamed reg.structs tag) .struct

/-- The plan of a name, when it is registered. -/
def namedPlan (normalized raw : List Char) : Option TypePlan :=
  match reg.lookupNamed reg.enums normalized with
  | some enumDef => some (leafPlan (enumShapeForSpelling enumDef normalized))
  | none =>
      if (reg.lookupNamed reg.structs normalized).isSome then
        some (reg.structPlan normalized raw)
      else (reg.lookupNamed reg.typedefs normalized).map fun underlying =>
        deeperPlan underlying id

/-- The plan of a spelling. -/
def plan (raw : List Char) : TypePlan :=
  if functionPointerDeclarator raw then
    leafPlan (match funcptrArrayLen raw with
      | some len => .array .funcPtr len
      | none => .funcPtr)
  else
    let normalized := normalize raw
    match splitArray normalized with
    | some (base, len) => deeperPlan base (.array · len)
    | none =>
    match stripEnd ['*'] normalized with
    | some base =>
        let base := trimEnd base
        if base = "char".toList ∨ base = "gchar".toList then leafPlan .cString
        else deeperPlan base .pointer
    | none =>
    if normalized = "void".toList then leafPlan (.opaqueType "void".toList)
    else
    match scalarKind normalized with
    | some kind =>
        match reg.namedPlan normalized raw with
        | some named => mapPlan (orScalar kind) named
        | none => leafPlan (.scalar kind)
    | none =>
    match stripStart "struct ".toList normalized with
    | some tag => reg.structPlan (trim tag) raw
    | none =>
    match stripStart "union ".toList normalized with
    | some tag => aggregatePlan (trim tag) raw
        ((reg.lookupNamed reg.unions (trim tag)).or (reg.lookupNamed reg.structs (trim tag))) .union
    | none =>
    match stripStart "enum ".toList normalized with
    | some tag => leafPlan (reg.enumShape (trim tag) raw)
    | none =>
    match reg.namedPlan normalized raw with
    | some named => named
    | none =>
        match projectPrefixedScalarKind normalized with
        | some kind => leafPlan (.scalar kind)
        | none => leafPlan (.opaqueType normalized)

end TypeRegistry

/-! ## What is computed is the plan -/

section Run

variable (call : Resolver) (memo : ResolveMemo)

@[simp] theorem run_leafPlan (shape : TypeShape) :
    (leafPlan shape).run call memo = (shape, memo) := rfl

@[simp] theorem run_deeperPlan (raw : List Char) (wrap : TypeShape → TypeShape) :
    (deeperPlan raw wrap).run call memo = (wrap (call raw memo).1, (call raw memo).2) := rfl

theorem run_mapPlan (f : TypeShape → TypeShape) (plan : TypePlan) :
    (mapPlan f plan).run call memo = (f (plan.run call memo).1, (plan.run call memo).2) := by
  obtain ⟨guard, below, build⟩ := plan
  cases guard with
  | none => rfl
  | some g =>
      simp only [mapPlan, Plan.run, Option.map_some]
      split <;> rfl

theorem fieldsOf_eq (fields : List CParamDescriptor) : ∀ memo,
    TypeRegistry.fieldsOf call fields memo
      = (fieldsOfShapes fields (callAll call (fields.map CParamDescriptor.cType) memo).1,
          (callAll call (fields.map CParamDescriptor.cType) memo).2) := by
  induction fields with
  | nil => intro memo; rfl
  | cons f fields ih =>
      intro memo
      rw [TypeRegistry.fieldsOf, ih]
      rfl

/-- Expanding an aggregate; a tag is active only if it is complete. -/
theorem run_aggregatePlan {tag raw : List Char} {found : Option CStructDef}
    {aggregate : List Char → List Field → TypeShape}
    (hactive : tag ∈ memo.active → (found.filter CStructDef.complete).isSome) :
    (aggregatePlan tag raw found aggregate).run call memo
      = if tag ∈ memo.active then
          (.opaqueType (normalize raw), { memo with cycleTruncated := true })
        else
          match found.filter CStructDef.complete with
          | some structDef =>
              let fields := TypeRegistry.fieldsOf call structDef.fields
                { memo with active := memo.active ++ [tag] }
              (aggregate structDef.name fields.1,
                { fields.2 with active := fields.2.active.dropLast })
          | none => (.opaqueType (normalize raw), memo) := by
  unfold aggregatePlan
  cases hfound : found.filter CStructDef.complete with
  | none =>
      have hfree : tag ∉ memo.active := fun h => by simpa [hfound] using hactive h
      simp [hfree]
  | some structDef =>
      simp only [Plan.run, fieldsOf_eq]

end Run

namespace TypeRegistry

variable (reg : TypeRegistry)

/-- The tag is registered with its body. -/
def Complete (tag : List Char) : Prop :=
  ((reg.lookupNamed reg.structs tag).filter CStructDef.complete).isSome

/-- The active tags are all registered with their bodies. -/
def AllComplete (active : List (List Char)) : Prop := ∀ tag ∈ active, reg.Complete tag

variable {reg} {call : Resolver} {memo : ResolveMemo}

theorem run_structPlan (hmemo : reg.AllComplete memo.active) (tag raw : List Char) :
    (reg.structPlan tag raw).run call memo = structShape reg call tag raw memo :=
  run_aggregatePlan call memo (hmemo tag)

/-- The registry has no union of its own: `from_defs` records none. -/
def NoUnions (reg : TypeRegistry) : Prop := ∀ tag, reg.lookupNamed reg.unions tag = none

theorem run_unionPlan (hunions : NoUnions reg) (hmemo : reg.AllComplete memo.active)
    (tag raw : List Char) :
    (aggregatePlan tag raw
      ((reg.lookupNamed reg.unions tag).or (reg.lookupNamed reg.structs tag)) .union).run call memo
      = unionShape reg call tag raw memo := by
  refine run_aggregatePlan call memo ?_
  rw [hunions, Option.none_or]
  exact hmemo tag

theorem namedShape_eq (hmemo : reg.AllComplete memo.active) (normalized raw : List Char) :
    namedShape reg call normalized raw memo
      = match reg.namedPlan normalized raw with
        | some named => (some (named.run call memo).1, (named.run call memo).2)
        | none => (none, memo) := by
  unfold namedShape namedPlan
  cases reg.lookupNamed reg.enums normalized with
  | some enumDef => rfl
  | none =>
      dsimp only
      cases (reg.lookupNamed reg.structs normalized).isSome with
      | true =>
          simp only [if_true]
          rw [run_structPlan hmemo]
      | false =>
          cases reg.lookupNamed reg.typedefs normalized <;> rfl

/-- One level of resolution runs the plan of the spelling. -/
theorem resolveUncached_eq (hunions : NoUnions reg) (hmemo : reg.AllComplete memo.active)
    (raw : List Char) : resolveUncached reg call raw memo = (reg.plan raw).run call memo := by
  unfold resolveUncached plan
  -- The forms of a spelling, in the order in which they are tried.
  cases functionPointerDeclarator raw with
  | true => cases funcptrArrayLen raw <;> rfl
  | false =>
  simp only [Bool.false_eq_true, if_false]
  cases splitArray (normalize raw) with
  | some split => rfl
  | none =>
  dsimp only
  cases stripEnd ['*'] (normalize raw) with
  | some base =>
      dsimp only
      split <;> rfl
  | none =>
  dsimp only
  by_cases hvoid : normalize raw = "void".toList
  · simp only [hvoid, if_true, run_leafPlan]
  simp only [hvoid, if_false]
  cases scalarKind (normalize raw) with
  | some kind =>
      dsimp only
      rw [namedShape_eq hmemo]
      cases reg.namedPlan (normalize raw) raw with
      | some named => exact (run_mapPlan call memo (orScalar kind) named).symm
      | none => rfl
  | none =>
  dsimp only
  cases stripStart "struct ".toList (normalize raw) with
  | some tag => exact (run_structPlan hmemo (trim tag) raw).symm
  | none =>
  dsimp only
  cases stripStart "union ".toList (normalize raw) with
  | some tag => exact (run_unionPlan hunions hmemo (trim tag) raw).symm
  | none =>
  dsimp only
  cases stripStart "enum ".toList (normalize raw) with
  | some tag => rfl
  | none =>
  dsimp only
  rw [namedShape_eq hmemo]
  cases reg.namedPlan (normalize raw) raw with
  | some named => rfl
  | none => cases projectPrefixedScalarKind (normalize raw) <;> rfl

end TypeRegistry

/-! ## Plans and weights -/

/-- What a plan builds weighs its tag and the shapes below it; a cut weighs
nothing, and only complete tags are guarded. -/
structure Lawful (reg : TypeRegistry) (plan : TypePlan) : Prop where
  build : ∀ shapes, shapes.length = plan.below.length → (plan.build shapes).weight
    = (if plan.guard.isSome then 1 else 0) + (shapes.map TypeShape.weight).sum
  cut : ∀ tag shape, plan.guard = some (tag, shape) → shape.weight = 0
  complete : reg.NoUnions → ∀ guard ∈ plan.guard, reg.Complete guard.1

section Lawful

variable {reg : TypeRegistry}

theorem lawful_leafPlan {shape : TypeShape} (h : shape.weight = 0) :
    Lawful reg (leafPlan shape) := by
  refine ⟨fun shapes hlength => ?_, fun _ _ h => (by cases h), fun _ _ h => (by cases h)⟩
  obtain rfl := List.length_eq_zero_iff.mp hlength
  exact h

theorem lawful_deeperPlan (raw : List Char) {wrap : TypeShape → TypeShape}
    (h : ∀ shape, (wrap shape).weight = shape.weight) : Lawful reg (deeperPlan raw wrap) := by
  refine ⟨fun shapes hlength => ?_, fun _ _ h => (by cases h), fun _ _ h => (by cases h)⟩
  obtain ⟨shape, rfl⟩ := List.length_eq_one_iff.mp hlength
  simp [deeperPlan, h]

theorem weightAll_fieldsOfShapes : ∀ {fields : List CParamDescriptor} {shapes : List TypeShape},
    shapes.length = fields.length →
    weightAll (fieldsOfShapes fields shapes) = (shapes.map TypeShape.weight).sum
  | [], [], _ => rfl
  | f :: fields, shape :: shapes, h => by
      have hlength : shapes.length = fields.length := Nat.succ.inj h
      have ih := weightAll_fieldsOfShapes hlength
      rw [List.map_cons, List.sum_cons, ← ih]
      rfl

theorem lawful_aggregatePlan {tag raw : List Char} {found : Option CStructDef}
    {aggregate : List Char → List Field → TypeShape}
    (h : ∀ name fields, (aggregate name fields).weight = 1 + weightAll fields)
    (hcomplete : reg.NoUnions → (found.filter CStructDef.complete).isSome → reg.Complete tag) :
    Lawful reg (aggregatePlan tag raw found aggregate) := by
  unfold aggregatePlan
  cases hfound : found.filter CStructDef.complete with
  | none => exact lawful_leafPlan rfl
  | some structDef =>
      rw [hfound] at hcomplete
      refine ⟨fun shapes hlength => ?_, fun _ _ hguard => ?_, fun hunions guard hguard => ?_⟩
      · dsimp only at hlength ⊢
        rw [List.length_map] at hlength
        rw [h, weightAll_fieldsOfShapes hlength]
        rfl
      · cases hguard
        rfl
      · cases hguard
        exact hcomplete hunions rfl

theorem lawful_mapPlan {f : TypeShape → TypeShape} (h : ∀ shape, (f shape).weight = shape.weight)
    {plan : TypePlan} (hplan : Lawful reg plan) : Lawful reg (mapPlan f plan) := by
  refine ⟨fun shapes hlength => ?_, fun tag shape hguard => ?_, fun hunions guard hguard => ?_⟩
  · have hbuild := hplan.build shapes hlength
    simp only [mapPlan, Option.isSome_map]
    rw [h, hbuild]
  · obtain ⟨⟨tag', shape'⟩, hguard', heq⟩ := Option.map_eq_some_iff.mp hguard
    cases heq
    rw [h]
    exact hplan.cut tag' shape' hguard'
  · obtain ⟨guard', hguard', rfl⟩ := Option.map_eq_some_iff.mp hguard
    exact hplan.complete hunions guard' hguard'

theorem weight_orScalar (kind : ScalarKind) (shape : TypeShape) :
    (orScalar kind shape).weight = shape.weight := by
  cases shape <;> rfl

end Lawful

namespace TypeRegistry

variable (reg : TypeRegistry)

theorem lawful_structPlan (tag raw : List Char) : Lawful reg (reg.structPlan tag raw) :=
  lawful_aggregatePlan (fun _ _ => rfl) fun _ h => h

theorem lawful_namedPlan {normalized raw : List Char} {named : TypePlan}
    (h : reg.namedPlan normalized raw = some named) : Lawful reg named := by
  unfold namedPlan at h
  cases henum : reg.lookupNamed reg.enums normalized with
  | some enumDef =>
      rw [henum] at h
      cases h
      exact lawful_leafPlan rfl
  | none =>
      simp only [henum] at h
      split at h
      · cases h
        exact reg.lawful_structPlan normalized raw
      · obtain ⟨underlying, -, rfl⟩ := Option.map_eq_some_iff.mp h
        exact lawful_deeperPlan underlying fun _ => rfl

/-- The plan of every spelling is lawful, a case per form of spelling. -/
theorem lawful_plan (raw : List Char) : Lawful reg (reg.plan raw) := by
  unfold plan
  split
  · apply lawful_leafPlan
    cases funcptrArrayLen raw <;> rfl
  dsimp only
  split
  · exact lawful_deeperPlan _ fun _ => rfl
  split
  · split
    · exact lawful_leafPlan rfl
    · exact lawful_deeperPlan _ fun _ => rfl
  split
  · exact lawful_leafPlan rfl
  split
  · rename_i kind _
    split
    · rename_i named hnamed
      exact lawful_mapPlan (weight_orScalar kind) (reg.lawful_namedPlan hnamed)
    · exact lawful_leafPlan rfl
  split
  · exact reg.lawful_structPlan _ raw
  split
  · refine lawful_aggregatePlan (fun _ _ => rfl) fun hunions h => ?_
    rwa [hunions, Option.none_or] at h
  split
  · apply lawful_leafPlan
    unfold enumShape
    split <;> rfl
  split
  · rename_i named hnamed
    exact reg.lawful_namedPlan hnamed
  · split <;> exact lawful_leafPlan rfl

/-- The weight counts the guarded steps of a walk. -/
def weighing : Weighing reg.plan where
  weight := TypeShape.weight
  own raw := if (reg.plan raw).guard.isSome then 1 else 0
  build raw := (reg.lawful_plan raw).build
  cut raw tag shape h := by
    rw [(reg.lawful_plan raw).cut tag shape h, h]
    exact Nat.one_pos

/-! ## The two resolutions -/

/-- `resolve_inner` without the shape cache: the same limit, the same guard. -/
def resolveUnmemoised : Nat → Resolver
  | 0, raw, memo => (.opaqueType (trim raw), memo)
  | left + 1, raw, memo => resolveUncached reg (resolveUnmemoised left) raw memo

/-- What stands for a spelling below the last level. -/
def limitShape (raw : List Char) : TypeShape := .opaqueType (trim raw)

variable {reg}

theorem allComplete_push {active : List (List Char)} (h : reg.AllComplete active)
    (hunions : NoUnions reg) (raw : List Char) :
    reg.AllComplete ((reg.plan raw).push active) := by
  have hcomplete := (reg.lawful_plan raw).complete hunions
  unfold Plan.push
  cases hguard : (reg.plan raw).guard with
  | none => exact h
  | some guard =>
      intro tag htag
      obtain htag | rfl := List.mem_append.mp htag |>.imp_right List.mem_singleton.mp
      · exact h tag htag
      · exact hcomplete guard hguard

theorem resolveUnmemoised_eq (hunions : NoUnions reg) (left : Nat) : ∀ raw (memo : ResolveMemo),
    reg.AllComplete memo.active →
    resolveUnmemoised reg left raw memo = unmemoised limitShape reg.plan left raw memo := by
  induction left with
  | zero => intro raw memo _; rfl
  | succ left ih =>
      intro raw memo hmemo
      rw [resolveUnmemoised, unmemoised, resolveUncached_eq hunions hmemo]
      exact Plan.run_congr ih (fun raw memo => (unmemoised_eq limitShape reg.plan left raw memo).2)
        (allComplete_push hmemo hunions raw)

theorem resolveInner_eq (hunions : NoUnions reg) (left : Nat) : ∀ raw (memo : ResolveMemo),
    reg.AllComplete memo.active →
    resolveInner reg left raw memo = walk limitShape reg.plan left raw memo := by
  induction left with
  | zero => intro raw memo _; rfl
  | succ left ih =>
      intro raw memo hmemo
      rw [resolveInner, walk]
      cases memo.shapes (raw, left) with
      | some hit => rfl
      | none =>
          have hmemo' :
              reg.AllComplete ({ memo with cycleTruncated := false } : ResolveMemo).active :=
            hmemo
          dsimp only
          rw [resolveUncached_eq hunions hmemo',
            Plan.run_congr ih (walk_active limitShape reg.plan left)
            (m := { memo with cycleTruncated := false }) (allComplete_push hmemo hunions raw)]
          rfl

theorem lookupNamed_empty {α : Type} (reg : TypeRegistry) (name : List Char) :
    reg.lookupNamed (∅ : NameMap α) name = none := by
  simp [lookupNamed]

theorem noUnions_fromDefs (all : List CTypeDefs) (scopes : List (List Char)) :
    NoUnions ((fromDefs all).withCppLookupScopes scopes) :=
  fun tag => lookupNamed_empty _ tag

/-- The spellings the recursion without the cache goes through, by the levels
left, and whether the guard cuts at or below them. -/
def meetings (reg : TypeRegistry) (raw : List Char) : List (Visit (List Char)) :=
  visits reg.plan (maxResolveDepth + 1) raw (some [])

/-- The cache is not seen, and no tag stays active, exactly if no spelling
that was resolved without a cut is met again at its depth where the guard
cuts. -/
theorem resolve_eq_iff (all : List CTypeDefs) (scopes : List (List Char)) (raw : List Char) :
    let reg := (fromDefs all).withCppLookupScopes scopes
    (reg.resolve raw = (reg.resolveUnmemoised (maxResolveDepth + 1) raw .empty).1 ∧
        (reg.resolveInner (maxResolveDepth + 1) raw .empty).2.active = []) ↔
      (reg.meetings raw).Pairwise Agree := by
  intro reg
  have hunions : NoUnions reg := noUnions_fromDefs all scopes
  have hempty : reg.AllComplete (Memo.empty : ResolveMemo).active := by
    intro tag htag
    cases htag
  rw [resolve, resolveInner_eq hunions _ raw .empty hempty,
    resolveUnmemoised_eq hunions _ raw .empty hempty]
  have hactive := walk_active limitShape reg.plan (maxResolveDepth + 1) raw .empty
  have hiff : (walk limitShape reg.plan (maxResolveDepth + 1) raw .empty).1
      = (unmemoised limitShape reg.plan (maxResolveDepth + 1) raw .empty).1 ↔
        (reg.meetings raw).Pairwise Agree :=
    walk_eq_iff reg.weighing (maxResolveDepth + 1) raw
  constructor
  · intro h
    exact hiff.mp h.1
  · intro h
    exact ⟨hiff.mpr h, hactive⟩

/-! ## A ring of two structs

`struct X { struct T *t; }`, `struct T { struct X *x; }`, and a struct with
pointers to both.  Through its field `a` the depth limit stops `X` before `T`
comes round; through `b` the same `X`, at the same depth, is below `T`.
-/

/-- A struct of one field. -/
def oneField (name field cType : String) : CStructDef :=
  ⟨name.toList, [⟨field.toList, cType.toList⟩], true⟩

/-- Two structs that point at each other, and one that reaches both. -/
def ringDefs : CTypeDefs where
  structs := [oneField "X" "t" "struct T *", oneField "T" "x" "struct X *",
    ⟨"R".toList, [⟨['a'], "struct X *************".toList⟩, ⟨['b'], "struct T ***********".toList⟩],
      true⟩]
  enums := []
  typedefs := []

/-- Below `b` the memo answers with the `T` that the guard would cut. -/
theorem resolve_ring_ne :
    ¬ ∀ (all : List CTypeDefs) (scopes : List (List Char)) (raw : List Char),
      let reg := (fromDefs all).withCppLookupScopes scopes
      reg.resolve raw = (reg.resolveUnmemoised (maxResolveDepth + 1) raw .empty).1 ∧
        (reg.resolveInner (maxResolveDepth + 1) raw .empty).2.active = [] := by
  intro h
  have heq := congrArg TypeShape.weight (h [ringDefs] [] "struct R".toList).1
  have hmemo : (((fromDefs [ringDefs]).withCppLookupScopes []).resolve
      "struct R".toList).weight = 6 := by decide +kernel
  have hplain : (((fromDefs [ringDefs]).withCppLookupScopes []).resolveUnmemoised
      (maxResolveDepth + 1) "struct R".toList .empty).1.weight = 5 := by decide +kernel
  rw [hmemo, hplain] at heq
  cases heq

end TypeRegistry

end GovFuzz.TypeModel
