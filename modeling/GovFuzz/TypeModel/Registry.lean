import GovFuzz.Lib.GuardedWalk
import GovFuzz.TypeModel.Spelling
import Mathlib.Data.List.AList

/-!
# TypeModel — the registry and its resolution

`TypeRegistry` of `crates/type_model/src/lib.rs`: the definitions of a
translation unit, and how a raw C type is resolved over them.  The functions
that resolve call each other; here the call one level deeper is a parameter
of the rest, and `resolveInner` closes the knot by the levels that are left
down to `MAX_RESOLVE_DEPTH`.
-/

namespace GovFuzz.TypeModel

open GovFuzz.Lib.GuardedWalk (Memo)
open GovFuzz.Runtrace (trim)

/-! ## Definitions, as the parser records them -/

/-- A member of a struct or a union: its name and the spelling of its type. -/
structure CParamDescriptor where
  name : List Char
  cType : List Char

/-- A struct or union; `complete` when its body was seen. -/
structure CStructDef where
  name : List Char
  fields : List CParamDescriptor
  complete : Bool

/-- An enum and its members in order. -/
structure CEnumDef where
  name : List Char
  members : List (List Char)

/-- A typedef and the spelling it stands for. -/
structure CTypedefDef where
  name : List Char
  underlying : List Char

/-- The definitions found in one file. -/
structure CTypeDefs where
  structs : List CStructDef
  enums : List CEnumDef
  typedefs : List CTypedefDef

/-! ## Shapes -/

mutual

/-- The shape a spelling resolves to. -/
inductive TypeShape where
  | scalar (kind : ScalarKind)
  | cString
  | enum (name : List Char) (members : List (List Char))
  | struct (name : List Char) (fields : List Field)
  | union (name : List Char) (fields : List Field)
  | pointer (target : TypeShape)
  | array (elem : TypeShape) (len : Nat)
  | funcPtr
  | opaqueType (spelling : List Char)

/-- A field with its shape and its spelling. -/
inductive Field where
  | mk (name : List Char) (shape : TypeShape) (cType : List Char)

end

/-- Nothing is known of the type's layout. -/
def TypeShape.isOpaque : TypeShape → Bool
  | .opaqueType _ => true
  | _ => false

/-! ## The registry -/

/-- A map from names. -/
abbrev NameMap (α : Type) := AList fun _ : List Char => α

/-- The definitions of all files by name, and the scopes a name is looked up in. -/
structure TypeRegistry where
  structs : NameMap CStructDef := ∅
  unions : NameMap CStructDef := ∅
  enums : NameMap CEnumDef := ∅
  typedefs : NameMap (List Char) := ∅
  cppLookupScopes : List (List Char) := []

/-- The first definition of a name wins, except that a complete one replaces
a forward declaration. -/
def addStruct (structs : NameMap CStructDef) (s : CStructDef) : NameMap CStructDef :=
  match structs.lookup s.name with
  | some existing =>
      if existing.complete || !s.complete then structs else structs.insert s.name s
  | none => structs.insert s.name s

/-- `entry(name).or_insert(value)`. -/
def addFirst {α : Type} (map : NameMap α) (name : List Char) (value : α) : NameMap α :=
  match map.lookup name with
  | some _ => map
  | none => map.insert name value

namespace TypeRegistry

/-- The registry of the definitions of all files. -/
def fromDefs (all : List CTypeDefs) : TypeRegistry where
  structs := (all.flatMap CTypeDefs.structs).foldl addStruct ∅
  enums := (all.flatMap CTypeDefs.enums).foldl (fun map e => addFirst map e.name e) ∅
  typedefs := (all.flatMap CTypeDefs.typedefs).foldl
    (fun map t => addFirst map t.name t.underlying) ∅

/-- The registry as one C++ function sees it. -/
def withCppLookupScopes (reg : TypeRegistry) (scopes : List (List Char)) : TypeRegistry :=
  { reg with cppLookupScopes := scopes }

/-- A name as it is spelled, then in each enclosing scope, then as the only
one with its last part. -/
def lookupNamed {α : Type} (reg : TypeRegistry) (map : NameMap α) (name : List Char) : Option α :=
  let inScope :=
    if (afterColons name).isSome then none
    else reg.cppLookupScopes.findSome? fun scope => map.lookup (scope ++ "::".toList ++ name)
  let leaf := (qualifiedLeaf name).getD name
  let only :=
    match map.entries.filter fun entry => (afterColons entry.1).getD entry.1 = leaf with
    | [entry] => some entry.2
    | _ => none
  ((map.lookup name).or inScope).or only

end TypeRegistry

/-- The members with the scope that the spelling adds to the enum's own name. -/
def qualifyEnumMembersForSpelling (enumDef : CEnumDef) (spelling : List Char) :
    List (List Char) :=
  match stripEnd enumDef.name spelling with
  | none => enumDef.members
  | some extraScope =>
      if extraScope ≠ [] && !("::".toList <:+ extraScope) then enumDef.members
      else if extraScope = [] then enumDef.members
      else enumDef.members.map (extraScope ++ ·)

/-- The shape of an enum under the spelling that named it. -/
def enumShapeForSpelling (enumDef : CEnumDef) (spelling : List Char) : TypeShape :=
  .enum enumDef.name (qualifyEnumMembersForSpelling enumDef spelling)

/-! ## Resolution -/

/-- Levels of a type that are resolved. -/
def maxResolveDepth : Nat := 16

/-- The shapes already resolved, by spelling and by the levels left where
they were (`MAX_RESOLVE_DEPTH` less the depth); the tags being expanded,
innermost last; whether a cycle was cut. -/
abbrev ResolveMemo := Memo (List Char) (List Char) TypeShape

/-- A resolver of spellings one level deeper. -/
abbrev Resolver := List Char → ResolveMemo → TypeShape × ResolveMemo

namespace TypeRegistry

section OneLevel

variable (reg : TypeRegistry) (resolve : Resolver)

/-- The shapes of the fields, one after the other on one memo. -/
def fieldsOf : List CParamDescriptor → ResolveMemo → List Field × ResolveMemo
  | [], memo => ([], memo)
  | f :: fields, memo =>
      let first := resolve f.cType memo
      let others := fieldsOf fields first.2
      (.mk f.name first.1 f.cType :: others.1, others.2)

/-- A struct: opaque when its tag is active or its body unknown. -/
def structShape (tag raw : List Char) (memo : ResolveMemo) : TypeShape × ResolveMemo :=
  if tag ∈ memo.active then
    (.opaqueType (normalize raw), { memo with cycleTruncated := true })
  else
    match (reg.lookupNamed reg.structs tag).filter CStructDef.complete with
    | some structDef =>
        let fields := fieldsOf resolve structDef.fields
          { memo with active := memo.active ++ [tag] }
        (.struct structDef.name fields.1,
          { fields.2 with active := fields.2.active.dropLast })
    | none => (.opaqueType (normalize raw), memo)

/-- A union, looked up among the structs too. -/
def unionShape (tag raw : List Char) (memo : ResolveMemo) : TypeShape × ResolveMemo :=
  if tag ∈ memo.active then
    (.opaqueType (normalize raw), { memo with cycleTruncated := true })
  else
    match ((reg.lookupNamed reg.unions tag).or (reg.lookupNamed reg.structs tag)).filter
      CStructDef.complete with
    | some unionDef =>
        let fields := fieldsOf resolve unionDef.fields
          { memo with active := memo.active ++ [tag] }
        (.union unionDef.name fields.1,
          { fields.2 with active := fields.2.active.dropLast })
    | none => (.opaqueType (normalize raw), memo)

/-- An enum, opaque when it is not registered. -/
def enumShape (tag raw : List Char) : TypeShape :=
  match reg.lookupNamed reg.enums tag with
  | some enumDef => enumShapeForSpelling enumDef tag
  | none => .opaqueType (normalize raw)

/-- The shape of a bare name that the tree declares. -/
def namedShape (normalized raw : List Char) (memo : ResolveMemo) :
    Option TypeShape × ResolveMemo :=
  match reg.lookupNamed reg.enums normalized with
  | some enumDef => (some (enumShapeForSpelling enumDef normalized), memo)
  | none =>
      if (reg.lookupNamed reg.structs normalized).isSome then
        let shape := structShape reg resolve normalized raw memo
        (some shape.1, shape.2)
      else
        match reg.lookupNamed reg.typedefs normalized with
        | some underlying =>
            let shape := resolve underlying memo
            (some shape.1, shape.2)
        | none => (none, memo)

/-- One level of `resolve_inner`, the level below as a parameter. -/
def resolveUncached (raw : List Char) (memo : ResolveMemo) : TypeShape × ResolveMemo :=
  if functionPointerDeclarator raw then
    match funcptrArrayLen raw with
    | some len => (.array .funcPtr len, memo)
    | none => (.funcPtr, memo)
  else
    let normalized := normalize raw
    match splitArray normalized with
    | some (base, len) =>
        let elem := resolve base memo
        (.array elem.1 len, elem.2)
    | none =>
    match stripEnd ['*'] normalized with
    | some base =>
        let base := trimEnd base
        if base = "char".toList ∨ base = "gchar".toList then (.cString, memo)
        else
          let target := resolve base memo
          (.pointer target.1, target.2)
    | none =>
    if normalized = "void".toList then (.opaqueType "void".toList, memo)
    else
    match scalarKind normalized with
    | some kind =>
        -- what the tree declares under the name wins, unless it comes to nothing
        match namedShape reg resolve normalized raw memo with
        | (some shape, memo) => (if shape.isOpaque then .scalar kind else shape, memo)
        | (none, memo) => (.scalar kind, memo)
    | none =>
    match stripStart "struct ".toList normalized with
    | some tag => structShape reg resolve (trim tag) raw memo
    | none =>
    match stripStart "union ".toList normalized with
    | some tag => unionShape reg resolve (trim tag) raw memo
    | none =>
    match stripStart "enum ".toList normalized with
    | some tag => (enumShape reg (trim tag) raw, memo)
    | none =>
    match namedShape reg resolve normalized raw memo with
    | (some shape, memo) => (shape, memo)
    | (none, memo) =>
        match projectPrefixedScalarKind normalized with
        | some kind => (.scalar kind, memo)
        | none => (.opaqueType normalized, memo)

end OneLevel

variable (reg : TypeRegistry)

/-- `resolve_inner`, with the levels left instead of the depth: none is left
beyond `MAX_RESOLVE_DEPTH`. -/
def resolveInner : Nat → Resolver
  | 0, raw, memo => (.opaqueType (trim raw), memo)
  | left + 1, raw, memo =>
      match memo.shapes (raw, left) with
      | some hit => (hit, memo)
      | none =>
          let out := resolveUncached reg (resolveInner left) raw
            { memo with cycleTruncated := false }
          let memo' := if out.2.cycleTruncated then out.2 else out.2.insert (raw, left) out.1
          (out.1, { memo' with cycleTruncated := memo'.cycleTruncated || memo.cycleTruncated })

/-- The shape of a spelling, from an empty memo. -/
def resolve (raw : List Char) : TypeShape :=
  (resolveInner reg (maxResolveDepth + 1) raw .empty).1

end TypeRegistry

end GovFuzz.TypeModel
