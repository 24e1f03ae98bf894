import GovFuzz.Iiop.Giop

/-!
# Iiop — IDL-driven decoding of request arguments

`decode_request_arguments` of `crates/iiop/src/idl_args.rs` with everything
it calls.  The reader is threaded through as state; every error carries the
operation, the parameter and the raw argument bytes, as in the source.
-/

namespace GovFuzz.Iiop

open GovFuzz.Lib

/-! ## The signature -/

/-- The basic types of IDL. -/
inductive PrimitiveType where
  | boolean
  | char
  | wChar
  | octet
  | short
  | uShort
  | long
  | uLong
  | longLong
  | uLongLong
  | float
  | double
  | longDouble
  | any
  | object
  deriving DecidableEq

/-- A name and its scopes, from the root when `absolute`. -/
structure ScopedName where
  absolute : Bool
  parts : List String
  deriving DecidableEq

/-- A type as a parameter names it. -/
inductive TypeRef where
  | void
  | primitive (primitive : PrimitiveType)
  | named (name : ScopedName)
  | sequence (element : TypeRef) (bound : Option UInt64)
  | map (key value : TypeRef) (bound : Option UInt64)
  | array (element : TypeRef) (dimensions : List UInt64)
  | string (wide : Bool) (bound : Option UInt64)
  | fixed (digits : UInt16) (scale : Int16)
  deriving DecidableEq

/-- Which way a parameter goes. -/
inductive ParamDirection where
  | «in»
  | out
  | inOut
  deriving DecidableEq

/-- A parameter as it is declared. -/
structure IdlParamMetadata where
  name : String
  direction : ParamDirection
  ty : TypeRef
  deriving DecidableEq

/-- An operation as it is declared. -/
structure IdlOperationMetadata where
  repositoryId : Option String
  interface : String
  scopedInterface : List String
  operation : String
  params : List IdlParamMetadata
  deriving DecidableEq

/-- The operations and the interfaces of all files. -/
structure IdlOperationCatalog where
  operations : List IdlOperationMetadata
  interfaceScopes : List (List String)
  deriving DecidableEq

/-! ## What is decoded -/

/-- Floats are their bit patterns. -/
inductive DecodedArgumentValue where
  | boolean (value : Bool)
  | char (value : UInt8)
  | octet (value : UInt8)
  | short (value : Int16)
  | uShort (value : UInt16)
  | long (value : Int32)
  | uLong (value : UInt32)
  | longLong (value : Int64)
  | uLongLong (value : UInt64)
  | float (bits : UInt32)
  | double (bits : UInt64)
  | string (value : String)
  | sequence (values : List DecodedArgumentValue)
  | objectReference (typeId : String) (profileCount : UInt32)

/-- An argument and its value. -/
structure DecodedArgument where
  name : String
  direction : ParamDirection
  ty : TypeRef
  span : Nat × Nat
  value : DecodedArgumentValue

/-- The arguments of a request and its undecoded bytes. -/
structure DecodedRequestArguments where
  repositoryId : Option String
  interface : String
  operation : String
  rawArguments : List UInt8
  arguments : List DecodedArgument

/-- Why the arguments cannot be decoded; each error keeps their bytes. -/
inductive IdlArgumentDecodeError where
  | unknownOperation (operation : String) (rawArguments : List UInt8)
  | ambiguousOperation (operation : String) (rawArguments : List UInt8)
  | unsupportedType (operation parameter : String) (ty : TypeRef) (rawArguments : List UInt8)
  | sequenceBoundExceeded (operation parameter : String) (bound : UInt64) (actual : UInt32)
      (rawArguments : List UInt8)
  | cdr (operation parameter : String) (source : CdrError) (rawArguments : List UInt8)
  | trailingBytes (operation : String) (offset remaining : Nat) (rawArguments : List UInt8)
  deriving DecidableEq

/-- The error with these bytes. -/
def IdlArgumentDecodeError.withRawArguments (rawArguments : List UInt8) :
    IdlArgumentDecodeError → IdlArgumentDecodeError
  | .unknownOperation operation _ => .unknownOperation operation rawArguments
  | .ambiguousOperation operation _ => .ambiguousOperation operation rawArguments
  | other => other

/-! ## The catalog -/

namespace IdlOperationCatalog

/-- The one operation of that name. -/
def lookupOperation (catalog : IdlOperationCatalog) (operation : String) :
    Except IdlArgumentDecodeError IdlOperationMetadata :=
  match catalog.operations.filter (·.operation = operation) with
  | [] => .error (.unknownOperation operation [])
  | [first] => .ok first
  | _ :: _ :: _ => .error (.ambiguousOperation operation [])

/-- The name from the root, as it reads in this scope. -/
def scopedNameKey (scope : List String) (name : ScopedName) : List String :=
  if name.absolute then name.parts else scope ++ name.parts

/-- The operation's scope ends in its interface, which is dropped. -/
def typeIsInterface (catalog : IdlOperationCatalog) (ty : TypeRef)
    (operationScope : List String) : Bool :=
  match ty with
  | .named name =>
      let resolved := scopedNameKey operationScope.dropLast name
      catalog.interfaceScopes.any fun scope =>
        scope = resolved || scope.getLast? = name.parts.getLast?
  | _ => false

end IdlOperationCatalog

/-! ## Decoding -/

/-- A decoder of arguments. -/
abbrev Decode := Op CdrReader IdlArgumentDecodeError

/-- What every decoding step knows besides the reader. -/
structure DecodeContext where
  operation : IdlOperationMetadata
  param : IdlParamMetadata
  catalog : IdlOperationCatalog
  rawArguments : List UInt8

namespace DecodeContext

variable (ctx : DecodeContext)

/-- The error of a read, for this parameter. -/
def cdrError (source : CdrError) : IdlArgumentDecodeError :=
  .cdr ctx.operation.operation ctx.param.name source ctx.rawArguments

/-- The error of a type that is not decoded. -/
def unsupported (ty : TypeRef) : IdlArgumentDecodeError :=
  .unsupportedType ctx.operation.operation ctx.param.name ty ctx.rawArguments

/-- The error of a length over its bound. -/
def boundExceeded (bound : UInt64) (actual : UInt32) : IdlArgumentDecodeError :=
  .sequenceBoundExceeded ctx.operation.operation ctx.param.name bound actual ctx.rawArguments

/-- `.map_err(|source| cdr_error(…))?`. -/
def read {α : Type} (m : Cdr α) : Decode α := Op.mapError ctx.cdrError m

/-- One profile of an object reference; its contents are not kept. -/
def skipProfile : Decode PUnit := do
  let _tag ← ctx.read Cdr.readU32
  let _data ← ctx.read Cdr.readOctetSequence
  pure ⟨⟩

/-- A type id and its profiles. -/
def readObjectReference : Decode DecodedArgumentValue := do
  let typeId ← ctx.read Cdr.readString
  let profileCount ← ctx.read Cdr.readU32
  let _ ← Op.times profileCount.toNat ctx.skipProfile
  pure (.objectReference typeId profileCount)

/-- The value of each basic type. -/
def decodePrimitive : PrimitiveType → Decode DecodedArgumentValue
  | .boolean => do return .boolean (← ctx.read Cdr.readBool)
  | .char => do return .char (← ctx.read Cdr.readOctet)
  | .octet => do return .octet (← ctx.read Cdr.readOctet)
  | .short => do return .short (← ctx.read Cdr.readI16)
  | .uShort => do return .uShort (← ctx.read Cdr.readU16)
  | .long => do return .long (← ctx.read Cdr.readI32)
  | .uLong => do return .uLong (← ctx.read Cdr.readU32)
  | .longLong => do return .longLong (← ctx.read Cdr.readI64)
  | .uLongLong => do return .uLongLong (← ctx.read Cdr.readU64)
  | .float => do return .float (← ctx.read Cdr.readF32)
  | .double => do return .double (← ctx.read Cdr.readF64)
  | .object => ctx.readObjectReference
  | .wChar => throw (ctx.unsupported (.primitive .wChar))
  | .longDouble => throw (ctx.unsupported (.primitive .longDouble))
  | .any => throw (ctx.unsupported (.primitive .any))

/-- A narrow string; a bound counts bytes. -/
def decodeString (bound : Option UInt64) : Decode DecodedArgumentValue := do
  let value ← ctx.read Cdr.readString
  let len := (toUtf8 value).length
  match bound with
  | some bound =>
      if len > bound.toNat then throw (ctx.boundExceeded bound (UInt32.ofNat len))
      else pure (.string value)
  | none => pure (.string value)

/-- The count of a sequence, checked against the declared bound. -/
def readCount (bound : Option UInt64) : Decode UInt32 := do
  let count ← ctx.read Cdr.readU32
  match bound with
  | some bound =>
      if count.toNat > bound.toNat then throw (ctx.boundExceeded bound count) else pure count
  | none => pure count

/-- The value of each type. -/
def decodeValue : TypeRef → Decode DecodedArgumentValue
  | .primitive primitive => ctx.decodePrimitive primitive
  | .string false bound => ctx.decodeString bound
  | .sequence element bound => do
      let count ← ctx.readCount bound
      let values ← Op.times count.toNat (decodeValue element)
      pure (.sequence values)
  | .named name =>
      if ctx.catalog.typeIsInterface (.named name) ctx.operation.scopedInterface then
        ctx.readObjectReference
      else throw (ctx.unsupported (.named name))
  | ty => throw (ctx.unsupported ty)

/-- One round of the parameter loop. -/
def decodeArgument : Decode DecodedArgument := do
  let before ← get
  let value ← ctx.decodeValue ctx.param.ty
  let after ← get
  pure {
    name := ctx.param.name
    direction := ctx.param.direction
    ty := ctx.param.ty
    span := (before.position, after.position)
    value := value }

end DecodeContext

/-- The loop over the parameters that are sent with the request. -/
def decodeArguments (operation : IdlOperationMetadata) (catalog : IdlOperationCatalog)
    (rawArguments : List UInt8) : List IdlParamMetadata → Decode (List DecodedArgument)
  | [] => pure []
  | param :: params => do
      let argument ← DecodeContext.decodeArgument ⟨operation, param, catalog, rawArguments⟩
      let arguments ← decodeArguments operation catalog rawArguments params
      pure (argument :: arguments)

/-- The arguments of the operation a request names. -/
def decodeRequestArguments (request : ParsedRequest12) (catalog : IdlOperationCatalog) :
    Except IdlArgumentDecodeError DecodedRequestArguments := do
  let rawArguments := request.tail.bytes
  let operation ←
    (catalog.lookupOperation request.head.operation).mapError (·.withRawArguments rawArguments)
  let params := operation.params.filter (·.direction ≠ .out)
  let (outcome, reader) :=
    Op.exec (decodeArguments operation catalog rawArguments params) request.tailReader
  let arguments ← outcome
  if reader.remaining ≠ 0 then
    throw (.trailingBytes request.head.operation reader.position reader.remaining rawArguments)
  else return {
    repositoryId := operation.repositoryId
    interface := operation.interface
    operation := operation.operation
    rawArguments := rawArguments
    arguments := arguments }

end GovFuzz.Iiop
