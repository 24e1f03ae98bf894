import GovFuzz.Iiop.Marshal

/-!
# Iiop — argument values survive the wire

Values of the supported IDL types, how they are marshalled, and that
`decode_request_arguments` gives them back.  An object reference is sent
with all its profiles; the decoder keeps the type id and the number of
profiles.
-/

namespace GovFuzz.Iiop

open GovFuzz.Lib

/-! ## Values -/

inductive IdlValue where
  | boolean (value : Bool)
  | char (value : UInt8)
  | octet (value : UInt8)
  | short (value : Int16)
  | uShort (value : UInt16)
  | long (value : Int32)
  | uLong (value : UInt32)
  | longLong (value : Int64)
  | uLongLong (value : UInt64)
  | float (bits : UInt32)
  | double (bits : UInt64)
  | string (value : String)
  | objectReference (typeId : String) (profiles : List TaggedProfile)
  | sequence (values : List IdlValue)

mutual
/-- What of a value the decoder keeps. -/
def IdlValue.decoded : IdlValue → DecodedArgumentValue
  | .boolean value => .boolean value
  | .char value => .char value
  | .octet value => .octet value
  | .short value => .short value
  | .uShort value => .uShort value
  | .long value => .long value
  | .uLong value => .uLong value
  | .longLong value => .longLong value
  | .uLongLong value => .uLongLong value
  | .float bits => .float bits
  | .double bits => .double bits
  | .string value => .string value
  | .objectReference typeId profiles =>
      .objectReference typeId (UInt32.ofNat profiles.length)
  | .sequence values => .sequence (IdlValue.decodedAll values)

def IdlValue.decodedAll : List IdlValue → List DecodedArgumentValue
  | [] => []
  | v :: values => v.decoded :: IdlValue.decodedAll values
end

mutual
/-- The CDR rules: natural alignment, `u32` counts, NUL-terminated strings. -/
@[grind =] def IdlValue.marshal (fill : Nat → UInt8) : IdlValue → Enc
  | .boolean value => .raw [if value then 1 else 0]
  | .char value => .raw [value]
  | .octet value => .raw [value]
  | .short value => .nat fill 2 value.toUInt16.toNat
  | .uShort value => .nat fill 2 value.toNat
  | .long value => .nat fill 4 value.toUInt32.toNat
  | .uLong value => .nat fill 4 value.toNat
  | .longLong value => .nat fill 8 value.toUInt64.toNat
  | .uLongLong value => .nat fill 8 value.toNat
  | .float bits => .nat fill 4 bits.toNat
  | .double bits => .nat fill 8 bits.toNat
  | .string value => .string fill value
  | .objectReference typeId profiles =>
      (Enc.string fill typeId).seq
        ((Enc.nat fill 4 profiles.length).seq (.all (profiles.map (Enc.profile fill))))
  | .sequence values =>
      (Enc.nat fill 4 values.length).seq (IdlValue.marshalAll fill values)

/-- Values one after the other, each at the position where the one before
ended. -/
@[grind =] def IdlValue.marshalAll (fill : Nat → UInt8) : List IdlValue → Enc
  | [] => .nil
  | v :: values => (v.marshal fill).seq (IdlValue.marshalAll fill values)
end

theorem IdlValue.decodedAll_eq_map (values : List IdlValue) :
    IdlValue.decodedAll values = values.map IdlValue.decoded := by
  induction values with
  | nil => rfl
  | cons v values ih => rw [IdlValue.decodedAll, ih, List.map_cons]

theorem IdlValue.marshalAll_eq_all (fill : Nat → UInt8) (values : List IdlValue) :
    IdlValue.marshalAll fill values = .all (values.map (IdlValue.marshal fill)) := by
  induction values with
  | nil => rfl
  | cons v values ih => rw [IdlValue.marshalAll, ih, List.map_cons, Enc.all_cons]

/-- A declared bound, if there is one, is kept. -/
@[grind =] def WithinBound (bound : Option UInt64) (n : Nat) : Prop := ∀ b ∈ bound, n ≤ b.toNat

instance (bound : Option UInt64) (n : Nat) : Decidable (WithinBound bound n) :=
  inferInstanceAs (Decidable (∀ b ∈ bound, n ≤ b.toNat))

/-- A reference CDR can carry: all counts fit a `u32`. -/
structure ReferenceFits (typeId : String) (profiles : List TaggedProfile) : Prop where
  typeId_lt : (toUtf8 typeId).length + 1 < 2 ^ 32
  profiles_lt : profiles.length < 2 ^ 32
  data_lt : ∀ p ∈ profiles, p.profileData.length < 2 ^ 32

/-- `v` is a value of type `ty` within its declared bounds.  `isInterface`
says which names the catalog knows as interfaces. -/
inductive HasType (isInterface : ScopedName → Bool) : TypeRef → IdlValue → Prop where
  | boolean (value) : HasType isInterface (.primitive .boolean) (.boolean value)
  | char (value) : HasType isInterface (.primitive .char) (.char value)
  | octet (value) : HasType isInterface (.primitive .octet) (.octet value)
  | short (value) : HasType isInterface (.primitive .short) (.short value)
  | uShort (value) : HasType isInterface (.primitive .uShort) (.uShort value)
  | long (value) : HasType isInterface (.primitive .long) (.long value)
  | uLong (value) : HasType isInterface (.primitive .uLong) (.uLong value)
  | longLong (value) : HasType isInterface (.primitive .longLong) (.longLong value)
  | uLongLong (value) : HasType isInterface (.primitive .uLongLong) (.uLongLong value)
  | float (bits) : HasType isInterface (.primitive .float) (.float bits)
  | double (bits) : HasType isInterface (.primitive .double) (.double bits)
  | string {bound value} : (toUtf8 value).length + 1 < 2 ^ 32 →
      WithinBound bound (toUtf8 value).length →
      HasType isInterface (.string false bound) (.string value)
  | object {typeId profiles} : ReferenceFits typeId profiles →
      HasType isInterface (.primitive .object) (.objectReference typeId profiles)
  | named {name typeId profiles} : isInterface name = true → ReferenceFits typeId profiles →
      HasType isInterface (.named name) (.objectReference typeId profiles)
  | sequence {element bound values} : values.length < 2 ^ 32 → WithinBound bound values.length →
      (∀ v ∈ values, HasType isInterface element v) →
      HasType isInterface (.sequence element bound) (.sequence values)

/-! ## One value -/

namespace DecodeContext

variable (ctx : DecodeContext) {fill : Nat → UInt8}

def isInterface (name : ScopedName) : Bool :=
  ctx.catalog.typeIsInterface (.named name) ctx.operation.scopedInterface

theorem read_reads {α : Type} {m : Cdr α} {enc : Enc} {a : α} (h : Reads m enc a) :
    Reads (ctx.read m) enc a :=
  h.mapError ctx.cdrError

theorem toNat_ofNat_of_lt {n : Nat} (h : n < 2 ^ 32) : (UInt32.ofNat n).toNat = n := by
  rw [UInt32.toNat_ofNat']
  omega

theorem skipProfile_reads {p : TaggedProfile} (h : p.profileData.length < 2 ^ 32) :
    Reads ctx.skipProfile (.profile fill p) ⟨⟩ :=
  (ctx.read_reads (readU32_reads p.tag)).bind
    ((ctx.read_reads (readOctetSequence_reads h)).bind_pure fun _ => PUnit.unit)

theorem readObjectReference_reads {typeId : String} {profiles : List TaggedProfile}
    (h : ReferenceFits typeId profiles) :
    Reads ctx.readObjectReference ((IdlValue.objectReference typeId profiles).marshal fill)
      (.objectReference typeId (UInt32.ofNat profiles.length)) := by
  have hprofiles : Reads (Op.times profiles.length ctx.skipProfile)
      (.all (profiles.map (Enc.profile fill))) (profiles.map fun _ => ⟨⟩) :=
    Reads.times profiles fun p hp => ctx.skipProfile_reads (h.data_lt p hp)
  rw [IdlValue.marshal]
  refine (ctx.read_reads (readString_reads h.typeId_lt)).bind
    ((ctx.read_reads (readCount_reads h.profiles_lt)).bind ?_)
  rw [toNat_ofNat_of_lt h.profiles_lt]
  exact hprofiles.bind_pure fun _ =>
    DecodedArgumentValue.objectReference typeId (UInt32.ofNat profiles.length)

theorem decodeString_reads {value : String} {bound : Option UInt64}
    (h : (toUtf8 value).length + 1 < 2 ^ 32) (hbound : WithinBound bound (toUtf8 value).length) :
    Reads (ctx.decodeString bound) (.string fill value) (.string value) := by
  intro r rest hroom hat
  rw [decodeString, Op.exec_bind_ok (ctx.read_reads (readString_reads h) r rest hroom hat)]
  cases bound with
  | none => rfl
  | some b =>
      have hle : (toUtf8 value).length ≤ b.toNat := hbound b rfl
      simp only [if_neg (Nat.not_lt.mpr hle)]
      rfl

theorem readCount_within {n : Nat} {bound : Option UInt64} (h : n < 2 ^ 32)
    (hbound : WithinBound bound n) :
    Reads (ctx.readCount bound) (.nat fill 4 n) (UInt32.ofNat n) := by
  intro r rest hroom hat
  rw [readCount, Op.exec_bind_ok (ctx.read_reads (readCount_reads h) r rest hroom hat)]
  cases bound with
  | none => rfl
  | some b =>
      have hle : (UInt32.ofNat n).toNat ≤ b.toNat := by
        rw [toNat_ofNat_of_lt h]
        exact hbound b rfl
      simp only [if_neg (Nat.not_lt.mpr hle)]
      rfl

/-- Induction over the typing: a sequence reads its elements one by one,
each at the position where the one before ended. -/
theorem decodeValue_reads {ty : TypeRef} {v : IdlValue} (h : HasType ctx.isInterface ty v) :
    Reads (ctx.decodeValue ty) (v.marshal fill) v.decoded := by
  induction h with
  | boolean value => exact (ctx.read_reads (readBool_reads value)).bind_pure _
  | char value => exact (ctx.read_reads (readOctet_reads value)).bind_pure _
  | octet value => exact (ctx.read_reads (readOctet_reads value)).bind_pure _
  | short value => exact (ctx.read_reads (readI16_reads value)).bind_pure _
  | uShort value => exact (ctx.read_reads (readU16_reads value)).bind_pure _
  | long value => exact (ctx.read_reads (readI32_reads value)).bind_pure _
  | uLong value => exact (ctx.read_reads (readU32_reads value)).bind_pure _
  | longLong value => exact (ctx.read_reads (readI64_reads value)).bind_pure _
  | uLongLong value => exact (ctx.read_reads (readU64_reads value)).bind_pure _
  | float bits => exact (ctx.read_reads (readU32_reads bits)).bind_pure _
  | double bits => exact (ctx.read_reads (readU64_reads bits)).bind_pure _
  | string hlen hbound => exact ctx.decodeString_reads hlen hbound
  | object hfits => exact ctx.readObjectReference_reads hfits
  | named hname hfits =>
      rw [decodeValue, if_pos (show ctx.catalog.typeIsInterface _ _ = true from hname)]
      exact ctx.readObjectReference_reads hfits
  | @sequence element bound values hlen hbound _ ih =>
      have hvalues : Reads (Op.times values.length (ctx.decodeValue element))
          (.all (values.map (IdlValue.marshal fill))) (values.map IdlValue.decoded) :=
        Reads.times values ih
      rw [decodeValue, IdlValue.marshal, IdlValue.decoded, IdlValue.marshalAll_eq_all,
        IdlValue.decodedAll_eq_map]
      refine (ctx.readCount_within hlen hbound).bind ?_
      rw [toNat_ofNat_of_lt hlen]
      exact hvalues.bind_pure _

end DecodeContext

/-! ## The argument list -/

/-- Spans that follow on one another from `start` to `stop`. -/
def Contiguous : Nat → List (Nat × Nat) → Nat → Prop
  | start, [], stop => start = stop
  | start, span :: spans, stop => span.1 = start ∧ Contiguous span.2 spans stop

section
variable {operation : IdlOperationMetadata} {catalog : IdlOperationCatalog} {fill : Nat → UInt8}

/-- The values fit the parameters, one for each. -/
def HasTypes (operation : IdlOperationMetadata) (catalog : IdlOperationCatalog)
    (params : List IdlParamMetadata) (values : List IdlValue) : Prop :=
  List.Forall₂ (fun param v => HasType
    (fun name => catalog.typeIsInterface (.named name) operation.scopedInterface) param.ty v)
    params values

/-- The argument that comes of a value read at `r`. -/
def argumentAt (fill : Nat → UInt8) (param : IdlParamMetadata) (v : IdlValue) (r : CdrReader) :
    DecodedArgument where
  name := param.name
  direction := param.direction
  ty := param.ty
  span := (r.offset, (r.behind (v.marshal fill)).offset)
  value := v.decoded

theorem exec_decodeArgument (ctx : DecodeContext) {v : IdlValue} {r : CdrReader}
    {rest : List UInt8} (h : HasType ctx.isInterface ctx.param.ty v) (hroom : r.Roomy)
    (hat : r.At (v.marshal fill) rest) :
    Op.exec ctx.decodeArgument r
      = (.ok (argumentAt fill ctx.param v r), r.behind (v.marshal fill)) := by
  rw [DecodeContext.decodeArgument, Op.exec_bind_ok (Op.exec_get r),
    Op.exec_bind_ok (ctx.decodeValue_reads h r rest hroom hat), Op.exec_bind_ok (Op.exec_get _)]
  rfl

/-- The loop, by induction over the parameters with the cursor running on. -/
theorem exec_decodeArguments (rawArguments : List UInt8) {params : List IdlParamMetadata}
    {values : List IdlValue}
    (h : HasTypes operation catalog params values) {r : CdrReader} {rest : List UInt8}
    (hroom : r.Roomy) (hat : r.At (IdlValue.marshalAll fill values) rest) :
    ∃ arguments, Op.exec (decodeArguments operation catalog rawArguments params) r
        = (.ok arguments, r.behind (IdlValue.marshalAll fill values)) ∧
      arguments.map (·.value) = values.map IdlValue.decoded ∧
      arguments.map (fun a => (a.name, a.direction, a.ty))
        = params.map (fun p => (p.name, p.direction, p.ty)) ∧
      Contiguous r.offset (arguments.map (·.span))
        (r.behind (IdlValue.marshalAll fill values)).offset := by
  induction h generalizing r with
  | nil => exact ⟨[], rfl, rfl, rfl, rfl⟩
  | @cons param v params values hv _ ih =>
      have hhead : r.At (v.marshal fill) _ := hat.seq_left
      have hfirst :=
        exec_decodeArgument ⟨operation, param, catalog, rawArguments⟩ hv hroom hhead
      obtain ⟨arguments, hexec, hvalues, hparams, hspans⟩ :=
        ih (hroom.behind hhead) hat.seq_right
      refine ⟨argumentAt fill param v r :: arguments, ?_, ?_, ?_, ?_⟩
      · rw [decodeArguments, Op.exec_bind_ok hfirst, Op.exec_bind_ok hexec, IdlValue.marshalAll,
          ← CdrReader.behind_seq]
        rfl
      · rw [List.map_cons, List.map_cons, hvalues]
        rfl
      · rw [List.map_cons, List.map_cons, hparams]
        rfl
      · rw [List.map_cons, IdlValue.marshalAll, ← CdrReader.behind_seq]
        exact ⟨rfl, hspans⟩

end

/-- Marshalled arguments are decoded to the values they stand for: for every
signature over the supported types, both byte orders, every distance of the
arguments from the message origin and any padding octets. -/
theorem decodeRequestArguments_round_trip (fill : Nat → UInt8) (catalog : IdlOperationCatalog)
    (request : ParsedRequest12) (operation : IdlOperationMetadata) (values : List IdlValue)
    (hop : catalog.lookupOperation request.head.operation = .ok operation)
    (htyped : HasTypes operation catalog (operation.params.filter (·.direction ≠ .out)) values)
    (hbytes : request.tail.bytes
      = IdlValue.marshalAll fill values request.endian request.tailAlignmentBase) :
    ∃ decoded, decodeRequestArguments request catalog = .ok decoded ∧
      decoded.arguments.map (·.value) = values.map IdlValue.decoded ∧
      decoded.arguments.map (fun a => (a.name, a.direction, a.ty))
        = (operation.params.filter (·.direction ≠ .out)).map
            (fun p => (p.name, p.direction, p.ty)) ∧
      Contiguous 0 (decoded.arguments.map (·.span)) request.tail.length := by
  have hroom : request.tailReader.Roomy := by
    refine ⟨Nat.zero_le _, ?_⟩
    have hfits := request.fits
    show request.tailAlignmentBase + request.tail.length + 8 ≤ usizeSize
    simp only [headerLen, isizeMax, usizeSize] at hfits ⊢
    omega
  have hat : request.tailReader.At (IdlValue.marshalAll fill values) [] := by
    show request.tail.bytes.drop 0 = _ ++ []
    rw [List.drop_zero, List.append_nil]
    exact hbytes
  obtain ⟨arguments, hexec, hvalues, hparams, hspans⟩ :=
    exec_decodeArguments request.tail.bytes htyped hroom hat
  have hend : (request.tailReader.behind (IdlValue.marshalAll fill values)).offset
      = request.tail.length := by
    show 0 + (IdlValue.marshalAll fill values request.endian request.tailAlignmentBase).length = _
    rw [Nat.zero_add, ← hbytes, Slice.length]
  have hremaining :
      (request.tailReader.behind (IdlValue.marshalAll fill values)).remaining = 0 := by
    rw [CdrReader.remaining, hend]
    exact Nat.sub_self _
  rw [hend] at hspans
  refine ⟨⟨operation.repositoryId, operation.interface, operation.operation, request.tail.bytes,
    arguments⟩, ?_, hvalues, hparams, hspans⟩
  simp only [decodeRequestArguments, hop, Except.mapError, bind, Except.bind, hexec, hremaining,
    ne_eq, not_true, if_false]
  rfl

/-- `void put(in sequence<unsigned short, 3> xs, out long n, inout string s)`. -/
def sampleOperation : IdlOperationMetadata where
  repositoryId := none
  interface := "Store"
  scopedInterface := ["Store"]
  operation := "put"
  params := [⟨"xs", .in, .sequence (.primitive .uShort) (some 3)⟩,
    ⟨"n", .out, .primitive .long⟩, ⟨"s", .inOut, .string false none⟩]

/-- The request with the sequence `5, 6` and the string `ok`, its arguments
seventeen bytes from the message origin. -/
def sampleRequest : ParsedRequest12 where
  head := ⟨[], 1, 3, .keyAddr [], "put"⟩
  tail := ⟨[0, 0, 0, 0, 0, 0, 2, 0, 5, 0, 6, 0, 0, 0, 3, 111, 107, 0], by decide⟩
  tailAlignmentBase := 17
  endian := .big
  fits := by decide

theorem decodeRequestArguments_sample :
    ∃ decoded, decodeRequestArguments sampleRequest ⟨[sampleOperation], [["Store"]]⟩ = .ok decoded ∧
      decoded.arguments.map (·.value)
        = [.sequence [.uShort 5, .uShort 6], .string "ok"] ∧
      decoded.arguments.map (fun a => (a.name, a.direction, a.ty))
        = [("xs", .in, .sequence (.primitive .uShort) (some 3)),
          ("s", .inOut, .string false none)] ∧
      Contiguous 0 (decoded.arguments.map (·.span)) 18 := by
  have hok : toUtf8 "ok" = [111, 107] := by decide
  have hbound : WithinBound (some 3) [IdlValue.uShort 5, IdlValue.uShort 6].length := by
    simp [WithinBound]
  have hfree : WithinBound none (toUtf8 "ok").length := by
    simp [WithinBound]
  refine decodeRequestArguments_round_trip (fun _ => 0) ⟨[sampleOperation], [["Store"]]⟩
    sampleRequest sampleOperation [.sequence [.uShort 5, .uShort 6], .string "ok"] rfl
    (.cons (.sequence (by decide) hbound ?_) (.cons (.string ?_ hfree) .nil)) ?_
  · intro v hv
    simp only [List.mem_cons, List.not_mem_nil, or_false] at hv
    obtain rfl | rfl := hv
    · exact .uShort 5
    · exact .uShort 6
  · rw [hok]
    decide
  · decide

end GovFuzz.Iiop
