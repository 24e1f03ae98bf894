import GovFuzz.Iiop.IdlArgs

/-!
# Iiop — room that is reserved for a declared count

A list reader reads a count and calls `Vec::with_capacity` with it before
any element is decoded.  `read_service_context_list`,
`read_tagged_profile_list` and `read_tagged_component_list` check the count
against the bytes that remain; `decode_sequence` checks it against the
declared bound alone.
-/

namespace GovFuzz.Iiop

open GovFuzz.Lib

/-! ## What a step takes -/

/-- `r'` is `r` at least `n` bytes further on. -/
structure Advances (n : Nat) (r r' : CdrReader) : Prop where
  input : r'.input = r.input
  offset : r.offset + n ≤ r'.offset
  inside : r.offset ≤ r.input.length → r'.offset ≤ r'.input.length

namespace Advances

theorem refl (r : CdrReader) : Advances 0 r r := ⟨rfl, Nat.le_refl _, id⟩

theorem trans (i j : Nat) (r r' r'' : CdrReader) (h : Advances i r r') (h' : Advances j r' r'') :
    Advances (i + j) r r'' where
  input := h'.input.trans h.input
  offset := by
    have := h.offset
    have := h'.offset
    omega
  inside := fun hr => h'.inside (h.inside hr)

theorem weaken {n k : Nat} (hle : k ≤ n) (r r' : CdrReader) (h : Advances n r r') :
    Advances k r r' where
  input := h.input
  offset := by
    have := h.offset
    omega
  inside := h.inside

end Advances

theorem CdrReader.le_alignedAt (r : CdrReader) (a : Nat) : r.offset ≤ r.alignedAt a :=
  Nat.le_add_right _ _

/-- The aligned item and the `len` bytes behind it. -/
def Takes (a len : Nat) (r r' : CdrReader) : Prop :=
  r' = { r with offset := r.alignedAt a + len } ∧ r'.offset ≤ r'.input.length

theorem Takes.advances {a len : Nat} (r r' : CdrReader) (h : Takes a len r r') :
    Advances len r r' := by
  obtain ⟨rfl, hinside⟩ := h
  have := r.le_alignedAt a
  exact ⟨rfl, by dsimp only; omega, fun _ => hinside⟩

theorem takeAligned_moves {a : Nat} (ha : IsAlignment a) (len : Nat) :
    Op.Moves (Takes a len) (Cdr.takeAligned a len) := by
  intro r bytes r' h
  rw [Cdr.exec_takeAligned ha] at h
  split at h
  · rename_i hin
    cases h
    exact ⟨rfl, hin.2⟩
  · cases h

theorem readNat_moves {width : Nat} (hw : IsAlignment width) :
    Op.Moves (Takes width width) (Cdr.readNat width) := by
  intro r n r' h
  rw [Cdr.readNat, Op.exec_bind_ok (Op.exec_get r)] at h
  exact (takeAligned_moves hw width).bind_pure _ r n r' h

theorem readU32_moves : Op.Moves (Takes 4 4) Cdr.readU32 := (readNat_moves .four).bind_pure _

theorem takeUnaligned_moves (len : Nat) : Op.Moves (Advances len) (Cdr.takeUnaligned len) := by
  intro r bytes r' h
  rw [Cdr.exec_takeUnaligned] at h
  split at h
  · rename_i hin
    cases h
    exact ⟨rfl, Nat.le_refl _, fun _ => hin⟩
  · cases h

theorem readOctetSequence_moves : Op.Moves (Advances 4) Cdr.readOctetSequence :=
  readU32_moves.bind
    (fun len => (takeUnaligned_moves len.toNat).mono (Advances.weaken (Nat.zero_le _)))
    fun r r' r'' h h' => Advances.trans 4 0 r r' r'' (h.advances r r') h'

/-- A length and at least the terminator behind it. -/
def TakesString (r r' : CdrReader) : Prop :=
  r'.alignmentBase = r.alignmentBase ∧ r.alignedAt 4 + 5 ≤ r'.offset ∧ Advances 5 r r'

theorem checkString_moves (start : Nat) (bytes : List UInt8) :
    Op.Moves (fun r r' => r' = r) (Cdr.checkString start bytes) := by
  intro r value r' h
  rw [Cdr.checkString, Op.exec_bind_ok (Op.exec_get r)] at h
  dsimp only at h
  split at h
  · cases h
  · split at h
    · cases h
      rfl
    · cases h

theorem readString_moves : Op.Moves TakesString Cdr.readString := by
  intro r value r' h
  rw [Cdr.readString, Op.exec_bind_ok (Op.exec_get r)] at h
  obtain ⟨len, mid, hlen, hrest⟩ := Op.exec_bind_eq_ok h
  obtain ⟨rfl, hinside⟩ := readU32_moves r len mid hlen
  split at hrest
  · cases hrest
  · rename_i hpos
    obtain ⟨bytes, behind, htake, hcheck⟩ := Op.exec_bind_eq_ok hrest
    cases checkString_moves _ _ _ _ _ hcheck
    have hadv := (takeUnaligned_moves len.toNat) _ _ _ htake
    rw [Cdr.exec_takeUnaligned] at htake
    split at htake
    · cases htake
      have := r.le_alignedAt 4
      refine ⟨rfl, ?_, ⟨rfl, ?_, fun _ => hadv.inside hinside⟩⟩
      · dsimp only
        omega
      · dsimp only
        omega
    · cases htake

/-! ## The least encoding of an element -/

/-- A context, profile or component: a number and the length of its data. -/
theorem readTaggedProfile_moves : Op.Moves (Advances 8) readTaggedProfile :=
  (readU32_moves.mono Takes.advances).bind
    (fun _ => readOctetSequence_moves.bind_pure _) (Advances.trans 4 4)

theorem readTaggedComponent_moves : Op.Moves (Advances 8) readTaggedComponent :=
  (readU32_moves.mono Takes.advances).bind
    (fun _ => readOctetSequence_moves.bind_pure _) (Advances.trans 4 4)

theorem readServiceContext_moves : Op.Moves (Advances 8) readServiceContext :=
  (readU32_moves.mono Takes.advances).bind
    (fun _ => readOctetSequence_moves.bind_pure _) (Advances.trans 4 4)

/-- The fewest bytes a value can be decoded from.  Where no value can be, the
count is still one of elements, and an element is a byte at least. -/
def PrimitiveType.minEncoded : PrimitiveType → Nat
  | .boolean | .char | .octet => 1
  | .short | .uShort => 2
  | .long | .uLong | .float => 4
  | .longLong | .uLongLong | .double => 8
  | .object => 12
  | .wChar | .longDouble | .any => 1

def TypeRef.minEncoded : TypeRef → Nat
  | .primitive p => p.minEncoded
  | .string false _ => 5
  | .sequence _ _ => 4
  | .named _ => 12
  | _ => 1

theorem TypeRef.minEncoded_pos (ty : TypeRef) : 0 < ty.minEncoded := by
  cases ty with
  | primitive p => cases p <;> simp [minEncoded, PrimitiveType.minEncoded]
  | string wide bound => cases wide <;> simp [minEncoded]
  | _ => simp [minEncoded]

namespace DecodeContext

variable (ctx : DecodeContext)

theorem read_moves {α : Type} {R : CdrReader → CdrReader → Prop} {m : Cdr α}
    (h : Op.Moves R m) : Op.Moves R (ctx.read m) := h.mapError _

theorem skipProfile_moves : Op.Moves (Advances 8) ctx.skipProfile :=
  (ctx.read_moves (readU32_moves.mono Takes.advances)).bind
    (fun _ => (ctx.read_moves readOctetSequence_moves).bind_pure _) (Advances.trans 4 4)

/-- The count of an object reference with the profiles behind it. -/
theorem countedProfiles_moves (typeId : String) :
    Op.Moves (fun r r' => r.alignedAt 4 + 4 ≤ r'.offset ∧ Advances 4 r r') (do
      let profileCount ← ctx.read Cdr.readU32
      let _ ← Op.times profileCount.toNat ctx.skipProfile
      pure (DecodedArgumentValue.objectReference typeId profileCount)) := by
  have hprofiles (count : UInt32) :
      Op.Moves (Advances 0) (Op.times count.toNat ctx.skipProfile) :=
    (ctx.skipProfile_moves.times Advances.refl Advances.trans count.toNat).mono
      (Advances.weaken (Nat.zero_le _))
  refine (ctx.read_moves readU32_moves).bind (fun count => (hprofiles count).bind_pure _) ?_
  intro r r' r'' hcount hrest
  have hle := hrest.offset
  rw [hcount.1] at hle
  exact ⟨hle, Advances.trans 4 0 r r' r'' (hcount.advances r r') hrest⟩

/-- The string ends off the alignment of the count behind it. -/
theorem readObjectReference_moves : Op.Moves (Advances 12) ctx.readObjectReference := by
  refine (ctx.read_moves readString_moves).bind ctx.countedProfiles_moves ?_
  intro r r' r'' hstring hcounted
  obtain ⟨hbase, hlen, hadv⟩ := hstring
  obtain ⟨hnext, hadv'⟩ := hcounted
  have hall := Advances.trans 5 4 r r' r'' hadv hadv'
  refine ⟨hall.input, ?_, hall.inside⟩
  have hle := r.le_alignedAt 4
  simp only [CdrReader.alignedAt, padTo, hbase] at hlen hnext hle
  omega

/-- A primitive value takes at least its encoded size from the reader. -/
theorem decodePrimitive_moves (primitive : PrimitiveType) :
    Op.Moves (Advances primitive.minEncoded) (ctx.decodePrimitive primitive) := by
  have hread : ∀ {width : Nat} {α : Type} {m : Cdr α} (g : α → DecodedArgumentValue),
      Op.Moves (Takes width width) m →
        Op.Moves (Advances width) (ctx.read m >>= fun a => pure (g a)) := by
    intro width α m g h
    exact (ctx.read_moves (h.mono Takes.advances)).bind_pure g
  have hoctet : Op.Moves (Takes 1 1) Cdr.readOctet := (takeAligned_moves .one 1).bind_pure _
  have h16 : Op.Moves (Takes 2 2) Cdr.readU16 := (readNat_moves .two).bind_pure _
  have h64 : Op.Moves (Takes 8 8) Cdr.readU64 := (readNat_moves .eight).bind_pure _
  cases primitive with
  | boolean =>
      refine (ctx.read_moves ?_).bind_pure _
      intro r value r' h
      rw [Cdr.readBool, Op.exec_bind_ok (Op.exec_get r)] at h
      obtain ⟨octet, mid, hmid, hrest⟩ := Op.exec_bind_eq_ok h
      have hadv := (hoctet r octet mid hmid).advances r mid
      split at hrest
      · cases hrest
        exact hadv
      · split at hrest
        · cases hrest
          exact hadv
        · cases hrest
  | char => exact hread _ hoctet
  | octet => exact hread _ hoctet
  | short => exact hread _ (h16.bind_pure _)
  | uShort => exact hread _ h16
  | long => exact hread _ (readU32_moves.bind_pure _)
  | uLong => exact hread _ readU32_moves
  | longLong => exact hread _ (h64.bind_pure _)
  | uLongLong => exact hread _ h64
  | float => exact hread _ readU32_moves
  | double => exact hread _ h64
  | object => exact ctx.readObjectReference_moves
  | wChar => exact Op.Moves.throw _
  | longDouble => exact Op.Moves.throw _
  | any => exact Op.Moves.throw _

theorem decodeString_moves (bound : Option UInt64) :
    Op.Moves (Advances 5) (ctx.decodeString bound) := by
  intro r value r' h
  obtain ⟨text, mid, hmid, hrest⟩ := Op.exec_bind_eq_ok h
  have hadv := (ctx.read_moves readString_moves r text mid hmid).2.2
  cases bound with
  | none =>
      cases hrest
      exact hadv
  | some bound =>
      dsimp only at hrest
      split at hrest
      · cases hrest
      · cases hrest
        exact hadv

theorem readCount_moves (bound : Option UInt64) : Op.Moves (Takes 4 4) (ctx.readCount bound) := by
  intro r count r' h
  obtain ⟨read, mid, hmid, hrest⟩ := Op.exec_bind_eq_ok h
  have htakes := ctx.read_moves readU32_moves r read mid hmid
  cases bound with
  | none =>
      cases hrest
      exact htakes
  | some bound =>
      dsimp only at hrest
      split at hrest
      · cases hrest
      · cases hrest
        exact htakes

/-- No value is decoded from fewer bytes. -/
theorem decodeValue_moves (ty : TypeRef) :
    Op.Moves (Advances ty.minEncoded) (ctx.decodeValue ty) := by
  induction ty with
  | primitive primitive => exact ctx.decodePrimitive_moves primitive
  | sequence element bound ih =>
      have helements : ∀ count : UInt32, Op.Moves (Advances 0)
          (Op.times count.toNat (ctx.decodeValue element)) := by
        intro count
        exact (ih.times Advances.refl Advances.trans count.toNat).mono
          (Advances.weaken (Nat.zero_le _))
      exact ((ctx.readCount_moves bound).mono Takes.advances).bind
        (fun count => (helements count).bind_pure _) (Advances.trans 4 0)
  | string wide bound =>
      cases wide with
      | false => exact ctx.decodeString_moves bound
      | true => exact Op.Moves.throw _
  | named name =>
      unfold decodeValue
      split
      · exact ctx.readObjectReference_moves
      · exact Op.Moves.throw _
  | void => exact Op.Moves.throw _
  | map key value bound => exact Op.Moves.throw _
  | array element dimensions => exact Op.Moves.throw _
  | fixed digits scale => exact Op.Moves.throw _

end DecodeContext

/-! ## Reservations -/

/-- The part of a counted list reader before `Vec::with_capacity`. -/
def checkedCount (elementMinSize : Nat) : Cdr UInt32 := do
  let start ← get
  let count ← Cdr.readU32
  let after ← get
  if count.toNat > after.remaining / elementMinSize then
    throw (.sequenceLengthExceedsRemaining start.position count after.remaining elementMinSize)
  else pure count

theorem readCountedList_eq {α : Type} (elementMinSize : Nat) (item : Cdr α) :
    readCountedList elementMinSize item
      = checkedCount elementMinSize >>= fun count => Op.times count.toNat item := by
  unfold readCountedList checkedCount
  simp only [bind_assoc]
  congr 1
  funext start
  congr 1
  funext count
  congr 1
  funext after
  split
  · rfl
  · exact (pure_bind (m := Cdr) count fun count => Op.times count.toNat item).symm

theorem decodeValue_sequence_eq (ctx : DecodeContext) (element : TypeRef)
    (bound : Option UInt64) :
    ctx.decodeValue (.sequence element bound)
      = ctx.readCount bound >>= fun count =>
          (Op.times count.toNat (ctx.decodeValue element)) >>= fun values =>
            pure (.sequence values) := rfl

/-- The capacity that is reserved and the reader as it stands then, unless an
error has been returned before. -/
def reservation {ε : Type} (count : Op CdrReader ε UInt32) (r : CdrReader) :
    Option (Nat × CdrReader) :=
  match Op.exec count r with
  | (.ok count, after) => some (count.toNat, after)
  | (.error _, _) => none

inductive ListReader where
  | serviceContextList
  | taggedProfileList
  | taggedComponentList
  | sequence (ctx : DecodeContext) (element : TypeRef) (bound : Option UInt64)

namespace ListReader

def elementMinSize : ListReader → Nat
  | .sequence _ element _ => element.minEncoded
  | _ => 8

def reserved : ListReader → CdrReader → Option (Nat × CdrReader)
  | .sequence ctx _ bound => reservation (ctx.readCount bound)
  | _ => reservation (checkedCount 8)

/-- What is reserved fits the bytes that remain, and the input. -/
def CountChecked (list : ListReader) (r : CdrReader) : Prop :=
  ∀ capacity after, list.reserved r = some (capacity, after) →
    capacity * list.elementMinSize ≤ after.remaining ∧ capacity ≤ r.input.length

end ListReader

/-- The number in the next aligned four bytes, where there are so many. -/
def CdrReader.countAt (r : CdrReader) : Option Nat :=
  if r.InRange 4 ∧ r.alignedAt 4 + 4 ≤ r.input.length then
    some (Cdr.decodeNat r.endian ((r.input.bytes.drop (r.alignedAt 4)).take 4))
  else none

theorem exec_readU32 (r : CdrReader) :
    Op.exec Cdr.readU32 r = match r.countAt with
      | some count => (.ok (UInt32.ofNat count), { r with offset := r.alignedAt 4 + 4 })
      | none => (.error (r.eof 4), r) := by
  have htake := Cdr.exec_takeAligned .four 4 r
  unfold CdrReader.countAt
  by_cases h : r.InRange 4 ∧ r.alignedAt 4 + 4 ≤ r.input.length
  · rw [if_pos h] at htake ⊢
    have hread : Op.exec (Cdr.readNat 4) r
        = (.ok (Cdr.decodeNat r.endian ((r.input.bytes.drop (r.alignedAt 4)).take 4)),
            { r with offset := r.alignedAt 4 + 4 }) := by
      rw [Cdr.readNat, Op.exec_bind_ok (Op.exec_get r), Op.exec_bind_ok htake]
      rfl
    rw [Cdr.readU32, Op.exec_bind_ok hread]
    rfl
  · rw [if_neg h] at htake ⊢
    have hread : Op.exec (Cdr.readNat 4) r = (.error (r.eof 4), r) := by
      rw [Cdr.readNat, Op.exec_bind_ok (Op.exec_get r), Op.exec_bind_error htake]
    rw [Cdr.readU32, Op.exec_bind_error hread]

theorem CdrReader.countAt_lt {r : CdrReader} {count : Nat} (h : r.countAt = some count) :
    count < 2 ^ 32 := by
  unfold CdrReader.countAt at h
  split at h
  · rename_i hin
    cases h
    have hlt := Cdr.decodeNat_lt r.endian ((r.input.bytes.drop (r.alignedAt 4)).take 4)
    have hlen : ((r.input.bytes.drop (r.alignedAt 4)).take 4).length ≤ 4 := List.length_take_le ..
    calc _ < 256 ^ _ := hlt
      _ ≤ 256 ^ 4 := Nat.pow_le_pow_right (by omega) hlen
  · cases h

/-- A sequence reserves room for whatever count its bound lets through. -/
theorem sequence_reserved (ctx : DecodeContext) (element : TypeRef) (bound : Option UInt64)
    (r : CdrReader) :
    (ListReader.sequence ctx element bound).reserved r
      = (r.countAt.filter fun count => bound.all fun b => decide (count ≤ b.toNat)).map
          fun count => (count, { r with offset := r.alignedAt 4 + 4 }) := by
  have hread := exec_readU32 r
  cases hcount : r.countAt with
  | none =>
      rw [hcount] at hread
      have hexec : Op.exec (ctx.read Cdr.readU32) r = (.error (ctx.cdrError (r.eof 4)), r) := by
        rw [DecodeContext.read, Op.exec_mapError, hread]
        rfl
      simp only [ListReader.reserved, reservation, DecodeContext.readCount,
        Op.exec_bind_error hexec]
      rfl
  | some count =>
      rw [hcount] at hread
      have hexec := Op.exec_mapError_ok (g := ctx.cdrError) hread
      have hnat : (UInt32.ofNat count).toNat = count := by
        rw [UInt32.toNat_ofNat']
        exact Nat.mod_eq_of_lt (CdrReader.countAt_lt hcount)
      simp only [ListReader.reserved, reservation, DecodeContext.readCount, DecodeContext.read,
        Op.exec_bind_ok hexec]
      cases bound with
      | none => simp [hnat]
      | some b =>
          simp only [hnat]
          by_cases hb : count ≤ b.toNat
          · simp [hb, Nat.not_lt.mpr hb, hnat]
          · simp [Nat.lt_of_not_le hb]

/-- What the bytes at the reader must be like: the count of a sequence, if it
can be read and is within the bound, fits what is behind it. -/
def ListReader.CountFits : ListReader → CdrReader → Prop
  | .sequence _ element bound, r => ∀ count ∈ r.countAt, (∀ b ∈ bound, count ≤ b.toNat) →
      count * element.minEncoded ≤ r.input.length - (r.alignedAt 4 + 4)
  | _, _ => True

/-- Each reader reserves between its count and its first element. -/
theorem reserves_before_elements :
    readServiceContextList
        = checkedCount 8 >>= (fun count => Op.times count.toNat readServiceContext)
      ∧ readTaggedProfileList
        = checkedCount 8 >>= (fun count => Op.times count.toNat readTaggedProfile)
      ∧ readTaggedComponentList
        = checkedCount 8 >>= (fun count => Op.times count.toNat readTaggedComponent)
      ∧ ∀ (ctx : DecodeContext) element bound, ctx.decodeValue (.sequence element bound)
        = ctx.readCount bound >>= fun count =>
            (Op.times count.toNat (ctx.decodeValue element)) >>= fun values =>
              pure (.sequence values) :=
  ⟨readCountedList_eq 8 _, readCountedList_eq 8 _, readCountedList_eq 8 _,
    decodeValue_sequence_eq⟩

/-- No element of a list is read from fewer bytes than the list counts for it. -/
theorem elementMinSize_least :
    Op.Moves (Advances ListReader.serviceContextList.elementMinSize) readServiceContext
      ∧ Op.Moves (Advances ListReader.taggedProfileList.elementMinSize) readTaggedProfile
      ∧ Op.Moves (Advances ListReader.taggedComponentList.elementMinSize) readTaggedComponent
      ∧ ∀ ctx element bound, Op.Moves
          (Advances (ListReader.sequence ctx element bound).elementMinSize)
          (ctx.decodeValue element) :=
  ⟨readServiceContext_moves, readTaggedProfile_moves, readTaggedComponent_moves,
    fun ctx element _ => ctx.decodeValue_moves element⟩

theorem checkedCount_fits {r after : CdrReader} {capacity : Nat}
    (h : reservation (checkedCount 8) r = some (capacity, after)) :
    capacity * 8 ≤ after.remaining ∧ after.input = r.input := by
  unfold reservation at h
  split at h
  · rename_i count after' hexec
    cases h
    rw [checkedCount, Op.exec_bind_ok (Op.exec_get r)] at hexec
    obtain ⟨read, mid, hread, hrest⟩ := Op.exec_bind_eq_ok hexec
    have hinput := ((readU32_moves r read mid hread).advances r mid).input
    rw [Op.exec_bind_ok (Op.exec_get mid)] at hrest
    split at hrest
    · cases hrest
    · rename_i hle
      cases hrest
      refine ⟨?_, hinput⟩
      rw [Nat.not_lt] at hle
      exact (Nat.le_div_iff_mul_le (by omega)).mp hle
  · cases h

/-- A list reader checks its count exactly where the count fits what is left to read. -/
theorem countChecked_iff (list : ListReader) (r : CdrReader) :
    list.CountChecked r ↔ list.CountFits r := by
  -- three of the lists go through one check
  have hcounted (h : list.reserved = reservation (checkedCount 8))
      (hsize : list.elementMinSize = 8) : list.CountChecked r := by
    intro capacity after hreserved
    rw [h] at hreserved
    obtain ⟨hfits, hinput⟩ := checkedCount_fits hreserved
    have hremaining : after.remaining ≤ r.input.length := by
      rw [CdrReader.remaining, hinput]
      exact Nat.sub_le _ _
    rw [hsize]
    exact ⟨hfits, by omega⟩
  cases list with
  | serviceContextList => exact iff_of_true (hcounted rfl rfl) trivial
  | taggedProfileList => exact iff_of_true (hcounted rfl rfl) trivial
  | taggedComponentList => exact iff_of_true (hcounted rfl rfl) trivial
  | sequence ctx element bound =>
      unfold ListReader.CountChecked ListReader.CountFits
      rw [sequence_reserved]
      constructor
      · intro hchecked count hcount hbound
        apply (hchecked count { r with offset := r.alignedAt 4 + 4 } ?_).1
        rw [Option.mem_def.mp hcount, Option.filter_some, if_pos]
        · rfl
        · cases bound with
          | none => rfl
          | some b => simpa using hbound b rfl
      · intro hfits capacity after hreserved
        rw [Option.map_eq_some_iff] at hreserved
        obtain ⟨count, hcount, heq⟩ := hreserved
        cases heq
        obtain ⟨hcount, hbound⟩ := Option.filter_eq_some_iff.mp hcount
        have hfit := hfits capacity hcount fun b hb => by
          rw [Option.mem_def.mp hb] at hbound
          simpa using hbound
        have hpos := Nat.le_mul_of_pos_right capacity element.minEncoded_pos
        exact ⟨hfit, by omega⟩

/-- A sequence of five octets is announced in an input of four bytes. -/
def announcedOnly : CdrReader := .new ⟨[0, 0, 0, 5], by decide⟩ .big

def octetContext : DecodeContext where
  operation := ⟨none, "Store", ["Store"], "put", []⟩
  param := ⟨"xs", .in, .sequence (.primitive .octet) none⟩
  catalog := ⟨[], []⟩
  rawArguments := [0, 0, 0, 5]

theorem not_countChecked_sequence :
    ¬ ∀ (list : ListReader) (r : CdrReader), list.CountChecked r := by
  intro h
  have hreserved : (ListReader.sequence octetContext (.primitive .octet) none).reserved
      announcedOnly = some (5, { announcedOnly with offset := 4 }) := by
    rw [sequence_reserved]
    decide
  have hle := (h _ announcedOnly _ _ hreserved).2
  exact absurd hle (by decide)

/-- The room is reserved for nothing: a sequence that does not fit is an
error once its bytes run out. -/
theorem decodeValue_oversized {ctx : DecodeContext} {element : TypeRef} {bound : Option UInt64}
    {r after : CdrReader} {capacity : Nat}
    (hreserved : (ListReader.sequence ctx element bound).reserved r = some (capacity, after))
    (hover : after.remaining < capacity * element.minEncoded) :
    ∃ e r', Op.exec (ctx.decodeValue (.sequence element bound)) r = (.error e, r') := by
  obtain ⟨outcome, r', hexec⟩ : ∃ outcome r',
      Op.exec (ctx.decodeValue (.sequence element bound)) r = (outcome, r') := ⟨_, _, rfl⟩
  cases outcome with
  | error e => exact ⟨e, r', hexec⟩
  | ok value =>
      rw [decodeValue_sequence_eq] at hexec
      obtain ⟨count, mid, hcount, hrest⟩ := Op.exec_bind_eq_ok hexec
      have hmid : capacity = count.toNat ∧ after = mid := by
        simp only [ListReader.reserved, reservation, hcount, Option.some.injEq,
          Prod.mk.injEq] at hreserved
        exact ⟨hreserved.1.symm, hreserved.2.symm⟩
      obtain ⟨rfl, rfl⟩ := hmid
      have hinside := (ctx.readCount_moves bound _ _ _ hcount).2
      have htaken := ((ctx.decodeValue_moves element).times Advances.refl Advances.trans
        count.toNat).bind_pure (fun values => DecodedArgumentValue.sequence values) _ _ _ hrest
      have hoffset := htaken.offset
      have hend := htaken.inside hinside
      rw [htaken.input] at hend
      rw [CdrReader.remaining] at hover
      omega

end GovFuzz.Iiop
