import GovFuzz.Iiop.Cdr
import GovFuzz.Lib.Except

/-!
# Iiop — GIOP frames and their typed views

`parse_header`, `parse_message` and the `read_*` functions of
`crates/iiop/src/giop.rs`.  Every typed view is read the same way: check the
message type and version, read the head fields with a CDR reader over the
frame body, and hand out the rest of the body together with its distance
from the message origin.  `readView` is that scheme; the functions of the
source are its instances.
-/

namespace GovFuzz.Iiop

open GovFuzz.Lib

/-! ## Frames -/

/-- Bytes of a message header. -/
def headerLen : Nat := 12

/-- A GIOP version. -/
structure Version where
  major : UInt8
  minor : UInt8
  deriving DecidableEq, Repr

/-- The kinds of message, unknown numbers included. -/
inductive MessageType where
  | request
  | reply
  | cancelRequest
  | locateRequest
  | locateReply
  | closeConnection
  | messageError
  | fragment
  | unknown (value : UInt8)
  deriving DecidableEq, Repr

/-- The kind of a header's type byte. -/
def MessageType.ofByte (value : UInt8) : MessageType :=
  if value = 0 then .request
  else if value = 1 then .reply
  else if value = 2 then .cancelRequest
  else if value = 3 then .locateRequest
  else if value = 4 then .locateReply
  else if value = 5 then .closeConnection
  else if value = 6 then .messageError
  else if value = 7 then .fragment
  else .unknown value

/-- The header behind the magic. -/
structure MessageHeader where
  version : Version
  endian : Endianness
  fragmented : Bool
  messageType : MessageType
  bodyLen : UInt32
  deriving DecidableEq, Repr

/-- Why a message is refused. -/
inductive GiopError where
  | truncatedHeader (len : Nat)
  | truncatedBody (declared : UInt32) (available : Nat)
  | unsupportedVersion (version : Version)
  | invalidFlags (version : Version) (flags : UInt8)
  | unexpectedMessageType (expected actual : MessageType)
  | unsupportedMessageType (messageType : MessageType)
  | invalidRequestReserved (offset : Nat) (reserved : List UInt8)
  | unsupportedTargetAddress (disposition : Int16)
  | badMagic (magic : List UInt8)
  | cdr (error : CdrError)
  deriving DecidableEq

/-- `b"GIOP"`. -/
def magic : List UInt8 := [0x47, 0x49, 0x4f, 0x50]

/-- Byte order and fragment flag, where the version gives the flags byte a
meaning. -/
def parseFlags (version : Version) (flags : UInt8) : Except GiopError (Endianness × Bool) :=
  if version = ⟨1, 0⟩ then
    if flags = 0 then .ok (.big, false)
    else if flags = 1 then .ok (.little, false)
    else .error (.invalidFlags version flags)
  else if version = ⟨1, 1⟩ ∨ version = ⟨1, 2⟩ then
    if flags &&& ~~~0x03 ≠ 0 then .error (.invalidFlags version flags)
    else .ok (if flags &&& 0x01 = 0 then .big else .little, flags &&& 0x02 ≠ 0)
  else .error (.unsupportedVersion version)

/-- Magic, version, flags, type and body length of a message. -/
def parseHeader (input : Slice) : Except GiopError MessageHeader :=
  let version : Version := ⟨input.bytes.getD 4 0, input.bytes.getD 5 0⟩
  if input.length < headerLen then .error (.truncatedHeader input.length)
  else if input.bytes.take 4 ≠ magic then .error (.badMagic (input.bytes.take 4))
  else do
    let (endian, fragmented) ← parseFlags version (input.bytes.getD 6 0)
    return {
      version := version
      endian := endian
      fragmented := fragmented
      messageType := .ofByte (input.bytes.getD 7 0)
      bodyLen := UInt32.ofNat (Cdr.decodeNat endian ((input.bytes.drop 8).take 4)) }

/-- A message and what follows it in the input. -/
structure ParsedMessage where
  header : MessageHeader
  body : Slice
  remaining : Slice
  deriving DecidableEq

/-- The first message of an input. -/
def parseMessage (input : Slice) : Except GiopError ParsedMessage := do
  let header ← parseHeader input
  let bodyLen := header.bodyLen.toNat
  let available := input.length - headerLen
  let bodyEnd := headerLen + bodyLen
  if available < bodyLen then throw (.truncatedBody header.bodyLen available)
  else return {
    header := header
    body := input.range headerLen bodyEnd
    remaining := input.dropFront bodyEnd }

/-- A reader of the body, aligned as if the header stood before it. -/
def ParsedMessage.bodyReader (frame : ParsedMessage) : CdrReader :=
  .withAlignmentBase frame.body frame.header.endian headerLen

/-! ## Reading the heads -/

/-- Reads over a frame body; `?` turns a `CdrError` into a `GiopError`. -/
abbrev Giop := Op CdrReader GiopError

instance : MonadLift Cdr Giop where
  monadLift m := Op.mapError GiopError.cdr m

/-- A service context: its id and its data. -/
structure ServiceContext where
  contextId : UInt32
  data : List UInt8
  deriving DecidableEq

/-- A profile of an object reference. -/
structure TaggedProfile where
  tag : UInt32
  profileData : List UInt8
  deriving DecidableEq

/-- A component of a profile. -/
structure TaggedComponent where
  tag : UInt32
  componentData : List UInt8
  deriving DecidableEq

/-- An interoperable object reference. -/
structure Ior where
  typeId : String
  profiles : List TaggedProfile
  deriving DecidableEq

/-- A reference and the profile of it that was selected. -/
structure IorAddressingInfo where
  selectedProfileIndex : UInt32
  ior : Ior
  deriving DecidableEq

/-- The object a 1.2 request is for. -/
inductive TargetAddress where
  | keyAddr (key : List UInt8)
  | profileAddr (profile : TaggedProfile)
  | referenceAddr (info : IorAddressingInfo)
  deriving DecidableEq

/-- A counted list: the count is checked against what remains before any
element is read. -/
def readCountedList {α : Type} (elementMinSize : Nat) (item : Cdr α) : Cdr (List α) := do
  let start ← get
  let count ← Cdr.readU32
  let after ← get
  if count.toNat > after.remaining / elementMinSize then
    throw (.sequenceLengthExceedsRemaining start.position count after.remaining elementMinSize)
  else Op.times count.toNat item

/-- An id and an octet sequence. -/
def readServiceContext : Cdr ServiceContext := do
  return { contextId := ← Cdr.readU32, data := ← Cdr.readOctetSequence }

/-- A counted list of contexts, at least eight bytes each. -/
def readServiceContextList : Cdr (List ServiceContext) := readCountedList 8 readServiceContext

/-- A tag and an octet sequence. -/
def readTaggedProfile : Cdr TaggedProfile := do
  return { tag := ← Cdr.readU32, profileData := ← Cdr.readOctetSequence }

/-- A counted list of profiles. -/
def readTaggedProfileList : Cdr (List TaggedProfile) := readCountedList 8 readTaggedProfile

/-- A tag and an octet sequence. -/
def readTaggedComponent : Cdr TaggedComponent := do
  return { tag := ← Cdr.readU32, componentData := ← Cdr.readOctetSequence }

/-- A counted list of components. -/
def readTaggedComponentList : Cdr (List TaggedComponent) := readCountedList 8 readTaggedComponent

/-- A type id and its profiles. -/
def readIor : Cdr Ior := do
  return { typeId := ← Cdr.readString, profiles := ← readTaggedProfileList }

/-- The address form that the disposition selects. -/
def readTargetAddress : Giop TargetAddress := do
  let disposition ← Cdr.readI16
  if disposition = 0 then return .keyAddr (← Cdr.readOctetSequence)
  else if disposition = 1 then return .profileAddr (← readTaggedProfile)
  else if disposition = 2 then
    return .referenceAddr { selectedProfileIndex := ← Cdr.readU32, ior := ← readIor }
  else throw (.unsupportedTargetAddress disposition)

/-- The three reserved octets behind the response flags. -/
def readReserved : Giop (List UInt8) := do
  let start ← get
  let reserved ← Op.times 3 Cdr.readOctet
  if reserved ≠ [0, 0, 0] then throw (.invalidRequestReserved start.position reserved)
  else return reserved

/-- `if reader.remaining() > 0 { reader.align_to(8)? }`. -/
def alignTail : Cdr PUnit := do
  let r ← get
  if r.remaining > 0 then Cdr.alignTo 8 else pure ⟨⟩

/-- How a request ended. -/
inductive ReplyStatus where
  | noException
  | userException
  | systemException
  | locationForward
  | locationForwardPerm
  | needsAddressingMode
  | unknown (status : UInt32)
  deriving DecidableEq

/-- The status of a reply's word. -/
def ReplyStatus.ofU32 (value : UInt32) : ReplyStatus :=
  if value = 0 then .noException
  else if value = 1 then .userException
  else if value = 2 then .systemException
  else if value = 3 then .locationForward
  else if value = 4 then .locationForwardPerm
  else if value = 5 then .needsAddressingMode
  else .unknown value

/-- How a locate request ended. -/
inductive LocateStatus where
  | unknownObject
  | objectHere
  | objectForward
  | objectForwardPerm
  | systemException
  | needsAddressingMode
  | unknown (status : UInt32)
  deriving DecidableEq

/-- The status of a locate reply's word. -/
def LocateStatus.ofU32 (value : UInt32) : LocateStatus :=
  if value = 0 then .unknownObject
  else if value = 1 then .objectHere
  else if value = 2 then .objectForward
  else if value = 3 then .objectForwardPerm
  else if value = 4 then .systemException
  else if value = 5 then .needsAddressingMode
  else .unknown value

/-- The head of a 1.0 request. -/
structure Request10Head where
  serviceContexts : List ServiceContext
  requestId : UInt32
  responseExpected : Bool
  objectKey : List UInt8
  operation : String
  requestingPrincipal : List UInt8
  deriving DecidableEq

/-- The head of a 1.1 request, with its reserved bytes. -/
structure Request11Head where
  serviceContexts : List ServiceContext
  requestId : UInt32
  responseExpected : Bool
  reserved : List UInt8
  objectKey : List UInt8
  operation : String
  requestingPrincipal : List UInt8
  deriving DecidableEq

/-- The head of a 1.2 request: the contexts stand behind the operation. -/
structure Request12Head where
  serviceContexts : List ServiceContext
  requestId : UInt32
  responseFlags : UInt8
  target : TargetAddress
  operation : String
  deriving DecidableEq

/-- The head of a reply of any version. -/
structure ReplyHead where
  serviceContexts : List ServiceContext
  requestId : UInt32
  status : ReplyStatus
  deriving DecidableEq

/-- The head of a locate reply. -/
structure LocateReplyHead where
  requestId : UInt32
  status : LocateStatus
  deriving DecidableEq

/-- The head of a 1.2 fragment: the request it continues. -/
structure FragmentHead where
  requestId : UInt32
  deriving DecidableEq

/-- The head as `read_request_10` reads it. -/
def request10Head : Giop Request10Head := do
  let serviceContexts ← readServiceContextList
  let requestId ← Cdr.readU32
  let responseExpected ← Cdr.readBool
  let objectKey ← Cdr.readOctetSequence
  let operation ← Cdr.readString
  let requestingPrincipal ← Cdr.readOctetSequence
  alignTail
  return {
    serviceContexts := serviceContexts
    requestId, responseExpected, objectKey, operation, requestingPrincipal }

/-- The head as `read_request_11` reads it. -/
def request11Head : Giop Request11Head := do
  let serviceContexts ← readServiceContextList
  let requestId ← Cdr.readU32
  let responseExpected ← Cdr.readBool
  let reserved ← readReserved
  let objectKey ← Cdr.readOctetSequence
  let operation ← Cdr.readString
  let requestingPrincipal ← Cdr.readOctetSequence
  alignTail
  return {
    serviceContexts := serviceContexts
    requestId, responseExpected, reserved, objectKey, operation, requestingPrincipal }

/-- The head as `read_request_12` reads it, the arguments aligned to eight. -/
def request12Head : Giop Request12Head := do
  let requestId ← Cdr.readU32
  let responseFlags ← Cdr.readOctet
  let _reserved ← readReserved
  let target ← readTargetAddress
  let operation ← Cdr.readString
  let serviceContexts ← readServiceContextList
  alignTail
  return { serviceContexts := serviceContexts, requestId, responseFlags, target, operation }

/-- The head of replies 1.0 and 1.1: the contexts come first. -/
def reply10Head : Giop ReplyHead := do
  let serviceContexts ← readServiceContextList
  let requestId ← Cdr.readU32
  let status ← Cdr.readU32
  alignTail
  return { serviceContexts, requestId, status := .ofU32 status }

/-- The head of a 1.2 reply: the contexts come last. -/
def reply12Head : Giop ReplyHead := do
  let requestId ← Cdr.readU32
  let status ← Cdr.readU32
  let serviceContexts ← readServiceContextList
  alignTail
  return { serviceContexts, requestId, status := .ofU32 status }

/-- The head of a 1.2 locate reply. -/
def locateReply12Head : Giop LocateReplyHead := do
  let requestId ← Cdr.readU32
  let status ← Cdr.readU32
  return { requestId, status := .ofU32 status }

/-- The head of a 1.2 fragment. -/
def fragment12Head : Giop FragmentHead := do
  return { requestId := ← Cdr.readU32 }

/-! ## Views -/

/-- `r` stands somewhere in the body it was made for. -/
structure Within (start r : CdrReader) : Prop where
  input : r.input = start.input
  alignmentBase : r.alignmentBase = start.alignmentBase
  endian : r.endian = start.endian
  offset_le : r.offset ≤ start.input.length

theorem Within.of_offset {start r : CdrReader} {offset : Nat} (h : Within start r)
    (hle : offset ≤ r.input.length) : Within start { r with offset := offset } where
  input := h.input
  alignmentBase := h.alignmentBase
  endian := h.endian
  offset_le := by rwa [h.input] at hle

/-- A read moves the cursor inside the body and changes nothing else. -/
abbrev Stays {ε α : Type} (m : Op CdrReader ε α) : Prop := ∀ start, Op.Keeps (Within start) m

section Stays
variable {ε α β : Type}

theorem Stays.pure (a : α) : Stays (Pure.pure a : Op CdrReader ε α) := fun _ => .pure a

theorem Stays.throw (e : ε) : Stays (MonadExcept.throw e : Op CdrReader ε α) := fun _ => .throw e

theorem Stays.bind {m : Op CdrReader ε α} {f : α → Op CdrReader ε β} (h : Stays m)
    (h' : ∀ a, Stays (f a)) : Stays (m >>= f) := fun start => (h start).bind fun a => h' a start

theorem Stays.get : Stays (MonadState.get : Op CdrReader ε CdrReader) := fun _ _ h => h

theorem Stays.lift {m : Cdr α} (h : Stays m) : Stays (liftM m : Giop α) := h

theorem Stays.times {m : Op CdrReader ε α} (h : Stays m) (n : Nat) : Stays (Op.times n m) :=
  fun start => (h start).times n

theorem Stays.ite {c : Prop} [Decidable c] {m m' : Op CdrReader ε α} (h : Stays m)
    (h' : Stays m') : Stays (if c then m else m') := by
  split
  · exact h
  · exact h'

end Stays

theorem takeAligned_stays {a : Nat} (ha : IsAlignment a) (len : Nat) :
    Stays (Cdr.takeAligned a len) := by
  intro start r hr
  rw [Cdr.exec_takeAligned ha]
  split
  · rename_i h
    exact hr.of_offset h.2
  · exact hr

theorem takeUnaligned_stays (len : Nat) : Stays (Cdr.takeUnaligned len) := by
  intro start r hr
  rw [Cdr.exec_takeUnaligned]
  split
  · rename_i h
    exact hr.of_offset h
  · exact hr

theorem alignTo_stays {a : Nat} (ha : IsAlignment a) : Stays (Cdr.alignTo a) := by
  intro start r hr
  rw [Cdr.exec_alignTo ha]
  split
  · split
    · rename_i h
      exact hr.of_offset h
    · exact hr
  · exact hr

theorem readOctet_stays : Stays Cdr.readOctet :=
  (takeAligned_stays .one 1).bind fun _ => .pure _

theorem readBool_stays : Stays Cdr.readBool :=
  Stays.get.bind fun _ => readOctet_stays.bind fun _ => .ite (.pure _) (.ite (.pure _) (.throw _))

theorem readNat_stays {width : Nat} (h : IsAlignment width) : Stays (Cdr.readNat width) :=
  Stays.get.bind fun _ => (takeAligned_stays h width).bind fun _ => .pure _

theorem readI16_stays : Stays Cdr.readI16 :=
  ((readNat_stays .two).bind fun _ => .pure _).bind fun _ => .pure _

theorem readU32_stays : Stays Cdr.readU32 := (readNat_stays .four).bind fun _ => .pure _

theorem readOctetSequence_stays : Stays Cdr.readOctetSequence :=
  readU32_stays.bind fun _ => takeUnaligned_stays _

theorem checkString_stays (start : Nat) (bytes : List UInt8) :
    Stays (Cdr.checkString start bytes) := by
  refine Stays.get.bind fun after => .ite (.throw _) ?_
  split
  · exact .pure _
  · exact .throw _

theorem readString_stays : Stays Cdr.readString :=
  Stays.get.bind fun _ => readU32_stays.bind fun _ =>
    .ite (.throw _) ((takeUnaligned_stays _).bind fun _ => checkString_stays _ _)

theorem readCountedList_stays {α : Type} {item : Cdr α} (h : Stays item) (size : Nat) :
    Stays (readCountedList size item) :=
  Stays.get.bind fun _ => readU32_stays.bind fun _ => Stays.get.bind fun _ =>
    .ite (.throw _) (h.times _)

theorem readServiceContextList_stays : Stays readServiceContextList :=
  readCountedList_stays
    (readU32_stays.bind fun _ => readOctetSequence_stays.bind fun _ => .pure _) 8

theorem readTaggedProfile_stays : Stays readTaggedProfile :=
  readU32_stays.bind fun _ => readOctetSequence_stays.bind fun _ => .pure _

theorem readIor_stays : Stays readIor :=
  readString_stays.bind fun _ =>
    (readCountedList_stays readTaggedProfile_stays 8).bind fun _ => .pure _

theorem readTargetAddress_stays : Stays readTargetAddress := by
  refine readI16_stays.lift.bind fun disposition => .ite ?_ (.ite ?_ (.ite ?_ (.throw _)))
  · exact readOctetSequence_stays.lift.bind fun _ => .pure _
  · exact readTaggedProfile_stays.lift.bind fun _ => .pure _
  · exact readU32_stays.lift.bind fun _ => readIor_stays.lift.bind fun _ => .pure _

theorem readReserved_stays : Stays readReserved :=
  Stays.get.bind fun _ => (readOctet_stays.lift.times 3).bind fun _ => .ite (.throw _) (.pure _)

theorem alignTail_stays : Stays alignTail :=
  Stays.get.bind fun _ => .ite (alignTo_stays .eight) (.pure _)

theorem request10Head_stays : Stays request10Head := by
  refine readServiceContextList_stays.lift.bind fun _ => readU32_stays.lift.bind fun _ => ?_
  refine readBool_stays.lift.bind fun _ => readOctetSequence_stays.lift.bind fun _ => ?_
  refine readString_stays.lift.bind fun _ => readOctetSequence_stays.lift.bind fun _ => ?_
  exact alignTail_stays.lift.bind fun _ => .pure _

theorem request11Head_stays : Stays request11Head := by
  refine readServiceContextList_stays.lift.bind fun _ => readU32_stays.lift.bind fun _ => ?_
  refine readBool_stays.lift.bind fun _ => readReserved_stays.bind fun _ => ?_
  refine readOctetSequence_stays.lift.bind fun _ => readString_stays.lift.bind fun _ => ?_
  refine readOctetSequence_stays.lift.bind fun _ => ?_
  exact alignTail_stays.lift.bind fun _ => .pure _

theorem request12Head_stays : Stays request12Head := by
  refine readU32_stays.lift.bind fun _ => readOctet_stays.lift.bind fun _ => ?_
  refine readReserved_stays.bind fun _ => readTargetAddress_stays.bind fun _ => ?_
  refine readString_stays.lift.bind fun _ => readServiceContextList_stays.lift.bind fun _ => ?_
  exact alignTail_stays.lift.bind fun _ => .pure _

theorem reply10Head_stays : Stays reply10Head := by
  refine readServiceContextList_stays.lift.bind fun _ => readU32_stays.lift.bind fun _ => ?_
  exact readU32_stays.lift.bind fun _ => alignTail_stays.lift.bind fun _ => .pure _

theorem reply12Head_stays : Stays reply12Head := by
  refine readU32_stays.lift.bind fun _ => readU32_stays.lift.bind fun _ => ?_
  exact readServiceContextList_stays.lift.bind fun _ => alignTail_stays.lift.bind fun _ => .pure _

theorem locateReply12Head_stays : Stays locateReply12Head :=
  readU32_stays.lift.bind fun _ => readU32_stays.lift.bind fun _ => .pure _

theorem fragment12Head_stays : Stays fragment12Head :=
  readU32_stays.lift.bind fun _ => .pure _

/-- A typed view: head fields and the rest of the body (`arguments`, `body`
or `data` in the source) with its distance from the message origin. -/
structure View (α : Type) where
  head : α
  tail : Slice
  tailAlignmentBase : Nat
  endian : Endianness
  fits : tailAlignmentBase + tail.length ≤ headerLen + isizeMax

/-- `arguments_reader`, `body_reader`, `data_reader`. -/
def View.tailReader {α : Type} (view : View α) : CdrReader :=
  .withAlignmentBase view.tail view.endian view.tailAlignmentBase

theorem ParsedMessage.within_bodyReader (frame : ParsedMessage) :
    Within frame.bodyReader frame.bodyReader := ⟨rfl, rfl, rfl, Nat.zero_le _⟩

theorem Stays.tail_fits {α : Type} {head : Giop α} (h : Stays head) (frame : ParsedMessage)
    {out : Except GiopError α} {r : CdrReader} (hr : Op.exec head frame.bodyReader = (out, r)) :
    headerLen + r.position + (frame.body.dropFront r.position).length ≤ headerLen + isizeMax := by
  have hwithin := h _ _ frame.within_bodyReader
  rw [hr] at hwithin
  have hle : r.position ≤ frame.body.length := hwithin.offset_le
  have hfits : frame.body.length ≤ isizeMax := frame.body.fits
  rw [Slice.dropFront_length]
  omega

/-- The head is read from a reader over the frame body; the tail starts
where that reader stands. -/
def readTail {α : Type} (head : Giop α) (h : Stays head) (frame : ParsedMessage) :
    Except GiopError (View α) :=
  match hr : Op.exec head frame.bodyReader with
  | (.error e, _) => .error e
  | (.ok a, r) => .ok {
      head := a
      tail := frame.body.dropFront r.position
      tailAlignmentBase := headerLen + r.position
      endian := frame.header.endian
      fits := h.tail_fits frame hr }

/-- The two checks in front of every typed view. -/
def expectFrame (messageType : MessageType) (version : Version) (frame : ParsedMessage) :
    Except GiopError PUnit := do
  if frame.header.messageType ≠ messageType then
    throw (.unexpectedMessageType messageType frame.header.messageType)
  if frame.header.version ≠ version then
    throw (.unsupportedVersion frame.header.version)

/-- The head and the bytes behind it, once kind and version are the expected ones. -/
def readView {α : Type} (messageType : MessageType) (version : Version) (head : Giop α)
    (h : Stays head) (frame : ParsedMessage) : Except GiopError (View α) := do
  expectFrame messageType version frame
  readTail head h frame

/-- A 1.2 request and its arguments' bytes. -/
abbrev ParsedRequest12 := View Request12Head

/-- `read_request_10`. -/
def readRequest10 : ParsedMessage → Except GiopError (View Request10Head) :=
  readView .request ⟨1, 0⟩ request10Head request10Head_stays

/-- `read_request_11`. -/
def readRequest11 : ParsedMessage → Except GiopError (View Request11Head) :=
  readView .request ⟨1, 1⟩ request11Head request11Head_stays

/-- `read_request_12`. -/
def readRequest12 : ParsedMessage → Except GiopError ParsedRequest12 :=
  readView .request ⟨1, 2⟩ request12Head request12Head_stays

/-- `read_reply_10`. -/
def readReply10 : ParsedMessage → Except GiopError (View ReplyHead) :=
  readView .reply ⟨1, 0⟩ reply10Head reply10Head_stays

/-- `read_reply_11`, of the form of 1.0. -/
def readReply11 : ParsedMessage → Except GiopError (View ReplyHead) :=
  readView .reply ⟨1, 1⟩ reply10Head reply10Head_stays

/-- `read_reply_12`. -/
def readReply12 : ParsedMessage → Except GiopError (View ReplyHead) :=
  readView .reply ⟨1, 2⟩ reply12Head reply12Head_stays

/-- `read_locate_reply_12`. -/
def readLocateReply12 : ParsedMessage → Except GiopError (View LocateReplyHead) :=
  readView .locateReply ⟨1, 2⟩ locateReply12Head locateReply12Head_stays

/-- `read_fragment_12`. -/
def readFragment12 : ParsedMessage → Except GiopError (View FragmentHead) :=
  readView .fragment ⟨1, 2⟩ fragment12Head fragment12Head_stays

/-- What a successful view was read from. -/
theorem readView_eq_ok {α : Type} {messageType : MessageType} {version : Version} {head : Giop α}
    {h : Stays head} {frame : ParsedMessage} {view : View α}
    (hview : readView messageType version head h frame = .ok view) :
    ∃ r, Op.exec head frame.bodyReader = (.ok view.head, r) ∧
      view.tail = frame.body.dropFront r.position ∧
      view.tailAlignmentBase = headerLen + r.position ∧ view.endian = frame.header.endian := by
  obtain ⟨_, -, htail⟩ := bind_eq_ok.mp hview
  unfold readTail at htail
  split at htail
  · cases htail
  · rename_i a r hr
    cases htail
    exact ⟨r, hr, rfl, rfl, rfl⟩

end GovFuzz.Iiop
