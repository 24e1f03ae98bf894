import GovFuzz.Iiop.Reassembly

/-!
# Iiop — the fragmentation round trip

The sending side of GIOP 1.2 fragmentation, as the specification has it: a
message is cut into a first chunk, which holds its request id, and further
chunks, each in a `Fragment` frame of its own that repeats the id.  Only the
last frame of a message has the flag "more fragments follow" clear, so a
message in one piece is a plain frame.  Complete messages may stand between
the fragments of an open one.
-/

namespace GovFuzz.Iiop

open GovFuzz.Lib

/-! ## The sending side -/

/-- The message types that carry a request id in front. -/
inductive Kind where
  | request
  | reply
  | locateRequest
  | locateReply
  | cancelRequest
  deriving DecidableEq

def Kind.messageType : Kind → MessageType
  | .request => .request
  | .reply => .reply
  | .locateRequest => .locateRequest
  | .locateReply => .locateReply
  | .cancelRequest => .cancelRequest

def MessageType.toByte : MessageType → UInt8
  | .request => 0
  | .reply => 1
  | .cancelRequest => 2
  | .locateRequest => 3
  | .locateReply => 4
  | .closeConnection => 5
  | .messageError => 6
  | .fragment => 7
  | .unknown value => value

def flagsByte : Endianness → Bool → UInt8
  | .big, false => 0
  | .little, false => 1
  | .big, true => 2
  | .little, true => 3

/-- A GIOP 1.2 frame on the wire. -/
def encodeFrame (messageType : MessageType) (endian : Endianness) (fragmented : Bool)
    (body : List UInt8) : List UInt8 :=
  magic ++ ([1, 2, flagsByte endian fragmented, messageType.toByte] ++
    (Cdr.encodeNat endian 4 body.length ++ body))

def headerOf (messageType : MessageType) (endian : Endianness) (fragmented : Bool)
    (bodyLen : Nat) : MessageHeader :=
  ⟨⟨1, 2⟩, endian, fragmented, messageType, UInt32.ofNat bodyLen⟩

/-- A complete message sent in one frame. -/
structure PlainMessage where
  kind : Kind
  endian : Endianness
  body : List UInt8
  fits : body.length < 2 ^ 32

def PlainMessage.frame (m : PlainMessage) : List UInt8 :=
  encodeFrame m.kind.messageType m.endian false m.body

/-- A further chunk in a fragment frame with its own byte order, after the
complete messages that were sent in between. -/
structure Piece where
  before : List PlainMessage
  endian : Endianness
  chunk : List UInt8

/-- A message with the way it is cut. -/
structure SentMessage where
  kind : Kind
  endian : Endianness
  first : List UInt8
  rest : List Piece
  first_long : rest = [] ∨ 4 ≤ first.length
  fits : (first ++ rest.flatMap (·.chunk)).length < 2 ^ 32

def SentMessage.body (m : SentMessage) : List UInt8 := m.first ++ m.rest.flatMap (·.chunk)

/-- The request id: the first four bytes in the message's byte order. -/
def SentMessage.requestId (m : SentMessage) : Nat := Cdr.decodeNat m.endian (m.first.take 4)

def pieceFrames (requestId : Nat) : List Piece → List UInt8
  | [] => []
  | piece :: pieces =>
      piece.before.flatMap PlainMessage.frame ++
        (encodeFrame .fragment piece.endian (!pieces.isEmpty)
            (Cdr.encodeNat piece.endian 4 requestId ++ piece.chunk) ++
          pieceFrames requestId pieces)

def SentMessage.frames (m : SentMessage) : List UInt8 :=
  encodeFrame m.kind.messageType m.endian (!m.rest.isEmpty) m.first ++
    pieceFrames m.requestId m.rest

/-- Header and body a receiver should see of a whole message. -/
def whole (kind : Kind) (endian : Endianness) (body : List UInt8) :
    MessageHeader × List UInt8 :=
  (headerOf kind.messageType endian false body.length, body)

def PlainMessage.whole (m : PlainMessage) : MessageHeader × List UInt8 :=
  Iiop.whole m.kind m.endian m.body

/-- In completion order: the messages between its fragments come first. -/
def SentMessage.delivered (m : SentMessage) : List (MessageHeader × List UInt8) :=
  m.rest.flatMap (·.before.map PlainMessage.whole) ++ [Iiop.whole m.kind m.endian m.body]

/-! ## Parsing one sent frame -/

theorem parseFlags_flagsByte (endian : Endianness) (fragmented : Bool) :
    parseFlags ⟨1, 2⟩ (flagsByte endian fragmented) = .ok (endian, fragmented) := by
  cases endian <;> cases fragmented <;> rfl

theorem encodeFrame_length (messageType : MessageType) (endian : Endianness) (fragmented : Bool)
    (body : List UInt8) :
    (encodeFrame messageType endian fragmented body).length = headerLen + body.length := by
  simp only [encodeFrame, List.length_append, Cdr.encodeNat_length]
  rw [show magic.length = 4 from rfl, headerLen]
  simp only [List.length_cons, List.length_nil]
  omega

/-- A frame that was sent is parsed to its header and its body, and the rest of the input is
left. -/
theorem parseMessage_encodeFrame {messageType : MessageType} {endian : Endianness}
    {fragmented : Bool} {body rest : List UInt8} {input : Slice}
    (htype : MessageType.ofByte messageType.toByte = messageType) (hbody : body.length < 2 ^ 32)
    (h : input.bytes = encodeFrame messageType endian fragmented body ++ rest) :
    ∃ frame, parseMessage input = .ok frame ∧
      frame.header = headerOf messageType endian fragmented body.length ∧
      frame.body.bytes = body ∧ frame.remaining.bytes = rest := by
  have hlength : input.length = headerLen + body.length + rest.length := by
    rw [Slice.length, h, List.length_append, encodeFrame_length]
  have hlen : (UInt32.ofNat body.length).toNat = body.length := by
    rw [UInt32.toNat_ofNat']
    omega
  have hdrop : input.bytes.drop 8 = Cdr.encodeNat endian 4 body.length ++ (body ++ rest) := by
    simp [h, encodeFrame, magic]
  have hheader : parseHeader input = .ok (headerOf messageType endian fragmented body.length) := by
    have htake : input.bytes.take 4 = magic := by simp [h, encodeFrame, magic]
    have hshort : ¬ input.length < headerLen := by omega
    have h4 : input.bytes.getD 4 0 = 1 := by simp [h, encodeFrame, magic]
    have h5 : input.bytes.getD 5 0 = 2 := by simp [h, encodeFrame, magic]
    have h6 : input.bytes.getD 6 0 = flagsByte endian fragmented := by
      simp [h, encodeFrame, magic]
    have h7 : input.bytes.getD 7 0 = messageType.toByte := by simp [h, encodeFrame, magic]
    rw [parseHeader, if_neg hshort, if_neg (not_not.mpr htake), h4, h5, h6, h7,
      parseFlags_flagsByte, hdrop, List.take_left' (Cdr.encodeNat_length _ _ _), htype]
    simp only [bind, Except.bind,
      Cdr.decodeNat_encodeNat endian (show body.length < 256 ^ 4 by omega)]
    rfl
  have hbytes : input.bytes.drop headerLen = body ++ rest := by
    have : input.bytes.drop headerLen = (input.bytes.drop 8).drop 4 := by
      rw [List.drop_drop, headerLen]
    rw [this, hdrop, List.drop_left' (Cdr.encodeNat_length _ _ _)]
  refine ⟨⟨_, input.range headerLen (headerLen + body.length),
    input.dropFront (headerLen + body.length)⟩, ?_, rfl, ?_, ?_⟩
  · rw [parseMessage, hheader]
    simp only [bind, Except.bind, headerOf, hlen]
    rw [if_neg (by omega)]
    rfl
  · rw [Slice.range_bytes, List.drop_take, hbytes, Nat.add_sub_cancel_left, List.take_left' rfl]
  · rw [Slice.dropFront_bytes, ← List.drop_drop, hbytes, List.drop_left' rfl]

/-! ## The loop over sent frames -/

/-- What a client looks at. -/
def Reassembly.views (st : Reassembly) : List (MessageHeader × List UInt8) :=
  st.output.map fun m => (m.header, m.body)

/-- The loop takes the frame in front and goes on behind it. -/
theorem reassembleLoop_frame {messageType : MessageType} {endian : Endianness}
    {fragmented : Bool} {body rest : List UInt8} {input : Slice}
    (htype : MessageType.ofByte messageType.toByte = messageType) (hbody : body.length < 2 ^ 32)
    (h : input.bytes = encodeFrame messageType endian fragmented body ++ rest) (offset : Nat)
    (st : Reassembly) :
    ∃ frame : ParsedMessage,
      frame.header = headerOf messageType endian fragmented body.length ∧
      frame.body.bytes = body ∧ frame.remaining.bytes = rest ∧
      ∀ st', acceptFrame offset frame st = .ok st' →
        reassembleLoop input offset st
          = reassembleLoop frame.remaining (offset + frameLen frame) st' := by
  obtain ⟨frame, hparse, hheader, hbytes, hrest⟩ := parseMessage_encodeFrame htype hbody h
  refine ⟨frame, hheader, hbytes, hrest, ?_⟩
  intro st' haccept
  have hne : input.bytes ≠ [] := by simp [h, encodeFrame, magic]
  rw [reassembleLoop, if_neg hne]
  split
  · simp_all
  · rename_i frame' hparse'
    rw [hparse] at hparse'
    cases hparse'
    simp only [haccept]

theorem Kind.ofByte_toByte (kind : Kind) :
    MessageType.ofByte kind.messageType.toByte = kind.messageType := by
  cases kind <;> rfl

theorem Kind.ne_fragment (kind : Kind) : kind.messageType ≠ .fragment := by
  cases kind <;> intro h <;> cases h

theorem reassembleLoop_plain (kind : Kind) {endian : Endianness} {body rest : List UInt8}
    {input : Slice} (hbody : body.length < 2 ^ 32)
    (h : input.bytes = encodeFrame kind.messageType endian false body ++ rest) (offset : Nat)
    (st : Reassembly) :
    ∃ input' offset' st', input'.bytes = rest ∧ st'.open = st.open ∧
      st'.views = st.views ++ [whole kind endian body] ∧
      reassembleLoop input offset st = reassembleLoop input' offset' st' := by
  obtain ⟨frame, hheader, hbytes, hrest, hloop⟩ :=
    reassembleLoop_frame kind.ofByte_toByte hbody h offset st
  have haccept : acceptFrame offset frame st = .ok { st with
      output := st.output ++ [⟨frame.header, frame.body.bytes,
        [⟨offset, frameLen frame, kind.messageType, false⟩]⟩] } := by
    simp only [acceptFrame, hheader, headerOf, ne_eq, not_true, if_false,
      if_neg kind.ne_fragment, Bool.false_eq_true]
  refine ⟨frame.remaining, _, _, hrest, ?_, ?_, hloop _ haccept⟩
  · rfl
  · simp [Reassembly.views, whole, hheader, hbytes]

/-- A run over complete messages leaves the open one alone. -/
theorem reassembleLoop_plains (messages : List PlainMessage) {rest : List UInt8} {input : Slice}
    (h : input.bytes = messages.flatMap PlainMessage.frame ++ rest) (offset : Nat)
    (st : Reassembly) :
    ∃ input' offset' st', input'.bytes = rest ∧ st'.open = st.open ∧
      st'.views = st.views ++ messages.map PlainMessage.whole ∧
      reassembleLoop input offset st = reassembleLoop input' offset' st' := by
  induction messages generalizing input offset st with
  | nil => exact ⟨input, offset, st, by simpa using h, rfl, by simp, rfl⟩
  | cons m messages ih =>
      have hsplit : input.bytes
          = encodeFrame m.kind.messageType m.endian false m.body ++
            (messages.flatMap PlainMessage.frame ++ rest) := by
        rw [h, List.flatMap_cons, List.append_assoc, PlainMessage.frame]
      obtain ⟨input₁, offset₁, st₁, hrest₁, hopen₁, hviews₁, hloop₁⟩ :=
        reassembleLoop_plain m.kind m.fits hsplit offset st
      obtain ⟨input₂, offset₂, st₂, hrest₂, hopen₂, hviews₂, hloop₂⟩ := ih hrest₁ offset₁ st₁
      refine ⟨input₂, offset₂, st₂, hrest₂, hopen₂.trans hopen₁, ?_, hloop₁.trans hloop₂⟩
      rw [hviews₂, hviews₁, List.map_cons, List.append_assoc, List.singleton_append]
      rfl

/-! ## Request ids -/

/-- A frame body starts at a multiple of four, so the id is its first word. -/
theorem exec_readU32_bodyReader {frame : ParsedMessage} (h : 4 ≤ frame.body.length) :
    Op.exec Cdr.readU32 frame.bodyReader
      = (.ok (UInt32.ofNat (Cdr.decodeNat frame.header.endian (frame.body.bytes.take 4))),
        { frame.bodyReader with offset := 4 }) := by
  have haligned : frame.bodyReader.alignedAt 4 = 0 := by
    simp [CdrReader.alignedAt, ParsedMessage.bodyReader, CdrReader.withAlignmentBase, headerLen,
      padTo]
  have htake := Cdr.exec_takeAligned .four 4 frame.bodyReader
  have hrange : frame.bodyReader.InRange 4 := by
    show headerLen + 0 + 3 < usizeSize
    decide
  rw [if_pos ⟨hrange, by rw [haligned]; exact h⟩, haligned, List.drop_zero] at htake
  have hnat : Op.exec (Cdr.readNat 4) frame.bodyReader
      = (.ok (Cdr.decodeNat frame.header.endian (frame.body.bytes.take 4)),
        { frame.bodyReader with offset := 4 }) := by
    rw [Cdr.readNat, Op.exec_bind_ok (Op.exec_get _), Op.exec_bind_ok htake]
    rfl
  rw [Cdr.readU32, Op.exec_bind_ok hnat]
  rfl

/-- A fragment of GIOP 1.2 is read to its request id and its chunk. -/
theorem readFragment12_sent {frame : ParsedMessage} {endian : Endianness} {fragmented : Bool}
    {id : Nat} {chunk : List UInt8} {bodyLen : Nat} (hid : id < 256 ^ 4)
    (hheader : frame.header = headerOf .fragment endian fragmented bodyLen)
    (hbody : frame.body.bytes = Cdr.encodeNat endian 4 id ++ chunk) :
    ∃ view, readFragment12 frame = .ok view ∧ view.head.requestId = UInt32.ofNat id ∧
      view.tail.bytes = chunk := by
  have hlong : 4 ≤ frame.body.length := by
    rw [Slice.length, hbody, List.length_append, Cdr.encodeNat_length]
    omega
  have hread := exec_readU32_bodyReader hlong
  have hendian : frame.header.endian = endian := by rw [hheader]; rfl
  rw [hendian, hbody, List.take_left' (Cdr.encodeNat_length _ _ _),
    Cdr.decodeNat_encodeNat _ hid] at hread
  have hhead : Op.exec fragment12Head frame.bodyReader
      = (.ok ⟨UInt32.ofNat id⟩, { frame.bodyReader with offset := 4 }) := by
    have hlift : Op.exec (liftM Cdr.readU32 : Giop UInt32) frame.bodyReader = _ :=
      Op.exec_mapError_ok hread
    rw [fragment12Head, Op.exec_bind_ok hlift]
    rfl
  have hexpect : expectFrame .fragment ⟨1, 2⟩ frame = .ok ⟨⟩ := by
    rw [expectFrame, hheader]
    rfl
  refine ⟨⟨⟨UInt32.ofNat id⟩, frame.body.dropFront 4, headerLen + 4, frame.header.endian,
    fragment12Head_stays.tail_fits frame hhead⟩, ?_, rfl, ?_⟩
  · rw [readFragment12, readView, hexpect]
    show readTail fragment12Head fragment12Head_stays frame = _
    unfold readTail
    split
    · rename_i hr
      rw [hhead] at hr
      cases hr
    · rename_i hr
      rw [hhead] at hr
      cases hr
      rfl
  · rw [Slice.dropFront_bytes, hbody, List.drop_left' (Cdr.encodeNat_length _ _ _)]

/-! ## Whole messages -/

/-- The slot holds the beginning of a message. -/
structure Holds (st : Reassembly) (id : Nat) (kind : Kind) (endian : Endianness)
    (body : List UInt8) : Prop where
  some_open : ∃ m, st.open = some m ∧ m.requestId = UInt32.ofNat id ∧ m.body = body ∧
    ∃ n, m.header = headerOf kind.messageType endian true n

/-- The initial frame of a message that is in more than one piece. -/
theorem reassembleLoop_initial (kind : Kind) {endian : Endianness} {body rest : List UInt8}
    {input : Slice} (hbody : body.length < 2 ^ 32) (hlong : 4 ≤ body.length)
    (h : input.bytes = encodeFrame kind.messageType endian true body ++ rest) (offset : Nat)
    {st : Reassembly} (hopen : st.open = none) :
    ∃ input' offset' st', input'.bytes = rest ∧ st'.views = st.views ∧
      Holds st' (Cdr.decodeNat endian (body.take 4)) kind endian body ∧
      reassembleLoop input offset st = reassembleLoop input' offset' st' := by
  obtain ⟨frame, hheader, hbytes, hrest, hloop⟩ :=
    reassembleLoop_frame kind.ofByte_toByte hbody h offset st
  have hid : requestIdForFragmentedInitial frame
      = .ok (UInt32.ofNat (Cdr.decodeNat endian (body.take 4))) := by
    have hread := exec_readU32_bodyReader (show 4 ≤ frame.body.length by
      rw [Slice.length, hbytes]
      exact hlong)
    rw [hbytes] at hread
    rw [requestIdForFragmentedInitial, hread, hheader]
    cases kind <;> rfl
  have haccept : acceptFrame offset frame st = .ok { st with «open» := some {
      requestId := UInt32.ofNat (Cdr.decodeNat endian (body.take 4))
      header := frame.header
      body := frame.body.bytes
      frameRanges := [⟨offset, frameLen frame, kind.messageType, true⟩] } } := by
    simp only [acceptFrame, acceptInitial, hid, hheader, headerOf, ne_eq, not_true, if_false,
      if_neg kind.ne_fragment, if_true, hopen, Except.mapError, bind, Except.bind,
      Option.isSome_none, Bool.false_eq_true]
    rfl
  refine ⟨frame.remaining, _, _, hrest, ?_, ?_, hloop _ haccept⟩
  · rfl
  · exact ⟨_, rfl, rfl, hbytes, _, hheader⟩

/-- A fragment of the open message. -/
theorem reassembleLoop_fragment {kind : Kind} {endian endian' : Endianness} {more : Bool}
    {id : Nat} {body chunk rest : List UInt8} {input : Slice} (hid : id < 256 ^ 4)
    (hchunk : 4 + chunk.length < 2 ^ 32)
    (h : input.bytes
      = encodeFrame .fragment endian' more (Cdr.encodeNat endian' 4 id ++ chunk) ++ rest)
    (offset : Nat) {st : Reassembly} (hholds : Holds st id kind endian body) :
    ∃ input' offset' st', input'.bytes = rest ∧
      reassembleLoop input offset st = reassembleLoop input' offset' st' ∧
      if more then st'.views = st.views ∧ Holds st' id kind endian (body ++ chunk)
      else st'.open = none ∧ st'.views = st.views ++ [whole kind endian (body ++ chunk)] := by
  obtain ⟨m, hopen, hmid, hmbody, n, hmheader⟩ := hholds.some_open
  have hlen : (Cdr.encodeNat endian' 4 id ++ chunk).length < 2 ^ 32 := by
    rwa [List.length_append, Cdr.encodeNat_length]
  obtain ⟨frame, hheader, hbytes, hrest, hloop⟩ := reassembleLoop_frame rfl hlen h offset st
  obtain ⟨view, hview, hvid, hvtail⟩ := readFragment12_sent hid hheader hbytes
  have haccept : acceptFrame offset frame st
      = acceptFragment offset ⟨offset, frameLen frame, .fragment, more⟩ frame st := by
    simp only [acceptFrame, hheader, headerOf, ne_eq, not_true, if_false, if_true]
  simp only [acceptFragment, hview, Except.mapError, bind, Except.bind, hopen, hvid, hmid, ne_eq,
    not_true, if_false] at haccept
  have hmore : frame.header.fragmented = more := by rw [hheader]; rfl
  refine ⟨frame.remaining, offset + frameLen frame, ?_⟩
  cases more with
  | true =>
      rw [hmore, if_pos rfl] at haccept
      refine ⟨_, hrest, hloop _ haccept, ?_⟩
      rw [if_pos rfl]
      exact ⟨rfl, _, rfl, rfl, by rw [hmbody, hvtail], n, hmheader⟩
  | false =>
      rw [hmore, if_neg Bool.false_ne_true] at haccept
      refine ⟨_, hrest, hloop _ haccept, ?_⟩
      rw [if_neg Bool.false_ne_true]
      refine ⟨rfl, ?_⟩
      simp only [Reassembly.views, List.map_append, List.map_cons, List.map_nil,
        OpenMessage.complete, hmheader, hmbody, hvtail]
      rfl

/-- All further chunks of the open message, with what stands in between. -/
theorem reassembleLoop_pieces {kind : Kind} {endian : Endianness} {id : Nat}
    (hid : id < 256 ^ 4) (pieces : List Piece) (hne : pieces ≠ []) {body rest : List UInt8}
    (hlong : 4 ≤ body.length) (hfits : (body ++ pieces.flatMap (·.chunk)).length < 2 ^ 32)
    {input : Slice} (h : input.bytes = pieceFrames id pieces ++ rest) (offset : Nat)
    {st : Reassembly} (hholds : Holds st id kind endian body) :
    ∃ input' offset' st', input'.bytes = rest ∧ st'.open = none ∧
      st'.views = st.views ++ (pieces.flatMap (·.before.map PlainMessage.whole) ++
        [whole kind endian (body ++ pieces.flatMap (·.chunk))]) ∧
      reassembleLoop input offset st = reassembleLoop input' offset' st' := by
  induction pieces generalizing body input offset st with
  | nil => exact absurd rfl hne
  | cons piece pieces ih =>
      simp only [List.flatMap_cons, List.length_append] at hfits
      -- the messages in front of the fragment
      obtain ⟨input₁, offset₁, st₁, hrest₁, hopen₁, hviews₁, hloop₁⟩ :=
        reassembleLoop_plains piece.before (by rw [h, pieceFrames, List.append_assoc]) offset st
      have hholds₁ : Holds st₁ id kind endian body := by
        obtain ⟨m, hm⟩ := hholds.some_open
        exact ⟨m, by rw [hopen₁]; exact hm⟩
      -- the fragment itself
      rw [List.append_assoc] at hrest₁
      obtain ⟨input₂, offset₂, st₂, hrest₂, hloop₂, hst₂⟩ :=
        reassembleLoop_fragment hid (by omega) hrest₁ offset₁ hholds₁
      cases pieces with
      | nil =>
          simp only [List.isEmpty_nil, Bool.not_true, Bool.false_eq_true, if_false] at hst₂
          refine ⟨input₂, offset₂, st₂, ?_, hst₂.1, ?_, hloop₁.trans hloop₂⟩
          · simpa [pieceFrames] using hrest₂
          · rw [hst₂.2, hviews₁]
            simp
      | cons next pieces =>
          simp only [List.isEmpty_cons, Bool.not_false, if_true] at hst₂
          obtain ⟨input₃, offset₃, st₃, hrest₃, hopen₃, hviews₃, hloop₃⟩ :=
            ih (by simp) (by rw [List.length_append]; omega)
              (by simp only [List.length_append, List.flatMap_cons] at hfits ⊢; omega) hrest₂
              offset₂ hst₂.2
          refine ⟨input₃, offset₃, st₃, hrest₃, hopen₃, ?_, (hloop₁.trans hloop₂).trans hloop₃⟩
          rw [hviews₃, hst₂.1, hviews₁]
          simp [List.append_assoc]

/-- A message in any cutting is delivered whole, after the messages between
its fragments. -/
theorem reassembleLoop_sent (m : SentMessage) {rest : List UInt8} {input : Slice}
    (h : input.bytes = m.frames ++ rest) (offset : Nat) {st : Reassembly}
    (hopen : st.open = none) :
    ∃ input' offset' st', input'.bytes = rest ∧ st'.open = none ∧
      st'.views = st.views ++ m.delivered ∧
      reassembleLoop input offset st = reassembleLoop input' offset' st' := by
  have hfits := m.fits
  rw [List.length_append] at hfits
  rw [SentMessage.frames, List.append_assoc] at h
  by_cases hone : m.rest = []
  · rw [hone] at h
    obtain ⟨input', offset', st', hrest, hopen', hviews, hloop⟩ :=
      reassembleLoop_plain m.kind (by omega) h offset st
    refine ⟨input', offset', st', by simpa [pieceFrames] using hrest, hopen'.trans hopen, ?_, hloop⟩
    rw [hviews, SentMessage.delivered, SentMessage.body, hone]
    simp
  · have hlong : 4 ≤ m.first.length := m.first_long.resolve_left hone
    have hflag : (!m.rest.isEmpty) = true := by simpa using hone
    rw [hflag] at h
    obtain ⟨input₁, offset₁, st₁, hrest₁, hviews₁, hholds₁, hloop₁⟩ :=
      reassembleLoop_initial m.kind (by omega) hlong h offset hopen
    have hid : m.requestId < 256 ^ 4 := by
      have hlt := Cdr.decodeNat_lt m.endian (m.first.take 4)
      rwa [List.length_take, Nat.min_eq_left hlong] at hlt
    obtain ⟨input₂, offset₂, st₂, hrest₂, hopen₂, hviews₂, hloop₂⟩ :=
      reassembleLoop_pieces hid m.rest hone hlong m.fits hrest₁ offset₁ hholds₁
    exact ⟨input₂, offset₂, st₂, hrest₂, hopen₂, by rw [hviews₂, hviews₁]; rfl,
      hloop₁.trans hloop₂⟩

theorem reassembleLoop_stream (messages : List SentMessage) {input : Slice}
    (h : input.bytes = messages.flatMap SentMessage.frames) (offset : Nat) {st : Reassembly}
    (hopen : st.open = none) :
    ∃ st', reassembleLoop input offset st = .ok st' ∧ st'.open = none ∧
      st'.views = st.views ++ messages.flatMap SentMessage.delivered := by
  induction messages generalizing input offset st with
  | nil =>
      refine ⟨st, ?_, hopen, by simp⟩
      rw [reassembleLoop, if_pos (by simpa using h)]
  | cons m messages ih =>
      obtain ⟨input₁, offset₁, st₁, hrest₁, hopen₁, hviews₁, hloop₁⟩ :=
        reassembleLoop_sent m (by rw [h, List.flatMap_cons]) offset hopen
      obtain ⟨st₂, hloop₂, hopen₂, hviews₂⟩ := ih hrest₁ offset₁ hopen₁
      refine ⟨st₂, hloop₁.trans hloop₂, hopen₂, ?_⟩
      rw [hviews₂, hviews₁, List.flatMap_cons, List.append_assoc]

/-- Fragmentation is undone: every stream of messages, however each one is
cut and whatever complete messages stand between its fragments, is read back
message by message, and the frames of the messages tile the input. -/
theorem reassembleMessages12_round_trip (messages : List SentMessage) (input : Slice)
    (h : input.bytes = messages.flatMap SentMessage.frames) :
    ∃ output, reassembleMessages12 input = .ok output ∧
      output.map (fun m => (m.header, m.body)) = messages.flatMap SentMessage.delivered ∧
      Tiles (output.flatMap (·.frameRanges)) input.length := by
  have hstart : (⟨[], none⟩ : Reassembly).open = none := rfl
  obtain ⟨st, hloop, hopen, hviews⟩ := reassembleLoop_stream messages h 0 hstart
  have hok : reassembleMessages12 input = .ok st.output := by
    simp only [reassembleMessages12, hloop, bind, Except.bind, hopen]
    rfl
  exact ⟨st.output, hok, by simpa [Reassembly.views] using hviews,
    reassembleMessages12_tiles hok⟩

/-- A request of six bytes cut after the fourth, with a complete reply
between its two fragments. -/
def sampleMessage : SentMessage where
  kind := .request
  endian := .little
  first := [9, 0, 0, 0]
  rest := [⟨[⟨.reply, .big, [1], by decide⟩], .big, [5]⟩, ⟨[], .little, [6]⟩]
  first_long := by decide
  fits := by decide

theorem reassembleMessages12_round_trip_sample :
    ∃ output, reassembleMessages12 ⟨sampleMessage.frames, by decide⟩ = .ok output ∧
      output.map (fun m => (m.header, m.body))
        = [(⟨⟨1, 2⟩, .big, false, .reply, 1⟩, [1]),
          (⟨⟨1, 2⟩, .little, false, .request, 6⟩, [9, 0, 0, 0, 5, 6])] ∧
      Tiles (output.flatMap (·.frameRanges)) 63 :=
  reassembleMessages12_round_trip [sampleMessage] ⟨sampleMessage.frames, by decide⟩ (by decide)

end GovFuzz.Iiop
