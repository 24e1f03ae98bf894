import GovFuzz.Iiop.Giop

/-!
# Iiop — reassembly of fragmented GIOP 1.2 messages

`reassemble_messages_1_2` of `crates/iiop/src/giop.rs`: a loop over frames
with one slot for the message whose fragments are still arriving.
-/

namespace GovFuzz.Iiop

open GovFuzz.Lib

structure GiopFrameRange where
  offset : Nat
  len : Nat
  messageType : MessageType
  fragmented : Bool
  deriving DecidableEq

structure ReassembledMessage where
  header : MessageHeader
  body : List UInt8
  frameRanges : List GiopFrameRange
  deriving DecidableEq

inductive ReassemblyError where
  | giop (error : GiopError)
  | fragmentWithoutInitial (requestId : UInt32) (offset : Nat)
  | duplicateInitial (requestId : UInt32) (offset : Nat)
  | fragmentRequestIdMismatch (expected actual : UInt32) (offset : Nat)
  | unfinishedFragmentedMessage (requestId : UInt32)
  deriving DecidableEq

structure OpenMessage where
  requestId : UInt32
  header : MessageHeader
  body : List UInt8
  frameRanges : List GiopFrameRange
  deriving DecidableEq

/-- The loop's locals: what is finished, and the slot. -/
structure Reassembly where
  output : List ReassembledMessage
  «open» : Option OpenMessage
  deriving DecidableEq

def requestIdForFragmentedInitial (frame : ParsedMessage) : Except GiopError UInt32 :=
  match frame.header.messageType with
  | .request | .reply | .locateRequest | .locateReply | .cancelRequest =>
      (Op.exec Cdr.readU32 frame.bodyReader).1.mapError .cdr
  | messageType => .error (.unsupportedMessageType messageType)

/-- The finished message: fragment flag cleared, length of the whole body. -/
def OpenMessage.complete (m : OpenMessage) : ReassembledMessage where
  header := { m.header with fragmented := false, bodyLen := UInt32.ofNat m.body.length }
  body := m.body
  frameRanges := m.frameRanges

def acceptFragment (offset : Nat) (range : GiopFrameRange) (frame : ParsedMessage)
    (st : Reassembly) : Except ReassemblyError Reassembly := do
  let fragment ← (readFragment12 frame).mapError .giop
  match st.open with
  | none => throw (.fragmentWithoutInitial fragment.head.requestId offset)
  | some openMessage =>
      if fragment.head.requestId ≠ openMessage.requestId then
        throw (.fragmentRequestIdMismatch openMessage.requestId fragment.head.requestId offset)
      else
        let openMessage := { openMessage with
          body := openMessage.body ++ fragment.tail.bytes
          frameRanges := openMessage.frameRanges ++ [range] }
        if frame.header.fragmented then return { st with «open» := some openMessage }
        else return { output := st.output ++ [openMessage.complete], «open» := none }

def acceptInitial (offset : Nat) (range : GiopFrameRange) (frame : ParsedMessage)
    (st : Reassembly) : Except ReassemblyError Reassembly := do
  let requestId ← (requestIdForFragmentedInitial frame).mapError .giop
  if st.open.isSome then throw (.duplicateInitial requestId offset)
  else return { st with «open» := some {
    requestId := requestId
    header := frame.header
    body := frame.body.bytes
    frameRanges := [range] } }

def frameLen (frame : ParsedMessage) : Nat := headerLen + frame.body.length

/-- One frame. -/
def acceptFrame (offset : Nat) (frame : ParsedMessage) (st : Reassembly) :
    Except ReassemblyError Reassembly :=
  let range : GiopFrameRange :=
    ⟨offset, frameLen frame, frame.header.messageType, frame.header.fragmented⟩
  if frame.header.version ≠ ⟨1, 2⟩ then .error (.giop (.unsupportedVersion frame.header.version))
  else if frame.header.messageType = .fragment then acceptFragment offset range frame st
  else if frame.header.fragmented then acceptInitial offset range frame st
  else .ok { st with output := st.output ++ [⟨frame.header, frame.body.bytes, [range]⟩] }

/-- What a parsed frame leaves behind is shorter by the frame. -/
theorem parseMessage_length {input : Slice} {frame : ParsedMessage}
    (h : parseMessage input = .ok frame) :
    frameLen frame + frame.remaining.length = input.length := by
  obtain ⟨header, hheader, h⟩ := bind_eq_ok.mp h
  have hlong : headerLen ≤ input.length := by
    by_contra hshort
    rw [parseHeader, if_pos (Nat.lt_of_not_le hshort)] at hheader
    cases hheader
  dsimp only at h
  split at h
  · cases h
  · cases h
    have hbytes : input.bytes.length = input.length := rfl
    simp only [frameLen, Slice.length, Slice.range, Slice.dropFront, List.length_drop,
      List.length_take]
    omega

/-- The `while !remaining.is_empty()` loop. -/
def reassembleLoop (remaining : Slice) (offset : Nat) (st : Reassembly) :
    Except ReassemblyError Reassembly :=
  if remaining.bytes = [] then .ok st
  else
    match _h : parseMessage remaining with
    | .error e => .error (.giop e)
    | .ok frame =>
        match acceptFrame offset frame st with
        | .error e => .error e
        | .ok st => reassembleLoop frame.remaining (offset + frameLen frame) st
termination_by remaining.length
decreasing_by
  have := parseMessage_length _h
  simp only [frameLen, headerLen] at this
  omega

def reassembleMessages12 (input : Slice) : Except ReassemblyError (List ReassembledMessage) := do
  let st ← reassembleLoop input 0 ⟨[], none⟩
  match st.open with
  | some openMessage => throw (.unfinishedFragmentedMessage openMessage.requestId)
  | none => return st.output

/-! ## Ranges -/

def GiopFrameRange.covers (p : Nat) (range : GiopFrameRange) : Bool :=
  range.offset ≤ p && p < range.offset + range.len

/-- Every position below `n` lies in exactly one range, no other in any. -/
def Tiles (ranges : List GiopFrameRange) (n : Nat) : Prop :=
  ∀ p, ranges.countP (·.covers p) = if p < n then 1 else 0

/-- All ranges recorded so far. -/
def Reassembly.ranges (st : Reassembly) : List GiopFrameRange :=
  st.output.flatMap (·.frameRanges) ++ (st.open.map (·.frameRanges)).getD []

theorem Tiles.snoc {ranges ranges' : List GiopFrameRange} {n : Nat} {range : GiopFrameRange}
    (h : Tiles ranges n) (hoffset : range.offset = n) (hperm : ranges'.Perm (range :: ranges)) :
    Tiles ranges' (n + range.len) := by
  intro p
  rw [hperm.countP_eq, List.countP_cons, h p]
  simp only [GiopFrameRange.covers, hoffset, Bool.and_eq_true, decide_eq_true_eq]
  by_cases hp : p < n
  · simp only [hp, if_true]
    rw [if_neg (by omega), if_pos (by omega)]
  · by_cases hq : p < n + range.len
    · simp only [hp, hq, if_false, if_true]
      rw [if_pos ⟨by omega, trivial⟩]
    · simp [hp, hq]

/-- A step records exactly the frame's own range. -/
theorem acceptFrame_ranges {offset : Nat} {frame : ParsedMessage} {st st' : Reassembly}
    (h : acceptFrame offset frame st = .ok st') :
    st'.ranges.Perm
      (⟨offset, frameLen frame, frame.header.messageType, frame.header.fragmented⟩ ::
        st.ranges) := by
  unfold acceptFrame at h
  split at h
  · cases h
  split at h
  · -- a fragment: its range goes to the slot, and with it to the output when it is the last
    obtain ⟨fragment, -, h⟩ := bind_eq_ok.mp h
    cases hopen : st.open with
    | none =>
        rw [hopen] at h
        cases h
    | some openMessage =>
        rw [hopen] at h
        simp only at h
        split at h
        · cases h
        · split at h
          · cases h
            simp only [Reassembly.ranges, hopen, Option.map_some, Option.getD_some]
            rw [← List.append_assoc]
            exact List.perm_append_singleton _ _
          · cases h
            simp only [Reassembly.ranges, hopen, Option.map_some, Option.getD_some,
              OpenMessage.complete, List.flatMap_append, List.flatMap_cons, List.flatMap_nil,
              List.append_nil, Option.map_none, Option.getD_none]
            rw [← List.append_assoc]
            exact List.perm_append_singleton _ _
  · split at h
    · obtain ⟨requestId, -, h⟩ := bind_eq_ok.mp h
      split at h
      · cases h
      · rename_i hnone
        cases h
        have hopen : st.open = none := by simpa using hnone
        simp only [Reassembly.ranges, hopen, Option.map_some, Option.getD_some, Option.map_none,
          Option.getD_none, List.append_nil]
        exact List.perm_append_singleton _ _
    · cases h
      simp only [Reassembly.ranges, List.flatMap_append, List.flatMap_cons, List.flatMap_nil,
        List.append_nil, List.append_assoc, List.singleton_append]
      exact List.perm_middle

/-- The ranges of the fragments tile the input to its end. -/
theorem reassembleLoop_tiles {remaining : Slice} {offset : Nat} {st st' : Reassembly}
    (h : reassembleLoop remaining offset st = .ok st') (htiles : Tiles st.ranges offset) :
    Tiles st'.ranges (offset + remaining.length) := by
  induction remaining, offset, st using reassembleLoop.induct with
  | case1 remaining offset st hempty =>
      rw [reassembleLoop, if_pos hempty] at h
      cases h
      simpa [Slice.length, hempty] using htiles
  | case2 remaining offset st hne e hparse =>
      rw [reassembleLoop, if_neg hne] at h
      split at h
      · cases h
      · simp_all
  | case3 remaining offset st hne frame hparse e haccept =>
      rw [reassembleLoop, if_neg hne] at h
      split at h
      · cases h
      · rename_i frame' hparse'
        rw [hparse] at hparse'
        cases hparse'
        rw [haccept] at h
        cases h
  | case4 remaining offset st hne frame hparse next haccept ih =>
      rw [reassembleLoop, if_neg hne] at h
      split at h
      · cases h
      · rename_i frame' hparse'
        rw [hparse] at hparse'
        cases hparse'
        simp only [haccept] at h
        have hnext := ih h (htiles.snoc rfl (acceptFrame_ranges haccept))
        rwa [Nat.add_assoc, parseMessage_length hparse] at hnext

/-- Whatever the input: the frame ranges of the returned messages are
disjoint and cover it. -/
theorem reassembleMessages12_tiles {input : Slice} {messages : List ReassembledMessage}
    (h : reassembleMessages12 input = .ok messages) :
    Tiles (messages.flatMap (·.frameRanges)) input.length := by
  obtain ⟨st, hloop, h⟩ := bind_eq_ok.mp h
  have htiles := reassembleLoop_tiles hloop (by intro p; rfl)
  split at h
  · cases h
  · rename_i hopen
    cases h
    simpa [Reassembly.ranges, hopen] using htiles

end GovFuzz.Iiop
