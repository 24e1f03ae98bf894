import GovFuzz.Runtrace.FakedWorld
import Mathlib.Data.List.Lemmas

/-!
# Runtrace — a testcase in a used process and in a fresh one

Two runs of one testcase side by side: in a fresh process, and in one that
a history of testcases has left in some state.  Behind the segments that
are left over, the table of the used process is that of the fresh one with
all ids and addresses moved up (`Alike`).  The testcase cannot tell the
two apart as long as it asks for no key that is left over, its new ids meet
none of the old ones, the table does not fill up, and the old messages and
its own together stay below the cap.
-/

namespace GovFuzz.Runtrace

open GovFuzz.Lib

def Call.isShmget : Call → Bool
  | .shmget _ _ => true
  | _ => false

def Call.isReceive : Call → Bool
  | .mqReceive _ _ _ => true
  | _ => false

def shmgets (calls : List Call) : Nat := calls.countP Call.isShmget

def receives (calls : List Call) : Nat := calls.countP Call.isReceive

/-- What is left over in the state cannot be seen by the calls. -/
structure Undisturbed (s : ShimState) (calls : List Call) : Prop where
  messages : s.mqDelivered = 0 ∨ receives calls ≤ mqDeliveryCap - s.mqDelivered
  keys : ∀ key size, Call.shmget key size ∈ calls → key ≠ ipcPrivate →
    ∀ seg ∈ s.sysv, seg.key ≠ key
  ids : ∀ seg ∈ s.sysv, seg.id < sysvSynthBase + s.sysv.length
    ∨ sysvSynthBase + s.sysv.length + shmgets calls ≤ seg.id
  room : s.sysv = [] ∨ s.sysv.length + shmgets calls ≤ sysvCap

/-! ## Segments moved up -/

def SysvSeg.moved (ids addresses : Nat) (seg : SysvSeg) : SysvSeg :=
  { seg with id := seg.id + ids, ptr := seg.ptr + addresses }

section Moved

variable {left own : List SysvSeg} {ids addresses : Nat}

theorem find_key_moved {key : Int32} (hleft : ∀ seg ∈ left, seg.key ≠ key) :
    (left ++ own.map (SysvSeg.moved ids addresses)).find? (fun seg => seg.key = key)
      = (own.find? fun seg => seg.key = key).map (SysvSeg.moved ids addresses) := by
  have hnone : left.find? (fun seg => seg.key = key) = none := by
    rw [List.find?_eq_none]
    intro seg hseg
    simpa using hleft seg hseg
  rw [List.find?_append, hnone, Option.none_or, List.find?_map]
  rfl

theorem find_id_moved {id : Nat} (hleft : ∀ seg ∈ left, seg.id ≠ id + ids) :
    (left ++ own.map (SysvSeg.moved ids addresses)).find? (fun seg => seg.id = id + ids)
      = (own.find? fun seg => seg.id = id).map (SysvSeg.moved ids addresses) := by
  have hnone : left.find? (fun seg => seg.id = id + ids) = none := by
    rw [List.find?_eq_none]
    intro seg hseg
    simpa using hleft seg hseg
  rw [List.find?_append, hnone, Option.none_or, List.find?_map]
  congr 2
  funext seg
  simp [SysvSeg.moved]

theorem eraseP_id_moved {id : Nat} (hleft : ∀ seg ∈ left, seg.id ≠ id + ids) :
    (left ++ own.map (SysvSeg.moved ids addresses)).eraseP (fun seg => seg.id = id + ids)
      = left ++ (own.eraseP fun seg => seg.id = id).map (SysvSeg.moved ids addresses) := by
  rw [List.eraseP_append_right _ (by simpa using hleft), List.eraseP_map]
  congr 3
  funext seg
  simp [SysvSeg.moved]

end Moved

theorem idxOf_map_of_injective {α β : Type} [BEq α] [LawfulBEq α] [BEq β] [LawfulBEq β]
    {f : α → β} (hf : Function.Injective f) (a : α) (l : List α) :
    (l.map f).idxOf (f a) = l.idxOf a := by
  induction l with
  | nil => rfl
  | cons b l ih =>
      by_cases h : b = a
      · simp [h]
      · have hne : f b ≠ f a := fun heq => h (hf heq)
        rw [List.map_cons, List.idxOf_cons_ne _ hne, List.idxOf_cons_ne _ h, ih]

/-! ## The two worlds -/

/-- The fresh world and the used one, with the calls still to come. -/
structure Alike (left : List SysvSeg) (base : Nat) (fresh used : World) (calls : List Call) :
    Prop where
  rngState : used.shim.rngState = fresh.shim.rngState
  liveInput : used.shim.liveInput = fresh.shim.liveInput
  cursor : used.shim.cursor = fresh.shim.cursor
  messages : used.shim.mqDelivered = fresh.shim.mqDelivered ∨ receives calls = 0
    ∨ (fresh.shim.mqDelivered ≤ used.shim.mqDelivered
      ∧ used.shim.mqDelivered + receives calls ≤ mqDeliveryCap)
  sysv : used.shim.sysv = left ++ fresh.shim.sysv.map (SysvSeg.moved left.length base)
  mapped : used.shim.mapped = fresh.shim.mapped + base
  seenIds : used.seen.ids = fresh.seen.ids.map (Option.map (· + left.length))
  addresses : used.seen.addresses = fresh.seen.addresses.map (· + base)
  ownIds : ∀ own ∈ fresh.shim.sysv, ∀ seg ∈ left, seg.id ≠ own.id + left.length
  givenIds : ∀ id, some id ∈ fresh.seen.ids → ∀ seg ∈ left, seg.id ≠ id + left.length
  newIds : ∀ seg ∈ left, seg.id < sysvSynthBase + left.length
    ∨ sysvSynthBase + left.length + fresh.shim.sysv.length + shmgets calls ≤ seg.id
  keys : ∀ key size, Call.shmget key size ∈ calls → key ≠ ipcPrivate →
    ∀ seg ∈ left, seg.key ≠ key
  room : left = [] ∨ left.length + fresh.shim.sysv.length + shmgets calls ≤ sysvCap

namespace Alike

variable {cfg : Config} {left : List SysvSeg} {base : Nat} {fresh used : World} {calls : List Call}

theorem tail {call : Call} (h : Alike left base fresh used (call :: calls)) :
    Alike left base fresh used calls := by
  have hshmgets : shmgets calls ≤ shmgets (call :: calls) := by
    rw [shmgets, shmgets, List.countP_cons]
    omega
  have hreceives : receives calls ≤ receives (call :: calls) := by
    rw [receives, receives, List.countP_cons]
    omega
  exact { h with
    messages := by
      rcases h.messages with heq | hzero | ⟨hle, hcap⟩
      · exact .inl heq
      · exact .inr (.inl (by omega))
      · exact .inr (.inr ⟨hle, by omega⟩)
    newIds := fun seg hseg => (h.newIds seg hseg).imp_right fun hle => by omega
    keys := fun key size hmem => h.keys key size (List.mem_cons_of_mem _ hmem)
    room := h.room.imp_right fun hle => by omega }

theorem setRng (h : Alike left base fresh used calls) (state : UInt64) :
    Alike left base { fresh with shim := { fresh.shim with rngState := state } }
      { used with shim := { used.shim with rngState := state } } calls :=
  { h with rngState := rfl }

theorem setCursor (h : Alike left base fresh used calls) (cursor : Nat) :
    Alike left base { fresh with shim := { fresh.shim with cursor := cursor } }
      { used with shim := { used.shim with cursor := cursor } } calls :=
  { h with cursor := rfl }

theorem currentSource_eq (h : Alike left base fresh used calls) :
    currentSource cfg used.shim = currentSource cfg fresh.shim := by
  rw [currentSource, currentSource, h.liveInput]

theorem fillBytes_eq (h : Alike left base fresh used calls) (resource : List UInt8) (len : Nat) :
    fillBytes cfg resource len used.shim = fillBytes cfg resource len fresh.shim := by
  simp only [fillBytes, readKeyed, h.currentSource_eq]

theorem segmentContents_eq (h : Alike left base fresh used calls) (len : Nat) :
    segmentContents cfg len used.shim = segmentContents cfg len fresh.shim := by
  simp only [segmentContents, h.fillBytes_eq]

theorem draw (h : Alike left base fresh used calls) :
    (draw cfg fresh).2 = (draw cfg used).2
      ∧ Alike left base (Runtrace.draw cfg fresh).1 (Runtrace.draw cfg used).1 calls := by
  unfold Runtrace.draw
  rw [h.rngState]
  by_cases hgate : cfg.determinism = true
  · rw [if_pos hgate, if_pos hgate]
    exact ⟨rfl, h.setRng _⟩
  · rw [if_neg hgate, if_neg hgate]
    exact ⟨rfl, h⟩

/-- A message delivered in a fresh process and in a used one is the same, and the two stay
alike. -/
theorem deliverMessage {msgLen : Option Nat} {msgPrio timed : Bool}
    (h : Alike left base fresh used (.mqReceive msgLen msgPrio timed :: calls)) :
    (deliverMessage cfg msgLen msgPrio timed fresh).2
        = (Runtrace.deliverMessage cfg msgLen msgPrio timed used).2
      ∧ Alike left base (Runtrace.deliverMessage cfg msgLen msgPrio timed fresh).1
          (Runtrace.deliverMessage cfg msgLen msgPrio timed used).1 calls := by
  have htail := h.tail
  have hcount : receives (.mqReceive msgLen msgPrio timed :: calls) = receives calls + 1 := by
    rw [receives, receives, List.countP_cons]
    rfl
  have hcap : mqDeliveryCap = 256 := rfl
  have hrange : usizeRange = 2 ^ 64 := rfl
  -- the counters are on the same side of the cap, before and after
  have hside : mqDeliveryCap ≤ fresh.shim.mqDelivered ↔ mqDeliveryCap ≤ used.shim.mqDelivered := by
    rcases h.messages with heq | hzero | ⟨hle, hbound⟩
    · rw [heq]
    · omega
    · omega
  have hcounted : Alike left base
      { fresh with shim := { fresh.shim with
        mqDelivered := (fresh.shim.mqDelivered + 1) % usizeRange } }
      { used with shim := { used.shim with
        mqDelivered := (used.shim.mqDelivered + 1) % usizeRange } } calls := by
    refine { htail with messages := ?_ }
    show (used.shim.mqDelivered + 1) % usizeRange = (fresh.shim.mqDelivered + 1) % usizeRange ∨ _
    rcases h.messages with heq | hzero | ⟨hle, hbound⟩
    · exact .inl (by rw [heq])
    · omega
    · refine .inr (.inr ⟨?_, ?_⟩)
      · show (fresh.shim.mqDelivered + 1) % usizeRange ≤ (used.shim.mqDelivered + 1) % usizeRange
        rw [Nat.mod_eq_of_lt (by omega), Nat.mod_eq_of_lt (by omega)]
        omega
      · show (used.shim.mqDelivered + 1) % usizeRange + receives calls ≤ mqDeliveryCap
        rw [Nat.mod_eq_of_lt (by omega)]
        omega
  unfold Runtrace.deliverMessage
  -- no message in the empty mode; otherwise the counter moves on both sides
  by_cases hempty : cfg.mode = .empty
  · rw [if_pos hempty, if_pos hempty]
    exact ⟨rfl, htail⟩
  · rw [if_neg hempty, if_neg hempty]
    dsimp only
    by_cases hfull : mqDeliveryCap ≤ used.shim.mqDelivered
    · rw [if_pos hfull, if_pos (hside.mpr hfull)]
      exact ⟨rfl, hcounted⟩
    · rw [if_neg hfull, if_neg (fun hle => hfull (hside.mp hle))]
      match msgLen with
      | none => exact ⟨rfl, hcounted⟩
      | some 0 => exact ⟨rfl, hcounted⟩
      | some (len + 1) =>
          exact ⟨congrArg (Answer.message · _) (h.fillBytes_eq mqueueName (len + 1)).symm, hcounted⟩

/-! ### Segments -/

theorem giveId {id : Nat} (h : Alike left base fresh used calls)
    (hid : ∀ seg ∈ left, seg.id ≠ id + left.length) :
    (giveId id fresh).2 = (Runtrace.giveId (id + left.length) used).2
      ∧ Alike left base (Runtrace.giveId id fresh).1
          (Runtrace.giveId (id + left.length) used).1 calls := by
  have hinjective : Function.Injective (Option.map (· + left.length)) :=
    Option.map_injective fun a b hab => by simpa using hab
  constructor
  · show Answer.segment _ = Answer.segment _
    rw [h.seenIds]
    exact congrArg Answer.segment (idxOf_map_of_injective hinjective (some id) _).symm
  · refine { h with seenIds := ?_, givenIds := ?_ }
    · show used.seen.ids ++ [some (id + left.length)] = _
      rw [h.seenIds]
      simp [Runtrace.giveId]
    · intro id' hmem
      rcases List.mem_append.mp hmem with hmem | hmem
      · exact h.givenIds id' hmem
      · have heq : id' = id := by simpa using hmem
        rw [heq]
        exact hid

theorem noId (h : Alike left base fresh used calls) :
    Alike left base { fresh with seen := { fresh.seen with ids := fresh.seen.ids ++ [none] } }
      { used with seen := { used.seen with ids := used.seen.ids ++ [none] } } calls := by
  refine { h with seenIds := ?_, givenIds := ?_ }
  · show used.seen.ids ++ [none] = _
    rw [h.seenIds]
    simp
  · intro id hmem
    rcases List.mem_append.mp hmem with hmem | hmem
    · exact h.givenIds id hmem
    · simp at hmem

/-- A segment made in a fresh process and in a used one has the same answer, and the two
stay alike. -/
theorem newSegment {key : Int32} {size : Nat}
    (h : Alike left base fresh used (.shmget key size :: calls)) :
    (newSegment cfg key size fresh).2 = (Runtrace.newSegment cfg key size used).2
      ∧ Alike left base (Runtrace.newSegment cfg key size fresh).1
          (Runtrace.newSegment cfg key size used).1 calls := by
  have htail := h.tail
  have hcount : shmgets (.shmget key size :: calls) = shmgets calls + 1 := by
    rw [shmgets, shmgets, List.countP_cons]
    rfl
  have hlength : used.shim.sysv.length = left.length + fresh.shim.sysv.length := by
    rw [h.sysv, List.length_append, List.length_map]
  have hroom : fresh.shim.sysv.length < sysvCap ↔ used.shim.sysv.length < sysvCap := by
    rcases h.room with hnil | hle
    · rw [hlength, hnil, List.length_nil, Nat.zero_add]
    · omega
  unfold Runtrace.newSegment
  -- both tables have room, or neither has
  by_cases hfits : used.shim.sysv.length < sysvCap
  · rw [if_pos hfits, if_pos (hroom.mpr hfits)]
    dsimp only
    have hnew : ∀ seg ∈ left,
        seg.id ≠ sysvSynthBase + fresh.shim.sysv.length + left.length := by
      intro seg hseg
      have := h.newIds seg hseg
      omega
    have hgrown : Alike left base
        { fresh with shim := { fresh.shim with
          sysv := fresh.shim.sysv ++ [⟨key, sysvSynthBase + fresh.shim.sysv.length,
            fresh.shim.mapped, segmentContents cfg (max size 1) fresh.shim⟩]
          mapped := fresh.shim.mapped + 1 } }
        { used with shim := { used.shim with
          sysv := used.shim.sysv ++ [⟨key, sysvSynthBase + used.shim.sysv.length,
            used.shim.mapped, segmentContents cfg (max size 1) used.shim⟩]
          mapped := used.shim.mapped + 1 } } calls := by
      refine { htail with sysv := ?_, mapped := ?_, ownIds := ?_, newIds := ?_, room := ?_ }
      · show used.shim.sysv ++ [_] = _
        rw [h.segmentContents_eq, hlength, h.mapped, h.sysv, List.map_append,
          ← List.append_assoc, show sysvSynthBase + (left.length + fresh.shim.sysv.length)
            = sysvSynthBase + fresh.shim.sysv.length + left.length by omega]
        rfl
      · show used.shim.mapped + 1 = fresh.shim.mapped + 1 + base
        rw [h.mapped]
        omega
      · intro own hown
        rcases List.mem_append.mp hown with hown | hown
        · exact h.ownIds own hown
        · rw [List.mem_singleton.mp hown]
          exact hnew
      · intro seg hseg
        have hold := h.newIds seg hseg
        show _ ∨ sysvSynthBase + left.length + (fresh.shim.sysv ++ [_]).length + _ ≤ _
        rw [List.length_append, List.length_singleton]
        omega
      · refine h.room.imp_right fun hle => ?_
        show left.length + (fresh.shim.sysv ++ [_]).length + _ ≤ _
        rw [List.length_append, List.length_singleton]
        omega
    have hgiven := hgrown.giveId hnew
    rw [show sysvSynthBase + fresh.shim.sysv.length + left.length
      = sysvSynthBase + used.shim.sysv.length by omega] at hgiven
    exact hgiven
  · rw [if_neg hfits, if_neg fun hlt => hfits (hroom.mp hlt)]
    exact ⟨rfl, htail.noId⟩

theorem shmget {key : Int32} {size : Nat}
    (h : Alike left base fresh used (.shmget key size :: calls)) :
    (shmget cfg key size fresh).2 = (Runtrace.shmget cfg key size used).2
      ∧ Alike left base (Runtrace.shmget cfg key size fresh).1
          (Runtrace.shmget cfg key size used).1 calls := by
  unfold Runtrace.shmget
  by_cases hfaking : cfg.mode.isFaking = true
  · rw [if_pos hfaking, if_pos hfaking]
    by_cases hprivate : key ≠ ipcPrivate
    · rw [if_pos hprivate, if_pos hprivate, h.sysv,
        find_key_moved (h.keys key size List.mem_cons_self hprivate)]
      cases hfind : fresh.shim.sysv.find? fun seg => seg.key = key with
      | none => exact h.newSegment
      | some seg => exact h.tail.giveId (h.ownIds seg (List.mem_of_find?_eq_some hfind))
    · rw [if_neg hprivate, if_neg hprivate]
      exact h.newSegment
  · rw [if_neg hfaking, if_neg hfaking]
    exact ⟨rfl, h.tail.noId⟩

/-- A segment is found in the one table where it is in the other. -/
theorem find_segment (h : Alike left base fresh used calls) (segment : Nat) :
    idOf used segment = (idOf fresh segment).map (· + left.length)
      ∧ ∀ id, idOf fresh segment = some id → ∀ seg ∈ left, seg.id ≠ id + left.length := by
  constructor
  · rw [idOf, idOf, h.seenIds, List.getElem?_map]
    cases fresh.seen.ids[segment]? with
    | none => rfl
    | some id => rfl
  · intro id hid
    refine h.givenIds id ?_
    rw [idOf, Option.join_eq_some_iff] at hid
    exact List.mem_of_getElem? hid

theorem shmat (h : Alike left base fresh used calls) (segment : Nat) :
    (shmat segment fresh).2 = (Runtrace.shmat segment used).2
      ∧ Alike left base (Runtrace.shmat segment fresh).1 (Runtrace.shmat segment used).1 calls := by
  obtain ⟨hid, hother⟩ := h.find_segment segment
  unfold Runtrace.shmat
  rw [hid]
  cases hfresh : idOf fresh segment with
  | none => exact ⟨rfl, h⟩
  | some id =>
      dsimp only [Option.map_some]
      rw [h.sysv, find_id_moved (hother id hfresh)]
      cases hfind : fresh.shim.sysv.find? fun seg => seg.id = id with
      | none => exact ⟨rfl, h⟩
      | some seg =>
          dsimp only [Option.map_some]
          have hinjective : Function.Injective (· + base) := fun a b hab => by simpa using hab
          constructor
          · rw [h.addresses]
            exact congrArg (Answer.attached · seg.contents)
              (idxOf_map_of_injective hinjective seg.ptr _).symm
          · refine { h with addresses := ?_ }
            show used.seen.addresses ++ [seg.ptr + base] = _
            rw [h.addresses]
            simp

/-- A control call on a segment answers the same in both, and the two stay alike. -/
theorem shmctl (h : Alike left base fresh used calls) (segment : Nat) (cmd : Int32) (buf : Bool) :
    (shmctl segment cmd buf fresh).2 = (Runtrace.shmctl segment cmd buf used).2
      ∧ Alike left base (Runtrace.shmctl segment cmd buf fresh).1
          (Runtrace.shmctl segment cmd buf used).1 calls := by
  obtain ⟨hid, hother⟩ := h.find_segment segment
  unfold Runtrace.shmctl
  rw [hid]
  cases hfresh : idOf fresh segment with
  | none => exact ⟨rfl, h⟩
  | some id =>
      dsimp only [Option.map_some]
      have hfindUsed : used.shim.sysv.find? (fun seg => seg.id = id + left.length) = _ :=
        h.sysv ▸ find_id_moved (hother id hfresh)
      rw [hfindUsed]
      cases hfind : fresh.shim.sysv.find? fun seg => seg.id = id with
      | none => exact ⟨rfl, h⟩
      | some seg =>
          dsimp only [Option.map_some]
          -- only a removal changes the table, and it takes the same segment from both
          by_cases hrmid : cmd = ipcRmid
          · rw [if_pos hrmid, if_pos hrmid]
            refine ⟨rfl, ?_⟩
            have hsub : (fresh.shim.sysv.eraseP fun seg => seg.id = id).length
                ≤ fresh.shim.sysv.length := List.eraseP_sublist.length_le
            refine { h with sysv := ?_, ownIds := ?_, newIds := ?_, room := ?_ }
            · show used.shim.sysv.eraseP _ = _
              rw [h.sysv, eraseP_id_moved (hother id hfresh)]
            · intro own hown
              exact h.ownIds own (List.eraseP_sublist.subset hown)
            · intro seg' hseg'
              refine (h.newIds seg' hseg').imp_right fun hle => ?_
              show sysvSynthBase + left.length + (fresh.shim.sysv.eraseP _).length + _ ≤ _
              omega
            · refine h.room.imp_right fun hle => ?_
              show left.length + (fresh.shim.sysv.eraseP _).length + _ ≤ _
              omega
          · rw [if_neg hrmid, if_neg hrmid]
            by_cases hstat : (cmd = ipcStat && buf) = true
            · rw [if_pos hstat, if_pos hstat]
              exact ⟨rfl, h⟩
            · rw [if_neg hstat, if_neg hstat]
              exact ⟨rfl, h⟩

/-- One call gets the same answer in both worlds. -/
theorem step {call : Call} (h : Alike left base fresh used (call :: calls)) :
    (step cfg fresh call).2 = (Runtrace.step cfg used call).2
      ∧ Alike left base (Runtrace.step cfg fresh call).1 (Runtrace.step cfg used call).1 calls := by
  -- A case per call: most change one field at most.
  cases call with
  | rand => exact h.tail.draw
  | random => exact h.tail.draw
  | srand seed =>
      simp only [Runtrace.step]
      by_cases hgate : cfg.determinism = true
      · rw [if_pos hgate, if_pos hgate]
        exact ⟨rfl, h.tail.setRng _⟩
      · rw [if_neg hgate, if_neg hgate]
        exact ⟨rfl, h.tail⟩
  | getrandom buflen =>
      simp only [Runtrace.step, h.rngState]
      by_cases hgate : cfg.determinism = true
      · rw [if_pos hgate, if_pos hgate]
        cases buflen with
        | none => exact ⟨rfl, h.tail⟩
        | some buflen => exact ⟨rfl, h.tail.setRng _⟩
      · rw [if_neg hgate, if_neg hgate]
        exact ⟨rfl, h.tail⟩
  | readInto len =>
      simp only [Runtrace.step, readInto, h.currentSource_eq, h.cursor]
      cases currentSource cfg fresh.shim with
      | none => exact ⟨rfl, h.tail⟩
      | some source =>
          dsimp only
          by_cases hnothing : (len = 0 || source.isEmpty) = true
          · rw [if_pos hnothing, if_pos hnothing]
            exact ⟨rfl, h.tail⟩
          · rw [if_neg hnothing, if_neg hnothing]
            exact ⟨rfl, h.tail.setCursor _⟩
  | fillBytes resource len =>
      refine ⟨?_, h.tail⟩
      exact congrArg Answer.bytes (h.fillBytes_eq resource len).symm
  | mqReceive msgLen msgPrio timed =>
      simp only [Runtrace.step]
      by_cases hfaking : cfg.mode.isFaking = true
      · rw [if_pos hfaking, if_pos hfaking]
        exact h.deliverMessage
      · rw [if_neg hfaking, if_neg hfaking]
        exact ⟨rfl, h.tail⟩
  | shmget key size => exact h.shmget
  | shmat segment => exact h.tail.shmat segment
  | shmctl segment cmd buf => exact h.tail.shmctl segment cmd buf

end Alike

/-- At the start of a testcase only what is left over is different. -/
theorem Undisturbed.alike {s : ShimState} {calls : List Call} (h : Undisturbed s calls)
    (cfg : Config) (input : List UInt8) (hgate : cfg.determinism = true) :
    Alike s.sysv s.mapped ⟨setFuzzInput cfg input freshState, ⟨[], []⟩⟩
      ⟨setFuzzInput cfg input s, ⟨[], []⟩⟩ calls := by
  have hreset : ∀ t : ShimState, resetForInput cfg input t
      = { t with rngState := inputSeed input (seedFromEnv cfg) } := fun t => if_pos hgate
  unfold setFuzzInput
  rw [hreset, hreset]
  refine ⟨rfl, rfl, rfl, ?_, ?_, ?_, rfl, rfl, ?_, ?_, ?_, h.keys, ?_⟩
  · show s.mqDelivered = 0 ∨ receives calls = 0
      ∨ (0 ≤ s.mqDelivered ∧ s.mqDelivered + receives calls ≤ mqDeliveryCap)
    have := h.messages
    omega
  · exact (List.append_nil _).symm
  · exact (Nat.zero_add _).symm
  · exact fun own hown => by cases hown
  · exact fun id hid => by cases hid
  · exact h.ids
  · exact h.room

/-- A testcase that what is left over does not disturb sees the world that it
would see in a fresh process. -/
theorem runTestcase_eq_fresh (cfg : Config) (hgate : cfg.determinism = true)
    (history : List Testcase) (t : Testcase)
    (h : Undisturbed (stateAfter cfg history) t.calls) :
    (runTestcase cfg (stateAfter cfg history) t).2 = (runTestcase cfg freshState t).2 := by
  have halike := h.alike cfg t.input hgate
  have hlockstep : (runSteps (step cfg) ⟨setFuzzInput cfg t.input freshState, ⟨[], []⟩⟩ t.calls).2
      = (runSteps (step cfg) ⟨setFuzzInput cfg t.input (stateAfter cfg history), ⟨[], []⟩⟩
          t.calls).2 :=
    runSteps_lockstep (fun _ _ _ _ hstep => hstep.step) halike
  exact hlockstep.symm

def fuzzDriven : Config := ⟨.fuzzDriven, true, none, none⟩

/-- A testcase that attaches a segment of two bytes and removes it. -/
def attachAndRemove (input : List UInt8) : Testcase :=
  ⟨input, [.shmget 5 2, .shmat 0, .shmctl 0 ipcRmid false]⟩

def tidyHistory : List Testcase :=
  [attachAndRemove [1], ⟨[2], [.rand, .mqReceive (some 4) true false]⟩]

/-- Removed segments, a queue read once and numbers drawn do not disturb. -/
theorem attached_as_fresh :
    Undisturbed (stateAfter fuzzDriven tidyHistory) (attachAndRemove [3]).calls
      ∧ (runTestcase fuzzDriven (stateAfter fuzzDriven tidyHistory) (attachAndRemove [3])).2
        = (runTestcase fuzzDriven freshState (attachAndRemove [3])).2 := by
  have hsysv : (stateAfter fuzzDriven tidyHistory).sysv = [] := by decide
  have h : Undisturbed (stateAfter fuzzDriven tidyHistory) (attachAndRemove [3]).calls := by
    refine ⟨.inr (by decide), ?_, ?_, .inl hsysv⟩
    · intro key size hmem hkey seg hseg
      rw [hsysv] at hseg
      cases hseg
    · intro seg hseg
      rw [hsysv] at hseg
      cases hseg
  exact ⟨h, runTestcase_eq_fresh fuzzDriven rfl _ _ h⟩

/-- A segment that an earlier testcase did not remove still holds the bytes
of that testcase's input. -/
theorem attached_stale :
    (runTestcase fuzzDriven (stateAfter fuzzDriven [⟨[1], [.shmget 5 2]⟩])
        ⟨[2], [.shmget 5 2, .shmat 0]⟩).2
      ≠ (runTestcase fuzzDriven freshState ⟨[2], [.shmget 5 2, .shmat 0]⟩).2 := by
  decide

end GovFuzz.Runtrace
