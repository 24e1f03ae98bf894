import GovFuzz.Runtrace.Capsule
import Mathlib.Data.List.Induction
import Mathlib.Data.List.Nodup

/-!
# Runtrace — the table of System V segments

`shmget`, `shmat`, `shmdt` and `shmctl` of
`crates/govfuzz_runtrace_shim/src/hooks/mem.rs` as one thread calls them:
`try_lock` always succeeds then.  Here an id is a number, and `mmap` answers
with an address; the faked world of a testcase sees less of both
(`shmget_world`).  What a segment contains is left to that world.
-/

namespace GovFuzz.Runtrace.Sysv

open GovFuzz.Runtrace

/-- `SysvSeg`, with the size of its mapping. -/
structure Segment where
  key : Int32
  id : Int
  ptr : Nat
  size : Nat
  deriving DecidableEq, Repr

/-- What a hook answers, or that it leaves the answer to the real function. -/
inductive Answer (α : Type) where
  | ours (value : α)
  | invalid
  | real
  deriving DecidableEq, Repr

def isSynthShmid (id : Int) : Bool := (sysvSynthBase : Int) ≤ id

/-- The segment that a key is reused for. -/
@[grind =] def keyed (table : List Segment) (key : Int32) : Option Segment :=
  if key ≠ ipcPrivate then table.find? fun seg => seg.key = key else none

/-- The segment that is pushed for an address of `mmap`. -/
@[grind =] def created (table : List Segment) (key : Int32) (size ptr : Nat) : Segment :=
  ⟨key, sysvSynthBase + table.length, ptr, max size 1⟩

/-- `mapped` is the answer of `mmap`, if it succeeds. -/
@[grind =] def shmget (faking : Bool) (table : List Segment) (key : Int32) (size : Nat)
    (mapped : Option Nat) : List Segment × Answer Int :=
  if faking then
    match keyed table key with
    | some seg => (table, .ours seg.id)
    | none =>
        if table.length < sysvCap then
          match mapped with
          | some ptr =>
              let seg := created table key size ptr
              (table ++ [seg], .ours seg.id)
          | none => (table, .real)
        else (table, .real)
  else (table, .real)

@[grind =] def shmat (table : List Segment) (shmid : Int) : Answer Nat :=
  if isSynthShmid shmid then
    match table.find? fun seg => seg.id = shmid with
    | some seg => .ours seg.ptr
    | none => .invalid
  else .real

def shmdt (table : List Segment) (addr : Nat) : Answer Unit :=
  if table.any fun seg => seg.ptr = addr then .ours () else .real

/-- What a command does for a segment of the table. -/
inductive Controlled where
  | unmapped (ptr size : Nat)
  | segsz (size : Nat)
  | nothing
  deriving DecidableEq, Repr

@[grind =] def shmctl (table : List Segment) (shmid : Int) (cmd : Int32) (buf : Bool) :
    List Segment × Answer Controlled :=
  if isSynthShmid shmid then
    match table.find? fun seg => seg.id = shmid with
    | some seg =>
        if cmd = ipcRmid then
          (table.eraseP fun seg => seg.id = shmid, .ours (.unmapped seg.ptr seg.size))
        else if cmd = ipcStat && buf then (table, .ours (.segsz seg.size))
        else (table, .ours .nothing)
    | none => (table, .invalid)
  else (table, .real)

/-! ## A faking pass -/

/-- The calls of one thread; the `mmap` of a `shmget` gives the address
`ptr`, where it is called. -/
inductive Call where
  | shmget (key : Int32) (size ptr : Nat)
  | shmat (shmid : Int)
  | shmdt (addr : Nat)
  | shmctl (shmid : Int) (cmd : Int32) (buf : Bool)
  deriving DecidableEq, Repr

@[grind =] def step (table : List Segment) : Call → List Segment
  | .shmget key size ptr => (shmget true table key size (some ptr)).1
  | .shmat _ => table
  | .shmdt _ => table
  | .shmctl shmid cmd buf => (shmctl table shmid cmd buf).1

@[grind =] def run (calls : List Call) : List Segment := calls.foldl step []

theorem run_concat (calls : List Call) (call : Call) :
    run (calls ++ [call]) = step (run calls) call := by
  simp [run]

/-- A `shmget` that needs a new segment finds fewer than the cap. -/
def Room (table : List Segment) : Call → Prop
  | .shmget key _ _ => keyed table key = none → table.length < sysvCap
  | _ => True

/-- The id of a new segment is not in use, and the segment that is found for
a key has the size asked for. -/
@[grind =] def Sound (table : List Segment) : Call → Prop
  | .shmget key size _ =>
      match keyed table key with
      | some seg => size ≤ seg.size
      | none => ∀ seg ∈ table, seg.id ≠ sysvSynthBase + table.length
  | _ => True

/-- A property of every call of a pass and the table it is made on. -/
def EachCall (holds : List Segment → Call → Prop) (calls : List Call) : Prop :=
  ∀ front call, front ++ [call] <+: calls → holds (run front) call

theorem EachCall.of_concat {holds : List Segment → Call → Prop} {calls : List Call} {call : Call}
    (h : EachCall holds (calls ++ [call])) : EachCall holds calls ∧ holds (run calls) call := by
  refine ⟨?_, h calls call (List.prefix_refl _)⟩
  intro front c hpre
  exact h front c (hpre.trans (List.prefix_append _ _))

/-! ## Identity -/

/-- The segment that a `shmget` found or created. -/
@[grind =] def segmentOf (table : List Segment) (key : Int32) (size ptr : Nat) : Segment :=
  (keyed table key).getD (created table key size ptr)

/-- The pass got `id` from a `shmget` for `size` bytes that answered with
`seg`, and has not removed it since. -/
def Issued (calls : List Call) (id : Int) (size : Nat) (seg : Segment) : Prop :=
  ∃ front key ptr back, calls = front ++ .shmget key size ptr :: back ∧
    (shmget true (run front) key size (some ptr)).2 = .ours id ∧
    seg = segmentOf (run front) key size ptr ∧
    ∀ buf, Call.shmctl id ipcRmid buf ∉ back

/-- What an id stands for after the calls: it attaches the region of its
segment, which is as large as was asked for, and removes that segment alone. -/
structure Stands (table : List Segment) (id : Int) (size : Nat) (seg : Segment) : Prop where
  attached : shmat table id = .ours seg.ptr
  large : size ≤ seg.size
  removed : ∀ buf, ∃ front back, table = front ++ seg :: back ∧
    shmctl table id ipcRmid buf = (front ++ back, .ours (.unmapped seg.ptr seg.size))

structure KeepsIdentity (calls : List Call) : Prop where
  distinct : ((run calls).map Segment.id).Nodup
  stands : ∀ id size seg, Issued calls id size seg → Stands (run calls) id size seg

/-! ## One call -/

section
variable {table : List Segment}

theorem shmget_room {key : Int32} {size ptr : Nat} (h : Room table (.shmget key size ptr)) :
    (shmget true table key size (some ptr)).2 = .ours (segmentOf table key size ptr).id ∧
      segmentOf table key size ptr ∈ step table (.shmget key size ptr) := by
  simp only [step, shmget, segmentOf, if_true]
  cases hkeyed : keyed table key with
  | some seg =>
      refine ⟨rfl, ?_⟩
      unfold keyed at hkeyed
      split at hkeyed
      · exact List.mem_of_find?_eq_some hkeyed
      · cases hkeyed
  | none => simp [h hkeyed]

/-- The table keeps a segment until its id is removed. -/
theorem mem_step {seg : Segment} {call : Call} (h : seg ∈ table)
    (hcall : ∀ buf, call ≠ .shmctl seg.id ipcRmid buf) : seg ∈ step table call := by
  cases call with
  | shmget key size ptr =>
      simp only [step, shmget, if_true]
      split
      · exact h
      · split
        · exact List.mem_append_left _ h
        · exact h
  | shmat shmid => exact h
  | shmdt addr => exact h
  | shmctl shmid cmd buf =>
      simp only [step, shmctl]
      split
      · split
        · split
          · rename_i hcmd
            have hne : seg.id ≠ shmid := by
              rintro rfl
              exact hcall buf (by rw [hcmd])
            exact (List.mem_eraseP_of_neg (by simp [hne])).mpr h
          · split <;> exact h
        · exact h
      · exact h

/-- A step gives out no identifier below the first synthetic one. -/
theorem synth_step {call : Call} (h : ∀ seg ∈ table, (sysvSynthBase : Int) ≤ seg.id) :
    ∀ seg ∈ step table call, (sysvSynthBase : Int) ≤ seg.id := by
  cases call with
  | shmget key size ptr =>
      simp only [step, shmget, if_true]
      split
      · exact h
      · split
        · intro seg hseg
          rcases List.mem_append.mp hseg with hseg | hseg
          · exact h seg hseg
          · rw [List.mem_singleton.mp hseg]
            simp [created]
        · exact h
  | shmat shmid => exact h
  | shmdt addr => exact h
  | shmctl shmid cmd buf =>
      simp only [step, shmctl]
      split
      · split
        · split
          · intro seg hseg
            exact h seg (List.mem_of_mem_eraseP hseg)
          · split <;> exact h
        · exact h
      · exact h

/-- A sound call leaves the ids distinct. -/
theorem nodup_step {call : Call} (h : (table.map Segment.id).Nodup) (hsound : Sound table call) :
    ((step table call).map Segment.id).Nodup := by
  cases call with
  | shmget key size ptr =>
      simp only [step, shmget, if_true]
      cases hkeyed : keyed table key with
      | some seg => exact h
      | none =>
          simp only [Sound, hkeyed] at hsound
          dsimp only
          split
          · rw [List.map_append, List.nodup_append]
            refine ⟨h, List.nodup_singleton _, ?_⟩
            intro a ha b hb heq
            obtain ⟨seg, hseg, rfl⟩ := List.mem_map.mp ha
            rw [List.map_singleton, List.mem_singleton] at hb
            exact hsound seg hseg (heq.trans hb)
          · exact h
  | shmat shmid => exact h
  | shmdt addr => exact h
  | shmctl shmid cmd buf =>
      simp only [step, shmctl]
      split
      · split
        · split
          · exact h.sublist (List.Sublist.map _ (List.eraseP_sublist ..))
          · split <;> exact h
        · exact h
      · exact h

/-- With distinct ids, an id of the table stands for its segment. -/
theorem stands_of_mem {seg : Segment} {size : Nat} (hnodup : (table.map Segment.id).Nodup)
    (hsynth : (sysvSynthBase : Int) ≤ seg.id) (hmem : seg ∈ table) (hlarge : size ≤ seg.size) :
    Stands table seg.id size seg := by
  obtain ⟨front, back, rfl⟩ := List.append_of_mem hmem
  have hfront : ∀ other ∈ front, ¬ other.id = seg.id := by
    intro other hother heq
    rw [List.map_append, List.nodup_append] at hnodup
    exact hnodup.2.2 _ (List.mem_map_of_mem hother) seg.id (by simp) heq
  have hfind : (front ++ seg :: back).find? (fun other => other.id = seg.id) = some seg := by
    rw [List.find?_append, List.find?_eq_none.mpr (by simpa using hfront)]
    simp
  have herase : (front ++ seg :: back).eraseP (fun other => other.id = seg.id)
      = front ++ back := by
    rw [List.eraseP_append_right _ (by simpa using hfront)]
    simp
  have hours : isSynthShmid seg.id = true := by simpa [isSynthShmid] using hsynth
  refine ⟨?_, hlarge, fun buf => ⟨front, back, rfl, ?_⟩⟩
  · simp [shmat, hours, hfind]
  · simp [shmctl, hours, hfind, herase]

end

/-! ## A pass -/

theorem synth_run (calls : List Call) : ∀ seg ∈ run calls, (sysvSynthBase : Int) ≤ seg.id := by
  induction calls using List.reverseRecOn with
  | nil => simp [run]
  | append_singleton calls call ih =>
      rw [run_concat]
      exact synth_step ih

theorem nodup_run {calls : List Call} (h : EachCall Sound calls) :
    ((run calls).map Segment.id).Nodup := by
  induction calls using List.reverseRecOn with
  | nil => simp [run]
  | append_singleton calls call ih =>
      obtain ⟨hcalls, hcall⟩ := h.of_concat
      rw [run_concat]
      exact nodup_step (ih hcalls) hcall

/-- What was issued is in the table, under its id and with its size. -/
theorem mem_of_issued {calls : List Call} {id : Int} {size : Nat} {seg : Segment}
    (hroom : EachCall Room calls) (hsound : EachCall Sound calls) (h : Issued calls id size seg) :
    seg ∈ run calls ∧ seg.id = id ∧ size ≤ seg.size := by
  obtain ⟨front, key, ptr, back, rfl, hid, rfl, hkept⟩ := h
  have hget : front ++ [.shmget key size ptr] <+: front ++ .shmget key size ptr :: back :=
    ⟨back, by simp⟩
  obtain ⟨hanswer, hmem⟩ := shmget_room (hroom front _ hget)
  have hid' : (segmentOf (run front) key size ptr).id = id := by
    rw [hanswer] at hid
    exact Answer.ours.inj hid
  have hlarge : size ≤ (segmentOf (run front) key size ptr).size := by
    have hcall := hsound front _ hget
    simp only [Sound, segmentOf] at hcall ⊢
    cases hkeyed : keyed (run front) key with
    | some seg => simpa [hkeyed] using hcall
    | none => simp [created]
  refine ⟨?_, hid', hlarge⟩
  -- from the `shmget` on, by the calls behind it
  clear hroom hsound hget
  induction back using List.reverseRecOn with
  | nil => rwa [run_concat]
  | append_singleton back call ih =>
      have hbefore : ∀ buf, Call.shmctl id ipcRmid buf ∉ back := by
        intro buf hin
        exact hkept buf (List.mem_append_left _ hin)
      rw [← List.cons_append, ← List.append_assoc, run_concat]
      refine mem_step (ih hbefore) fun buf heq => ?_
      rw [hid'] at heq
      exact hkept buf (by simp [heq])

theorem keepsIdentity_of_sound {calls : List Call} (hroom : EachCall Room calls)
    (hsound : EachCall Sound calls) : KeepsIdentity calls := by
  have hnodup := nodup_run hsound
  refine ⟨hnodup, ?_⟩
  intro id size seg hissued
  obtain ⟨hmem, rfl, hlarge⟩ := mem_of_issued hroom hsound hissued
  exact stands_of_mem hnodup (synth_run calls seg hmem) hmem hlarge

/-- A call that is not sound shows in the state right behind it. -/
theorem sound_of_keepsIdentity {calls : List Call} {call : Call} (hroom : Room (run calls) call)
    (h : KeepsIdentity (calls ++ [call])) : Sound (run calls) call := by
  cases call with
  | shmget key size ptr =>
      obtain ⟨hanswer, -⟩ := shmget_room hroom
      cases hkeyed : keyed (run calls) key with
      | some seg =>
          have hseg : segmentOf (run calls) key size ptr = seg := by simp [segmentOf, hkeyed]
          have hissued : Issued (calls ++ [.shmget key size ptr]) seg.id size seg :=
            ⟨calls, key, ptr, [], rfl, by rw [hanswer, hseg], hseg.symm, by simp⟩
          simpa [Sound, hkeyed] using (h.stands _ _ _ hissued).large
      | none =>
          have hdistinct := h.distinct
          rw [run_concat] at hdistinct
          simp only [step, shmget, if_true, hkeyed, hroom hkeyed, List.map_append,
            List.nodup_append] at hdistinct
          simp only [Sound, hkeyed]
          intro seg hseg heq
          exact hdistinct.2.2 _ (List.mem_map_of_mem hseg) _ (by simp [created]) heq
  | shmat shmid => trivial
  | shmdt addr => trivial
  | shmctl shmid cmd buf => trivial

/-- **Segments keep their identity exactly in sound passes**: in every pass
in which a new segment finds room, every state that is reached keeps the
identity of the segments iff every call is sound. -/
theorem keepsIdentity_iff (calls : List Call) (hroom : EachCall Room calls) :
    (∀ front, front <+: calls → KeepsIdentity front) ↔ EachCall Sound calls := by
  constructor
  · intro h front call hpre
    exact sound_of_keepsIdentity (hroom front call hpre) (h _ hpre)
  · intro h front hpre
    refine keepsIdentity_of_sound ?_ ?_
    · intro before call hbefore
      exact hroom before call (hbefore.trans hpre)
    · intro before call hbefore
      exact h before call (hbefore.trans hpre)

/-- Every call adds one segment at the most, so that a short pass always
finds room. -/
theorem room_of_length_le {calls : List Call} (h : calls.length ≤ sysvCap) :
    EachCall Room calls := by
  have hrun : ∀ front : List Call, (run front).length ≤ front.length := by
    intro front
    induction front using List.reverseRecOn with
    | nil => simp [run]
    | append_singleton front call ih =>
        have hstep : (step (run front) call).length ≤ (run front).length + 1 := by
          cases call with
          | shmget key size ptr =>
              simp only [step, shmget, if_true]
              split
              · exact Nat.le_succ _
              · split <;> simp
          | shmat shmid => exact Nat.le_succ _
          | shmdt addr => exact Nat.le_succ _
          | shmctl shmid cmd buf =>
              have herase := (List.eraseP_sublist (l := run front) (p := fun seg => seg.id = shmid))
              simp only [step, shmctl]
              split
              · split
                · split
                  · exact Nat.le_succ_of_le herase.length_le
                  · split <;> exact Nat.le_succ _
                · exact Nat.le_succ _
              · exact Nat.le_succ _
        rw [run_concat, List.length_append, List.length_singleton]
        omega
  intro front call hpre
  have hlt := hpre.length_le
  rw [List.length_append, List.length_singleton] at hlt
  have hfront := hrun front
  cases call <;> simp only [Room]
  omega

/-- Two private segments, of which the second goes, and a third. -/
def lastRemoved : List Call :=
  [.shmget 0 8 4096, .shmget 0 8 8192, .shmctl 0x47560001 ipcRmid false, .shmget 0 8 12288]

/-- The same with the first in place of the second: the third segment gets
the id of the second. -/
def firstRemoved : List Call :=
  [.shmget 0 8 4096, .shmget 0 8 8192, .shmctl 0x47560000 ipcRmid false, .shmget 0 8 12288]

/-- A key that comes back with a greater size. -/
def outgrown : List Call := [.shmget 5 8 4096, .shmget 5 65536 8192]

theorem keepsIdentity_iff_lastRemoved :
    (∀ front, front <+: lastRemoved → KeepsIdentity front) ↔ EachCall Sound lastRemoved :=
  keepsIdentity_iff lastRemoved (room_of_length_le (by decide))

theorem not_keepsIdentity_firstRemoved :
    ¬ (∀ calls, EachCall Room calls → KeepsIdentity calls) ∧
      ¬ KeepsIdentity firstRemoved ∧ ¬ KeepsIdentity outgrown := by
  have hids : ¬ KeepsIdentity firstRemoved := by
    intro h
    exact absurd h.distinct (by decide)
  refine ⟨fun h => hids (h _ (room_of_length_le (by decide))), hids, ?_⟩
  intro h
  have hissued : Issued outgrown 0x47560000 65536 ⟨5, 0x47560000, 4096, 8⟩ :=
    ⟨[.shmget 5 8 4096], 5, 8192, [], rfl, by decide, by decide, by simp⟩
  exact absurd (h.stands _ _ _ hissued).large (by decide)

end GovFuzz.Runtrace.Sysv
