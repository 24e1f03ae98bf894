import GovFuzz.Corpus.Retention

/-!
# Corpus — what a failed update leaves behind

`record` marks a signature as seen before it reserves room and writes
files, and no error takes the mark back.  A failure in between is final:
the manager calls the signature a duplicate from then on.  Where nothing
fails in between, a duplicate is a signature whose reproducer is on disk or
that the limits had no room for.
-/

namespace GovFuzz.Corpus

open GovFuzz.EventLog
open GovFuzz.Lib

/-! ## A mark is never taken back -/

def Session.Seen (key : String × String) (s : Session) : Prop :=
  key ∈ s.manager.seenUnpersisted

section

variable {key : String × String}

theorem seen_onDisk {α : Type} (op : Op Disk FileError α) :
    (onDisk op).Keeps (Session.Seen key) := fun _ h => h

theorem seen_reserve (allocated : Path → Entry → Nat) (harnessId : String) (queueEntries : Nat)
    (fileLengths : List Nat) :
    (reserve allocated harnessId queueEntries fileLengths).Keeps (Session.Seen key) := by
  intro s hs
  have hsame := keeps_reserve allocated harnessId queueEntries fileLengths s (Session.Same.refl s)
  rw [Session.Seen, hsame.seen]
  exact hs

theorem seen_writeAll (files : List (Path × List UInt8)) :
    (writeAll files).Keeps (Session.Seen key) := by
  induction files with
  | nil => exact Op.Keeps.pure ()
  | cons file files ih => exact (seen_onDisk _).bind fun _ => ih

theorem seen_markSeen (harnessId hex : String) :
    (markSeen harnessId hex).Keeps (Session.Seen key) :=
  fun _ h => List.mem_cons_of_mem _ h

end

section

variable {key : String × String} (allocated : Path → Entry → Nat) (harnessId : String)
  (input : List UInt8)

/-- What follows the mark in the branch for a new signature. -/
theorem seen_reserve_write (files : List (Path × List UInt8)) :
    (do
      if ← reserve allocated harnessId 1 (files.map fun file => file.2.length) then
        writeAll files
        pure .kept
      else pure .refused : Op Session FileError Outcome).Keeps (Session.Seen key) := by
  refine (seen_reserve _ _ _ _).bind fun room => ?_
  split
  · exact (seen_writeAll files).bind fun _ => Op.Keeps.pure _
  · exact Op.Keeps.pure _

theorem seen_recordNew (hex : String) (swallowed : Bool) :
    (recordNew allocated harnessId input hex swallowed).Keeps (Session.Seen key) :=
  (seen_markSeen _ _).bind fun _ => seen_reserve_write allocated harnessId _

/-- Whatever becomes of a new signature, it is marked. -/
theorem recordNew_marks (hex : String) (swallowed : Bool) (s : Session) :
    ((recordNew allocated harnessId input hex swallowed).exec s).2.Seen (harnessId, hex) :=
  seen_reserve_write allocated harnessId _ _ List.mem_cons_self

theorem seen_recordOne (found : Signature × Classification) :
    (recordOne allocated harnessId input found).Keeps (Session.Seen key) := by
  refine (seen_onDisk _).bind fun known => Op.Keeps.get fun s hs => ?_
  split
  · exact hs
  · exact seen_recordNew allocated harnessId input _ _ s hs

theorem seen_createDirs : (createDirs harnessId).Keeps (Session.Seen key) :=
  (seen_onDisk _).bind fun _ => (seen_onDisk _).bind fun _ => seen_onDisk _

end

/-! ## Stopping at a new signature -/

section

variable (allocated : Path → Entry → Nat) (sha256 : List UInt8 → Signature) (harnessId : String)
  (input : List UInt8)

/-- The signature at which the loop of `record` stopped, if it did. -/
def stoppedAt : List (Signature × Classification) → Session → Option (Signature × Classification)
  | [], _ => none
  | found :: rest, s =>
      match (recordOne allocated harnessId input found).exec s with
      | (.error _, _) => some found
      | (.ok _, t) => stoppedAt rest t

/-- The signature that `record` found to be new and failed to store. -/
def recordStoppedAt (events : List Event) (s : Session) : Option (Signature × Classification) :=
  match (createDirs harnessId).exec s with
  | (.error _, _) => none
  | (.ok _, t) => stoppedAt allocated harnessId input (foundSignatures sha256 events) t

/-- The same disk, with nothing failing from now on. -/
def Session.working (s : Session) : Session :=
  { s with disk := { s.disk with faults := [] } }

/-- A signature that `record` failed to store is New when the same events
are recorded again on a disk that works, and then its files are there. -/
def Retryable (events : List Event) (s : Session) : Prop :=
  ∀ found, recordStoppedAt allocated sha256 harnessId input events s = some found →
    ∃ answers t,
      (record allocated sha256 harnessId input events).exec
          ((record allocated sha256 harnessId input events).exec s).2.working = (.ok answers, t)
      ∧ (∃ again ∈ signatureRecords answers,
          again.signature = found.1 ∧ again.signatureClass = .new)
      ∧ ∀ file ∈ reproducerFiles harnessId found.1.hex input (isSwallowed found.2),
          t.disk.tree.lookup file.1 = some (.file file.2)

/-- The loop only fails once the signature at hand is marked. -/
theorem recordOne_marks {found : Signature × Classification} {s t : Session} {e : FileError}
    (h : (recordOne allocated harnessId input found).exec s = (.error e, t)) :
    t.Seen (harnessId, found.1.hex) := by
  unfold recordOne at h
  rw [Op.exec_bind_ok (exec_onDisk _ s), Op.exec_bind_ok (Op.exec_get _)] at h
  split at h
  · cases h
  · have := recordNew_marks allocated harnessId input found.1.hex (isSwallowed found.2)
      { s with disk := ((Disk.exists (sigPath harnessId found.1.hex)).exec s.disk).2 }
    rwa [h] at this

theorem stoppedAt_marks {rest : List (Signature × Classification)} {s : Session}
    {found : Signature × Classification}
    (h : stoppedAt allocated harnessId input rest s = some found) :
    ((recordAll allocated harnessId input rest).exec s).2.Seen (harnessId, found.1.hex) := by
  induction rest generalizing s with
  | nil => cases h
  | cons first rest ih =>
      obtain ⟨out, t, hfirst⟩ :
          ∃ out t, (recordOne allocated harnessId input first).exec s = (out, t) := ⟨_, _, rfl⟩
      simp only [stoppedAt, hfirst] at h
      unfold recordAll
      cases out with
      | error e =>
          simp only [Option.some.injEq] at h
          subst h
          rw [Op.exec_bind_error hfirst]
          exact recordOne_marks allocated harnessId input hfirst
      | ok outcome =>
          rw [Op.exec_bind_ok hfirst]
          rw [Op.exec_bind_pure_state]
          exact ih h

theorem record_marks {events : List Event} {s : Session} {found : Signature × Classification}
    (h : recordStoppedAt allocated sha256 harnessId input events s = some found) :
    ((record allocated sha256 harnessId input events).exec s).2.Seen
      (harnessId, found.1.hex) := by
  obtain ⟨out, t, hdirs⟩ : ∃ out t, (createDirs harnessId).exec s = (out, t) := ⟨_, _, rfl⟩
  simp only [recordStoppedAt, hdirs] at h
  cases out with
  | error e => cases h
  | ok _ =>
      unfold record
      rw [Op.exec_bind_ok hdirs]
      exact stoppedAt_marks allocated harnessId input h

/-- A marked signature is a duplicate. -/
theorem recordOne_of_seen {found : Signature × Classification} {s : Session}
    (h : s.Seen (harnessId, found.1.hex)) :
    ((recordOne allocated harnessId input found).exec s).1 = .ok .duplicate := by
  have hcontains : s.manager.seenUnpersisted.contains (harnessId, found.1.hex) = true :=
    List.contains_iff_mem.mpr h
  unfold recordOne
  rw [Op.exec_bind_ok (exec_onDisk _ s), Op.exec_bind_ok (Op.exec_get _)]
  simp only [hcontains, Bool.or_true, if_true]
  rfl

/-- So are all its occurrences in a list. -/
theorem recordAll_of_seen {hex : String} {rest : List (Signature × Classification)}
    {s t : Session} {answers : List ((Signature × Classification) × Outcome)}
    (h : s.Seen (harnessId, hex))
    (hrun : (recordAll allocated harnessId input rest).exec s = (.ok answers, t)) :
    ∀ answer ∈ answers, answer.1.1.hex = hex → answer.2 = .duplicate := by
  induction rest generalizing s t answers with
  | nil =>
      obtain ⟨rfl, -⟩ : [] = answers ∧ s = t := by simpa [recordAll] using hrun
      simp
  | cons first rest ih =>
      unfold recordAll at hrun
      obtain ⟨outcome, u, hfirst, hrun⟩ := Op.exec_bind_eq_ok hrun
      obtain ⟨later, v, hrest, hrun⟩ := Op.exec_bind_eq_ok hrun
      obtain ⟨rfl, -⟩ : (first, outcome) :: later = answers ∧ v = t := by simpa using hrun
      have hu : u.Seen (harnessId, hex) := by
        have := seen_recordOne allocated harnessId input first s h
        rwa [hfirst] at this
      intro answer hanswer heq
      rcases List.mem_cons.mp hanswer with rfl | hanswer
      · have hseen : s.Seen (harnessId, first.1.hex) := heq ▸ h
        have := recordOne_of_seen allocated harnessId input hseen
        rw [hfirst] at this
        exact Except.ok.inj this
      · exact ih hu hrest answer hanswer heq

theorem record_of_seen {hex : String} {events : List Event} {s t : Session}
    {answers : List ((Signature × Classification) × Outcome)} (h : s.Seen (harnessId, hex))
    (hrun : (record allocated sha256 harnessId input events).exec s = (.ok answers, t)) :
    ∀ answer ∈ answers, answer.1.1.hex = hex → answer.2 = .duplicate := by
  unfold record at hrun
  obtain ⟨_, u, hdirs, hrun⟩ := Op.exec_bind_eq_ok hrun
  have hu : u.Seen (harnessId, hex) := by
    have := seen_createDirs harnessId s h
    rwa [hdirs] at this
  exact recordAll_of_seen allocated harnessId input hu hrun

/-- A failed update can be retried exactly when there was no failure to
retry: whenever `record` stops at a new signature, the mark stays and the
next call takes it for a duplicate. -/
theorem retryable_iff (events : List Event) (s : Session) :
    Retryable allocated sha256 harnessId input events s
      ↔ recordStoppedAt allocated sha256 harnessId input events s = none := by
  constructor
  · intro hretry
    cases hstopped : recordStoppedAt allocated sha256 harnessId input events s with
    | none => rfl
    | some found =>
        obtain ⟨answers, t, hrun, ⟨again, hagain, hsig, hnew⟩, -⟩ := hretry found hstopped
        have hmarked : ((record allocated sha256 harnessId input events).exec s).2.working.Seen
            (harnessId, found.1.hex) := record_marks allocated sha256 harnessId input hstopped
        obtain ⟨answer, hanswer, rfl⟩ := List.mem_map.mp hagain
        have hdup := record_of_seen allocated sha256 harnessId input hmarked hrun answer hanswer
          (congrArg Signature.hex hsig)
        simp only [hdup, Outcome.signatureClass] at hnew
        cases hnew
  · intro hnone found hstopped
    rw [hnone] at hstopped
    cases hstopped

end

/-! ## What a duplicate stands for -/

/-- The reproducer of a signature is in the queue. -/
def Session.Present (s : Session) (harnessId hex : String) : Prop :=
  ∃ contents, s.disk.tree.lookup (queuePath harnessId hex) = some (.file contents)

/-- A marker has its reproducer, and a signature seen has its reproducer
or was refused. -/
structure Session.Sound (s : Session) (refused : List (String × String)) : Prop where
  marked : ∀ harnessId hex, (s.disk.tree.lookup (sigPath harnessId hex)).isSome →
    s.Present harnessId hex
  seen : ∀ key ∈ s.manager.seenUnpersisted, s.Present key.1 key.2 ∨ key ∈ refused

theorem Session.Sound.of_same {s t : Session} {refused : List (String × String)}
    (h : s.Sound refused) (hsame : s.Same t) : t.Sound refused := by
  refine ⟨?_, ?_⟩
  · simpa only [Session.Present, hsame.tree] using h.marked
  · simpa only [Session.Present, hsame.tree, hsame.seen] using h.seen

/-- New directories above the files change nothing. -/
theorem Session.Sound.createDirAll {s : Session} {refused : List (String × String)}
    (h : s.Sound refused) {path : Path} (hpath : path.length < 4) :
    ((onDisk (Disk.createDirAll path)).exec s).2.Sound refused := by
  have hfile : ∀ other : Path, other.length = 4 →
      ((Disk.createDirAll path).exec s.disk).2.tree.lookup other = s.disk.tree.lookup other :=
    fun other hother => lookup_createDirAll hpath hother s.disk
  refine ⟨?_, ?_⟩
  · intro harnessId hex hmarked
    simp only [exec_onDisk, Session.Present,
      hfile _ (show (sigPath harnessId hex).length = 4 from rfl),
      hfile _ (show (queuePath harnessId hex).length = 4 from rfl)] at hmarked ⊢
    exact h.marked harnessId hex hmarked
  · intro key hkey
    simp only [exec_onDisk, Session.Present,
      hfile _ (show (queuePath key.1 key.2).length = 4 from rfl)]
    exact h.seen key hkey

theorem Session.Sound.createDirs {s : Session} {refused : List (String × String)}
    (h : s.Sound refused) (harnessId : String) :
    ((createDirs harnessId).exec s).2.Sound refused := by
  have hkeeps : ∀ path : Path, path.length < 4 →
      (onDisk (Disk.createDirAll path)).Keeps (fun s => s.Sound refused) :=
    fun path hpath s hs => hs.createDirAll hpath
  exact ((hkeeps (sigsDir harnessId) (by simp [sigsDir])).bind fun _ =>
    (hkeeps (queueDir harnessId) (by simp [queueDir])).bind fun _ =>
      hkeeps (swallowedDir harnessId) (by simp [swallowedDir])) s h

theorem sigPath_ne_queuePath (harnessId hex harnessId' hex' : String) :
    sigPath harnessId hex ≠ queuePath harnessId' hex' := by
  simp [sigPath, queuePath]

/-- Written files keep everything sound when the marker's reproducer is
among them. -/
theorem Session.Sound.writeAll {s t : Session} {refused : List (String × String)}
    (hmarked : ∀ harnessId hex, (s.disk.tree.lookup (sigPath harnessId hex)).isSome →
      s.Present harnessId hex)
    {harnessId hex : String} {input : List UInt8} {swallowed : Bool}
    (hseen : ∀ key ∈ s.manager.seenUnpersisted,
      key = (harnessId, hex) ∨ s.Present key.1 key.2 ∨ key ∈ refused)
    (h : (writeAll (reproducerFiles harnessId hex input swallowed)).exec s = (.ok (), t)) :
    t.Sound refused := by
  have hmem : (queuePath harnessId hex)
      ∈ (reproducerFiles harnessId hex input swallowed).map Prod.fst := by
    simp [reproducerFiles]
  have hpresent : t.Present harnessId hex := by
    rcases exec_writeAll h (queuePath harnessId hex) with ⟨contents, -, hlookup⟩ | ⟨hnot, -⟩
    · exact ⟨contents, hlookup⟩
    · exact absurd hmem hnot
  have hkeeps : ∀ harnessId' hex', s.Present harnessId' hex' → t.Present harnessId' hex' := by
    intro harnessId' hex' ⟨contents, hcontents⟩
    rcases exec_writeAll h (queuePath harnessId' hex') with ⟨written, -, hlookup⟩ | ⟨-, hlookup⟩
    · exact ⟨written, hlookup⟩
    · exact ⟨contents, hlookup.trans hcontents⟩
  have hmanager : t.manager = s.manager := (exec_writeAll_state h).1
  refine ⟨?_, ?_⟩
  · intro harnessId' hex' hsome
    rcases exec_writeAll h (sigPath harnessId' hex') with ⟨written, hwritten, -⟩ | ⟨-, hlookup⟩
    · -- the only marker among the files is the signature's own
      have hpath := List.mem_map_of_mem (f := Prod.fst) hwritten
      have hsame : harnessId' = harnessId ∧ hex' = hex := by
        cases swallowed <;>
          simpa [reproducerFiles, sigPath, queuePath, swallowedPath] using hpath
      rw [hsame.1, hsame.2]
      exact hpresent
    · exact hkeeps _ _ (hmarked harnessId' hex' (hlookup ▸ hsome))
  · intro key hkey
    rcases hseen key (hmanager ▸ hkey) with rfl | hold | hrefused
    · exact .inl hpresent
    · exact .inl (hkeeps _ _ hold)
    · exact .inr hrefused

/-- The signatures of a harness that were refused, among these answers. -/
def refusals (harnessId : String) (answers : List ((Signature × Classification) × Outcome)) :
    List (String × String) :=
  (answers.filter fun answer => answer.2 = .refused).map fun answer =>
    (harnessId, answer.1.1.hex)

section

variable (allocated : Path → Entry → Nat) (sha256 : List UInt8 → Signature) (harnessId : String)
  (input : List UInt8)

/-- One signature: soundness is kept, and a duplicate is accounted for. -/
theorem Session.Sound.recordOne {s t : Session} {refused : List (String × String)}
    (h : s.Sound refused) {found : Signature × Classification} {outcome : Outcome}
    (hrun : (recordOne allocated harnessId input found).exec s = (.ok outcome, t)) :
    t.Sound (refused ++ refusals harnessId [(found, outcome)])
      ∧ (outcome = .duplicate →
          t.Present harnessId found.1.hex ∨ (harnessId, found.1.hex) ∈ refused) := by
  unfold GovFuzz.Corpus.recordOne at hrun
  rw [Op.exec_bind_ok (exec_onDisk _ s), Op.exec_bind_ok (Op.exec_get _)] at hrun
  have hread : s.Same { s with
      disk := ((Disk.exists (sigPath harnessId found.1.hex)).exec s.disk).2 } :=
    keeps_onDisk (fun _ _ => Disk.keeps_exists _) s (Session.Same.refl s)
  have hs := h.of_same hread
  generalize hstart : ({ s with
      disk := ((Disk.exists (sigPath harnessId found.1.hex)).exec s.disk).2 } : Session) = s₁
    at hrun hread hs
  split at hrun
  case isTrue hknown =>
    obtain ⟨rfl, rfl⟩ : Outcome.duplicate = outcome ∧ s₁ = t := by simpa using hrun
    refine ⟨by simpa [refusals] using hs, fun _ => ?_⟩
    rcases (Bool.or_eq_true _ _).mp hknown with hexists | hcontains
    · -- a look at the disk that says yes saw the marker
      refine .inl (hs.marked _ _ ?_)
      simp only [Bool.and_eq_true] at hexists
      rw [hread.tree]
      exact hexists.2
    · exact hs.seen _ (List.contains_iff_mem.mp hcontains)
  case isFalse hnew =>
    unfold recordNew at hrun
    obtain ⟨_, s₂, hmark, hrun⟩ := Op.exec_bind_eq_ok hrun
    obtain ⟨room, s₃, hreserve, hrun⟩ := Op.exec_bind_eq_ok hrun
    have hroom : s₂.Same s₃ := by
      have := keeps_reserve allocated harnessId 1
        ((reproducerFiles harnessId found.1.hex input (isSwallowed found.2)).map
          fun file => file.2.length) s₂ (Session.Same.refl s₂)
      rwa [hreserve] at this
    obtain rfl : { s₁ with manager := { s₁.manager with
        seenUnpersisted := (harnessId, found.1.hex) :: s₁.manager.seenUnpersisted } } = s₂ :=
      (Prod.mk.inj hmark).2
    have hseen : ∀ key ∈ s₃.manager.seenUnpersisted,
        key = (harnessId, found.1.hex) ∨ s₃.Present key.1 key.2 ∨ key ∈ refused := by
      intro key hkey
      rw [hroom.seen] at hkey
      rcases List.mem_cons.mp hkey with rfl | hkey
      · exact .inl rfl
      · simp only [Session.Present, hroom.tree]
        exact .inr (hs.seen key hkey)
    have hmarked : ∀ harnessId hex, (s₃.disk.tree.lookup (sigPath harnessId hex)).isSome →
        s₃.Present harnessId hex := by
      simpa only [Session.Present, hroom.tree] using hs.marked
    cases room with
    | true =>
        obtain ⟨_, s₄, hwrite, hrun⟩ := Op.exec_bind_eq_ok hrun
        obtain ⟨rfl, rfl⟩ : Outcome.kept = outcome ∧ s₄ = t := by simpa using hrun
        refine ⟨?_, by simp⟩
        have := Session.Sound.writeAll hmarked hseen hwrite
        simpa [refusals] using this
    | false =>
        obtain ⟨rfl, rfl⟩ : Outcome.refused = outcome ∧ s₃ = t := by simpa using hrun
        refine ⟨⟨hmarked, ?_⟩, by simp⟩
        intro key hkey
        rcases hseen key hkey with rfl | hold | hrefused
        · exact .inr (by simp [refusals])
        · exact .inl hold
        · exact .inr (List.mem_append_left _ hrefused)

theorem refusals_append (first second : List ((Signature × Classification) × Outcome)) :
    refusals harnessId (first ++ second)
      = refusals harnessId first ++ refusals harnessId second := by
  simp [refusals]

/-- A file in the queue stays one, whatever is written. -/
theorem present_write {harnessId' hex : String} (path : Path) (contents : List UInt8) :
    (onDisk (Disk.write path contents)).Keeps (fun s => s.Present harnessId' hex) := by
  intro s ⟨old, hold⟩
  rw [exec_onDisk]
  rcases Disk.exec_write path contents s.disk with ⟨e, -, htree, -⟩ | ⟨-, hthere, hothers, -⟩
  · exact ⟨old, by rw [htree]; exact hold⟩
  · by_cases heq : queuePath harnessId' hex = path
    · exact ⟨contents, by rw [heq]; exact hthere⟩
    · exact ⟨old, (hothers _ heq).trans hold⟩

theorem present_writeAll {harnessId' hex : String} (files : List (Path × List UInt8)) :
    (GovFuzz.Corpus.writeAll files).Keeps (fun s => s.Present harnessId' hex) := by
  induction files with
  | nil => exact Op.Keeps.pure ()
  | cons file files ih => exact (present_write file.1 file.2).bind fun _ => ih

theorem present_reserve {harnessId' hex : String} (queueEntries : Nat)
    (fileLengths : List Nat) :
    (reserve allocated harnessId queueEntries fileLengths).Keeps
      (fun s => s.Present harnessId' hex) := by
  intro s hs
  have hsame := keeps_reserve allocated harnessId queueEntries fileLengths s (Session.Same.refl s)
  rw [Session.Present, hsame.tree]
  exact hs

theorem present_recordOne {harnessId' hex : String} (found : Signature × Classification) :
    (GovFuzz.Corpus.recordOne allocated harnessId input found).Keeps
      (fun s => s.Present harnessId' hex) := by
  refine Op.Keeps.bind (fun _ h => h) fun known => Op.Keeps.get fun s hs => ?_
  split
  · exact hs
  · refine (Op.Keeps.bind (fun _ h => h) fun _ =>
      (present_reserve allocated harnessId 1 _).bind fun room => ?_) s hs
    split
    · exact (present_writeAll _).bind fun _ => Op.Keeps.pure _
    · exact Op.Keeps.pure _

theorem present_recordAll {harnessId' hex : String}
    (rest : List (Signature × Classification)) :
    (GovFuzz.Corpus.recordAll allocated harnessId input rest).Keeps
      (fun s => s.Present harnessId' hex) := by
  induction rest with
  | nil => exact Op.Keeps.pure _
  | cons found rest ih =>
      exact (present_recordOne allocated harnessId input found).bind fun _ =>
        ih.bind fun _ => Op.Keeps.pure _

/-- A whole event list. -/
theorem Session.Sound.recordAll {rest : List (Signature × Classification)} {s t : Session}
    {refused : List (String × String)} (h : s.Sound refused)
    {answers : List ((Signature × Classification) × Outcome)}
    (hrun : (recordAll allocated harnessId input rest).exec s = (.ok answers, t)) :
    t.Sound (refused ++ refusals harnessId answers)
      ∧ ∀ answer ∈ answers, answer.2 = .duplicate →
          t.Present harnessId answer.1.1.hex
            ∨ (harnessId, answer.1.1.hex) ∈ refused ++ refusals harnessId answers := by
  induction rest generalizing s t refused answers with
  | nil =>
      obtain ⟨rfl, rfl⟩ : [] = answers ∧ s = t := by
        simpa [GovFuzz.Corpus.recordAll] using hrun
      simpa [refusals] using h
  | cons first rest ih =>
      unfold GovFuzz.Corpus.recordAll at hrun
      obtain ⟨outcome, u, hfirst, hrun⟩ := Op.exec_bind_eq_ok hrun
      obtain ⟨later, v, hrest, hrun⟩ := Op.exec_bind_eq_ok hrun
      obtain ⟨rfl, rfl⟩ : (first, outcome) :: later = answers ∧ v = t := by simpa using hrun
      obtain ⟨hsound, hdup⟩ := h.recordOne allocated harnessId input hfirst
      obtain ⟨hall, hlater⟩ := ih hsound hrest
      rw [List.append_assoc, ← refusals_append, List.singleton_append] at hall hlater
      refine ⟨hall, ?_⟩
      intro answer hanswer houtcome
      rcases List.mem_cons.mp hanswer with rfl | hanswer
      · rcases hdup houtcome with hpresent | hrefused
        · have := present_recordAll allocated harnessId input rest u hpresent
          rw [hrest] at this
          exact .inl this
        · exact .inr (List.mem_append_left _ hrefused)
      · exact hlater answer hanswer houtcome

theorem recordAll_ok_of_stoppedAt {rest : List (Signature × Classification)} {s : Session}
    (h : stoppedAt allocated harnessId input rest s = none) :
    ∃ answers, ((GovFuzz.Corpus.recordAll allocated harnessId input rest).exec s).1
      = .ok answers := by
  induction rest generalizing s with
  | nil => exact ⟨[], rfl⟩
  | cons first rest ih =>
      obtain ⟨out, t, hfirst⟩ :
          ∃ out t, (GovFuzz.Corpus.recordOne allocated harnessId input first).exec s = (out, t) :=
        ⟨_, _, rfl⟩
      simp only [stoppedAt, hfirst] at h
      cases out with
      | error e => cases h
      | ok outcome =>
          obtain ⟨answers, hanswers⟩ := ih h
          unfold GovFuzz.Corpus.recordAll
          rw [Op.exec_bind_ok hfirst, Op.exec_bind_ok (Prod.ext hanswers rfl)]
          exact ⟨_, rfl⟩

/-- A file put in the queue disturbs nothing. -/
theorem Session.Sound.write_queue {s : Session} {refused : List (String × String)}
    (h : s.Sound refused) (hex : String) (contents : List UInt8) :
    ((onDisk (Disk.write (queuePath harnessId hex) contents)).exec s).2.Sound refused := by
  have hpresent : ∀ harnessId' hex', s.Present harnessId' hex' →
      ((onDisk (Disk.write (queuePath harnessId hex) contents)).exec s).2.Present harnessId' hex' :=
    fun harnessId' hex' => present_write _ _ s
  refine ⟨?_, fun key hkey => (h.seen key hkey).imp_left (hpresent _ _)⟩
  intro harnessId' hex' hsome
  refine hpresent _ _ (h.marked _ _ ?_)
  rw [exec_onDisk] at hsome
  rcases Disk.exec_write (queuePath harnessId hex) contents s.disk with
    ⟨e, -, htree, -⟩ | ⟨-, -, hothers, -⟩
  · rwa [htree] at hsome
  · rwa [hothers _ (sigPath_ne_queuePath _ _ _ _)] at hsome

theorem keeps_sound_persistOne {refused : List (String × String)} (bytes : List UInt8) :
    (persistOne allocated sha256 harnessId bytes).Keeps (fun s => s.Sound refused) := by
  have hread : ∀ {α : Type} {op : Op Session FileError α},
      (∀ s : Session, op.Keeps s.Same) → op.Keeps (fun s => s.Sound refused) :=
    fun hop s hs => hs.of_same (hop s s (Session.Same.refl s))
  unfold persistOne
  split
  · exact Op.Keeps.pure _
  · refine (hread fun s => keeps_onDisk fun _ _ => Disk.keeps_exists _).bind fun found => ?_
    split
    · exact Op.Keeps.pure _
    · refine (hread fun s => keeps_reserve _ _ _ _).bind fun room => ?_
      split
      · exact Op.Keeps.bind (fun s hs => hs.write_queue harnessId _ bytes) fun _ => Op.Keeps.pure _
      · exact Op.Keeps.pure _

theorem keeps_sound_persist {refused : List (String × String)} (inputs : List (List UInt8)) :
    (persistCoverageCorpus allocated sha256 harnessId inputs).Keeps
      (fun s => s.Sound refused) := by
  refine Op.Keeps.bind (fun s hs => hs.createDirAll (by simp [queueDir])) fun _ => ?_
  induction inputs with
  | nil => exact Op.Keeps.pure _
  | cons bytes inputs ih =>
      exact (keeps_sound_persistOne allocated sha256 harnessId bytes).bind fun _ =>
        ih.bind fun _ => Op.Keeps.pure _

end

/-! ## Runs in which nothing fails in between -/

def Session.withFaults (s : Session) (faults : List Bool) : Session :=
  { s with disk := { s.disk with faults } }

/-- The states of a manager that has seen nothing yet on a disk whose
markers all have their reproducer, after any calls with any failures but
those at the files of a new signature; and what was refused on the way. -/
inductive Reachable (allocated : Path → Entry → Nat) (sha256 : List UInt8 → Signature) :
    Session → List (String × String) → Prop
  | start (s : Session) (hseen : s.manager.seenUnpersisted = [])
      (hmarked : ∀ harnessId hex, (s.disk.tree.lookup (sigPath harnessId hex)).isSome →
        s.Present harnessId hex) : Reachable allocated sha256 s []
  | failedRecord {s t : Session} {refused : List (String × String)}
      (hbefore : Reachable allocated sha256 s refused) (faults : List Bool) (harnessId : String)
      (input : List UInt8) (events : List Event) (e : FileError)
      (hstored : recordStoppedAt allocated sha256 harnessId input events (s.withFaults faults)
        = none)
      (hrun : (record allocated sha256 harnessId input events).exec (s.withFaults faults)
        = (.error e, t)) : Reachable allocated sha256 t refused
  | record {s t : Session} {refused : List (String × String)}
      (hbefore : Reachable allocated sha256 s refused) (faults : List Bool) (harnessId : String)
      (input : List UInt8) (events : List Event)
      (answers : List ((Signature × Classification) × Outcome))
      (hrun : (record allocated sha256 harnessId input events).exec (s.withFaults faults)
        = (.ok answers, t)) :
      Reachable allocated sha256 t (refused ++ refusals harnessId answers)
  | persist {s : Session} {refused : List (String × String)}
      (hbefore : Reachable allocated sha256 s refused) (faults : List Bool) (harnessId : String)
      (inputs : List (List UInt8)) :
      Reachable allocated sha256
        ((persistCoverageCorpus allocated sha256 harnessId inputs).exec (s.withFaults faults)).2
        refused

section

variable {allocated : Path → Entry → Nat} {sha256 : List UInt8 → Signature}

theorem Session.Sound.withFaults {s : Session} {refused : List (String × String)}
    (h : s.Sound refused) (faults : List Bool) : (s.withFaults faults).Sound refused :=
  ⟨h.marked, h.seen⟩

theorem Session.Sound.record {s t : Session} {refused : List (String × String)}
    (h : s.Sound refused) {harnessId : String} {input : List UInt8} {events : List Event}
    {answers : List ((Signature × Classification) × Outcome)}
    (hrun : (record allocated sha256 harnessId input events).exec s = (.ok answers, t)) :
    t.Sound (refused ++ refusals harnessId answers)
      ∧ ∀ answer ∈ answers, answer.2 = .duplicate →
          t.Present harnessId answer.1.1.hex
            ∨ (harnessId, answer.1.1.hex) ∈ refused ++ refusals harnessId answers := by
  unfold GovFuzz.Corpus.record at hrun
  obtain ⟨_, u, hdirs, hrun⟩ := Op.exec_bind_eq_ok hrun
  have hu : u.Sound refused := by
    have := h.createDirs harnessId
    rwa [hdirs] at this
  exact hu.recordAll allocated harnessId input hrun

/-- Every reachable state is sound. -/
theorem Reachable.sound {s : Session} {refused : List (String × String)}
    (h : Reachable allocated sha256 s refused) : s.Sound refused := by
  induction h with
  | start s hseen hmarked => exact ⟨hmarked, by simp [hseen]⟩
  | @failedRecord s t refused hbefore faults harnessId input events e hstored hrun ih =>
      -- the error came from making the directories
      have hs := ih.withFaults faults
      obtain ⟨out, u, hdirs⟩ :
          ∃ out u, (createDirs harnessId).exec (s.withFaults faults) = (out, u) := ⟨_, _, rfl⟩
      simp only [recordStoppedAt, hdirs] at hstored
      unfold GovFuzz.Corpus.record at hrun
      cases out with
      | error e' =>
          rw [Op.exec_bind_error hdirs] at hrun
          have := hs.createDirs harnessId
          rw [hdirs] at this
          rwa [← (Prod.mk.inj hrun).2]
      | ok _ =>
          obtain ⟨answers, hanswers⟩ := recordAll_ok_of_stoppedAt allocated harnessId input hstored
          rw [Op.exec_bind_ok hdirs] at hrun
          rw [hrun] at hanswers
          cases hanswers
  | record hbefore faults harnessId input events answers hrun ih =>
      exact ((ih.withFaults faults).record hrun).1
  | persist hbefore faults harnessId inputs ih =>
      exact keeps_sound_persist allocated sha256 harnessId inputs _ (ih.withFaults faults)

end

/-- In every state, a call of `record` can be retried exactly when none of
the file operations it makes for a new signature fails; and in every run
without such a failure, `record` answers Duplicate only for signatures
whose reproducer is in the queue or that the retention limits refused. -/
theorem record_retry (allocated : Path → Entry → Nat) (sha256 : List UInt8 → Signature) :
    (∀ harnessId input events s, Retryable allocated sha256 harnessId input events s
        ↔ recordStoppedAt allocated sha256 harnessId input events s = none)
      ∧ ∀ s refused, Reachable allocated sha256 s refused →
          ∀ faults harnessId input events answers t,
            (record allocated sha256 harnessId input events).exec (s.withFaults faults)
                = (.ok answers, t) →
              ∀ again ∈ signatureRecords answers, again.signatureClass = .duplicate →
                t.Present harnessId again.signature.hex
                  ∨ (harnessId, again.signature.hex) ∈ refused ++ refusals harnessId answers := by
  refine ⟨fun harnessId input events s =>
    retryable_iff allocated sha256 harnessId input events s, ?_⟩
  intro s refused hreach faults harnessId input events answers t hrun again hagain hclass
  obtain ⟨answer, hanswer, rfl⟩ := List.mem_map.mp hagain
  refine ((hreach.sound.withFaults faults).record hrun).2 answer hanswer ?_
  cases houtcome : answer.2 with
  | duplicate => rfl
  | kept => simp [houtcome, Outcome.signatureClass] at hclass
  | refused => simp [houtcome, Outcome.signatureClass] at hclass

/-! ## A write that fails -/

/-- One testcase in which the target swallows a `CONSTRAINT_ERROR`. -/
def swallowedEvents : List Event :=
  [.begin 1, .handler "CONSTRAINT_ERROR" "boom" "target.adb" 42 7 3 1, .end 0]

/-- The digest of its signature's text. -/
def swallowedDigest : Signature where
  bytes := [203, 59, 106, 203, 108, 202, 87, 223, 227, 208, 255, 28, 244, 171, 184, 144,
    75, 11, 86, 40, 162, 55, 53, 220, 120, 8, 245, 124, 17, 65, 179, 158]
  length_eq := rfl

/-- A new manager on an empty disk that draws these faults. -/
def freshSession (faults : List Bool) : Session :=
  ⟨.new, { tree := .empty, faults, journal := [] }⟩

/-- The manager's answers and state when the events are recorded. -/
def recordSwallowed (s : Session) :
    Except FileError (List ((Signature × Classification) × Outcome)) × Session :=
  (record (fun _ _ => 4096) (fun _ => swallowedDigest) "h" [1, 2] swallowedEvents).exec s

/-- The state after one recording without a fault. -/
def onceSession : Session := (recordSwallowed (freshSession [])).2.withFaults []

/-- Recorded twice without a fault: the second answer is Duplicate, and the
reproducer is there. -/
theorem record_retry_swallowed :
    Retryable (fun _ _ => 4096) (fun _ => swallowedDigest) "h" [1, 2] swallowedEvents
        (freshSession [])
      ∧ (recordSwallowed onceSession).2.Present "h" swallowedDigest.hex := by
  obtain ⟨hretry, hduplicate⟩ := record_retry (fun _ _ => 4096) (fun _ => swallowedDigest)
  refine ⟨(hretry "h" [1, 2] swallowedEvents (freshSession [])).mpr (by decide +kernel), ?_⟩
  have hstart : Reachable (fun _ _ => 4096) (fun _ => swallowedDigest) (freshSession []) [] :=
    .start _ rfl (fun harnessId hex h => by
      simp [freshSession, FileTree.empty, FileTree.lookup] at h)
  have hfirst : recordSwallowed (freshSession [])
      = (.ok [((swallowedDigest, .swallowedPredefined), .kept)],
        (recordSwallowed (freshSession [])).2) :=
    Prod.ext (by decide +kernel) rfl
  have hsecond : recordSwallowed onceSession
      = (.ok [((swallowedDigest, .swallowedPredefined), .duplicate)],
        (recordSwallowed onceSession).2) :=
    Prod.ext (by decide +kernel) rfl
  have hreach := Reachable.record hstart [] "h" [1, 2] swallowedEvents _ hfirst
  refine (hduplicate _ _ hreach [] "h" [1, 2] swallowedEvents _ _ hsecond
    { signature := swallowedDigest
      signatureClass := .duplicate
      classification := .swallowedPredefined } (by decide) rfl).resolve_right ?_
  decide

/-- The write of the marker fails: three directories are made, the marker
is not found, and the fifth operation is the write. -/
theorem not_retryable_marker_write :
    ¬ Retryable (fun _ _ => 4096) (fun _ => swallowedDigest) "h" [1, 2] swallowedEvents
      (freshSession [false, false, false, false, true]) := by
  rw [retryable_iff]
  decide +kernel

end GovFuzz.Corpus
