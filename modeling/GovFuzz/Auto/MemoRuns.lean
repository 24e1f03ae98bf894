import GovFuzz.Auto.WorkState

/-!
# Auto — runs with the closure-failure memo

Memos are loaded, asked, added to and saved while the tree changes under
them.  Beside each entry a run notes the world it was recorded in, which
nothing in the code looks at.
-/

namespace GovFuzz.Auto

/-! ## The world and what an entry depends on -/

structure World where
  sources : List Char → Option Bytes
  work : WorkDir

/-- What the verdict on a source depends on, byte for byte. -/
structure Content where
  source : Option Bytes
  models : List Char → Option Bytes
  files : List Char → List (List Char) → Option Bytes

def World.content (w : World) (source : List Char) : Content where
  source := w.sources source
  models relative := if relative ∈ modelFiles then w.work.files relative else none
  files relative path :=
    if relative ∈ sharedDirs then
      (w.work.dirs relative).bind fun entries => Node.fileAt path (.dir entries)
    else none

/-- What an entry was recorded for, and where. -/
structure Recording where
  world : World
  force : Bool
  source : List Char

/-! ## Steps -/

/-- A memo in memory, with the mode it was loaded for. -/
structure Loaded (ε : Type) where
  memo : ClosureMemo ε
  force : Bool

structure State (ε : Type) where
  world : World
  memoFile : MemoFile ε
  checkpoint : Option WorkStateCheckpoint
  memos : Nat → Option (Loaded ε)

/-- `terminal_failure_for` changes nothing: it is asked in the states that are
reached. -/
inductive Step where
  | load (h : Nat) (force : Bool)
  | record (h : Nat) (source : List Char) (errors : List BuildErrorKind) (rounds : Nat)
  | save (h : Nat) (written : Written)
  | edit (world : World)
  | start (producer : Producer) (resume : Bool)

variable {ε : Type} (platform : Platform) (note : Recording → MemoEntry → ε)

def State.dir (s : State ε) : RunDir ε := ⟨s.world.work, s.memoFile, s.checkpoint⟩

def step (s : State ε) : Step → State ε
  | .load h force =>
      let memo := ClosureMemo.load platform s.world.work force s.memoFile
      { s with memos := Function.update s.memos h (some ⟨memo, force⟩) }
  | .record h source errors rounds =>
      match s.memos h with
      | none => s
      | some loaded =>
          let memo := loaded.memo.record (note ⟨s.world, loaded.force, source⟩) source errors rounds
          { s with memos := Function.update s.memos h (some ⟨memo, loaded.force⟩) }
  | .save h written =>
      match s.memos h with
      | none => s
      | some loaded => { s with memoFile := loaded.memo.save written s.memoFile }
  | .edit world => { s with world := world }
  | .start producer resume =>
      let dir := prepare producer resume s.dir
      { world := { s.world with work := dir.work }
        memoFile := dir.memoFile
        checkpoint := dir.checkpoint
        memos := fun _ => none }

def run (s : State ε) (steps : List Step) : State ε := steps.foldl (step platform note) s

/-- No memo yet, neither in memory nor on disk. -/
def init (w : World) : State ε := ⟨w, .absent, none, fun _ => none⟩

/-! ## Notes beside the entries -/

/-- An entry with the note of its recording. -/
structure Noted where
  recording : Recording
  entry : MemoEntry

def ClosureMemo.erase (memo : ClosureMemo Noted) : ClosureMemo MemoEntry :=
  ⟨memo.fingerprint, fun source => (memo.entries source).map Noted.entry⟩

def MemoFile.erase : MemoFile Noted → MemoFile MemoEntry
  | .absent => .absent
  | .unreadable => .unreadable
  | .holds memo => .holds memo.erase

def Loaded.erase (loaded : Loaded Noted) : Loaded MemoEntry := ⟨loaded.memo.erase, loaded.force⟩

def State.erase (s : State Noted) : State MemoEntry :=
  ⟨s.world, s.memoFile.erase, s.checkpoint, fun h => (s.memos h).map Loaded.erase⟩

/-- The steps of the code itself. -/
abbrev plainRun : State MemoEntry → List Step → State MemoEntry := run platform fun _ e => e

abbrev notedRun : State Noted → List Step → State Noted := run platform Noted.mk

theorem load_erase (work : WorkDir) (force : Bool) (file : MemoFile Noted) :
    (ClosureMemo.load platform work force file).erase
      = ClosureMemo.load platform work force file.erase := by
  have hstored : (ClosureMemo.stored file).erase = ClosureMemo.stored file.erase := by
    cases file <;> rfl
  have hprint : (ClosureMemo.stored file.erase).fingerprint
      = (ClosureMemo.stored file).fingerprint := by rw [← hstored]; rfl
  unfold ClosureMemo.load
  dsimp only
  rw [hprint]
  split
  · exact hstored
  · rfl

theorem record_erase (memo : ClosureMemo Noted) (recording : Recording) (source : List Char)
    (errors : List BuildErrorKind) (rounds : Nat) :
    (memo.record (Noted.mk recording) source errors rounds).erase
      = memo.erase.record (fun e => e) source errors rounds := by
  unfold ClosureMemo.record
  split
  · have hentries : (fun key => (Function.update memo.entries source
          (some (Noted.mk recording ⟨errors, rounds⟩)) key).map Noted.entry)
        = Function.update memo.erase.entries source (some ⟨errors, rounds⟩) := by
      funext key
      by_cases hkey : key = source
      · subst hkey
        rw [Function.update_self, Function.update_self]
        rfl
      · rw [Function.update_of_ne hkey, Function.update_of_ne hkey]
        rfl
    exact congrArg (ClosureMemo.mk memo.fingerprint) hentries
  · rfl

theorem update_erase (memos : Nat → Option (Loaded Noted)) (h : Nat) (loaded : Loaded Noted) :
    (fun h' => (Function.update memos h (some loaded) h').map Loaded.erase)
      = Function.update (fun h' => (memos h').map Loaded.erase) h (some loaded.erase) := by
  funext h'
  by_cases heq : h' = h
  · subst heq
    rw [Function.update_self, Function.update_self]
    rfl
  · rw [Function.update_of_ne heq, Function.update_of_ne heq]

def RunDir.erase (dir : RunDir Noted) : RunDir MemoEntry :=
  ⟨dir.work, dir.memoFile.erase, dir.checkpoint⟩

theorem exists_erase (file : MemoFile Noted) : file.erase.exists = file.exists := by
  cases file <;> rfl

theorem prepare_erase (producer : Producer) (resume : Bool) (dir : RunDir Noted) :
    (prepare producer resume dir).erase = prepare producer resume dir.erase := by
  have hregenerable : regenerableStateExists dir.erase = regenerableStateExists dir :=
    congrArg (_ || ·) (exists_erase dir.memoFile)
  have hfound : disposition producer resume dir.erase = disposition producer resume dir := by
    unfold disposition
    rw [hregenerable]
    rfl
  unfold prepare
  rw [hfound]
  cases disposition producer resume dir <;> rfl

/-- Nothing that is done depends on the notes. -/
theorem step_erase (s : State Noted) (a : Step) :
    (step platform Noted.mk s a).erase = step platform (fun _ e => e) s.erase a := by
  cases a with
  | load h force =>
      simp only [step, State.erase, update_erase, Loaded.erase, load_erase]
  | record h source errors rounds =>
      cases hmemo : s.memos h with
      | none => simp [step, State.erase, hmemo]
      | some loaded =>
          simp only [step, State.erase, hmemo, update_erase, Option.map_some, Loaded.erase,
            record_erase]
  | save h written =>
      cases hmemo : s.memos h with
      | none => simp [step, State.erase, hmemo]
      | some loaded =>
          simp only [step, State.erase, hmemo, Option.map_some, Loaded.erase]
          cases written <;> rfl
  | edit world => rfl
  | start producer resume =>
      have hprepare := prepare_erase producer resume s.dir
      have hdir : s.dir.erase = s.erase.dir := rfl
      rw [hdir] at hprepare
      simp only [step, ← hprepare]
      simp only [State.erase, RunDir.erase, Option.map_none]

theorem run_erase (steps : List Step) : ∀ s : State Noted,
    (notedRun platform s steps).erase = plainRun platform s.erase steps := by
  induction steps with
  | nil => intro s; rfl
  | cons a steps ih =>
      intro s
      have hstep := step_erase platform s a
      exact (ih _).trans (congrArg (fun s' => plainRun platform s' steps) hstep)

end GovFuzz.Auto
