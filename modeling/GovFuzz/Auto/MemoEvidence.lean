import GovFuzz.Auto.MemoRuns

/-!
# Auto — what a remembered failure is evidence of

The fingerprint stands for everything a verdict depends on as long as no edit
brings a recording's digest back with other content, and nothing is recorded
while the digest is no longer the one the memo was loaded under.
-/

namespace GovFuzz.Auto

variable {ε : Type} (platform : Platform)

/-- Under the digest a recording was made under, its content is what it was. -/
def Recording.Stands (r : Recording) (w : World) : Prop :=
  digest platform w.work r.force = digest platform r.world.work r.force →
    w.content r.source = r.world.content r.source

/-- The memo is filed under the world as it is. -/
def Loaded.IsCurrent (loaded : Loaded ε) (w : World) : Prop :=
  loaded.memo.fingerprint = projectFingerprint platform w.work loaded.force

/-- A memo in memory or on disk. -/
def State.Live (s : State ε) (memo : ClosureMemo ε) : Prop :=
  s.memoFile = .holds memo ∨ ∃ h loaded, s.memos h = some loaded ∧ loaded.memo = memo

/-- What keeps the memo right: an edit shows in the digest of every recording
whose content it changes, errors are recorded under the digest they came up
under, and none that is not looked at is in the harness. -/
def StepOk (s : State Noted) : Step → Prop
  | .record h _ errors _ => ∀ loaded, s.memos h = some loaded → ClosureMemo.accepts errors = true →
      loaded.IsCurrent platform s.world ∧
        ∀ error ∈ errors, error.isUnread = true → error.inHarness = false
  | .edit world => ∀ memo, s.Live memo → ∀ source e, memo.entries source = some e →
      e.recording.Stands platform world
  | _ => True

def RunOk : State Noted → List Step → Prop
  | _, [] => True
  | s, a :: steps => StepOk platform s a ∧ RunOk (step platform Noted.mk s a) steps

/-! ## The property -/

structure Sound (s : State Noted) : Prop where
  /-- A memo that was loaded under the world's fingerprint speaks for it. -/
  evidence : ∀ h loaded source e, s.memos h = some loaded → loaded.IsCurrent platform s.world →
    loaded.memo.terminalFailureFor source = some e →
    e.recording.source = source ∧ e.recording.force = loaded.force ∧
      s.world.content source = e.recording.world.content source
  ofClosure : ∀ memo, s.Live memo → ∀ source e, memo.entries source = some e →
    ∀ error ∈ e.entry.errors, error.inHarness = false

/-! ## The invariant -/

/-- Where an entry of a memo comes from. -/
structure Filed (w : World) (memo : ClosureMemo Noted) (source : List Char) (e : Noted) :
    Prop where
  source_eq : e.recording.source = source
  fingerprint : memo.fingerprint
    = projectFingerprint platform e.recording.world.work e.recording.force
  stands : e.recording.Stands platform w
  ofClosure : ∀ error ∈ e.entry.errors, error.inHarness = false

def Inv (s : State Noted) : Prop :=
  ∀ memo, s.Live memo → ∀ source e, memo.entries source = some e →
    Filed platform s.world memo source e

variable {platform}

theorem inv_init (w : World) : Inv platform (init w) := by
  intro memo hlive
  obtain hfile | ⟨h, loaded, hmemo, -⟩ := hlive
  · cases hfile
  · cases hmemo

/-- A memo that is put in memory beside the others. -/
theorem live_update {s : State Noted} {h : Nat} {loaded : Loaded Noted} {memo : ClosureMemo Noted}
    (hlive : ({ s with memos := Function.update s.memos h (some loaded) } : State Noted).Live
      memo) :
    memo = loaded.memo ∨ s.Live memo := by
  obtain hfile | ⟨h', loaded', hmemo, rfl⟩ := hlive
  · exact .inr (.inl hfile)
  · by_cases heq : h' = h
    · subst heq
      have hnew := (Function.update_self h' _ s.memos).symm.trans hmemo
      exact .inl (congrArg Loaded.memo (Option.some.inj hnew).symm)
    · exact .inr (.inr ⟨h', loaded', (Function.update_of_ne heq _ s.memos).symm.trans hmemo, rfl⟩)

theorem inv_load {s : State Noted} (hinv : Inv platform s) (h : Nat) (force : Bool) :
    Inv platform (step platform Noted.mk s (.load h force)) := by
  intro memo hlive source e he
  obtain rfl | hlive := live_update hlive
  · obtain ⟨memo, hfile, hentry, hload⟩ := ClosureMemo.load_entries he
    have hfiled := hinv memo (.inl hfile) source e hentry
    dsimp only at he ⊢
    rw [hload]
    exact hfiled
  · exact hinv memo hlive source e he

theorem ofClosure_of_accepts {errors : List BuildErrorKind}
    (h : ClosureMemo.accepts errors = true)
    (hread : ∀ error ∈ errors, error.isUnread = true → error.inHarness = false) :
    ∀ error ∈ errors, error.inHarness = false := by
  intro error hmem
  have hscoped : errorsAreClosureScoped errors = true := (Bool.and_eq_true_iff.mp h).2
  cases hunread : error.isUnread with
  | true => exact hread error hmem hunread
  | false =>
    exact BuildErrorKind.inHarness_of_scoped (List.all_eq_true.mp hscoped error hmem) hunread

theorem inv_record {s : State Noted} (hinv : Inv platform s) {h : Nat} {source : List Char}
    {errors : List BuildErrorKind} {rounds : Nat}
    (hok : StepOk platform s (.record h source errors rounds)) :
    Inv platform (step platform Noted.mk s (.record h source errors rounds)) := by
  cases hmemo : s.memos h with
  | none => simpa only [step, hmemo] using hinv
  | some loaded =>
      have hlive : s.Live loaded.memo := .inr ⟨h, loaded, hmemo, rfl⟩
      simp only [step, hmemo]
      intro memo hnew source' e he
      obtain rfl | hold := live_update hnew
      · obtain he | ⟨haccepts, rfl, rfl⟩ := ClosureMemo.record_cases he
        · have hfiled := hinv _ hlive source' e he
          exact ⟨hfiled.source_eq, (ClosureMemo.record_fingerprint ..).trans hfiled.fingerprint,
            hfiled.stands, hfiled.ofClosure⟩
        · obtain ⟨hcurrent, hread⟩ := hok loaded hmemo haccepts
          exact ⟨rfl, (ClosureMemo.record_fingerprint ..).trans hcurrent, fun _ => rfl,
            ofClosure_of_accepts haccepts hread⟩
      · exact hinv memo hold source' e he

theorem inv_save {s : State Noted} (hinv : Inv platform s) (h : Nat) (written : Written) :
    Inv platform (step platform Noted.mk s (.save h written)) := by
  cases hmemo : s.memos h with
  | none => simpa only [step, hmemo] using hinv
  | some loaded =>
      have hlive : s.Live loaded.memo := .inr ⟨h, loaded, hmemo, rfl⟩
      simp only [step, hmemo]
      intro memo hnew source e he
      obtain hfile | hmem := hnew
      · cases written with
        | whole =>
            cases hfile
            exact hinv _ hlive source e he
        | nothing => exact hinv memo (.inl hfile) source e he
        | torn => cases hfile
      · exact hinv memo (.inr hmem) source e he

/-- The file and the work directory are as they were, or the file is gone. -/
theorem inv_start {s : State Noted} (hinv : Inv platform s) (producer : Producer) (resume : Bool) :
    Inv platform (step platform Noted.mk s (.start producer resume)) := by
  intro memo hlive source e he
  obtain hholds | ⟨h, loaded, hmemo, -⟩ := hlive
  · have hholds : (prepare producer resume s.dir).memoFile = .holds memo := hholds
    obtain ⟨hwork, hfile⟩ | hgone := prepare_cases producer resume s.dir
    · have hworld : (step platform Noted.mk s (.start producer resume)).world = s.world :=
        congrArg (World.mk s.world.sources) hwork
      rw [hworld]
      exact hinv memo (.inl (hfile.symm.trans hholds)) source e he
    · rw [hgone] at hholds
      cases hholds
  · cases hmemo

theorem inv_step {s : State Noted} (hinv : Inv platform s) {a : Step} (hok : StepOk platform s a) :
    Inv platform (step platform Noted.mk s a) := by
  cases a with
  | load h force => exact inv_load hinv h force
  | record h source errors rounds => exact inv_record hinv hok
  | save h written => exact inv_save hinv h written
  | edit world =>
      intro memo hlive source e he
      have hfiled := hinv memo hlive source e he
      exact ⟨hfiled.source_eq, hfiled.fingerprint, hok memo hlive source e he, hfiled.ofClosure⟩
  | start producer resume => exact inv_start hinv producer resume

theorem inv_run (steps : List Step) : ∀ {s : State Noted}, Inv platform s →
    RunOk platform s steps → Inv platform (notedRun platform s steps) := by
  induction steps with
  | nil => intro s hinv _; exact hinv
  | cons a steps ih =>
      intro s hinv hok
      exact ih (inv_step hinv hok.1) hok.2

/-- Under a hash without collisions the invariant is what is wanted. -/
theorem Inv.sound {s : State Noted} (hinv : Inv platform s)
    (hhash : Function.Injective platform.finish) : Sound platform s := by
  constructor
  · intro h loaded source e hmemo hcurrent he
    have hfiled := hinv loaded.memo (.inr ⟨h, loaded, hmemo, rfl⟩) source e he
    have hdigest : digest platform s.world.work loaded.force
        = digest platform e.recording.world.work e.recording.force :=
      hhash (hcurrent.symm.trans hfiled.fingerprint)
    have hforce := force_of_digest hdigest
    rw [hforce] at hdigest
    have hstands := hfiled.stands hdigest
    rw [hfiled.source_eq] at hstands
    exact ⟨hfiled.source_eq, hforce.symm, hstands⟩
  · intro memo hlive source e he
    exact (hinv memo hlive source e he).ofClosure

/-- In a run whose steps keep to the digest, what the memo remembers is so. -/
theorem memo_sound (platform : Platform) (hhash : Function.Injective platform.finish) (w : World)
    (steps : List Step) (hok : RunOk platform (init w) steps) :
    Sound platform (notedRun platform (init w) steps) :=
  (inv_run steps (inv_init w) hok).sound hhash

/-! ## One source, fixed between two targets

The model files and the shared directories are empty throughout; only
`parse.c` changes after its failure was recorded.
-/

/-- A hasher that keeps every byte as a character. -/
def keepBytes : Platform where
  finish bytes := bytes.map fun b => Char.ofNat b.toNat
  dirLen _ := 0

theorem keepBytes_injective : Function.Injective keepBytes.finish := by
  have hchar : Function.Injective fun b : UInt8 => Char.ofNat b.toNat := by
    intro a b h
    have hround : ∀ n : Fin 256, (Char.ofNat n.val).toNat = n.val := by decide +kernel
    have hnat := congrArg Char.toNat h
    have ha := hround ⟨a.toNat, a.toNat_lt⟩
    have hb := hround ⟨b.toNat, b.toNat_lt⟩
    dsimp only at hnat ha hb
    rw [ha, hb] at hnat
    exact UInt8.toNat_inj.mp hnat
  exact List.map_injective_iff.mpr hchar

def treeWith (bytes : Bytes) : World where
  sources path := if path = "parse.c".toList then some bytes else none
  work := ⟨fun _ => none, fun _ => none⟩

def missingHeader : List BuildErrorKind := [.missingHeader "absent.h".toList]

def firstTarget : List Step :=
  [.load 0 false, .record 0 "parse.c".toList missingHeader 4, .save 0 .whole]

def firstEntry : Noted := ⟨⟨treeWith [1], false, "parse.c".toList⟩, ⟨missingHeader, 4⟩⟩

def firstMemo : ClosureMemo Noted :=
  ⟨projectFingerprint keepBytes (treeWith [1]).work false,
    Function.update (fun _ => none) "parse.c".toList (some firstEntry)⟩

theorem firstTarget_memoFile :
    (notedRun keepBytes (init (treeWith [1])) firstTarget).memoFile = .holds firstMemo := by
  have haccepts : ClosureMemo.accepts missingHeader = true := by decide
  simp only [run, firstTarget, List.foldl_cons, List.foldl_nil, step, init,
    ClosureMemo.load_absent, Function.update_self, ClosureMemo.save, ClosureMemo.record,
    if_pos haccepts]
  rfl

theorem firstMemo_loaded {s : State Noted} (hfile : s.memoFile = .holds firstMemo)
    (hwork : s.world.work = (treeWith [1]).work) :
    (step keepBytes Noted.mk s (.load 1 false)).memos 1 = some ⟨firstMemo, false⟩ := by
  have hload : ClosureMemo.load keepBytes s.world.work false s.memoFile = firstMemo := by
    rw [hfile, hwork]
    exact ClosureMemo.load_holds rfl
  simp only [step, hload, Function.update_self]

/-- A sibling of the target that failed inherits its failure. -/
theorem memo_sound_sibling :
    let s := notedRun keepBytes (init (treeWith [1])) (firstTarget ++ [.load 1 false])
    s.memos 1 = some ⟨firstMemo, false⟩ ∧ Sound keepBytes s := by
  intro s
  have hrun : s = step keepBytes Noted.mk (notedRun keepBytes (init (treeWith [1])) firstTarget)
      (.load 1 false) := List.foldl_append
  refine ⟨?_, memo_sound keepBytes keepBytes_injective _ _ ?_⟩
  · rw [hrun]
    exact firstMemo_loaded firstTarget_memoFile rfl
  · refine ⟨trivial, ?_, trivial, trivial, trivial⟩
    intro loaded hmemo _
    have hloaded :
        loaded = ⟨.empty (projectFingerprint keepBytes (treeWith [1]).work false), false⟩ := by
      simp only [step, init, ClosureMemo.load_absent, Function.update_self] at hmemo
      exact (Option.some.inj hmemo).symm
    subst hloaded
    refine ⟨rfl, fun error hmem hunread => ?_⟩
    rw [List.mem_singleton.mp hmem] at hunread
    cases hunread

/-- The digest has nothing of `parse.c`, and an error of a kind that is not
looked at is recorded with the harness's file in it. -/
theorem not_memo_sound :
    (¬ ∀ platform : Platform, Function.Injective platform.finish → ∀ w steps h loaded source e,
      let s := notedRun platform (init w) steps
      s.memos h = some loaded → loaded.IsCurrent platform s.world →
        loaded.memo.terminalFailureFor source = some e →
        s.world.content source = e.recording.world.content source) ∧
    ¬ ∀ platform : Platform, Function.Injective platform.finish → ∀ w steps h loaded source e,
      (notedRun platform (init w) steps).memos h = some loaded →
        loaded.memo.terminalFailureFor source = some e →
        ∀ error ∈ e.entry.errors, error.inHarness = false := by
  constructor
  · -- the source is edited and nothing below the work directory changes
    intro hall
    have hrun : notedRun keepBytes (init (treeWith [1]))
          (firstTarget ++ [.edit (treeWith [2]), .load 1 false])
        = step keepBytes Noted.mk (step keepBytes Noted.mk
            (notedRun keepBytes (init (treeWith [1])) firstTarget) (.edit (treeWith [2])))
          (.load 1 false) := List.foldl_append
    have hcontent := hall keepBytes keepBytes_injective (treeWith [1])
      (firstTarget ++ [.edit (treeWith [2]), .load 1 false]) 1 ⟨firstMemo, false⟩
      "parse.c".toList firstEntry
    rw [hrun] at hcontent
    have hentry : firstMemo.terminalFailureFor "parse.c".toList = some firstEntry := rfl
    have hsource := congrArg Content.source
      (hcontent (firstMemo_loaded firstTarget_memoFile rfl) rfl hentry)
    revert hsource
    decide
  · -- an error of a kind that is not looked at, in the generated harness
    intro hall
    have herrors := hall keepBytes keepBytes_injective (treeWith [1])
      [.load 0 false, .record 0 "parse.c".toList [.malformedFunctionDecl "main.c".toList 42] 4] 0
      _ "parse.c".toList ⟨⟨treeWith [1], false, "parse.c".toList⟩,
        ⟨[.malformedFunctionDecl "main.c".toList 42], 4⟩⟩ rfl rfl
    have hharness := herrors _ List.mem_cons_self
    revert hharness
    decide

end GovFuzz.Auto
