import GovFuzz.Corpus.Classify
import GovFuzz.Lib.FileTree

/-!
# Corpus — the manager and its files

`CorpusManager` of `crates/corpus/src/manager.rs`: `record` names what an
event list shows and keeps a reproducer of whatever is new,
`persist_coverage_corpus` keeps inputs under their content hash, and both
ask `reserve` for room under the harness's retention limits.  The disk is
the failing file system of `Lib.FileTree`; the number of bytes an entry
takes up on it (`st_blocks * 512`) is a parameter.
-/

namespace GovFuzz.Corpus

open GovFuzz.EventLog
open GovFuzz.Lib

/-- `u64::MAX`. -/
def u64Max : Nat := 2 ^ 64 - 1

/-- The limits of a harness's corpus. -/
structure RetentionLimits where
  entries : Nat
  bytes : Nat
  deriving DecidableEq, Repr

/-- What a harness's corpus holds, as it was counted. -/
structure RetentionUsage where
  queueEntries : Nat
  bytes : Nat
  deriving DecidableEq, Repr

/-- The limits and the usage counted so far, harness by harness. -/
structure CorpusManager where
  retention : Option RetentionLimits
  usage : String → Option RetentionUsage
  seenUnpersisted : List (String × String)

/-- A manager without limits. -/
def CorpusManager.new : CorpusManager where
  retention := none
  usage := fun _ => none
  seenUnpersisted := []

/-- The manager under limits. -/
def CorpusManager.withRetentionLimits (manager : CorpusManager) (entries bytes : Nat) :
    CorpusManager :=
  { manager with retention := some { entries, bytes } }

/-- Whether a signature was seen before. -/
inductive SignatureClass where
  | new
  | duplicate
  deriving DecidableEq, Repr

/-- A signature and what its recording found. -/
structure SignatureRecord where
  signature : Signature
  signatureClass : SignatureClass
  classification : Classification
  deriving DecidableEq

/-- What `record` does about one signature: `New` is reported for one whose
files were written and for one the limits had no room for. -/
inductive Outcome where
  | duplicate
  | kept
  | refused
  deriving DecidableEq, Repr

/-- The class of an outcome. -/
def Outcome.signatureClass : Outcome → SignatureClass
  | .duplicate => .duplicate
  | .kept => .new
  | .refused => .new

/-- The manager and the disk under its root. -/
structure Session where
  manager : CorpusManager
  disk : Disk

/-- `?` on a file operation. -/
def onDisk {α : Type} (op : Op Disk FileError α) : Op Session FileError α := fun session =>
  ((op.exec session.disk).1, { session with disk := (op.exec session.disk).2 })

/-! ## Paths -/

/-- `corpus/<harness>`. -/
def harnessRoot (harnessId : String) : Path := ["corpus", harnessId]

/-- The directory of signatures. -/
def sigsDir (harnessId : String) : Path := ["corpus", harnessId, "sigs"]

/-- The directory of queued inputs. -/
def queueDir (harnessId : String) : Path := ["corpus", harnessId, "queue"]

/-- The directory of inputs whose exception was handled. -/
def swallowedDir (harnessId : String) : Path := ["corpus", harnessId, "swallowed"]

/-- The file of a signature. -/
def sigPath (harnessId hex : String) : Path := ["corpus", harnessId, "sigs", hex]

/-- The file of a queued input. -/
def queuePath (harnessId hex : String) : Path := ["corpus", harnessId, "queue", hex ++ ".bin"]

/-- The file of a swallowed input. -/
def swallowedPath (harnessId hex : String) : Path :=
  ["corpus", harnessId, "swallowed", hex ++ ".bin"]

/-! ## The quota -/

/-- `u64::saturating_add`. -/
def addBytes (a b : Nat) : Nat := min (a + b) u64Max

/-- The bytes of a file of so many, in whole blocks. -/
def estimatedAllocatedBytes (length : Nat) : Nat :=
  addBytes (max length 1) 4095 / 4096 * 4096

/-- `path == queue && child.is_file()`. -/
def isQueueFile (queue path child : Path) : Op Disk FileError Bool :=
  if path = queue then Disk.isFile child else pure false

/-- The children of a directory: each is pushed, and counted when it is a
file of the queue. -/
def visitChildren (queue path : Path) :
    List Path → List Path × RetentionUsage → Op Disk FileError (List Path × RetentionUsage)
  | [], state => pure state
  | child :: children, (pending, usage) => do
      Disk.attempt
      let counted ← isQueueFile queue path child
      let usage := if counted then { usage with queueEntries := addBytes usage.queueEntries 1 }
        else usage
      visitChildren queue path children (child :: pending, usage)

/-- The loop of `retention_usage`, with a bound on its rounds. -/
def walk (allocated : Path → Entry → Nat) (queue : Path) :
    Nat → List Path → RetentionUsage → Op Disk FileError RetentionUsage
  | 0, _, usage => pure usage
  | _ + 1, [], usage => pure usage
  | rounds + 1, path :: pending, usage => do
      match ← Disk.symlinkMetadata path with
      | none => walk allocated queue rounds pending usage
      | some entry =>
          let usage := { usage with bytes := addBytes usage.bytes (allocated path entry) }
          if entry.isDir then
            let children ← Disk.readDir path
            let (pending, usage) ← visitChildren queue path children (pending, usage)
            walk allocated queue rounds pending usage
          else walk allocated queue rounds pending usage

/-- No path is visited twice, so the number of entries bounds the rounds. -/
def retentionUsage (allocated : Path → Entry → Nat) (root queue : Path) :
    Op Disk FileError RetentionUsage := do
  if ← Disk.exists root then
    let disk ← get
    walk allocated queue (disk.tree.map.keys.length + 1) [root] ⟨0, 0⟩
  else pure ⟨0, 0⟩

/-- `usage.insert`. -/
def setUsage (harnessId : String) (usage : RetentionUsage) : Op Session FileError Unit :=
  fun session => (.ok (), { session with
    manager := { session.manager with
      usage := Function.update session.manager.usage harnessId (some usage) } })

/-- The usage of a harness, taken from the disk the first time. -/
def measure (allocated : Path → Entry → Nat) (harnessId : String) :
    Op Session FileError RetentionUsage := do
  match (← get).manager.usage harnessId with
  | some usage => pure usage
  | none =>
      let usage ← onDisk (retentionUsage allocated (harnessRoot harnessId) (queueDir harnessId))
      setUsage harnessId usage
      pure usage

/-- Room for these files, measured at the first call and counted from then on. -/
def reserve (allocated : Path → Entry → Nat) (harnessId : String) (queueEntries : Nat)
    (fileLengths : List Nat) : Op Session FileError Bool := do
  match (← get).manager.retention with
  | none => pure true
  | some limits =>
      let usage ← measure allocated harnessId
      let addedBytes := fileLengths.foldl
        (fun total length => addBytes total (estimatedAllocatedBytes length)) 0
      if addBytes usage.queueEntries queueEntries > limits.entries
          ∨ addBytes usage.bytes addedBytes > limits.bytes then pure false
      else
        setUsage harnessId
          { queueEntries := addBytes usage.queueEntries queueEntries
            bytes := addBytes usage.bytes addedBytes }
        pure true

/-! ## Recording -/

/-- An exception that a handler took. -/
def isSwallowed : Classification → Bool
  | .swallowedPredefined => true
  | .swallowedUser => true
  | _ => false

/-- What a new signature writes, in order. -/
def reproducerFiles (harnessId hex : String) (input : List UInt8) (swallowed : Bool) :
    List (Path × List UInt8) :=
  [(sigPath harnessId hex, hex.toUTF8.toList), (queuePath harnessId hex, input)]
    ++ if swallowed then [(swallowedPath harnessId hex, input)] else []

/-- The files in order. -/
def writeAll : List (Path × List UInt8) → Op Session FileError Unit
  | [] => pure ()
  | (path, contents) :: files => do
      onDisk (Disk.write path contents)
      writeAll files

/-- `seen_unpersisted.insert`. -/
def markSeen (harnessId hex : String) : Op Session FileError Unit :=
  fun session => (.ok (), { session with
    manager := { session.manager with
      seenUnpersisted := (harnessId, hex) :: session.manager.seenUnpersisted } })

section

variable (allocated : Path → Entry → Nat)

/-- The branch of `record` for a signature found to be new. -/
def recordNew (harnessId : String) (input : List UInt8) (hex : String) (swallowed : Bool) :
    Op Session FileError Outcome := do
  markSeen harnessId hex
  let files := reproducerFiles harnessId hex input swallowed
  if ← reserve allocated harnessId 1 (files.map fun file => file.2.length) then
    writeAll files
    pure .kept
  else pure .refused

/-- The body of `record`'s loops. -/
def recordOne (harnessId : String) (input : List UInt8) (found : Signature × Classification) :
    Op Session FileError Outcome := do
  let hex := found.1.hex
  let known ← onDisk (Disk.exists (sigPath harnessId hex))
  if known || (← get).manager.seenUnpersisted.contains (harnessId, hex) then pure .duplicate
  else recordNew allocated harnessId input hex (isSwallowed found.2)

/-- The signatures of an input in order. -/
def recordAll (harnessId : String) (input : List UInt8) :
    List (Signature × Classification) →
      Op Session FileError (List ((Signature × Classification) × Outcome))
  | [] => pure []
  | found :: rest => do
      let outcome ← recordOne allocated harnessId input found
      let answers ← recordAll harnessId input rest
      pure ((found, outcome) :: answers)

/-- The directories of a harness. -/
def createDirs (harnessId : String) : Op Session FileError Unit := do
  onDisk (Disk.createDirAll (sigsDir harnessId))
  onDisk (Disk.createDirAll (queueDir harnessId))
  onDisk (Disk.createDirAll (swallowedDir harnessId))

/-- `record`, up to the form of its answers (`signatureRecords`). -/
def record (sha256 : List UInt8 → Signature) (harnessId : String) (input : List UInt8)
    (events : List Event) :
    Op Session FileError (List ((Signature × Classification) × Outcome)) := do
  createDirs harnessId
  recordAll allocated harnessId input (foundSignatures sha256 events)

/-- The records that `record` returns. -/
def signatureRecords (answers : List ((Signature × Classification) × Outcome)) :
    List SignatureRecord :=
  answers.map fun (found, outcome) =>
    { signature := found.1
      signatureClass := outcome.signatureClass
      classification := found.2 }

/-! ## Coverage inputs -/

/-- What `persist_coverage_corpus` does about one input. -/
inductive PersistOutcome where
  | empty
  | present
  | written
  | refused
  deriving DecidableEq, Repr

/-- The body of its loop. -/
def persistOne (sha256 : List UInt8 → Signature) (harnessId : String) (bytes : List UInt8) :
    Op Session FileError PersistOutcome := do
  if bytes.isEmpty then pure .empty
  else
    let path := queuePath harnessId (contentHex (sha256 bytes))
    if ← onDisk (Disk.exists path) then pure .present
    else if ← reserve allocated harnessId 1 [bytes.length] then
      onDisk (Disk.write path bytes)
      pure .written
    else pure .refused

/-- The inputs in order. -/
def persistAll (sha256 : List UInt8 → Signature) (harnessId : String) :
    List (List UInt8) → Op Session FileError (List (List UInt8 × PersistOutcome))
  | [] => pure []
  | bytes :: inputs => do
      let outcome ← persistOne allocated sha256 harnessId bytes
      let answers ← persistAll sha256 harnessId inputs
      pure ((bytes, outcome) :: answers)

/-- `persist_coverage_corpus`, which returns the count of what it wrote
(`writtenCount`). -/
def persistCoverageCorpus (sha256 : List UInt8 → Signature) (harnessId : String)
    (inputs : List (List UInt8)) : Op Session FileError (List (List UInt8 × PersistOutcome)) := do
  onDisk (Disk.createDirAll (queueDir harnessId))
  persistAll allocated sha256 harnessId inputs

/-- The inputs that were written. -/
def writtenCount (answers : List (List UInt8 × PersistOutcome)) : Nat :=
  answers.countP fun answer => answer.2 = .written

end

/-! ## Reading leaves everything but the usage as it is -/

/-- The same files, the same signatures seen, the same limits. -/
structure Session.Same (s t : Session) : Prop where
  tree : t.disk.tree = s.disk.tree
  journal : t.disk.journal = s.disk.journal
  seen : t.manager.seenUnpersisted = s.manager.seenUnpersisted
  retention : t.manager.retention = s.manager.retention

theorem Session.Same.refl (s : Session) : s.Same s := ⟨rfl, rfl, rfl, rfl⟩

theorem Session.Same.trans {s t u : Session} (h : s.Same t) (h' : t.Same u) : s.Same u :=
  ⟨h'.tree.trans h.tree, h'.journal.trans h.journal, h'.seen.trans h.seen,
    h'.retention.trans h.retention⟩

theorem exec_onDisk {α : Type} (op : Op Disk FileError α) (s : Session) :
    (onDisk op).exec s = ((op.exec s.disk).1, { s with disk := (op.exec s.disk).2 }) := rfl

/-- A file operation that only reads. -/
theorem keeps_onDisk {α : Type} {op : Op Disk FileError α} {s : Session}
    (h : ∀ tree journal, op.Keeps (Disk.Is tree journal)) : (onDisk op).Keeps s.Same := by
  intro t ht
  obtain ⟨htree, hjournal⟩ := h t.disk.tree t.disk.journal t.disk ⟨rfl, rfl⟩
  exact ht.trans ⟨htree, hjournal, rfl, rfl⟩

theorem keeps_visitChildren {tree : FileTree} {journal : List (Path × List UInt8)}
    (queue path : Path) (children : List Path) (state : List Path × RetentionUsage) :
    (visitChildren queue path children state).Keeps (Disk.Is tree journal) := by
  induction children generalizing state with
  | nil => exact Op.Keeps.pure _
  | cons child children ih =>
      refine Disk.keeps_attempt.bind fun _ => Op.Keeps.bind ?_ fun counted => ih _
      unfold isQueueFile
      split
      · exact Disk.keeps_isFile child
      · exact Op.Keeps.pure _

theorem keeps_walk {tree : FileTree} {journal : List (Path × List UInt8)}
    (allocated : Path → Entry → Nat) (queue : Path) (rounds : Nat) (pending : List Path)
    (usage : RetentionUsage) :
    (walk allocated queue rounds pending usage).Keeps (Disk.Is tree journal) := by
  induction rounds generalizing pending usage with
  | zero => exact Op.Keeps.pure _
  | succ rounds ih =>
      cases pending with
      | nil => exact Op.Keeps.pure _
      | cons path pending =>
          refine (Disk.keeps_symlinkMetadata path).bind fun entry => ?_
          cases entry with
          | none => exact ih _ _
          | some entry =>
              dsimp only
              split
              · exact (Disk.keeps_readDir path).bind fun children =>
                  (keeps_visitChildren queue path children _).bind fun _ => ih _ _
              · exact ih _ _

theorem keeps_retentionUsage {tree : FileTree} {journal : List (Path × List UInt8)}
    (allocated : Path → Entry → Nat) (root queue : Path) :
    (retentionUsage allocated root queue).Keeps (Disk.Is tree journal) := by
  refine (Disk.keeps_exists root).bind fun found => ?_
  split
  · exact Op.Keeps.get fun disk h => keeps_walk _ _ _ _ _ disk h
  · exact Op.Keeps.pure _

theorem keeps_setUsage {s : Session} (harnessId : String) (usage : RetentionUsage) :
    (setUsage harnessId usage).Keeps s.Same :=
  fun _ h => ⟨h.tree, h.journal, h.seen, h.retention⟩

theorem keeps_measure {s : Session} (allocated : Path → Entry → Nat) (harnessId : String) :
    (measure allocated harnessId).Keeps s.Same := by
  refine Op.Keeps.get fun t ht => ?_
  split
  · exact ht
  · exact ((keeps_onDisk fun _ _ => keeps_retentionUsage _ _ _).bind fun usage =>
      (keeps_setUsage _ _).bind fun _ => Op.Keeps.pure usage) t ht

theorem keeps_reserve {s : Session} (allocated : Path → Entry → Nat) (harnessId : String)
    (queueEntries : Nat) (fileLengths : List Nat) :
    (reserve allocated harnessId queueEntries fileLengths).Keeps s.Same := by
  refine Op.Keeps.get fun t ht => ?_
  split
  · exact ht
  · refine ((keeps_measure allocated harnessId).bind fun usage => ?_) t ht
    dsimp only
    split
    · exact Op.Keeps.pure _
    · exact (keeps_setUsage _ _).bind fun _ => Op.Keeps.pure _

/-! ## Making directories -/

/-- The corpus keeps its files four levels down, below any directory made
for it. -/
theorem lookup_createDirAll {path other : Path} (hpath : path.length < 4)
    (hother : other.length = 4) (disk : Disk) :
    ((Disk.createDirAll path).exec disk).2.tree.lookup other = disk.tree.lookup other := by
  rcases (Disk.exec_createDirAll path disk).1 with htree | htree
  · rw [htree]
  · rw [htree]
    rcases FileTree.lookup_mkdirs disk.tree path other with heq | ⟨hahead, -⟩
    · exact heq
    · have := hahead.length_le
      omega

/-! ## Writing a list of files -/

/-- All files of a list are there after they were written. -/
theorem exec_writeAll {files : List (Path × List UInt8)} {s t : Session}
    (h : (writeAll files).exec s = (.ok (), t)) (path : Path) :
    (∃ contents, (path, contents) ∈ files
        ∧ t.disk.tree.lookup path = some (.file contents))
      ∨ (path ∉ files.map Prod.fst ∧ t.disk.tree.lookup path = s.disk.tree.lookup path) := by
  induction files generalizing s with
  | nil =>
      obtain rfl : s = t := by simpa [writeAll] using h
      exact .inr ⟨by simp, rfl⟩
  | cons file files ih =>
      unfold writeAll at h
      obtain ⟨_, u, hfirst, hrest⟩ := Op.exec_bind_eq_ok h
      have hu : u.disk = ((Disk.write file.1 file.2).exec s.disk).2 := by
        rw [exec_onDisk] at hfirst
        rw [← (Prod.mk.inj hfirst).2]
      rcases ih hrest with ⟨contents, hmem, hlookup⟩ | ⟨hnot, hlookup⟩
      · exact .inl ⟨contents, List.mem_cons_of_mem _ hmem, hlookup⟩
      · rcases Disk.exec_write file.1 file.2 s.disk with ⟨e, he, -⟩ | ⟨-, hthere, hothers, -⟩
        · rw [exec_onDisk, he] at hfirst
          cases hfirst
        · by_cases heq : path = file.1
          · refine .inl ⟨file.2, ?_, ?_⟩
            · rw [heq]; exact List.mem_cons_self
            · rw [hlookup, hu, heq, hthere]
          · refine .inr ⟨by simp [heq] at hnot ⊢; exact hnot, ?_⟩
            rw [hlookup, hu, hothers path heq]

/-- Only the disk changes, and its journal tells what was written. -/
theorem exec_writeAll_state {files : List (Path × List UInt8)} {s t : Session}
    (h : (writeAll files).exec s = (.ok (), t)) :
    t.manager = s.manager ∧ t.disk.journal = s.disk.journal ++ files
      ∧ (s.disk.faults = [] → t.disk.faults = []) := by
  induction files generalizing s with
  | nil =>
      obtain rfl : s = t := by simpa [writeAll] using h
      simp
  | cons file files ih =>
      unfold writeAll at h
      obtain ⟨_, u, hfirst, hrest⟩ := Op.exec_bind_eq_ok h
      obtain ⟨hmanager, hjournal, hworks⟩ := ih hrest
      rw [exec_onDisk] at hfirst
      obtain ⟨hout, rfl⟩ := Prod.mk.inj hfirst
      rcases Disk.exec_write file.1 file.2 s.disk with ⟨e, he, -⟩ | ⟨-, -, -, hwritten⟩
      · rw [he] at hout
        cases hout
      · refine ⟨hmanager, ?_, fun hs => hworks (Disk.works_write _ _ _ hs)⟩
        rw [hjournal, hwritten, List.append_assoc, List.singleton_append]

end GovFuzz.Corpus
