import GovFuzz.Lib.Utf8
import Mathlib.Data.List.AList
import Mathlib.Data.Finset.Card
import Mathlib.Data.Finset.SDiff
import Mathlib.Algebra.GroupWithZero.Nat

/-!
# Multicore — collecting the workers' queues

`sync_worker_corpora` of `crates/multicore_fuzz/src/lib.rs` copies every
content of the workers' queues that the shared queue does not have yet.  A
file keeps its name when that is free in the shared queue and else gets
`worker-<id>-<name>`, and whether THAT name is free is not asked.  What it
replaces is lost, unless another file has the same contents.
-/

namespace GovFuzz.Multicore

open GovFuzz.Lib

/-- The bytes of an `OsStr`. -/
abbrev FileName := List UInt8

/-- The regular files of a queue directory. -/
abbrev Directory := AList (fun _ : FileName => List UInt8)

/-- The files in the order of their names, with what they hold. -/
def queueSeedFiles (queue : Directory) : List (FileName × List UInt8) :=
  (queue.entries.map fun entry => (entry.1, entry.2)).mergeSort fun a b => decide (a.1 ≤ b.1)

/-- A file of a worker's queue. -/
structure QueueFile where
  workerId : Nat
  name : FileName
  bytes : List UInt8
  deriving DecidableEq

/-- The shared queue and the variables of the loop. -/
structure Sync where
  queue : Directory
  seen : Finset (List UInt8)
  importedInputs : Nat
  duplicateInputs : Nat

section

variable (toStringLossy : FileName → String)

/-- `worker-{id}-{name}`. -/
def fallbackName (workerId : Nat) (name : FileName) : FileName :=
  toUtf8 ("worker-" ++ toString workerId ++ "-" ++ toStringLossy name)

def Sync.destination (s : Sync) (file : QueueFile) : FileName :=
  if file.name ∈ s.queue then fallbackName toStringLossy file.workerId file.name else file.name

/-- One round of the inner loop. -/
def Sync.importFile (s : Sync) (file : QueueFile) : Sync :=
  if file.bytes ∈ s.seen then { s with duplicateInputs := s.duplicateInputs + 1 }
  else
    { queue := s.queue.insert (s.destination toStringLossy file) file.bytes
      seen := insert file.bytes s.seen
      importedInputs := s.importedInputs + 1
      duplicateInputs := s.duplicateInputs }

def Sync.start (sharedQueue : Directory) : Sync where
  queue := sharedQueue
  seen := ((queueSeedFiles sharedQueue).map Prod.snd).toFinset
  importedInputs := 0
  duplicateInputs := 0

/-- The workers' files in the order the loops meet them. -/
def queueFiles (perWorker : List (Nat × Directory)) : List QueueFile :=
  perWorker.flatMap fun (workerId, queue) =>
    (queueSeedFiles queue).map fun (name, bytes) => { workerId, name, bytes }

def syncWorkerCorpora (sharedQueue : Directory) (perWorker : List (Nat × Directory)) : Sync :=
  (queueFiles perWorker).foldl (Sync.importFile toStringLossy) (Sync.start sharedQueue)

end

/-! ## Contents -/

/-- What the files of a directory hold. -/
def contents (queue : Directory) : Finset (List UInt8) :=
  (queue.entries.map Sigma.snd).toFinset

theorem mem_contents {queue : Directory} {bytes : List UInt8} :
    bytes ∈ contents queue ↔ ∃ name, queue.lookup name = some bytes := by
  simp only [contents, List.mem_toFinset, List.mem_map]
  constructor
  · rintro ⟨⟨name, bytes⟩, hmem, rfl⟩
    exact ⟨name, AList.mem_lookup_iff.mpr hmem⟩
  · rintro ⟨name, hlookup⟩
    exact ⟨⟨name, bytes⟩, AList.mem_lookup_iff.mp hlookup, rfl⟩

theorem queueSeedFiles_perm (queue : Directory) :
    (queueSeedFiles queue).Perm (queue.entries.map fun entry => (entry.1, entry.2)) :=
  List.mergeSort_perm _ _

theorem map_snd_queueSeedFiles (queue : Directory) :
    ((queueSeedFiles queue).map Prod.snd).toFinset = contents queue := by
  have hperm := (queueSeedFiles_perm queue).map Prod.snd
  rw [List.toFinset_eq_of_perm _ _ hperm, List.map_map]
  rfl

/-- The contents of all the workers' queues. -/
def workerContents (perWorker : List (Nat × Directory)) : Finset (List UInt8) :=
  perWorker.foldr (fun worker rest => contents worker.2 ∪ rest) ∅

theorem toFinset_queueFiles (perWorker : List (Nat × Directory)) :
    ((queueFiles perWorker).map QueueFile.bytes).toFinset = workerContents perWorker := by
  induction perWorker with
  | nil => rfl
  | cons worker perWorker ih =>
      have hfirst : ((queueSeedFiles worker.2).map fun file =>
          QueueFile.bytes { workerId := worker.1, name := file.1, bytes := file.2 })
          = (queueSeedFiles worker.2).map Prod.snd := rfl
      simp only [queueFiles, List.flatMap_cons, List.map_append, List.toFinset_append,
        List.map_map, Function.comp_def, workerContents, List.foldr_cons] at ih ⊢
      rw [hfirst, map_snd_queueSeedFiles, ih]

theorem length_queueFiles (perWorker : List (Nat × Directory)) :
    (queueFiles perWorker).length
      = (perWorker.map fun worker => worker.2.entries.length).sum := by
  induction perWorker with
  | nil => rfl
  | cons worker perWorker ih =>
      have hfirst := (queueSeedFiles_perm worker.2).length_eq
      simp only [queueFiles, List.flatMap_cons, List.length_append, List.length_map,
        List.map_cons, List.sum_cons] at ih hfirst ⊢
      omega

/-! ## One file -/

section

variable (toStringLossy : FileName → String)

/-- What a new file replaces, if anything, some other file holds too. -/
def Sync.Spares (s : Sync) (file : QueueFile) : Prop :=
  file.bytes ∉ s.seen → ∀ old, s.queue.lookup (s.destination toStringLossy file) = some old →
    ∃ other ≠ s.destination toStringLossy file, s.queue.lookup other = some old

/-- Every file of the list spares what is there when its turn comes. -/
def Sparing : List QueueFile → Sync → Prop
  | [], _ => True
  | file :: files, s =>
      s.Spares toStringLossy file ∧ Sparing files (s.importFile toStringLossy file)

theorem Sync.importFile_of_mem {s : Sync} {file : QueueFile} (h : file.bytes ∈ s.seen) :
    s.importFile toStringLossy file = { s with duplicateInputs := s.duplicateInputs + 1 } :=
  if_pos h

theorem Sync.importFile_of_notMem {s : Sync} {file : QueueFile} (h : file.bytes ∉ s.seen) :
    s.importFile toStringLossy file =
      { queue := s.queue.insert (s.destination toStringLossy file) file.bytes
        seen := insert file.bytes s.seen
        importedInputs := s.importedInputs + 1
        duplicateInputs := s.duplicateInputs } :=
  if_neg h

theorem Sync.seen_importFile (s : Sync) (file : QueueFile) :
    (s.importFile toStringLossy file).seen = insert file.bytes s.seen := by
  by_cases h : file.bytes ∈ s.seen
  · rw [s.importFile_of_mem toStringLossy h, Finset.insert_eq_of_mem h]
  · rw [s.importFile_of_notMem toStringLossy h]

theorem mem_contents_insert {queue : Directory} {name : FileName} {bytes other : List UInt8} :
    other ∈ contents (queue.insert name bytes)
      ↔ other = bytes ∨ ∃ kept ≠ name, queue.lookup kept = some other := by
  rw [mem_contents]
  constructor
  · rintro ⟨kept, hkept⟩
    by_cases heq : kept = name
    · subst heq
      rw [AList.lookup_insert] at hkept
      exact .inl (Option.some.inj hkept).symm
    · rw [AList.lookup_insert_ne heq] at hkept
      exact .inr ⟨kept, heq, hkept⟩
  · rintro (rfl | ⟨kept, hne, hkept⟩)
    · exact ⟨name, AList.lookup_insert _⟩
    · exact ⟨kept, by rwa [AList.lookup_insert_ne hne]⟩

/-- Nothing is in the queue that was not seen. -/
theorem Sync.contents_importFile_subset {s : Sync} (h : contents s.queue ⊆ s.seen)
    (file : QueueFile) :
    contents (s.importFile toStringLossy file).queue
      ⊆ (s.importFile toStringLossy file).seen := by
  by_cases hseen : file.bytes ∈ s.seen
  · rw [s.importFile_of_mem toStringLossy hseen]
    exact h
  · rw [s.importFile_of_notMem toStringLossy hseen]
    intro other hother
    rcases mem_contents_insert.mp hother with rfl | ⟨kept, -, hkept⟩
    · exact Finset.mem_insert_self ..
    · exact Finset.mem_insert_of_mem (h (mem_contents.mpr ⟨kept, hkept⟩))

/-- A spared queue keeps all it was given. -/
theorem Sync.seen_subset_importFile {s : Sync} (h : s.seen ⊆ contents s.queue)
    {file : QueueFile} (hspares : s.Spares toStringLossy file) :
    (s.importFile toStringLossy file).seen
      ⊆ contents (s.importFile toStringLossy file).queue := by
  by_cases hseen : file.bytes ∈ s.seen
  · rw [s.importFile_of_mem toStringLossy hseen]
    exact h
  · rw [s.importFile_of_notMem toStringLossy hseen]
    intro other hother
    refine mem_contents_insert.mpr ?_
    rcases Finset.mem_insert.mp hother with rfl | hother
    · exact .inl rfl
    · obtain ⟨kept, hkept⟩ := mem_contents.mp (h hother)
      by_cases heq : kept = s.destination toStringLossy file
      · exact .inr (hspares hseen other (heq ▸ hkept))
      · exact .inr ⟨kept, heq, hkept⟩

/-- What was seen and is gone does not come back. -/
theorem Sync.lost_importFile {s : Sync} {bytes : List UInt8} (hseen : bytes ∈ s.seen)
    (hlost : bytes ∉ contents s.queue) (file : QueueFile) :
    bytes ∉ contents (s.importFile toStringLossy file).queue := by
  by_cases hfile : file.bytes ∈ s.seen
  · rw [s.importFile_of_mem toStringLossy hfile]
    exact hlost
  · rw [s.importFile_of_notMem toStringLossy hfile]
    intro hmem
    rcases mem_contents_insert.mp hmem with rfl | ⟨kept, -, hkept⟩
    · exact hfile hseen
    · exact hlost (mem_contents.mpr ⟨kept, hkept⟩)

/-! ## All files -/

variable (files : List QueueFile)

theorem Sync.seen_foldl (s : Sync) :
    (files.foldl (Sync.importFile toStringLossy) s).seen
      = s.seen ∪ (files.map QueueFile.bytes).toFinset := by
  induction files generalizing s with
  | nil => simp
  | cons file files ih =>
      rw [List.foldl_cons, ih, s.seen_importFile, List.map_cons, List.toFinset_cons,
        Finset.insert_union, Finset.union_insert]

theorem Sync.lost_foldl {s : Sync} {bytes : List UInt8} (hseen : bytes ∈ s.seen)
    (hlost : bytes ∉ contents s.queue) :
    bytes ∉ contents (files.foldl (Sync.importFile toStringLossy) s).queue := by
  induction files generalizing s with
  | nil => exact hlost
  | cons file files ih =>
      refine ih ?_ (s.lost_importFile toStringLossy hseen hlost file)
      rw [s.seen_importFile]
      exact Finset.mem_insert_of_mem hseen

/-- The queue ends up with all that was seen exactly when every file spares
what is there. -/
theorem Sync.contents_foldl_eq_iff {s : Sync} (h : contents s.queue = s.seen) :
    contents (files.foldl (Sync.importFile toStringLossy) s).queue
        = (files.foldl (Sync.importFile toStringLossy) s).seen
      ↔ Sparing toStringLossy files s := by
  induction files generalizing s with
  | nil => simpa [Sparing] using h
  | cons file files ih =>
      rw [List.foldl_cons]
      have hsub := s.contents_importFile_subset toStringLossy (subset_of_eq h) file
      constructor
      · intro hall
        -- a file that does not spare loses something seen for good
        have hspares : s.Spares toStringLossy file := by
          intro hnew old hold
          by_contra hnone
          have hseen : old ∈ s.seen := h ▸ mem_contents.mpr ⟨_, hold⟩
          have hseen' : old ∈ (s.importFile toStringLossy file).seen := by
            rw [s.seen_importFile]
            exact Finset.mem_insert_of_mem hseen
          have hlost : old ∉ contents (s.importFile toStringLossy file).queue := by
            rw [s.importFile_of_notMem toStringLossy hnew]
            intro hmem
            rcases mem_contents_insert.mp hmem with rfl | hkept
            · exact hnew hseen
            · exact hnone hkept
          refine Sync.lost_foldl toStringLossy files hseen' hlost ?_
          rw [hall, Sync.seen_foldl]
          exact Finset.mem_union_left _ hseen'
        have heq := Finset.Subset.antisymm hsub
          (s.seen_subset_importFile toStringLossy (subset_of_eq h.symm) hspares)
        exact ⟨hspares, (ih heq).mp hall⟩
      · intro ⟨hspares, hrest⟩
        have heq := Finset.Subset.antisymm hsub
          (s.seen_subset_importFile toStringLossy (subset_of_eq h.symm) hspares)
        exact (ih heq).mpr hrest

/-- Every file is counted once, and each import is a content not seen. -/
theorem Sync.counts_foldl (s : Sync) :
    (files.foldl (Sync.importFile toStringLossy) s).importedInputs
        + (files.foldl (Sync.importFile toStringLossy) s).duplicateInputs
        = s.importedInputs + s.duplicateInputs + files.length
      ∧ (files.foldl (Sync.importFile toStringLossy) s).importedInputs + s.seen.card
        = s.importedInputs + (files.foldl (Sync.importFile toStringLossy) s).seen.card := by
  induction files generalizing s with
  | nil => simp
  | cons file files ih =>
      obtain ⟨htotal, himported⟩ := ih (s.importFile toStringLossy file)
      rw [List.foldl_cons, List.length_cons]
      by_cases hseen : file.bytes ∈ s.seen
      · rw [s.importFile_of_mem toStringLossy hseen] at htotal himported ⊢
        dsimp only at htotal himported
        exact ⟨by omega, himported⟩
      · rw [s.importFile_of_notMem toStringLossy hseen] at htotal himported ⊢
        dsimp only at htotal himported
        rw [Finset.card_insert_of_notMem hseen] at himported
        exact ⟨by omega, by omega⟩

end

/-! ## The whole sync -/

/-- The shared queue has what it had and what the workers have; the report
counts what was added and all files; and a second sync adds nothing. -/
structure Lossless (toStringLossy : FileName → String) (sharedQueue : Directory)
    (perWorker : List (Nat × Directory)) : Prop where
  union : contents (syncWorkerCorpora toStringLossy sharedQueue perWorker).queue
    = contents sharedQueue ∪ workerContents perWorker
  imported : (syncWorkerCorpora toStringLossy sharedQueue perWorker).importedInputs
    = (contents (syncWorkerCorpora toStringLossy sharedQueue perWorker).queue
        \ contents sharedQueue).card
  total : (syncWorkerCorpora toStringLossy sharedQueue perWorker).importedInputs
      + (syncWorkerCorpora toStringLossy sharedQueue perWorker).duplicateInputs
    = (perWorker.map fun worker => worker.2.entries.length).sum
  again : (syncWorkerCorpora toStringLossy
      (syncWorkerCorpora toStringLossy sharedQueue perWorker).queue perWorker).importedInputs = 0

section

variable (toStringLossy : FileName → String) (sharedQueue : Directory)
  (perWorker : List (Nat × Directory))

theorem seen_start : (Sync.start sharedQueue).seen = contents sharedQueue :=
  map_snd_queueSeedFiles sharedQueue

theorem seen_syncWorkerCorpora :
    (syncWorkerCorpora toStringLossy sharedQueue perWorker).seen
      = contents sharedQueue ∪ workerContents perWorker := by
  rw [syncWorkerCorpora, Sync.seen_foldl, seen_start, toFinset_queueFiles]

theorem counts_syncWorkerCorpora :
    (syncWorkerCorpora toStringLossy sharedQueue perWorker).importedInputs
        + (syncWorkerCorpora toStringLossy sharedQueue perWorker).duplicateInputs
        = (perWorker.map fun worker => worker.2.entries.length).sum
      ∧ (syncWorkerCorpora toStringLossy sharedQueue perWorker).importedInputs
        = ((contents sharedQueue ∪ workerContents perWorker) \ contents sharedQueue).card := by
  obtain ⟨htotal, himported⟩ := Sync.counts_foldl toStringLossy (queueFiles perWorker)
    (Sync.start sharedQueue)
  rw [length_queueFiles] at htotal
  rw [seen_start] at himported
  have hseen := seen_syncWorkerCorpora toStringLossy sharedQueue perWorker
  simp only [syncWorkerCorpora] at hseen ⊢
  rw [hseen] at himported
  have hzero : (Sync.start sharedQueue).importedInputs = 0
      ∧ (Sync.start sharedQueue).duplicateInputs = 0 := ⟨rfl, rfl⟩
  have hsub : contents sharedQueue ⊆ contents sharedQueue ∪ workerContents perWorker :=
    Finset.subset_union_left
  have hle := Finset.card_le_card hsub
  rw [Finset.card_sdiff_of_subset hsub]
  omega

/-- The sync loses nothing exactly when no new file takes the place of the
only file with its contents: its own name is free, or the worker's name
for it is free, or what stands there has a copy. -/
theorem syncWorkerCorpora_lossless_iff :
    Lossless toStringLossy sharedQueue perWorker
      ↔ Sparing toStringLossy (queueFiles perWorker) (Sync.start sharedQueue) := by
  have hiff := Sync.contents_foldl_eq_iff toStringLossy (queueFiles perWorker)
    (show contents (Sync.start sharedQueue).queue = (Sync.start sharedQueue).seen from
      (seen_start sharedQueue).symm)
  rw [← syncWorkerCorpora, seen_syncWorkerCorpora] at hiff
  rw [← hiff]
  constructor
  · exact fun h => h.union
  · intro hunion
    obtain ⟨htotal, himported⟩ := counts_syncWorkerCorpora toStringLossy sharedQueue perWorker
    refine ⟨hunion, by rw [himported, hunion], htotal, ?_⟩
    -- the second time the queue has everything there is
    rw [(counts_syncWorkerCorpora toStringLossy _ perWorker).2, hunion,
      Finset.card_eq_zero, Finset.sdiff_eq_empty_iff_subset]
    exact Finset.union_subset (Finset.Subset.refl _) Finset.subset_union_right

end

/-- A shared queue with files `a` and `worker-0-a`. -/
def takenQueue : Directory :=
  (∅ : Directory).insert (toUtf8 "a") [1] |>.insert (toUtf8 "worker-0-a") [2]

/-- The files of a worker 0 whose `a` holds something new. -/
def newQueue : Directory := (∅ : Directory).insert (toUtf8 "a") [3]

/-- The worker's file replaces `worker-0-a`, and its contents are gone. -/
theorem not_lossless_worker_name : ¬ Lossless latin1 takenQueue [(0, newQueue)] := by
  intro h
  have hfiles : queueFiles [(0, newQueue)] = [⟨0, toUtf8 "a", [3]⟩] := by
    simp [queueFiles, queueSeedFiles, newQueue]
  have hnew : [3] ∉ (Sync.start takenQueue).seen := by
    rw [seen_start]
    decide
  have hunion := h.union
  rw [syncWorkerCorpora, hfiles, List.foldl_cons, List.foldl_nil,
    Sync.importFile_of_notMem latin1 hnew] at hunion
  have hkept : [2] ∈ contents takenQueue ∪ workerContents [(0, newQueue)] :=
    Finset.mem_union_left _ (by decide)
  rw [← hunion] at hkept
  revert hkept
  decide

end GovFuzz.Multicore
