import GovFuzz.Corpus.Retry
import GovFuzz.Lib.TreeSum

/-!
# Corpus — the retention limits over whole runs

What `retention_usage` adds up is the number of files in the queue and the
bytes of everything below the harness's root; what `reserve` tracks from
then on stays above what the manager writes.  So no run of successful calls
takes a harness past its limits.  The two writers share the names of the
queue, and there a coverage input can be lost: a signature has the name of
an input that happens to be its text.
-/

namespace GovFuzz.Corpus

open GovFuzz.EventLog
open GovFuzz.Lib

/-! ## What the usage walk adds up -/

def isFileEntry : Option Entry → Bool
  | some (.file _) => true
  | _ => false

/-- The regular files of a directory. -/
def filesIn (tree : FileTree) (path : Path) : Nat :=
  (tree.children path).countP fun child => isFileEntry (tree.lookup child)

/-- The bytes an entry takes up. -/
def bytesAt (allocated : Path → Entry → Nat) (tree : FileTree) (path : Path) : Nat :=
  match tree.lookup path with
  | some entry => allocated path entry
  | none => 0

theorem addBytes_min (a b : Nat) : addBytes (min a u64Max) b = min (a + b) u64Max := by
  simp only [addBytes]
  omega

theorem addBytes_tracked {a b c d : Nat} (h : min a u64Max ≤ b) (h' : min c u64Max ≤ d) :
    min (a + c) u64Max ≤ addBytes b d := by
  simp only [addBytes]
  omega

/-- The files of the queue, as seen from above it. -/
def queueShare (tree : FileTree) (queue above : Path) : Nat :=
  if above <+: queue then filesIn tree queue else 0

theorem filesIn_of_lookup_none {tree : FileTree} {path : Path} (h : tree.lookup path = none) :
    filesIn tree path = 0 := by
  rw [filesIn, List.countP_eq_zero]
  intro child hchild
  obtain ⟨hsome, hne, hparent⟩ := FileTree.mem_children.mp hchild
  have hdir := tree.closed child (AList.lookup_isSome.mp hsome) hne
  rw [hparent] at hdir
  rw [FileTree.lookup] at h
  rw [h] at hdir
  cases hdir

theorem queueShare_split (tree : FileTree) (queue above : Path) :
    queueShare tree queue above
      = (if queue = above then filesIn tree queue else 0)
        + ((tree.children above).map (queueShare tree queue)).sum := by
  rw [← List.sum_toFinset _ (tree.children_nodup above)]
  cases hqueue : tree.lookup queue with
  | none =>
      have hzero : ∀ other, queueShare tree queue other = 0 := by
        simp [queueShare, filesIn_of_lookup_none hqueue]
      simp [hzero, filesIn_of_lookup_none hqueue]
  | some entry => exact FileTree.share_split (by rw [hqueue]; rfl) _

section Walk

variable {disk : Disk} (hworks : disk.faults = [])

include hworks

/-- The children of a directory are all put off, and the files of the queue counted. -/
theorem exec_visitChildren (queue path : Path) (children pending : List Path) (q bytes : Nat) :
    (visitChildren queue path children (pending, ⟨min q u64Max, bytes⟩)).exec disk
      = (.ok (children.reverse ++ pending,
          ⟨min (q + if path = queue then
              children.countP (fun child => isFileEntry (disk.tree.lookup child)) else 0) u64Max,
            bytes⟩), disk) := by
  induction children generalizing pending q with
  | nil => simp [visitChildren]
  | cons child children ih =>
      have hcounted : (isQueueFile queue path child).exec disk
          = (.ok (decide (path = queue) && isFileEntry (disk.tree.lookup child)), disk) := by
        unfold isQueueFile
        by_cases hpath : path = queue
        · rw [if_pos hpath, Disk.exec_isFile_works hworks]
          simp only [hpath, decide_true, Bool.true_and]
          rfl
        · simp [hpath]
      unfold visitChildren
      rw [Op.exec_bind_ok (Disk.exec_attempt_works hworks), Op.exec_bind_ok hcounted]
      by_cases hfile : path = queue ∧ isFileEntry (disk.tree.lookup child) = true
      · obtain ⟨rfl, hfile⟩ := hfile
        rw [List.countP_cons_of_pos (by exact hfile)]
        simp only [decide_true, hfile, Bool.and_self, if_true, addBytes_min, ih,
          List.reverse_cons, List.append_assoc, List.singleton_append]
        rw [Nat.add_assoc, Nat.add_comm 1]
      · have hnot : (decide (path = queue) && isFileEntry (disk.tree.lookup child)) = false := by
          simpa using hfile
        simp only [hnot, Bool.false_eq_true, if_false, ih, List.reverse_cons, List.append_assoc,
          List.singleton_append]
        by_cases hpath : path = queue
        · rw [if_pos hpath, if_pos hpath, List.countP_cons_of_neg]
          simpa [hpath] using hfile
        · rw [if_neg hpath, if_neg hpath]

/-- With rounds enough for all there is to visit, the walk ends with the
sums over the subtrees of the pending paths. -/
theorem exec_walk (allocated : Path → Entry → Nat) (queue : Path) {rounds : Nat}
    {pending : List Path} (q bytes : Nat)
    (hpending : ∀ path ∈ pending, (disk.tree.lookup path).isSome)
    (hrounds : (pending.map (disk.tree.total fun _ => 1)).sum < rounds) :
    (walk allocated queue rounds pending ⟨min q u64Max, min bytes u64Max⟩).exec disk
      = (.ok
          { queueEntries := min (q + (pending.map (queueShare disk.tree queue)).sum) u64Max
            bytes := min (bytes + (pending.map
              (disk.tree.total (bytesAt allocated disk.tree))).sum) u64Max }, disk) := by
  induction rounds generalizing pending q bytes with
  | zero => omega
  | succ rounds ih =>
      cases pending with
      | nil => simp [walk]
      | cons path pending =>
          obtain ⟨entry, hentry⟩ := Option.isSome_iff_exists.mp (hpending path List.mem_cons_self)
          have hrest : ∀ path ∈ pending, (disk.tree.lookup path).isSome :=
            fun other hother => hpending other (List.mem_cons_of_mem _ hother)
          have hsome : (disk.tree.lookup path).isSome := by rw [hentry]; rfl
          have hone := disk.tree.total_split (fun _ => 1) hsome
          have hbytes := disk.tree.total_split (bytesAt allocated disk.tree) hsome
          have hshare := queueShare_split disk.tree queue path
          have hat : bytesAt allocated disk.tree path = allocated path entry := by
            rw [bytesAt, hentry]
          simp only [List.map_cons, List.sum_cons] at hrounds ⊢
          unfold walk
          rw [Op.exec_bind_ok (Disk.exec_symlinkMetadata_works hworks path), hentry]
          dsimp only
          rw [addBytes_min]
          cases entry with
          | file contents =>
              -- a file has no children and adds its bytes only
              have hchildren : disk.tree.children path = [] := by
                rw [List.eq_nil_iff_forall_not_mem]
                intro child hchild
                obtain ⟨hmem, hne, hparent⟩ := FileTree.mem_children.mp hchild
                have hdir := disk.tree.closed child (AList.lookup_isSome.mp hmem) hne
                rw [hparent] at hdir
                rw [FileTree.lookup, hdir] at hentry
                cases hentry
              have hqueue : queueShare disk.tree queue path = 0 := by
                rw [hshare, hchildren]
                split
                case isTrue heq => simp [heq, filesIn, hchildren]
                case isFalse => rfl
              rw [hchildren] at hone hbytes
              simp only [List.map_nil, List.sum_nil, Nat.add_zero] at hone hbytes
              simp only [Entry.isDir, Bool.false_eq_true, if_false]
              rw [ih _ _ hrest (by omega), hqueue, hbytes, hat, Nat.zero_add, Nat.add_assoc]
          | dir =>
              -- the children go in front of what is pending
              simp only [Entry.isDir, if_true]
              rw [Op.exec_bind_ok (Disk.exec_readDir_works hworks hentry),
                Op.exec_bind_ok (exec_visitChildren hworks ..)]
              dsimp only
              have hall : ∀ other ∈ (disk.tree.children path).reverse ++ pending,
                  (disk.tree.lookup other).isSome := by
                intro other hother
                rcases List.mem_append.mp hother with hother | hother
                · exact (FileTree.mem_children.mp (List.mem_reverse.mp hother)).1
                · exact hrest other hother
              have hsum : ∀ f : Path → Nat,
                  (((disk.tree.children path).reverse ++ pending).map f).sum
                    = ((disk.tree.children path).map f).sum + (pending.map f).sum := by
                intro f
                rw [List.map_append, List.sum_append, List.map_reverse, List.sum_reverse]
              have hfiles : (if path = queue then (disk.tree.children path).countP
                  (fun child => isFileEntry (disk.tree.lookup child)) else 0)
                  = if queue = path then filesIn disk.tree queue else 0 := by
                by_cases heq : queue = path
                · rw [if_pos heq.symm, if_pos heq, filesIn, heq]
                · rw [if_neg (Ne.symm heq), if_neg heq]
              rw [ih _ _ hall (by rw [hsum]; omega), hsum, hsum, hfiles, hshare, hbytes, hat]
              congr 3 <;> omega

end Walk

/-- The usage of a harness as the disk shows it. -/
def usageOf (allocated : Path → Entry → Nat) (tree : FileTree) (root queue : Path) :
    RetentionUsage where
  queueEntries := min (filesIn tree queue) u64Max
  bytes := min (tree.total (bytesAt allocated tree) root) u64Max

/-- On a disk that works the usage is that of the tree. -/
theorem exec_retentionUsage {disk : Disk} (hworks : disk.faults = [])
    (allocated : Path → Entry → Nat) {root queue : Path} (hqueue : root <+: queue) :
    (retentionUsage allocated root queue).exec disk
      = (.ok (usageOf allocated disk.tree root queue), disk) := by
  unfold retentionUsage
  rw [Op.exec_bind_ok (Disk.exec_exists_works hworks root)]
  cases hroot : disk.tree.lookup root with
  | none =>
      have hnone : disk.tree.lookup queue = none := by
        by_contra hsome
        have hsome := Option.isSome_iff_ne_none.mpr hsome
        by_cases hself : root = queue
        · rw [← hself, hroot] at hsome
          cases hsome
        · rw [FileTree.lookup_above hsome hqueue hself] at hroot
          cases hroot
      rw [usageOf, filesIn_of_lookup_none hnone, FileTree.total_of_lookup_none _ hroot]
      rfl
  | some entry =>
      simp only [Option.isSome_some, if_true]
      rw [Op.exec_bind_ok (Op.exec_get _)]
      have hrounds : ([root].map (disk.tree.total fun _ => 1)).sum
          < disk.tree.map.keys.length + 1 := by
        have := disk.tree.total_one_le root
        simp only [List.map_cons, List.map_nil, List.sum_cons, List.sum_nil]
        omega
      have hpending : ∀ path ∈ [root], (disk.tree.lookup path).isSome := by simp [hroot]
      have hwalk := exec_walk hworks allocated queue 0 0 hpending hrounds
      simp only [Nat.zero_min, Nat.zero_add, List.map_cons, List.map_nil, List.sum_cons,
        List.sum_nil, Nat.add_zero] at hwalk
      rw [hwalk, queueShare, if_pos hqueue]
      rfl

/-! ## What changes the count of files -/

/-- The files of a directory, as a set. -/
def fileSet (tree : FileTree) (path : Path) : Finset Path :=
  tree.paths.filter fun child => child ≠ [] ∧ child.dropLast = path
    ∧ isFileEntry (tree.lookup child) = true

theorem filesIn_eq_card (tree : FileTree) (path : Path) :
    filesIn tree path = (fileSet tree path).card := by
  rw [filesIn, List.countP_eq_length_filter,
    ← List.toFinset_card_of_nodup ((tree.children_nodup path).filter _)]
  congr 1
  ext child
  simp only [List.mem_toFinset, List.mem_filter, FileTree.mem_children, fileSet,
    Finset.mem_filter, FileTree.mem_paths]
  tauto

theorem mem_fileSet {tree : FileTree} {path child : Path} :
    child ∈ fileSet tree path ↔ child ≠ [] ∧ child.dropLast = path
      ∧ isFileEntry (tree.lookup child) = true := by
  simp only [fileSet, Finset.mem_filter, FileTree.mem_paths]
  constructor
  · exact fun h => h.2
  · refine fun h => ⟨?_, h⟩
    cases hlookup : tree.lookup child with
    | none => simp [hlookup, isFileEntry] at h
    | some entry => rfl

/-- The count only looks at the entries right below the directory. -/
theorem filesIn_congr {tree tree' : FileTree} {path : Path}
    (h : ∀ child ≠ [], child.dropLast = path → tree'.lookup child = tree.lookup child) :
    filesIn tree' path = filesIn tree path := by
  rw [filesIn_eq_card, filesIn_eq_card]
  congr 1
  ext child
  rw [mem_fileSet, mem_fileSet]
  constructor
  · intro ⟨hne, hparent, hfile⟩
    exact ⟨hne, hparent, by rwa [← h child hne hparent]⟩
  · intro ⟨hne, hparent, hfile⟩
    exact ⟨hne, hparent, by rwa [h child hne hparent]⟩

/-- One entry more or changed is one file more at most. -/
theorem filesIn_le_succ {tree tree' : FileTree} {path : Path} (changed : Path)
    (h : ∀ child ≠ [], child.dropLast = path → child ≠ changed →
      tree'.lookup child = tree.lookup child) :
    filesIn tree' path ≤ filesIn tree path + 1 := by
  rw [filesIn_eq_card, filesIn_eq_card]
  refine le_trans (Finset.card_le_card fun child hchild => ?_)
    (Finset.card_insert_le changed (fileSet tree path))
  rw [Finset.mem_insert]
  obtain ⟨hne, hparent, hfile⟩ := mem_fileSet.mp hchild
  by_cases heq : child = changed
  · exact .inl heq
  · exact .inr (mem_fileSet.mpr ⟨hne, hparent, by rwa [← h child hne hparent heq]⟩)

/-! ## A reservation -/

def Session.withUsage (s : Session) (harnessId : String) (usage : RetentionUsage) : Session :=
  { s with manager := { s.manager with
      usage := Function.update s.manager.usage harnessId (some usage) } }

/-- The bytes that files of these lengths are taken to need. -/
def estimate (fileLengths : List Nat) : Nat := (fileLengths.map estimatedAllocatedBytes).sum

theorem foldl_addBytes (fileLengths : List Nat) (start : Nat) :
    fileLengths.foldl (fun total length => addBytes total (estimatedAllocatedBytes length))
        (min start u64Max)
      = min (start + estimate fileLengths) u64Max := by
  induction fileLengths generalizing start with
  | nil => simp [estimate]
  | cons length fileLengths ih =>
      rw [List.foldl_cons, addBytes_min, ih]
      simp only [estimate, List.map_cons, List.sum_cons]
      rw [Nat.add_assoc]

/-- The usage `reserve` starts from. -/
def Session.currentUsage (allocated : Path → Entry → Nat) (s : Session) (harnessId : String) :
    RetentionUsage :=
  (s.manager.usage harnessId).getD
    (usageOf allocated s.disk.tree (harnessRoot harnessId) (queueDir harnessId))

theorem exec_measure {s : Session} (hworks : s.disk.faults = [])
    (allocated : Path → Entry → Nat) (harnessId : String) :
    (measure allocated harnessId).exec s
      = (.ok (s.currentUsage allocated harnessId),
          s.withUsage harnessId (s.currentUsage allocated harnessId)) := by
  unfold measure
  rw [Op.exec_bind_ok (Op.exec_get _)]
  cases husage : s.manager.usage harnessId with
  | some usage =>
      have hsame : s.withUsage harnessId usage = s := by
        rw [Session.withUsage, ← husage, Function.update_eq_self]
      simp only [Session.currentUsage, husage, Option.getD_some, hsame]
      rfl
  | none =>
      have hqueue : harnessRoot harnessId <+: queueDir harnessId := ⟨["queue"], rfl⟩
      have hread : (onDisk (retentionUsage allocated (harnessRoot harnessId)
          (queueDir harnessId))).exec s
          = (.ok (usageOf allocated s.disk.tree (harnessRoot harnessId) (queueDir harnessId)),
            s) := by
        rw [exec_onDisk, exec_retentionUsage hworks allocated hqueue]
      simp only [Session.currentUsage, husage, Option.getD_none]
      rw [Op.exec_bind_ok hread]
      rfl

/-- A reservation of one queue entry: the usage it leaves and its answer. -/
theorem exec_reserve {s : Session} (hworks : s.disk.faults = []) {limits : RetentionLimits}
    (hretention : s.manager.retention = some limits) (allocated : Path → Entry → Nat)
    (harnessId : String) (fileLengths : List Nat) :
    ∃ room usage,
      (reserve allocated harnessId 1 fileLengths).exec s = (.ok room, s.withUsage harnessId usage)
      ∧ (room = true →
          addBytes (s.currentUsage allocated harnessId).queueEntries 1 = usage.queueEntries
          ∧ addBytes (s.currentUsage allocated harnessId).bytes
              (min (estimate fileLengths) u64Max) = usage.bytes
          ∧ usage.queueEntries ≤ limits.entries ∧ usage.bytes ≤ limits.bytes)
      ∧ (room = false → usage = s.currentUsage allocated harnessId) := by
  have hadded : fileLengths.foldl
      (fun total length => addBytes total (estimatedAllocatedBytes length)) 0
      = min (estimate fileLengths) u64Max := by
    simpa using foldl_addBytes fileLengths 0
  unfold reserve
  rw [Op.exec_bind_ok (Op.exec_get _), hretention]
  dsimp only
  rw [Op.exec_bind_ok (exec_measure hworks allocated harnessId), hadded]
  split
  case isTrue hfull => exact ⟨false, _, rfl, by simp, fun _ => rfl⟩
  case isFalse hfits =>
    obtain ⟨hentries, hbytes⟩ := not_or.mp hfits
    refine ⟨true,
      { queueEntries := addBytes (s.currentUsage allocated harnessId).queueEntries 1
        bytes := addBytes (s.currentUsage allocated harnessId).bytes
          (min (estimate fileLengths) u64Max) },
      ?_, fun _ => ⟨rfl, rfl, not_lt.mp hentries, not_lt.mp hbytes⟩, by simp⟩
    rw [Op.exec_bind_ok (show (setUsage harnessId _).exec _ = _ from rfl)]
    simp only [Session.withUsage, Function.update_idem]
    rfl

/-! ## Staying within the limits -/

/-- The bytes taken to be needed by all files written so far. -/
def spent (journal : List (Path × List UInt8)) : Nat :=
  estimate (journal.map fun file => file.2.length)

theorem spent_append (first second : List (Path × List UInt8)) :
    spent (first ++ second) = spent first + spent second := by
  simp [spent, estimate]

/-- A working disk, the harness within its limits, and what `reserve` goes
by no less than what is there. -/
structure Within (allocated : Path → Entry → Nat) (harnessId : String) (limits : RetentionLimits)
    (initialBytes : Nat) (s : Session) : Prop where
  works : s.disk.faults = []
  retention : s.manager.retention = some limits
  files : min (filesIn s.disk.tree (queueDir harnessId)) u64Max ≤ limits.entries
  bytes : min (initialBytes + spent s.disk.journal) u64Max ≤ limits.bytes
  trackedFiles : min (filesIn s.disk.tree (queueDir harnessId)) u64Max
    ≤ (s.currentUsage allocated harnessId).queueEntries
  trackedBytes : min (initialBytes + spent s.disk.journal) u64Max
    ≤ (s.currentUsage allocated harnessId).bytes

section

variable {allocated : Path → Entry → Nat} {harnessId : String} {limits : RetentionLimits}
  {initialBytes : Nat}

/-- Directories above the files add bytes to measure and no files. -/
theorem Within.createDirAll {s : Session} (h : Within allocated harnessId limits initialBytes s)
    {path : Path} (hpath : path.length < 4) :
    Within allocated harnessId limits initialBytes
      ((onDisk (Disk.createDirAll path)).exec s).2 := by
  rw [exec_onDisk]
  obtain ⟨htree, hjournal⟩ := Disk.exec_createDirAll path s.disk
  have hworks := Disk.works_createDirAll path s.disk h.works
  generalize ((Disk.createDirAll path).exec s.disk).2 = disk at htree hjournal hworks
  have hlookup : ∀ other, disk.tree.lookup other = s.disk.tree.lookup other
      ∨ (other <+: path ∧ s.disk.tree.lookup other = none) := by
    intro other
    rcases htree with htree | htree
    · exact .inl (by rw [htree])
    · rw [htree]
      exact FileTree.lookup_mkdirs _ _ _
  -- the directories above the path are no files of the queue
  have hfiles : filesIn disk.tree (queueDir harnessId)
      = filesIn s.disk.tree (queueDir harnessId) := by
    refine filesIn_congr fun child hne hparent => ?_
    rcases hlookup child with heq | ⟨hahead, -⟩
    · exact heq
    · have hlen := hahead.length_le
      have hdrop := congrArg List.length hparent
      rw [List.length_dropLast] at hdrop
      simp only [queueDir, List.length_cons, List.length_nil] at hdrop
      omega
  -- what was there is as it was
  have htotal : s.disk.tree.total (bytesAt allocated s.disk.tree) (harnessRoot harnessId)
      ≤ disk.tree.total (bytesAt allocated disk.tree) (harnessRoot harnessId) := by
    have hsame : ∀ other, (s.disk.tree.lookup other).isSome →
        disk.tree.lookup other = s.disk.tree.lookup other := by
      intro other hsome
      rcases hlookup other with heq | ⟨-, hnone⟩
      · exact heq
      · rw [hnone] at hsome
        cases hsome
    refine FileTree.total_mono ?_ ?_ _
    · exact fun other hsome => by rw [hsame other hsome]; exact hsome
    · exact fun other hsome => by rw [bytesAt, bytesAt, hsame other hsome]
  have hcurrent : (s.currentUsage allocated harnessId).queueEntries
        ≤ (Session.currentUsage allocated ⟨s.manager, disk⟩ harnessId).queueEntries
      ∧ (s.currentUsage allocated harnessId).bytes
        ≤ (Session.currentUsage allocated ⟨s.manager, disk⟩ harnessId).bytes := by
    simp only [Session.currentUsage]
    cases s.manager.usage harnessId with
    | some usage => exact ⟨le_rfl, le_rfl⟩
    | none =>
        simp only [Option.getD_none, usageOf, hfiles]
        omega
  refine ⟨hworks, h.retention, ?_, ?_, ?_, ?_⟩
  · simpa only [hfiles] using h.files
  · simpa only [hjournal] using h.bytes
  · simpa only [hfiles] using le_trans h.trackedFiles hcurrent.1
  · simpa only [hjournal] using le_trans h.trackedBytes hcurrent.2

theorem currentUsage_withUsage (s : Session) (usage : RetentionUsage) :
    (s.withUsage harnessId usage).currentUsage allocated harnessId = usage := by
  simp [Session.withUsage, Session.currentUsage]

/-- A refused reservation only remembers what it measured. -/
theorem Within.refused {s : Session} (h : Within allocated harnessId limits initialBytes s) :
    Within allocated harnessId limits initialBytes
      (s.withUsage harnessId (s.currentUsage allocated harnessId)) :=
  ⟨h.works, h.retention, h.files, h.bytes,
    by rw [currentUsage_withUsage]; exact h.trackedFiles,
    by rw [currentUsage_withUsage]; exact h.trackedBytes⟩

/-- A granted reservation has room for its files, of which one at most is
in the queue. -/
theorem Within.granted {s t : Session} (h : Within allocated harnessId limits initialBytes s)
    {usage : RetentionUsage} {files : List (Path × List UInt8)} (changed : Path)
    (hentries : addBytes (s.currentUsage allocated harnessId).queueEntries 1
      = usage.queueEntries)
    (hbytes : addBytes (s.currentUsage allocated harnessId).bytes
      (min (spent files) u64Max) = usage.bytes)
    (hlimitEntries : usage.queueEntries ≤ limits.entries)
    (hlimitBytes : usage.bytes ≤ limits.bytes)
    (hone : ∀ file ∈ files, file.1 ≠ changed → file.1.dropLast ≠ queueDir harnessId)
    (hwrite : (writeAll files).exec (s.withUsage harnessId usage) = (.ok (), t)) :
    Within allocated harnessId limits initialBytes t := by
  obtain ⟨hmanager, hjournal, hworks⟩ := exec_writeAll_state hwrite
  -- one file of the queue at most is new
  have hfiles : filesIn t.disk.tree (queueDir harnessId)
      ≤ filesIn s.disk.tree (queueDir harnessId) + 1 := by
    refine filesIn_le_succ changed fun child hne hparent hchanged => ?_
    rcases exec_writeAll hwrite child with ⟨contents, hmem, -⟩ | ⟨-, heq⟩
    · exact absurd hparent (hone _ hmem hchanged)
    · exact heq
  have hspent : spent t.disk.journal = spent s.disk.journal + spent files := by
    rw [hjournal, spent_append]
    rfl
  have hcurrent : t.currentUsage allocated harnessId = usage := by
    rw [Session.currentUsage, hmanager]
    simp [Session.withUsage]
  have hroomEntries : min (filesIn t.disk.tree (queueDir harnessId)) u64Max
      ≤ usage.queueEntries := by
    rw [← hentries]
    exact le_trans (min_le_min_right _ hfiles) (addBytes_tracked h.trackedFiles (min_le_left 1 _))
  have hroomBytes : min (initialBytes + spent t.disk.journal) u64Max ≤ usage.bytes := by
    rw [← hbytes, hspent, ← Nat.add_assoc]
    exact addBytes_tracked h.trackedBytes le_rfl
  exact ⟨hworks h.works, by rw [hmanager]; exact h.retention, le_trans hroomEntries hlimitEntries,
    le_trans hroomBytes hlimitBytes, by rw [hcurrent]; exact hroomEntries,
    by rw [hcurrent]; exact hroomBytes⟩

theorem Within.markSeen {s : Session} (h : Within allocated harnessId limits initialBytes s)
    (hex : String) : Within allocated harnessId limits initialBytes
      ((markSeen harnessId hex).exec s).2 :=
  ⟨h.works, h.retention, h.files, h.bytes, h.trackedFiles, h.trackedBytes⟩

/-- Recording one signature keeps the harness within its limits, whatever the answer. -/
theorem Within.recordOne {s t : Session} (h : Within allocated harnessId limits initialBytes s)
    {input : List UInt8} {found : Signature × Classification} {outcome : Outcome}
    (hrun : (recordOne allocated harnessId input found).exec s = (.ok outcome, t)) :
    Within allocated harnessId limits initialBytes t := by
  have hlook : (onDisk (Disk.exists (sigPath harnessId found.1.hex))).exec s
      = (.ok (s.disk.tree.lookup (sigPath harnessId found.1.hex)).isSome, s) := by
    rw [exec_onDisk, Disk.exec_exists_works h.works]
  unfold GovFuzz.Corpus.recordOne at hrun
  rw [Op.exec_bind_ok hlook, Op.exec_bind_ok (Op.exec_get _)] at hrun
  split at hrun
  case isTrue =>
    -- seen before, in memory or on disk: nothing is written
    obtain ⟨-, rfl⟩ := Prod.mk.inj hrun
    exact h
  case isFalse =>
    unfold recordNew at hrun
    obtain ⟨_, s₁, hmark, hrun⟩ := Op.exec_bind_eq_ok hrun
    have h₁ : Within allocated harnessId limits initialBytes s₁ := by
      have := h.markSeen found.1.hex
      rwa [hmark] at this
    obtain ⟨room, usage, hreserve, hgranted, hrefused⟩ := exec_reserve h₁.works h₁.retention
      allocated harnessId ((reproducerFiles harnessId found.1.hex input
        (isSwallowed found.2)).map fun file => file.2.length)
    rw [Op.exec_bind_ok hreserve] at hrun
    cases room with
    | false =>
        -- refused: the signature is marked as seen and nothing else
        obtain ⟨-, rfl⟩ := Prod.mk.inj hrun
        rw [hrefused rfl]
        exact h₁.refused
    | true =>
        obtain ⟨hentries, hbytes, hlimitEntries, hlimitBytes⟩ := hgranted rfl
        obtain ⟨_, s₂, hwrite, hrun⟩ := Op.exec_bind_eq_ok hrun
        obtain ⟨-, rfl⟩ := Prod.mk.inj hrun
        refine h₁.granted (queuePath harnessId found.1.hex) hentries hbytes hlimitEntries
          hlimitBytes ?_ hwrite
        -- of the files that are written only the reproducer is in the queue
        intro file hfile hne
        cases hswallowed : isSwallowed found.2 with
        | true =>
            simp only [reproducerFiles, hswallowed, if_true, List.cons_append, List.nil_append,
              List.mem_cons, List.not_mem_nil, or_false] at hfile
            rcases hfile with rfl | rfl | rfl
            · simp [sigPath, queueDir]
            · exact absurd rfl hne
            · simp [swallowedPath, queueDir]
        | false =>
            simp only [reproducerFiles, hswallowed, Bool.false_eq_true, if_false,
              List.append_nil, List.mem_cons, List.not_mem_nil, or_false] at hfile
            rcases hfile with rfl | rfl
            · simp [sigPath, queueDir]
            · exact absurd rfl hne

theorem Within.recordAll {s t : Session} (h : Within allocated harnessId limits initialBytes s)
    {input : List UInt8} {rest : List (Signature × Classification)}
    {answers : List ((Signature × Classification) × Outcome)}
    (hrun : (recordAll allocated harnessId input rest).exec s = (.ok answers, t)) :
    Within allocated harnessId limits initialBytes t := by
  induction rest generalizing s answers with
  | nil =>
      obtain ⟨-, rfl⟩ := Prod.mk.inj hrun
      exact h
  | cons first rest ih =>
      unfold GovFuzz.Corpus.recordAll at hrun
      obtain ⟨outcome, u, hfirst, hrun⟩ := Op.exec_bind_eq_ok hrun
      obtain ⟨later, v, hrest, hrun⟩ := Op.exec_bind_eq_ok hrun
      obtain ⟨-, rfl⟩ := Prod.mk.inj hrun
      exact ih (h.recordOne hfirst) hrest

theorem Within.record {sha256 : List UInt8 → Signature} {s t : Session}
    (h : Within allocated harnessId limits initialBytes s) {input : List UInt8}
    {events : List Event} {answers : List ((Signature × Classification) × Outcome)}
    (hrun : (record allocated sha256 harnessId input events).exec s = (.ok answers, t)) :
    Within allocated harnessId limits initialBytes t := by
  have hdir : ∀ path : Path, path.length < 4 → (onDisk (Disk.createDirAll path)).Keeps
      (Within allocated harnessId limits initialBytes) :=
    fun path hpath s hs => hs.createDirAll hpath
  have hdirs : (createDirs harnessId).Keeps (Within allocated harnessId limits initialBytes) :=
    (hdir _ (by simp [sigsDir])).bind fun _ => (hdir _ (by simp [queueDir])).bind fun _ =>
      hdir _ (by simp [swallowedDir])
  unfold GovFuzz.Corpus.record at hrun
  obtain ⟨_, u, hmade, hrun⟩ := Op.exec_bind_eq_ok hrun
  have hu := hdirs s h
  rw [hmade] at hu
  exact hu.recordAll hrun

end

/-! ## Coverage inputs -/

section

variable {allocated : Path → Entry → Nat} {sha256 : List UInt8 → Signature} {harnessId : String}
  {limits : RetentionLimits} {initialBytes : Nat}

/-- Where an input is kept. -/
def contentPath (sha256 : List UInt8 → Signature) (harnessId : String) (bytes : List UInt8) :
    Path :=
  queuePath harnessId (contentHex (sha256 bytes))

/-- One coverage input: it keeps the limits; either it writes nothing, or
its path was free and now holds the input. -/
theorem exec_persistOne {s t : Session} (h : Within allocated harnessId limits initialBytes s)
    {bytes : List UInt8} {outcome : PersistOutcome}
    (hrun : (persistOne allocated sha256 harnessId bytes).exec s = (.ok outcome, t)) :
    Within allocated harnessId limits initialBytes t
      ∧ ((outcome ≠ .written ∧ t.disk = s.disk
            ∧ (outcome = .present →
                (s.disk.tree.lookup (contentPath sha256 harnessId bytes)).isSome))
        ∨ (outcome = .written ∧ bytes ≠ []
            ∧ s.disk.tree.lookup (contentPath sha256 harnessId bytes) = none
            ∧ t.disk.tree.lookup (contentPath sha256 harnessId bytes) = some (.file bytes)
            ∧ ∀ other ≠ contentPath sha256 harnessId bytes,
                t.disk.tree.lookup other = s.disk.tree.lookup other)) := by
  unfold persistOne at hrun
  split at hrun
  case isTrue =>
    -- an empty input is not persisted
    obtain ⟨hout, rfl⟩ := Prod.mk.inj hrun
    obtain rfl := Except.ok.inj hout
    exact ⟨h, .inl ⟨by simp, rfl, by simp⟩⟩
  case isFalse hempty =>
    have hlook : (onDisk (Disk.exists (contentPath sha256 harnessId bytes))).exec s
        = (.ok (s.disk.tree.lookup (contentPath sha256 harnessId bytes)).isSome, s) := by
      rw [exec_onDisk, Disk.exec_exists_works h.works]
    change ((onDisk (Disk.exists (contentPath sha256 harnessId bytes))) >>= _).exec s = _ at hrun
    rw [Op.exec_bind_ok hlook] at hrun
    split at hrun
    case isTrue hpresent =>
      obtain ⟨hout, rfl⟩ := Prod.mk.inj hrun
      exact ⟨h, .inl ⟨by rw [← Except.ok.inj hout]; simp, rfl, fun _ => hpresent⟩⟩
    case isFalse habsent =>
      obtain ⟨room, usage, hreserve, hgranted, hrefused⟩ := exec_reserve h.works h.retention
        allocated harnessId [bytes.length]
      rw [Op.exec_bind_ok hreserve] at hrun
      cases room with
      | false =>
          -- refused, with the disk as it was
          obtain ⟨hout, rfl⟩ := Prod.mk.inj hrun
          rw [hrefused rfl]
          exact ⟨h.refused, .inl ⟨by rw [← Except.ok.inj hout]; simp, rfl,
            by rw [← Except.ok.inj hout]; simp⟩⟩
      | true =>
          -- written, and nothing else on the disk is changed
          obtain ⟨hentries, hbytes, hlimitEntries, hlimitBytes⟩ := hgranted rfl
          obtain ⟨_, s₁, hwrite, hrun⟩ := Op.exec_bind_eq_ok hrun
          obtain ⟨hout, rfl⟩ := Prod.mk.inj hrun
          change (onDisk (Disk.write (contentPath sha256 harnessId bytes) bytes)).exec _ = _
            at hwrite
          change addBytes _ (min (spent [(contentPath sha256 harnessId bytes, bytes)]) u64Max)
            = _ at hbytes
          have hall : (writeAll [(contentPath sha256 harnessId bytes, bytes)]).exec
              (s.withUsage harnessId usage) = (.ok (), s₁) := by
            unfold writeAll
            rw [Op.exec_bind_ok hwrite]
            rfl
          refine ⟨h.granted (contentPath sha256 harnessId bytes) hentries hbytes hlimitEntries
            hlimitBytes ?_ hall, .inr ⟨(Except.ok.inj hout).symm, ?_, ?_, ?_, ?_⟩⟩
          · intro file hfile hne
            rw [List.mem_singleton.mp hfile] at hne
            exact absurd rfl hne
          · simpa using hempty
          · simpa using habsent
          · rcases exec_writeAll hall (contentPath sha256 harnessId bytes) with
              ⟨contents, hmem, hlookup⟩ | ⟨hnot, -⟩
            · simp only [List.mem_singleton, Prod.mk.injEq, true_and] at hmem
              rw [hlookup, hmem]
            · simp at hnot
          · intro other hother
            rcases exec_writeAll hall other with ⟨contents, hmem, -⟩ | ⟨-, hlookup⟩
            · simp only [List.mem_singleton, Prod.mk.injEq] at hmem
              exact absurd hmem.1 hother
            · exact hlookup

theorem Within.persistAll {s t : Session} (h : Within allocated harnessId limits initialBytes s)
    {inputs : List (List UInt8)} {answers : List (List UInt8 × PersistOutcome)}
    (hrun : (persistAll allocated sha256 harnessId inputs).exec s = (.ok answers, t)) :
    Within allocated harnessId limits initialBytes t := by
  induction inputs generalizing s answers with
  | nil =>
      obtain ⟨-, rfl⟩ := Prod.mk.inj hrun
      exact h
  | cons bytes inputs ih =>
      unfold GovFuzz.Corpus.persistAll at hrun
      obtain ⟨outcome, u, hfirst, hrun⟩ := Op.exec_bind_eq_ok hrun
      obtain ⟨later, v, hrest, hrun⟩ := Op.exec_bind_eq_ok hrun
      obtain ⟨-, rfl⟩ := Prod.mk.inj hrun
      exact ih (exec_persistOne h hfirst).1 hrest

/-- A persist call starts by making the queue's directory. -/
theorem persist_start {s t : Session} (h : Within allocated harnessId limits initialBytes s)
    {inputs : List (List UInt8)} {answers : List (List UInt8 × PersistOutcome)}
    (hrun : (persistCoverageCorpus allocated sha256 harnessId inputs).exec s
      = (.ok answers, t)) :
    ∃ u, Within allocated harnessId limits initialBytes u
      ∧ (∀ path : Path, path.length = 4 →
          u.disk.tree.lookup path = s.disk.tree.lookup path)
      ∧ u.disk.journal = s.disk.journal
      ∧ (persistAll allocated sha256 harnessId inputs).exec u = (.ok answers, t) := by
  unfold persistCoverageCorpus at hrun
  obtain ⟨_, u, hmade, hrun⟩ := Op.exec_bind_eq_ok hrun
  have hu := h.createDirAll (show (queueDir harnessId).length < 4 by simp [queueDir])
  rw [hmade] at hu
  rw [exec_onDisk] at hmade
  obtain ⟨-, rfl⟩ := Prod.mk.inj hmade
  exact ⟨_, hu, fun path hpath => lookup_createDirAll (by simp [queueDir]) hpath s.disk,
    (Disk.exec_createDirAll (queueDir harnessId) s.disk).2, hrun⟩

/-! ## What becomes of an input -/

/-- The input is in the queue under its content hash. -/
def Session.Held (sha256 : List UInt8 → Signature) (harnessId : String) (s : Session)
    (bytes : List UInt8) : Prop :=
  s.disk.tree.lookup (contentPath sha256 harnessId bytes) = some (.file bytes)

theorem queuePath_injective {hex hex' : String}
    (h : queuePath harnessId hex = queuePath harnessId hex') : hex = hex' := by
  simpa [queuePath] using h

/-- Persisting never touches what is there. -/
theorem persistAll_keeps {s t : Session} (h : Within allocated harnessId limits initialBytes s)
    {inputs : List (List UInt8)} {answers : List (List UInt8 × PersistOutcome)}
    (hrun : (persistAll allocated sha256 harnessId inputs).exec s = (.ok answers, t))
    {path : Path} {entry : Entry} (hentry : s.disk.tree.lookup path = some entry) :
    t.disk.tree.lookup path = some entry := by
  induction inputs generalizing s answers with
  | nil =>
      obtain ⟨-, rfl⟩ := Prod.mk.inj hrun
      exact hentry
  | cons bytes inputs ih =>
      unfold GovFuzz.Corpus.persistAll at hrun
      obtain ⟨outcome, u, hfirst, hrun⟩ := Op.exec_bind_eq_ok hrun
      obtain ⟨later, v, hrest, hrun⟩ := Op.exec_bind_eq_ok hrun
      obtain ⟨-, rfl⟩ := Prod.mk.inj hrun
      obtain ⟨hu, hcases⟩ := exec_persistOne h hfirst
      refine ih hu hrest ?_
      rcases hcases with ⟨-, hdisk, -⟩ | ⟨-, -, hfree, -, hothers⟩
      · rw [hdisk]
        exact hentry
      · have hne : path ≠ contentPath sha256 harnessId bytes := by
          intro heq
          rw [heq, hfree] at hentry
          cases hentry
        rw [hothers path hne]
        exact hentry

/-- Inputs that do not get in each other's way, nor in the way of what is
in the queue. -/
def NamesAgree (sha256 : List UInt8 → Signature) (harnessId : String) (s : Session)
    (inputs : List (List UInt8)) : Prop :=
  ∀ bytes ∈ inputs,
    (∀ entry, s.disk.tree.lookup (contentPath sha256 harnessId bytes) = some entry →
      entry = .file bytes)
    ∧ ∀ other ∈ inputs, contentHex (sha256 other) = contentHex (sha256 bytes) → other = bytes

/-- Such inputs, where they are not refused, end up in the queue. -/
theorem persistAll_held {s t : Session} (h : Within allocated harnessId limits initialBytes s)
    {inputs : List (List UInt8)} {answers : List (List UInt8 × PersistOutcome)}
    (hrun : (persistAll allocated sha256 harnessId inputs).exec s = (.ok answers, t))
    (hagree : NamesAgree sha256 harnessId s inputs) :
    ∀ answer ∈ answers, answer.2 = .written ∨ answer.2 = .present →
      t.Held sha256 harnessId answer.1 := by
  induction inputs generalizing s answers with
  | nil =>
      obtain ⟨hout, -⟩ := Prod.mk.inj hrun
      obtain rfl := Except.ok.inj hout
      simp
  | cons bytes inputs ih =>
      unfold GovFuzz.Corpus.persistAll at hrun
      obtain ⟨outcome, u, hfirst, hrun⟩ := Op.exec_bind_eq_ok hrun
      obtain ⟨later, v, hrest, hrun⟩ := Op.exec_bind_eq_ok hrun
      obtain ⟨hout, rfl⟩ := Prod.mk.inj hrun
      obtain rfl := Except.ok.inj hout
      obtain ⟨hu, hcases⟩ := exec_persistOne h hfirst
      -- what the first input has written agrees with the names of the others
      have hagree' : NamesAgree sha256 harnessId u inputs := by
        intro other hother
        obtain ⟨hclear, hsame⟩ := hagree other (List.mem_cons_of_mem _ hother)
        refine ⟨fun entry hentry => ?_, fun third hthird => hsame third
          (List.mem_cons_of_mem _ hthird)⟩
        rcases hcases with ⟨-, hdisk, -⟩ | ⟨-, -, -, hthere, hothers⟩
        · rw [hdisk] at hentry
          exact hclear entry hentry
        · by_cases heq : contentPath sha256 harnessId other = contentPath sha256 harnessId bytes
          · obtain rfl := hsame bytes List.mem_cons_self (queuePath_injective heq.symm)
            rw [hthere] at hentry
            exact (Option.some.inj hentry).symm
          · rw [hothers _ heq] at hentry
            exact hclear entry hentry
      intro answer hanswer hstored
      rcases List.mem_cons.mp hanswer with rfl | hanswer
      · refine persistAll_keeps hu hrest ?_
        rcases hcases with ⟨hnot, hdisk, hpresent⟩ | ⟨-, -, -, hthere, -⟩
        · obtain ⟨entry, hentry⟩ := Option.isSome_iff_exists.mp
            (hpresent (hstored.resolve_left hnot))
          rw [hdisk, hentry, (hagree bytes List.mem_cons_self).1 entry hentry]
        · exact hthere
      · exact ih hu hrest hagree' answer hanswer hstored

/-- What a recorded signature does to the disk. -/
theorem recordOne_tree {s t : Session} {input : List UInt8}
    {found : Signature × Classification} {outcome : Outcome}
    (hrun : (recordOne allocated harnessId input found).exec s = (.ok outcome, t)) :
    t.disk.tree = s.disk.tree
      ∨ ∃ s', s'.disk.tree = s.disk.tree
          ∧ (writeAll (reproducerFiles harnessId found.1.hex input (isSwallowed found.2))).exec s'
            = (.ok (), t) := by
  unfold GovFuzz.Corpus.recordOne at hrun
  obtain ⟨known, s₁, hlook, hrun⟩ := Op.exec_bind_eq_ok hrun
  have hread : s.Same s₁ := by
    have := keeps_onDisk (s := s) (fun _ _ => Disk.keeps_exists (sigPath harnessId found.1.hex)) s
      (Session.Same.refl s)
    rwa [hlook] at this
  rw [Op.exec_bind_ok (Op.exec_get _)] at hrun
  split at hrun
  case isTrue =>
    -- seen before: nothing is written
    obtain ⟨-, rfl⟩ := Prod.mk.inj hrun
    exact .inl hread.tree
  case isFalse =>
    unfold recordNew at hrun
    obtain ⟨_, s₂, hmark, hrun⟩ := Op.exec_bind_eq_ok hrun
    obtain ⟨room, s₃, hreserve, hrun⟩ := Op.exec_bind_eq_ok hrun
    have hroom : s₂.Same s₃ := by
      have := keeps_reserve allocated harnessId 1
        ((reproducerFiles harnessId found.1.hex input (isSwallowed found.2)).map
          fun file => file.2.length) s₂ (Session.Same.refl s₂)
      rwa [hreserve] at this
    have hmarked : s₂.disk = s₁.disk := by rw [← (Prod.mk.inj hmark).2]
    cases room with
    | false =>
        obtain ⟨-, rfl⟩ := Prod.mk.inj hrun
        exact .inl (by rw [hroom.tree, hmarked, hread.tree])
    | true =>
        obtain ⟨_, s₄, hwrite, hrun⟩ := Op.exec_bind_eq_ok hrun
        obtain ⟨-, rfl⟩ := Prod.mk.inj hrun
        exact .inr ⟨s₃, by rw [hroom.tree, hmarked, hread.tree], hwrite⟩

/-- A signature with another name, or with the input itself, leaves an
input where it is. -/
theorem Session.Held.recordOne {s t : Session} {bytes input : List UInt8}
    (h : s.Held sha256 harnessId bytes) {found : Signature × Classification} {outcome : Outcome}
    (hrun : (recordOne allocated harnessId input found).exec s = (.ok outcome, t))
    (hagree : contentHex (sha256 bytes) = found.1.hex → bytes = input) :
    t.Held sha256 harnessId bytes := by
  rcases recordOne_tree hrun with htree | ⟨s', htree, hwrite⟩
  · rw [Session.Held, htree]
    exact h
  · rcases exec_writeAll hwrite (contentPath sha256 harnessId bytes) with
      ⟨contents, hmem, hlookup⟩ | ⟨-, hlookup⟩
    · have hown : contentHex (sha256 bytes) = found.1.hex ∧ contents = input := by
        cases hswallowed : isSwallowed found.2 <;>
          simpa [reproducerFiles, hswallowed, contentPath, queuePath, sigPath, swallowedPath]
            using hmem
      rw [Session.Held, hlookup, hown.2, hagree hown.1]
    · rw [Session.Held, hlookup, htree]
      exact h

theorem Session.Held.recordAll {s t : Session} {bytes input : List UInt8}
    (h : s.Held sha256 harnessId bytes) {rest : List (Signature × Classification)}
    {answers : List ((Signature × Classification) × Outcome)}
    (hrun : (recordAll allocated harnessId input rest).exec s = (.ok answers, t))
    (hagree : ∀ found ∈ rest, contentHex (sha256 bytes) = found.1.hex → bytes = input) :
    t.Held sha256 harnessId bytes := by
  induction rest generalizing s answers with
  | nil =>
      obtain ⟨-, rfl⟩ := Prod.mk.inj hrun
      exact h
  | cons found rest ih =>
      unfold GovFuzz.Corpus.recordAll at hrun
      obtain ⟨outcome, u, hfirst, hrun⟩ := Op.exec_bind_eq_ok hrun
      obtain ⟨later, v, hrest, hrun⟩ := Op.exec_bind_eq_ok hrun
      obtain ⟨-, rfl⟩ := Prod.mk.inj hrun
      exact ih (h.recordOne hfirst (hagree found List.mem_cons_self)) hrest
        fun other hother => hagree other (List.mem_cons_of_mem _ hother)

theorem Session.Held.record {s t : Session} {bytes input : List UInt8}
    (h : s.Held sha256 harnessId bytes) {events : List Event}
    {answers : List ((Signature × Classification) × Outcome)}
    (hrun : (record allocated sha256 harnessId input events).exec s = (.ok answers, t))
    (hagree : ∀ found ∈ foundSignatures sha256 events,
      contentHex (sha256 bytes) = found.1.hex → bytes = input) :
    t.Held sha256 harnessId bytes := by
  have hdir : ∀ path : Path, path.length < 4 → (onDisk (Disk.createDirAll path)).Keeps
      (fun s => s.Held sha256 harnessId bytes) := by
    intro path hpath s hs
    rw [Session.Held, exec_onDisk, lookup_createDirAll hpath rfl]
    exact hs
  have hdirs : (createDirs harnessId).Keeps (fun s => s.Held sha256 harnessId bytes) :=
    (hdir _ (by simp [sigsDir])).bind fun _ => (hdir _ (by simp [queueDir])).bind fun _ =>
      hdir _ (by simp [swallowedDir])
  unfold GovFuzz.Corpus.record at hrun
  obtain ⟨_, u, hmade, hrun⟩ := Op.exec_bind_eq_ok hrun
  have hu := hdirs s h
  rw [hmade] at hu
  exact hu.recordAll hrun hagree

/-- Inputs that are all in the queue are not written again. -/
theorem persistAll_present {s t : Session} (h : Within allocated harnessId limits initialBytes s)
    {inputs : List (List UInt8)} {answers : List (List UInt8 × PersistOutcome)}
    (hrun : (persistAll allocated sha256 harnessId inputs).exec s = (.ok answers, t))
    (hpresent : ∀ bytes ∈ inputs, bytes = []
      ∨ (s.disk.tree.lookup (contentPath sha256 harnessId bytes)).isSome) :
    writtenCount answers = 0 ∧ t.disk = s.disk := by
  induction inputs generalizing s answers with
  | nil =>
      obtain ⟨hout, rfl⟩ := Prod.mk.inj hrun
      obtain rfl := Except.ok.inj hout
      exact ⟨rfl, rfl⟩
  | cons bytes inputs ih =>
      unfold GovFuzz.Corpus.persistAll at hrun
      obtain ⟨outcome, u, hfirst, hrun⟩ := Op.exec_bind_eq_ok hrun
      obtain ⟨later, v, hrest, hrun⟩ := Op.exec_bind_eq_ok hrun
      obtain ⟨hout, rfl⟩ := Prod.mk.inj hrun
      obtain rfl := Except.ok.inj hout
      obtain ⟨hu, hcases⟩ := exec_persistOne h hfirst
      rcases hcases with ⟨hnot, hdisk, -⟩ | ⟨-, hne, hfree, -⟩
      · obtain ⟨hcount, hsame⟩ := ih hu hrest (by
          rw [hdisk]
          exact fun other hother => hpresent other (List.mem_cons_of_mem _ hother))
        refine ⟨?_, hsame.trans hdisk⟩
        simp only [writtenCount] at hcount ⊢
        rw [List.countP_cons_of_neg (by simpa using hnot), hcount]
      · rcases hpresent bytes List.mem_cons_self with hempty | hsome
        · exact absurd hempty hne
        · rw [hfree] at hsome
          cases hsome

end

/-! ## Runs of successful calls -/

inductive Call where
  | record (input : List UInt8) (events : List Event)
  | persist (inputs : List (List UInt8))

/-- The inputs of a persist call that were not refused. -/
def storedInputs (answers : List (List UInt8 × PersistOutcome)) : List (List UInt8) :=
  (answers.filter fun answer => answer.2 = .written ∨ answer.2 = .present).map Prod.fst

/-- The states reached by successful calls for one harness, each allowed
by `allowed`, and the inputs persisted on the way. -/
inductive Run (allocated : Path → Entry → Nat) (sha256 : List UInt8 → Signature)
    (harnessId : String) (allowed : Session → List (List UInt8) → Call → Prop)
    (initial : Session) : Session → List (List UInt8) → Prop
  | start : Run allocated sha256 harnessId allowed initial initial []
  | record {s t : Session} {persisted : List (List UInt8)}
      (hbefore : Run allocated sha256 harnessId allowed initial s persisted)
      {input : List UInt8} {events : List Event}
      (hallowed : allowed s persisted (.record input events))
      {answers : List ((Signature × Classification) × Outcome)}
      (hrun : (record allocated sha256 harnessId input events).exec s = (.ok answers, t)) :
      Run allocated sha256 harnessId allowed initial t persisted
  | persist {s t : Session} {persisted : List (List UInt8)}
      (hbefore : Run allocated sha256 harnessId allowed initial s persisted)
      {inputs : List (List UInt8)} (hallowed : allowed s persisted (.persist inputs))
      {answers : List (List UInt8 × PersistOutcome)}
      (hrun : (persistCoverageCorpus allocated sha256 harnessId inputs).exec s
        = (.ok answers, t)) :
      Run allocated sha256 harnessId allowed initial t (persisted ++ storedInputs answers)

/-- A signature with the content hash of a persisted input as its name is
recorded with that input only, and inputs agree with what is in the queue
under their names. -/
def Agreeing (sha256 : List UInt8 → Signature) (harnessId : String) (s : Session)
    (persisted : List (List UInt8)) : Call → Prop
  | .record input events => ∀ found ∈ foundSignatures sha256 events, ∀ bytes ∈ persisted,
      contentHex (sha256 bytes) = found.1.hex → bytes = input
  | .persist inputs => NamesAgree sha256 harnessId s inputs

section

variable {allocated : Path → Entry → Nat} {sha256 : List UInt8 → Signature} {harnessId : String}
  {allowed : Session → List (List UInt8) → Call → Prop} {limits : RetentionLimits}
  {initialBytes : Nat} {initial s : Session} {persisted : List (List UInt8)}

theorem Run.within (hinitial : Within allocated harnessId limits initialBytes initial)
    (h : Run allocated sha256 harnessId allowed initial s persisted) :
    Within allocated harnessId limits initialBytes s := by
  induction h with
  | start => exact hinitial
  | record _ _ hrun ih => exact ih.record hrun
  | persist _ _ hrun ih =>
      obtain ⟨u, hu, -, -, hall⟩ := persist_start ih hrun
      exact hu.persistAll hall

theorem Run.held (hinitial : Within allocated harnessId limits initialBytes initial)
    (h : Run allocated sha256 harnessId (Agreeing sha256 harnessId) initial s persisted) :
    ∀ bytes ∈ persisted, s.Held sha256 harnessId bytes := by
  induction h with
  | start => simp
  | record hbefore hallowed hrun ih =>
      intro bytes hbytes
      exact (ih bytes hbytes).record hrun fun found hfound => hallowed found hfound bytes hbytes
  | persist hbefore hallowed hrun ih =>
      obtain ⟨u, hu, hlookup, -, hall⟩ := persist_start (hbefore.within hinitial) hrun
      intro bytes hbytes
      rcases List.mem_append.mp hbytes with hold | hnew
      · exact persistAll_keeps hu hall ((hlookup _ rfl).trans (ih bytes hold))
      · obtain ⟨answer, hanswer, rfl⟩ := List.mem_map.mp hnew
        obtain ⟨hanswer, hstored⟩ := List.mem_filter.mp hanswer
        refine persistAll_held hu hall ?_ answer hanswer (by simpa using hstored)
        intro other hother
        obtain ⟨hclear, hsame⟩ := hallowed other hother
        refine ⟨fun entry hentry => hclear entry ?_, hsame⟩
        rwa [hlookup _ rfl] at hentry

end

/-- Retention over whole runs.  A manager with limits, on a working disk
whose harness is within them, keeps within them whatever it is asked to
record and persist (files and bytes counted as the machine counts them),
and writes nothing for inputs that are in the queue.  In every run in which
no call puts another content under the name of a persisted input, every
persisted input is in the queue under its content hash, once. -/
theorem retention_limits_hold (allocated : Path → Entry → Nat) (sha256 : List UInt8 → Signature)
    (harnessId : String) (entries bytes : Nat) (tree : FileTree) (usage : RetentionUsage)
    (husage : ((retentionUsage allocated (harnessRoot harnessId) (queueDir harnessId)).exec
      { tree, faults := [], journal := [] }).1 = .ok usage)
    (hentries : usage.queueEntries ≤ entries) (hbytes : usage.bytes ≤ bytes) :
    (∀ s persisted, Run allocated sha256 harnessId (fun _ _ _ => True)
        ⟨CorpusManager.new.withRetentionLimits entries bytes, { tree, faults := [], journal := [] }⟩
        s persisted →
      min (filesIn s.disk.tree (queueDir harnessId)) u64Max ≤ entries
      ∧ min (usage.bytes + spent s.disk.journal) u64Max ≤ bytes
      ∧ ∀ inputs answers t,
          (∀ input ∈ inputs, input = []
            ∨ (s.disk.tree.lookup (contentPath sha256 harnessId input)).isSome) →
          (persistCoverageCorpus allocated sha256 harnessId inputs).exec s = (.ok answers, t) →
            writtenCount answers = 0 ∧ t.disk.journal = s.disk.journal)
    ∧ ∀ s persisted, Run allocated sha256 harnessId (Agreeing sha256 harnessId)
        ⟨CorpusManager.new.withRetentionLimits entries bytes, { tree, faults := [], journal := [] }⟩
        s persisted →
      ∀ input ∈ persisted, s.Held sha256 harnessId input
        ∧ (s.disk.tree.children (queueDir harnessId)).count (contentPath sha256 harnessId input)
          = 1 := by
  have hqueue : harnessRoot harnessId <+: queueDir harnessId := ⟨["queue"], rfl⟩
  have hmeasured : usage = usageOf allocated tree (harnessRoot harnessId) (queueDir harnessId) := by
    rw [exec_retentionUsage rfl allocated hqueue] at husage
    exact (Except.ok.inj husage).symm
  have hinitial : Within allocated harnessId ⟨entries, bytes⟩ usage.bytes
      ⟨CorpusManager.new.withRetentionLimits entries bytes,
        { tree, faults := [], journal := [] }⟩ := by
    refine ⟨rfl, rfl, ?_, ?_, ?_, ?_⟩
    · rwa [hmeasured] at hentries
    · exact le_trans (min_le_left _ _) hbytes
    · exact le_rfl
    · show min (usage.bytes + 0) u64Max ≤ _
      rw [Nat.add_zero, hmeasured]
      exact min_le_left _ _
  refine ⟨fun s persisted hrun => ?_, fun s persisted hrun input hinput => ?_⟩
  · have hwithin := hrun.within hinitial
    refine ⟨hwithin.files, hwithin.bytes, fun inputs answers t hpresent hpersist => ?_⟩
    obtain ⟨u, hu, hlookup, hjournal, hall⟩ := persist_start hwithin hpersist
    obtain ⟨hcount, hdisk⟩ := persistAll_present hu hall fun input hinput => by
      rw [hlookup _ rfl]
      exact hpresent input hinput
    exact ⟨hcount, by rw [hdisk, hjournal]⟩
  · have hheld := hrun.held hinitial input hinput
    refine ⟨hheld, List.count_eq_one_of_mem (FileTree.children_nodup _ _) ?_⟩
    rw [FileTree.mem_children]
    refine ⟨?_, by simp [contentPath, queuePath], rfl⟩
    rw [show s.disk.tree.lookup _ = _ from hheld]
    rfl

/-- A manager for so many queue entries and a mebibyte, on an empty disk. -/
def limitedSession (entries : Nat) : Session :=
  ⟨CorpusManager.new.withRetentionLimits entries 1048576,
    { tree := .empty, faults := [], journal := [] }⟩

/-- The digest of the two bytes 1 and 2. -/
def pairDigest : Signature where
  bytes := [161, 40, 113, 254, 226, 16, 251, 134, 25, 41, 30, 174, 161, 148, 88, 28,
    189, 37, 49, 228, 182, 55, 89, 210, 37, 246, 128, 105, 35, 246, 50, 34]
  length_eq := rfl

/-- Real digests of these bytes and of the text of `swallowedEvents`. -/
def pairHash (bytes : List UInt8) : Signature :=
  if bytes = [1, 2] then pairDigest else swallowedDigest

/-- A manager for one queue entry that has persisted the two bytes. -/
def storedSession : Session :=
  ((persistCoverageCorpus (fun _ _ => 4096) pairHash "h" [[1, 2]]).exec (limitedSession 1)).2

/-- Its state after the events were recorded: there is no room for their input. -/
def fullSession : Session :=
  ((record (fun _ _ => 4096) pairHash "h" [3] swallowedEvents).exec storedSession).2

/-- The persisted bytes fill the queue: the recorded input is refused, and they stay. -/
theorem retention_limits_hold_single :
    min (filesIn fullSession.disk.tree (queueDir "h")) u64Max ≤ 1
      ∧ min (0 + spent fullSession.disk.journal) u64Max ≤ 1048576
      ∧ fullSession.Held pairHash "h" [1, 2]
      ∧ (fullSession.disk.tree.children (queueDir "h")).count (contentPath pairHash "h" [1, 2])
        = 1 := by
  have hpersist : (persistCoverageCorpus (fun _ _ => 4096) pairHash "h" [[1, 2]]).exec
      (limitedSession 1) = (.ok [([1, 2], .written)], storedSession) :=
    Prod.ext (by decide) rfl
  have hrecord : (record (fun _ _ => 4096) pairHash "h" [3] swallowedEvents).exec storedSession
      = (.ok [((swallowedDigest, .swallowedPredefined), .refused)], fullSession) :=
    Prod.ext (by decide +kernel) rfl
  have hnamed : NamesAgree pairHash "h" (limitedSession 1) [[1, 2]] := by
    intro bytes hbytes
    rw [List.mem_singleton.mp hbytes]
    refine ⟨fun entry hentry => ?_, fun other hother _ => List.mem_singleton.mp hother⟩
    simp [limitedSession, FileTree.empty, FileTree.lookup] at hentry
  have hapart : ∀ found ∈ foundSignatures pairHash swallowedEvents, ∀ bytes ∈ [[1, 2]],
      contentHex (pairHash bytes) = found.1.hex → bytes = [3] := by
    decide +kernel
  obtain ⟨hlimits, hheld⟩ := retention_limits_hold (fun _ _ => 4096) pairHash "h"
    1 1048576 .empty ⟨0, 0⟩ (by decide) (by decide) (by decide)
  obtain ⟨hfiles, hbytes, -⟩ := hlimits fullSession _
    (.record (.persist .start trivial hpersist) trivial hrecord)
  exact ⟨hfiles, hbytes, hheld fullSession _
    (.record (.persist .start hnamed hpersist) hapart hrecord) [1, 2] (by decide)⟩

/-! ## An input that is a signature's text -/

/-- The text that the signature of `swallowedEvents` is the digest of. -/
def aliasInput : List UInt8 :=
  [51, 0, 67, 79, 78, 83, 84, 82, 65, 73, 78, 84, 95, 69, 82, 82, 79, 82, 0, 116, 97, 114, 103,
    101, 116, 46, 97, 100, 98, 58, 52, 50, 0, 55, 0, 0, 48, 0, 0, 0]

example : (groupEvents swallowedEvents).map (fun testcase => testcase.handlers.map fun handler =>
    (signatureText testcase handler).toUTF8.toList) = [[aliasInput]] := by
  decide +kernel

/-- The state of such a manager after that text was persisted. -/
def persistedSession (entries : Nat) : Session :=
  ((persistCoverageCorpus (fun _ _ => 4096) (fun _ => swallowedDigest) "h" [aliasInput]).exec
    (limitedSession entries)).2

/-- And after the events were recorded with another input. -/
def overwrittenSession (entries : Nat) : Session :=
  ((record (fun _ _ => 4096) (fun _ => swallowedDigest) "h" [1, 2] swallowedEvents).exec
    (persistedSession entries)).2

/-- Persisted, then lost: a recorded event whose signature has that text
puts its own input in the file. -/
theorem persisted_input_overwritten :
    ∃ s persisted, Run (fun _ _ => 4096) (fun _ => swallowedDigest) "h" (fun _ _ _ => True)
        (limitedSession 2) s persisted
      ∧ ∃ input ∈ persisted, ¬ s.Held (fun _ => swallowedDigest) "h" input := by
  have hpersist : (persistCoverageCorpus (fun _ _ => 4096) (fun _ => swallowedDigest) "h"
      [aliasInput]).exec (limitedSession 2) = (.ok [(aliasInput, .written)], persistedSession 2) :=
    Prod.ext (by decide) rfl
  have hrecord : (record (fun _ _ => 4096) (fun _ => swallowedDigest) "h" [1, 2]
      swallowedEvents).exec (persistedSession 2)
      = (.ok [((swallowedDigest, .swallowedPredefined), .kept)], overwrittenSession 2) :=
    Prod.ext (by decide +kernel) rfl
  refine ⟨overwrittenSession 2, _,
    .record (.persist .start trivial hpersist) trivial hrecord, aliasInput, by decide, ?_⟩
  unfold Session.Held
  decide +kernel

end GovFuzz.Corpus
