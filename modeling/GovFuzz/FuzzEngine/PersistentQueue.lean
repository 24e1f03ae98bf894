import GovFuzz.Lib.Utf8
import GovFuzz.Lib.Window

/-!
# Fuzz engine — the persistent queue file

`write_queue_file` and `read_queue_file` of
`crates/fuzz_engine/builtin/src/persistent.rs`: a magic, then one frame for
each testcase, its id and its length in front of its bytes.  The reader
accepts exactly what the writer writes of a list within the limits
(`readQueueFile_iff`), and it returns for every file.
-/

namespace GovFuzz.FuzzEngine

open GovFuzz.Lib

/-! ## The format -/

structure PersistentQueueEntry where
  testcaseId : UInt64
  bytes : List UInt8
  deriving DecidableEq, Repr

structure PersistentLoopConfig where
  maxTestcaseLen : Nat
  maxTestcases : Nat
  deriving DecidableEq, Repr

inductive PersistentLoopError where
  /-- The writer's `InvalidInput`. -/
  | frameLimit (testcaseId : UInt64) (len : Nat)
  | badMagic
  | truncatedFrame (offset expected remaining : Nat)
  | testcaseTooLarge (len max : Nat)
  | tooManyTestcases (count max : Nat)
  deriving DecidableEq, Repr

/-- `GVFQ1\0`. -/
def queueMagic : List UInt8 := toUtf8 "GVFQ1" ++ [0]

@[grind =] def frameHeaderLen : Nat := 12

@[grind =] def frame (entry : PersistentQueueEntry) : List UInt8 :=
  leBytes 8 entry.testcaseId.toNat ++ leBytes 4 entry.bytes.length ++ entry.bytes

def frames (entries : List PersistentQueueEntry) : List UInt8 := entries.flatMap frame

/-! ## The writer -/

@[grind =] def writeFrames : List PersistentQueueEntry → Except PersistentLoopError (List UInt8)
  | [] => .ok []
  | entry :: entries =>
      if 2 ^ 32 ≤ entry.bytes.length then
        .error (.frameLimit entry.testcaseId entry.bytes.length)
      else (writeFrames entries).map (frame entry ++ ·)

/-- What the file holds when every write succeeds. -/
def writeQueueFile (entries : List PersistentQueueEntry) :
    Except PersistentLoopError (List UInt8) :=
  (writeFrames entries).map (queueMagic ++ ·)

/-! ## The reader -/

variable {buffer : Slice}

@[grind =] def ensureRemaining (bytes : Window buffer) (offset expected : Nat) :
    Except PersistentLoopError Unit :=
  let remaining := bytes.length - offset
  if remaining < expected then .error (.truncatedFrame offset expected remaining) else .ok ()

/-- The loop, from `offset` on, behind the entries that were read.  A frame is
longer than nothing, so there are fewer frames than bytes. -/
def readFrames (config : PersistentLoopConfig) (bytes : Window buffer) :
    (fuel offset : Nat) → List PersistentQueueEntry →
      Parse (Except PersistentLoopError (List PersistentQueueEntry))
  | 0, _, entries => return .ok entries
  | fuel + 1, offset, entries => do
      if bytes.length ≤ offset then return .ok entries
      else if entries.length = config.maxTestcases then
        return .error (.tooManyTestcases (entries.length + 1) config.maxTestcases)
      else
        match ensureRemaining bytes offset frameHeaderLen with
        | .error error => return .error error
        | .ok () =>
            let idStop ← Parse.add offset 8
            let testcaseId ← Parse.peek (← Parse.slice bytes offset idStop)
            let lenStop ← Parse.add idStop 4
            let len := leNat (← Parse.peek (← Parse.slice bytes idStop lenStop))
            if config.maxTestcaseLen < len then
              return .error (.testcaseTooLarge len config.maxTestcaseLen)
            else
              match ensureRemaining bytes lenStop len with
              | .error error => return .error error
              | .ok () =>
                  let stop ← Parse.add lenStop len
                  let raw ← Parse.peek (← Parse.slice bytes lenStop stop)
                  readFrames config bytes fuel stop
                    (entries ++ [⟨UInt64.ofNat (leNat testcaseId), raw⟩])

def readQueueFile (config : PersistentLoopConfig) (bytes : Window buffer) :
    Parse (Except PersistentLoopError (List PersistentQueueEntry)) := do
  if bytes.length < queueMagic.length then return .error .badMagic
  else
    let magic ← Parse.peek (← Parse.slice bytes 0 queueMagic.length)
    if magic ≠ queueMagic then return .error .badMagic
    else readFrames config bytes (bytes.length + 1) queueMagic.length []

/-! ## One frame -/

/-- What the length field in front of some bytes says. -/
@[grind =] def frontLen (rest : List UInt8) : Nat := leNat ((rest.drop 8).take 4)

@[grind =] def frontEntry (rest : List UInt8) : PersistentQueueEntry :=
  ⟨UInt64.ofNat (leNat (rest.take 8)), (rest.drop 12).take (frontLen rest)⟩

theorem length_frame (entry : PersistentQueueEntry) :
    (frame entry).length = 12 + entry.bytes.length := by
  simp only [frame, List.length_append, leBytes_length]

theorem frontLen_frame {entry : PersistentQueueEntry} (h : entry.bytes.length < 2 ^ 32)
    (rest : List UInt8) : frontLen (frame entry ++ rest) = entry.bytes.length := by
  have hfield : ((frame entry ++ rest).drop 8).take 4 = leBytes 4 entry.bytes.length := by
    simp only [frame, List.append_assoc]
    rw [List.drop_left' (leBytes_length 8 _), List.take_left' (leBytes_length 4 _)]
  rw [frontLen, hfield]
  exact leNat_leBytes (by omega)

theorem frontEntry_frame {entry : PersistentQueueEntry} (h : entry.bytes.length < 2 ^ 32)
    (rest : List UInt8) : frontEntry (frame entry ++ rest) = entry := by
  have hid : (frame entry ++ rest).take 8 = leBytes 8 entry.testcaseId.toNat := by
    simp only [frame, List.append_assoc]
    exact List.take_left' (leBytes_length 8 _)
  have hbody : (frame entry ++ rest).drop 12 = entry.bytes ++ rest := by
    have hheader : (leBytes 8 entry.testcaseId.toNat ++ leBytes 4 entry.bytes.length).length
        = 12 := by simp
    rw [frame, List.append_assoc]
    exact List.drop_left' hheader
  have hlt : entry.testcaseId.toNat < 256 ^ 8 := entry.testcaseId.toNat_lt
  rw [frontEntry, frontLen_frame h, hid, hbody, leNat_leBytes hlt, List.take_left]
  simp

/-- Bytes that are long enough begin with the frame of their front. -/
theorem frame_frontEntry {rest : List UInt8} (h : 12 + frontLen rest ≤ rest.length) :
    frame (frontEntry rest) ++ rest.drop (12 + frontLen rest) = rest := by
  have hid : leBytes 8 (UInt64.ofNat (leNat (rest.take 8))).toNat = rest.take 8 := by
    have hlength : (rest.take 8).length = 8 := by
      rw [List.length_take]
      omega
    have hlt := leNat_lt (rest.take 8)
    have hback := leBytes_leNat (rest.take 8)
    rw [hlength] at hlt hback
    rw [UInt64.toNat_ofNat_of_lt' hlt, hback]
  have hlen : leBytes 4 (frontLen rest) = (rest.drop 8).take 4 := by
    have hlength : ((rest.drop 8).take 4).length = 4 := by
      rw [List.length_take, List.length_drop]
      omega
    have hback := leBytes_leNat ((rest.drop 8).take 4)
    rwa [hlength] at hback
  have hbody : ((rest.drop 12).take (frontLen rest)).length = frontLen rest := by
    rw [List.length_take, List.length_drop]
    omega
  calc frame (frontEntry rest) ++ rest.drop (12 + frontLen rest)
      = rest.take 8 ++ ((rest.drop 8).take 4 ++ ((rest.drop 12).take (frontLen rest)
          ++ (rest.drop 12).drop (frontLen rest))) := by
        simp only [frame, frontEntry, hid, hbody, hlen, List.append_assoc, List.drop_drop]
    _ = rest.take 8 ++ ((rest.drop 8).take 4 ++ (rest.drop 8).drop 4) := by
        rw [List.take_append_drop, List.drop_drop]
    _ = rest := by rw [List.take_append_drop, List.take_append_drop]

theorem frame_ne_nil (entry : PersistentQueueEntry) (rest : List UInt8) :
    frame entry ++ rest ≠ [] := by
  intro hnil
  have hlength := length_frame entry
  rw [(List.append_eq_nil_iff.mp hnil).1, List.length_nil] at hlength
  omega

/-! ## What is left of a file -/

/-- `more` is a list of entries that the bytes left are the frames of, and
that `count` entries before it leave room for. -/
structure Remaining (config : PersistentLoopConfig) (count : Nat) (rest : List UInt8)
    (more : List PersistentQueueEntry) : Prop where
  content : rest = frames more
  short : ∀ entry ∈ more, entry.bytes.length < 2 ^ 32
  length_le : ∀ entry ∈ more, entry.bytes.length ≤ config.maxTestcaseLen
  count_le : count + more.length ≤ config.maxTestcases

variable {config : PersistentLoopConfig} {count : Nat} {rest : List UInt8}
  {more : List PersistentQueueEntry}

theorem remaining_nil_iff (h : count ≤ config.maxTestcases) :
    Remaining config count [] more ↔ more = [] := by
  constructor
  · intro hmore
    cases more with
    | nil => rfl
    | cons entry more => exact absurd hmore.content.symm (frame_ne_nil entry (frames more))
  · rintro rfl
    exact ⟨rfl, nofun, nofun, by simpa using h⟩

/-- The first of the entries is the one at the front of the bytes. -/
theorem remaining_iff (h : rest ≠ []) :
    Remaining config count rest more ↔ ∃ tail, more = frontEntry rest :: tail
      ∧ 12 + frontLen rest ≤ rest.length ∧ frontLen rest ≤ config.maxTestcaseLen
      ∧ Remaining config (count + 1) (rest.drop (12 + frontLen rest)) tail := by
  constructor
  · rintro ⟨hcontent, hshort, hlength, hcount⟩
    cases more with
    | nil => exact absurd hcontent h
    | cons entry tail =>
        have hentry := hshort entry List.mem_cons_self
        have hcontent : rest = frame entry ++ frames tail := hcontent
        have hlen : frontLen rest = entry.bytes.length := by
          rw [hcontent, frontLen_frame hentry]
        have hfront : frontEntry rest = entry := by rw [hcontent, frontEntry_frame hentry]
        have hframe := length_frame entry
        refine ⟨tail, by rw [hfront], ?_, ?_, ?_, ?_, ?_, ?_⟩
        · rw [hlen, hcontent, List.length_append]
          omega
        · rw [hlen]
          exact hlength entry List.mem_cons_self
        · rw [hlen, hcontent, ← hframe, List.drop_left]
        · exact fun e he => hshort e (List.mem_cons_of_mem entry he)
        · exact fun e he => hlength e (List.mem_cons_of_mem entry he)
        · simp only [List.length_cons] at hcount
          omega
  · rintro ⟨tail, rfl, hroom, hmax, htail⟩
    have hbody : (frontEntry rest).bytes.length = frontLen rest := by
      simp only [frontEntry, List.length_take, List.length_drop]
      omega
    have hfield : frontLen rest < 2 ^ 32 := by
      have hlt := leNat_lt ((rest.drop 8).take 4)
      have hlength : ((rest.drop 8).take 4).length = 4 := by
        rw [List.length_take, List.length_drop]
        omega
      rwa [hlength] at hlt
    refine ⟨?_, ?_, ?_, ?_⟩
    · show rest = frame (frontEntry rest) ++ frames tail
      rw [← htail.content, frame_frontEntry hroom]
    · exact List.forall_mem_cons.mpr ⟨by omega, htail.short⟩
    · exact List.forall_mem_cons.mpr ⟨by omega, htail.length_le⟩
    · have hcount := htail.count_le
      simp only [List.length_cons]
      omega

/-! ## The reader decides it -/

theorem ensureRemaining_eq_ok {bytes : Window buffer} {offset expected : Nat} {u : Unit}
    (h : ensureRemaining bytes offset expected = .ok u) :
    expected ≤ bytes.length - offset := by
  simp only [ensureRemaining] at h
  split at h
  · cases h
  · omega

theorem ensureRemaining_eq_error {bytes : Window buffer} {offset expected : Nat}
    {error : PersistentLoopError} (h : ensureRemaining bytes offset expected = .error error) :
    bytes.length - offset < expected := by
  simp only [ensureRemaining] at h
  split at h
  · assumption
  · cases h

/-- Of the outcome behind some entries: it is the list that goes on with what
the bytes left hold, and an error if they hold nothing. -/
def Decides (config : PersistentLoopConfig) (entries : List PersistentQueueEntry)
    (rest : List UInt8) (out : Except PersistentLoopError (List PersistentQueueEntry)) : Prop :=
  ∀ all, out = .ok all ↔ ∃ more, all = entries ++ more ∧ Remaining config entries.length rest more

theorem decides_error {entries : List PersistentQueueEntry} (error : PersistentLoopError)
    (h : ∀ more, ¬ Remaining config entries.length rest more) :
    Decides config entries rest (.error error) :=
  fun _ => ⟨nofun, fun ⟨more, _, hmore⟩ => (h more hmore).elim⟩

/-- The loop returns the entries that the rest of the file holds, or an error
if it holds none. -/
theorem readFrames_total (config : PersistentLoopConfig) (bytes : Window buffer)
    {fuel offset : Nat} {entries : List PersistentQueueEntry}
    (hfuel : bytes.length < offset + fuel) (hoffset : offset ≤ bytes.length)
    (hcount : entries.length ≤ config.maxTestcases) :
    Parse.Total buffer (Decides config entries (bytes.bytes.drop offset))
      (readFrames config bytes fuel offset entries) := by
  have hlimit := bytes.length_lt
  induction fuel generalizing offset entries with
  | zero => omega
  | succ fuel ih =>
      unfold readFrames
      refine .ite (fun hend => .pure fun all => ?_) fun hinside => ?_
      · have hrest : bytes.bytes.drop offset = [] := by
          rw [List.drop_eq_nil_iff, Window.length_bytes]
          exact hend
        simp only [hrest, remaining_nil_iff hcount, exists_eq_right, List.append_nil,
          Except.ok.injEq, eq_comm]
      have hrest : bytes.bytes.drop offset ≠ [] := by
        rw [ne_eq, List.drop_eq_nil_iff, Window.length_bytes]
        omega
      have hlength : (bytes.bytes.drop offset).length = bytes.length - offset := by
        rw [List.length_drop, Window.length_bytes]
      refine .ite (fun hfull => .pure (decides_error _ fun more hmore => ?_)) fun hroom => ?_
      · obtain ⟨tail, rfl, -, -, htail⟩ := (remaining_iff hrest).mp hmore
        have hle := htail.count_le
        omega
      split
      · rename_i error hheader
        refine .pure (decides_error error fun more hmore => ?_)
        obtain ⟨tail, -, hle, -, -⟩ := (remaining_iff hrest).mp hmore
        have hshort := ensureRemaining_eq_error hheader
        simp only [frameHeaderLen] at hshort
        omega
      rename_i hheader
      have hheader := ensureRemaining_eq_ok hheader
      simp only [frameHeaderLen] at hheader
      refine .addBind (by omega) ?_
      refine (Parse.Total.slice (by omega) (by omega)).bind fun idBytes hid => ?_
      refine (Parse.Total.peek idBytes).bind fun testcaseId htestcase => ?_
      refine .addBind (by omega) ?_
      refine (Parse.Total.slice (by omega) (by omega)).bind fun lenBytes hlen => ?_
      refine (Parse.Total.peek lenBytes).bind fun lenRaw hraw => ?_
      have hidField : testcaseId = (bytes.bytes.drop offset).take 8 := by
        rw [htestcase, Window.bytes_get? hid, Nat.add_sub_cancel_left]
      have hlenField : leNat lenRaw = frontLen (bytes.bytes.drop offset) := by
        rw [hraw, Window.bytes_get? hlen, frontLen, List.drop_drop, Nat.add_sub_cancel_left]
      dsimp only
      refine .ite (fun hlong => .pure (decides_error _ fun more hmore => ?_)) fun hmax => ?_
      · obtain ⟨tail, -, -, hle, -⟩ := (remaining_iff hrest).mp hmore
        omega
      split
      · rename_i error hbody
        refine .pure (decides_error error fun more hmore => ?_)
        obtain ⟨tail, -, hle, -, -⟩ := (remaining_iff hrest).mp hmore
        have hshort := ensureRemaining_eq_error hbody
        omega
      rename_i hbody
      have hbody := ensureRemaining_eq_ok hbody
      refine .addBind (by omega) ?_
      refine (Parse.Total.slice (by omega) (by omega)).bind fun body hslice => ?_
      refine (Parse.Total.peek body).bind fun raw hbytes => ?_
      have hentry : (⟨UInt64.ofNat (leNat testcaseId), raw⟩ : PersistentQueueEntry)
          = frontEntry (bytes.bytes.drop offset) := by
        rw [frontEntry, hidField, hbytes, Window.bytes_get? hslice, Nat.add_sub_cancel_left,
          hlenField, List.drop_drop]
      rw [hentry, hlenField]
      have hnext : (entries ++ [frontEntry (bytes.bytes.drop offset)]).length
          ≤ config.maxTestcases := by
        rw [List.length_append, List.length_singleton]
        omega
      refine (ih (by omega) (by omega) hnext).mono fun out hout all => ?_
      rw [hout all, List.length_append, List.length_singleton]
      simp only [remaining_iff hrest, List.drop_drop, ← Nat.add_assoc]
      constructor
      · rintro ⟨tail, rfl, htail⟩
        exact ⟨_, by rw [List.append_assoc]; rfl, tail, rfl, by omega, by omega, htail⟩
      · rintro ⟨more, rfl, tail, rfl, -, -, htail⟩
        exact ⟨tail, by rw [List.append_assoc]; rfl, htail⟩

/-! ## The file and its entries -/

/-- The limits of the reader. -/
def Admits (config : PersistentLoopConfig) (entries : List PersistentQueueEntry) : Prop :=
  entries.length ≤ config.maxTestcases
    ∧ ∀ entry ∈ entries, entry.bytes.length ≤ config.maxTestcaseLen

theorem writeFrames_iff {entries : List PersistentQueueEntry} {written : List UInt8} :
    writeFrames entries = .ok written
      ↔ (∀ entry ∈ entries, entry.bytes.length < 2 ^ 32) ∧ written = frames entries := by
  induction entries generalizing written with
  | nil => simp [writeFrames, frames, eq_comm]
  | cons entry entries ih =>
      unfold writeFrames
      split
      · rename_i hlong
        refine ⟨nofun, fun ⟨hshort, _⟩ => ?_⟩
        have hentry := hshort entry List.mem_cons_self
        omega
      · rename_i hshort
        cases hrest : writeFrames entries with
        | error error =>
            refine ⟨nofun, fun ⟨hall, _⟩ => ?_⟩
            have hwritten := ih.mpr ⟨fun e he => hall e (List.mem_cons_of_mem entry he), rfl⟩
            rw [hrest] at hwritten
            cases hwritten
        | ok rest =>
            obtain ⟨hall, rfl⟩ := ih.mp hrest
            simp only [Except.map, Except.ok.injEq, List.forall_mem_cons]
            refine ⟨fun h => ⟨⟨by omega, hall⟩, h.symm⟩, fun h => h.2.symm⟩

theorem writeQueueFile_iff {entries : List PersistentQueueEntry} {written : List UInt8} :
    writeQueueFile entries = .ok written
      ↔ (∀ entry ∈ entries, entry.bytes.length < 2 ^ 32)
        ∧ written = queueMagic ++ frames entries := by
  unfold writeQueueFile
  cases hframes : writeFrames entries with
  | error error =>
      refine ⟨nofun, fun ⟨hall, _⟩ => ?_⟩
      have hwritten := writeFrames_iff.mpr ⟨hall, rfl⟩
      rw [hframes] at hwritten
      cases hwritten
  | ok rest =>
      obtain ⟨hall, rfl⟩ := writeFrames_iff.mp hframes
      simp only [Except.map, Except.ok.injEq]
      exact ⟨fun h => ⟨hall, h.symm⟩, fun h => h.2.symm⟩

/-- Of the outcome for a file: it is a list exactly if the file is written of
that list, within the limits. -/
def DecidesFile (config : PersistentLoopConfig) (file : Slice)
    (out : Except PersistentLoopError (List PersistentQueueEntry)) : Prop :=
  ∀ entries, out = .ok entries ↔
    writeQueueFile entries = .ok file.bytes ∧ Admits config entries

/-- Every queue file is decided without a panic: read to its input or refused. -/
theorem readQueueFile_total (config : PersistentLoopConfig) (file : Slice) :
    Parse.Total file (DecidesFile config file)
      (readQueueFile config (Window.whole file)) := by
  have hwhole : (Window.whole file).length = file.bytes.length := rfl
  have hreject : ∀ error, ¬ queueMagic <+: file.bytes →
      Parse.Total file (DecidesFile config file) (pure (.error error)) := by
    refine fun error hmagic => .pure fun entries => ⟨nofun, fun ⟨hwritten, _⟩ => ?_⟩
    rw [(writeQueueFile_iff.mp hwritten).2] at hmagic
    exact absurd (List.prefix_append _ _) hmagic
  -- too short for the magic, or with another one: refused
  refine .ite (fun hshort => hreject _ fun hmagic => ?_) fun hlong => ?_
  · have hle := hmagic.length_le
    omega
  refine (Parse.Total.slice (Nat.zero_le _) (by omega)).bind fun front hfront => ?_
  refine (Parse.Total.peek front).bind fun magic hmagic => ?_
  rw [Window.bytes_get? hfront, Window.whole_bytes, List.drop_zero, Nat.sub_zero] at hmagic
  refine .ite (fun hother => hreject _ fun hahead => ?_) fun hsame => ?_
  · rw [hmagic] at hother
    exact hother (List.prefix_iff_eq_take.mp hahead).symm
  rw [not_not] at hsame
  have hsplit : file.bytes = queueMagic ++ file.bytes.drop queueMagic.length := by
    have htake := List.take_append_drop queueMagic.length file.bytes
    rw [← hmagic, hsame] at htake
    exact htake.symm
  refine (readFrames_total config (Window.whole file) (by omega) (by omega)
    (Nat.zero_le _)).mono fun out hout entries => ?_
  rw [hout entries, Window.whole_bytes, writeQueueFile_iff]
  constructor
  · rintro ⟨more, rfl, hmore⟩
    refine ⟨⟨hmore.short, ?_⟩, ?_, hmore.length_le⟩
    · show file.bytes = queueMagic ++ frames entries
      rwa [← hmore.content]
    · have hcount := hmore.count_le
      simpa using hcount
  · rintro ⟨⟨hshort, hcontent⟩, hcount, hlength⟩
    refine ⟨entries, rfl, ?_, hshort, hlength, ?_⟩
    · rw [hcontent, List.drop_left]
    · simpa using hcount

/-- What is written of a list is read back as the list, and the reader, which
returns for every file, accepts a file with exactly the entries that it would
be written of. -/
theorem queueFile_exact :
    (∀ entries, (∀ entry ∈ entries, entry.bytes.length < 2 ^ 32) →
      ∃ written, writeQueueFile entries = .ok written
        ∧ ∀ config (file : Slice), file.bytes = written → Admits config entries →
          ∃ log, Parse.run (readQueueFile config (Window.whole file)) = .ok (.ok entries, log))
    ∧ ∀ config (file : Slice), ∃ out log,
        Parse.run (readQueueFile config (Window.whole file)) = .ok (out, log)
          ∧ ∀ entries, out = .ok entries
            ↔ writeQueueFile entries = .ok file.bytes ∧ Admits config entries := by
  refine ⟨fun entries hshort => ?_, fun config file => ?_⟩
  · refine ⟨_, writeQueueFile_iff.mpr ⟨hshort, rfl⟩, fun config file hfile hadmits => ?_⟩
    obtain ⟨out, log, hrun, hout, -⟩ := (readQueueFile_total config file).run
    rw [(hout entries).mpr ⟨writeQueueFile_iff.mpr ⟨hshort, hfile⟩, hadmits⟩] at hrun
    exact ⟨log, hrun⟩
  · obtain ⟨out, log, hrun, hout, -⟩ := (readQueueFile_total config file).run
    exact ⟨out, log, hrun, hout⟩

/-- Two testcases, one of them empty, under limits they just meet. -/
theorem queueFile_exact_two :
    ∃ log, Parse.run (readQueueFile ⟨2, 2⟩ (Window.whole
      ⟨queueMagic ++ frames [⟨7, [1, 2]⟩, ⟨8, []⟩], by decide⟩))
        = .ok (.ok [⟨7, [1, 2]⟩, ⟨8, []⟩], log) := by
  obtain ⟨written, hwritten, hread⟩ := queueFile_exact.1 [⟨7, [1, 2]⟩, ⟨8, []⟩] (by decide)
  refine hread ⟨2, 2⟩ _ ?_ ⟨by decide, by decide⟩
  exact (writeQueueFile_iff.mp hwritten).2.symm

end GovFuzz.FuzzEngine
