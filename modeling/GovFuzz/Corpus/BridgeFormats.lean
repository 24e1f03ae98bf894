import GovFuzz.Corpus.BridgeRuns

/-!
# Corpus — the format of a directory the bridge has filled

`detect_format` looks at names and `output_name` makes them: a directory
that gets its files from commands of one target format is found to have
that format.
-/

namespace GovFuzz.Corpus

open GovFuzz.Lib GovFuzz.Lib.Op

/-! ## One name -/

theorem not_isSuffix_of_getLast {suffix name : List Char} (hsuffix : suffix ≠ [])
    (h : ∀ hname : name ≠ [], name.getLast hname ≠ suffix.getLast hsuffix) : ¬ suffix <:+ name :=
  fun hend => h (hend.ne_nil hsuffix) (hend.getLast hsuffix).symm

theorem mem_hexDigits {hash : Signature} {n : Nat} {c : Char}
    (h : c ∈ (encodeHex hash.bytes).toList.take n) : c ∈ "0123456789abcdef".toList := by
  rw [toList_encodeHex] at h
  exact hexDigit_mem (List.mem_of_mem_take h)

theorem utf8ByteSize_hex {cs : List Char} (h : ∀ c ∈ cs, c ∈ "0123456789abcdef".toList) :
    (String.ofList cs).utf8ByteSize = cs.length := by
  have hone : ∀ c ∈ "0123456789abcdef".toList, (String.utf8EncodeChar c).length = 1 := by decide
  have hsize : (String.ofList cs).utf8ByteSize = (toUtf8 (String.ofList cs)).length := rfl
  rw [hsize, toUtf8_ofList]
  clear hsize
  induction cs with
  | nil => rfl
  | cons c cs ih =>
      rw [List.flatMap_cons, List.length_append, List.length_cons,
        hone c (h c List.mem_cons_self), ih fun d hd => h d (List.mem_cons_of_mem _ hd),
        Nat.add_comm]

theorem isSha1Hex_hex (hash : Signature) :
    isSha1Hex (String.ofList ((encodeHex hash.bytes).toList.take 40)) = true := by
  have hlength : ((encodeHex hash.bytes).toList.take 40).length = 40 := by
    rw [List.length_take, toList_encodeHex, length_flatMap_hexPair, hash.length_eq]
    rfl
  have hdigit : ∀ c ∈ "0123456789abcdef".toList,
      ((c.isDigit || ('a' ≤ c && c ≤ 'f') || ('A' ≤ c && c ≤ 'F')) && !c.isUpper) = true := by
    decide
  rw [isSha1Hex, utf8ByteSize_hex fun c hc => mem_hexDigits hc, hlength, String.toList_ofList]
  exact List.all_eq_true.mpr fun c hc => hdigit c (mem_hexDigits hc)

/-- One more name of the format. -/
def Tally.bump (tally : Tally) : Format → Tally
  | .afl => { tally with afl := tally.afl + 1, total := tally.total + 1 }
  | .libfuzzer => { tally with libfuzzer := tally.libfuzzer + 1, total := tally.total + 1 }
  | .honggfuzz => { tally with honggfuzz := tally.honggfuzz + 1, total := tally.total + 1 }
  | .govfuzz | .unknown => { tally with govfuzz := tally.govfuzz + 1, total := tally.total + 1 }

variable (tally : Tally) {name : String} (hash : Signature)

theorem note_bin (hname : name.toList = (encodeHex hash.bytes).toList.take 16 ++ ".bin".toList) :
    tally.note name = tally.bump .govfuzz := by
  have hfuzz : ¬ ".fuzz".toList <:+ (encodeHex hash.bytes).toList.take 16 ++ ".bin".toList := by
    refine not_isSuffix_of_getLast (by decide) fun hne => ?_
    rw [List.getLast_append_of_ne_nil _ (by decide)]
    decide
  rw [Tally.note, hname, if_neg (not_starts_with_id hash (by decide) _), if_neg hfuzz,
    if_pos (List.suffix_append _ _)]
  rfl

theorem note_fuzz (hname : name.toList = (encodeHex hash.bytes).toList.take 16 ++ ".fuzz".toList) :
    tally.note name = tally.bump .honggfuzz := by
  rw [Tally.note, hname, if_neg (not_starts_with_id hash (by decide) _),
    if_pos (List.suffix_append _ _)]
  rfl

theorem note_hex (hname : name = String.ofList ((encodeHex hash.bytes).toList.take 40)) :
    tally.note name = tally.bump .libfuzzer := by
  have hlist : name.toList = (encodeHex hash.bytes).toList.take 40 := by
    rw [hname]
    exact String.toList_ofList
  have hlast : ∀ suffix (hsuffix : suffix ≠ []),
      suffix.getLast hsuffix ∉ "0123456789abcdef".toList →
      ¬ suffix <:+ (encodeHex hash.bytes).toList.take 40 := by
    intro suffix hsuffix hdigit
    refine not_isSuffix_of_getLast hsuffix fun hne heq => hdigit ?_
    rw [← heq]
    exact mem_hexDigits (List.getLast_mem hne)
  have hid := not_starts_with_id hash (n := 40) (by decide) []
  rw [List.append_nil] at hid
  rw [Tally.note, hlist, if_neg hid, if_neg (hlast _ (by decide) (by decide)),
    if_neg (hlast _ (by decide) (by decide)), hname, if_pos (isSha1Hex_hex hash)]
  rfl

theorem note_ordinal {rest : List Char} (hname : name.toList = "id:".toList ++ rest) :
    tally.note name = tally.bump .afl := by
  rw [Tally.note, hname, if_pos (List.prefix_append _ _)]
  rfl

theorem note_outputName (format : Format) (ordinal : Nat) :
    tally.note (outputName format hash ordinal).1 = tally.bump format := by
  cases format with
  | govfuzz => exact note_bin tally hash String.toList_ofList
  | unknown => exact note_bin tally hash String.toList_ofList
  | honggfuzz => exact note_fuzz tally hash String.toList_ofList
  | libfuzzer => exact note_hex tally hash rfl
  | afl =>
      have hname : (outputName .afl hash ordinal).1.toList = "id:".toList
          ++ ((Nat.toDigits 10 ordinal).leftpad 6 '0' ++ ",sig:".toList
            ++ (encodeHex hash.bytes).toList.take 16) := by
        rw [← List.append_assoc, ← List.append_assoc]
        exact String.toList_ofList
      exact note_ordinal tally hname

/-! ## All names -/

/-- Every file of the directory has a name of the format. -/
def Named (tree : FileTree) (dir : Path) (format : Format) : Prop :=
  ∀ name bytes, tree.lookup (dir ++ [name]) = some (.file bytes) →
    ∃ hash ordinal, name = (outputName format hash ordinal).1

theorem note_of_named {tree : FileTree} {dir : Path} {format : Format}
    (h : Named tree dir format) (tally : Tally) {name : String}
    (hname : name ∈ regularNames tree dir) : tally.note name = tally.bump format := by
  obtain ⟨child, hchild, rfl⟩ := List.mem_map.mp hname
  obtain ⟨hmem, hregular⟩ := List.mem_filter.mp hchild
  obtain ⟨-, hne, hdir⟩ := FileTree.mem_children.mp hmem
  obtain ⟨bytes, hbytes⟩ := Option.isSome_iff_exists.mp hregular
  have hpath : child = dir ++ [child.getLast hne] := by
    rw [← hdir, List.dropLast_append_getLast]
  have hfile := FileTree.fileAt_eq_some.mp hbytes
  have hlast : fileName child = child.getLast hne := by
    rw [fileName, List.getLast?_eq_some_getLast hne]
    rfl
  rw [hpath] at hfile
  obtain ⟨hash, ordinal, heq⟩ := h _ bytes hfile
  rw [hlast, heq]
  exact note_outputName tally hash format ordinal

theorem foldl_note {names : List String} {format : Format}
    (h : ∀ tally : Tally, ∀ name ∈ names, tally.note name = tally.bump format) (tally : Tally) :
    names.foldl Tally.note tally
      = (fun tally : Tally => tally.bump format)^[names.length] tally := by
  induction names generalizing tally with
  | nil => rfl
  | cons name names ih =>
      rw [List.foldl_cons, h tally name List.mem_cons_self,
        ih fun tally name hname => h tally name (List.mem_cons_of_mem _ hname)]
      rfl

/-- The format that was counted, and no other, wins. -/
theorem winner_of_bumps {format : Format} (hformat : format ≠ .unknown) {n : Nat} (hn : 0 < n) :
    ((fun tally : Tally => tally.bump format)^[n] ⟨0, 0, 0, 0, 0⟩).winner = format := by
  have hcount : ∀ n, (fun tally : Tally => tally.bump format)^[n] ⟨0, 0, 0, 0, 0⟩
      = match format with
        | .afl => ⟨n, 0, 0, 0, n⟩
        | .libfuzzer => ⟨0, n, 0, 0, n⟩
        | .honggfuzz => ⟨0, 0, n, 0, n⟩
        | .govfuzz | .unknown => ⟨0, 0, 0, n, n⟩ := by
    intro n
    induction n with
    | zero => cases format <;> rfl
    | succ n ih =>
        rw [Function.iterate_succ_apply', ih]
        cases format <;> rfl
  have hhalf : n / 2 < n := Nat.div_lt_self hn (by decide)
  rw [hcount]
  cases format with
  | unknown => exact absurd rfl hformat
  | afl => rw [Tally.winner, if_neg hn.ne', if_pos hhalf]
  | libfuzzer => rw [Tally.winner, if_neg hn.ne', if_neg (Nat.not_lt_zero _), if_pos hhalf]
  | honggfuzz =>
      rw [Tally.winner, if_neg hn.ne', if_neg (Nat.not_lt_zero _), if_neg (Nat.not_lt_zero _),
        if_pos hhalf]
  | govfuzz =>
      rw [Tally.winner, if_neg hn.ne', if_neg (Nat.not_lt_zero _), if_neg (Nat.not_lt_zero _),
        if_neg (Nat.not_lt_zero _), if_pos hhalf]

theorem winner_of_named {tree : FileTree} {dir : Path} {format : Format}
    (hformat : format ≠ .unknown) (h : Named tree dir format)
    (hfiles : (tree.contents dir).Nonempty) :
    ((regularNames tree dir).foldl Tally.note ⟨0, 0, 0, 0, 0⟩).winner = format := by
  rw [foldl_note fun tally name hname => note_of_named h tally hname]
  refine winner_of_bumps hformat ?_
  obtain ⟨bytes, name, hfile⟩ := hfiles
  refine List.length_pos_of_mem (a := fileName (dir ++ [name])) (List.mem_map_of_mem ?_)
  refine List.mem_filter.mpr ⟨FileTree.mem_children.mpr ⟨by rw [hfile]; rfl, by simp, by simp⟩, ?_⟩
  rw [FileTree.fileAt_eq_some.mpr hfile]
  rfl

/-! ## A disk that works -/

theorem returns_tallyNames (disk : Disk) (hworks : disk.faults = []) (children : List Path)
    (tally : Tally) : Returns (fun other => other = disk) (fun _ => True)
      (tallyNames children tally) := by
  have hregular : ∀ child, Returns (fun other => other = disk) (fun _ => True)
      (isRegular child) := by
    rintro child other rfl
    refine ⟨(other.tree.lookup child).any fun entry => !entry.isDir, other, ?_, trivial, rfl⟩
    rw [isRegular, exec_bind_ok (exec_mapError_ok (Disk.exec_symlinkMetadata_works hworks child))]
    rfl
  induction children generalizing tally with
  | nil => exact Returns.pure trivial
  | cons child rest ih =>
      refine (hregular child).bind fun regular _ => ?_
      cases regular with
      | true => exact ih _
      | false => exact ih _

theorem returns_detectFormat (disk : Disk) (hworks : disk.faults = []) {dir : Path}
    (hdir : disk.tree.lookup dir = some .dir) :
    ∃ format, (detectFormat dir).exec disk = (.ok format, disk) := by
  have hisDir : (Disk.isDir dir).exec disk = (.ok true, disk) := by
    simp [Op.exec, Disk.isDir, Disk.draw_works hworks, hdir]
  obtain ⟨tally, _, htally, -, rfl⟩ := returns_tallyNames disk hworks (disk.tree.children dir)
    ⟨0, 0, 0, 0, 0⟩ disk rfl
  refine ⟨tally.winner, ?_⟩
  rw [detectFormat, exec_bind_ok (exec_mapError_ok hisDir), if_pos rfl,
    exec_bind_ok (exec_mapError_ok (Disk.exec_readDir_works hworks hdir)), exec_bind_ok htally]
  rfl

/-! ## Runs -/

theorem filled_execute (sha256 : List UInt8 → Signature) (disk : Disk) (command : Command) :
    Filled disk.tree command.output command.targetFormat (execute sha256 disk command).tree := by
  have hrun := triple_command command (Filled.upkeep sha256 disk.tree _ _ _) .refl disk rfl
  rw [execute]
  split at hrun
  case h_1 summary after heq =>
    rw [heq]
    obtain ⟨_, -, hfilled, -⟩ := hrun
    exact hfilled
  case h_2 error after heq =>
    rw [heq]
    exact hrun

/-- A file of any content keeps its name, also one that is cut short. -/
theorem named_execute (sha256 : List UInt8 → Signature) {disk : Disk} {command : Command}
    {dir : Path} {format : Format} (hnamed : Named disk.tree dir format)
    (htarget : command.output = dir → command.targetFormat = format) :
    Named (execute sha256 disk command).tree dir format := by
  intro name bytes hfile
  have hfilled := filled_execute sha256 disk command
  by_cases hdir : command.output = dir
  · subst hdir
    rcases hfilled.named name bytes hfile with ⟨old, hold⟩ | hname
    · exact hnamed name old hold
    · rwa [htarget rfl] at hname
  · have hspared := hfilled.spared (dir ++ [name]) bytes (by
      rw [List.dropLast_concat]
      exact fun h => hdir h.symm)
    exact hnamed name bytes (hspared.mp hfile)

/-- A directory that only commands of one target format have filled is found
to have that format, whatever else they did and whatever failed. -/
theorem bridge_detects (sha256 : List UInt8 → Signature) (commands : List Command) (disk : Disk)
    {dir : Path} {format : Format} (hformat : format ≠ .unknown)
    (hnamed : Named disk.tree dir format)
    (htarget : ∀ command ∈ commands, command.output = dir → command.targetFormat = format) :
    let after := commands.foldl (execute sha256) disk
    (after.tree.contents dir).Nonempty →
      (∀ found out, (detectFormat dir).exec after = (.ok found, out) → found = format)
        ∧ (after.faults = [] → (detectFormat dir).exec after = (.ok format, after)) := by
  intro after hfiles
  -- The names are kept by every command, also by one that fails half way.
  have hend : Named after.tree dir format := by
    clear hfiles
    induction commands generalizing disk with
    | nil => exact hnamed
    | cons command rest ih =>
        exact ih (execute sha256 disk command)
          (named_execute sha256 hnamed (htarget command List.mem_cons_self))
          fun other hother => htarget other (List.mem_cons_of_mem _ hother)
  have hdetect : ∀ found out, (detectFormat dir).exec after = (.ok found, out) →
      found = format := by
    intro found out hrun
    have hfound := triple_detectFormat dir after rfl
    rw [hrun] at hfound
    rw [hfound.2]
    exact winner_of_named hformat hend hfiles
  refine ⟨hdetect, fun hworks => ?_⟩
  obtain ⟨bytes, name, hfile⟩ := hfiles
  have hdir : after.tree.lookup dir = some .dir := by
    have hparent := after.tree.closed (dir ++ [name])
      (AList.lookup_isSome.mp (by rw [show after.tree.map.lookup _ = _ from hfile]; rfl)) (by simp)
    rwa [List.dropLast_concat] at hparent
  obtain ⟨found, hrun⟩ := returns_detectFormat after hworks hdir
  rw [hrun, hdetect found after hrun]

theorem bridge_detects_sample :
    let after := [Command.exportTo "honggfuzz" ["in"] ["out"]].foldl (execute sampleHash) sampleDisk
    (∀ found out, (detectFormat ["out"]).exec after = (.ok found, out) → found = .honggfuzz)
      ∧ (after.faults = [] → (detectFormat ["out"]).exec after = (.ok .honggfuzz, after)) :=
  bridge_detects sampleHash [.exportTo "honggfuzz" ["in"] ["out"]] sampleDisk (by decide)
    (fun name bytes hfile => by
      have hmem := AList.mem_lookup_iff.mp (show _ ∈ sampleTree.map.lookup _ from hfile)
      simp [sampleTree, sampleMap] at hmem)
    (List.forall_mem_singleton.mpr fun _ => rfl)
    ⟨[97], "ca978112ca1bbdca.fuzz", by decide +kernel⟩

end GovFuzz.Corpus
