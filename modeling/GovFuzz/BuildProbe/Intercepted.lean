import GovFuzz.BuildProbe.InterceptLog
import GovFuzz.Lib.Interleaving
import Mathlib.Data.List.Nodup

/-!
# BuildProbe — what the log keeps of a build

A record has no length and no escapes, and the shell shim writes it line by
line: the lines of two compilers that run at once end up in one record.  The
results below are about the logs whose records stand apart, of invocations
that a record can hold.
-/

namespace GovFuzz.BuildProbe

open GovFuzz.Lib

/-! ## Statement -/

/-- The files an invocation compiles. -/
def Invocation.compiled (inv : Invocation) : List (List UInt8) :=
  (inv.args.filter isSourceArg).map (resolveAgainst inv.directory)

/-- One entry for every file that was compiled, each with the command of one
invocation that compiled it.  `names` says which file a path names. -/
structure Faithful {F : Type} [DecidableEq F] (names : List UInt8 → F) (build : List Invocation)
    (entries : List ProbeEntry) : Prop where
  one_entry : ∀ inv ∈ build, ∀ path ∈ inv.compiled,
    (entries.filter fun entry => names entry.file = names path).length = 1
  one_command : ∀ entry ∈ entries, ∃ inv ∈ build, entry.file ∈ inv.compiled
    ∧ entry.directory = inv.directory ∧ entry.arguments = inv.compiler :: inv.args

/-- A text that stands in one line of the log and comes back from it. -/
structure Plain (field : List UInt8) : Prop where
  text : (fromUtf8 field).isSome
  one_line : 10 ∉ field
  no_cr : field.getLast? ≠ some 13

/-- An invocation that a record can hold. -/
structure Recordable (shim : Shim) (inv : Invocation) : Prop where
  directory : Plain inv.directory
  compiler : Plain inv.compiler
  args : ∀ arg ∈ inv.args, Plain arg
  /-- Only the first source of a record is looked at. -/
  one_source : (inv.args.filter isSourceArg).length ≤ 1
  /-- The script quotes its compiler. -/
  shell : shim = .shell → 39 ∉ inv.compiler
  preload : shim = .preload → isCompiler inv.compiler ∧ inv.directory.length < cwdCap
    ∧ inv.args.length ≤ argCap ∧ (shellWrites inv).flatten.length ≤ recCap

/-- The writes of a build, invocation by invocation. -/
def buildWrites (build : List (Shim × Invocation)) (i : Nat) : List (List UInt8) :=
  match build[i]? with
  | some (shim, inv) => writes shim inv
  | none => []

/-- The log that a sequence of appended writes leaves. -/
def logOf (trace : List (Nat × List UInt8)) : List UInt8 := (trace.map Prod.snd).flatten

/-! ## Records -/

theorem byteLines_line {line : List UInt8} (h : 10 ∉ line) (hcr : line.getLast? ≠ some 13)
    (rest : List UInt8) : byteLines (line ++ 10 :: rest) = line :: byteLines rest := by
  obtain ⟨piece, pieces, hpieces⟩ := List.exists_cons_of_ne_nil
    (List.splitOnP_ne_nil (· == 10) rest)
  unfold byteLines
  dsimp only
  rw [List.splitOn_append_cons_self_of_not_mem h, List.splitOn, hpieces, List.dropLast_cons_cons,
    List.map_cons, if_neg hcr, List.getLast?_cons_cons]
  rfl

theorem byteLines_logLine {key : String} (hkey : 10 ∉ toUtf8 key)
    (hcr : (toUtf8 key).getLast? ≠ some 13) {value : List UInt8} (h : Plain value)
    (rest : List UInt8) :
    byteLines (logLine key value ++ rest) = (toUtf8 key ++ value) :: byteLines rest := by
  have hline : 10 ∉ toUtf8 key ++ value := by
    rw [List.mem_append, not_or]
    exact ⟨hkey, h.one_line⟩
  have hend : (toUtf8 key ++ value).getLast? ≠ some 13 := by
    by_cases hempty : value = []
    · rw [hempty, List.append_nil]
      exact hcr
    · rw [List.getLast?_append_of_ne_nil _ hempty]
      exact h.no_cr
  rw [logLine, List.append_assoc, List.singleton_append, byteLines_line hline hend]

theorem plain_nil : Plain [] := ⟨by decide, by decide, by decide⟩

theorem isPrefixOf?_append (key value : List UInt8) :
    key.isPrefixOf? (key ++ value) = some value := by
  induction key with
  | nil => rfl
  | cons b key ih => simp [List.isPrefixOf?, ih]

theorem interceptLine_dir (s : LogState) (d : List UInt8) :
    interceptLine s (toUtf8 "DIR " ++ d) = { s with directory := some d } := by
  have hkey : toUtf8 "DIR " = [68, 73, 82, 32] := by decide
  have hend : toUtf8 "DIR " ++ d ≠ toUtf8 "ENDREC" := by
    rw [hkey, show toUtf8 "ENDREC" = [69, 78, 68, 82, 69, 67] by decide]
    simp
  unfold interceptLine
  rw [if_neg hend, isPrefixOf?_append]

theorem interceptLine_cc (s : LogState) (c : List UInt8) :
    interceptLine s (toUtf8 "CC " ++ c) = { s with cc := some c } := by
  have hkey : toUtf8 "CC " = [67, 67, 32] := by decide
  have hend : toUtf8 "CC " ++ c ≠ toUtf8 "ENDREC" := by
    rw [hkey, show toUtf8 "ENDREC" = [69, 78, 68, 82, 69, 67] by decide]
    simp
  have hdir : (toUtf8 "DIR ").isPrefixOf? (toUtf8 "CC " ++ c) = none := by
    rw [hkey, show toUtf8 "DIR " = [68, 73, 82, 32] by decide]
    rfl
  unfold interceptLine
  rw [if_neg hend, hdir, isPrefixOf?_append]

theorem interceptLine_arg (s : LogState) (a : List UInt8) :
    interceptLine s (toUtf8 "ARG " ++ a) = { s with args := s.args ++ [a] } := by
  have hkey : toUtf8 "ARG " = [65, 82, 71, 32] := by decide
  have hend : toUtf8 "ARG " ++ a ≠ toUtf8 "ENDREC" := by
    rw [hkey, show toUtf8 "ENDREC" = [69, 78, 68, 82, 69, 67] by decide]
    simp
  have hdir : (toUtf8 "DIR ").isPrefixOf? (toUtf8 "ARG " ++ a) = none := by
    rw [hkey, show toUtf8 "DIR " = [68, 73, 82, 32] by decide]
    rfl
  have hcc : (toUtf8 "CC ").isPrefixOf? (toUtf8 "ARG " ++ a) = none := by
    rw [hkey, show toUtf8 "CC " = [67, 67, 32] by decide]
    rfl
  unfold interceptLine
  rw [if_neg hend, hdir, hcc, isPrefixOf?_append]

/-- The arguments of a record, one line each. -/
theorem foldl_args {args : List (List UInt8)} (h : ∀ arg ∈ args, Plain arg) (s : LogState)
    (rest : List UInt8) :
    (byteLines ((args.map (logLine "ARG ")).flatten ++ rest)).foldl interceptLine s
      = (byteLines rest).foldl interceptLine { s with args := s.args ++ args } := by
  induction args generalizing s with
  | nil => simp
  | cons arg args ih =>
      rw [List.map_cons, List.flatten_cons, List.append_assoc,
        byteLines_logLine (by decide) (by decide) (h arg List.mem_cons_self), List.foldl_cons,
        interceptLine_arg, ih fun other hother => h other (List.mem_cons_of_mem _ hother)]
      simp

/-- The entry of a record. -/
def Invocation.entry (inv : Invocation) : Option ProbeEntry :=
  recordEntry (some inv.directory) (some inv.compiler) inv.args

/-- One whole record, read from a clean state. -/
theorem foldl_record {shim : Shim} {inv : Invocation} (h : Recordable shim inv)
    (entries : List ProbeEntry) (rest : List UInt8) :
    (byteLines ((shellWrites inv).flatten ++ rest)).foldl interceptLine ⟨entries, none, none, []⟩
      = (byteLines rest).foldl interceptLine
          ⟨entries ++ inv.entry.toList, none, none, []⟩ := by
  have hsplit : (shellWrites inv).flatten ++ rest
      = logLine "DIR " inv.directory ++ (logLine "CC " inv.compiler
        ++ ((inv.args.map (logLine "ARG ")).flatten ++ (logLine "ENDREC" [] ++ rest))) := by
    simp [shellWrites]
  rw [hsplit, byteLines_logLine (by decide) (by decide) h.directory, List.foldl_cons,
    interceptLine_dir, byteLines_logLine (by decide) (by decide) h.compiler, List.foldl_cons,
    interceptLine_cc, foldl_args h.args, byteLines_logLine (by decide) (by decide) plain_nil,
    List.foldl_cons, List.append_nil, interceptLine, if_pos rfl]
  rfl

/-- The log of a recordable build is parsed to the entries of its invocations. -/
theorem parseInterceptLog_records {build : List Invocation}
    (h : ∀ inv ∈ build, ∃ shim, Recordable shim inv) :
    parseInterceptLog (build.flatMap fun inv => (shellWrites inv).flatten)
      = build.filterMap Invocation.entry := by
  have hrun : ∀ (build : List Invocation) (entries : List ProbeEntry),
      (∀ inv ∈ build, ∃ shim, Recordable shim inv) →
      (byteLines (build.flatMap fun inv => (shellWrites inv).flatten)).foldl interceptLine
          ⟨entries, none, none, []⟩
        = ⟨entries ++ build.filterMap Invocation.entry, none, none, []⟩ := by
    intro build
    induction build with
    | nil =>
        intro entries _
        have hlines : byteLines [] = [] := by decide
        rw [List.flatMap_nil, hlines, List.filterMap_nil, List.append_nil]
        rfl
    | cons inv build ih =>
        intro entries hbuild
        obtain ⟨shim, hinv⟩ := hbuild inv List.mem_cons_self
        have hrest : ∀ other ∈ build, ∃ shim, Recordable shim other := by
          intro other hother
          exact hbuild other (List.mem_cons_of_mem _ hother)
        rw [List.flatMap_cons, foldl_record hinv, ih _ hrest, List.append_assoc]
        cases hentry : inv.entry with
        | none => rw [List.filterMap_cons_none hentry]; rfl
        | some entry => rw [List.filterMap_cons_some hentry]; rfl
  rw [parseInterceptLog, hrun build [] h]
  rfl

/-! ## The preload shim's record -/

theorem put_of_le {buf bytes : List UInt8} (h : (buf ++ bytes).length ≤ recCap) :
    Rec.put ⟨buf, true⟩ bytes = ⟨buf ++ bytes, true⟩ := by
  rw [List.length_append] at h
  unfold Rec.put
  rw [if_neg (by simp), if_neg (by simp; omega)]

theorem put_logLine {key : String} {buf value : List UInt8}
    (h : (buf ++ logLine key value).length ≤ recCap) :
    ((Rec.put ⟨buf, true⟩ (toUtf8 key)).put value).put [10]
      = ⟨buf ++ logLine key value, true⟩ := by
  have hlen : (buf ++ logLine key value).length
      = buf.length + (toUtf8 key).length + value.length + 1 := by
    simp [logLine]
    omega
  rw [put_of_le (by rw [List.length_append]; omega),
    put_of_le (by rw [List.length_append, List.length_append]; omega),
    put_of_le (by rw [List.length_append, List.length_append, List.length_append]
                  show _ + 1 ≤ _
                  omega)]
  simp [logLine]

theorem putCstr_eq {value : List UInt8} (h : value.length ≤ recCap) (record : Rec) :
    record.putCstr value = record.put value := by
  rw [Rec.putCstr, List.take_of_length_le h]

theorem foldl_put {args : List (List UInt8)} {buf : List UInt8}
    (h : (buf ++ (args.map (logLine "ARG ")).flatten).length ≤ recCap) :
    args.foldl (fun (record : Rec) arg => ((record.put (toUtf8 "ARG ")).putCstr arg).put [10])
        ⟨buf, true⟩
      = ⟨buf ++ (args.map (logLine "ARG ")).flatten, true⟩ := by
  induction args generalizing buf with
  | nil => simp
  | cons arg args ih =>
      rw [List.map_cons, List.flatten_cons, ← List.append_assoc] at h ⊢
      have hline : (buf ++ logLine "ARG " arg).length ≤ recCap := by
        rw [List.length_append] at h
        omega
      have harg : arg.length ≤ recCap := by
        simp only [logLine, List.length_append] at hline
        omega
      rw [List.foldl_cons, putCstr_eq harg, put_logLine hline, ih h]

/-- A record that fits is written as the shell shim would write it. -/
theorem maybeLog_eq {inv : Invocation} (h : Recordable .preload inv) :
    maybeLog inv = [(shellWrites inv).flatten] := by
  obtain ⟨hcompiler, hcwd, hargs, hfits⟩ := h.preload rfl
  have hsplit : (shellWrites inv).flatten
      = ((logLine "DIR " inv.directory ++ logLine "CC " inv.compiler)
        ++ (inv.args.map (logLine "ARG ")).flatten) ++ logLine "ENDREC" [] := by
    simp [shellWrites]
  have hend : toUtf8 "ENDREC\n" = logLine "ENDREC" [] := by decide
  have hlen := congrArg List.length hsplit
  rw [List.length_append, List.length_append, List.length_append] at hlen
  have hcc : inv.compiler.length ≤ recCap := by
    have hline : (logLine "CC " inv.compiler).length
        = (toUtf8 "CC ").length + inv.compiler.length + 1 := by
      simp [logLine]
      omega
    omega
  unfold maybeLog
  rw [if_neg (by simp [hcompiler])]
  dsimp only
  rw [if_pos hcwd, List.take_of_length_le hargs, putCstr_eq hcc, Rec.new,
    put_logLine (by rw [List.nil_append]; omega), List.nil_append,
    put_logLine (by rw [List.length_append]; omega),
    foldl_put (by rw [List.length_append, List.length_append]; omega), hend,
    put_of_le (by rw [← hsplit]; exact hfits), ← hsplit]
  have hpos : (shellWrites inv).flatten.length ≠ 0 := by
    have hline : (logLine "ENDREC" []).length = 7 := by decide
    omega
  rw [if_neg ?_]
  rw [Bool.not_true, Bool.false_or, decide_eq_true_eq]
  exact hpos

theorem flatten_writes {shim : Shim} {inv : Invocation} (h : Recordable shim inv) :
    (writes shim inv).flatten = (shellWrites inv).flatten ∧ writes shim inv ≠ [] := by
  cases shim with
  | shell => exact ⟨rfl, by simp [writes, shellWrites]⟩
  | preload =>
      rw [writes, maybeLog_eq h]
      exact ⟨by simp, by simp⟩

/-! ## Text -/

theorem isSome_fromUtf8_iff {bytes : List UInt8} :
    (fromUtf8 bytes).isSome ↔ ∃ s, toUtf8 s = bytes := by
  rw [Option.isSome_iff_exists]
  exact exists_congr fun s => fromUtf8_eq_some

theorem text_append {a b : List UInt8} (ha : (fromUtf8 a).isSome) (hb : (fromUtf8 b).isSome) :
    (fromUtf8 (a ++ b)).isSome := by
  obtain ⟨s, rfl⟩ := isSome_fromUtf8_iff.mp ha
  obtain ⟨t, rfl⟩ := isSome_fromUtf8_iff.mp hb
  refine isSome_fromUtf8_iff.mpr ⟨s ++ t, ?_⟩
  simp [toUtf8]

theorem text_flatten {parts : List (List UInt8)} (h : ∀ part ∈ parts, (fromUtf8 part).isSome) :
    (fromUtf8 parts.flatten).isSome := by
  induction parts with
  | nil => decide
  | cons part parts ih =>
      rw [List.flatten_cons]
      exact text_append (h part List.mem_cons_self)
        (ih fun other hother => h other (List.mem_cons_of_mem _ hother))

theorem text_logLine (key : String) {value : List UInt8} (h : Plain value) :
    (fromUtf8 (logLine key value)).isSome := by
  have hkey : (fromUtf8 (toUtf8 key)).isSome := isSome_fromUtf8_iff.mpr ⟨key, rfl⟩
  exact text_append (text_append hkey h.text) (by decide)

theorem text_record {shim : Shim} {inv : Invocation} (h : Recordable shim inv) :
    (fromUtf8 (shellWrites inv).flatten).isSome := by
  refine text_flatten ?_
  intro line hline
  simp only [shellWrites, List.cons_append, List.nil_append, List.mem_cons, List.mem_append,
    List.mem_map, List.not_mem_nil, or_false] at hline
  rcases hline with rfl | rfl | ⟨arg, harg, rfl⟩ | rfl
  · exact text_logLine _ h.directory
  · exact text_logLine _ h.compiler
  · exact text_logLine _ (h.args arg harg)
  · exact text_logLine _ plain_nil

/-! ## One entry for each file -/

theorem map_file_dedupInsert (entry : ProbeEntry) (best : List ProbeEntry) :
    (dedupInsert entry best).map (·.file)
      = if entry.file ∈ best.map (·.file) then best.map (·.file)
        else best.map (·.file) ++ [entry.file] := by
  induction best with
  | nil => rfl
  | cons prev rest ih =>
      unfold dedupInsert
      by_cases heq : prev.file = entry.file
      · have hkept : (if interceptEntryIsBetter entry prev then entry else prev).file
            = prev.file := by
          split
          · exact heq.symm
          · rfl
        rw [if_pos heq, List.map_cons, hkept, List.map_cons, if_pos (by simp [heq])]
      · rw [if_neg heq, List.map_cons, ih, List.map_cons]
        by_cases hmem : entry.file ∈ rest.map (·.file)
        · rw [if_pos hmem, if_pos (List.mem_cons_of_mem _ hmem)]
        · rw [if_neg hmem, if_neg (by
            rw [List.mem_cons, not_or]
            exact ⟨fun h => heq h.symm, hmem⟩), List.cons_append]

theorem mem_dedupInsert {entry kept : ProbeEntry} {best : List ProbeEntry}
    (h : kept ∈ dedupInsert entry best) : kept = entry ∨ kept ∈ best := by
  induction best with
  | nil => exact .inl (List.mem_singleton.mp h)
  | cons prev rest ih =>
      unfold dedupInsert at h
      split at h
      · rcases List.mem_cons.mp h with rfl | hrest
        · split
          · exact .inl rfl
          · exact .inr List.mem_cons_self
        · exact .inr (List.mem_cons_of_mem _ hrest)
      · rcases List.mem_cons.mp h with rfl | hrest
        · exact .inr List.mem_cons_self
        · exact (ih hrest).imp_right (List.mem_cons_of_mem _)

/-- What is kept of the entries: one of each file, and nothing else. -/
structure Deduped (entries best : List ProbeEntry) : Prop where
  nodup : (best.map (·.file)).Nodup
  kept : ∀ entry ∈ best, entry ∈ entries
  files : ∀ entry ∈ entries, entry.file ∈ best.map (·.file)

/-- One entry more is deduplicated into the best of its key. -/
theorem Deduped.insert {entries best : List ProbeEntry} (h : Deduped entries best)
    (entry : ProbeEntry) : Deduped (entries ++ [entry]) (dedupInsert entry best) := by
  have hfiles := map_file_dedupInsert entry best
  refine ⟨?_, ?_, ?_⟩
  · rw [hfiles]
    split
    · exact h.nodup
    · rename_i hnew
      refine List.nodup_append.mpr ⟨h.nodup, List.nodup_singleton _, ?_⟩
      intro file hfile other hother
      rw [List.mem_singleton.mp hother]
      rintro rfl
      exact hnew hfile
  · intro other hother
    rcases mem_dedupInsert hother with rfl | hold
    · exact List.mem_append_right _ (List.mem_singleton.mpr rfl)
    · exact List.mem_append_left _ (h.kept other hold)
  · intro other hother
    rw [hfiles]
    rcases List.mem_append.mp hother with hold | hnew
    · have hmem := h.files other hold
      split
      · exact hmem
      · exact List.mem_append_left _ hmem
    · rw [List.mem_singleton.mp hnew]
      split
      · rename_i hmem
        exact hmem
      · exact List.mem_append_right _ (List.mem_singleton.mpr rfl)

theorem deduped_dedupInterceptEntries (entries : List ProbeEntry) :
    Deduped entries (dedupInterceptEntries entries) := by
  have hrun : ∀ (more front best : List ProbeEntry), Deduped front best →
      Deduped (front ++ more) (more.foldl (fun best entry => dedupInsert entry best) best) := by
    intro more
    induction more with
    | nil =>
        intro front best h
        rw [List.append_nil]
        exact h
    | cons entry more ih =>
        intro front best h
        have hstep := ih _ _ (h.insert entry)
        rw [List.append_assoc, List.singleton_append] at hstep
        exact hstep
  exact hrun entries [] [] ⟨List.nodup_nil, by simp, by simp⟩

/-! ## Builds -/

/-- The entry of an invocation is about the first file it compiles. -/
theorem entry_eq (inv : Invocation) :
    inv.entry = inv.compiled.head?.map
      fun file => ⟨inv.directory, file, inv.compiler :: inv.args⟩ := by
  unfold Invocation.entry recordEntry Invocation.compiled
  rw [List.head?_map, List.head?_filter]
  cases inv.args.find? isSourceArg <;> rfl

theorem compiled_eq {shim : Shim} {inv : Invocation} (h : Recordable shim inv) {path : List UInt8}
    (hpath : path ∈ inv.compiled) : inv.compiled = [path] := by
  have hlen : inv.compiled.length ≤ 1 := by
    rw [Invocation.compiled, List.length_map]
    exact h.one_source
  match hcompiled : inv.compiled, hlen with
  | [], _ => rw [hcompiled] at hpath; cases hpath
  | [only], _ =>
      rw [hcompiled] at hpath
      rw [List.mem_singleton.mp hpath]

/-- The invocations of a build, in the order of their records. -/
theorem log_eq_records {build : List (Shim × Invocation)} {trace : List (Nat × List UInt8)}
    (hbuild : ∀ run ∈ build, Recordable run.1 run.2)
    (htrace : Interleaves (buildWrites build) trace) (hwhole : Uninterrupted trace) :
    ∃ recorded : List Invocation,
      logOf trace = (recorded.flatMap fun inv => (shellWrites inv).flatten)
        ∧ ∀ inv, inv ∈ recorded ↔ ∃ shim, (shim, inv) ∈ build := by
  -- uninterrupted, the invocations come out one after the other
  obtain ⟨order, horder, hmem⟩ := exists_order htrace hwhole
  have hsome : ∀ i ∈ order, ∃ run ∈ build, build[i]? = some run := by
    intro i hi
    have hne := (hmem i).mp hi
    unfold buildWrites at hne
    cases hget : build[i]? with
    | none => rw [hget] at hne; exact absurd rfl hne
    | some run => exact ⟨run, List.mem_of_getElem? hget, rfl⟩
  refine ⟨order.filterMap fun i => build[i]?.map Prod.snd, ?_, ?_⟩
  · rw [logOf, horder]
    clear hmem horder
    induction order with
    | nil => rfl
    | cons i order ih =>
        obtain ⟨run, hrun, hget⟩ := hsome i List.mem_cons_self
        have hrest := ih fun j hj => hsome j (List.mem_cons_of_mem _ hj)
        have hwrites : (buildWrites build i).flatten = (shellWrites run.2).flatten := by
          rw [buildWrites, hget]
          exact (flatten_writes (hbuild run hrun)).1
        rw [List.flatMap_cons, List.flatten_append, hrest, hwrites,
          List.filterMap_cons_some (f := fun i => build[i]?.map Prod.snd) (b := run.2)
            (by rw [hget]; rfl), List.flatMap_cons]
  · intro inv
    rw [List.mem_filterMap]
    constructor
    · rintro ⟨i, hi, hinv⟩
      obtain ⟨run, hrun, hget⟩ := hsome i hi
      rw [hget] at hinv
      cases hinv
      exact ⟨run.1, hrun⟩
    · rintro ⟨shim, hrun⟩
      obtain ⟨i, hget⟩ := List.mem_iff_getElem?.mp hrun
      refine ⟨i, (hmem i).mpr ?_, by rw [hget]; rfl⟩
      rw [buildWrites, hget]
      exact (flatten_writes (hbuild _ hrun)).2

section Builds

variable {F : Type} [DecidableEq F] {names : List UInt8 → F}

/-- One entry is found by a file when the paths of the build spell each file
in one way. -/
theorem length_filter_file {entries : List ProbeEntry} {path : List UInt8}
    (hnodup : (entries.map (·.file)).Nodup) (hmem : path ∈ entries.map (·.file))
    (hspelled : ∀ entry ∈ entries, names entry.file = names path → entry.file = path) :
    (entries.filter fun entry => names entry.file = names path).length = 1 := by
  have hfilter : (entries.filter fun entry => names entry.file = names path)
      = entries.filter fun entry => entry.file = path := by
    refine List.filter_congr ?_
    intro entry hentry
    refine decide_eq_decide.mpr ⟨hspelled entry hentry, ?_⟩
    intro heq
    rw [heq]
  have hcount : ((entries.map (·.file)).filter fun file => file = path).length = 1 := by
    have hone := List.count_eq_one_of_mem hnodup hmem
    simpa only [List.count_eq_length_filter, beq_eq_decide] using hone
  rw [hfilter]
  rw [List.filter_map, List.length_map] at hcount
  exact hcount

/-- Records that stand apart give every file its own command. -/
theorem faithful_of_uninterrupted {build : List (Shim × Invocation)}
    {trace : List (Nat × List UInt8)} (hbuild : ∀ run ∈ build, Recordable run.1 run.2)
    (hspelled : ∀ a ∈ build, ∀ b ∈ build, ∀ path ∈ a.2.compiled, ∀ other ∈ b.2.compiled,
      names path = names other → path = other)
    (htrace : Interleaves (buildWrites build) trace) (hwhole : Uninterrupted trace) :
    Faithful names (build.map Prod.snd) (interceptEntries (logOf trace)) := by
  obtain ⟨recorded, hlog, hmem⟩ := log_eq_records hbuild htrace hwhole
  have hrecordable : ∀ inv ∈ recorded, ∃ shim, Recordable shim inv := by
    intro inv hinv
    obtain ⟨shim, hrun⟩ := (hmem inv).mp hinv
    exact ⟨shim, hbuild _ hrun⟩
  have htext : (fromUtf8 (logOf trace)).isSome := by
    rw [hlog, List.flatMap_def]
    refine text_flatten ?_
    intro record hrecord
    obtain ⟨inv, hinv, rfl⟩ := List.mem_map.mp hrecord
    obtain ⟨shim, hplain⟩ := hrecordable inv hinv
    exact text_record hplain
  have hentries : interceptEntries (logOf trace)
      = dedupInterceptEntries (recorded.filterMap Invocation.entry) := by
    obtain ⟨text, hsome⟩ := Option.isSome_iff_exists.mp htext
    rw [interceptEntries, hsome, hlog, parseInterceptLog_records hrecordable]
  have hdedup := deduped_dedupInterceptEntries (recorded.filterMap Invocation.entry)
  rw [← hentries] at hdedup
  have hcommand : ∀ entry ∈ interceptEntries (logOf trace), ∃ run ∈ build,
      entry.file ∈ run.2.compiled ∧ entry.directory = run.2.directory
        ∧ entry.arguments = run.2.compiler :: run.2.args := by
    intro entry hentry
    obtain ⟨inv, hinv, hown⟩ := List.mem_filterMap.mp (hdedup.kept entry hentry)
    obtain ⟨shim, hrun⟩ := (hmem inv).mp hinv
    rw [entry_eq] at hown
    obtain ⟨file, hfile, rfl⟩ := Option.map_eq_some_iff.mp hown
    exact ⟨(shim, inv), hrun, List.mem_of_head? hfile, rfl, rfl⟩
  refine ⟨?_, ?_⟩
  · intro inv hinv path hpath
    obtain ⟨run, hrun, rfl⟩ := List.mem_map.mp hinv
    have hfile : path ∈ (interceptEntries (logOf trace)).map (·.file) := by
      have hentry : (⟨run.2.directory, path, run.2.compiler :: run.2.args⟩ : ProbeEntry)
          ∈ recorded.filterMap Invocation.entry := by
        refine List.mem_filterMap.mpr ⟨run.2, (hmem run.2).mpr ⟨run.1, hrun⟩, ?_⟩
        rw [entry_eq, compiled_eq (hbuild run hrun) hpath]
        rfl
      exact hdedup.files _ hentry
    refine length_filter_file hdedup.nodup hfile ?_
    intro entry hentry heq
    obtain ⟨other, hother, hcompiled, -⟩ := hcommand entry hentry
    exact hspelled other hother run hrun entry.file hcompiled path hpath heq
  · intro entry hentry
    obtain ⟨run, hrun, hown⟩ := hcommand entry hentry
    exact ⟨run.2, List.mem_map_of_mem hrun, hown⟩

end Builds

/-! ## Two compilers at once -/

def firstCompile : Invocation :=
  ⟨toUtf8 "/a", toUtf8 "/usr/bin/cc", [toUtf8 "-DA", toUtf8 "a.c"]⟩

def secondCompile : Invocation :=
  ⟨toUtf8 "/b", toUtf8 "/usr/bin/cc", [toUtf8 "-DB", toUtf8 "b.c"]⟩

def twoCompiles : List (Shim × Invocation) := [(.shell, firstCompile), (.preload, secondCompile)]

theorem plain_ascii {field : List UInt8} (h : ∀ b ∈ field, 32 ≤ b ∧ b < 128) : Plain field := by
  refine ⟨?_, ?_, ?_⟩
  · rw [(fromUtf8_eq_latin1_iff field).mpr fun b hb => (h b hb).2]
    rfl
  · intro hmem
    exact absurd (h 10 hmem).1 (by decide)
  · intro hlast
    exact absurd (h 13 (List.mem_of_getLast? hlast)).1 (by decide)

theorem recordable_twoCompiles : ∀ run ∈ twoCompiles, Recordable run.1 run.2 := by
  intro run hrun
  rcases List.mem_cons.mp hrun with rfl | hlast
  · refine ⟨plain_ascii (by decide), plain_ascii (by decide), ?_, by decide, fun _ => by decide, ?_⟩
    · intro arg harg
      exact plain_ascii ((show ∀ arg ∈ firstCompile.args, ∀ b ∈ arg, 32 ≤ b ∧ b < 128 by decide)
        arg harg)
    · intro hshim
      cases hshim
  · rw [List.mem_singleton.mp hlast]
    refine ⟨plain_ascii (by decide), plain_ascii (by decide), ?_, by decide, ?_, ?_⟩
    · intro arg harg
      exact plain_ascii ((show ∀ arg ∈ secondCompile.args, ∀ b ∈ arg, 32 ≤ b ∧ b < 128 by decide)
        arg harg)
    · intro hshim
      cases hshim
    · intro _
      decide

/-- The second compiler has its record in front of the first one's. -/
def apartTrace : List (Nat × List UInt8) :=
  (maybeLog secondCompile).map (1, ·) ++ (shellWrites firstCompile).map (0, ·)

/-- The writes of two invocations, told by the two tags. -/
theorem interleaves_two {a b : Shim × Invocation} {trace : List (Nat × List UInt8)}
    (hzero : (trace.filter fun item => item.1 = 0).map Prod.snd = writes a.1 a.2)
    (hone : (trace.filter fun item => item.1 = 1).map Prod.snd = writes b.1 b.2)
    (htags : ∀ item ∈ trace, item.1 < 2) : Interleaves (buildWrites [a, b]) trace := by
  intro i
  match i with
  | 0 => exact hzero
  | 1 => exact hone
  | i + 2 =>
      have hnone : trace.filter (fun item => item.1 = i + 2) = [] := by
        refine List.filter_eq_nil_iff.mpr ?_
        intro item hitem heq
        have htag := htags item hitem
        rw [of_decide_eq_true heq] at htag
        omega
      rw [hnone]
      rfl

theorem uninterrupted_of_pairwise {trace : List (Nat × List UInt8)}
    (h : trace.Pairwise fun a b => b.1 ≤ a.1) : Uninterrupted trace := by
  intro a b c hsub heq
  have hpair := h.sublist hsub
  simp only [List.pairwise_cons, List.mem_cons, List.not_mem_nil, or_false] at hpair
  have hab := hpair.1 b (.inl rfl)
  have hbc := hpair.2.1 c rfl
  omega

theorem faithful_twoCompiles :
    Faithful id [firstCompile, secondCompile] (interceptEntries (logOf apartTrace)) :=
  faithful_of_uninterrupted recordable_twoCompiles (fun _ _ _ _ _ _ _ _ heq => heq)
    (interleaves_two (by decide) (by decide) (by decide))
    (uninterrupted_of_pairwise (by decide))

/-- Two shell shims, the lines of the one between those of the other. -/
def mixedTrace : List (Nat × List UInt8) :=
  ((shellWrites firstCompile).take 3).map (0, ·) ++ ((shellWrites secondCompile).take 3).map (1, ·)
    ++ ((shellWrites firstCompile).drop 3).map (0, ·)
    ++ ((shellWrites secondCompile).drop 3).map (1, ·)

/-- The one entry of the log has the directory of the one compiler and the
arguments of both; the other file is lost. -/
theorem not_faithful_mixedTrace :
    Interleaves (buildWrites [(.shell, firstCompile), (.shell, secondCompile)]) mixedTrace
      ∧ ¬ Faithful id [firstCompile, secondCompile] (interceptEntries (logOf mixedTrace))
      ∧ interceptEntries (logOf mixedTrace) = [⟨toUtf8 "/b", toUtf8 "/b/a.c",
          [toUtf8 "/usr/bin/cc", toUtf8 "-DA", toUtf8 "-DB", toUtf8 "a.c"]⟩] := by
  have hentries : interceptEntries (logOf mixedTrace) = [⟨toUtf8 "/b", toUtf8 "/b/a.c",
      [toUtf8 "/usr/bin/cc", toUtf8 "-DA", toUtf8 "-DB", toUtf8 "a.c"]⟩] := by decide +kernel
  refine ⟨interleaves_two (by decide) (by decide) (by decide), ?_, hentries⟩
  intro hfaithful
  have hone := hfaithful.one_entry firstCompile (by decide) (toUtf8 "/a/a.c") (by decide)
  rw [hentries] at hone
  revert hone
  decide

end GovFuzz.BuildProbe
