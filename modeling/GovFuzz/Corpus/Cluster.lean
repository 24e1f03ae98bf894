import GovFuzz.Corpus.Classify
import GovFuzz.Corpus.LineRemap
import GovFuzz.Runtrace.Readers

/-!
# Corpus — crash clusters

`crates/corpus/src/cluster.rs`, as far as sanitizer reports are concerned:
the frames of a report are stripped of what the toolchain adds, noise is
dropped, and the first three that remain are hashed into the key of the
root cause.  Two kinds of reports are none of the target's and are
recognised by their frames.
-/

namespace GovFuzz.Corpus

open GovFuzz.Lib GovFuzz.Runtrace

/-- The sanitizers whose reports are clustered. -/
inductive Sanitizer where
  | addressSanitizer
  | undefinedBehaviorSanitizer
  | leakSanitizer
  deriving DecidableEq, Repr

/-- One frame of a stack. -/
structure StackFrame where
  function : String
  file : Option String
  line : Option Nat
  deriving DecidableEq, Repr

/-- A report and its stack, innermost frame first. -/
structure SanitizerReport where
  sanitizer : Sanitizer
  kind : String
  ruleId : String
  stack : List StackFrame
  message : String
  deriving DecidableEq, Repr

/-- The key of a cluster and the frames it was made of. -/
structure ClusterKey where
  short : String
  full : String
  frames : List String
  fallback : Bool
  deriving DecidableEq, Repr

/-! ## Frames -/

/-- `str::trim_end`. -/
def trimEnd (s : List Char) : List Char := (s.reverse.dropWhile isWhitespace).reverse

/-- What stands before the parenthesis that closes the count; from the end of
the text, so both are reversed. -/
def beforeOpenParen : Nat → List Char → Option (List Char)
  | _, [] => none
  | depth, c :: rest =>
      if c = ')' then beforeOpenParen (depth + 1) rest
      else if c = '(' then
        if depth - 1 = 0 then some rest else beforeOpenParen (depth - 1) rest
      else beforeOpenParen depth rest

/-- Without the last group in parentheses, when a blank stands in front of it. -/
def stripOneTrailingParenGroup (s : List Char) : Option (List Char) :=
  let trimmed := trimEnd s
  if trimmed.getLast? ≠ some ')' then none
  else
    match beforeOpenParen 0 trimmed.reverse with
    | none => none
    | some preceding =>
        if preceding.head?.any isWhitespace then some (preceding.dropWhile isWhitespace).reverse
        else none

theorem length_beforeOpenParen {depth : Nat} {s rest : List Char}
    (h : beforeOpenParen depth s = some rest) : rest.length < s.length := by
  induction s generalizing depth with
  | nil => cases h
  | cons c s ih =>
      unfold beforeOpenParen at h
      rw [List.length_cons]
      split at h
      · exact Nat.lt_succ_of_lt (ih h)
      · split at h
        · split at h
          · cases h
            omega
          · exact Nat.lt_succ_of_lt (ih h)
        · exact Nat.lt_succ_of_lt (ih h)

theorem length_stripOneTrailingParenGroup {s rest : List Char}
    (h : stripOneTrailingParenGroup s = some rest) : rest.length < s.length := by
  have htrim : (trimEnd s).length ≤ s.length := by
    have := (List.dropWhile_sublist (l := s.reverse) isWhitespace).length_le
    simpa [trimEnd] using this
  unfold stripOneTrailingParenGroup at h
  dsimp only at h
  split at h
  · cases h
  · split at h
    · cases h
    case h_2 preceding hopen =>
      have hlen := length_beforeOpenParen hopen
      rw [List.length_reverse] at hlen
      split at h
      · cases h
        have := (List.dropWhile_sublist (l := preceding) isWhitespace).length_le
        rw [List.length_reverse]
        omega
      · cases h

/-- Trailing groups are taken off until there is none. -/
def stripGroups (cursor : List Char) : List Char :=
  match h : stripOneTrailingParenGroup cursor with
  | none => cursor
  | some stripped =>
      have := length_stripOneTrailingParenGroup h
      stripGroups stripped
termination_by cursor.length

/-- Without the groups in parentheses behind the name. -/
def stripToolchainDecoration (raw : List Char) : List Char := stripGroups (trimEnd raw)

/-- The parenthesis that is part of a name. -/
def anonymousNamespace : List Char := "(anonymous namespace)".toList

/-- The number of characters before the parenthesis that opens the arguments;
`skip` counts down the rest of a scope token. -/
def findTopLevelOpenParen (skip : Nat) (angle : Int) : List Char → Option Nat
  | [] => none
  | c :: rest =>
      if 0 < skip then (findTopLevelOpenParen (skip - 1) angle rest).map (· + 1)
      else if c = '<' then (findTopLevelOpenParen 0 (angle + 1) rest).map (· + 1)
      else if c = '>' then (findTopLevelOpenParen 0 (angle - 1) rest).map (· + 1)
      else if c = '(' ∧ angle ≤ 0 then
        if anonymousNamespace <+: c :: rest then
          (findTopLevelOpenParen (anonymousNamespace.length - 1) angle rest).map (· + 1)
        else some 0
      else (findTopLevelOpenParen 0 angle rest).map (· + 1)

/-- Without the argument list of a C++ name. -/
def stripCppArgs (raw : List Char) : List Char :=
  let trimmed := trim raw
  match findTopLevelOpenParen 0 0 trimmed with
  | none => trimmed
  | some index =>
      let preceding := trimmed.take index
      if "operator".toList <:+ preceding then trimmed else trimEnd preceding

/-! ## Noise -/

/-- Frames of the sanitizers and the loader. -/
def noisePrefixes : List String :=
  ["__asan", "__sanitizer", "__interceptor", "__ubsan", "__lsan", "__hwasan", "__tsan",
    "LLVMFuzzer", "fuzzer::", "_dl_", "__GI_", "__libc_"]

/-- Frames of the start-up code. -/
def noiseExact : List String := ["main", "_start"]

/-- Frames of the fuzzing driver. -/
def driverPrefixes : List String :=
  ["fuzzer::", "LLVMFuzzer", "__asan", "__ubsan", "__lsan", "__tsan", "__hwasan", "__sanitizer"]

/-- Frames of the allocator. -/
def allocRuntime : List String :=
  ["free", "malloc", "calloc", "realloc", "reallocarray", "aligned_alloc", "posix_memalign",
    "memalign", "valloc", "pvalloc", "cfree", "operator new", "operator delete",
    "operator new[]", "operator delete[]"]

/-- Frames of the C library. -/
def runtimeFunctions : List String :=
  ["printf", "fprintf", "vfprintf", "vprintf", "sprintf", "snprintf", "vsnprintf", "vsprintf",
    "dprintf", "vdprintf", "puts", "fputs", "fwrite", "fread", "fputc", "fgetc", "getc", "putc",
    "putchar", "memcpy", "memmove", "memset", "memcmp", "memchr", "strlen", "strnlen", "strcmp",
    "strncmp", "strcpy", "strncpy", "strcat", "strncat", "strchr", "strrchr", "strstr", "strdup",
    "strndup"]

/-- Some prefix is that of the name. -/
def startsWithAny (prefixes : List String) (name : List Char) : Bool :=
  prefixes.any fun p => p.toList.isPrefixOf name

/-- The text stands somewhere in the name. -/
def containsText (text : String) (name : List Char) : Bool :=
  name.tails.any fun tail => text.toList.isPrefixOf tail

/-- A frame of Rust's allocation. -/
def isRustStdAllocatorNoise (lowerName : List Char) : Bool :=
  startsWithAny ["alloc::", "<alloc::"] lowerName || containsText " as alloc::" lowerName
    || startsWithAny ["<[u8]>::to_vec", "<u8 as <[_]>::to_vec"] lowerName

/-- A frame of the harness's runtime. -/
def isRuntimeOrHarnessNoise (name : List Char) : Bool :=
  let lower := toAsciiLowercase name
  startsWithAny ["govfuzz_", "gf_", "rust_runtime::", "<rust_runtime::", "_io_"] lower
    || containsText "printf_common" lower || lower = "llvmfuzzertestoneinput".toList
    || allocRuntime.contains (String.ofList lower) || isRustStdAllocatorNoise lower
    || runtimeFunctions.contains (String.ofList lower)

/-! ## Keys -/

/-- Frames that make a key. -/
def topFrames : Nat := 3

/-- What is hashed in front of the frames. -/
def clusterKeyVersionPrefix : String := "govfuzz-cluster-v1\n"

/-- What is left of a frame, unless it is noise. -/
def normalizeFrame (function : String) : Option String :=
  let trimmed := trim (stripToolchainDecoration function.toList)
  if trimmed = [] then none
  else if noiseExact.contains (String.ofList trimmed) then none
  else if startsWithAny noisePrefixes trimmed then none
  else
    let noArgs := stripCppArgs trimmed
    if noArgs = [] then none
    else if isRuntimeOrHarnessNoise noArgs then none
    else some (String.ofList noArgs)

/-- The first frames that are the program's own. -/
def normalizeFrames (functions : List String) : List String :=
  (functions.filterMap normalizeFrame).take topFrames

section Keys

variable (sha256 : List UInt8 → Signature)

/-- The hash of the frames; without frames a key of zeros. -/
def clusterKeyFromFrames (frames : List String) : ClusterKey :=
  if frames = [] then
    ⟨String.ofList (List.replicate 16 '0'), String.ofList (List.replicate 64 '0'), [], true⟩
  else
    let full := encodeHex
      (sha256 (toUtf8 (clusterKeyVersionPrefix ++ String.intercalate "\n" frames))).bytes
    ⟨String.ofList (full.toList.take 16), full, frames, false⟩

/-- The key of a report. -/
def clusterForSanitizer (report : SanitizerReport) : ClusterKey :=
  clusterKeyFromFrames sha256 (normalizeFrames (report.stack.map StackFrame.function))

end Keys

/-! ## Reports that are not the target's -/

/-- What the frames of a leak have shown so far: a frame of the harness, one
of Rust's allocator; `none` once a frame is the target's. -/
def scaffoldingStep (state : Option (Bool × Bool)) (frame : StackFrame) : Option (Bool × Bool) :=
  match state with
  | none => none
  | some (sawHarness, sawRustStdAllocator) =>
      let trimmed := trim (stripToolchainDecoration frame.function.toList)
      if trimmed = [] then some (sawHarness, sawRustStdAllocator)
      else
        let noArgs := stripCppArgs trimmed
        let lower := toAsciiLowercase noArgs
        if noArgs = [] then some (sawHarness, sawRustStdAllocator)
        else if startsWithAny ["gf_", "govfuzz_", "rust_runtime::", "<rust_runtime::"] lower
            || lower = "llvmfuzzertestoneinput".toList then
          some (true, sawRustStdAllocator)
        else if isRustStdAllocatorNoise lower then some (sawHarness, true)
        else if allocRuntime.contains (String.ofList noArgs)
            || noiseExact.contains (String.ofList trimmed)
            || startsWithAny noisePrefixes trimmed || isRuntimeOrHarnessNoise noArgs then
          some (sawHarness, sawRustStdAllocator)
        else none

/-- A leak whose frames are the harness's or the allocator's. -/
def isHarnessScaffoldingLeak (report : SanitizerReport) : Bool :=
  if report.sanitizer ≠ .leakSanitizer then false
  else
    match report.stack.foldl scaffoldingStep (some (false, false)) with
    | none => false
    | some (sawHarness, sawRustStdAllocator) => sawHarness || sawRustStdAllocator

/-- Whether a frame of the driver was seen; `none` once one is the target's. -/
def driverGlueStep (state : Option Bool) (frame : StackFrame) : Option Bool :=
  match state with
  | none => none
  | some sawDriver =>
      let trimmed := trim (stripToolchainDecoration frame.function.toList)
      if trimmed = [] then some sawDriver
      else if startsWithAny driverPrefixes trimmed then some true
      else if noiseExact.contains (String.ofList trimmed)
          || startsWithAny noisePrefixes trimmed then
        some sawDriver
      else if allocRuntime.contains (String.ofList (stripCppArgs trimmed)) then some sawDriver
      else none

/-- A crash in the driver, no frame of the target in its stack. -/
def isDriverGlueCrash (report : SanitizerReport) : Bool :=
  (report.stack.foldl driverGlueStep (some false)).getD false

/-! ## What is suppressed has no frame of the target -/

theorem startsWithAny_mono {prefixes more : List String} (h : prefixes ⊆ more) {name : List Char}
    (hname : startsWithAny prefixes name = true) : startsWithAny more name = true := by
  obtain ⟨p, hp, hprefix⟩ := List.any_eq_true.mp hname
  exact List.any_eq_true.mpr ⟨p, h hp, hprefix⟩

theorem normalizeFrames_eq_nil {functions : List String} :
    normalizeFrames functions = [] ↔ ∀ function ∈ functions, normalizeFrame function = none := by
  rw [normalizeFrames, List.take_eq_nil_iff, List.filterMap_eq_nil_iff]
  simp [topFrames]

/-- The names of allocators are in lower case. -/
theorem isRuntimeOrHarnessNoise_of_allocRuntime {name : List Char}
    (h : allocRuntime.contains (String.ofList name) = true) :
    isRuntimeOrHarnessNoise name = true := by
  have hlower : ∀ text ∈ allocRuntime, toAsciiLowercase text.toList = text.toList := by
    decide +kernel
  have hmem : String.ofList name ∈ allocRuntime := List.contains_iff_mem.mp h
  have hname := hlower _ hmem
  rw [String.toList_ofList] at hname
  unfold isRuntimeOrHarnessNoise
  simp only [hname, h, Bool.or_true, Bool.true_or]

/-- The frames that `normalize_frames` drops. -/
def isNoiseName (trimmed : List Char) : Bool :=
  trimmed = [] || noiseExact.contains (String.ofList trimmed)
    || startsWithAny noisePrefixes trimmed || stripCppArgs trimmed = []
    || isRuntimeOrHarnessNoise (stripCppArgs trimmed)

theorem normalizeFrame_eq_none {function : String} :
    normalizeFrame function = none ↔
      isNoiseName (trim (stripToolchainDecoration function.toList)) = true := by
  unfold normalizeFrame isNoiseName
  dsimp only
  split_ifs <;> simp_all

/-- What names the harness, in lower case. -/
def isHarnessName (lower : List Char) : Bool :=
  startsWithAny ["gf_", "govfuzz_", "rust_runtime::", "<rust_runtime::"] lower
    || lower = "llvmfuzzertestoneinput".toList

theorem isRuntimeOrHarnessNoise_of_harness {name : List Char}
    (h : isHarnessName (toAsciiLowercase name) = true) : isRuntimeOrHarnessNoise name = true := by
  unfold isRuntimeOrHarnessNoise
  rcases Bool.or_eq_true_iff.mp h with hprefix | hentry
  · have hsub : ["gf_", "govfuzz_", "rust_runtime::", "<rust_runtime::"] ⊆
        ["govfuzz_", "gf_", "rust_runtime::", "<rust_runtime::", "_io_"] := by simp
    simp only [startsWithAny_mono hsub hprefix, Bool.true_or]
  · simp only [hentry, Bool.or_true, Bool.true_or]

theorem isRuntimeOrHarnessNoise_of_rustStd {name : List Char}
    (h : isRustStdAllocatorNoise (toAsciiLowercase name) = true) :
    isRuntimeOrHarnessNoise name = true := by
  unfold isRuntimeOrHarnessNoise
  simp only [h, Bool.or_true, Bool.true_or]

/-- A frame that says that a leak is the harness's own. -/
def showsHarness (frame : StackFrame) : Bool :=
  let trimmed := trim (stripToolchainDecoration frame.function.toList)
  let lower := toAsciiLowercase (stripCppArgs trimmed)
  trimmed ≠ [] && stripCppArgs trimmed ≠ []
    && (isHarnessName lower || isRustStdAllocatorNoise lower)

/-- A frame of the target ends the search. -/
theorem scaffoldingStep_of_target {frame : StackFrame}
    (h : normalizeFrame frame.function ≠ none) (state : Option (Bool × Bool)) :
    scaffoldingStep state frame = none := by
  rw [ne_eq, normalizeFrame_eq_none] at h
  cases state with
  | none => rfl
  | some seen =>
      unfold scaffoldingStep
      generalize trim (stripToolchainDecoration frame.function.toList) = trimmed at h ⊢
      simp only [isNoiseName, Bool.or_eq_true, decide_eq_true_eq, not_or, Bool.not_eq_true] at h
      obtain ⟨⟨⟨⟨hname, hexact⟩, hprefix⟩, hargs⟩, hnoise⟩ := h
      have hharness : isHarnessName (toAsciiLowercase (stripCppArgs trimmed)) = false := by
        by_contra hne
        rw [isRuntimeOrHarnessNoise_of_harness (by simpa using hne)] at hnoise
        cases hnoise
      have hrust : isRustStdAllocatorNoise (toAsciiLowercase (stripCppArgs trimmed)) = false := by
        by_contra hne
        rw [isRuntimeOrHarnessNoise_of_rustStd (by simpa using hne)] at hnoise
        cases hnoise
      have halloc : allocRuntime.contains (String.ofList (stripCppArgs trimmed)) = false := by
        by_contra hne
        rw [isRuntimeOrHarnessNoise_of_allocRuntime (by simpa using hne)] at hnoise
        cases hnoise
      unfold isHarnessName at hharness
      simp only [hname, hargs, hexact, hprefix, hnoise, hrust, halloc, hharness, if_false,
        Bool.or_false, Bool.false_eq_true]

/-- A noise frame passes the step, and a flag is up behind it if one was or the frame shows
a harness. -/
theorem scaffoldingStep_of_noise {frame : StackFrame}
    (h : normalizeFrame frame.function = none) (sawHarness sawRust : Bool) :
    ∃ sawHarness' sawRust', scaffoldingStep (some (sawHarness, sawRust)) frame =
        some (sawHarness', sawRust') ∧
      (sawHarness' || sawRust') = (sawHarness || sawRust || showsHarness frame) := by
  rw [normalizeFrame_eq_none] at h
  unfold scaffoldingStep showsHarness
  generalize trim (stripToolchainDecoration frame.function.toList) = trimmed at h ⊢
  -- One case a branch of the step: only the names of the harness and of the
  -- allocator set a flag, the rest of the noise is passed over.
  by_cases hname : trimmed = []
  · exact ⟨sawHarness, sawRust, by simp [hname], by simp [hname]⟩
  by_cases hargs : stripCppArgs trimmed = []
  · exact ⟨sawHarness, sawRust, by simp [hname, hargs], by simp [hargs]⟩
  cases hharness : isHarnessName (toAsciiLowercase (stripCppArgs trimmed)) with
  | true =>
      have hcond := hharness
      unfold isHarnessName at hcond
      refine ⟨true, sawRust, ?_, by simp [hname, hargs, hharness]⟩
      simp only [hname, hargs, hcond, if_false, if_true]
  | false =>
      have hcond := hharness
      unfold isHarnessName at hcond
      cases hrust : isRustStdAllocatorNoise (toAsciiLowercase (stripCppArgs trimmed)) with
      | true =>
          refine ⟨sawHarness, true, ?_, by simp [hname, hargs, hrust]⟩
          simp only [hname, hargs, hcond, hrust, if_false, if_true, Bool.false_eq_true]
      | false =>
          refine ⟨sawHarness, sawRust, ?_, by simp [hharness, hrust]⟩
          have hneutral : (allocRuntime.contains (String.ofList (stripCppArgs trimmed))
              || noiseExact.contains (String.ofList trimmed)
              || startsWithAny noisePrefixes trimmed
              || isRuntimeOrHarnessNoise (stripCppArgs trimmed)) = true := by
            simp only [isNoiseName, hname, hargs, decide_false, Bool.false_or, Bool.or_false] at h
            rw [Bool.or_assoc, Bool.or_assoc, ← Bool.or_assoc (noiseExact.contains _), h,
              Bool.or_true]
          simp only [hname, hargs, hcond, hrust, hneutral, if_false, if_true, Bool.false_eq_true]

theorem foldl_scaffoldingStep (stack : List StackFrame) (sawHarness sawRust : Bool) :
    (match stack.foldl scaffoldingStep (some (sawHarness, sawRust)) with
      | none => false
      | some (sawHarness, sawRust) => sawHarness || sawRust) = true ↔
      (∀ frame ∈ stack, normalizeFrame frame.function = none) ∧
        (sawHarness || sawRust || stack.any showsHarness) = true := by
  induction stack generalizing sawHarness sawRust with
  | nil => simp
  | cons frame stack ih =>
      rw [List.foldl_cons, List.forall_mem_cons, List.any_cons]
      by_cases hframe : normalizeFrame frame.function = none
      · obtain ⟨sawHarness', sawRust', hstep, hseen⟩ :=
          scaffoldingStep_of_noise hframe sawHarness sawRust
        rw [hstep, ih, hseen, ← Bool.or_assoc]
        simp [hframe]
      · rw [scaffoldingStep_of_target hframe, List.foldl_fixed' fun _ => rfl]
        simp [hframe]

/-! ### Driver glue -/

theorem driverGlueStep_of_target {frame : StackFrame}
    (h : normalizeFrame frame.function ≠ none) (state : Option Bool) :
    driverGlueStep state frame = none := by
  rw [ne_eq, normalizeFrame_eq_none] at h
  cases state with
  | none => rfl
  | some sawDriver =>
      unfold driverGlueStep
      generalize trim (stripToolchainDecoration frame.function.toList) = trimmed at h ⊢
      simp only [isNoiseName, Bool.or_eq_true, decide_eq_true_eq, not_or, Bool.not_eq_true] at h
      obtain ⟨⟨⟨⟨hname, hexact⟩, hprefix⟩, -⟩, hnoise⟩ := h
      have hdriver : startsWithAny driverPrefixes trimmed = false := by
        by_contra hne
        have hsub : driverPrefixes ⊆ noisePrefixes := by decide
        rw [startsWithAny_mono hsub (by simpa using hne)] at hprefix
        cases hprefix
      have halloc : allocRuntime.contains (String.ofList (stripCppArgs trimmed)) = false := by
        by_contra hne
        rw [isRuntimeOrHarnessNoise_of_allocRuntime (by simpa using hne)] at hnoise
        cases hnoise
      simp only [hname, hexact, hprefix, hdriver, halloc, if_false, Bool.or_false,
        Bool.false_eq_true]

theorem normalizeFrame_of_foldl_driverGlueStep {stack : List StackFrame} {state : Option Bool}
    (h : stack.foldl driverGlueStep state ≠ none) :
    ∀ frame ∈ stack, normalizeFrame frame.function = none := by
  induction stack generalizing state with
  | nil => simp
  | cons frame stack ih =>
      rw [List.foldl_cons] at h
      rw [List.forall_mem_cons]
      refine ⟨?_, ih h⟩
      by_contra hframe
      rw [driverGlueStep_of_target hframe, List.foldl_fixed' fun _ => rfl] at h
      exact h rfl

theorem fallback_clusterForSanitizer (sha256 : List UInt8 → Signature)
    (report : SanitizerReport) :
    (clusterForSanitizer sha256 report).fallback = true ↔
      ∀ frame ∈ report.stack, normalizeFrame frame.function = none := by
  have hkey : ∀ frames, (clusterKeyFromFrames sha256 frames).fallback = true ↔ frames = [] := by
    intro frames
    unfold clusterKeyFromFrames
    split_ifs with hempty <;> simp [hempty]
  rw [clusterForSanitizer, hkey, normalizeFrames_eq_nil, List.forall_mem_map]

/-- A report that is taken for a fault of the driver or for a leak of the
harness has no frame that its cluster key could be made of; a leak is taken for
the harness's exactly then, if one of its frames shows the harness. -/
theorem suppressed_has_no_target_frame (sha256 : List UInt8 → Signature)
    (report : SanitizerReport) :
    (isHarnessScaffoldingLeak report = true ↔
      report.sanitizer = .leakSanitizer ∧ (clusterForSanitizer sha256 report).fallback = true ∧
        ∃ frame ∈ report.stack, showsHarness frame = true) ∧
    (isDriverGlueCrash report = true →
      (clusterForSanitizer sha256 report).fallback = true) := by
  rw [fallback_clusterForSanitizer]
  constructor
  · unfold isHarnessScaffoldingLeak
    by_cases hleak : report.sanitizer = .leakSanitizer
    · rw [if_neg (not_not.mpr hleak), foldl_scaffoldingStep, Bool.or_self, Bool.false_or,
        List.any_eq_true]
      simp [hleak]
    · rw [if_pos hleak]
      simp [hleak]
  · intro h
    -- Had a frame of the target stopped the scan, it would have ended in `none`.
    have hran : report.stack.foldl driverGlueStep (some false) ≠ none := by
      intro hnone
      rw [isDriverGlueCrash, hnone] at h
      cases h
    exact normalizeFrame_of_foldl_driverGlueStep hran

end GovFuzz.Corpus
