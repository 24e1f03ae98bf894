import GovFuzz.Runtrace.FakedWorld
import GovFuzz.Runtrace.Jsonl
import GovFuzz.Runtrace.Readers

/-!
# Runtrace — environment capsules

`crates/govfuzz_runtrace_shim/src/fakes/envcap.rs`: what `fill_bytes` serves
is recorded, one line per call, and pinned for replay, one entry per
resource.  The first 16 KiB of the last call for a resource are what a
replay has of it, around their end.
-/

namespace GovFuzz.Runtrace

open GovFuzz.Lib

def maxRecord : Nat := 16 * 1024

/-! ## Recording -/

/-- The two digits of a byte. -/
@[grind =] def hexPair (byte : UInt8) : List UInt8 :=
  [hexDigit (byte >>> 4), hexDigit (byte &&& 0xf)]

@[grind =] def hexChars (byte : UInt8) : List Char := (hexPair byte).map latin1Char

/-- The text of `write_hex`, whatever chunks it is written in. -/
def writeHex (bytes : List UInt8) : List Char := bytes.flatMap hexChars

def recordFill (resourceName bytes : List UInt8) : List Char :=
  if resourceName.isEmpty || bytes.isEmpty then []
  else writeHex resourceName ++ ':' :: (writeHex (bytes.take maxRecord) ++ ['\n'])

/-! ## Replay -/

/-- The map of a capsule. -/
abbrev Capsule := List UInt8 → Option (List UInt8)

def unhex (s : List Char) : Option (List UInt8) := hexDecode (String.ofList s)

/-- `str::split_once`. -/
def splitOnce (sep : Char) (line : List Char) : Option (List Char × List Char) :=
  match line.dropWhile (· ≠ sep) with
  | [] => none
  | _ :: rest => some (line.takeWhile (· ≠ sep), rest)

def insertLine (map : Capsule) (line : List Char) : Capsule :=
  match splitOnce ':' (trim line) with
  | none => map
  | some (resHex, bytesHex) =>
      match unhex resHex, unhex bytesHex with
      | some res, some bytes =>
          if res.isEmpty then map else fun key => if key = res then some bytes else map key
      | _, _ => map

@[grind =] def parseCapsule (text : List Char) : Capsule :=
  (strLines text).foldl insertLine fun _ => none

@[grind =] def replayFill (pinned : Option Capsule) (resourceName : List UInt8) (len : Nat) :
    Option (List UInt8) :=
  if len = 0 then none
  else do
    let map ← pinned
    let recorded ← map resourceName
    if recorded.isEmpty then some []
    else some ((List.range len).map fun i => recorded.getD (i % recorded.length) 0)

/-! ## Runs -/

/-- A call of `fill_bytes`: the resource and the length of the buffer. -/
structure Request where
  resource : List UInt8
  len : Nat
  deriving DecidableEq, Repr

section
variable (pinned : Option Capsule) (cfg : Config) (s : ShimState)

/-- What `fill_bytes` serves and what it appends to the record. -/
@[grind =] def serve (request : Request) : List UInt8 × List Char :=
  match replayFill pinned request.resource request.len with
  | some bytes => (bytes, [])
  | none =>
      let bytes := fillBytes cfg request.resource request.len s
      (bytes, recordFill request.resource bytes)

def served (requests : List Request) : List (List UInt8) :=
  requests.map fun request => (serve pinned cfg s request).1

def recordText (requests : List Request) : List Char :=
  requests.flatMap fun request => (serve pinned cfg s request).2

end

/-- Call by call the same bytes, whatever pass mode the replay runs in. -/
def ReplaysExactly (cfg : Config) (s : ShimState) (requests : List Request) : Prop :=
  ∀ mode, served (some (parseCapsule (recordText none cfg s requests))) { cfg with mode := mode } s
    requests = served none cfg s requests

/-! ## When it does -/

/-- Pass mode and input give bytes at all. -/
@[grind =] def Serves (cfg : Config) (s : ShimState) : Prop :=
  match cfg.mode with
  | .audit => False
  | .empty => False
  | .rng => True
  | .fuzzDriven => ∃ source, currentSource cfg s = some source ∧ source ≠ []

/-- The length of the last request for a resource that is not for nothing. -/
@[grind =] def lastLen : List Request → List UInt8 → Nat
  | [], _ => 0
  | request :: requests, resource =>
      if lastLen requests resource ≠ 0 then lastLen requests resource
      else if request.resource = resource then request.len
      else 0

/-- The bytes at `m` and behind are those before them again. -/
def Repeats (m : Nat) (bytes : List UInt8) : Prop :=
  ∀ k, k < bytes.length → bytes[k]? = bytes[k % m]?

/-- A request for a named resource whose generated bytes are determined by
the part that is recorded last. -/
def Pinnable (cfg : Config) (s : ShimState) (requests : List Request) (request : Request) : Prop :=
  request.resource ≠ [] ∧
    Repeats (min maxRecord (lastLen requests request.resource))
      (fillBytes cfg request.resource request.len s)

/-! ## The text read back -/

/-- A digit is ASCII and reads back as its half of a byte; it is no separator,
no newline and no space. -/
theorem hexDigit_of_lt {n : UInt8} (h : n < 16) :
    hexDigit n < 128 ∧ hexNibble (hexDigit n) = some n ∧
      latin1Char (hexDigit n) ≠ ':' ∧ latin1Char (hexDigit n) ≠ '\n' ∧
      latin1Char (hexDigit n) ≠ '\r' ∧ isWhitespace (latin1Char (hexDigit n)) = false := by
  have hall : ∀ k < 16, hexDigit (UInt8.ofNat k) < 128 ∧
      hexNibble (hexDigit (UInt8.ofNat k)) = some (UInt8.ofNat k) ∧
      latin1Char (hexDigit (UInt8.ofNat k)) ≠ ':' ∧ latin1Char (hexDigit (UInt8.ofNat k)) ≠ '\n' ∧
      latin1Char (hexDigit (UInt8.ofNat k)) ≠ '\r' ∧
      isWhitespace (latin1Char (hexDigit (UInt8.ofNat k))) = false := by decide
  have hn := hall n.toNat (UInt8.lt_iff_toNat_lt.mp h)
  rwa [UInt8.ofNat_toNat] at hn

theorem halves_lt (byte : UInt8) : byte >>> 4 < 16 ∧ byte &&& 0xf < 16 := by
  have hlow : byte.toNat &&& 15 ≤ 15 := Nat.and_le_right
  have hbyte := byte.toNat_lt
  simp only [UInt8.lt_iff_toNat_lt, UInt8.toNat_shiftRight, UInt8.toNat_and, UInt8.reduceToNat,
    Nat.shiftRight_eq_div_pow, Nat.reduceMod, Nat.reducePow]
  omega

theorem or_halves (byte : UInt8) : (byte >>> 4) <<< 4 ||| (byte &&& 0xf) = byte := by
  revert byte
  exact forall_byte (by decide +kernel)

theorem toUtf8_writeHex (bytes : List UInt8) :
    toUtf8 (String.ofList (writeHex bytes)) = bytes.flatMap hexPair := by
  rw [toUtf8_ofList]
  induction bytes with
  | nil => rfl
  | cons byte bytes ih =>
      obtain ⟨hhi, -⟩ := hexDigit_of_lt (halves_lt byte).1
      obtain ⟨hlo, -⟩ := hexDigit_of_lt (halves_lt byte).2
      rw [writeHex] at ih
      rw [writeHex, List.flatMap_cons, List.flatMap_append, List.flatMap_cons, ih]
      simp only [hexChars, hexPair, List.map_cons, List.map_nil, List.flatMap_cons,
        List.flatMap_nil, List.append_nil, utf8EncodeChar_latin1Char hhi,
        utf8EncodeChar_latin1Char hlo, List.singleton_append]

theorem hexChunks_flatMap_hexPair (bytes : List UInt8) :
    hexChunks (bytes.flatMap hexPair) = some bytes := by
  induction bytes with
  | nil => rfl
  | cons byte bytes ih =>
      obtain ⟨-, hhi, -⟩ := hexDigit_of_lt (halves_lt byte).1
      obtain ⟨-, hlo, -⟩ := hexDigit_of_lt (halves_lt byte).2
      rw [List.flatMap_cons]
      show hexChunks (_ :: _ :: bytes.flatMap hexPair) = _
      rw [hexChunks, hhi, hlo, ih]
      simp only [Option.map_some, or_halves]

theorem unhex_writeHex (bytes : List UInt8) : unhex (writeHex bytes) = some bytes := by
  have heven : (bytes.flatMap hexPair).length = 2 * bytes.length := by
    rw [List.length_flatMap]
    simp [hexPair, Nat.mul_comm]
  rw [unhex, hexDecode, toUtf8_writeHex, if_neg (by omega), hexChunks_flatMap_hexPair]

theorem mem_hexChars {byte : UInt8} {c : Char} (h : c ∈ hexChars byte) :
    c ≠ ':' ∧ c ≠ '\n' ∧ c ≠ '\r' ∧ isWhitespace c = false := by
  simp only [hexChars, hexPair, List.map_cons, List.map_nil, List.mem_cons, List.not_mem_nil,
    or_false] at h
  obtain rfl | rfl := h
  · exact (hexDigit_of_lt (halves_lt byte).1).2.2
  · exact (hexDigit_of_lt (halves_lt byte).2).2.2

theorem mem_writeHex {bytes : List UInt8} {c : Char} (h : c ∈ writeHex bytes) :
    c ≠ ':' ∧ c ≠ '\n' ∧ c ≠ '\r' ∧ isWhitespace c = false := by
  obtain ⟨byte, -, hc⟩ := List.mem_flatMap.mp h
  exact mem_hexChars hc

/-- The line that a recorded call leaves, without its newline. -/
@[grind =] def recordLine (resourceName bytes : List UInt8) : List Char :=
  writeHex resourceName ++ ':' :: writeHex (bytes.take maxRecord)

theorem mem_recordLine {resourceName bytes : List UInt8} {c : Char}
    (h : c ∈ recordLine resourceName bytes) :
    c ≠ '\n' ∧ c ≠ '\r' ∧ isWhitespace c = false := by
  rcases List.mem_append.mp h with h | h
  · exact (mem_writeHex h).2
  · rcases List.mem_cons.mp h with rfl | h
    · decide
    · exact (mem_writeHex h).2

/-- Nothing to trim. -/
theorem trim_eq_self {line : List Char} (h : ∀ c ∈ line, isWhitespace c = false) :
    trim line = line :=
  trim_eq (fun c hc => h c (List.mem_of_head? hc)) fun c hc => h c (List.mem_of_getLast? hc)

theorem stripCr_eq_self {line : List Char} (h : ∀ c ∈ line, c ≠ '\r') : stripCr line = line := by
  refine if_neg fun hlast => ?_
  exact h _ (List.mem_of_getLast? hlast) rfl

theorem splitOnce_recordLine (resourceName bytes : List UInt8) :
    splitOnce ':' (recordLine resourceName bytes) =
      some (writeHex resourceName, writeHex (bytes.take maxRecord)) := by
  have hfront : ∀ c ∈ writeHex resourceName, decide (c ≠ ':') = true :=
    fun c hc => decide_eq_true (mem_writeHex hc).1
  unfold splitOnce recordLine
  rw [List.dropWhile_append_of_pos hfront, List.takeWhile_append_of_pos hfront,
    List.dropWhile_cons_of_neg (by simp), List.takeWhile_cons_of_neg (by simp), List.append_nil]

theorem insertLine_recordLine (map : Capsule) {resourceName : List UInt8}
    (hname : resourceName ≠ []) (bytes : List UInt8) :
    insertLine map (recordLine resourceName bytes) =
      fun key => if key = resourceName then some (bytes.take maxRecord) else map key := by
  have hempty : ¬ resourceName.isEmpty = true := by simpa using hname
  rw [insertLine, trim_eq_self fun c hc => (mem_recordLine hc).2.2, splitOnce_recordLine]
  dsimp only
  rw [unhex_writeHex, unhex_writeHex]
  dsimp only
  rw [if_neg hempty]

/-- A recorded line, then the rest of the text. -/
theorem foldl_insertLine_recordFill (map : Capsule) {resourceName bytes : List UInt8}
    (hname : resourceName ≠ []) (hbytes : bytes ≠ []) (rest : List Char) :
    (strLines (recordFill resourceName bytes ++ rest)).foldl insertLine map =
      (strLines rest).foldl insertLine
        (fun key => if key = resourceName then some (bytes.take maxRecord) else map key) := by
  have hfill : recordFill resourceName bytes ++ rest =
      recordLine resourceName bytes ++ '\n' :: rest := by
    rw [recordFill, if_neg (by simp [hname, hbytes]), recordLine]
    simp
  rw [hfill, strLines_line fun hc => (mem_recordLine hc).1 rfl,
    stripCr_eq_self fun c hc => (mem_recordLine hc).2.1, List.foldl_cons,
    insertLine_recordLine map hname]

/-! ## What is generated -/

theorem length_fillRngLoop (len : Nat) (state : UInt64) : (fillRngLoop len state).length = len := by
  induction len generalizing state with
  | zero => rfl
  | succ len ih => rw [fillRngLoop, List.length_cons, ih]

theorem take_fillRngLoop (m len : Nat) (state : UInt64) :
    (fillRngLoop len state).take m = fillRngLoop (min m len) state := by
  induction len generalizing m state with
  | zero => simp [fillRngLoop]
  | succ len ih =>
      cases m with
      | zero => rw [Nat.zero_min, List.take_zero, fillRngLoop]
      | succ m => rw [fillRngLoop, List.take_succ_cons, ih, Nat.succ_min_succ, fillRngLoop]

section
variable {cfg : Config} {s : ShimState}

/-- The window of a resource into the input. -/
theorem readKeyed_of_source {source : List UInt8} (hsource : currentSource cfg s = some source)
    (hne : source ≠ []) (key : UInt64) (len : Nat) :
    readKeyed cfg key len s = window source (key.toNat % source.length) len := by
  unfold readKeyed
  rw [hsource]
  dsimp only
  split
  next hnone =>
    have hlen : len = 0 := by simpa [hne] using hnone
    rw [hlen]
    rfl
  next => rfl

/-- A pass that serves fills every buffer. -/
theorem length_fillBytes (h : Serves cfg s) (resource : List UInt8) (len : Nat) :
    (fillBytes cfg resource len s).length = len := by
  unfold Serves at h
  unfold fillBytes
  cases hmode : cfg.mode with
  | audit => simp [hmode] at h
  | empty => simp [hmode] at h
  | rng => exact length_fillRngLoop _ _
  | fuzzDriven =>
      rw [hmode] at h
      obtain ⟨source, hsource, hne⟩ := h
      dsimp only
      rw [readKeyed_of_source hsource hne, window, List.length_map, List.length_range]

/-- A longer request for a resource starts with the bytes of a shorter one. -/
theorem take_fillBytes (h : Serves cfg s) (resource : List UInt8) (m len : Nat) :
    (fillBytes cfg resource len s).take m = fillBytes cfg resource (min m len) s := by
  unfold Serves at h
  unfold fillBytes
  cases hmode : cfg.mode with
  | audit => simp [hmode] at h
  | empty => simp [hmode] at h
  | rng => exact take_fillRngLoop _ _ _
  | fuzzDriven =>
      rw [hmode] at h
      obtain ⟨source, hsource, hne⟩ := h
      dsimp only
      rw [readKeyed_of_source hsource hne, readKeyed_of_source hsource hne, window, window,
        ← List.map_take, List.take_range]

theorem fillBytes_of_not_serves (h : ¬ Serves cfg s) (resource : List UInt8) (len : Nat) :
    fillBytes cfg resource len s = [] := by
  unfold Serves at h
  unfold fillBytes
  cases hmode : cfg.mode with
  | audit => rfl
  | empty => rfl
  | rng => simp [hmode] at h
  | fuzzDriven =>
      rw [hmode] at h
      dsimp only at h ⊢
      unfold readKeyed
      cases hsource : currentSource cfg s with
      | none => rfl
      | some source =>
          have hnil : source = [] := by
            by_contra hne
            exact h ⟨source, hsource, hne⟩
          simp [hnil]

theorem fillBytes_ne_nil (h : Serves cfg s) (resource : List UInt8) {len : Nat} (hlen : 0 < len) :
    fillBytes cfg resource len s ≠ [] := by
  rw [← List.length_pos_iff, length_fillBytes h]
  exact hlen

end

/-! ## What is recorded -/

theorem serve_none (cfg : Config) (s : ShimState) (request : Request) :
    serve none cfg s request = (fillBytes cfg request.resource request.len s,
      recordFill request.resource (fillBytes cfg request.resource request.len s)) := by
  unfold serve replayFill
  split_ifs <;> rfl

/-- The capsule of a recording, on top of a map. -/
theorem foldl_recordText {cfg : Config} {s : ShimState} (h : Serves cfg s)
    (requests : List Request) (map : Capsule) (resource : List UInt8) :
    (strLines (recordText none cfg s requests)).foldl insertLine map resource =
      if resource ≠ [] ∧ lastLen requests resource ≠ 0 then
        some ((fillBytes cfg resource (lastLen requests resource) s).take maxRecord)
      else map resource := by
  induction requests generalizing map with
  | nil => exact (if_neg fun hlast => hlast.2 rfl).symm
  | cons request requests ih =>
      have htext : recordText none cfg s (request :: requests) =
          recordFill request.resource (fillBytes cfg request.resource request.len s) ++
            recordText none cfg s requests := by
        rw [recordText, List.flatMap_cons, serve_none]
        rfl
      rw [htext, lastLen]
      by_cases hskip : request.resource = [] ∨ request.len = 0
      · -- nothing is written for this call
        have hnone : recordFill request.resource
            (fillBytes cfg request.resource request.len s) = [] := by
          refine if_pos ?_
          rcases hskip with hname | hlen
          · simp [hname]
          · have := length_fillBytes h request.resource request.len
            simp [List.length_eq_zero_iff.mp (this.trans hlen)]
        have hsame : resource ≠ [] →
            (if request.resource = resource then request.len else 0) = 0 := by
          intro hres
          rcases hskip with hname | hlen
          · exact if_neg fun heq => hres (heq.symm.trans hname)
          · rw [hlen, ite_self]
        rw [hnone, List.nil_append, ih]
        by_cases hres : resource = []
        · simp [hres]
        · by_cases hrest : lastLen requests resource = 0
          · simp [hrest, hsame hres]
          · simp [hrest]
      · have hname : request.resource ≠ [] := fun hn => hskip (.inl hn)
        have hlen : request.len ≠ 0 := fun hl => hskip (.inr hl)
        rw [foldl_insertLine_recordFill map hname
          (fillBytes_ne_nil h request.resource (Nat.pos_of_ne_zero hlen)), ih]
        by_cases hrest : lastLen requests resource ≠ 0
        · by_cases hres : resource = []
          · simp [hres, Ne.symm hname]
          · simp [hres, hrest]
        · by_cases heq : request.resource = resource
          · subst heq
            simp [hname, hrest, hlen]
          · simp [hrest, heq, Ne.symm heq]

/-- What a replay has of a resource. -/
theorem parseCapsule_recordText {cfg : Config} {s : ShimState} (h : Serves cfg s)
    (requests : List Request) {resource : List UInt8} (hname : resource ≠ [])
    (hlast : lastLen requests resource ≠ 0) :
    parseCapsule (recordText none cfg s requests) resource =
      some (fillBytes cfg resource (min maxRecord (lastLen requests resource)) s) := by
  rw [parseCapsule, foldl_recordText h, if_pos ⟨hname, hlast⟩, take_fillBytes h]

theorem recordText_of_not_serves {cfg : Config} {s : ShimState} (h : ¬ Serves cfg s)
    (requests : List Request) : recordText none cfg s requests = [] := by
  refine List.flatMap_eq_nil_iff.mpr fun request _ => ?_
  rw [serve_none, fillBytes_of_not_serves h]
  exact if_pos (by simp)

theorem lastLen_ne_zero {requests : List Request} {request : Request} (h : request ∈ requests)
    (hlen : request.len ≠ 0) : lastLen requests request.resource ≠ 0 := by
  induction requests with
  | nil => cases h
  | cons first requests ih =>
      rw [lastLen]
      by_cases hrest : lastLen requests request.resource ≠ 0
      · rwa [if_pos hrest]
      · rcases List.mem_cons.mp h with rfl | hmem
        · rwa [if_neg hrest, if_pos rfl]
        · exact absurd (ih hmem) hrest

/-! ## Exactly when the replay is the recording -/

/-- Bytes repeat with period `m` when they are their first `m` bytes, around
the end. -/
theorem repeats_iff {bytes : List UInt8} {m : Nat} (hm : 0 < m) {start : List UInt8}
    (hstart : start.length = m) (hagree : start.take bytes.length = bytes.take m) :
    ((List.range bytes.length).map fun i => start.getD (i % m) 0) = bytes ↔ Repeats m bytes := by
  have hbyte : ∀ k, k < bytes.length → bytes[k % m]? = some (start.getD (k % m) 0) := by
    intro k hk
    have hmod : k % m < m := Nat.mod_lt _ hm
    have hle : k % m ≤ k := Nat.mod_le _ _
    have hcut := congrArg (fun l => l[k % m]?) hagree
    rw [List.getElem?_take_of_lt (by omega), List.getElem?_take_of_lt hmod] at hcut
    rw [← hcut, List.getD_eq_getElem?_getD, List.getElem?_eq_getElem (by omega)]
    rfl
  constructor
  · intro heq k hk
    have hk' := congrArg (fun l => l[k]?) heq
    simp only [List.getElem?_map, List.getElem?_range hk, Option.map_some] at hk'
    rw [← hk', hbyte k hk]
  · intro hrep
    refine List.ext_getElem? fun k => ?_
    by_cases hk : k < bytes.length
    · rw [List.getElem?_map, List.getElem?_range hk, Option.map_some, hrep k hk, hbyte k hk]
    · rw [List.getElem?_eq_none (by simpa using Nat.le_of_not_lt hk),
        List.getElem?_eq_none (Nat.le_of_not_lt hk)]

/-- The replay of one request for a recorded resource. -/
theorem serve_pinned_iff {cfg cfg' : Config} {s : ShimState} (h : Serves cfg s)
    {requests : List Request} {request : Request} (hmem : request ∈ requests)
    (hlen : request.len ≠ 0) (hname : request.resource ≠ []) :
    (serve (some (parseCapsule (recordText none cfg s requests))) cfg' s request).1 =
        fillBytes cfg request.resource request.len s ↔
      Repeats (min maxRecord (lastLen requests request.resource))
        (fillBytes cfg request.resource request.len s) := by
  have hlast := lastLen_ne_zero hmem hlen
  have hm : 0 < min maxRecord (lastLen requests request.resource) := by
    have : 0 < maxRecord := by decide
    omega
  have hstart := length_fillBytes h request.resource
    (min maxRecord (lastLen requests request.resource))
  have hne : ¬ (fillBytes cfg request.resource
      (min maxRecord (lastLen requests request.resource)) s).isEmpty = true := by
    simpa using fillBytes_ne_nil h request.resource hm
  rw [← repeats_iff hm hstart ?_, length_fillBytes h]
  · unfold serve replayFill
    rw [if_neg hlen]
    simp only [Option.bind_eq_bind, Option.bind_some,
      parseCapsule_recordText h requests hname hlast, if_neg hne, hstart]
  · rw [length_fillBytes h, take_fillBytes h, take_fillBytes h, min_comm]

/-- A request for nothing gets nothing. -/
theorem serve_zero (pinned : Option Capsule) (cfg : Config) (s : ShimState) {request : Request}
    (hlen : request.len = 0) : (serve pinned cfg s request).1 = [] := by
  unfold serve replayFill
  rw [if_pos hlen, hlen]
  by_cases h : Serves cfg s
  · exact List.length_eq_zero_iff.mp (length_fillBytes h _ _)
  · exact fillBytes_of_not_serves h _ _

/-- A resource that the capsule does not have is generated anew. -/
theorem serve_unrecorded {pinned : Capsule} {cfg : Config} {s : ShimState} {request : Request}
    (hnone : pinned request.resource = none) :
    (serve (some pinned) cfg s request).1 = fillBytes cfg request.resource request.len s := by
  unfold serve replayFill
  split_ifs
  · rfl
  · simp only [Option.bind_eq_bind, Option.bind_some, hnone, Option.bind_none]

theorem served_eq_iff {cfg cfg' : Config} {s : ShimState} {pinned : Option Capsule}
    {requests : List Request} :
    served pinned cfg' s requests = served none cfg s requests ↔
      ∀ request ∈ requests, (serve pinned cfg' s request).1 =
        fillBytes cfg request.resource request.len s := by
  unfold served
  rw [List.map_inj_left]
  refine forall₂_congr fun request _ => ?_
  rw [serve_none]

/-- **A capsule replays exactly** if and only if nothing is asked for, or the
pass serves bytes, no request is for the empty name, and each request's bytes
repeat with the period that was recorded last for its resource. -/
theorem replaysExactly_iff (cfg : Config) (s : ShimState) (requests : List Request) :
    ReplaysExactly cfg s requests ↔
      (∀ request ∈ requests, request.len = 0) ∨
        (Serves cfg s ∧ ∀ request ∈ requests, request.len ≠ 0 →
          Pinnable cfg s requests request) := by
  unfold ReplaysExactly
  simp only [served_eq_iff]
  constructor
  · intro hexact
    by_cases hall : ∀ request ∈ requests, request.len = 0
    · exact .inl hall
    right
    push Not at hall
    obtain ⟨asked, hasked, hlen⟩ := hall
    have hserves : Serves cfg s := by
      -- an empty capsule leaves the random pass to itself
      by_contra hno
      have hrng : Serves { cfg with mode := .rng } s := trivial
      have heq := hexact .rng asked hasked
      rw [recordText_of_not_serves hno, serve_unrecorded rfl, fillBytes_of_not_serves hno] at heq
      exact fillBytes_ne_nil hrng asked.resource (Nat.pos_of_ne_zero hlen) heq
    refine ⟨hserves, fun request hmem hne => ?_⟩
    have hname : request.resource ≠ [] := by
      -- the empty name is not recorded, and the audit pass serves nothing
      intro hname
      have haudit : ¬ Serves { cfg with mode := .audit } s := not_false
      have heq := hexact .audit request hmem
      have hnone : parseCapsule (recordText none cfg s requests) request.resource = none := by
        rw [parseCapsule, foldl_recordText hserves, if_neg fun hlast => hlast.1 hname]
      rw [serve_unrecorded hnone, fillBytes_of_not_serves haudit] at heq
      exact fillBytes_ne_nil hserves request.resource (Nat.pos_of_ne_zero hne) heq.symm
    exact ⟨hname, (serve_pinned_iff hserves hmem hne hname).mp (hexact cfg.mode request hmem)⟩
  · intro hcond mode request hmem
    by_cases hlen : request.len = 0
    · rw [serve_zero _ _ _ hlen]
      have := serve_zero none cfg s hlen
      rw [serve_none] at this
      exact this.symm
    · rcases hcond with hall | ⟨hserves, hpin⟩
      · exact absurd (hall request hmem) hlen
      · obtain ⟨hname, hrep⟩ := hpin request hmem hlen
        exact (serve_pinned_iff hserves hmem hlen hname).mpr hrep

/-- Two bytes of `a`, then one: the replay serves the one byte twice. -/
theorem not_replaysExactly_shorter :
    ¬ ReplaysExactly ⟨.rng, false, none, none⟩ freshState [⟨[97], 2⟩, ⟨[97], 1⟩] := by
  intro h
  have hrng := h .rng
  revert hrng
  decide

end GovFuzz.Runtrace
