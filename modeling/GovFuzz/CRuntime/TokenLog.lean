import GovFuzz.CRuntime.CompareLog
import GovFuzz.Iiop.Cdr

/-!
# CRuntime — the value-profile token log

`govfuzz_vp_add` of `c_runtime/govfuzz_driver.c` appends tokens to the log in
`GOVFUZZ_VP_SHM`, `read_vp_tokens` of `crates/cli/src/fuzz.rs` reads the file
behind it.  The cursor is in the byte order of the machine.  Each process
starts with empty tables of the tokens it has seen, the log stays.
-/

namespace GovFuzz.CRuntime

open GovFuzz.Lib GovFuzz.Iiop

@[grind =] def govfuzzVpBytes : Nat := 2 ^ 16

abbrev VpMap := Region govfuzzVpBytes

/-! ## The driver -/

/-- `govfuzz_vp_seen1` and `govfuzz_vp_seenN`. -/
structure VpSeen where
  seen1 : UInt8 → Bool
  seenN : UInt64 → UInt64

/-- The tables of a process that has just started. -/
def VpSeen.start : VpSeen where
  seen1 _ := false
  seenN _ := 0

def vpHash (data : List UInt8) : UInt64 :=
  data.foldl (fun h b => (h ^^^ b.toUInt64) * 1099511628211) 1469598103934665603
    ^^^ UInt64.ofNat data.length

def vpSlot (data : List UInt8) : UInt64 := vpHash data &&& 4095

/-- Tokens that are looked at: one to eight bytes, not all of them zero. -/
def vpCandidate (data : List UInt8) : Bool :=
  data.length ≠ 0 && data.length ≤ 8 && data.any (· ≠ 0)

/-- The tables with a token in them that was not there. -/
def VpSeen.insert (seen : VpSeen) (data : List UInt8) : Option VpSeen :=
  match data with
  | [b] =>
      if seen.seen1 b then none
      else some { seen with seen1 := fun c => if c = b then true else seen.seen1 c }
  | data =>
      if seen.seenN (vpSlot data) = vpHash data then none
      else some { seen with
        seenN := fun slot => if slot = vpSlot data then vpHash data else seen.seenN slot }

/-- The cursor moves behind the token where the token fits. -/
@[grind =] def vpAppend (native : Endianness) (m : VpMap) (data : List UInt8) : Option VpMap := do
  let header ← m.loadRange 0 4
  let c := Cdr.decodeNat native header
  if c + 1 + data.length + 4 > govfuzzVpBytes then some m
  else do
    let m ← m.store (4 + c) (UInt8.ofNat data.length)
    let m ← m.storeRange (4 + c + 1) data
    m.storeRange 0 (Cdr.encodeNat native 4 (c + 1 + data.length))

@[grind =] def govfuzzVpAdd (native : Endianness) (data : List UInt8) (seen : VpSeen) (m : VpMap) :
    Option (VpSeen × VpMap) :=
  if !vpCandidate data then some (seen, m)
  else
    match seen.insert data with
    | none => some (seen, m)
    | some seen => (vpAppend native m data).map fun m => (seen, m)

/-- The calls of one process. -/
def vpCalls (native : Endianness) (seen : VpSeen) (m : VpMap) : List (List UInt8) → Option VpMap
  | [] => some m
  | data :: calls => do
      let (seen, m) ← govfuzzVpAdd native data seen m
      vpCalls native seen m calls

/-- One process after the other. -/
def vpProcesses (native : Endianness) (m : VpMap) : List (List (List UInt8)) → Option VpMap
  | [] => some m
  | calls :: processes => do
      let m ← vpCalls native VpSeen.start m calls
      vpProcesses native m processes

/-! ## The reader -/

/-- The `while` loop from `i` on. -/
@[grind =] def vpRecords (bytes : List UInt8) (stop i : Nat) : Option (List (List UInt8)) :=
  if i < stop then do
    let len := (← bytes[i]?).toNat
    let next := i + 1
    if len = 0 ∨ len > 8 ∨ next + len > stop then some []
    else do
      let token ← subslice? bytes next (next + len)
      let rest ← vpRecords bytes stop (next + len)
      some (token :: rest)
  else some []
termination_by stop - i

/-- The file's first bytes as `read_seed_file_prefix` caps them. -/
@[grind =] def readVpTokens (native : Endianness) (file : List UInt8) :
    Option (List (List UInt8)) :=
  let bytes := file.take govfuzzVpBytes
  if bytes.length < 4 then some []
  else
    let cursor := Cdr.decodeNat native (bytes.take 4)
    vpRecords bytes (min (4 + cursor) bytes.length) 4

/-- The file behind a mapping. -/
def vpFile (m : VpMap) : List UInt8 := m.slice 0 govfuzzVpBytes

/-! ## What the log holds -/

/-- The tokens of a process that its tables let through, in terms of the
tokens it has added before. -/
def vpRepeats (history : List (List UInt8)) (data : List UInt8) : Bool :=
  if data.length = 1 then data ∈ history
  else
    -- A slot keeps the last hash written to it, and a free one reads as zero.
    (((history.filter fun other => other.length ≠ 1 ∧ vpSlot other = vpSlot data).getLast?).map
      vpHash).getD 0 = vpHash data

@[grind =] def vpKept (history : List (List UInt8)) : List (List UInt8) → List (List UInt8)
  | [] => []
  | data :: calls =>
      if !vpCandidate data then vpKept history calls
      else if vpRepeats history data then vpKept (history ++ [data]) calls
      else data :: vpKept (history ++ [data]) calls

/-- The tokens there is still room for, behind the first `used` bytes. -/
@[grind =] def vpFitting (used : Nat) : List (List UInt8) → List (List UInt8)
  | [] => []
  | data :: tokens =>
      if used + 1 + data.length + 4 > govfuzzVpBytes then vpFitting used tokens
      else data :: vpFitting (used + 1 + data.length) tokens

/-- A token's record. -/
@[grind =] def vpRecord (data : List UInt8) : List UInt8 := UInt8.ofNat data.length :: data

/-- The log holds exactly these tokens, with anything behind them. -/
structure HoldsTokens (native : Endianness) (m : VpMap) (tokens : List (List UInt8)) : Prop where
  cursor : Cdr.decodeNat native (m.slice 0 4) = (tokens.flatMap vpRecord).length
  records : m.slice 4 (tokens.flatMap vpRecord).length = tokens.flatMap vpRecord
  room : (tokens.flatMap vpRecord).length + 4 ≤ govfuzzVpBytes
  sizes : ∀ data ∈ tokens, vpCandidate data

theorem vpCandidate_length {data : List UInt8} (h : vpCandidate data) :
    0 < data.length ∧ data.length ≤ 8 := by
  simp only [vpCandidate, Bool.and_eq_true, decide_eq_true_eq] at h
  omega

/-! ## The tables -/

/-- The hash a slot holds behind a history. -/
@[grind =] def vpLast (history : List (List UInt8)) (slot : UInt64) : UInt64 :=
  (((history.filter fun other => other.length ≠ 1 ∧ vpSlot other = slot).getLast?).map
    vpHash).getD 0

/-- The tables hold what the process has added. -/
structure VpSeen.Tracks (seen : VpSeen) (history : List (List UInt8)) : Prop where
  seen1 : ∀ b, seen.seen1 b = true ↔ [b] ∈ history
  seenN : ∀ slot, seen.seenN slot = vpLast history slot

theorem VpSeen.Tracks.start : VpSeen.start.Tracks [] := by
  constructor
  · simp [VpSeen.start]
  · intro slot
    rfl

theorem vpLast_append (history : List (List UInt8)) (data : List UInt8) (slot : UInt64) :
    vpLast (history ++ [data]) slot
      = if data.length ≠ 1 ∧ vpSlot data = slot then vpHash data else vpLast history slot := by
  by_cases hslot : data.length ≠ 1 ∧ vpSlot data = slot
  · simp [vpLast, List.filter_append, hslot]
  · have hfilter : ([data].filter fun other => other.length ≠ 1 ∧ vpSlot other = slot) = [] :=
      List.filter_cons_of_neg (by simpa using hslot)
    rw [vpLast, List.filter_append, hfilter, List.append_nil, if_neg hslot, vpLast]

theorem VpSeen.insert_long (seen : VpSeen) {data : List UInt8} (h : data.length ≠ 1) :
    seen.insert data = if seen.seenN (vpSlot data) = vpHash data then none
      else some { seen with
        seenN := fun slot => if slot = vpSlot data then vpHash data else seen.seenN slot } := by
  match data with
  | [] => rfl
  | [b] => exact absurd rfl h
  | _ :: _ :: _ => rfl

theorem vpRepeats_long (history : List (List UInt8)) {data : List UInt8} (h : data.length ≠ 1) :
    vpRepeats history data = decide (vpLast history (vpSlot data) = vpHash data) := if_neg h

/-- A token is let through where it repeats nothing, and either way the tables
track it from then on. -/
theorem VpSeen.Tracks.insert {seen : VpSeen} {history : List (List UInt8)}
    (h : seen.Tracks history) {data : List UInt8} (hdata : vpCandidate data) :
    (vpRepeats history data = true → seen.insert data = none ∧ seen.Tracks (history ++ [data]))
      ∧ (vpRepeats history data = false →
        ∃ seen', seen.insert data = some seen' ∧ seen'.Tracks (history ++ [data])) := by
  obtain ⟨hpos, -⟩ := vpCandidate_length hdata
  match data with
  | [b] =>
      have hrepeats : vpRepeats history [b] = decide ([b] ∈ history) := rfl
      have hlast : ∀ slot, vpLast (history ++ [[b]]) slot = vpLast history slot := by
        intro slot
        rw [vpLast_append, if_neg (by simp)]
      rw [hrepeats]
      constructor
      · intro hmem
        have hmem := of_decide_eq_true hmem
        refine ⟨if_pos ((h.seen1 b).mpr hmem), ?_, ?_⟩
        · intro c
          rw [h.seen1 c, List.mem_append]
          constructor
          · intro hc
            exact Or.inl hc
          · intro hc
            rcases hc with hold | hnew
            · exact hold
            · rw [List.mem_singleton.mp hnew]
              exact hmem
        · intro slot
          rw [hlast, h.seenN]
      · intro hmem
        have hnot : ¬ seen.seen1 b = true := by
          rw [h.seen1 b]
          exact of_decide_eq_false hmem
        refine ⟨_, if_neg hnot, ?_, ?_⟩
        · intro c
          by_cases hc : c = b
          · simp [hc]
          · simp [hc, h.seen1 c]
        · intro slot
          rw [hlast]
          exact h.seenN slot
  | first :: second :: rest =>
      have hlen : (first :: second :: rest).length ≠ 1 := by simp
      generalize first :: second :: rest = data at *
      have hseen1 : ∀ b, [b] ∈ history ++ [data] ↔ [b] ∈ history := by
        intro b
        have hne : ¬ [b] = data := by
          intro heq
          exact hlen (heq ▸ rfl)
        simp [hne]
      rw [vpRepeats_long history hlen, seen.insert_long hlen, h.seenN]
      constructor
      · intro hlast
        have hlast := of_decide_eq_true hlast
        refine ⟨if_pos hlast, ?_, ?_⟩
        · intro b
          rw [hseen1, h.seen1]
        · intro slot
          rw [vpLast_append, h.seenN]
          split
          · next hslot => rw [← hslot.2, hlast]
          · rfl
      · intro hlast
        have hlast := of_decide_eq_false hlast
        refine ⟨_, if_neg hlast, ?_, ?_⟩
        · intro b
          rw [hseen1]
          exact h.seen1 b
        · intro slot
          rw [vpLast_append]
          by_cases hslot : slot = vpSlot data
          · simp [hslot, hlen]
          · rw [if_neg (fun hboth => hslot hboth.2.symm)]
            dsimp only
            rw [if_neg hslot, h.seenN]

/-! ## Appending -/

theorem vpRecord_length (data : List UInt8) : (vpRecord data).length = 1 + data.length :=
  Nat.add_comm _ _

/-- The header of the log is in the mapping. -/
theorem vp_header (m : VpMap) : m.loadRange 0 4 = some (m.slice 0 4) :=
  m.loadRange_eq (by simp [govfuzzVpBytes])

/-- The driver stays inside the mapping, whatever the cursor says. -/
theorem vpAppend_written (native : Endianness) (m : VpMap) (data : List UInt8)
    (hroom : Cdr.decodeNat native (m.slice 0 4) + 1 + data.length + 4 ≤ govfuzzVpBytes) :
    ∃ m₁ m₂, vpAppend native m data = some m₂
      ∧ Region.Written m (4 + Cdr.decodeNat native (m.slice 0 4)) (vpRecord data) m₁
      ∧ Region.Written m₁ 0
        (Cdr.encodeNat native 4 (Cdr.decodeNat native (m.slice 0 4) + 1 + data.length)) m₂ := by
  generalize hc : Cdr.decodeNat native (m.slice 0 4) = c at hroom ⊢
  obtain ⟨m₁, h₁, w₁⟩ := m.store_written (UInt8.ofNat data.length)
    (by omega : 4 + c < govfuzzVpBytes)
  obtain ⟨m₂, h₂, w₂⟩ := m₁.storeRange_written (i := 4 + c + 1) data (by omega)
  have hheader : (Cdr.encodeNat native 4 (c + 1 + data.length)).length = 4 :=
    Cdr.encodeNat_length native 4 _
  obtain ⟨m₃, h₃, w₃⟩ := m₂.storeRange_written (i := 0)
    (Cdr.encodeNat native 4 (c + 1 + data.length)) (by omega)
  refine ⟨m₂, m₃, ?_, w₁.append w₂, w₃⟩
  rw [vpAppend, vp_header]
  simp only [Option.bind_eq_bind, Option.bind_some, hc]
  rw [if_neg (by omega), h₁, Option.bind_some, h₂, Option.bind_some, h₃]

theorem vpAppend_full (native : Endianness) (m : VpMap) (data : List UInt8)
    (hfull : govfuzzVpBytes < Cdr.decodeNat native (m.slice 0 4) + 1 + data.length + 4) :
    vpAppend native m data = some m := by
  rw [vpAppend, vp_header]
  simp only [Option.bind_eq_bind, Option.bind_some]
  exact if_pos hfull

theorem vpAppend_isSome (native : Endianness) (m : VpMap) (data : List UInt8) :
    (vpAppend native m data).isSome := by
  by_cases hfull : govfuzzVpBytes < Cdr.decodeNat native (m.slice 0 4) + 1 + data.length + 4
  · rw [vpAppend_full native m data hfull]
    rfl
  · obtain ⟨-, m', happend, -⟩ := vpAppend_written native m data (by omega)
    rw [happend]
    rfl

/-- One token more, where there is room for it. -/
theorem HoldsTokens.append {native : Endianness} {m : VpMap} {tokens : List (List UInt8)}
    (h : HoldsTokens native m tokens) {data : List UInt8} (hdata : vpCandidate data) :
    ∃ m', vpAppend native m data = some m'
      ∧ HoldsTokens native m'
        (tokens ++ vpFitting (tokens.flatMap vpRecord).length [data]) := by
  obtain ⟨hcursor, hrecords, hroom, hsizes⟩ := h
  generalize hused : (tokens.flatMap vpRecord).length = used at *
  -- a token that does not fit is dropped, and the log stays as it is
  by_cases hfull : used + 1 + data.length + 4 > govfuzzVpBytes
  · refine ⟨m, vpAppend_full native m data (by omega), ?_⟩
    rw [vpFitting, if_pos hfull, vpFitting, List.append_nil]
    exact ⟨by rw [hused, hcursor], by rw [hused, hrecords], by rw [hused]; exact hroom, hsizes⟩
  · obtain ⟨m₁, m₂, happend, w₁, w₂⟩ := vpAppend_written native m data (by omega)
    rw [hcursor] at w₁ w₂
    have hlen : ((tokens ++ [data]).flatMap vpRecord).length = used + 1 + data.length := by
      rw [List.flatMap_append, List.length_append, hused, List.flatMap_singleton, vpRecord_length]
      omega
    have hheader : (Cdr.encodeNat native 4 (used + 1 + data.length)).length = 4 :=
      Cdr.encodeNat_length native 4 _
    have hrecord := w₁.stored
    rw [vpRecord_length] at hrecord
    refine ⟨m₂, happend, ?_⟩
    rw [vpFitting, if_neg hfull, vpFitting]
    refine ⟨?_, ?_, by omega, ?_⟩
    · have hstored := w₂.stored
      have hbytes : govfuzzVpBytes = 65536 := rfl
      rw [hheader] at hstored
      rw [hstored, hlen, Cdr.decodeNat_encodeNat native (by omega)]
    · rw [hlen, Nat.add_assoc, Region.slice_add, w₂.slice (by omega), w₂.slice (by omega),
        w₁.slice (by omega), hrecords, hrecord, List.flatMap_append, List.flatMap_singleton]
    · intro token hmem
      rcases List.mem_append.mp hmem with hold | hnew
      · exact hsizes token hold
      · rw [List.mem_singleton.mp hnew]
        exact hdata

/-! ## Whole runs -/

theorem vpFitting_append (used : Nat) (xs ys : List (List UInt8)) :
    vpFitting used (xs ++ ys)
      = vpFitting used xs
        ++ vpFitting (used + ((vpFitting used xs).flatMap vpRecord).length) ys := by
  induction xs generalizing used with
  | nil => simp [vpFitting]
  | cons data xs ih =>
      rw [List.cons_append, vpFitting, vpFitting]
      split
      · exact ih used
      · rw [ih, List.flatMap_cons, List.length_append, vpRecord_length, List.cons_append]
        congr 3
        omega

/-- What a log grown by some tokens takes of the next ones. -/
theorem vpFitting_grown (tokens xs ys : List (List UInt8)) :
    tokens ++ vpFitting (tokens.flatMap vpRecord).length xs
        ++ vpFitting ((tokens ++ vpFitting (tokens.flatMap vpRecord).length xs).flatMap
          vpRecord).length ys
      = tokens ++ vpFitting (tokens.flatMap vpRecord).length (xs ++ ys) := by
  rw [vpFitting_append, List.flatMap_append, List.length_append, List.append_assoc]

/-- One call. -/
theorem HoldsTokens.add {native : Endianness} {m : VpMap} {tokens history : List (List UInt8)}
    {seen : VpSeen} (h : HoldsTokens native m tokens) (hseen : seen.Tracks history)
    (data : List UInt8) (calls : List (List UInt8)) :
    ∃ seen' m' history' kept, govfuzzVpAdd native data seen m = some (seen', m')
      ∧ seen'.Tracks history' ∧ vpKept history (data :: calls) = kept ++ vpKept history' calls
      ∧ HoldsTokens native m' (tokens ++ vpFitting (tokens.flatMap vpRecord).length kept) := by
  cases hdata : vpCandidate data with
  | false =>
      refine ⟨seen, m, history, [], ?_, hseen, ?_, ?_⟩
      · simp [govfuzzVpAdd, hdata]
      · simp [vpKept, hdata]
      · simpa [vpFitting] using h
  | true =>
      obtain ⟨hrepeat, hfresh⟩ := hseen.insert hdata
      cases hrepeats : vpRepeats history data with
      | true =>
          obtain ⟨hinsert, htracks⟩ := hrepeat hrepeats
          refine ⟨seen, m, history ++ [data], [], ?_, htracks, ?_, ?_⟩
          · simp [govfuzzVpAdd, hdata, hinsert]
          · simp [vpKept, hdata, hrepeats]
          · simpa [vpFitting] using h
      | false =>
          obtain ⟨seen', hinsert, htracks⟩ := hfresh hrepeats
          obtain ⟨m', happend, hholds⟩ := h.append hdata
          refine ⟨seen', m', history ++ [data], [data], ?_, htracks, ?_, hholds⟩
          · simp [govfuzzVpAdd, hdata, hinsert, happend]
          · simp [vpKept, hdata, hrepeats]

theorem HoldsTokens.calls {native : Endianness} {m : VpMap} {tokens history : List (List UInt8)}
    {seen : VpSeen} (h : HoldsTokens native m tokens) (hseen : seen.Tracks history)
    (calls : List (List UInt8)) :
    ∃ m', vpCalls native seen m calls = some m' ∧ HoldsTokens native m'
      (tokens ++ vpFitting (tokens.flatMap vpRecord).length (vpKept history calls)) := by
  induction calls generalizing m tokens history seen with
  | nil => exact ⟨m, rfl, by simpa [vpKept, vpFitting] using h⟩
  | cons data calls ih =>
      obtain ⟨seen', m₁, history', kept, hadd, htracks, hkept, hholds⟩ := h.add hseen data calls
      obtain ⟨m₂, hcalls, hall⟩ := ih hholds htracks
      refine ⟨m₂, by simp [vpCalls, hadd, hcalls], ?_⟩
      rw [hkept, ← vpFitting_grown]
      exact hall

theorem HoldsTokens.processes {native : Endianness} {m : VpMap} {tokens : List (List UInt8)}
    (h : HoldsTokens native m tokens) (processes : List (List (List UInt8))) :
    ∃ m', vpProcesses native m processes = some m' ∧ HoldsTokens native m'
      (tokens ++ vpFitting (tokens.flatMap vpRecord).length (processes.flatMap (vpKept []))) := by
  induction processes generalizing m tokens with
  | nil => exact ⟨m, rfl, by simpa [vpFitting] using h⟩
  | cons calls processes ih =>
      obtain ⟨m₁, hcalls, hholds⟩ := h.calls VpSeen.Tracks.start calls
      obtain ⟨m₂, hprocesses, hall⟩ := ih hholds
      refine ⟨m₂, by simp [vpProcesses, hcalls, hprocesses], ?_⟩
      rw [List.flatMap_cons, ← vpFitting_grown]
      exact hall

/-! ## Reading the log -/

/-- The loop over records that fill the bytes up to `stop`. -/
theorem vpRecords_records {bytes front tail : List UInt8} {tokens : List (List UInt8)}
    (hbytes : bytes = front ++ tokens.flatMap vpRecord ++ tail)
    (hsizes : ∀ data ∈ tokens, vpCandidate data) :
    vpRecords bytes (front.length + (tokens.flatMap vpRecord).length) front.length
      = some tokens := by
  induction tokens generalizing front with
  | nil =>
      unfold vpRecords
      simp
  | cons data tokens ih =>
      obtain ⟨hpos, hlen⟩ := vpCandidate_length (hsizes data List.mem_cons_self)
      rw [List.flatMap_cons, List.length_append, vpRecord_length]
      have hfront : bytes = (front ++ vpRecord data) ++ tokens.flatMap vpRecord ++ tail := by
        simp [hbytes]
      have hrest := ih hfront fun token hmem => hsizes token (List.mem_cons_of_mem _ hmem)
      rw [List.length_append, vpRecord_length] at hrest
      have hhead : bytes[front.length]? = some (UInt8.ofNat data.length) := by
        rw [hbytes]
        simp [vpRecord]
      have htotal : bytes.length = front.length + (1 + data.length)
          + (tokens.flatMap vpRecord).length + tail.length := by
        rw [hfront]
        simp only [List.length_append, vpRecord_length]
      -- the token stands behind its length byte
      have htoken : subslice? bytes (front.length + 1) (front.length + 1 + data.length)
          = some data := by
        rw [subslice?, if_pos ⟨by omega, by omega⟩, Nat.add_sub_cancel_left]
        have hdrop : bytes.drop (front.length + 1) = data ++ (tokens.flatMap vpRecord ++ tail) := by
          have hsplit : bytes = (front ++ [UInt8.ofNat data.length])
              ++ (data ++ (tokens.flatMap vpRecord ++ tail)) := by
            simp [hbytes, vpRecord]
          rw [hsplit, List.drop_left' (by simp)]
        rw [hdrop, List.take_left' rfl]
      have hvalue : (UInt8.ofNat data.length).toNat = data.length :=
        UInt8.toNat_ofNat_of_lt' (by rw [UInt8.size]; omega)
      unfold vpRecords
      rw [if_pos (by omega), hhead]
      simp only [Option.bind_eq_bind, Option.bind_some, hvalue]
      rw [if_neg (by omega), htoken]
      simp only [Option.bind_some]
      rw [show front.length + 1 + data.length = front.length + (1 + data.length) by omega,
        ← Nat.add_assoc, hrest]
      rfl

theorem HoldsTokens.read {native : Endianness} {m : VpMap} {tokens : List (List UInt8)}
    (h : HoldsTokens native m tokens) : readVpTokens native (vpFile m) = some tokens := by
  obtain ⟨hcursor, hrecords, hroom, hsizes⟩ := h
  generalize hused : (tokens.flatMap vpRecord).length = used at *
  have hsize : govfuzzVpBytes = 4 + used + (govfuzzVpBytes - (4 + used)) := by omega
  have hfile : vpFile m = m.slice 0 4 ++ tokens.flatMap vpRecord
      ++ m.slice (4 + used) (govfuzzVpBytes - (4 + used)) := by
    calc vpFile m = m.slice 0 (4 + used + (govfuzzVpBytes - (4 + used))) :=
          congrArg (m.slice 0) hsize
      _ = _ := by rw [Region.slice_add, Region.slice_add, Nat.zero_add, Nat.zero_add, hrecords]
  have hlen : (vpFile m).length = govfuzzVpBytes := Region.slice_length _ _ _
  have hheader : (vpFile m).take 4 = m.slice 0 4 := by
    rw [hfile, List.append_assoc, List.take_left' (by simp)]
  have hloop := vpRecords_records hfile hsizes
  rw [Region.slice_length, hused] at hloop
  simp only [readVpTokens]
  rw [List.take_of_length_le (Nat.le_of_eq hlen), if_neg (by omega), hheader, hcursor, hlen,
    Nat.min_eq_left (by omega), hloop]

/-- The bounds check of the loop covers every index, whatever the file. -/
theorem vpRecords_isSome (bytes : List UInt8) {stop : Nat} (hstop : stop ≤ bytes.length)
    (i : Nat) : (vpRecords bytes stop i).isSome := by
  induction hleft : stop - i using Nat.strongRecOn generalizing i with
  | _ left ih =>
      unfold vpRecords
      by_cases hi : i < stop
      · rw [if_pos hi, List.getElem?_eq_getElem (by omega)]
        simp only [Option.bind_eq_bind, Option.bind_some]
        split
        · rfl
        · next hlen =>
            rw [subslice?, if_pos ⟨by omega, by omega⟩]
            have hrest := ih _ (by omega) (i + 1 + bytes[i].toNat) rfl
            obtain ⟨rest, hrest⟩ := Option.isSome_iff_exists.mp hrest
            simp [hrest]
      · rw [if_neg hi]
        rfl

theorem readVpTokens_isSome (native : Endianness) (file : List UInt8) :
    (readVpTokens native file).isSome := by
  simp only [readVpTokens]
  split
  · rfl
  · exact vpRecords_isSome _ (Nat.min_le_right _ _) 4

theorem govfuzzVpAdd_isSome (native : Endianness) (data : List UInt8) (seen : VpSeen)
    (m : VpMap) : (govfuzzVpAdd native data seen m).isSome := by
  unfold govfuzzVpAdd
  split
  · rfl
  · split
    · rfl
    · rw [Option.isSome_map]
      exact vpAppend_isSome native m data

/-! ## Both maps -/

/-- A log nothing has been added to, with anything behind its cursor. -/
structure EmptyVpLog (native : Endianness) where
  map : VpMap
  empty : Cdr.decodeNat native (map.slice 0 4) = 0

theorem EmptyVpLog.holds {native : Endianness} (log : EmptyVpLog native) :
    HoldsTokens native log.map [] :=
  ⟨log.empty, rfl, by simp [govfuzzVpBytes], by simp⟩

/-- Through the log from the processes that add tokens to the list that is read. -/
theorem vpProcesses_readVpTokens {native : Endianness} (log : EmptyVpLog native)
    (processes : List (List (List UInt8))) :
    ∃ m, vpProcesses native log.map processes = some m
      ∧ readVpTokens native (vpFile m) = some (vpFitting 0 (processes.flatMap (vpKept []))) := by
  obtain ⟨m, hprocesses, hholds⟩ := log.holds.processes processes
  exact ⟨m, hprocesses, hholds.read⟩

/-- Operands and tokens come through the two maps as they were put in, and no
access leaves a map, whatever is in it. -/
theorem operands_and_tokens (native : Endianness) :
    (∀ (stale : CmpMap) pushes, ∃ armed m log, CmpShmReader.arm stale = some armed
      ∧ cmpPushes armed pushes = some m ∧ CmpShmReader.readLog m = some log
      ∧ log.map (fun entry => (entry.operandA, entry.operandB)) = recordedPairs pushes)
    ∧ (∀ (log : EmptyVpLog native) processes, ∃ m,
      vpProcesses native log.map processes = some m
      ∧ readVpTokens native (vpFile m) = some (vpFitting 0 (processes.flatMap (vpKept []))))
    ∧ (∀ m, (CmpShmReader.readLog m).isSome)
    ∧ (∀ m a b, (govfuzzCmpPush a b m).isSome)
    ∧ (∀ file, (readVpTokens native file).isSome)
    ∧ (∀ data seen m, (govfuzzVpAdd native data seen m).isSome) :=
  ⟨cmpPushes_readLog, vpProcesses_readVpTokens, CmpShmReader.readLog_isSome,
    govfuzzCmpPush_isSome, readVpTokens_isSome native, govfuzzVpAdd_isSome native⟩

def zeroedVpLog : EmptyVpLog .little where
  map := ⟨fun _ => 0⟩
  empty := by
    simp [Region.slice_succ, Region.byte, Cdr.decodeNat, leNat]

/-- A token its process has added before is not written again, though it fits. -/
theorem repeated_token_once :
    ∃ m, vpProcesses .little zeroedVpLog.map [[[1], [1]]] = some m
      ∧ readVpTokens .little (vpFile m) = some [[1]]
      ∧ readVpTokens .little (vpFile m) ≠ some (vpFitting 0 [[1], [1]]) := by
  obtain ⟨m, hprocesses, hread⟩ := vpProcesses_readVpTokens zeroedVpLog [[[1], [1]]]
  have hkept : vpFitting 0 ([[[1], [1]]].flatMap (vpKept [])) = [[1]] := by decide
  rw [hkept] at hread
  refine ⟨m, hprocesses, hread, ?_⟩
  rw [hread]
  decide

end GovFuzz.CRuntime
