import GovFuzz.CRuntime.Selection
import GovFuzz.Lib.Region
import GovFuzz.Runtrace.Readers

/-!
# CRuntime — the ring of comparison operands

`govfuzz_cmp_push` of `c_runtime/govfuzz_driver.c` writes the operands of a
comparison into `GOVFUZZ_CMP_SHM`, `CmpShmReader` of `crates/cli/src/fuzz.rs`
arms the ring before a run and reads it behind it.  An access outside the
mapping is a failure on both sides.
-/

namespace GovFuzz.CRuntime

open GovFuzz.Lib GovFuzz.Runtrace

def govfuzzCmpCap : Nat := 2048

def govfuzzCmpOpmax : Nat := 32

def govfuzzCmpRec : Nat := 2 + 2 * govfuzzCmpOpmax

def govfuzzCmpBytes : Nat := 8 + govfuzzCmpCap * govfuzzCmpRec

abbrev CmpMap := Region govfuzzCmpBytes

/-! ## The driver -/

/-- The header's `count`, as both sides put it together. -/
def cmpCount (m : CmpMap) : Option UInt32 := do
  let b4 ← m.load 4
  let b5 ← m.load 5
  let b6 ← m.load 6
  let b7 ← m.load 7
  some (gfWord b4 b5 b6 b7)

/-- The two operands have `a.length` and `b.length` bytes. -/
def govfuzzCmpPush (a b : List UInt8) (m : CmpMap) : Option CmpMap := do
  let la := if a.length > govfuzzCmpOpmax then govfuzzCmpOpmax else a.length
  let lb := if b.length > govfuzzCmpOpmax then govfuzzCmpOpmax else b.length
  let count ← cmpCount m
  if count.toNat ≥ govfuzzCmpCap then some m
  else do
    let off := 8 + count.toNat * govfuzzCmpRec
    let m ← m.store off (UInt8.ofNat la)
    let m ← m.store (off + 1) (UInt8.ofNat lb)
    let m ← m.storeRange (off + 2) (a.take la)
    let m ← m.storeRange (off + 2 + govfuzzCmpOpmax) (b.take lb)
    m.storeRange 4 (leBytes 4 (count.toNat + 1))

/-- One call after the other. -/
def cmpPushes (m : CmpMap) : List (List UInt8 × List UInt8) → Option CmpMap
  | [] => some m
  | (a, b) :: pushes => do
      let m ← govfuzzCmpPush a b m
      cmpPushes m pushes

/-! ## The reader -/

namespace CmpShmReader

def arm (m : CmpMap) : Option CmpMap := m.storeRange 0 [1, 0, 0, 0, 0, 0, 0, 0]

/-- The operands of record `i`. -/
def readRecord (m : CmpMap) (i : Nat) : Option (List UInt8 × List UInt8) := do
  let off := 8 + i * govfuzzCmpRec
  let la ← m.load off
  let lb ← m.load (off + 1)
  let a ← m.loadRange (off + 2) (min la.toNat govfuzzCmpOpmax)
  let b ← m.loadRange (off + 2 + govfuzzCmpOpmax) (min lb.toNat govfuzzCmpOpmax)
  some (a, b)

/-- The loop of `read_log` with `left` records to go. -/
def readFrom (m : CmpMap) :
    (left i : Nat) → (seen : List (List UInt8 × List UInt8)) → Option (List CmpEntry)
  | 0, _, _ => some []
  | left + 1, i, seen => do
      let (a, b) ← readRecord m i
      if a.isEmpty && b.isEmpty then readFrom m left (i + 1) seen
      else if (a, b) ∈ seen then readFrom m left (i + 1) seen
      else do
        let log ← readFrom m left (i + 1) ((a, b) :: seen)
        some (⟨i, a, b, .integerCompare⟩ :: log)

def readLog (m : CmpMap) : Option (List CmpEntry) := do
  let count ← cmpCount m
  readFrom m (min count.toNat govfuzzCmpCap) 0 []

end CmpShmReader

/-! ## What the ring holds -/

/-- An operand as it fits a record. -/
def cutOperands (operands : List UInt8 × List UInt8) : List UInt8 × List UInt8 :=
  (operands.1.take govfuzzCmpOpmax, operands.2.take govfuzzCmpOpmax)

/-- Record `i` holds a pair of cut operands, with anything behind them. -/
structure HoldsRecord (m : CmpMap) (i : Nat) (operands : List UInt8 × List UInt8) : Prop where
  lengths : m.slice (8 + i * govfuzzCmpRec) 2
    = [UInt8.ofNat operands.1.length, UInt8.ofNat operands.2.length]
  left : m.slice (8 + i * govfuzzCmpRec + 2) operands.1.length = operands.1
  right : m.slice (8 + i * govfuzzCmpRec + 2 + govfuzzCmpOpmax) operands.2.length = operands.2

/-- The ring's records are `records`; the rest of the mapping is stale. -/
structure HoldsRecords (m : CmpMap) (records : List (List UInt8 × List UInt8)) : Prop where
  count : m.slice 4 4 = leBytes 4 records.length
  capped : records.length ≤ govfuzzCmpCap
  cut : ∀ operands ∈ records, operands.1.length ≤ govfuzzCmpOpmax
    ∧ operands.2.length ≤ govfuzzCmpOpmax
  record : ∀ i (h : i < records.length), HoldsRecord m i records[i]

/-- The loads of the header never fail. -/
theorem cmpCount_eq (m : CmpMap) : ∃ count, cmpCount m = some count
    ∧ count.toNat = leNat (m.slice 4 4) := by
  have hsize : 8 ≤ govfuzzCmpBytes := Nat.le_add_right _ _
  refine ⟨gfWord (m.byte 4) (m.byte 5) (m.byte 6) (m.byte 7), ?_, gfWord_toNat _ _ _ _⟩
  rw [cmpCount, m.load_eq (by omega), m.load_eq (by omega), m.load_eq (by omega),
    m.load_eq (by omega)]
  rfl

/-- A record below the cap is inside the mapping. -/
theorem record_inside {i : Nat} (h : i < govfuzzCmpCap) :
    8 + i * govfuzzCmpRec + govfuzzCmpRec ≤ govfuzzCmpBytes := by
  have hle : (i + 1) * govfuzzCmpRec ≤ govfuzzCmpCap * govfuzzCmpRec := Nat.mul_le_mul_right _ h
  rw [Nat.add_one_mul] at hle
  rw [govfuzzCmpBytes]
  omega

/-- What a push stores: one record and the count. -/
structure Pushed (m : CmpMap) (i : Nat) (operands : List UInt8 × List UInt8) (m' : CmpMap) :
    Prop where
  count : m'.slice 4 4 = leBytes 4 (i + 1)
  record : HoldsRecord m' i operands
  frame : ∀ j, 8 ≤ j → j < 8 + i * govfuzzCmpRec ∨ 8 + i * govfuzzCmpRec + govfuzzCmpRec ≤ j →
    m'.byte j = m.byte j

theorem govfuzzCmpPush_full {m : CmpMap} (a b : List UInt8)
    (h : govfuzzCmpCap ≤ leNat (m.slice 4 4)) : govfuzzCmpPush a b m = some m := by
  obtain ⟨count, hcount, hvalue⟩ := cmpCount_eq m
  simp only [govfuzzCmpPush, hcount, Option.bind_eq_bind, Option.bind_some]
  exact if_pos (by omega)

/-- The copy loop stops at the capacity. -/
theorem take_capped (operand : List UInt8) :
    operand.take (if operand.length > govfuzzCmpOpmax then govfuzzCmpOpmax else operand.length)
      = operand.take govfuzzCmpOpmax := by
  split
  · rfl
  · rw [List.take_length, List.take_of_length_le (by omega)]

theorem length_capped (operand : List UInt8) :
    (if operand.length > govfuzzCmpOpmax then govfuzzCmpOpmax else operand.length)
      = (operand.take govfuzzCmpOpmax).length := by
  rw [List.length_take]
  split <;> omega

/-- Below the capacity a comparison is pushed behind the others, its operands cut to their
room. -/
theorem govfuzzCmpPush_pushed {m : CmpMap} (a b : List UInt8)
    (h : leNat (m.slice 4 4) < govfuzzCmpCap) :
    ∃ m', govfuzzCmpPush a b m = some m'
      ∧ Pushed m (leNat (m.slice 4 4)) (cutOperands (a, b)) m' := by
  obtain ⟨count, hcount, hvalue⟩ := cmpCount_eq m
  rw [← hvalue] at h ⊢
  have hinside := record_inside h
  have hoff : 8 ≤ 8 + count.toNat * govfuzzCmpRec := Nat.le_add_right _ _
  generalize hoffEq : 8 + count.toNat * govfuzzCmpRec = off at hinside hoff
  have hleft : (a.take govfuzzCmpOpmax).length ≤ govfuzzCmpOpmax := List.length_take_le _ _
  have hright : (b.take govfuzzCmpOpmax).length ≤ govfuzzCmpOpmax := List.length_take_le _ _
  have hrec : govfuzzCmpRec = 2 + 2 * govfuzzCmpOpmax := rfl
  have hheader : (leBytes 4 (count.toNat + 1)).length = 4 := leBytes_length _ _
  obtain ⟨m₁, h₁, w₁⟩ := m.store_written (UInt8.ofNat (a.take govfuzzCmpOpmax).length)
    (by omega : off < govfuzzCmpBytes)
  obtain ⟨m₂, h₂, w₂⟩ := m₁.store_written (UInt8.ofNat (b.take govfuzzCmpOpmax).length)
    (by omega : off + 1 < govfuzzCmpBytes)
  obtain ⟨m₃, h₃, w₃⟩ := m₂.storeRange_written (i := off + 2) (a.take govfuzzCmpOpmax) (by omega)
  obtain ⟨m₄, h₄, w₄⟩ := m₃.storeRange_written (i := off + 2 + govfuzzCmpOpmax)
    (b.take govfuzzCmpOpmax) (by omega)
  obtain ⟨m₅, h₅, w₅⟩ := m₄.storeRange_written (i := 4) (leBytes 4 (count.toNat + 1))
    (by rw [hheader]; omega)
  refine ⟨m₅, ?_, ?_, ⟨?_, ?_, ?_⟩, ?_⟩
  · simp only [govfuzzCmpPush, hcount, Option.bind_eq_bind, Option.bind_some, take_capped]
    rw [if_neg (by omega), hoffEq, length_capped a, h₁, Option.bind_some, length_capped b, h₂,
      Option.bind_some, h₃, Option.bind_some, h₄, Option.bind_some, h₅]
  · rw [← hheader]
    exact w₅.stored
  · rw [hoffEq, w₅.slice (by omega), w₄.slice (by omega), w₃.slice (by omega)]
    exact (w₁.append w₂).stored
  · dsimp only [cutOperands]
    rw [hoffEq, w₅.slice (by omega), w₄.slice (by omega), w₃.stored]
  · dsimp only [cutOperands]
    rw [hoffEq, w₅.slice (by omega), w₄.stored]
  · intro j hj hout
    rw [hoffEq] at hout
    rw [w₅.frame j (by omega), w₄.frame j (by omega), w₃.frame j (by omega),
      w₂.frame j (by rw [List.length_singleton]; omega),
      w₁.frame j (by rw [List.length_singleton]; omega)]

/-- A record is what its own bytes say. -/
theorem HoldsRecord.congr {m m' : CmpMap} {i : Nat} {operands : List UInt8 × List UInt8}
    (h : HoldsRecord m i operands) (hcut : operands.1.length ≤ govfuzzCmpOpmax
      ∧ operands.2.length ≤ govfuzzCmpOpmax)
    (hsame : ∀ j, 8 + i * govfuzzCmpRec ≤ j → j < 8 + i * govfuzzCmpRec + govfuzzCmpRec →
      m'.byte j = m.byte j) : HoldsRecord m' i operands := by
  have hrec : govfuzzCmpRec = 2 + 2 * govfuzzCmpOpmax := rfl
  have hslice : ∀ start n, 8 + i * govfuzzCmpRec ≤ start →
      start + n ≤ 8 + i * govfuzzCmpRec + govfuzzCmpRec → m'.slice start n = m.slice start n := by
    intro start n hstart hstop
    apply List.map_congr_left
    intro j hj
    have hrange := List.mem_range'_1.mp hj
    exact hsame j (by omega) (by omega)
  constructor
  · rw [hslice _ _ (by omega) (by omega)]
    exact h.lengths
  · rw [hslice _ _ (by omega) (by omega)]
    exact h.left
  · rw [hslice _ _ (by omega) (by omega)]
    exact h.right

theorem HoldsRecords.count_eq {m : CmpMap} {records : List (List UInt8 × List UInt8)}
    (h : HoldsRecords m records) : leNat (m.slice 4 4) = records.length := by
  have hcapped := h.capped
  have hcap : govfuzzCmpCap = 2048 := rfl
  rw [h.count]
  exact leNat_leBytes (by omega)

theorem cutOperands_length (operands : List UInt8 × List UInt8) :
    (cutOperands operands).1.length ≤ govfuzzCmpOpmax
      ∧ (cutOperands operands).2.length ≤ govfuzzCmpOpmax :=
  ⟨List.length_take_le _ _, List.length_take_le _ _⟩

/-- Every push keeps the ring a list of records. -/
theorem HoldsRecords.push {m : CmpMap} {records : List (List UInt8 × List UInt8)}
    (h : HoldsRecords m records) (a b : List UInt8) :
    ∃ m', govfuzzCmpPush a b m = some m'
      ∧ HoldsRecords m' ((records ++ [cutOperands (a, b)]).take govfuzzCmpCap) := by
  have hcount := h.count_eq
  by_cases hfull : govfuzzCmpCap ≤ records.length
  · refine ⟨m, govfuzzCmpPush_full a b (by omega), ?_⟩
    have hcapped := h.capped
    rw [List.take_append_of_le_length hfull, List.take_of_length_le hcapped]
    exact h
  · obtain ⟨m', hpush, hpushed⟩ := govfuzzCmpPush_pushed (m := m) a b (by omega)
    rw [hcount] at hpushed
    have hlen : (records ++ [cutOperands (a, b)]).length = records.length + 1 := by simp
    rw [List.take_of_length_le (by omega)]
    refine ⟨m', hpush, by rw [hlen]; exact hpushed.count, by omega, ?_, ?_⟩
    · intro operands hmem
      rcases List.mem_append.mp hmem with hold | hnew
      · exact h.cut operands hold
      · rw [List.mem_singleton.mp hnew]
        exact cutOperands_length (a, b)
    · intro i hi
      by_cases hlast : i < records.length
      · rw [List.getElem_append_left hlast]
        apply (h.record i hlast).congr (h.cut _ (List.getElem_mem hlast))
        intro j hlow hhigh
        have hbefore : (i + 1) * govfuzzCmpRec ≤ records.length * govfuzzCmpRec :=
          Nat.mul_le_mul_right _ hlast
        rw [Nat.add_one_mul] at hbefore
        exact hpushed.frame j (by omega) (Or.inl (by omega))
      · obtain rfl : i = records.length := by omega
        simpa using hpushed.record

theorem take_take_append {α : Type} (n : Nat) (xs ys : List α) :
    (xs.take n ++ ys).take n = (xs ++ ys).take n := by
  rw [List.take_append, List.take_append, List.take_take, List.length_take, Nat.min_self]
  congr 2
  omega

theorem HoldsRecords.pushes {m : CmpMap} {records : List (List UInt8 × List UInt8)}
    (h : HoldsRecords m records) (pushes : List (List UInt8 × List UInt8)) :
    ∃ m', cmpPushes m pushes = some m'
      ∧ HoldsRecords m' ((records ++ pushes.map cutOperands).take govfuzzCmpCap) := by
  induction pushes generalizing m records with
  | nil =>
      refine ⟨m, rfl, ?_⟩
      rw [List.map_nil, List.append_nil, List.take_of_length_le h.capped]
      exact h
  | cons operands pushes ih =>
      obtain ⟨m₁, hpush, hholds⟩ := h.push operands.1 operands.2
      obtain ⟨m₂, hpushes, hall⟩ := ih hholds
      refine ⟨m₂, by simp [cmpPushes, hpush, hpushes], ?_⟩
      have hsame : ((records ++ [cutOperands operands]).take govfuzzCmpCap
            ++ pushes.map cutOperands).take govfuzzCmpCap
          = (records ++ (operands :: pushes).map cutOperands).take govfuzzCmpCap := by
        rw [take_take_append, List.append_assoc]
        rfl
      rw [← hsame]
      exact hall

/-- An armed ring is empty, whatever it held. -/
theorem CmpShmReader.arm_holds (m : CmpMap) :
    ∃ m', CmpShmReader.arm m = some m' ∧ HoldsRecords m' [] := by
  obtain ⟨m', harm, hwritten⟩ := m.storeRange_written (i := 0) [1, 0, 0, 0, 0, 0, 0, 0]
    (by simp [govfuzzCmpBytes])
  have hstored : m'.slice 0 (4 + 4) = [1, 0, 0, 0] ++ [0, 0, 0, 0] := hwritten.stored
  rw [Region.slice_add] at hstored
  obtain ⟨-, hcount⟩ := List.append_inj hstored (by simp)
  exact ⟨m', harm, hcount, Nat.zero_le _, by simp, by simp⟩

/-! ## Reading the ring -/

namespace CmpShmReader

/-- The lengths are clamped, so no record is read past its end. -/
theorem readRecord_eq (m : CmpMap) {i : Nat} (h : i < govfuzzCmpCap) :
    readRecord m i = some
      (m.slice (8 + i * govfuzzCmpRec + 2)
          (min (m.byte (8 + i * govfuzzCmpRec)).toNat govfuzzCmpOpmax),
        m.slice (8 + i * govfuzzCmpRec + 2 + govfuzzCmpOpmax)
          (min (m.byte (8 + i * govfuzzCmpRec + 1)).toNat govfuzzCmpOpmax)) := by
  have hinside := record_inside h
  have hrec : govfuzzCmpRec = 2 + 2 * govfuzzCmpOpmax := rfl
  rw [readRecord, m.load_eq (by omega), m.load_eq (by omega)]
  simp only [Option.bind_eq_bind, Option.bind_some]
  rw [m.loadRange_eq (by omega), m.loadRange_eq (by omega)]
  rfl

theorem readRecord_holds {m : CmpMap} {i : Nat} {operands : List UInt8 × List UInt8}
    (hi : i < govfuzzCmpCap) (h : HoldsRecord m i operands)
    (hcut : operands.1.length ≤ govfuzzCmpOpmax ∧ operands.2.length ≤ govfuzzCmpOpmax) :
    readRecord m i = some operands := by
  obtain ⟨hleft, hright⟩ := hcut
  have hmax : govfuzzCmpOpmax = 32 := rfl
  have hlengths := h.lengths
  rw [Region.slice_succ, Region.slice_succ, Region.slice_zero] at hlengths
  injection hlengths with hla hlengths
  injection hlengths with hlb
  have hwant : ∀ {n : Nat}, n ≤ govfuzzCmpOpmax →
      min (UInt8.ofNat n).toNat govfuzzCmpOpmax = n := by
    intro n hn
    rw [UInt8.toNat_ofNat_of_lt' (by rw [UInt8.size]; omega)]
    exact Nat.min_eq_left hn
  rw [readRecord_eq m hi, hla, hlb, hwant hleft, hwant hright, h.left, h.right]

/-- The loop keeps the first of equal pairs and skips the empty ones. -/
theorem readFrom_holds {m : CmpMap} {records : List (List UInt8 × List UInt8)} {i : Nat}
    (hcap : i + records.length ≤ govfuzzCmpCap)
    (hcut : ∀ operands ∈ records, operands.1.length ≤ govfuzzCmpOpmax
      ∧ operands.2.length ≤ govfuzzCmpOpmax)
    (h : ∀ k (hk : k < records.length), HoldsRecord m (i + k) records[k])
    (seen : List (List UInt8 × List UInt8)) :
    ∃ log, readFrom m records.length i seen = some log
      ∧ log.map (fun entry => (entry.operandA, entry.operandB))
        = (records.filter fun operands =>
            !(operands.1.isEmpty && operands.2.isEmpty) && decide (operands ∉ seen)).eraseDups := by
  induction records generalizing i seen with
  | nil => exact ⟨[], rfl, rfl⟩
  | cons operands records ih =>
      rw [List.length_cons] at hcap
      have hread := readRecord_holds (m := m) (i := i) (by omega) (h 0 (by simp))
        (hcut _ List.mem_cons_self)
      have hrest : ∀ k (hk : k < records.length), HoldsRecord m (i + 1 + k) records[k] := by
        intro k hk
        have hnext := h (k + 1) (by rw [List.length_cons]; omega)
        rwa [show i + (k + 1) = i + 1 + k by omega] at hnext
      have ih := ih (i := i + 1) (by omega) (fun p hp => hcut p (List.mem_cons_of_mem _ hp)) hrest
      obtain ⟨a, b⟩ := operands
      simp only [List.length_cons, readFrom, hread, Option.bind_eq_bind, Option.bind_some,
        List.getElem_cons_zero]
      -- an empty record is left out, and one seen before
      by_cases hempty : (a.isEmpty && b.isEmpty) = true
      · obtain ⟨log, hlog, hpairs⟩ := ih seen
        refine ⟨log, by rw [if_pos hempty, hlog], ?_⟩
        rw [hpairs, List.filter_cons_of_neg (by simp [hempty])]
      · by_cases hseen : (a, b) ∈ seen
        · obtain ⟨log, hlog, hpairs⟩ := ih seen
          refine ⟨log, by rw [if_neg hempty, if_pos hseen, hlog], ?_⟩
          rw [hpairs, List.filter_cons_of_neg (by simp [hseen])]
        · obtain ⟨log, hlog, hpairs⟩ := ih ((a, b) :: seen)
          refine ⟨_, by rw [if_neg hempty, if_neg hseen, hlog]; rfl, ?_⟩
          rw [List.filter_cons_of_pos (by simp [hempty, hseen]), List.eraseDups_cons,
            List.filter_filter, List.map_cons, hpairs]
          congr 2
          apply List.filter_congr
          intro p _
          by_cases hp : p = (a, b)
          · simp [hp]
          · simp [hp]

/-- The reader is inside the mapping, whatever is in it. -/
theorem readFrom_isSome (m : CmpMap) {left i : Nat} (hcap : i + left ≤ govfuzzCmpCap)
    (seen : List (List UInt8 × List UInt8)) : (readFrom m left i seen).isSome := by
  induction left generalizing i seen with
  | zero => rfl
  | succ left ih =>
      have hread := readRecord_eq m (i := i) (by omega)
      rw [readFrom, hread]
      simp only [Option.bind_eq_bind, Option.bind_some]
      split
      · exact ih (by omega) seen
      · split
        · exact ih (by omega) seen
        · obtain ⟨log, hlog⟩ := Option.isSome_iff_exists.mp (ih (i := i + 1) (by omega) (_ :: seen))
          rw [hlog]
          rfl

theorem readLog_isSome (m : CmpMap) : (readLog m).isSome := by
  obtain ⟨count, hcount, -⟩ := cmpCount_eq m
  rw [readLog, hcount]
  exact readFrom_isSome m (by omega) []

end CmpShmReader

/-- So is the driver. -/
theorem govfuzzCmpPush_isSome (m : CmpMap) (a b : List UInt8) :
    (govfuzzCmpPush a b m).isSome := by
  by_cases hfull : govfuzzCmpCap ≤ leNat (m.slice 4 4)
  · rw [govfuzzCmpPush_full a b hfull]
    rfl
  · obtain ⟨m', hpush, -⟩ := govfuzzCmpPush_pushed (m := m) a b (by omega)
    rw [hpush]
    rfl

/-- The pairs a run leaves to be read. -/
def recordedPairs (pushes : List (List UInt8 × List UInt8)) : List (List UInt8 × List UInt8) :=
  (((pushes.take govfuzzCmpCap).map cutOperands).filter fun operands =>
    !(operands.1.isEmpty && operands.2.isEmpty)).eraseDups

/-- Through the ring from an armed run to the log. -/
theorem cmpPushes_readLog (stale : CmpMap) (pushes : List (List UInt8 × List UInt8)) :
    ∃ armed m log, CmpShmReader.arm stale = some armed ∧ cmpPushes armed pushes = some m
      ∧ CmpShmReader.readLog m = some log
      ∧ log.map (fun entry => (entry.operandA, entry.operandB)) = recordedPairs pushes := by
  obtain ⟨armed, harm, hempty⟩ := CmpShmReader.arm_holds stale
  obtain ⟨m, hpushes, hholds⟩ := hempty.pushes pushes
  obtain ⟨count, hcount, hvalue⟩ := cmpCount_eq m
  have hcapped := hholds.capped
  obtain ⟨log, hlog, hpairs⟩ := CmpShmReader.readFrom_holds (i := 0)
    (by rw [Nat.zero_add]; exact hcapped) hholds.cut
    (by simpa using hholds.record) []
  refine ⟨armed, m, log, harm, hpushes, ?_, ?_⟩
  · rw [CmpShmReader.readLog, hcount]
    simp only [Option.bind_eq_bind, Option.bind_some]
    rw [hvalue, hholds.count_eq, Nat.min_eq_left hcapped, hlog]
  · rw [hpairs, recordedPairs]
    simp [List.map_take]

end GovFuzz.CRuntime
