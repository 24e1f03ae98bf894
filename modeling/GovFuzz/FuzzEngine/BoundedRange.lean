import GovFuzz.Lib.Align
import GovFuzz.Lib.Bytes

/-!
# Fuzz engine — bounded values in an input

`decode_bounded_range` and `encode_bounded_range` of
`crates/fuzz_engine/builtin/src/mutator.rs`: a value between two bounds is a
selector byte and, in a range of five bytes or more, a 32-bit little-endian
word behind it.
-/

namespace GovFuzz.FuzzEngine

open GovFuzz.Lib

/-- `Range<usize>`. -/
structure ByteSpan where
  start : Nat
  stop : Nat
  deriving DecidableEq

def ByteSpan.len (range : ByteSpan) : Nat := range.stop - range.start

/-- `usize::saturating_add`. -/
def saturatingAdd (a b : Nat) : Nat := min (a + b) (usizeSize - 1)

def clamp (value low high : Nat) : Nat := max low (min value high)

def selectorBoundedValue (selector : UInt8) (min max : Nat) : Nat :=
  let raw := match selector.toNat % 6 with
    | 0 => min
    | 1 => saturatingAdd min 1
    | 2 => max - 1
    | 3 => max
    | 4 => 0
    | _ => usizeSize - 1
  clamp raw min max

def decodeBoundedRange (bytes : List UInt8) (range : ByteSpan) (min max : Nat) : Option Nat :=
  if min > max ∨ range.start ≥ range.stop ∨ range.stop > bytes.length then none
  else if max ≤ min then some min
  else
    let selector := bytes.getD range.start 0
    if selector.toNat % 4 = 0 then some (selectorBoundedValue selector min max)
    else if range.len < 5 then none
    else some (min + leNat ((bytes.drop (range.start + 1)).take 4) % (max - min + 1))

/-- `copy_from_slice` onto the bytes from `start` on. -/
def overwrite (bytes : List UInt8) (start : Nat) (replacement : List UInt8) : List UInt8 :=
  bytes.take start ++ replacement ++ bytes.drop (start + replacement.length)

def oneByteSelectorForValue (min max value : Nat) : Option UInt8 :=
  ((List.range 256).map UInt8.ofNat).find? fun selector =>
    selector.toNat % 4 = 0 && selectorBoundedValue selector min max = value

def encodeBoundedRange (bytes : List UInt8) (range : ByteSpan) (min max value : Nat) :
    Option (List UInt8) :=
  if value < min ∨ value > max ∨ range.start ≥ range.stop ∨ range.stop > bytes.length then none
  else if range.len ≥ 5 then
    some (overwrite (bytes.set range.start 1) (range.start + 1) (leBytes 4 (value - min)))
  else do
    let selector ← oneByteSelectorForValue min max value
    some (bytes.set range.start selector)

def canEncodeBoundedRange (range : ByteSpan) (min max value : Nat) : Bool :=
  value ≥ min && value ≤ max && range.start < range.stop &&
    (range.len ≥ 5 || (oneByteSelectorForValue min max value).isSome)

/-! ## Overwriting -/

section
variable {bytes replacement : List UInt8} {start : Nat}

theorem length_overwrite (h : start + replacement.length ≤ bytes.length) :
    (overwrite bytes start replacement).length = bytes.length := by
  simp only [overwrite, List.length_append, List.length_take, List.length_drop]
  omega

theorem take_drop_overwrite (h : start + replacement.length ≤ bytes.length) :
    ((overwrite bytes start replacement).drop start).take replacement.length = replacement := by
  have hlen : (bytes.take start).length = start := by
    rw [List.length_take]
    omega
  rw [overwrite, List.append_assoc, List.drop_append_of_le_length (by omega),
    List.drop_of_length_le (by omega), List.nil_append, List.take_left' rfl]

theorem getD_overwrite_of_lt {i : Nat} (hi : i < start) (h : start ≤ bytes.length) (d : UInt8) :
    (overwrite bytes start replacement).getD i d = bytes.getD i d := by
  have hlen : i < (bytes.take start).length := by
    rw [List.length_take]
    omega
  rw [overwrite, List.append_assoc, List.getD_eq_getElem?_getD, List.getElem?_append_left hlen,
    List.getElem?_take_of_lt hi, ← List.getD_eq_getElem?_getD]

end

/-- What is encoded in a range of five bytes is read back from it. -/
theorem encodeBoundedRange_of_le {bytes : List UInt8} {range : ByteSpan} {min max value : Nat}
    (hmin : min ≤ value) (hmax : value ≤ max) (hlen : 5 ≤ range.len)
    (hstop : range.stop ≤ bytes.length) :
    ∃ encoded, encodeBoundedRange bytes range min max value = some encoded ∧
      encoded.length = bytes.length ∧ encoded.getD range.start 0 = 1 ∧
      ((encoded.drop (range.start + 1)).take 4) = leBytes 4 (value - min) := by
  have hrange : range.start + 5 ≤ bytes.length := by
    unfold ByteSpan.len at hlen
    omega
  have hword : (leBytes 4 (value - min)).length = 4 := by simp [leBytes]
  have hset : (bytes.set range.start 1).length = bytes.length := List.length_set
  refine ⟨overwrite (bytes.set range.start 1) (range.start + 1) (leBytes 4 (value - min)),
    ?_, ?_, ?_, ?_⟩
  · have hok : ¬ (value < min ∨ value > max ∨ range.start ≥ range.stop ∨
        range.stop > bytes.length) := by
      unfold ByteSpan.len at hlen
      omega
    rw [encodeBoundedRange, if_neg hok, if_pos hlen]
  · rw [length_overwrite (by omega), hset]
  · rw [getD_overwrite_of_lt (Nat.lt_succ_self _) (by omega), List.getD_eq_getElem?_getD,
      List.getElem?_set_self (by omega)]
    rfl
  · rw [← hword]
    exact take_drop_overwrite (by omega)

/-! ## What a write leaves alone -/

/-- `after` is `before` but for the bytes of the range. -/
structure AgreeOutside (range : ByteSpan) (before after : List UInt8) : Prop where
  length : after.length = before.length
  front : after.take range.start = before.take range.start
  back : after.drop range.stop = before.drop range.stop

theorem AgreeOutside.trans {range : ByteSpan} {a b c : List UInt8} (h : AgreeOutside range a b)
    (h' : AgreeOutside range b c) : AgreeOutside range a c :=
  ⟨h'.length.trans h.length, h'.front.trans h.front, h'.back.trans h.back⟩

/-- The bytes before an earlier end are left alone too. -/
theorem AgreeOutside.take_eq {range : ByteSpan} {before after : List UInt8}
    (h : AgreeOutside range before after) {stop : Nat} (hstop : stop ≤ range.start) :
    after.take stop = before.take stop := by
  have hfront := congrArg (List.take stop) h.front
  rwa [List.take_take, List.take_take, Nat.min_eq_left hstop] at hfront

theorem overwrite_agree {range : ByteSpan} {bytes replacement : List UInt8} {start : Nat}
    (hstart : range.start ≤ start) (hstop : start + replacement.length ≤ range.stop)
    (hlen : range.stop ≤ bytes.length) :
    AgreeOutside range bytes (overwrite bytes start replacement) := by
  have htake : (bytes.take start).length = start := by
    rw [List.length_take]
    omega
  constructor
  · exact length_overwrite (by omega)
  · rw [overwrite, List.append_assoc, List.take_append_of_le_length (by omega), List.take_take,
      Nat.min_eq_left hstart]
  · have hdone : (bytes.take start ++ replacement).length ≤ range.stop := by
      rw [List.length_append]
      omega
    rw [overwrite, List.drop_append, List.drop_of_length_le hdone, List.nil_append,
      List.drop_drop, List.length_append, htake]
    congr 1
    omega

theorem set_agree {range : ByteSpan} {bytes : List UInt8} {i : Nat} (hstart : range.start ≤ i)
    (hstop : i < range.stop) (hlen : range.stop ≤ bytes.length) (byte : UInt8) :
    AgreeOutside range bytes (bytes.set i byte) := by
  have hset : bytes.set i byte = overwrite bytes i [byte] := by
    rw [List.set_eq_take_append_cons_drop, if_pos (by omega), overwrite]
    simp
  rw [hset]
  exact overwrite_agree hstart hstop hlen

section
variable {bytes output : List UInt8} {range : ByteSpan} {min max value : Nat}

/-- What has a value between the bounds and a range inside the bytes. -/
theorem encodeBoundedRange_bounds (h : encodeBoundedRange bytes range min max value = some output) :
    min ≤ value ∧ value ≤ max ∧ range.start < range.stop ∧ range.stop ≤ bytes.length := by
  by_contra hbounds
  rw [encodeBoundedRange, if_pos (by omega)] at h
  cases h

theorem encodeBoundedRange_agree
    (h : encodeBoundedRange bytes range min max value = some output) :
    AgreeOutside range bytes output := by
  obtain ⟨hmin, hmax, hrange, hlen⟩ := encodeBoundedRange_bounds h
  rw [encodeBoundedRange, if_neg (by omega)] at h
  by_cases hlong : range.len ≥ 5
  · rw [if_pos hlong] at h
    cases h
    unfold ByteSpan.len at hlong
    have hset := set_agree (Nat.le_refl range.start) hrange hlen 1
    refine hset.trans (overwrite_agree (Nat.le_succ _) ?_ ?_)
    · rw [leBytes_length]
      omega
    · rw [hset.length]
      exact hlen
  · rw [if_neg hlong] at h
    obtain ⟨selector, -, hout⟩ := Option.bind_eq_some_iff.mp h
    cases hout
    exact set_agree (Nat.le_refl range.start) hrange hlen selector

theorem oneByteSelectorForValue_spec {selector : UInt8}
    (h : oneByteSelectorForValue min max value = some selector) :
    selector.toNat % 4 = 0 ∧ selectorBoundedValue selector min max = value := by
  have hfound := List.find?_some h
  simpa using hfound

/-- What was encoded is decoded again, when the offset fits in the word. -/
theorem decodeBoundedRange_encode
    (h : encodeBoundedRange bytes range min max value = some output)
    (hword : max - min < 2 ^ 32) : decodeBoundedRange output range min max = some value := by
  obtain ⟨hmin, hmax, hrange, hlen⟩ := encodeBoundedRange_bounds h
  have hout := (encodeBoundedRange_agree h).length
  rw [decodeBoundedRange, if_neg (by omega)]
  by_cases hsingle : max ≤ min
  · rw [if_pos hsingle]
    congr 1
    omega
  rw [if_neg hsingle]
  -- Five bytes hold a selector and the offset as a word; fewer hold a selector only.
  by_cases hlong : range.len ≥ 5
  · obtain ⟨encoded, hencoded, -, hselector, hoffset⟩ :=
      encodeBoundedRange_of_le hmin hmax hlong hlen
    obtain rfl : encoded = output := Option.some.inj (hencoded.symm.trans h)
    have hfits : value - min < 256 ^ 4 := by
      have hpow : 256 ^ 4 = 2 ^ 32 := by decide
      omega
    rw [hselector, hoffset, leNat_leBytes hfits]
    simp only [show (1 : UInt8).toNat % 4 = 1 from rfl, show ¬ range.len < 5 by omega, if_false,
      Nat.one_ne_zero]
    rw [Nat.mod_eq_of_lt (by omega)]
    congr 1
    omega
  · rw [encodeBoundedRange, if_neg (by omega), if_neg hlong] at h
    obtain ⟨selector, hselector, hset⟩ := Option.bind_eq_some_iff.mp h
    cases hset
    obtain ⟨hfour, hvalue⟩ := oneByteSelectorForValue_spec hselector
    have hget : (bytes.set range.start selector).getD range.start 0 = selector := by
      rw [List.getD_eq_getElem?_getD, List.getElem?_set_self (by omega)]
      rfl
    simp only [hget]
    rw [if_pos hfour, hvalue]

/-- Only the bytes before the end of the range are read. -/
theorem decodeBoundedRange_congr (hlen : range.stop ≤ bytes.length)
    (h : output.take range.stop = bytes.take range.stop) :
    decodeBoundedRange output range min max = decodeBoundedRange bytes range min max := by
  have hout : range.stop ≤ output.length := by
    have hlength := congrArg List.length h
    rw [List.length_take, List.length_take] at hlength
    omega
  have hword : ∀ start, start + 4 ≤ range.stop →
      (output.drop start).take 4 = (bytes.drop start).take 4 := by
    intro start hstart
    have hdrop := congrArg (fun l => (List.drop start l).take 4) h
    simp only [List.drop_take, List.take_take] at hdrop
    rwa [Nat.min_eq_left (by omega)] at hdrop
  unfold decodeBoundedRange
  by_cases hrange : min > max ∨ range.start ≥ range.stop ∨ range.stop > bytes.length
  · rw [if_pos hrange, if_pos (by omega)]
  have hrange' : ¬ (min > max ∨ range.start ≥ range.stop ∨ range.stop > output.length) := by omega
  rw [if_neg hrange, if_neg hrange']
  have hselector : output.getD range.start 0 = bytes.getD range.start 0 := by
    have hget := congrArg (fun l => l[range.start]?) h
    simp only [List.getElem?_take_of_lt (show range.start < range.stop by omega)] at hget
    rw [List.getD_eq_getElem?_getD, hget, ← List.getD_eq_getElem?_getD]
  by_cases hshort : range.len < 5
  · simp only [hselector, hshort, if_true]
  · unfold ByteSpan.len at hshort
    rw [hselector, hword (range.start + 1) (by omega)]

/-- A decoded value is within its bounds, and its field inside the input. -/
theorem decodeBoundedRange_le {count : Nat}
    (h : decodeBoundedRange bytes range min max = some count) :
    min ≤ count ∧ count ≤ max ∧ range.stop ≤ bytes.length := by
  unfold decodeBoundedRange at h
  by_cases hrange : min > max ∨ range.start ≥ range.stop ∨ range.stop > bytes.length
  · rw [if_pos hrange] at h
    cases h
  rw [if_neg hrange] at h
  by_cases hsingle : max ≤ min
  · rw [if_pos hsingle] at h
    cases h
    omega
  rw [if_neg hsingle] at h
  dsimp only at h
  by_cases hfour : (bytes.getD range.start 0).toNat % 4 = 0
  · rw [if_pos hfour] at h
    cases h
    simp only [selectorBoundedValue, clamp]
    omega
  rw [if_neg hfour] at h
  by_cases hshort : range.len < 5
  · rw [if_pos hshort] at h
    cases h
  rw [if_neg hshort] at h
  cases h
  have hmod := Nat.mod_lt (leNat ((bytes.drop (range.start + 1)).take 4))
    (show 0 < max - min + 1 by omega)
  omega

end

/-! ## A run of writes -/

def ByteSpan.Apart (range other : ByteSpan) : Prop :=
  range.stop ≤ other.start ∨ other.stop ≤ range.start

theorem AgreeOutside.getElem? {range : ByteSpan} {before after : List UInt8}
    (h : AgreeOutside range before after) {i : Nat} (hi : i < range.start ∨ range.stop ≤ i) :
    after[i]? = before[i]? := by
  rcases hi with hfront | hback
  · rw [← List.getElem?_take_of_lt hfront, h.front, List.getElem?_take_of_lt hfront]
  · obtain ⟨offset, rfl⟩ := Nat.exists_eq_add_of_le hback
    rw [← List.getElem?_drop, h.back, List.getElem?_drop]

/-- Only the bytes of the range are read. -/
theorem decodeBoundedRange_local {bytes output : List UInt8} {range : ByteSpan} {min max : Nat}
    (hlen : output.length = bytes.length)
    (h : ∀ i, range.start ≤ i → i < range.stop → output[i]? = bytes[i]?) :
    decodeBoundedRange output range min max = decodeBoundedRange bytes range min max := by
  unfold decodeBoundedRange
  rw [hlen]
  by_cases hrange : min > max ∨ range.start ≥ range.stop ∨ range.stop > bytes.length
  · rw [if_pos hrange, if_pos hrange]
  rw [if_neg hrange, if_neg hrange]
  have hselector : output.getD range.start 0 = bytes.getD range.start 0 := by
    rw [List.getD_eq_getElem?_getD, h range.start (by omega) (by omega),
      ← List.getD_eq_getElem?_getD]
  by_cases hshort : range.len < 5
  · simp only [hselector, hshort, if_true]
  have hword : (output.drop (range.start + 1)).take 4 = (bytes.drop (range.start + 1)).take 4 := by
    unfold ByteSpan.len at hshort
    apply List.ext_getElem?
    intro i
    by_cases hi : i < 4
    · rw [List.getElem?_take_of_lt hi, List.getElem?_take_of_lt hi, List.getElem?_drop,
        List.getElem?_drop, h _ (by omega) (by omega)]
    · rw [List.getElem?_take_eq_none (by omega), List.getElem?_take_eq_none (by omega)]
  rw [hselector, hword]

/-- The selectors that are multiples of four give the lower bound and the
value below the upper one, never the upper bound itself. -/
theorem oneByteSelectorForValue_isSome {min max value : Nat} (hbounds : min ≤ max) :
    (oneByteSelectorForValue min max value).isSome = true ↔
      value = min ∨ (min < max ∧ value = max - 1) := by
  have hfind : (oneByteSelectorForValue min max value).isSome = true ↔
      ∃ selector : UInt8, selector.toNat % 4 = 0 ∧
        selectorBoundedValue selector min max = value := by
    rw [oneByteSelectorForValue, List.find?_isSome]
    constructor
    · rintro ⟨selector, -, hselector⟩
      exact ⟨selector, by simpa using hselector⟩
    · rintro ⟨selector, hselector⟩
      have hmem : selector ∈ (List.range 256).map UInt8.ofNat :=
        List.mem_map.mpr ⟨selector.toNat, List.mem_range.mpr selector.toNat_lt,
          UInt8.ofNat_toNat⟩
      exact ⟨selector, hmem, by simpa using hselector⟩
  rw [hfind]
  clear hfind
  constructor
  · rintro ⟨selector, hfour, hvalue⟩
    -- A multiple of four leaves 0, 2 or 4 modulo six: the lower bound, the value
    -- below the upper one, and the lower bound again.
    have hclass : selector.toNat % 6 = 0 ∨ selector.toNat % 6 = 2 ∨ selector.toNat % 6 = 4 := by
      omega
    rcases hclass with h | h | h
    · simp only [selectorBoundedValue, h, clamp] at hvalue
      omega
    · simp only [selectorBoundedValue, h, clamp, Nat.min_eq_left (Nat.sub_le max 1)] at hvalue
      omega
    · simp only [selectorBoundedValue, h, clamp] at hvalue
      omega
  · rintro (rfl | ⟨hlt, rfl⟩)
    · refine ⟨0, rfl, ?_⟩
      show clamp value value max = value
      unfold clamp
      omega
    · refine ⟨8, rfl, ?_⟩
      show clamp (max - 1) min max = max - 1
      unfold clamp
      omega

/-- One `encode_bounded_range` call. -/
structure FieldWrite where
  range : ByteSpan
  min : Nat
  max : Nat
  value : Nat

def FieldWrite.run (bytes : List UInt8) (write : FieldWrite) : Option (List UInt8) :=
  encodeBoundedRange bytes write.range write.min write.max write.value

/-- The writes one after the other. -/
def runWrites (bytes : List UInt8) (writes : List FieldWrite) : Option (List UInt8) :=
  writes.foldlM FieldWrite.run bytes

/-- What a field of its width can hold. -/
structure FieldWrite.Fits (write : FieldWrite) (len : Nat) : Prop where
  lower : write.min ≤ write.value
  upper : write.value ≤ write.max
  nonempty : write.range.start < write.range.stop
  inside : write.range.stop ≤ len
  width : 5 ≤ write.range.len ∨ write.value = write.min ∨
    (write.min < write.max ∧ write.value = write.max - 1)

/-- A write happens exactly when its field fits the input. -/
theorem FieldWrite.run_isSome (bytes : List UInt8) (write : FieldWrite) :
    (write.run bytes).isSome = true ↔ write.Fits bytes.length := by
  unfold FieldWrite.run
  by_cases hok : write.value < write.min ∨ write.value > write.max ∨
      write.range.start ≥ write.range.stop ∨ write.range.stop > bytes.length
  · rw [encodeBoundedRange, if_pos hok]
    constructor
    · intro h
      cases h
    · rintro ⟨hlower, hupper, hnonempty, hinside, -⟩
      omega
  rw [encodeBoundedRange, if_neg hok]
  -- a long field holds any value, a short one those that have a selector
  by_cases hlong : write.range.len ≥ 5
  · rw [if_pos hlong]
    constructor
    · intro _
      exact ⟨by omega, by omega, by omega, by omega, .inl hlong⟩
    · intro _
      rfl
  · have hbounds : write.min ≤ write.max := by omega
    have hselector := @oneByteSelectorForValue_isSome write.min write.max write.value hbounds
    rw [if_neg hlong]
    cases hfound : oneByteSelectorForValue write.min write.max write.value with
    | none =>
        rw [hfound] at hselector
        constructor
        · intro h
          cases h
        · rintro ⟨-, -, -, -, hwidth⟩
          exact hselector.mpr (hwidth.resolve_left hlong)
    | some selector =>
        rw [hfound] at hselector
        constructor
        · intro _
          exact ⟨by omega, by omega, by omega, by omega, .inr (hselector.mp rfl)⟩
        · intro _
          rfl

theorem FieldWrite.run_agree {bytes output : List UInt8} {write : FieldWrite}
    (h : write.run bytes = some output) : AgreeOutside write.range bytes output :=
  encodeBoundedRange_agree h

/-- Whether a run of writes goes through does not depend on their order. -/
theorem runWrites_isSome (bytes : List UInt8) (writes : List FieldWrite) :
    (runWrites bytes writes).isSome = true ↔ ∀ write ∈ writes, write.Fits bytes.length := by
  induction writes generalizing bytes with
  | nil => simp [runWrites]
  | cons write writes ih =>
      rw [List.forall_mem_cons, ← FieldWrite.run_isSome]
      cases hrun : write.run bytes with
      | none => simp [runWrites, hrun]
      | some next =>
          have hnext := ih next
          rw [(FieldWrite.run_agree hrun).length] at hnext
          simpa [runWrites, hrun] using hnext

theorem runWrites_untouched {bytes output : List UInt8} {writes : List FieldWrite}
    (h : runWrites bytes writes = some output) :
    output.length = bytes.length ∧
      ∀ i, (∀ write ∈ writes, i < write.range.start ∨ write.range.stop ≤ i) →
        output[i]? = bytes[i]? := by
  induction writes generalizing bytes with
  | nil =>
      cases h
      exact ⟨rfl, fun _ _ => rfl⟩
  | cons write writes ih =>
      obtain ⟨next, hrun, hrest⟩ := Option.bind_eq_some_iff.mp h
      have hagree := FieldWrite.run_agree hrun
      obtain ⟨hlen, hsame⟩ := ih hrest
      refine ⟨hlen.trans hagree.length, fun i hi => ?_⟩
      rw [hsame i fun later hlater => hi later (List.mem_cons_of_mem _ hlater)]
      exact hagree.getElem? (hi write List.mem_cons_self)

/-- A run of writes keeps every field that none of them overlaps. -/
theorem runWrites_decode_other {bytes output : List UInt8} {writes : List FieldWrite}
    (h : runWrites bytes writes = some output) {range : ByteSpan}
    (hapart : ∀ write ∈ writes, write.range.Apart range) (min max : Nat) :
    decodeBoundedRange output range min max = decodeBoundedRange bytes range min max := by
  obtain ⟨hlen, hsame⟩ := runWrites_untouched h
  apply decodeBoundedRange_local hlen
  intro i hlower hupper
  apply hsame
  intro write hwrite
  rcases hapart write hwrite with hbefore | hbehind
  · right
    omega
  · left
    omega

/-- A run of writes to bounded fields goes through when each of its values fits
its field, whatever the order; each field then holds the value last written to
it, and every byte outside of the fields what it held. -/
theorem runWrites_exact (bytes : List UInt8) (writes : List FieldWrite) :
    ((runWrites bytes writes).isSome = true ↔ ∀ write ∈ writes, write.Fits bytes.length) ∧
    ∀ output, runWrites bytes writes = some output →
      (∀ i, (∀ write ∈ writes, i < write.range.start ∨ write.range.stop ≤ i) →
        output[i]? = bytes[i]?) ∧
      (∀ range, (∀ write ∈ writes, write.range.Apart range) → ∀ min max,
        decodeBoundedRange output range min max = decodeBoundedRange bytes range min max) ∧
      ∀ before write after, writes = before ++ write :: after →
        (∀ later ∈ after, later.range.Apart write.range) → write.max - write.min < 2 ^ 32 →
          decodeBoundedRange output write.range write.min write.max = some write.value := by
  refine ⟨runWrites_isSome bytes writes, fun output hrun => ⟨(runWrites_untouched hrun).2,
    fun range hapart => runWrites_decode_other hrun hapart, ?_⟩⟩
  rintro before write after rfl hapart hword
  rw [runWrites, List.foldlM_append] at hrun
  obtain ⟨middle, -, hrun⟩ := Option.bind_eq_some_iff.mp hrun
  obtain ⟨next, hwrite, hafter⟩ := Option.bind_eq_some_iff.mp hrun
  rw [runWrites_decode_other hafter hapart]
  exact decodeBoundedRange_encode hwrite hword

end GovFuzz.FuzzEngine
