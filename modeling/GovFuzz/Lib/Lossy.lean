import GovFuzz.Lib.Bytes
import GovFuzz.Lib.Utf8
import Mathlib.Data.List.Basic

/-!
# Lib — any byte string as text

`String::from_utf8_lossy`: what is UTF-8 is decoded, and each maximal part of
a sequence that cannot be completed becomes one replacement character.  A
byte below 128 never belongs to a longer sequence, so the decoding can be
cut there (`lossy_append_ascii`).
-/

namespace GovFuzz.Lib

/-! ## One character -/

def isContinuation (b : UInt8) : Bool := 0x80 ≤ b && b ≤ 0xBF

/-- The second byte of a sequence of three, which also excludes overlong
forms and surrogates. -/
@[grind =] def secondOfThree (first second : UInt8) : Bool :=
  if first = 0xE0 then 0xA0 ≤ second && second ≤ 0xBF
  else if first = 0xED then 0x80 ≤ second && second ≤ 0x9F
  else isContinuation second

@[grind =] def secondOfFour (first second : UInt8) : Bool :=
  if first = 0xF0 then 0x90 ≤ second && second ≤ 0xBF
  else if first = 0xF4 then 0x80 ≤ second && second ≤ 0x8F
  else isContinuation second

/-- What stands at the front: a character of some width, or a number of bytes
that belong to none. -/
inductive Utf8Front where
  | char (width : Nat) (code : Nat)
  | invalid (width : Nat)
  deriving DecidableEq, Repr

/-- `0` stands for a byte behind the end, which no sequence continues with. -/
@[grind =] def utf8Front (b : UInt8) (rest : List UInt8) : Utf8Front :=
  let c := rest.getD 0 0
  let d := rest.getD 1 0
  let e := rest.getD 2 0
  if b < 128 then .char 1 b.toNat
  else if 0xC2 ≤ b && b ≤ 0xDF then
    if isContinuation c then .char 2 (b.toNat % 32 * 64 + c.toNat % 64) else .invalid 1
  else if 0xE0 ≤ b && b ≤ 0xEF then
    if !secondOfThree b c then .invalid 1
    else if !isContinuation d then .invalid 2
    else .char 3 ((b.toNat % 16 * 64 + c.toNat % 64) * 64 + d.toNat % 64)
  else if 0xF0 ≤ b && b ≤ 0xF4 then
    if !secondOfFour b c then .invalid 1
    else if !isContinuation d then .invalid 2
    else if !isContinuation e then .invalid 3
    else .char 4 (((b.toNat % 8 * 64 + c.toNat % 64) * 64 + d.toNat % 64) * 64 + e.toNat % 64)
  else .invalid 1

def replacement : Char := Char.ofNat 0xFFFD

/-- The fuel is the number of bytes that are left. -/
@[grind =] def lossyLoop : Nat → List UInt8 → List Char
  | 0, _ => []
  | _ + 1, [] => []
  | n + 1, b :: rest =>
      match utf8Front b rest with
      | .char width code => Char.ofNat code :: lossyLoop n (rest.drop (width - 1))
      | .invalid width => replacement :: lossyLoop n (rest.drop (width - 1))

def lossy (s : List UInt8) : List Char := lossyLoop s.length s

@[grind =] def Utf8Front.width : Utf8Front → Nat
  | .char width _ => width
  | .invalid width => width

def Utf8Front.decoded : Utf8Front → Char
  | .char _ code => Char.ofNat code
  | .invalid _ => replacement

/-- Fuel for every byte is enough. -/
theorem lossyLoop_congr {n m : Nat} {s : List UInt8} (hn : s.length ≤ n) (hm : s.length ≤ m) :
    lossyLoop n s = lossyLoop m s := by
  induction n generalizing m s with
  | zero =>
      have hnil : s = [] := List.length_eq_zero_iff.mp (Nat.le_zero.mp hn)
      subst hnil
      cases m <;> rfl
  | succ n ih =>
      cases s with
      | nil => cases m <;> rfl
      | cons b rest =>
          cases m with
          | zero => cases hm
          | succ m =>
              have hrest : ∀ k, lossyLoop n (rest.drop k) = lossyLoop m (rest.drop k) := by
                intro k
                simp only [List.length_cons] at hn hm
                refine ih ?_ ?_
                · rw [List.length_drop]
                  omega
                · rw [List.length_drop]
                  omega
              simp only [lossyLoop, hrest]

theorem lossy_cons (b : UInt8) (rest : List UInt8) :
    lossy (b :: rest)
      = (utf8Front b rest).decoded :: lossy (rest.drop ((utf8Front b rest).width - 1)) := by
  have hdrop : ∀ k, lossyLoop rest.length (rest.drop k) = lossy (rest.drop k) := by
    intro k
    refine lossyLoop_congr ?_ (Nat.le_refl _)
    rw [List.length_drop]
    omega
  rw [lossy, List.length_cons, lossyLoop]
  cases utf8Front b rest with
  | char width code => exact congrArg _ (hdrop _)
  | invalid width => exact congrArg _ (hdrop _)

/-! ## Cutting at an ASCII byte -/

theorem isContinuation_ascii {b : UInt8} (h : b < 128) : isContinuation b = false := by
  revert h
  exact forall_byte (p := fun b => b < 128 → isContinuation b = false) (by decide +kernel) b

/-- An ASCII byte continues nothing. -/
theorem second_ascii {stop : UInt8} (h : stop < 128) (b : UInt8) :
    secondOfThree b stop = false ∧ secondOfFour b stop = false := by
  have hcont := isContinuation_ascii h
  have hlow : ∀ bound : UInt8, 128 ≤ bound → (decide (bound ≤ stop)) = false := by
    intro bound hbound
    rw [decide_eq_false_iff_not, UInt8.not_le]
    exact UInt8.lt_of_lt_of_le h hbound
  constructor
  · unfold secondOfThree
    rw [hlow 0xA0 (by decide), hlow 0x80 (by decide), hcont]
    simp
  · unfold secondOfFour
    rw [hlow 0x90 (by decide), hlow 0x80 (by decide), hcont]
    simp

/-- What stands at the front does not reach over an ASCII byte. -/
theorem utf8Front_append {stop : UInt8} (h : stop < 128) (b : UInt8) (rest behind : List UInt8) :
    utf8Front b (rest ++ stop :: behind) = utf8Front b rest := by
  have hzero : (0 : UInt8) < 128 := by decide
  have hcont := isContinuation_ascii h
  have hcont0 := isContinuation_ascii hzero
  have hsecond := second_ascii h b
  have hsecond0 := second_ascii hzero b
  match rest with
  | [] => simp [utf8Front, hcont, hcont0, hsecond, hsecond0]
  | [c] => simp [utf8Front, hcont, hcont0]
  | [c, d] => simp [utf8Front, hcont, hcont0]
  | c :: d :: e :: more => simp [utf8Front]

theorem width_le (b : UInt8) (rest : List UInt8) :
    (utf8Front b rest).width - 1 ≤ rest.length := by
  have hzero : (0 : UInt8) < 128 := by decide
  have hcont0 := isContinuation_ascii hzero
  have hsecond0 := second_ascii hzero b
  match rest with
  | [] =>
      simp only [utf8Front, List.getD_nil, hcont0, hsecond0]
      split_ifs <;> simp_all [Utf8Front.width]
  | [c] =>
      simp only [utf8Front, List.getD_cons_zero, List.getD_cons_succ, List.getD_nil, hcont0]
      split_ifs <;> simp_all [Utf8Front.width]
  | [c, d] =>
      simp only [utf8Front, List.getD_cons_zero, List.getD_cons_succ, List.getD_nil, hcont0]
      split_ifs <;> simp_all [Utf8Front.width]
  | c :: d :: e :: more =>
      simp only [utf8Front, List.getD_cons_zero, List.getD_cons_succ, List.length_cons]
      split_ifs <;> simp only [Utf8Front.width] <;> omega

/-- The text up to an ASCII byte and the text behind it. -/
theorem lossy_append_ascii {stop : UInt8} (h : stop < 128) (front behind : List UInt8) :
    lossy (front ++ stop :: behind) = lossy front ++ Char.ofNat stop.toNat :: lossy behind := by
  -- by the length of what is in front: each step takes a character off it
  induction hn : front.length using Nat.strongRecOn generalizing front with
  | ind n ih =>
      cases front with
      | nil =>
          have hfront : utf8Front stop behind = .char 1 stop.toNat := by
            simp only [utf8Front, if_pos h]
          rw [List.nil_append, lossy_cons, hfront]
          rfl
      | cons b rest =>
          have hwidth := width_le b rest
          rw [List.cons_append, lossy_cons, lossy_cons, utf8Front_append h,
            List.drop_append_of_le_length hwidth, List.cons_append]
          rw [ih _ (by rw [← hn, List.length_cons, List.length_drop]; omega) _ rfl]

/-! ## Characters and their bytes -/

theorem utf8EncodeChar_ofNat {n : Nat} (h : n.isValidChar) :
    String.utf8EncodeChar (Char.ofNat n)
      = if n ≤ 0x7f then [UInt8.ofNat n]
        else if n ≤ 0x7ff then [UInt8.ofNat (n / 64 % 0x20 + 0xc0), UInt8.ofNat (n % 0x40 + 0x80)]
        else if n ≤ 0xffff then
          [UInt8.ofNat (n / 4096 % 0x10 + 0xe0), UInt8.ofNat (n / 64 % 0x40 + 0x80),
            UInt8.ofNat (n % 0x40 + 0x80)]
        else
          [UInt8.ofNat (n / 262144 % 0x08 + 0xf0), UInt8.ofNat (n / 4096 % 0x40 + 0x80),
            UInt8.ofNat (n / 64 % 0x40 + 0x80), UInt8.ofNat (n % 0x40 + 0x80)] := by
  have hval : (Char.ofNat n).val.toNat = n := by
    rw [Char.ofNat, dif_pos h]
    rfl
  simp only [String.utf8EncodeChar, hval]

theorem ofNat_eq_of_toNat {n : Nat} {b : UInt8} (h : n = b.toNat) : UInt8.ofNat n = b := by
  rw [h, UInt8.ofNat_toNat]

theorem isContinuation_iff {b : UInt8} :
    isContinuation b = true ↔ 0x80 ≤ b.toNat ∧ b.toNat ≤ 0xBF := by
  simp only [isContinuation, Bool.and_eq_true, decide_eq_true_eq, UInt8.le_iff_toNat_le]
  rfl

theorem secondOfThree_iff {b c : UInt8} :
    secondOfThree b c = true ↔ 0x80 ≤ c.toNat ∧ c.toNat ≤ 0xBF
      ∧ (b.toNat = 0xE0 → 0xA0 ≤ c.toNat) ∧ (b.toNat = 0xED → c.toNat ≤ 0x9F) := by
  have he0 : b = 0xE0 ↔ b.toNat = 0xE0 := by rw [← UInt8.toNat_inj]; rfl
  have hed : b = 0xED ↔ b.toNat = 0xED := by rw [← UInt8.toNat_inj]; rfl
  have ha0 : (0xA0 : UInt8).toNat = 0xA0 := rfl
  have h80 : (0x80 : UInt8).toNat = 0x80 := rfl
  have h9f : (0x9F : UInt8).toNat = 0x9F := rfl
  have hbf : (0xBF : UInt8).toNat = 0xBF := rfl
  unfold secondOfThree
  simp only [he0, hed]
  split_ifs with h1 h2
  · simp only [Bool.and_eq_true, decide_eq_true_eq, UInt8.le_iff_toNat_le, ha0, hbf]
    omega
  · simp only [Bool.and_eq_true, decide_eq_true_eq, UInt8.le_iff_toNat_le, h80, h9f]
    omega
  · rw [isContinuation_iff]
    omega

theorem secondOfFour_iff {b c : UInt8} :
    secondOfFour b c = true ↔ 0x80 ≤ c.toNat ∧ c.toNat ≤ 0xBF
      ∧ (b.toNat = 0xF0 → 0x90 ≤ c.toNat) ∧ (b.toNat = 0xF4 → c.toNat ≤ 0x8F) := by
  have hf0 : b = 0xF0 ↔ b.toNat = 0xF0 := by rw [← UInt8.toNat_inj]; rfl
  have hf4 : b = 0xF4 ↔ b.toNat = 0xF4 := by rw [← UInt8.toNat_inj]; rfl
  have h90 : (0x90 : UInt8).toNat = 0x90 := rfl
  have h80 : (0x80 : UInt8).toNat = 0x80 := rfl
  have h8f : (0x8F : UInt8).toNat = 0x8F := rfl
  have hbf : (0xBF : UInt8).toNat = 0xBF := rfl
  unfold secondOfFour
  simp only [hf0, hf4]
  split_ifs with h1 h2
  · simp only [Bool.and_eq_true, decide_eq_true_eq, UInt8.le_iff_toNat_le, h90, hbf]
    omega
  · simp only [Bool.and_eq_true, decide_eq_true_eq, UInt8.le_iff_toNat_le, h80, h8f]
    omega
  · rw [isContinuation_iff]
    omega

theorem between_iff {low high b : UInt8} :
    (decide (low ≤ b) && decide (b ≤ high)) = true
      ↔ low.toNat ≤ b.toNat ∧ b.toNat ≤ high.toNat := by
  simp only [Bool.and_eq_true, decide_eq_true_eq, UInt8.le_iff_toNat_le]

theorem isValidChar_of_lt {n : Nat} (h : n < 0xD800) : n.isValidChar := .inl h

theorem isValidChar_of_gt {n : Nat} (h : 0xDFFF < n) (h' : n < 0x110000) : n.isValidChar :=
  .inr ⟨h, h'⟩

/-- A character is encoded by the bytes it was read from. -/
theorem encode_utf8Front {b : UInt8} {rest : List UInt8} {width code : Nat}
    (h : utf8Front b rest = .char width code) :
    code.isValidChar ∧ String.utf8EncodeChar (Char.ofNat code) = (b :: rest).take width := by
  have hb := b.toNat_lt
  have hcont0 := isContinuation_ascii (show (0 : UInt8) < 128 by decide)
  unfold utf8Front at h
  dsimp only at h
  split_ifs at h with h1 h2 h2c h3 h3c h3d h4 h4c h4d h4e
  · -- one byte
    cases h
    rw [UInt8.lt_iff_toNat_lt] at h1
    have h1 : b.toNat < 128 := h1
    have hvalid : b.toNat.isValidChar := isValidChar_of_lt (by omega)
    rw [utf8EncodeChar_ofNat hvalid, if_pos (by omega), UInt8.ofNat_toNat]
    exact ⟨hvalid, rfl⟩
  · -- two bytes
    cases h
    obtain ⟨c, more, rfl⟩ : ∃ c more, rest = c :: more := by
      cases rest with
      | nil =>
          rw [List.getD_nil, hcont0] at h2c
          cases h2c
      | cons c more => exact ⟨c, more, rfl⟩
    rw [List.getD_cons_zero, isContinuation_iff] at h2c
    obtain ⟨hlow, hhigh⟩ : 0xC2 ≤ b.toNat ∧ b.toNat ≤ 0xDF := between_iff.mp h2
    rw [List.getD_cons_zero]
    have hvalid : (b.toNat % 32 * 64 + c.toNat % 64).isValidChar := isValidChar_of_lt (by omega)
    rw [utf8EncodeChar_ofNat hvalid, if_neg (by omega), if_pos (by omega),
      ofNat_eq_of_toNat (b := b) (by omega), ofNat_eq_of_toNat (b := c) (by omega)]
    exact ⟨hvalid, rfl⟩
  · -- three bytes
    cases h
    obtain ⟨c, d, more, rfl⟩ : ∃ c d more, rest = c :: d :: more := by
      match rest, h3d with
      | [], h3d => simp [hcont0] at h3d
      | [c], h3d => simp [hcont0] at h3d
      | c :: d :: more, _ => exact ⟨c, d, more, rfl⟩
    simp only [List.getD_cons_zero, List.getD_cons_succ, Bool.not_eq_true', Bool.not_eq_false]
      at h3c h3d ⊢
    rw [secondOfThree_iff] at h3c
    rw [isContinuation_iff] at h3d
    obtain ⟨hlow, hhigh⟩ : 0xE0 ≤ b.toNat ∧ b.toNat ≤ 0xEF := between_iff.mp h3
    have hvalid : ((b.toNat % 16 * 64 + c.toNat % 64) * 64 + d.toNat % 64).isValidChar := by
      by_cases hed : b.toNat ≤ 0xED
      · exact isValidChar_of_lt (by omega)
      · exact isValidChar_of_gt (by omega) (by omega)
    rw [utf8EncodeChar_ofNat hvalid, if_neg (by omega), if_neg (by omega), if_pos (by omega),
      ofNat_eq_of_toNat (b := b) (by omega), ofNat_eq_of_toNat (b := c) (by omega),
      ofNat_eq_of_toNat (b := d) (by omega)]
    exact ⟨hvalid, rfl⟩
  · -- four bytes
    cases h
    obtain ⟨c, d, e, more, rfl⟩ : ∃ c d e more, rest = c :: d :: e :: more := by
      match rest, h4e with
      | [], h4e => simp [hcont0] at h4e
      | [c], h4e => simp [hcont0] at h4e
      | [c, d], h4e => simp [hcont0] at h4e
      | c :: d :: e :: more, _ => exact ⟨c, d, e, more, rfl⟩
    simp only [List.getD_cons_zero, List.getD_cons_succ, Bool.not_eq_true', Bool.not_eq_false]
      at h4c h4d h4e ⊢
    rw [secondOfFour_iff] at h4c
    rw [isContinuation_iff] at h4d h4e
    obtain ⟨hlow, hhigh⟩ : 0xF0 ≤ b.toNat ∧ b.toNat ≤ 0xF4 := between_iff.mp h4
    have hvalid : (((b.toNat % 8 * 64 + c.toNat % 64) * 64 + d.toNat % 64) * 64
        + e.toNat % 64).isValidChar := isValidChar_of_gt (by omega) (by omega)
    rw [utf8EncodeChar_ofNat hvalid, if_neg (by omega), if_neg (by omega), if_neg (by omega),
      ofNat_eq_of_toNat (b := b) (by omega), ofNat_eq_of_toNat (b := c) (by omega),
      ofNat_eq_of_toNat (b := d) (by omega), ofNat_eq_of_toNat (b := e) (by omega)]
    exact ⟨hvalid, rfl⟩

theorem not_between {low high b : UInt8} (h : b.toNat < low.toNat ∨ high.toNat < b.toNat) :
    ¬ (decide (low ≤ b) && decide (b ≤ high)) = true := by
  rw [between_iff]
  omega

theorem not_lt_128 {b : UInt8} (h : 128 ≤ b.toNat) : ¬ b < 128 := by
  rw [UInt8.not_lt, UInt8.le_iff_toNat_le]
  exact h

theorem utf8Front_two {b c : UInt8} (hlow : 0xC2 ≤ b.toNat) (hhigh : b.toNat ≤ 0xDF)
    (hc : isContinuation c = true) (more : List UInt8) :
    utf8Front b (c :: more) = .char 2 (b.toNat % 32 * 64 + c.toNat % 64) := by
  have h2 : (decide (0xC2 ≤ b) && decide (b ≤ 0xDF)) = true := between_iff.mpr ⟨hlow, hhigh⟩
  unfold utf8Front
  dsimp only
  rw [if_neg (not_lt_128 (by omega)), if_pos h2, List.getD_cons_zero, if_pos hc]

theorem utf8Front_three {b c d : UInt8} (hlow : 0xE0 ≤ b.toNat) (hhigh : b.toNat ≤ 0xEF)
    (hc : secondOfThree b c = true) (hd : isContinuation d = true) (more : List UInt8) :
    utf8Front b (c :: d :: more)
      = .char 3 ((b.toNat % 16 * 64 + c.toNat % 64) * 64 + d.toNat % 64) := by
  have h2 : ¬ (decide (0xC2 ≤ b) && decide (b ≤ 0xDF)) = true :=
    not_between (.inr (show 0xDF < b.toNat by omega))
  have h3 : (decide (0xE0 ≤ b) && decide (b ≤ 0xEF)) = true := between_iff.mpr ⟨hlow, hhigh⟩
  unfold utf8Front
  dsimp only
  rw [if_neg (not_lt_128 (by omega)), if_neg h2, if_pos h3]
  simp [hc, hd]

theorem utf8Front_four {b c d e : UInt8} (hlow : 0xF0 ≤ b.toNat) (hhigh : b.toNat ≤ 0xF4)
    (hc : secondOfFour b c = true) (hd : isContinuation d = true) (he : isContinuation e = true)
    (more : List UInt8) :
    utf8Front b (c :: d :: e :: more)
      = .char 4 (((b.toNat % 8 * 64 + c.toNat % 64) * 64 + d.toNat % 64) * 64 + e.toNat % 64) := by
  have h2 : ¬ (decide (0xC2 ≤ b) && decide (b ≤ 0xDF)) = true :=
    not_between (.inr (show 0xDF < b.toNat by omega))
  have h3 : ¬ (decide (0xE0 ≤ b) && decide (b ≤ 0xEF)) = true :=
    not_between (.inr (show 0xEF < b.toNat by omega))
  have h4 : (decide (0xF0 ≤ b) && decide (b ≤ 0xF4)) = true := between_iff.mpr ⟨hlow, hhigh⟩
  unfold utf8Front
  dsimp only
  rw [if_neg (not_lt_128 (by omega)), if_neg h2, if_neg h3, if_pos h4]
  simp [hc, hd, he]

theorem toNat_of_ofNat_eq {n : Nat} {b : UInt8} (h : UInt8.ofNat n = b) (hn : n < 256) :
    b.toNat = n := by
  rw [← h, UInt8.toNat_ofNat']
  exact Nat.mod_eq_of_lt hn

/-- And it is read from the bytes that encode it. -/
theorem utf8Front_encode {b : UInt8} {rest more : List UInt8} {c : Char}
    (h : String.utf8EncodeChar c ++ more = b :: rest) :
    ∃ width, utf8Front b rest = .char width c.toNat := by
  have hvalid : c.toNat.isValidChar := c.valid
  have hrange : c.toNat < 0xD800 ∨ (0xDFFF < c.toNat ∧ c.toNat < 0x110000) := hvalid
  rw [← Char.ofNat_toNat c, utf8EncodeChar_ofNat hvalid] at h
  generalize c.toNat = n at h hrange
  split_ifs at h with h1 h2 h3 <;> simp only [List.cons_append, List.nil_append] at h
  · -- one byte
    obtain ⟨hb, -⟩ := List.cons.inj h
    have hb := toNat_of_ofNat_eq hb (by omega)
    refine ⟨1, ?_⟩
    unfold utf8Front
    dsimp only
    rw [if_pos (by rw [UInt8.lt_iff_toNat_lt, hb]; exact Nat.lt_succ_of_le h1), hb]
  · -- two bytes
    obtain ⟨hb, hrest⟩ := List.cons.inj h
    have hb := toNat_of_ofNat_eq hb (by omega)
    subst hrest
    have hc := toNat_of_ofNat_eq (rfl : UInt8.ofNat (n % 64 + 128) = _) (by omega)
    refine ⟨2, ?_⟩
    rw [utf8Front_two (by omega) (by omega) (isContinuation_iff.mpr (by omega)), hb, hc]
    congr 1
    omega
  · -- three bytes
    obtain ⟨hb, hrest⟩ := List.cons.inj h
    have hb := toNat_of_ofNat_eq hb (by omega)
    subst hrest
    have hc := toNat_of_ofNat_eq (rfl : UInt8.ofNat (n / 64 % 64 + 128) = _) (by omega)
    have hd := toNat_of_ofNat_eq (rfl : UInt8.ofNat (n % 64 + 128) = _) (by omega)
    refine ⟨3, ?_⟩
    rw [utf8Front_three (by omega) (by omega) (secondOfThree_iff.mpr (by omega))
      (isContinuation_iff.mpr (by omega)), hb, hc, hd]
    congr 1
    omega
  · -- four bytes
    obtain ⟨hb, hrest⟩ := List.cons.inj h
    have hb := toNat_of_ofNat_eq hb (by omega)
    subst hrest
    have hc := toNat_of_ofNat_eq (rfl : UInt8.ofNat (n / 4096 % 64 + 128) = _) (by omega)
    have hd := toNat_of_ofNat_eq (rfl : UInt8.ofNat (n / 64 % 64 + 128) = _) (by omega)
    have he := toNat_of_ofNat_eq (rfl : UInt8.ofNat (n % 64 + 128) = _) (by omega)
    refine ⟨4, ?_⟩
    rw [utf8Front_four (by omega) (by omega) (secondOfFour_iff.mpr (by omega))
      (isContinuation_iff.mpr (by omega)) (isContinuation_iff.mpr (by omega)), hb, hc, hd, he]
    congr 1
    omega

/-! ## The bytes of the text -/

/-- The bytes of the text that a byte string is read as. -/
@[grind =] def lossyBytes (s : List UInt8) : List UInt8 := toUtf8 (String.ofList (lossy s))

theorem lossyBytes_nil : lossyBytes [] = [] := by
  rw [lossyBytes, toUtf8_ofList]
  rfl

theorem width_pos (b : UInt8) (rest : List UInt8) : 0 < (utf8Front b rest).width := by
  unfold utf8Front
  dsimp only
  split_ifs <;> simp [Utf8Front.width]

theorem lossyBytes_cons (b : UInt8) (rest : List UInt8) :
    lossyBytes (b :: rest) = String.utf8EncodeChar (utf8Front b rest).decoded
      ++ lossyBytes ((b :: rest).drop (utf8Front b rest).width) := by
  have hdrop : (b :: rest).drop (utf8Front b rest).width
      = rest.drop ((utf8Front b rest).width - 1) := by
    have hpos := width_pos b rest
    conv_lhs => rw [show (utf8Front b rest).width = ((utf8Front b rest).width - 1) + 1 by omega]
    rfl
  rw [hdrop]
  simp only [lossyBytes, toUtf8_ofList]
  rw [lossy_cons, List.flatMap_cons]

theorem encode_replacement : String.utf8EncodeChar replacement = [0xEF, 0xBF, 0xBD] := by
  decide

/-- A character is kept as it is. -/
theorem lossyBytes_char {b : UInt8} {rest : List UInt8} {width code : Nat}
    (h : utf8Front b rest = .char width code) :
    lossyBytes (b :: rest) = (b :: rest).take width ++ lossyBytes ((b :: rest).drop width) := by
  obtain ⟨-, hencode⟩ := encode_utf8Front h
  rw [lossyBytes_cons, h]
  show String.utf8EncodeChar (Char.ofNat code) ++ _ = _
  rw [hencode]
  rfl

theorem lossyBytes_invalid {b : UInt8} {rest : List UInt8} {width : Nat}
    (h : utf8Front b rest = .invalid width) :
    lossyBytes (b :: rest) = [0xEF, 0xBF, 0xBD] ++ lossyBytes ((b :: rest).drop width) := by
  rw [lossyBytes_cons, h]
  show String.utf8EncodeChar replacement ++ _ = _
  rw [encode_replacement]
  rfl

/-- A replacement is at least as long as what it replaces. -/
theorem length_le_lossyBytes (s : List UInt8) : s.length ≤ (lossyBytes s).length := by
  induction hlen : s.length using Nat.strongRecOn generalizing s with
  | ind n ih =>
      cases s with
      | nil => exact hlen ▸ Nat.zero_le _
      | cons b rest =>
          have hpos := width_pos b rest
          have hle := width_le b rest
          have hthree : ∀ width, utf8Front b rest = .invalid width → width ≤ 3 := by
            intro width h
            unfold utf8Front at h
            dsimp only at h
            split_ifs at h <;> cases h <;> omega
          have hshort : ((b :: rest).drop (utf8Front b rest).width).length < n := by
            rw [← hlen, List.length_drop, List.length_cons]
            omega
          have hrest := ih _ hshort _ rfl
          rw [List.length_drop, hlen] at hrest
          cases hfront : utf8Front b rest with
          | char width code =>
              rw [hfront, Utf8Front.width] at hrest hpos hle
              rw [lossyBytes_char hfront, List.length_append, List.length_take, hlen]
              omega
          | invalid width =>
              have hwidth := hthree width hfront
              rw [hfront, Utf8Front.width] at hrest
              rw [lossyBytes_invalid hfront, List.length_append]
              simp only [List.length_cons, List.length_nil]
              omega

/-! ## What a cut keeps -/

@[grind =] def encodeChars (cs : List Char) : List UInt8 := cs.flatMap String.utf8EncodeChar

/-- The first bytes are UTF-8, except that they may break off inside a
character, or inside the replacement of what is none. -/
def KeptUpTo (n : Nat) (s : List UInt8) : Prop :=
  ∃ text : List Char, encodeChars text <+: s
    ∧ (min s.length n ≤ (encodeChars text).length
      ∨ (n = (encodeChars text).length + 1 ∧ encodeChars text ++ [0xEF] <+: s)
      ∨ (n = (encodeChars text).length + 2 ∧ encodeChars text ++ [0xEF, 0xBF] <+: s))

theorem length_take_width {b : UInt8} {rest : List UInt8} :
    ((b :: rest).take (utf8Front b rest).width).length = (utf8Front b rest).width := by
  have hle := width_le b rest
  have hpos := width_pos b rest
  rw [List.length_take, List.length_cons]
  omega

/-- The first character of a text in front of the bytes is what stands there. -/
theorem encode_eq_take {b : UInt8} {rest : List UInt8} {width code : Nat}
    (h : utf8Front b rest = .char width code) {c : Char} {text : List Char}
    (hahead : encodeChars (c :: text) <+: b :: rest) :
    String.utf8EncodeChar c = (b :: rest).take width := by
  obtain ⟨more, hmore⟩ := hahead
  rw [encodeChars, List.flatMap_cons, List.append_assoc] at hmore
  obtain ⟨width', hfront⟩ := utf8Front_encode hmore
  rw [h] at hfront
  cases hfront
  obtain ⟨-, hencode⟩ := encode_utf8Front h
  rw [Char.ofNat_toNat] at hencode
  exact hencode

theorem not_char_ahead {b : UInt8} {rest : List UInt8} {width : Nat}
    (h : utf8Front b rest = .invalid width) {c : Char} {text : List Char} :
    ¬ encodeChars (c :: text) <+: b :: rest := by
  rintro ⟨more, hmore⟩
  rw [encodeChars, List.flatMap_cons, List.append_assoc] at hmore
  obtain ⟨width', hfront⟩ := utf8Front_encode hmore
  rw [h] at hfront
  cases hfront

/-- The bytes of a replacement character need a third byte. -/
theorem utf8Front_EF {rest : List UInt8} {width code : Nat}
    (h : utf8Front 0xEF rest = .char width code) : width = 3 ∧ 2 ≤ rest.length := by
  have hle := width_le 0xEF rest
  unfold utf8Front at h
  dsimp only at h
  rw [if_neg (by decide), if_neg (by decide), if_pos (by decide)] at h
  split_ifs at h with hc hd
  cases h
  refine ⟨rfl, ?_⟩
  match rest, hd with
  | [], hd => exact absurd hd (by decide)
  | [c], hd => exact absurd hd (by simp [isContinuation_ascii])
  | c :: d :: more, _ => simp

/-- A valid start of a text goes on behind its first character. -/
theorem keptUpTo_char {b : UInt8} {rest : List UInt8} {width code n : Nat}
    (h : utf8Front b rest = .char width code) (hn : width < n) :
    KeptUpTo n (b :: rest) ↔ KeptUpTo (n - width) ((b :: rest).drop width) := by
  obtain ⟨-, hencode⟩ := encode_utf8Front h
  have hwidth : (utf8Front b rest).width = width := by rw [h]; rfl
  have hlen := @length_take_width b rest
  have hle := width_le b rest
  have hpos := width_pos b rest
  rw [hwidth] at hlen hle hpos
  have hsplit : (b :: rest).take width ++ (b :: rest).drop width = b :: rest :=
    List.take_append_drop width (b :: rest)
  have hdrop : ((b :: rest).drop width).length = (b :: rest).length - width := List.length_drop
  have htotal : width ≤ (b :: rest).length := by rw [List.length_cons]; omega
  -- one character more or less in front of the text
  have hfront : ∀ (text : List Char) (c : Char) (tail : List UInt8),
      String.utf8EncodeChar c = (b :: rest).take width →
      (encodeChars (c :: text) ++ tail <+: b :: rest
        ↔ encodeChars text ++ tail <+: (b :: rest).drop width) := by
    intro text c tail hc
    conv_lhs => rw [← hsplit]
    rw [encodeChars, List.flatMap_cons, hc, List.append_assoc, List.prefix_append_right_inj]
    rfl
  have hsize : ∀ (text : List Char) (c : Char), String.utf8EncodeChar c = (b :: rest).take width →
      (encodeChars (c :: text)).length = width + (encodeChars text).length := by
    intro text c hc
    rw [encodeChars, List.flatMap_cons, hc, List.length_append, hlen]
    rfl
  constructor
  · rintro ⟨text, hahead, hcases⟩
    cases text with
    | nil =>
        -- the cut would fall into the first character
        exfalso
        rcases hcases with hmin | ⟨hn1, hef⟩ | ⟨hn2, hef⟩
        · simp only [encodeChars, List.flatMap_nil, List.length_nil, List.length_cons] at hmin
          omega
        · simp only [encodeChars, List.flatMap_nil, List.length_nil] at hn1
          omega
        · obtain ⟨more, hmore⟩ := hef
          have hb : b = 0xEF := (List.cons.inj hmore).1.symm
          subst hb
          have hthree := (utf8Front_EF h).1
          simp only [encodeChars, List.flatMap_nil, List.length_nil] at hn2
          omega
    | cons c text =>
        have hc := encode_eq_take h hahead
        have hahead' := (hfront text c [] hc).mp (by rwa [List.append_nil])
        rw [List.append_nil] at hahead'
        refine ⟨text, hahead', ?_⟩
        rw [hsize text c hc] at hcases
        rcases hcases with hmin | ⟨hn1, hef⟩ | ⟨hn2, hef⟩
        · exact .inl (by rw [hdrop]; omega)
        · exact .inr (.inl ⟨by omega, (hfront text c _ hc).mp hef⟩)
        · exact .inr (.inr ⟨by omega, (hfront text c _ hc).mp hef⟩)
  · rintro ⟨text, hahead, hcases⟩
    have hahead' := (hfront text (Char.ofNat code) [] hencode).mpr (by rwa [List.append_nil])
    rw [List.append_nil] at hahead'
    refine ⟨Char.ofNat code :: text, hahead', ?_⟩
    rw [hsize text _ hencode]
    rcases hcases with hmin | ⟨hn1, hef⟩ | ⟨hn2, hef⟩
    · rw [hdrop] at hmin
      exact .inl (by omega)
    · exact .inr (.inl ⟨by omega, (hfront text _ _ hencode).mpr hef⟩)
    · exact .inr (.inr ⟨by omega, (hfront text _ _ hencode).mpr hef⟩)

/-- Before an invalid byte only a cut inside the replacement keeps anything. -/
theorem keptUpTo_invalid {b : UInt8} {rest : List UInt8} {width n : Nat}
    (h : utf8Front b rest = .invalid width) :
    KeptUpTo n (b :: rest) ↔ n = 0 ∨ (n = 1 ∧ [0xEF] <+: b :: rest)
      ∨ (n = 2 ∧ [0xEF, 0xBF] <+: b :: rest) := by
  constructor
  · rintro ⟨text, hahead, hcases⟩
    cases text with
    | nil =>
        rcases hcases with hmin | hone | htwo
        · simp only [encodeChars, List.flatMap_nil, List.length_nil, List.length_cons] at hmin
          exact .inl (by omega)
        · exact .inr (.inl hone)
        · exact .inr (.inr htwo)
    | cons c text => exact absurd hahead (not_char_ahead h)
  · intro hcases
    refine ⟨[], List.nil_prefix, ?_⟩
    rcases hcases with hzero | hone | htwo
    · exact .inl (by simp [hzero])
    · exact .inr (.inl hone)
    · exact .inr (.inr htwo)

/-- A replacement is not what was replaced. -/
theorem not_replacement_ahead {b : UInt8} {rest : List UInt8} {width : Nat}
    (h : utf8Front b rest = .invalid width) : ¬ [0xEF, 0xBF, 0xBD] <+: b :: rest := by
  rintro ⟨more, hmore⟩
  have hfront := utf8Front_three (b := 0xEF) (c := 0xBF) (d := 0xBD) (by decide) (by decide)
    (by decide) (by decide) more
  simp only [List.cons_append, List.nil_append] at hmore
  obtain ⟨rfl, rfl⟩ := List.cons.inj hmore
  rw [hfront] at h
  cases h

theorem take_replacement {s more : List UInt8} {n : Nat}
    (hnot : ¬ [0xEF, 0xBF, 0xBD] <+: s) :
    ([0xEF, 0xBF, 0xBD] ++ more).take n = s.take n
      ↔ n = 0 ∨ (n = 1 ∧ [0xEF] <+: s) ∨ (n = 2 ∧ [0xEF, 0xBF] <+: s) := by
  have hahead : ∀ l : List UInt8, l <+: s ↔ s.take l.length = l := by
    intro l
    rw [List.prefix_iff_eq_take, eq_comm]
  match n with
  | 0 => simp
  | 1 => simp [hahead, eq_comm]
  | 2 => simp [hahead, eq_comm]
  | n + 3 =>
      constructor
      · intro heq
        refine absurd ?_ hnot
        have htake : [0xEF, 0xBF, 0xBD] <+: s.take (n + 3) := by
          rw [← heq]
          exact ⟨more.take n, by simp⟩
        exact htake.trans (List.take_prefix _ _)
      · rintro (hzero | ⟨hone, -⟩ | ⟨htwo, -⟩)
        · cases hzero
        · omega
        · omega

/-- The first bytes survive exactly if they are kept. -/
theorem take_lossyBytes_iff (n : Nat) (s : List UInt8) :
    (lossyBytes s).take n = s.take n ↔ KeptUpTo n s := by
  -- Sequence by sequence, on the length of the bytes that are left.
  induction hlen : s.length using Nat.strongRecOn generalizing n s with
  | ind m ih =>
      cases s with
      | nil =>
          rw [lossyBytes_nil]
          exact iff_of_true rfl ⟨[], List.nil_prefix, .inl (by simp)⟩
      | cons b rest =>
          have hpos := width_pos b rest
          have hle := width_le b rest
          cases hfront : utf8Front b rest with
          | invalid width =>
              rw [lossyBytes_invalid hfront, keptUpTo_invalid hfront]
              exact take_replacement (not_replacement_ahead hfront)
          | char width code =>
              have hwidth : (utf8Front b rest).width = width := by rw [hfront]; rfl
              have htake := @length_take_width b rest
              rw [hwidth] at hpos hle htake
              rw [lossyBytes_char hfront]
              by_cases hn : width < n
              · have hshort : ((b :: rest).drop width).length < m := by
                  rw [← hlen, List.length_drop, List.length_cons]
                  omega
                have hrest := ih _ hshort (n - width) ((b :: rest).drop width) rfl
                rw [keptUpTo_char hfront hn, ← hrest, List.take_append, htake,
                  List.take_of_length_le (by rw [htake]; omega)]
                conv_lhs =>
                  rhs
                  rw [← List.take_append_drop width (b :: rest), List.take_append, htake,
                    List.take_of_length_le (by rw [htake]; omega)]
                exact List.append_right_inj _
              · -- what is taken ends within this character
                refine iff_of_true ?_ ?_
                · rw [List.take_append_of_le_length (by rw [htake]; omega), List.take_take,
                    Nat.min_eq_left (by omega)]
                · obtain ⟨-, hencode⟩ := encode_utf8Front hfront
                  have htext : encodeChars [Char.ofNat code] = (b :: rest).take width := by
                    rw [encodeChars, List.flatMap_cons, hencode, List.flatMap_nil, List.append_nil]
                  refine ⟨[Char.ofNat code], ?_, .inl ?_⟩
                  · rw [htext]
                    exact List.take_prefix _ _
                  · rw [htext, htake]
                    omega

end GovFuzz.Lib
