import GovFuzz.Lib.Bytes

/-!
# Lib — pieces one after the other

A reader takes a value from the front of a list and returns the rest.  Here:
a piece of bytes behind its length, a given number of values, as many values
as there are to the end, and values with a separator between them; and what
they read of a list that was written value by value.
-/

namespace GovFuzz.Lib

variable {α β : Type}

/-- A piece of one byte or more, behind its length in `width` bytes. -/
def readPiece (width : Nat) (toNat : List UInt8 → Nat) (bytes : List UInt8) :
    Option (List UInt8 × List UInt8) :=
  let length := toNat (bytes.take width)
  let rest := bytes.drop width
  if bytes.length < width ∨ length = 0 ∨ rest.length < length then none
  else some (rest.take length, rest.drop length)

theorem readPiece_append {width : Nat} {toNat : List UInt8 → Nat}
    {header piece : List UInt8} (hheader : header.length = width)
    (hlength : toNat header = piece.length) (hpiece : piece ≠ []) (rest : List UInt8) :
    readPiece width toNat (header ++ piece ++ rest) = some (piece, rest) := by
  have hpos := List.length_pos_iff.mpr hpiece
  have htake : (header ++ piece ++ rest).take width = header := by
    rw [List.append_assoc, List.take_left' hheader]
  have hdrop : (header ++ piece ++ rest).drop width = piece ++ rest := by
    rw [List.append_assoc, List.drop_left' hheader]
  have hroom : ¬ ((header ++ piece ++ rest).length < width ∨ piece.length = 0
      ∨ (piece ++ rest).length < piece.length) := by
    simp only [List.length_append]
    omega
  simp only [readPiece, htake, hdrop, hlength]
  rw [if_neg hroom, List.take_left, List.drop_left]

section
variable (read : List β → Option (α × List β))

/-- So many values, and the rest. -/
def readExactly : Nat → List β → Option (List α × List β)
  | 0, l => some ([], l)
  | n + 1, l => do
      let (a, l) ← read l
      let (as, l) ← readExactly n l
      return (a :: as, l)

/-- Values to the end of the list, each of at least one element. -/
def readAll : (fuel : Nat) → List β → Option (List α)
  | _, [] => some []
  | 0, _ :: _ => none
  | fuel + 1, l => do
      let (a, l) ← read l
      let as ← readAll fuel l
      return a :: as

def readToEnd (l : List β) : Option (List α) := readAll read l.length l

/-- A value, and another behind every separator. -/
def readSeparated [DecidableEq β] (separator : β) : (fuel : Nat) → List β →
    Option (List α × List β)
  | 0, _ => none
  | fuel + 1, l => do
      let (a, l) ← read l
      match l with
      | [] => return ([a], [])
      | b :: l =>
          if b = separator then do
            let (as, l) ← readSeparated separator fuel l
            return (a :: as, l)
          else return ([a], b :: l)

end

/-- Values with a separator between them. -/
def separated (write : α → List β) (separator : β) : List α → List β
  | [] => []
  | a :: as => write a ++ as.flatMap fun a => separator :: write a

@[simp] theorem separated_singleton (write : α → List β) (separator : β) (a : α) :
    separated write separator [a] = write a := by
  simp [separated]

theorem separated_cons_cons (write : α → List β) (separator : β) (a b : α) (as : List α) :
    separated write separator (a :: b :: as)
      = write a ++ separator :: separated write separator (b :: as) := by
  simp [separated]

theorem separated_concat (write : α → List β) (separator : β) {as : List α} (hne : as ≠ [])
    (a : α) : separated write separator (as ++ [a])
      = separated write separator as ++ separator :: write a := by
  cases as with
  | nil => exact absurd rfl hne
  | cons b as => simp [separated]

theorem length_le_separated {write : α → List β} (separator : β) {as : List α}
    (hne : ∀ a ∈ as, write a ≠ []) : as.length ≤ (separated write separator as).length := by
  induction as with
  | nil => simp
  | cons a as ih =>
      have hfirst := List.length_pos_iff.mpr (hne a List.mem_cons_self)
      have hothers := ih fun b hb => hne b (List.mem_cons_of_mem a hb)
      cases as with
      | nil =>
          rw [separated_singleton]
          exact hfirst
      | cons b as =>
          rw [separated_cons_cons]
          simp only [List.length_cons, List.length_append] at hothers ⊢
          omega

section
variable {read : List β → Option (α × List β)} {write : α → List β}

theorem readExactly_flatMap {as : List α}
    (h : ∀ a ∈ as, ∀ rest, read (write a ++ rest) = some (a, rest)) (rest : List β) :
    readExactly read as.length (as.flatMap write ++ rest) = some (as, rest) := by
  induction as with
  | nil => rfl
  | cons a as ih =>
      have hfirst := h a List.mem_cons_self (as.flatMap write ++ rest)
      have hothers := ih fun b hb => h b (List.mem_cons_of_mem a hb)
      simp [readExactly, hfirst, hothers]

theorem readAll_flatMap {as : List α}
    (h : ∀ a ∈ as, ∀ rest, read (write a ++ rest) = some (a, rest))
    (hne : ∀ a ∈ as, write a ≠ []) {fuel : Nat} (hfuel : as.length ≤ fuel) :
    readAll read fuel (as.flatMap write) = some as := by
  induction as generalizing fuel with
  | nil => simp [readAll]
  | cons a as ih =>
      have hothers : ∀ b ∈ as, b ∈ a :: as := fun b hb => List.mem_cons_of_mem a hb
      cases fuel with
      | zero => simp at hfuel
      | succ fuel =>
          have hfirst := h a List.mem_cons_self (as.flatMap write)
          have hrest := ih (fun b hb => h b (hothers b hb)) (fun b hb => hne b (hothers b hb))
            (Nat.le_of_succ_le_succ hfuel)
          cases hwrite : write a with
          | nil => exact absurd hwrite (hne a List.mem_cons_self)
          | cons b l =>
              rw [hwrite] at hfirst
              simp only [List.cons_append] at hfirst
              simp [readAll, hwrite, hfirst, hrest]

theorem length_le_flatMap {as : List α} (hne : ∀ a ∈ as, write a ≠ []) :
    as.length ≤ (as.flatMap write).length := by
  induction as with
  | nil => simp
  | cons a as ih =>
      have hfirst := List.length_pos_iff.mpr (hne a List.mem_cons_self)
      have hrest := ih fun b hb => hne b (List.mem_cons_of_mem a hb)
      simp only [List.length_cons, List.flatMap_cons, List.length_append]
      omega

/-- What was written value by value is read value by value. -/
theorem readToEnd_flatMap {as : List α}
    (h : ∀ a ∈ as, ∀ rest, read (write a ++ rest) = some (a, rest))
    (hne : ∀ a ∈ as, write a ≠ []) : readToEnd read (as.flatMap write) = some as :=
  readAll_flatMap h hne (length_le_flatMap hne)

end

/-- Every value has the property at the offset at which it is written. -/
def AtOffsets (write : α → List β) (P : Nat → α → Prop) : (offset : Nat) → List α → Prop
  | _, [] => True
  | offset, a :: as => P offset a ∧ AtOffsets write P (offset + (write a).length) as

section
variable {write : α → List β} {P : Nat → α → Prop}

theorem AtOffsets.concat {offset : Nat} {as : List α} {a : α} (h : AtOffsets write P offset as)
    (ha : P (offset + (as.flatMap write).length) a) : AtOffsets write P offset (as ++ [a]) := by
  induction as generalizing offset with
  | nil => exact ⟨ha, trivial⟩
  | cons b as ih =>
      refine ⟨h.1, ih h.2 ?_⟩
      rwa [List.flatMap_cons, List.length_append, ← Nat.add_assoc] at ha

theorem AtOffsets.exists_offset {offset : Nat} {as : List α} (h : AtOffsets write P offset as)
    {a : α} (ha : a ∈ as) : ∃ before, P before a := by
  induction as generalizing offset with
  | nil => cases ha
  | cons b as ih =>
      rcases List.mem_cons.mp ha with rfl | ha
      · exact ⟨offset, h.1⟩
      · exact ih h.2 ha

end

/-- What was written with separators is read up to what follows, if that is no
separator.  `Stops` says of what follows a value that the value ends there. -/
theorem readSeparated_separated {γ : Type} [DecidableEq β] {read : List β → Option (γ × List β)}
    {write : α → List β} {value : α → γ} (separator : β) (Stops : List β → Prop) {as : List α}
    (h : ∀ a ∈ as, ∀ rest, Stops rest → read (write a ++ rest) = some (value a, rest))
    (hseparator : ∀ rest, Stops (separator :: rest)) (hne : as ≠ []) {fuel : Nat}
    (hfuel : as.length ≤ fuel) {rest : List β} (hrest : Stops rest)
    (hend : ∀ l, rest ≠ separator :: l) :
    readSeparated read separator fuel (separated write separator as ++ rest)
      = some (as.map value, rest) := by
  induction as generalizing fuel with
  | nil => exact absurd rfl hne
  | cons a as ih =>
      obtain ⟨fuel, rfl⟩ : ∃ m, fuel = m + 1 := ⟨fuel - 1, by simp at hfuel; omega⟩
      cases as with
      | nil =>
          have hread := h a List.mem_cons_self rest hrest
          cases rest with
          | nil =>
              rw [List.append_nil] at hread
              simp [readSeparated, hread]
          | cons b l =>
              have hb : b ≠ separator := by
                rintro rfl
                exact hend l rfl
              simp [readSeparated, hread, hb]
      | cons b as =>
          have hread := h a List.mem_cons_self _
            (hseparator (separated write separator (b :: as) ++ rest))
          have hothers := ih (fun c hc => h c (List.mem_cons_of_mem a hc)) (List.cons_ne_nil b as)
            (Nat.le_of_succ_le_succ hfuel)
          rw [separated_cons_cons, List.append_assoc, List.cons_append]
          simp [readSeparated, hread, hothers]

end GovFuzz.Lib
