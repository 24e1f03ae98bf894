import GovFuzz.Lib.Utf8

/-!
# Lib — command lines

A command declares its long options and has one required positional argument,
and a command line is that argument with occurrences of options behind it.  What a reader of command
lines promises is in `Reads`: the values come back by name in their order,
and a value that looks like an option is refused.  `read` is a reader.
-/

namespace GovFuzz.Lib.CommandLine

open GovFuzz.Lib

/-- How an option is used: without a value, with one, or any number of times. -/
inductive Arity where
  | flag
  | one
  | many
  deriving DecidableEq, Repr

structure Opt where
  name : String
  arity : Arity
  /-- Another option that must be there as well. -/
  requires : Option String
  deriving DecidableEq

abbrev Command := List Opt

/-- An option as it stands on a command line. -/
inductive Occurrence where
  | flag (name : String)
  | value (name : String) (value : List UInt8)
  deriving DecidableEq

/-- `--name`. -/
@[grind =] def long (name : String) : List UInt8 := toUtf8 ("--" ++ name)

namespace Occurrence

@[grind =] def name : Occurrence → String
  | flag name => name
  | value name _ => name

def tokens : Occurrence → List (List UInt8)
  | flag name => [long name]
  | value name v => [long name, v]

def value? (name : String) : Occurrence → Option (List UInt8)
  | flag _ => none
  | value name' v => if name' = name then some v else none

def isFlag (name : String) : Occurrence → Bool
  | flag name' => name' = name
  | value _ _ => false

end Occurrence

/-- What a command finds on its line. -/
structure Matches where
  positional : List UInt8
  values : String → List (List UInt8)
  flags : String → Bool

def matchesOf (positional : List UInt8) (occurrences : List Occurrence) : Matches where
  positional := positional
  values name := occurrences.filterMap (Occurrence.value? name)
  flags name := occurrences.any (Occurrence.isFlag name)

/-- An argument that a reader takes for an option; a single hyphen is none. -/
def HyphenLed (argument : List UInt8) : Prop := argument.head? = some 45 ∧ argument ≠ [45]

instance : DecidablePred HyphenLed :=
  fun argument => inferInstanceAs (Decidable (argument.head? = some 45 ∧ argument ≠ [45]))

/-- Whether an occurrence is one of the command's options, used as declared. -/
def Declared (command : Command) : Occurrence → Prop
  | .flag name => ∃ o ∈ command, o.name = name ∧ o.arity = .flag
  | .value name _ => ∃ o ∈ command, o.name = name ∧ o.arity ≠ .flag

/-- The occurrences use the options as they are declared. -/
structure Admits (command : Command) (occurrences : List Occurrence) : Prop where
  distinct : (command.map Opt.name).Nodup
  declared : ∀ occurrence ∈ occurrences, Declared command occurrence
  once : ∀ o ∈ command, o.arity ≠ .many → (occurrences.map Occurrence.name).count o.name ≤ 1
  required : ∀ o ∈ command, ∀ other, o.requires = some other →
    (∃ occurrence ∈ occurrences, occurrence.name = o.name) →
    ∃ occurrence ∈ occurrences, occurrence.name = other

/-- The positional argument and the values. -/
def arguments (positional : List UInt8) (occurrences : List Occurrence) : List (List UInt8) :=
  positional :: occurrences.filterMap fun
    | .flag _ => none
    | .value _ v => some v

/-- What is documented of a reader of command lines. -/
structure Reads (parse : Command → List (List UInt8) → Option Matches) : Prop where
  accepts : ∀ command positional occurrences, Admits command occurrences →
    (∀ argument ∈ arguments positional occurrences, ¬ HyphenLed argument) →
    parse command (positional :: occurrences.flatMap Occurrence.tokens)
      = some (matchesOf positional occurrences)
  refuses : ∀ command positional occurrences, Admits command occurrences →
    (∃ argument ∈ arguments positional occurrences, HyphenLed argument) →
    parse command (positional :: occurrences.flatMap Occurrence.tokens) = none

/-! ## A reader -/

/-- The occurrences that some tokens spell. -/
@[grind =] def readTokens (command : Command) : List (List UInt8) → Option (List Occurrence)
  | [] => some []
  | token :: rest =>
      match command.find? (fun o => long o.name = token) with
      | none => none
      | some o =>
          match o.arity, rest with
          | .flag, rest => (readTokens command rest).map (.flag o.name :: ·)
          | _, [] => none
          | _, v :: rest =>
              if HyphenLed v then none
              else (readTokens command rest).map (.value o.name v :: ·)

/-- Repeated and missing options are refused. -/
def wellUsed (command : Command) (occurrences : List Occurrence) : Bool :=
  command.all fun o =>
    (o.arity = .many || (occurrences.map Occurrence.name).count o.name ≤ 1)
    && (o.requires.all fun other =>
      !(occurrences.any fun occurrence => occurrence.name = o.name)
        || occurrences.any fun occurrence => occurrence.name = other)

@[grind =] def read (command : Command) : List (List UInt8) → Option Matches
  | [] => none
  | positional :: tokens =>
      if HyphenLed positional then none
      else
        match readTokens command tokens with
        | none => none
        | some occurrences =>
            if wellUsed command occurrences then some (matchesOf positional occurrences) else none

theorem long_inj {a b : String} (h : long a = long b) : a = b := by
  have hread := congrArg fromUtf8 h
  rw [long, long, fromUtf8_toUtf8, fromUtf8_toUtf8] at hread
  exact (String.append_right_inj "--").mp (Option.some.inj hread)

/-- A declared option is found under its name. -/
theorem find_declared {command : Command} (hdistinct : (command.map Opt.name).Nodup) {o : Opt}
    (h : o ∈ command) : command.find? (fun other => long other.name = long o.name) = some o := by
  induction command with
  | nil => cases h
  | cons first command ih =>
      rw [List.map_cons, List.nodup_cons] at hdistinct
      by_cases hname : first.name = o.name
      · rcases List.mem_cons.mp h with rfl | hmem
        · simp
        · exact absurd (List.mem_map_of_mem hmem) (hname ▸ hdistinct.1)
      · have hmem : o ∈ command := by
          rcases List.mem_cons.mp h with rfl | hmem
          · exact absurd rfl hname
          · exact hmem
        have hlong : ¬ long first.name = long o.name := fun heq => hname (long_inj heq)
        rw [List.find?_cons_of_neg (by simpa using hlong)]
        exact ih hdistinct.2 hmem

section

variable {command : Command} (hdistinct : (command.map Opt.name).Nodup)
include hdistinct

theorem readTokens_flag {name : String} (h : Declared command (.flag name))
    (rest : List (List UInt8)) :
    readTokens command (long name :: rest) = (readTokens command rest).map (.flag name :: ·) := by
  obtain ⟨o, hmem, rfl, harity⟩ := h
  rw [readTokens, find_declared hdistinct hmem]
  dsimp only
  rw [harity]

theorem readTokens_value {name : String} {v : List UInt8} (h : Declared command (.value name v))
    (rest : List (List UInt8)) :
    readTokens command (long name :: v :: rest)
      = if HyphenLed v then none else (readTokens command rest).map (.value name v :: ·) := by
  obtain ⟨o, hmem, rfl, harity⟩ := h
  rw [readTokens, find_declared hdistinct hmem]
  dsimp only
  cases hkind : o.arity with
  | flag => exact absurd hkind harity
  | one => rfl
  | many => rfl

/-- The occurrences come back. -/
theorem readTokens_tokens {occurrences : List Occurrence}
    (h : ∀ occurrence ∈ occurrences, Declared command occurrence)
    (hplain : ∀ name v, .value name v ∈ occurrences → ¬ HyphenLed v) :
    readTokens command (occurrences.flatMap Occurrence.tokens) = some occurrences := by
  induction occurrences with
  | nil => rfl
  | cons occurrence occurrences ih =>
      have ih := ih (fun other hmem => h other (List.mem_cons_of_mem _ hmem))
        (fun name v hmem => hplain name v (List.mem_cons_of_mem _ hmem))
      have hfirst := h occurrence List.mem_cons_self
      rw [List.flatMap_cons]
      cases occurrence with
      | flag name =>
          change readTokens command (long name :: occurrences.flatMap Occurrence.tokens) = _
          rw [readTokens_flag hdistinct hfirst, ih]
          rfl
      | value name v =>
          change readTokens command (long name :: v :: occurrences.flatMap Occurrence.tokens) = _
          rw [readTokens_value hdistinct hfirst, ih, if_neg (hplain name v List.mem_cons_self)]
          rfl

/-- One value that looks like an option spoils them all. -/
theorem readTokens_hyphenLed {occurrences : List Occurrence}
    (h : ∀ occurrence ∈ occurrences, Declared command occurrence) {name : String} {v : List UInt8}
    (hmem : .value name v ∈ occurrences) (hled : HyphenLed v) :
    readTokens command (occurrences.flatMap Occurrence.tokens) = none := by
  induction occurrences with
  | nil => cases hmem
  | cons occurrence occurrences ih =>
      have ih := ih (fun other hmem => h other (List.mem_cons_of_mem _ hmem))
      have hfirst := h occurrence List.mem_cons_self
      rw [List.flatMap_cons]
      cases occurrence with
      | flag name' =>
          have hrest : .value name v ∈ occurrences := by simpa using hmem
          change readTokens command (long name' :: occurrences.flatMap Occurrence.tokens) = _
          rw [readTokens_flag hdistinct hfirst, ih hrest]
          rfl
      | value name' v' =>
          change readTokens command (long name' :: v' :: occurrences.flatMap Occurrence.tokens) = _
          rw [readTokens_value hdistinct hfirst]
          split
          · rfl
          · next hplain =>
              have hrest : .value name v ∈ occurrences := by
                rcases List.mem_cons.mp hmem with heq | hrest
                · cases heq
                  exact absurd hled hplain
                · exact hrest
              rw [ih hrest]
              rfl

end

theorem wellUsed_of_admits {command : Command} {occurrences : List Occurrence}
    (h : Admits command occurrences) : wellUsed command occurrences = true := by
  rw [wellUsed, List.all_eq_true]
  intro o hmem
  rw [Bool.and_eq_true]
  constructor
  · by_cases harity : o.arity = .many
    · simp [harity]
    · simpa [harity] using h.once o hmem harity
  · cases hrequires : o.requires with
    | none => rfl
    | some other =>
        have hother := h.required o hmem other hrequires
        simp only [Option.all_some]
        by_cases hused : ∃ occurrence ∈ occurrences, occurrence.name = o.name
        · obtain ⟨occurrence, hin, hname⟩ := hother hused
          rw [Bool.or_eq_true]
          right
          exact List.any_eq_true.mpr ⟨occurrence, hin, decide_eq_true hname⟩
        · rw [Bool.or_eq_true]
          left
          rw [Bool.not_eq_true', List.any_eq_false]
          intro occurrence hin hname
          exact hused ⟨occurrence, hin, of_decide_eq_true hname⟩

theorem mem_arguments {positional argument : List UInt8} {occurrences : List Occurrence} :
    argument ∈ arguments positional occurrences
      ↔ argument = positional ∨ ∃ name, .value name argument ∈ occurrences := by
  rw [arguments, List.mem_cons, List.mem_filterMap]
  apply or_congr_right
  constructor
  · intro h
    obtain ⟨occurrence, hmem, hvalue⟩ := h
    cases occurrence with
    | flag name => cases hvalue
    | value name v =>
        cases hvalue
        exact ⟨name, hmem⟩
  · intro h
    obtain ⟨name, hmem⟩ := h
    exact ⟨_, hmem, rfl⟩

/-- An occurrence without a value that looks like an option. -/
def Occurrence.Plain : Occurrence → Prop
  | .flag _ => True
  | .value _ v => ¬ HyphenLed v

theorem arguments_plain {positional : List UInt8} {occurrences : List Occurrence} :
    (∀ argument ∈ arguments positional occurrences, ¬ HyphenLed argument)
      ↔ ¬ HyphenLed positional ∧ ∀ occurrence ∈ occurrences, occurrence.Plain := by
  constructor
  · intro h
    refine ⟨h positional (mem_arguments.mpr (Or.inl rfl)), ?_⟩
    intro occurrence hmem
    cases occurrence with
    | flag name => trivial
    | value name v => exact h v (mem_arguments.mpr (Or.inr ⟨name, hmem⟩))
  · intro h argument hmem
    rcases mem_arguments.mp hmem with rfl | ⟨name, hin⟩
    · exact h.1
    · exact h.2 _ hin

theorem read_reads : Reads read := by
  constructor
  · intro command positional occurrences hadmits hplain
    have hvalues : ∀ name v, .value name v ∈ occurrences → ¬ HyphenLed v := by
      intro name v hmem
      exact hplain v (mem_arguments.mpr (Or.inr ⟨name, hmem⟩))
    rw [read, if_neg (hplain positional (mem_arguments.mpr (Or.inl rfl))),
      readTokens_tokens hadmits.distinct hadmits.declared hvalues]
    exact if_pos (wellUsed_of_admits hadmits)
  · intro command positional occurrences hadmits hex
    obtain ⟨argument, hmem, hled⟩ := hex
    rw [read]
    split
    · rfl
    · next hplain =>
        rcases mem_arguments.mp hmem with rfl | ⟨name, hin⟩
        · exact absurd hled hplain
        · rw [readTokens_hyphenLed hadmits.distinct hadmits.declared hin hled]

end GovFuzz.Lib.CommandLine
