import GovFuzz.FuzzEngine.MutationInput
import GovFuzz.Lib.Derivation
import GovFuzz.Lib.Except
import GovFuzz.Lib.Utf8

/-!
# Fuzz engine — what a grammar generates

`Grammar::from_rules` and `generate` of
`crates/fuzz_engine/builtin/src/grammar.rs` against the language of the
grammar.  What is generated below `max_len` is a derivation that lacks
nothing but the non-terminals at the recursion cap.
-/

namespace GovFuzz.FuzzEngine

open GovFuzz.Lib

/-! ## Reading a grammar -/

/-- The literal that has been read, if any. -/
def flushLiteral (literal : List UInt8) : List Symbol :=
  if literal = [] then [] else [.literal literal]

/-- The name of a `{NAME}` reference whose brace has just been read. -/
def referenceName (chars : List Char) : Option (List Char) :=
  let name := chars.takeWhile (· ≠ '\x7d')
  if name.length < chars.length ∧ name ≠ [] ∧ name.all (fun c => c.isAlphanum || c = '_') then
    some name
  else none

/-- `skip` characters belong to a reference. -/
def parseFrom : Nat → List UInt8 → List Char → List Symbol
  | _, literal, [] => flushLiteral literal
  | skip + 1, literal, _ :: chars => parseFrom skip literal chars
  | 0, literal, ch :: chars =>
      match if ch = '\x7b' then referenceName chars else none with
      | some name =>
          flushLiteral literal ++
            .nonTerminal (String.ofList name) :: parseFrom (name.length + 1) [] chars
      | none => parseFrom 0 (literal ++ toUtf8 (String.ofList [ch])) chars

/-- The symbols of a production's text. -/
def parseProduction (production : String) : List Symbol := parseFrom 0 [] production.toList

/-- The messages quote the names. -/
inductive GrammarError where
  | noRules
  | noProductions (name : String)
  | undefinedNonTerminal (name nt : String)
  | undefinedStart (start : String)
  deriving DecidableEq

/-- `HashMap::insert`. -/
def insertRule (parsed : List (String × List (List Symbol))) (name : String)
    (alts : List (List Symbol)) : List (String × List (List Symbol)) :=
  (name, alts) :: parsed.filter (·.1 ≠ name)

/-- The rules one after the other; a name may come once. -/
def parseRules (parsed : List (String × List (List Symbol))) :
    List (String × List String) → Except GrammarError (List (String × List (List Symbol)))
  | [] => .ok parsed
  | (name, productions) :: rules =>
      if productions = [] then .error (.noProductions name)
      else parseRules (insertRule parsed name (productions.map parseProduction)) rules

/-- The first rule that is asked for and not there. -/
def undefinedReference (parsed : List (String × List (List Symbol))) : Option GrammarError :=
  parsed.findSome? fun (name, alts) => alts.findSome? fun alt => alt.findSome? fun symbol =>
    match symbol with
    | .literal _ => none
    | .nonTerminal nt =>
        if (parsed.lookup nt).isSome then none else some (.undefinedNonTerminal name nt)

/-- The start that is asked for, else the first rule. -/
def startSymbol (parsed : List (String × List (List Symbol))) (first : String) :
    Option String → Except GrammarError String
  | some start => if (parsed.lookup start).isSome then .ok start else .error (.undefinedStart start)
  | none => .ok (if (parsed.lookup "START").isSome then "START" else first)

/-- The grammar of these rules. -/
def Grammar.fromRules (rules : List (String × List String)) (start : Option String) :
    Except GrammarError Grammar :=
  match rules with
  | [] => .error .noRules
  | (first, _) :: _ => do
      let parsed ← parseRules [] rules
      match undefinedReference parsed with
      | some error => throw error
      | none =>
          let start ← startSymbol parsed first start
          return { rules := parsed, start }

/-! ## What `from_rules` accepts -/

/-- Rules by name. -/
abbrev ParsedRules := List (String × List (List Symbol))

theorem lookup_insertRule (parsed : ParsedRules) (name nt : String) (alts : List (List Symbol)) :
    (insertRule parsed name alts).lookup nt
      = if nt = name then some alts else parsed.lookup nt := by
  have hfilter : nt ≠ name → (parsed.filter (·.1 ≠ name)).lookup nt = parsed.lookup nt := by
    intro hne
    induction parsed with
    | nil => rfl
    | cons entry parsed ih =>
        obtain ⟨other, otherAlts⟩ := entry
        by_cases hentry : other = name
        · have hskip : (nt == other) = false := by simpa [hentry] using hne
          rw [List.filter_cons_of_neg (by simpa using hentry), ih]
          simp only [List.lookup_cons, hskip]
        · rw [List.filter_cons_of_pos (by simpa using hentry)]
          simp only [List.lookup_cons, ih]
  by_cases hname : nt = name
  · simp [insertRule, hname]
  · have hskip : (nt == name) = false := by simpa using hname
    rw [insertRule, List.lookup_cons, hskip, hfilter hname, if_neg hname]

/-- Every rule has a production. -/
def HasProductions (parsed : ParsedRules) : Prop :=
  ∀ nt alts, parsed.lookup nt = some alts → alts ≠ []

theorem parseRules_productions {rules : List (String × List String)} {parsed result : ParsedRules}
    (h : parseRules parsed rules = .ok result) (hparsed : HasProductions parsed) :
    HasProductions result := by
  induction rules generalizing parsed with
  | nil =>
      cases h
      exact hparsed
  | cons rule rules ih =>
      obtain ⟨name, productions⟩ := rule
      unfold parseRules at h
      split at h
      · cases h
      · rename_i hne
        apply ih h
        intro nt alts hlookup
        rw [lookup_insertRule] at hlookup
        split at hlookup
        · cases hlookup
          simpa using hne
        · exact hparsed nt alts hlookup

theorem parseRules_defines {rules : List (String × List String)} {parsed result : ParsedRules}
    (h : parseRules parsed rules = .ok result) {nt : String}
    (hnt : (parsed.lookup nt).isSome ∨ nt ∈ rules.map Prod.fst) : (result.lookup nt).isSome := by
  induction rules generalizing parsed with
  | nil =>
      cases h
      simpa using hnt
  | cons rule rules ih =>
      obtain ⟨name, productions⟩ := rule
      unfold parseRules at h
      split at h
      · cases h
      · apply ih h
        rw [lookup_insertRule]
        by_cases hname : nt = name
        · simp [hname]
        · simpa [hname] using hnt

theorem insertRule_of_fresh {parsed : ParsedRules} {name : String}
    (h : name ∉ parsed.map Prod.fst) (alts : List (List Symbol)) :
    insertRule parsed name alts = (name, alts) :: parsed := by
  rw [insertRule, List.filter_eq_self.mpr]
  intro entry hentry
  have hne : entry.1 ≠ name := fun heq => h (heq ▸ List.mem_map_of_mem hentry)
  simpa using hne

/-- Rules of different names are read one by one, the last first. -/
theorem parseRules_of_nodup {rules : List (String × List String)} {parsed : ParsedRules}
    (hnodup : (rules.map Prod.fst).Nodup)
    (hfresh : ∀ name ∈ rules.map Prod.fst, name ∉ parsed.map Prod.fst)
    (hsome : ∀ rule ∈ rules, rule.2 ≠ []) :
    parseRules parsed rules
      = .ok ((rules.map fun rule => (rule.1, rule.2.map parseProduction)).reverse ++ parsed) := by
  induction rules generalizing parsed with
  | nil => rfl
  | cons rule rules ih =>
      obtain ⟨name, productions⟩ := rule
      rw [List.map_cons, List.nodup_cons] at hnodup
      rw [List.forall_mem_cons] at hsome
      rw [parseRules, if_neg hsome.1, insertRule_of_fresh (hfresh name (by simp)),
        ih hnodup.2 _ hsome.2]
      · simp
      · intro other hother hmem
        rcases List.mem_cons.mp hmem with rfl | hmem
        · exact hnodup.1 hother
        · exact hfresh other (List.mem_cons_of_mem _ hother) hmem

theorem undefinedReference_eq_none {parsed : ParsedRules} (h : undefinedReference parsed = none)
    {nt child : String} {alts : List (List Symbol)} {alt : List Symbol}
    (hlookup : parsed.lookup nt = some alts) (halt : alt ∈ alts)
    (hchild : .nonTerminal child ∈ alt) : (parsed.lookup child).isSome := by
  have hmem : (nt, alts) ∈ parsed := by
    obtain ⟨before, after, heq, -⟩ := List.lookup_eq_some_iff.mp hlookup
    rw [heq]
    simp
  have hnone := List.findSome?_eq_none_iff.mp h _ hmem
  have hsymbols := List.findSome?_eq_none_iff.mp hnone _ halt
  have hsymbol := List.findSome?_eq_none_iff.mp hsymbols _ hchild
  dsimp only at hsymbol
  split at hsymbol
  · assumption
  · cases hsymbol

theorem undefinedReference_of_isSome {parsed : ParsedRules}
    (h : ∀ nt alts alt child, (nt, alts) ∈ parsed → alt ∈ alts → .nonTerminal child ∈ alt →
      (parsed.lookup child).isSome) : undefinedReference parsed = none := by
  refine List.findSome?_eq_none_iff.mpr fun (nt, alts) hmem => ?_
  refine List.findSome?_eq_none_iff.mpr fun alt halt => ?_
  refine List.findSome?_eq_none_iff.mpr fun symbol hsymbol => ?_
  cases symbol with
  | literal bytes => rfl
  | nonTerminal child => exact if_pos (h nt alts alt child hmem halt hsymbol)

namespace Grammar

theorem fromRules_of_parsed {rule : String × List String} {rules : List (String × List String)}
    {parsed : ParsedRules} (hparsed : parseRules [] (rule :: rules) = .ok parsed)
    (hreferences : undefinedReference parsed = none) (hstart : (parsed.lookup "START").isSome) :
    fromRules (rule :: rules) none = .ok ⟨parsed, "START"⟩ := by
  simp only [fromRules, hparsed, bind, Except.bind, hreferences, startSymbol, hstart, if_true]
  rfl

/-- Nothing is referred to that has no productions. -/
structure Closed (grammar : Grammar) : Prop where
  start : (grammar.rules.lookup grammar.start).isSome
  productions : HasProductions grammar.rules
  references : ∀ nt alts alt child, grammar.rules.lookup nt = some alts → alt ∈ alts →
    .nonTerminal child ∈ alt → (grammar.rules.lookup child).isSome

/-- A grammar made from rules has a rule for every nonterminal in it. -/
theorem fromRules_closed {rules : List (String × List String)} {start : Option String}
    {grammar : Grammar} (h : fromRules rules start = .ok grammar) : grammar.Closed := by
  unfold fromRules at h
  split at h
  · cases h
  · rename_i first productions more
    obtain ⟨parsed, hparsed, hrest⟩ := bind_eq_ok.mp h
    split at hrest
    · cases hrest
    · rename_i hundefined
      obtain ⟨symbol, hsymbol, hpure⟩ := bind_eq_ok.mp hrest
      cases hpure
      refine ⟨?_, parseRules_productions hparsed (by simp [HasProductions]), ?_⟩
      · unfold startSymbol at hsymbol
        split at hsymbol
        · split at hsymbol
          · cases hsymbol
            assumption
          · cases hsymbol
        · cases hsymbol
          dsimp only
          split
          · assumption
          · exact parseRules_defines hparsed (Or.inr (by simp))
      · intro nt alts alt child hlookup halt hchild
        exact undefinedReference_eq_none hundefined hlookup halt hchild

end Grammar

/-! ## The language -/

/-- A production as a sentential form. -/
abbrev Form := List (GrammarSymbol UInt8 String)

/-- A symbol as a sentential form. -/
def Symbol.form : Symbol → Form
  | .literal bytes => bytes.map .terminal
  | .nonTerminal name => [.nonterminal name]

/-- An alternative as a sentential form. -/
def formOf (alt : List Symbol) : Form := alt.flatMap Symbol.form

theorem mem_formOf {alt : List Symbol} {name : String} :
    .nonterminal name ∈ formOf alt ↔ .nonTerminal name ∈ alt := by
  simp only [formOf, List.mem_flatMap]
  constructor
  · rintro ⟨symbol, hsymbol, hname⟩
    cases symbol with
    | literal bytes => simp [Symbol.form] at hname
    | nonTerminal other =>
        simp only [Symbol.form, List.mem_singleton, Symbol.nonterminal.injEq] at hname
        rwa [hname]
  · intro hname
    exact ⟨.nonTerminal name, hname, by simp [Symbol.form]⟩

namespace Grammar

/-- The grammar that the rules stand for. -/
def contextFree (grammar : Grammar) : ContextFreeGrammar UInt8 where
  NT := String
  initial := grammar.start
  rules := (grammar.rules.flatMap fun (name, alts) =>
    alts.map fun alt => ContextFreeRule.mk name (formOf alt)).toFinset

/-- The production that `chooseProduction` may take with so many levels left. -/
def MayChoose (levels : Nat) (alts : List (List Symbol)) (alt : List Symbol) : Prop :=
  alt ∈ alts ∧ (levels ≤ collapseMargin → alts.argmin nonterminalCount = some alt)

/-- The forms a name may be replaced by with so many levels left. -/
def Choices (grammar : Grammar) (levels : Nat) (nt : String) (form : Form) : Prop :=
  ∃ alts alt, grammar.rules.lookup nt = some alts ∧ MayChoose levels alts alt ∧ form = formOf alt

theorem choices_mem_rules {grammar : Grammar} (levels : Nat) (nt : String) (form : Form)
    (h : grammar.Choices levels nt form) : ⟨nt, form⟩ ∈ grammar.contextFree.rules := by
  obtain ⟨alts, alt, hlookup, ⟨halt, -⟩, rfl⟩ := h
  obtain ⟨before, after, heq, -⟩ := List.lookup_eq_some_iff.mp hlookup
  have hlisted : (nt, alts) ∈ grammar.rules := by
    rw [heq]
    simp
  have hrule : ContextFreeRule.mk nt (formOf alt) ∈ grammar.rules.flatMap fun (name, alts) =>
      alts.map fun alt => ContextFreeRule.mk name (formOf alt) :=
    List.mem_flatMap.mpr ⟨(nt, alts), hlisted, List.mem_map.mpr ⟨alt, halt, rfl⟩⟩
  have hmem := List.mem_toFinset.mpr hrule
  exact hmem

/-! ## What is generated -/

theorem chooseProduction_mayChoose {levels : Nat} {alts : List (List Symbol)}
    {chosen : Option (List Symbol)} {rng rng' : MutationRng} (halts : alts ≠ [])
    (h : Op.exec (chooseProduction levels alts) rng = (.ok chosen, rng')) :
    ∃ alt, chosen = some alt ∧ MayChoose levels alts alt := by
  unfold chooseProduction at h
  split at h
  · cases h
    cases hmin : alts.argmin nonterminalCount with
    | none => exact absurd (List.argmin_eq_none.mp hmin) halts
    | some alt => exact ⟨alt, rfl, List.argmin_mem hmin, fun _ => hmin⟩
  · rename_i hfar
    obtain ⟨index, mid, hindex, hpure⟩ := Op.exec_bind_eq_ok h
    cases hpure
    have hlen : alts.length ≠ 0 := by simpa using halts
    unfold chooseIndex at hindex
    rw [if_neg hlen] at hindex
    obtain ⟨value, mid', -, hsome⟩ := Op.exec_bind_eq_ok hindex
    cases hsome
    have hlt : value.toNat % alts.length < alts.length := Nat.mod_lt _ (Nat.pos_of_ne_zero hlen)
    refine ⟨alts[value.toNat % alts.length], ?_, List.getElem_mem hlt, fun hnear => ?_⟩
    · exact List.getElem?_eq_getElem hlt
    · exact absurd hnear hfar

/-- From `out` to `out'` with `form`: bytes are appended, and as long as there
was room they are the terminals of a derivation. -/
structure Emits (grammar : Grammar) (maxLen levels : Nat) (form : Form)
    (out out' : List UInt8) : Prop where
  extends_ : out <+: out'
  whole : out'.length < maxLen →
    ∃ inner, Expands grammar.Choices levels form inner ∧ out' = out ++ terminals inner

theorem Emits.full {grammar : Grammar} {maxLen levels : Nat} {form : Form} {out : List UInt8}
    (h : out.length ≥ maxLen) : grammar.Emits maxLen levels form out out where
  extends_ := List.prefix_rfl
  whole := by
    intro hlt
    omega

theorem Emits.trans {grammar : Grammar} {maxLen levels : Nat} {form more : Form}
    {out mid out' : List UInt8} (h : grammar.Emits maxLen levels form out mid)
    (h' : grammar.Emits maxLen levels more mid out') :
    grammar.Emits maxLen levels (form ++ more) out out' where
  extends_ := h.extends_.trans h'.extends_
  whole := by
    intro hlt
    have hle := h'.extends_.length_le
    obtain ⟨inner, hinner, rfl⟩ := h.whole (by omega)
    obtain ⟨behind, hbehind, rfl⟩ := h'.whole hlt
    exact ⟨inner ++ behind, hinner.append hbehind, by
      rw [terminals_append, List.append_assoc]⟩

theorem Emits.literal (grammar : Grammar) (maxLen levels : Nat) (out bytes : List UInt8) :
    grammar.Emits maxLen levels (bytes.map .terminal) out (out ++ bytes) where
  extends_ := List.prefix_append out bytes
  whole := by
    intro _
    exact ⟨_, .of_terminals levels bytes, by rw [terminals_map_terminal]⟩

theorem expandSymbols_emits {grammar : Grammar} {maxLen levels : Nat}
    {expandChild : String → List UInt8 → Mutation (List UInt8)} {alt : List Symbol}
    (hchild : ∀ child out rng out' rng', .nonTerminal child ∈ alt →
      Op.exec (expandChild child out) rng = (.ok out', rng') →
        grammar.Emits maxLen levels [.nonterminal child] out out')
    {out out' : List UInt8} {rng rng' : MutationRng}
    (h : Op.exec (expandSymbols maxLen expandChild alt out) rng = (.ok out', rng')) :
    grammar.Emits maxLen levels (formOf alt) out out' := by
  induction alt generalizing out rng with
  | nil =>
      cases h
      exact ⟨List.prefix_rfl, fun _ => ⟨[], .nil levels, by simp [terminals]⟩⟩
  | cons symbol rest ih =>
      unfold expandSymbols at h
      split at h
      · rename_i hfull
        cases h
        exact .full hfull
      · have hlater := fun child out rng out' rng' hmem =>
          hchild child out rng out' rng' (List.mem_cons_of_mem symbol hmem)
        cases symbol with
        | literal bytes => exact (Emits.literal grammar maxLen levels out bytes).trans (ih hlater h)
        | nonTerminal child =>
            obtain ⟨mid, rngMid, hsymbol, hrest⟩ := Op.exec_bind_eq_ok h
            exact (hchild child out rng mid rngMid List.mem_cons_self hsymbol).trans
              (ih hlater hrest)

/-- What an expansion writes is emitted by the nonterminal within the levels left. -/
theorem expand_emits {grammar : Grammar} (hclosed : grammar.Closed) {maxLen levels : Nat}
    {nt : String} (hnt : (grammar.rules.lookup nt).isSome) {out out' : List UInt8}
    {rng rng' : MutationRng}
    (h : Op.exec (grammar.expand maxLen levels nt out) rng = (.ok out', rng')) :
    grammar.Emits maxLen levels [.nonterminal nt] out out' := by
  induction levels generalizing nt out out' rng rng' with
  | zero =>
      cases h
      exact ⟨List.prefix_rfl, fun _ => ⟨_, .cut nt (.nil 0), by simp [terminals]⟩⟩
  | succ levels ih =>
      unfold expand at h
      split at h
      · rename_i hfull
        cases h
        exact .full hfull
      · obtain ⟨alts, halts⟩ := Option.isSome_iff_exists.mp hnt
        simp only [halts] at h
        obtain ⟨chosen, mid, hchosen, hexpand⟩ := Op.exec_bind_eq_ok h
        obtain ⟨alt, rfl, hmay⟩ :=
          chooseProduction_mayChoose (hclosed.productions nt alts halts) hchosen
        have hemits := expandSymbols_emits (fun child out rng out' rng' hmem =>
          ih (hclosed.references nt alts alt child halts hmay.1 hmem)) hexpand
        refine ⟨hemits.extends_, fun hlt => ?_⟩
        obtain ⟨inner, hinner, rfl⟩ := hemits.whole hlt
        refine ⟨inner ++ [], .expand ⟨alts, alt, halts, hmay, rfl⟩ hinner (.nil _), ?_⟩
        rw [List.append_nil]

/-- The non-terminal can stand at this depth of a derivation. -/
inductive Occurs (grammar : Grammar) : Nat → String → Prop where
  | start : Occurs grammar 0 grammar.start
  | child {depth : Nat} {nt child : String} {alts : List (List Symbol)} {alt : List Symbol}
      (h : Occurs grammar depth nt) (hlookup : grammar.rules.lookup nt = some alts)
      (halt : alt ∈ alts) (hchild : .nonTerminal child ∈ alt) : Occurs grammar (depth + 1) child

/-- Always taking the first production with the fewest non-terminals ends
within so many levels. -/
def collapses (grammar : Grammar) : Nat → String → Bool
  | 0, _ => false
  | levels + 1, nt =>
      match (grammar.rules.lookup nt).bind (·.argmin nonterminalCount) with
      | none => true
      | some alt => alt.all fun symbol => match symbol with
          | .literal _ => true
          | .nonTerminal child => collapses grammar levels child

theorem collapses_choices {grammar : Grammar} {levels : Nat} (hlevels : levels ≤ collapseMargin)
    {nt : String} (h : grammar.collapses levels nt = true) :
    Collapses grammar.Choices levels nt := by
  induction levels generalizing nt with
  | zero => cases h
  | succ levels ih =>
      intro form hchoice child hchild
      obtain ⟨alts, alt, hlookup, ⟨-, hmin⟩, rfl⟩ := hchoice
      simp only [collapses, hlookup, Option.bind_some, hmin hlevels] at h
      rw [mem_formOf] at hchild
      exact ih (by omega) (List.all_eq_true.mp h _ hchild)

theorem occurs_of_reaches {grammar : Grammar} {levels k depth : Nat} {nt below : String}
    (h : Reaches grammar.Choices levels nt k below) (hnt : grammar.Occurs depth nt) :
    grammar.Occurs (depth + levels - k) below := by
  induction h generalizing depth with
  | refl k nt => simpa using hnt
  | @step levels k nt child below form hchoice hmem hreaches ih =>
      obtain ⟨alts, alt, hlookup, ⟨halt, -⟩, rfl⟩ := hchoice
      have hchild := ih (.child hnt hlookup halt (mem_formOf.mp hmem))
      have hdepth : depth + 1 + levels - k = depth + (levels + 1) - k := by omega
      rwa [hdepth] at hchild

theorem Occurs.defined {grammar : Grammar} (hclosed : grammar.Closed) {depth : Nat} {nt : String}
    (h : grammar.Occurs depth nt) : (grammar.rules.lookup nt).isSome := by
  cases h with
  | start => exact hclosed.start
  | child _ hlookup halt hchild => exact hclosed.references _ _ _ _ hlookup halt hchild

/-- What is generated below the limit is a derivation that lacks at most the
non-terminals at the cap; and it lacks none where the margin is enough. -/
theorem generate_derivation {rules : List (String × List String)} {start : Option String}
    {grammar : Grammar} (h : fromRules rules start = .ok grammar) {maxLen : Nat}
    {rng rng' : MutationRng} {out : List UInt8}
    (hgen : Op.exec (grammar.generate maxLen) rng = (.ok out, rng'))
    (hshort : out.length < maxLen) :
    (∃ form, Expands grammar.Choices maxDepth [.nonterminal grammar.start] form ∧
      grammar.contextFree.Derives [.nonterminal grammar.start] form ∧ out = terminals form) ∧
    ((∀ nt, grammar.Occurs (maxDepth - collapseMargin) nt →
        grammar.collapses collapseMargin nt = true) → out ∈ grammar.contextFree.language) := by
  have hclosed := fromRules_closed h
  obtain ⟨whole, mid, hexpand, hrest⟩ := Op.exec_bind_eq_ok hgen
  split at hrest
  · cases hrest
  · -- shorter than the limit, the output is the whole expansion
    cases hrest
    have hle : whole.length < maxLen := by
      rw [List.length_take] at hshort
      omega
    rw [List.take_of_length_le (Nat.le_of_lt hle)]
    obtain ⟨form, hform, hterminals⟩ := (expand_emits hclosed hclosed.start hexpand).whole hle
    rw [List.nil_append] at hterminals
    have hderives := hform.derives (g := grammar.contextFree) choices_mem_rules
    refine ⟨⟨form, hform, hderives, hterminals⟩, fun hcollapses => ?_⟩
    -- every nonterminal that is open at the last levels collapses there
    have hfinished : Finished form := by
      apply hform.finished
      intro nt hnt
      rw [List.mem_singleton, Symbol.nonterminal.injEq] at hnt
      subst hnt
      apply collapses_of_reaches (k := collapseMargin) (j := maxDepth - collapseMargin)
      intro below hbelow
      exact collapses_choices (Nat.le_refl _) (hcollapses below (occurs_of_reaches hbelow .start))
    have hword : (whole.map Symbol.terminal : Form) = form := by
      rw [hterminals]
      exact map_terminal_terminals hfinished
    rw [← hword] at hderives
    exact hderives

/-- A check of every rule answers for all depths. -/
theorem collapses_of_defined {grammar : Grammar} (hclosed : grammar.Closed) {levels : Nat}
    (hall : ∀ rule ∈ grammar.rules, grammar.collapses levels rule.1 = true) {depth : Nat}
    {nt : String} (h : grammar.Occurs depth nt) : grammar.collapses levels nt = true := by
  obtain ⟨alts, halts⟩ := Option.isSome_iff_exists.mp (h.defined hclosed)
  obtain ⟨before, after, heq, -⟩ := List.lookup_eq_some_iff.mp halts
  apply hall (nt, alts)
  rw [heq]
  simp

/-- Sums: a rule that refers to itself, and a way out that `collapses` finds. -/
def sumRules : List (String × List String) :=
  [("START", ["\x7bEXPR\x7d"]), ("EXPR", ["\x7bEXPR\x7d+\x7bTERM\x7d", "\x7bTERM\x7d"]),
    ("TERM", ["1", "2", "(\x7bEXPR\x7d)"])]

def sumGrammar : Grammar where
  rules := [("TERM", [[.literal [49]], [.literal [50]],
      [.literal [40], .nonTerminal "EXPR", .literal [41]]]),
    ("EXPR", [[.nonTerminal "EXPR", .literal [43], .nonTerminal "TERM"], [.nonTerminal "TERM"]]),
    ("START", [[.nonTerminal "EXPR"]])]
  start := "START"

theorem fromRules_sumRules : fromRules sumRules none = .ok sumGrammar := by
  rfl

theorem generate_derivation_sum :
    [50, 43, 50] ∈ sumGrammar.contextFree.language := by
  obtain ⟨rng', hgen⟩ : ∃ rng', Op.exec (sumGrammar.generate 16) ⟨0⟩ = (.ok [50, 43, 50], rng') :=
    ⟨_, rfl⟩
  apply (generate_derivation fromRules_sumRules hgen (by decide)).2
  intro nt hnt
  apply collapses_of_defined (fromRules_closed fromRules_sumRules) _ hnt
  decide

/-! ## A derivation that is cut -/

/-- Every non-terminal derives a word. -/
def Productive (grammar : Grammar) : Prop :=
  ∀ nt, (grammar.rules.lookup nt).isSome →
    ∃ word : List UInt8, grammar.contextFree.Derives [.nonterminal nt] (word.map .terminal)

theorem derives_formOf {grammar : Grammar} {alt : List Symbol}
    (h : ∀ child, .nonTerminal child ∈ alt →
      ∃ word : List UInt8, grammar.contextFree.Derives [.nonterminal child] (word.map .terminal)) :
    ∃ word : List UInt8, grammar.contextFree.Derives (formOf alt) (word.map .terminal) := by
  induction alt with
  | nil => exact ⟨[], .refl []⟩
  | cons symbol alt ih =>
      obtain ⟨behind, hbehind⟩ := ih fun child hchild => h child (List.mem_cons_of_mem _ hchild)
      obtain ⟨word, hword⟩ : ∃ word : List UInt8,
          grammar.contextFree.Derives symbol.form (word.map .terminal) := by
        cases symbol with
        | literal bytes => exact ⟨bytes, .refl _⟩
        | nonTerminal child => exact h child List.mem_cons_self
      refine ⟨word ++ behind, ?_⟩
      rw [List.map_append]
      exact derives_append hword hbehind

/-- What collapses within some number of levels derives a word. -/
theorem derives_of_collapses {grammar : Grammar} (hclosed : grammar.Closed) {levels : Nat}
    {nt : String} (hnt : (grammar.rules.lookup nt).isSome)
    (h : grammar.collapses levels nt = true) :
    ∃ word : List UInt8, grammar.contextFree.Derives [.nonterminal nt] (word.map .terminal) := by
  induction levels generalizing nt with
  | zero => cases h
  | succ levels ih =>
      obtain ⟨alts, halts⟩ := Option.isSome_iff_exists.mp hnt
      cases hmin : alts.argmin nonterminalCount with
      | none => exact absurd (List.argmin_eq_none.mp hmin) (hclosed.productions nt alts halts)
      | some alt =>
          have halt := List.argmin_mem hmin
          simp only [collapses, halts, Option.bind_some, hmin] at h
          obtain ⟨word, hword⟩ := derives_formOf fun child hchild =>
            ih (hclosed.references nt alts alt child halts halt hchild)
              (List.all_eq_true.mp h _ hchild)
          refine ⟨word, ?_⟩
          have hrule : grammar.contextFree.Produces [.nonterminal nt] (formOf alt) :=
            ⟨⟨nt, formOf alt⟩,
              choices_mem_rules maxDepth nt _ ⟨alts, alt, halts, ⟨halt, fun _ => hmin⟩, rfl⟩,
              ContextFreeRule.Rewrites.input_output⟩
          exact hrule.trans_derives hword

/-- A chain of rules one longer than the cap. -/
def linkName (i : Nat) : String :=
  String.ofList ['N', Char.ofNat (65 + i / 8), Char.ofNat (65 + i % 8)]

def chainRules : List (String × List String) :=
  ("START", ["x\x7bNAA\x7d"]) :: (List.range 48).map fun i =>
    (linkName i, [if i = 47 then "a" else "\x7b" ++ linkName (i + 1) ++ "\x7d"])

def chainGrammar : Grammar where
  rules := ((List.range 48).map fun i =>
      (linkName i,
        [[if i = 47 then Symbol.literal [97] else .nonTerminal (linkName (i + 1))]])).reverse
    ++ [("START", [[.literal [120], .nonTerminal "NAA"]])]
  start := "START"

theorem linkName_injOn {i j : Nat} (hi : i < 48) (hj : j < 48) (h : linkName i = linkName j) :
    i = j := by
  have hchar : ∀ k < 48, (Char.ofNat (65 + k / 8)).toNat = 65 + k / 8
      ∧ (Char.ofNat (65 + k % 8)).toNat = 65 + k % 8 := by decide
  rw [linkName, linkName, String.ofList_inj] at h
  simp only [List.cons.injEq, and_true, true_and] at h
  have hhigh := congrArg Char.toNat h.1
  have hlow := congrArg Char.toNat h.2
  rw [(hchar i hi).1, (hchar j hj).1] at hhigh
  rw [(hchar i hi).2, (hchar j hj).2] at hlow
  omega

theorem linkName_ne_start (i : Nat) : linkName i ≠ "START" := by
  intro h
  rw [linkName, ← String.toList_inj, String.toList_ofList] at h
  exact absurd (congrArg List.length h) (by simp)

theorem parseProduction_link {i : Nat} (hi : i < 48) :
    parseProduction ("\x7b" ++ linkName i ++ "\x7d") = [.nonTerminal (linkName i)] := by
  have hname : ∀ k < 48,
      referenceName ['N', Char.ofNat (65 + k / 8), Char.ofNat (65 + k % 8), '\x7d']
        = some ['N', Char.ofNat (65 + k / 8), Char.ofNat (65 + k % 8)] := by decide
  have htext : ("\x7b" ++ linkName i ++ "\x7d").toList
      = ['\x7b', 'N', Char.ofNat (65 + i / 8), Char.ofNat (65 + i % 8), '\x7d'] := by
    simp [linkName]
  rw [parseProduction, htext, parseFrom, if_pos rfl, hname i hi]
  rfl

theorem chainRules_nodup : (chainRules.map Prod.fst).Nodup := by
  have hnames : chainRules.map Prod.fst = "START" :: (List.range 48).map linkName := by
    simp [chainRules]
  rw [hnames, List.nodup_cons]
  constructor
  · rw [List.mem_map]
    rintro ⟨i, -, hstart⟩
    exact linkName_ne_start i hstart
  · exact List.Nodup.map_on (fun i hi j hj => linkName_injOn (List.mem_range.mp hi)
      (List.mem_range.mp hj)) List.nodup_range

theorem parseRules_chainRules : parseRules [] chainRules = .ok chainGrammar.rules := by
  rw [parseRules_of_nodup chainRules_nodup (by simp) (by simp [chainRules])]
  have hstart : parseProduction "x\x7bNAA\x7d" = [.literal [120], .nonTerminal "NAA"] := by decide
  have hlink : ∀ i < 48,
      parseProduction (if i = 47 then "a" else "\x7b" ++ linkName (i + 1) ++ "\x7d")
        = [if i = 47 then Symbol.literal [97] else .nonTerminal (linkName (i + 1))] := by
    intro i hi
    by_cases hlast : i = 47
    · rw [if_pos hlast, if_pos hlast]
      decide
    · rw [if_neg hlast, if_neg hlast, parseProduction_link (show i + 1 < 48 by omega)]
  simpa [chainRules, chainGrammar, hstart] using hlink

theorem mem_chainGrammar {nt : String} {alts : List (List Symbol)}
    (h : (nt, alts) ∈ chainGrammar.rules) :
    nt = "START" ∧ alts = [[.literal [120], .nonTerminal (linkName 0)]] ∨
      ∃ i < 48, nt = linkName i ∧
        alts = [[if i = 47 then Symbol.literal [97] else .nonTerminal (linkName (i + 1))]] := by
  have hfirst : linkName 0 = "NAA" := by decide
  simp only [chainGrammar, List.mem_append, List.mem_reverse, List.mem_map, List.mem_range,
    List.mem_singleton, Prod.mk.injEq] at h
  obtain ⟨i, hi, hname, halts⟩ | ⟨hname, halts⟩ := h
  · exact .inr ⟨i, hi, hname.symm, halts.symm⟩
  · exact .inl ⟨hname, by rw [halts, hfirst]⟩

theorem chainGrammar_lookup_isSome :
    (chainGrammar.rules.lookup "START").isSome ∧
      ∀ i < 48, (chainGrammar.rules.lookup (linkName i)).isSome := by
  constructor
  · exact parseRules_defines parseRules_chainRules (.inr (by simp [chainRules]))
  · intro i hi
    refine parseRules_defines parseRules_chainRules (.inr ?_)
    simp only [chainRules, List.map_cons, List.map_map, List.mem_cons, List.mem_map,
      List.mem_range, Function.comp]
    exact .inr ⟨i, hi, rfl⟩

theorem fromRules_chainRules : fromRules chainRules none = .ok chainGrammar := by
  obtain ⟨hstart, hlink⟩ := chainGrammar_lookup_isSome
  have hreferences : undefinedReference chainGrammar.rules = none := by
    refine undefinedReference_of_isSome fun nt alts alt child hmem halt hchild => ?_
    obtain ⟨-, rfl⟩ | ⟨i, hi, -, rfl⟩ := mem_chainGrammar hmem
    · simp only [List.mem_singleton.mp halt, List.mem_cons, reduceCtorEq, List.not_mem_nil,
        Symbol.nonTerminal.injEq, false_or, or_false] at hchild
      rw [hchild]
      exact hlink 0 (by decide)
    · rw [List.mem_singleton.mp halt] at hchild
      by_cases hlast : i = 47
      · simp [hlast] at hchild
      · simp only [hlast, if_false, List.mem_singleton, Symbol.nonTerminal.injEq] at hchild
        rw [hchild]
        exact hlink _ (by omega)
  exact fromRules_of_parsed parseRules_chainRules hreferences hstart

/-- What a name of the chain is looked up as is its rule. -/
theorem mem_of_lookup_chain {nt : String} {alts : List (List Symbol)}
    (h : chainGrammar.rules.lookup nt = some alts) : (nt, alts) ∈ chainGrammar.rules := by
  obtain ⟨before, after, heq, -⟩ := List.lookup_eq_some_iff.mp h
  rw [heq]
  simp

/-- Link `i` ends `48 - i` levels down. -/
theorem collapses_linkName {levels i : Nat} (hi : i < 48) (h : 48 ≤ i + levels) :
    chainGrammar.collapses levels (linkName i) = true := by
  induction levels generalizing i with
  | zero => omega
  | succ levels ih =>
      obtain ⟨alts, halts⟩ := Option.isSome_iff_exists.mp (chainGrammar_lookup_isSome.2 i hi)
      obtain ⟨hstart, -⟩ | ⟨j, hj, hname, rfl⟩ := mem_chainGrammar (mem_of_lookup_chain halts)
      · exact absurd hstart (linkName_ne_start i)
      obtain rfl := linkName_injOn hi hj hname
      rw [collapses, halts]
      by_cases hlast : i = 47
      · simp [hlast]
      · simp [hlast, ih (show i + 1 < 48 by omega) (by omega)]

theorem chainGrammar_productive : chainGrammar.Productive := by
  have hclosed := fromRules_closed fromRules_chainRules
  intro nt hnt
  refine @derives_of_collapses _ hclosed 50 nt hnt ?_
  obtain ⟨alts, halts⟩ := Option.isSome_iff_exists.mp hnt
  obtain ⟨rfl, rfl⟩ | ⟨i, hi, rfl, -⟩ := mem_chainGrammar (mem_of_lookup_chain halts)
  · have hfirst := @collapses_linkName 49 0 (by decide) (by decide)
    rw [collapses, halts]
    simp [hfirst]
  · exact collapses_linkName hi (by omega)

/-- What a symbol of the chain ends as: `START` as two bytes, the others as one. -/
def chainWeight : GrammarSymbol UInt8 String → Nat
  | .nonterminal "START" => 2
  | _ => 1

theorem not_mem_language_chainGrammar : [120] ∉ chainGrammar.contextFree.language := by
  have hlisted : ∀ rule ∈ chainGrammar.rules.flatMap (fun (name, alts) =>
      alts.map fun alt => ContextFreeRule.mk name (formOf alt)),
      (rule.output.map chainWeight).sum = chainWeight (.nonterminal rule.input) := by
    decide
  have hrules : ∀ rule ∈ chainGrammar.contextFree.rules,
      (rule.output.map chainWeight).sum = chainWeight (.nonterminal rule.input) :=
    fun rule hrule => hlisted rule (List.mem_toFinset.mp hrule)
  intro hmem
  have hweight := derives_weight hrules hmem
  exact absurd hweight (by decide)

/-- The forty-ninth rule is never used. -/
theorem not_generate_mem_language :
    ¬ ∀ (rules : List (String × List String)) (start : Option String) (grammar : Grammar),
        fromRules rules start = .ok grammar → grammar.Productive →
        ∀ (maxLen : Nat) (rng rng' : MutationRng) (out : List UInt8),
          Op.exec (grammar.generate maxLen) rng = (.ok out, rng') → out.length < maxLen →
            out ∈ grammar.contextFree.language := by
  intro h
  have hout : (Op.exec (chainGrammar.generate 8) ⟨0⟩).1.toOption = some [120] := by
    decide +kernel
  obtain ⟨rng', hgen⟩ := Op.exec_of_toOption hout
  have hmem := h chainRules none chainGrammar fromRules_chainRules chainGrammar_productive 8 ⟨0⟩
    rng' [120] hgen (by decide)
  exact not_mem_language_chainGrammar hmem

end Grammar

end GovFuzz.FuzzEngine
