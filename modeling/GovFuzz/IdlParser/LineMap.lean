import GovFuzz.IdlParser.Conditionals
import GovFuzz.IdlParser.LogicalLines
import GovFuzz.IdlParser.Messages

/-!
# IDL parser — the line map

Each logical line pushes its number and leaves one text, on one line of the
output.  But a last line without a newline that leaves nothing makes no line
of the output, and its entry stays: the map is then one entry too long.
-/

namespace GovFuzz.IdlParser

open GovFuzz.Lib
open GovFuzz.Runtrace (strLines strLines_line stripCr)

/-! ## What a line leaves -/

@[grind =] def directiveLeaves (p : Preprocessor) (name : String) (payload : List Char) : Bool :=
  match name with
  | "define" => p.isActive && (defineMacro p.defines payload 0).toOption.isNone
  | "if" =>
      p.isActive && (evalIfExpression (stripTrailingComment payload) p.defines).toOption.isNone
  | "include" => p.isActive
  | "pragma" => p.isActive
  | "undef" => false
  | "ifdef" => false
  | "ifndef" => false
  | "else" => false
  | "endif" => false
  | _ => true

/-- A line leaves a text: what it expands to, an `#include` or a `#pragma`
where it is emitted, or a warning. -/
@[grind =] def leavesText (p : Preprocessor) (line : List Char) : Bool :=
  match directiveOf line with
  | some (name, payload) => directiveLeaves p name payload
  | none => !isDirective line && p.isActive && decide (expandLine p.defines line ≠ [])

/-! ## Texts without a newline -/

/-- A property of the values of a table. -/
def EachValue (P : List Char → Prop) (defines : Defines) : Prop :=
  ∀ name value, defines name = some value → P value

theorem EachValue.update {P : List Char → Prop} {defines : Defines} (h : EachValue P defines)
    (name : List Char) {replacement : Option (List Char)}
    (hreplacement : ∀ value ∈ replacement, P value) :
    EachValue P (Function.update defines name replacement) := by
  intro other value hvalue
  rw [Function.update_apply] at hvalue
  split at hvalue
  · exact hreplacement value hvalue
  · exact h other value hvalue

theorem eachValue_collectDefines {P : List Char → Prop} {defines : List (List Char × List Char)}
    (h : ∀ entry ∈ defines, P entry.2) : EachValue P (collectDefines defines) := by
  have hfold : ∀ map : Defines, EachValue P map → EachValue P
      (defines.foldl (fun map entry => Function.update map entry.1 (some entry.2)) map) := by
    induction defines with
    | nil => exact fun map hmap => hmap
    | cons entry defines ih =>
        intro map hmap
        rw [List.forall_mem_cons] at h
        refine ih h.2 _ (hmap.update entry.1 fun value hvalue => ?_)
        cases hvalue
        exact h.1
  exact hfold (fun _ => none) fun name value hvalue => by cases hvalue

/-- A preprocessor of a C source, with the numbers it has pushed. -/
structure Tracking (p : Preprocessor) (numbers : List Nat) : Prop where
  recovery : p.recovery = .recover
  passthrough : p.passthroughIncludes = true
  trackLines : p.trackLines = true
  lineMap : p.lineMap = numbers
  defines : EachValue ('\n' ∉ ·) p.defines

theorem Tracking.track {p : Preprocessor} {numbers : List Nat} (h : Tracking p numbers)
    (lineNo : Nat) : Tracking (p.track lineNo) (numbers ++ [lineNo]) := by
  have htrack : p.track lineNo = { p with lineMap := p.lineMap ++ [lineNo] } := by
    rw [Preprocessor.track, if_pos h.trackLines]
  rw [htrack]
  exact ⟨h.recovery, h.passthrough, h.trackLines, by rw [h.lineMap], h.defines⟩

theorem takeLiteral_sublist (quote : Char) (escaped : Bool) (chars : List Char) :
    (takeLiteral quote escaped chars).Sublist chars := by
  fun_induction takeLiteral quote escaped chars with
  | case1 => exact .slnil
  | case2 ch chars ih => exact ih.cons_cons ch
  | case3 escaped chars hescaped ih => exact ih.cons_cons '\\'
  | case4 escaped chars hescaped hch => exact (List.nil_sublist chars).cons_cons _
  | case5 escaped ch chars hescaped hch hquote ih => exact ih.cons_cons ch

theorem newline_not_mem_expandFrom {defines : Defines}
    (hdefines : EachValue ('\n' ∉ ·) defines) {skip : Nat} {chars : List Char}
    (h : '\n' ∉ chars) : '\n' ∉ expandFrom defines skip chars := by
  fun_induction expandFrom defines skip chars with
  | case1 => simp
  | case2 skip ch chars ih => exact ih (List.not_mem_of_not_mem_cons h)
  | case3 ch chars hquote literal ih =>
      rw [List.mem_cons, not_or] at h
      have hliteral : '\n' ∉ literal := fun hmem =>
        h.2 ((takeLiteral_sublist ch false chars).subset hmem)
      simp only [List.cons_append, List.mem_cons, List.mem_append, not_or]
      exact ⟨h.1, hliteral, ih h.2⟩
  | case4 ch chars hquote hident more ih =>
      rw [List.mem_cons, not_or] at h
      rw [List.mem_append, not_or]
      refine ⟨?_, ih h.2⟩
      cases hvalue : defines (ch :: more) with
      | none => exact newline_not_mem_word hident
      | some value => exact hdefines _ _ hvalue
  | case5 ch chars hquote hident ih =>
      rw [List.mem_cons, not_or] at h
      rw [List.mem_cons, not_or]
      exact ⟨h.1, ih h.2⟩

theorem trimStart_ne_nil {line : List Char} (h : isDirective line = true) :
    trimStart line ≠ [] := by
  intro hnil
  rw [isDirective, hnil] at h
  cases h

section Directive

variable {p p' : Preprocessor} {numbers : List Nat} {line : List Char} {lineNo depth : Nat}
  {text : Option (List Char)}

/-- What a step leaves: no newline, and something exactly where it should. -/
def Leaves (p : Preprocessor) (name : String) (payload : List Char) (text : Option (List Char)) :
    Prop :=
  '\n' ∉ text.getD [] ∧ (text.getD [] ≠ [] ↔ directiveLeaves p name payload = true)

theorem leaves_none {name : String} {payload : List Char}
    (h : directiveLeaves p name payload = false) : Leaves p name payload none :=
  ⟨by simp, by simp [h]⟩

theorem leaves_warning {name : String} {payload : List Char} {message : String}
    (hmessage : OneLine message) (h : directiveLeaves p name payload = true) :
    Leaves p name payload (some (warningPragma message)) :=
  ⟨newline_not_mem_warningPragma hmessage, by simp [h, warningPragma_ne_nil]⟩

theorem leaves_active {name : String} {payload : List Char} (hdirective : isDirective line = true)
    (hline : '\n' ∉ line) (h : directiveLeaves p name payload = p.isActive) :
    Leaves p name payload (if p.isActive then some (trimStart line) else none) := by
  cases hactive : p.isActive with
  | false => exact leaves_none (h.trans hactive)
  | true =>
      refine ⟨fun hmem => hline (mem_of_trimStart hmem), ?_⟩
      simp [h, hactive, trimStart_ne_nil hdirective]

/-- What a `define` leaves in place of its line. -/
theorem leaves_define {payload : List Char}
    (hrecovery : p.recovery = .recover)
    (h : defineDirective p payload lineNo = .ok (text, p')) : Leaves p "define" payload text := by
  unfold defineDirective at h
  cases hactive : p.isActive with
  | false =>
      simp only [hactive] at h
      cases h
      exact leaves_none (by simp [directiveLeaves, hactive])
  | true =>
      have hlineNo := defineMacro_lineNo p.defines payload lineNo
      simp only [hactive, hrecovery, if_true] at h
      cases hdefine : defineMacro p.defines payload lineNo with
      | ok defines =>
          rw [hdefine] at h hlineNo
          cases h
          have hsome : (defineMacro p.defines payload 0).toOption = some defines := hlineNo.symm
          exact leaves_none (by simp [directiveLeaves, hsome])
      | error error =>
          rw [hdefine] at h hlineNo
          cases h
          have hopen : OneLine "unsupported macro definition ignored at line " := by decide
          have hmessage := ((hopen.append (oneLine_nat lineNo)).append
            (by decide : OneLine ": ")).append (oneLine_defineMacro hdefine)
          have hnone : (defineMacro p.defines payload 0).toOption = none := hlineNo.symm
          exact leaves_warning hmessage (by simp [directiveLeaves, hactive, hnone])

theorem leaves_if {payload : List Char} (hrecovery : p.recovery = .recover)
    (h : ifDirective p payload lineNo = .ok (text, p')) : Leaves p "if" payload text := by
  unfold ifDirective at h
  cases hactive : p.isActive with
  | false =>
      simp only [hactive] at h
      cases h
      exact leaves_none (by simp [directiveLeaves, hactive])
  | true =>
      simp only [hactive, hrecovery, if_true] at h
      cases heval : evalIfExpression (stripTrailingComment payload) p.defines with
      | ok active =>
          rw [heval] at h
          cases h
          exact leaves_none (by simp [directiveLeaves, heval, Except.toOption])
      | error error =>
          rw [heval] at h
          cases h
          have hopen : OneLine "unsupported #if expression treated as inactive at line " := by
            decide
          have hmessage := ((hopen.append (oneLine_nat lineNo)).append
            (by decide : OneLine ": ")).append (oneLine_evalIfExpression p.defines heval)
          exact leaves_warning hmessage
            (by simp [directiveLeaves, hactive, heval, Except.toOption])

/-- What a directive leaves in place of its line, a case per directive. -/
theorem leaves_processDirective (hrecovery : p.recovery = .recover)
    (hpassthrough : p.passthroughIncludes = true) (hline : '\n' ∉ line)
    (hdirective : isDirective line = true)
    (h : processDirective p line lineNo depth = .ok (text, p')) :
    ∃ name payload, directiveOf line = some (name, payload) ∧ Leaves p name payload text := by
  unfold processDirective at h
  cases hsplit : splitDirective line with
  | none => rw [hsplit] at h; cases h
  | some split =>
      obtain ⟨directive, payload⟩ := split
      have hname : directiveOf line = some (String.ofList directive, payload) := by
        rw [directiveOf, if_pos hdirective, hsplit]
        rfl
      refine ⟨_, _, hname, ?_⟩
      rw [hsplit] at h
      simp only at h
      split at h
      case h_1 heq => rw [heq]; exact leaves_define hrecovery h
      case h_2 heq =>
          have htext : text = none := by
            split at h
            · obtain ⟨name, -, hreturn⟩ := bind_eq_ok.mp h
              cases hreturn
              rfl
            · cases h
              rfl
          rw [heq, htext]
          exact leaves_none rfl
      case h_3 heq =>
          obtain ⟨name, -, hreturn⟩ := bind_eq_ok.mp h
          cases hreturn
          rw [heq]
          exact leaves_none rfl
      case h_4 heq =>
          obtain ⟨name, -, hreturn⟩ := bind_eq_ok.mp h
          cases hreturn
          rw [heq]
          exact leaves_none rfl
      case h_5 heq => rw [heq]; exact leaves_if hrecovery h
      case h_6 heq =>
          have htext : text = none := by
            unfold elseDirective at h
            obtain ⟨_, -, h⟩ := bind_eq_ok.mp h
            split at h
            · cases h
            · split at h
              · cases h
              · cases h
                rfl
          rw [heq, htext]
          exact leaves_none rfl
      case h_7 heq =>
          obtain ⟨_, -, hreturn⟩ := bind_eq_ok.mp h
          cases hreturn
          rw [heq]
          exact leaves_none rfl
      case h_8 heq =>
          rw [includeDirective, if_pos hpassthrough] at h
          cases h
          rw [heq]
          exact leaves_active hdirective hline rfl
      case h_9 heq =>
          cases h
          rw [heq]
          exact leaves_active hdirective hline rfl
      case h_10 name hdefine hundef hifdef hifndef hif helse hendif hinclude hpragma =>
          rw [if_pos hrecovery] at h
          cases h
          have hopen : OneLine "unsupported directive '#" := by decide
          have hword : OneLine (String.ofList directive) :=
            oneLine_ofList (newline_not_mem_readIdentifier hsplit)
          have hmessage := ((hopen.append hword).append
            (by decide : OneLine "' ignored at line ")).append (oneLine_nat lineNo)
          refine leaves_warning hmessage ?_
          unfold directiveLeaves
          split
          all_goals first | rfl | contradiction

end Directive

/-! ## A line, and the lines -/

theorem mem_of_directiveOf {line : List Char} {directive : String × List Char} {ch : Char}
    (h : directiveOf line = some directive) (hch : ch ∈ directive.2) : ch ∈ line := by
  unfold directiveOf at h
  split at h
  case isTrue =>
      obtain ⟨split, hsplit, rfl⟩ := Option.map_eq_some_iff.mp h
      exact mem_of_splitDirective hsplit hch
  case isFalse => cases h

theorem eachValue_definesNamed {defines : Defines} (hdefines : EachValue ('\n' ∉ ·) defines)
    {payload : List Char} (hpayload : '\n' ∉ payload) (directive : String) :
    EachValue ('\n' ∉ ·) (definesNamed defines directive payload) := by
  unfold definesNamed
  split
  · unfold defineMacro
    split
    · exact hdefines
    · rename_i macroName replacement hread
      split
      · exact hdefines
      · refine hdefines.update macroName fun value hvalue hmem => ?_
        cases hvalue
        exact hpayload (mem_of_trimStart (mem_of_readIdentifier hread (mem_of_trimStart hmem)))
  · cases readIdentifier (trimStart payload) with
    | none => exact hdefines
    | some found => exact hdefines.update found.1 fun value hvalue => by cases hvalue
  · exact hdefines

theorem eachValue_definesAfter {defines : Defines} (hdefines : EachValue ('\n' ∉ ·) defines)
    {line : List Char} (hline : '\n' ∉ line) (emitted : Bool) :
    EachValue ('\n' ∉ ·) (definesAfter emitted defines line) := by
  cases emitted with
  | false => exact hdefines
  | true =>
      cases hdirective : directiveOf line with
      | none => simpa only [definesAfter, hdirective] using hdefines
      | some directive =>
          have hpayload : '\n' ∉ directive.2 := fun hmem =>
            hline (mem_of_directiveOf hdirective hmem)
          simpa only [definesAfter, hdirective] using
            eachValue_definesNamed hdefines hpayload directive.1

section Step

variable {p p' : Preprocessor} {numbers : List Nat} {entry : LogicalLine} {depth : Nat}
  {text : List Char} {texts : List (List Char)}

theorem Tracking.stepped (h : Tracking p numbers) {line : List Char} (hline : '\n' ∉ line)
    {role : Option Conditional} (hstep : Stepped p line p' role) : Tracking p' numbers := by
  cases hstep with
  | opens condition hp' hcondition =>
      rw [hp']
      exact ⟨h.recovery, h.passthrough, h.trackLines, h.lineMap, h.defines⟩
  | otherwise frame frames hp hp' =>
      rw [hp']
      exact ⟨h.recovery, h.passthrough, h.trackLines, h.lineMap, h.defines⟩
  | closes hp' =>
      rw [hp']
      exact ⟨h.recovery, h.passthrough, h.trackLines, h.lineMap, h.defines⟩
  | plain hp' =>
      rw [hp']
      exact ⟨h.recovery, h.passthrough, h.trackLines, h.lineMap,
        eachValue_definesAfter h.defines hline _⟩

theorem directiveLeaves_track (p : Preprocessor) (lineNo : Nat) (name : String)
    (payload : List Char) :
    directiveLeaves (p.track lineNo) name payload = directiveLeaves p name payload := by
  simp only [directiveLeaves, isActive_track, defines_track]

/-- A line pushes its number and leaves one text, without a newline. -/
theorem Tracking.processLine (h : Tracking p numbers) (hline : '\n' ∉ entry.line)
    (hrun : processLine depth p entry = .ok (text, p')) :
    Tracking p' (numbers ++ [entry.lineNo]) ∧ '\n' ∉ text
      ∧ (text ≠ [] ↔ leavesText p entry.line = true) := by
  have htrack := h.track entry.lineNo
  cases hdirective : isDirective entry.line with
  | false =>
      obtain ⟨htext, rfl⟩ := processLine_ordinary hdirective hrun
      have hnone : directiveOf entry.line = none := by
        rw [directiveOf, hdirective]
        rfl
      refine ⟨htrack, ?_, ?_⟩
      · rw [htext]
        split
        · exact newline_not_mem_expandFrom h.defines hline
        · simp
      · rw [htext, leavesText, hnone]
        cases hactive : p.isActive with
        | false => simp
        | true => simp [hdirective]
  | true =>
      obtain ⟨expansion, hstep, rfl⟩ := processLine_directive hdirective hrun
      obtain ⟨name, payload, hname, hnewline, hleaves⟩ :=
        leaves_processDirective htrack.recovery htrack.passthrough hline hdirective hstep
      refine ⟨htrack.stepped hline (GovFuzz.IdlParser.stepped hdirective hstep), hnewline, ?_⟩
      rw [hleaves, directiveLeaves_track, leavesText, hname]

theorem Tracking.processLines {lines : List LogicalLine} (h : Tracking p numbers)
    (hlines : ∀ entry ∈ lines, '\n' ∉ entry.line)
    (hrun : processLines depth lines p = .ok (texts, p')) :
    Tracking p' (numbers ++ lines.map LogicalLine.lineNo) ∧ texts.length = lines.length
      ∧ ∀ text ∈ texts, '\n' ∉ text := by
  induction lines generalizing p numbers texts with
  | nil =>
      cases hrun
      simpa using h
  | cons entry lines ih =>
      rw [List.forall_mem_cons] at hlines
      obtain ⟨text, q, texts', hline, hrest, rfl⟩ := processLines_cons_ok hrun
      obtain ⟨hq, htext, -⟩ := h.processLine hlines.1 hline
      obtain ⟨htracking, hlength, htexts⟩ := ih hq hlines.2 hrest
      refine ⟨?_, by rw [List.length_cons, List.length_cons, hlength],
        List.forall_mem_cons.mpr ⟨htext, htexts⟩⟩
      simpa using htracking

end Step

/-! ## Lines of the output -/

theorem strLines_single {text : List Char} (h : '\n' ∉ text) :
    strLines text = if text = [] then [] else [text] := by
  rw [strLines, List.splitOn_eq_singleton h]
  by_cases hnil : text = []
  · simp [hnil]
  · simp [hnil]

/-- Every line of the input makes one of the output, but for a last one
without a newline that leaves nothing. -/
theorem length_strLines_joinLines {lines : List LogicalLine} {texts : List (List Char)}
    (hlength : texts.length = lines.length) (htexts : ∀ text ∈ texts, '\n' ∉ text)
    (hlines : ∀ entry ∈ lines.dropLast, entry.hasNewline = true) :
    (strLines (joinLines lines texts)).length = lines.length
      ↔ ∀ entry ∈ lines.getLast?, ∀ text ∈ texts.getLast?,
          entry.hasNewline = false → text ≠ [] := by
  induction lines generalizing texts with
  | nil =>
      obtain rfl := List.eq_nil_of_length_eq_zero hlength
      simp [joinLines, strLines]
  | cons entry lines ih =>
      cases texts with
      | nil => cases hlength
      | cons text texts =>
          rw [List.forall_mem_cons] at htexts
          cases lines with
          | nil =>
              obtain rfl := List.eq_nil_of_length_eq_zero (Nat.succ.inj hlength)
              cases hnewline : entry.hasNewline with
              | true =>
                  have hline := strLines_line htexts.1 []
                  simp only [joinLines, hnewline, if_true, List.append_nil, hline]
                  simp [strLines, hnewline]
              | false =>
                  simp only [joinLines, hnewline, Bool.false_eq_true, if_false, List.append_nil,
                    strLines_single htexts.1]
                  by_cases hnil : text = []
                  · simp [hnil, hnewline]
                  · simp [hnil]
          | cons next lines =>
              cases texts with
              | nil => cases hlength
              | cons text' texts =>
                  rw [List.dropLast_cons_cons, List.forall_mem_cons] at hlines
                  have hline := strLines_line htexts.1
                    (joinLines (next :: lines) (text' :: texts))
                  rw [joinLines, hlines.1, if_pos rfl, List.append_assoc, List.singleton_append,
                    hline, List.length_cons, List.length_cons, Nat.add_right_cancel_iff,
                    ih (Nat.succ.inj hlength) htexts.2 hlines.2, List.getLast?_cons_cons,
                    List.getLast?_cons_cons]

theorem count_newline_joinLines {lines : List LogicalLine} {texts : List (List Char)}
    (hlength : texts.length = lines.length) (htexts : ∀ text ∈ texts, '\n' ∉ text)
    (hlines : ∀ entry ∈ lines, entry.hasNewline = true) :
    (joinLines lines texts).count '\n' = lines.length := by
  induction lines generalizing texts with
  | nil =>
      obtain rfl := List.eq_nil_of_length_eq_zero hlength
      rfl
  | cons entry lines ih =>
      cases texts with
      | nil => cases hlength
      | cons text texts =>
          rw [List.forall_mem_cons] at htexts hlines
          rw [joinLines, hlines.1, if_pos rfl, List.count_append, List.count_append,
            List.count_eq_zero.mpr htexts.1, ih (Nat.succ.inj hlength) htexts.2 hlines.2,
            List.length_cons]
          simp [Nat.add_comm]

/-! ## Runs over a source -/

theorem tracking_discoveryPreprocessor {defines : List (List Char × List Char)}
    (hdefines : ∀ define ∈ defines, '\n' ∉ define.2) :
    Tracking (discoveryPreprocessor defines) [] :=
  ⟨rfl, rfl, rfl, rfl, eachValue_collectDefines hdefines⟩

/-- The run has gone through `before`, up to the state `p`. -/
def Reaches (defines : List (List Char × List Char)) (before : List LogicalLine)
    (texts : List (List Char)) (p : Preprocessor) : Prop :=
  processLines 0 before (discoveryPreprocessor defines) = .ok (texts, p)

/-- The logical line `entry` of the source writes `text` behind `above`. -/
def Writes (source : List Char) (defines : List (List Char × List Char)) (entry : LogicalLine)
    (above text : List Char) : Prop :=
  ∃ before after texts p p', splicedLines source = before ++ entry :: after
    ∧ Reaches defines before texts p ∧ processLine 0 p entry = .ok (text, p')
    ∧ above = joinLines before texts

/-- One entry for each line of the output, in increasing order, and for every
character of the output the line it comes from. -/
structure ExactMap (source : List Char) (defines : List (List Char × List Char))
    (output : List Char) (map : LineMap) : Prop where
  entries : map.original.length = (strLines output).length
  increasing : map.original.Pairwise (· < ·)
  content : ∀ entry above text, Writes source defines entry above text →
    ∀ before ch after, text = before ++ ch :: after →
      (above ++ before).count '\n' + 1 < 2 ^ 32 →
        map.toOriginal ((above ++ before).count '\n' + 1) = entry.lineNo

@[grind =] def Accepted (source : List Char) (defines : List (List Char × List Char)) : Prop :=
  (processSource (discoveryPreprocessor defines) source).isOk = true

/-- The map is exact, and the identity where the source is returned. -/
structure LineMapExact (source : List Char) (defines : List (List Char × List Char)) : Prop where
  preprocessed : Accepted source defines →
    ExactMap source defines (preprocessCLikeWithLineMap source defines).1
      (preprocessCLikeWithLineMap source defines).2
  raw : ¬ Accepted source defines →
    (preprocessCLikeWithLineMap source defines).1 = source
      ∧ ∀ line, (preprocessCLikeWithLineMap source defines).2.toOriginal line = line

/-- The last line ends in a newline or leaves a text, and the numbers of the
lines that leave one fit where those of the output do. -/
structure Traceable (source : List Char) (defines : List (List Char × List Char)) : Prop where
  last : ∀ before entry texts p, splicedLines source = before ++ [entry] →
    Reaches defines before texts p → entry.hasNewline = false → leavesText p entry.line = true
  numbers : ∀ before entry after texts p, splicedLines source = before ++ entry :: after →
    Reaches defines before texts p → leavesText p entry.line = true →
      before.length + 1 < 2 ^ 32 → entry.lineNo < 2 ^ 32

section Source

variable {source : List Char} {defines : List (List Char × List Char)} {before : List LogicalLine}
  {entry : LogicalLine} {after : List LogicalLine} {texts : List (List Char)} {p : Preprocessor}

theorem Reaches.unique {texts' : List (List Char)} {p' : Preprocessor}
    (h : Reaches defines before texts p) (h' : Reaches defines before texts' p') :
    texts = texts' ∧ p = p' := by
  have heq := h.symm.trans h'
  cases heq
  exact ⟨rfl, rfl⟩

/-- A run through a line, up to that line and over it. -/
theorem Reaches.split (h : Reaches defines (before ++ entry :: after) texts p) :
    ∃ above q text q' below, Reaches defines before above q
      ∧ processLine 0 q entry = .ok (text, q') ∧ texts = above ++ text :: below := by
  obtain ⟨above, q, rest, habove, hrest, rfl⟩ := processLines_append_ok h
  obtain ⟨text, q', below, hline, -, rfl⟩ := processLines_cons_ok hrest
  exact ⟨above, q, text, q', below, habove, hline, rfl⟩

theorem Reaches.last (h : Reaches defines (before ++ [entry]) texts p) :
    ∃ above q text, Reaches defines before above q ∧ processLine 0 q entry = .ok (text, p)
      ∧ texts = above ++ [text] := by
  obtain ⟨above, q, rest, habove, hrest, rfl⟩ := processLines_append_ok h
  obtain ⟨text, hline, rfl⟩ := processLines_singleton_ok hrest
  exact ⟨above, q, text, habove, hline, rfl⟩

theorem tracking_reaches (hdefines : ∀ define ∈ defines, '\n' ∉ define.2)
    (hlines : ∀ line ∈ before, '\n' ∉ line.line) (h : Reaches defines before texts p) :
    Tracking p (before.map LogicalLine.lineNo) ∧ texts.length = before.length
      ∧ ∀ text ∈ texts, '\n' ∉ text := by
  have hstart := tracking_discoveryPreprocessor hdefines
  simpa using hstart.processLines hlines h

theorem toOriginal_entry (before : List LogicalLine) (entry : LogicalLine)
    (after : List LogicalLine) :
    LineMap.toOriginal ⟨(before ++ entry :: after).map LogicalLine.lineNo⟩ (before.length + 1)
      = entry.lineNo % 2 ^ 32 := by
  simp [LineMap.toOriginal]

/-- A line that is not the last one ends in a newline. -/
theorem hasNewline_before (h : splicedLines source = before ++ entry :: after) :
    ∀ line ∈ before, line.hasNewline = true := by
  intro line hline
  refine hasNewline_splicedLines source line ?_
  rw [h, List.dropLast_append_of_ne_nil (List.cons_ne_nil _ _)]
  exact List.mem_append_left _ hline

theorem newline_not_mem_parts (h : splicedLines source = before ++ entry :: after) :
    (∀ line ∈ before, '\n' ∉ line.line) ∧ '\n' ∉ entry.line := by
  have hlines := newline_not_mem_splicedLines source
  rw [h, List.forall_mem_append, List.forall_mem_cons] at hlines
  exact ⟨hlines.1, hlines.2.1⟩

/-- The text of a line stands on the line of the output with its index. -/
theorem count_newline_above (hdefines : ∀ define ∈ defines, '\n' ∉ define.2)
    (h : splicedLines source = before ++ entry :: after) (hrun : Reaches defines before texts p) :
    (joinLines before texts).count '\n' = before.length := by
  obtain ⟨-, hlength, htexts⟩ := tracking_reaches hdefines (newline_not_mem_parts h).1 hrun
  exact count_newline_joinLines hlength htexts (hasNewline_before h)

theorem leaves_of_reaches (hdefines : ∀ define ∈ defines, '\n' ∉ define.2)
    (h : splicedLines source = before ++ entry :: after) (hrun : Reaches defines before texts p)
    {text : List Char} {p' : Preprocessor} (hline : processLine 0 p entry = .ok (text, p')) :
    '\n' ∉ text ∧ (text ≠ [] ↔ leavesText p entry.line = true) := by
  obtain ⟨hbefore, hentry⟩ := newline_not_mem_parts h
  obtain ⟨htracking, -, -⟩ := tracking_reaches hdefines hbefore hrun
  exact (htracking.processLine hentry hline).2

/-- One entry for each line: unless the last line has no newline and leaves
nothing. -/
theorem entries_iff (hdefines : ∀ define ∈ defines, '\n' ∉ define.2)
    (hrun : Reaches defines (splicedLines source) texts p) :
    p.lineMap.length = (strLines (joinLines (splicedLines source) texts)).length
      ↔ ∀ before entry texts p, splicedLines source = before ++ [entry] →
        Reaches defines before texts p → entry.hasNewline = false →
          leavesText p entry.line = true := by
  obtain ⟨htracking, hlength, htexts⟩ :=
    tracking_reaches hdefines (newline_not_mem_splicedLines source) hrun
  rw [htracking.lineMap, List.length_map, eq_comm,
    length_strLines_joinLines hlength htexts (hasNewline_splicedLines source)]
  constructor
  · intro h before entry above q hsource habove hnewline
    rw [hsource] at hrun
    obtain ⟨above', q', text, habove', hline, rfl⟩ := hrun.last
    obtain ⟨rfl, rfl⟩ := habove.unique habove'
    apply (leaves_of_reaches hdefines hsource habove hline).2.mp
    exact h entry (by simp [hsource]) text (by simp) hnewline
  · intro h entry hentry text htext hnewline
    have hsource := (List.dropLast_append_getLast? entry hentry).symm
    rw [hsource] at hrun
    obtain ⟨above, q, text', habove, hline, rfl⟩ := hrun.last
    obtain rfl : text' = text := by simpa using htext
    apply (leaves_of_reaches hdefines hsource habove hline).2.mpr
    exact h _ entry above q hsource habove hnewline

/-- Every text is traced where the numbers of its line fit. -/
theorem content_iff (hdefines : ∀ define ∈ defines, '\n' ∉ define.2)
    (hrun : Reaches defines (splicedLines source) texts p) :
    (∀ entry above text, Writes source defines entry above text →
      ∀ before ch after, text = before ++ ch :: after →
        (above ++ before).count '\n' + 1 < 2 ^ 32 →
          LineMap.toOriginal ⟨p.lineMap⟩ ((above ++ before).count '\n' + 1) = entry.lineNo)
      ↔ ∀ before entry after texts p, splicedLines source = before ++ entry :: after →
        Reaches defines before texts p → leavesText p entry.line = true →
          before.length + 1 < 2 ^ 32 → entry.lineNo < 2 ^ 32 := by
  obtain ⟨htracking, -, -⟩ :=
    tracking_reaches hdefines (newline_not_mem_splicedLines source) hrun
  rw [htracking.lineMap]
  constructor
  · intro h before entry after above q hsource habove hleaves hfits
    rw [hsource] at hrun
    obtain ⟨above', q', text, r, below, habove', hline, rfl⟩ := hrun.split
    obtain ⟨rfl, rfl⟩ := habove.unique habove'
    have htext := (leaves_of_reaches hdefines hsource habove hline).2.mpr hleaves
    obtain ⟨ch, rest, rfl⟩ := List.exists_cons_of_ne_nil htext
    have hcount := count_newline_above hdefines hsource habove
    have hwrites : Writes source defines entry (joinLines before above) (ch :: rest) :=
      ⟨before, after, above, q, r, hsource, habove, hline, rfl⟩
    have hexact := h entry _ _ hwrites [] ch rest rfl
    rw [List.append_nil, hcount, hsource, toOriginal_entry] at hexact
    have hmod := hexact hfits
    rw [← hmod]
    exact Nat.mod_lt _ (by decide)
  · intro h entry above text hwrites head ch tail htext hfits
    obtain ⟨before, after, aboveTexts, q, q', hsource, habove, hline, rfl⟩ := hwrites
    obtain ⟨hnewline, hleaves⟩ := leaves_of_reaches hdefines hsource habove hline
    -- the text is on one line, so what is in front of the character adds none
    have hhead : head.count '\n' = 0 := by
      apply List.count_eq_zero.mpr
      intro hmem
      exact hnewline (by rw [htext]; exact List.mem_append_left _ hmem)
    have hcount := count_newline_above hdefines hsource habove
    rw [List.count_append, hcount, hhead, Nat.add_zero] at hfits ⊢
    have hne : text ≠ [] := by simp [htext]
    rw [hsource, toOriginal_entry]
    exact Nat.mod_eq_of_lt (h before entry after _ q hsource habove (hleaves.mp hne) hfits)

theorem exactMap_iff_traceable (hdefines : ∀ define ∈ defines, '\n' ∉ define.2)
    (hrun : Reaches defines (splicedLines source) texts p) :
    ExactMap source defines (joinLines (splicedLines source) texts) ⟨p.lineMap⟩
      ↔ Traceable source defines := by
  have hentries := entries_iff hdefines hrun
  have hcontent := content_iff hdefines hrun
  obtain ⟨htracking, -, -⟩ :=
    tracking_reaches hdefines (newline_not_mem_splicedLines source) hrun
  constructor
  · intro h
    exact ⟨hentries.mp h.entries, hcontent.mp h.content⟩
  · intro h
    refine ⟨hentries.mpr h.last, ?_, hcontent.mpr h.numbers⟩
    show p.lineMap.Pairwise (· < ·)
    rw [htracking.lineMap]
    exact increasing_splicedLines source

end Source

/-- A source that ends in a newline, with numbers that fit, is traceable. -/
theorem traceable_of_all {source : List Char} {defines : List (List Char × List Char)}
    (h : ∀ entry ∈ splicedLines source, entry.hasNewline = true ∧ entry.lineNo < 2 ^ 32) :
    Traceable source defines := by
  constructor
  · intro before entry texts p hsource hreaches hnewline
    have hentry := h entry (by simp [hsource])
    rw [hnewline] at hentry
    cases hentry.1
  · intro before entry after texts p hsource hreaches hleaves hfits
    exact (h entry (by simp [hsource])).2

/-- The map is exact unless the source is accepted and its last line, without
a newline, leaves nothing, or a line of the output has a number that does not
fit. -/
theorem lineMapExact_iff (source : List Char) (defines : List (List Char × List Char))
    (hdefines : ∀ define ∈ defines, '\n' ∉ define.1 ∧ '\n' ∉ define.2) :
    LineMapExact source defines ↔ (Accepted source defines → Traceable source defines) := by
  cases hprocess : processSource (discoveryPreprocessor defines) source with
  | error error =>
      -- what is rejected is passed on as it is, with the identity for its map
      have hrejected : ¬ Accepted source defines := by
        simp [Accepted, hprocess, Except.isOk, Except.toBool]
      have hraw : preprocessCLikeWithLineMap source defines = (source, LineMap.identity) := by
        rw [preprocessCLikeWithLineMap, hprocess]
      constructor
      · intro h haccepted
        exact absurd haccepted hrejected
      · intro h
        refine ⟨fun haccepted => absurd haccepted hrejected, fun _ => ?_⟩
        rw [hraw]
        exact ⟨rfl, fun line => by simp [LineMap.toOriginal, LineMap.identity]⟩
  | ok result =>
      obtain ⟨output, p⟩ := result
      obtain ⟨texts, hrun, rfl⟩ := processSource_ok hprocess
      rw [logicalLines_eq] at hrun
      have hexact := exactMap_iff_traceable (fun define h => (hdefines define h).2) hrun
      have haccepted : Accepted source defines := by
        simp [Accepted, hprocess, Except.isOk, Except.toBool]
      have hmapped : preprocessCLikeWithLineMap source defines
          = (joinLines (splicedLines source) texts, ⟨p.lineMap⟩) := by
        rw [preprocessCLikeWithLineMap, hprocess, logicalLines_eq]
      constructor
      · intro h _
        have hpreprocessed := h.preprocessed haccepted
        rw [hmapped] at hpreprocessed
        exact hexact.mp hpreprocessed
      · intro h
        refine ⟨fun _ => ?_, fun hrejected => absurd haccepted hrejected⟩
        rw [hmapped]
        exact hexact.mpr (h haccepted)

def continuedSource : List Char := "#ifdef A\nB\n#endif\nx \\\ny\n".toList

theorem lineMapExact_iff_continued :
    Accepted continuedSource [(['A'], ['1'])] ∧ LineMapExact continuedSource [(['A'], ['1'])] := by
  have haccepted : Accepted continuedSource [(['A'], ['1'])] := by
    unfold Accepted
    decide +kernel
  have hlines : ∀ entry ∈ splicedLines continuedSource,
      entry.hasNewline = true ∧ entry.lineNo < 2 ^ 32 := by
    decide
  have hexact := lineMapExact_iff continuedSource [(['A'], ['1'])] (by decide)
  exact ⟨haccepted, hexact.mpr fun _ => traceable_of_all hlines⟩

def unendedSource : List Char := "x\n#define A 1".toList

/-- The `#define` makes no line of the output, but an entry of the map. -/
theorem not_lineMapExact_define :
    ¬ ∀ (source : List Char) (defines : List (List Char × List Char)),
        (∀ define ∈ defines, '\n' ∉ define.1 ∧ '\n' ∉ define.2) →
          LineMapExact source defines := by
  intro hclaim
  have hexact := hclaim unendedSource [] (by simp)
  have haccepted : Accepted unendedSource [] := by
    unfold Accepted
    decide
  have hentries : ¬ (preprocessCLikeWithLineMap unendedSource []).2.original.length
      = (strLines (preprocessCLikeWithLineMap unendedSource []).1).length := by
    decide
  exact hentries (hexact.preprocessed haccepted).entries

end GovFuzz.IdlParser
