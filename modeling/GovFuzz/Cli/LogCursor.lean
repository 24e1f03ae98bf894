import GovFuzz.Runtrace.ParseLine

/-!
# Cli — tailing the runtrace log

`RuntraceLogCursor` of `crates/cli/src/fuzz.rs`.  A call takes the length of
the log first and reads to its end later, and goes on from the length the
next time: what was appended in between is read twice.  The bytes of a call
are parsed by themselves, so a line that is not complete yet is torn.
`tail_exact` is about the runs where neither happens.
-/

namespace GovFuzz.Cli

open GovFuzz.Lib GovFuzz.Runtrace

structure RuntraceLogCursor where
  log : List UInt8
  offset : Nat
  /-- What the calls have returned, one after the other. -/
  returned : List RuntraceEvent

namespace RuntraceLogCursor

/-- A cursor starts at the end of what is there. -/
def start (log : List UInt8) : RuntraceLogCursor := ⟨log, log.length, []⟩

/-- One call; `during` is appended after the length was taken and before the
log is read. -/
def readNewEvents (maxDelta : Nat) (during : List UInt8) (cursor : RuntraceLogCursor) :
    RuntraceLogCursor :=
  let len := cursor.log.length
  let offset := if len < cursor.offset then 0 else cursor.offset
  let log := cursor.log ++ during
  if len = offset then ⟨log, offset, cursor.returned⟩
  else if maxDelta < len - offset then ⟨log, len, cursor.returned⟩
  else ⟨log, len, cursor.returned ++ parseBytes (log.drop offset)⟩

def append (bytes : List UInt8) (cursor : RuntraceLogCursor) : RuntraceLogCursor :=
  { cursor with log := cursor.log ++ bytes }

end RuntraceLogCursor

/-- What happens to the log: a writer appends a line or a part of one, or the
cursor reads, with what the writers append meanwhile. -/
inductive TailStep where
  | append (bytes : List UInt8)
  | read (during : List UInt8)

def tailStep (maxDelta : Nat) (cursor : RuntraceLogCursor) : TailStep → RuntraceLogCursor
  | .append bytes => cursor.append bytes
  | .read during => cursor.readNewEvents maxDelta during

def tailRun (maxDelta : Nat) (cursor : RuntraceLogCursor) (steps : List TailStep) :
    RuntraceLogCursor :=
  steps.foldl (tailStep maxDelta) cursor

/-- The delta of a call stays under the cap. -/
def UnderCap (maxDelta : Nat) (cursor : RuntraceLogCursor) : TailStep → Prop
  | .append _ => True
  | .read _ => cursor.log.length - cursor.offset ≤ maxDelta

/-- A call that finds something new finds whole lines, and nothing is added
to them before they are read. -/
def Undisturbed (cursor : RuntraceLogCursor) : TailStep → Prop
  | .append _ => True
  | .read during => cursor.log.length = cursor.offset
      ∨ (during = [] ∧ cursor.log.getLast? = some 10)

/-- A property of every step of a run and the state it starts in. -/
def EachStep (maxDelta : Nat) (holds : RuntraceLogCursor → TailStep → Prop) :
    RuntraceLogCursor → List TailStep → Prop
  | _, [] => True
  | cursor, step :: steps =>
      holds cursor step ∧ EachStep maxDelta holds (tailStep maxDelta cursor step) steps

/-- After the run and one more call, the events are those of the bytes that
were appended. -/
def TailsExactly (maxDelta : Nat) (log : List UInt8) (steps : List TailStep) : Prop :=
  let last := tailRun maxDelta (.start log) (steps ++ [.read []])
  last.returned = parseBytes (last.log.drop log.length)

/-! ## Texts of whole lines -/

theorem strLines_append_newline (front behind : List Char) :
    strLines (front ++ '\n' :: behind) = strLines (front ++ ['\n']) ++ strLines behind := by
  -- by the first line of what is in front
  induction hlen : front.length using Nat.strongRecOn generalizing front with
  | ind n ih =>
      by_cases hmem : '\n' ∈ front
      · obtain ⟨line, rest, rfl, hline⟩ := List.eq_append_cons_of_mem hmem
        have hshort : rest.length < n := by
          rw [← hlen, List.length_append, List.length_cons]
          omega
        rw [List.append_assoc, List.cons_append, strLines_line hline, ih _ hshort rest rfl,
          List.append_assoc, List.cons_append, strLines_line hline, List.cons_append]
      · have hone := strLines_line hmem []
        rw [strLines_line hmem, hone]
        rfl

/-- Behind whole lines, the events go on. -/
theorem parseBytes_append {front : List UInt8} (hfront : front = [] ∨ front.getLast? = some 10)
    (behind : List UInt8) :
    parseBytes (front ++ behind) = parseBytes front ++ parseBytes behind := by
  rcases hfront with rfl | hlast
  · rfl
  · obtain ⟨lines, rfl⟩ := List.getLast?_eq_some_iff.mp hlast
    have hnewline : Char.ofNat (10 : UInt8).toNat = '\n' := by decide
    have hcut := lossy_append_ascii (show (10 : UInt8) < 128 by decide) lines behind
    have hend := lossy_append_ascii (show (10 : UInt8) < 128 by decide) lines []
    rw [hnewline] at hcut hend
    unfold parseBytes parseStr
    rw [List.append_assoc, List.singleton_append, hcut, hend]
    simp only [String.toList_ofList]
    rw [strLines_append_newline, List.flatMap_append]
    rfl

/-! ## Runs -/

/-- The cursor stands behind whole lines, and has returned their events. -/
structure Settled (log : List UInt8) (cursor : RuntraceLogCursor) (done rest : List UInt8) :
    Prop where
  log_eq : cursor.log = log ++ done ++ rest
  offset_eq : cursor.offset = (log ++ done).length
  returned_eq : cursor.returned = parseBytes done
  lines : done = [] ∨ done.getLast? = some 10

theorem settled_start (log : List UInt8) : Settled log (.start log) [] [] :=
  ⟨by simp [RuntraceLogCursor.start], by simp [RuntraceLogCursor.start], rfl, .inl rfl⟩

/-- A call with nothing added meanwhile returns the events of what is new. -/
theorem readNewEvents_eq {log done rest : List UInt8} {maxDelta : Nat}
    {cursor : RuntraceLogCursor} (h : Settled log cursor done rest)
    (hcap : cursor.log.length - cursor.offset ≤ maxDelta) (hrest : rest ≠ []) :
    cursor.readNewEvents maxDelta []
      = ⟨log ++ done ++ rest, (log ++ done ++ rest).length, parseBytes (done ++ rest)⟩ := by
  obtain ⟨hlog, hoffset, hreturned, hlines⟩ := h
  have hpos := List.length_pos_of_ne_nil hrest
  have hlen : cursor.log.length = cursor.offset + rest.length := by
    rw [hlog, hoffset, List.length_append]
  have hdrop : (log ++ done ++ rest).drop (log ++ done).length = rest := List.drop_left
  unfold RuntraceLogCursor.readNewEvents
  dsimp only
  rw [if_neg (by omega : ¬ cursor.log.length < cursor.offset), if_neg (by omega), if_neg (by omega),
    List.append_nil, hlog, hoffset, hreturned, hdrop, parseBytes_append hlines]

theorem readNewEvents_idle {log done : List UInt8} {maxDelta : Nat} {cursor : RuntraceLogCursor}
    (h : Settled log cursor done []) (during : List UInt8) :
    Settled log (cursor.readNewEvents maxDelta during) done during := by
  obtain ⟨hlog, hoffset, hreturned, hlines⟩ := h
  have hlen : cursor.log.length = cursor.offset := by rw [hlog, hoffset, List.append_nil]
  unfold RuntraceLogCursor.readNewEvents
  dsimp only
  rw [if_neg (by omega : ¬ cursor.log.length < cursor.offset), if_pos hlen]
  exact ⟨by rw [hlog, List.append_nil], hoffset, hreturned, hlines⟩

/-- A step that nothing disturbs moves the cursor from one settled place to another. -/
theorem tailStep_settled {log done rest : List UInt8} {maxDelta : Nat}
    {cursor : RuntraceLogCursor} {step : TailStep} (h : Settled log cursor done rest)
    (hcap : UnderCap maxDelta cursor step) (hquiet : Undisturbed cursor step) :
    ∃ done' rest', Settled log (tailStep maxDelta cursor step) done' rest' := by
  cases step with
  | append bytes =>
      refine ⟨done, rest ++ bytes, ?_, h.offset_eq, h.returned_eq, h.lines⟩
      show cursor.log ++ bytes = _
      rw [h.log_eq, List.append_assoc]
  | read during =>
      show ∃ done' rest', Settled log (cursor.readNewEvents maxDelta during) done' rest'
      by_cases hrest : rest = []
      · subst hrest
        exact ⟨done, during, readNewEvents_idle h during⟩
      · have hlen : cursor.log.length ≠ cursor.offset := by
          have hpos := List.length_pos_of_ne_nil hrest
          rw [h.log_eq, h.offset_eq, List.length_append]
          omega
        rcases hquiet with heq | ⟨rfl, hlast⟩
        · exact absurd heq hlen
        · refine ⟨done ++ rest, [], ?_⟩
          rw [readNewEvents_eq h hcap hrest]
          refine ⟨by simp, by simp, rfl, .inr ?_⟩
          rw [h.log_eq, List.getLast?_append_of_ne_nil _ hrest] at hlast
          rw [List.getLast?_append_of_ne_nil _ hrest, hlast]

theorem tailRun_settled {log done rest : List UInt8} {maxDelta : Nat}
    {cursor : RuntraceLogCursor} {steps : List TailStep} (h : Settled log cursor done rest)
    (hcap : EachStep maxDelta (UnderCap maxDelta) cursor steps)
    (hquiet : EachStep maxDelta Undisturbed cursor steps) :
    ∃ done' rest', Settled log (tailRun maxDelta cursor steps) done' rest' := by
  induction steps generalizing cursor done rest with
  | nil => exact ⟨done, rest, h⟩
  | cons step steps ih =>
      obtain ⟨done', rest', h'⟩ := tailStep_settled h hcap.1 hquiet.1
      exact ih h' hcap.2 hquiet.2

theorem eachStep_append {maxDelta : Nat} {holds : RuntraceLogCursor → TailStep → Prop}
    {cursor : RuntraceLogCursor} {steps more : List TailStep} :
    EachStep maxDelta holds cursor (steps ++ more)
      ↔ EachStep maxDelta holds cursor steps
        ∧ EachStep maxDelta holds (tailRun maxDelta cursor steps) more := by
  induction steps generalizing cursor with
  | nil => simp [EachStep, tailRun]
  | cons step steps ih =>
      simp only [List.cons_append, EachStep, ih, and_assoc]
      rfl

/-- Undisturbed calls neither lose nor repeat events. -/
theorem tail_exact {maxDelta : Nat} {log : List UInt8} {steps : List TailStep}
    (hcap : EachStep maxDelta (UnderCap maxDelta) (.start log) (steps ++ [.read []]))
    (hquiet : EachStep maxDelta Undisturbed (.start log) steps) :
    TailsExactly maxDelta log steps := by
  obtain ⟨hcap, hlast⟩ := eachStep_append.mp hcap
  obtain ⟨done, rest, h⟩ := tailRun_settled (settled_start log) hcap hquiet
  have hrun : tailRun maxDelta (.start log) (steps ++ [.read []])
      = (tailRun maxDelta (.start log) steps).readNewEvents maxDelta [] := by
    rw [tailRun, List.foldl_append]
    rfl
  have hdrop : ∀ tail, (log ++ done ++ tail).drop log.length = done ++ tail := by
    intro tail
    rw [List.append_assoc, List.drop_left]
  unfold TailsExactly
  dsimp only
  rw [hrun]
  by_cases hrest : rest = []
  · subst hrest
    have hidle : Settled log ((tailRun maxDelta (.start log) steps).readNewEvents maxDelta [])
        done [] := readNewEvents_idle h []
    obtain ⟨hlog, -, hreturned, -⟩ := hidle
    rw [hlog, hreturned, hdrop, List.append_nil]
  · rw [readNewEvents_eq h hlast.1 hrest]
    dsimp only
    rw [hdrop]

def connectLine : List UInt8 := toUtf8 "\x7b\"e\":\"connect\"\x7d\n"

/-- Two whole lines, the second one between two calls. -/
theorem tail_exact_connects :
    TailsExactly 16777216 [] [.append connectLine, .read [], .append connectLine] :=
  tail_exact (by
    refine ⟨trivial, ?_, trivial, ?_, trivial⟩
    · show _ ≤ _
      decide
    · show _ ≤ _
      decide)
    ⟨trivial, .inr ⟨by decide, by decide⟩, trivial, trivial⟩

/-- A line that is appended while the log is read is returned twice. -/
theorem not_tailsExactly_during :
    EachStep 16777216 (UnderCap 16777216) (.start [])
        [.append connectLine, .read connectLine, .read []]
      ∧ ¬ TailsExactly 16777216 [] [.append connectLine, .read connectLine] := by
  refine ⟨⟨trivial, ?_, ?_, trivial⟩, ?_⟩
  · show _ ≤ _
    decide +kernel
  · show _ ≤ _
    decide +kernel
  · show ¬ (_ = _)
    decide +kernel

end GovFuzz.Cli
