import GovFuzz.Lib.Bytes
import GovFuzz.Lib.Lockstep
import Mathlib.Data.List.Basic

/-!
# Runtrace — the faked world of a testcase

The process-global state of the shim and the calls that read it: the fake
random stream (`hooks/determinism.rs`), the published input and its cursor
(`fakes/fuzz_input.rs`, `fakes/data.rs`), the counter of delivered messages
(`hooks/mqueue.rs`) and the table of System V segments (`hooks/mem.rs`).
`govfuzz_shim_set_fuzz_input` starts a testcase; it resets the stream, the
input and the cursor, and nothing else.

What the target sees of ids and addresses is which of them are the same, so
they are answered by the place where they first came up in the testcase.
Where a hook hands the call to the real function, the answer says so.
-/

namespace GovFuzz.Runtrace

open GovFuzz.Lib

/-- What the shim does with a call it knows. -/
inductive Mode where
  | audit
  | empty
  | rng
  | fuzzDriven
  deriving DecidableEq, Repr

/-- The mode answers in the system's place. -/
def Mode.isFaking : Mode → Bool
  | .audit => false
  | _ => true

/-- What stays the same for a process: the pass mode, the determinism gate,
`GOVFUZZ_RUNTRACE_SEED`, and the input of the parent's memfd, if any. -/
structure Config where
  mode : Mode
  determinism : Bool
  seed : Option (List UInt8)
  shared : Option (List UInt8)

/-- A faked shared-memory segment. -/
structure SysvSeg where
  key : Int32
  id : Nat
  ptr : Nat
  contents : List UInt8
  deriving DecidableEq, Repr

/-- The state behind the hooks. -/
structure ShimState where
  rngState : UInt64
  liveInput : Option (List UInt8)
  cursor : Nat
  mqDelivered : Nat
  sysv : List SysvSeg
  /-- The mappings made so far; the next one is at this address. -/
  mapped : Nat
  deriving DecidableEq, Repr

/-- The state of a process that has run nothing. -/
def freshState : ShimState := ⟨0, none, 0, 0, [], 0⟩

/-- The range of `usize`. -/
def usizeRange : Nat := 2 ^ 64

/-! ## The random stream -/

/-- A seed that is not a decimal number counts as none. -/
def seedFromEnv (cfg : Config) : UInt64 :=
  match cfg.seed with
  | none => 0
  | some bytes =>
      if bytes.all fun b => 48 ≤ b && b ≤ 57 then
        bytes.foldl (fun acc b => acc * 10 + (b - 48).toUInt64) 0
      else 0

/-- The state that follows, and the number drawn. -/
def nextRandom (cfg : Config) (state : UInt64) : UInt64 × UInt64 :=
  let state := if state = 0 then seedFromEnv cfg else state
  let state := if state = 0 then 0x9E3779B97F4A7C15 else state
  let state := state ^^^ (state >>> 12)
  let state := state ^^^ (state <<< 25)
  let state := state ^^^ (state >>> 27)
  (state, state * 0x2545F4914F6CDD1D)

/-- FNV-1a over the input, from the campaign's seed. -/
def inputSeed (input : List UInt8) (campaignSeed : UInt64) : UInt64 :=
  let state := input.foldl (fun state b => (state ^^^ b.toUInt64) * 0x100000001b3)
    (0xcbf29ce484222325 ^^^ campaignSeed)
  let state := state ^^^ UInt64.ofNat input.length
  if state = 0 then 0x9E3779B97F4A7C15 else state

/-- The generator starts again for each input. -/
def resetForInput (cfg : Config) (input : List UInt8) (s : ShimState) : ShimState :=
  if cfg.determinism then { s with rngState := inputSeed input (seedFromEnv cfg) } else s

/-- `u64::to_le_bytes`. -/
def toLeBytes (n : UInt64) : List UInt8 :=
  (List.range 8).map fun i => (n >>> UInt64.ofNat (8 * i)).toUInt8

/-- The loop of `getrandom`: up to eight bytes of each number. -/
def randomBytes (cfg : Config) (buflen : Nat) (state : UInt64) : List UInt8 × UInt64 :=
  if buflen = 0 then ([], state)
  else
    let (state, number) := nextRandom cfg state
    let take := min 8 buflen
    let (bytes, state) := randomBytes cfg (buflen - take) state
    ((toLeBytes number).take take ++ bytes, state)
termination_by buflen

/-! ## The input -/

/-- A new input: its seed, its bytes and the cursor at zero. -/
def setFuzzInput (cfg : Config) (data : List UInt8) (s : ShimState) : ShimState :=
  { resetForInput cfg data s with liveInput := some data, cursor := 0 }

/-- `len` bytes of a source from `start` on, around its end. -/
def window (source : List UInt8) (start len : Nat) : List UInt8 :=
  (List.range len).map fun i => source.getD (((start + i) % usizeRange) % source.length) 0

/-- The input of the testcase, or else the parent's. -/
def currentSource (cfg : Config) (s : ShimState) : Option (List UInt8) :=
  match s.liveInput with
  | some bytes => some bytes
  | none => cfg.shared

/-- Bytes of the input, as many as are left. -/
def readInto (cfg : Config) (len : Nat) (s : ShimState) : ShimState × List UInt8 :=
  match currentSource cfg s with
  | none => (s, [])
  | some source =>
      if len = 0 || source.isEmpty then (s, [])
      else ({ s with cursor := (s.cursor + len) % usizeRange }, window source s.cursor len)

/-- The seed of a resource's own stream. -/
def fnvSeed (cfg : Config) (resource : List UInt8) : UInt64 :=
  (resource ++ cfg.seed.getD []).foldl (fun h b => (h ^^^ b.toUInt64) * 0x100000001b3)
    0xcbf29ce484222325

/-- Bytes of xorshift, one a round. -/
def fillRngLoop : Nat → UInt64 → List UInt8
  | 0, _ => []
  | len + 1, state =>
      let state := state ^^^ (state <<< 13)
      let state := state ^^^ (state >>> 7)
      let state := state ^^^ (state <<< 17)
      (state &&& 0xff).toUInt8 :: fillRngLoop len state

/-- Bytes that depend on the resource alone. -/
def fillRng (cfg : Config) (resource : List UInt8) (len : Nat) : List UInt8 :=
  let seed := fnvSeed cfg resource
  fillRngLoop len (if seed = 0 then 0xdeadbeefcafebabe else seed)

/-- Bytes of the input from a place that the key chooses. -/
def readKeyed (cfg : Config) (key : UInt64) (len : Nat) (s : ShimState) : List UInt8 :=
  match currentSource cfg s with
  | none => []
  | some source =>
      if len = 0 || source.isEmpty then [] else window source (key.toNat % source.length) len

/-- The bytes served for a resource, as many as there are. -/
def fillBytes (cfg : Config) (resource : List UInt8) (len : Nat) (s : ShimState) : List UInt8 :=
  match cfg.mode with
  | .audit => []
  | .empty => []
  | .rng => fillRng cfg resource len
  | .fuzzDriven => readKeyed cfg (fnvSeed cfg resource) len s

/-! ## Messages and segments -/

/-- `MQ_DELIVERY_CAP`. -/
def mqDeliveryCap : Nat := 256

/-- The id of the first faked segment. -/
def sysvSynthBase : Nat := 0x47560000

/-- Faked segments of one process. -/
def sysvCap : Nat := 256

/-- Bytes of a segment that are filled. -/
def fakeShmFill : Nat := 64 * 1024

def ipcPrivate : Int32 := 0

def ipcRmid : Int32 := 0

def ipcStat : Int32 := 2

def mqueueName : List UInt8 := [109, 113, 117, 101, 117, 101]

def sysvName : List UInt8 := [115, 121, 115, 118]

/-- A new segment: what `fill_region` writes, and zeros behind it. -/
def segmentContents (cfg : Config) (len : Nat) (s : ShimState) : List UInt8 :=
  let filled := fillBytes cfg sysvName (min len fakeShmFill) s
  filled ++ List.replicate (len - filled.length) 0

/-! ## Calls -/

/-- The calls of a testcase.  A segment is given as the place of the
`shmget` of the testcase that returned its id. -/
inductive Call where
  | rand
  | random
  | srand (seed : UInt32)
  | getrandom (buflen : Option Nat)
  | readInto (len : Nat)
  | fillBytes (resource : List UInt8) (len : Nat)
  | mqReceive (msgLen : Option Nat) (msgPrio : Bool) (timed : Bool)
  | shmget (key : Int32) (size : Nat)
  | shmat (segment : Nat)
  | shmctl (segment : Nat) (cmd : Int32) (buf : Bool)
  deriving DecidableEq, Repr

/-- What a call gives back to the harness. -/
inductive Answer where
  | none
  | value (n : Nat)
  | failed
  | bytes (bytes : List UInt8)
  | message (bytes : List UInt8) (prio : Option Nat)
  | noMessage (timedOut : Bool)
  | segment (first : Nat)
  | attached (first : Nat) (contents : List UInt8)
  | invalid
  | segmentSize (size : Nat)
  | done
  | real
  deriving DecidableEq, Repr

/-- The ids and addresses that the testcase was given; no id where the real
`shmget` answered. -/
structure Seen where
  ids : List (Option Nat)
  addresses : List Nat
  deriving DecidableEq, Repr

/-- The shim and what the harness has been given. -/
structure World where
  shim : ShimState
  seen : Seen
  deriving DecidableEq, Repr

/-- A number of the generator, or the system's. -/
def draw (cfg : Config) (w : World) : World × Answer :=
  if cfg.determinism then
    let (state, number) := nextRandom cfg w.shim.rngState
    ({ w with shim := { w.shim with rngState := state } }, .value (number >>> 33).toNat)
  else (w, .real)

/-- One message of the queue, until the cap. -/
def deliverMessage (cfg : Config) (msgLen : Option Nat) (msgPrio timed : Bool) (w : World) :
    World × Answer :=
  if cfg.mode = .empty then (w, .noMessage timed)
  else
    let counted := { w with
      shim := { w.shim with mqDelivered := (w.shim.mqDelivered + 1) % usizeRange } }
    if mqDeliveryCap ≤ w.shim.mqDelivered then (counted, .noMessage timed)
    else
      match msgLen with
      | none => (counted, .message [] none)
      | some 0 => (counted, .message [] none)
      | some len =>
          (counted,
            .message (fillBytes cfg mqueueName len w.shim) (if msgPrio then some 0 else none))

/-- The harness learns an id. -/
def giveId (id : Nat) (w : World) : World × Answer :=
  ({ w with seen := { w.seen with ids := w.seen.ids ++ [some id] } },
    .segment (w.seen.ids.idxOf (some id)))

/-- A faked segment, within the cap. -/
def newSegment (cfg : Config) (key : Int32) (size : Nat) (w : World) : World × Answer :=
  if w.shim.sysv.length < sysvCap then
    let id := sysvSynthBase + w.shim.sysv.length
    let segment := ⟨key, id, w.shim.mapped, segmentContents cfg (max size 1) w.shim⟩
    giveId id { w with
      shim := { w.shim with sysv := w.shim.sysv ++ [segment], mapped := w.shim.mapped + 1 } }
  else ({ w with seen := { w.seen with ids := w.seen.ids ++ [none] } }, .real)

/-- The segment of a key, made at the first call. -/
def shmget (cfg : Config) (key : Int32) (size : Nat) (w : World) : World × Answer :=
  if cfg.mode.isFaking then
    if key ≠ ipcPrivate then
      match w.shim.sysv.find? fun seg => seg.key = key with
      | some seg => giveId seg.id w
      | none => newSegment cfg key size w
    else newSegment cfg key size w
  else ({ w with seen := { w.seen with ids := w.seen.ids ++ [none] } }, .real)

/-- The id that a `shmget` of the testcase returned, if it is one of the
shim's. -/
def idOf (w : World) (segment : Nat) : Option Nat := (w.seen.ids[segment]?).join

/-- The contents of a segment. -/
def shmat (segment : Nat) (w : World) : World × Answer :=
  match idOf w segment with
  | none => (w, .real)
  | some id =>
      match w.shim.sysv.find? fun seg => seg.id = id with
      | some seg =>
          ({ w with seen := { w.seen with addresses := w.seen.addresses ++ [seg.ptr] } },
            .attached (w.seen.addresses.idxOf seg.ptr) seg.contents)
      | none => (w, .invalid)

/-- Removal and status of a segment. -/
def shmctl (segment : Nat) (cmd : Int32) (buf : Bool) (w : World) : World × Answer :=
  match idOf w segment with
  | none => (w, .real)
  | some id =>
      match w.shim.sysv.find? fun seg => seg.id = id with
      | some seg =>
          if cmd = ipcRmid then
            ({ w with shim := { w.shim with
                sysv := w.shim.sysv.eraseP fun seg => seg.id = id } }, .done)
          else if cmd = ipcStat && buf then (w, .segmentSize seg.contents.length)
          else (w, .done)
      | none => (w, .invalid)

/-- One call of the harness. -/
def step (cfg : Config) (w : World) : Call → World × Answer
  | .rand => draw cfg w
  | .random => draw cfg w
  | .srand seed =>
      if cfg.determinism then
        ({ w with shim := { w.shim with rngState := if seed = 0 then 1 else seed.toUInt64 } },
          .none)
      else (w, .real)
  | .getrandom buflen =>
      if cfg.determinism then
        match buflen with
        | none => (w, .failed)
        | some buflen =>
            let (bytes, state) := randomBytes cfg buflen w.shim.rngState
            ({ w with shim := { w.shim with rngState := state } }, .bytes bytes)
      else (w, .real)
  | .readInto len =>
      let (shim, bytes) := readInto cfg len w.shim
      ({ w with shim := shim }, .bytes bytes)
  | .fillBytes resource len => (w, .bytes (fillBytes cfg resource len w.shim))
  | .mqReceive msgLen msgPrio timed =>
      if cfg.mode.isFaking then deliverMessage cfg msgLen msgPrio timed w else (w, .real)
  | .shmget key size => shmget cfg key size w
  | .shmat segment => shmat segment w
  | .shmctl segment cmd buf => shmctl segment cmd buf w

/-! ## Testcases -/

/-- An input and the calls the harness makes on it. -/
structure Testcase where
  input : List UInt8
  calls : List Call

/-- What a testcase leaves behind and what it sees. -/
def runTestcase (cfg : Config) (s : ShimState) (t : Testcase) : ShimState × List Answer :=
  let (w, answers) := runSteps (step cfg) ⟨setFuzzInput cfg t.input s, ⟨[], []⟩⟩ t.calls
  (w.shim, answers)

/-- The state that a history leaves. -/
def stateAfter (cfg : Config) (history : List Testcase) : ShimState :=
  history.foldl (fun s t => (runTestcase cfg s t).1) freshState

end GovFuzz.Runtrace
