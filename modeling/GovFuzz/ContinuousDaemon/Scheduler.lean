import GovFuzz.Lib.Bytes

/-!
# ContinuousDaemon — the scheduler and its restarts

`crates/continuous_daemon/src/lib.rs`.  Every step holds the scheduler's lock
from its first line to its last: `persist` and `persist_locked` write the
file before they let go of it.  Between the steps any order is possible.
A world also knows what the code does not: which submission a record comes
from, and what state that submission is really in.
-/

namespace GovFuzz.ContinuousDaemon

/-- The states of a job. -/
inductive JobState where
  | queued
  | running
  | complete
  | failed
  deriving DecidableEq, Repr

/-- Neither `Complete` nor `Failed`. -/
def JobState.unfinished : JobState → Bool
  | .queued => true
  | .running => true
  | .complete => false
  | .failed => false

/-- A job of the daemon. -/
structure FuzzJob where
  jobId : String
  projectDir : String
  harnessId : String
  timeBudgetSecs : Nat
  state : JobState
  /-- Tells the submissions apart.  No code looks at it. -/
  serial : Nat
  deriving DecidableEq, Repr

/-- What the lock guards. -/
structure InnerState where
  queue : List FuzzJob
  seen : List FuzzJob
  shutdown : Bool
  nextId : Nat

/-- `format!("J-{:06}", next_id)`. -/
def formatJobId (nextId : Nat) : String :=
  String.ofList ("J-".toList ++ (Nat.toDigits 10 nextId).leftpad 6 '0')

/-- The loops over `seen` in `worker_loop`: the first record with the id. -/
def setState (jobId : String) (state : JobState) : List FuzzJob → List FuzzJob
  | [] => []
  | job :: jobs =>
      if job.jobId = jobId then { job with state := state } :: jobs
      else job :: setState jobId state jobs

/-! ## Starting -/

/-- A job that was running when the daemon went down is queued again. -/
def restoreJob (job : FuzzJob) : FuzzJob :=
  if job.state = .running then { job with state := .queued } else job

/-- `Scheduler::start` on the jobs of the file. -/
def InnerState.start (jobs : List FuzzJob) : InnerState where
  queue := (jobs.map restoreJob).filter fun job => job.state = .queued
  seen := jobs.map restoreJob
  shutdown := false
  nextId := 0

/-! ## Threads -/

/-- Where a worker stands in `worker_loop`. -/
inductive Worker where
  | idle
  /-- The job is taken from the queue, and not persisted as running yet. -/
  | taken (job : FuzzJob)
  | running (job : FuzzJob)
  /-- The final state is in `seen`, and not persisted yet. -/
  | finished (job : FuzzJob)
  deriving DecidableEq

/-- The job a worker is about to run or runs. -/
def Worker.job? : Worker → Option FuzzJob
  | .idle => none
  | .taken job => some job
  | .running job => some job
  | .finished _ => none

/-- The state, the workers, the file and what clients were told. -/
structure World where
  inner : InnerState
  workers : List Worker
  /-- Submissions that are in the queue and not persisted yet. -/
  submitting : List Nat
  /-- `jobs.jsonl`; without a file there are no jobs. -/
  jobsFile : List FuzzJob
  /-- How many submissions there have been. -/
  submissions : Nat
  /-- The state each submission is in. -/
  status : Nat → JobState
  /-- The state each submission was in when the file was last written. -/
  saved : Nat → JobState
  /-- Submissions whose `submit` has returned. -/
  accepted : List Nat
  /-- Submissions that were over when the file was written. -/
  reported : List Nat

/-- What a client asks for. -/
structure SubmitRequest where
  projectDir : String
  harnessId : String
  timeBudgetSecs : Nat

/-- What the daemon does next. -/
inductive DaemonStep where
  /-- `submit`, until it lets go of the lock. -/
  | submit (request : SubmitRequest)
  /-- The rest of `submit`: the file is written and the id returned. -/
  | accept (serial : Nat)
  | dequeue (worker : Nat)
  /-- `persist_locked` before the job is run. -/
  | persistRunning (worker : Nat)
  /-- The run is over. -/
  | complete (worker : Nat) (success : Bool)
  /-- `persist_locked` behind the run. -/
  | persistFinished (worker : Nat)
  /-- `Drop`, before it waits for the workers. -/
  | shutdown
  /-- A crash, or the end of a clean stop; then `Scheduler::start`. -/
  | restart (maxConcurrentJobs : Nat)

namespace World

/-- A new daemon without a jobs file. -/
def fresh (maxConcurrentJobs : Nat) : World where
  inner := .start []
  workers := List.replicate (max maxConcurrentJobs 1) .idle
  submitting := []
  jobsFile := []
  submissions := 0
  status := fun _ => .queued
  saved := fun _ => .queued
  accepted := []
  reported := []

/-- `persist` and `persist_locked`. -/
def persist (w : World) : World :=
  { w with
    jobsFile := w.inner.seen
    saved := w.status
    reported := w.reported ++
      (w.inner.seen.filter fun job => !(w.status job.serial).unfinished).map (·.serial) }

/-- The job of a request, under the next id. -/
def newJob (w : World) (request : SubmitRequest) : FuzzJob where
  jobId := formatJobId w.inner.nextId
  projectDir := request.projectDir
  harnessId := request.harnessId
  timeBudgetSecs := request.timeBudgetSecs
  state := .queued
  serial := w.submissions

/-- The part of `submit` under the lock. -/
def submit (w : World) (request : SubmitRequest) : World :=
  if w.inner.shutdown then w
  else
    let job := w.newJob request
    { w with
      inner :=
        { w.inner with
          queue := w.inner.queue ++ [job]
          seen := w.inner.seen ++ [job]
          nextId := (w.inner.nextId + 1) % 2 ^ 64 }
      submitting := w.submitting ++ [w.submissions]
      submissions := w.submissions + 1
      status := Function.update w.status w.submissions .queued }

/-- The rest of `submit`: the state is written and the client told. -/
def accept (w : World) (serial : Nat) : World :=
  if serial ∈ w.submitting then
    { w.persist with
      submitting := w.submitting.erase serial
      accepted := w.accepted ++ [serial] }
  else w

/-- A worker writes the state of its job into `seen`. -/
def record (w : World) (job : FuzzJob) (state : JobState) : World :=
  { w with
    inner := { w.inner with seen := setState job.jobId state w.inner.seen }
    status := Function.update w.status job.serial state }

/-- A worker takes the next job. -/
def dequeue (w : World) (worker : Nat) : World :=
  match w.inner.shutdown, w.workers[worker]?, w.inner.queue with
  | false, some .idle, job :: queue =>
      let w := w.record job .running
      { w with
        inner := { w.inner with queue := queue }
        workers := w.workers.set worker (.taken job) }
  | _, _, _ => w

/-- The state with the taken job is written. -/
def persistRunning (w : World) (worker : Nat) : World :=
  match w.workers[worker]? with
  | some (.taken job) => { w.persist with workers := w.workers.set worker (.running job) }
  | _ => w

/-- `run_one_job`: the exit status decides. -/
def runOneJob (success : Bool) : JobState := if success then .complete else .failed

/-- A worker ends its job. -/
def complete (w : World) (worker : Nat) (success : Bool) : World :=
  match w.workers[worker]? with
  | some (.running job) =>
      { w.record job (runOneJob success) with
        workers := w.workers.set worker (.finished job) }
  | _ => w

/-- The state with the ended job is written. -/
def persistFinished (w : World) (worker : Nat) : World :=
  match w.workers[worker]? with
  | some (.finished _) => { w.persist with workers := w.workers.set worker .idle }
  | _ => w

/-- What was running is queued again; what is not in the file is gone. -/
def restart (w : World) (maxConcurrentJobs : Nat) : World :=
  { w with
    inner := .start w.jobsFile
    workers := List.replicate (max maxConcurrentJobs 1) .idle
    submitting := []
    status := fun serial => if w.saved serial = .running then .queued else w.saved serial }

end World

/-- One step.  A step that its thread cannot take changes nothing. -/
def daemonStep (w : World) : DaemonStep → World
  | .submit request => w.submit request
  | .accept serial => w.accept serial
  | .dequeue worker => w.dequeue worker
  | .persistRunning worker => w.persistRunning worker
  | .complete worker success => w.complete worker success
  | .persistFinished worker => w.persistFinished worker
  | .shutdown => { w with inner := { w.inner with shutdown := true } }
  | .restart maxConcurrentJobs => w.restart maxConcurrentJobs

/-! ## Ids -/

theorem formatJobId_injective : Function.Injective formatJobId := by
  intro m n h
  have hdigits : (Nat.toDigits 10 m).leftpad 6 '0' = (Nat.toDigits 10 n).leftpad 6 '0' := by
    have hlists := String.ofList_inj.mp h
    exact List.append_cancel_left hlists
  -- the number is read back from the padded digits
  have hread : ∀ k, Nat.ofDigitChars 10 ((Nat.toDigits 10 k).leftpad 6 '0') 0 = k := by
    intro k
    rw [List.leftpad, Nat.ofDigitChars_append, Nat.ofDigitChars_replicate_zero, Nat.mul_zero,
      Nat.ofDigitChars_toDigits (by decide) (by decide)]
  rw [← hread m, hdigits, hread n]

end GovFuzz.ContinuousDaemon
