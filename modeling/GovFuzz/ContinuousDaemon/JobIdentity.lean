import GovFuzz.ContinuousDaemon.Scheduler
import Mathlib.Data.List.Nodup

/-!
# ContinuousDaemon — every job keeps its own record

The counter starts at zero again with the daemon, and the restored jobs have
the ids from zero on: the first submission behind such a restart takes an id
that is in use.  Without one, the id of a record is its place in `seen`, and
the queue and the workers hold every unfinished job once.
-/

namespace GovFuzz.ContinuousDaemon

/-! ## Statement -/

/-- What is to hold of every world. -/
structure JobsSound (w : World) : Prop where
  distinct_ids : (w.inner.seen.map (·.jobId)).Nodup
  own_state : ∀ job ∈ w.inner.seen, job.state = w.status job.serial
  /-- An accepted job is known, and waits or runs in one place until it is over. -/
  kept : ∀ serial ∈ w.accepted, ∃ job ∈ w.inner.seen, job.serial = serial
    ∧ (job.state.unfinished →
        (w.inner.queue.map (·.serial)).count serial
          + ((w.workers.filterMap Worker.job?).map (·.serial)).count serial = 1)
  never_again : ∀ serial ∈ w.reported, serial ∉ w.inner.queue.map (·.serial)
    ∧ serial ∉ (w.workers.filterMap Worker.job?).map (·.serial)

/-- A submission is refused, or every known job was submitted to this daemon
since it was started. -/
def NothingRestored (w : World) : DaemonStep → Prop
  | .submit _ => w.inner.shutdown = true ∨ w.inner.nextId = w.inner.seen.length
  | _ => True

/-- The worlds of the runs in which no submission meets a restored job. -/
inductive Reached : World → Prop where
  | fresh (maxConcurrentJobs : Nat) : Reached (.fresh maxConcurrentJobs)
  | step {w : World} (step : DaemonStep) (h : Reached w) (hstep : NothingRestored w step) :
      Reached (daemonStep w step)

/-! ## Lists of records -/

/-- The id of a record is its place, and its state is the job's own. -/
structure Listed (submissions : Nat) (status : Nat → JobState) (jobs : List FuzzJob) : Prop where
  ids : jobs.map (·.jobId) = (List.range jobs.length).map formatJobId
  serials : (jobs.map (·.serial)).Nodup
  known : ∀ job ∈ jobs, job.serial < submissions
  states : ∀ job ∈ jobs, job.state = status job.serial

namespace Listed

variable {submissions : Nat} {status : Nat → JobState} {jobs : List FuzzJob}

theorem nodup_ids (h : Listed submissions status jobs) : (jobs.map (·.jobId)).Nodup := by
  rw [h.ids]
  exact List.Nodup.map formatJobId_injective List.nodup_range

theorem nil : Listed submissions status [] :=
  ⟨rfl, List.nodup_nil, by simp, by simp⟩

/-- One record more, with the next place as its id. -/
theorem append (h : Listed submissions status jobs) {job : FuzzJob}
    (hid : job.jobId = formatJobId jobs.length) (hserial : job.serial = submissions)
    (hstate : job.state = .queued) :
    Listed (submissions + 1) (Function.update status submissions .queued) (jobs ++ [job]) := by
  refine ⟨?_, ?_, ?_, ?_⟩
  · rw [List.map_append, h.ids, List.length_append, List.length_singleton, List.range_succ,
      List.map_append, List.map_singleton, List.map_singleton, hid]
  · rw [List.map_append, List.map_singleton, hserial]
    refine List.nodup_append.mpr ⟨h.serials, List.nodup_singleton _, ?_⟩
    intro serial hserials new hnew
    obtain ⟨old, hold, rfl⟩ := List.mem_map.mp hserials
    rw [List.mem_singleton.mp hnew]
    exact Nat.ne_of_lt (h.known old hold)
  · intro other hother
    rcases List.mem_append.mp hother with hold | hnew
    · exact Nat.lt_succ_of_lt (h.known other hold)
    · rw [List.mem_singleton.mp hnew, hserial]
      exact Nat.lt_succ_self _
  · intro other hother
    rcases List.mem_append.mp hother with hold | hnew
    · rw [h.states other hold, Function.update_of_ne (Nat.ne_of_lt (h.known other hold))]
    · rw [List.mem_singleton.mp hnew, hserial, Function.update_self, hstate]

/-- What a map that keeps the ids and the serials does to the states. -/
theorem map (h : Listed submissions status jobs) {f : FuzzJob → FuzzJob}
    {status' : Nat → JobState} (hid : ∀ job, (f job).jobId = job.jobId)
    (hserial : ∀ job, (f job).serial = job.serial)
    (hstate : ∀ job ∈ jobs, (f job).state = status' job.serial) :
    Listed submissions status' (jobs.map f) := by
  have hids : (jobs.map f).map (·.jobId) = jobs.map (·.jobId) := by
    rw [List.map_map]
    exact List.map_congr_left fun job _ => hid job
  have hserials : (jobs.map f).map (·.serial) = jobs.map (·.serial) := by
    rw [List.map_map]
    exact List.map_congr_left fun job _ => hserial job
  refine ⟨?_, ?_, ?_, ?_⟩
  · rw [hids, h.ids, List.length_map]
  · rw [hserials]
    exact h.serials
  · intro job hjob
    obtain ⟨old, hold, rfl⟩ := List.mem_map.mp hjob
    rw [hserial]
    exact h.known old hold
  · intro job hjob
    obtain ⟨old, hold, rfl⟩ := List.mem_map.mp hjob
    rw [hserial, hstate old hold]

end Listed

theorem setState_eq_map {jobId : String} {state : JobState} {jobs : List FuzzJob}
    (h : (jobs.map (·.jobId)).Nodup) :
    setState jobId state jobs
      = jobs.map fun job => if job.jobId = jobId then { job with state := state } else job := by
  induction jobs with
  | nil => rfl
  | cons job jobs ih =>
      rw [List.map_cons] at h
      obtain ⟨hnot, hrest⟩ := List.nodup_cons.mp h
      rw [setState, List.map_cons]
      by_cases heq : job.jobId = jobId
      · rw [if_pos heq, if_pos heq]
        -- no record behind the first one has the id
        have hsame : jobs.map (fun job => if job.jobId = jobId then { job with state := state }
            else job) = jobs := by
          rw [List.map_congr_left (g := id), List.map_id]
          intro other hother
          refine if_neg ?_
          rintro rfl
          exact hnot (heq ▸ List.mem_map_of_mem hother)
        rw [hsame]
      · rw [if_neg heq, if_neg heq, ih hrest]

/-- The record of a job is found by its id and by its serial alike. -/
theorem Listed.jobId_eq_iff {submissions : Nat} {status : Nat → JobState} {jobs : List FuzzJob}
    (h : Listed submissions status jobs) {a b : FuzzJob} (ha : a ∈ jobs) (hb : b ∈ jobs) :
    a.jobId = b.jobId ↔ a.serial = b.serial := by
  constructor
  · intro heq
    rw [List.inj_on_of_nodup_map h.nodup_ids ha hb heq]
  · intro heq
    rw [List.inj_on_of_nodup_map h.serials ha hb heq]

/-- Only the record of the submission changes. -/
def withState (serial : Nat) (state : JobState) (job : FuzzJob) : FuzzJob :=
  if job.serial = serial then { job with state := state } else job

theorem withState_jobId (serial : Nat) (state : JobState) (job : FuzzJob) :
    (withState serial state job).jobId = job.jobId := by
  unfold withState
  split <;> rfl

theorem withState_serial (serial : Nat) (state : JobState) (job : FuzzJob) :
    (withState serial state job).serial = job.serial := by
  unfold withState
  split <;> rfl

theorem Listed.setState_eq {submissions : Nat} {status : Nat → JobState} {jobs : List FuzzJob}
    (h : Listed submissions status jobs) {record : FuzzJob} (hrecord : record ∈ jobs)
    (state : JobState) :
    setState record.jobId state jobs = jobs.map (withState record.serial state) := by
  rw [setState_eq_map h.nodup_ids]
  refine List.map_congr_left ?_
  intro job hjob
  unfold withState
  simp only [h.jobId_eq_iff hjob hrecord]

theorem Listed.withState {submissions : Nat} {status : Nat → JobState} {jobs : List FuzzJob}
    (h : Listed submissions status jobs) (serial : Nat) (state : JobState) :
    Listed submissions (Function.update status serial state)
      (jobs.map (withState serial state)) := by
  refine h.map (withState_jobId serial state) (withState_serial serial state) ?_
  intro job hjob
  unfold ContinuousDaemon.withState
  by_cases heq : job.serial = serial
  · rw [if_pos heq, heq, Function.update_self]
  · rw [if_neg heq, Function.update_of_ne heq, h.states job hjob]

theorem Listed.restore {submissions : Nat} {status : Nat → JobState} {jobs : List FuzzJob}
    (h : Listed submissions status jobs) :
    Listed submissions (fun serial => if status serial = .running then .queued else status serial)
      (jobs.map restoreJob) := by
  refine h.map ?_ ?_ ?_
  · intro job
    unfold restoreJob
    split <;> rfl
  · intro job
    unfold restoreJob
    split <;> rfl
  · intro job hjob
    unfold restoreJob
    rw [h.states job hjob]
    split
    · rfl
    · exact h.states job hjob

/-! ## Unfinished jobs -/

/-- What a copy of a job has in common with its record. -/
def key (job : FuzzJob) : Nat × String := (job.serial, job.jobId)

def unfinishedKeys (jobs : List FuzzJob) : List (Nat × String) :=
  (jobs.filter (·.state.unfinished)).map key

theorem mem_unfinishedKeys {jobs : List FuzzJob} {k : Nat × String} :
    k ∈ unfinishedKeys jobs ↔ ∃ job ∈ jobs, job.state.unfinished = true ∧ key job = k := by
  simp [unfinishedKeys, and_assoc]

/-- A record that stays unfinished. -/
theorem unfinishedKeys_running {jobs : List FuzzJob} {serial : Nat}
    (h : ∀ job ∈ jobs, job.serial = serial → job.state.unfinished = true) :
    unfinishedKeys (jobs.map (withState serial .running)) = unfinishedKeys jobs := by
  unfold unfinishedKeys
  induction jobs with
  | nil => rfl
  | cons job jobs ih =>
      have hrest := ih fun other hother => h other (List.mem_cons_of_mem _ hother)
      have hkey : key (withState serial .running job) = key job := by
        rw [key, key, withState_serial, withState_jobId]
      have hsame : (withState serial .running job).state.unfinished = job.state.unfinished := by
        unfold withState
        by_cases heq : job.serial = serial
        · rw [if_pos heq, h job List.mem_cons_self heq]
          rfl
        · rw [if_neg heq]
      rw [List.map_cons, List.filter_cons, List.filter_cons, hsame]
      by_cases hopen : job.state.unfinished = true
      · rw [if_pos hopen, if_pos hopen, List.map_cons, List.map_cons, hkey, hrest]
      · rw [if_neg hopen, if_neg hopen, hrest]

/-- A record that is over. -/
theorem unfinishedKeys_over {jobs : List FuzzJob} {serial : Nat} {state : JobState}
    (hover : state.unfinished = false) :
    unfinishedKeys (jobs.map (withState serial state))
      = (unfinishedKeys jobs).filter fun k => k.1 ≠ serial := by
  unfold unfinishedKeys
  induction jobs with
  | nil => rfl
  | cons job jobs ih =>
      have hkey : key (withState serial state job) = key job := by
        rw [key, key, withState_serial, withState_jobId]
      rw [List.map_cons, List.filter_cons, List.filter_cons]
      by_cases heq : job.serial = serial
      · have hgone : (withState serial state job).state.unfinished = false := by
          rw [withState, if_pos heq, hover]
        rw [hgone, if_neg Bool.false_ne_true, ih]
        by_cases hopen : job.state.unfinished = true
        · rw [if_pos hopen, List.map_cons, List.filter_cons_of_neg (by simp [key, heq])]
        · rw [if_neg hopen]
      · have hsame : withState serial state job = job := if_neg heq
        rw [hsame]
        by_cases hopen : job.state.unfinished = true
        · rw [if_pos hopen, if_pos hopen, List.map_cons, List.map_cons,
            List.filter_cons_of_pos (by simp [key, heq]), ih]
        · rw [if_neg hopen, if_neg hopen, ih]

/-! ## The invariant -/

/-- Jobs that wait or are held by a worker. -/
def World.pending (w : World) : List FuzzJob :=
  w.inner.queue ++ w.workers.filterMap Worker.job?

structure Inv (w : World) : Prop where
  seen : Listed w.submissions w.status w.inner.seen
  file : Listed w.submissions w.saved w.jobsFile
  pending : (w.pending.map key).Perm (unfinishedKeys w.inner.seen)
  file_known : ∀ serial ∈ w.jobsFile.map (·.serial), serial ∈ w.inner.seen.map (·.serial)
  submitting : ∀ serial ∈ w.submitting, serial ∈ w.inner.seen.map (·.serial)
  accepted : ∀ serial ∈ w.accepted, serial ∈ w.jobsFile.map (·.serial)
  reported : ∀ serial ∈ w.reported, serial ∈ w.jobsFile.map (·.serial)
    ∧ (w.saved serial).unfinished = false ∧ (w.status serial).unfinished = false

theorem filterMap_idle (count : Nat) :
    (List.replicate count Worker.idle).filterMap Worker.job? = [] := by
  refine List.filterMap_eq_nil_iff.mpr ?_
  intro worker hworker
  rw [List.eq_of_mem_replicate hworker]
  rfl

namespace Inv

variable {w : World}

/-- The record of a job that waits or is held. -/
theorem record_of_pending (h : Inv w) {job : FuzzJob} (hjob : job ∈ w.pending) :
    ∃ record ∈ w.inner.seen, record.state.unfinished = true ∧ record.serial = job.serial
      ∧ record.jobId = job.jobId := by
  have hkey : key job ∈ unfinishedKeys w.inner.seen :=
    h.pending.mem_iff.mp (List.mem_map_of_mem hjob)
  obtain ⟨record, hrecord, hopen, heq⟩ := mem_unfinishedKeys.mp hkey
  exact ⟨record, hrecord, hopen, congrArg Prod.fst heq, congrArg Prod.snd heq⟩

theorem status_of_pending (h : Inv w) {job : FuzzJob} (hjob : job ∈ w.pending) :
    (w.status job.serial).unfinished = true := by
  obtain ⟨record, hrecord, hopen, hserial, -⟩ := h.record_of_pending hjob
  rw [← hserial, ← h.seen.states record hrecord]
  exact hopen

/-- The serials that wait or are held, each one once. -/
theorem nodup_pending (h : Inv w) : (w.pending.map (·.serial)).Nodup := by
  have hperm : (w.pending.map (·.serial)).Perm
      ((w.inner.seen.filter (·.state.unfinished)).map (·.serial)) := by
    have hfirst := h.pending.map Prod.fst
    unfold unfinishedKeys at hfirst
    rw [List.map_map, List.map_map] at hfirst
    exact hfirst
  refine hperm.nodup_iff.mpr (h.seen.serials.sublist ?_)
  exact List.filter_sublist.map _

theorem fresh (maxConcurrentJobs : Nat) : Inv (.fresh maxConcurrentJobs) := by
  refine ⟨.nil, .nil, ?_, ?_, ?_, ?_, ?_⟩
  · show ((([] : List FuzzJob) ++ (List.replicate _ Worker.idle).filterMap Worker.job?).map
      key).Perm _
    rw [filterMap_idle]
    exact List.Perm.nil
  all_goals
    intro serial hserial
    cases hserial

/-! ## Steps -/

theorem persist (h : Inv w) : Inv w.persist := by
  refine ⟨h.seen, h.seen, h.pending, fun _ hserial => hserial, h.submitting, ?_, ?_⟩
  · intro serial hserial
    exact h.file_known serial (h.accepted serial hserial)
  · intro serial hserial
    rcases List.mem_append.mp hserial with hold | hnew
    · obtain ⟨hfile, -, hover⟩ := h.reported serial hold
      exact ⟨h.file_known serial hfile, hover, hover⟩
    · obtain ⟨job, hjob, rfl⟩ := List.mem_map.mp hnew
      obtain ⟨hseen, hfilter⟩ := List.mem_filter.mp hjob
      have hover : (w.status job.serial).unfinished = false := by simpa using hfilter
      exact ⟨List.mem_map_of_mem hseen, hover, hover⟩

/-- Workers that hold the same jobs as before. -/
theorem workers (h : Inv w) {workers : List Worker}
    (heq : workers.filterMap Worker.job? = w.workers.filterMap Worker.job?) :
    Inv { w with workers := workers } := by
  refine ⟨h.seen, h.file, ?_, h.file_known, h.submitting, h.accepted, h.reported⟩
  show ((w.inner.queue ++ workers.filterMap Worker.job?).map key).Perm _
  rw [heq]
  exact h.pending

theorem accept (h : Inv w) (serial : Nat) : Inv (w.accept serial) := by
  unfold World.accept
  split
  · rename_i hsubmitting
    have hpersist := h.persist
    refine ⟨hpersist.seen, hpersist.file, hpersist.pending, hpersist.file_known, ?_, ?_,
      hpersist.reported⟩
    · intro other hother
      exact h.submitting other (List.mem_of_mem_erase hother)
    · intro other hother
      rcases List.mem_append.mp hother with hold | hnew
      · exact hpersist.accepted other hold
      · rw [List.mem_singleton.mp hnew]
        exact h.submitting serial hsubmitting
  · exact h

/-- A submission keeps the invariant when the service is shutting down or the next number is
a new one. -/
theorem submit (h : Inv w) (request : SubmitRequest)
    (hfresh : w.inner.shutdown = true ∨ w.inner.nextId = w.inner.seen.length) :
    Inv (w.submit request) := by
  unfold World.submit
  split
  · exact h
  · rename_i hopen
    have hid : w.inner.nextId = w.inner.seen.length := hfresh.resolve_left hopen
    have hknown : ∀ serial ∈ w.inner.seen.map (·.serial),
        serial ∈ (w.inner.seen ++ [w.newJob request]).map (·.serial) := by
      intro serial hserial
      rw [List.map_append]
      exact List.mem_append_left _ hserial
    -- a serial that is not in use
    have hnew : ∀ serial ∈ w.jobsFile.map (·.serial), serial ≠ w.submissions := by
      intro serial hserial
      obtain ⟨job, hjob, rfl⟩ := List.mem_map.mp hserial
      exact Nat.ne_of_lt (h.file.known job hjob)
    refine ⟨?_, ?_, ?_, ?_, ?_, h.accepted, ?_⟩
    · exact h.seen.append (by rw [World.newJob, hid]) rfl rfl
    · exact ⟨h.file.ids, h.file.serials,
        fun job hjob => Nat.lt_succ_of_lt (h.file.known job hjob), h.file.states⟩
    · have hkeys : unfinishedKeys (w.inner.seen ++ [w.newJob request])
          = unfinishedKeys w.inner.seen ++ [key (w.newJob request)] := by
        unfold unfinishedKeys
        rw [List.filter_append, List.map_append]
        rfl
      show (((w.inner.queue ++ [w.newJob request]) ++ w.workers.filterMap Worker.job?).map
        key).Perm (unfinishedKeys (w.inner.seen ++ [w.newJob request]))
      rw [hkeys]
      refine List.Perm.trans ?_ (h.pending.append_right _)
      rw [List.append_assoc, World.pending, List.map_append, List.map_append, List.map_append,
        List.append_assoc]
      exact List.perm_append_comm.append_left _
    · intro serial hserial
      exact hknown serial (h.file_known serial hserial)
    · intro serial hserial
      rcases List.mem_append.mp hserial with hold | hlast
      · exact hknown serial (h.submitting serial hold)
      · rw [List.mem_singleton.mp hlast, List.map_append]
        exact List.mem_append_right _ (List.mem_singleton.mpr rfl)
    · intro serial hserial
      obtain ⟨hfile, hsaved, hover⟩ := h.reported serial hserial
      refine ⟨hfile, hsaved, ?_⟩
      show (Function.update w.status w.submissions .queued serial).unfinished = false
      rw [Function.update_of_ne (hnew serial hfile)]
      exact hover

/-- A worker writes the state of a job that is pending.  What is pending
afterwards is left to the caller. -/
theorem record (h : Inv w) {job : FuzzJob} (hjob : job ∈ w.pending) {state : JobState}
    {queue : List FuzzJob} {workers : List Worker}
    (hpending : ((queue ++ workers.filterMap Worker.job?).map key).Perm
      (unfinishedKeys (w.inner.seen.map (withState job.serial state)))) :
    Inv { w.record job state with
      inner := { (w.record job state).inner with queue := queue }
      workers := workers } := by
  obtain ⟨found, hfound, -, hserial, hid⟩ := h.record_of_pending hjob
  have hseen : (w.record job state).inner.seen = w.inner.seen.map (withState job.serial state) := by
    rw [← hserial, ← h.seen.setState_eq hfound state, hid]
    rfl
  have hserials : (w.record job state).inner.seen.map (·.serial)
      = w.inner.seen.map (·.serial) := by
    rw [hseen, List.map_map]
    exact List.map_congr_left fun other _ => withState_serial job.serial state other
  refine ⟨?_, h.file, ?_, ?_, ?_, h.accepted, ?_⟩
  · show Listed _ _ (w.record job state).inner.seen
    rw [hseen]
    exact h.seen.withState job.serial state
  · show ((queue ++ workers.filterMap Worker.job?).map key).Perm
      (unfinishedKeys (w.record job state).inner.seen)
    rw [hseen]
    exact hpending
  · intro serial hfile
    show serial ∈ (w.record job state).inner.seen.map (·.serial)
    rw [hserials]
    exact h.file_known serial hfile
  · intro serial hsubmitting
    show serial ∈ (w.record job state).inner.seen.map (·.serial)
    rw [hserials]
    exact h.submitting serial hsubmitting
  · intro serial hreported
    obtain ⟨hfile, hsaved, hover⟩ := h.reported serial hreported
    refine ⟨hfile, hsaved, ?_⟩
    -- a job that is over is not pending
    have hne : serial ≠ job.serial := by
      rintro rfl
      rw [h.status_of_pending hjob] at hover
      cases hover
    show (Function.update w.status job.serial state serial).unfinished = false
    rw [Function.update_of_ne hne]
    exact hover

/-- A worker at its place in the pool, and another one there. -/
theorem set_split {workers : List Worker} {worker : Nat} {old : Worker}
    (h : workers[worker]? = some old) :
    ∃ front back, workers = front ++ old :: back
      ∧ ∀ new, workers.set worker new = front ++ new :: back := by
  obtain ⟨hlt, hget⟩ := List.getElem?_eq_some_iff.mp h
  refine ⟨workers.take worker, workers.drop (worker + 1), ?_, ?_⟩
  · rw [← hget, ← List.drop_eq_getElem_cons hlt, List.take_append_drop]
  · intro new
    rw [List.set_eq_take_append_cons_drop, if_pos hlt]

/-- Taking a job from the queue keeps the invariant. -/
theorem dequeue (h : Inv w) (worker : Nat) : Inv (w.dequeue worker) := by
  unfold World.dequeue
  split
  · rename_i job queue _ hidle hqueue
    obtain ⟨front, back, hworkers, hset⟩ := set_split hidle
    have hjob : job ∈ w.pending := by
      rw [World.pending, hqueue]
      exact List.mem_cons_self
    refine h.record hjob ?_
    have hopen : ∀ other ∈ w.inner.seen, other.serial = job.serial →
        other.state.unfinished = true := by
      intro other hother heq
      rw [h.seen.states other hother, heq]
      exact h.status_of_pending hjob
    rw [unfinishedKeys_running hopen]
    refine List.Perm.trans ?_ h.pending
    -- the head of the queue is now with the worker
    refine List.Perm.map key ?_
    show (queue ++ (w.workers.set worker (.taken job)).filterMap Worker.job?).Perm _
    rw [hset, World.pending, hqueue, hworkers, List.filterMap_append, List.filterMap_append,
      List.filterMap_cons_some (f := Worker.job?) (a := .taken job) rfl,
      List.filterMap_cons_none (f := Worker.job?) (a := .idle) rfl, List.cons_append,
      ← List.append_assoc, ← List.append_assoc]
    exact List.perm_middle
  · exact h

/-- A completion keeps the invariant. -/
theorem complete (h : Inv w) (worker : Nat) (success : Bool) : Inv (w.complete worker success) := by
  unfold World.complete
  split
  · rename_i job hrunning
    obtain ⟨front, back, hworkers, hset⟩ := set_split hrunning
    have hover : (World.runOneJob success).unfinished = false := by
      cases success <;> rfl
    have hmoved : w.pending.Perm
        (job :: (w.inner.queue
          ++ (w.workers.set worker (.finished job)).filterMap Worker.job?)) := by
      rw [hset, World.pending, hworkers, List.filterMap_append, List.filterMap_append,
        List.filterMap_cons_some (f := Worker.job?) (a := .running job) rfl,
        List.filterMap_cons_none (f := Worker.job?) (a := .finished job) rfl,
        ← List.append_assoc, ← List.append_assoc]
      exact List.perm_middle
    have hjob : job ∈ w.pending := hmoved.mem_iff.mpr List.mem_cons_self
    refine h.record hjob ?_
    rw [unfinishedKeys_over hover]
    -- its serial is pending once, and is taken out on both sides
    have hkeys := (hmoved.map key).symm.trans h.pending
    have hfilter := hkeys.filter fun k => k.1 ≠ job.serial
    rw [List.map_cons, List.filter_cons_of_neg (by simp [key])] at hfilter
    refine List.Perm.trans (List.Perm.of_eq ?_) hfilter
    have hnodup := (hmoved.map (·.serial)).nodup_iff.mp h.nodup_pending
    rw [List.map_cons] at hnodup
    have hgone := (List.nodup_cons.mp hnodup).1
    refine (List.filter_eq_self.mpr ?_).symm
    intro k hk
    obtain ⟨other, hother, rfl⟩ := List.mem_map.mp hk
    have hne : other.serial ≠ job.serial := by
      intro heq
      exact hgone (heq ▸ List.mem_map_of_mem hother)
    exact decide_eq_true hne
  · exact h

theorem persistRunning (h : Inv w) (worker : Nat) : Inv (w.persistRunning worker) := by
  unfold World.persistRunning
  split
  · rename_i job htaken
    obtain ⟨front, back, hworkers, hset⟩ := set_split htaken
    refine h.persist.workers ?_
    show (w.workers.set worker (.running job)).filterMap Worker.job?
      = w.workers.filterMap Worker.job?
    rw [hset, hworkers, List.filterMap_append, List.filterMap_append]
    rfl
  · exact h

theorem persistFinished (h : Inv w) (worker : Nat) : Inv (w.persistFinished worker) := by
  unfold World.persistFinished
  split
  · rename_i job hfinished
    obtain ⟨front, back, hworkers, hset⟩ := set_split hfinished
    refine h.persist.workers ?_
    show (w.workers.set worker .idle).filterMap Worker.job? = w.workers.filterMap Worker.job?
    rw [hset, hworkers, List.filterMap_append, List.filterMap_append]
    rfl
  · exact h

/-- Behind a restart, what is not over is queued. -/
theorem filter_restored (jobs : List FuzzJob) :
    (jobs.map restoreJob).filter (fun job => job.state = .queued)
      = (jobs.map restoreJob).filter (·.state.unfinished) := by
  refine List.filter_congr ?_
  intro job hjob
  obtain ⟨old, -, rfl⟩ := List.mem_map.mp hjob
  cases hstate : old.state <;> simp [restoreJob, hstate, JobState.unfinished]

/-- A restart keeps the invariant. -/
theorem restart (h : Inv w) (maxConcurrentJobs : Nat) : Inv (w.restart maxConcurrentJobs) := by
  have hserials : (w.jobsFile.map restoreJob).map (·.serial) = w.jobsFile.map (·.serial) := by
    rw [List.map_map]
    refine List.map_congr_left ?_
    intro job _
    show (restoreJob job).serial = job.serial
    unfold restoreJob
    split <;> rfl
  refine ⟨h.file.restore, h.file, ?_, ?_, ?_, h.accepted, ?_⟩
  · show (((w.jobsFile.map restoreJob).filter (fun job => job.state = .queued)
      ++ (List.replicate _ Worker.idle).filterMap Worker.job?).map key).Perm _
    rw [filterMap_idle, List.append_nil, filter_restored]
    exact List.Perm.refl _
  · intro serial hserial
    show serial ∈ (w.jobsFile.map restoreJob).map (·.serial)
    rw [hserials]
    exact hserial
  · intro serial hserial
    cases hserial
  · intro serial hserial
    obtain ⟨hfile, hsaved, -⟩ := h.reported serial hserial
    refine ⟨hfile, hsaved, ?_⟩
    show (if w.saved serial = .running then JobState.queued else w.saved serial).unfinished = false
    rw [if_neg ?_]
    · exact hsaved
    · intro hrunning
      rw [hrunning] at hsaved
      cases hsaved

/-- One step of a run without submissions that meet a restored job. -/
theorem step (h : Inv w) {step : DaemonStep} (hstep : NothingRestored w step) :
    Inv (daemonStep w step) := by
  cases step with
  | submit request => exact h.submit request hstep
  | accept serial => exact h.accept serial
  | dequeue worker => exact h.dequeue worker
  | persistRunning worker => exact h.persistRunning worker
  | complete worker success => exact h.complete worker success
  | persistFinished worker => exact h.persistFinished worker
  | shutdown =>
      exact ⟨h.seen, h.file, h.pending, h.file_known, h.submitting, h.accepted, h.reported⟩
  | restart maxConcurrentJobs => exact h.restart maxConcurrentJobs

/-- What the invariant says of the jobs. -/
theorem sound (h : Inv w) : JobsSound w := by
  refine ⟨h.seen.nodup_ids, h.seen.states, ?_, ?_⟩
  · intro serial hserial
    obtain ⟨job, hjob, rfl⟩ := List.mem_map.mp (h.file_known serial (h.accepted serial hserial))
    refine ⟨job, hjob, rfl, ?_⟩
    intro hopen
    have hkey : key job ∈ w.pending.map key :=
      h.pending.mem_iff.mpr (mem_unfinishedKeys.mpr ⟨job, hjob, hopen, rfl⟩)
    obtain ⟨copy, hcopy, heq⟩ := List.mem_map.mp hkey
    have hmem : job.serial ∈ w.pending.map (·.serial) :=
      List.mem_map.mpr ⟨copy, hcopy, congrArg Prod.fst heq⟩
    have hone := List.count_eq_one_of_mem h.nodup_pending hmem
    rw [World.pending, List.map_append, List.count_append] at hone
    exact hone
  · intro serial hserial
    obtain ⟨-, -, hover⟩ := h.reported serial hserial
    have hnot : serial ∉ w.pending.map (·.serial) := by
      intro hmem
      obtain ⟨job, hjob, rfl⟩ := List.mem_map.mp hmem
      rw [h.status_of_pending hjob] at hover
      cases hover
    rw [World.pending, List.map_append, List.mem_append, not_or] at hnot
    exact hnot

end Inv

/-- In a run without submissions that meet a restored job, every job keeps
its own record. -/
theorem jobsSound_of_reached {w : World} (h : Reached w) : JobsSound w := by
  have hinv : Inv w := by
    induction h with
    | fresh maxConcurrentJobs => exact Inv.fresh maxConcurrentJobs
    | step step _ hstep ih => exact ih.step hstep
  exact hinv.sound

def sampleRequest : SubmitRequest := ⟨"/work/p", "H", 60⟩

/-- A job is submitted, accepted, run and reported, with a restart behind. -/
theorem jobsSound_one_job :
    JobsSound (daemonStep (daemonStep (daemonStep (daemonStep (daemonStep (daemonStep (daemonStep
      (.fresh 2) (.submit sampleRequest)) (.accept 0)) (.dequeue 1)) (.persistRunning 1))
      (.complete 1 true)) (.persistFinished 1)) (.restart 2)) := by
  have hsubmit : Reached (daemonStep (.fresh 2) (.submit sampleRequest)) :=
    .step _ (.fresh 2) (.inr rfl)
  have haccept := Reached.step (.accept 0) hsubmit trivial
  have hdequeue := Reached.step (.dequeue 1) haccept trivial
  have hrunning := Reached.step (.persistRunning 1) hdequeue trivial
  have hcomplete := Reached.step (.complete 1 true) hrunning trivial
  have hfinished := Reached.step (.persistFinished 1) hcomplete trivial
  exact jobsSound_of_reached (.step (.restart 2) hfinished trivial)

/-- One job is over; the daemon is started again and given a second one: its
id is in use, and the worker that takes it writes into the record of the
first. -/
theorem not_jobsSound_restarted :
    ∃ steps : List DaemonStep, ∃ w, w = steps.foldl daemonStep (.fresh 1) ∧ ¬ JobsSound w
      ∧ w.inner.seen.map (fun job => (job.jobId, job.state, w.status job.serial))
        = [("J-000000", .running, .complete), ("J-000000", .queued, .running)] := by
  refine ⟨[.submit sampleRequest, .accept 0, .dequeue 0, .persistRunning 0, .complete 0 true,
    .persistFinished 0, .restart 1, .submit sampleRequest, .accept 1, .dequeue 0], _, rfl, ?_, ?_⟩
  · intro hsound
    have hdistinct := hsound.distinct_ids
    revert hdistinct
    decide
  · decide

end GovFuzz.ContinuousDaemon
