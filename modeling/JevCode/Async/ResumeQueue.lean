import JevCode.Async.JobOutput
import JevCode.Data.InsertionMap
import Mathlib.Data.Finset.Card

/-! `async/job-manager.ts`: the limit on running jobs, the reservations of room under it, and the
queue of subagents that wait for room to be resumed. A job is known by its generation. -/

namespace JevCode.Async

open JevCode.Data

inductive SubagentLifecycle
  | running
  | paused
  | queued
  | completed
  | failed
  | cancelled
  deriving DecidableEq

structure Job where
  generation : Nat
  status : JobStatus
  ownerId : Option String
  settled : Bool
  deriving DecidableEq

structure QueuedResume where
  seq : Nat
  message : Option String
  deriving DecidableEq

structure SubagentRecord where
  ownerId : Option String
  currentJob : Option Nat
  historicalJobs : List Nat
  status : SubagentLifecycle
  hasContext : Bool
  queued : Option QueuedResume
  deriving DecidableEq

structure ResumeQueueEntry where
  subagentId : String
  ownerId : Option String
  seq : Nat
  message : Option String
  deriving DecidableEq

inductive ManagerError
  | disposed
  | ownerSubagentShutdown
  | shuttingDown
  | invalidAdmission
  | limitReached (maxRunningJobs : Nat)
  deriving DecidableEq

structure ResumeResult where
  ok : Bool
  status : Option SubagentLifecycle := none
  jobId : Option Nat := none
  queued : Bool := false
  reason : Option String := none
  deriving DecidableEq

structure JobManager where
  maxRunningJobs : Nat
  disposed : Bool
  registrationClosed : Bool
  fencedOwners : List String
  hasResumeRunner : Bool
  jobs : List Job
  jobGenerationSeq : Nat
  admissions : List Nat
  pendingAdmissions : Nat
  nextAdmission : Nat
  records : InsertionMap String SubagentRecord
  resumeQueue : List ResumeQueueEntry
  resumeSeq : Nat
  waitGenerationAliases : List ((String × Nat) × Nat)
  queuedTerminals : List ((String × Nat) × JobStatus)

namespace JobManager

def getRunningJobs (m : JobManager) : List Job := m.jobs.filter fun job => job.status = .running

def isFenced (m : JobManager) (ownerId : Option String) : Bool :=
  ownerId.elim false fun owner => owner ∈ m.fencedOwners

def hasCapacity (m : JobManager) : Bool :=
  m.getRunningJobs.length + m.pendingAdmissions < m.maxRunningJobs

def consumeAdmission (m : JobManager) (token : Nat) : Option JobManager :=
  if token ∈ m.admissions then
    some { m with
      admissions := m.admissions.filter (· ≠ token)
      pendingAdmissions := m.pendingAdmissions - 1 }
  else none

def reserveCapacity (m : JobManager) : Except ManagerError (JobManager × Nat) :=
  if m.disposed || m.registrationClosed || !m.hasCapacity
    then .error (.limitReached m.maxRunningJobs)
  else
    .ok ({ m with
      admissions := m.admissions ++ [m.nextAdmission]
      pendingAdmissions := m.pendingAdmissions + 1
      nextAdmission := m.nextAdmission + 1 }, m.nextAdmission)

def releaseCapacity (m : JobManager) (token : Nat) : JobManager := (m.consumeAdmission token).getD m

def addJob (m : JobManager) (ownerId : Option String) : JobManager × Nat :=
  ({ m with
    jobs := m.jobs ++ [⟨m.jobGenerationSeq + 1, .running, ownerId, false⟩]
    jobGenerationSeq := m.jobGenerationSeq + 1 }, m.jobGenerationSeq + 1)

def register (m : JobManager) (ownerId : Option String) (admissionToken : Option Nat) :
    Except ManagerError (JobManager × Nat) :=
  if m.disposed then .error .disposed
  else if m.isFenced ownerId then .error .ownerSubagentShutdown
  else if m.registrationClosed then .error .shuttingDown
  else
    match admissionToken with
    | some token =>
      match m.consumeAdmission token with
      | none => .error .invalidAdmission
      | some m => .ok (m.addJob ownerId)
    | none =>
      if m.hasCapacity then .ok (m.addJob ownerId) else .error (.limitReached m.maxRunningJobs)

def setRecord (m : JobManager) (subagentId : String) (rec : SubagentRecord) : JobManager :=
  { m with records := m.records.set subagentId rec }

def setJobStatus (m : JobManager) (generation : Nat) (status : JobStatus) : JobManager :=
  { m with jobs := m.jobs.map fun job => if job.generation = generation then { job with
    status := status } else job }

def setSettled (m : JobManager) (generation : Nat) : JobManager :=
  { m with jobs := m.jobs.map fun job => if job.generation = generation then { job with
    settled := true } else job }

def getJob (m : JobManager) (generation : Nat) : Option Job := m.jobs.find? fun job =>
  job.generation = generation

def recordByJobId (m : JobManager) (generation : Nat) : Option (String × SubagentRecord) :=
  m.records.entries.find? fun e => e.2.currentJob = some generation

def markRecord (m : JobManager) (generation : Nat) (status : SubagentLifecycle) : JobManager :=
  match m.recordByJobId generation with
  | none => m
  | some (subagentId, rec) => m.setRecord subagentId { rec with status := status }

def getSubagentRecord (m : JobManager) (subagentId : String) (filter : Option String) :
    Option SubagentRecord :=
  (m.records.get? subagentId).filter fun rec => !hiddenFrom filter rec.ownerId

def publishQueuedTerminal (m : JobManager) (subagentId : String) (seq : Nat) (status : JobStatus)
    (lifecycle : SubagentLifecycle) : JobManager :=
  if (subagentId, seq) ∈ m.queuedTerminals.map Prod.fst then m
  else
    let m := { m with queuedTerminals := m.queuedTerminals ++ [((subagentId, seq), status)] }
    match m.records.get? subagentId with
    | none => m
    | some rec =>
      m.setRecord subagentId { rec with currentJob := none, status := lifecycle, queued := none }

def startResume (m : JobManager) (subagentId : String) (rec : SubagentRecord) :
    Except ManagerError (JobManager × ResumeResult) :=
  if m.isFenced rec.ownerId then
    .ok (m, { ok := false, status := rec.status, reason := some "owner_shutdown_in_progress" })
  else if !m.hasResumeRunner then .ok (m, { ok := false, reason := some "resume_failed" })
  else
    match m.register rec.ownerId none with
    | .error error => .error error
    | .ok (m, newJob) =>
      let m := m.setRecord subagentId { rec with
        currentJob := some newJob
        historicalJobs := rec.historicalJobs ++ rec.currentJob.toList
        status := .running
        queued := none }
      let m := { m with waitGenerationAliases :=
        m.waitGenerationAliases ++
          (rec.queued.map fun queued => ((subagentId, queued.seq), newJob)).toList }
      .ok (m, { ok := true, status := some .running, jobId := some newJob })

def failQueued (m : JobManager) (subagentId : String) (rec : SubagentRecord) : JobManager :=
  match rec.queued with
  | none => m
  | some queued => m.publishQueuedTerminal subagentId queued.seq .failed .failed

def drainLoop (m : JobManager) (skipped : List ResumeQueueEntry) : List ResumeQueueEntry → JobManager
  | [] => { m with resumeQueue := skipped }
  | entry :: rest =>
    if m.getRunningJobs.length < m.maxRunningJobs then
      match m.records.get? entry.subagentId with
      | none => m.drainLoop skipped rest
      | some rec =>
        if rec.status ≠ .queued then m.drainLoop skipped rest
        else if m.isFenced entry.ownerId then m.drainLoop (skipped ++ [entry]) rest
        else
          match m.startResume entry.subagentId rec with
          | .ok (m, result) =>
            if result.ok then m.drainLoop skipped rest
            else if result.reason = some "owner_shutdown_in_progress"
              then m.drainLoop (skipped ++ [entry]) rest
            else (m.failQueued entry.subagentId rec).drainLoop skipped rest
          | .error .ownerSubagentShutdown => m.drainLoop (skipped ++ [entry]) rest
          | .error _ => (m.failQueued entry.subagentId rec).drainLoop skipped rest
    else { m with resumeQueue := skipped ++ entry :: rest }

def drainResumeQueue (m : JobManager) : JobManager :=
  m.drainLoop [] (m.resumeQueue.mergeSort fun a b => a.seq ≤ b.seq)

def enqueueResume (m : JobManager) (subagentId : String) (rec : SubagentRecord)
    (message : Option String) :
    JobManager :=
  let seq := m.resumeSeq + 1
  { m.setRecord subagentId { rec with status := .queued, queued := some ⟨seq, message⟩ } with
    resumeQueue := m.resumeQueue ++ [⟨subagentId, rec.ownerId, seq, message⟩]
    resumeSeq := seq }

def setMessage (subagentId text : String) : List ResumeQueueEntry → List ResumeQueueEntry
  | [] => []
  | entry :: rest =>
    if entry.subagentId = subagentId then { entry with message := some text } :: rest
    else entry :: setMessage subagentId text rest

def replaceMessage (m : JobManager) (subagentId : String) (rec : SubagentRecord)
    (queued : QueuedResume) (text : String) : JobManager :=
  { m.setRecord subagentId { rec with queued := some { queued with message := some text } } with
    resumeQueue := setMessage subagentId text m.resumeQueue }

def resumeSubagent (m : JobManager) (subagentId : String) (filter message : Option String) :
    Except ManagerError (JobManager × ResumeResult) :=
  match m.getSubagentRecord subagentId filter with
  | none => .ok (m, { ok := false, reason := some "not_found" })
  | some rec =>
    if m.isFenced rec.ownerId then
      .ok (m, { ok := false, status := rec.status, reason := some "owner_shutdown_in_progress" })
    else if rec.status = .running then
      .ok (m, { ok := false, status := some .running, reason := some "already_running" })
    else if rec.status = .queued then
      match message, rec.queued with
      | some text, some queued =>
        .ok (m.replaceMessage subagentId rec queued text,
          { ok := true, queued := true, status := some .queued })
      | _, _ => .ok (m, { ok := false, status := some .queued, reason := some "already_queued" })
    else if !rec.hasContext then .ok (m, { ok := false, reason := some "context_unavailable" })
    else if !m.hasResumeRunner then .ok (m, { ok := false, reason := some "no_runner" })
    else if m.maxRunningJobs ≤ m.getRunningJobs.length then
      .ok (m.enqueueResume subagentId rec message,
        { ok := true, queued := true, status := some .queued })
    else m.startResume subagentId rec

def cancel (m : JobManager) (generation : Nat) (filter : Option String) : JobManager :=
  match m.getJob generation with
  | none => m
  | some job =>
    if hiddenFrom filter job.ownerId then m
    else if job.status = .paused then
      ((m.setJobStatus generation .cancelled).markRecord generation .cancelled).drainResumeQueue
    else if job.status = .running then (m.setJobStatus generation .cancelled).markRecord
      generation .cancelled
    else m

def pausedJob? (m : JobManager) (rec : SubagentRecord) : Option Job :=
  rec.currentJob.bind fun generation => (m.getJob generation).filter fun job => job.status = .paused

def dequeue (m : JobManager) (subagentId : String) (rec : SubagentRecord) : JobManager :=
  { m.setRecord subagentId { rec with status := .cancelled } with
    resumeQueue := m.resumeQueue.eraseP fun entry => entry.subagentId = subagentId }

def cancelQueued (m : JobManager) (subagentId : String) (rec : SubagentRecord) : JobManager :=
  let m := rec.queued.elim (m.dequeue subagentId rec) fun queued =>
    (m.dequeue subagentId rec).publishQueuedTerminal subagentId queued.seq .cancelled .cancelled
  match m.records.get? subagentId with
  | none => m
  | some rec => m.setRecord subagentId { rec with queued := none }

def cancelSubagent (m : JobManager) (subagentId : String) (filter : Option String) : JobManager :=
  match m.getSubagentRecord subagentId filter with
  | none => m
  | some rec =>
    match rec.status, rec.currentJob with
    | .running, some generation => m.cancel generation filter
    | .paused, _ =>
      let m := (m.pausedJob? rec).elim m fun job => m.setJobStatus job.generation .cancelled
      (m.setRecord subagentId { rec with status := .cancelled }).drainResumeQueue
    | .queued, _ => m.cancelQueued subagentId rec
    | _, _ => m

inductive RunOutcome
  | completed
  | failed
  | paused
  deriving DecidableEq

def RunOutcome.jobStatus : RunOutcome → JobStatus
  | .completed => .completed
  | .failed => .failed
  | .paused => .paused

def RunOutcome.lifecycle : RunOutcome → SubagentLifecycle
  | .completed => .completed
  | .failed => .failed
  | .paused => .paused

def settle (m : JobManager) (generation : Nat) (outcome : RunOutcome) : JobManager :=
  match m.getJob generation with
  | none => m
  | some job =>
    if job.settled then m
    else
      let m := m.setSettled generation
      let m :=
        if job.status = .cancelled then m.markRecord generation .cancelled
        else (m.setJobStatus generation outcome.jobStatus).markRecord generation outcome.lifecycle
      m.drainResumeQueue

inductive Event
  | register (ownerId : Option String) (admissionToken : Option Nat)
  | reserveCapacity
  | releaseCapacity (token : Nat)
  | resumeSubagent (subagentId : String) (filter message : Option String)
  | cancel (generation : Nat) (filter : Option String)
  | cancelSubagent (subagentId : String) (filter : Option String)
  | settle (generation : Nat) (outcome : RunOutcome)
  deriving DecidableEq

/-- The manager after an event; one that throws changes nothing. -/
def after (m : JobManager) : Event → JobManager
  | .register ownerId admissionToken =>
    match m.register ownerId admissionToken with
    | .ok (m', _) => m'
    | .error _ => m
  | .reserveCapacity =>
    match m.reserveCapacity with
    | .ok (m', _) => m'
    | .error _ => m
  | .releaseCapacity token => m.releaseCapacity token
  | .resumeSubagent subagentId filter message =>
    match m.resumeSubagent subagentId filter message with
    | .ok (m', _) => m'
    | .error _ => m
  | .cancel generation filter => m.cancel generation filter
  | .cancelSubagent subagentId filter => m.cancelSubagent subagentId filter
  | .settle generation outcome => m.settle generation outcome

end JobManager

end JevCode.Async
