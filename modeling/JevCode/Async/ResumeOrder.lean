import JevCode.Async.ResumeQueueLaws

namespace JevCode.Async

open JevCode.Data

namespace JobManager

structure Start where
  before : JobManager
  seq : Option Nat

def Waits (m : JobManager) (subagentId : String) (seq : Nat) : Prop :=
  ∃ rec, m.records.get? subagentId = some rec ∧ queuedSeq? rec = some seq

/-- No earlier resume waits; every resume that waits is earlier than one that starts with its
request. -/
def Start.InTurn (start : Start) : Prop :=
  ∀ subagentId seq, start.before.Waits subagentId seq → ∃ own, start.seq = some own ∧ own ≤ seq

def drainStarts (m : JobManager) : List ResumeQueueEntry → List Start
  | [] => []
  | entry :: rest =>
    if m.getRunningJobs.length < m.maxRunningJobs then
      match m.records.get? entry.subagentId with
      | none => m.drainStarts rest
      | some rec =>
        if rec.status ≠ .queued then m.drainStarts rest
        else if m.isFenced entry.ownerId then m.drainStarts rest
        else
          match m.startResume entry.subagentId rec with
          | .ok (served, result) =>
            if result.ok then ⟨m, rec.queued.map QueuedResume.seq⟩ :: served.drainStarts rest
            else if result.reason = some "owner_shutdown_in_progress" then served.drainStarts rest
            else (served.failQueued entry.subagentId rec).drainStarts rest
          | .error .ownerSubagentShutdown => m.drainStarts rest
          | .error _ => (m.failQueued entry.subagentId rec).drainStarts rest
    else []

def queueStarts (m : JobManager) : List Start :=
  m.drainStarts (m.resumeQueue.mergeSort fun a b => a.seq ≤ b.seq)

def cancelDrains (m : JobManager) (generation : Nat) (filter : Option String) : Option JobManager :=
  (m.getJob generation).bind fun job =>
    if hiddenFrom filter job.ownerId = false ∧ job.status = .paused then
      some ((m.setJobStatus generation .cancelled).markRecord generation .cancelled)
    else none

def drains (m : JobManager) : Event → Option JobManager
  | .cancel generation filter => m.cancelDrains generation filter
  | .cancelSubagent subagentId filter =>
    (m.getSubagentRecord subagentId filter).bind fun rec =>
      match rec.status, rec.currentJob with
      | .running, some generation => m.cancelDrains generation filter
      | .paused, _ =>
        let ended := (m.pausedJob? rec).elim m fun job => m.setJobStatus job.generation .cancelled
        some (ended.setRecord subagentId { rec with status := .cancelled })
      | _, _ => none
  | .settle generation outcome =>
    (m.getJob generation).bind fun job =>
      if job.settled then none
      else if job.status = .cancelled
        then some ((m.setSettled generation).markRecord generation .cancelled)
      else some (((m.setSettled generation).setJobStatus generation outcome.jobStatus).markRecord
        generation
        outcome.lifecycle)
  | _ => none

def starts (m : JobManager) : Event → List Start
  | .resumeSubagent subagentId filter message =>
    match m.resumeSubagent subagentId filter message with
    | .ok (_, result) => (result.jobId.map fun _ => ⟨m, none⟩).toList
    | .error _ => []
  | event => (m.drains event).elim [] queueStarts

def runStarts (m : JobManager) : List Event → List Start
  | [] => []
  | event :: events => m.starts event ++ (m.after event).runStarts events

def AsksInTurn (m : JobManager) : Event → Prop
  | .resumeSubagent subagentId filter _ => ∀ rec ∈ m.resumable? subagentId filter,
    if m.getRunningJobs.length < m.maxRunningJobs then
      ∀ entry ∈ m.resumeQueue, m.isQueued entry.subagentId = false
    else ∀ entry ∈ m.resumeQueue, entry.subagentId ≠ subagentId
  | _ => True

instance (m : JobManager) : ∀ event, Decidable (m.AsksInTurn event)
  | .resumeSubagent subagentId filter _ =>
    inferInstanceAs (Decidable (∀ rec ∈ m.resumable? subagentId filter,
      if m.getRunningJobs.length < m.maxRunningJobs then
        ∀ entry ∈ m.resumeQueue, m.isQueued entry.subagentId = false
      else ∀ entry ∈ m.resumeQueue, entry.subagentId ≠ subagentId))
  | .register .. | .reserveCapacity | .releaseCapacity _ | .cancel .. |
    .cancelSubagent .. | .settle .. =>
    inferInstanceAs (Decidable True)

def AllAskInTurn (m : JobManager) : List Event → Prop
  | [] => True
  | event :: events => m.AsksInTurn event ∧ (m.after event).AllAskInTurn events

instance AllAskInTurn.decidable :
    ∀ (m : JobManager) (events : List Event), Decidable (m.AllAskInTurn events)
  | _, [] => isTrue trivial
  | m, event :: events =>
    have := AllAskInTurn.decidable (m.after event) events
    inferInstanceAs (Decidable (_ ∧ _))

/-- Nothing is shut down, nothing is reserved, and nobody waits. -/
structure Idle (m : JobManager) : Prop where
  opened : m.Open
  admissions : m.admissions = []
  pendingAdmissions : m.pendingAdmissions = 0
  queue : m.resumeQueue = []
  records : ∀ subagentId rec, m.records.get? subagentId = some rec → rec.status ≠ .queued

end JobManager

def ResumeQueueEntry.key (entry : ResumeQueueEntry) : String × Nat := (entry.subagentId, entry.seq)

namespace JobManager

def keys (queue : List ResumeQueueEntry) : List (String × Nat) := queue.map ResumeQueueEntry.key

structure Ordered (m : JobManager) (queue : List (String × Nat)) : Prop where
  sorted : queue.Pairwise fun a b => a.2 < b.2
  nodup : (queue.map Prod.fst).Nodup
  bounded : ∀ k ∈ queue, k.2 ≤ m.resumeSeq
  runner : queue ≠ [] → m.hasResumeRunner = true
  live : ∀ subagentId rec, m.records.get? subagentId = some rec → rec.status = .queued →
    ∃ seq, queuedSeq? rec = some seq ∧ (subagentId, seq) ∈ queue

structure Unreserved (m : JobManager) : Prop where
  opened : m.Open
  admissions : m.admissions = []
  pendingAdmissions : m.pendingAdmissions = 0

structure SameRoom (m m' : JobManager) : Prop where
  disposed : m'.disposed = m.disposed
  registrationClosed : m'.registrationClosed = m.registrationClosed
  fencedOwners : m'.fencedOwners = m.fencedOwners
  admissions : m'.admissions = m.admissions
  pendingAdmissions : m'.pendingAdmissions = m.pendingAdmissions

section

variable {m m' : JobManager} {subagentId : String} {rec rec' : SubagentRecord}
    {queue queue' : List (String × Nat)}
  {seq : Nat}

theorem Unreserved.of_sameRoom (h : m.Unreserved) (hsame : SameRoom m m') : m'.Unreserved where
  opened :=
    ⟨hsame.disposed.trans h.opened.disposed,
      hsame.registrationClosed.trans h.opened.registrationClosed,
    hsame.fencedOwners.trans h.opened.fencedOwners⟩
  admissions := hsame.admissions.trans h.admissions
  pendingAdmissions := hsame.pendingAdmissions.trans h.pendingAdmissions

theorem Unreserved.hasCapacity (h : m.Unreserved)
    (hlt : m.getRunningJobs.length < m.maxRunningJobs) :
    m.hasCapacity = true := by
  simp [JobManager.hasCapacity, h.pendingAdmissions, hlt]

theorem Ordered.shrink (h : m.Ordered queue) (hsub : queue'.Sublist queue)
    (hseq : m.resumeSeq ≤ m'.resumeSeq) (hrunner : m'.hasResumeRunner = m.hasResumeRunner)
    (hlive : ∀ subagentId rec', m'.records.get? subagentId = some rec' → rec'.status = .queued →
      ∃ rec, m.records.get? subagentId = some rec ∧ rec.status = .queued ∧
        queuedSeq? rec' = queuedSeq? rec ∧
        ∀ seq, (subagentId, seq) ∈ queue → (subagentId, seq) ∈ queue') : m'.Ordered queue' where
  sorted := h.sorted.sublist hsub
  nodup := h.nodup.sublist (hsub.map Prod.fst)
  bounded k hk := (h.bounded k (hsub.subset hk)).trans hseq
  runner hne := by
    rw [hrunner]
    refine h.runner ?_
    rintro rfl
    exact hne (List.sublist_nil.mp hsub)
  live subagentId rec' hrec' hstatus' := by
    obtain ⟨rec, hrec, hstatus, hsame, hkept⟩ := hlive subagentId rec' hrec' hstatus'
    obtain ⟨seq, hseq, hmem⟩ := h.live subagentId rec hrec hstatus
    exact ⟨seq, hsame.trans hseq, hkept seq hmem⟩

theorem Ordered.congr (h : m.Ordered queue) (hseq : m'.resumeSeq = m.resumeSeq)
    (hrunner : m'.hasResumeRunner = m.hasResumeRunner) (hrecords : m'.records = m.records) :
    m'.Ordered queue :=
  h.shrink (.refl _) hseq.ge hrunner fun _ rec' hrec' hstatus' =>
    ⟨rec', hrecords ▸ hrec', hstatus', rfl, fun _ => id⟩

theorem Ordered.change (h : m.Ordered queue) (subagentId : String) (hsub : queue'.Sublist queue)
    (hseq : m'.resumeSeq = m.resumeSeq) (hrunner : m'.hasResumeRunner = m.hasResumeRunner)
    (hothers : ∀ s, s ≠ subagentId → m'.records.get? s = m.records.get? s)
    (hrec : ∀ rec, m'.records.get? subagentId = some rec → rec.status ≠ .queued)
    (hkept : ∀ k ∈ queue, k.1 ≠ subagentId → k ∈ queue') : m'.Ordered queue' := by
  refine h.shrink hsub hseq.ge hrunner fun s rec' hrec' hstatus' => ?_
  have hs : s ≠ subagentId := by
    rintro rfl
    exact hrec rec' hrec' hstatus'
  exact ⟨rec', hothers s hs ▸ hrec', hstatus', rfl, fun seq hmem => hkept _ hmem hs⟩

theorem Ordered.seq_eq (h : m.Ordered ((subagentId, seq) :: queue))
    (hrec : m.records.get? subagentId = some rec) (hstatus : rec.status = .queued) :
    queuedSeq? rec = some seq := by
  obtain ⟨seq', hseq', hmem⟩ := h.live subagentId rec hrec hstatus
  obtain heq | hmem := List.mem_cons.mp hmem
  · rw [hseq', (Prod.mk.inj heq).2]
  · have := (List.nodup_cons.mp h.nodup).1
    exact absurd (List.mem_map_of_mem hmem) this

theorem Ordered.start (h : m.Ordered ((subagentId, seq) :: queue)) :
    (m.started subagentId rec).Ordered queue := by
  refine h.change subagentId (List.sublist_cons_self _ _) rfl rfl
    (fun s hs => by rw [get?_started, if_neg hs]) ?_ ?_
  · intro rec' hrec'
    rw [get?_started, if_pos rfl, Option.some.injEq] at hrec'
    subst hrec'
    simp
  · intro k hk hne
    refine (List.mem_cons.mp hk).resolve_left ?_
    rintro rfl
    exact hne rfl

theorem Ordered.skip (h : m.Ordered ((subagentId, seq) :: queue))
    (hnot : m.isQueued subagentId = false) :
    m.Ordered queue := by
  refine h.change subagentId (List.sublist_cons_self _ _) rfl rfl (fun _ _ => rfl)
    (fun rec hrec hstatus => ?_) ?_
  · have := isQueued_iff.mpr ⟨rec, hrec, hstatus⟩
    rw [hnot] at this
    cases this
  · intro k hk hne
    refine (List.mem_cons.mp hk).resolve_left ?_
    rintro rfl
    exact hne rfl

theorem Ordered.inTurn (h : m.Ordered ((subagentId, seq) :: queue)) :
    (⟨m, some seq⟩ : Start).InTurn := by
  rintro s seq' ⟨rec, hrec, hseq'⟩
  have hstatus : rec.status = .queued := by
    by_contra hne
    simp [queuedSeq?, hne] at hseq'
  obtain ⟨seq'', hseq'', hmem⟩ := h.live s rec hrec hstatus
  rw [hseq', Option.some.injEq] at hseq''
  subst hseq''
  refine ⟨seq, rfl, ?_⟩
  obtain heq | hmem := List.mem_cons.mp hmem
  · exact (Prod.mk.inj heq).2.ge
  · exact ((List.pairwise_cons.mp h.sorted).1 _ hmem).le

theorem failQueued_jobGenerationSeq (m : JobManager) (subagentId : String) (rec : SubagentRecord) :
    (m.failQueued subagentId rec).jobGenerationSeq = m.jobGenerationSeq := by
  rw [failQueued]
  split
  · rfl
  · rw [publishQueuedTerminal]
    split
    · rfl
    · dsimp only
      split <;> rfl

theorem register_jobGenerationSeq {ownerId : Option String} {registered : JobManager} {newJob : Nat}
    (h : m.register ownerId none = .ok (registered, newJob)) :
    registered.jobGenerationSeq = m.jobGenerationSeq + 1 := by
  rw [register] at h
  by_cases hcapacity : m.hasCapacity = true
  · simp only [hcapacity, if_true] at h
    split at h <;> try split at h <;> try split at h
    all_goals cases h
    rfl
  · simp only [hcapacity] at h
    split at h <;> try split at h <;> try split at h
    all_goals cases h

theorem startResume_jobGenerationSeq {served : JobManager} {result : ResumeResult}
    (h : m.startResume subagentId rec = .ok (served, result)) :
    served.jobGenerationSeq = m.jobGenerationSeq + if result.ok then 1 else 0 := by
  rw [startResume] at h
  split at h
  · cases h
    rfl
  · split at h
    · cases h
      rfl
    · split at h
      next => cases h
      next registered newJob hregister =>
        have hseq := register_jobGenerationSeq hregister
        cases h
        exact hseq

theorem drainLoop_registers (skipped entries : List ResumeQueueEntry) :
    (m.drainLoop skipped entries).jobGenerationSeq = m.jobGenerationSeq +
    (m.drainStarts entries).length := by
  induction entries generalizing m skipped with
  | nil => rfl
  | cons entry rest ih =>
    rw [drainLoop, drainStarts]
    split
    next =>
      cases hrec : m.records.get? entry.subagentId with
      | none => exact ih skipped
      | some rec =>
        simp only
        split
        next => exact ih skipped
        next =>
          split
          next => exact ih _
          next =>
            cases hresume : m.startResume entry.subagentId rec with
            | ok served =>
              obtain ⟨served, result⟩ := served
              have hserved := startResume_jobGenerationSeq hresume
              simp only
              split
              next hok =>
                rw [ih, hserved, if_pos hok, List.length_cons]
                omega
              next hok =>
                rw [if_neg hok] at hserved
                split
                next => rw [ih, hserved, Nat.add_zero]
                next => rw [ih, failQueued_jobGenerationSeq, hserved, Nat.add_zero]
            | error error =>
              cases error with
              | ownerSubagentShutdown => exact ih _
              | disposed => exact (ih skipped).trans (by rw [failQueued_jobGenerationSeq])
              | shuttingDown => exact (ih skipped).trans (by rw [failQueued_jobGenerationSeq])
              | invalidAdmission => exact (ih skipped).trans (by rw [failQueued_jobGenerationSeq])
              | limitReached => exact (ih skipped).trans (by rw [failQueued_jobGenerationSeq])
    next => rfl

theorem sameRoom_started : SameRoom m (m.started subagentId rec) := ⟨rfl, rfl, rfl, rfl, rfl⟩

theorem drainLoop_inTurn (entries : List ResumeQueueEntry) (hroom : m.Unreserved)
    (h : m.Ordered (keys entries)) :
    (∀ start ∈ m.drainStarts entries, start.InTurn) ∧ (m.drainLoop [] entries).Unreserved ∧
      (m.drainLoop [] entries).Ordered (keys (m.drainLoop [] entries).resumeQueue) := by
  induction entries generalizing m with
  | nil =>
    exact ⟨by simp [drainStarts], hroom.of_sameRoom ⟨rfl, rfl, rfl, rfl, rfl⟩, h.congr rfl rfl rfl⟩
  | cons entry rest ih =>
    by_cases hlt : m.getRunningJobs.length < m.maxRunningJobs
    · by_cases hqueued : m.isQueued entry.subagentId = true
      · obtain ⟨rec, hrec, hstatus⟩ := isQueued_iff.mp hqueued
        have hrunner := h.runner (by simp [keys])
        have hcapacity := hroom.hasCapacity hlt
        have hseq : rec.queued.map QueuedResume.seq = some entry.seq := by
          have := h.seq_eq hrec hstatus
          rwa [queuedSeq?, if_pos hstatus] at this
        obtain ⟨hstarts, hrest⟩ := ih (hroom.of_sameRoom sameRoom_started) h.start
        rw [drainLoop_start hroom.opened hrunner hlt hrec hstatus hcapacity]
        refine ⟨?_, hrest⟩
        have hcons : m.drainStarts (entry :: rest) =
            ⟨m, some entry.seq⟩ :: (m.started entry.subagentId rec).drainStarts rest := by
          rw [drainStarts, if_pos hlt]
          simp [hrec, hstatus, hroom.opened.isFenced,
            startResume_of_capacity hroom.opened hrunner hcapacity, hseq]
        rw [hcons]
        exact List.forall_mem_cons.mpr ⟨h.inTurn, hstarts⟩
      · rw [Bool.not_eq_true] at hqueued
        have hskip : m.drainStarts (entry :: rest) = m.drainStarts rest := by
          rw [drainStarts, if_pos hlt]
          cases hrec : m.records.get? entry.subagentId with
          | none => rfl
          | some rec =>
            simp only [isQueued, hrec, Option.elim_some, decide_eq_false_iff_not] at hqueued
            simp only [if_pos hqueued]
        rw [hskip, drainLoop_skip hlt hqueued]
        exact ih hroom (h.skip hqueued)
    · rw [drainStarts, drainLoop, if_neg hlt, if_neg hlt]
      exact ⟨by simp, hroom.of_sameRoom ⟨rfl, rfl, rfl, rfl, rfl⟩, h.congr rfl rfl rfl⟩

theorem drainResumeQueue_inTurn (hroom : m.Unreserved) (h : m.Ordered (keys m.resumeQueue)) :
    (∀ start ∈ m.queueStarts, start.InTurn) ∧ m.drainResumeQueue.Unreserved ∧
      m.drainResumeQueue.Ordered (keys m.drainResumeQueue.resumeQueue) := by
  have hsorted : m.resumeQueue.mergeSort (fun a b => a.seq ≤ b.seq) = m.resumeQueue := by
    refine List.mergeSort_of_pairwise ?_
    refine (List.pairwise_map.mp h.sorted).imp fun {a b} hlt => ?_
    exact decide_eq_true hlt.le
  rw [queueStarts, drainResumeQueue, hsorted]
  exact drainLoop_inTurn m.resumeQueue hroom h

structure Keeps (m m' : JobManager) : Prop where
  room : SameRoom m m'
  queue : m'.resumeQueue = m.resumeQueue
  ordered : ∀ queue, m.Ordered queue → m'.Ordered queue

theorem Keeps.trans {m₁ m₂ m₃ : JobManager} (h : Keeps m₁ m₂) (h' : Keeps m₂ m₃) : Keeps m₁ m₃ where
  room :=
    ⟨h'.room.disposed.trans h.room.disposed,
      h'.room.registrationClosed.trans h.room.registrationClosed,
    h'.room.fencedOwners.trans h.room.fencedOwners, h'.room.admissions.trans h.room.admissions,
    h'.room.pendingAdmissions.trans h.room.pendingAdmissions⟩
  queue := h'.queue.trans h.queue
  ordered queue hqueue := h'.ordered queue (h.ordered queue hqueue)

theorem keeps_refl (m : JobManager) : Keeps m m := ⟨⟨rfl, rfl, rfl, rfl, rfl⟩, rfl, fun _ => id⟩

theorem keeps_addJob (m : JobManager) (ownerId : Option String) : Keeps m (m.addJob ownerId).1 :=
  ⟨⟨rfl, rfl, rfl, rfl, rfl⟩, rfl, fun _ h => h.congr rfl rfl rfl⟩

theorem keeps_setJobStatus (m : JobManager) (generation : Nat) (status : JobStatus) :
    Keeps m (m.setJobStatus generation status) :=
  ⟨⟨rfl, rfl, rfl, rfl, rfl⟩, rfl, fun _ h => h.congr rfl rfl rfl⟩

theorem keeps_setSettled (m : JobManager) (generation : Nat) : Keeps m (m.setSettled generation) :=
  ⟨⟨rfl, rfl, rfl, rfl, rfl⟩, rfl, fun _ h => h.congr rfl rfl rfl⟩

theorem keeps_setRecord (m : JobManager) (subagentId : String) (hstatus : rec.status ≠ .queued) :
    Keeps m (m.setRecord subagentId rec) := by
  refine ⟨⟨rfl, rfl, rfl, rfl, rfl⟩, rfl, fun _ h => ?_⟩
  refine h.change subagentId (.refl _) rfl rfl (fun s hs => get?_setRecord_ne hs)
    (fun rec' hrec' => ?_) fun k hk _ => hk
  rw [setRecord, InsertionMap.get?_set, if_pos rfl, Option.some.injEq] at hrec'
  rwa [← hrec']

theorem keeps_markRecord (m : JobManager) (generation : Nat) {status : SubagentLifecycle}
    (hstatus : status ≠ .queued) :
    Keeps m (m.markRecord generation status) := by
  rw [markRecord]
  split
  next => exact keeps_refl m
  next => exact keeps_setRecord m _ hstatus

theorem keeps_cancelDrains {generation : Nat} {filter : Option String}
    (h : m.cancelDrains generation filter = some m') :
    Keeps m m' ∧ m.cancel generation filter = m'.drainResumeQueue := by
  obtain ⟨job, hjob, h⟩ := Option.bind_eq_some_iff.mp h
  split at h
  next hpaused =>
    cases h
    refine ⟨(keeps_setJobStatus m ..).trans (keeps_markRecord _ _ (by decide)), ?_⟩
    simp [cancel, hjob, hpaused.1, hpaused.2]
  next => cases h

theorem keeps_drains {event : Event} (h : m.drains event = some m') :
    Keeps m m' ∧ m.after event = m'.drainResumeQueue := by
  cases event with
  | cancel generation filter => exact keeps_cancelDrains h
  | cancelSubagent subagentId filter =>
    obtain ⟨rec, hvisible, h⟩ := Option.bind_eq_some_iff.mp h
    cases hstatus : rec.status with
    | running =>
      cases hcurrent : rec.currentJob with
      | none => simp [hstatus, hcurrent] at h
      | some generation =>
        simp only [hstatus, hcurrent] at h
        obtain ⟨hkeeps, hafter⟩ := keeps_cancelDrains h
        refine ⟨hkeeps, ?_⟩
        simp only [after, cancelSubagent, hvisible, hstatus, hcurrent]
        exact hafter
    | paused =>
      simp only [hstatus, Option.some.injEq] at h
      subst h
      have hended : Keeps m
          ((m.pausedJob? rec).elim m fun job => m.setJobStatus job.generation .cancelled) := by
        cases m.pausedJob? rec with
        | none => exact keeps_refl m
        | some job => exact keeps_setJobStatus m ..
      refine ⟨hended.trans (keeps_setRecord _ subagentId (by simp)), ?_⟩
      simp only [after, cancelSubagent, hvisible, hstatus]
    | queued => simp [hstatus] at h
    | completed => simp [hstatus] at h
    | failed => simp [hstatus] at h
    | cancelled => simp [hstatus] at h
  | settle generation outcome =>
    obtain ⟨job, hjob, h⟩ := Option.bind_eq_some_iff.mp h
    split at h
    next => cases h
    next hsettled =>
      split at h
      next hcancelled =>
        cases h
        refine ⟨(keeps_setSettled m _).trans (keeps_markRecord _ _ (by decide)), ?_⟩
        simp [after, settle, hjob, hsettled, hcancelled]
      next hcancelled =>
        cases h
        have hlifecycle : outcome.lifecycle ≠ .queued := by cases outcome <;> decide
        refine ⟨((keeps_setSettled m _).trans (keeps_setJobStatus ..)).trans
          (keeps_markRecord _ _ hlifecycle), ?_⟩
        simp [after, settle, hjob, hsettled, hcancelled]
  | register => cases h
  | reserveCapacity => cases h
  | releaseCapacity => cases h
  | resumeSubagent => cases h

theorem keeps_cancel {generation : Nat} {filter : Option String}
    (h : m.cancelDrains generation filter = none) :
    Keeps m (m.cancel generation filter) := by
  rw [cancel]
  cases hjob : m.getJob generation with
  | none => exact keeps_refl m
  | some job =>
    simp only [cancelDrains, hjob, Option.bind_some] at h
    by_cases hhidden : hiddenFrom filter job.ownerId = true
    · simp only [hhidden, if_true]
      exact keeps_refl m
    · rw [Bool.not_eq_true] at hhidden
      have hpaused : job.status ≠ .paused := fun hpaused => by simp [hhidden, hpaused] at h
      by_cases hrunning : job.status = .running
      · simp only [hhidden, hrunning]
        exact (keeps_setJobStatus m ..).trans (keeps_markRecord _ _ (by decide))
      · simp only [hhidden, hpaused, hrunning]
        exact keeps_refl m

def InOrder (m : JobManager) : Prop := m.Unreserved ∧ m.Ordered (keys m.resumeQueue)

theorem InOrder.keeps (h : m.InOrder) (hkeeps : Keeps m m') : m'.InOrder :=
  ⟨h.1.of_sameRoom hkeeps.room, hkeeps.queue ▸ hkeeps.ordered _ h.2⟩

theorem consumeAdmission_eq_none (h : m.Unreserved) (token : Nat) :
    m.consumeAdmission token = none := by
  simp [consumeAdmission, h.admissions]

theorem keeps_register (h : m.Unreserved) (ownerId : Option String) (token : Option Nat) :
    Keeps m (m.after (.register ownerId token)) := by
  simp only [after, register, h.opened.disposed, h.opened.registrationClosed, h.opened.isFenced]
  cases token with
  | some token =>
    simp only [consumeAdmission_eq_none h]
    exact keeps_refl m
  | none =>
    by_cases hcapacity : m.hasCapacity = true
    · simp only [hcapacity]
      exact keeps_addJob m ownerId
    · simp only [hcapacity]
      exact keeps_refl m

structure Unqueues (m m' : JobManager) (subagentId : String) : Prop where
  room : SameRoom m m'
  resumeSeq : m'.resumeSeq = m.resumeSeq
  record : ∀ rec, m'.records.get? subagentId = some rec → rec.status ≠ .queued

theorem Unqueues.publish (h : Unqueues m m' subagentId) (seq : Nat) :
    Unqueues m (m'.publishQueuedTerminal subagentId seq .cancelled .cancelled) subagentId := by
  obtain ⟨⟨hdisposed, hclosed, hfenced, hadmissions, hpending⟩, hseq, hrecord⟩ := h
  rw [publishQueuedTerminal]
  split
  · exact ⟨⟨hdisposed, hclosed, hfenced, hadmissions, hpending⟩, hseq, hrecord⟩
  · dsimp only
    split
    · exact ⟨⟨hdisposed, hclosed, hfenced, hadmissions, hpending⟩, hseq, hrecord⟩
    · refine ⟨⟨hdisposed, hclosed, hfenced, hadmissions, hpending⟩, hseq, fun rec hrec => ?_⟩
      rw [setRecord, InsertionMap.get?_set, if_pos rfl, Option.some.injEq] at hrec
      rw [← hrec]
      simp

theorem unqueues_cancelQueued (m : JobManager) (subagentId : String) (rec : SubagentRecord) :
    Unqueues m (m.cancelQueued subagentId rec) subagentId := by
  have hdequeue : Unqueues m (m.dequeue subagentId rec) subagentId := by
    refine ⟨⟨rfl, rfl, rfl, rfl, rfl⟩, rfl, fun rec' hrec' => ?_⟩
    rw [dequeue, setRecord, InsertionMap.get?_set, if_pos rfl, Option.some.injEq] at hrec'
    rw [← hrec']
    simp
  have hpublished : Unqueues m (rec.queued.elim (m.dequeue subagentId rec) fun queued =>
      (m.dequeue subagentId rec).publishQueuedTerminal subagentId queued.seq .cancelled .cancelled)
        subagentId := by
    cases rec.queued with
    | none => exact hdequeue
    | some queued => exact hdequeue.publish queued.seq
  rw [cancelQueued]
  split
  · exact hpublished
  next rec' hrec' =>
    refine ⟨⟨hpublished.room.disposed, hpublished.room.registrationClosed,
      hpublished.room.fencedOwners, hpublished.room.admissions, hpublished.room.pendingAdmissions⟩,
      hpublished.resumeSeq, fun rec'' hrec'' => ?_⟩
    rw [setRecord, InsertionMap.get?_set, if_pos rfl, Option.some.injEq] at hrec''
    rw [← hrec'']
    exact hpublished.record rec' hrec'

theorem inOrder_cancelQueued (h : m.InOrder) (subagentId : String) (rec : SubagentRecord) :
    (m.cancelQueued subagentId rec).InOrder := by
  have hdequeues := dequeues_cancelQueued m subagentId rec
  have hunqueues := unqueues_cancelQueued m subagentId rec
  have hkeys : keys (m.cancelQueued subagentId rec).resumeQueue =
      (keys m.resumeQueue).eraseP fun k => k.1 = subagentId := by
    rw [keys, hdequeues.queue, keys, List.eraseP_map]
    rfl
  refine ⟨h.1.of_sameRoom hunqueues.room, ?_⟩
  rw [hkeys]
  refine h.2.change subagentId List.eraseP_sublist hunqueues.resumeSeq
    hdequeues.setting.hasResumeRunner
    hdequeues.others hunqueues.record fun k hk hne => ?_
  exact (List.mem_eraseP_of_neg (by simpa using hne)).mpr hk

theorem inOrder_of_drains_eq_none (h : m.InOrder) {event : Event} (hdrains : m.drains event = none)
    (hreserve : event ≠ .reserveCapacity)
    (hresume : ∀ s filter message, event ≠ .resumeSubagent s filter message) :
    (m.after event).InOrder := by
  cases event with
  | register ownerId token => exact h.keeps (keeps_register h.1 ownerId token)
  | reserveCapacity => exact absurd rfl hreserve
  | releaseCapacity token =>
    rw [after, releaseCapacity, consumeAdmission_eq_none h.1]
    exact h
  | resumeSubagent s filter message => exact absurd rfl (hresume s filter message)
  | cancel generation filter => exact h.keeps (keeps_cancel hdrains)
  | cancelSubagent subagentId filter =>
    rw [after, cancelSubagent]
    cases hvisible : m.getSubagentRecord subagentId filter with
    | none => exact h
    | some rec =>
      simp only [drains, hvisible, Option.bind_some] at hdrains
      simp only
      cases hstatus : rec.status with
      | running =>
        cases hcurrent : rec.currentJob with
        | none => exact h
        | some generation =>
          simp only [hstatus, hcurrent] at hdrains
          exact h.keeps (keeps_cancel hdrains)
      | paused => simp [hstatus] at hdrains
      | queued => exact inOrder_cancelQueued h subagentId rec
      | completed => exact h
      | failed => exact h
      | cancelled => exact h
  | settle generation outcome =>
    rw [after, settle]
    cases hjob : m.getJob generation with
    | none => exact h
    | some job =>
      simp only [drains, hjob, Option.bind_some] at hdrains
      split at hdrains
      next hsettled =>
        simp only [hsettled]
        exact h
      next =>
        split at hdrains <;> cases hdrains

theorem keys_setMessage (subagentId text : String) (queue : List ResumeQueueEntry) :
    keys (setMessage subagentId text queue) = keys queue := by
  induction queue with
  | nil => rfl
  | cons entry rest ih =>
    rw [setMessage]
    split
    · rfl
    · exact congrArg (entry.key :: ·) ih

theorem inOrder_replaceMessage (h : m.InOrder) {queued : QueuedResume}
    (hrec : m.records.get? subagentId = some rec) (hstatus : rec.status = .queued)
    (hqueued : rec.queued = some queued) (text : String) :
    (m.replaceMessage subagentId rec queued text).InOrder := by
  refine ⟨h.1.of_sameRoom ⟨rfl, rfl, rfl, rfl, rfl⟩, ?_⟩
  have hkeys : keys (m.replaceMessage subagentId rec queued text).resumeQueue = keys m.resumeQueue :=
    keys_setMessage ..
  rw [hkeys]
  refine h.2.shrink (.refl _) (le_refl _) rfl fun s rec' hrec' hstatus' => ?_
  by_cases hs : s = subagentId
  · subst hs
    rw [replaceMessage, setRecord, InsertionMap.get?_set, if_pos rfl, Option.some.injEq] at hrec'
    refine ⟨rec, hrec, hstatus, ?_, fun _ => id⟩
    rw [← hrec', queuedSeq?, queuedSeq?, hqueued]
    rfl
  · exact ⟨rec', (get?_setRecord_ne hs).symm.trans hrec', hstatus', rfl, fun _ => id⟩

theorem inOrder_enqueueResume (h : m.InOrder) (hrunner : m.hasResumeRunner = true)
    (message : Option String) (hnew : ∀ entry ∈ m.resumeQueue, entry.subagentId ≠ subagentId) :
    (m.enqueueResume subagentId rec message).InOrder := by
  refine ⟨h.1.of_sameRoom ⟨rfl, rfl, rfl, rfl, rfl⟩, ?_⟩
  have hkeys : keys (m.enqueueResume subagentId rec message).resumeQueue =
      keys m.resumeQueue ++ [(subagentId, m.resumeSeq + 1)] := by
    simp [enqueueResume, keys, ResumeQueueEntry.key]
  have hseq : (m.enqueueResume subagentId rec message).resumeSeq = m.resumeSeq + 1 := rfl
  rw [hkeys]
  refine ⟨?_, ?_, ?_, fun _ => hrunner, ?_⟩
  · refine List.pairwise_append.mpr ⟨h.2.sorted, List.pairwise_singleton .., fun k hk k' hk' => ?_⟩
    rw [List.mem_singleton.mp hk']
    exact Nat.lt_succ_of_le (h.2.bounded k hk)
  · rw [List.map_append, List.nodup_append]
    refine ⟨h.2.nodup, by simp, fun s hs s' hs' => ?_⟩
    obtain ⟨k, hk, rfl⟩ := List.mem_map.mp hs
    obtain ⟨entry, hentry, rfl⟩ := List.mem_map.mp hk
    rw [List.mem_singleton.mp hs']
    exact hnew entry hentry
  · intro k hk
    rw [hseq]
    obtain hk | hk := List.mem_append.mp hk
    · exact (h.2.bounded k hk).trans (Nat.le_succ _)
    · rw [List.mem_singleton.mp hk]
  · intro s rec' hrec' hstatus'
    by_cases hs : s = subagentId
    · subst hs
      rw [enqueueResume, setRecord, InsertionMap.get?_set, if_pos rfl, Option.some.injEq] at hrec'
      refine ⟨m.resumeSeq + 1, ?_, by simp⟩
      rw [← hrec', queuedSeq?]
      rfl
    · have hold : m.records.get? s = some rec' := (get?_setRecord_ne hs).symm.trans hrec'
      obtain ⟨seq, hseq, hmem⟩ := h.2.live s rec' hold hstatus'
      exact ⟨seq, hseq, List.mem_append_left _ hmem⟩

theorem inOrder_started (h : m.InOrder) (subagentId : String) (rec : SubagentRecord) :
    (m.started subagentId rec).InOrder := by
  refine ⟨h.1.of_sameRoom sameRoom_started, ?_⟩
  refine h.2.change subagentId (.refl _) rfl rfl (fun s hs => by rw [get?_started, if_neg hs]) ?_
    fun k hk _ => hk
  intro rec' hrec'
  rw [get?_started, if_pos rfl, Option.some.injEq] at hrec'
  rw [← hrec']
  simp

theorem Ordered.nobodyWaits (h : m.Ordered (keys m.resumeQueue))
    (hnone : ∀ entry ∈ m.resumeQueue, m.isQueued entry.subagentId = false) :
    (⟨m, none⟩ : Start).InTurn := by
  rintro s seq ⟨rec, hrec, hseq⟩
  have hstatus : rec.status = .queued := by
    by_contra hne
    simp [queuedSeq?, hne] at hseq
  obtain ⟨seq', _, hmem⟩ := h.live s rec hrec hstatus
  obtain ⟨entry, hentry, hkey⟩ := List.mem_map.mp hmem
  have hwaits := isQueued_iff.mpr ⟨rec, hrec, hstatus⟩
  rw [← (Prod.mk.inj hkey).1, hnone entry hentry] at hwaits
  cases hwaits

theorem resume_inTurn (h : m.InOrder) {filter message : Option String}
    (hask : m.AsksInTurn (.resumeSubagent subagentId filter message)) :
    (∀ start ∈ m.starts (.resumeSubagent subagentId filter message), start.InTurn) ∧
      (m.after (.resumeSubagent subagentId filter message)).InOrder := by
  cases hresumable : m.resumable? subagentId filter with
  | none =>
    obtain ⟨m', result, hresume, hjob, hm'⟩ := resume_other h.1.opened hresumable message
    simp only [starts, after, hresume, hjob]
    refine ⟨by simp, ?_⟩
    obtain rfl | ⟨rec, queued, text, hrec, hstatus, hqueued, rfl⟩ := hm'
    · exact h
    · exact inOrder_replaceMessage h hrec hstatus hqueued text
  | some rec =>
    obtain ⟨_, _, _, _, hrunner⟩ := resumable?_eq_some hresumable
    have hasks := hask rec hresumable
    rw [starts, after, resumeSubagent_of_resumable h.1.opened hresumable]
    by_cases hlt : m.getRunningJobs.length < m.maxRunningJobs
    · rw [if_pos hlt] at hasks
      simp only [if_neg (Nat.not_le.mpr hlt),
        startResume_of_capacity h.1.opened hrunner (h.1.hasCapacity hlt)]
      exact ⟨by simpa using h.2.nobodyWaits hasks, inOrder_started h subagentId rec⟩
    · rw [if_neg hlt] at hasks
      simp only [if_pos (Nat.le_of_not_lt hlt)]
      exact ⟨by simp, inOrder_enqueueResume h hrunner message hasks⟩

theorem event_inTurn (h : m.InOrder) (event : Event) (hreserve : event ≠ .reserveCapacity)
    (hask : m.AsksInTurn event) :
    (∀ start ∈ m.starts event, start.InTurn) ∧ (m.after event).InOrder := by
  by_cases hresume : ∃ s filter message, event = .resumeSubagent s filter message
  · obtain ⟨s, filter, message, rfl⟩ := hresume
    exact resume_inTurn h hask
  · have hstarts : m.starts event = (m.drains event).elim [] queueStarts := by
      cases event <;> first | rfl | simp at hresume
    rw [hstarts]
    cases hdrains : m.drains event with
    | none =>
      refine ⟨by simp, inOrder_of_drains_eq_none h hdrains hreserve fun s filter message heq => ?_⟩
      exact hresume ⟨s, filter, message, heq⟩
    | some drained =>
      obtain ⟨hkeeps, hafter⟩ := keeps_drains hdrains
      have hdrained := h.keeps hkeeps
      rw [hafter]
      exact drainResumeQueue_inTurn hdrained.1 hdrained.2

theorem Idle.inOrder (h : m.Idle) : m.InOrder := by
  refine ⟨⟨h.opened, h.admissions, h.pendingAdmissions⟩, ?_⟩
  rw [h.queue]
  exact ⟨.nil, .nil, by simp [keys], by simp [keys],
    fun s rec hrec hstatus => absurd hstatus (h.records s rec hrec)⟩

theorem runStarts_inTurn (h : m.InOrder) (events : List Event) (hreserve : .reserveCapacity ∉ events)
    (hask : m.AllAskInTurn events) : ∀ start ∈ m.runStarts events, start.InTurn := by
  induction events generalizing m with
  | nil => simp [runStarts]
  | cons event events ih =>
    rw [List.mem_cons, not_or] at hreserve
    obtain ⟨hstarts, hafter⟩ := event_inTurn h event (Ne.symm hreserve.1) hask.1
    intro start hstart
    obtain hstart | hstart := List.mem_append.mp hstart
    · exact hstarts start hstart
    · exact ih hafter hreserve.2 hask.2 start hstart

end

/-- In a run without reservations in which no request finds room while another waits, and none is
queued beside an entry of its subagent, the resumes start in the order of their requests. -/
theorem resumes_start_in_turn {start : JobManager} (hstart : start.Idle) (events : List Event)
    (hreserve : .reserveCapacity ∉ events) (hask : start.AllAskInTurn events) :
    ∀ s ∈ start.runStarts events, s.InTurn :=
  runStarts_inTurn hstart.inOrder events hreserve hask

def twoPaused : JobManager where
  maxRunningJobs := 1
  disposed := false
  registrationClosed := false
  fencedOwners := []
  hasResumeRunner := true
  jobs := []
  jobGenerationSeq := 0
  admissions := []
  pendingAdmissions := 0
  nextAdmission := 0
  records := (InsertionMap.empty.set "a" ⟨none, none, [], .paused, true, none⟩).set "b"
    ⟨none, none, [], .paused, true, none⟩
  resumeQueue := []
  resumeSeq := 0
  waitGenerationAliases := []
  queuedTerminals := []

theorem idle_twoPaused : twoPaused.Idle := by
  refine ⟨⟨rfl, rfl, rfl⟩, rfl, rfl, rfl, fun subagentId rec hrec => ?_⟩
  rw [twoPaused, InsertionMap.get?_set, InsertionMap.get?_set, InsertionMap.get?_empty] at hrec
  split at hrec
  · cases hrec
    decide
  · split at hrec
    · cases hrec
      decide
    · cases hrec

theorem two_resumes_in_turn :
    (twoPaused.runStarts [.register none none, .resumeSubagent "a" none none, .settle 1 .completed,
      .resumeSubagent "b" none none, .settle 2 .completed]).map Start.seq = [some 1, some 2] ∧
    ∀ s ∈ twoPaused.runStarts [.register none none, .resumeSubagent "a" none none,
      .settle 1 .completed, .resumeSubagent "b" none none, .settle 2 .completed], s.InTurn :=
  ⟨by decide +kernel, resumes_start_in_turn idle_twoPaused _ (by decide) (by decide +kernel)⟩

theorem cancelled_job_lets_resume_pass :
    ¬ ∀ (start : JobManager) (events : List Event), start.Idle → .reserveCapacity ∉ events →
      ∀ s ∈ start.runStarts events, s.InTurn := by
  intro h
  have hturn := h twoPaused [.register none none, .resumeSubagent "a" none none, .cancel 1 none,
    .resumeSubagent "b" none none] idle_twoPaused (by decide) _ List.mem_cons_self
  obtain ⟨own, hown, _⟩ := hturn "a" 1 ⟨_, rfl, rfl⟩
  cases hown

end JobManager

end JevCode.Async
