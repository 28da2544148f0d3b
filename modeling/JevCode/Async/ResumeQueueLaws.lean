import JevCode.Async.ResumeQueue

namespace JevCode.Async

open JevCode.Data

namespace JobManager

structure Open (m : JobManager) : Prop where
  disposed : m.disposed = false
  registrationClosed : m.registrationClosed = false
  fencedOwners : m.fencedOwners = []

def isQueued (m : JobManager) (subagentId : String) : Bool :=
  (m.records.get? subagentId).elim false fun rec => rec.status = .queued

/-- The subagents with an entry that wait to be resumed. -/
def waiting (m : JobManager) (entries : List ResumeQueueEntry) : Finset String :=
  ((entries.map ResumeQueueEntry.subagentId).toFinset).filter fun subagentId => m.isQueued subagentId

def RoomToDrain (m : JobManager) (running : Nat) (waiting : Finset String) : Prop :=
  m.pendingAdmissions = 0 ∨ waiting = ∅ ∨ m.maxRunningJobs ≤ running ∨
    running + m.pendingAdmissions + waiting.card ≤ m.maxRunningJobs

def Accounted (m : JobManager) (queue : List ResumeQueueEntry) (cancelled : List (String × Nat))
    (r : String × Nat) : Prop :=
  (∃ rec, m.records.get? r.1 = some rec ∧ rec.status = .queued ∧
    rec.queued.map QueuedResume.seq = some r.2 ∧
    ∃ entry ∈ queue, entry.subagentId = r.1 ∧ entry.seq = r.2) ∨
  (∃ generation, (r, generation) ∈ m.waitGenerationAliases) ∨ r ∈ cancelled

section

variable {m m' : JobManager} {subagentId : String} {rec rec' : SubagentRecord}
    {queue : List ResumeQueueEntry}
  {cancelled : List (String × Nat)} {r : String × Nat}

theorem Open.isFenced (h : m.Open) (ownerId : Option String) : m.isFenced ownerId = false := by
  cases ownerId <;> simp [JobManager.isFenced, h.fencedOwners]

def started (m : JobManager) (subagentId : String) (rec : SubagentRecord) : JobManager :=
  { (m.addJob rec.ownerId).1.setRecord subagentId { rec with
      currentJob := some (m.jobGenerationSeq + 1)
      historicalJobs := rec.historicalJobs ++ rec.currentJob.toList
      status := .running
      queued := none } with
    waitGenerationAliases := m.waitGenerationAliases ++
      (rec.queued.map fun queued => ((subagentId, queued.seq), m.jobGenerationSeq + 1)).toList }

theorem startResume_of_capacity (hopen : m.Open) (hrunner : m.hasResumeRunner = true)
    (hcapacity : m.hasCapacity = true) :
    m.startResume subagentId rec = .ok (m.started subagentId rec,
      { ok := true, status := some .running, jobId := some (m.jobGenerationSeq + 1) }) := by
  simp [startResume, register, hopen.isFenced, hopen.disposed, hopen.registrationClosed, hrunner,
    hcapacity, started, addJob, setRecord]

theorem startResume_of_no_capacity (hopen : m.Open) (hrunner : m.hasResumeRunner = true)
    (hcapacity : m.hasCapacity = false) :
    m.startResume subagentId rec = .error (.limitReached m.maxRunningJobs) := by
  simp [startResume, register, hopen.isFenced, hopen.disposed, hopen.registrationClosed,
    hrunner, hcapacity]

theorem running_started :
    (m.started subagentId rec).getRunningJobs.length = m.getRunningJobs.length + 1 := by
  simp [started, addJob, setRecord, getRunningJobs]

theorem get?_started (s : String) : (m.started subagentId rec).records.get? s =
    if s = subagentId then some { rec with
      currentJob := some (m.jobGenerationSeq + 1)
      historicalJobs := rec.historicalJobs ++ rec.currentJob.toList
      status := .running
      queued := none } else m.records.get? s := by
  simp [started, setRecord, addJob]

theorem isQueued_iff {s : String} :
    m.isQueued s = true ↔ ∃ rec, m.records.get? s = some rec ∧ rec.status = .queued := by
  rw [isQueued]
  cases m.records.get? s <;> simp

theorem waiting_started (rec : SubagentRecord) {entry : ResumeQueueEntry}
    (rest : List ResumeQueueEntry) (hqueued : m.isQueued entry.subagentId = true) :
    ((m.started entry.subagentId rec).waiting rest).card + 1 = (m.waiting (entry :: rest)).card := by
  have herase : (m.started entry.subagentId rec).waiting rest =
      (m.waiting (entry :: rest)).erase entry.subagentId := by
    ext s
    simp only [waiting, Finset.mem_filter, Finset.mem_erase, List.mem_toFinset, List.map_cons,
      List.mem_cons, isQueued, get?_started]
    by_cases hs : s = entry.subagentId
    · simp [hs]
    · simp [hs]
  rw [herase]
  refine Finset.card_erase_add_one ?_
  simp [waiting, hqueued]

theorem waiting_of_not_queued {entry : ResumeQueueEntry} {rest : List ResumeQueueEntry}
    (h : m.isQueued entry.subagentId = false) : m.waiting (entry :: rest) = m.waiting rest := by
  simp [waiting, Finset.filter_insert, h]

theorem Accounted.start {entry : ResumeQueueEntry} {rest : List ResumeQueueEntry}
    (hrec : m.records.get? entry.subagentId = some rec)
    (h : m.Accounted (entry :: rest) cancelled r) :
    (m.started entry.subagentId rec).Accounted rest cancelled r := by
  obtain ⟨rec₁, hrec₁, hstatus, hseq, entry₁, hentry₁, hsub, hentryseq⟩ | ⟨generation, halias⟩ |
      hcancelled := h
  · by_cases hs : r.1 = entry.subagentId
    · -- it is the resume that becomes a job
      rw [hs, hrec] at hrec₁
      cases hrec₁
      obtain ⟨queued, hqueued, hseq⟩ := Option.map_eq_some_iff.mp hseq
      refine .inr (.inl ⟨m.jobGenerationSeq + 1, ?_⟩)
      simp [started, hqueued, hseq, ← hs]
    · refine .inl ⟨rec₁, by rw [get?_started, if_neg hs, hrec₁], hstatus, hseq, entry₁, ?_,
        hsub, hentryseq⟩
      obtain rfl | hentry₁ := List.mem_cons.mp hentry₁
      · exact absurd hsub.symm hs
      · exact hentry₁
  · exact .inr (.inl ⟨generation, List.mem_append_left _ halias⟩)
  · exact .inr (.inr hcancelled)

theorem Accounted.skip {entry : ResumeQueueEntry} {rest : List ResumeQueueEntry}
    (hnot : m.isQueued entry.subagentId = false) (h : m.Accounted (entry :: rest) cancelled r) :
    m.Accounted rest cancelled r := by
  obtain ⟨rec₁, hrec₁, hstatus, hseq, entry₁, hentry₁, hsub, hentryseq⟩ | h := h
  · refine .inl ⟨rec₁, hrec₁, hstatus, hseq, entry₁, ?_, hsub, hentryseq⟩
    obtain rfl | hentry₁ := List.mem_cons.mp hentry₁
    · have := isQueued_iff.mpr ⟨rec₁, hsub ▸ hrec₁, hstatus⟩
      rw [this] at hnot
      cases hnot
    · exact hentry₁
  · exact .inr h

structure SameSetting (m m' : JobManager) : Prop where
  disposed : m'.disposed = m.disposed
  registrationClosed : m'.registrationClosed = m.registrationClosed
  fencedOwners : m'.fencedOwners = m.fencedOwners
  hasResumeRunner : m'.hasResumeRunner = m.hasResumeRunner
  queuedTerminals : ∀ t ∈ m'.queuedTerminals, t ∈ m.queuedTerminals ∨ t.2 = .cancelled

theorem SameSetting.refl (m : JobManager) : SameSetting m m := ⟨rfl, rfl, rfl, rfl, fun _ => .inl⟩

theorem SameSetting.opened (h : SameSetting m m') (hopen : m.Open) : m'.Open :=
  ⟨h.disposed.trans hopen.disposed, h.registrationClosed.trans hopen.registrationClosed,
    h.fencedOwners.trans hopen.fencedOwners⟩

theorem SameSetting.trans {m₁ m₂ m₃ : JobManager} (h : SameSetting m₁ m₂) (h' : SameSetting m₂ m₃) :
    SameSetting m₁ m₃ :=
  ⟨h'.disposed.trans h.disposed, h'.registrationClosed.trans h.registrationClosed,
    h'.fencedOwners.trans h.fencedOwners, h'.hasResumeRunner.trans h.hasResumeRunner,
    fun t ht => (h'.queuedTerminals t ht).elim (h.queuedTerminals t) .inr⟩

theorem sameSetting_started : SameSetting m (m.started subagentId rec) :=
  ⟨rfl, rfl, rfl, rfl, fun _ => .inl⟩

section

variable {entry : ResumeQueueEntry} {rest : List ResumeQueueEntry}

theorem drainLoop_skip (hlt : m.getRunningJobs.length < m.maxRunningJobs)
    (hnot : m.isQueued entry.subagentId = false) :
    m.drainLoop [] (entry :: rest) = m.drainLoop [] rest := by
  rw [drainLoop, if_pos hlt]
  cases hrec : m.records.get? entry.subagentId with
  | none => rfl
  | some rec =>
    simp only [isQueued, hrec, Option.elim_some, decide_eq_false_iff_not] at hnot
    simp only [if_pos hnot]

theorem drainLoop_start (hopen : m.Open) (hrunner : m.hasResumeRunner = true)
    (hlt : m.getRunningJobs.length < m.maxRunningJobs)
    (hrec : m.records.get? entry.subagentId = some rec) (hstatus : rec.status = .queued)
    (hcapacity : m.hasCapacity = true) :
    m.drainLoop [] (entry :: rest) = (m.started entry.subagentId rec).drainLoop [] rest := by
  rw [drainLoop, if_pos hlt]
  simp [hrec, hstatus, hopen.isFenced, startResume_of_capacity hopen hrunner hcapacity]

end

theorem RoomToDrain.start (rec : SubagentRecord) {entry : ResumeQueueEntry}
    {rest : List ResumeQueueEntry}
    (h : m.RoomToDrain m.getRunningJobs.length (m.waiting (entry :: rest)))
    (hlt : m.getRunningJobs.length < m.maxRunningJobs)
    (hqueued : m.isQueued entry.subagentId = true) :
    m.hasCapacity = true ∧ (m.started entry.subagentId rec).RoomToDrain
      (m.started entry.subagentId rec).getRunningJobs.length
      ((m.started entry.subagentId rec).waiting rest) := by
  have hcard := waiting_started rec rest hqueued
  simp only [RoomToDrain, running_started, hasCapacity, decide_eq_true_eq]
  have hpending : (m.started entry.subagentId rec).pendingAdmissions = m.pendingAdmissions := rfl
  have hmax : (m.started entry.subagentId rec).maxRunningJobs = m.maxRunningJobs := rfl
  rw [hpending, hmax]
  obtain h | h | h | h := h
  · exact ⟨by omega, .inl h⟩
  · rw [h, Finset.card_empty] at hcard
    omega
  · omega
  · exact ⟨by omega, .inr (.inr (.inr (by omega)))⟩

theorem drainLoop_spec (cancelled : List (String × Nat)) (entries : List ResumeQueueEntry)
    (hopen : m.Open) (hrunner : ∀ entry ∈ entries, m.hasResumeRunner = true)
    (hroom : m.RoomToDrain m.getRunningJobs.length (m.waiting entries)) :
    SameSetting m (m.drainLoop [] entries) ∧
      (∀ entry ∈ (m.drainLoop [] entries).resumeQueue, entry ∈ entries) ∧
      ∀ r, m.Accounted entries cancelled r →
        (m.drainLoop [] entries).Accounted (m.drainLoop [] entries).resumeQueue cancelled r := by
  induction entries generalizing m with
  | nil => exact ⟨⟨rfl, rfl, rfl, rfl, fun _ => .inl⟩, fun entry hentry => hentry, fun r hr => hr⟩
  | cons entry rest ih =>
    have hrunner := hrunner entry List.mem_cons_self
    by_cases hlt : m.getRunningJobs.length < m.maxRunningJobs
    · by_cases hqueued : m.isQueued entry.subagentId = true
      · obtain ⟨rec, hrec, hstatus⟩ := isQueued_iff.mp hqueued
        obtain ⟨hcapacity, hroom'⟩ := hroom.start rec hlt hqueued
        obtain ⟨hsame, hsub, haccounted⟩ :=
          ih (sameSetting_started.opened hopen) (fun _ _ => hrunner) hroom'
        rw [drainLoop_start hopen hrunner hlt hrec hstatus hcapacity]
        exact ⟨sameSetting_started.trans hsame, fun e he => List.mem_cons_of_mem _ (hsub e he),
          fun r hr => haccounted r (hr.start hrec)⟩
      · rw [Bool.not_eq_true] at hqueued
        rw [waiting_of_not_queued hqueued] at hroom
        obtain ⟨hsame, hsub, haccounted⟩ := ih hopen (fun _ _ => hrunner) hroom
        rw [drainLoop_skip hlt hqueued]
        exact ⟨hsame, fun e he => List.mem_cons_of_mem _ (hsub e he),
          fun r hr => haccounted r (hr.skip hqueued)⟩
    · rw [drainLoop, if_neg hlt]
      exact ⟨⟨rfl, rfl, rfl, rfl, fun _ => .inl⟩, fun entry hentry => hentry, fun r hr => hr⟩

theorem drainResumeQueue_spec (cancelled : List (String × Nat)) (hopen : m.Open)
    (hrunner : ∀ entry ∈ m.resumeQueue, m.hasResumeRunner = true)
    (hroom : m.RoomToDrain m.getRunningJobs.length (m.waiting m.resumeQueue)) :
    SameSetting m m.drainResumeQueue ∧
      (∀ entry ∈ m.drainResumeQueue.resumeQueue, entry ∈ m.resumeQueue) ∧
      ∀ r, m.Accounted m.resumeQueue cancelled r →
        m.drainResumeQueue.Accounted m.drainResumeQueue.resumeQueue cancelled r := by
  have hperm := List.mergeSort_perm m.resumeQueue fun a b => a.seq ≤ b.seq
  have hwaiting : m.waiting (m.resumeQueue.mergeSort fun a b => a.seq ≤ b.seq) =
      m.waiting m.resumeQueue := by
    simp only [waiting]
    rw [List.toFinset_eq_of_perm _ _ (hperm.map ResumeQueueEntry.subagentId)]
  obtain ⟨hsame, hsub, haccounted⟩ :=
    drainLoop_spec cancelled (m.resumeQueue.mergeSort fun a b => a.seq ≤ b.seq)
    hopen (fun entry hentry => hrunner entry (hperm.mem_iff.mp hentry)) (hwaiting.symm ▸ hroom)
  refine ⟨hsame, fun entry hentry => hperm.mem_iff.mp (hsub entry hentry),
    fun r hr => haccounted r ?_⟩
  obtain ⟨rec₁, hrec₁, hstatus, hseq, entry₁, hentry₁, hsub, hentryseq⟩ | h := hr
  · exact .inl ⟨rec₁, hrec₁, hstatus, hseq, entry₁, hperm.mem_iff.mpr hentry₁, hsub, hentryseq⟩
  · exact .inr h

theorem Accounted.congr (h : m.Accounted queue cancelled r) (hrecords : m'.records = m.records)
    (haliases : m'.waitGenerationAliases = m.waitGenerationAliases) :
    m'.Accounted queue cancelled r := by
  rw [Accounted, hrecords, haliases]
  exact h

theorem Accounted.mono {more : List (String × Nat)} (h : m.Accounted queue cancelled r) :
    m.Accounted queue (cancelled ++ more) r := by
  obtain h | h | h := h
  · exact .inl h
  · exact .inr (.inl h)
  · exact .inr (.inr (List.mem_append_left more h))

def queuedSeq? (rec : SubagentRecord) : Option Nat :=
  if rec.status = .queued then rec.queued.map QueuedResume.seq else none

theorem Accounted.change {queue' : List ResumeQueueEntry}
    (hrec : m.records.get? subagentId = some rec)
    (hothers : ∀ s, s ≠ subagentId → m'.records.get? s = m.records.get? s)
    (haliases : ∀ a ∈ m.waitGenerationAliases, a ∈ m'.waitGenerationAliases)
    (hqueue : ∀ entry ∈ queue, entry.subagentId ≠ subagentId → entry ∈ queue')
    (h : m.Accounted queue cancelled r) :
    m'.Accounted queue' (cancelled ++ ((queuedSeq? rec).map (subagentId, ·)).toList) r := by
  obtain ⟨rec₁, hrec₁, hstatus, hseq, entry, hentry, hsub, hentryseq⟩ | ⟨generation, halias⟩ |
      hcancelled := h
  · by_cases hs : r.1 = subagentId
    · rw [hs, hrec] at hrec₁
      cases hrec₁
      refine .inr (.inr (List.mem_append_right _ ?_))
      rw [queuedSeq?, if_pos hstatus, hseq, ← hs]
      simp
    · exact .inl ⟨rec₁, (hothers r.1 hs).trans hrec₁, hstatus, hseq, entry,
        hqueue entry hentry (hsub.trans_ne hs), hsub, hentryseq⟩
  · exact .inr (.inl ⟨generation, haliases _ halias⟩)
  · exact .inr (.inr (List.mem_append_left _ hcancelled))

theorem Accounted.change_idle {queue' : List ResumeQueueEntry}
    (hrec : m.records.get? subagentId = some rec) (hstatus : rec.status ≠ .queued)
    (hothers : ∀ s, s ≠ subagentId → m'.records.get? s = m.records.get? s)
    (haliases : ∀ a ∈ m.waitGenerationAliases, a ∈ m'.waitGenerationAliases)
    (hqueue : ∀ entry ∈ queue, entry ∈ queue') (h : m.Accounted queue cancelled r) :
    m'.Accounted queue' (cancelled ++ []) r := by
  have hnone : queuedSeq? rec = none := if_neg hstatus
  have := h.change hrec hothers haliases fun entry hentry _ => hqueue entry hentry
  rw [hnone] at this
  exact this

theorem get?_setRecord_ne {s : String} (hs : s ≠ subagentId) :
    (m.setRecord subagentId rec).records.get? s = m.records.get? s := by
  simp [setRecord, hs]

def resumeOfJob (m : JobManager) (generation : Nat) : List (String × Nat) :=
  (m.recordByJobId generation).toList.flatMap fun e => ((queuedSeq? e.2).map (e.1, ·)).toList

theorem Accounted.markRecord (generation : Nat) (status : SubagentLifecycle)
    (h : m.Accounted queue cancelled r) :
    (m.markRecord generation status).Accounted queue (cancelled ++ m.resumeOfJob generation) r := by
  rw [JobManager.markRecord, resumeOfJob]
  split
  next => exact h.mono
  next subagentId rec hfound =>
    have hrec := InsertionMap.mem_entries.mp (List.mem_of_find?_eq_some hfound)
    rw [hfound]
    simpa using h.change hrec (fun s hs => get?_setRecord_ne hs) (fun _ => id) fun _ hentry _ =>
      hentry

def runningAfter (m : JobManager) (job : Job) : Nat :=
  if job.status = .cancelled then m.getRunningJobs.length
  else (m.getRunningJobs.filter fun other => other.generation ≠ job.generation).length

def RoomToCancel (m : JobManager) (generation : Nat) (filter : Option String) : Prop :=
  ∀ job ∈ m.getJob generation, hiddenFrom filter job.ownerId = false → job.status = .paused →
    m.RoomToDrain (m.runningAfter job)
      ((m.waiting m.resumeQueue).filter fun s => (m.recordByJobId generation).map Prod.fst ≠ some s)

def resumable? (m : JobManager) (subagentId : String) (filter : Option String) :
    Option SubagentRecord :=
  (m.getSubagentRecord subagentId filter).filter fun rec =>
    rec.status ≠ .running && rec.status ≠ .queued && rec.hasContext && m.hasResumeRunner

def Meets (m : JobManager) : Event → Prop
  | .resumeSubagent subagentId filter _ => ∀ rec ∈ m.resumable? subagentId filter,
    m.maxRunningJobs ≤ m.getRunningJobs.length ∨
      m.getRunningJobs.length + m.pendingAdmissions < m.maxRunningJobs
  | .settle generation _ => ∀ job ∈ m.getJob generation, job.settled = false →
    m.resumeOfJob generation = [] ∧ m.RoomToDrain (m.runningAfter job) (m.waiting m.resumeQueue)
  | .cancel generation filter => m.RoomToCancel generation filter
  | .cancelSubagent subagentId filter => ∀ rec ∈ m.getSubagentRecord subagentId filter,
    (rec.status = .paused →
      m.RoomToDrain ((m.pausedJob? rec).elim m.getRunningJobs.length m.runningAfter)
      (m.waiting m.resumeQueue)) ∧
    (rec.status = .running → ∀ generation ∈ rec.currentJob, m.RoomToCancel generation filter)
  | .register .. | .reserveCapacity | .releaseCapacity _ => True

def cancelledWith (m : JobManager) (generation : Nat) (filter : Option String) :
    List (String × Nat) :=
  match m.getJob generation with
  | none => []
  | some job =>
    if hiddenFrom filter job.ownerId then []
    else if job.status = .paused ∨ job.status = .running then m.resumeOfJob generation else []

def cancels (m : JobManager) : Event → List (String × Nat)
  | .cancel generation filter => m.cancelledWith generation filter
  | .cancelSubagent subagentId filter =>
    match m.getSubagentRecord subagentId filter with
    | none => []
    | some rec =>
      match rec.status, rec.currentJob with
      | .running, some generation => m.cancelledWith generation filter
      | .queued, _ => ((queuedSeq? rec).map (subagentId, ·)).toList
      | _, _ => []
  | _ => []

def issues (m : JobManager) : Event → List (String × Nat)
  | .resumeSubagent subagentId filter _ =>
    if (m.resumable? subagentId filter).isSome && m.maxRunningJobs ≤ m.getRunningJobs.length then
      [(subagentId, m.resumeSeq + 1)]
    else []
  | _ => []

structure Step (m m' : JobManager) (issued dropped : List (String × Nat)) : Prop where
  setting : SameSetting m m'
  runner : (∀ entry ∈ m.resumeQueue, m.hasResumeRunner = true) →
    ∀ entry ∈ m'.resumeQueue, m'.hasResumeRunner = true
  accounted : ∀ cancelled r, m.Accounted m.resumeQueue cancelled r →
    m'.Accounted m'.resumeQueue (cancelled ++ dropped) r
  issued : ∀ cancelled, ∀ r ∈ issued, m'.Accounted m'.resumeQueue cancelled r

theorem Step.refl (m : JobManager) (dropped : List (String × Nat)) : Step m m [] dropped :=
  ⟨.refl m, id, fun _ _ h => h.mono, by simp⟩

theorem Step.of_eq (hsetting : SameSetting m m') (hrecords : m'.records = m.records)
    (hqueue : m'.resumeQueue = m.resumeQueue)
    (haliases : m'.waitGenerationAliases = m.waitGenerationAliases) : Step m m' [] [] := by
  refine ⟨hsetting, ?_, fun cancelled r h => ?_, by simp⟩
  · rw [hqueue, hsetting.hasResumeRunner]
    exact id
  · rw [hqueue, List.append_nil]
    exact h.congr hrecords haliases

theorem step_addJob (m : JobManager) (ownerId : Option String) : Step m (m.addJob ownerId).1 [] [] :=
  .of_eq ⟨rfl, rfl, rfl, rfl, fun _ => .inl⟩ rfl rfl rfl

theorem step_consumeAdmission {token : Nat} (h : m.consumeAdmission token = some m') :
    Step m m' [] [] := by
  rw [consumeAdmission] at h
  split at h
  · cases h
    exact .of_eq ⟨rfl, rfl, rfl, rfl, fun _ => .inl⟩ rfl rfl rfl
  · cases h

theorem Step.trans {m₁ m₂ m₃ : JobManager} {dropped : List (String × Nat)} (h : Step m₁ m₂ [] [])
    (h' : Step m₂ m₃ [] dropped) : Step m₁ m₃ [] dropped where
  setting := h.setting.trans h'.setting
  runner := h'.runner ∘ h.runner
  accounted cancelled r hr := by
    have := h.accounted cancelled r hr
    rw [List.append_nil] at this
    exact h'.accounted cancelled r this
  issued := h'.issued

theorem step_register (m : JobManager) (ownerId : Option String) (token : Option Nat) :
    Step m (m.after (.register ownerId token)) [] [] := by
  rw [after]
  split
  next m' _ h =>
    simp only [register] at h
    split at h
    · cases h
    split at h
    · cases h
    split at h
    · cases h
    split at h
    next token =>
      split at h
      · cases h
      next m₁ hm₁ =>
        have := step_addJob m₁ ownerId
        rw [Except.ok.inj h] at this
        exact (step_consumeAdmission hm₁).trans this
    next =>
      split at h
      · have := step_addJob m ownerId
        rw [Except.ok.inj h] at this
        exact this
      · cases h
  next => exact .refl m []

theorem step_reserveCapacity (m : JobManager) : Step m (m.after .reserveCapacity) [] [] := by
  rw [after]
  split
  next m' _ h =>
    rw [reserveCapacity] at h
    split at h
    · cases h
    · cases h
      exact .of_eq ⟨rfl, rfl, rfl, rfl, fun _ => .inl⟩ rfl rfl rfl
  next => exact .refl m []

theorem step_releaseCapacity (m : JobManager) (token : Nat) :
    Step m (m.after (.releaseCapacity token)) [] [] := by
  rw [after, releaseCapacity]
  cases h : m.consumeAdmission token with
  | none => exact .refl m []
  | some m' => exact step_consumeAdmission h

theorem step_drain {dropped : List (String × Nat)} (h : Step m m' [] dropped) (hopen : m.Open)
    (hrunner : ∀ entry ∈ m.resumeQueue, m.hasResumeRunner = true)
    (hroom : m'.RoomToDrain m'.getRunningJobs.length (m'.waiting m'.resumeQueue)) :
    Step m m'.drainResumeQueue [] dropped where
  setting :=
    h.setting.trans (drainResumeQueue_spec [] (h.setting.opened hopen) (h.runner hrunner) hroom).1
  runner _ entry hentry := by
    obtain ⟨hsetting, hsub, _⟩ :=
      drainResumeQueue_spec [] (h.setting.opened hopen) (h.runner hrunner) hroom
    rw [hsetting.hasResumeRunner]
    exact h.runner hrunner entry (hsub entry hentry)
  accounted cancelled r hr :=
    (drainResumeQueue_spec _ (h.setting.opened hopen) (h.runner hrunner) hroom).2.2 r
      (h.accounted cancelled r hr)
  issued := by simp

theorem roomToDrain_congr {running : Nat} {waiting : Finset String}
    (h : m.RoomToDrain running waiting) (hpending : m'.pendingAdmissions = m.pendingAdmissions)
    (hmax : m'.maxRunningJobs = m.maxRunningJobs) (hrunning : m'.getRunningJobs.length = running)
    (hwaiting : m'.waiting m'.resumeQueue = waiting) :
    m'.RoomToDrain m'.getRunningJobs.length (m'.waiting m'.resumeQueue) := by
  rw [RoomToDrain, hpending, hmax, hrunning, hwaiting]
  exact h

theorem step_markRecord (m : JobManager) (generation : Nat) (status : SubagentLifecycle) :
    Step m (m.markRecord generation status) [] (m.resumeOfJob generation) where
  setting := by
    rw [markRecord]
    split
    · exact .refl m
    · exact ⟨rfl, rfl, rfl, rfl, fun _ => .inl⟩
  runner := by
    rw [markRecord]
    split <;> exact id
  accounted cancelled r hr := by
    have hqueue : (m.markRecord generation status).resumeQueue = m.resumeQueue := by
      rw [markRecord]
      split <;> rfl
    rw [hqueue]
    exact hr.markRecord generation status
  issued := by simp

theorem step_setJobStatus (m : JobManager) (generation : Nat) (status : JobStatus) :
    Step m (m.setJobStatus generation status) [] [] :=
  .of_eq ⟨rfl, rfl, rfl, rfl, fun _ => .inl⟩ rfl rfl rfl

theorem running_setJobStatus (generation : Nat) {status : JobStatus} (h : status ≠ .running) :
    (m.setJobStatus generation status).getRunningJobs.length =
      (m.getRunningJobs.filter fun other => other.generation ≠ generation).length := by
  simp only [getRunningJobs, setJobStatus]
  induction m.jobs with
  | nil => rfl
  | cons job jobs ih =>
    by_cases hg : job.generation = generation
    · by_cases hs : job.status = .running <;> simp_all
    · by_cases hs : job.status = .running <;> simp_all

theorem running_setSettled (generation : Nat) :
    (m.setSettled generation).getRunningJobs.length = m.getRunningJobs.length := by
  simp only [getRunningJobs, setSettled]
  induction m.jobs with
  | nil => rfl
  | cons job jobs ih =>
    by_cases hg : job.generation = generation <;> by_cases hs : job.status = .running <;> simp_all

theorem running_other_setSettled (generation : Nat) :
    ((m.setSettled generation).getRunningJobs.filter fun other => other.generation ≠ generation) =
      m.getRunningJobs.filter fun other => other.generation ≠ generation := by
  simp only [getRunningJobs, setSettled]
  induction m.jobs with
  | nil => rfl
  | cons job jobs ih =>
    by_cases hg : job.generation = generation <;> by_cases hs : job.status = .running <;> simp_all

theorem RoomToDrain.mono {running : Nat} {w w' : Finset String} (h : m.RoomToDrain running w)
    (hsub : w' ⊆ w) :
    m.RoomToDrain running w' := by
  obtain h | h | h | h := h
  · exact .inl h
  · exact .inr (.inl (Finset.subset_empty.mp (h ▸ hsub)))
  · exact .inr (.inr (.inl h))
  · exact .inr (.inr (.inr (le_trans (Nat.add_le_add_left (Finset.card_le_card hsub) _) h)))

theorem waiting_congr (h : m'.records = m.records) (entries : List ResumeQueueEntry) :
    m'.waiting entries = m.waiting entries := by
  unfold waiting isQueued
  rw [h]

theorem waiting_setRecord {entries : List ResumeQueueEntry} (hstatus : rec.status ≠ .queued) :
    (m.setRecord subagentId rec).waiting entries = (m.waiting entries).filter fun s =>
      subagentId ≠ s := by
  ext s
  rw [Finset.mem_filter, waiting, waiting, Finset.mem_filter, Finset.mem_filter]
  by_cases hs : s = subagentId
  · simp [isQueued, setRecord, hs, hstatus]
  · simp [isQueued, setRecord, hs, Ne.symm hs]

theorem waiting_markRecord {entries : List ResumeQueueEntry} (generation : Nat)
    {status : SubagentLifecycle} (hstatus : status ≠ .queued) :
    (m.markRecord generation status).waiting entries =
      (m.waiting entries).filter fun s => (m.recordByJobId generation).map Prod.fst ≠ some s := by
  rw [markRecord]
  split
  next hnone => simp [hnone]
  next subagentId rec hfound =>
    rw [waiting_setRecord hstatus, hfound]
    simp

theorem markRecord_frame (m : JobManager) (generation : Nat) (status : SubagentLifecycle) :
    (m.markRecord generation status).jobs = m.jobs ∧
      (m.markRecord generation status).pendingAdmissions = m.pendingAdmissions ∧
      (m.markRecord generation status).maxRunningJobs = m.maxRunningJobs ∧
      (m.markRecord generation status).resumeQueue = m.resumeQueue := by
  rw [markRecord]
  split <;> exact ⟨rfl, rfl, rfl, rfl⟩

theorem step_mark_drain {dropped : List (String × Nat)} {generation : Nat}
    {status : SubagentLifecycle} (h : Step m (m'.markRecord generation status) [] dropped)
    (hopen : m.Open) (hrunner : ∀ entry ∈ m.resumeQueue, m.hasResumeRunner = true)
    (hstatus : status ≠ .queued) (hroom : m'.RoomToDrain m'.getRunningJobs.length
      ((m'.waiting m'.resumeQueue).filter fun s =>
        (m'.recordByJobId generation).map Prod.fst ≠ some s)) :
    Step m (m'.markRecord generation status).drainResumeQueue [] dropped := by
  obtain ⟨hjobs, hpending, hmax, hqueue⟩ := markRecord_frame m' generation status
  refine step_drain h hopen hrunner (roomToDrain_congr hroom hpending hmax ?_ ?_)
  · rw [getRunningJobs, hjobs, getRunningJobs]
  · rw [hqueue, waiting_markRecord generation hstatus]

theorem getJob_generation {generation : Nat} {job : Job} (h : m.getJob generation = some job) :
    job.generation = generation := by
  have := List.find?_some h
  simpa using this

theorem step_settle {generation : Nat} {outcome : RunOutcome} (hopen : m.Open)
    (hrunner : ∀ entry ∈ m.resumeQueue, m.hasResumeRunner = true)
    (hmeets : m.Meets (.settle generation outcome)) :
    Step m (m.after (.settle generation outcome)) [] [] := by
  rw [after, settle]
  cases hjob : m.getJob generation with
  | none => exact .refl m []
  | some job =>
    by_cases hsettled : job.settled = true
    · simp only [hsettled, if_true]
      exact .refl m []
    · obtain ⟨hresume, hroom⟩ := hmeets job hjob (by simpa using hsettled)
      simp only [hsettled]
      have hset : Step m (m.setSettled generation) [] [] :=
        .of_eq ⟨rfl, rfl, rfl, rfl, fun _ => .inl⟩ rfl rfl rfl
      by_cases hcancelled : job.status = .cancelled
      · have hmark : Step m ((m.setSettled generation).markRecord generation .cancelled) [] [] := by
          have := hset.trans (step_markRecord (m.setSettled generation) generation .cancelled)
          rwa [show (m.setSettled generation).resumeOfJob generation = [] from hresume] at this
        simp only [hcancelled]
        refine step_mark_drain hmark hopen hrunner (by decide) ?_
        rw [runningAfter, if_pos hcancelled, ← running_setSettled generation] at hroom
        exact RoomToDrain.mono hroom (Finset.filter_subset _ _)
      · have hmark : Step m
            (((m.setSettled generation).setJobStatus generation outcome.jobStatus).markRecord
            generation outcome.lifecycle) [] [] := by
          have := (hset.trans (step_setJobStatus _ generation outcome.jobStatus)).trans
            (step_markRecord _ generation outcome.lifecycle)
          rwa [show ((m.setSettled generation).setJobStatus generation outcome.jobStatus).resumeOfJob
            generation = []
            from hresume] at this
        simp only [hcancelled]
        refine step_mark_drain hmark hopen hrunner (by cases outcome <;> decide) ?_
        have hstatus : outcome.jobStatus ≠ .running := by cases outcome <;> decide
        rw [runningAfter, if_neg hcancelled, getJob_generation hjob] at hroom
        rw [running_setJobStatus generation hstatus, running_other_setSettled]
        exact RoomToDrain.mono hroom (Finset.filter_subset _ _)

theorem step_cancel {generation : Nat} {filter : Option String} (hopen : m.Open)
    (hrunner : ∀ entry ∈ m.resumeQueue, m.hasResumeRunner = true)
    (hmeets : m.RoomToCancel generation filter) :
    Step m (m.cancel generation filter) [] (m.cancelledWith generation filter) := by
  rw [cancel, cancelledWith]
  cases hjob : m.getJob generation with
  | none => exact .refl m []
  | some job =>
    have hmark : Step m ((m.setJobStatus generation .cancelled).markRecord generation .cancelled) []
        (m.resumeOfJob generation) :=
      (step_setJobStatus m generation .cancelled).trans (step_markRecord _ generation .cancelled)
    by_cases hhidden : hiddenFrom filter job.ownerId = true
    · simp only [hhidden, if_true]
      exact .refl m []
    · rw [Bool.not_eq_true] at hhidden
      simp only [hhidden]
      by_cases hpaused : job.status = .paused
      · simp only [hpaused, if_true, true_or]
        refine step_mark_drain hmark hopen hrunner (by decide) ?_
        have hroom := hmeets job hjob hhidden hpaused
        rw [runningAfter, if_neg (by rw [hpaused]; decide), getJob_generation hjob] at hroom
        rw [running_setJobStatus generation (by decide)]
        exact hroom
      · by_cases hrunning : job.status = .running
        · simp only [hrunning]
          exact hmark
        · simp only [hpaused, hrunning]
          exact .refl m []

theorem getSubagentRecord_eq_some {filter : Option String}
    (h : m.getSubagentRecord subagentId filter = some rec) :
    m.records.get? subagentId = some rec :=
  (Option.filter_eq_some_iff.mp h).1

theorem step_setRecord (hrec : m.records.get? subagentId = some rec) (hstatus : rec.status ≠ .queued)
    (rec' : SubagentRecord) : Step m (m.setRecord subagentId rec') [] [] where
  setting := ⟨rfl, rfl, rfl, rfl, fun _ => .inl⟩
  runner := id
  accounted _ _ hr :=
    hr.change_idle hrec hstatus (fun _ hs => get?_setRecord_ne hs) (fun _ => id) fun _ => id
  issued := by simp

theorem publishQueuedTerminal_frame (m : JobManager) (subagentId : String) (seq : Nat) :
    SameSetting m (m.publishQueuedTerminal subagentId seq .cancelled .cancelled) ∧
      (m.publishQueuedTerminal subagentId seq .cancelled .cancelled).resumeQueue = m.resumeQueue ∧
      (m.publishQueuedTerminal subagentId seq .cancelled .cancelled).waitGenerationAliases =
        m.waitGenerationAliases ∧
      ∀ s, s ≠ subagentId →
        (m.publishQueuedTerminal subagentId seq .cancelled
          .cancelled).records.get? s = m.records.get? s := by
  rw [publishQueuedTerminal]
  split
  · exact ⟨.refl m, rfl, rfl, fun _ _ => rfl⟩
  · have hsetting : ∀ t ∈ m.queuedTerminals ++ [((subagentId, seq), JobStatus.cancelled)],
        t ∈ m.queuedTerminals ∨ t.2 = .cancelled := by
      intro t ht
      obtain ht | ht := List.mem_append.mp ht
      · exact .inl ht
      · exact .inr (by rw [List.mem_singleton.mp ht])
    dsimp only
    split
    · exact ⟨⟨rfl, rfl, rfl, rfl, hsetting⟩, rfl, rfl, fun _ _ => rfl⟩
    · exact ⟨⟨rfl, rfl, rfl, rfl, hsetting⟩, rfl, rfl, fun s hs => get?_setRecord_ne hs⟩

structure Dequeues (m m' : JobManager) (subagentId : String) : Prop where
  setting : SameSetting m m'
  queue : m'.resumeQueue = m.resumeQueue.eraseP fun entry => entry.subagentId = subagentId
  aliases : m'.waitGenerationAliases = m.waitGenerationAliases
  others : ∀ s, s ≠ subagentId → m'.records.get? s = m.records.get? s

theorem Dequeues.setRecord (h : Dequeues m m' subagentId) (rec : SubagentRecord) :
    Dequeues m (m'.setRecord subagentId rec) subagentId where
  setting := h.setting.trans ⟨rfl, rfl, rfl, rfl, fun _ => .inl⟩
  queue := h.queue
  aliases := h.aliases
  others s hs := (get?_setRecord_ne hs).trans (h.others s hs)

theorem Dequeues.publish (h : Dequeues m m' subagentId) (seq : Nat) :
    Dequeues m (m'.publishQueuedTerminal subagentId seq .cancelled .cancelled) subagentId := by
  obtain ⟨hsetting, hqueue, haliases, hothers⟩ := publishQueuedTerminal_frame m' subagentId seq
  exact ⟨h.setting.trans hsetting, hqueue.trans h.queue, haliases.trans h.aliases,
    fun s hs => (hothers s hs).trans (h.others s hs)⟩

theorem dequeues_cancelQueued (m : JobManager) (subagentId : String) (rec : SubagentRecord) :
    Dequeues m (m.cancelQueued subagentId rec) subagentId := by
  have hdequeue : Dequeues m (m.dequeue subagentId rec) subagentId :=
    ⟨⟨rfl, rfl, rfl, rfl, fun _ => .inl⟩, rfl, rfl, fun s hs => get?_setRecord_ne hs⟩
  have hpublished : Dequeues m (rec.queued.elim (m.dequeue subagentId rec) fun queued =>
      (m.dequeue subagentId rec).publishQueuedTerminal subagentId queued.seq .cancelled .cancelled)
        subagentId := by
    cases rec.queued with
    | none => exact hdequeue
    | some queued => exact hdequeue.publish queued.seq
  rw [cancelQueued]
  split
  · exact hpublished
  · exact hpublished.setRecord _

theorem step_cancelQueued (hrec : m.records.get? subagentId = some rec) :
    Step m (m.cancelQueued subagentId rec) [] ((queuedSeq? rec).map (subagentId, ·)).toList := by
  have h := dequeues_cancelQueued m subagentId rec
  refine ⟨h.setting, fun hrunner entry hentry => ?_, fun cancelled r hr => ?_, by simp⟩
  · rw [h.setting.hasResumeRunner]
    rw [h.queue] at hentry
    exact hrunner entry (List.mem_of_mem_eraseP hentry)
  · refine hr.change hrec h.others (fun a ha => h.aliases ▸ ha) fun entry hentry hne => ?_
    rw [h.queue]
    exact (List.mem_eraseP_of_neg (by simpa using hne)).mpr hentry

theorem paused_job_ends (m : JobManager) (rec : SubagentRecord) : ∃ m₁,
    m₁ = (m.pausedJob? rec).elim m (fun job => m.setJobStatus job.generation .cancelled) ∧
      Step m m₁ [] [] ∧
      m₁.records = m.records ∧ m₁.resumeQueue = m.resumeQueue ∧
        m₁.pendingAdmissions = m.pendingAdmissions ∧
      m₁.maxRunningJobs = m.maxRunningJobs ∧
      m₁.getRunningJobs.length = (m.pausedJob? rec).elim m.getRunningJobs.length m.runningAfter := by
  refine ⟨_, rfl, ?_⟩
  cases hjob : m.pausedJob? rec with
  | none => exact ⟨.refl m [], rfl, rfl, rfl, rfl, rfl⟩
  | some job =>
    have hpaused : job.status = .paused := by
      obtain ⟨generation, _, hfilter⟩ := Option.bind_eq_some_iff.mp hjob
      simpa using (Option.filter_eq_some_iff.mp hfilter).2
    refine ⟨step_setJobStatus m job.generation .cancelled, rfl, rfl, rfl, rfl, ?_⟩
    rw [Option.elim_some, running_setJobStatus job.generation (by decide),
      Option.elim_some, runningAfter, if_neg (by rw [hpaused]; decide)]

theorem step_cancelSubagent {filter : Option String} (hopen : m.Open)
    (hrunner : ∀ entry ∈ m.resumeQueue, m.hasResumeRunner = true)
    (hmeets : m.Meets (.cancelSubagent subagentId filter)) :
    Step m (m.cancelSubagent subagentId filter) []
      (m.cancels (.cancelSubagent subagentId filter)) := by
  rw [cancelSubagent, cancels]
  cases hvisible : m.getSubagentRecord subagentId filter with
  | none => exact .refl m []
  | some rec =>
    have hrec := getSubagentRecord_eq_some hvisible
    obtain ⟨hpaused, hrunning⟩ := hmeets rec hvisible
    simp only
    cases hstatus : rec.status with
    | running =>
      cases hcurrent : rec.currentJob with
      | none => exact .refl m []
      | some generation => exact step_cancel hopen hrunner (hrunning hstatus generation hcurrent)
    | paused =>
      have hne : rec.status ≠ .queued := by rw [hstatus]; decide
      obtain ⟨m₁, hm₁, hstep, hrecords, hqueue, hpending, hmax, hrunning₁⟩ := paused_job_ends m rec
      simp only [← hm₁]
      refine step_drain (hstep.trans (step_setRecord (hrecords ▸ hrec) hne _)) hopen hrunner ?_
      have hroom :=
        RoomToDrain.mono (hpaused hstatus) (Finset.filter_subset (fun s => subagentId ≠ s) _)
      refine roomToDrain_congr hroom hpending hmax hrunning₁ ?_
      rw [waiting_setRecord (by simp), waiting_congr hrecords]
      exact congrArg (fun queue => (m.waiting queue).filter fun s => subagentId ≠ s) hqueue
    | queued => exact step_cancelQueued hrec
    | completed => exact .refl m []
    | failed => exact .refl m []
    | cancelled => exact .refl m []

theorem resumable?_eq_some {filter : Option String} (h : m.resumable? subagentId filter = some rec) :
    m.getSubagentRecord subagentId filter = some rec ∧ rec.status ≠ .running ∧ rec.status ≠ .queued ∧
      rec.hasContext = true ∧ m.hasResumeRunner = true := by
  obtain ⟨hvisible, hresumable⟩ := Option.filter_eq_some_iff.mp h
  simp only [Bool.and_eq_true, decide_eq_true_eq] at hresumable
  exact ⟨hvisible, hresumable.1.1.1, hresumable.1.1.2, hresumable.1.2, hresumable.2⟩

theorem resumeSubagent_of_resumable {filter : Option String} (hopen : m.Open)
    (h : m.resumable? subagentId filter = some rec) (message : Option String) :
    m.resumeSubagent subagentId filter message =
      if m.maxRunningJobs ≤ m.getRunningJobs.length then
        .ok (m.enqueueResume subagentId rec message,
          { ok := true, queued := true, status := some .queued })
      else m.startResume subagentId rec := by
  obtain ⟨hvisible, hrunning, hqueued, hcontext, hrunner⟩ := resumable?_eq_some h
  simp [resumeSubagent, hvisible, hopen.isFenced, hrunning, hqueued, hcontext, hrunner]

theorem step_enqueueResume (hrec : m.records.get? subagentId = some rec)
    (hstatus : rec.status ≠ .queued) (hrunner : m.hasResumeRunner = true) (message : Option String) :
    Step m (m.enqueueResume subagentId rec message) [(subagentId, m.resumeSeq + 1)] [] where
  setting := ⟨rfl, rfl, rfl, rfl, fun _ => .inl⟩
  runner _ _ _ := hrunner
  accounted _ _ hr := hr.change_idle hrec hstatus (fun _ hs => get?_setRecord_ne hs) (fun _ => id)
    fun _ hentry => List.mem_append_left _ hentry
  issued cancelled r hr := by
    rw [List.mem_singleton.mp hr]
    refine .inl ⟨{ rec with
      status := .queued, queued := some ⟨m.resumeSeq + 1, message⟩ }, ?_, rfl, rfl,
      ⟨subagentId, rec.ownerId, m.resumeSeq + 1, message⟩, ?_, rfl, rfl⟩
    · simp [enqueueResume, setRecord]
    · simp [enqueueResume]

theorem step_started (hrec : m.records.get? subagentId = some rec) (hstatus : rec.status ≠ .queued) :
    Step m (m.started subagentId rec) [] [] where
  setting := sameSetting_started
  runner := id
  accounted _ _ hr := hr.change_idle hrec hstatus (fun s hs => by rw [get?_started, if_neg hs])
    (fun _ ha => List.mem_append_left _ ha) fun _ => id
  issued := by simp

theorem exists_mem_setMessage (subagentId text : String) {entry : ResumeQueueEntry}
    {queue : List ResumeQueueEntry} (h : entry ∈ queue) :
    ∃ entry' ∈ setMessage subagentId text queue,
      entry'.subagentId = entry.subagentId ∧ entry'.seq = entry.seq := by
  induction queue with
  | nil => cases h
  | cons first rest ih =>
    rw [setMessage]
    by_cases hfirst : first.subagentId = subagentId
    · rw [if_pos hfirst]
      cases h with
      | head => exact ⟨_, List.mem_cons_self, rfl, rfl⟩
      | tail _ h => exact ⟨entry, List.mem_cons_of_mem _ h, rfl, rfl⟩
    · rw [if_neg hfirst]
      cases h with
      | head => exact ⟨_, List.mem_cons_self, rfl, rfl⟩
      | tail _ h =>
        obtain ⟨entry', hentry', hsame⟩ := ih h
        exact ⟨entry', List.mem_cons_of_mem _ hentry', hsame⟩

theorem setMessage_eq_nil {subagentId text : String} {queue : List ResumeQueueEntry}
    (h : ∃ entry, entry ∈ setMessage subagentId text queue) : ∃ entry, entry ∈ queue := by
  cases queue with
  | nil =>
    obtain ⟨entry, hentry⟩ := h
    cases hentry
  | cons first rest => exact ⟨first, List.mem_cons_self⟩

theorem step_replaceMessage {queued : QueuedResume} (hrec : m.records.get? subagentId = some rec)
    (hqueued : rec.queued = some queued) (text : String) :
    Step m (m.replaceMessage subagentId rec queued text) [] [] where
  setting := ⟨rfl, rfl, rfl, rfl, fun _ => .inl⟩
  runner hrunner entry hentry := by
    obtain ⟨first, hfirst⟩ := setMessage_eq_nil ⟨entry, hentry⟩
    exact hrunner first hfirst
  accounted cancelled r hr := by
    rw [List.append_nil]
    obtain ⟨rec₁, hrec₁, hstatus, hseq, entry, hentry, hsub, hentryseq⟩ | h := hr
    · obtain ⟨entry', hentry', hsub', hseq'⟩ := exists_mem_setMessage subagentId text hentry
      by_cases hs : r.1 = subagentId
      · rw [hs, hrec] at hrec₁
        cases hrec₁
        refine .inl ⟨{ rec with queued := some { queued with
          message := some text } }, ?_, hstatus, ?_, entry', hentry', hsub'.trans hsub,
          hseq'.trans hentryseq⟩
        · simp [replaceMessage, JobManager.setRecord, hs]
        · rw [hqueued] at hseq
          exact hseq
      · exact .inl ⟨rec₁, (get?_setRecord_ne hs).trans hrec₁, hstatus, hseq, entry', hentry',
          hsub'.trans hsub, hseq'.trans hentryseq⟩
    · exact .inr h
  issued := by simp

theorem resume_other {filter : Option String} (hopen : m.Open)
    (h : m.resumable? subagentId filter = none) (message : Option String) :
    ∃ m' result, m.resumeSubagent subagentId filter message = .ok (m', result) ∧
      result.jobId = none ∧
      (m' = m ∨ ∃ rec queued text, m.records.get? subagentId = some rec ∧ rec.status = .queued ∧
        rec.queued = some queued ∧ m' = m.replaceMessage subagentId rec queued text) := by
  cases hvisible : m.getSubagentRecord subagentId filter with
  | none => simp [resumeSubagent, hvisible]
  | some rec =>
    have hrec := getSubagentRecord_eq_some hvisible
    by_cases hrunning : rec.status = .running
    · simp [resumeSubagent, hvisible, hopen.isFenced, hrunning]
    by_cases hqueued : rec.status = .queued
    · cases message with
      | none => simp [resumeSubagent, hvisible, hopen.isFenced, hqueued]
      | some text =>
        cases hresume : rec.queued with
        | none => simp [resumeSubagent, hvisible, hopen.isFenced, hqueued, hresume]
        | some queued =>
          refine ⟨m.replaceMessage subagentId rec queued text,
            { ok := true, queued := true, status := some .queued }, ?_, rfl,
            .inr ⟨rec, queued, text, hrec, hqueued, hresume, rfl⟩⟩
          simp [resumeSubagent, hvisible, hopen.isFenced, hqueued, hresume]
    · have hmissing : ¬ (rec.hasContext = true ∧ m.hasResumeRunner = true) := by
        simpa [resumable?, hvisible, hrunning, hqueued] using h
      cases hcontext : rec.hasContext with
      | false => simp [resumeSubagent, hvisible, hopen.isFenced, hrunning, hqueued, hcontext]
      | true =>
        cases hrunner : m.hasResumeRunner with
        | false =>
          simp [resumeSubagent, hvisible, hopen.isFenced, hrunning, hqueued, hcontext, hrunner]
        | true => exact absurd ⟨hcontext, hrunner⟩ hmissing

theorem step_resume_other {filter : Option String} (hopen : m.Open)
    (h : m.resumable? subagentId filter = none) (message : Option String) :
    Step m (m.after (.resumeSubagent subagentId filter message)) [] [] := by
  obtain ⟨m', result, heq, -, rfl | ⟨rec, queued, text, hrec, -, hresume, rfl⟩⟩ :=
    resume_other hopen h message
  · simp only [after, heq]
    exact .refl _ []
  · simp only [after, heq]
    exact step_replaceMessage hrec hresume text

theorem step_resumeSubagent {filter message : Option String} (hopen : m.Open)
    (hmeets : m.Meets (.resumeSubagent subagentId filter message)) :
    Step m (m.after (.resumeSubagent subagentId filter message))
      (m.issues (.resumeSubagent subagentId filter message)) [] := by
  cases hresumable : m.resumable? subagentId filter with
  | none =>
    simp only [issues, hresumable]
    exact step_resume_other hopen hresumable message
  | some rec =>
    obtain ⟨hvisible, _, hqueued, _, hrunner⟩ := resumable?_eq_some hresumable
    have hrec := getSubagentRecord_eq_some hvisible
    rw [after, resumeSubagent_of_resumable hopen hresumable]
    by_cases hfull : m.maxRunningJobs ≤ m.getRunningJobs.length
    · simp only [issues, hresumable, hfull]
      exact step_enqueueResume hrec hqueued hrunner message
    · have hcapacity : m.hasCapacity = true := by
        simpa [hasCapacity, hfull] using hmeets rec hresumable
      simp only [issues, hfull, startResume_of_capacity hopen hrunner hcapacity]
      simp only [decide_false, Bool.and_false, Bool.false_eq_true, if_false]
      exact step_started hrec hqueued

theorem step_of_meets (hopen : m.Open) (hrunner : ∀ entry ∈ m.resumeQueue, m.hasResumeRunner = true)
    (event : Event) (hmeets : m.Meets event) :
    Step m (m.after event) (m.issues event) (m.cancels event) := by
  cases event with
  | register ownerId token => exact step_register m ownerId token
  | reserveCapacity => exact step_reserveCapacity m
  | releaseCapacity token => exact step_releaseCapacity m token
  | resumeSubagent subagentId filter message => exact step_resumeSubagent hopen hmeets
  | cancel generation filter => exact step_cancel hopen hrunner hmeets
  | cancelSubagent subagentId filter => exact step_cancelSubagent hopen hrunner hmeets
  | settle generation outcome => exact step_settle hopen hrunner hmeets

end

structure Resumes where
  issued : List (String × Nat) := []
  cancelled : List (String × Nat) := []

def record (s : JobManager × Resumes) (event : Event) : JobManager × Resumes :=
  (s.1.after event, ⟨s.2.issued ++ s.1.issues event, s.2.cancelled ++ s.1.cancels event⟩)

def AllMeet (m : JobManager) : List Event → Prop
  | [] => True
  | event :: events => m.Meets event ∧ (m.after event).AllMeet events

structure Fresh (m : JobManager) : Prop where
  opened : m.Open
  queue : m.resumeQueue = []
  terminals : m.queuedTerminals = []

structure Inv (s : JobManager × Resumes) : Prop where
  opened : s.1.Open
  runner : ∀ entry ∈ s.1.resumeQueue, s.1.hasResumeRunner = true
  noneFailed : ∀ t ∈ s.1.queuedTerminals, t.2 ≠ .failed
  accounted : ∀ r ∈ s.2.issued, s.1.Accounted s.1.resumeQueue s.2.cancelled r

theorem Inv.record {s : JobManager × Resumes} (h : Inv s) (event : Event)
    (hmeets : s.1.Meets event) :
    Inv (record s event) := by
  have hstep := step_of_meets h.opened h.runner event hmeets
  refine ⟨hstep.setting.opened h.opened, hstep.runner h.runner, fun t ht => ?_, fun r hr => ?_⟩
  · obtain ht | ht := hstep.setting.queuedTerminals t ht
    · exact h.noneFailed t ht
    · rw [ht]
      decide
  · obtain hr | hr := List.mem_append.mp hr
    · exact hstep.accounted _ r (h.accounted r hr)
    · exact hstep.issued _ r hr

theorem Inv.foldl {s : JobManager × Resumes} (h : Inv s) (events : List Event)
    (hmeets : s.1.AllMeet events) :
    Inv (events.foldl JobManager.record s) := by
  induction events generalizing s with
  | nil => exact h
  | cons event events ih => exact ih (h.record event hmeets.1) hmeets.2

theorem resume_iff {m : JobManager} (hopen : m.Open) {subagentId : String}
    {filter message : Option String} {rec : SubagentRecord}
    (hresumable : m.resumable? subagentId filter = some rec) :
    (∃ m' result, m.resumeSubagent subagentId filter message = .ok (m', result) ∧ result.ok = true ∧
      (result.queued = true ∨ result.jobId ≠ none)) ↔
        m.Meets (.resumeSubagent subagentId filter message) := by
  obtain ⟨_, _, _, _, hrunner⟩ := resumable?_eq_some hresumable
  rw [resumeSubagent_of_resumable hopen hresumable]
  simp only [Meets, hresumable, Option.mem_def, Option.some.injEq, forall_eq']
  by_cases hfull : m.maxRunningJobs ≤ m.getRunningJobs.length
  · simp [hfull]
  · by_cases hcapacity : m.hasCapacity = true
    · have hroom : m.getRunningJobs.length + m.pendingAdmissions < m.maxRunningJobs := by
        simpa [hasCapacity] using hcapacity
      simp [hfull, startResume_of_capacity hopen hrunner hcapacity, hroom]
    · rw [Bool.not_eq_true] at hcapacity
      have hroom : ¬ m.getRunningJobs.length + m.pendingAdmissions < m.maxRunningJobs := by
        simpa [hasCapacity] using hcapacity
      simp [hfull, startResume_of_no_capacity hopen hrunner hcapacity, hroom]

/-- In a run whose events find room, a queued resume waits, becomes a job or is cancelled, and none
fails. -/
theorem resumes_find_room {start : JobManager} (hstart : start.Fresh) (events : List Event)
    (hmeets : start.AllMeet events) :
    let s := events.foldl record (start, {})
    (∀ t ∈ s.1.queuedTerminals, t.2 ≠ .failed) ∧
      (∀ r ∈ s.2.issued, s.1.Accounted s.1.resumeQueue s.2.cancelled r) ∧
      ∀ subagentId filter message rec, s.1.resumable? subagentId filter = some rec →
        ((∃ m' result, s.1.resumeSubagent subagentId filter message = .ok (m', result) ∧
        result.ok = true ∧
          (result.queued = true ∨ result.jobId ≠ none)) ↔
          s.1.Meets (.resumeSubagent subagentId filter message)) := by
  have hinv : Inv (start, {}) := by
    refine ⟨hstart.opened, ?_, ?_, by simp⟩
    · simp [hstart.queue]
    · simp [hstart.terminals]
  have h := hinv.foldl events hmeets
  exact ⟨h.noneFailed, h.accounted, fun subagentId filter message rec => resume_iff h.opened⟩

def onePaused : JobManager where
  maxRunningJobs := 1
  disposed := false
  registrationClosed := false
  fencedOwners := []
  hasResumeRunner := true
  jobs := []
  jobGenerationSeq := 0
  admissions := []
  pendingAdmissions := 0
  nextAdmission := 0
  records := InsertionMap.empty.set "a" ⟨none, none, [], .paused, true, none⟩
  resumeQueue := []
  resumeSeq := 0
  waitGenerationAliases := []
  queuedTerminals := []

theorem fresh_onePaused : onePaused.Fresh := ⟨⟨rfl, rfl, rfl⟩, rfl, rfl⟩

theorem queued_resume_becomes_job :
    let s :=
  [Event.register none none, .resumeSubagent "a" none none, .settle 1 .completed].foldl record
      (onePaused, {})
    s.2.issued = [("a", 1)] ∧ s.1.Accounted s.1.resumeQueue s.2.cancelled ("a", 1) := by
  have hmeets : onePaused.AllMeet [.register none none, .resumeSubagent "a" none none,
      .settle 1 .completed] :=
    ⟨trivial, fun _ _ => .inl (by decide), fun _ _ _ => ⟨by decide, .inl rfl⟩, trivial⟩
  exact ⟨by decide, (resumes_find_room fresh_onePaused _ hmeets).2.1 ("a", 1) (by decide)⟩

theorem reservation_fails_resume :
    ¬ ∀ (start : JobManager) (events : List Event) (subagentId : String)
      (filter message : Option String)
        (rec : SubagentRecord), start.Fresh →
      (events.foldl record (start, {})).1.resumable? subagentId filter = some rec →
      ∃ m' result, (events.foldl record (start, {})).1.resumeSubagent subagentId filter message =
        .ok (m', result) := by
  intro h
  obtain ⟨m', result, hresume⟩ :=
    h onePaused [.reserveCapacity] "a" none none ⟨none, none, [], .paused, true, none⟩
    fresh_onePaused rfl
  cases hresume

end JobManager

end JevCode.Async
