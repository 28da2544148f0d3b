import JevCode.Agent.ToolBatchPolls
import Mathlib.Data.List.Count
import Mathlib.Data.List.Induction
import Mathlib.Data.List.Perm.Basic
import Mathlib.Data.List.TakeWhile

/-! `agent.ts` and `agent-loop.ts`: the way of steering messages from `steer` to the context of a
run. A poll takes messages from the queue at once and returns them later, and everything else may
happen in between. -/

namespace JevCode.Agent

open ToolBatch (SteeringOutcome)

variable {M F Result : Type}

inductive SteeringMode
  | all
  | oneAtATime
  deriving DecidableEq

def dequeueSteeringMessages [DecidableEq M] (mode : SteeringMode) (forceOneAtATime : List M) :
    List M → List M × List M
  | [] => ([], [])
  | first :: rest =>
    match mode with
    | .oneAtATime => ([first], rest)
    | .all =>
      if first ∈ forceOneAtATime then ([first], rest)
      else ((first :: rest).takeWhile (· ∉ forceOneAtATime),
        (first :: rest).dropWhile (· ∉ forceOneAtATime))

inductive QueueEdit (M : Type)
  | clearSteeringQueue
  | popLastSteer
  | removeSteerAt (index : Nat)
  | moveSteer (fromIndex toIndex : Nat)
  | removeQueuedMessages (predicate : M → Bool)

def moveQueuedMessage (queue : List M) (fromIndex toIndex : Nat) : List M :=
  if toIndex < queue.length then
    match queue[fromIndex]? with
    | some item => (queue.eraseIdx fromIndex).insertIdx toIndex item
    | none => queue
  else queue

def QueueEdit.apply (queue : List M) : QueueEdit M → List M × List M
  | clearSteeringQueue => (queue, [])
  | popLastSteer => (queue.getLast?.toList, queue.dropLast)
  | removeSteerAt index => (queue[index]?.toList, queue.eraseIdx index)
  | moveSteer fromIndex toIndex => ([], moveQueuedMessage queue fromIndex toIndex)
  | removeQueuedMessages predicate => (queue.filter predicate, queue.filter (!predicate ·))

inductive LoopPhase (M Result : Type)
  | starting
  /-- `await config.getSteeringMessages()`, which has taken `batch`. -/
  | polling (initial : Bool) (batch : List M)
  | turn
  /-- `executeToolCalls`, with what its poll in flight has taken and what is in `steeringMessages`.
  -/
  | tools (batch : ToolBatch Result) (polled : List M) (steeringMessages : List M)
  | executed (steeringMessages : List M)
  /-- After the inner loop, with what is left in `pendingMessages`. -/
  | yielding (pendingMessages : List M)
  | ended

def LoopPhase.abort : LoopPhase M Result → LoopPhase M Result
  | .tools batch polled steeringMessages =>
    .tools { batch with aborted := true } polled steeringMessages
  | phase => phase

structure SteeringRun (M F Result : Type) where
  config : BatchConfig
  queue : List M
  mode : SteeringMode
  forceOneAtATime : List M
  phase : LoopPhase M Result
  hasMoreToolCalls : Bool
  skipInitialSteeringPoll : Bool
  aborted : Bool
  active : Bool
  terminalized : Bool
  context : List (M ⊕ F)
  disownedSteering : List M
  admitted : List M
  removed : List M

inductive YieldOutcome (F : Type)
  | paused
  | failed
  | followUp (messages : List F)
  | syntheticRecovery
  | nothing

inductive SteeringEvent (M F Result : Type)
  | steer (message : M) (forceOneAtATime : Bool)
  | edit (edit : QueueEdit M)
  | setSteeringMode (mode : SteeringMode)
  | abort
  | forceAbort
  | finalizeRun
  | release
  /-- `fence` is what `#steeringAdmissionFence` answers, here and below. -/
  | start (fence : Bool)
  /-- The poll of the loop returns.  `stops` if the run pauses or a circuit breaker ends it. -/
  | pollReturns (stops : Bool)
  | turnEnds
  | resample
  | answer (hasToolCalls : Bool) (fence : Bool)
  | toolCalls (content : List ToolCallInput)
  | batch (event : BatchEvent Result) (fence : Bool)
  | drain (fence : Bool)
  | yield (outcome : YieldOutcome F)

namespace SteeringRun

def new (config : BatchConfig) (mode : SteeringMode) (skipInitialSteeringPoll : Bool)
    (queue : List M) :
    SteeringRun M F Result where
  config := config
  queue := queue
  mode := mode
  forceOneAtATime := []
  phase := .starting
  hasMoreToolCalls := true
  skipInitialSteeringPoll := skipInitialSteeringPoll
  aborted := false
  active := true
  terminalized := false
  context := []
  disownedSteering := []
  admitted := queue
  removed := []

def steer (s : SteeringRun M F Result) (message : M) (forceOneAtATime : Bool) :
    SteeringRun M F Result :=
  if s.active && !s.aborted then
    { s with
      forceOneAtATime := if forceOneAtATime then message :: s.forceOneAtATime else s.forceOneAtATime
      queue := s.queue ++ [message]
      admitted := s.admitted ++ [message] }
  else s

def edit (s : SteeringRun M F Result) (edit : QueueEdit M) : SteeringRun M F Result :=
  { s with queue := (edit.apply s.queue).2, removed := s.removed ++ (edit.apply s.queue).1 }

def abort (s : SteeringRun M F Result) : SteeringRun M F Result :=
  if s.active then { s with aborted := true, phase := s.phase.abort } else s

def finalizeRun (s : SteeringRun M F Result) : SteeringRun M F Result :=
  if s.terminalized then s
  else { s with terminalized := true, disownedSteering := s.queue, queue := [] }

def forceAbort (s : SteeringRun M F Result) : SteeringRun M F Result :=
  if s.active then finalizeRun { s.abort with active := false } else s

def requeueSteeringMessages (s : SteeringRun M F Result) (messages : List M) :
    SteeringRun M F Result :=
  { s with queue := messages ++ s.queue }

def enterTurn (s : SteeringRun M F Result) (pendingMessages : List (M ⊕ F)) :
    SteeringRun M F Result :=
  { s with context := s.context ++ pendingMessages, phase := .turn }

def nextIteration (s : SteeringRun M F Result) : SteeringRun M F Result :=
  if s.hasMoreToolCalls then s.enterTurn [] else { s with phase := .yielding [] }

section

variable [DecidableEq M]

def getSteeringMessages (s : SteeringRun M F Result) (fence : Bool) :
    List M × SteeringRun M F Result :=
  if !s.active then ([], s)
  else if s.skipInitialSteeringPoll then ([], { s with skipInitialSteeringPoll := false })
  else if fence then ([], s)
  else if s.aborted then ([], s)
  else
    let (queued, queue) := dequeueSteeringMessages s.mode s.forceOneAtATime s.queue
    (queued, { s with queue := queue })

def poll (s : SteeringRun M F Result) (initial fence : Bool) : SteeringRun M F Result :=
  let (batch, s) := s.getSteeringMessages fence
  { s with phase := .polling initial batch }

def polled (s : SteeringRun M F Result) (batch : List M) (stops : Bool) : SteeringRun M F Result :=
  if batch ≠ [] then
    if !s.aborted then s.enterTurn (batch.map .inl)
    else { s.requeueSteeringMessages batch with phase := .yielding batch }
  else if s.aborted then { s with phase := .yielding [] }
  else if stops then { s with phase := .ended }
  else s.nextIteration

def executed (s : SteeringRun M F Result) (steeringMessages : List M) (fence : Bool) :
    SteeringRun M F Result :=
  if steeringMessages ≠ [] then
    if !s.aborted then s.enterTurn (steeringMessages.map .inl)
    else { s.requeueSteeringMessages steeringMessages with phase := .yielding [] }
  else s.poll false fence

def outcomeOf (polled : List M) : SteeringOutcome := if polled = [] then .none else .messages

def checkSteering (s : SteeringRun M F Result) (before after : ToolBatch Result)
    (polled steeringMessages : List M) (fence : Bool) : SteeringRun M F Result :=
  if after.steeringCheck && !before.steeringCheck then
    let (polled, s) := s.getSteeringMessages fence
    { s with phase := .tools after polled steeringMessages }
  else { s with phase := .tools after polled steeringMessages }

variable [DecidableEq Result]

/-- A step of `executeToolCalls`.  When it returns, `steeringMessages` is read for the last time. -/
def batchStep (s : SteeringRun M F Result) (batch : ToolBatch Result)
    (polled steeringMessages : List M) (event : BatchEvent Result) (fence : Bool) :
    Option (SteeringRun M F Result) :=
  match event with
  | .abort => none
  | .steeringSettles outcome =>
    if outcome = outcomeOf polled then
      (batch.step event).map fun batch =>
        { s with phase := .tools batch [] (if polled = [] then steeringMessages else polled) }
    else none
  | .finish _ => (batch.step event).map fun _ => { s with phase := .executed steeringMessages }
  | event =>
    (batch.step event).map fun batch' => s.checkSteering batch batch' polled steeringMessages fence

def yield (s : SteeringRun M F Result) (pendingMessages : List M) :
    YieldOutcome F → Option (SteeringRun M F Result)
  | .paused => some { s with phase := .ended }
  | .failed => some { s with phase := .ended }
  | .followUp messages =>
    if s.active && messages ≠ [] then
      some ({ s with hasMoreToolCalls := true }.enterTurn (messages.map .inr))
    else none
  | .syntheticRecovery =>
    if s.active then some ({ s with
      hasMoreToolCalls := true }.enterTurn (pendingMessages.map .inl)) else none
  | .nothing => some { s with phase := .ended }

def step (s : SteeringRun M F Result) : SteeringEvent M F Result → Option (SteeringRun M F Result)
  | .steer message forceOneAtATime => some (s.steer message forceOneAtATime)
  | .edit edit => some (s.edit edit)
  | .setSteeringMode mode => some { s with mode := mode }
  | .abort => some s.abort
  | .forceAbort => some s.forceAbort
  | .finalizeRun => some s.finalizeRun
  | .release =>
    match s.phase with
    | .ended => some { s with active := false }
    | _ => none
  | .start fence =>
    match s.phase with
    | .starting => some (s.poll true fence)
    | _ => none
  | .pollReturns stops =>
    match s.phase with
    | .polling true batch => some (s.enterTurn (batch.map .inl))
    | .polling false batch => some (s.polled batch stops)
    | _ => none
  | .turnEnds =>
    match s.phase with
    | .starting | .turn => some { s with phase := .ended }
    | _ => none
  | .resample =>
    match s.phase with
    | .turn => some s.nextIteration
    | _ => none
  | .answer hasToolCalls fence =>
    match s.phase with
    | .turn => some ({ s with hasMoreToolCalls := hasToolCalls }.poll false fence)
    | _ => none
  | .toolCalls content =>
    match s.phase with
    | .turn =>
      let batch := ToolBatch.start { s.config with signal := true } content
      some { s with hasMoreToolCalls := true, phase := .tools { batch with
        aborted := s.aborted } [] [] }
    | _ => none
  | .batch event fence =>
    match s.phase with
    | .tools batch polled steeringMessages => s.batchStep batch polled steeringMessages event fence
    | _ => none
  | .drain fence =>
    match s.phase with
    | .executed steeringMessages => some (s.executed steeringMessages fence)
    | _ => none
  | .yield outcome =>
    match s.phase with
    | .yielding pendingMessages => s.yield pendingMessages outcome
    | _ => none

end

def appended (s : SteeringRun M F Result) : List M := s.context.filterMap Sum.getLeft?

end SteeringRun

open JevCode.Data

theorem dequeueSteeringMessages_append [DecidableEq M] (mode : SteeringMode)
    (forced queue : List M) :
    (dequeueSteeringMessages mode forced queue).1 ++
    (dequeueSteeringMessages mode forced queue).2 = queue := by
  cases queue with
  | nil => rfl
  | cons first rest =>
    cases mode with
    | oneAtATime => rfl
    | all =>
      simp only [dequeueSteeringMessages]
      split
      · rfl
      · exact List.takeWhile_append_dropWhile

theorem perm_moveQueuedMessage (queue : List M) (fromIndex toIndex : Nat) :
    (moveQueuedMessage queue fromIndex toIndex).Perm queue := by
  unfold moveQueuedMessage
  split
  case isFalse => exact .refl queue
  case isTrue hto =>
    cases hitem : queue[fromIndex]? with
    | none => exact .refl queue
    | some item =>
      obtain ⟨hlt, hget⟩ := List.getElem?_eq_some_iff.mp hitem
      have hlength : toIndex ≤ (queue.eraseIdx fromIndex).length := by
        rw [List.length_eraseIdx_of_lt hlt]
        omega
      refine (List.perm_insertIdx item _ hlength).trans ?_
      rw [← hget]
      exact List.getElem_cons_eraseIdx_perm hlt

theorem QueueEdit.perm_apply (edit : QueueEdit M) (queue : List M) :
    ((edit.apply queue).1 ++ (edit.apply queue).2).Perm queue := by
  cases edit with
  | clearSteeringQueue => exact .of_eq (List.append_nil queue)
  | popLastSteer =>
    cases queue using List.reverseRecOn with
    | nil => exact .refl _
    | append_singleton queue last =>
      have hlast : ([last] ++ queue).Perm (queue ++ [last]) := List.perm_append_comm
      simpa [QueueEdit.apply] using hlast
  | removeSteerAt index =>
    simp only [QueueEdit.apply]
    cases hitem : queue[index]? with
    | none =>
      rw [List.eraseIdx_of_length_le (List.getElem?_eq_none_iff.mp hitem)]
      exact .refl queue
    | some item =>
      obtain ⟨hlt, hget⟩ := List.getElem?_eq_some_iff.mp hitem
      rw [← hget]
      exact List.getElem_cons_eraseIdx_perm hlt
  | moveSteer fromIndex toIndex => exact perm_moveQueuedMessage queue fromIndex toIndex
  | removeQueuedMessages predicate =>
    simpa [QueueEdit.apply] using List.filter_append_perm predicate queue

def LoopPhase.inFlight : LoopPhase M Result → List M
  | .polling _ batch => batch
  | .tools _ polled steeringMessages => polled ++ steeringMessages
  | .executed steeringMessages => steeringMessages
  | _ => []

structure PollsOnce (b : ToolBatch Result) (polled steeringMessages : List M) : Prop where
  awaited : b.Awaited
  polled : polled ≠ [] → b.steeringCheck = true
  steering : steeringMessages ≠ [] → b.interrupted = true

def LoopPhase.Ok : LoopPhase M Result → Prop
  | .tools b polled steeringMessages => PollsOnce b polled steeringMessages
  | _ => True

namespace SteeringRun

theorem appended_enterTurn (s : SteeringRun M F Result) (pending : List (M ⊕ F)) :
    (s.enterTurn pending).appended = s.appended ++ pending.filterMap Sum.getLeft? := by
  simp [appended, enterTurn]

theorem filterMap_inl (batch : List M) :
    (batch.map (Sum.inl : M → M ⊕ F)).filterMap Sum.getLeft? = batch := by
  simp [List.filterMap_map, Function.comp_def]

theorem filterMap_inr (messages : List F) :
    (messages.map (Sum.inr : F → M ⊕ F)).filterMap Sum.getLeft? = [] := by
  simp [List.filterMap_map, Function.comp_def]

def DisownsOnce (s : SteeringRun M F Result) : Prop :=
  s.terminalized = false → s.disownedSteering = []

section

variable [DecidableEq M]

def Accounts (s : SteeringRun M F Result) (held : List M) : Prop :=
  ∀ m, s.appended.count m + s.queue.count m + s.disownedSteering.count m + held.count m +
    s.removed.count m =
    s.admitted.count m

structure Inv (s : SteeringRun M F Result) : Prop where
  accounts : s.Accounts s.phase.inFlight
  disowned : s.DisownsOnce
  phase : s.phase.Ok

variable {s s' : SteeringRun M F Result} {held : List M}

theorem Inv.accounts_of (h : s.Inv) {phase : LoopPhase M Result} (hphase : s.phase = phase) :
    s.Accounts phase.inFlight :=
  hphase ▸ h.accounts

theorem Inv.deliver (h : s.Accounts held) (hdisowned : s.DisownsOnce) :
    (s.enterTurn (held.map .inl)).Inv := by
  refine ⟨fun m => ?_, hdisowned, trivial⟩
  have hm := h m
  rw [appended_enterTurn, filterMap_inl, List.count_append]
  change s.appended.count m + held.count m + s.queue.count m + s.disownedSteering.count m + 0 +
    s.removed.count m =
    s.admitted.count m
  omega

theorem Accounts.requeue (h : s.Accounts held) : (s.requeueSteeringMessages held).Accounts [] := by
  intro m
  have hm := h m
  change s.appended.count m + (held ++ s.queue).count m + s.disownedSteering.count m + 0 +
    s.removed.count m =
    s.admitted.count m
  rw [List.count_append]
  omega

theorem getSteeringMessages_spec (s : SteeringRun M F Result) (fence : Bool) :
    ∃ queue skip, (s.getSteeringMessages fence).2 = { s with
      queue := queue, skipInitialSteeringPoll := skip } ∧
      (s.getSteeringMessages fence).1 ++ queue = s.queue := by
  unfold getSteeringMessages
  split
  · exact ⟨s.queue, s.skipInitialSteeringPoll, rfl, rfl⟩
  split
  · exact ⟨s.queue, false, rfl, rfl⟩
  split
  · exact ⟨s.queue, s.skipInitialSteeringPoll, rfl, rfl⟩
  split
  · exact ⟨s.queue, s.skipInitialSteeringPoll, rfl, rfl⟩
  · exact ⟨_, s.skipInitialSteeringPoll, rfl,
      dequeueSteeringMessages_append s.mode s.forceOneAtATime s.queue⟩

theorem Accounts.getSteeringMessages (h : s.Accounts held) (fence : Bool) :
    (s.getSteeringMessages fence).2.Accounts ((s.getSteeringMessages fence).1 ++ held) := by
  obtain ⟨queue, skip, hs, happend⟩ := getSteeringMessages_spec s fence
  intro m
  have hm := h m
  have hcount := congrArg (List.count m) happend
  rw [List.count_append] at hcount ⊢
  rw [hs]
  change s.appended.count m + queue.count m + s.disownedSteering.count m + _ + s.removed.count m =
    s.admitted.count m
  omega

theorem DisownsOnce.getSteeringMessages (h : s.DisownsOnce) (fence : Bool) :
    (s.getSteeringMessages fence).2.DisownsOnce := by
  obtain ⟨queue, skip, hs, -⟩ := getSteeringMessages_spec s fence
  rw [hs]
  exact h

theorem Inv.poll (h : s.Accounts []) (hdisowned : s.DisownsOnce)
    (initial fence : Bool) : (s.poll initial fence).Inv := by
  have haccounts := h.getSteeringMessages fence
  rw [List.append_nil] at haccounts
  exact ⟨haccounts, hdisowned.getSteeringMessages fence, trivial⟩

theorem Inv.nextIteration (h : s.Accounts []) (hdisowned : s.DisownsOnce) :
    s.nextIteration.Inv := by
  unfold SteeringRun.nextIteration
  split
  · exact Inv.deliver h hdisowned
  · exact ⟨h, hdisowned, trivial⟩

theorem Inv.polled (h : s.Accounts held) (hdisowned : s.DisownsOnce)
    (stops : Bool) : (s.polled held stops).Inv := by
  unfold SteeringRun.polled
  split
  · split
    · exact Inv.deliver h hdisowned
    · exact ⟨h.requeue, hdisowned, trivial⟩
  case isFalse hempty =>
    rw [not_not] at hempty
    subst hempty
    split
    · exact ⟨h, hdisowned, trivial⟩
    split
    · exact ⟨h, hdisowned, trivial⟩
    · exact Inv.nextIteration h hdisowned

theorem Inv.executed (h : s.Accounts held) (hdisowned : s.DisownsOnce)
    (fence : Bool) : (s.executed held fence).Inv := by
  unfold SteeringRun.executed
  split
  · split
    · exact Inv.deliver h hdisowned
    · exact ⟨h.requeue, hdisowned, trivial⟩
  case isFalse hempty =>
    rw [not_not] at hempty
    subst hempty
    exact Inv.poll h hdisowned false fence

theorem Inv.steer (h : s.Inv) (message : M) (forceOneAtATime : Bool) :
    (s.steer message forceOneAtATime).Inv := by
  unfold SteeringRun.steer
  split
  · refine ⟨fun m => ?_, h.disowned, h.phase⟩
    have hm := h.accounts m
    change s.appended.count m + (s.queue ++ [message]).count m + s.disownedSteering.count m +
      s.phase.inFlight.count m + s.removed.count m = (s.admitted ++ [message]).count m
    rw [List.count_append, List.count_append]
    omega
  · exact h

theorem Inv.edit (h : s.Inv) (edit : QueueEdit M) : (s.edit edit).Inv := by
  refine ⟨fun m => ?_, h.disowned, h.phase⟩
  have hm := h.accounts m
  have hperm := (edit.perm_apply s.queue).count_eq m
  change s.appended.count m + (edit.apply s.queue).2.count m + s.disownedSteering.count m +
    s.phase.inFlight.count m + (s.removed ++ (edit.apply s.queue).1).count m = s.admitted.count m
  rw [List.count_append] at hperm ⊢
  omega

omit [DecidableEq M] in
theorem inFlight_abort (phase : LoopPhase M Result) : phase.abort.inFlight = phase.inFlight := by
  cases phase <;> rfl

omit [DecidableEq M] in
theorem ok_abort {phase : LoopPhase M Result} (h : phase.Ok) : phase.abort.Ok := by
  cases phase with
  | tools b polled steeringMessages => exact ⟨h.awaited, h.polled, h.steering⟩
  | _ => trivial

theorem Inv.abort (h : s.Inv) : s.abort.Inv := by
  unfold SteeringRun.abort
  split
  · refine ⟨?_, h.disowned, ok_abort h.phase⟩
    rw [inFlight_abort]
    exact h.accounts
  · exact h

theorem Inv.finalizeRun (h : s.Inv) : s.finalizeRun.Inv := by
  unfold SteeringRun.finalizeRun
  split
  · exact h
  case isFalse hterminalized =>
    refine ⟨fun m => ?_, fun hfalse => Bool.noConfusion hfalse, h.phase⟩
    have hm := h.accounts m
    rw [h.disowned (Bool.eq_false_iff.mpr hterminalized)] at hm
    change s.appended.count m + 0 + s.queue.count m + s.phase.inFlight.count m + s.removed.count m =
      s.admitted.count m
    rw [List.count_nil] at hm
    omega

theorem Inv.forceAbort (h : s.Inv) : s.forceAbort.Inv := by
  unfold SteeringRun.forceAbort
  split
  · exact Inv.finalizeRun ⟨h.abort.accounts, h.abort.disowned, h.abort.phase⟩
  · exact h

def polledByTools (s : SteeringRun M F Result) : List M :=
  match s.phase with
  | .tools _ polled _ => polled
  | _ => []

def pendingMessages (s : SteeringRun M F Result) : List M :=
  match s.phase with
  | .yielding pendingMessages => pendingMessages
  | _ => []

/-- The tools are not left by an abort while their poll has messages, and no recovery starts a turn
with messages that were handed back. -/
def keepsMessages (s : SteeringRun M F Result) : SteeringEvent M F Result → Bool
  | .batch (.finish true) _ => s.polledByTools.isEmpty
  | .yield .syntheticRecovery => s.pendingMessages.isEmpty
  | _ => true

variable [DecidableEq Result]

section

variable {b b' : ToolBatch Result} {polled steeringMessages : List M} (h : s.Inv)
  (hphase : s.phase = .tools b polled steeringMessages)

include h hphase

theorem Inv.checkSteering {event : BatchEvent Result} (hstep : b.step event = some b')
    (hsettles : ∀ outcome, event ≠ .steeringSettles outcome)
    (hfinish : ∀ byAbort, event ≠ .finish byAbort) (fence : Bool) :
    (s.checkSteering b b' polled steeringMessages fence).Inv := by
  have hb := h.phase
  have haccounts := h.accounts
  rw [hphase] at hb haccounts
  have hframe := ToolBatch.steeringFrame_of_step hstep hsettles hfinish
  have hsteering : steeringMessages ≠ [] → b'.interrupted = true :=
    fun hne => hframe.interrupted.trans (hb.steering hne)
  unfold SteeringRun.checkSteering
  split
  case isTrue hpolls =>
    simp only [Bool.and_eq_true, Bool.not_eq_true'] at hpolls
    have hpolled : polled = [] := by
      by_contra hne
      exact Bool.noConfusion (hpolls.2.symm.trans (hb.polled hne))
    subst hpolled
    exact ⟨haccounts.getSteeringMessages fence, h.disowned.getSteeringMessages fence,
      hframe.awaited hb.awaited, fun _ => hpolls.1, hsteering⟩
  case isFalse =>
    exact ⟨haccounts, h.disowned, hframe.awaited hb.awaited,
      fun hne => hframe.check (hb.polled hne), hsteering⟩

theorem Inv.steeringSettles (hstep : b.step (.steeringSettles (outcomeOf polled)) = some b') :
    ({ s with phase := .tools b' [] (if polled = [] then steeringMessages else polled) } :
      SteeringRun M F Result).Inv := by
  have hb := h.phase
  have haccounts := h.accounts
  rw [hphase] at hb haccounts
  obtain ⟨hcheck, hcheck', hinterrupted⟩ := ToolBatch.step_steeringSettles hstep
  have hawaited : b'.Awaited := fun htrue => Bool.noConfusion (hcheck'.symm.trans htrue)
  have hnone : steeringMessages = [] := by
    by_contra hne
    exact Bool.noConfusion ((hb.awaited hcheck).1.symm.trans (hb.steering hne))
  subst hnone
  split
  case isTrue hempty =>
    subst hempty
    exact ⟨haccounts, h.disowned, hawaited, fun hne => absurd rfl hne, fun hne => absurd rfl hne⟩
  case isFalse hne =>
    refine ⟨?_, h.disowned, hawaited, fun hne => absurd rfl hne, fun _ => ?_⟩
    · rw [LoopPhase.inFlight, List.append_nil] at haccounts
      exact haccounts
    · simp [hinterrupted, outcomeOf, hne]

theorem Inv.finish {byAbort : Bool} {fence : Bool}
    (hkeeps : s.keepsMessages (.batch (.finish byAbort) fence) = true)
    (hstep : b.step (.finish byAbort) = some b') :
    ({ s with phase := .executed steeringMessages } : SteeringRun M F Result).Inv := by
  have hb := h.phase
  have haccounts := h.accounts
  have hpolled : polled = [] := by
    cases byAbort with
    | true => simpa [keepsMessages, polledByTools, hphase] using hkeeps
    | false =>
      rw [hphase] at hb
      by_contra hne
      exact Bool.noConfusion ((ToolBatch.step_finish hb.awaited hstep).symm.trans (hb.polled hne))
  rw [hphase, hpolled] at haccounts
  exact ⟨haccounts, h.disowned, trivial⟩

theorem Inv.batchStep {event : BatchEvent Result} {fence : Bool}
    (hkeeps : s.keepsMessages (.batch event fence) = true)
    (hstep : s.batchStep b polled steeringMessages event fence = some s') : s'.Inv := by
  cases event with
  | abort => cases hstep
  | steeringSettles outcome =>
    obtain ⟨rfl, hstep⟩ := Option.ite_none_right_eq_some.mp hstep
    obtain ⟨b', hb', rfl⟩ := Option.map_eq_some_iff.mp hstep
    exact h.steeringSettles hphase hb'
  | finish byAbort =>
    obtain ⟨b', hb', rfl⟩ := Option.map_eq_some_iff.mp hstep
    exact h.finish hphase hkeeps hb'
  | run i how =>
    obtain ⟨b', hb', rfl⟩ := Option.map_eq_some_iff.mp hstep
    exact h.checkSteering hphase hb' (by simp) (by simp) fence
  | startRejects i =>
    obtain ⟨b', hb', rfl⟩ := Option.map_eq_some_iff.mp hstep
    exact h.checkSteering hphase hb' (by simp) (by simp) fence
  | beforeReturns i outcome =>
    obtain ⟨b', hb', rfl⟩ := Option.map_eq_some_iff.mp hstep
    exact h.checkSteering hphase hb' (by simp) (by simp) fence
  | executeSettles i result isError =>
    obtain ⟨b', hb', rfl⟩ := Option.map_eq_some_iff.mp hstep
    exact h.checkSteering hphase hb' (by simp) (by simp) fence
  | afterReturns i changed =>
    obtain ⟨b', hb', rfl⟩ := Option.map_eq_some_iff.mp hstep
    exact h.checkSteering hphase hb' (by simp) (by simp) fence
  | finalize i =>
    obtain ⟨b', hb', rfl⟩ := Option.map_eq_some_iff.mp hstep
    exact h.checkSteering hphase hb' (by simp) (by simp) fence

end

omit [DecidableEq Result] in
theorem Inv.yield {pending : List M} (h : s.Inv) (hphase : s.phase = .yielding pending)
    {outcome : YieldOutcome F} (hkeeps : s.keepsMessages (.yield outcome) = true)
    (hstep : s.yield pending outcome = some s') : s'.Inv := by
  have haccounts : s.Accounts [] := h.accounts_of hphase
  cases outcome with
  | paused =>
    cases hstep
    exact ⟨haccounts, h.disowned, trivial⟩
  | failed =>
    cases hstep
    exact ⟨haccounts, h.disowned, trivial⟩
  | nothing =>
    cases hstep
    exact ⟨haccounts, h.disowned, trivial⟩
  | followUp messages =>
    obtain ⟨-, hstep⟩ := Option.ite_none_right_eq_some.mp hstep
    cases hstep
    refine ⟨fun m => ?_, h.disowned, trivial⟩
    rw [appended_enterTurn, filterMap_inr, List.append_nil]
    exact haccounts m
  | syntheticRecovery =>
    obtain ⟨-, hstep⟩ := Option.ite_none_right_eq_some.mp hstep
    cases hstep
    obtain rfl : pending = [] := by simpa [keepsMessages, pendingMessages, hphase] using hkeeps
    exact Inv.deliver (s := { s with hasMoreToolCalls := true }) haccounts h.disowned

attribute [local simp] SteeringRun.step

theorem Inv.release (h : s.Inv) (hstep : s.step .release = some s') : s'.Inv := by
  simp only [SteeringRun.step] at hstep
  split at hstep
  next =>
    cases hstep
    exact ⟨h.accounts, h.disowned, h.phase⟩
  next => cases hstep

theorem Inv.start (h : s.Inv) {fence : Bool} (hstep : s.step (.start fence) = some s') : s'.Inv := by
  simp only [SteeringRun.step] at hstep
  split at hstep
  next hphase =>
    cases hstep
    exact Inv.poll (h.accounts_of hphase) h.disowned true fence
  next => cases hstep

theorem Inv.pollReturns (h : s.Inv) {stops : Bool}
    (hstep : s.step (.pollReturns stops) = some s') : s'.Inv := by
  simp only [SteeringRun.step] at hstep
  split at hstep
  next batch hphase =>
    cases hstep
    exact Inv.deliver (h.accounts_of hphase) h.disowned
  next batch hphase =>
    cases hstep
    exact Inv.polled (h.accounts_of hphase) h.disowned stops
  next => cases hstep

theorem Inv.turnEnds (h : s.Inv) (hstep : s.step .turnEnds = some s') : s'.Inv := by
  simp only [SteeringRun.step] at hstep
  split at hstep
  next hphase =>
    cases hstep
    have haccounts := h.accounts_of hphase
    exact ⟨haccounts, h.disowned, trivial⟩
  next hphase =>
    cases hstep
    have haccounts := h.accounts_of hphase
    exact ⟨haccounts, h.disowned, trivial⟩
  next => cases hstep

theorem Inv.resample (h : s.Inv) (hstep : s.step .resample = some s') : s'.Inv := by
  simp only [SteeringRun.step] at hstep
  split at hstep
  next hphase =>
    cases hstep
    exact Inv.nextIteration (h.accounts_of hphase) h.disowned
  next => cases hstep

theorem Inv.answer (h : s.Inv) {hasToolCalls fence : Bool}
    (hstep : s.step (.answer hasToolCalls fence) = some s') : s'.Inv := by
  simp only [SteeringRun.step] at hstep
  split at hstep
  next hphase =>
    cases hstep
    exact Inv.poll (s :=
      { s with hasMoreToolCalls := hasToolCalls }) (h.accounts_of hphase) h.disowned false fence
  next => cases hstep

theorem Inv.toolCalls (h : s.Inv) {content : List ToolCallInput}
    (hstep : s.step (.toolCalls content) = some s') : s'.Inv := by
  simp only [SteeringRun.step] at hstep
  split at hstep
  next hphase =>
    cases hstep
    have haccounts := h.accounts_of hphase
    exact ⟨haccounts, h.disowned, fun hcheck => Bool.noConfusion hcheck, fun hne => absurd rfl hne,
      fun hne => absurd rfl hne⟩
  next => cases hstep

theorem Inv.drain (h : s.Inv) {fence : Bool} (hstep : s.step (.drain fence) = some s') : s'.Inv := by
  simp only [SteeringRun.step] at hstep
  split at hstep
  next steeringMessages hphase =>
    cases hstep
    exact Inv.executed (h.accounts_of hphase) h.disowned fence
  next => cases hstep

theorem Inv.step (h : s.Inv) {event : SteeringEvent M F Result}
    (hkeeps : s.keepsMessages event = true) (hstep : s.step event = some s') : s'.Inv := by
  cases event with
  | steer message forceOneAtATime =>
    cases hstep
    exact h.steer message forceOneAtATime
  | edit edit =>
    cases hstep
    exact h.edit edit
  | setSteeringMode mode =>
    cases hstep
    exact ⟨h.accounts, h.disowned, h.phase⟩
  | abort =>
    cases hstep
    exact h.abort
  | forceAbort =>
    cases hstep
    exact h.forceAbort
  | finalizeRun =>
    cases hstep
    exact h.finalizeRun
  | release => exact h.release hstep
  | start fence => exact h.start hstep
  | pollReturns stops => exact h.pollReturns hstep
  | turnEnds => exact h.turnEnds hstep
  | resample => exact h.resample hstep
  | answer hasToolCalls fence => exact h.answer hstep
  | toolCalls content => exact h.toolCalls hstep
  | batch event fence =>
    simp only [SteeringRun.step] at hstep
    split at hstep
    next b polled steeringMessages hphase => exact h.batchStep hphase hkeeps hstep
    next => cases hstep
  | drain fence => exact h.drain hstep
  | yield outcome =>
    simp only [SteeringRun.step] at hstep
    split at hstep
    next pending hphase => exact h.yield hphase hkeeps hstep
    next => cases hstep

omit [DecidableEq Result] in
theorem inv_new (config : BatchConfig) (mode : SteeringMode) (skip : Bool) (queue : List M) :
    (new config mode skip queue : SteeringRun M F Result).Inv := by
  refine ⟨fun m => ?_, fun _ => rfl, trivial⟩
  simp [new, appended, LoopPhase.inFlight]

/-- Every admission of a message that was not removed is accounted for once at the end of a run: the
message was appended to the context, is in the queue, or was disowned by the terminal event. -/
theorem steering_messages_are_accounted_for (config : BatchConfig) (mode : SteeringMode)
    (skip : Bool) (queue : List M) (events : List (SteeringEvent M F Result))
    {s : SteeringRun M F Result}
    (hkeeps : RunMeets step (fun s event => s.keepsMessages event = true)
    (new config mode skip queue) events) (hrun :
    runEvents step (new config mode skip queue) events = some s)
    (hended : s.phase = .ended) (m : M) :
    s.appended.count m + s.queue.count m + s.disownedSteering.count m + s.removed.count m =
      s.admitted.count m := by
  have hinv : s.Inv :=
    hkeeps.invariant (fun s event s' h hkeeps hstep => h.step hkeeps hstep) hrun
      (inv_new config mode skip queue)
  have hm := hinv.accounts m
  rw [hended] at hm
  exact hm

def steeredConfig : BatchConfig := ⟨true, false, false, true⟩

def steeredTool : List (SteeringEvent Nat Unit Unit) :=
  [.start false, .pollReturns false, .toolCalls [⟨false, false, false, false⟩],
    .batch (.run 0 (.checked .published)) false, .steer 7 false,
    .batch (.executeSettles 0 () false) false]

def handedBack : List (SteeringEvent Nat Unit Unit) :=
  steeredTool ++ [.batch (.steeringSettles .messages) false, .abort,
    .batch (.finish true) false, .drain false, .yield .nothing, .finalizeRun]

def abandoned : List (SteeringEvent Nat Unit Unit) :=
  steeredTool ++ [.abort, .batch (.finish true) false, .drain false, .pollReturns false,
    .yield .nothing, .finalizeRun]

theorem handed_back_message_is_disowned :
    ∃ s : SteeringRun Nat Unit Unit, runEvents step (new steeredConfig .all false [])
      handedBack = some s ∧
      s.admitted = [7] ∧ s.disownedSteering = [7] ∧
      s.appended.count 7 + s.queue.count 7 + s.disownedSteering.count 7 + s.removed.count 7 =
        s.admitted.count 7 :=
  ⟨_, rfl, rfl, rfl,
    steering_messages_are_accounted_for steeredConfig .all false [] handedBack (by decide) rfl rfl 7⟩

def recovered : List (SteeringEvent Nat Unit Unit) :=
  [.start false, .pollReturns false, .steer 7 false, .answer false false, .abort, .pollReturns false,
    .yield .syntheticRecovery, .turnEnds, .finalizeRun]

theorem messages_are_lost_and_doubled :
    (∃ s : SteeringRun Nat Unit Unit,
      runEvents step (new steeredConfig .all false []) abandoned = some s ∧
      s.phase = .ended ∧ s.terminalized = true ∧ s.admitted = [7] ∧ s.removed = [] ∧
      s.appended = [] ∧ s.queue = [] ∧ s.disownedSteering = []) ∧
    ∃ s : SteeringRun Nat Unit Unit, runEvents step (new steeredConfig .all false [])
      recovered = some s ∧
      s.phase = .ended ∧ s.terminalized = true ∧ s.admitted = [7] ∧ s.removed = [] ∧
      s.appended = [7] ∧ s.queue = [] ∧ s.disownedSteering = [7] :=
  ⟨⟨_, rfl, rfl, rfl, rfl, rfl, rfl, rfl, rfl⟩, ⟨_, rfl, rfl, rfl, rfl, rfl, rfl, rfl, rfl⟩⟩

end

end SteeringRun

end JevCode.Agent
