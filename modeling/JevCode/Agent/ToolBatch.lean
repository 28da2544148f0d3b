import JevCode.Data.Runs
import Mathlib.Data.List.Basic

/-! `agent-loop.ts`: `executeToolCalls`. The tasks of a batch run between their awaits in any order;
what a hook, a tool or the steering check answers is part of the event. -/

namespace JevCode.Agent

structure BatchConfig where
  signal : Bool
  beforeToolCall : Bool
  afterToolCall : Bool
  /-- `getSteeringMessages` under a policy that interrupts the tools. -/
  steering : Bool

structure ToolCallInput where
  providerResolved : Bool
  exclusive : Bool
  invalidEscaped : Bool
  refused : Bool

inductive ToolOutcome (Result : Type)
  | skipped
  | aborted
  | returned (result : Result) (isError : Bool)
  deriving DecidableEq

inductive CallEvent (Result : Type)
  | toolExecutionStart (dispatched : Bool)
  | execute
  | toolExecutionEnd (dispatched : Bool) (outcome : ToolOutcome Result)
  | toolResult (outcome : ToolOutcome Result)
  deriving DecidableEq

inductive TaskPhase (Result : Type)
  | noTask
  | waiting
  | beforeToolCall
  | executing
  | afterToolCall (result : Result) (isError : Bool)
  | checkSteering
  | finalizing (ok : Bool)
  | settled (ok : Bool)
  | startRejected
  | neverRan
  deriving DecidableEq

structure ToolRecord (Result : Type) where
  exclusive : Bool
  start : List Nat
  phase : TaskPhase Result
  started : Bool
  skipped : Bool
  resultEmitted : Bool
  log : List (CallEvent Result)
  deriving DecidableEq

structure ToolBatch (Result : Type) where
  config : BatchConfig
  records : List (ToolRecord Result)
  interrupted : Bool
  steeringCheck : Bool
  aborted : Bool
  returned : Bool

variable {Result : Type}

namespace TaskPhase

/-- `runTool` has been entered and the task has not settled. -/
def Running : TaskPhase Result → Prop
  | .beforeToolCall | .executing | .afterToolCall .. | .checkSteering | .finalizing _ => True
  | _ => False

def Begun : TaskPhase Result → Prop
  | .settled _ => True
  | phase => phase.Running

def Fulfilled (phase : TaskPhase Result) : Prop := phase = .settled true

def Rejected (phase : TaskPhase Result) : Prop := phase = .settled false ∨ phase = .neverRan

def Settled (phase : TaskPhase Result) : Prop := phase.Fulfilled ∨ phase.Rejected ∨ phase = .noTask

variable [DecidableEq Result]

instance (phase : TaskPhase Result) : Decidable phase.Fulfilled :=
  inferInstanceAs (Decidable (_ = _))
instance (phase : TaskPhase Result) : Decidable phase.Rejected := inferInstanceAs (Decidable (_ ∨ _))
instance (phase : TaskPhase Result) : Decidable phase.Settled := inferInstanceAs (Decidable (_ ∨ _))

end TaskPhase

namespace ToolRecord

def emitToolResult (r : ToolRecord Result) (outcome : ToolOutcome Result) : ToolRecord Result :=
  if r.resultEmitted then r
  else
    { r with
      resultEmitted := true
      log := r.log ++ (if r.started then [] else [.toolExecutionStart false]) ++
        [.toolExecutionEnd r.started outcome, .toolResult outcome] }

def skip (r : ToolRecord Result) (outcome : ToolOutcome Result) : ToolRecord Result :=
  { r with skipped := true }.emitToolResult outcome

def close (r : ToolRecord Result) (outcome : ToolOutcome Result) : ToolRecord Result :=
  if r.resultEmitted then r else r.skip outcome

end ToolRecord

def schedule (lastExclusive : Option Nat) (sharedTasks : List Nat) (index : Nat) :
    List ToolCallInput → List (Option (List Nat))
  | [] => []
  | call :: calls =>
    if call.refused then none :: schedule lastExclusive sharedTasks (index + 1) calls
    else if call.exclusive then
      some (lastExclusive.toList ++ sharedTasks) :: schedule (some index) [] (index + 1) calls
    else some lastExclusive.toList :: schedule lastExclusive (sharedTasks ++ [index])
      (index + 1) calls

namespace ToolBatch

def initRecord (hasInvalidEscapedCall : Bool) (call : ToolCallInput) (start : Option (List Nat)) :
    ToolRecord Result :=
  let r : ToolRecord Result :=
    { exclusive := call.exclusive, start := [], phase := .noTask, started := false, skipped := false,
      resultEmitted := false, log := [] }
  let r := if hasInvalidEscapedCall && !call.invalidEscaped then r.skip .skipped else r
  match start with
  | none => r.skip .skipped
  | some start => { r with start := start, phase := .waiting }

/-- The state in which the scheduler loop leaves the batch. -/
def start (config : BatchConfig) (content : List ToolCallInput) : ToolBatch Result :=
  let toolCalls := content.filter fun call => !call.providerResolved
  { config := config
    records :=
    List.zipWith (initRecord (toolCalls.any (·.invalidEscaped))) toolCalls
      (schedule none [] 0 toolCalls)
    interrupted := false
    steeringCheck := false
    aborted := false
    returned := false }

def put (b : ToolBatch Result) (i : Nat) (r : ToolRecord Result) : ToolBatch Result :=
  { b with records := b.records.set i r }

def emitAndSteer (b : ToolBatch Result) (i : Nat) (r : ToolRecord Result) (result : Result)
    (isError : Bool) :
    ToolBatch Result :=
  let r := if b.interrupted then r.skip .skipped else r.emitToolResult (.returned result isError)
  if !b.config.steering || b.interrupted || b.aborted then b.put i { r with
    phase := .finalizing true }
  else { b.put i { r with phase := .checkSteering } with steeringCheck := true }

def afterExecution (b : ToolBatch Result) (i : Nat) (r : ToolRecord Result) (result : Result)
    (isError : Bool) :
    ToolBatch Result :=
  if b.config.afterToolCall then b.put i { r with phase := .afterToolCall result isError }
  else b.emitAndSteer i r result isError

inductive Dispatch (Result : Type)
  | failed (error : Result)
  | published

def dispatch (b : ToolBatch Result) (i : Nat) (r : ToolRecord Result) :
    Dispatch Result → ToolBatch Result
  | .failed error => b.afterExecution i r error true
  | .published =>
    b.put i
      { r with
        started := true, log := r.log ++ [.toolExecutionStart true, .execute], phase := .executing }

inductive Begin (Result : Type)
  | crash
  | rejected (error : Result)
  | checked (dispatch : Dispatch Result)

inductive BeforeOutcome (Result : Type)
  | stopped (error : Result)
  | proceed (dispatch : Dispatch Result)

inductive SteeringOutcome
  | none
  | messages
  | thrown
  deriving DecidableEq

def runTool (b : ToolBatch Result) (i : Nat) (r : ToolRecord Result) (how : Begin Result) :
    ToolBatch Result :=
  if r.skipped || b.interrupted then b.put i { r with skipped := true, phase := .finalizing true }
  else
    match how with
    | .crash => b.put i { r with phase := .finalizing false }
    | .rejected error => b.afterExecution i r error true
    | .checked d =>
      if b.config.beforeToolCall then b.put i { r with
        phase := .beforeToolCall } else b.dispatch i r d

def sweep (b : ToolBatch Result) (byAbort : Bool) : ToolBatch Result :=
  let records := if byAbort then b.records.map (·.close .aborted) else b.records
  { b with records := records.map (·.close .skipped), returned := true }

end ToolBatch

open ToolBatch in
inductive BatchEvent (Result : Type)
  | run (i : Nat) (how : Begin Result)
  | startRejects (i : Nat)
  | beforeReturns (i : Nat) (outcome : BeforeOutcome Result)
  | executeSettles (i : Nat) (result : Result) (isError : Bool)
  /-- `changed` is the result that the hook, or its error, puts in the place of the tool's. -/
  | afterReturns (i : Nat) (changed : Option (Result × Bool))
  | steeringSettles (outcome : SteeringOutcome)
  | finalize (i : Nat)
  | abort
  | finish (byAbort : Bool)

namespace ToolBatch

variable [DecidableEq Result]

def StartFulfilled (b : ToolBatch Result) (start : List Nat) : Prop :=
  ∀ j ∈ start, ∃ r ∈ b.records[j]?, r.phase.Fulfilled

def StartRejected (b : ToolBatch Result) (start : List Nat) : Prop :=
  ∃ j ∈ start, ∃ r ∈ b.records[j]?, r.phase.Rejected

instance (b : ToolBatch Result) (start : List Nat) : Decidable (b.StartFulfilled start) :=
  inferInstanceAs (Decidable (∀ _ ∈ _, _))

instance (b : ToolBatch Result) (start : List Nat) : Decidable (b.StartRejected start) :=
  inferInstanceAs (Decidable (∃ _ ∈ _, _))

def step (b : ToolBatch Result) : BatchEvent Result → Option (ToolBatch Result)
  | .run i how => do
    let r ← b.records[i]?
    if r.phase = .waiting ∧ b.StartFulfilled r.start then some (b.runTool i r how) else none
  | .startRejects i => do
    let r ← b.records[i]?
    if r.phase = .waiting ∧ b.StartRejected r.start then some (b.put i { r with
      phase := .startRejected })
    else none
  | .beforeReturns i outcome => do
    let r ← b.records[i]?
    if r.phase = .beforeToolCall then
      match outcome with
      | .stopped error => some (b.afterExecution i r error true)
      | .proceed d => some (b.dispatch i r d)
    else none
  | .executeSettles i result isError => do
    let r ← b.records[i]?
    if r.phase = .executing then some (b.afterExecution i r result isError) else none
  | .afterReturns i changed => do
    let r ← b.records[i]?
    match r.phase with
    | .afterToolCall result isError =>
      let final := changed.getD (result, isError)
      some (b.emitAndSteer i r final.1 final.2)
    | _ => none
  | .steeringSettles outcome =>
    if b.steeringCheck then
      some
        { b with
          interrupted := b.interrupted || outcome = .messages
          steeringCheck := false
          records := b.records.map fun r =>
            if r.phase = .checkSteering then { r with
              phase := .finalizing (outcome ≠ .thrown) } else r }
    else none
  | .finalize i => do
    let r ← b.records[i]?
    match r.phase with
    | .finalizing ok => some (b.put i { r.close .skipped with phase := .settled ok })
    | .startRejected => some (b.put i { r.close .skipped with phase := .neverRan })
    | _ => none
  | .abort => if b.config.signal then some { b with aborted := true } else none
  | .finish byAbort =>
    if !b.returned && (if byAbort then b.config.signal && b.aborted
      else b.records.all (·.phase.Settled)) then
      some (b.sweep byAbort)
    else none

end ToolBatch

open JevCode.Data

namespace ToolRecord

@[simp] theorem emitToolResult_resultEmitted (r : ToolRecord Result) (outcome : ToolOutcome Result) :
    (r.emitToolResult outcome).resultEmitted = true := by
  unfold emitToolResult
  split
  next h => exact h
  next => rfl

structure Frame (r r' : ToolRecord Result) : Prop where
  exclusive : r'.exclusive = r.exclusive
  start : r'.start = r.start
  phase : r'.phase = r.phase
  started : r'.started = r.started

theorem emitToolResult_frame (r : ToolRecord Result) (outcome : ToolOutcome Result) :
    r.Frame (r.emitToolResult outcome) := by
  unfold emitToolResult
  split <;> exact ⟨rfl, rfl, rfl, rfl⟩

theorem emitToolResult_phase (r : ToolRecord Result) (outcome : ToolOutcome Result)
    (phase : TaskPhase Result) :
    { r.emitToolResult outcome with phase := phase } =
    { r with phase := phase }.emitToolResult outcome := by
  unfold emitToolResult
  split <;> rfl

theorem skip_frame (r : ToolRecord Result) (outcome : ToolOutcome Result) :
    r.Frame (r.skip outcome) := by
  have h := emitToolResult_frame { r with skipped := true } outcome
  exact ⟨h.exclusive, h.start, h.phase, h.started⟩

theorem close_frame (r : ToolRecord Result) (outcome : ToolOutcome Result) :
    r.Frame (r.close outcome) := by
  unfold close
  split
  · exact ⟨rfl, rfl, rfl, rfl⟩
  · exact skip_frame r outcome

theorem close_resultEmitted (r : ToolRecord Result) (outcome : ToolOutcome Result) :
    (r.close outcome).resultEmitted = true := by
  unfold close
  split
  next h => exact h
  next => exact emitToolResult_resultEmitted _ _

theorem close_close (r : ToolRecord Result) (outcome outcome' : ToolOutcome Result) :
    (r.close outcome).close outcome' = r.close outcome := by
  conv_lhs => rw [close, if_pos (close_resultEmitted r outcome)]

end ToolRecord

namespace ToolBatch

def Enters (b : ToolBatch Result) (r : ToolRecord Result) : Prop :=
  r.phase = .waiting ∧ b.StartFulfilled r.start ∧ r.skipped = false ∨ r.phase = .beforeToolCall

inductive RecordStep (b : ToolBatch Result) (event : BatchEvent Result) (i : Nat) :
    ToolRecord Result → ToolRecord Result → Prop
  | same (r) : RecordStep b event i r r
  | skips (r) (hwaiting : r.phase = .waiting) (hstart : b.StartFulfilled r.start) :
      RecordStep b event i r { r with skipped := true, phase := .finalizing true }
  | crashes (r) (hwaiting : r.phase = .waiting) (hstart : b.StartFulfilled r.start) :
      RecordStep b event i r { r with phase := .finalizing false }
  | asks (r) (hwaiting : r.phase = .waiting) (hstart : b.StartFulfilled r.start) :
      RecordStep b event i r { r with phase := .beforeToolCall }
  | dispatches (r) (henters : b.Enters r)
      (hevent : r.phase = .beforeToolCall → event = .beforeReturns i (.proceed .published)) :
      RecordStep b event i r
        { r with
        started := true, log := r.log ++ [.toolExecutionStart true, .execute], phase := .executing }
  | executed (r) (result isError) (hphase : b.Enters r ∨ r.phase = .executing) :
      RecordStep b event i r { r with phase := .afterToolCall result isError }
  | emits (r) (outcome) (skips : Bool) (phase)
      (hphase : b.Enters r ∨ r.phase = .executing ∨ ∃ result isError,
      r.phase = .afterToolCall result isError)
      (hphase' : phase = .checkSteering ∨ phase = .finalizing true) :
      RecordStep b event i r
        { (if skips then r.skip outcome else r.emitToolResult outcome) with phase := phase }
  | steered (r) (ok) (hphase : r.phase = .checkSteering) : RecordStep b event i r { r with
    phase := .finalizing ok }
  | finalizes (r) (ok) (hphase : r.phase = .finalizing ok) :
      RecordStep b event i r { r.close .skipped with phase := .settled ok }
  | startRejects (r) (hphase : r.phase = .waiting) : RecordStep b event i r { r with
    phase := .startRejected }
  | gives_up (r) (hphase : r.phase = .startRejected) :
      RecordStep b event i r { r.close .skipped with phase := .neverRan }
  | closes (r) (outcome) : RecordStep b event i r (r.close outcome)

structure Steps (b : ToolBatch Result) (event : BatchEvent Result)
    (b' : ToolBatch Result) : Prop where
  length : b'.records.length = b.records.length
  record : ∀ i r, b.records[i]? = some r → ∃ r', b'.records[i]? = some r' ∧ RecordStep b event i r r'
  returned : b'.returned = b.returned ∨ ∀ r ∈ b'.records, r.resultEmitted = true

variable {b b' : ToolBatch Result} {event : BatchEvent Result} {i : Nat} {r r' : ToolRecord Result}

theorem Steps.set (hr : b.records[i]? = some r) (h : RecordStep b event i r r')
    (hrecords : b'.records = b.records.set i r') (hreturned : b'.returned = b.returned) :
    Steps b event b' := by
  refine ⟨hrecords ▸ List.length_set, fun j q hq => ?_, .inl hreturned⟩
  rw [hrecords, List.getElem?_set]
  by_cases hij : i = j
  · subst hij
    cases hr.symm.trans hq
    obtain ⟨hlt, -⟩ := List.getElem?_eq_some_iff.mp hr
    exact ⟨r', by simp [hlt], h⟩
  · exact ⟨q, by simp [hij, hq], .same q⟩

theorem Steps.map {f : ToolRecord Result → ToolRecord Result}
    (h : ∀ i r, RecordStep b event i r (f r)) (hrecords : b'.records = b.records.map f)
    (hreturned : b'.returned = b.returned ∨ ∀ r ∈ b'.records, r.resultEmitted = true) :
    Steps b event b' := by
  refine ⟨hrecords ▸ List.length_map _, fun i r hr => ⟨f r, ?_, h i r⟩, hreturned⟩
  rw [hrecords, List.getElem?_map, hr, Option.map_some]

theorem Steps.emitAndSteer (hr : b.records[i]? = some r) (result : Result) (isError : Bool)
    (hphase : b.Enters r ∨ r.phase = .executing ∨ ∃ result isError,
      r.phase = .afterToolCall result isError) :
    Steps b event (b.emitAndSteer i r result isError) := by
  have hrecord : ∀ phase, phase = .checkSteering ∨ phase = .finalizing true → RecordStep b event i r
      { (if b.interrupted then r.skip .skipped else r.emitToolResult (.returned result isError)) with
      phase := phase } := by
    intro phase hphase'
    cases b.interrupted with
    | true => exact .emits r .skipped true phase hphase hphase'
    | false => exact .emits r (.returned result isError) false phase hphase hphase'
  unfold ToolBatch.emitAndSteer
  dsimp only
  split
  · exact .set hr (hrecord _ (.inr rfl)) rfl rfl
  · exact .set hr (hrecord _ (.inl rfl)) rfl rfl

theorem Steps.afterExecution (hr : b.records[i]? = some r) (result : Result) (isError : Bool)
    (hphase : b.Enters r ∨ r.phase = .executing) :
    Steps b event (b.afterExecution i r result isError) := by
  unfold ToolBatch.afterExecution
  split
  · exact .set hr (.executed r result isError hphase) rfl rfl
  · exact .emitAndSteer hr result isError (hphase.imp_right .inl)

theorem Steps.dispatch (hr : b.records[i]? = some r) (d : Dispatch Result) (henters : b.Enters r)
    (hevent : r.phase = .beforeToolCall → event = .beforeReturns i (.proceed d)) :
    Steps b event (b.dispatch i r d) := by
  cases d with
  | failed error => exact .afterExecution hr error true (.inl henters)
  | published => exact .set hr (.dispatches r henters hevent) rfl rfl

theorem Steps.runTool (hr : b.records[i]? = some r) (how : Begin Result)
    (hwaiting : r.phase = .waiting) (hstart : b.StartFulfilled r.start) :
    Steps b event (b.runTool i r how) := by
  unfold ToolBatch.runTool
  split
  · exact .set hr (.skips r hwaiting hstart) rfl rfl
  next hskip =>
    simp only [Bool.or_eq_true, not_or, Bool.not_eq_true] at hskip
    have henters : b.Enters r := .inl ⟨hwaiting, hstart, hskip.1⟩
    cases how with
    | crash => exact .set hr (.crashes r hwaiting hstart) rfl rfl
    | rejected error => exact .afterExecution hr error true (.inl henters)
    | checked d =>
      dsimp only
      split
      · exact .set hr (.asks r hwaiting hstart) rfl rfl
      · exact .dispatch hr d henters fun hbefore => nomatch hwaiting.symm.trans hbefore

theorem sweep_emitted (byAbort : Bool) :
    ∀ r ∈ (b.sweep byAbort).records, r.resultEmitted = true := by
  intro r hr
  obtain ⟨r, -, rfl⟩ := List.mem_map.mp hr
  exact ToolRecord.close_resultEmitted r _

theorem Steps.sweep (byAbort : Bool) : Steps b event (b.sweep byAbort) := by
  cases byAbort with
  | false => exact .map (fun i r => .closes r .skipped) rfl (.inr (sweep_emitted false))
  | true =>
    refine .map (fun i r => .closes r .aborted) ?_ (.inr (sweep_emitted true))
    show (b.records.map _).map _ = _
    rw [List.map_map]
    exact List.map_congr_left fun r _ => ToolRecord.close_close r _ _

theorem step_cases [DecidableEq Result] (h : b.step event = some b') : Steps b event b' := by
  cases event with
  | run i how =>
    obtain ⟨r, hr, h⟩ := Option.bind_eq_some_iff.mp h
    obtain ⟨⟨hwaiting, hstart⟩, h⟩ := Option.ite_none_right_eq_some.mp h
    cases h
    exact .runTool hr how hwaiting hstart
  | startRejects i =>
    obtain ⟨r, hr, h⟩ := Option.bind_eq_some_iff.mp h
    obtain ⟨⟨hwaiting, -⟩, h⟩ := Option.ite_none_right_eq_some.mp h
    cases h
    exact .set hr (.startRejects r hwaiting) rfl rfl
  | beforeReturns i outcome =>
    obtain ⟨r, hr, h⟩ := Option.bind_eq_some_iff.mp h
    obtain ⟨hphase, h⟩ := Option.ite_none_right_eq_some.mp h
    cases outcome with
    | stopped error =>
      cases h
      exact .afterExecution hr error true (.inl (.inr hphase))
    | proceed d =>
      cases h
      exact .dispatch hr d (.inr hphase) fun _ => rfl
  | executeSettles i result isError =>
    obtain ⟨r, hr, h⟩ := Option.bind_eq_some_iff.mp h
    obtain ⟨hphase, h⟩ := Option.ite_none_right_eq_some.mp h
    cases h
    exact .afterExecution hr result isError (.inr hphase)
  | afterReturns i changed =>
    obtain ⟨r, hr, h⟩ := Option.bind_eq_some_iff.mp h
    split at h
    next result isError hphase =>
      cases h
      exact .emitAndSteer hr _ _ (.inr (.inr ⟨result, isError, hphase⟩))
    next => cases h
  | steeringSettles outcome =>
    obtain ⟨-, h⟩ := Option.ite_none_right_eq_some.mp h
    cases h
    refine .map (fun i r => ?_) rfl (.inl rfl)
    split
    next hphase => exact .steered r _ hphase
    next => exact .same r
  | finalize i =>
    obtain ⟨r, hr, h⟩ := Option.bind_eq_some_iff.mp h
    split at h
    next ok hphase =>
      cases h
      exact .set hr (.finalizes r ok hphase) rfl rfl
    next hphase =>
      cases h
      exact .set hr (.gives_up r hphase) rfl rfl
    next => cases h
  | abort =>
    obtain ⟨-, h⟩ := Option.ite_none_right_eq_some.mp h
    cases h
    exact ⟨rfl, fun _ r hr => ⟨r, hr, .same r⟩, .inl rfl⟩
  | finish byAbort =>
    obtain ⟨-, h⟩ := Option.ite_none_right_eq_some.mp h
    cases h
    exact .sweep byAbort

end ToolBatch

def Unreported (log : List (CallEvent Result)) : Prop :=
  log = [] ∨ log = [.toolExecutionStart true, .execute]

/-- One start, one end after it and one result; `execute` is entered before them, if at all. -/
def ReportedOnce (log : List (CallEvent Result)) : Prop :=
  ∃ outcome, log = [.toolExecutionStart false, .toolExecutionEnd false outcome,
    .toolResult outcome] ∨
    log = [.toolExecutionStart true, .execute, .toolExecutionEnd true outcome, .toolResult outcome]

structure ToolRecord.Ok (r : ToolRecord Result) : Prop where
  opened : r.resultEmitted = false →
    r.log = if r.started then [.toolExecutionStart true, .execute] else []
  reported : r.resultEmitted = true → ∃ outcome,
    r.log = (if r.started then [.toolExecutionStart true, .execute]
    else [.toolExecutionStart false]) ++
      [.toolExecutionEnd r.started outcome, .toolResult outcome]
  waiting : r.phase = .waiting → r.started = false ∧ (r.resultEmitted = true → r.skipped = true)
  before : r.phase = .beforeToolCall → r.started = false

namespace ToolRecord.Ok

variable {r : ToolRecord Result}

theorem toPhase (h : r.Ok) {phase : TaskPhase Result} (hwaiting : phase ≠ .waiting)
    (hbefore : phase ≠ .beforeToolCall) :
    Ok { r with phase := phase } :=
  ⟨h.opened, h.reported, fun hphase => absurd hphase hwaiting, fun hphase => absurd hphase hbefore⟩

theorem emitToolResult (h : r.Ok) (hskipped : r.phase = .waiting → r.skipped = true)
    (outcome : ToolOutcome Result) :
    (r.emitToolResult outcome).Ok := by
  unfold ToolRecord.emitToolResult
  split
  · exact h
  next hemitted =>
    have hlog := h.opened (Bool.not_eq_true _ ▸ hemitted)
    refine ⟨nofun, fun _ => ⟨outcome, ?_⟩,
      fun hphase => ⟨(h.waiting hphase).1, fun _ => hskipped hphase⟩, h.before⟩
    show r.log ++ _ ++ _ = _
    rw [hlog]
    cases r.started <;> rfl

theorem skip (h : r.Ok) (outcome : ToolOutcome Result) : (r.skip outcome).Ok := by
  refine emitToolResult ?_ (fun _ => rfl) outcome
  exact ⟨h.opened, h.reported, fun hphase => ⟨(h.waiting hphase).1, fun _ => rfl⟩, h.before⟩

theorem close (h : r.Ok) (outcome : ToolOutcome Result) : (r.close outcome).Ok := by
  unfold ToolRecord.close
  split
  · exact h
  · exact h.skip outcome

theorem log_cases (h : r.Ok) : Unreported r.log ∨ ReportedOnce r.log := by
  cases hemitted : r.resultEmitted with
  | false =>
    have hlog := h.opened hemitted
    cases hstarted : r.started <;> rw [hstarted] at hlog
    · exact .inl (.inl hlog)
    · exact .inl (.inr hlog)
  | true =>
    obtain ⟨outcome, hlog⟩ := h.reported hemitted
    cases hstarted : r.started <;> rw [hstarted] at hlog
    · exact .inr ⟨outcome, .inl hlog⟩
    · exact .inr ⟨outcome, .inr hlog⟩

theorem reportedOnce (h : r.Ok) (hemitted : r.resultEmitted = true) : ReportedOnce r.log := by
  obtain ⟨outcome, hlog⟩ := h.reported hemitted
  cases hstarted : r.started <;> rw [hstarted] at hlog
  · exact ⟨outcome, .inl hlog⟩
  · exact ⟨outcome, .inr hlog⟩

end ToolRecord.Ok

namespace ToolBatch

/-- A `beforeToolCall` hook does not let a call go to its dispatch once the call has been closed. -/
def NoLateDispatch (b : ToolBatch Result) : BatchEvent Result → Prop
  | .beforeReturns i (.proceed .published) => ∀ r ∈ b.records[i]?, r.resultEmitted = false
  | _ => True

instance (b : ToolBatch Result) : ∀ event : BatchEvent Result, Decidable (b.NoLateDispatch event)
  | .beforeReturns i (.proceed .published) =>
    inferInstanceAs (Decidable (∀ r ∈ b.records[i]?, r.resultEmitted = false))
  | .beforeReturns _ (.proceed (.failed _)) | .beforeReturns _ (.stopped _) | .run .. |
    .startRejects _
  | .executeSettles .. | .afterReturns .. | .steeringSettles _ | .finalize _ | .abort | .finish _ =>
    isTrue trivial

variable {b b' : ToolBatch Result} {event : BatchEvent Result} {i : Nat} {r r' : ToolRecord Result}

theorem RecordStep.ok (h : RecordStep b event i r r') (hr : b.records[i]? = some r) (hok : r.Ok)
    (hlate : b.NoLateDispatch event) : r'.Ok := by
  cases h with
  | same => exact hok
  | skips => exact ⟨hok.opened, hok.reported, nofun, nofun⟩
  | crashes => exact hok.toPhase nofun nofun
  | asks hwaiting => exact ⟨hok.opened, hok.reported, nofun, fun _ => (hok.waiting hwaiting).1⟩
  | dispatches henters hevent =>
    have hclosed : r.started = false ∧ r.resultEmitted = false := by
      obtain ⟨hwaiting, -, hskipped⟩ | hbefore := henters
      · obtain ⟨hstarted, hclosed⟩ := hok.waiting hwaiting
        refine ⟨hstarted, Bool.eq_false_iff.mpr fun hemitted => ?_⟩
        exact absurd (hclosed hemitted) (Bool.eq_false_iff.mp hskipped)
      · rw [hevent hbefore] at hlate
        exact ⟨hok.before hbefore, hlate r hr⟩
    have hlog := hok.opened hclosed.2
    rw [hclosed.1] at hlog
    refine ⟨fun _ => ?_,
      fun hemitted => absurd hemitted (Bool.eq_false_iff.mp hclosed.2), nofun, nofun⟩
    show r.log ++ _ = _
    rw [hlog]
    rfl
  | executed => exact hok.toPhase nofun nofun
  | emits outcome skips phase hphase hphase' =>
    have hwaiting : phase ≠ .waiting := by
      rintro rfl
      simp at hphase'
    have hbefore : phase ≠ .beforeToolCall := by
      rintro rfl
      simp at hphase'
    cases skips with
    | true => exact (hok.skip outcome).toPhase hwaiting hbefore
    | false =>
      have hemit :=
        (hok.toPhase hwaiting hbefore).emitToolResult (fun h => absurd h hwaiting) outcome
      rwa [← ToolRecord.emitToolResult_phase] at hemit
  | steered => exact hok.toPhase nofun nofun
  | finalizes => exact (hok.close .skipped).toPhase nofun nofun
  | startRejects => exact hok.toPhase nofun nofun
  | gives_up => exact (hok.close .skipped).toPhase nofun nofun
  | closes outcome => exact hok.close outcome

theorem RecordStep.emitted (h : RecordStep b event i r r') (hemitted : r.resultEmitted = true) :
    r'.resultEmitted = true := by
  cases h with
  | emits outcome skips phase =>
    cases skips with
    | true => exact ToolRecord.emitToolResult_resultEmitted _ _
    | false => exact ToolRecord.emitToolResult_resultEmitted _ _
  | finalizes => exact ToolRecord.close_resultEmitted _ _
  | gives_up => exact ToolRecord.close_resultEmitted _ _
  | closes outcome => exact ToolRecord.close_resultEmitted _ _
  | _ => exact hemitted

structure Inv (b : ToolBatch Result) : Prop where
  record : ∀ r ∈ b.records, r.Ok
  returned : b.returned = true → ∀ r ∈ b.records, r.resultEmitted = true

theorem Steps.of_mem (h : Steps b event b') (hr' : r' ∈ b'.records) :
    ∃ i r, b.records[i]? = some r ∧ RecordStep b event i r r' := by
  obtain ⟨i, hi⟩ := List.mem_iff_getElem?.mp hr'
  obtain ⟨hlt, -⟩ := List.getElem?_eq_some_iff.mp hi
  rw [h.length] at hlt
  have hr := List.getElem?_eq_getElem hlt
  obtain ⟨q, hq, hstep⟩ := h.record i _ hr
  cases hi.symm.trans hq
  exact ⟨i, _, hr, hstep⟩

theorem Inv.step [DecidableEq Result] (h : b.Inv) (hlate : b.NoLateDispatch event)
    (hstep : b.step event = some b') :
    b'.Inv := by
  have hcases := step_cases hstep
  refine ⟨fun r' hr' => ?_, fun hreturned r' hr' => ?_⟩
  · obtain ⟨i, r, hr, hrecord⟩ := hcases.of_mem hr'
    exact hrecord.ok hr (h.record r (List.mem_of_getElem? hr)) hlate
  · obtain hsame | hall := hcases.returned
    · obtain ⟨i, r, hr, hrecord⟩ := hcases.of_mem hr'
      exact hrecord.emitted (h.returned (hsame ▸ hreturned) r (List.mem_of_getElem? hr))
    · exact hall r' hr'

theorem initRecord_ok (hasInvalidEscapedCall : Bool) (call : ToolCallInput)
    (start : Option (List Nat)) :
    (initRecord hasInvalidEscapedCall call start : ToolRecord Result).Ok := by
  let new : ToolRecord Result :=
    { exclusive := call.exclusive, start := [], phase := .noTask, started := false, skipped := false,
      resultEmitted := false, log := [] }
  have hnew : new.Ok := ⟨fun _ => rfl, nofun, nofun, nofun⟩
  have hskip : (new.skip .skipped).Ok := hnew.skip .skipped
  unfold initRecord
  cases start with
  | none =>
    cases hasInvalidEscapedCall && !call.invalidEscaped with
    | false => exact hskip
    | true => exact hskip.skip .skipped
  | some start =>
    cases hasInvalidEscapedCall && !call.invalidEscaped with
    | false => exact ⟨fun _ => rfl, nofun, fun _ => ⟨rfl, nofun⟩, nofun⟩
    | true => exact ⟨nofun, hskip.reported, fun _ => ⟨rfl, fun _ => rfl⟩, nofun⟩

theorem start_record {config : BatchConfig} {content : List ToolCallInput}
    (h : (start config content).records[i]? = some r) :
    let toolCalls := content.filter fun call => !call.providerResolved
    ∃ call tasks, toolCalls[i]? = some call ∧ (schedule none [] 0 toolCalls)[i]? = some tasks ∧
      r = initRecord (toolCalls.any (·.invalidEscaped)) call tasks := by
  obtain ⟨call, tasks, hcall, htasks, rfl⟩ := List.getElem?_zipWith_eq_some.mp h
  exact ⟨call, tasks, hcall, htasks, rfl⟩

theorem start_inv (config : BatchConfig) (content : List ToolCallInput) :
    (start config content : ToolBatch Result).Inv := by
  refine ⟨fun r hr => ?_, nofun⟩
  obtain ⟨i, hi⟩ := List.mem_iff_getElem?.mp hr
  obtain ⟨call, tasks, -, -, rfl⟩ := start_record hi
  exact initRecord_ok _ _ _

end ToolBatch

theorem length_schedule (lastExclusive : Option Nat) (sharedTasks : List Nat) (index : Nat)
    (calls : List ToolCallInput) :
    (schedule lastExclusive sharedTasks index calls).length = calls.length := by
  induction calls generalizing lastExclusive sharedTasks index with
  | nil => rfl
  | cons call calls ih =>
    rw [schedule]
    split_ifs <;> rw [List.length_cons, ih, List.length_cons]

theorem ToolBatch.start_length (config : BatchConfig) (content : List ToolCallInput) :
    (start config content : ToolBatch Result).records.length =
      (content.filter fun call => !call.providerResolved).length := by
  rw [start, List.length_zipWith, length_schedule, Nat.min_self]

theorem ToolBatch.run_length [DecidableEq Result] {events : List (BatchEvent Result)}
    {b b' : ToolBatch Result} (hrun : runEvents step b events = some b') :
    b'.records.length = b.records.length :=
  runEvents_preserves (P := fun s => s.records.length = b.records.length)
    (fun _ _ _ h hstep => (step_cases hstep).length.trans h) hrun rfl

/-- In every run in which no call goes to its dispatch after it was closed, every call is reported
once, and `execute` is entered before its result, if at all. -/
theorem calls_are_reported_once [DecidableEq Result] (config : BatchConfig)
    (content : List ToolCallInput) (events : List (BatchEvent Result)) (b : ToolBatch Result)
    (hrun : runEvents ToolBatch.step (ToolBatch.start config content) events = some b)
    (hok : RunMeets ToolBatch.step ToolBatch.NoLateDispatch
      (ToolBatch.start config content) events) :
    b.records.length = (content.filter fun call => !call.providerResolved).length ∧
    ∀ r ∈ b.records, (Unreported r.log ∨ ReportedOnce r.log) ∧
      (b.returned = true → ReportedOnce r.log) := by
  have hinv : b.Inv :=
    hok.invariant (fun _ _ _ h hlate hstep => h.step hlate hstep) hrun (ToolBatch.start_inv _ _)
  refine ⟨(ToolBatch.run_length hrun).trans (ToolBatch.start_length _ _),
    fun r hr => ⟨(hinv.record r hr).log_cases, fun hreturned => ?_⟩⟩
  exact (hinv.record r hr).reportedOnce (hinv.returned hreturned r hr)

def hookedConfig : BatchConfig := ⟨true, true, true, true⟩
def sharedCall : ToolCallInput := ⟨false, false, false, false⟩
def exclusiveCall : ToolCallInput := ⟨false, true, false, false⟩

def abortedRun : List (BatchEvent Unit) :=
  [.run 0 (.checked .published), .beforeReturns 0 (.proceed .published), .abort, .finish true,
    .executeSettles 0 () false, .afterReturns 0 none, .finalize 0,
    .run 1 (.checked .published), .finalize 1]

theorem aborted_calls_are_reported_once :
    ∃ b, runEvents ToolBatch.step
      (ToolBatch.start hookedConfig [sharedCall, ⟨true, false, false, false⟩, exclusiveCall])
        abortedRun = some b ∧
      b.records.length = 2 ∧ ∀ r ∈ b.records, r.phase = .settled true ∧ ReportedOnce r.log := by
  have hruns : (runEvents ToolBatch.step
      (ToolBatch.start hookedConfig [sharedCall, ⟨true, false, false, false⟩, exclusiveCall])
      abortedRun).any
        (fun b => b.returned && b.records.all (·.phase = .settled true)) = true := by decide +kernel
  obtain ⟨b, hrun, hb⟩ := (Option.any_eq_true _ _).mp hruns
  obtain ⟨hreturned, hsettled⟩ := Bool.and_eq_true_iff.mp hb
  obtain ⟨hlength, hreported⟩ := calls_are_reported_once _ _ abortedRun b hrun (by decide +kernel)
  refine ⟨b, hrun, hlength, fun r hr => ⟨?_, (hreported r hr).2 hreturned⟩⟩
  exact of_decide_eq_true (List.all_eq_true.mp hsettled r hr)

def lateRun : List (BatchEvent Unit) :=
  [.run 0 (.checked .published), .abort, .finish true, .beforeReturns 0 (.proceed .published)]

theorem aborted_call_executes_after_its_result :
    ∃ b, runEvents ToolBatch.step (ToolBatch.start hookedConfig [sharedCall]) lateRun = some b ∧
      b.returned = true ∧
      ∃ r ∈ b.records, r.log = [.toolExecutionStart false, .toolExecutionEnd false .aborted,
        .toolResult .aborted, .toolExecutionStart true, .execute] ∧
          ¬(Unreported r.log ∨ ReportedOnce r.log) := by
  have hruns : (runEvents ToolBatch.step (ToolBatch.start hookedConfig [sharedCall]) lateRun).any
      (fun b => b.returned &&
      b.records.any (·.log = [.toolExecutionStart false, .toolExecutionEnd false .aborted,
        .toolResult .aborted, .toolExecutionStart true, .execute])) = true := by decide +kernel
  obtain ⟨b, hrun, hb⟩ := (Option.any_eq_true _ _).mp hruns
  obtain ⟨hreturned, hlog⟩ := Bool.and_eq_true_iff.mp hb
  obtain ⟨r, hr, hr'⟩ := List.any_eq_true.mp hlog
  have hr' := of_decide_eq_true hr'
  exact ⟨b, hrun, hreturned, r, hr, hr', by simp [hr', Unreported, ReportedOnce]⟩

end JevCode.Agent
