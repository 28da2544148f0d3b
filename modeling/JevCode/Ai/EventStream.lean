import JevCode.Data.Deque

namespace JevCode.Ai

open JevCode.Data

section

variable (E R Err : Type)

inductive QueueNode
  | event (event : E)
  | consumerDrain (drain : Nat)

inductive DrainError
  | aborted
  | failed (error : Err)
  | message (text : String)

inductive WaitResult
  | value (event : E)
  | done
  | error (error : Err)

/-- The drains are numbered in the order they were requested; a drain that is not settled is `none`.
-/
structure EventStream where
  queue : Deque (QueueNode E)
  waiting : Nat
  woken : List (WaitResult E Err)
  drains : List (Option (Except (DrainError Err) Unit))
  pendingConsumerDrains : List Nat
  activeConsumerCount : Nat
  done : Bool
  failed : Option Err
  finalResult : Option (Except Err R)

end

variable {E R Err : Type}

namespace EventStream

def new : EventStream E R Err := ⟨.empty, 0, [], [], [], 0, false, none, none⟩

def compactAfter : Nat := 1024

def settleConsumerDrain (s : EventStream E R Err) (drain : Nat)
    (status : Except (DrainError Err) Unit) :
    EventStream E R Err :=
  match s.drains[drain]? with
  | some none =>
    { s with
      drains := s.drains.set drain (some status)
      pendingConsumerDrains := s.pendingConsumerDrains.erase drain }
  | _ => s

def settleAllConsumerDrains (s : EventStream E R Err) (status : Except (DrainError Err) Unit) :
    EventStream E R Err :=
  s.pendingConsumerDrains.foldl (fun s drain => s.settleConsumerDrain drain status) s

def wake (s : EventStream E R Err) (result : WaitResult E Err) : EventStream E R Err :=
  { s with waiting := s.waiting - 1, woken := s.woken ++ [result] }

def wakeAll (s : EventStream E R Err) (result : WaitResult E Err) : EventStream E R Err :=
  { s with waiting := 0, woken := s.woken ++ List.replicate s.waiting result }

def drainNodes : Nat → EventStream E R Err → EventStream E R Err
  | 0, s => s
  | n + 1, s =>
    if s.waiting = 0 then s
    else
      match s.queue.dequeue compactAfter with
      | none => s
      | some (.consumerDrain drain, queue) =>
        drainNodes n ({ s with queue := queue }.settleConsumerDrain drain (.ok ()))
      | some (.event event, queue) => drainNodes n ({ s with queue := queue }.wake (.value event))

def drainQueuedNodesToWaitingConsumers (s : EventStream E R Err) : EventStream E R Err :=
  drainNodes s.queue.length s

def dequeueEventLoop : Nat → EventStream E R Err → EventStream E R Err × Option E
  | 0, s => (s, none)
  | n + 1, s =>
    match s.queue.dequeue compactAfter with
    | none => (s, none)
    | some (.event event, queue) => ({ s with queue := queue }, some event)
    | some (.consumerDrain drain, queue) =>
      dequeueEventLoop n ({ s with queue := queue }.settleConsumerDrain drain (.ok ()))

def dequeueEvent (s : EventStream E R Err) : EventStream E R Err × Option E :=
  dequeueEventLoop s.queue.length s

def settleFinalResult (s : EventStream E R Err) (result : Except Err R) : EventStream E R Err :=
  { s with finalResult := s.finalResult.or (some result) }

def deliver (s : EventStream E R Err) (event : E) : EventStream E R Err :=
  if s.queue.length = 0 ∧ 0 < s.waiting then s.wake (.value event)
  else { s with queue := s.queue.enqueue (.event event) }.drainQueuedNodesToWaitingConsumers

def fail (s : EventStream E R Err) (err : Err) : EventStream E R Err :=
  if s.done then s
  else
    (({ s with done := true, failed := some err }.settleAllConsumerDrains
      (.error (.failed err))).settleFinalResult (.error err)).wakeAll (.error err)

section

variable (isComplete : E → Except Err Bool) (extractResult : E → Except Err R)

def completion (event : E) : Except Err (Option R) := do
  if ← isComplete event then
    return some (← extractResult event)
  else
    return none

def push (s : EventStream E R Err) (event : E) : EventStream E R Err :=
  if s.done then s
  else
    match completion isComplete extractResult event with
    | .error err => s.fail err
    | .ok none => s.deliver event
    | .ok (some result) => ({ s with done := true }.settleFinalResult (.ok result)).deliver event

end

def settledDrain (s : EventStream E R Err) (status : Except (DrainError Err) Unit) :
    EventStream E R Err :=
  { s with drains := s.drains ++ [some status] }

def waitForConsumerDrain (s : EventStream E R Err) (aborted : Bool) : EventStream E R Err :=
  if aborted then s.settledDrain (.error .aborted)
  else
    match s.failed with
    | some err => s.settledDrain (.error (.failed err))
    | none =>
      if s.done ∧ s.activeConsumerCount = 0 then
        if s.queue.length = 0 then s.settledDrain (.ok ())
        else s.settledDrain (.error
          (.message "Event stream ended before queued events could be drained"))
      else
        { s with
          drains := s.drains ++ [none]
          pendingConsumerDrains := s.pendingConsumerDrains ++ [s.drains.length]
          queue :=
            s.queue.enqueue (.consumerDrain s.drains.length) }.drainQueuedNodesToWaitingConsumers

def abortDrain (s : EventStream E R Err) (drain : Nat) : EventStream E R Err :=
  s.settleConsumerDrain drain (.error .aborted)

def endStream (s : EventStream E R Err) (result : Option R) : EventStream E R Err :=
  let s := { s with done := true }
  let s :=
    if s.activeConsumerCount = 0 then
      s.settleAllConsumerDrains
        (.error (.message "Event stream ended before consumer drain completed"))
    else s
  let s :=
    match result with
    | some result => s.settleFinalResult (.ok result)
    | none => s
  s.wakeAll .done

def closeConsumer (s : EventStream E R Err) : EventStream E R Err :=
  { s with activeConsumerCount := s.activeConsumerCount - 1 }.settleAllConsumerDrains
    (.error (.message "Event stream consumer stopped before drain completed"))

end EventStream

inductive ConsumerEnd (Err : Type)
  | returned
  | threw (error : Err)
  | left

inductive ConsumerPhase (Err : Type)
  | notStarted
  /-- The iterator awaits a promise that it has put into `waiting`. -/
  | awaiting
  | holding
  | finished (how : ConsumerEnd Err)

structure StreamRun (E R Err : Type) where
  stream : EventStream E R Err
  consumer : ConsumerPhase Err
  accepted : List E
  received : List E
  asked : Nat
  acceptedBefore : List Nat
  atOnce : List Nat

namespace StreamRun

def new : StreamRun E R Err := ⟨.new, .notStarted, [], [], 0, [], []⟩

def finish (w : StreamRun E R Err) (stream : EventStream E R Err) (how : ConsumerEnd Err) :
    StreamRun E R Err :=
  { w with stream := stream.closeConsumer, consumer := .finished how }

def pull (w : StreamRun E R Err) : StreamRun E R Err :=
  match w.stream.dequeueEvent with
  | (stream, some event) =>
    { w with stream := stream, consumer := .holding, received := w.received ++ [event] }
  | (stream, none) =>
    match stream.failed with
    | some err => w.finish stream (.threw err)
    | none =>
      if stream.done then w.finish stream .returned
      else { w with stream := { stream with waiting := stream.waiting + 1 }, consumer := .awaiting }

def next (w : StreamRun E R Err) : StreamRun E R Err :=
  match w.consumer with
  | .notStarted =>
    { w with
      asked := w.asked + 1
      stream := { w.stream with activeConsumerCount := w.stream.activeConsumerCount + 1 } }.pull
  | .holding => { w with asked := w.asked + 1 }.pull
  | _ => w

def resume (w : StreamRun E R Err) : StreamRun E R Err :=
  match w.consumer, w.stream.woken with
  | .awaiting, .value event :: woken =>
    { w with stream := { w.stream with
      woken := woken }, consumer := .holding, received := w.received ++ [event] }
  | .awaiting, .done :: woken => w.finish { w.stream with woken := woken } .returned
  | .awaiting, .error err :: woken => w.finish { w.stream with woken := woken } (.threw err)
  | _, _ => w

def leave (w : StreamRun E R Err) : StreamRun E R Err :=
  match w.consumer with
  | .holding => w.finish w.stream .left
  | _ => w

end StreamRun

inductive StreamAction (E R Err : Type)
  | push (event : E)
  | endStream (result : Option R)
  | fail (error : Err)
  | waitForConsumerDrain (aborted : Bool)
  | abortDrain (drain : Nat)
  | next
  | resume
  | leave

namespace StreamRun

variable (isComplete : E → Except Err Bool) (extractResult : E → Except Err R)

/-- An event is accepted unless the stream is done or `isComplete` or `extractResult` throws on it.
-/
def accepts (w : StreamRun E R Err) (event : E) : Bool :=
  !w.stream.done && (EventStream.completion isComplete extractResult event).toBool

def step (w : StreamRun E R Err) : StreamAction E R Err → StreamRun E R Err
  | .push event =>
    { w with
      stream := w.stream.push isComplete extractResult event
      accepted :=
        if w.accepts isComplete extractResult event then w.accepted ++ [event] else w.accepted }
  | .endStream result => { w with stream := w.stream.endStream result }
  | .fail err => { w with stream := w.stream.fail err }
  | .waitForConsumerDrain aborted =>
    { w with
      stream := w.stream.waitForConsumerDrain aborted
      acceptedBefore := w.acceptedBefore ++ [w.accepted.length]
      atOnce :=
        if w.stream.done ∧ w.stream.activeConsumerCount = 0 ∧ w.stream.queue.length = 0 then
          w.atOnce ++ [w.stream.drains.length]
        else w.atOnce }
  | .abortDrain drain => { w with stream := w.stream.abortDrain drain }
  | .next => w.next
  | .resume => w.resume
  | .leave => w.leave

def run (w : StreamRun E R Err) (actions : List (StreamAction E R Err)) : StreamRun E R Err :=
  actions.foldl (step isComplete extractResult) w

end StreamRun

end JevCode.Ai
