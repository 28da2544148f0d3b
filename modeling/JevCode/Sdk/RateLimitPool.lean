import Mathlib.Algebra.Order.Field.Rat
import Mathlib.Data.List.Flatten
import Mathlib.Logic.Function.Basic

namespace JevCode.Sdk

inductive RateLimitLane
  | ask
  | finalized
  | live
  | idle
  deriving DecidableEq

def lanePriority : List RateLimitLane := [.ask, .finalized, .live, .idle]

inductive RateLimitDisposition
  | accepted
  | rejected
  | ambiguous
  | removed
  | expired
  deriving DecidableEq

structure RateLimitItem (T : Type) where
  sessionId : String
  lane : RateLimitLane
  coalesceKey : Option String := none
  itemId : Option String := none
  deadlineAt : Option ℚ := none
  payload : T
  deriving DecidableEq

structure IdentifiedItem (T : Type) where
  itemId : String
  sessionId : String
  lane : RateLimitLane
  coalesceKey : Option String
  deadlineAt : Option ℚ
  payload : T
  deriving DecidableEq

structure QueuedItem (T : Type) where
  item : IdentifiedItem T
  seq : Nat
  deriving DecidableEq

structure RateLimitPoolOptions where
  capacity : Option ℚ := none
  refillPerSec : Option ℚ := none

structure RateLimitPool (T : Type) where
  capacity : ℚ
  refillPerSec : ℚ
  lanes : RateLimitLane → List (QueuedItem T)
  laneCursor : RateLimitLane → Option Nat
  tokens : ℚ
  lastRefill : ℚ
  settlements : List String
  settled : List (String × RateLimitDisposition)
  seqCounter : Nat

variable {T : Type}

def RateLimitItem.identify (item : RateLimitItem T) (seq : Nat) : IdentifiedItem T where
  itemId := item.itemId.getD s!"rate-limit:{seq}"
  sessionId := item.sessionId
  lane := item.lane
  coalesceKey := item.coalesceKey
  deadlineAt := item.deadlineAt
  payload := item.payload

namespace RateLimitPool

def new (options : RateLimitPoolOptions) (now : ℚ) : RateLimitPool T where
  capacity := max 1 (options.capacity.getD 20)
  refillPerSec := max 0 (options.refillPerSec.getD 1)
  lanes := fun _ => []
  laneCursor := fun _ => none
  tokens := max 1 (options.capacity.getD 20)
  lastRefill := now
  settlements := []
  settled := []
  seqCounter := 0

def pending (pool : RateLimitPool T) : Nat :=
  (lanePriority.map fun lane => (pool.lanes lane).length).sum

def settle (pool : RateLimitPool T) (itemId : String) (disposition : RateLimitDisposition) :
    RateLimitPool T :=
  if itemId ∈ pool.settlements then
    { pool with
      settlements := pool.settlements.filter (· ≠ itemId)
      settled := pool.settled ++ [(itemId, disposition)] }
  else pool

def handle (pool : RateLimitPool T) (itemId : String) : RateLimitPool T :=
  if itemId ∈ pool.settlements then pool else { pool with
    settlements := pool.settlements ++ [itemId] }

def coalesced? (pool : RateLimitPool T) (item : RateLimitItem T) : Option Nat :=
  if item.itemId = none ∧ item.coalesceKey ≠ none then
    (pool.lanes item.lane).findIdx? fun q =>
      q.item.sessionId = item.sessionId ∧ q.item.coalesceKey = item.coalesceKey
  else none

def setLane (pool : RateLimitPool T) (lane : RateLimitLane) (queue : List (QueuedItem T)) :
    RateLimitPool T :=
  { pool with lanes := Function.update pool.lanes lane queue }

def submit (pool : RateLimitPool T) (item : RateLimitItem T) : RateLimitPool T :=
  let identified := item.identify pool.seqCounter
  let counted := { pool with seqCounter := pool.seqCounter + 1 }
  let queue := pool.lanes item.lane
  match (pool.coalesced? item).bind fun i => queue[i]?.map (i, ·) with
  | some (i, existing) =>
    ((counted.settle existing.item.itemId .removed).setLane item.lane
      (queue.set i { existing with item := identified })).handle identified.itemId
  | none =>
    (counted.setLane item.lane (queue ++ [⟨identified, pool.seqCounter⟩])).handle identified.itemId

def settleAll (pool : RateLimitPool T) (items : List (IdentifiedItem T))
    (disposition : RateLimitDisposition) :
    RateLimitPool T :=
  items.foldl (fun pool item => pool.settle item.itemId disposition) pool

def removeWhere (pool : RateLimitPool T) (predicate : IdentifiedItem T → Bool)
    (disposition : RateLimitDisposition) : RateLimitPool T × List (IdentifiedItem T) :=
  let removed := lanePriority.flatMap fun lane =>
    ((pool.lanes lane).map QueuedItem.item).filter predicate
  let kept :=
    { pool with lanes := fun lane => (pool.lanes lane).filter fun queued => !predicate queued.item }
  (kept.settleAll removed disposition, removed)

def removeById (pool : RateLimitPool T) (itemId : String) :
    RateLimitPool T × Option (IdentifiedItem T) :=
  let found := lanePriority.findSome? fun lane =>
    ((pool.lanes lane).find? fun queued => queued.item.itemId = itemId).map (lane, ·)
  match found with
  | none => (pool, none)
  | some (lane, queued) =>
    let queue := (pool.lanes lane).eraseP fun queued => queued.item.itemId = itemId
    ((pool.setLane lane queue).settle queued.item.itemId .removed, some queued.item)

def refill (pool : RateLimitPool T) (nowMs : ℚ) : RateLimitPool T :=
  if nowMs ≤ pool.lastRefill then pool
  else
    let elapsedSec := (nowMs - pool.lastRefill) / 1000
    { pool with
      tokens := min pool.capacity (pool.tokens + elapsedSec * pool.refillPerSec)
      lastRefill := nowMs }

def sessionsOf (queue : List (QueuedItem T)) : List String :=
  queue.foldl (fun sessions q => if q.item.sessionId ∈ sessions then sessions else sessions ++
    [q.item.sessionId]) []

def pickFairIndex (pool : RateLimitPool T) (lane : RateLimitLane) (queue : List (QueuedItem T)) :
    Nat × Option Nat :=
  let sessions := sessionsOf queue
  if sessions.length ≤ 1 then (0, pool.laneCursor lane)
  else
    let cursor := (pool.laneCursor lane).getD 0
    let picked := (List.range sessions.length).findSome? fun offset =>
      sessions[(cursor + offset) % sessions.length]?.bind fun candidate =>
        (queue.findIdx? fun q => q.item.sessionId = candidate).map fun idx =>
          (idx, some ((cursor + offset + 1) % sessions.length))
    picked.getD (0, pool.laneCursor lane)

def takeNext (pool : RateLimitPool T) :
    Except String (RateLimitPool T × Option (IdentifiedItem T)) :=
  match lanePriority.find? fun lane => !(pool.lanes lane).isEmpty with
  | none => .ok (pool, none)
  | some lane =>
    let queue := pool.lanes lane
    let (picked, cursor) := pool.pickFairIndex lane queue
    let served := { pool.setLane lane (queue.eraseIdx picked) with
      laneCursor := Function.update pool.laneCursor lane cursor }
    match queue[picked]? with
    | none => .ok (served, none)
    | some removed =>
      if removed.item.itemId ∈ pool.settlements then .ok (served, some removed.item)
      else .error s!"unknown rate-limit item: {removed.item.itemId}"

def drainLoop (pool : RateLimitPool T) (granted : List (IdentifiedItem T)) :
    Nat → Except String (RateLimitPool T × List (IdentifiedItem T))
  | 0 => .ok (pool, granted)
  | rounds + 1 =>
    if 1 ≤ pool.tokens then do
      let (pool, next) ← pool.takeNext
      match next with
      | none => pure (pool, granted)
      | some item => drainLoop { pool with tokens := pool.tokens - 1 } (granted ++ [item]) rounds
    else .ok (pool, granted)

structure DrainResult (T : Type) where
  granted : List (IdentifiedItem T)
  expired : List (IdentifiedItem T)
  deriving DecidableEq

def drainWithExpired (pool : RateLimitPool T) (nowMs : ℚ) :
    Except String (RateLimitPool T × DrainResult T) := do
  let (pool, expired) :=
    (pool.refill nowMs).removeWhere (fun item => item.deadlineAt.elim false (· ≤ nowMs)) .expired
  let (pool, granted) ← pool.drainLoop [] pool.pending
  pure (pool, ⟨granted, expired⟩)

def drain (pool : RateLimitPool T) (nowMs : ℚ) :
    Except String (RateLimitPool T × List (IdentifiedItem T)) := do
  let (pool, result) ← pool.drainWithExpired nowMs
  pure (pool, result.granted)

def queued (pool : RateLimitPool T) : List (IdentifiedItem T) :=
  lanePriority.flatMap fun lane => (pool.lanes lane).map QueuedItem.item

inductive Call (T : Type)
  | submit (item : RateLimitItem T)
  | removeWhere (predicate : IdentifiedItem T → Bool) (disposition : RateLimitDisposition)
  | removeById (itemId : String)
  | drain (nowMs : ℚ)

structure History (T : Type) where
  submitted : List (IdentifiedItem T) := []
  granted : List (ℚ × List (IdentifiedItem T)) := []
  expired : List (IdentifiedItem T) := []
  removed : List (IdentifiedItem T) := []
  replaced : List (IdentifiedItem T × IdentifiedItem T) := []

def History.gone (history : History T) : List (IdentifiedItem T) :=
  history.granted.flatMap Prod.snd ++ history.expired ++ history.removed ++
    history.replaced.map Prod.fst

def History.grantedBetween (history : History T) (t₁ t₂ : ℚ) : Nat :=
  ((history.granted.filter fun drain => t₁ ≤ drain.1 ∧ drain.1 ≤ t₂).map fun drain =>
    drain.2.length).sum

def replacedBy (pool : RateLimitPool T) (item : RateLimitItem T) : Option (IdentifiedItem T) :=
  ((pool.coalesced? item).bind fun i => (pool.lanes item.lane)[i]?).map QueuedItem.item

def step (state : RateLimitPool T × History T) : Call T → Except String (RateLimitPool T × History T)
  | .submit item =>
    let (pool, history) := state
    let identified := item.identify pool.seqCounter
    .ok (pool.submit item, { history with
      submitted := history.submitted ++ [identified]
      replaced := history.replaced ++ ((pool.replacedBy item).map (·, identified)).toList })
  | .removeWhere predicate disposition =>
    let (pool, removed) := state.1.removeWhere predicate disposition
    .ok (pool, { state.2 with removed := state.2.removed ++ removed })
  | .removeById itemId =>
    let (pool, removed) := state.1.removeById itemId
    .ok (pool, { state.2 with removed := state.2.removed ++ removed.toList })
  | .drain nowMs => do
    let (pool, result) ← state.1.drainWithExpired nowMs
    pure (pool, { state.2 with
      granted := state.2.granted ++ [(nowMs, result.granted)]
      expired := state.2.expired ++ result.expired })

def run (state : RateLimitPool T × History T) (calls : List (Call T)) :
    Except String (RateLimitPool T × History T) :=
  calls.foldlM step state

/-- The submitted items under their ids; the counter has come to `seq`. -/
def identifyAll (seq : Nat) : List (Call T) → List (IdentifiedItem T)
  | [] => []
  | .submit item :: calls => item.identify seq :: identifyAll (seq + 1) calls
  | _ :: calls => identifyAll seq calls

def Call.clock? : Call T → Option ℚ
  | .drain nowMs => some nowMs
  | _ => none

end RateLimitPool

end JevCode.Sdk
