import Mathlib.Logic.Function.Basic
import Mathlib.Data.List.Basic
import JevCode.Data.Runs

/-! `run-resource-ledger.ts` as a transition system.  Every call of the ledger or of a lease runs to
its end; between two of them promises settle and timers fire in any order.  The cancellation bridge
answers `open` as it likes, and the calls of its `release` are recorded. -/

namespace JevCode.Agent

abbrev RunId := String
abbrev DomainId := Nat
abbrev OwnerKey := Nat
abbrev WaiterId := Nat
abbrev LeaseId := Nat
abbrev ResourceId := Nat

def maxTombstoneEntries : Nat := 256

inductive RunResourceKind
  | providerFactory
  | providerIterator
  | tool
  | postPrompt
  deriving DecidableEq

structure RunResourceEntry where
  id : ResourceId
  kind : RunResourceKind
  label : String
  registeredAt : Nat
  deriving DecidableEq

inductive RunLifecycle
  | opened
  | sealed
  | quarantined
  deriving DecidableEq

inductive RunSettlementReason
  | unknownRun
  | runNotSealed
  | resourcesPending
  | quarantined
  deriving DecidableEq

inductive RunSettlementProof
  | settled
  | unfenced (reason : RunSettlementReason) (pending : List RunResourceEntry)
  deriving DecidableEq

inductive Disposition
  | settled
  | quarantined
  deriving DecidableEq

inductive ReserveFailure
  | unknownRun
  | sealed
  | quarantined
  | domainMismatch
  deriving DecidableEq

inductive ClaimFailure
  | alreadyClaimed
  | handleMismatch
  | domainMismatch
  | closed
  | quarantined
  deriving DecidableEq

inductive ForkFailure
  | parentClosed
  | quarantined
  | domainMismatch
  deriving DecidableEq

structure RunState where
  lifecycle : RunLifecycle
  domain : Option DomainId
  resources : List RunResourceEntry
  tombstone : List RunResourceEntry
  waiters : List WaiterId
  claimedOwners : List OwnerKey
  released : Bool
  deriving DecidableEq

structure Lease where
  domain : DomainId
  /-- The resource registered for the lease itself, whose promise `closeDiscovery` resolves. -/
  resource : ResourceId
  closed : Bool
  deriving DecidableEq

structure World where
  unsettled : List ResourceId
  leases : List Lease
  timers : List WaiterId
  /-- How often `waitForSettlement` was called; the calls are the waiters `0, 1, …`. -/
  waits : Nat
  reports : List (WaiterId × RunSettlementProof)
  releases : List Disposition
  deriving DecidableEq

structure Cell extends RunState, World where
  sequence : Nat
  deriving DecidableEq

namespace RunState

def snapshot (c : RunState) : List RunResourceEntry :=
  if c.lifecycle = .quarantined then c.tombstone else c.resources

def settlementProof (c : RunState) : Option RunSettlementProof :=
  match c.lifecycle with
  | .quarantined => some (.unfenced .quarantined c.tombstone)
  | .sealed => if c.resources = [] then some .settled else none
  | .opened => none

end RunState

namespace Cell

def resolve (proof : RunSettlementProof) (c : Cell) (waiter : WaiterId) : Cell :=
  { c with
    waiters := c.waiters.erase waiter
    timers := c.timers.erase waiter
    reports := c.reports ++ [(waiter, proof)] }

def releaseIfSettled (c : Cell) : Cell :=
  if c.released = true ∨ c.lifecycle ≠ .sealed ∨ c.resources ≠ [] ∨ c.domain = none then c
  else { c with released := true, releases := c.releases ++ [.settled], domain := none }

def notify (c : Cell) : Cell :=
  match c.settlementProof with
  | some proof => releaseIfSettled (c.waiters.foldl (resolve proof) c)
  | none => releaseIfSettled c

def appendTombstone (c : Cell) (entry : RunResourceEntry) : Cell :=
  let tombstone := c.tombstone ++ [entry]
  { c with tombstone := tombstone.drop (tombstone.length - maxTombstoneEntries) }

def giveUpDomain (c : Cell) : Cell :=
  match c.domain with
  | none => c
  | some _ =>
    if c.released then { c with domain := none }
    else { c with released := true, releases := c.releases ++ [.quarantined], domain := none }

def quarantineState (c : Cell) : Cell :=
  if c.lifecycle = .quarantined then notify c
  else
    let emptied := { c with lifecycle := .quarantined, tombstone := [] }
    let buried := c.resources.foldl appendTombstone emptied
    notify (giveUpDomain { buried with resources := [] })

def register (c : Cell) (kind : RunResourceKind) (label : String) (now : Nat) :
    Cell × Option ResourceId :=
  let entry : RunResourceEntry := ⟨c.sequence + 1, kind, label, now⟩
  let c := { c with sequence := c.sequence + 1 }
  if c.lifecycle = .quarantined then (c.appendTombstone entry, none)
  else
    -- Sealing does not stop this: handlers of `agent_end` register their work after it.
    ({ c with resources := c.resources ++ [entry], unsettled := c.unsettled ++ [entry.id] },
      some entry.id)

def leaseFor (c : Cell) (kind : RunResourceKind) (label : String) (now : Nat) :
    Cell × Option LeaseId :=
  match c.domain with
  | none => (c, none)
  | some domain =>
    match c.register kind label now with
    | (c, none) => (c, none)
    | (c, some id) => ({ c with leases := c.leases ++ [⟨domain, id, false⟩] }, some c.leases.length)

def leaseTrack (c : Cell) (lease : Lease) (kind : RunResourceKind) (label : String) (now : Nat) :
    Cell × Bool :=
  if lease.closed = true ∨ c.lifecycle = .quarantined then (c.quarantineState, false)
  else
    let (c, id) := c.register kind label now
    (c, id.isSome)

def fork (c : Cell) (lease : Lease) (expectedDomain : DomainId) (kind : RunResourceKind)
    (label : String) (now : Nat) : Cell × Except ForkFailure LeaseId :=
  if expectedDomain ≠ lease.domain then (c.quarantineState, .error .domainMismatch)
  else if c.lifecycle = .quarantined then (c.quarantineState, .error .quarantined)
  else if lease.closed then (c.quarantineState, .error .parentClosed)
  else
    match c.leaseFor kind label now with
    | (c, some child) => (c, .ok child)
    | (c, none) => (c, .error .quarantined)

def closeDiscovery (c : Cell) (i : LeaseId) : Cell :=
  { c with leases := c.leases.modify i fun lease => { lease with closed := true } }

def reserveProducer (c : Cell) (expectedDomain : Option DomainId) (kind : RunResourceKind)
    (label : String) (now : Nat) : Cell × Except ReserveFailure LeaseId :=
  if c.lifecycle = .quarantined then (c, .error .quarantined)
  else if c.lifecycle ≠ .opened then (c.quarantineState, .error .sealed)
  else if expectedDomain ≠ none ∧ expectedDomain ≠ c.domain then
    (c.quarantineState, .error .domainMismatch)
  else
    match c.leaseFor kind label now with
    | (c, some lease) => (c, .ok lease)
    | (c, none) => (c, .error .quarantined)

def claimProducer (c : Cell) (expectedDomain : Option DomainId) (ownerKey : OwnerKey) (now : Nat) :
    Cell × Except ClaimFailure LeaseId :=
  if c.lifecycle = .quarantined then (c, .error .quarantined)
  else if c.lifecycle ≠ .opened then (c.quarantineState, .error .closed)
  else if expectedDomain ≠ none ∧ expectedDomain ≠ c.domain then
    (c.quarantineState, .error .domainMismatch)
  else if ownerKey ∈ c.claimedOwners then (c.quarantineState, .error .alreadyClaimed)
  else
    match leaseFor { c with claimedOwners := c.claimedOwners ++ [ownerKey] }
      .postPrompt "agent-session" now with
    | (c, some lease) => (c, .ok lease)
    | (c, none) => (c, .error .quarantined)

def sealRun (c : Cell) : Cell :=
  if c.lifecycle ≠ .opened then c else notify { c with lifecycle := .sealed }

def waitForSettlement (c : Cell) : Cell :=
  let waiter := c.waits
  let c := { c with waits := c.waits + 1 }
  match c.settlementProof with
  | some proof => { c with reports := c.reports ++ [(waiter, proof)] }
  | none => { c with waiters := c.waiters ++ [waiter], timers := c.timers ++ [waiter] }

def timeout (c : Cell) (waiter : WaiterId) : Cell :=
  let reason := if c.lifecycle = .opened then .runNotSealed else .resourcesPending
  resolve (c.settlementProof.getD (.unfenced reason c.snapshot)) c waiter

def onSettled (c : Cell) (id : ResourceId) : Cell :=
  notify { c with
    unsettled := c.unsettled.filter (· ≠ id)
    resources := c.resources.filter (·.id ≠ id) }

end Cell

structure Ledger where
  runs : RunId → Option RunState
  world : RunId → World
  agentSessionClaimKey : Option OwnerKey
  sequence : Nat

inductive RunEvent
  | opened (answer : Option DomainId)
  | reserveProducer (expectedDomain : Option DomainId) (kind : RunResourceKind) (label : String)
  | claimProducer (expectedDomain : Option DomainId) (ownerKey : OwnerKey)
  | track (kind : RunResourceKind) (label : String)
  | leaseTrack (lease : LeaseId) (kind : RunResourceKind) (label : String)
  | fork (lease : LeaseId) (expectedDomain : DomainId) (kind : RunResourceKind) (label : String)
  | closeDiscovery (lease : LeaseId)
  | settle (id : ResourceId)
  | sealRun
  | waitForSettlement
  | timeout (waiter : WaiterId)
  | quarantine

inductive LedgerEvent
  | bindAgentSessionClaimKey (key : OwnerKey)
  | on (run : RunId) (event : RunEvent) (now : Nat)

/-- One event of a known run; `none` when it cannot happen.  The promise of a lease settles only
after `closeDiscovery`. -/
def Cell.step (c : Cell) (key : Option OwnerKey) (now : Nat) : RunEvent → Option Cell
  | .opened _ => some c
  | .reserveProducer expectedDomain kind label =>
    some (c.reserveProducer expectedDomain kind label now).1
  | .claimProducer expectedDomain ownerKey =>
    if key = some ownerKey then some (c.claimProducer expectedDomain ownerKey now).1 else some c
  | .track kind label => some (c.register kind label now).1
  | .leaseTrack i kind label => c.leases[i]?.map fun lease => (c.leaseTrack lease kind label now).1
  | .fork i expectedDomain kind label =>
    c.leases[i]?.map fun lease => (c.fork lease expectedDomain kind label now).1
  | .closeDiscovery i => some (c.closeDiscovery i)
  | .settle id =>
    if id ∈ c.unsettled ∧ ∀ lease ∈ c.leases, lease.resource = id → lease.closed = true then
      some (c.onSettled id)
    else none
  | .sealRun => some c.sealRun
  | .waitForSettlement => some c.waitForSettlement
  | .timeout waiter => if waiter ∈ c.timers then some (c.timeout waiter) else none
  | .quarantine => some c.quarantineState

namespace Ledger

def init : Ledger := ⟨fun _ => none, fun _ => ⟨[], [], [], 0, [], []⟩, none, 0⟩

def cell (s : Ledger) (run : RunId) : Option Cell :=
  (s.runs run).map fun state => ⟨state, s.world run, s.sequence⟩

def store (s : Ledger) (run : RunId) (c : Cell) : Ledger :=
  { s with
    runs := Function.update s.runs run (some c.toRunState)
    world := Function.update s.world run c.toWorld
    sequence := c.sequence }

def stepUnknown (s : Ledger) (run : RunId) : RunEvent → Option Ledger
  | .opened (some domain) => some
    { s with
    runs := Function.update s.runs run (some ⟨.opened, some domain, [], [], [], [], false⟩) }
  | .waitForSettlement =>
    let w := s.world run
    let report := (w.waits, RunSettlementProof.unfenced .unknownRun [])
    some { s with
      world := Function.update s.world run
        { w with waits := w.waits + 1, reports := w.reports ++ [report] } }
  -- There is no lease, timer or registered promise of such a run.
  | .leaseTrack _ _ _ | .fork _ _ _ _ | .closeDiscovery _ | .settle _ | .timeout _ => none
  | _ => some s

def step (s : Ledger) : LedgerEvent → Option Ledger
  | .bindAgentSessionClaimKey key =>
    if s.agentSessionClaimKey = none then some { s with
      agentSessionClaimKey := some key } else some s
  | .on run event now =>
    match s.cell run with
    | some c => (c.step s.agentSessionClaimKey now event).map (s.store run)
    | none => s.stepUnknown run event

def pending (s : Ledger) (run : RunId) : List RunResourceEntry :=
  (s.runs run).elim [] RunState.snapshot

/-- The states an execution of the ledger has visited, the latest first. -/
abbrev Execution : List Ledger → Prop := Data.Execution step init

end Ledger

end JevCode.Agent
