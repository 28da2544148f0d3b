import JevCode.Data.InsertionMap
import JevCode.Sdk.RevisionStore

namespace JevCode.Sdk

open JevCode.Text JevCode.Data

def cursorTtlMs : Int := snapshotTtlMs
def maxCursorsPerConnection : Nat := 32
def maxCursorsPerSession : Nat := maxPinnedRevisions

inductive CursorPurpose
  | checkpoint
  deriving DecidableEq

structure CursorEnvelope (Json : Type) where
  sessionId : String
  resource : String
  nonce : Option String
  revision : Nat
  highWatermark : Option Json
  issuedAt : Option Int
  expiresAt : Option Int
  purpose : Option CursorPurpose
  position : Json
  direction : String
  pageShape : Json

structure CursorQueryContext (Json : Type) where
  sessionId : String
  resource : Option String
  resourceId : Option String
  direction : String
  pageShape : Json
  purpose : Option CursorPurpose

structure CursorCodec (Json : Type) where
  sign : CursorEnvelope Json → String
  verify : String → Option (CursorEnvelope Json)
  canonicalJson : Json → String

structure ActiveCursor where
  connectionId : String
  resourceId : String
  expiresAt : Int

inductive CursorOutcome
  | granted (cursor connectionId : String) (expiresAt : Int)
  | exchanged (source cursor connectionId : String) (validatedAt expiresAt : Int)
  | consumed (cursor connectionId : String) (now : Int)

structure CursorRegistry (Hash : Type) where
  store : Store Hash
  active : List (String × ActiveCursor)
  pending : List (String × ActiveCursor)
  log : List CursorOutcome

variable {Hash Json : Type}

namespace CursorRegistry

def new (store : Store Hash) : CursorRegistry Hash := ⟨store, [], [], []⟩

def connectionCount (s : CursorRegistry Hash) (connectionId : String) : Nat :=
  s.active.countP (·.2.connectionId = connectionId)

section

variable [DecidableEq Hash]

def release (s : CursorRegistry Hash) (cursor : String) : CursorRegistry Hash :=
  { s with
    active := s.active.filter (·.1 ≠ cursor)
    store := s.store.unpin cursor }

def releaseAll (s : CursorRegistry Hash) (cursors : List String) : CursorRegistry Hash :=
  cursors.foldl release s

def expiredCursors (s : CursorRegistry Hash) (exceptCursor : Option String) (at_ : Int) :
    List String :=
  (s.active.filter fun e => some e.1 ≠ exceptCursor ∧ e.2.expiresAt ≤ at_).map Prod.fst

def sweep (s : CursorRegistry Hash) (exceptCursor : Option String) (at_ storeNow : Int) :
    CursorRegistry Hash :=
  let swept := s.releaseAll (s.expiredCursors exceptCursor at_)
  { swept with store := swept.store.sweep storeNow }

def close (s : CursorRegistry Hash) : CursorRegistry Hash := s.releaseAll (s.active.map Prod.fst)

variable (codec : CursorCodec Json)

def grantPin? (swept : CursorRegistry Hash) (connectionId : String) (envelope : CursorEnvelope Json)
    (resourceKind resourceId : String) (issuedAt : Int) : Option (String × Store Hash) :=
  if maxCursorsPerSession ≤ swept.active.length ∨
      maxCursorsPerConnection ≤ swept.connectionCount connectionId then none
  else
    let cursor := codec.sign
      { envelope with issuedAt := some issuedAt, expiresAt := some (issuedAt + cursorTtlMs) }
    let store := swept.store.pin cursor (resourceKey resourceKind resourceId) envelope.revision
    if (store.pinIndex.lookup cursor).isSome then some (cursor, store) else none

def grant (s : CursorRegistry Hash) (connectionId : String) (envelope : CursorEnvelope Json)
    (resourceKind resourceId : String) (sweepAt storeNow issuedAt : Int) : CursorRegistry Hash :=
  let swept := s.sweep none sweepAt storeNow
  match swept.grantPin? codec connectionId envelope resourceKind resourceId issuedAt with
  | none => swept
  | some (cursor, store) =>
    { swept with
      store := store
      pending := swept.pending ++ [(cursor, ⟨connectionId, resourceId, issuedAt + cursorTtlMs⟩)] }

def granted (s : CursorRegistry Hash) (i : Nat) : Option (CursorRegistry Hash) :=
  s.pending[i]?.map fun g =>
    { s with
      active := InsertionMap.setEntries g.1 g.2 s.active
      pending := s.pending.eraseIdx i
      log := .granted g.1 g.2.connectionId g.2.expiresAt :: s.log }

def matchesQuery (envelope : CursorEnvelope Json) (expected : CursorQueryContext Json) : Bool :=
  envelope.sessionId = expected.sessionId && expected.resource.all (envelope.resource = ·) &&
    envelope.direction = expected.direction &&
    codec.canonicalJson envelope.pageShape = codec.canonicalJson expected.pageShape

def transferPinThrows (store : Store Hash) (source replacement : String) : Bool :=
  source ≠ replacement &&
    ((store.pinIndex.lookup replacement).isSome || (store.pinIndex.lookup source).isNone)

inductive ExchangeCheck (Json : Type)
  | release
  | reject
  | accept (source : ActiveCursor) (envelope : CursorEnvelope Json)

def checkExchange (s : CursorRegistry Hash) (cursor : String) (expected : CursorQueryContext Json)
    (resourceKind resourceId : String) (validatedAt : Int) : ExchangeCheck Json :=
  match codec.verify cursor with
  | none => .release
  | some envelope =>
    match s.active.lookup cursor, envelope.expiresAt with
    | some source, some expiresAt =>
      if source.expiresAt ≤ validatedAt ∨ expiresAt ≤ validatedAt then .release
      else if matchesQuery codec envelope expected ∧ envelope.purpose = expected.purpose ∧
          resourceKind = envelope.resource ∧
          source.resourceId = resourceId then .accept source envelope
      else .reject
    | _, _ => .release

def otherCursors (swept : CursorRegistry Hash) (connectionId : String)
    (source : ActiveCursor) : Nat :=
  swept.connectionCount connectionId - (if source.connectionId = connectionId then 1 else 0)

/-- The new cursor of an exchange that is within the budgets and can take over the pin; `nonce` is
the UUID that is drawn for it. -/
def exchangePin? (swept : CursorRegistry Hash) (cursor connectionId : String) (source : ActiveCursor)
    (envelope : CursorEnvelope Json) (nonce : String) (issuedAt : Int) : Option String :=
  if maxCursorsPerSession < swept.active.length ∨
      maxCursorsPerConnection ≤ swept.otherCursors connectionId source then none
  else
    let exchanged := codec.sign { envelope with
      nonce := some nonce
      issuedAt := some issuedAt
      expiresAt := some (issuedAt + cursorTtlMs) }
    if transferPinThrows swept.store cursor exchanged then none else some exchanged

def exchange (s : CursorRegistry Hash) (cursor connectionId : String)
    (expected : CursorQueryContext Json) (resourceKind resourceId nonce : String)
    (validatedAt storeNow issuedAt : Int) : CursorRegistry Hash :=
  match s.checkExchange codec cursor expected resourceKind resourceId validatedAt with
  | .release => s.release cursor
  | .reject => s
  | .accept source envelope =>
    let swept := s.sweep (some cursor) validatedAt storeNow
    match swept.exchangePin? codec cursor connectionId source envelope nonce issuedAt with
    | none => swept
    | some exchanged =>
      { swept with
        store := swept.store.transferPin cursor exchanged
        active :=
          InsertionMap.setEntries exchanged ⟨connectionId, resourceId, issuedAt + cursorTtlMs⟩
          (swept.active.filter (·.1 ≠ cursor))
        log :=
          .exchanged cursor exchanged connectionId validatedAt
            (issuedAt + cursorTtlMs) :: swept.log }

def consume (s : CursorRegistry Hash) (cursor connectionId : String)
    (expected : CursorQueryContext Json) (now now' : Int) : CursorRegistry Hash :=
  match codec.verify cursor with
  | none => s
  | some envelope =>
    match s.active.lookup cursor with
    | none => s.release cursor
    | some active =>
      if active.connectionId ≠ connectionId ∨ active.expiresAt ≤ now ∨
        envelope.expiresAt.any (· ≤ now') then
        s.release cursor
      else if matchesQuery codec envelope expected ∧
        expected.resourceId.all (active.resourceId = ·) then
        { s.release cursor with log := .consumed cursor connectionId now :: s.log }
      else s

end

end CursorRegistry

inductive CursorEvent (Hash Json : Type)
  | grant (connectionId : String) (envelope : CursorEnvelope Json) (resourceKind resourceId : String)
      (sweepAt storeNow issuedAt : Int)
  | granted (grant : Nat)
  | exchange (cursor connectionId : String) (expected : CursorQueryContext Json)
      (resourceKind resourceId nonce : String) (validatedAt storeNow issuedAt : Int)
  | consume (cursor connectionId : String) (expected : CursorQueryContext Json) (now now' : Int)
  | release (cursor : String)
  | sweep (at_ storeNow : Int)
  | close
  | store (event : Event Hash)

def Event.isPin : Event Hash → Bool
  | .pin _ _ _ _ | .transferPin _ _ | .unpin _ => true
  | _ => false

variable [DecidableEq Hash] (sha : Chars → Hash) (codec : CursorCodec Json)

def CursorRegistry.step (s : CursorRegistry Hash) :
    CursorEvent Hash Json → Option (CursorRegistry Hash)
  | .grant connectionId envelope resourceKind resourceId sweepAt storeNow issuedAt =>
    some (s.grant codec connectionId envelope resourceKind resourceId sweepAt storeNow issuedAt)
  | .granted i => s.granted i
  | .exchange cursor connectionId expected resourceKind resourceId nonce validatedAt
    storeNow issuedAt =>
    some (s.exchange codec cursor connectionId expected resourceKind resourceId nonce validatedAt
      storeNow issuedAt)
  | .consume cursor connectionId expected now now' =>
    some (s.consume codec cursor connectionId expected now now')
  | .release cursor => some (s.release cursor)
  | .sweep at_ storeNow => some (s.sweep none at_ storeNow)
  | .close => some s.close
  | .store event =>
    if event.isPin then none
    else (Sdk.step sha s.store event).map fun store => { s with store := store }

end JevCode.Sdk
