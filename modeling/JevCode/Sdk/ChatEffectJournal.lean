import Mathlib.Algebra.Order.Ring.Rat
import Mathlib.Data.List.Infix

/-! `sdk/bus/chat-effect-journal.ts`: the effects a chat daemon makes visible at its provider, each
under the lease of one owner. The record of one effect id, and what each transaction does to it. -/

namespace JevCode.Sdk

inductive ChatTransport
  | discord
  | slack
  deriving DecidableEq

inductive ChatEffectState
  | pending
  | leased
  | dispatching
  | accepted
  | uncertain
  | terminal
  deriving DecidableEq

structure ChatEffectReceipt where
  provider : Option String := none
  messageId : Option String := none
  channelId : Option String := none
  threadId : Option String := none
  timestamp : Option String := none
  status : Option String := none
  deriving DecidableEq

structure ChatEffect (Payload : Type) where
  generation : Nat
  id : String
  kind : String
  transport : ChatTransport
  sessionId : Option String
  endpointGeneration : Nat
  payload : Payload
  state : ChatEffectState
  owner : Option String
  leaseExpiresAt : Option ℚ
  epoch : Nat
  createdAt : ℚ
  updatedAt : ℚ
  receipt : Option ChatEffectReceipt
  deriving DecidableEq

structure EnqueueChatEffect (Payload : Type) where
  id : String
  kind : String
  transport : ChatTransport
  sessionId : Option String
  endpointGeneration : Nat
  payload : Payload
  receipt : Option ChatEffectReceipt
  deriving DecidableEq

structure ChatEffectLease where
  owner : String
  epoch : Nat
  deriving DecidableEq

variable {Payload : Type}

def isInboundKind (kind : String) : Bool :=
  decide (".inbound.".toList <:+: kind.toList)

def ChatEffect.isInbound (effect : ChatEffect Payload) : Bool := isInboundKind effect.kind

def ChatEffect.canClaim (effect : ChatEffect Payload) (now : ℚ) : Bool :=
  match effect.state with
  | .pending | .accepted => true
  | .uncertain => !effect.isInbound
  | .leased => effect.leaseExpiresAt.getD 0 ≤ now
  | .dispatching | .terminal => false

def ChatEffect.isHeld (effect : ChatEffect Payload) : Bool :=
  effect.state = .leased ∨ effect.state = .dispatching

def ChatEffect.isHeldBy (effect : ChatEffect Payload) (lease : ChatEffectLease) : Bool :=
  effect.isHeld && effect.owner = some lease.owner && effect.epoch = lease.epoch

def ChatEffect.release (state : ChatEffectState) (receipt : ChatEffectReceipt) (now : ℚ)
    (effect : ChatEffect Payload) : ChatEffect Payload :=
  { effect with
    generation := effect.generation + 1
    state := state
    owner := none
    leaseExpiresAt := none
    receipt := some receipt
    updatedAt := now }

def hasImmutableEnqueueIdentity [DecidableEq Payload] (effect : ChatEffect Payload)
    (input : EnqueueChatEffect Payload) : Bool :=
  effect.transport = input.transport && effect.kind = input.kind && effect.sessionId =
    input.sessionId &&
    effect.endpointGeneration = input.endpointGeneration && effect.payload = input.payload

def requireImmutableEnqueueIdentity [DecidableEq Payload] (effect : ChatEffect Payload)
    (input : EnqueueChatEffect Payload) : Except String Unit :=
  if hasImmutableEnqueueIdentity effect input then .ok ()
  else .error s!"Chat effect {input.id} already exists with a different immutable identity"

def nonEmpty (value name : String) : Except String Unit :=
  if value = "" then .error s!"Chat effect {name} is required" else .ok ()

def requireLeaseDuration (leaseMs : ℚ) : Except String Unit :=
  if leaseMs ≤ 0 then .error "Chat effect lease duration must be positive" else .ok ()

abbrev Outcome (Payload : Type) := Option (ChatEffect Payload) × Option (ChatEffect Payload)

def commit (current : Option (ChatEffect Payload)) (next : ChatEffect Payload) :
    Except String (Outcome Payload) :=
  let expectedNext := (current.elim 0 ChatEffect.generation) + 1
  if next.generation = expectedNext then .ok (some next, some next)
  else .error s!"Conversation generation must advance to {expectedNext}"

def transactWhen (guard : ChatEffect Payload → Bool) (next : ChatEffect Payload → ChatEffect Payload)
    (current : Option (ChatEffect Payload)) : Except String (Outcome Payload) :=
  match current with
  | none => .ok (none, none)
  | some effect => if guard effect then commit current (next effect) else .ok (current, none)

namespace ChatEffectJournal

def enqueueRead [DecidableEq Payload] (input : EnqueueChatEffect Payload)
    (current : Option (ChatEffect Payload)) : Except String (Outcome Payload) := do
  nonEmpty input.id "id"
  nonEmpty input.kind "kind"
  match current with
  | none => pure (none, none)
  | some existing =>
    requireImmutableEnqueueIdentity existing input
    pure (current, some existing)

def enqueueWrite (input : EnqueueChatEffect Payload) (now : ℚ)
    (current : Option (ChatEffect Payload)) : Except String (Outcome Payload) := do
  nonEmpty input.id "id"
  nonEmpty input.kind "kind"
  match current with
  | some existing => pure (some existing, none)
  | none =>
    commit none
      { generation := 1, id := input.id, kind := input.kind, transport := input.transport
        sessionId := input.sessionId, endpointGeneration :=
        input.endpointGeneration, payload := input.payload
        state := .pending, owner := none, leaseExpiresAt := none, epoch := 0
        createdAt := now, updatedAt := now, receipt := input.receipt }

def enqueueAndClaim [DecidableEq Payload] (input : EnqueueChatEffect Payload) (owner : String)
    (leaseMs now : ℚ) (current : Option (ChatEffect Payload)) : Except String (Outcome Payload) := do
  nonEmpty input.id "id"
  nonEmpty input.kind "kind"
  nonEmpty owner "owner"
  requireLeaseDuration leaseMs
  match current with
  | some existing =>
    requireImmutableEnqueueIdentity existing input
    pure (some existing, none)
  | none =>
    commit none
      { generation := 1, id := input.id, kind := input.kind, transport := input.transport
        sessionId := input.sessionId, endpointGeneration :=
        input.endpointGeneration, payload := input.payload
        state := .leased, owner := owner, leaseExpiresAt := some (now + leaseMs), epoch := 1
        createdAt := now, updatedAt := now, receipt := input.receipt }

def claim (owner : String) (leaseMs now : ℚ) (current : Option (ChatEffect Payload)) :
    Except String (Outcome Payload) := do
  nonEmpty owner "owner"
  requireLeaseDuration leaseMs
  transactWhen (fun effect => effect.canClaim now)
    (fun effect =>
      { effect with
        generation := effect.generation + 1
        state := .leased
        owner := owner
        epoch := effect.epoch + 1
        leaseExpiresAt := some (now + leaseMs)
        updatedAt := now })
    current

def renew (lease : ChatEffectLease) (leaseMs now : ℚ) (current : Option (ChatEffect Payload)) :
    Except String (Outcome Payload) := do
  requireLeaseDuration leaseMs
  transactWhen (fun effect => effect.isHeldBy lease)
    (fun effect =>
      { effect with
        generation := effect.generation + 1
        leaseExpiresAt := some (now + leaseMs)
        updatedAt := now })
    current

def markDispatching (lease : ChatEffectLease) (now : ℚ) :
    Option (ChatEffect Payload) → Except String (Outcome Payload) :=
  transactWhen (fun effect => effect.state = .leased && effect.owner = some lease.owner &&
    effect.epoch = lease.epoch)
    fun effect =>
      { effect with
        generation := effect.generation + 1
        state := .dispatching
        updatedAt := now }

def recoverDispatchingAsUncertain (onlyIfExpired : Bool) (now : ℚ) :
    Option (ChatEffect Payload) → Except String (Outcome Payload) :=
  transactWhen
    (fun effect => effect.state = .dispatching &&
    !(onlyIfExpired && now < effect.leaseExpiresAt.getD 0))
    fun effect =>
      { effect with
        generation := effect.generation + 1
        state := .uncertain
        owner := none
        leaseExpiresAt := none
        receipt := some { status := some "uncertain" }
        updatedAt := now }

def recordReceipt (lease : ChatEffectLease) (receipt : ChatEffectReceipt) (now : ℚ) :
    Option (ChatEffect Payload) → Except String (Outcome Payload) :=
  transactWhen (fun effect => effect.isHeldBy lease)
    fun effect =>
      { effect with
        generation := effect.generation + 1
        receipt := some receipt
        updatedAt := now }

inductive RecordedState
  | accepted
  | uncertain
  | terminal
  deriving DecidableEq

def RecordedState.toState : RecordedState → ChatEffectState
  | .accepted => .accepted
  | .uncertain => .uncertain
  | .terminal => .terminal

def record (lease : ChatEffectLease) (state : RecordedState)
    (receipt : ChatEffectReceipt) (now : ℚ) :
    Option (ChatEffect Payload) → Except String (Outcome Payload) :=
  transactWhen (fun effect => effect.isHeldBy lease) (ChatEffect.release state.toState receipt now)

def mayTerminalize (lease : Option ChatEffectLease) (effect : ChatEffect Payload) : Bool :=
  !effect.isHeld || lease.elim false effect.isHeldBy

def terminalize (receipt : ChatEffectReceipt) (lease : Option ChatEffectLease) (now : ℚ) :
    Option (ChatEffect Payload) → Except String (Outcome Payload) :=
  transactWhen (fun effect => effect.state ≠ .terminal && mayTerminalize lease effect)
    (ChatEffect.release .terminal receipt now)

/-- Unlike `terminalize` it leaves an uncertain effect alone, and reports a terminal one as it is. -/
def terminalizeDecided (receipt : ChatEffectReceipt) (lease : Option ChatEffectLease) (now : ℚ)
    (current : Option (ChatEffect Payload)) : Except String (Outcome Payload) :=
  match current with
  | none => .ok (none, none)
  | some effect =>
    match effect.state with
    | .uncertain => .ok (current, none)
    | .terminal => .ok (current, some effect)
    | _ => transactWhen (mayTerminalize lease) (ChatEffect.release .terminal receipt now) current

inductive Operation (Payload : Type)
  | enqueueRead (input : EnqueueChatEffect Payload)
  | enqueueWrite (input : EnqueueChatEffect Payload)
  | enqueueAndClaim (input : EnqueueChatEffect Payload) (owner : String) (leaseMs : ℚ)
  | claim (owner : String) (leaseMs : ℚ)
  | renew (lease : ChatEffectLease) (leaseMs : ℚ)
  | markDispatching (lease : ChatEffectLease)
  | recordReceipt (lease : ChatEffectLease) (receipt : ChatEffectReceipt)
  | record (lease : ChatEffectLease) (state : RecordedState) (receipt : ChatEffectReceipt)
  | recoverDispatchingAsUncertain (onlyIfExpired : Bool)
  | terminalize (receipt : ChatEffectReceipt) (lease : Option ChatEffectLease)
  | terminalizeDecided (receipt : ChatEffectReceipt) (lease : Option ChatEffectLease)
  deriving DecidableEq

/-- An operation with the clock it has read before its transaction. -/
structure Transaction (Payload : Type) where
  operation : Operation Payload
  now : ℚ
  deriving DecidableEq

variable [DecidableEq Payload]

def Transaction.execute (t : Transaction Payload) (current : Option (ChatEffect Payload)) :
    Except String (Outcome Payload) :=
  match t.operation with
  | .enqueueRead input => ChatEffectJournal.enqueueRead input current
  | .enqueueWrite input => ChatEffectJournal.enqueueWrite input t.now current
  | .enqueueAndClaim input owner leaseMs =>
    ChatEffectJournal.enqueueAndClaim input owner leaseMs t.now current
  | .claim owner leaseMs => ChatEffectJournal.claim owner leaseMs t.now current
  | .renew lease leaseMs => ChatEffectJournal.renew lease leaseMs t.now current
  | .markDispatching lease => ChatEffectJournal.markDispatching lease t.now current
  | .recordReceipt lease receipt => ChatEffectJournal.recordReceipt lease receipt t.now current
  | .record lease state receipt => ChatEffectJournal.record lease state receipt t.now current
  | .recoverDispatchingAsUncertain onlyIfExpired =>
    ChatEffectJournal.recoverDispatchingAsUncertain onlyIfExpired t.now current
  | .terminalize receipt lease => ChatEffectJournal.terminalize receipt lease t.now current
  | .terminalizeDecided receipt lease =>
    ChatEffectJournal.terminalizeDecided receipt lease t.now current

def recordAfter (current : Option (ChatEffect Payload)) (t : Transaction Payload) :
    Option (ChatEffect Payload) :=
  match t.execute current with
  | .ok outcome => outcome.1
  | .error _ => current

def reported (current : Option (ChatEffect Payload)) (t : Transaction Payload) :
    Option (ChatEffect Payload) :=
  match t.execute current with
  | .ok outcome => outcome.2
  | .error _ => none

/-- The record after the transactions of all owners, in the order of the store's lock. -/
def recordAfterAll (current : Option (ChatEffect Payload)) (ts : List (Transaction Payload)) :
    Option (ChatEffect Payload) :=
  ts.foldl recordAfter current

def Operation.lease? : Operation Payload → Option ChatEffectLease
  | .renew lease _ | .markDispatching lease | .recordReceipt lease _ | .record lease _ _ =>
    some lease
  | .terminalize _ lease | .terminalizeDecided _ lease => lease
  | .enqueueRead _ | .enqueueWrite _ | .enqueueAndClaim .. | .claim .. |
    .recoverDispatchingAsUncertain _ => none

def Operation.isClaim : Operation Payload → Bool
  | .enqueueAndClaim .. | .claim .. => true
  | _ => false

end ChatEffectJournal

inductive Advance (now : ℚ) : Option (ChatEffect Payload) → ChatEffect Payload → Prop
  | create {e' : ChatEffect Payload} : Advance now none e'
  | claim {e e' : ChatEffect Payload} (hclaim : e.canClaim now = true) (hkind : e'.kind = e.kind)
      (hepoch : e'.epoch = e.epoch + 1) : Advance now (some e) e'
  | held {e e' : ChatEffect Payload} (hheld : e.isHeld = true) (hkind : e'.kind = e.kind)
      (hepoch : e'.epoch = e.epoch) : Advance now (some e) e'
  | close {e e' : ChatEffect Payload} (hopen : e.state ≠ .terminal) (hclosed : e'.state = .terminal)
      (hkind : e'.kind = e.kind) (hepoch : e'.epoch = e.epoch) : Advance now (some e) e'

section

variable {e e' : ChatEffect Payload} {now : ℚ}

theorem Advance.epoch_le (h : Advance now (some e) e') : e.epoch ≤ e'.epoch := by
  cases h with
  | claim _ _ hepoch => omega
  | held _ _ hepoch => omega
  | close _ _ _ hepoch => omega

theorem Advance.kind_eq (h : Advance now (some e) e') : e'.kind = e.kind := by
  cases h with
  | claim _ hkind => exact hkind
  | held _ hkind => exact hkind
  | close _ _ hkind => exact hkind

theorem Advance.not_terminal (h : Advance now (some e) e') : e.state ≠ .terminal := by
  intro hstate
  cases h with
  | claim hclaim => simp [ChatEffect.canClaim, hstate] at hclaim
  | held hheld => simp [ChatEffect.isHeld, hstate] at hheld
  | close hopen => exact hopen hstate

theorem Advance.closes_of_inbound (h : Advance now (some e) e') (hinbound : e.isInbound = true)
    (hstate : e.state = .uncertain) : e'.state = .terminal := by
  cases h with
  | claim hclaim => simp [ChatEffect.canClaim, hstate, hinbound] at hclaim
  | held hheld => simp [ChatEffect.isHeld, hstate] at hheld
  | close _ hclosed => exact hclosed

theorem isHeld_of_isHeldBy {lease : ChatEffectLease} (h : e.isHeldBy lease = true) :
    e.isHeld = true := by
  simp only [ChatEffect.isHeldBy, Bool.and_eq_true] at h
  exact h.1.1

end

namespace ChatEffectJournal

section

variable {guard : ChatEffect Payload → Bool} {next : ChatEffect Payload → ChatEffect Payload}
  {current : Option (ChatEffect Payload)} {outcome : Outcome Payload}

theorem commit_eq_ok {e' : ChatEffect Payload} (h : commit current e' = .ok outcome) :
    outcome = (some e', some e') := by
  rw [commit] at h
  split at h
  · cases h
    rfl
  · cases h

theorem transactWhen_eq_ok (h : transactWhen guard next current = .ok outcome) :
    outcome = (current, none) ∨
      ∃ e, current = some e ∧ guard e = true ∧ outcome = (some (next e), some (next e)) := by
  cases current with
  | none =>
    cases h
    exact .inl rfl
  | some e =>
    simp only [transactWhen] at h
    split at h
    next hguard => exact .inr ⟨e, rfl, hguard, commit_eq_ok h⟩
    next => exact .inl (Except.ok.inj h).symm

theorem transactWhen_of_refused (h : ∀ e ∈ current, guard e = false) :
    transactWhen guard next current = .ok (current, none) := by
  cases current with
  | none => rfl
  | some e => simp [transactWhen, h e rfl]

theorem bind_eq_ok {α β : Type} {x : Except String α} {f : α → Except String β} {b : β}
    (h : x >>= f = .ok b) :
    ∃ a, x = .ok a ∧ f a = .ok b := by
  cases x with
  | error message => cases h
  | ok a => exact ⟨a, rfl, h⟩

end

inductive Effect (t : Transaction Payload) (current : Option (ChatEffect Payload)) :
    Outcome Payload → Prop
  | keep {report : Option (ChatEffect Payload)} (hclaim : t.operation.isClaim = true →
    report = none) :
      Effect t current (current, report)
  | write {e' : ChatEffect Payload} (hadvance : Advance t.now current e')
      (hclaim : t.operation.isClaim = true → e'.state = .leased ∧ ∀ e ∈ current,
      e.epoch < e'.epoch) :
      Effect t current (some e', some e')

section

variable {t : Transaction Payload} {current : Option (ChatEffect Payload)}
    {outcome : Outcome Payload}
  {guard : ChatEffect Payload → Bool} {next : ChatEffect Payload → ChatEffect Payload}

theorem effect_of_transactWhen (h : transactWhen guard next current = .ok outcome)
    (hadvance : ∀ e, guard e = true → Advance t.now (some e) (next e))
    (hclaim : t.operation.isClaim = true → ∀ e, (next e).state = .leased ∧
      e.epoch < (next e).epoch) :
    Effect t current outcome := by
  obtain rfl | ⟨e, rfl, hguard, rfl⟩ := transactWhen_eq_ok h
  · exact .keep fun _ => rfl
  · refine .write (hadvance e hguard) fun ht => ⟨(hclaim ht e).1, fun e₀ he₀ => ?_⟩
    cases he₀
    exact (hclaim ht e).2

theorem effect_of_create {e' : ChatEffect Payload} (h : commit none e' = .ok outcome)
    (hclaim : t.operation.isClaim = true → e'.state = .leased) : Effect t none outcome := by
  rw [commit_eq_ok h]
  exact .write .create fun ht => ⟨hclaim ht, fun e he => nomatch he⟩

end

def holds (current : Option (ChatEffect Payload)) (lease : ChatEffectLease) : Bool :=
  current.elim false fun effect => effect.isHeldBy lease

def Operation.ignoresLease (operation : Operation Payload)
    (current : Option (ChatEffect Payload)) : Bool :=
  match operation, current.map ChatEffect.state with
  | .terminalize .., some .pending | .terminalize .., some .accepted | .terminalize ..,
    some .uncertain => true
  | .terminalizeDecided .., some .pending | .terminalizeDecided .., some .accepted
  | .terminalizeDecided .., some .terminal => true
  | _, _ => false

def Operation.withoutLease : Operation Payload → Operation Payload
  | .terminalize receipt _ => .terminalize receipt none
  | .terminalizeDecided receipt _ => .terminalizeDecided receipt none
  | operation => operation

section

variable {current : Option (ChatEffect Payload)} {lease : ChatEffectLease}

theorem terminalizeDecided_of_stale {receipt : ChatEffectReceipt} {now : ℚ}
    (hstale : holds current lease = false)
    (hlease : Operation.ignoresLease (.terminalizeDecided receipt (some lease)) current = false) :
    ChatEffectJournal.terminalizeDecided receipt (some lease) now current = .ok (current, none) := by
  cases current with
  | none => rfl
  | some e =>
    have he : e.isHeldBy lease = false := hstale
    cases hstate : e.state <;>
      simp_all [ChatEffectJournal.terminalizeDecided, Operation.ignoresLease, transactWhen,
      mayTerminalize, ChatEffect.isHeld]

theorem terminalize_of_stale {receipt : ChatEffectReceipt} {now : ℚ}
    (hstale : holds current lease = false)
    (hlease : Operation.ignoresLease (.terminalize receipt (some lease)) current = false) :
    ChatEffectJournal.terminalize receipt (some lease) now current = .ok (current, none) := by
  refine transactWhen_of_refused fun e he => ?_
  cases he
  have he : e.isHeldBy lease = false := hstale
  cases hstate : e.state <;> simp_all [Operation.ignoresLease, mayTerminalize, ChatEffect.isHeld]

end

variable [DecidableEq Payload]

theorem effect_of_execute {t : Transaction Payload} {current : Option (ChatEffect Payload)}
    {outcome : Outcome Payload} (h : t.execute current = .ok outcome) :
    Effect t current outcome := by
  obtain ⟨operation, now⟩ := t
  cases operation with
  | enqueueRead input =>
    obtain ⟨_, _, h⟩ := bind_eq_ok h
    obtain ⟨_, _, h⟩ := bind_eq_ok h
    cases current with
    | none =>
      cases h
      exact .keep fun ht => nomatch ht
    | some existing =>
      obtain ⟨_, _, h⟩ := bind_eq_ok h
      cases h
      exact .keep fun ht => nomatch ht
  | enqueueWrite input =>
    obtain ⟨_, _, h⟩ := bind_eq_ok h
    obtain ⟨_, _, h⟩ := bind_eq_ok h
    cases current with
    | none => exact effect_of_create h fun ht => nomatch ht
    | some existing =>
      cases h
      exact .keep fun _ => rfl
  | enqueueAndClaim input owner leaseMs =>
    obtain ⟨_, _, h⟩ := bind_eq_ok h
    obtain ⟨_, _, h⟩ := bind_eq_ok h
    obtain ⟨_, _, h⟩ := bind_eq_ok h
    obtain ⟨_, _, h⟩ := bind_eq_ok h
    cases current with
    | none => exact effect_of_create h fun _ => rfl
    | some existing =>
      obtain ⟨_, _, h⟩ := bind_eq_ok h
      cases h
      exact .keep fun _ => rfl
  | claim owner leaseMs =>
    obtain ⟨_, _, h⟩ := bind_eq_ok h
    obtain ⟨_, _, h⟩ := bind_eq_ok h
    exact effect_of_transactWhen h (fun e he => .claim he rfl rfl) fun _ e =>
      ⟨rfl, Nat.lt_succ_self _⟩
  | renew lease leaseMs =>
    obtain ⟨_, _, h⟩ := bind_eq_ok h
    exact effect_of_transactWhen h (fun e he => .held (isHeld_of_isHeldBy he) rfl rfl) fun ht =>
      nomatch ht
  | markDispatching lease =>
    refine effect_of_transactWhen h (fun e he => .held ?_ rfl rfl) fun ht => nomatch ht
    simp only [Bool.and_eq_true, decide_eq_true_eq] at he
    simp [ChatEffect.isHeld, he.1.1]
  | recordReceipt lease receipt =>
    exact effect_of_transactWhen h (fun e he => .held (isHeld_of_isHeldBy he) rfl rfl) fun ht =>
      nomatch ht
  | record lease state receipt =>
    exact effect_of_transactWhen h (fun e he => .held (isHeld_of_isHeldBy he) rfl rfl) fun ht =>
      nomatch ht
  | recoverDispatchingAsUncertain onlyIfExpired =>
    refine effect_of_transactWhen h (fun e he => .held ?_ rfl rfl) fun ht => nomatch ht
    simp only [Bool.and_eq_true, decide_eq_true_eq] at he
    simp [ChatEffect.isHeld, he.1]
  | terminalize receipt lease =>
    refine effect_of_transactWhen h (fun e he => .close ?_ rfl rfl rfl) fun ht => nomatch ht
    simp only [Bool.and_eq_true, decide_eq_true_eq] at he
    exact he.1
  | terminalizeDecided receipt lease =>
    simp only [Transaction.execute, ChatEffectJournal.terminalizeDecided] at h
    cases current with
    | none =>
      cases h
      exact .keep fun ht => nomatch ht
    | some e =>
      simp only at h
      split at h
      · cases h
        exact .keep fun ht => nomatch ht
      · cases h
        exact .keep fun ht => nomatch ht
      next hterminal =>
        obtain h | ⟨e₀, he₀, _, h⟩ := transactWhen_eq_ok h
        · rw [h]
          exact .keep fun ht => nomatch ht
        · cases he₀
          rw [h]
          exact .write (.close hterminal rfl rfl rfl) fun ht => nomatch ht

section

variable {current : Option (ChatEffect Payload)} {t : Transaction Payload}
    {effect : ChatEffect Payload}

theorem recordAfter_cases (current : Option (ChatEffect Payload)) (t : Transaction Payload) :
    recordAfter current t = current ∨ ∃ e', recordAfter current t = some e' ∧
      Advance t.now current e' := by
  rw [recordAfter]
  split
  next outcome h =>
    cases effect_of_execute h with
    | keep => exact .inl rfl
    | write hadvance => exact .inr ⟨_, rfl, hadvance⟩
  next => exact .inl rfl

theorem claim_reported (ht : t.operation.isClaim = true) (h : reported current t = some effect) :
    recordAfter current t = some effect ∧ effect.state = .leased ∧
      ∀ e ∈ current, e.epoch < effect.epoch := by
  rw [reported] at h
  split at h
  next outcome hexecute =>
    cases effect_of_execute hexecute with
    | keep hclaim =>
      rw [hclaim ht] at h
      cases h
    | write hadvance hclaim =>
      cases h
      exact ⟨by rw [recordAfter, hexecute], hclaim ht⟩
  next => cases h

theorem recordAfterAll_stable {P : ChatEffect Payload → Prop}
    (hstep : ∀ now e e', P e → Advance now (some e) e' → P e') (later : List (Transaction Payload))
    (h : P effect) : ∃ e', recordAfterAll (some effect) later = some e' ∧ P e' := by
  induction later generalizing effect with
  | nil => exact ⟨effect, rfl, h⟩
  | cons t later ih =>
    rw [recordAfterAll, List.foldl_cons]
    obtain heq | ⟨e', heq, hadvance⟩ := recordAfter_cases (some effect) t
    · rw [heq]
      exact ih h
    · rw [heq]
      exact ih (hstep _ _ _ h hadvance)

end

section

variable {current : Option (ChatEffect Payload)} {t : Transaction Payload} {lease : ChatEffectLease}

theorem execute_of_stale (hcarries : t.operation.lease? = some lease)
    (hstale : holds current lease = false) (hlease : t.operation.ignoresLease current = false)
    {outcome : Outcome Payload} (h : t.execute current = .ok outcome) :
    outcome = (current, none) := by
  have hrefused : ∀ e ∈ current, e.isHeldBy lease = false := by
    intro e he
    cases he
    exact hstale
  obtain ⟨operation, now⟩ := t
  cases operation with
  | enqueueRead => cases hcarries
  | enqueueWrite => cases hcarries
  | enqueueAndClaim => cases hcarries
  | claim => cases hcarries
  | recoverDispatchingAsUncertain => cases hcarries
  | renew =>
    cases hcarries
    obtain ⟨_, _, h⟩ := bind_eq_ok h
    rw [transactWhen_of_refused hrefused] at h
    exact (Except.ok.inj h).symm
  | markDispatching =>
    cases hcarries
    have hleased : ∀ e ∈ current,
        (e.state = .leased && e.owner = some lease.owner && e.epoch = lease.epoch) = false := by
      intro e he
      have := hrefused e he
      simp_all [ChatEffect.isHeldBy, ChatEffect.isHeld]
    exact (Except.ok.inj ((transactWhen_of_refused hleased).symm.trans h)).symm
  | recordReceipt =>
    cases hcarries
    exact (Except.ok.inj ((transactWhen_of_refused hrefused).symm.trans h)).symm
  | record =>
    cases hcarries
    exact (Except.ok.inj ((transactWhen_of_refused hrefused).symm.trans h)).symm
  | terminalize =>
    cases hcarries
    exact (Except.ok.inj ((terminalize_of_stale hstale hlease).symm.trans h)).symm
  | terminalizeDecided =>
    cases hcarries
    exact (Except.ok.inj ((terminalizeDecided_of_stale hstale hlease).symm.trans h)).symm

theorem stale_does_nothing (hcarries : t.operation.lease? = some lease)
    (hstale : holds current lease = false) (hlease : t.operation.ignoresLease current = false) :
    recordAfter current t = current ∧ reported current t = none := by
  cases h : t.execute current with
  | error message => simp [recordAfter, reported, h]
  | ok outcome => simp [recordAfter, reported, h, execute_of_stale hcarries hstale hlease h]

theorem execute_withoutLease (hlease : t.operation.ignoresLease current = true) :
    t.execute current = (⟨t.operation.withoutLease, t.now⟩ : Transaction Payload).execute
      current := by
  obtain ⟨operation, now⟩ := t
  cases current with
  | none => cases operation <;> cases hlease
  | some e =>
    cases operation with
    | terminalize receipt lease =>
      cases hstate : e.state <;>
        simp_all [Operation.ignoresLease, Operation.withoutLease, Transaction.execute,
        terminalize, transactWhen, mayTerminalize, ChatEffect.isHeld]
    | terminalizeDecided receipt lease =>
      cases hstate : e.state <;>
        simp_all [Operation.ignoresLease, Operation.withoutLease, Transaction.execute,
        terminalizeDecided, transactWhen, mayTerminalize, ChatEffect.isHeld]
    | _ => rfl

end

structure Fenced (current : Option (ChatEffect Payload)) : Prop where
  claims_increase : ∀ (t : Transaction Payload) (between : List (Transaction Payload))
    (t' : Transaction Payload)
    (claimed claimed' : ChatEffect Payload), t.operation.isClaim = true →
    t'.operation.isClaim = true →
    reported current t = some claimed → reported (recordAfterAll current (t :: between)) t' =
      some claimed' →
    claimed.epoch < claimed'.epoch
  stale_does_nothing : ∀ (t : Transaction Payload) (lease : ChatEffectLease),
    t.operation.lease? = some lease →
    holds current lease = false → t.operation.ignoresLease current = false →
    recordAfter current t = current ∧ reported current t = none
  ignored_lease : ∀ t : Transaction Payload, t.operation.ignoresLease current = true →
    t.execute current = (⟨t.operation.withoutLease, t.now⟩ : Transaction Payload).execute current
  terminal_stays : ∀ effect ∈ current, effect.state = .terminal →
    ∀ later : List (Transaction Payload),
    ∃ effect', recordAfterAll current later = some effect' ∧ effect'.state = .terminal ∧
      effect'.receipt = effect.receipt
  inbound_is_not_retried : ∀ effect ∈ current, effect.isInbound = true → effect.state = .uncertain →
    ∀ later : List (Transaction Payload), ∃ effect', recordAfterAll current later = some effect' ∧
      effect'.isHeld = false ∧ ∀ t : Transaction Payload, t.operation.isClaim = true →
        reported (recordAfterAll current later) t = none

section

variable {current : Option (ChatEffect Payload)} {effect : ChatEffect Payload}

theorem claims_increase {t t' : Transaction Payload} {between : List (Transaction Payload)}
    {claimed claimed' : ChatEffect Payload} (ht : t.operation.isClaim = true)
    (ht' : t'.operation.isClaim = true) (h : reported current t = some claimed)
    (h' : reported (recordAfterAll current (t :: between)) t' = some claimed') :
    claimed.epoch < claimed'.epoch := by
  rw [recordAfterAll, List.foldl_cons, (claim_reported ht h).1] at h'
  obtain ⟨e, he, hle⟩ := recordAfterAll_stable (P := fun e => claimed.epoch ≤ e.epoch)
    (fun now e e' hle hadvance => hle.trans hadvance.epoch_le) between (le_refl claimed.epoch)
  have hlt := (claim_reported ht' h').2.2 e he
  exact lt_of_le_of_lt hle hlt

theorem terminal_stays (hstate : effect.state = .terminal) (later : List (Transaction Payload)) :
    recordAfterAll (some effect) later = some effect := by
  obtain ⟨e, he, rfl⟩ := recordAfterAll_stable (P := fun e => e = effect)
    (fun now e e' heq hadvance => absurd (heq ▸ hstate) hadvance.not_terminal) later rfl
  exact he

theorem inbound_stays (hinbound : effect.isInbound = true) (hstate : effect.state = .uncertain)
    (later : List (Transaction Payload)) :
    ∃ effect', recordAfterAll (some effect) later = some effect' ∧
      (effect'.state = .uncertain ∨ effect'.state = .terminal) := by
  obtain ⟨e, he, _, hclosed⟩ := recordAfterAll_stable
    (P := fun e => e.isInbound = true ∧ (e.state = .uncertain ∨ e.state = .terminal))
    (fun now e e' h hadvance => by
      obtain ⟨hin, hst | hst⟩ := h
      · exact ⟨(congrArg isInboundKind hadvance.kind_eq).trans hin,
          .inr (hadvance.closes_of_inbound hin hst)⟩
      · exact absurd hst hadvance.not_terminal)
    later ⟨hinbound, .inl hstate⟩
  exact ⟨e, he, hclosed⟩

end

theorem effects_are_fenced (start : Option (ChatEffect Payload))
    (earlier : List (Transaction Payload)) :
    Fenced (recordAfterAll start earlier) where
  claims_increase t between t' claimed claimed' ht ht' h h' := claims_increase ht ht' h h'
  stale_does_nothing t lease := stale_does_nothing
  ignored_lease t := execute_withoutLease
  terminal_stays effect heffect hstate later := by
    rw [Option.mem_def.mp heffect]
    exact ⟨effect, terminal_stays hstate later, hstate, rfl⟩
  inbound_is_not_retried effect heffect hinbound hstate later := by
    rw [Option.mem_def.mp heffect]
    obtain ⟨effect', heq, hclosed⟩ := inbound_stays hinbound hstate later
    refine ⟨effect', heq, by obtain h | h := hclosed <;> simp [ChatEffect.isHeld, h], fun t ht => ?_⟩
    by_contra hne
    obtain ⟨claimed, hreported⟩ := Option.ne_none_iff_exists'.mp hne
    obtain ⟨hafter, hleased, _⟩ := claim_reported ht hreported
    obtain ⟨e, he, hstays⟩ := inbound_stays hinbound hstate (later ++ [t])
    rw [recordAfterAll, List.foldl_append, List.foldl_cons, List.foldl_nil] at he
    cases hafter.symm.trans he
    rw [hleased] at hstays
    obtain h | h := hstays <;> cases h

theorem stale_lease_terminalizes :
    ¬ ∀ (earlier : List (Transaction Unit)) (t : Transaction Unit) (lease : ChatEffectLease),
      t.operation.lease? = some lease → holds (recordAfterAll none earlier) lease = false →
      recordAfter (recordAfterAll none earlier) t = recordAfterAll none earlier ∧
        reported (recordAfterAll none earlier) t = none := by
  intro h
  have hkept := (h [⟨.enqueueWrite ⟨"e", "reply", .slack, none, 1, (), none⟩, 0⟩]
    ⟨.terminalize {} (some ⟨"a", 7⟩), 1⟩ ⟨"a", 7⟩ rfl rfl).2
  cases hkept

end ChatEffectJournal

end JevCode.Sdk
