import JevCode.Data.InsertionMap
import Mathlib.Data.List.Basic
import Mathlib.Order.Basic

/-! `sdk/host/reverse-leases.ts`: the leases under which a connection provides the definitions of a
capability. The state includes the clock and what the callbacks have installed at the host. -/

namespace JevCode.Sdk

open JevCode.Data

def reverseLeaseTtlMs : Int := 15000
def reverseReclaimGraceMs : Int := 15000
def maxReverseOutstanding : Nat := 64
def maxReversePayloadBytes : Nat := 256 * 1024

inductive ReverseLeaseError
  | leaseUnavailable
  | leaseExpired
  | providerLeaseConflict
  | providerRequired
  | notLeaseOwner
  | payloadTooLarge
  | tooManyOutstanding
  | unknownRequest
  | idempotencyConflict
  deriving DecidableEq

structure ProviderLease (Json : Type) where
  uid : Nat
  leaseId : String
  connectionId : String
  capability : String
  definitions : Json
  expiresAt : Int
  graceUntil : Option Int
  active : Bool

structure Registration (Json : Type) where
  connectionId : String
  capability : String
  definitions : Json
  expectedLeaseId : Option String
  idempotencyKey : Option String

structure RegistrationEntry where
  connectionId : String
  fingerprint : String
  leaseUid : Nat

structure OutstandingRequest where
  connectionId : String
  capability : String
  leaseId : String

/-- `canonicalJson` and the hash of `registrationFingerprint`. -/
structure LeaseServices (Json : Type) where
  canonicalJson : Json → String
  registrationFingerprint : String → Json → Option String → String

inductive LeaseNote
  | handedOff (leaseId handoffTo : String)
  | disconnected (connectionId : String) (now : Int)

structure ReverseLeaseRuntime (Json : Type) where
  now : Int
  leaseTtlMs : Int
  leases : InsertionMap String (ProviderLease Json)
  idempotency : InsertionMap String RegistrationEntry
  outstanding : InsertionMap String OutstandingRequest
  installedCapabilities : List String
  host : String → Option Json
  nextUid : Nat
  notes : List LeaseNote

variable {Json : Type}

namespace ProviderLease

def Live (lease : ProviderLease Json) (now : Int) : Prop := lease.active ∧ now < lease.expiresAt

instance (lease : ProviderLease Json) (now : Int) : Decidable (lease.Live now) :=
  inferInstanceAs (Decidable (_ ∧ _))

end ProviderLease

namespace ReverseLeaseRuntime

def new (now : Int) (leaseTtlMs : Option Int) (host : String → Option Json) :
    ReverseLeaseRuntime Json where
  now := now
  leaseTtlMs := leaseTtlMs.getD reverseLeaseTtlMs
  leases := .empty
  idempotency := .empty
  outstanding := .empty
  installedCapabilities := []
  host := host
  nextUid := 0
  notes := []

def installDefinitionsFor (s : ReverseLeaseRuntime Json) (capability : String) (definitions : Json) :
    ReverseLeaseRuntime Json :=
  { s with
    host := fun c => if c = capability then some definitions else s.host c
    installedCapabilities := s.installedCapabilities.insert capability }

def removeDefinitions (s : ReverseLeaseRuntime Json) (capability : String) :
    ReverseLeaseRuntime Json :=
  if capability ∈ s.installedCapabilities then
    { s with
      installedCapabilities := s.installedCapabilities.filter (· ≠ capability)
      host := fun c => if c = capability then none else s.host c }
  else s

def idempotencyKey? (r : Registration Json) : Option String :=
  match r.idempotencyKey with
  | some key => if key = "" then none else some (r.connectionId ++ "\x00" ++ key)
  | none => none

def fingerprint (services : LeaseServices Json) (r : Registration Json) : String :=
  services.registrationFingerprint r.capability r.definitions r.expectedLeaseId

def remember (s : ReverseLeaseRuntime Json) (services : LeaseServices Json) (r : Registration Json)
    (lease : ProviderLease Json) : ReverseLeaseRuntime Json :=
  match idempotencyKey? r with
  | none => s
  | some key =>
    { s with
      idempotency := s.idempotency.set key ⟨r.connectionId, fingerprint services r, lease.uid⟩ }

def replay (s : ReverseLeaseRuntime Json) (services : LeaseServices Json) (r : Registration Json) :
    Option (Except ReverseLeaseError (ProviderLease Json)) :=
  match (idempotencyKey? r).bind s.idempotency.get? with
  | none => none
  | some entry =>
    if entry.fingerprint ≠ fingerprint services r then some (.error .idempotencyConflict)
    else
      match s.leases.get? r.capability with
      | none => none
      | some current =>
        if entry.leaseUid = current.uid ∧ current.Live s.now then some (.ok current) else none

def grant (s : ReverseLeaseRuntime Json) (services : LeaseServices Json) (r : Registration Json)
    (leaseId : String) : Except ReverseLeaseError (ProviderLease Json) × ReverseLeaseRuntime Json :=
  let s := s.installDefinitionsFor r.capability r.definitions
  let lease : ProviderLease Json :=
    { uid := s.nextUid, leaseId := leaseId, connectionId := r.connectionId, capability := r.capability,
      definitions := r.definitions, expiresAt := s.now + s.leaseTtlMs, graceUntil :=
      none, active := true }
  let s := { s with leases := s.leases.set r.capability lease, nextUid := s.nextUid + 1 }
  (.ok lease, s.remember services r lease)

def refresh (s : ReverseLeaseRuntime Json) (services : LeaseServices Json) (r : Registration Json)
    (existing : ProviderLease Json) :
    Except ReverseLeaseError (ProviderLease Json) × ReverseLeaseRuntime Json :=
  let lease :=
    { existing with expiresAt := s.now + s.leaseTtlMs, graceUntil := none, active := true }
  let s := { s with leases := s.leases.set r.capability lease }
  (.ok lease, s.remember services r lease)

def Reclaiming (now : Int) (r : Registration Json) (existing : ProviderLease Json) : Prop :=
  some existing.leaseId = r.expectedLeaseId ∧ ∃ graceUntil ∈ existing.graceUntil, now ≤ graceUntil

def Refreshing (now : Int) (r : Registration Json) (existing : ProviderLease Json) : Prop :=
  existing.active ∧ existing.connectionId = r.connectionId ∧ now < existing.expiresAt

instance (now : Int) (r : Registration Json) (existing : ProviderLease Json) :
    Decidable (Reclaiming now r existing) :=
  inferInstanceAs (Decidable (_ ∧ _))

instance (now : Int) (r : Registration Json) (existing : ProviderLease Json) :
    Decidable (Refreshing now r existing) :=
  inferInstanceAs (Decidable (_ ∧ _))

def registerOver (s : ReverseLeaseRuntime Json) (services : LeaseServices Json)
    (r : Registration Json) (uuid : String) (existing : ProviderLease Json) :
    Except ReverseLeaseError (ProviderLease Json) × ReverseLeaseRuntime Json :=
  if existing.active = false ∧ s.now < existing.expiresAt then
    if existing.connectionId ≠ r.connectionId ∨ some existing.leaseId ≠ r.expectedLeaseId then
      (.error .providerLeaseConflict, s)
    else s.grant services r existing.leaseId
  else if ¬Reclaiming s.now r existing ∧ ¬Refreshing s.now r existing ∧
      existing.connectionId ≠ r.connectionId ∧ s.now < existing.expiresAt then
    (.error .providerLeaseConflict, s)
  else if Refreshing s.now r existing ∧
      services.canonicalJson existing.definitions = services.canonicalJson r.definitions then
    s.refresh services r existing
  else
    s.grant services r
      (if Reclaiming s.now r existing ∨ Refreshing s.now r existing then existing.leaseId else uuid)

def registerProvider (s : ReverseLeaseRuntime Json) (services : LeaseServices Json)
    (r : Registration Json) (uuid : String) :
    Except ReverseLeaseError (ProviderLease Json) × ReverseLeaseRuntime Json :=
  match s.replay services r with
  | some answer => (answer, s)
  | none =>
    match s.leases.get? r.capability with
    | none => s.grant services r uuid
    | some existing =>
      let s := if existing.expiresAt ≤ s.now then s.removeDefinitions existing.capability else s
      s.registerOver services r uuid existing

def owner (s : ReverseLeaseRuntime Json) (connectionId leaseId : String) :
    Option (ProviderLease Json) :=
  ((s.leases.entries.map Prod.snd).find? (·.leaseId = leaseId)).filter fun lease =>
    lease.active && lease.connectionId = connectionId

def heartbeat (s : ReverseLeaseRuntime Json) (connectionId leaseId : String) :
    Except ReverseLeaseError (ProviderLease Json) × ReverseLeaseRuntime Json :=
  match s.owner connectionId leaseId with
  | none => (.error .notLeaseOwner, s)
  | some lease =>
    if lease.expiresAt ≤ s.now then (.error .leaseExpired, s.removeDefinitions lease.capability)
    else
      let lease' := { lease with expiresAt := s.now + s.leaseTtlMs, graceUntil := none }
      (.ok lease', { s with leases := s.leases.set lease.capability lease' })

def cancelForConnection (s : ReverseLeaseRuntime Json) (connectionId : String) :
    ReverseLeaseRuntime Json :=
  { s with outstanding := s.outstanding.filter (·.2.connectionId ≠ connectionId) }

def release (s : ReverseLeaseRuntime Json) (connectionId leaseId : String)
    (handoffTo : Option String) :
    Except ReverseLeaseError (ProviderLease Json) × ReverseLeaseRuntime Json :=
  match s.owner connectionId leaseId with
  | none => (.error .notLeaseOwner, s)
  | some lease =>
    let s := (s.cancelForConnection connectionId).removeDefinitions lease.capability
    match handoffTo.filter (· ≠ "") with
    | some next =>
      let lease' :=
        { lease with
          connectionId := next, expiresAt := s.now + reverseReclaimGraceMs, graceUntil :=
            none, active := false }
      (.ok lease',
        { s with
          leases := s.leases.set lease.capability lease'
          notes := .handedOff lease.leaseId next :: s.notes })
    | none => (.ok lease, { s with leases := s.leases.erase lease.capability })

def disconnect (s : ReverseLeaseRuntime Json) (connectionId : String) : ReverseLeaseRuntime Json :=
  let gone := (s.leases.entries.map Prod.snd).filter (·.connectionId = connectionId)
  let s :=
    { s with
      idempotency := s.idempotency.filter (·.2.connectionId ≠ connectionId)
      leases := s.leases.mapValues fun lease =>
        if lease.connectionId = connectionId then
          { lease with expiresAt := s.now, graceUntil := some (s.now + reverseReclaimGraceMs) }
        else lease
      notes := .disconnected connectionId s.now :: s.notes }
  ((gone.map (·.capability)).foldl removeDefinitions s).cancelForConnection connectionId

def expireStaleLeases (s : ReverseLeaseRuntime Json) : ReverseLeaseRuntime Json :=
  let stale := (s.leases.entries.map Prod.snd).filter (·.expiresAt ≤ s.now)
  (stale.map (·.capability)).foldl removeDefinitions s

def liveLease (s : ReverseLeaseRuntime Json) (capability : String) :
    Option (ProviderLease Json) × ReverseLeaseRuntime Json :=
  match s.leases.get? capability with
  | none => (none, s)
  | some lease =>
    if lease.Live s.now then (some lease, s)
    else (none, if lease.expiresAt ≤ s.now then s.removeDefinitions capability else s)

/-- `request` up to the sending of its frame; `payloadBytes` is the size of the encoded payload. -/
def request (s : ReverseLeaseRuntime Json) (capability : String) (payloadBytes : Nat)
    (aborted : Bool) (id : String) :
    Except ReverseLeaseError (Option (ProviderLease Json)) × ReverseLeaseRuntime Json :=
  if maxReversePayloadBytes < payloadBytes then (.error .payloadTooLarge, s)
  else
    match s.liveLease capability with
    | (none, s) =>
      match s.leases.get? capability with
      | some reservation =>
        if reservation.active = false ∧
          s.now < reservation.expiresAt then (.error .leaseUnavailable, s)
        else (.error .providerRequired, s)
      | none => (.error .providerRequired, s)
    | (some lease, s) =>
      if aborted then (.ok none, s)
      else if maxReverseOutstanding ≤ s.outstanding.entries.length
        then (.error .tooManyOutstanding, s)
      else
        (.ok (some lease),
          { s with
          outstanding := s.outstanding.set id ⟨lease.connectionId, capability, lease.leaseId⟩ })

/-- `respond`, or a request that is taken back because it was aborted or could not be delivered. -/
def takeOutstanding (s : ReverseLeaseRuntime Json) (id : String) : ReverseLeaseRuntime Json :=
  { s with outstanding := s.outstanding.erase id }

def respond (s : ReverseLeaseRuntime Json) (connectionId id leaseId : String) (frameBytes : Nat) :
    Except ReverseLeaseError Unit × ReverseLeaseRuntime Json :=
  if maxReversePayloadBytes < frameBytes then (.error .payloadTooLarge, s)
  else
    match s.outstanding.get? id with
    | none => (.error .unknownRequest, s)
    | some request =>
      if request.connectionId ≠ connectionId ∨
        request.leaseId ≠ leaseId then (.error .notLeaseOwner, s)
      else (.ok (), s.takeOutstanding id)

def dispose (s : ReverseLeaseRuntime Json) : ReverseLeaseRuntime Json :=
  { s.installedCapabilities.foldl removeDefinitions s with
    outstanding := .empty, leases := .empty, idempotency := .empty }

end ReverseLeaseRuntime

inductive LeaseEvent (Json : Type)
  | registerProvider (r : Registration Json) (uuid : String)
  | heartbeat (connectionId leaseId : String)
  | release (connectionId leaseId : String) (handoffTo : Option String)
  | disconnect (connectionId : String)
  | sweep
  | advance (ms : Nat)
  | getLease (capability : String)
  | request (capability : String) (payloadBytes : Nat) (aborted : Bool) (id : String)
  | takeBack (id : String)
  | respond (connectionId id leaseId : String) (frameBytes : Nat)
  | dispose

namespace ReverseLeaseRuntime

def step (services : LeaseServices Json) (s : ReverseLeaseRuntime Json) :
    LeaseEvent Json → ReverseLeaseRuntime Json
  | .registerProvider r uuid => (s.registerProvider services r uuid).2
  | .heartbeat connectionId leaseId => (s.heartbeat connectionId leaseId).2
  | .release connectionId leaseId handoffTo => (s.release connectionId leaseId handoffTo).2
  | .disconnect connectionId => s.disconnect connectionId
  | .sweep => s.expireStaleLeases
  | .advance ms => { s with now := s.now + ms }
  | .getLease capability => (s.liveLease capability).2
  | .request capability payloadBytes aborted id => (s.request capability payloadBytes aborted id).2
  | .takeBack id => s.takeOutstanding id
  | .respond connectionId id leaseId frameBytes => (s.respond connectionId id leaseId frameBytes).2
  | .dispose => s.dispose

end ReverseLeaseRuntime

namespace ReverseLeaseRuntime

structure LeaseOk (s : ReverseLeaseRuntime Json) (capability : String)
    (lease : ProviderLease Json) : Prop where
  capability_eq : lease.capability = capability
  installed : lease.Live s.now → capability ∈ s.installedCapabilities ∧
    s.host capability = some lease.definitions
  grace : ∀ graceUntil ∈ lease.graceUntil, lease.expiresAt ≤ s.now ∧
    ∃ t, .disconnected lease.connectionId t ∈ s.notes ∧ graceUntil = t + reverseReclaimGraceMs
  reserved : lease.active = false → .handedOff lease.leaseId lease.connectionId ∈ s.notes

def Inv (s : ReverseLeaseRuntime Json) : Prop :=
  ∀ capability lease, s.leases.get? capability = some lease → s.LeaseOk capability lease

variable {s s' : ReverseLeaseRuntime Json} {services : LeaseServices Json} {capability : String}
  {lease : ProviderLease Json}

theorem Live.of_le {now now' : Int} (h : now ≤ now') (hlive : lease.Live now') : lease.Live now :=
  ⟨hlive.1, Int.lt_of_le_of_lt h hlive.2⟩

theorem LeaseOk.mono (h : s.LeaseOk capability lease) (hnow : s.now ≤ s'.now)
    (hnotes : s.notes ⊆ s'.notes)
    (hkeep : lease.Live s'.now →
    (capability ∈ s.installedCapabilities → capability ∈ s'.installedCapabilities) ∧
      s'.host capability = s.host capability) : s'.LeaseOk capability lease := by
  refine ⟨h.capability_eq, fun hlive => ?_, fun graceUntil hgrace => ?_,
    fun hactive => hnotes (h.reserved hactive)⟩
  · obtain ⟨hmem, hhost⟩ := h.installed (Live.of_le hnow hlive)
    exact ⟨(hkeep hlive).1 hmem, (hkeep hlive).2.trans hhost⟩
  · obtain ⟨hexpired, t, ht, heq⟩ := h.grace graceUntil hgrace
    exact ⟨Int.le_trans hexpired hnow, t, hnotes ht, heq⟩

theorem Inv.outstanding (h : s.Inv) (outstanding : InsertionMap String OutstandingRequest) :
    Inv { s with outstanding := outstanding } :=
  fun capability lease hget =>
    (h capability lease hget).mono (Int.le_refl _) (List.Subset.refl _) fun _ => ⟨id, rfl⟩

@[simp] theorem removeDefinitions_leases : (s.removeDefinitions capability).leases = s.leases := by
  unfold removeDefinitions
  split <;> rfl

@[simp] theorem removeDefinitions_now : (s.removeDefinitions capability).now = s.now := by
  unfold removeDefinitions
  split <;> rfl

@[simp] theorem removeDefinitions_notes : (s.removeDefinitions capability).notes = s.notes := by
  unfold removeDefinitions
  split <;> rfl

theorem removeDefinitions_other {c : String} (hne : c ≠ capability) :
    (c ∈ s.installedCapabilities → c ∈ (s.removeDefinitions capability).installedCapabilities) ∧
    (s.removeDefinitions capability).host c = s.host c := by
  unfold removeDefinitions
  split
  · refine ⟨fun hmem => List.mem_filter.mpr ⟨hmem, by simpa using hne⟩, if_neg hne⟩
  · exact ⟨id, rfl⟩

theorem Inv.removeDefinitions (h : s.Inv)
    (hdead : ∀ lease, s.leases.get? capability = some lease → ¬lease.Live s.now) :
    (s.removeDefinitions capability).Inv := by
  intro c lease hget
  rw [removeDefinitions_leases] at hget
  refine (h c lease hget).mono (by simp) (by simp) fun hlive => ?_
  refine removeDefinitions_other fun heq => ?_
  rw [removeDefinitions_now] at hlive
  exact hdead lease (heq ▸ hget) hlive

theorem Inv.removeAll {capabilities : List String} (h : s.Inv)
    (hdead : ∀ c ∈ capabilities, ∀ lease, s.leases.get? c = some lease → ¬lease.Live s.now) :
    (capabilities.foldl ReverseLeaseRuntime.removeDefinitions s).Inv := by
  induction capabilities generalizing s with
  | nil => exact h
  | cons c capabilities ih =>
    refine ih (h.removeDefinitions (hdead c List.mem_cons_self)) fun c' hc' => ?_
    simpa using hdead c' (List.mem_cons_of_mem _ hc')

theorem Inv.setLease (h : s.Inv)
    (hleases : s'.leases = s.leases.set capability lease) (hnow : s'.now = s.now)
    (hnotes : s.notes ⊆ s'.notes)
    (hother : ∀ c, c ≠ capability → (c ∈ s.installedCapabilities → c ∈ s'.installedCapabilities) ∧
      s'.host c = s.host c)
    (hlease : s'.LeaseOk capability lease) : s'.Inv := by
  intro c l hget
  rw [hleases, InsertionMap.get?_set] at hget
  split at hget
  next heq =>
    cases hget
    exact heq ▸ hlease
  next hne => exact (h c l hget).mono (Int.le_of_eq hnow.symm) hnotes fun _ => hother c hne

@[simp] theorem remember_leases (r : Registration Json) :
    (s.remember services r lease).leases = s.leases := by
  unfold remember
  split <;> rfl

theorem Inv.remember (h : s.Inv) (r : Registration Json) : (s.remember services r lease).Inv := by
  unfold ReverseLeaseRuntime.remember
  split
  · exact h
  · exact fun capability lease hget =>
      (h capability lease hget).mono (Int.le_refl _) (List.Subset.refl _) fun _ => ⟨id, rfl⟩

theorem installDefinitionsFor_other {definitions : Json} {c : String} (hne : c ≠ capability) :
    (c ∈ s.installedCapabilities →
      c ∈ (s.installDefinitionsFor capability definitions).installedCapabilities) ∧
    (s.installDefinitionsFor capability definitions).host c = s.host c :=
  ⟨List.mem_insert_of_mem, if_neg hne⟩

theorem Inv.grant (h : s.Inv) (r : Registration Json) (leaseId : String) :
    (s.grant services r leaseId).2.Inv := by
  refine Inv.remember ?_ r
  refine h.setLease rfl rfl (List.Subset.refl _) (fun c hne => installDefinitionsFor_other hne) ?_
  exact ⟨rfl, fun _ => ⟨List.mem_insert_self, if_pos rfl⟩, nofun, nofun⟩

theorem Inv.refresh {r : Registration Json} {existing : ProviderLease Json} (h : s.Inv)
    (hget : s.leases.get? r.capability = some existing) (hrefresh : Refreshing s.now r existing) :
    (s.refresh services r existing).2.Inv := by
  have hok := h r.capability existing hget
  refine Inv.remember ?_ r
  refine h.setLease rfl rfl (List.Subset.refl _) (fun _ _ => ⟨id, rfl⟩) ?_
  exact ⟨hok.capability_eq, fun _ => hok.installed ⟨hrefresh.1, hrefresh.2.2⟩, nofun, nofun⟩

theorem Inv.registerOver {r : Registration Json} {existing : ProviderLease Json} (h : s.Inv)
    (hget : s.leases.get? r.capability = some existing) (uuid : String) :
    (s.registerOver services r uuid existing).2.Inv := by
  unfold ReverseLeaseRuntime.registerOver
  split_ifs with hpending hnamed hconflict hrefresh
  · exact h
  · exact h.grant r _
  · exact h
  · exact h.refresh hget hrefresh.1
  · exact h.grant r _
  · exact h.grant r _

theorem Inv.removeExpired (h : s.Inv) (hget : s.leases.get? capability = some lease) :
    (if lease.expiresAt ≤ s.now then s.removeDefinitions lease.capability else s).Inv := by
  split
  next hexpired =>
    rw [(h capability lease hget).capability_eq]
    refine h.removeDefinitions fun lease' hget' hlive => ?_
    cases hget.symm.trans hget'
    exact Int.not_lt.mpr hexpired hlive.2
  next => exact h

theorem removeExpired_leases :
    (if lease.expiresAt ≤ s.now then s.removeDefinitions lease.capability
      else s).leases = s.leases := by
  split
  · exact removeDefinitions_leases
  · rfl

theorem removeExpired_now :
    (if lease.expiresAt ≤ s.now then s.removeDefinitions lease.capability else s).now = s.now := by
  split
  · exact removeDefinitions_now
  · rfl

theorem Inv.registerProvider (h : s.Inv) (r : Registration Json) (uuid : String) :
    (s.registerProvider services r uuid).2.Inv := by
  unfold ReverseLeaseRuntime.registerProvider
  split
  · exact h
  · split
    · exact h.grant r uuid
    next existing hget =>
      refine (h.removeExpired hget).registerOver ?_ uuid
      rw [removeExpired_leases]
      exact hget

theorem owner_some {connectionId leaseId : String} (h : s.Inv)
    (howner : s.owner connectionId leaseId = some lease) :
    s.leases.get? lease.capability = some lease ∧ lease.active ∧
      lease.connectionId = connectionId := by
  obtain ⟨hfind, hheld⟩ := Option.filter_eq_some_iff.mp howner
  rw [Bool.and_eq_true, decide_eq_true_eq] at hheld
  obtain ⟨⟨c, l⟩, hmem, rfl⟩ := List.mem_map.mp (List.mem_of_find?_eq_some hfind)
  have hget := InsertionMap.mem_entries.mp hmem
  rw [(h c l hget).capability_eq]
  exact ⟨hget, hheld⟩

theorem Inv.heartbeat (h : s.Inv) (connectionId leaseId : String) :
    (s.heartbeat connectionId leaseId).2.Inv := by
  unfold ReverseLeaseRuntime.heartbeat
  split
  · exact h
  next lease howner =>
    obtain ⟨hget, hactive, -⟩ := owner_some h howner
    have hok := h lease.capability lease hget
    split
    next hexpired => simpa only [if_pos hexpired] using h.removeExpired hget
    next hexpired =>
      refine h.setLease rfl rfl (List.Subset.refl _) (fun _ _ => ⟨id, rfl⟩) ?_
      exact ⟨rfl, fun _ => hok.installed ⟨hactive, Int.not_le.mp hexpired⟩, nofun, fun hfalse =>
        absurd hactive (Bool.eq_false_iff.mp hfalse)⟩

theorem Inv.release (h : s.Inv) (connectionId leaseId : String) (handoffTo : Option String) :
    (s.release connectionId leaseId handoffTo).2.Inv := by
  unfold ReverseLeaseRuntime.release
  split
  · exact h
  next lease howner =>
    have hcancel : (s.cancelForConnection connectionId).Inv := h.outstanding _
    obtain ⟨hget, -, -⟩ := owner_some h howner
    have hother := fun c (hne : c ≠ lease.capability) =>
      removeDefinitions_other (s := s.cancelForConnection connectionId) hne
    split
    next next hnext =>
      dsimp only
      refine hcancel.setLease (by rw [removeDefinitions_leases]) removeDefinitions_now ?_ hother ?_
      · exact fun note hnote => List.mem_cons_of_mem _ (by rwa [removeDefinitions_notes])
      · exact ⟨rfl, fun hlive => absurd hlive.1 Bool.false_ne_true, nofun,
          fun _ => List.mem_cons_self⟩
    next =>
      intro c l hc
      dsimp only at hc
      rw [removeDefinitions_leases, InsertionMap.get?_erase] at hc
      split at hc
      · cases hc
      next hne =>
        refine (hcancel c l hc).mono (Int.le_of_eq removeDefinitions_now.symm) ?_ fun _ =>
          hother c hne
        exact fun note hnote => by rwa [removeDefinitions_notes]

theorem Inv.get?_of_mem_filter (h : s.Inv) {p : ProviderLease Json → Bool}
    (hmem : capability ∈ ((s.leases.entries.map Prod.snd).filter p).map (·.capability)) :
    ∃ lease, s.leases.get? capability = some lease ∧ p lease := by
  obtain ⟨lease, hlease, rfl⟩ := List.mem_map.mp hmem
  obtain ⟨hvalue, hp⟩ := List.mem_filter.mp hlease
  obtain ⟨⟨c, l⟩, hentry, rfl⟩ := List.mem_map.mp hvalue
  have hget := InsertionMap.mem_entries.mp hentry
  exact ⟨l, by rw [(h c l hget).capability_eq, hget], hp⟩

theorem Inv.disconnect (h : s.Inv) (connectionId : String) : (s.disconnect connectionId).Inv := by
  unfold ReverseLeaseRuntime.disconnect
  refine Inv.outstanding (Inv.removeAll ?_ ?_) _
  · intro c l hget
    simp only [InsertionMap.get?_mapValues, Option.map_eq_some_iff] at hget
    obtain ⟨lease, hget, rfl⟩ := hget
    have hok := h c lease hget
    split
    next hgone =>
      refine ⟨hok.capability_eq, fun hlive => absurd hlive.2 (Int.lt_irrefl _), ?_, ?_⟩
      · rintro graceUntil ⟨⟩
        exact ⟨Int.le_refl _, s.now, hgone ▸ List.mem_cons_self, rfl⟩
      · exact fun hactive => List.mem_cons_of_mem _ (hok.reserved hactive)
    next => exact hok.mono (Int.le_refl _) (List.subset_cons_self _ _) fun _ => ⟨id, rfl⟩
  · intro c hc l hget hlive
    obtain ⟨gone, hget', hgone⟩ := h.get?_of_mem_filter hc
    simp only [InsertionMap.get?_mapValues, hget', Option.map_some, if_pos (of_decide_eq_true hgone),
      Option.some.injEq] at hget
    exact absurd (hget ▸ hlive.2) (Int.lt_irrefl _)

theorem Inv.expireStaleLeases (h : s.Inv) : s.expireStaleLeases.Inv := by
  refine h.removeAll fun c hc lease hget hlive => ?_
  obtain ⟨stale, hget', hstale⟩ := h.get?_of_mem_filter hc
  cases hget.symm.trans hget'
  exact Int.not_lt.mpr (of_decide_eq_true hstale) hlive.2

theorem Inv.liveLease (h : s.Inv) (capability : String) : (s.liveLease capability).2.Inv := by
  unfold ReverseLeaseRuntime.liveLease
  split
  · exact h
  next lease hget =>
    split
    · exact h
    · have hremoved := h.removeExpired hget
      rwa [(h capability lease hget).capability_eq] at hremoved

theorem Inv.request (h : s.Inv) (capability : String) (payloadBytes : Nat) (aborted : Bool)
    (id : String) :
    (s.request capability payloadBytes aborted id).2.Inv := by
  unfold ReverseLeaseRuntime.request
  have hlive := h.liveLease capability
  split
  · exact h
  · split
    next s' heq =>
      rw [heq] at hlive
      split
      · split <;> exact hlive
      · exact hlive
    next lease s' heq =>
      rw [heq] at hlive
      split_ifs
      · exact hlive
      · exact hlive
      · exact hlive.outstanding _

theorem Inv.respond (h : s.Inv) (connectionId id leaseId : String) (frameBytes : Nat) :
    (s.respond connectionId id leaseId frameBytes).2.Inv := by
  unfold ReverseLeaseRuntime.respond
  split
  · exact h
  · split
    · exact h
    · split
      · exact h
      · exact h.outstanding _

theorem Inv.step (h : s.Inv) (event : LeaseEvent Json) : (s.step services event).Inv := by
  cases event with
  | registerProvider r uuid => exact h.registerProvider r uuid
  | heartbeat connectionId leaseId => exact h.heartbeat connectionId leaseId
  | release connectionId leaseId handoffTo => exact h.release connectionId leaseId handoffTo
  | disconnect connectionId => exact h.disconnect connectionId
  | sweep => exact h.expireStaleLeases
  | advance ms =>
    exact fun capability lease hget =>
      (h capability lease hget).mono (Int.le_add_of_nonneg_right (Int.natCast_nonneg _))
      (List.Subset.refl _) fun _ => ⟨id, rfl⟩
  | getLease capability => exact h.liveLease capability
  | request capability payloadBytes aborted id => exact h.request capability payloadBytes aborted id
  | takeBack id => exact h.outstanding _
  | respond connectionId id leaseId frameBytes => exact h.respond connectionId id leaseId frameBytes
  | dispose => exact fun capability lease hget => nomatch hget

theorem run_inv (services : LeaseServices Json) (now : Int) (leaseTtlMs : Option Int)
    (host : String → Option Json) (events : List (LeaseEvent Json)) :
    (events.foldl (step services) (new now leaseTtlMs host)).Inv := by
  have hrun : ∀ s : ReverseLeaseRuntime Json, s.Inv →
      (events.foldl (ReverseLeaseRuntime.step services) s).Inv := by
    induction events with
    | nil => exact fun _ => id
    | cons event events ih => exact fun s h => ih _ (h.step event)
  exact hrun _ nofun

theorem grant_leases (services : LeaseServices Json) (r : Registration Json) (leaseId : String) :
    ∃ lease', (s.grant services r leaseId).2.leases = s.leases.set r.capability lease' ∧
      lease'.leaseId = leaseId ∧
      lease'.connectionId = r.connectionId :=
  ⟨_, remember_leases r, rfl, rfl⟩

theorem registerProvider_other (services : LeaseServices Json) {r : Registration Json} (h : s.Inv)
    (uuid : String) (hget : s.leases.get? r.capability = some lease)
    (hother : lease.connectionId ≠ r.connectionId) :
    (s.registerProvider services r uuid).2.leases = s.leases ∨
    lease.expiresAt ≤ s.now ∧ ∃ lease',
      (s.registerProvider services r uuid).2.leases = s.leases.set r.capability lease' ∧
      (lease'.leaseId = uuid ∨ Reclaiming s.now r lease) := by
  unfold registerProvider
  split
  · exact .inl rfl
  · rw [hget]
    dsimp only
    unfold registerOver
    rw [removeExpired_now]
    have hnot : ¬Refreshing s.now r lease := fun hrefresh => hother hrefresh.2.1
    have hreclaim : Reclaiming s.now r lease → lease.expiresAt ≤ s.now := by
      rintro ⟨-, graceUntil, hgrace, -⟩
      exact ((h r.capability lease hget).grace graceUntil hgrace).1
    split
    next hpending =>
      rw [if_pos (.inl hother)]
      exact .inl removeExpired_leases
    next hpending =>
      split
      · exact .inl removeExpired_leases
      next hconflict =>
        rw [if_neg fun hrefresh => hnot hrefresh.1]
        have hexpired : lease.expiresAt ≤ s.now := by
          by_contra hlive
          exact hconflict ⟨fun hr => hlive (hreclaim hr), hnot, hother, Int.not_le.mp hlive⟩
        obtain ⟨lease', hleases, hid, -⟩ :=
          grant_leases (s :=
            if lease.expiresAt ≤ s.now then s.removeDefinitions lease.capability else s) services r
            (if Reclaiming s.now r lease ∨ Refreshing s.now r lease then lease.leaseId else uuid)
        refine .inr ⟨hexpired, lease', by rw [hleases, removeExpired_leases], ?_⟩
        by_cases hr : Reclaiming s.now r lease
        · exact .inr hr
        · rw [hid, if_neg (not_or.mpr ⟨hr, hnot⟩)]
          exact .inl rfl

end ReverseLeaseRuntime

/-- In every run, a registration of another connection leaves a lease alone that has not expired
(whether it is live or reserved by a hand-off), a reserved lease is reserved for a connection that a
hand-off named, an expired lease passes on under its id only to a connection that presents the id
within the grace period after a disconnect, and the definitions of a live lease are installed. -/
theorem leases_are_exclusive (services : LeaseServices Json) (now : Int) (leaseTtlMs : Option Int)
    (host : String → Option Json) (events : List (LeaseEvent Json)) :
    let s := events.foldl (ReverseLeaseRuntime.step services) (.new now leaseTtlMs host)
    (∀ (r : Registration Json) (uuid : String) (lease : ProviderLease Json),
      s.leases.get? r.capability = some lease → lease.connectionId ≠ r.connectionId →
      let s' := s.step services (.registerProvider r uuid)
      (s.now < lease.expiresAt → s'.leases = s.leases) ∧
      ∀ lease', s'.leases.get? r.capability = some lease' → lease'.connectionId = r.connectionId →
        lease'.leaseId = lease.leaseId → lease.leaseId ≠ uuid →
        r.expectedLeaseId = some lease.leaseId ∧ ∃ t, .disconnected lease.connectionId t ∈ s.notes ∧
          s.now ≤ t + reverseReclaimGraceMs) ∧
    ∀ capability lease, s.leases.get? capability = some lease →
      (lease.active = false → .handedOff lease.leaseId lease.connectionId ∈ s.notes) ∧
      (lease.Live s.now →
        capability ∈ s.installedCapabilities ∧ s.host capability = some lease.definitions) := by
  intro s
  have hinv : s.Inv := ReverseLeaseRuntime.run_inv services now leaseTtlMs host events
  refine ⟨fun r uuid lease hget hother => ?_, fun capability lease hget => ?_⟩
  · have hcases := ReverseLeaseRuntime.registerProvider_other services hinv uuid hget hother
    refine ⟨fun hlive => ?_, fun lease' hget' hconnection hid hfresh => ?_⟩
    · exact hcases.resolve_right fun hset => Int.not_lt.mpr hset.1 hlive
    · obtain hsame | ⟨-, lease'', hset, hnew⟩ := hcases
      · -- the lease is still that of the other connection
        change (s.registerProvider services r uuid).2.leases.get? r.capability = some lease' at hget'
        rw [hsame, hget] at hget'
        cases hget'
        exact absurd hconnection hother
      · change (s.registerProvider services r uuid).2.leases.get? r.capability = some lease' at hget'
        rw [hset, InsertionMap.get?_set, if_pos rfl] at hget'
        cases hget'
        obtain ⟨hexpected, graceUntil, hgrace, hle⟩ := hnew.resolve_left fun h =>
          hfresh (hid.symm.trans h)
        obtain ⟨-, t, ht, rfl⟩ := (hinv r.capability lease hget).grace graceUntil hgrace
        exact ⟨hexpected.symm, t, ht, hle⟩
  · exact ⟨(hinv capability lease hget).reserved, (hinv capability lease hget).installed⟩

end JevCode.Sdk
