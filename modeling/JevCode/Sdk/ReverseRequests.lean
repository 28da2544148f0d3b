import JevCode.Sdk.ReverseLeases

namespace JevCode.Sdk

open JevCode.Data

variable {Json : Type}

namespace ReverseLeaseRuntime

def CancelsOwn (services : LeaseServices Json) (s : ReverseLeaseRuntime Json)
    (event : LeaseEvent Json) : Prop :=
  ∀ connectionId leaseId handoffTo, event = .release connectionId leaseId handoffTo →
    ∀ id request, s.outstanding.get? id = some request →
      (s.step services event).outstanding.get? id = none → request.leaseId = leaseId

def Current (s : ReverseLeaseRuntime Json) : Prop :=
  ∀ id request lease, s.outstanding.get? id = some request →
    s.leases.get? request.capability = some lease →
    lease.connectionId = request.connectionId

/-- Requests are tied to their lease in every state and by every step of a run. -/
def Tied (services : LeaseServices Json) : ReverseLeaseRuntime Json → List (LeaseEvent Json) → Prop
  | s, [] => s.Current
  | s, event :: events =>
    s.Current ∧ s.CancelsOwn services event ∧ Tied services (s.step services event) events

def TakesOver (services : LeaseServices Json) (s : ReverseLeaseRuntime Json)
    (r : Registration Json) : Prop :=
  s.replay services r = none ∧ ∃ existing, s.leases.get? r.capability = some existing ∧
    existing.connectionId ≠ r.connectionId ∧ existing.expiresAt ≤ s.now

def Considerate (services : LeaseServices Json) (s : ReverseLeaseRuntime Json) :
    LeaseEvent Json → Prop
  | .release connectionId leaseId _ => (s.owner connectionId leaseId).isSome →
      ∀ id request, s.outstanding.get? id = some request → request.connectionId = connectionId →
        request.leaseId = leaseId
  | .registerProvider r _ => s.TakesOver services r →
      ∀ id request, s.outstanding.get? id = some request → request.capability ≠ r.capability
  | _ => True

def ConsiderateRun (services : LeaseServices Json) :
    ReverseLeaseRuntime Json → List (LeaseEvent Json) → Prop
  | _, [] => True
  | s, event :: events =>
    s.Considerate services event ∧ ConsiderateRun services (s.step services event) events

def Held (s : ReverseLeaseRuntime Json) : Prop :=
  ∀ id request, s.outstanding.get? id = some request →
    ∃ lease, s.leases.get? request.capability = some lease ∧
    lease.connectionId = request.connectionId ∧ lease.active ∧ lease.graceUntil = none

variable {s s' : ReverseLeaseRuntime Json} {services : LeaseServices Json}
    {capability connectionId leaseId : String}
  {lease : ProviderLease Json} {event : LeaseEvent Json}

theorem Held.current (h : s.Held) : s.Current := by
  intro id request lease hrequest hlease
  obtain ⟨lease', hget, hconnection, -⟩ := h id request hrequest
  cases hlease.symm.trans hget
  exact hconnection

theorem Held.mono (h : s.Held) (hleases : s'.leases = s.leases)
    (hmem : ∀ id request, s'.outstanding.get? id = some request →
      s.outstanding.get? id = some request) : s'.Held := by
  intro id request hrequest
  rw [hleases]
  exact h id request (hmem id request hrequest)

@[simp] theorem removeDefinitions_outstanding :
    (s.removeDefinitions capability).outstanding = s.outstanding := by
  unfold removeDefinitions
  split <;> rfl

@[simp] theorem remember_outstanding (r : Registration Json) :
    (s.remember services r lease).outstanding = s.outstanding := by
  unfold remember
  split <;> rfl

theorem removeAll_frame (capabilities : List String) (s : ReverseLeaseRuntime Json) :
    (capabilities.foldl removeDefinitions s).leases = s.leases ∧
      (capabilities.foldl removeDefinitions s).outstanding = s.outstanding := by
  induction capabilities generalizing s with
  | nil => exact ⟨rfl, rfl⟩
  | cons c capabilities ih =>
    obtain ⟨hleases, houtstanding⟩ := ih (s.removeDefinitions c)
    exact ⟨hleases.trans removeDefinitions_leases, houtstanding.trans removeDefinitions_outstanding⟩

theorem removeExpired_outstanding :
    (if lease.expiresAt ≤ s.now then s.removeDefinitions lease.capability
      else s).outstanding = s.outstanding := by
  split
  · exact removeDefinitions_outstanding
  · rfl

theorem liveLease_frame (s : ReverseLeaseRuntime Json) (capability : String) :
    (s.liveLease capability).2.leases = s.leases ∧
    (s.liveLease capability).2.outstanding = s.outstanding := by
  unfold liveLease
  split
  · exact ⟨rfl, rfl⟩
  · split
    · exact ⟨rfl, rfl⟩
    · dsimp only
      split
      · exact ⟨removeDefinitions_leases, removeDefinitions_outstanding⟩
      · exact ⟨rfl, rfl⟩

theorem get?_cancelForConnection (s : ReverseLeaseRuntime Json) (connectionId id : String)
    (request : OutstandingRequest) :
    (s.cancelForConnection connectionId).outstanding.get? id = some request ↔
      s.outstanding.get? id = some request ∧ request.connectionId ≠ connectionId := by
  rw [← InsertionMap.mem_entries, ← InsertionMap.mem_entries]
  simp [cancelForConnection, InsertionMap.filter]

theorem Held.setLease (h : s.Held) (hleases : s'.leases = s.leases.set capability lease)
    (houtstanding : s'.outstanding = s.outstanding) (hactive : lease.active)
    (hgrace : lease.graceUntil = none)
    (hconnection : ∀ id request, s.outstanding.get? id = some request →
    request.capability = capability →
      lease.connectionId = request.connectionId) : s'.Held := by
  intro id request hrequest
  rw [houtstanding] at hrequest
  rw [hleases, InsertionMap.get?_set]
  split
  next heq => exact ⟨lease, rfl, hconnection id request hrequest heq, hactive, hgrace⟩
  next => exact h id request hrequest

theorem Held.grant (h : s.Held) (r : Registration Json) (leaseId : String)
    (hconnection : ∀ id request, s.outstanding.get? id = some request →
      request.capability = r.capability →
      r.connectionId = request.connectionId) : (s.grant services r leaseId).2.Held :=
  h.setLease (remember_leases r) (remember_outstanding r) rfl rfl hconnection

theorem Held.connection_eq (h : s.Held) (hget : s.leases.get? capability = some lease) {id : String}
    {request : OutstandingRequest} (hrequest : s.outstanding.get? id = some request)
    (hcapability : request.capability = capability) : lease.connectionId = request.connectionId :=
  h.current id request lease hrequest (hcapability ▸ hget)

theorem Held.registerOver (h : s.Held) {r : Registration Json} (uuid : String)
    (hget : s.leases.get? r.capability = some lease)
    (hfree : lease.connectionId ≠ r.connectionId → lease.expiresAt ≤ s.now →
      ∀ id request, s.outstanding.get? id = some request → request.capability ≠ r.capability) :
    (s.registerOver services r uuid lease).2.Held := by
  have hsame : lease.connectionId = r.connectionId →
      ∀ id request, s.outstanding.get? id = some request →
      request.capability = r.capability → r.connectionId = request.connectionId :=
    fun heq id request hrequest hcapability => heq ▸ h.connection_eq hget hrequest hcapability
  unfold ReverseLeaseRuntime.registerOver
  split
  · split
    · exact h
    next hnamed =>
      exact h.grant r _ (hsame (not_ne_iff.mp (not_or.mp hnamed).1))
  · split
    · exact h
    next hconflict =>
      split
      next hrefresh =>
        exact h.setLease (remember_leases r) (remember_outstanding r) rfl rfl
          fun id request hrequest hcapability => h.connection_eq hget hrequest hcapability
      next hrefresh =>
        refine h.grant r _ ?_
        by_cases hconnection : lease.connectionId = r.connectionId
        · exact hsame hconnection
        · intro id request hrequest hcapability
          by_cases hexpired : lease.expiresAt ≤ s.now
          · exact absurd hcapability (hfree hconnection hexpired id request hrequest)
          · -- an unexpired lease of another connection is only reclaimed in its grace period
            obtain ⟨lease', hget', -, -, hnograce⟩ := h id request hrequest
            rw [hcapability] at hget'
            cases hget.symm.trans hget'
            refine absurd ⟨?_, ?_, hconnection, Int.not_le.mp hexpired⟩ hconflict
            · rintro ⟨-, graceUntil, hgrace, -⟩
              rw [hnograce] at hgrace
              cases hgrace
            · exact fun hr => hconnection hr.2.1

theorem Held.registerProvider (h : s.Held) {r : Registration Json} (uuid : String)
    (hconsiderate : s.Considerate services (.registerProvider r uuid)) :
    (s.registerProvider services r uuid).2.Held := by
  unfold ReverseLeaseRuntime.registerProvider
  split
  · exact h
  next hreplay =>
    split
    next hnone =>
      refine h.grant r uuid fun id request hrequest hcapability => ?_
      obtain ⟨lease, hget, -⟩ := h id request hrequest
      rw [hcapability, hnone] at hget
      cases hget
    next existing hget =>
      have hheld : (if existing.expiresAt ≤ s.now then s.removeDefinitions existing.capability
          else s).Held :=
        h.mono removeExpired_leases fun id request hrequest => by
          rwa [removeExpired_outstanding] at hrequest
      refine hheld.registerOver uuid (by rwa [removeExpired_leases]) fun hne hexpired => ?_
      rw [removeExpired_now] at hexpired
      rw [removeExpired_outstanding]
      exact hconsiderate ⟨hreplay, existing, hget, hne, hexpired⟩

theorem Held.heartbeat (h : s.Held) (hinv : s.Inv) (connectionId leaseId : String) :
    (s.heartbeat connectionId leaseId).2.Held := by
  unfold ReverseLeaseRuntime.heartbeat
  split
  · exact h
  next lease howner =>
    obtain ⟨hget, hactive, -⟩ := owner_some hinv howner
    split
    · exact h.mono removeDefinitions_leases fun id request hrequest => by
        rwa [removeDefinitions_outstanding] at hrequest
    · exact h.setLease rfl rfl hactive rfl fun id request hrequest hcapability =>
        h.connection_eq hget hrequest hcapability

theorem Held.cancelled (h : s.Held)
    (houtstanding : s'.outstanding = (s.cancelForConnection connectionId).outstanding)
    (hleases : ∀ c lease, s.leases.get? c = some lease → lease.connectionId ≠ connectionId →
      s'.leases.get? c = some lease) : s'.Held := by
  intro id request hrequest
  rw [houtstanding, get?_cancelForConnection] at hrequest
  obtain ⟨lease, hget, hconnection, hrest⟩ := h id request hrequest.1
  exact ⟨lease, hleases _ lease hget (hconnection ▸ hrequest.2), hconnection, hrest⟩

theorem Held.release (h : s.Held) (hinv : s.Inv) (connectionId leaseId : String)
    (handoffTo : Option String) :
    (s.release connectionId leaseId handoffTo).2.Held := by
  unfold ReverseLeaseRuntime.release
  split
  · exact h
  next lease howner =>
    obtain ⟨hget, -, hconnection⟩ := owner_some hinv howner
    have hother : ∀ c l, s.leases.get? c = some l → l.connectionId ≠ connectionId →
        c ≠ lease.capability := by
      rintro c l hl hne rfl
      cases hget.symm.trans hl
      exact hne hconnection
    split
    · refine h.cancelled removeDefinitions_outstanding fun c l hl hne => ?_
      dsimp only
      rw [removeDefinitions_leases, InsertionMap.get?_set, if_neg (hother c l hl hne)]
      exact hl
    · refine h.cancelled removeDefinitions_outstanding fun c l hl hne => ?_
      dsimp only
      rw [removeDefinitions_leases, InsertionMap.get?_erase, if_neg (hother c l hl hne)]
      exact hl

theorem Held.disconnect (h : s.Held) (connectionId : String) : (s.disconnect connectionId).Held := by
  refine h.cancelled (show (s.disconnect connectionId).outstanding =
    (s.cancelForConnection connectionId).outstanding from ?_)
    fun c l hl hne => ?_
  · unfold ReverseLeaseRuntime.disconnect cancelForConnection
    dsimp only
    rw [(removeAll_frame _ _).2]
  · unfold ReverseLeaseRuntime.disconnect cancelForConnection
    dsimp only
    rw [(removeAll_frame _ _).1]
    dsimp only
    rw [InsertionMap.get?_mapValues, hl, Option.map_some, if_neg hne]

theorem liveLease_some {s₁ : ReverseLeaseRuntime Json}
    (h : s.liveLease capability = (some lease, s₁)) :
    s₁ = s ∧ s.leases.get? capability = some lease ∧ lease.Live s.now := by
  unfold liveLease at h
  split at h
  · cases h
  next existing hget =>
    split at h
    next hlive =>
      cases h
      exact ⟨rfl, hget, hlive⟩
    next => cases h

theorem Held.request (h : s.Held) (hinv : s.Inv) (capability : String) (payloadBytes : Nat)
    (aborted : Bool) (id : String) : (s.request capability payloadBytes aborted id).2.Held := by
  unfold ReverseLeaseRuntime.request
  split
  · exact h
  · split
    next s₁ heq =>
      have hlive : s₁.Held := by
        obtain ⟨hleases, houtstanding⟩ := liveLease_frame s capability
        rw [heq] at hleases houtstanding
        exact h.mono hleases fun id request hrequest => by rwa [houtstanding] at hrequest
      split
      · split <;> exact hlive
      · exact hlive
    next lease s₁ heq =>
      obtain ⟨rfl, hget, hactive, hunexpired⟩ := liveLease_some heq
      split_ifs
      · exact h
      · exact h
      · intro id' request hrequest
        dsimp only at hrequest ⊢
        rw [InsertionMap.get?_set] at hrequest
        split at hrequest
        next =>
          cases hrequest
          refine ⟨lease, hget, rfl, hactive,
            Option.eq_none_iff_forall_not_mem.mpr fun graceUntil hgrace => ?_⟩
          exact Int.not_le.mpr hunexpired ((hinv capability lease hget).grace graceUntil hgrace).1
        next => exact h id' request hrequest

theorem Held.takeOutstanding (h : s.Held) (id : String) : (s.takeOutstanding id).Held := by
  refine h.mono rfl fun id' request hrequest => ?_
  simp only [ReverseLeaseRuntime.takeOutstanding, InsertionMap.get?_erase] at hrequest
  split at hrequest
  · cases hrequest
  · exact hrequest

theorem Held.respond (h : s.Held) (connectionId id leaseId : String) (frameBytes : Nat) :
    (s.respond connectionId id leaseId frameBytes).2.Held := by
  unfold ReverseLeaseRuntime.respond
  split
  · exact h
  · split
    · exact h
    · split
      · exact h
      · exact h.takeOutstanding id

theorem Held.step (h : s.Held) (hinv : s.Inv) (hconsiderate : s.Considerate services event) :
    (s.step services event).Held := by
  cases event with
  | registerProvider r uuid => exact h.registerProvider uuid hconsiderate
  | heartbeat connectionId leaseId => exact h.heartbeat hinv connectionId leaseId
  | release connectionId leaseId handoffTo => exact h.release hinv connectionId leaseId handoffTo
  | disconnect connectionId => exact h.disconnect connectionId
  | sweep =>
    obtain ⟨hleases, houtstanding⟩ := removeAll_frame
      (((s.leases.entries.map Prod.snd).filter (·.expiresAt ≤ s.now)).map (·.capability)) s
    exact h.mono hleases fun id request hrequest => by rwa [← houtstanding]
  | advance ms => exact h
  | getLease capability =>
    obtain ⟨hleases, houtstanding⟩ := liveLease_frame s capability
    exact h.mono hleases fun id request hrequest => by rwa [← houtstanding]
  | request capability payloadBytes aborted id =>
    exact h.request hinv capability payloadBytes aborted id
  | takeBack id => exact h.takeOutstanding id
  | respond connectionId id leaseId frameBytes => exact h.respond connectionId id leaseId frameBytes
  | dispose => exact fun id request hrequest => nomatch hrequest

theorem release_outstanding (howner : s.owner connectionId leaseId = some lease)
    (handoffTo : Option String) :
    (s.release connectionId leaseId handoffTo).2.outstanding =
    (s.cancelForConnection connectionId).outstanding := by
  unfold release
  rw [howner]
  dsimp only
  split <;> exact removeDefinitions_outstanding

theorem cancelsOwn_release {handoffTo : Option String} :
    s.CancelsOwn services (.release connectionId leaseId handoffTo) ↔
      s.Considerate services (.release connectionId leaseId handoffTo) := by
  constructor
  · intro hcancels howned id request hrequest hconnection
    obtain ⟨lease, howner⟩ := Option.isSome_iff_exists.mp howned
    refine hcancels _ _ _ rfl id request hrequest
      (Option.eq_none_iff_forall_ne_some.mpr fun request' hkept => ?_)
    change (s.release connectionId leaseId handoffTo).2.outstanding.get? id = some request' at hkept
    rw [release_outstanding howner, get?_cancelForConnection, hrequest] at hkept
    cases hkept.1
    exact hkept.2 hconnection
  · rintro hconsiderate _ _ _ ⟨⟩ id request hrequest hgone
    change (s.release connectionId leaseId handoffTo).2.outstanding.get? id = none at hgone
    cases howner : s.owner connectionId leaseId with
    | none =>
      rw [show s.release connectionId leaseId handoffTo =
        (.error .notLeaseOwner, s) by simp only [release, howner], hrequest] at hgone
      cases hgone
    | some lease =>
      refine hconsiderate (by rw [howner]; rfl) id request hrequest (by_contra fun hne => ?_)
      rw [release_outstanding howner,
        (get?_cancelForConnection s connectionId id request).mpr ⟨hrequest, hne⟩] at hgone
      cases hgone

theorem cancelsOwn_of_ne
    (h : ∀ connectionId leaseId handoffTo, event ≠ .release connectionId leaseId handoffTo) :
    s.CancelsOwn services event :=
  fun connectionId leaseId handoffTo heq => absurd heq (h connectionId leaseId handoffTo)

theorem grant_frame (r : Registration Json) (leaseId : String) :
    (s.grant services r leaseId).2.outstanding = s.outstanding ∧
      ∃ lease, (s.grant services r leaseId).2.leases.get? r.capability = some lease ∧
        lease.connectionId = r.connectionId := by
  obtain ⟨lease, hleases, -, hconnection⟩ := grant_leases (s := s) services r leaseId
  refine ⟨remember_outstanding r, lease, ?_, hconnection⟩
  rw [hleases, InsertionMap.get?_set, if_pos rfl]

theorem TakesOver.registerProvider {r : Registration Json} (h : s.TakesOver services r)
    (uuid : String) :
    (s.registerProvider services r uuid).2.outstanding = s.outstanding ∧
      ∃ lease, (s.registerProvider services r uuid).2.leases.get? r.capability = some lease ∧
        lease.connectionId = r.connectionId := by
  obtain ⟨hreplay, existing, hget, hother, hexpired⟩ := h
  have hrefresh : ¬Refreshing s.now r existing := fun hr => hother hr.2.1
  unfold ReverseLeaseRuntime.registerProvider
  rw [hreplay, hget]
  dsimp only
  rw [if_pos hexpired]
  unfold registerOver
  rw [removeDefinitions_now, if_neg fun h => Int.not_lt.mpr hexpired h.2,
    if_neg fun h => Int.not_lt.mpr hexpired h.2.2.2, if_neg fun h => hrefresh h.1]
  obtain ⟨houtstanding, hlease⟩ :=
    @grant_frame _ (s.removeDefinitions existing.capability) services r
    (if Reclaiming s.now r existing ∨ Refreshing s.now r existing then existing.leaseId else uuid)
  exact ⟨houtstanding.trans removeDefinitions_outstanding, hlease⟩

theorem considerate_of_current {r : Registration Json} {uuid : String} (h : s.Held)
    (hcurrent : (s.step services (.registerProvider r uuid)).Current) :
    s.Considerate services (.registerProvider r uuid) := by
  intro htakes id request hrequest hcapability
  obtain ⟨houtstanding, lease, hlease, hconnection⟩ := htakes.registerProvider uuid
  obtain ⟨-, existing, hget, hother, -⟩ := htakes
  have hnew := hcurrent id request lease (houtstanding ▸ hrequest) (hcapability ▸ hlease)
  exact hother ((h.connection_eq hget hrequest hcapability).trans (hnew.symm.trans hconnection))

theorem considerate_iff (h : s.Held) (hinv : s.Inv) :
    s.CancelsOwn services event ∧ (s.step services event).Current ↔
      s.Considerate services event := by
  refine ⟨fun hstep => ?_, fun hconsiderate => ⟨?_, (h.step hinv hconsiderate).current⟩⟩
  · cases event with
    | release connectionId leaseId handoffTo => exact cancelsOwn_release.mp hstep.1
    | registerProvider r uuid => exact considerate_of_current h hstep.2
    | _ => trivial
  · cases event with
    | release connectionId leaseId handoffTo => exact cancelsOwn_release.mpr hconsiderate
    | _ => exact cancelsOwn_of_ne (by simp)

theorem Tied.current {events : List (LeaseEvent Json)} (h : Tied services s events) : s.Current := by
  cases events with
  | nil => exact h
  | cons event events => exact h.1

theorem tied_iff_of_held (events : List (LeaseEvent Json)) (h : s.Held) (hinv : s.Inv) :
    Tied services s events ↔ ConsiderateRun services s events := by
  induction events generalizing s with
  | nil => exact ⟨fun _ => trivial, fun _ => h.current⟩
  | cons event events ih =>
    constructor
    · rintro ⟨-, hcancels, hrest⟩
      have hconsiderate := (considerate_iff h hinv).mp ⟨hcancels, hrest.current⟩
      exact ⟨hconsiderate, (ih (h.step hinv hconsiderate) (hinv.step event)).mp hrest⟩
    · rintro ⟨hconsiderate, hrest⟩
      refine ⟨h.current, ((considerate_iff h hinv).mpr hconsiderate).1, ?_⟩
      exact (ih (h.step hinv hconsiderate) (hinv.step event)).mpr hrest

end ReverseLeaseRuntime

/-- In a run from the start, releases cancel only the requests of the lease they release and no
request stays outstanding behind a lease of another connection, exactly if no connection releases a
lease while requests of its other leases wait for it and no expired lease is taken over while
requests for its capability wait. -/
theorem requests_tied_to_lease_iff (services : LeaseServices Json) (now : Int)
    (leaseTtlMs : Option Int) (host : String → Option Json) (events : List (LeaseEvent Json)) :
    ReverseLeaseRuntime.Tied services (.new now leaseTtlMs host) events ↔
      ReverseLeaseRuntime.ConsiderateRun services (.new now leaseTtlMs host) events :=
  ReverseLeaseRuntime.tied_iff_of_held events (fun _ _ hrequest => nomatch hrequest)
    (fun _ _ hget => nomatch hget)

def releaseRun : List (LeaseEvent Unit) :=
  [.registerProvider ⟨"a", "ui", (), none, none⟩ "lease-1",
    .registerProvider ⟨"a", "terminal", (), none, none⟩ "lease-2",
    .request "terminal" 2 false "request-1", .release "a" "lease-1" none]

def lapseRun : List (LeaseEvent Unit) :=
  [.registerProvider ⟨"a", "ui", (), none, none⟩ "lease-1", .request "ui" 2 false "request-1",
    .advance 15000, .registerProvider ⟨"b", "ui", (), none, none⟩ "lease-2"]

theorem requests_outlive_or_share_leases :
    ¬ReverseLeaseRuntime.Tied ⟨fun _ => "", fun _ _ _ => ""⟩ (.new 0 none fun _ => none) releaseRun ∧
      ¬ReverseLeaseRuntime.Tied ⟨fun _ => "", fun _ _ _ => ""⟩ (.new 0 none fun _ => none)
        lapseRun := by
  constructor
  · rintro ⟨-, -, -, -, -, -, -, hcancels, -⟩
    have hlease : "lease-2" = "lease-1" :=
      hcancels "a" "lease-1" none rfl "request-1" ⟨"a", "terminal", "lease-2"⟩ (by rfl) (by rfl)
    revert hlease
    decide
  · rintro ⟨-, -, -, -, -, -, -, -, hcurrent⟩
    have hconnection : "b" = "a" :=
      hcurrent "request-1" ⟨"a", "ui", "lease-1"⟩ ⟨1, "lease-2", "b", "ui", (), 30000, none, true⟩
        (by rfl) (by rfl)
    revert hconnection
    decide

end JevCode.Sdk
