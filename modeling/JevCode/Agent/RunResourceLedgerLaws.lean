import Mathlib.Data.List.Range
import Mathlib.Data.List.Perm.Basic
import Mathlib.Data.List.Perm.Lattice
import JevCode.Agent.RunResourceLedger

namespace JevCode.Agent

variable {c c' : Cell}

namespace RunState

def IsSettled (c : RunState) : Prop := c.lifecycle = .sealed ∧ c.resources = []

def IsOver (c : RunState) : Prop := c.lifecycle = .quarantined ∨ c.IsSettled

theorem settlementProof_eq_settled {c : RunState} :
    c.settlementProof = some .settled ↔ c.IsSettled := by
  unfold settlementProof IsSettled
  cases c.lifecycle <;> simp

theorem settlementProof_eq_none {c : RunState} : c.settlementProof = none ↔ ¬c.IsOver := by
  unfold settlementProof IsOver IsSettled
  cases c.lifecycle <;> simp

end RunState

namespace Cell

theorem foldl_resolve (proof : RunSettlementProof) (ws : List WaiterId) (c : Cell) :
    ws.foldl (resolve proof) c = { c with
      waiters := c.waiters.diff ws
      timers := c.timers.diff ws
      reports := c.reports ++ ws.map (·, proof) } := by
  induction ws generalizing c with
  | nil => simp
  | cons w ws ih => simp [ih, resolve]

theorem diff_self (ws : List WaiterId) : ws.diff ws = [] := by
  induction ws with
  | nil => rfl
  | cons w ws ih => simpa using ih

def tellAll (c : Cell) (proof : RunSettlementProof) : Cell :=
  { c with
    waiters := []
    timers := c.timers.diff c.waiters
    reports := c.reports ++ c.waiters.map (·, proof) }

def releaseSettled (c : Cell) : Cell :=
  { c with released := true, releases := c.releases ++ [.settled], domain := none }

theorem releaseIfSettled_cases (c : Cell) :
    c.releaseIfSettled = c ∧ (c.IsSettled → c.released = true ∨ c.domain = none) ∨
      c.releaseIfSettled = c.releaseSettled ∧ c.IsSettled ∧ c.released = false := by
  unfold releaseIfSettled
  split
  case isTrue h => exact .inl ⟨rfl, fun hs => by grind [RunState.IsSettled]⟩
  case isFalse h => exact .inr ⟨rfl, by grind [RunState.IsSettled], by grind⟩

theorem notify_of_not_over (h : ¬c.IsOver) : c.notify = c := by
  unfold notify
  rw [RunState.settlementProof_eq_none.mpr h]
  obtain ⟨heq, -⟩ | ⟨-, hs, -⟩ := releaseIfSettled_cases c
  · exact heq
  · exact absurd (.inr hs) h

theorem notify_of_proof {proof : RunSettlementProof} (h : c.settlementProof = some proof) :
    c.notify = (c.tellAll proof).releaseIfSettled := by
  unfold notify tellAll
  simp only [h, foldl_resolve, diff_self]

theorem notify_cases (hdomain : c.domain = none ↔ c.released = true) :
    (¬c.IsOver ∧ c.notify = c) ∨
      (∃ proof, c.settlementProof = some proof ∧ c.notify = c.tellAll proof ∧
        (c.IsSettled → c.released = true)) ∨
      (c.IsSettled ∧ c.released = false ∧ c.notify = (c.tellAll .settled).releaseSettled) := by
  cases h : c.settlementProof with
  | none =>
    have hover := RunState.settlementProof_eq_none.mp h
    exact .inl ⟨hover, notify_of_not_over hover⟩
  | some proof =>
    rw [notify_of_proof h]
    obtain ⟨heq, himp⟩ | ⟨heq, hs, hr⟩ := releaseIfSettled_cases (c.tellAll proof)
    · refine .inr (.inl ⟨proof, rfl, heq, fun hs => ?_⟩)
      exact (himp hs).elim id hdomain.mp
    · have hproof : some proof = some .settled := h ▸ RunState.settlementProof_eq_settled.mpr hs
      cases hproof
      exact .inr (.inr ⟨hs, hr, heq⟩)

theorem notify_frame (c : Cell) :
    c.notify.lifecycle = c.lifecycle ∧ c.notify.resources = c.resources ∧
      c.notify.tombstone = c.tombstone ∧ c.notify.leases = c.leases := by
  cases h : c.settlementProof with
  | none => simp [notify_of_not_over (RunState.settlementProof_eq_none.mp h)]
  | some proof =>
    rw [notify_of_proof h]
    obtain ⟨heq, -⟩ | ⟨heq, -⟩ := releaseIfSettled_cases (c.tellAll proof) <;> rw [heq] <;>
      exact ⟨rfl, rfl, rfl, rfl⟩

@[simp] theorem notify_lifecycle (c : Cell) : c.notify.lifecycle = c.lifecycle := (notify_frame c).1
@[simp] theorem notify_resources (c : Cell) : c.notify.resources = c.resources :=
  (notify_frame c).2.1
@[simp] theorem notify_tombstone (c : Cell) : c.notify.tombstone = c.tombstone :=
  (notify_frame c).2.2.1
@[simp] theorem notify_leases (c : Cell) : c.notify.leases = c.leases := (notify_frame c).2.2.2

structure Core (c : Cell) : Prop where
  domain : c.domain = none ↔ c.released = true
  releases : c.releases.length = if c.released then 1 else 0
  resources : c.lifecycle ≠ .quarantined → c.resources.map (·.id) = c.unsettled
  timers : c.timers = c.waiters
  waiters : (c.waiters ++ c.reports.map Prod.fst).Perm (List.range c.waits)
  leases : c.lifecycle ≠ .quarantined →
    ∀ lease ∈ c.leases, lease.closed = false → lease.resource ∈ c.unsettled
  quarantined : c.lifecycle = .quarantined → c.released = true

structure Inv (c : Cell) : Prop extends Core c where
  released : c.IsOver → c.released = true
  answered : c.IsOver → c.waiters = []

structure Advance (c c' : Cell) : Prop where
  quarantined : c.lifecycle = .quarantined → c'.lifecycle = .quarantined
  released : c.released = true → c'.released = true
  newlyReleased : c'.released = true → c.released = true ∨ c'.IsOver
  reports : ∀ w, (w, .settled) ∈ c'.reports → (w, .settled) ∈ c.reports ∨ c'.IsSettled

theorem Advance.of_eq (hl : c'.lifecycle = c.lifecycle) (hr : c'.released = c.released)
    (hp : c'.reports = c.reports) : Advance c c' :=
  ⟨by simp [hl], by simp [hr], fun h => .inl (hr ▸ h), by simp +contextual [hp]⟩

theorem Core.tellAll (h : Core c) (proof : RunSettlementProof) : Core (c.tellAll proof) where
  domain := h.domain
  releases := h.releases
  resources := h.resources
  timers := by simp [Cell.tellAll, h.timers, diff_self]
  waiters := by
    have hw : (c.reports.map Prod.fst ++ c.waiters).Perm (List.range c.waits) :=
      List.perm_append_comm.trans h.waiters
    simpa [Cell.tellAll, Function.comp_def] using hw
  leases := h.leases
  quarantined := h.quarantined

theorem Core.releaseSettled (h : Core c) (hr : c.released = false) : Core c.releaseSettled where
  domain := by simp [Cell.releaseSettled]
  releases := by
    have := h.releases
    simp_all [Cell.releaseSettled]
  resources := h.resources
  timers := h.timers
  waiters := h.waiters
  leases := h.leases
  quarantined := fun _ => rfl

theorem Core.notify (h : Core c) : Inv c.notify := by
  obtain ⟨hover, heq⟩ | ⟨proof, -, heq, hs⟩ | ⟨hs, hr, heq⟩ := notify_cases h.domain
  · rw [heq]
    exact ⟨h, fun ho => absurd ho hover, fun ho => absurd ho hover⟩
  · rw [heq]
    exact ⟨h.tellAll proof, fun ho => ho.elim h.quarantined hs, fun _ => rfl⟩
  · rw [heq]
    exact ⟨(h.tellAll .settled).releaseSettled hr, fun _ => rfl, fun _ => rfl⟩

theorem advance_notify (h : Core c') (hq : c.lifecycle = .quarantined → c'.lifecycle = .quarantined)
    (hr : c.released = true → c'.released = true)
    (hn : c'.released = true → c.released = true ∨ c'.lifecycle = .quarantined)
    (hp : c'.reports = c.reports) : Advance c c'.notify := by
  have hn' : c'.released = true → c.released = true ∨ c'.IsOver := fun h => (hn h).imp id .inl
  obtain ⟨-, heq⟩ | ⟨proof, hproof, heq, -⟩ | ⟨hs, -, heq⟩ := notify_cases h.domain
  · rw [heq]
    exact ⟨hq, hr, hn', by simp +contextual [hp]⟩
  · rw [heq]
    refine ⟨hq, hr, hn', fun w hw => ?_⟩
    simp only [Cell.tellAll, List.mem_append, hp] at hw
    refine hw.imp id fun hw => ?_
    obtain ⟨_, -, he⟩ := List.mem_map.mp hw
    cases he
    exact RunState.settlementProof_eq_settled.mp hproof
  · rw [heq]
    exact ⟨hq, fun _ => rfl, fun _ => .inr (.inr hs), fun _ _ => .inr hs⟩

theorem foldl_appendTombstone (entries : List RunResourceEntry) (c : Cell) :
    ∃ tombstone ⊆ c.tombstone ++ entries,
      entries.foldl appendTombstone c = { c with tombstone := tombstone } := by
  induction entries generalizing c with
  | nil => exact ⟨c.tombstone, by simp, rfl⟩
  | cons entry entries ih =>
    obtain ⟨tombstone, hsub, heq⟩ := ih (c.appendTombstone entry)
    refine ⟨tombstone, fun e he => ?_, by rw [List.foldl_cons, heq]; simp only [appendTombstone]⟩
    have he := hsub he
    simp only [appendTombstone, List.mem_append] at he
    cases he with
    | inl he =>
      have := List.mem_of_mem_drop he
      grind
    | inr he => simp [he]

def buried (c : Cell) (tombstone : List RunResourceEntry) : Cell :=
  { c with
    lifecycle := .quarantined
    tombstone := tombstone
    resources := []
    domain := none
    released := true
    releases := if c.released then c.releases else c.releases ++ [.quarantined] }

theorem quarantineState_eq (h : Core c) :
    ∃ tombstone ⊆ c.snapshot, c.quarantineState = notify (c.buried tombstone) ∨
      c.lifecycle = .quarantined ∧ c.quarantineState = notify c := by
  by_cases hq : c.lifecycle = .quarantined
  · exact ⟨[], by simp, .inr ⟨hq, by simp [quarantineState, hq]⟩⟩
  · obtain ⟨tombstone, hsub, heq⟩ :=
      foldl_appendTombstone c.resources { c with lifecycle := .quarantined, tombstone := [] }
    refine ⟨tombstone, by simpa [RunState.snapshot, hq] using hsub, .inl ?_⟩
    simp only [quarantineState, hq, if_false, heq]
    congr 1
    cases hd : c.domain with
    | none => simp [giveUpDomain, buried, h.domain.mp hd]
    | some d =>
      have hr : c.released = false := by
        have := h.domain
        simpa [hd] using this
      simp [giveUpDomain, hr, buried]

theorem Core.buried (h : Core c) (tombstone : List RunResourceEntry) :
    Core (c.buried tombstone) where
  domain := by simp [Cell.buried]
  releases := by
    have := h.releases
    cases hr : c.released <;> simp_all [Cell.buried]
  resources := fun hq => absurd rfl hq
  timers := h.timers
  waiters := h.waiters
  leases := fun hq => absurd rfl hq
  quarantined := fun _ => rfl

theorem Inv.quarantineState (h : Inv c) : Inv c.quarantineState := by
  obtain ⟨tombstone, -, heq | ⟨-, heq⟩⟩ := quarantineState_eq h.toCore
  · rw [heq]
    exact (h.toCore.buried tombstone).notify
  · rw [heq]
    exact h.toCore.notify

theorem Inv.advance_quarantineState (h : Inv c) : Advance c c.quarantineState := by
  obtain ⟨tombstone, -, heq | ⟨-, heq⟩⟩ := quarantineState_eq h.toCore
  · rw [heq]
    exact advance_notify (h.toCore.buried tombstone) (fun _ => rfl) (fun _ => rfl)
      (fun _ => .inr rfl) rfl
  · rw [heq]
    exact advance_notify h.toCore id id .inl rfl

theorem quarantineState_lifecycle (h : Core c) : c.quarantineState.lifecycle = .quarantined := by
  obtain ⟨tombstone, -, heq | ⟨hq, heq⟩⟩ := quarantineState_eq h
  · simp [heq, Cell.buried]
  · simpa [heq] using hq

theorem register_of_quarantined (hq : c.lifecycle = .quarantined) (kind : RunResourceKind)
    (label : String) (now : Nat) :
    ∃ tombstone ⊆ c.tombstone ++ [⟨c.sequence + 1, kind, label, now⟩],
      c.register kind label now =
        ({ c with sequence := c.sequence + 1, tombstone := tombstone }, none) := by
  let tombstone := c.tombstone ++ [⟨c.sequence + 1, kind, label, now⟩]
  refine ⟨tombstone.drop (tombstone.length - maxTombstoneEntries), List.drop_subset _ _, ?_⟩
  simp only [register, hq, if_true, appendTombstone, tombstone]

theorem register_of_live (hq : c.lifecycle ≠ .quarantined) (kind : RunResourceKind)
    (label : String) (now : Nat) :
    c.register kind label now = ({ c with
      sequence := c.sequence + 1
      resources := c.resources ++ [⟨c.sequence + 1, kind, label, now⟩]
      unsettled := c.unsettled ++ [c.sequence + 1] }, some (c.sequence + 1)) := by
  simp only [register, hq, if_false]

theorem Inv.register (h : Inv c) (kind : RunResourceKind) (label : String) (now : Nat) :
    Inv (c.register kind label now).1 := by
  by_cases hq : c.lifecycle = .quarantined
  · obtain ⟨tombstone, -, heq⟩ := register_of_quarantined hq kind label now
    rw [heq]
    exact ⟨⟨h.domain, h.releases, h.resources, h.timers, h.waiters, h.leases, h.quarantined⟩,
      h.released, h.answered⟩
  · rw [register_of_live hq]
    have hover : ∀ entry, ¬(c.lifecycle = .quarantined ∨
        c.lifecycle = .sealed ∧ c.resources ++ [entry] = []) := by
      simp [hq]
    refine ⟨⟨h.domain, h.releases, fun _ => ?_, h.timers, h.waiters, fun _ lease hl hc => ?_,
      h.quarantined⟩, fun ho => absurd ho (hover _), fun ho => absurd ho (hover _)⟩
    · simpa using h.resources hq
    · exact List.mem_append_left _ (h.leases hq lease hl hc)

theorem advance_register (c : Cell) (kind : RunResourceKind) (label : String) (now : Nat) :
    Advance c (c.register kind label now).1 := by
  by_cases hq : c.lifecycle = .quarantined
  · obtain ⟨tombstone, -, heq⟩ := register_of_quarantined hq kind label now
    rw [heq]
    exact .of_eq rfl rfl rfl
  · rw [register_of_live hq]
    exact .of_eq rfl rfl rfl

theorem leaseFor_cases (c : Cell) (kind : RunResourceKind) (label : String) (now : Nat) :
    (c.leaseFor kind label now).1 = c ∨
      (c.leaseFor kind label now).1 = (c.register kind label now).1 ∨
      ∃ domain, c.lifecycle ≠ .quarantined ∧ (c.leaseFor kind label now).1 =
        { (c.register kind label now).1 with
          leases := c.leases ++ [⟨domain, c.sequence + 1, false⟩] } := by
  unfold leaseFor
  cases c.domain with
  | none => exact .inl rfl
  | some domain =>
    by_cases hq : c.lifecycle = .quarantined
    · obtain ⟨tombstone, -, heq⟩ := register_of_quarantined hq kind label now
      simp only [heq]
      exact .inr (.inl trivial)
    · simp only [register_of_live hq]
      exact .inr (.inr ⟨domain, hq, rfl⟩)

theorem Inv.leaseFor (h : Inv c) (kind : RunResourceKind) (label : String) (now : Nat) :
    Inv (c.leaseFor kind label now).1 := by
  have hr := h.register kind label now
  obtain heq | heq | ⟨domain, hq, heq⟩ := leaseFor_cases c kind label now
  · rwa [heq]
  · rwa [heq]
  · rw [heq]
    refine ⟨⟨hr.domain, hr.releases, hr.resources, hr.timers, hr.waiters, fun _ lease hl hc => ?_,
      hr.quarantined⟩, hr.released, hr.answered⟩
    rw [register_of_live hq]
    cases List.mem_append.mp hl with
    | inl hl => exact List.mem_append_left _ (h.leases hq lease hl hc)
    | inr hl =>
      cases List.mem_singleton.mp hl
      simp

theorem advance_leaseFor (c : Cell) (kind : RunResourceKind) (label : String) (now : Nat) :
    Advance c (c.leaseFor kind label now).1 := by
  have hr := advance_register c kind label now
  obtain heq | heq | ⟨domain, -, heq⟩ := leaseFor_cases c kind label now <;> rw [heq]
  · exact .of_eq rfl rfl rfl
  · exact hr
  · exact ⟨hr.quarantined, hr.released, hr.newlyReleased, hr.reports⟩

theorem mem_closeDiscovery {i : LeaseId} {lease : Lease} (h : lease ∈ (c.closeDiscovery i).leases) :
    lease ∈ c.leases ∨ lease.closed = true := by
  obtain ⟨j, hj, rfl⟩ := List.mem_iff_getElem.mp h
  simp only [closeDiscovery, List.getElem_modify]
  split
  · exact .inr rfl
  · exact .inl (List.getElem_mem _)

theorem Inv.closeDiscovery (h : Inv c) (i : LeaseId) : Inv (c.closeDiscovery i) where
  domain := h.domain
  releases := h.releases
  resources := h.resources
  timers := h.timers
  waiters := h.waiters
  leases := by
    intro hq lease hl hc
    cases mem_closeDiscovery hl with
    | inl hl => exact h.leases hq lease hl hc
    | inr hl => simp [hl] at hc
  quarantined := h.quarantined
  released := h.released
  answered := h.answered

theorem Inv.core_onSettled (h : Inv c) {id : ResourceId}
    (hid : ∀ lease ∈ c.leases, lease.resource = id → lease.closed = true) :
    Core { c with
      unsettled := c.unsettled.filter (· ≠ id)
      resources := c.resources.filter (·.id ≠ id) } where
  domain := h.domain
  releases := h.releases
  resources := by
    intro hq
    rw [← h.resources hq, List.filter_map]
    rfl
  timers := h.timers
  waiters := h.waiters
  leases := by
    intro hq lease hl hc
    have hne : lease.resource ≠ id := fun he => by simp [hid lease hl he] at hc
    exact List.mem_filter.mpr ⟨h.leases hq lease hl hc, by simpa using hne⟩
  quarantined := h.quarantined

theorem Inv.core_sealed (h : Inv c) (ho : c.lifecycle = .opened) :
    Core { c with lifecycle := .sealed } where
  domain := h.domain
  releases := h.releases
  resources := fun _ => h.resources (by simp [ho])
  timers := h.timers
  waiters := h.waiters
  leases := fun _ => h.leases (by simp [ho])
  quarantined := nofun

theorem Inv.waitForSettlement (h : Inv c) : Inv c.waitForSettlement := by
  have hw : ∀ ws rs : List WaiterId,
      (ws ++ rs).Perm (c.waits :: (c.waiters ++ c.reports.map Prod.fst)) →
      (ws ++ rs).Perm (List.range (c.waits + 1)) := by
    intro ws rs hp
    refine hp.trans ((h.waiters.cons _).trans ?_)
    have hcomm : ([c.waits] ++ List.range c.waits).Perm (List.range c.waits ++ [c.waits]) :=
      List.perm_append_comm
    rwa [List.range_succ]
  unfold Cell.waitForSettlement
  cases hp : c.settlementProof with
  | some proof =>
    simp only [hp]
    refine ⟨⟨h.domain, h.releases, h.resources, h.timers, ?_, h.leases, h.quarantined⟩,
      h.released, h.answered⟩
    apply hw
    simp only [List.map_append, ← List.append_assoc]
    exact List.perm_append_comm
  | none =>
    simp only [hp]
    have hover := RunState.settlementProof_eq_none.mp hp
    refine ⟨⟨h.domain, h.releases, h.resources, by simp [h.timers], ?_, h.leases, h.quarantined⟩,
      h.released, fun ho => absurd ho hover⟩
    apply hw
    simp

theorem Inv.timeout (h : Inv c) {waiter : WaiterId} (hw : waiter ∈ c.timers) :
    Inv (c.timeout waiter) := by
  have hw : waiter ∈ c.waiters := h.timers ▸ hw
  refine ⟨⟨h.domain, h.releases, h.resources, ?_, ?_, h.leases, h.quarantined⟩, h.released, ?_⟩
  · simp [Cell.timeout, resolve, h.timers]
  · refine .trans ?_ h.waiters
    have he := List.perm_cons_erase hw
    simp only [Cell.timeout, resolve, List.map_append, List.map_cons, List.map_nil,
      ← List.append_assoc]
    exact List.perm_append_comm.trans (he.symm.append_right _)
  · intro ho
    simp [h.answered ho] at hw

theorem advance_waitForSettlement (c : Cell) : Advance c c.waitForSettlement := by
  unfold Cell.waitForSettlement
  cases hp : c.settlementProof with
  | none =>
    simp only [hp]
    exact .of_eq rfl rfl rfl
  | some proof =>
    simp only [hp]
    refine ⟨id, id, .inl, fun w hw => (List.mem_append.mp hw).imp id fun hw => ?_⟩
    cases List.mem_singleton.mp hw
    exact RunState.settlementProof_eq_settled.mp hp

theorem advance_timeout (c : Cell) (waiter : WaiterId) : Advance c (c.timeout waiter) := by
  refine ⟨id, id, .inl, fun w hw => (List.mem_append.mp hw).imp id fun hw => ?_⟩
  apply RunState.settlementProof_eq_settled.mp
  cases hp : c.settlementProof with
  | none => simp [hp] at hw
  | some proof =>
    simp only [hp, Option.getD_some] at hw
    cases List.mem_singleton.mp hw
    exact hp

def Admits (c : Cell) : Prop :=
  c.lifecycle = .opened ∨ ∃ lease ∈ c.leases, lease.closed = false

inductive Effect (c : Cell) : Cell → Prop
  | idle : Effect c c
  | quarantine : Effect c c.quarantineState
  | lease (h : c.Admits) (owners : List OwnerKey) (kind : RunResourceKind) (label : String)
      (now : Nat) : Effect c (leaseFor { c with claimedOwners := owners } kind label now).1
  | leaseTrack (h : c.Admits) (hq : c.lifecycle ≠ .quarantined) (kind : RunResourceKind)
      (label : String) (now : Nat) : Effect c (c.register kind label now).1
  | closeDiscovery (i : LeaseId) : Effect c (c.closeDiscovery i)
  | settle (id : ResourceId)
      (h : ∀ lease ∈ c.leases, lease.resource = id → lease.closed = true) : Effect c (c.onSettled id)
  | sealRun (h : c.lifecycle = .opened) : Effect c (notify { c with lifecycle := .sealed })
  | waitForSettlement : Effect c c.waitForSettlement
  | timeout (waiter : WaiterId) (h : waiter ∈ c.timers) : Effect c (c.timeout waiter)

theorem fork_effect {lease : Lease} (hl : lease ∈ c.leases) (expectedDomain : DomainId)
    (kind : RunResourceKind) (label : String) (now : Nat) :
    Effect c (c.fork lease expectedDomain kind label now).1 := by
  unfold fork
  split_ifs with h₁ h₂ h₃
  · exact .quarantine
  · exact .quarantine
  · exact .quarantine
  · have he : Effect c (c.leaseFor kind label now).1 :=
      .lease (.inr ⟨lease, hl, by simpa using h₃⟩) c.claimedOwners kind label now
    split <;> simp_all

theorem reserveProducer_effect (c : Cell) (expectedDomain : Option DomainId)
    (kind : RunResourceKind) (label : String) (now : Nat) :
    Effect c (c.reserveProducer expectedDomain kind label now).1 := by
  unfold reserveProducer
  split_ifs with h₁ h₂ h₃
  · exact .idle
  · exact .quarantine
  · exact .quarantine
  · have he : Effect c (c.leaseFor kind label now).1 :=
      .lease (.inl (not_not.mp h₂)) c.claimedOwners kind label now
    split <;> simp_all

theorem claimProducer_effect (c : Cell) (expectedDomain : Option DomainId) (ownerKey : OwnerKey)
    (now : Nat) : Effect c (c.claimProducer expectedDomain ownerKey now).1 := by
  unfold claimProducer
  split_ifs with h₁ h₂ h₃ h₄
  · exact .idle
  · exact .quarantine
  · exact .quarantine
  · exact .quarantine
  · have he := Effect.lease (.inl (not_not.mp h₂)) (c.claimedOwners ++ [ownerKey]) .postPrompt
      "agent-session" now
    split <;> simp_all

theorem leaseTrack_effect {lease : Lease} (hl : lease ∈ c.leases) (kind : RunResourceKind)
    (label : String) (now : Nat) : Effect c (c.leaseTrack lease kind label now).1 := by
  unfold leaseTrack
  split_ifs with h
  · exact .quarantine
  · obtain ⟨hopen, hq⟩ := not_or.mp h
    exact .leaseTrack (.inr ⟨lease, hl, by simpa using hopen⟩) hq kind label now

theorem step_cases {key : Option OwnerKey} {now : Nat} {event : RunEvent}
    (h : c.step key now event = some c') :
    (∃ kind label, event = .track kind label ∧ c' = (c.register kind label now).1) ∨
      Effect c c' := by
  cases event with
  | track kind label =>
    cases h
    exact .inl ⟨kind, label, rfl, rfl⟩
  | opened answer =>
    cases h
    exact .inr .idle
  | reserveProducer expectedDomain kind label =>
    cases h
    exact .inr (reserveProducer_effect c expectedDomain kind label now)
  | claimProducer expectedDomain ownerKey =>
    simp only [step] at h
    split at h <;> cases h
    · exact .inr (claimProducer_effect c expectedDomain ownerKey now)
    · exact .inr .idle
  | leaseTrack i kind label =>
    obtain ⟨lease, hl, rfl⟩ := Option.map_eq_some_iff.mp h
    exact .inr (leaseTrack_effect (List.mem_of_getElem? hl) kind label now)
  | fork i expectedDomain kind label =>
    obtain ⟨lease, hl, rfl⟩ := Option.map_eq_some_iff.mp h
    exact .inr (fork_effect (List.mem_of_getElem? hl) expectedDomain kind label now)
  | closeDiscovery i =>
    cases h
    exact .inr (.closeDiscovery i)
  | settle id =>
    simp only [step] at h
    split at h <;> cases h
    exact .inr (.settle id (by simp_all))
  | sealRun =>
    cases h
    unfold sealRun
    split
    · exact .inr .idle
    · exact .inr (.sealRun (not_not.mp ‹_›))
  | waitForSettlement =>
    cases h
    exact .inr .waitForSettlement
  | timeout waiter =>
    simp only [step] at h
    split at h <;> cases h
    exact .inr (.timeout waiter ‹_›)
  | quarantine =>
    cases h
    exact .inr .quarantine

theorem Inv.claimed (h : Inv c) (owners : List OwnerKey) : Inv { c with claimedOwners := owners } :=
  ⟨⟨h.domain, h.releases, h.resources, h.timers, h.waiters, h.leases, h.quarantined⟩,
    h.released, h.answered⟩

theorem Effect.inv (h : Inv c) (he : Effect c c') : Inv c' := by
  cases he with
  | idle => exact h
  | quarantine => exact h.quarantineState
  | lease _ owners kind label now => exact (h.claimed owners).leaseFor kind label now
  | leaseTrack _ _ kind label now => exact h.register kind label now
  | closeDiscovery i => exact h.closeDiscovery i
  | settle id hid => exact (h.core_onSettled hid).notify
  | sealRun ho => exact (h.core_sealed ho).notify
  | waitForSettlement => exact h.waitForSettlement
  | timeout waiter hw => exact h.timeout hw

theorem Effect.advance (h : Inv c) (he : Effect c c') : Advance c c' := by
  cases he with
  | idle => exact .of_eq rfl rfl rfl
  | quarantine => exact h.advance_quarantineState
  | lease _ owners kind label now =>
    have ha := advance_leaseFor { c with claimedOwners := owners } kind label now
    exact ⟨ha.quarantined, ha.released, ha.newlyReleased, ha.reports⟩
  | leaseTrack _ _ kind label now => exact advance_register c kind label now
  | closeDiscovery i => exact .of_eq rfl rfl rfl
  | settle i hid => exact advance_notify (h.core_onSettled hid) id id .inl rfl
  | sealRun ho =>
    exact advance_notify (h.core_sealed ho) (fun hq => by simp [ho] at hq) id .inl rfl
  | waitForSettlement => exact advance_waitForSettlement c
  | timeout waiter _ => exact advance_timeout c waiter

theorem step_inv {key : Option OwnerKey} {now : Nat} {event : RunEvent} (h : Inv c)
    (hstep : c.step key now event = some c') : Inv c' ∧ Advance c c' := by
  obtain ⟨kind, label, rfl, rfl⟩ | he := step_cases hstep
  · exact ⟨h.register kind label now, advance_register c kind label now⟩
  · exact ⟨he.inv h, he.advance h⟩

theorem Inv.resequenced (h : Inv c) (n : Nat) : Inv { c with sequence := n } :=
  ⟨⟨h.domain, h.releases, h.resources, h.timers, h.waiters, h.leases, h.quarantined⟩,
    h.released, h.answered⟩

theorem Inv.isSettled_iff (h : Inv c) :
    c.IsSettled ↔ c.lifecycle = .sealed ∧ c.unsettled = [] := by
  refine and_congr_right fun hs => ?_
  rw [← h.resources (by simp [hs]), List.map_eq_nil_iff]

def Closed (c : Cell) : Prop :=
  c.lifecycle = .quarantined ∨ c.lifecycle = .sealed ∧ ∀ lease ∈ c.leases, lease.closed = true

theorem Inv.closed (h : Inv c) (hs : c.IsSettled) : Closed c := by
  refine .inr ⟨hs.1, fun lease hl => ?_⟩
  by_contra hc
  have hmem := h.leases (by simp [hs.1]) lease hl (by simpa using hc)
  rw [(h.isSettled_iff.mp hs).2] at hmem
  cases hmem

theorem Closed.not_admits (h : Closed c) (hq : c.lifecycle ≠ .quarantined) : ¬c.Admits := by
  obtain hq' | ⟨hs, hl⟩ := h
  · exact absurd hq' hq
  · rintro (ho | ⟨lease, hlease, hopen⟩)
    · simp [hs] at ho
    · simp [hl lease hlease] at hopen

theorem leaseFor_of_quarantined (h : Inv c) (hq : c.lifecycle = .quarantined)
    (kind : RunResourceKind) (label : String) (now : Nat) : (c.leaseFor kind label now).1 = c := by
  simp [Cell.leaseFor, h.domain.mpr (h.quarantined hq)]

theorem snapshot_of_lifecycle {c c' : RunState} (hl : c'.lifecycle = c.lifecycle)
    (ht : c'.tombstone = c.tombstone) (hr : c'.resources ⊆ c.resources) :
    c'.snapshot ⊆ c.snapshot := by
  unfold RunState.snapshot
  rw [hl, ht]
  split
  · exact List.Subset.refl _
  · exact hr

theorem Effect.closed (h : Inv c) (hc : Closed c) (he : Effect c c') :
    Closed c' ∧ c'.snapshot ⊆ c.snapshot := by
  have hself : c.snapshot ⊆ c.snapshot := List.Subset.refl _
  cases he with
  | idle => exact ⟨hc, hself⟩
  | quarantine =>
    refine ⟨.inl (quarantineState_lifecycle h.toCore), ?_⟩
    obtain ⟨tombstone, hsub, heq | ⟨hq, heq⟩⟩ := quarantineState_eq h.toCore
    · rw [heq]
      simpa [RunState.snapshot, Cell.buried] using hsub
    · rw [heq]
      exact snapshot_of_lifecycle (by simp) (by simp) (by simp)
  | lease ha owners kind label now =>
    by_cases hq : c.lifecycle = .quarantined
    · rw [leaseFor_of_quarantined (h.claimed owners) hq]
      exact ⟨hc, hself⟩
    · exact absurd ha (hc.not_admits hq)
  | leaseTrack ha hq => exact absurd ha (hc.not_admits hq)
  | closeDiscovery i =>
    refine ⟨hc.imp id fun ⟨hs, hl⟩ => ⟨hs, fun lease hlease => ?_⟩, hself⟩
    exact (mem_closeDiscovery hlease).elim (hl lease) id
  | settle id hid =>
    refine ⟨by simpa [Closed, onSettled] using hc, ?_⟩
    exact snapshot_of_lifecycle (by simp [onSettled]) (by simp [onSettled])
      (by simp [onSettled])
  | sealRun ho => simp [Closed, ho] at hc
  | waitForSettlement =>
    simp only [Cell.waitForSettlement]
    split <;> exact ⟨hc, hself⟩
  | timeout waiter hw => exact ⟨hc, hself⟩

theorem Closed.register (hc : Closed c) (kind : RunResourceKind) (label : String) (now : Nat) :
    Closed (c.register kind label now).1 ∧ (c.register kind label now).1.snapshot ⊆
      c.snapshot ++ [⟨c.sequence + 1, kind, label, now⟩] := by
  by_cases hq : c.lifecycle = .quarantined
  · obtain ⟨tombstone, hsub, heq⟩ := register_of_quarantined hq kind label now
    rw [heq]
    exact ⟨.inl hq, by simpa [RunState.snapshot, hq] using hsub⟩
  · rw [register_of_live hq]
    exact ⟨hc, by simp [RunState.snapshot, hq]⟩

end Cell

end JevCode.Agent
