import JevCode.Agent.RunResourceLedgerLaws

namespace JevCode.Agent.Ledger

variable {s s' : Ledger} {past : List Ledger} {run : RunId}

structure Unopened (w : World) : Prop where
  unsettled : w.unsettled = []
  leases : w.leases = []
  timers : w.timers = []
  releases : w.releases = []
  reports : (w.reports.map Prod.fst).Perm (List.range w.waits)
  unfenced : ∀ waiter, (waiter, RunSettlementProof.settled) ∉ w.reports

def Inv (s : Ledger) : Prop :=
  ∀ run, (∀ c, s.cell run = some c → c.Inv) ∧ (s.cell run = none → Unopened (s.world run))

inductive RunStep (s s' : Ledger) (run : RunId) (event : LedgerEvent) : Prop
  | frame (hruns : s'.runs run = s.runs run) (hworld : s'.world run = s.world run)
  | known {c c' : Cell} {now : Nat} {e : RunEvent} (hc : s.cell run = some c)
      (hc' : s'.cell run = some c') (he : event = .on run e now)
      (hstep : c.step s.agentSessionClaimKey now e = some c')
  | opened (domain : DomainId) (hc : s.cell run = none) (hworld : s'.world run = s.world run)
      (hc' : s'.cell run =
        some ⟨⟨.opened, some domain, [], [], [], [], false⟩, s.world run, s.sequence⟩)
  | answered (hc : s.cell run = none) (hc' : s'.cell run = none)
      (hworld : s'.world run = { s.world run with
        waits := (s.world run).waits + 1
        reports := (s.world run).reports ++ [((s.world run).waits, .unfenced .unknownRun [])] })

theorem cell_eq_none : s.cell run = none ↔ s.runs run = none := by simp [cell]

theorem cell_store_self (s : Ledger) (run : RunId) (c : Cell) :
    (s.store run c).cell run = some c := by
  simp [cell, store]

theorem runStep_of_stepUnknown {event : LedgerEvent} {run' : RunId} {e : RunEvent}
    (hc : s.cell run' = none) (h : s.stepUnknown run' e = some s') : RunStep s s' run event := by
  cases e with
  | opened answer =>
    cases answer with
    | none =>
      cases h
      exact .frame rfl rfl
    | some domain =>
      cases h
      by_cases hr : run = run'
      · subst hr
        exact .opened domain hc rfl (by simp [cell])
      · exact .frame (by simp [hr]) rfl
  | waitForSettlement =>
    cases h
    by_cases hr : run = run'
    · subst hr
      exact .answered hc (by simpa [cell] using hc) (by simp)
    · exact .frame rfl (by simp [hr])
  | leaseTrack i kind label => cases h
  | fork i expectedDomain kind label => cases h
  | closeDiscovery i => cases h
  | settle id => cases h
  | timeout waiter => cases h
  | _ =>
    cases h
    exact .frame rfl rfl

theorem runStep_of_step {event : LedgerEvent} (h : s.step event = some s') (run : RunId) :
    RunStep s s' run event := by
  cases event with
  | bindAgentSessionClaimKey key =>
    simp only [step] at h
    split at h <;> cases h <;> exact .frame rfl rfl
  | on run' e now =>
    simp only [step] at h
    cases hc : s.cell run' with
    | none =>
      rw [hc] at h
      exact runStep_of_stepUnknown hc h
    | some c =>
      rw [hc] at h
      obtain ⟨c', hstep, rfl⟩ := Option.map_eq_some_iff.mp h
      by_cases hr : run = run'
      · subst hr
        exact .known hc (cell_store_self s run c') rfl hstep
      · exact .frame (by simp [store, hr]) (by simp [store, hr])

theorem Unopened.inv {w : World} (h : Unopened w) (domain : DomainId) (n : Nat) :
    Cell.Inv ⟨⟨.opened, some domain, [], [], [], [], false⟩, w, n⟩ where
  domain := by simp
  releases := by simp [h.releases]
  resources := by simp [h.unsettled]
  timers := h.timers
  waiters := by simpa using h.reports
  leases := by simp [h.leases]
  quarantined := nofun
  released := by simp [RunState.IsOver, RunState.IsSettled]
  answered := fun _ => rfl

theorem Unopened.answered {w : World} (h : Unopened w) :
    Unopened { w with
      waits := w.waits + 1
      reports := w.reports ++ [(w.waits, .unfenced .unknownRun [])] } where
  unsettled := h.unsettled
  leases := h.leases
  timers := h.timers
  releases := h.releases
  reports := by
    rw [List.range_succ]
    simpa using h.reports.append_right [w.waits]
  unfenced := by simp [h.unfenced]

theorem inv_init : Inv init :=
  fun _ => ⟨nofun, fun _ => ⟨rfl, rfl, rfl, rfl, by simp [init], nofun⟩⟩

theorem Inv.step {event : LedgerEvent} (h : Inv s) (hstep : s.step event = some s') : Inv s' := by
  intro run
  cases runStep_of_step hstep run with
  | frame hruns hworld =>
    refine ⟨fun c hc => ?_, fun hc => ?_⟩
    · obtain ⟨state, hstate, rfl⟩ := Option.map_eq_some_iff.mp hc
      have hinv := (h run).1 ⟨state, s.world run, s.sequence⟩ (by simp [cell, ← hruns, hstate])
      rw [hworld]
      exact hinv.resequenced s'.sequence
    · rw [hworld]
      exact (h run).2 (by simpa [cell_eq_none, hruns] using hc)
  | known hc hc' he hstep' =>
    rw [hc']
    refine ⟨?_, nofun⟩
    rintro _ ⟨⟩
    exact (Cell.step_inv ((h run).1 _ hc) hstep').1
  | opened domain hc hworld hc' =>
    rw [hc']
    refine ⟨?_, nofun⟩
    rintro _ ⟨⟩
    exact ((h run).2 hc).inv domain s.sequence
  | answered hc hc' hworld =>
    rw [hc', hworld]
    exact ⟨nofun, fun _ => ((h run).2 hc).answered⟩

theorem Execution.inv (h : Execution past) : ∀ s ∈ past, s.Inv :=
  Data.Execution.invariant inv_init (fun _ _ _ => Inv.step) h

def Quarantined (s : Ledger) (run : RunId) : Prop :=
  ∃ state, s.runs run = some state ∧ state.lifecycle = .quarantined

/-- The run is sealed and every promise registered for it has settled. -/
def Settled (s : Ledger) (run : RunId) : Prop :=
  ∃ state, s.runs run = some state ∧ state.lifecycle = .sealed ∧ (s.world run).unsettled = []

def Released (s : Ledger) (run : RunId) : Prop :=
  ∃ state, s.runs run = some state ∧ state.released = true

theorem Inv.settled_iff (h : s.Inv) {c : Cell} (hc : s.cell run = some c) :
    s.Settled run ↔ c.IsSettled := by
  rw [((h run).1 c hc).isSettled_iff]
  obtain ⟨state, hstate, rfl⟩ := Option.map_eq_some_iff.mp hc
  simp [Settled, hstate]

theorem quarantined_iff {c : Cell} (hc : s.cell run = some c) :
    s.Quarantined run ↔ c.lifecycle = .quarantined := by
  obtain ⟨state, hstate, rfl⟩ := Option.map_eq_some_iff.mp hc
  simp [Quarantined, hstate]

theorem released_iff {c : Cell} (hc : s.cell run = some c) :
    s.Released run ↔ c.released = true := by
  obtain ⟨state, hstate, rfl⟩ := Option.map_eq_some_iff.mp hc
  simp [Released, hstate]

theorem not_quarantined_of_unknown (hc : s.cell run = none) : ¬s.Quarantined run := by
  rintro ⟨state, hstate, -⟩
  simp [cell, hstate] at hc

theorem not_released_of_unknown (hc : s.cell run = none) : ¬s.Released run := by
  rintro ⟨state, hstate, -⟩
  simp [cell, hstate] at hc

theorem world_eq {c : Cell} (hc : s.cell run = some c) : s.world run = c.toWorld := by
  obtain ⟨state, hstate, rfl⟩ := Option.map_eq_some_iff.mp hc
  rfl

theorem quarantined_step {event : LedgerEvent} (hinv : s.Inv) (h : s.step event = some s')
    (hq : s.Quarantined run) : s'.Quarantined run := by
  cases runStep_of_step h run with
  | frame hruns hworld => simpa [Quarantined, hruns] using hq
  | known hc hc' he hstep =>
    rw [quarantined_iff hc']
    exact (Cell.step_inv ((hinv run).1 _ hc) hstep).2.quarantined ((quarantined_iff hc).mp hq)
  | opened domain hc => exact absurd hq (not_quarantined_of_unknown hc)
  | answered hc => exact absurd hq (not_quarantined_of_unknown hc)

theorem released_step {event : LedgerEvent} (hinv : s.Inv) (h : s.step event = some s')
    (hr : s.Released run) : s'.Released run := by
  cases runStep_of_step h run with
  | frame hruns hworld => simpa [Released, hruns] using hr
  | known hc hc' he hstep =>
    rw [released_iff hc']
    exact (Cell.step_inv ((hinv run).1 _ hc) hstep).2.released ((released_iff hc).mp hr)
  | opened domain hc => exact absurd hr (not_released_of_unknown hc)
  | answered hc => exact absurd hr (not_released_of_unknown hc)

theorem newly_released {event : LedgerEvent} (hinv : s.Inv) (h : s.step event = some s')
    (hr : s'.Released run) : s.Released run ∨ s'.Settled run ∨ s'.Quarantined run := by
  cases runStep_of_step h run with
  | frame hruns hworld => exact .inl (by simpa [Released, hruns] using hr)
  | known hc hc' he hstep =>
    rw [released_iff hc, (hinv.step h).settled_iff hc', quarantined_iff hc']
    have hadv := (Cell.step_inv ((hinv run).1 _ hc) hstep).2
    exact (hadv.newlyReleased ((released_iff hc').mp hr)).imp id Or.symm
  | opened domain hc hworld hc' => simp [released_iff hc'] at hr
  | answered hc hc' => exact absurd hr (not_released_of_unknown hc')

theorem newly_reported {event : LedgerEvent} (hinv : s.Inv) (h : s.step event = some s')
    {w : WaiterId} (hw : (w, .settled) ∈ (s'.world run).reports) :
    (w, .settled) ∈ (s.world run).reports ∨ s'.Settled run := by
  cases runStep_of_step h run with
  | frame hruns hworld => exact .inl (hworld ▸ hw)
  | known hc hc' he hstep =>
    rw [world_eq hc, (hinv.step h).settled_iff hc']
    rw [world_eq hc'] at hw
    exact (Cell.step_inv ((hinv run).1 _ hc) hstep).2.reports w hw
  | opened domain hc hworld => exact .inl (hworld ▸ hw)
  | answered hc hc' hworld => exact .inl (by simpa [hworld] using hw)

theorem Inv.released_of_over (h : s.Inv) (ho : s.Settled run ∨ s.Quarantined run) :
    s.Released run := by
  cases hc : s.cell run with
  | none =>
    obtain ⟨state, hstate, -⟩ | ⟨state, hstate, -⟩ := ho <;> simp [cell, hstate] at hc
  | some c =>
    rw [h.settled_iff hc, quarantined_iff hc] at ho
    exact (released_iff hc).mpr (((h run).1 c hc).released ho.symm)

theorem Inv.releases_eq (h : s.Inv) :
    (s.world run).releases.length ≤ 1 ∧ ((s.world run).releases.length = 1 ↔ s.Released run) := by
  cases hc : s.cell run with
  | none =>
    have := not_released_of_unknown hc
    simp [((h run).2 hc).releases, this]
  | some c =>
    have := ((h run).1 c hc).releases
    rw [released_iff hc, world_eq hc]
    cases hr : c.released <;> simp_all

theorem Execution.released_iff_over (h : Execution (s' :: past)) :
    s'.Released run ↔ ∃ s ∈ s' :: past, s.Settled run ∨ s.Quarantined run := by
  generalize htrace : s' :: past = trace at h
  induction h generalizing s' past with
  | init =>
    cases htrace
    simp [Released, Settled, Quarantined, Ledger.init]
  | step h event hstep ih =>
    cases htrace
    have hinv := Execution.inv h _ List.mem_cons_self
    have ih := ih rfl
    simp only [List.mem_cons, exists_eq_or_imp] at ih ⊢
    constructor
    · intro hr
      obtain hr | ho := newly_released hinv hstep hr
      · exact .inr (ih.mp hr)
      · exact .inl ho
    · rintro (ho | ho)
      · exact (hinv.step hstep).released_of_over ho
      · exact released_step hinv hstep (ih.mpr ho)

theorem Inv.waiters_perm (h : s.Inv) (run : RunId) :
    ((s.world run).timers ++ (s.world run).reports.map Prod.fst).Perm
      (List.range (s.world run).waits) := by
  cases hc : s.cell run with
  | none =>
    have hw := (h run).2 hc
    simpa [hw.timers] using hw.reports
  | some c =>
    have hw := (h run).1 c hc
    rw [world_eq hc, hw.timers]
    exact hw.waiters

theorem Inv.timers_eq_nil (h : s.Inv) (ho : s.Settled run ∨ s.Quarantined run) :
    (s.world run).timers = [] := by
  cases hc : s.cell run with
  | none => exact ((h run).2 hc).timers
  | some c =>
    rw [h.settled_iff hc, quarantined_iff hc] at ho
    have hw := (h run).1 c hc
    rw [world_eq hc, hw.timers]
    exact hw.answered ho.symm

theorem Inv.timeout_reports (h : s.Inv) {w : WaiterId} (hw : w ∈ (s.world run).timers) (now : Nat) :
    ∃ s', s.step (.on run (.timeout w) now) = some s' ∧
      w ∈ (s'.world run).reports.map Prod.fst := by
  cases hc : s.cell run with
  | none => simp [((h run).2 hc).timers] at hw
  | some c =>
    rw [world_eq hc] at hw
    refine ⟨s.store run (c.timeout w), by simp [Ledger.step, hc, Cell.step, hw], ?_⟩
    simp [store, Cell.timeout, Cell.resolve]

/-- In every execution a run is reported settled only in a state where it is sealed and all its
promises have settled, a quarantined run stays so, the domain is released at most once and has been
released exactly when the run was settled or quarantined at some time, and every waiter either
still waits for a timer that will tell it or was told exactly once. -/
theorem settles_late_and_releases_once (h : Execution (s' :: past)) (run : RunId) :
    (∀ s ∈ past.head?, ∀ w, (w, .settled) ∈ (s'.world run).reports →
      (w, .settled) ∈ (s.world run).reports ∨ s'.Settled run) ∧
    (∀ s ∈ past, s.Quarantined run → s'.Quarantined run) ∧
    ((s'.world run).releases.length ≤ 1 ∧ ((s'.world run).releases.length = 1 ↔
      ∃ s ∈ s' :: past, s.Settled run ∨ s.Quarantined run)) ∧
    (∀ w < (s'.world run).waits,
      (w ∈ (s'.world run).timers ∧ ((s'.world run).reports.map Prod.fst).count w = 0 ∧
        ∀ now, ∃ s'', s'.step (.on run (.timeout w) now) = some s'' ∧
          w ∈ (s''.world run).reports.map Prod.fst) ∨
      (w ∉ (s'.world run).timers ∧ ((s'.world run).reports.map Prod.fst).count w = 1)) ∧
    (s'.Settled run ∨ s'.Quarantined run → (s'.world run).timers = []) := by
  have hinv := Execution.inv h s' List.mem_cons_self
  refine ⟨?_, ?_, ?_, fun w hw => ?_, hinv.timers_eq_nil⟩
  · cases h with
    | init => nofun
    | step h event hstep =>
      rintro _ ⟨⟩ w hw
      exact newly_reported (Execution.inv h _ List.mem_cons_self) hstep hw
  · intro s hs hq
    have hstep : ∀ (s : Ledger) event s', s.Inv ∧ s.Quarantined run → s.step event = some s' →
        s'.Inv ∧ s'.Quarantined run :=
      fun s event s' hs hstep => ⟨hs.1.step hstep, quarantined_step hs.1 hstep hs.2⟩
    exact (h.stable hstep s hs ⟨Execution.inv h s (List.mem_cons_of_mem _ hs), hq⟩).2
  · rw [← Execution.released_iff_over h]
    exact hinv.releases_eq
  · have hcount := (hinv.waiters_perm run).count_eq w
    rw [List.count_append, List.count_range, if_pos hw] at hcount
    by_cases hmem : w ∈ (s'.world run).timers
    · have := List.count_pos_iff.mpr hmem
      exact .inl ⟨hmem, by omega, hinv.timeout_reports hmem⟩
    · exact .inr ⟨hmem, by rw [List.count_eq_zero_of_not_mem hmem] at hcount; omega⟩

theorem tool_finishes_and_run_settles : ∃ s past, Execution (s :: past) ∧ s.Settled "run" ∧
    ((s.world "run").releases.length ≤ 1 ∧ ((s.world "run").releases.length = 1 ↔
      ∃ t ∈ s :: past, t.Settled "run" ∨ t.Quarantined "run")) := by
  have h := (.init : Execution [init])
    |>.step (.on "run" (.opened (some 1)) 0) rfl
    |>.step (.on "run" .waitForSettlement 0) rfl
    |>.step (.on "run" (.track .tool "build") 5) rfl
    |>.step (.on "run" .sealRun 6) rfl
    |>.step (.on "run" (.settle 1) 9) rfl
  exact ⟨_, _, h, ⟨_, rfl, rfl, rfl⟩, (settles_late_and_releases_once h "run").2.2.1⟩

def TrackedBy (run : RunId) (events : List LedgerEvent) (entry : RunResourceEntry) : Prop :=
  .on run (.track entry.kind entry.label) entry.registeredAt ∈ events

def OnlyTracked (run : RunId) (s : Ledger) (events : List LedgerEvent) : Prop :=
  ∃ c, s.cell run = some c ∧ c.Closed ∧ ∀ entry ∈ c.snapshot, TrackedBy run events entry

theorem pending_eq {c : Cell} (hc : s.cell run = some c) : s.pending run = c.snapshot := by
  obtain ⟨state, hstate, rfl⟩ := Option.map_eq_some_iff.mp hc
  simp [pending, hstate]

theorem OnlyTracked.step {done : List LedgerEvent} {event : LedgerEvent} (hinv : s.Inv)
    (h : OnlyTracked run s done) (hstep : s.step event = some s') :
    OnlyTracked run s' (done ++ [event]) := by
  obtain ⟨c, hc, hclosed, hall⟩ := h
  have hall' : ∀ entry ∈ c.snapshot, TrackedBy run (done ++ [event]) entry :=
    fun entry he => List.mem_append_left _ (hall entry he)
  cases runStep_of_step hstep run with
  | frame hruns hworld =>
    obtain ⟨state, hstate, rfl⟩ := Option.map_eq_some_iff.mp hc
    refine ⟨⟨state, s'.world run, s'.sequence⟩, by simp [cell, hruns, hstate], ?_, hall'⟩
    rw [hworld]
    exact hclosed
  | known hc₀ hc' he hstep' =>
    cases hc.symm.trans hc₀
    obtain ⟨kind, label, rfl, rfl⟩ | heff := Cell.step_cases hstep'
    · obtain ⟨hclosed', hsub⟩ := hclosed.register kind label _
      refine ⟨_, hc', hclosed', fun entry hentry => ?_⟩
      cases List.mem_append.mp (hsub hentry) with
      | inl hold => exact hall' entry hold
      | inr hnew =>
        cases List.mem_singleton.mp hnew
        simp [TrackedBy, he]
    · obtain ⟨hclosed', hsub⟩ := heff.closed ((hinv run).1 c hc) hclosed
      exact ⟨_, hc', hclosed', fun entry hentry => hall' entry (hsub hentry)⟩
  | opened domain hc₀ => simp [hc] at hc₀
  | answered hc₀ => simp [hc] at hc₀

theorem Inv.onlyTracked (hinv : s.Inv) (h : s.Settled run) : OnlyTracked run s [] := by
  cases hc : s.cell run with
  | none =>
    obtain ⟨state, hstate, -⟩ := h
    simp [cell, hstate] at hc
  | some c =>
    have hs := (hinv.settled_iff hc).mp h
    refine ⟨c, hc, ((hinv run).1 c hc).closed hs, ?_⟩
    simp [RunState.snapshot, hs.1, hs.2]

/-- After a waiter was told that a run is settled, only the ledger's own `track` on that run makes
it have unresolved resources again: whatever is pending later was registered by such a call. -/
theorem settled_run_reopens_only_by_track (h : Execution (s' :: s :: past)) {w : WaiterId}
    (hbefore : (w, .settled) ∉ (s.world run).reports)
    (htold : (w, .settled) ∈ (s'.world run).reports) {events : List LedgerEvent} {s'' : Ledger}
    (hrun : Data.runEvents step s' events = some s'') :
    ∀ entry ∈ s''.pending run,
      LedgerEvent.on run (.track entry.kind entry.label) entry.registeredAt ∈ events := by
  cases h with
  | step h event hstep =>
    have hinv := Execution.inv h s List.mem_cons_self
    have hsettled := (newly_reported hinv hstep htold).resolve_left hbefore
    have hinv' := hinv.step hstep
    have hfinal : s''.Inv ∧ OnlyTracked run s'' ([] ++ events) :=
      Data.runEvents_invariant
        (P := fun s done => s.Inv ∧ OnlyTracked run s done)
        (fun _ _ _ _ hP hs => ⟨hP.1.step hs, hP.2.step hP.1 hs⟩) hrun
        ⟨hinv', hinv'.onlyTracked hsettled⟩
    obtain ⟨-, c, hc, -, hall⟩ := hfinal
    rw [pending_eq hc]
    exact hall

theorem late_track_is_pending : ∃ s s' s'' past events, Execution (s' :: s :: past) ∧
    (0, .settled) ∉ (s.world "run").reports ∧ (0, .settled) ∈ (s'.world "run").reports ∧
      Data.runEvents step s' events = some s'' ∧
      (s''.pending "run").map (·.label) = ["hook"] ∧ ∀ entry ∈ s''.pending "run",
        LedgerEvent.on "run" (.track entry.kind entry.label) entry.registeredAt ∈ events := by
  have h := (.init : Execution [init])
    |>.step (.on "run" (.opened (some 1)) 0) rfl
    |>.step (.on "run" .waitForSettlement 0) rfl
    |>.step (.on "run" .sealRun 6) rfl
  exact ⟨_, _, _, _, [.on "run" (.track .postPrompt "hook") 7], h, by decide, by decide, rfl,
    by decide, settled_run_reopens_only_by_track (w := 0) h (by decide) (by decide) rfl⟩

theorem settlement_is_not_final : ¬∀ (s s' s'' : Ledger) (past : List Ledger) (run : RunId)
    (w : WaiterId) (events : List LedgerEvent), Execution (s' :: s :: past) →
      (w, .settled) ∉ (s.world run).reports → (w, .settled) ∈ (s'.world run).reports →
      Data.runEvents step s' events = some s'' → s''.pending run = [] := by
  intro hfinal
  have h := (.init : Execution [init])
    |>.step (.on "run" (.opened (some 1)) 0) rfl
    |>.step (.on "run" .waitForSettlement 0) rfl
    |>.step (.on "run" .sealRun 6) rfl
  have hempty := hfinal _ _ _ _ "run" 0 [.on "run" (.track .postPrompt "hook") 7] h (by decide)
    (by decide) rfl
  revert hempty
  decide

end JevCode.Agent.Ledger
