import Mathlib.Data.Option.Basic

namespace JevCode.Data

variable {σ ε : Type}

/-- The states an execution from `init` has visited, the latest first. -/
inductive Execution (step : σ → ε → Option σ) (init : σ) : List σ → Prop
  | init : Execution step init [init]
  | step {s s' : σ} {past : List σ} (h : Execution step init (s :: past)) (event : ε)
      (hstep : step s event = some s') : Execution step init (s' :: s :: past)

/-- The state after a list of events, if each of them can happen in its turn. -/
def runEvents (step : σ → ε → Option σ) (s : σ) : List ε → Option σ
  | [] => some s
  | event :: events => (step s event).bind fun s' => runEvents step s' events

variable {step : σ → ε → Option σ} {init : σ}

theorem Execution.invariant {P : σ → Prop} (hinit : P init)
    (hstep : ∀ s event s', P s → step s event = some s' → P s') {trace : List σ}
    (h : Execution step init trace) : ∀ s ∈ trace, P s := by
  induction h with
  | init => simpa using hinit
  | step h event he ih =>
    intro t ht
    cases ht with
    | head => exact hstep _ event _ (ih _ List.mem_cons_self) he
    | tail _ ht => exact ih t ht

theorem Execution.stable {P : σ → Prop}
    (hstep : ∀ s event s', P s → step s event = some s' → P s') {s' : σ} {past : List σ}
    (h : Execution step init (s' :: past)) : ∀ s ∈ past, P s → P s' := by
  generalize htrace : s' :: past = trace at h
  induction h generalizing s' past with
  | init => cases htrace; simp
  | step h event he ih =>
    cases htrace
    intro t ht hP
    cases ht with
    | head => exact hstep _ event _ hP he
    | tail _ ht => exact hstep _ event _ (ih rfl t ht hP) he

theorem runEvents_some (f : σ → ε → σ) (s : σ) (events : List ε) :
    runEvents (fun s event => some (f s event)) s events = some (events.foldl f s) := by
  induction events generalizing s with
  | nil => rfl
  | cons event events ih => exact ih (f s event)

theorem runEvents_invariant {P : σ → List ε → Prop}
    (hstep : ∀ s done event s', P s done → step s event = some s' → P s' (done ++ [event]))
    {events : List ε} {s s' : σ} {done : List ε} (h : runEvents step s events = some s')
    (hP : P s done) : P s' (done ++ events) := by
  induction events generalizing s done with
  | nil =>
    cases h
    simpa using hP
  | cons event events ih =>
    obtain ⟨t, ht, h⟩ := Option.bind_eq_some_iff.mp h
    have := ih h (hstep s done event t hP ht)
    simpa using this

theorem runEvents_preserves {P : σ → Prop}
    (hstep : ∀ s event s', P s → step s event = some s' → P s') {events : List ε} {s s' : σ}
    (h : runEvents step s events = some s') (hP : P s) : P s' := by
  induction events generalizing s with
  | nil =>
    cases h
    exact hP
  | cons event events ih =>
    obtain ⟨t, ht, h⟩ := Option.bind_eq_some_iff.mp h
    exact ih h (hstep s event t hP ht)

/-- Every event of a run meets a condition on the state before it. -/
def RunMeets (step : σ → ε → Option σ) (ok : σ → ε → Prop) (s : σ) : List ε → Prop
  | [] => True
  | event :: events => ok s event ∧ ∀ s' ∈ step s event, RunMeets step ok s' events

instance RunMeets.decidable {ok : σ → ε → Prop} [∀ s event, Decidable (ok s event)] :
    ∀ (s : σ) (events : List ε), Decidable (RunMeets step ok s events)
  | _, [] => isTrue trivial
  | s, event :: events =>
    have : ∀ s', Decidable (RunMeets step ok s' events) := fun s' => RunMeets.decidable s' events
    inferInstanceAs (Decidable (ok s event ∧ ∀ s' ∈ step s event, RunMeets step ok s' events))

theorem RunMeets.invariant {ok : σ → ε → Prop} {P : σ → Prop}
    (hstep : ∀ s event s', P s → ok s event → step s event = some s' → P s') {events : List ε}
    {s s' : σ} (hok : RunMeets step ok s events) (h : runEvents step s events = some s') (hP : P s) :
    P s' := by
  induction events generalizing s with
  | nil =>
    cases h
    exact hP
  | cons event events ih =>
    obtain ⟨t, ht, h⟩ := Option.bind_eq_some_iff.mp h
    exact ih (hok.2 t ht) h (hstep s event t hP hok.1 ht)

theorem RunMeets.append {ok : σ → ε → Prop} {xs ys : List ε} {s t : σ}
    (hok : RunMeets step ok s (xs ++ ys)) (h : runEvents step s xs = some t) :
    RunMeets step ok s xs ∧ RunMeets step ok t ys := by
  induction xs generalizing s with
  | nil =>
    cases h
    exact ⟨trivial, hok⟩
  | cons event xs ih =>
    obtain ⟨s', hs', h⟩ := Option.bind_eq_some_iff.mp h
    obtain ⟨hxs, hys⟩ := ih (hok.2 s' hs') h
    refine ⟨⟨hok.1, fun s'' hs'' => ?_⟩, hys⟩
    rw [Option.mem_def, hs'] at hs''
    cases hs''
    exact hxs

variable {τ ω : Type}

def runOutputs (f : σ → ε → σ × ω) (s : σ) : List ε → List ω
  | [] => []
  | event :: events => (f s event).2 :: runOutputs f (f s event).1 events

theorem runOutputs_eq_of_simulation {f : σ → ε → σ × ω} {g : τ → ε → τ × ω} {R : σ → τ → Prop}
    (hstep : ∀ s t event, R s t → (f s event).2 = (g t event).2 ∧ R (f s event).1 (g t event).1)
    {s : σ} {t : τ} (h : R s t) (events : List ε) :
    runOutputs f s events = runOutputs g t events := by
  induction events generalizing s t with
  | nil => rfl
  | cons event events ih =>
    obtain ⟨hresult, hnext⟩ := hstep s t event h
    simp only [runOutputs, hresult, ih hnext]

end JevCode.Data
