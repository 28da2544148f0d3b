import JevCode.Data.Runs
import Mathlib.Data.Finset.Card

namespace JevCode.Session

open Data

inductive FallbackTriggerClass
  | rateLimit
  | quota
  | auth
  | credential
  | server
  | unknown
  | other
  deriving DecidableEq

structure FallbackFailure where
  selector : String
  triggerClass : FallbackTriggerClass
  reason : String
  deriving DecidableEq

inductive FallbackFailureResult
  | retry
  | advance
  | exhausted
  deriving DecidableEq

structure FallbackChain where
  entries : List String
  maxAttempts : Nat
  maxAttempts_pos : 1 ≤ maxAttempts

structure FallbackChainController (chain : FallbackChain) where
  activeIndex : Nat
  attemptsUsed : Nat
  tried : List FallbackFailure
  attemptStarted : Bool
  totalAttemptsUsed : Nat
  restoredEntryIndices : Finset Nat
  exhaustedForTurn : Bool
  deriving DecidableEq

namespace FallbackChainController

def new (chain : FallbackChain) : FallbackChainController chain where
  activeIndex := 0
  attemptsUsed := 0
  tried := []
  attemptStarted := false
  totalAttemptsUsed := 0
  restoredEntryIndices := ∅
  exhaustedForTurn := chain.entries.length = 0

variable {chain : FallbackChain} (c : FallbackChainController chain)

def maxTotalAttempts : Nat := chain.maxAttempts * chain.entries.length + c.restoredEntryIndices.card

def currentSelector : Option String := chain.entries[c.activeIndex]?.filter (· ≠ "")

def resetSticky (_ : FallbackChainController chain) : FallbackChainController chain := new chain

def exhaust : FallbackChainController chain :=
  { c with activeIndex := chain.entries.length, exhaustedForTurn := true }

def onAttemptStarted : FallbackChainController chain :=
  if c.currentSelector.isNone ∨ c.exhaustedForTurn then c
  else if c.totalAttemptsUsed ≥ c.maxTotalAttempts then c.exhaust
  else { c with
    attemptsUsed := c.attemptsUsed + 1
    totalAttemptsUsed := c.totalAttemptsUsed + 1
    attemptStarted := true }

def advance : Bool × FallbackChainController chain :=
  if c.exhaustedForTurn then (false, c)
  else
    let c := { c with activeIndex := c.activeIndex + 1, attemptsUsed := 0, attemptStarted := false }
    if c.activeIndex ≥ chain.entries.length then (false, { c with
      exhaustedForTurn := true }) else (true, c)

def chargeFailure (failure : FallbackFailure) : FallbackChainController chain :=
  let c := if c.attemptStarted then c
    else { c with attemptsUsed := c.attemptsUsed + 1, totalAttemptsUsed := c.totalAttemptsUsed + 1 }
  { c with attemptStarted := false, tried := c.tried ++ [failure] }

def onAttemptFailure (triggerClass : FallbackTriggerClass) (reason : String) :
    FallbackFailureResult × FallbackChainController chain :=
  match c.currentSelector with
  | none => (.exhausted, c)
  | some selector =>
    if c.exhaustedForTurn then (.exhausted, c)
    else
      let c := c.chargeFailure ⟨selector, triggerClass, reason⟩
      if c.totalAttemptsUsed ≥ c.maxTotalAttempts then (.exhausted, c.exhaust)
      else if c.attemptsUsed < chain.maxAttempts then (.retry, c)
      else
        let (advanced, c) := c.advance
        (if advanced then .advance else .exhausted, c)

def restorePreviousEntryForRetry : Bool × FallbackChainController chain :=
  if c.activeIndex = 0 ∨ c.exhaustedForTurn ∨ c.activeIndex - 1 ∈ c.restoredEntryIndices ∨
      c.totalAttemptsUsed ≥ c.maxTotalAttempts then (false, c)
  else
    (true, { c with
      restoredEntryIndices := insert (c.activeIndex - 1) c.restoredEntryIndices
      activeIndex := c.activeIndex - 1
      attemptsUsed := chain.maxAttempts - 1
      exhaustedForTurn := false
      attemptStarted := false })

end FallbackChainController

inductive FallbackEvent
  | attemptStarted
  | attemptFailure (triggerClass : FallbackTriggerClass) (reason : String)
  | restore

structure FallbackRun (chain : FallbackChain) where
  controller : FallbackChainController chain
  failed : Nat → Nat

namespace FallbackRun

variable {chain : FallbackChain}

def start (c : FallbackChainController chain) : FallbackRun chain := ⟨c.resetSticky, fun _ => 0⟩

def step (s : FallbackRun chain) : FallbackEvent → FallbackRun chain
  | .attemptStarted => { s with controller := s.controller.onAttemptStarted }
  | .attemptFailure triggerClass reason =>
    { controller := (s.controller.onAttemptFailure triggerClass reason).2
      failed := fun i =>
        if s.controller.currentSelector.isSome ∧ s.controller.exhaustedForTurn = false ∧
          i = s.controller.activeIndex
        then s.failed i + 1 else s.failed i }
  | .restore => { s with controller := s.controller.restorePreviousEntryForRetry.2 }

def run (s : FallbackRun chain) (events : List FallbackEvent) : FallbackRun chain :=
  events.foldl step s

def Meant (s : FallbackRun chain) : FallbackEvent → Prop
  | .attemptStarted => s.controller.attemptStarted = false
  | .attemptFailure _ _ => True
  | .restore => s.controller.attemptsUsed = 0

instance (s : FallbackRun chain) (event : FallbackEvent) : Decidable (s.Meant event) :=
  match event with
  | .attemptStarted => inferInstanceAs (Decidable (_ = _))
  | .attemptFailure _ _ => isTrue trivial
  | .restore => inferInstanceAs (Decidable (_ = _))

def RunMeant (s : FallbackRun chain) (events : List FallbackEvent) : Prop :=
  RunMeets (fun s event => some (s.step event)) Meant s events

instance (s : FallbackRun chain) (events : List FallbackEvent) : Decidable (s.RunMeant events) :=
  RunMeets.decidable s events

end FallbackRun

variable {chain : FallbackChain}

namespace FallbackChainController

variable {c : FallbackChainController chain}

def Live (c : FallbackChainController chain) : Prop :=
  c.currentSelector.isSome ∧ c.exhaustedForTurn = false

instance : Decidable c.Live := inferInstanceAs (Decidable (_ ∧ _))

theorem Live.activeIndex_lt (h : c.Live) : c.activeIndex < chain.entries.length := by
  obtain ⟨selector, hselector⟩ := Option.isSome_iff_exists.mp h.1
  obtain ⟨hget, -⟩ := Option.filter_eq_some_iff.mp hselector
  exact (List.getElem?_eq_some_iff.mp hget).1

theorem live_of_activeIndex_lt (hentries : ∀ e ∈ chain.entries, e ≠ "")
    (hindex : c.activeIndex < chain.entries.length) (h : c.exhaustedForTurn = false) : c.Live := by
  refine ⟨?_, h⟩
  rw [currentSelector, List.getElem?_eq_getElem hindex, Option.filter_some, if_pos]
  · rfl
  · exact decide_eq_true (hentries _ (List.getElem_mem hindex))

theorem onAttemptStarted_of_live (h : c.Live) :
    c.onAttemptStarted = if c.totalAttemptsUsed ≥ c.maxTotalAttempts then c.exhaust else
      { c with
        attemptsUsed := c.attemptsUsed + 1
        totalAttemptsUsed := c.totalAttemptsUsed + 1
        attemptStarted := true } := by
  have hlive : ¬(c.currentSelector.isNone ∨ c.exhaustedForTurn) := by
    simp [← Option.not_isSome, h.1, h.2]
  rw [onAttemptStarted, if_neg hlive]

theorem onAttemptStarted_of_not_live (h : ¬c.Live) : c.onAttemptStarted = c := by
  rw [onAttemptStarted, if_pos]
  by_contra hnone
  rw [not_or, ← Option.not_isSome, Bool.not_eq_true, Bool.not_eq_true, Bool.not_eq_false'] at hnone
  exact h hnone

theorem onAttemptFailure_of_not_live (h : ¬c.Live) (triggerClass : FallbackTriggerClass)
    (reason : String) :
    c.onAttemptFailure triggerClass reason = (.exhausted, c) := by
  unfold onAttemptFailure
  cases hselector : c.currentSelector with
  | none => rfl
  | some selector =>
    have hexhausted : c.exhaustedForTurn = true := by
      by_contra hexhausted
      exact h ⟨by rw [hselector]; rfl, Bool.eq_false_iff.mpr hexhausted⟩
    simp only
    rw [if_pos hexhausted]

theorem onAttemptFailure_of_live (h : c.Live) (triggerClass : FallbackTriggerClass)
    (reason : String) :
    ∃ failure, ∃ d, d = c.chargeFailure failure ∧
      c.onAttemptFailure triggerClass reason =
        if d.totalAttemptsUsed ≥ d.maxTotalAttempts then (.exhausted, d.exhaust)
        else if d.attemptsUsed < chain.maxAttempts then (.retry, d)
        else if d.activeIndex + 1 ≥ chain.entries.length then
          (.exhausted, { d with
            activeIndex := d.activeIndex + 1, attemptsUsed := 0, attemptStarted := false, exhaustedForTurn := true })
        else (.advance, { d with activeIndex := d.activeIndex + 1, attemptsUsed := 0, attemptStarted := false }) := by
  obtain ⟨selector, hselector⟩ := Option.isSome_iff_exists.mp h.1
  refine ⟨⟨selector, triggerClass, reason⟩, _, rfl, ?_⟩
  have hcharged : (c.chargeFailure ⟨selector, triggerClass, reason⟩).exhaustedForTurn = false := by
    rw [chargeFailure]
    split <;> exact h.2
  unfold onAttemptFailure
  rw [hselector]
  simp only [h.2, Bool.false_eq_true, if_false]
  split
  · rfl
  split
  · rfl
  rw [advance, hcharged]
  simp only [Bool.false_eq_true, if_false]
  split
  · rfl
  · rfl

structure Bounded (c : FallbackChainController chain) : Prop where
  activeIndex_le : c.activeIndex ≤ chain.entries.length
  restored_subset : c.restoredEntryIndices ⊆ Finset.range chain.entries.length
  total_le : c.totalAttemptsUsed ≤ c.maxTotalAttempts
  total_lt : c.exhaustedForTurn = false → c.attemptStarted = false →
    c.totalAttemptsUsed < c.maxTotalAttempts

theorem Bounded.resetSticky (c : FallbackChainController chain) : c.resetSticky.Bounded := by
  refine ⟨Nat.zero_le _, Finset.empty_subset _, Nat.zero_le _, fun h _ => ?_⟩
  have hentries : chain.entries.length ≠ 0 := of_decide_eq_false h
  exact Nat.lt_of_lt_of_le (Nat.mul_pos chain.maxAttempts_pos (Nat.pos_of_ne_zero hentries))
    (Nat.le_add_right _ _)

theorem Bounded.onAttemptStarted (h : c.Bounded) : c.onAttemptStarted.Bounded := by
  by_cases hlive : c.Live
  · rw [onAttemptStarted_of_live hlive]
    split
    next => exact ⟨Nat.le_refl _, h.restored_subset, h.total_le, fun h _ => nomatch h⟩
    next hlt => exact ⟨h.activeIndex_le, h.restored_subset, Nat.not_le.mp hlt, fun _ h => nomatch h⟩
  · rwa [onAttemptStarted_of_not_live hlive]

theorem Bounded.chargeFailure (h : c.Bounded) (hlive : c.Live) (failure : FallbackFailure) :
    (c.chargeFailure failure).activeIndex ≤ chain.entries.length ∧
      (c.chargeFailure failure).restoredEntryIndices ⊆ Finset.range chain.entries.length ∧
      (c.chargeFailure failure).totalAttemptsUsed ≤ (c.chargeFailure failure).maxTotalAttempts := by
  rw [FallbackChainController.chargeFailure]
  split
  next => exact ⟨h.activeIndex_le, h.restored_subset, h.total_le⟩
  next hstarted =>
    exact ⟨h.activeIndex_le, h.restored_subset, h.total_lt hlive.2 (Bool.eq_false_iff.mpr hstarted)⟩

theorem chargeFailure_activeIndex (failure : FallbackFailure) :
    (c.chargeFailure failure).activeIndex = c.activeIndex := by
  rw [FallbackChainController.chargeFailure]
  split <;> rfl

theorem Bounded.onAttemptFailure (h : c.Bounded) (triggerClass : FallbackTriggerClass)
    (reason : String) :
    (c.onAttemptFailure triggerClass reason).2.Bounded := by
  by_cases hlive : c.Live
  · obtain ⟨failure, d, rfl, heq⟩ := onAttemptFailure_of_live hlive triggerClass reason
    obtain ⟨hindex, hrestored, htotal⟩ := h.chargeFailure hlive failure
    have hactive := hlive.activeIndex_lt
    rw [← chargeFailure_activeIndex failure] at hactive
    rw [heq]
    split
    next => exact ⟨Nat.le_refl _, hrestored, htotal, fun h _ => nomatch h⟩
    next hlt =>
    split
    next => exact ⟨hindex, hrestored, htotal, fun _ _ => Nat.not_le.mp hlt⟩
    next =>
    split
    next => exact ⟨hactive, hrestored, htotal, fun _ _ => Nat.not_le.mp hlt⟩
    next => exact ⟨hactive, hrestored, htotal, fun _ _ => Nat.not_le.mp hlt⟩
  · rwa [onAttemptFailure_of_not_live hlive]

theorem restore_cases (c : FallbackChainController chain) :
    c.restorePreviousEntryForRetry = (false, c) ∨
      0 < c.activeIndex ∧ c.exhaustedForTurn = false ∧ c.activeIndex - 1 ∉ c.restoredEntryIndices ∧
      c.restorePreviousEntryForRetry = (true, { c with
        restoredEntryIndices := insert (c.activeIndex - 1) c.restoredEntryIndices
        activeIndex := c.activeIndex - 1
        attemptsUsed := chain.maxAttempts - 1
        exhaustedForTurn := false
        attemptStarted := false }) := by
  rw [restorePreviousEntryForRetry]
  split
  next => exact .inl rfl
  next h =>
    rw [not_or, not_or, not_or] at h
    exact .inr ⟨Nat.pos_of_ne_zero h.1, Bool.eq_false_iff.mpr h.2.1, h.2.2.1, rfl⟩

theorem Bounded.restore (h : c.Bounded) : c.restorePreviousEntryForRetry.2.Bounded := by
  obtain heq | ⟨hpos, -, hnew, heq⟩ := restore_cases c
  · rwa [heq]
  · have hindex := h.activeIndex_le
    have htotal := h.total_le
    have hcard := Finset.card_insert_of_notMem hnew
    rw [heq]
    refine ⟨Nat.le_trans (Nat.sub_le _ _) hindex, Finset.insert_subset ?_ h.restored_subset, ?_,
      fun _ _ => ?_⟩
    · exact Finset.mem_range.mpr (by omega)
    · rw [maxTotalAttempts] at htotal
      simp only [maxTotalAttempts, hcard]
      omega
    · rw [maxTotalAttempts] at htotal
      simp only [maxTotalAttempts, hcard]
      omega

end FallbackChainController

namespace FallbackRun

open FallbackChainController

variable {s : FallbackRun chain}

theorem step_bounded (h : s.controller.Bounded) (event : FallbackEvent) :
    (s.step event).controller.Bounded := by
  cases event with
  | attemptStarted => exact h.onAttemptStarted
  | attemptFailure triggerClass reason => exact h.onAttemptFailure triggerClass reason
  | restore => exact h.restore

theorem run_bounded (c : FallbackChainController chain) (events : List FallbackEvent) :
    ((start c).run events).controller.Bounded :=
  runEvents_preserves (P := fun s => s.controller.Bounded)
    (fun _ event _ h heq => Option.some.inj heq ▸ step_bounded h event)
    (runEvents_some step (start c) events) (.resetSticky c)

/-- What is left of the budget is enough for the entries to come, and the entries before have failed
as often as they may. -/
structure Fair (s : FallbackRun chain) : Prop where
  exhausted : s.controller.exhaustedForTurn = true →
    ∀ i < chain.entries.length, chain.maxAttempts ≤ s.failed i
  activeIndex_lt : s.controller.exhaustedForTurn = false →
    s.controller.activeIndex < chain.entries.length
  used_le : s.controller.exhaustedForTurn = false →
    s.controller.attemptsUsed + (if s.controller.attemptStarted then 0 else 1) ≤ chain.maxAttempts
  budget : s.controller.exhaustedForTurn = false →
    s.controller.totalAttemptsUsed + (chain.entries.length - s.controller.activeIndex) *
    chain.maxAttempts ≤
      s.controller.maxTotalAttempts + s.controller.attemptsUsed
  before : ∀ i < s.controller.activeIndex, i < chain.entries.length → chain.maxAttempts ≤ s.failed i
  active : s.controller.exhaustedForTurn = false → s.controller.attemptsUsed ≤
    s.failed s.controller.activeIndex + (if s.controller.attemptStarted then 1 else 0)

theorem Fair.start (c : FallbackChainController chain) : Fair (FallbackRun.start c) := by
  refine ⟨fun h i hi => ?_, fun h => ?_, fun _ => ?_, fun _ => ?_, fun i hi => ?_,
    fun _ => Nat.zero_le _⟩
  · have hnone : chain.entries.length = 0 := of_decide_eq_true h
    omega
  · exact Nat.pos_of_ne_zero (of_decide_eq_false h)
  · exact chain.maxAttempts_pos
  · change 0 + (chain.entries.length - 0) * chain.maxAttempts ≤ chain.maxAttempts *
      chain.entries.length + 0 + 0
    rw [Nat.sub_zero, Nat.mul_comm]
    omega
  · exact absurd hi (Nat.not_lt_zero i)

theorem Fair.of_exhausted (hexhausted : s.controller.exhaustedForTurn = true)
    (hall : ∀ i < chain.entries.length, chain.maxAttempts ≤ s.failed i) : s.Fair := by
  have hno {p : Prop} (h : s.controller.exhaustedForTurn = false) : p :=
    absurd (hexhausted.symm.trans h) (by decide)
  exact ⟨fun _ => hall, hno, hno, hno, fun i _ => hall i, hno⟩

theorem Fair.total_lt (h : s.Fair) (hlive : s.controller.Live)
    (hstarted : s.controller.attemptStarted = false) :
    s.controller.totalAttemptsUsed < s.controller.maxTotalAttempts := by
  have hindex := hlive.activeIndex_lt
  have hused := h.used_le hlive.2
  have hbudget := h.budget hlive.2
  have hroom := Nat.le_mul_of_pos_left chain.maxAttempts (Nat.sub_pos_of_lt hindex)
  rw [hstarted] at hused
  simp only [Bool.false_eq_true, if_false] at hused
  omega

theorem Fair.attemptStarted (h : s.Fair) (hmeant : s.Meant .attemptStarted) :
    Fair (s.step .attemptStarted) := by
  by_cases hlive : s.controller.Live
  · have hstarted : s.controller.attemptStarted = false := hmeant
    have hused := h.used_le hlive.2
    have hbudget := h.budget hlive.2
    have hactive := h.active hlive.2
    rw [hstarted] at hused hactive
    simp only [Bool.false_eq_true, if_false] at hused hactive
    rw [step, onAttemptStarted_of_live hlive, if_neg (Nat.not_le.mpr (h.total_lt hlive hstarted))]
    refine ⟨fun hexhausted => ?_, fun _ => hlive.activeIndex_lt, fun _ => hused, fun _ => ?_,
      h.before, fun _ => ?_⟩
    · exact h.exhausted hexhausted
    · change s.controller.totalAttemptsUsed + 1 + (chain.entries.length - s.controller.activeIndex) *
        chain.maxAttempts ≤
        s.controller.maxTotalAttempts + (s.controller.attemptsUsed + 1)
      omega
    · exact Nat.succ_le_succ hactive
  · rwa [step, onAttemptStarted_of_not_live hlive]

theorem all_failed {failed : Nat → Nat} {index : Nat} (hlast : chain.entries.length ≤ index + 1)
    (hbefore : ∀ i < index, i < chain.entries.length → chain.maxAttempts ≤ failed i)
    (hactive : chain.maxAttempts ≤ failed index) :
    ∀ i < chain.entries.length, chain.maxAttempts ≤ failed i := by
  intro i hi
  obtain hlt | rfl := Nat.lt_or_eq_of_le (Nat.le_of_lt_succ (Nat.lt_of_lt_of_le hi hlast))
  · exact hbefore i hlt hi
  · exact hactive

structure Charged (d : FallbackChainController chain) (failed : Nat → Nat) : Prop where
  activeIndex_lt : d.activeIndex < chain.entries.length
  notExhausted : d.exhaustedForTurn = false
  notStarted : d.attemptStarted = false
  used_le : d.attemptsUsed ≤ chain.maxAttempts
  active : d.attemptsUsed ≤ failed d.activeIndex
  budget : d.totalAttemptsUsed + (chain.entries.length - d.activeIndex) * chain.maxAttempts ≤
    d.maxTotalAttempts + d.attemptsUsed
  before : ∀ i < d.activeIndex, i < chain.entries.length → chain.maxAttempts ≤ failed i

theorem Fair.charged (h : s.Fair) (hlive : s.controller.Live) (triggerClass : FallbackTriggerClass)
    (reason : String) (failure : FallbackFailure) :
    Charged (s.controller.chargeFailure failure)
      (s.step (.attemptFailure triggerClass reason)).failed := by
  have hused := h.used_le hlive.2
  have hbudget := h.budget hlive.2
  have hactive := h.active hlive.2
  have hfailed : (s.step (.attemptFailure triggerClass reason)).failed s.controller.activeIndex =
      s.failed s.controller.activeIndex + 1 := by
    simp only [step, hlive.1, hlive.2, and_self, if_true]
  have hbefore : ∀ i < s.controller.activeIndex, i < chain.entries.length →
      chain.maxAttempts ≤ (s.step (.attemptFailure triggerClass reason)).failed i := by
    intro i hi hlength
    refine Nat.le_trans (h.before i hi hlength) ?_
    simp only [step]
    split <;> omega
  rw [chargeFailure]
  cases hstarted : s.controller.attemptStarted with
  | false =>
    rw [hstarted] at hused hactive
    refine ⟨hlive.activeIndex_lt, hlive.2, rfl, hused, ?_, ?_, hbefore⟩
    · exact (Nat.succ_le_succ hactive).trans hfailed.ge
    · change s.controller.totalAttemptsUsed + 1 + (chain.entries.length - s.controller.activeIndex) *
        chain.maxAttempts ≤ s.controller.maxTotalAttempts + (s.controller.attemptsUsed + 1)
      omega
  | true =>
    rw [hstarted] at hused hactive
    exact ⟨hlive.activeIndex_lt, hlive.2, rfl, hused, hactive.trans hfailed.ge, hbudget, hbefore⟩

section Charged

variable {d : FallbackChainController chain} {failed : Nat → Nat}

theorem Charged.left (h : Charged d failed) :
    (chain.entries.length - d.activeIndex) * chain.maxAttempts =
      (chain.entries.length - (d.activeIndex + 1)) * chain.maxAttempts + chain.maxAttempts := by
  have hindex := h.activeIndex_lt
  rw [← Nat.succ_mul]
  congr 1
  omega

theorem Charged.exhaust (h : Charged d failed) (hfull : d.totalAttemptsUsed ≥ d.maxTotalAttempts) :
    Fair ⟨d.exhaust, failed⟩ := by
  have hused := h.used_le
  have hactive := h.active
  have hbudget := h.budget
  have hleft := h.left
  have hlast : chain.entries.length - (d.activeIndex + 1) = 0 := by
    by_contra hmore
    have := Nat.le_mul_of_pos_left chain.maxAttempts (Nat.pos_of_ne_zero hmore)
    have := chain.maxAttempts_pos
    omega
  rw [hlast, Nat.zero_mul] at hleft
  have hall : chain.maxAttempts ≤ failed d.activeIndex := by omega
  exact .of_exhausted rfl (all_failed (by omega) h.before hall)

theorem Charged.retry (h : Charged d failed) (hretry : d.attemptsUsed < chain.maxAttempts) :
    Fair ⟨d, failed⟩ := by
  refine ⟨fun hno => ?_, fun _ => h.activeIndex_lt, fun _ => ?_, fun _ => h.budget,
    h.before, fun _ => ?_⟩
  · exact absurd (h.notExhausted.symm.trans hno) Bool.false_ne_true
  · rw [h.notStarted]
    exact hretry
  · exact Nat.le_add_right_of_le h.active

theorem Charged.last (h : Charged d failed) (hused : ¬d.attemptsUsed < chain.maxAttempts)
    (hend : d.activeIndex + 1 ≥ chain.entries.length) :
    Fair (⟨{ d with
      activeIndex := d.activeIndex + 1, attemptsUsed := 0, attemptStarted :=
  false, exhaustedForTurn := true }, failed⟩ : FallbackRun chain) :=
  .of_exhausted rfl (all_failed hend h.before (Nat.le_trans (Nat.not_lt.mp hused) h.active))

theorem Charged.advance (h : Charged d failed) (hused : ¬d.attemptsUsed < chain.maxAttempts)
    (hmore : ¬d.activeIndex + 1 ≥ chain.entries.length) :
    Fair (⟨{ d with activeIndex := d.activeIndex + 1, attemptsUsed := 0, attemptStarted := false },
      failed⟩ : FallbackRun chain) := by
  have hactive : chain.maxAttempts ≤ failed d.activeIndex :=
    Nat.le_trans (Nat.not_lt.mp hused) h.active
  refine ⟨fun hno => ?_, fun _ => Nat.not_le.mp hmore, fun _ => chain.maxAttempts_pos, fun _ => ?_,
    fun i hi hlength => ?_, fun _ => Nat.zero_le _⟩
  · exact absurd (h.notExhausted.symm.trans hno) Bool.false_ne_true
  · have hle := h.used_le
    have hbudget := h.budget
    have hleft := h.left
    change d.totalAttemptsUsed + (chain.entries.length - (d.activeIndex + 1)) * chain.maxAttempts ≤
      d.maxTotalAttempts + 0
    omega
  · obtain hlt | rfl := Nat.lt_or_eq_of_le (Nat.le_of_lt_succ hi)
    · exact h.before i hlt hlength
    · exact hactive

end Charged

theorem Fair.attemptFailure (h : s.Fair) (triggerClass : FallbackTriggerClass) (reason : String) :
    Fair (s.step (.attemptFailure triggerClass reason)) := by
  by_cases hlive : s.controller.Live
  · obtain ⟨failure, d, hd, heq⟩ := onAttemptFailure_of_live hlive triggerClass reason
    have hcharged : Charged d _ := hd ▸ h.charged hlive triggerClass reason failure
    have hstep : s.step (.attemptFailure triggerClass reason) =
        ⟨(s.controller.onAttemptFailure triggerClass reason).2,
          (s.step (.attemptFailure triggerClass reason)).failed⟩ := rfl
    rw [hstep, heq]
    split
    next hfull => exact hcharged.exhaust hfull
    next =>
    split
    next hretry => exact hcharged.retry hretry
    next hused =>
    split
    next hend => exact hcharged.last hused hend
    next hmore => exact hcharged.advance hused hmore
  · have hstep : s.step (.attemptFailure triggerClass reason) = s := by
      have hnever (i : Nat) : ¬(s.controller.currentSelector.isSome ∧ s.controller.exhaustedForTurn = false ∧
          i = s.controller.activeIndex) := fun hcond => hlive ⟨hcond.1, hcond.2.1⟩
      simp only [step, onAttemptFailure_of_not_live hlive, hnever, if_false]
    rwa [hstep]

theorem Fair.restore (h : s.Fair) (hmeant : s.Meant .restore) : Fair (s.step .restore) := by
  rw [step]
  obtain heq | ⟨hpos, hlive, hnew, heq⟩ := restore_cases s.controller
  · rwa [heq]
  · have hused : s.controller.attemptsUsed = 0 := hmeant
    have hbudget := h.budget hlive
    have hindex := h.activeIndex_lt hlive
    have hbefore := h.before (s.controller.activeIndex - 1) (Nat.sub_lt hpos Nat.one_pos) (by omega)
    have hmax := chain.maxAttempts_pos
    rw [heq]
    refine ⟨fun hno => ?_, fun _ => ?_, fun _ => ?_, fun _ => ?_, fun i hi => ?_, fun _ => ?_⟩
    · cases hno
    · exact Nat.lt_of_le_of_lt (Nat.sub_le _ _) hindex
    · exact Nat.le_of_eq (Nat.sub_add_cancel hmax)
    · have hmul : (chain.entries.length - (s.controller.activeIndex - 1)) * chain.maxAttempts =
          (chain.entries.length - s.controller.activeIndex) * chain.maxAttempts +
          chain.maxAttempts := by
        rw [← Nat.succ_mul]
        congr 1
        omega
      rw [maxTotalAttempts] at hbudget
      simp only [maxTotalAttempts, Finset.card_insert_of_notMem hnew]
      omega
    · exact h.before i (Nat.lt_of_lt_of_le hi (Nat.sub_le _ _))
    · exact Nat.le_trans (Nat.sub_le _ _) hbefore

theorem step_fair (h : s.Fair) {event : FallbackEvent} (hmeant : s.Meant event) :
    Fair (s.step event) := by
  cases event with
  | attemptStarted => exact h.attemptStarted hmeant
  | attemptFailure triggerClass reason => exact h.attemptFailure triggerClass reason
  | restore => exact h.restore hmeant

theorem run_fair (c : FallbackChainController chain) {events : List FallbackEvent}
    (hmeant : RunMeant (start c) events) :
    Fair ((start c).run events) :=
  RunMeets.invariant (fun _ _ _ h hok heq => Option.some.inj heq ▸ step_fair h hok) hmeant
    (runEvents_some step (start c) events) (.start c)

/-- A chain charges a bounded number of attempts. Where it is called as it is meant to be and no
selector is empty, it says that it is exhausted only once every entry has failed as often as it may.
-/
theorem attempts_bounded_and_fair (c : FallbackChainController chain) (events : List FallbackEvent) :
    ((start c).run events).controller.totalAttemptsUsed ≤
        chain.maxAttempts * chain.entries.length + chain.entries.length ∧
      ((∀ e ∈ chain.entries, e ≠ "") → RunMeant (start c) events →
        (((start c).run events).controller.exhaustedForTurn = true →
          ∀ i < chain.entries.length, chain.maxAttempts ≤ ((start c).run events).failed i) ∧
        ∀ triggerClass reason,
          (((start c).run events).controller.onAttemptFailure triggerClass reason).1 = .exhausted →
            ∀ i < chain.entries.length,
              chain.maxAttempts ≤ ((start c).run
                (events ++ [.attemptFailure triggerClass reason])).failed i) := by
  have hbounded := run_bounded c events
  have hcard := Finset.card_le_card hbounded.restored_subset
  rw [Finset.card_range] at hcard
  refine ⟨Nat.le_trans hbounded.total_le (Nat.add_le_add_left hcard _), fun hentries hmeant => ?_⟩
  have hfair := run_fair c hmeant
  refine ⟨hfair.exhausted, fun triggerClass reason hreport => ?_⟩
  have hlast := hfair.attemptFailure triggerClass reason
  rw [run, List.foldl_append]
  refine hlast.exhausted ?_
  change (((start c).run events).controller.onAttemptFailure triggerClass
    reason).2.exhaustedForTurn = true
  by_cases hlive : ((start c).run events).controller.Live
  · obtain ⟨failure, d, -, heq⟩ := onAttemptFailure_of_live hlive triggerClass reason
    rw [heq] at hreport ⊢
    split at hreport
    next h => rw [if_pos h]; rfl
    next h =>
    rw [if_neg h]
    split at hreport
    next => cases hreport
    next h =>
    rw [if_neg h]
    split at hreport
    next h => rw [if_pos h]
    next => cases hreport
  · rw [onAttemptFailure_of_not_live hlive]
    by_contra hexhausted
    rw [Bool.not_eq_true] at hexhausted
    exact hlive (live_of_activeIndex_lt hentries (hfair.activeIndex_lt hexhausted) hexhausted)

def threeModels : FallbackChain := ⟨["a/one", "b/two", "c/three"], 2, by decide⟩

def quotaFailure : FallbackEvent := .attemptFailure .quota "429"

def restoreEvents : List FallbackEvent :=
  [.attemptStarted, quotaFailure, quotaFailure, .restore, .attemptStarted, quotaFailure,
    quotaFailure, quotaFailure, quotaFailure]

theorem attempts_bounded_and_fair_restore :
    (∀ e ∈ threeModels.entries, e ≠ "") ∧ RunMeant (start (.new threeModels)) restoreEvents ∧
      (((start (.new threeModels)).run restoreEvents).controller.onAttemptFailure .quota
        "429").1 = .exhausted ∧
      ∀ i < 3, 2 ≤ ((start (.new threeModels)).run (restoreEvents ++ [quotaFailure])).failed i := by
  have hentries : ∀ e ∈ threeModels.entries, e ≠ "" := by decide
  have hmeant : RunMeant (start (.new threeModels)) restoreEvents := by decide
  have hreport : (((start (.new threeModels)).run restoreEvents).controller.onAttemptFailure
      .quota "429").1 =
      .exhausted := by decide
  exact ⟨hentries, hmeant, hreport,
    ((attempts_bounded_and_fair (.new threeModels) restoreEvents).2 hentries hmeant).2 .quota
    "429" hreport⟩

theorem late_restore_takes_an_attempt_of_the_last_entry :
    ((start (.new threeModels)).run [quotaFailure, quotaFailure, quotaFailure, .restore,
      quotaFailure, quotaFailure, quotaFailure, quotaFailure]).controller.exhaustedForTurn = true ∧
      ((start (.new threeModels)).run [quotaFailure, quotaFailure, quotaFailure, .restore,
        quotaFailure, quotaFailure, quotaFailure, quotaFailure]).failed 2 = 1 := by
  decide

end FallbackRun

end JevCode.Session
