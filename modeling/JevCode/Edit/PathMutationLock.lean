import Mathlib.Data.List.Dedup
import Mathlib.Data.List.Sort
import Mathlib.Data.Set.Finite.Lemmas
import Mathlib.Data.String.Basic
import Mathlib.Logic.Function.Basic
import Mathlib.Logic.Relation

/-! `path-mutation-lock.ts` with the cross-process lock off: calls of `withEditPathMutation` on one
table of asynchronous mutexes, as a transition system.  `π` stands for resolved absolute paths in the
order of `sort()`; resolving such a path again changes nothing. -/

namespace JevCode.Edit

abbrev CallId := Nat

structure AsyncMutex where
  locked : Bool
  waiters : List CallId

/-- Where a call of `withEditPathMutation` stands.  `held` lists the paths it has locked, the
innermost first. -/
inductive Phase (π : Type)
  | idle
  /-- `runAt(index)` is about to run; `rest` is what is left of `unique`. -/
  | acquiring (held rest : List π)
  | waiting (held : List π) (target : π) (rest : List π)
  /-- `acquire` has settled for `target`, its continuation has not run yet. -/
  | granted (held : List π) (target : π) (rest : List π)
  | running (held : List π)
  /-- The body has returned or thrown; the `finally` blocks release what is held. -/
  | settled (held : List π) (threw : Bool)
  | done (threw : Bool)

structure LockState (π : Type) where
  mutexes : π → AsyncMutex
  calls : CallId → Phase π

inductive LockAction (π : Type)
  | start (call : CallId) (absolutePaths : List π)
  | advance (call : CallId)
  | finish (call : CallId) (threw : Bool)

namespace LockState

variable {π : Type}

def init : LockState π := ⟨fun _ => ⟨false, []⟩, fun _ => .idle⟩

def setCall (s : LockState π) (i : CallId) (phase : Phase π) : LockState π :=
  { s with calls := Function.update s.calls i phase }

def wake (s : LockState π) (i : CallId) : LockState π :=
  match s.calls i with
  | .waiting held target rest => s.setCall i (.granted held target rest)
  | _ => s

section

variable [DecidableEq π]

def setMutex (s : LockState π) (p : π) (mutex : AsyncMutex) : LockState π :=
  { s with mutexes := Function.update s.mutexes p mutex }

def acquire (s : LockState π) (i : CallId) (held : List π) (p : π) (rest : List π) : LockState π :=
  if !(s.mutexes p).locked then (s.setMutex p { s.mutexes p with
    locked := true }).setCall i (.granted held p rest)
  else (s.setMutex p { s.mutexes p with
    waiters := (s.mutexes p).waiters ++ [i] }).setCall i (.waiting held p rest)

def release (s : LockState π) (p : π) : LockState π :=
  match (s.mutexes p).waiters with
  | next :: waiters => (s.setMutex p { s.mutexes p with waiters }).wake next
  | [] => s.setMutex p { s.mutexes p with locked := false }

def advance (s : LockState π) (i : CallId) : Option (LockState π) :=
  match s.calls i with
  | .acquiring held [] => some (s.setCall i (.running held))
  | .acquiring held (p :: rest) => some (s.acquire i held p rest)
  | .granted held p rest => some (s.setCall i (.acquiring (p :: held) rest))
  | .settled (p :: held) threw => some ((s.release p).setCall i (.settled held threw))
  | .settled [] threw => some (s.setCall i (.done threw))
  | _ => none

end

variable [LinearOrder π]

def uniquePaths (absolutePaths : List π) : List π := absolutePaths.dedup.insertionSort (· ≤ ·)

def step (s : LockState π) : LockAction π → Option (LockState π)
  | .start i absolutePaths =>
    match s.calls i with
    | .idle => some (s.setCall i (.acquiring [] (uniquePaths absolutePaths)))
    | _ => none
  | .advance i => s.advance i
  | .finish i threw =>
    match s.calls i with
    | .running held => some (s.setCall i (.settled held threw))
    | _ => none

/-- States that some order of starts, continuations and settlements leads to. -/
inductive Reachable : LockState π → Prop
  | init : Reachable init
  | step {s s' : LockState π} (action : LockAction π) (h : Reachable s)
    (hstep : s.step action = some s') : Reachable s'

end LockState

section

variable {π : Type}

def Phase.holds : Phase π → List π
  | .idle | .done _ => []
  | .acquiring held _ | .waiting held _ _ | .running held | .settled held _ => held
  | .granted held target _ => target :: held

def Phase.waitsOn : Phase π → Option π
  | .waiting _ target _ => some target
  | _ => none

def Phase.isActive : Phase π → Bool
  | .idle | .done _ => false
  | _ => true

theorem Phase.isActive_of_holds {phase : Phase π} {p : π} (h : p ∈ phase.holds) :
    phase.isActive = true := by
  cases phase with
  | idle => cases h
  | done => cases h
  | _ => rfl

def Phase.Ordered [LinearOrder π] : Phase π → Prop
  | .idle | .done _ => True
  | .acquiring held rest => (held.reverse ++ rest).Pairwise (· < ·)
  | .waiting held target rest | .granted held target rest =>
    (held.reverse ++ target :: rest).Pairwise (· < ·)
  | .running held | .settled held _ => held.reverse.Pairwise (· < ·)

namespace LockState

variable {s s' : LockState π} {i j : CallId} {p q : π}

@[simp] theorem setCall_mutexes (s : LockState π) (i : CallId) (phase : Phase π) :
    (s.setCall i phase).mutexes = s.mutexes := rfl

theorem setCall_calls (s : LockState π) (i j : CallId) (phase : Phase π) :
    (s.setCall i phase).calls j = if j = i then phase else s.calls j :=
  Function.update_apply _ _ _ _

@[simp] theorem setMutex_calls [DecidableEq π] (s : LockState π) (p : π) (mutex : AsyncMutex) :
    (s.setMutex p mutex).calls = s.calls := rfl

theorem setMutex_mutexes [DecidableEq π] (s : LockState π) (p q : π) (mutex : AsyncMutex) :
    (s.setMutex p mutex).mutexes q = if q = p then mutex else s.mutexes q :=
  Function.update_apply _ _ _ _

variable [LinearOrder π]

structure Inv (s : LockState π) : Prop where
  ordered : ∀ i, (s.calls i).Ordered
  exclusive : ∀ i j p, p ∈ (s.calls i).holds → p ∈ (s.calls j).holds → i = j
  locked_iff : ∀ p, (s.mutexes p).locked = true ↔ ∃ i, p ∈ (s.calls i).holds
  waiters_iff : ∀ p i, i ∈ (s.mutexes p).waiters ↔ (s.calls i).waitsOn = some p
  nodup : ∀ p, (s.mutexes p).waiters.Nodup
  locked_of_waiters : ∀ p, (s.mutexes p).waiters ≠ [] → (s.mutexes p).locked = true

structure SamePart (old new : Phase π) : Prop where
  holds : new.holds = old.holds
  waitsOn : new.waitsOn = old.waitsOn
  ordered : old.Ordered → new.Ordered

theorem uniquePaths_pairwise (absolutePaths : List π) :
    (uniquePaths absolutePaths).Pairwise (· < ·) := by
  have hle : (uniquePaths absolutePaths).Pairwise (· ≤ ·) := List.pairwise_insertionSort _ _
  have hne : (uniquePaths absolutePaths).Nodup :=
    (List.perm_insertionSort _ _).nodup_iff.mpr (List.nodup_dedup _)
  exact (hle.and hne).imp fun ⟨h, h'⟩ => lt_of_le_of_ne h h'

theorem step_cases {action : LockAction π} (h : s.step action = some s') :
    (∃ i phase, SamePart (s.calls i) phase ∧ s' = s.setCall i phase) ∨
      (∃ i held p rest, s.calls i = .acquiring held (p :: rest) ∧ s' = s.acquire i held p rest) ∨
      ∃ i held p threw, s.calls i = .settled (p :: held) threw ∧
        s' = (s.release p).setCall i (.settled held threw) := by
  cases action with
  | start i absolutePaths =>
    simp only [step] at h
    split at h
    · rename_i hi
      cases h
      refine .inl ⟨i, _, ⟨by simp [hi, Phase.holds], by simp [hi, Phase.waitsOn], fun _ => ?_⟩, rfl⟩
      exact uniquePaths_pairwise absolutePaths
    · cases h
  | advance i =>
    simp only [step, advance] at h
    split at h
    · rename_i held hi
      cases h
      exact .inl ⟨i, _, ⟨by simp [hi, Phase.holds], by simp [hi, Phase.waitsOn], by simp [hi, Phase.Ordered]⟩, rfl⟩
    · rename_i held p rest hi
      cases h
      exact .inr (.inl ⟨i, held, p, rest, hi, rfl⟩)
    · rename_i held p rest hi
      cases h
      exact .inl ⟨i, _, ⟨by simp [hi, Phase.holds], by simp [hi, Phase.waitsOn], by simp [hi, Phase.Ordered]⟩, rfl⟩
    · rename_i p held threw hi
      cases h
      exact .inr (.inr ⟨i, held, p, threw, hi, rfl⟩)
    · rename_i threw hi
      cases h
      exact .inl ⟨i, _, ⟨by simp [hi, Phase.holds], by simp [hi, Phase.waitsOn], by simp [Phase.Ordered]⟩, rfl⟩
    · cases h
  | finish i threw =>
    simp only [step] at h
    split at h
    · rename_i held hi
      cases h
      exact .inl ⟨i, _, ⟨by simp [hi, Phase.holds], by simp [hi, Phase.waitsOn], by simp [hi, Phase.Ordered]⟩, rfl⟩
    · cases h

theorem Inv.init : (LockState.init : LockState π).Inv where
  ordered _ := trivial
  exclusive _ _ _ h := by cases h
  locked_iff p := by simp [LockState.init, Phase.holds]
  waiters_iff p i := by simp [LockState.init, Phase.waitsOn]
  nodup p := by simp [LockState.init]
  locked_of_waiters p h := absurd rfl h

theorem Inv.setCall {phase : Phase π} (h : s.Inv) (hsame : SamePart (s.calls i) phase) :
    (s.setCall i phase).Inv := by
  have hholds : ∀ j, ((s.setCall i phase).calls j).holds = (s.calls j).holds := by
    intro j
    rw [setCall_calls]
    split
    · rename_i hj
      rw [hj, hsame.holds]
    · rfl
  have hwaits : ∀ j, ((s.setCall i phase).calls j).waitsOn = (s.calls j).waitsOn := by
    intro j
    rw [setCall_calls]
    split
    · rename_i hj
      rw [hj, hsame.waitsOn]
    · rfl
  refine ⟨fun j => ?_, ?_, ?_, ?_, h.nodup, h.locked_of_waiters⟩
  · rw [setCall_calls]
    split
    · exact hsame.ordered (h.ordered i)
    · exact h.ordered j
  · simpa only [hholds] using h.exclusive
  · simpa only [hholds, setCall_mutexes] using h.locked_iff
  · simpa only [hwaits, setCall_mutexes] using h.waiters_iff

theorem Inv.exchanged {mutex : AsyncMutex} (h : s.Inv)
    (hmutex : ∀ q, s'.mutexes q = if q = p then mutex else s.mutexes q)
    (hnodup : mutex.waiters.Nodup) (hlocked : mutex.waiters ≠ [] → mutex.locked = true) :
    (∀ q, (s'.mutexes q).waiters.Nodup) ∧
      ∀ q, (s'.mutexes q).waiters ≠ [] → (s'.mutexes q).locked = true := by
  refine ⟨fun q => ?_, fun q => ?_⟩
  · rw [hmutex]
    split
    · exact hnodup
    · exact h.nodup q
  · rw [hmutex]
    split
    · exact hlocked
    · exact h.locked_of_waiters q

theorem Inv.waiters_iff_of_flag {locked : Bool} (h : s.Inv)
    (hmutex : ∀ q, s'.mutexes q = if q = p then { s.mutexes p with locked } else s.mutexes q)
    (hwaits : ∀ j, (s'.calls j).waitsOn = (s.calls j).waitsOn) (q : π) (j : CallId) :
    j ∈ (s'.mutexes q).waiters ↔ (s'.calls j).waitsOn = some q := by
  rw [hwaits, hmutex, ← h.waiters_iff]
  split
  · rename_i hq
    rw [hq]
  · rfl

theorem Inv.acquire_free {held rest : List π} (h : s.Inv)
    (hi : s.calls i = .acquiring held (p :: rest)) (hfree : (s.mutexes p).locked = false) :
    (s.acquire i held p rest).Inv := by
  have hacquire : s.acquire i held p rest =
      (s.setMutex p { s.mutexes p with locked := true }).setCall i (.granted held p rest) := by
    simp [acquire, hfree]
  have hcalls : ∀ j, (s.acquire i held p rest).calls j = if j = i then .granted held p rest
      else s.calls j := by
    intro j
    rw [hacquire, setCall_calls, setMutex_calls]
  have hholds : ∀ j q, q ∈ ((s.acquire i held p rest).calls j).holds ↔ q ∈ (s.calls j).holds ∨
      (j = i ∧ q = p) := by
    intro j q
    rw [hcalls]
    split
    · rename_i hj
      simp [hj, hi, Phase.holds, or_comm]
    · simp [*]
  have hwaits : ∀ j, ((s.acquire i held p rest).calls j).waitsOn = (s.calls j).waitsOn := by
    intro j
    rw [hcalls]
    split
    · simp [*, Phase.waitsOn]
    · rfl
  have hmutex : ∀ q, (s.acquire i held p rest).mutexes q =
      if q = p then { s.mutexes p with locked := true } else s.mutexes q := by
    intro q
    rw [hacquire, setCall_mutexes, setMutex_mutexes]
  have hunheld : ∀ j, p ∉ (s.calls j).holds := fun j hj => by
    simpa [hfree] using (h.locked_iff p).mpr ⟨j, hj⟩
  obtain ⟨hnodup, hwaiters⟩ := h.exchanged hmutex (h.nodup p) fun _ => rfl
  refine ⟨fun j => ?_, fun a b q ha hb => ?_, fun q => ?_, h.waiters_iff_of_flag hmutex hwaits,
    hnodup, hwaiters⟩
  · rw [hcalls]
    split
    · have := h.ordered i
      rw [hi] at this
      exact this
    · exact h.ordered j
  · rw [hholds] at ha hb
    rcases ha with ha | ⟨rfl, rfl⟩
    · rcases hb with hb | ⟨rfl, rfl⟩
      · exact h.exclusive a b q ha hb
      · exact absurd ha (hunheld a)
    · rcases hb with hb | ⟨rfl, -⟩
      · exact absurd hb (hunheld b)
      · rfl
  · simp only [hmutex, hholds]
    by_cases hq : q = p
    · simp only [hq, if_true, and_true, true_iff]
      exact ⟨i, .inr rfl⟩
    · simp only [hq, if_false, and_false, or_false, h.locked_iff]

theorem Inv.acquire_locked {held rest : List π} (h : s.Inv)
    (hi : s.calls i = .acquiring held (p :: rest)) (hlocked : (s.mutexes p).locked = true) :
    (s.acquire i held p rest).Inv := by
  have hacquire : s.acquire i held p rest =
      (s.setMutex p { s.mutexes p with
      waiters := (s.mutexes p).waiters ++ [i] }).setCall i (.waiting held p rest) := by
    simp [acquire, hlocked]
  have hcalls : ∀ j, (s.acquire i held p rest).calls j = if j = i then .waiting held p rest
      else s.calls j := by
    intro j
    rw [hacquire, setCall_calls, setMutex_calls]
  have hholds : ∀ j, ((s.acquire i held p rest).calls j).holds = (s.calls j).holds := by
    intro j
    rw [hcalls]
    split
    · simp [*, Phase.holds]
    · rfl
  have hmutex : ∀ q, (s.acquire i held p rest).mutexes q =
      if q = p then { s.mutexes p with
      waiters := (s.mutexes p).waiters ++ [i] } else s.mutexes q := by
    intro q
    rw [hacquire, setCall_mutexes, setMutex_mutexes]
  have hnew : ∀ q, i ∉ (s.mutexes q).waiters := by
    intro q
    rw [h.waiters_iff, hi]
    simp [Phase.waitsOn]
  have hnodup : ((s.mutexes p).waiters ++ [i]).Nodup := by
    refine List.nodup_append.mpr ⟨h.nodup p, by simp, ?_⟩
    rintro a ha b hb rfl
    exact hnew p (List.mem_singleton.mp hb ▸ ha)
  obtain ⟨hnodup, hwaiters⟩ := h.exchanged hmutex hnodup fun _ => hlocked
  refine ⟨fun j => ?_, ?_, fun q => ?_, fun q j => ?_, hnodup, hwaiters⟩
  · rw [hcalls]
    split
    · have := h.ordered i
      rw [hi] at this
      exact this
    · exact h.ordered j
  · simpa only [hholds] using h.exclusive
  · simp only [hmutex, hholds, ← h.locked_iff]
    split
    · simp [*]
    · rfl
  · rw [hcalls, hmutex]
    by_cases hj : j = i
    · by_cases hq : q = p
      · simp [hj, hq, Phase.waitsOn]
      · simp [hj, hq, Phase.waitsOn, hnew, Ne.symm hq]
    · by_cases hq : q = p
      · simp [hj, hq, h.waiters_iff]
      · simp [hj, hq, h.waiters_iff]

theorem notMem_held_of_settled {held : List π} {threw : Bool} (h : s.Inv)
    (hi : s.calls i = .settled (p :: held) threw) :
    p ∉ held ∧ held.reverse.Pairwise (· < ·) := by
  have hordered := h.ordered i
  rw [hi] at hordered
  simp only [Phase.Ordered, List.reverse_cons, List.pairwise_append, List.mem_reverse,
    List.mem_singleton] at hordered
  exact ⟨fun hmem => lt_irrefl p (hordered.2.2 p hmem p rfl), hordered.1⟩

theorem Inv.release_free {held : List π} {threw : Bool} (h : s.Inv)
    (hi : s.calls i = .settled (p :: held) threw) (hnone : (s.mutexes p).waiters = []) :
    ((s.release p).setCall i (.settled held threw)).Inv := by
  have hrelease : s.release p = s.setMutex p { s.mutexes p with locked := false } := by
    simp only [release, hnone]
  obtain ⟨hnotMem, hsorted⟩ := notMem_held_of_settled h hi
  have hcalls : ∀ j, ((s.release p).setCall i (.settled held threw)).calls j =
      if j = i then .settled held threw else s.calls j := by
    intro j
    rw [setCall_calls, hrelease, setMutex_calls]
  have hholds : ∀ j q, q ∈ (((s.release p).setCall i (.settled held threw)).calls j).holds ↔
      q ∈ (s.calls j).holds ∧ ¬ (j = i ∧ q = p) := by
    intro j q
    rw [hcalls]
    split
    · rename_i hj
      simp only [hj, hi, Phase.holds, List.mem_cons, true_and]
      grind
    · simp [*]
  have hwaits : ∀ j, (((s.release p).setCall i (.settled held threw)).calls j).waitsOn =
      (s.calls j).waitsOn := by
    intro j
    rw [hcalls]
    split
    · simp [*, Phase.waitsOn]
    · rfl
  have hmutex : ∀ q, ((s.release p).setCall i (.settled held threw)).mutexes q =
      if q = p then { s.mutexes p with locked := false } else s.mutexes q := by
    intro q
    rw [setCall_mutexes, hrelease, setMutex_mutexes]
  have hheld : p ∈ (s.calls i).holds := by simp [hi, Phase.holds]
  obtain ⟨hnodup, hwaiters⟩ := h.exchanged hmutex (h.nodup p) fun hne => absurd hnone hne
  refine ⟨fun j => ?_, fun a b q ha hb => ?_, fun q => ?_, h.waiters_iff_of_flag hmutex hwaits,
    hnodup, hwaiters⟩
  · rw [hcalls]
    split
    · exact hsorted
    · exact h.ordered j
  · exact h.exclusive a b q ((hholds a q).mp ha).1 ((hholds b q).mp hb).1
  · simp only [hmutex, hholds]
    by_cases hq : q = p
    · subst hq
      simp only [if_true, Bool.false_eq_true, false_iff, and_true]
      rintro ⟨j, hj, hne⟩
      exact hne (h.exclusive j i q hj hheld)
    · simp only [hq, if_false, and_false, not_false_eq_true, and_true, h.locked_iff]

theorem Inv.head_waiting {waiters : List CallId} (h : s.Inv)
    (hhead : (s.mutexes p).waiters = j :: waiters) :
    ∃ held rest, s.calls j = .waiting held p rest := by
  have hj := (h.waiters_iff p j).mp (by simp [hhead])
  cases hphase : s.calls j with
  | waiting held target rest =>
    simp only [hphase, Phase.waitsOn, Option.some.injEq] at hj
    exact ⟨held, rest, by rw [hj]⟩
  | _ => simp [hphase, Phase.waitsOn] at hj

theorem Inv.waiters_iff_of_handover {waiters : List CallId} (h : s.Inv)
    (hhead : (s.mutexes p).waiters = j :: waiters)
    (hmutex : ∀ q, s'.mutexes q = if q = p then { s.mutexes p with waiters } else s.mutexes q)
    (hwaits : ∀ a, (s'.calls a).waitsOn = if a = j then none else (s.calls a).waitsOn) (q : π)
    (a : CallId) :
    a ∈ (s'.mutexes q).waiters ↔ (s'.calls a).waitsOn = some q := by
  rw [hwaits, hmutex]
  by_cases haj : a = j
  · subst haj
    have hnotMem : a ∉ waiters := by
      have hcons := h.nodup p
      rw [hhead, List.nodup_cons] at hcons
      exact hcons.1
    have hother : q ≠ p → a ∉ (s.mutexes q).waiters := by
      intro hq
      rw [h.waiters_iff, (h.waiters_iff p a).mp (by simp [hhead])]
      simp [Ne.symm hq]
    by_cases hq : q = p
    · simp [hq, hnotMem]
    · simp [hq, hother hq]
  · rw [if_neg haj, ← h.waiters_iff]
    by_cases hq : q = p
    · simp [hq, hhead, haj]
    · simp [hq]

theorem Inv.exclusive_of_handover (h : s.Inv) (hheld : p ∈ (s.calls i).holds)
    (hholds : ∀ a q, q ∈ (s'.calls a).holds ↔ (q ∈ (s.calls a).holds ∧ ¬ (a = i ∧ q = p)) ∨
      (a = j ∧ q = p))
    (a b : CallId) (q : π) (ha : q ∈ (s'.calls a).holds) (hb : q ∈ (s'.calls b).holds) : a = b := by
  rw [hholds] at ha hb
  rcases ha with ⟨ha, hna⟩ | ⟨rfl, rfl⟩
  · rcases hb with ⟨hb, -⟩ | ⟨rfl, rfl⟩
    · exact h.exclusive a b q ha hb
    · exact absurd ⟨h.exclusive a i q ha hheld, rfl⟩ hna
  · rcases hb with ⟨hb, hnb⟩ | ⟨rfl, -⟩
    · exact absurd ⟨h.exclusive b i q hb hheld, rfl⟩ hnb
    · rfl

theorem Inv.release_handover {held held' rest' : List π} {threw : Bool}
    {waiters : List CallId} (h : s.Inv) (hi : s.calls i = .settled (p :: held) threw)
    (hhead : (s.mutexes p).waiters = j :: waiters) (hj : s.calls j = .waiting held' p rest') :
    ((s.release p).setCall i (.settled held threw)).Inv := by
  obtain ⟨hnotMem, hsorted⟩ := notMem_held_of_settled h hi
  have hne : j ≠ i := by
    rintro rfl
    rw [hi] at hj
    cases hj
  have hrelease : s.release p = (s.setMutex p { s.mutexes p with
      waiters }).setCall j (.granted held' p rest') := by
    simp only [release, hhead, wake, setMutex_calls, hj]
  have hcalls : ∀ a, ((s.release p).setCall i (.settled held threw)).calls a =
      if a = i then .settled held threw else if a = j then .granted held' p rest'
      else s.calls a := by
    intro a
    rw [setCall_calls, hrelease, setCall_calls, setMutex_calls]
  have hholds : ∀ a q, q ∈ (((s.release p).setCall i (.settled held threw)).calls a).holds ↔
      (q ∈ (s.calls a).holds ∧ ¬ (a = i ∧ q = p)) ∨ (a = j ∧ q = p) := by
    intro a q
    rw [hcalls]
    by_cases hai : a = i
    · have haj : a ≠ j := fun hj => hne (hj ▸ hai)
      simp only [hai, if_true, hi, Phase.holds, List.mem_cons, true_and, hai ▸ haj,
        false_and, or_false]
      grind
    · by_cases haj : a = j
      · simp [haj, hne, hj, Phase.holds, or_comm]
      · simp [hai, haj]
  have hmutex : ∀ q, ((s.release p).setCall i (.settled held threw)).mutexes q =
      if q = p then { s.mutexes p with waiters } else s.mutexes q := by
    intro q
    rw [setCall_mutexes, hrelease, setCall_mutexes, setMutex_mutexes]
  have hheld : p ∈ (s.calls i).holds := by simp [hi, Phase.holds]
  have hlocked : (s.mutexes p).locked = true := h.locked_of_waiters p (by simp [hhead])
  have hwaits : ∀ a, (((s.release p).setCall i (.settled held threw)).calls a).waitsOn =
      if a = j then none else (s.calls a).waitsOn := by
    intro a
    rw [hcalls]
    by_cases hai : a = i
    · simp [hai, hi, Phase.waitsOn]
    · by_cases haj : a = j <;> simp [hai, haj, hne, Phase.waitsOn]
  have hcons := h.nodup p
  rw [hhead, List.nodup_cons] at hcons
  obtain ⟨hnodup, hwaiters⟩ := h.exchanged hmutex hcons.2 fun _ => hlocked
  refine ⟨fun a => ?_, h.exclusive_of_handover hheld hholds, fun q => ?_,
    h.waiters_iff_of_handover hhead hmutex hwaits, hnodup, hwaiters⟩
  · rw [hcalls]
    split
    · exact hsorted
    split
    · have := h.ordered j
      rw [hj] at this
      exact this
    · exact h.ordered a
  · simp only [hmutex, hholds]
    by_cases hq : q = p
    · simp only [hq, if_true, hlocked, and_true, true_iff]
      exact ⟨j, .inr rfl⟩
    · simp only [hq, if_false, and_false, not_false_eq_true, and_true, or_false, h.locked_iff]

theorem Inv.step {action : LockAction π} (h : s.Inv) (hstep : s.step action = some s') : s'.Inv := by
  obtain ⟨i, phase, hsame, rfl⟩ | ⟨i, held, p, rest, hi, rfl⟩ | ⟨i, held, p, threw, hi, rfl⟩ :=
    step_cases hstep
  · exact h.setCall hsame
  · cases hlocked : (s.mutexes p).locked with
    | false => exact h.acquire_free hi hlocked
    | true => exact h.acquire_locked hi hlocked
  · cases hhead : (s.mutexes p).waiters with
    | nil => exact h.release_free hi hhead
    | cons j waiters =>
      obtain ⟨held', rest', hj⟩ := h.head_waiting hhead
      exact h.release_handover hi hhead hj

theorem Reachable.inv (h : Reachable s) : s.Inv := by
  induction h with
  | init => exact Inv.init
  | step _ _ hstep ih => exact ih.step hstep

/-- Call `i` is suspended on a mutex that call `j` owns. -/
def WaitsFor (s : LockState π) (i j : CallId) : Prop :=
  ∃ p, (s.calls i).waitsOn = some p ∧ p ∈ (s.calls j).holds

theorem Inv.lt_of_waitsOn (h : s.Inv) (hwait : (s.calls i).waitsOn = some q)
    (hheld : p ∈ (s.calls i).holds) : p < q := by
  have hordered := h.ordered i
  cases hphase : s.calls i with
  | waiting held target rest =>
    rw [hphase] at hordered hwait hheld
    simp only [Phase.waitsOn, Option.some.injEq] at hwait
    simp only [Phase.Ordered, List.pairwise_append, List.mem_reverse] at hordered
    exact hordered.2.2 p hheld q (by simp [hwait])
  | _ => simp [hphase, Phase.waitsOn] at hwait

theorem Inv.lt_of_transGen (h : s.Inv) (hchain : Relation.TransGen (WaitsFor s) i j)
    (hi : (s.calls i).waitsOn = some p) (hj : (s.calls j).waitsOn = some q) : p < q := by
  induction hchain generalizing q with
  | single hij =>
    obtain ⟨r, hr, hheld⟩ := hij
    rw [hi, Option.some.injEq] at hr
    exact h.lt_of_waitsOn hj (hr ▸ hheld)
  | tail _ hjk ih =>
    obtain ⟨r, hr, hheld⟩ := hjk
    exact (ih hr).trans (h.lt_of_waitsOn hj hheld)

theorem Inv.acyclic (h : s.Inv) (i : CallId) : ¬ Relation.TransGen (WaitsFor s) i i := by
  intro hcycle
  obtain ⟨j, ⟨p, hp, -⟩, -⟩ := Relation.TransGen.head'_iff.mp hcycle
  exact lt_irrefl p (h.lt_of_transGen hcycle hp hp)

theorem isActive_of_step {action : LockAction π} (hstep : s.step action = some s') :
    ∃ i, ∀ j, (s'.calls j).isActive = true → j = i ∨ (s.calls j).isActive = true := by
  obtain ⟨i, phase, -, rfl⟩ | ⟨i, held, p, rest, -, rfl⟩ | ⟨i, held, p, threw, -, rfl⟩ :=
    step_cases hstep
  · refine ⟨i, fun j hj => ?_⟩
    rw [setCall_calls] at hj
    split at hj <;> simp_all
  · refine ⟨i, fun j hj => ?_⟩
    unfold acquire at hj
    split at hj <;> rw [setCall_calls] at hj <;> split at hj <;> simp_all
  · refine ⟨i, fun j hj => ?_⟩
    rw [setCall_calls] at hj
    split at hj
    · exact .inl (by assumption)
    · right
      unfold release at hj
      split at hj
      · unfold wake at hj
        split at hj
        · rename_i hnext
          rw [setCall_calls] at hj
          split at hj
          · simp_all [Phase.isActive]
          · exact hj
        · exact hj
      · exact hj

theorem Reachable.finite_active (h : Reachable s) : {i | (s.calls i).isActive = true}.Finite := by
  induction h with
  | init => simp [LockState.init, Phase.isActive]
  | step action _ hstep ih =>
    obtain ⟨i, hi⟩ := isActive_of_step hstep
    exact (ih.insert i).subset hi

theorem isSome_step_of_not_waiting (hactive : (s.calls i).isActive = true)
    (hwait : (s.calls i).waitsOn = none) :
    (s.step (.advance i)).isSome ∨ (s.step (.finish i false)).isSome := by
  cases hphase : s.calls i with
  | idle => simp [hphase, Phase.isActive] at hactive
  | done threw => simp [hphase, Phase.isActive] at hactive
  | waiting held target rest => simp [hphase, Phase.waitsOn] at hwait
  | acquiring held rest => cases rest <;> simp [step, advance, hphase]
  | granted held target rest => simp [step, advance, hphase]
  | running held => simp [step, hphase]
  | settled held threw => cases held <;> simp [step, advance, hphase]

theorem Reachable.exists_step (h : Reachable s) (hactive : ∃ i, (s.calls i).isActive = true) :
    ∃ i, (s.calls i).isActive = true ∧
      ((s.step (.advance i)).isSome ∨ (s.step (.finish i false)).isSome) := by
  by_contra hstuck
  have hwaiting : ∀ i, (s.calls i).isActive = true → (s.calls i).waitsOn ≠ none := by
    intro i hi hwait
    exact hstuck ⟨i, hi, isSome_step_of_not_waiting hi hwait⟩
  -- among the suspended calls, one waits for the largest path; its owner waits for a larger one
  let awaited : CallId → WithBot π := fun i => (s.calls i).waitsOn
  obtain ⟨i, hi, hmax⟩ := Set.exists_max_image _ awaited h.finite_active hactive
  obtain ⟨p, hp⟩ := Option.ne_none_iff_exists'.mp (hwaiting i hi)
  have hlocked := h.inv.locked_of_waiters p (List.ne_nil_of_mem ((h.inv.waiters_iff p i).mpr hp))
  obtain ⟨j, hj⟩ := (h.inv.locked_iff p).mp hlocked
  obtain ⟨q, hq⟩ := Option.ne_none_iff_exists'.mp (hwaiting j (Phase.isActive_of_holds hj))
  have hle := hmax j (Phase.isActive_of_holds hj)
  simp only [awaited, hp, hq] at hle
  exact absurd (h.inv.lt_of_waitsOn hq hj) (not_lt_of_ge (WithBot.coe_le_coe.mp hle))

theorem Inv.release_step {held : List π} {threw : Bool} (h : s.Inv)
    (hi : s.calls i = .settled (p :: held) threw) (hstep : s.step (.advance i) = some s') :
    ((s.mutexes p).waiters = [] ∧ (s'.mutexes p).locked = false) ∨
      ∃ j waiters held' rest', (s.mutexes p).waiters = j :: waiters ∧
        s.calls j = .waiting held' p rest' ∧
        s'.calls j = .granted held' p rest' ∧ (s'.mutexes p).waiters = waiters ∧
          (s'.mutexes p).locked = true ∧
        ∀ q, j ∉ (s'.mutexes q).waiters := by
  have hs' : s' = (s.release p).setCall i (.settled held threw) := by
    simpa [LockState.step, LockState.advance, hi] using hstep.symm
  cases hhead : (s.mutexes p).waiters with
  | nil =>
    left
    simp [hs', LockState.release, hhead, setMutex_mutexes]
  | cons j waiters =>
    right
    obtain ⟨held', rest', hj⟩ := h.head_waiting hhead
    have hne : j ≠ i := by
      rintro rfl
      rw [hi] at hj
      cases hj
    have hrelease : s.release p = (s.setMutex p { s.mutexes p with
        waiters }).setCall j (.granted held' p rest') := by
      simp only [LockState.release, hhead, wake, setMutex_calls, hj]
    have hgranted : s'.calls j = .granted held' p rest' := by
      rw [hs', setCall_calls, if_neg hne, hrelease, setCall_calls, if_pos rfl]
    have hmutex : s'.mutexes p = { s.mutexes p with waiters } := by
      rw [hs', setCall_mutexes, hrelease, setCall_mutexes, setMutex_mutexes, if_pos rfl]
    refine ⟨j, waiters, held', rest', rfl, hj, hgranted, by rw [hmutex], ?_, fun q hq => ?_⟩
    · rw [hmutex]
      exact h.locked_of_waiters p (by simp [hhead])
    · have := ((h.step hstep).waiters_iff q j).mp hq
      simp [hgranted, Phase.waitsOn] at this

/-- In every reachable state: a path has one owner, and so at most one body runs with it; a mutex
with waiters is held; its queue lists exactly the calls suspended on it, each once; a release wakes
the oldest of them and takes it off every queue, or clears the flag; no call waits for itself through
others, and some active call can always go on. -/
theorem pathMutexes_safe (h : Reachable s) :
    (∀ i j p, p ∈ (s.calls i).holds → p ∈ (s.calls j).holds → i = j) ∧
    (∀ i j p heldI heldJ, s.calls i = .running heldI → s.calls j = .running heldJ → p ∈ heldI →
      p ∈ heldJ → i = j) ∧
    (∀ p, (s.mutexes p).waiters ≠ [] → (s.mutexes p).locked = true ∧ ∃ i, p ∈ (s.calls i).holds) ∧
    (∀ p, (s.mutexes p).waiters.Nodup ∧ ∀ i, i ∈ (s.mutexes p).waiters ↔
      (s.calls i).waitsOn = some p) ∧
    (∀ i p held threw s', s.calls i = .settled (p :: held) threw → s.step (.advance i) = some s' →
      ((s.mutexes p).waiters = [] ∧ (s'.mutexes p).locked = false) ∨
        ∃ j waiters held' rest', (s.mutexes p).waiters = j :: waiters ∧
          s.calls j = .waiting held' p rest' ∧
          s'.calls j = .granted held' p rest' ∧ (s'.mutexes p).waiters = waiters ∧
            (s'.mutexes p).locked = true ∧
          ∀ q, j ∉ (s'.mutexes q).waiters) ∧
    (∀ i, ¬ Relation.TransGen (WaitsFor s) i i) ∧
    ((∃ i, (s.calls i).isActive = true) →
      ∃ i, (s.calls i).isActive = true ∧
        ((s.step (.advance i)).isSome ∨ (s.step (.finish i false)).isSome)) := by
  have hinv := h.inv
  refine ⟨hinv.exclusive, fun i j p heldI heldJ hi hj hpi hpj => ?_, fun p hp => ?_,
    fun p => ⟨hinv.nodup p, hinv.waiters_iff p⟩, fun i p held threw s' hi hstep =>
    hinv.release_step hi hstep, hinv.acyclic, h.exists_step⟩
  · exact hinv.exclusive i j p (by rwa [hi]) (by rwa [hj])
  · have hlocked := hinv.locked_of_waiters p hp
    exact ⟨hlocked, (hinv.locked_iff p).mp hlocked⟩

def run (s : LockState π) : List (LockAction π) → Option (LockState π)
  | [] => some s
  | action :: actions => (s.step action).bind fun s' => s'.run actions

theorem Reachable.run {actions : List (LockAction π)} (h : Reachable s)
    (hrun : s.run actions = some s') :
    Reachable s' := by
  induction actions generalizing s with
  | nil =>
    cases hrun
    exact h
  | cons action actions ih =>
    obtain ⟨s₁, hstep, hrest⟩ := Option.bind_eq_some_iff.mp hrun
    exact ih (.step action h hstep) hrest

theorem pathMutexes_safe_of_two_calls :
    ∃ s : LockState String, LockState.init.run [.start 0 ["a", "b"], .advance 0,
      .start 1 ["b", "a"], .advance 1, .advance 0, .advance 0] = some s ∧
      (s.mutexes "a").waiters = [1] ∧ (s.calls 1).waitsOn = some "a" ∧ ¬ Relation.TransGen
      (WaitsFor s) 1 1 :=
  have hrun : (LockState.init : LockState String).run [.start 0 ["a", "b"], .advance 0,
      .start 1 ["b", "a"], .advance 1, .advance 0, .advance 0] = some _ := rfl
  ⟨_, hrun, rfl, rfl, (pathMutexes_safe (Reachable.init.run hrun)).2.2.2.2.2.1 1⟩

end LockState

end

end JevCode.Edit
