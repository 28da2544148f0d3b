import JevCode.Data.InsertionMap
import JevCode.Data.Runs
import Mathlib.Algebra.BigOperators.Group.List.Basic
import Mathlib.Algebra.GroupWithZero.Nat
import Mathlib.Algebra.Ring.Int.Defs
import Mathlib.Data.Int.Basic

/-! `inbound-reaction-ordering.ts`: the reaction transitions of an update are chained on promises,
and every order in which the continuations and the effects can go on is a run of the transition
system. -/

namespace JevCode.Sdk

open JevCode.Data

def inboundReactionTombstoneWindow : Int := 512

inductive ReactionOutcome
  | skipped
  | succeeded
  | failed
  deriving DecidableEq

/-- How far a transition has come: its `run`, the promise of its effect, the promise `next` and the
promise `tail`. -/
inductive ReactionStage
  | queued
  | running
  | settled (ok : Bool)
  | ended (outcome : ReactionOutcome)
  | released (outcome : ReactionOutcome)
  deriving DecidableEq

/-- A call of `apply`; `prior` is the call whose `tail` it is chained to, none for a fresh promise.
-/
structure Reaction where
  updateId : Int
  terminal : Bool
  prior : Option Nat
  stage : ReactionStage

structure ReactionSequencer where
  reactions : List Reaction
  terminal : InsertionMap Int Unit
  newestTerminalId : Option Int
  chains : InsertionMap Int Nat

/-- A call of `apply`, an effect that settles, or a continuation that runs. -/
inductive ReactionEvent
  | apply (updateId : Int) (terminal : Bool)
  | run (n : Nat)
  | settle (n : Nat) (ok : Bool)
  | finish (n : Nat)
  | release (n : Nat)

namespace ReactionSequencer

def init : ReactionSequencer := ⟨[], .empty, none, .empty⟩

def isTerminal (s : ReactionSequencer) (updateId : Int) : Bool := (s.terminal.get? updateId).isSome

def setStage (s : ReactionSequencer) (n : Nat) (stage : ReactionStage) : ReactionSequencer :=
  { s with reactions := s.reactions.modify n fun r => { r with stage } }

def priorSettled (s : ReactionSequencer) (r : Reaction) : Bool :=
  match r.prior with
  | none => true
  | some p =>
    match s.reactions[p]?.map Reaction.stage with
    | some (.released _) => true
    | _ => false

def evictStaleTombstones (s : ReactionSequencer) (newestTerminalId : Int) : ReactionSequencer :=
  { s with
    terminal := s.terminal.filter fun e => newestTerminalId - e.1 < inboundReactionTombstoneWindow }

def recordTerminal (s : ReactionSequencer) (updateId : Int) : ReactionSequencer :=
  let newest := max (s.newestTerminalId.getD updateId) updateId
  { s with
    terminal := s.terminal.set updateId (), newestTerminalId :=
    some newest }.evictStaleTombstones newest

def apply (s : ReactionSequencer) (updateId : Int) (terminal : Bool) : ReactionSequencer :=
  { s with
    reactions := s.reactions ++ [⟨updateId, terminal, s.chains.get? updateId, .queued⟩]
    chains := s.chains.set updateId s.reactions.length }

def run (s : ReactionSequencer) (n : Nat) (r : Reaction) : ReactionSequencer :=
  if s.isTerminal r.updateId then s.setStage n (.ended .skipped) else s.setStage n .running

def finish (s : ReactionSequencer) (n : Nat) (r : Reaction) (ok : Bool) : ReactionSequencer :=
  if ok then
    (if r.terminal then s.recordTerminal r.updateId else s).setStage n (.ended .succeeded)
  else s.setStage n (.ended .failed)

def release (s : ReactionSequencer) (n : Nat) (r : Reaction) (outcome : ReactionOutcome) :
    ReactionSequencer :=
  (if s.chains.get? r.updateId = some n then { s with
    chains := s.chains.erase r.updateId } else s).setStage n
    (.released outcome)

def step (s : ReactionSequencer) : ReactionEvent → Option ReactionSequencer
  | .apply updateId terminal => some (s.apply updateId terminal)
  | .run n =>
    match s.reactions[n]? with
    | some r => if r.stage = .queued ∧ s.priorSettled r then some (s.run n r) else none
    | none => none
  | .settle n ok =>
    match s.reactions[n]? with
    | some r => if r.stage = .running then some (s.setStage n (.settled ok)) else none
    | none => none
  | .finish n =>
    match s.reactions[n]? with
    | some r =>
      match r.stage with
      | .settled ok => some (s.finish n r ok)
      | _ => none
    | none => none
  | .release n =>
    match s.reactions[n]? with
    | some r =>
      match r.stage with
      | .ended outcome => some (s.release n r outcome)
      | _ => none
    | none => none

end ReactionSequencer

namespace ReactionStage

def begun : ReactionStage → Bool
  | queued => false
  | _ => true

def isReleased : ReactionStage → Bool
  | released _ => true
  | _ => false

/-- Its effect has been called and its promise is fulfilled. -/
def hasSucceeded : ReactionStage → Bool
  | settled ok => ok
  | ended outcome => outcome = .succeeded
  | released outcome => outcome = .succeeded
  | _ => false

def isRecorded : ReactionStage → Bool
  | ended outcome => outcome = .succeeded
  | released outcome => outcome = .succeeded
  | _ => false

end ReactionStage

namespace ReactionSequencer

variable {s s' : ReactionSequencer} {n : Nat} {r : Reaction}

theorem setStage_reactions (s : ReactionSequencer) (n i : Nat) (stage : ReactionStage) :
    (s.setStage n stage).reactions[i]? =
      if n = i then s.reactions[i]?.map fun r => { r with stage } else s.reactions[i]? := by
  rw [setStage, List.getElem?_modify]
  split <;> simp

inductive Moves (s : ReactionSequencer) : ReactionEvent → ReactionSequencer → Prop
  | apply (updateId : Int) (terminal : Bool) : Moves s (.apply updateId terminal)
    (s.apply updateId terminal)
  | skip {n : Nat} {r : Reaction} (hr : s.reactions[n]? = some r) (hqueued : r.stage = .queued)
      (hprior : s.priorSettled r = true) (hterminal : s.isTerminal r.updateId = true) :
      Moves s (.run n) (s.setStage n (.ended .skipped))
  | start {n : Nat} {r : Reaction} (hr : s.reactions[n]? = some r) (hqueued : r.stage = .queued)
      (hprior : s.priorSettled r = true) (hterminal : s.isTerminal r.updateId = false) :
      Moves s (.run n) (s.setStage n .running)
  | settle {n : Nat} {r : Reaction} (hr : s.reactions[n]? = some r)
    (hrunning : r.stage = .running) (ok : Bool) :
      Moves s (.settle n ok) (s.setStage n (.settled ok))
  | finish {n : Nat} {r : Reaction} (hr : s.reactions[n]? = some r) {ok : Bool}
    (hsettled : r.stage = .settled ok) :
      Moves s (.finish n) (s.finish n r ok)
  | release {n : Nat} {r : Reaction} (hr : s.reactions[n]? = some r) {outcome : ReactionOutcome}
      (hended : r.stage = .ended outcome) : Moves s (.release n) (s.release n r outcome)

theorem moves_of_step {event : ReactionEvent} (h : s.step event = some s') : Moves s event s' := by
  cases event with
  | apply updateId terminal =>
    cases h
    exact .apply updateId terminal
  | run n =>
    simp only [step] at h
    split at h
    case h_1 r hr =>
      split at h
      case isTrue hready =>
        cases h
        unfold run
        split
        case isTrue ht => exact .skip hr hready.1 hready.2 ht
        case isFalse ht => exact .start hr hready.1 hready.2 (Bool.eq_false_iff.mpr ht)
      case isFalse => cases h
    case h_2 => cases h
  | settle n ok =>
    simp only [step] at h
    split at h
    case h_1 r hr =>
      split at h
      case isTrue hrunning =>
        cases h
        exact .settle hr hrunning ok
      case isFalse => cases h
    case h_2 => cases h
  | finish n =>
    simp only [step] at h
    split at h
    case h_1 r hr =>
      split at h
      case h_1 ok hsettled =>
        cases h
        exact .finish hr hsettled
      case h_2 => cases h
    case h_2 => cases h
  | release n =>
    simp only [step] at h
    split at h
    case h_1 r hr =>
      split at h
      case h_1 outcome hended =>
        cases h
        exact .release hr hended
      case h_2 => cases h
    case h_2 => cases h

structure SameUpdate (s : ReactionSequencer) (m n : Nat) (q r : Reaction) : Prop where
  left : s.reactions[m]? = some q
  right : s.reactions[n]? = some r
  updateId : q.updateId = r.updateId

structure Chained (s : ReactionSequencer) : Prop where
  prior : ∀ n r p, s.reactions[n]? = some r → r.prior = some p → p < n ∧ ∃ q, SameUpdate s p n q r
  behind : ∀ m n q r, m < n → SameUpdate s m n q r → q.stage.isReleased ∨
    ∃ p, r.prior = some p ∧ m ≤ p
  ordered : ∀ m n q r, m < n → SameUpdate s m n q r → r.stage.begun → q.stage.isReleased
  tail : ∀ updateId n, s.chains.get? updateId = some n → ∃ r, s.reactions[n]? = some r ∧
    r.updateId = updateId ∧ r.stage.isReleased = false ∧ ∀ m q, SameUpdate s m n q r → m ≤ n
  free : ∀ updateId, s.chains.get? updateId = none →
    ∀ (m : Nat) (q : Reaction), s.reactions[m]? = some q →
    q.updateId = updateId → q.stage.isReleased

theorem chained_init : Chained init where
  prior n r p h := by simp [init] at h
  behind m n q r _ h := by simpa [init] using h.left
  ordered m n q r _ h := by simpa [init] using h.left
  tail updateId n h := by simp [init] at h
  free updateId _ m q h := by simp [init] at h

theorem of_setStage {stage : ReactionStage} {i : Nat} {x : Reaction}
    (h : (s.setStage n stage).reactions[i]? = some x) :
    ∃ y, s.reactions[i]? = some y ∧ x.updateId = y.updateId ∧
      x.terminal = y.terminal ∧ x.prior = y.prior ∧ x.stage = if n = i then stage else y.stage := by
  rw [setStage_reactions] at h
  split at h
  case isTrue hni =>
    obtain ⟨y, hy, rfl⟩ := Option.map_eq_some_iff.mp h
    exact ⟨y, hy, rfl, rfl, rfl, (if_pos hni).symm⟩
  case isFalse hni => exact ⟨x, h, rfl, rfl, rfl, (if_neg hni).symm⟩

theorem setStage_of {stage : ReactionStage} {i : Nat} {y : Reaction} (h : s.reactions[i]? = some y) :
    (s.setStage n stage).reactions[i]? = some
    { y with stage := if n = i then stage else y.stage } := by
  rw [setStage_reactions, h]
  split <;> rfl

theorem Chained.released_of_priorSettled (hc : Chained s) (hprior : s.priorSettled r = true)
    {m : Nat} {q : Reaction} (hlt : m < n) (hsame : SameUpdate s m n q r) : q.stage.isReleased := by
  rcases hc.behind m n q r hlt hsame with hreleased | ⟨p, hp, hle⟩
  · exact hreleased
  · obtain ⟨-, x, hx⟩ := hc.prior n r p hsame.right hp
    have hxreleased : x.stage.isReleased := by
      simp only [priorSettled, hp, hx.left, Option.map_some] at hprior
      split at hprior
      case h_1 outcome hstage => rw [Option.some.inj hstage]; rfl
      case h_2 => cases hprior
    rcases Nat.lt_or_eq_of_le hle with hmp | rfl
    · have hbegun : x.stage.begun := by
        cases hstage : x.stage with
        | released outcome => rfl
        | _ => rw [hstage] at hxreleased; cases hxreleased
      exact hc.ordered m p q x hmp ⟨hsame.left, hx.left,
        hsame.updateId.trans hx.updateId.symm⟩ hbegun
    · have heq : q = x := Option.some.inj (hsame.left.symm.trans hx.left)
      exact heq ▸ hxreleased

theorem SameUpdate.of_setStage {stage : ReactionStage} {i j : Nat} {x y : Reaction}
    (h : SameUpdate (s.setStage n stage) i j x y) :
    ∃ x' y', SameUpdate s i j x' y' ∧ y.prior = y'.prior ∧
      x.stage = (if n = i then stage else x'.stage) ∧
        y.stage = if n = j then stage else y'.stage := by
  obtain ⟨x', hx, hxid, -, -, hxstage⟩ := ReactionSequencer.of_setStage h.left
  obtain ⟨y', hy, hyid, -, hyprior, hystage⟩ := ReactionSequencer.of_setStage h.right
  exact ⟨x', y', ⟨hx, hy, hxid.symm.trans (h.updateId.trans hyid)⟩, hyprior, hxstage, hystage⟩

theorem Chained.setStage (hc : Chained s) (hr : s.reactions[n]? = some r)
    (hopen : r.stage.isReleased = false) (stage : ReactionStage) (hstage : stage.isReleased = false)
    (hturn : r.stage.begun = true ∨ s.priorSettled r = true) : Chained (s.setStage n stage) where
  prior i x p hx hp := by
    obtain ⟨y, hy, hyid, -, hyprior, -⟩ := of_setStage hx
    obtain ⟨hlt, q, hq⟩ := hc.prior i y p hy (hyprior ▸ hp)
    exact ⟨hlt, _, setStage_of hq.left, hx, hq.updateId.trans hyid.symm⟩
  behind i j x y hlt h := by
    obtain ⟨x', y', h', hprior, hx, -⟩ := h.of_setStage
    rw [hprior, hx]
    rcases hc.behind i j x' y' hlt h' with hreleased | hp
    · by_cases hni : n = i
      · subst hni
        rw [Option.some.inj (hr.symm.trans h'.left)] at hopen
        exact absurd hreleased (by simp [hopen])
      · exact .inl (by rwa [if_neg hni])
    · exact .inr hp
  ordered i j x y hlt h hbegun := by
    obtain ⟨x', y', h', -, hx, hy⟩ := h.of_setStage
    have hreleased : x'.stage.isReleased := by
      by_cases hnj : n = j
      · subst hnj
        have hry := Option.some.inj (hr.symm.trans h'.right)
        rcases hturn with hbegun' | hprior
        · exact hc.ordered i n x' y' hlt h' (hry ▸ hbegun')
        · exact hc.released_of_priorSettled (hry ▸ hprior) hlt h'
      · rw [hy, if_neg hnj] at hbegun
        exact hc.ordered i j x' y' hlt h' hbegun
    by_cases hni : n = i
    · subst hni
      rw [Option.some.inj (hr.symm.trans h'.left)] at hopen
      exact absurd hreleased (by simp [hopen])
    · rwa [hx, if_neg hni]
  tail updateId i hi := by
    obtain ⟨x, hx, hid, hxopen, hlast⟩ := hc.tail updateId i hi
    refine ⟨_, setStage_of hx, hid, ?_, ?_⟩
    · show ReactionStage.isReleased (if n = i then stage else x.stage) = false
      split <;> assumption
    · intro m q h
      obtain ⟨q', x', h', -⟩ := h.of_setStage
      have hxx := Option.some.inj (hx.symm.trans h'.right)
      exact hlast m q' (hxx ▸ h')
  free updateId hi m q hq hid := by
    obtain ⟨q', hq', hqid, -, -, hqstage⟩ := of_setStage hq
    have hreleased := hc.free updateId hi m q' hq' (hqid.symm.trans hid)
    by_cases hnm : n = m
    · subst hnm
      rw [Option.some.inj (hr.symm.trans hq')] at hopen
      exact absurd hreleased (by simp [hopen])
    · rwa [hqstage, if_neg hnm]

theorem Chained.congr (hc : Chained s) (hreactions : s'.reactions = s.reactions)
    (hchains : s'.chains = s.chains) :
    Chained s' := by
  have hsame : ∀ {m n q r}, SameUpdate s' m n q r ↔ SameUpdate s m n q r := by
    intro m n q r
    constructor <;> rintro ⟨h1, h2, h3⟩
    · exact ⟨hreactions ▸ h1, hreactions ▸ h2, h3⟩
    · exact ⟨hreactions ▸ h1, hreactions ▸ h2, h3⟩
  constructor
  · simpa only [hsame, hreactions] using hc.prior
  · simpa only [hsame] using hc.behind
  · simpa only [hsame] using hc.ordered
  · simpa only [hsame, hreactions, hchains] using hc.tail
  · simpa only [hreactions, hchains] using hc.free

theorem begun_of_ended {outcome : ReactionOutcome} (h : r.stage = .ended outcome) :
    r.stage.begun = true := by
  rw [h]
  rfl

theorem release_reactions (s : ReactionSequencer) (n : Nat) (r : Reaction)
    (outcome : ReactionOutcome) :
    (s.release n r outcome).reactions = (s.setStage n (.released outcome)).reactions := by
  unfold release
  split <;> rfl

theorem release_of {outcome : ReactionOutcome} {i : Nat} {y : Reaction}
    (h : s.reactions[i]? = some y) :
    (s.release n r outcome).reactions[i]? =
      some { y with stage := if n = i then .released outcome else y.stage } := by
  rw [release_reactions]
  exact setStage_of h

theorem release_chains (s : ReactionSequencer) (n : Nat) (r : Reaction) (outcome : ReactionOutcome)
    (updateId : Int) :
    (s.release n r outcome).chains.get? updateId =
      if updateId = r.updateId ∧
        s.chains.get? r.updateId = some n then none else s.chains.get? updateId := by
  unfold release
  split
  case isTrue h =>
    show (s.chains.erase r.updateId).get? updateId = _
    rw [InsertionMap.get?_erase]
    simp [h]
  case isFalse h => simp [h, setStage]

theorem Chained.release (hc : Chained s) (hr : s.reactions[n]? = some r) {outcome : ReactionOutcome}
    (hended : r.stage = .ended outcome) : Chained (s.release n r outcome) := by
  have hreactions := release_reactions s n r outcome
  have hsame : ∀ {i j x y}, SameUpdate (s.release n r outcome) i j x y →
      SameUpdate (s.setStage n (.released outcome)) i j x y :=
    fun h => ⟨hreactions ▸ h.left, hreactions ▸ h.right, h.updateId⟩
  have hkeeps : ∀ {i : Nat} {x : Reaction}, x.stage.isReleased = true →
      ReactionStage.isReleased (if n = i then .released outcome else x.stage) = true := by
    intro i x hx
    split
    · rfl
    · exact hx
  constructor
  case prior =>
    intro i x p hx hp
    obtain ⟨y, hy, hyid, -, hyprior, -⟩ := of_setStage (hreactions ▸ hx)
    obtain ⟨hlt, q, hq⟩ := hc.prior i y p hy (hyprior ▸ hp)
    exact ⟨hlt, _, release_of hq.left, hx, hq.updateId.trans hyid.symm⟩
  case behind =>
    intro i j x y hlt h
    obtain ⟨x', y', h', hprior, hx, -⟩ := (hsame h).of_setStage
    rw [hprior, hx]
    exact (hc.behind i j x' y' hlt h').imp hkeeps id
  case ordered =>
    intro i j x y hlt h hbegun
    obtain ⟨x', y', h', -, hx, hy⟩ := (hsame h).of_setStage
    rw [hx]
    refine hkeeps (hc.ordered i j x' y' hlt h' ?_)
    by_cases hnj : n = j
    · subst hnj
      rw [← Option.some.inj (hr.symm.trans h'.right)]
      exact begun_of_ended hended
    · rwa [hy, if_neg hnj] at hbegun
  case tail =>
    intro updateId i hi
    rw [release_chains] at hi
    split at hi
    case isTrue => cases hi
    case isFalse hkept =>
      obtain ⟨x, hx, hid, hxopen, hlast⟩ := hc.tail updateId i hi
      have hni : n ≠ i := by
        rintro rfl
        rw [Option.some.inj (hx.symm.trans hr)] at hid
        exact hkept ⟨hid.symm, hid ▸ hi⟩
      refine ⟨_, release_of hx, hid, ?_, ?_⟩
      · show ReactionStage.isReleased (if n = i then _ else x.stage) = false
        rwa [if_neg hni]
      · intro m q h
        obtain ⟨q', x', h', -⟩ := (hsame h).of_setStage
        have hxx := Option.some.inj (hx.symm.trans h'.right)
        exact hlast m q' (hxx ▸ h')
  case free =>
    intro updateId hi m q hq hid
    obtain ⟨q', hq', hqid, -, -, hqstage⟩ := of_setStage (hreactions ▸ hq)
    rw [hqstage]
    rw [release_chains] at hi
    split at hi
    case isTrue hgone =>
      obtain ⟨x, hx, -, -, hlast⟩ := hc.tail r.updateId n hgone.2
      obtain rfl := Option.some.inj (hx.symm.trans hr)
      have hsameUpdate : SameUpdate s m n q' x := ⟨hq', hx, hqid.symm.trans (hid.trans hgone.1)⟩
      rcases Nat.lt_or_eq_of_le (hlast m q' hsameUpdate) with hlt | rfl
      · exact hkeeps (hc.ordered m n q' x hlt hsameUpdate (begun_of_ended hended))
      · rw [if_pos rfl]
        rfl
    case isFalse => exact hkeeps (hc.free updateId hi m q' hq' (hqid.symm.trans hid))

theorem of_apply {updateId : Int} {terminal : Bool} {i : Nat} {x : Reaction}
    (h : (s.apply updateId terminal).reactions[i]? = some x) :
    s.reactions[i]? = some x ∧ i < s.reactions.length ∨
      i = s.reactions.length ∧ x = ⟨updateId, terminal, s.chains.get? updateId, .queued⟩ := by
  simp only [ReactionSequencer.apply] at h
  rcases Nat.lt_trichotomy i s.reactions.length with hlt | rfl | hgt
  · rw [List.getElem?_append_left hlt] at h
    exact .inl ⟨h, hlt⟩
  · rw [List.getElem?_concat_length] at h
    exact .inr ⟨rfl, (Option.some.inj h).symm⟩
  · rw [List.getElem?_eq_none (by simp; omega)] at h
    cases h

theorem apply_of {updateId : Int} {terminal : Bool} {i : Nat} {x : Reaction}
    (h : s.reactions[i]? = some x) :
    (s.apply updateId terminal).reactions[i]? = some x := by
  rw [ReactionSequencer.apply, List.getElem?_append_left (List.getElem?_eq_some_iff.mp h).1, h]

theorem Chained.apply (hc : Chained s) (updateId : Int) (terminal : Bool) :
    Chained (s.apply updateId terminal) := by
  have hold : ∀ {m n q r}, SameUpdate (s.apply updateId terminal) m n q r → m < n →
      n < s.reactions.length →
      SameUpdate s m n q r := by
    intro m n q r h hmn hn
    refine ⟨?_, ?_, h.updateId⟩
    · rcases of_apply h.left with ⟨hq, -⟩ | ⟨rfl, -⟩
      · exact hq
      · omega
    · rcases of_apply h.right with ⟨hr, -⟩ | ⟨rfl, -⟩
      · exact hr
      · omega
  constructor
  case prior =>
    intro i x p hx hp
    rcases of_apply hx with ⟨hx', -⟩ | ⟨rfl, rfl⟩
    · obtain ⟨hlt, q, hq⟩ := hc.prior i x p hx' hp
      exact ⟨hlt, q, apply_of hq.left, hx, hq.updateId⟩
    · obtain ⟨q, hq, hid, -⟩ := hc.tail updateId p hp
      exact ⟨(List.getElem?_eq_some_iff.mp hq).1, q, apply_of hq, hx, hid⟩
  case behind =>
    intro i j x y hlt h
    rcases of_apply h.right with ⟨-, hj⟩ | ⟨rfl, rfl⟩
    · exact hc.behind i j x y hlt (hold h hlt hj)
    · have hx : s.reactions[i]? = some x := by
        rcases of_apply h.left with ⟨hx, -⟩ | ⟨rfl, -⟩
        · exact hx
        · omega
      cases hchain : s.chains.get? updateId with
      | none => exact .inl (hc.free updateId hchain i x hx h.updateId)
      | some p =>
        obtain ⟨q, hq, hid, -, hlast⟩ := hc.tail updateId p hchain
        exact .inr ⟨p, rfl, hlast i x ⟨hx, hq, h.updateId.trans hid.symm⟩⟩
  case ordered =>
    intro i j x y hlt h hbegun
    rcases of_apply h.right with ⟨-, hj⟩ | ⟨rfl, rfl⟩
    · exact hc.ordered i j x y hlt (hold h hlt hj) hbegun
    · cases hbegun
  case tail =>
    intro otherId i hi
    simp only [ReactionSequencer.apply, InsertionMap.get?_set] at hi
    split at hi
    case isTrue hid =>
      cases hi
      refine ⟨⟨updateId, terminal, s.chains.get? updateId, .queued⟩,
        List.getElem?_concat_length, hid.symm, rfl, ?_⟩
      intro m q h
      rcases of_apply h.left with ⟨-, hm⟩ | ⟨rfl, -⟩ <;> omega
    case isFalse hid =>
      obtain ⟨x, hx, hxid, hopen, hlast⟩ := hc.tail otherId i hi
      refine ⟨x, apply_of hx, hxid, hopen, fun m q h => ?_⟩
      rcases of_apply h.left with ⟨hq, -⟩ | ⟨rfl, rfl⟩
      · exact hlast m q ⟨hq, hx, h.updateId⟩
      · exact absurd (hxid.symm.trans h.updateId.symm) hid
  case free =>
    intro otherId hi m q hq hid
    simp only [ReactionSequencer.apply, InsertionMap.get?_set] at hi
    split at hi
    case isTrue => cases hi
    case isFalse hne =>
      rcases of_apply hq with ⟨hq', -⟩ | ⟨rfl, rfl⟩
      · exact hc.free otherId hi m q hq' hid
      · exact absurd hid.symm hne

theorem finish_reactions (s : ReactionSequencer) (n : Nat) (r : Reaction) (ok : Bool) :
    (s.finish n r ok).reactions =
    (s.setStage n (.ended (if ok then .succeeded else .failed))).reactions := by
  unfold finish
  cases ok <;> cases r.terminal <;> rfl

theorem finish_chains (s : ReactionSequencer) (n : Nat) (r : Reaction) (ok : Bool) :
    (s.finish n r ok).chains = s.chains := by
  unfold finish
  cases ok <;> cases r.terminal <;> rfl

theorem Chained.step (hc : Chained s) {event : ReactionEvent} (h : s.step event = some s') :
    Chained s' := by
  cases moves_of_step h with
  | apply updateId terminal => exact hc.apply updateId terminal
  | skip hr hqueued hprior => exact hc.setStage hr (by rw [hqueued]; rfl) _ rfl (.inr hprior)
  | start hr hqueued hprior => exact hc.setStage hr (by rw [hqueued]; rfl) _ rfl (.inr hprior)
  | settle hr hrunning ok =>
    exact hc.setStage hr (by rw [hrunning]; rfl) _ rfl (.inl (by rw [hrunning]; rfl))
  | @finish n r hr ok hsettled =>
    have hmoved :=
      hc.setStage hr (by rw [hsettled]; rfl) (.ended (if ok then .succeeded else .failed)) rfl
      (.inl (by rw [hsettled]; rfl))
    exact hmoved.congr (finish_reactions s n r ok) (finish_chains s n r ok)
  | release hr hended => exact hc.release hr hended

/-- A terminal effect of the update has succeeded and was recorded. -/
def Recorded (s : ReactionSequencer) (updateId : Int) : Prop :=
  ∃ (m : Nat) (q : Reaction), s.reactions[m]? = some q ∧ q.terminal = true ∧
    q.stage.isRecorded = true ∧
    q.updateId = updateId

structure Tombstoned (s : ReactionSequencer) : Prop where
  newest : ∀ k, s.newestTerminalId = some k → Recorded s k
  kept : ∀ updateId, Recorded s updateId → s.isTerminal updateId = true ∨
    ∃ k, s.newestTerminalId = some k ∧ updateId + inboundReactionTombstoneWindow ≤ k

theorem tombstoned_init : Tombstoned init where
  newest k h := by cases h
  kept updateId h := by
    obtain ⟨m, q, hq, -⟩ := h
    simp [init] at hq

theorem recorded_setStage (hr : s.reactions[n]? = some r) (stage : ReactionStage) (updateId : Int) :
    Recorded (s.setStage n stage) updateId → Recorded s updateId ∨
      stage.isRecorded = true ∧ r.terminal = true ∧ r.updateId = updateId := by
  rintro ⟨m, q, hq, hterminal, hrecorded, hid⟩
  obtain ⟨y, hy, hyid, hyterminal, -, hystage⟩ := of_setStage hq
  by_cases hnm : n = m
  · subst hnm
    obtain rfl := Option.some.inj (hr.symm.trans hy)
    rw [hystage, if_pos rfl] at hrecorded
    exact .inr ⟨hrecorded, hyterminal ▸ hterminal, hyid.symm.trans hid⟩
  · rw [hystage, if_neg hnm] at hrecorded
    exact .inl ⟨m, y, hy, hyterminal ▸ hterminal, hrecorded, hyid.symm.trans hid⟩

theorem Recorded.setStage {updateId : Int} (h : Recorded s updateId) (hr : s.reactions[n]? = some r)
    {stage : ReactionStage} (hstage : r.stage.isRecorded = true → stage.isRecorded = true) :
    Recorded (s.setStage n stage) updateId := by
  obtain ⟨m, q, hq, hterminal, hrecorded, hid⟩ := h
  refine ⟨m, _, setStage_of hq, hterminal, ?_, hid⟩
  show ReactionStage.isRecorded (if n = m then stage else q.stage) = true
  split
  case isTrue hnm =>
    subst hnm
    rw [Option.some.inj (hr.symm.trans hq)] at hstage
    exact hstage hrecorded
  case isFalse => exact hrecorded

theorem Tombstoned.congr (ht : Tombstoned s)
    (hrecorded : ∀ updateId, Recorded s' updateId ↔ Recorded s updateId)
    (hterminal : s'.terminal = s.terminal) (hnewest : s'.newestTerminalId = s.newestTerminalId) :
    Tombstoned s' where
  newest k h := (hrecorded k).mpr (ht.newest k (hnewest ▸ h))
  kept updateId h := by
    rw [isTerminal, hterminal, hnewest]
    exact ht.kept updateId ((hrecorded updateId).mp h)

theorem Tombstoned.setStage (ht : Tombstoned s) (hr : s.reactions[n]? = some r)
    (stage : ReactionStage) (hstage : r.stage.isRecorded = stage.isRecorded) :
    Tombstoned (s.setStage n stage) := by
  refine ht.congr (fun updateId => ⟨fun h => ?_, fun h => h.setStage hr (by rw [hstage]; exact id)⟩)
    rfl rfl
  rcases recorded_setStage hr stage updateId h with h | ⟨hrecorded, hterminal, hid⟩
  · exact h
  · exact ⟨n, r, hr, hterminal, hstage.trans hrecorded, hid⟩

theorem recordTerminal_isTerminal (s : ReactionSequencer) (updateId otherId : Int) :
    (s.recordTerminal updateId).isTerminal otherId = true ↔
      max (s.newestTerminalId.getD updateId) updateId - otherId < inboundReactionTombstoneWindow ∧
        (otherId = updateId ∨ s.isTerminal otherId = true) := by
  simp only [recordTerminal, evictStaleTombstones, isTerminal]
  generalize max (s.newestTerminalId.getD updateId) updateId = newest
  rw [InsertionMap.get?_filter_key fun k => decide (newest - k < inboundReactionTombstoneWindow)]
  by_cases hnear : newest - otherId < inboundReactionTombstoneWindow
  · by_cases hid : otherId = updateId <;> simp [hnear, hid]
  · simp [hnear]

theorem Tombstoned.recordTerminal (ht : Tombstoned s) (updateId : Int)
    (hrecorded : Recorded s' updateId) (hold : ∀ k, Recorded s k → Recorded s' k)
    (hnew : ∀ k, Recorded s' k → Recorded s k ∨ k = updateId)
    (hterminal : s'.terminal = (s.recordTerminal updateId).terminal)
    (hnewest : s'.newestTerminalId = (s.recordTerminal updateId).newestTerminalId) :
    Tombstoned s' where
  newest k h := by
    rw [hnewest] at h
    obtain rfl := Option.some.inj h
    cases hn : s.newestTerminalId with
    | none => simpa [hn] using hrecorded
    | some k =>
      rw [Option.getD_some]
      rcases Int.le_total updateId k with hle | hle
      · rw [Int.max_eq_left hle]
        exact hold k (ht.newest k hn)
      · rw [Int.max_eq_right hle]
        exact hrecorded
  kept k h := by
    have hiff := recordTerminal_isTerminal s updateId k
    rw [isTerminal, hterminal, hnewest]
    by_cases hnear : max (s.newestTerminalId.getD updateId) updateId - k <
      inboundReactionTombstoneWindow
    · rcases hnew k h with hk | rfl
      · rcases ht.kept k hk with hterm | ⟨j, hj, hfar⟩
        · exact .inl (hiff.mpr ⟨hnear, .inr hterm⟩)
        · rw [hj, Option.getD_some] at hnear
          have hle := Int.le_max_left j updateId
          omega
      · exact .inl (hiff.mpr ⟨hnear, .inl rfl⟩)
    · exact .inr ⟨_, rfl, by omega⟩

theorem recorded_congr (h : s'.reactions = s.reactions) (updateId : Int) :
    Recorded s' updateId ↔ Recorded s updateId := by
  rw [Recorded, Recorded, h]

theorem recorded_apply (s : ReactionSequencer) (updateId : Int) (terminal : Bool) (k : Int) :
    Recorded (s.apply updateId terminal) k ↔ Recorded s k := by
  constructor
  · rintro ⟨m, q, hq, hterminal, hrecorded, hid⟩
    rcases of_apply hq with ⟨hq', -⟩ | ⟨-, rfl⟩
    · exact ⟨m, q, hq', hterminal, hrecorded, hid⟩
    · cases hrecorded
  · rintro ⟨m, q, hq, hrest⟩
    exact ⟨m, q, apply_of hq, hrest⟩

theorem Tombstoned.finish (ht : Tombstoned s) (hr : s.reactions[n]? = some r) {ok : Bool}
    (hsettled : r.stage = .settled ok) : Tombstoned (s.finish n r ok) := by
  have hfresh : r.stage.isRecorded = false := by
    rw [hsettled]
    rfl
  have hreactions := finish_reactions s n r ok
  cases ok with
  | false => exact ht.setStage hr (.ended .failed) hfresh
  | true =>
    have hgrows : ∀ k, Recorded s k → Recorded (s.finish n r true) k := fun k h =>
      (recorded_congr hreactions k).mpr (h.setStage hr fun _ => rfl)
    have hcases : ∀ k, Recorded (s.finish n r true) k → Recorded s k ∨ r.terminal = true ∧
        r.updateId = k :=
      fun k h => (recorded_setStage hr _ k ((recorded_congr hreactions k).mp h)).imp id And.right
    cases hterminal : r.terminal with
    | false =>
      refine ht.congr (fun k => ⟨fun h => ?_, hgrows k⟩) ?_ ?_
      · rcases hcases k h with h | ⟨h, -⟩
        · exact h
        · simp [hterminal] at h
      all_goals simp [ReactionSequencer.finish, hterminal, ReactionSequencer.setStage]
    | true =>
      refine ht.recordTerminal r.updateId ?_ hgrows
        (fun k h => (hcases k h).imp id fun h => h.2.symm) ?_ ?_
      · exact (recorded_congr hreactions _).mpr ⟨n, _, setStage_of hr, hterminal, by simp; rfl, rfl⟩
      all_goals simp [ReactionSequencer.finish, hterminal, ReactionSequencer.setStage]

theorem Tombstoned.step (ht : Tombstoned s) {event : ReactionEvent} (h : s.step event = some s') :
    Tombstoned s' := by
  cases moves_of_step h with
  | apply updateId terminal => exact ht.congr (recorded_apply s updateId terminal) rfl rfl
  | skip hr hqueued => exact ht.setStage hr _ (by rw [hqueued]; rfl)
  | start hr hqueued => exact ht.setStage hr _ (by rw [hqueued]; rfl)
  | settle hr hrunning ok => exact ht.setStage hr _ (by rw [hrunning]; rfl)
  | finish hr hsettled => exact ht.finish hr hsettled
  | @release n r hr outcome hended =>
    have hmoved : Tombstoned (s.setStage n (.released outcome)) :=
      ht.setStage hr _ (by rw [hended]; rfl)
    refine hmoved.congr (recorded_congr (release_reactions s n r outcome)) ?_ ?_
    all_goals
      unfold ReactionSequencer.release
      split <;> rfl

theorem invariant_of_run {events : List ReactionEvent}
    (h : runEvents ReactionSequencer.step init events = some s) :
    Chained s ∧ Tombstoned s :=
  runEvents_preserves (P := fun s => Chained s ∧ Tombstoned s)
    (fun _ _ _ hP hstep => ⟨hP.1.step hstep, hP.2.step hstep⟩) h ⟨chained_init, tombstoned_init⟩

/-- No effect is in flight and no continuation is left to run. -/
def Idle (s : ReactionSequencer) : Prop :=
  ∀ n ok, s.step (.run n) = none ∧ s.step (.settle n ok) = none ∧ s.step (.finish n) = none ∧
    s.step (.release n) = none

theorem Chained.isReleased_of_idle (hc : Chained s) (hidle : Idle s)
    (hr : s.reactions[n]? = some r) :
    r.stage.isReleased = true := by
  induction n using Nat.strongRecOn generalizing r with
  | ind n ih =>
    obtain ⟨hrun, hsettle, hfinish, hrelease⟩ := hidle n true
    simp only [ReactionSequencer.step, hr] at hrun hsettle hfinish hrelease
    cases hstage : r.stage with
    | queued =>
      have hprior : s.priorSettled r = true := by
        unfold priorSettled
        cases hp : r.prior with
        | none => rfl
        | some p =>
          obtain ⟨hlt, q, hq⟩ := hc.prior n r p hr hp
          have hreleased := ih p hlt hq.left
          simp only [hq.left, Option.map_some]
          cases hqstage : q.stage with
          | released outcome => rfl
          | _ => rw [hqstage] at hreleased; cases hreleased
      simp [hstage, hprior] at hrun
    | running => simp [hstage] at hsettle
    | settled ok => simp [hstage] at hfinish
    | ended outcome => simp [hstage] at hrelease
    | released outcome => rfl

theorem Chained.chains_of_idle (hc : Chained s) (hidle : Idle s) : s.chains.entries = [] := by
  rw [List.eq_nil_iff_forall_not_mem]
  rintro ⟨updateId, n⟩ hmem
  obtain ⟨r, hr, -, hopen, -⟩ := hc.tail updateId n (InsertionMap.mem_entries.mp hmem)
  rw [hc.isReleased_of_idle hidle hr] at hopen
  cases hopen

def stepsLeft : ReactionStage → Nat
  | .queued => 4
  | .running => 3
  | .settled _ => 2
  | .ended _ => 1
  | .released _ => 0

def work (s : ReactionSequencer) : Nat := (s.reactions.map fun r => stepsLeft r.stage).sum

theorem work_setStage_lt (hr : s.reactions[n]? = some r) {stage : ReactionStage}
    (hlt : stepsLeft stage < stepsLeft r.stage) (h : s'.reactions = (s.setStage n stage).reactions) :
    s'.work < s.work := by
  simp only [work, h, setStage]
  clear h
  generalize s.reactions = reactions at hr ⊢
  induction reactions generalizing n with
  | nil => cases hr
  | cons x xs ih =>
    cases n with
    | zero =>
      obtain rfl := Option.some.inj hr
      simpa using hlt
    | succ n => simpa using ih hr

theorem work_step_lt {event : ReactionEvent}
    (hevent : ∀ updateId terminal, event ≠ .apply updateId terminal) (h : s.step event = some s') :
    s'.work < s.work := by
  cases moves_of_step h with
  | apply updateId terminal => exact absurd rfl (hevent updateId terminal)
  | skip hr hqueued => exact work_setStage_lt hr (by rw [hqueued]; decide) rfl
  | start hr hqueued => exact work_setStage_lt hr (by rw [hqueued]; decide) rfl
  | settle hr hrunning ok =>
    exact work_setStage_lt hr (by rw [hrunning]; exact Nat.lt_succ_self 2) rfl
  | @finish n r hr ok hsettled =>
    exact work_setStage_lt hr (by rw [hsettled]; exact Nat.lt_succ_self 1)
      (finish_reactions s n r ok)
  | @release n r hr outcome hended =>
    exact work_setStage_lt hr (by rw [hended]; exact Nat.lt_succ_self 0)
      (release_reactions s n r outcome)

theorem Tombstoned.start (hc : Chained s) (ht : Tombstoned s) (hr : s.reactions[n]? = some r)
    (hrun : s.step (.run n) = some s')
    (hstart : (s'.reactions[n]?.map Reaction.stage) = some .running) {m : Nat} {q : Reaction}
    (hq : s.reactions[m]? = some q) (hid : q.updateId = r.updateId) (hterminal : q.terminal = true)
    (hsucceeded : q.stage.hasSucceeded = true) :
    ∃ k, Recorded s k ∧ r.updateId + inboundReactionTombstoneWindow ≤ k := by
  cases moves_of_step hrun with
  | skip hr' hqueued =>
    rw [setStage_of hr'] at hstart
    simp at hstart
  | @start n r' hr' hqueued hprior hopen =>
    obtain rfl := Option.some.inj (hr.symm.trans hr')
    have hreleased : q.stage.isReleased = true := by
      rcases Nat.lt_trichotomy m n with hlt | rfl | hgt
      · exact hc.released_of_priorSettled hprior hlt ⟨hq, hr, hid⟩
      · rw [Option.some.inj (hq.symm.trans hr), hqueued] at hsucceeded
        cases hsucceeded
      · -- a later reaction that is under way would have let this one go first
        have hbegun : q.stage.begun = true := by
          cases hstage : q.stage with
          | queued => rw [hstage] at hsucceeded; cases hsucceeded
          | _ => rfl
        have hthis := hc.ordered n m r q hgt ⟨hr, hq, hid.symm⟩ hbegun
        rw [hqueued] at hthis
        cases hthis
    have hrecorded : q.stage.isRecorded = true := by
      cases hstage : q.stage with
      | released outcome => rw [hstage] at hsucceeded; exact hsucceeded
      | _ => rw [hstage] at hreleased; cases hreleased
    rcases ht.kept r.updateId ⟨m, q, hq, hterminal, hrecorded, hid⟩ with hclosed | ⟨k, hk, hfar⟩
    · rw [hopen] at hclosed
      cases hclosed
    · exact ⟨k, ht.newest k hk, hfar⟩

theorem SameUpdate.symm {m : Nat} {q : Reaction} (h : SameUpdate s m n q r) : SameUpdate s n m r q :=
  ⟨h.right, h.left, h.updateId.symm⟩

theorem Chained.eq_of_running (hc : Chained s) {m : Nat} {q : Reaction}
    (hsame : SameUpdate s m n q r) (hq : q.stage = .running) (hr : r.stage = .running) : m = n := by
  rcases Nat.lt_trichotomy m n with hlt | heq | hgt
  · have hreleased := hc.ordered m n q r hlt hsame (by rw [hr]; rfl)
    rw [hq] at hreleased
    cases hreleased
  · exact heq
  · have hreleased := hc.ordered n m r q hgt hsame.symm (by rw [hq]; rfl)
    rw [hr] at hreleased
    cases hreleased

/-- In every order of calls, settlements and continuations: two effects of an update never overlap,
what has left the queue finds the earlier reactions of its update settled, no effect starts behind a
terminal one that succeeded while its tombstone lasts, and the chains are gone when everything has
settled, which takes finitely many steps. -/
theorem reactions_serialised_and_final (events : List ReactionEvent)
    (h : runEvents ReactionSequencer.step init events = some s) :
    (∀ m n q r, SameUpdate s m n q r → q.stage = .running → r.stage = .running → m = n) ∧
      (∀ m n q r, m < n → SameUpdate s m n q r → r.stage.begun = true → q.stage.isReleased = true) ∧
      (∀ n r s', s.reactions[n]? = some r → s.step (.run n) = some s' →
        s'.reactions[n]?.map Reaction.stage = some .running →
        ∀ m q, SameUpdate s m n q r → q.terminal = true → q.stage.hasSucceeded = true →
          ∃ k, Recorded s k ∧ r.updateId + inboundReactionTombstoneWindow ≤ k) ∧
      (Idle s → s.chains.entries = []) ∧
      ∀ event s', (∀ updateId terminal, event ≠ .apply updateId terminal) → s.step event = some s' →
        s'.work < s.work := by
  obtain ⟨hc, ht⟩ := invariant_of_run h
  refine ⟨fun m n q r hsame hq hr => hc.eq_of_running hsame hq hr, hc.ordered, ?_, hc.chains_of_idle,
    fun event s' hevent hstep => work_step_lt hevent hstep⟩
  intro n r s' hr hrun hstart m q hsame hterminal hsucceeded
  exact ht.start hc hr hrun hstart hsame.left hsame.updateId hterminal hsucceeded

theorem late_reaction_is_skipped : ∃ s,
    runEvents ReactionSequencer.step init [.apply 7 true, .run 0, .apply 7 false,
      .settle 0 true, .finish 0, .release 0, .run 1, .release 1] = some s ∧
        (Idle s → s.chains.entries = []) := by
  refine ⟨_, rfl, ?_⟩
  exact (reactions_serialised_and_final [.apply 7 true, .run 0, .apply 7 false, .settle 0 true,
    .finish 0, .release 0, .run 1, .release 1] rfl).2.2.2.1

end ReactionSequencer

end JevCode.Sdk
