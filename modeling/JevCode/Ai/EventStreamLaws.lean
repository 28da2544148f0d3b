import JevCode.Ai.EventStream
import Mathlib.Logic.Function.Iterate

namespace JevCode.Ai

open JevCode.Data

variable {E R Err : Type}

def eventsOf (nodes : List (QueueNode E)) : List E :=
  nodes.filterMap fun
    | .event event => some event
    | .consumerDrain _ => none

def wokenEvents (woken : List (WaitResult E Err)) : List E :=
  woken.filterMap fun
    | .value event => some event
    | _ => none

namespace EventStream

def nodes (s : EventStream E R Err) : List (QueueNode E) := s.queue.toList

def Resolved (s : EventStream E R Err) (drain : Nat) : Prop :=
  s.drains[drain]? = some (some (.ok ()))

structure SameButDrains (s s' : EventStream E R Err) : Prop where
  queue : s'.queue = s.queue
  waiting : s'.waiting = s.waiting
  woken : s'.woken = s.woken
  active : s'.activeConsumerCount = s.activeConsumerCount
  done : s'.done = s.done
  failed : s'.failed = s.failed
  drains : s'.drains.length = s.drains.length

variable {s s' s'' : EventStream E R Err}

theorem SameButDrains.refl (s : EventStream E R Err) : SameButDrains s s :=
  ⟨rfl, rfl, rfl, rfl, rfl, rfl, rfl⟩

theorem SameButDrains.trans (h : SameButDrains s s') (h' : SameButDrains s' s'') :
    SameButDrains s s'' where
  queue := h'.queue.trans h.queue
  waiting := h'.waiting.trans h.waiting
  woken := h'.woken.trans h.woken
  active := h'.active.trans h.active
  done := h'.done.trans h.done
  failed := h'.failed.trans h.failed
  drains := h'.drains.trans h.drains

theorem settleConsumerDrain_same (s : EventStream E R Err) (drain : Nat)
    (status : Except (DrainError Err) Unit) :
    SameButDrains s (s.settleConsumerDrain drain status) := by
  unfold settleConsumerDrain
  split
  · exact ⟨rfl, rfl, rfl, rfl, rfl, rfl, List.length_set⟩
  · exact .refl s

theorem resolved_settleConsumerDrain {drain d : Nat} {status : Except (DrainError Err) Unit}
    (h : (s.settleConsumerDrain drain status).Resolved d) :
    s.Resolved d ∨ d = drain ∧ status = .ok () := by
  unfold settleConsumerDrain at h
  split at h
  next hpending =>
    unfold Resolved at h
    dsimp only at h
    rw [List.getElem?_set] at h
    split at h
    next hd =>
      split at h
      · exact .inr ⟨hd.symm, Option.some.inj (Option.some.inj h)⟩
      · cases h
    next => exact .inl h
  next => exact .inl h

theorem settleAllConsumerDrains_spec (s : EventStream E R Err) (error : DrainError Err) :
    SameButDrains s (s.settleAllConsumerDrains (.error error)) ∧
      ∀ d, (s.settleAllConsumerDrains (.error error)).Resolved d → s.Resolved d := by
  have hloop : ∀ (drains : List Nat) (s : EventStream E R Err),
      SameButDrains s (drains.foldl (fun s drain => s.settleConsumerDrain drain (.error error)) s) ∧
        ∀ d, (drains.foldl (fun s drain => s.settleConsumerDrain drain (.error error)) s).Resolved
        d → s.Resolved d := by
    intro drains
    induction drains with
    | nil => exact fun s => ⟨.refl s, fun d h => h⟩
    | cons drain drains ih =>
      intro s
      obtain ⟨hsame, hresolved⟩ := ih (s.settleConsumerDrain drain (.error error))
      refine ⟨(settleConsumerDrain_same s drain _).trans hsame, fun d h => ?_⟩
      exact (resolved_settleConsumerDrain (hresolved d h)).resolve_right fun hok => by cases hok.2
  exact hloop s.pendingConsumerDrains s

theorem drainNodes_of_waiting (n : Nat) (h : s.waiting = 0) : drainNodes n s = s := by
  cases n with
  | zero => rfl
  | succ n => rw [drainNodes, if_pos h]

theorem drainNodes_sentinel {drain : Nat} (hwaiting : s.waiting ≠ 0)
    (hnodes : s.nodes = [.consumerDrain drain]) :
    ∃ queue : Deque (QueueNode E), queue.toList = [] ∧
      s.drainQueuedNodesToWaitingConsumers = { s with
        queue := queue }.settleConsumerDrain drain (.ok ()) := by
  have hlength : s.queue.length = 1 := by
    rw [Deque.length_eq]
    exact congrArg List.length hnodes
  rw [drainQueuedNodesToWaitingConsumers, hlength, drainNodes, if_neg hwaiting]
  obtain ⟨hnil, -⟩ | ⟨a, rest, hlist, hdequeue⟩ := s.queue.dequeue_spec compactAfter
  · rw [nodes, hnil] at hnodes
    cases hnodes
  · rw [nodes, hlist] at hnodes
    obtain ⟨rfl, hrest⟩ := List.cons.inj hnodes
    rw [hdequeue]
    exact ⟨rest, hrest, rfl⟩

theorem dequeueEventLoop_spec (n : Nat) (s : EventStream E R Err) (hn : s.nodes.length ≤ n) :
    ∃ (drains : List Nat) (queue : Deque (QueueNode E)),
      SameButDrains { s with queue := queue } (dequeueEventLoop n s).1 ∧
      (∀ d, (dequeueEventLoop n s).1.Resolved d → s.Resolved d ∨ d ∈ drains) ∧
      s.nodes = drains.map .consumerDrain ++
        ((dequeueEventLoop n s).2.elim [] fun event => [.event event]) ++ queue.toList ∧
      ((dequeueEventLoop n s).2 = none → queue.toList = []) := by
  induction n generalizing s with
  | zero =>
    have hnil : s.nodes = [] := List.length_eq_zero_iff.mp (Nat.le_zero.mp hn)
    exact ⟨[], s.queue, .refl _, fun d h => .inl h, by simp [dequeueEventLoop, nodes], fun _ => hnil⟩
  | succ n ih =>
    rw [dequeueEventLoop]
    obtain ⟨hnil, hdequeue⟩ | ⟨node, rest, hlist, hdequeue⟩ := s.queue.dequeue_spec compactAfter
    · rw [hdequeue]
      exact ⟨[], s.queue, .refl _, fun d h => .inl h, by simp [nodes], fun _ => hnil⟩
    · rw [hdequeue]
      have hnodes : s.nodes = node :: rest.toList := hlist
      cases node with
      | event event => exact ⟨[], rest, .refl _, fun d h => .inl h, by simp [hnodes], by simp⟩
      | consumerDrain drain =>
        dsimp only
        have hsame := settleConsumerDrain_same { s with queue := rest } drain (.ok ())
        have hlength : ({ s with
            queue := rest }.settleConsumerDrain drain (.ok ())).nodes.length ≤ n := by
          rw [nodes, hsame.queue]
          rw [hnodes, List.length_cons] at hn
          exact Nat.le_of_succ_le_succ hn
        obtain ⟨drains, queue, hloop, hresolved, hsplit, hnone⟩ := ih _ hlength
        refine ⟨drain :: drains, queue, ?_, fun d h => ?_, ?_, hnone⟩
        · refine .trans ?_ hloop
          exact ⟨rfl, hsame.waiting, hsame.woken, hsame.active, hsame.done,
            hsame.failed, hsame.drains⟩
        · cases hresolved d h with
          | inl h =>
            cases resolved_settleConsumerDrain h with
            | inl h => exact .inl h
            | inr h => exact .inr (h.1 ▸ List.mem_cons_self)
          | inr h => exact .inr (List.mem_cons_of_mem drain h)
        · rw [nodes, hsame.queue] at hsplit
          rw [hnodes, List.map_cons, List.cons_append, List.cons_append, ← hsplit]

def NoneWhileWaiting (s : EventStream E R Err) : Prop := s.waiting ≠ 0 → s.nodes = []

theorem deliver_spec (h : s.NoneWhileWaiting) (event : E) :
    (s.waiting ≠ 0 ∧ s.nodes = [] ∧ s.deliver event = s.wake (.value event)) ∨
      (s.waiting = 0 ∧ s.deliver event = { s with queue := s.queue.enqueue (.event event) }) := by
  unfold deliver
  by_cases hwaiting : s.waiting = 0
  · rw [if_neg fun hw => Nat.ne_of_gt hw.2 hwaiting]
    exact .inr ⟨hwaiting, drainNodes_of_waiting _ hwaiting⟩
  · have hnodes := h hwaiting
    refine .inl ⟨hwaiting, hnodes, if_pos ⟨?_, Nat.pos_of_ne_zero hwaiting⟩⟩
    rw [Deque.length_eq]
    exact congrArg List.length hnodes

structure ClosedBy (result : WaitResult E Err) (s s' : EventStream E R Err) : Prop where
  queue : s'.queue = s.queue
  waiting : s'.waiting = 0
  woken : s'.woken = s.woken ++ List.replicate s.waiting result
  active : s'.activeConsumerCount = s.activeConsumerCount
  done : s'.done = true
  drains : s'.drains.length = s.drains.length
  resolved : ∀ d, s'.Resolved d → s.Resolved d

theorem settleFinalResult_same (s : EventStream E R Err) (result : Except Err R) :
    SameButDrains s (s.settleFinalResult result) := ⟨rfl, rfl, rfl, rfl, rfl, rfl, rfl⟩

theorem wakeAll_closes {failed : Option Err}
    (hsame : SameButDrains { s with
    done := true, failed := failed } s') (hresolved : ∀ d, s'.Resolved d → s.Resolved d)
    (result : WaitResult E Err) : ClosedBy result s (s'.wakeAll result) := by
  refine ⟨hsame.queue, rfl, ?_, hsame.active, hsame.done, hsame.drains, hresolved⟩
  rw [wakeAll, hsame.woken, hsame.waiting]

theorem fail_spec (hdone : s.done = false) (err : Err) : ClosedBy (.error err) s (s.fail err) := by
  unfold fail
  rw [if_neg (by simp [hdone])]
  obtain ⟨hsame, hresolved⟩ :=
    settleAllConsumerDrains_spec { s with done := true, failed := some err } (.failed err)
  exact wakeAll_closes (hsame.trans (settleFinalResult_same _ _)) (fun d h => hresolved d h) _

theorem endStream_spec (s : EventStream E R Err) (result : Option R) :
    ClosedBy .done s (s.endStream result) := by
  unfold endStream
  have hclose : ∀ s' : EventStream E R Err, SameButDrains { s with done := true } s' →
      (∀ d, s'.Resolved d → s.Resolved d) → ClosedBy .done s (s'.wakeAll .done) ∧
        ∀ r, ClosedBy .done s ((s'.settleFinalResult (.ok r)).wakeAll .done) :=
        fun s' hsame hresolved =>
    ⟨wakeAll_closes hsame hresolved _,
      fun r => wakeAll_closes (hsame.trans (settleFinalResult_same _ _)) hresolved _⟩
  have hdrained :=
    hclose (if s.activeConsumerCount = 0 then { s with done := true }.settleAllConsumerDrains
    (.error (.message "Event stream ended before consumer drain completed")) else { s with
    done := true }) (by
      split
      · exact (settleAllConsumerDrains_spec _ _).1
      · exact .refl _) (by
      split
      · exact fun d h => (settleAllConsumerDrains_spec { s with done := true } _).2 d h
      · exact fun d h => h)
  cases result with
  | none => exact hdrained.1
  | some result => exact hdrained.2 result

end EventStream

/-- Each sentinel has as many events before it, counted from `base`, as were accepted before it was
requested. -/
def Numbered (before : List Nat) : Nat → List (QueueNode E) → Prop
  | _, [] => True
  | base, .event _ :: nodes => Numbered before (base + 1) nodes
  | base, .consumerDrain drain :: nodes => before[drain]? = some base ∧ Numbered before base nodes

section Numbered

variable {before : List Nat} {base : Nat} {a b : List (QueueNode E)}

theorem numbered_append : Numbered before base (a ++ b) ↔
    Numbered before base a ∧ Numbered before (base + (eventsOf a).length) b := by
  induction a generalizing base with
  | nil => simp [Numbered, eventsOf]
  | cons node a ih =>
    cases node with
    | event event =>
      have hlength : base + (eventsOf (.event event :: a)).length = base + 1 +
          (eventsOf a).length := by
        simp only [eventsOf, List.filterMap_cons, List.length_cons]
        omega
      rw [List.cons_append, Numbered, Numbered, ih, hlength]
    | consumerDrain drain =>
      rw [List.cons_append, Numbered, Numbered, ih, and_assoc]
      rfl

theorem Numbered.mono (h : Numbered before base a) (n : Nat) : Numbered (before ++ [n]) base a := by
  induction a generalizing base with
  | nil => trivial
  | cons node a ih =>
    cases node with
    | event event => exact ih h
    | consumerDrain drain =>
      refine ⟨?_, ih h.2⟩
      rw [List.getElem?_append_left (List.getElem?_eq_some_iff.mp h.1).1]
      exact h.1

theorem numbered_drains {drains : List Nat}
    (h : Numbered before base (drains.map (QueueNode.consumerDrain (E := E)))) {d : Nat}
    (hd : d ∈ drains) : before[d]? = some base := by
  induction drains with
  | nil => cases hd
  | cons drain drains ih =>
    cases hd with
    | head => exact h.1
    | tail _ hd => exact ih h.2 hd

end Numbered

namespace StreamRun

def PhaseOk (w : StreamRun E R Err) : Prop :=
  match w.consumer with
  | .notStarted =>
    w.stream.activeConsumerCount = 0 ∧ w.stream.waiting = 0 ∧ w.stream.woken = [] ∧ w.asked = 0 ∧
      w.received = []
  | .awaiting => w.stream.activeConsumerCount = 1 ∧ w.asked = w.received.length + 1 ∧
      ((w.stream.waiting = 1 ∧ w.stream.woken = [] ∧ w.stream.nodes = [] ∧ w.stream.done = false) ∨
        (w.stream.waiting = 0 ∧ ∃ result, w.stream.woken = [result] ∧
          ((∃ event, result = .value event) ∨ w.stream.done = true ∧ eventsOf w.stream.nodes = [])))
  | .holding => w.stream.activeConsumerCount = 1 ∧ w.stream.waiting = 0 ∧ w.stream.woken = [] ∧
      w.asked = w.received.length
  | .finished how => w.stream.activeConsumerCount = 0 ∧ w.stream.waiting = 0 ∧ w.stream.woken = [] ∧
      (how = .left ∨ w.stream.done = true ∧ eventsOf w.stream.nodes = [])

structure Inv (w : StreamRun E R Err) : Prop where
  delivered : w.received ++ wokenEvents w.stream.woken ++ eventsOf w.stream.nodes = w.accepted
  phase : w.PhaseOk
  failed_done : w.stream.failed ≠ none → w.stream.done = true
  length_before : w.acceptedBefore.length = w.stream.drains.length
  numbered : Numbered w.acceptedBefore (w.received.length + (wokenEvents w.stream.woken).length)
    w.stream.nodes
  resolved : ∀ d, w.stream.Resolved d → ∃ n, w.acceptedBefore[d]? = some n ∧
    n ≤ w.received.length ∧ (n < w.asked ∨ d ∈ w.atOnce)

variable {w : StreamRun E R Err}

theorem inv_new : (new : StreamRun E R Err).Inv where
  delivered := rfl
  phase := ⟨rfl, rfl, rfl, rfl, rfl⟩
  failed_done h := absurd rfl h
  length_before := rfl
  numbered := trivial
  resolved d h := by cases h

theorem Inv.noneWhileWaiting (h : w.Inv) : w.stream.NoneWhileWaiting := by
  intro hwaiting
  have hphase := h.phase
  unfold PhaseOk at hphase
  split at hphase
  · exact absurd hphase.2.1 hwaiting
  · obtain ⟨-, -, ⟨-, -, hnodes, -⟩ | ⟨hzero, -⟩⟩ := hphase
    · exact hnodes
    · exact absurd hzero hwaiting
  · exact absurd hphase.2.1 hwaiting
  · exact absurd hphase.2.1 hwaiting

theorem wokenEvents_append (a b : List (WaitResult E Err)) :
    wokenEvents (a ++ b) = wokenEvents a ++ wokenEvents b :=
  List.filterMap_append

theorem eventsOf_append (a b : List (QueueNode E)) : eventsOf (a ++ b) = eventsOf a ++ eventsOf b :=
  List.filterMap_append

theorem Inv.failed_eq_none (h : w.Inv) (hdone : w.stream.done = false) : w.stream.failed = none := by
  by_contra hne
  rw [h.failed_done hne] at hdone
  cases hdone

theorem Inv.waiting (h : w.Inv) (hwaiting : w.stream.waiting ≠ 0) :
    w.consumer = .awaiting ∧ w.stream.activeConsumerCount = 1 ∧ w.stream.waiting = 1 ∧
      w.stream.woken = [] ∧
      w.stream.nodes = [] ∧ w.stream.done = false ∧ w.asked = w.received.length + 1 ∧
        w.received = w.accepted := by
  have hdelivered := h.delivered
  have hphase := h.phase
  unfold PhaseOk at hphase
  split at hphase
  next => exact absurd hphase.2.1 hwaiting
  next hconsumer =>
    obtain ⟨hactive, hasked, ⟨hone, hwoken, hnodes, hdone⟩ | ⟨hzero, -⟩⟩ := hphase
    · refine ⟨hconsumer, hactive, hone, hwoken, hnodes, hdone, hasked, ?_⟩
      rw [hwoken, hnodes] at hdelivered
      simpa [wokenEvents, eventsOf] using hdelivered
    · exact absurd hzero hwaiting
  next => exact absurd hphase.2.1 hwaiting
  next => exact absurd hphase.2.1 hwaiting

theorem Inv.delivers (h : w.Inv) (hdone : w.stream.done = false) (stream : EventStream E R Err)
    (hsame : EventStream.SameButDrains { w.stream with done := stream.done } stream)
    (hdrains : stream.drains = w.stream.drains) (event : E) :
    { w with stream := stream.deliver event, accepted := w.accepted ++ [event] }.Inv := by
  have hnodes : stream.nodes = w.stream.nodes := congrArg Deque.toList hsame.queue
  have hwaiting : stream.waiting = w.stream.waiting := hsame.waiting
  have hwoken : stream.woken = w.stream.woken := hsame.woken
  have hactive : stream.activeConsumerCount = w.stream.activeConsumerCount := hsame.active
  have hnone : stream.NoneWhileWaiting := fun hw => hnodes.trans (h.noneWhileWaiting (hwaiting ▸ hw))
  have hfailed : stream.failed = none := hsame.failed.trans (h.failed_eq_none hdone)
  have hresolved : ∀ d, stream.Resolved d → w.stream.Resolved d := by
    unfold EventStream.Resolved
    rw [hdrains]
    exact fun d hd => hd
  have hbefore : w.acceptedBefore.length = stream.drains.length := by
    rw [hdrains]
    exact h.length_before
  obtain ⟨hw, hnil, heq⟩ | ⟨hw, heq⟩ := EventStream.deliver_spec hnone event
  · obtain ⟨hconsumer, hone, hw, hempty, -, -, hasked, hreceived⟩ := h.waiting (hwaiting ▸ hw)
    rw [heq]
    refine ⟨?_, ?_, fun hne => absurd hfailed hne, hbefore, ?_,
      fun d hd => h.resolved d (hresolved d hd)⟩
    · change w.received ++ wokenEvents (stream.woken ++ [.value event]) ++ eventsOf stream.nodes = _
      rw [hnil, hwoken, hempty, hreceived]
      simp [wokenEvents, eventsOf]
    · unfold PhaseOk
      dsimp only
      rw [hconsumer]
      refine ⟨hactive.trans hone, hasked, .inr ⟨?_, .value event, ?_, .inl ⟨event, rfl⟩⟩⟩
      · rw [EventStream.wake, hwaiting, hw]
      · rw [EventStream.wake, hwoken, hempty]
        rfl
    · change Numbered _ _ stream.nodes
      rw [hnil]
      trivial
  · have hqueued : (stream.queue.enqueue (.event event)).toList = w.stream.nodes ++
        [.event event] := by
      rw [Deque.toList_enqueue]
      exact congrArg (· ++ [_]) hnodes
    rw [heq]
    refine ⟨?_, ?_, fun hne => absurd hfailed hne, hbefore, ?_,
      fun d hd => h.resolved d (hresolved d hd)⟩
    · change w.received ++ wokenEvents stream.woken ++
        eventsOf (stream.queue.enqueue (.event event)).toList = _
      rw [hqueued, hwoken, eventsOf_append, ← List.append_assoc, h.delivered]
      rfl
    · have hphase := h.phase
      unfold PhaseOk at hphase ⊢
      dsimp only
      split at hphase
      next =>
        exact ⟨hactive.trans hphase.1, hw, hwoken.trans hphase.2.2.1, hphase.2.2.2⟩
      next =>
        obtain ⟨hone, hasked, ⟨hone', -⟩ | ⟨-, result, hresult, hvalue | ⟨hdone', -⟩⟩⟩ := hphase
        · rw [← hwaiting, hw] at hone'
          cases hone'
        · exact ⟨hactive.trans hone, hasked, .inr ⟨hw, result, hwoken.trans hresult, .inl hvalue⟩⟩
        · rw [hdone] at hdone'
          cases hdone'
      next =>
        exact ⟨hactive.trans hphase.1, hw, hwoken.trans hphase.2.2.1, hphase.2.2.2⟩
      next =>
        refine ⟨hactive.trans hphase.1, hw, hwoken.trans hphase.2.2.1,
          .inl (hphase.2.2.2.resolve_right fun hdone' => ?_)⟩
        rw [hdone] at hdone'
        cases hdone'.1
    · change Numbered _ (w.received.length + (wokenEvents stream.woken).length)
        (stream.queue.enqueue (.event event)).toList
      rw [hqueued, hwoken, numbered_append]
      exact ⟨h.numbered, trivial⟩

theorem Inv.closes (h : w.Inv) {stream : EventStream E R Err} {result : WaitResult E Err}
    (hclosed : EventStream.ClosedBy result w.stream stream)
    (hresult : ∀ event, result ≠ .value event) :
    { w with stream := stream }.Inv := by
  have hnodes : stream.nodes = w.stream.nodes := congrArg Deque.toList hclosed.queue
  have hevents : wokenEvents stream.woken = wokenEvents w.stream.woken := by
    have hnone : ∀ n : Nat, wokenEvents (List.replicate n result) = [] := by
      intro n
      refine List.filterMap_eq_nil_iff.mpr fun r hr => ?_
      rw [List.eq_of_mem_replicate hr]
      cases result with
      | value event => exact absurd rfl (hresult event)
      | done => rfl
      | error err => rfl
    rw [hclosed.woken, wokenEvents_append, hnone, List.append_nil]
  refine ⟨?_, ?_, fun _ => hclosed.done, h.length_before.trans hclosed.drains.symm, ?_,
    fun d hd => h.resolved d (hclosed.resolved d hd)⟩
  · dsimp only
    rw [hevents, hnodes]
    exact h.delivered
  · have hwoken := hclosed.woken
    have hphase := h.phase
    unfold PhaseOk at hphase ⊢
    dsimp only
    split at hphase
    next =>
      rw [hphase.2.1, hphase.2.2.1] at hwoken
      exact ⟨hclosed.active.trans hphase.1, hclosed.waiting, hwoken, hphase.2.2.2⟩
    next =>
      obtain ⟨hactive, hasked, ⟨hone, hempty, hnil, -⟩ | ⟨hzero, r, hr, hvalue⟩⟩ := hphase
      · rw [hone, hempty] at hwoken
        refine ⟨hclosed.active.trans hactive, hasked,
          .inr ⟨hclosed.waiting, result, hwoken, .inr ⟨hclosed.done, ?_⟩⟩⟩
        rw [hnodes, hnil]
        rfl
      · rw [hzero, hr] at hwoken
        refine ⟨hclosed.active.trans hactive, hasked, .inr ⟨hclosed.waiting, r, hwoken, ?_⟩⟩
        exact hvalue.imp id fun hdone => ⟨hclosed.done, hnodes ▸ hdone.2⟩
    next =>
      rw [hphase.2.1, hphase.2.2.1] at hwoken
      exact ⟨hclosed.active.trans hphase.1, hclosed.waiting, hwoken, hphase.2.2.2⟩
    next =>
      rw [hphase.2.1, hphase.2.2.1] at hwoken
      refine ⟨hclosed.active.trans hphase.1, hclosed.waiting, hwoken, ?_⟩
      exact hphase.2.2.2.imp id fun hdone => ⟨hclosed.done, hnodes ▸ hdone.2⟩
  · dsimp only
    rw [hevents, hnodes]
    exact h.numbered

theorem Inv.fail (h : w.Inv) (err : Err) : { w with stream := w.stream.fail err }.Inv := by
  by_cases hdone : w.stream.done = true
  · rw [EventStream.fail, if_pos hdone]
    exact h
  · exact h.closes (EventStream.fail_spec (by simpa using hdone) err) (by simp)

section Push

variable {isComplete : E → Except Err Bool} {extractResult : E → Except Err R}

theorem Inv.push (h : w.Inv) (event : E) : (w.step isComplete extractResult (.push event)).Inv := by
  rw [step]
  by_cases hdone : w.stream.done = true
  · have hrefused : w.accepts isComplete extractResult event = false := by simp [accepts, hdone]
    rw [EventStream.push, if_pos hdone, hrefused]
    exact h
  · have hopen : w.stream.done = false := by simpa using hdone
    rw [EventStream.push, if_neg hdone]
    cases hcompletion : EventStream.completion isComplete extractResult event with
    | error err =>
      have hrefused : w.accepts isComplete extractResult event = false := by
        rw [accepts, hcompletion, hopen]
        rfl
      rw [hrefused]
      exact h.fail err
    | ok result =>
      have haccepted : w.accepts isComplete extractResult event = true := by
        rw [accepts, hcompletion, hopen]
        rfl
      rw [haccepted]
      cases result with
      | none => exact h.delivers hopen w.stream (.refl _) rfl event
      | some result =>
        exact h.delivers hopen ({ w.stream with done := true }.settleFinalResult (.ok result))
          ⟨rfl, rfl, rfl, rfl, rfl, rfl, rfl⟩ rfl event

end Push

theorem Inv.sameButDrains (h : w.Inv) {stream : EventStream E R Err}
    (hsame : EventStream.SameButDrains w.stream stream)
    (hresolved : ∀ d, stream.Resolved d → w.stream.Resolved d) :
    { w with stream := stream }.Inv := by
  have hnodes : stream.nodes = w.stream.nodes := congrArg Deque.toList hsame.queue
  refine ⟨?_, ?_, ?_, h.length_before.trans hsame.drains.symm, ?_,
    fun d hd => h.resolved d (hresolved d hd)⟩
  · dsimp only
    rw [hsame.woken, hnodes]
    exact h.delivered
  · have hphase := h.phase
    unfold PhaseOk at hphase ⊢
    dsimp only
    rw [hsame.active, hsame.waiting, hsame.woken, hsame.done, hnodes]
    exact hphase
  · dsimp only
    rw [hsame.failed, hsame.done]
    exact h.failed_done
  · dsimp only
    rw [hsame.woken, hnodes]
    exact h.numbered

theorem Inv.abortDrain (h : w.Inv) (drain : Nat) :
    { w with stream := w.stream.abortDrain drain }.Inv :=
  h.sameButDrains (EventStream.settleConsumerDrain_same _ _ _) fun _ hd =>
    (EventStream.resolved_settleConsumerDrain hd).resolve_right fun hok => by cases hok.2

theorem Inv.requests (h : w.Inv) {stream : EventStream E R Err} {atOnce : List Nat}
    (drain : Option (Except (DrainError Err) Unit)) (hstream : stream = { w.stream with
      drains := w.stream.drains ++ [drain]
      pendingConsumerDrains := stream.pendingConsumerDrains
      queue := stream.queue })
    (hqueue : stream.nodes = w.stream.nodes ∨
      stream.nodes = w.stream.nodes ++ [.consumerDrain w.stream.drains.length])
    (hwaiting : w.stream.waiting ≠ 0 → stream.nodes = [])
    (hatOnce : ∀ d ∈ w.atOnce, d ∈ atOnce)
    (hresolved : drain = some (.ok ()) → w.accepted.length ≤ w.received.length ∧
      (w.accepted.length < w.asked ∨ w.stream.drains.length ∈ atOnce)) :
    { w with
      stream := stream
      acceptedBefore := w.acceptedBefore ++ [w.accepted.length]
      atOnce := atOnce }.Inv := by
  have hevents : eventsOf stream.nodes = eventsOf w.stream.nodes := by
    cases hqueue with
    | inl hqueue => rw [hqueue]
    | inr hqueue =>
      rw [hqueue, eventsOf_append]
      exact List.append_nil _
  rw [hstream] at *
  refine ⟨?_, ?_, h.failed_done, ?_, ?_, ?_⟩
  · dsimp only
    rw [hevents]
    exact h.delivered
  · have hphase := h.phase
    unfold PhaseOk at hphase ⊢
    dsimp only
    rw [hevents]
    split at hphase
    next => exact hphase
    next =>
      obtain ⟨hactive, hasked, ⟨hone, hempty, -, hdone⟩ | hwoken⟩ := hphase
      · exact ⟨hactive, hasked, .inl ⟨hone, hempty, hwaiting (by rw [hone]; decide), hdone⟩⟩
      · exact ⟨hactive, hasked, .inr hwoken⟩
    next => exact hphase
    next => exact hphase
  · dsimp only
    rw [List.length_append, List.length_append, h.length_before]
    rfl
  · dsimp only
    have hcount : w.received.length + (wokenEvents w.stream.woken).length +
        (eventsOf w.stream.nodes).length =
        w.accepted.length := by
      rw [← h.delivered, List.length_append, List.length_append]
    cases hqueue with
    | inl hqueue =>
      rw [hqueue]
      exact h.numbered.mono _
    | inr hqueue =>
      rw [hqueue, numbered_append]
      refine ⟨h.numbered.mono _, ?_, trivial⟩
      rw [hcount, ← h.length_before, List.getElem?_concat_length]
  · intro d hd
    unfold EventStream.Resolved at hd
    dsimp only at hd ⊢
    by_cases hlast : d = w.stream.drains.length
    · subst hlast
      rw [List.getElem?_concat_length] at hd
      refine ⟨w.accepted.length, ?_, hresolved (Option.some.inj hd)⟩
      rw [← h.length_before, List.getElem?_concat_length]
    · have hlt : d < w.stream.drains.length := by
        have := (List.getElem?_eq_some_iff.mp hd).1
        rw [List.length_append, List.length_singleton] at this
        omega
      rw [List.getElem?_append_left hlt] at hd
      obtain ⟨n, hn, hle, hwhen⟩ := h.resolved d hd
      refine ⟨n, ?_, hle, hwhen.imp id (hatOnce d)⟩
      rw [List.getElem?_append_left (by rw [h.length_before]; exact hlt)]
      exact hn

theorem Inv.received_eq (h : w.Inv) (hwoken : w.stream.woken = [])
    (hevents : eventsOf w.stream.nodes = []) :
    w.received = w.accepted := by
  have hdelivered := h.delivered
  rw [hwoken, hevents] at hdelivered
  simpa [wokenEvents] using hdelivered

theorem Inv.woken_of_inactive (h : w.Inv) (hactive : w.stream.activeConsumerCount = 0) :
    w.stream.woken = [] := by
  have hphase := h.phase
  unfold PhaseOk at hphase
  split at hphase
  next => exact hphase.2.2.1
  next => rw [hactive] at hphase; cases hphase.1
  next => exact hphase.2.2.1
  next => exact hphase.2.2.1

theorem nodes_eq_nil_of_length {s : EventStream E R Err} (h : s.queue.length = 0) :
    s.nodes = [] := by
  rw [Deque.length_eq] at h
  exact List.length_eq_zero_iff.mp h

theorem Inv.settledDrain (h : w.Inv) {atOnce : List Nat} (status : Except (DrainError Err) Unit)
    (hatOnce : ∀ d ∈ w.atOnce, d ∈ atOnce)
    (hstatus : status = .ok () → w.stream.drains.length ∈ atOnce ∧ w.stream.activeConsumerCount = 0 ∧
      w.stream.queue.length = 0) :
    { w with
      stream := w.stream.settledDrain status
      acceptedBefore := w.acceptedBefore ++ [w.accepted.length]
      atOnce := atOnce }.Inv := by
  refine h.requests (some status) rfl (.inl rfl) h.noneWhileWaiting hatOnce fun hok => ?_
  obtain ⟨hmem, hactive, hqueue⟩ := hstatus (Option.some.inj hok)
  have hnodes := nodes_eq_nil_of_length hqueue
  refine ⟨?_, .inr hmem⟩
  have hreceived := h.received_eq (h.woken_of_inactive hactive) (by rw [hnodes]; rfl)
  exact Nat.le_of_eq (congrArg List.length hreceived.symm)

theorem Inv.waitForConsumerDrain {isComplete : E → Except Err Bool}
    {extractResult : E → Except Err R} (h : w.Inv) (aborted : Bool) :
    (w.step isComplete extractResult (.waitForConsumerDrain aborted)).Inv := by
  rw [step]
  have hatOnce : ∀ d ∈ w.atOnce, d ∈ (if w.stream.done ∧ w.stream.activeConsumerCount = 0 ∧
      w.stream.queue.length = 0 then
      w.atOnce ++ [w.stream.drains.length] else w.atOnce) := by
    intro d hd
    split
    · exact List.mem_append_left _ hd
    · exact hd
  unfold EventStream.waitForConsumerDrain
  split
  next => exact h.settledDrain _ hatOnce (by simp)
  next =>
    split
    next => exact h.settledDrain _ hatOnce (by simp)
    next =>
      split
      next hlate =>
        split
        next hqueue =>
          refine h.settledDrain _ hatOnce fun _ => ⟨?_, hlate.2, hqueue⟩
          rw [if_pos ⟨hlate.1, hlate.2, hqueue⟩]
          simp
        next => exact h.settledDrain _ hatOnce (by simp)
      next =>
        by_cases hwaiting : w.stream.waiting = 0
        · rw [EventStream.drainQueuedNodesToWaitingConsumers,
            EventStream.drainNodes_of_waiting _ (by exact hwaiting)]
          refine h.requests none rfl (.inr ?_) (fun hne => absurd hwaiting hne) hatOnce (by simp)
          exact Deque.toList_enqueue _ _
        · -- the consumer waits, so that the sentinel is taken from the queue at once
          obtain ⟨-, -, -, -, hnodes, -, hasked, hreceived⟩ := h.waiting hwaiting
          have hqueued : (w.stream.queue.enqueue (.consumerDrain w.stream.drains.length)).toList =
              [.consumerDrain w.stream.drains.length] := by
            rw [Deque.toList_enqueue]
            exact congrArg (· ++ [_]) hnodes
          obtain ⟨queue, hempty, hdrained⟩ := EventStream.drainNodes_sentinel
            (s := { w.stream with
              drains := w.stream.drains ++ [none]
              pendingConsumerDrains := w.stream.pendingConsumerDrains ++ [w.stream.drains.length]
              queue := w.stream.queue.enqueue (.consumerDrain w.stream.drains.length) })
                hwaiting hqueued
          rw [hdrained, EventStream.settleConsumerDrain]
          dsimp only
          rw [List.getElem?_concat_length]
          refine h.requests (some (.ok ())) ?_ (.inl (hempty.trans hnodes.symm)) (fun _ => hempty)
            hatOnce fun _ => ⟨?_, .inl ?_⟩
          · dsimp only
            rw [List.set_append_right _ _ (Nat.le_refl _), Nat.sub_self]
            rfl
          · exact Nat.le_of_eq (congrArg List.length hreceived.symm)
          · rw [hasked, hreceived]
            exact Nat.lt_succ_self _

/-- The stream as the iterator has it while it runs, with nobody waiting. -/
structure Running (w : StreamRun E R Err) (stream : EventStream E R Err) : Prop where
  delivered : w.received ++ eventsOf stream.nodes = w.accepted
  active : stream.activeConsumerCount = 1
  waiting : stream.waiting = 0
  woken : stream.woken = []
  failed_done : stream.failed ≠ none → stream.done = true
  length_before : w.acceptedBefore.length = stream.drains.length
  numbered : Numbered w.acceptedBefore w.received.length stream.nodes
  resolved : ∀ d, stream.Resolved d → ∃ n, w.acceptedBefore[d]? = some n ∧
    n ≤ w.received.length ∧ (n < w.asked ∨ d ∈ w.atOnce)

theorem Running.finish {stream : EventStream E R Err} (h : Running w stream) (how : ConsumerEnd Err)
    (hhow : how = .left ∨ stream.done = true ∧ eventsOf stream.nodes = []) :
    (w.finish stream how).Inv := by
  obtain ⟨hsame, hresolved⟩ := EventStream.settleAllConsumerDrains_spec
    { stream with activeConsumerCount := stream.activeConsumerCount - 1 }
    (.message "Event stream consumer stopped before drain completed")
  have hnodes : stream.closeConsumer.nodes = stream.nodes := congrArg Deque.toList hsame.queue
  have hwoken : stream.closeConsumer.woken = [] := hsame.woken.trans h.woken
  refine ⟨?_, ?_, ?_, h.length_before.trans hsame.drains.symm, ?_,
    fun d hd => h.resolved d (hresolved d hd)⟩
  · change w.received ++ wokenEvents stream.closeConsumer.woken ++
      eventsOf stream.closeConsumer.nodes = w.accepted
    rw [hwoken, hnodes]
    simpa [wokenEvents] using h.delivered
  · have hactive : stream.closeConsumer.activeConsumerCount = 0 :=
      hsame.active.trans (by rw [h.active])
    refine ⟨hactive, hsame.waiting.trans h.waiting, hwoken,
      hhow.imp id fun hdone => ⟨hsame.done.trans hdone.1, ?_⟩⟩
    change eventsOf stream.closeConsumer.nodes = []
    rw [hnodes]
    exact hdone.2
  · intro hne
    exact hsame.done.trans (h.failed_done fun hnone => hne (hsame.failed.trans hnone))
  · change Numbered _ (w.received.length + (wokenEvents stream.closeConsumer.woken).length)
      stream.closeConsumer.nodes
    rw [hwoken, hnodes]
    exact h.numbered

theorem Running.holding {stream : EventStream E R Err} (h : Running w stream)
    (hasked : w.asked = w.received.length) :
    { w with stream := stream, consumer := .holding }.Inv where
  delivered := by
    dsimp only
    rw [h.woken]
    simpa [wokenEvents] using h.delivered
  phase := ⟨h.active, h.waiting, h.woken, hasked⟩
  failed_done := h.failed_done
  length_before := h.length_before
  numbered := by
    dsimp only
    rw [h.woken]
    exact h.numbered
  resolved := h.resolved

theorem Running.dequeueEvent {stream : EventStream E R Err} {result : Option E}
    (h : Running w w.stream) (hasked : w.asked = w.received.length + 1)
    (heq : w.stream.dequeueEvent = (stream, result)) :
    (∃ event, result = some event ∧ Running { w with received := w.received ++ [event] } stream) ∨
      (result = none ∧ Running w stream ∧ stream.nodes = []) := by
  obtain ⟨drains, queue, hsame, hresolved, hsplit, hnone⟩ :=
    EventStream.dequeueEventLoop_spec w.stream.queue.length w.stream
      (by rw [Deque.length_eq]; exact Nat.le_refl _)
  rw [show EventStream.dequeueEventLoop w.stream.queue.length w.stream =
    (stream, result) from heq] at *
  dsimp only at hsame hresolved hsplit hnone
  have hdrains : eventsOf (drains.map (QueueNode.consumerDrain (E := E))) = [] := by
    refine List.filterMap_eq_nil_iff.mpr fun node hnode => ?_
    obtain ⟨d, -, rfl⟩ := List.mem_map.mp hnode
    rfl
  have hnodes : stream.nodes = queue.toList := congrArg Deque.toList hsame.queue
  have hnumbered := h.numbered
  rw [hsplit, List.append_assoc, numbered_append, hdrains] at hnumbered
  have hdelivered := h.delivered
  rw [hsplit, List.append_assoc, eventsOf_append, hdrains, List.nil_append] at hdelivered
  have hsettled : ∀ d, stream.Resolved d → ∃ n, w.acceptedBefore[d]? = some n ∧
      n ≤ w.received.length ∧ (n < w.asked ∨ d ∈ w.atOnce) := by
    intro d hd
    cases hresolved d hd with
    | inl hd => exact h.resolved d hd
    | inr hd => exact ⟨_, numbered_drains hnumbered.1 hd, Nat.le_refl _, .inl (by omega)⟩
  have hfailed : stream.failed ≠ none → stream.done = true := by
    rw [hsame.failed, hsame.done]
    exact h.failed_done
  have hlength := h.length_before.trans hsame.drains.symm
  have hactive := hsame.active.trans h.active
  have hwaiting := hsame.waiting.trans h.waiting
  have hwoken := hsame.woken.trans h.woken
  cases result with
  | some event =>
    refine .inl ⟨event, rfl, ?_, hactive, hwaiting, hwoken, hfailed, hlength, ?_, fun d hd => ?_⟩
    · dsimp only
      rw [hnodes, ← hdelivered, List.append_assoc]
      rfl
    · dsimp only
      rw [hnodes, List.length_append]
      exact hnumbered.2
    · obtain ⟨n, hn, hle, hwhen⟩ := hsettled d hd
      refine ⟨n, hn, Nat.le_trans hle ?_, hwhen⟩
      rw [List.length_append]
      exact Nat.le_add_right _ _
  | none =>
    have hnil : stream.nodes = [] := hnodes.trans (hnone rfl)
    refine .inr ⟨rfl, ⟨?_, hactive, hwaiting, hwoken, hfailed, hlength, ?_, hsettled⟩, hnil⟩
    · rw [hnodes]
      exact hdelivered
    · rw [hnil]
      trivial

theorem Running.pull (h : Running w w.stream) (hasked : w.asked = w.received.length + 1) :
    w.pull.Inv := by
  unfold StreamRun.pull
  generalize heq : w.stream.dequeueEvent = found
  obtain ⟨stream, result⟩ := found
  obtain ⟨event, rfl, hrunning⟩ | ⟨rfl, hrunning, hnil⟩ := h.dequeueEvent hasked heq
  · refine hrunning.holding ?_
    dsimp only
    rw [hasked, List.length_append]
    rfl
  · have hevents : eventsOf stream.nodes = [] := by
      rw [hnil]
      rfl
    dsimp only
    split
    next err hfailed =>
      exact hrunning.finish _ (.inr ⟨hrunning.failed_done (by rw [hfailed]; simp), hevents⟩)
    next hfailed =>
      split
      next hdone => exact hrunning.finish _ (.inr ⟨hdone, hevents⟩)
      next hdone =>
        refine ⟨?_, ⟨hrunning.active, hasked, .inl ⟨?_, hrunning.woken, hnil, by simpa using hdone⟩⟩,
          hrunning.failed_done, hrunning.length_before, ?_, hrunning.resolved⟩
        · change w.received ++ wokenEvents stream.woken ++ eventsOf stream.nodes = w.accepted
          rw [hrunning.woken]
          simpa [wokenEvents] using hrunning.delivered
        · dsimp only
          rw [hrunning.waiting]
        · dsimp only
          rw [hrunning.woken]
          exact hrunning.numbered

theorem Inv.running (h : w.Inv) (hactive : w.stream.activeConsumerCount = 1)
    (hwaiting : w.stream.waiting = 0) (hwoken : w.stream.woken = []) : Running w w.stream where
  delivered := by
    have hdelivered := h.delivered
    rw [hwoken] at hdelivered
    simpa [wokenEvents] using hdelivered
  active := hactive
  waiting := hwaiting
  woken := hwoken
  failed_done := h.failed_done
  length_before := h.length_before
  numbered := by
    have hnumbered := h.numbered
    rw [hwoken] at hnumbered
    exact hnumbered
  resolved := h.resolved

theorem Inv.asks (h : w.Inv) (hconsumer : w.consumer = .holding) :
    ({ w with asked := w.asked + 1 } : StreamRun E R Err).pull.Inv := by
  have hphase := h.phase
  unfold PhaseOk at hphase
  rw [hconsumer] at hphase
  have hrunning := h.running hphase.1 hphase.2.1 hphase.2.2.1
  refine Running.pull ⟨hrunning.delivered, hrunning.active, hrunning.waiting, hrunning.woken,
    hrunning.failed_done, hrunning.length_before, hrunning.numbered, fun d hd =>
    ?_⟩ (congrArg (· + 1) hphase.2.2.2)
  obtain ⟨n, hn, hle, hwhen⟩ := hrunning.resolved d hd
  exact ⟨n, hn, hle, hwhen.imp Nat.lt_succ_of_lt id⟩

theorem Inv.next (h : w.Inv) : w.next.Inv := by
  have hphase := h.phase
  unfold StreamRun.next
  unfold PhaseOk at hphase
  split
  next hconsumer =>
    rw [hconsumer] at hphase
    obtain ⟨hactive, hwaiting, hwoken, hasked, hreceived⟩ := hphase
    have hstarted : ({ w with
        stream := { w.stream with activeConsumerCount := w.stream.activeConsumerCount + 1 }
        consumer := .holding } : StreamRun E R Err).Inv :=
      ⟨h.delivered, ⟨congrArg (· + 1) hactive, hwaiting, hwoken, by rw [hasked, hreceived]; rfl⟩,
        h.failed_done, h.length_before, h.numbered, h.resolved⟩
    have hnext := hstarted.asks rfl
    unfold StreamRun.pull at hnext ⊢
    exact hnext
  next hconsumer => exact h.asks hconsumer
  next => exact h

theorem Inv.resumed (h : w.Inv) (hconsumer : w.consumer = .awaiting) {result : WaitResult E Err}
    {rest : List (WaitResult E Err)} (hwoken : w.stream.woken = result :: rest) :
    Running { w with received := w.received ++ wokenEvents [result] } { w.stream with
      woken := rest } ∧
      w.asked = w.received.length + 1 ∧
      ((∃ event, result = .value event) ∨ w.stream.done = true ∧ eventsOf w.stream.nodes = []) := by
  have hphase := h.phase
  unfold PhaseOk at hphase
  rw [hconsumer] at hphase
  obtain ⟨hactive, hasked, ⟨-, hempty, -⟩ | ⟨hwaiting, result', hresult, hkind⟩⟩ := hphase
  · rw [hwoken] at hempty
    cases hempty
  · rw [hwoken] at hresult
    obtain ⟨rfl, rfl⟩ := List.cons.inj hresult
    have hdelivered := h.delivered
    have hnumbered := h.numbered
    rw [hwoken] at hdelivered hnumbered
    refine ⟨⟨hdelivered, hactive, hwaiting, rfl, h.failed_done, h.length_before, ?_, fun d hd => ?_⟩,
      hasked, hkind⟩
    · dsimp only
      rw [List.length_append]
      exact hnumbered
    · obtain ⟨n, hn, hle, hwhen⟩ := h.resolved d hd
      refine ⟨n, hn, Nat.le_trans hle ?_, hwhen⟩
      rw [List.length_append]
      exact Nat.le_add_right _ _

theorem Inv.resume (h : w.Inv) : w.resume.Inv := by
  unfold StreamRun.resume
  split
  next event rest hconsumer hwoken =>
    obtain ⟨hrunning, hasked, -⟩ := h.resumed hconsumer hwoken
    refine hrunning.holding ?_
    rw [hasked, List.length_append]
    rfl
  next rest hconsumer hwoken =>
    obtain ⟨hrunning, -, ⟨event, hvalue⟩ | hdone⟩ := h.resumed hconsumer hwoken
    · cases hvalue
    · have hfinish := hrunning.finish .returned (.inr hdone)
      rw [show w.received ++ wokenEvents [(.done : WaitResult E Err)] =
        w.received from List.append_nil _] at hfinish
      exact hfinish
  next err rest hconsumer hwoken =>
    obtain ⟨hrunning, -, ⟨event, hvalue⟩ | hdone⟩ := h.resumed hconsumer hwoken
    · cases hvalue
    · have hfinish := hrunning.finish (.threw err) (.inr hdone)
      rw [show w.received ++ wokenEvents [(.error err : WaitResult E Err)] =
        w.received from List.append_nil _] at hfinish
      exact hfinish
  next => exact h

theorem Inv.leave (h : w.Inv) : w.leave.Inv := by
  have hphase := h.phase
  unfold StreamRun.leave
  unfold PhaseOk at hphase
  split
  next hconsumer =>
    rw [hconsumer] at hphase
    exact (h.running hphase.1 hphase.2.1 hphase.2.2.1).finish .left (.inl rfl)
  next => exact h

section Run

variable (isComplete : E → Except Err Bool) (extractResult : E → Except Err R)

theorem Inv.step (h : w.Inv) (action : StreamAction E R Err) :
    (w.step isComplete extractResult action).Inv := by
  cases action with
  | push event => exact h.push event
  | endStream result => exact h.closes (EventStream.endStream_spec _ result) (by simp)
  | fail err => exact h.fail err
  | waitForConsumerDrain aborted => exact h.waitForConsumerDrain aborted
  | abortDrain drain => exact h.abortDrain drain
  | next => exact h.next
  | resume => exact h.resume
  | leave => exact h.leave

theorem Inv.run (h : w.Inv) (actions : List (StreamAction E R Err)) :
    (w.run isComplete extractResult actions).Inv := by
  induction actions generalizing w with
  | nil => exact h
  | cons action actions ih => exact ih (h.step isComplete extractResult action)

end Run

def proceed (w : StreamRun E R Err) : StreamRun E R Err :=
  match w.consumer with
  | .awaiting => w.resume
  | _ => w.next

theorem Inv.proceed (h : w.Inv) : w.proceed.Inv := by
  unfold StreamRun.proceed
  split
  · exact h.resume
  · exact h.next

def AtEnd (w : StreamRun E R Err) : Prop := ∃ how, w.consumer = .finished how ∧ how ≠ .left

def Progressed (w w' : StreamRun E R Err) : Prop :=
  w'.accepted = w.accepted ∧
    (w'.AtEnd ∨ w'.stream.done = true ∧ w'.consumer = .holding ∧
    w'.received.length = w.received.length + 1)

theorem dequeueEvent_done (s : EventStream E R Err) : s.dequeueEvent.1.done = s.done := by
  obtain ⟨-, queue, hsame, -⟩ := EventStream.dequeueEventLoop_spec s.queue.length s
    (by rw [Deque.length_eq]; exact Nat.le_refl _)
  exact hsame.done

theorem progressed_pull (hdone : w.stream.done = true) : Progressed w w.pull := by
  have hstill := (dequeueEvent_done w.stream).trans hdone
  unfold StreamRun.pull
  generalize w.stream.dequeueEvent = found at hstill
  obtain ⟨stream, result⟩ := found
  cases result with
  | some event => exact ⟨rfl, .inr ⟨hstill, rfl, List.length_append⟩⟩
  | none =>
    dsimp only
    split
    · exact ⟨rfl, .inl ⟨_, rfl, by simp⟩⟩
    · rw [if_pos hstill]
      exact ⟨rfl, .inl ⟨_, rfl, by simp⟩⟩

theorem Inv.progressed (h : w.Inv) (hdone : w.stream.done = true)
    (hgoing : ∀ how, w.consumer ≠ .finished how) :
    Progressed w w.proceed := by
  have hphase := h.phase
  unfold StreamRun.proceed
  unfold PhaseOk at hphase
  split at hphase
  next hconsumer =>
    rw [hconsumer]
    dsimp only
    unfold StreamRun.next
    rw [hconsumer]
    exact progressed_pull (w := { w with
      asked := w.asked + 1
      stream := { w.stream with activeConsumerCount := w.stream.activeConsumerCount + 1 } }) hdone
  next hconsumer =>
    rw [hconsumer]
    dsimp only
    unfold StreamRun.resume
    obtain ⟨-, -, ⟨-, -, -, hopen⟩ | ⟨-, result, hwoken, -⟩⟩ := hphase
    · rw [hdone] at hopen
      cases hopen
    · rw [hconsumer, hwoken]
      cases result with
      | value event => exact ⟨rfl, .inr ⟨hdone, rfl, List.length_append⟩⟩
      | done => exact ⟨rfl, .inl ⟨_, rfl, by simp⟩⟩
      | error err => exact ⟨rfl, .inl ⟨_, rfl, by simp⟩⟩
  next hconsumer =>
    rw [hconsumer]
    dsimp only
    unfold StreamRun.next
    rw [hconsumer]
    exact progressed_pull (w := { w with asked := w.asked + 1 }) hdone
  next how hconsumer => exact absurd hconsumer (hgoing how)

theorem Inv.received_of_atEnd (h : w.Inv) (hend : w.AtEnd) : w.received = w.accepted := by
  obtain ⟨how, hconsumer, hleft⟩ := hend
  have hphase := h.phase
  unfold PhaseOk at hphase
  rw [hconsumer] at hphase
  exact h.received_eq hphase.2.2.1 (hphase.2.2.2.resolve_left hleft).2

theorem Inv.received_length_le (h : w.Inv) : w.received.length ≤ w.accepted.length := by
  rw [← h.delivered, List.length_append, List.length_append]
  omega

theorem Inv.comes_to_end (h : w.Inv) (hdone : w.stream.done = true)
    (hleft : w.consumer ≠ .finished .left) :
    ∃ n, (StreamRun.proceed^[n] w).AtEnd ∧ (StreamRun.proceed^[n] w).received = w.accepted := by
  induction hmissing : w.accepted.length -
    w.received.length using Nat.strongRecOn generalizing w with
  | ind missing ih =>
    by_cases hend : w.AtEnd
    · exact ⟨0, hend, h.received_of_atEnd hend⟩
    · have hgoing : ∀ how, w.consumer ≠ .finished how := by
        rintro how hconsumer
        exact hend ⟨how, hconsumer, fun heq => hleft (heq ▸ hconsumer)⟩
      obtain ⟨haccepted, hat | ⟨hstill, hholding, hmore⟩⟩ := h.progressed hdone hgoing
      · exact ⟨1, hat, (h.proceed.received_of_atEnd hat).trans haccepted⟩
      · have hle := h.proceed.received_length_le
        have hfewer : w.proceed.accepted.length - w.proceed.received.length < missing := by
          rw [haccepted] at hle ⊢
          omega
        obtain ⟨n, hat, hall⟩ := ih _ hfewer h.proceed hstill (by rw [hholding]; simp) rfl
        exact ⟨n + 1, hat, hall.trans haccepted⟩

/-- In every run, what the consumer has received, what it is about to receive and what is queued are
the accepted events in order; nothing is queued while it waits; at the end of the stream it has
received them all; and a drain is resolved only when the consumer has come back after the events
before it, or at once when no one consumes any more. -/
theorem eventStream_delivers_once_in_order (isComplete : E → Except Err Bool)
    (extractResult : E → Except Err R) (actions : List (StreamAction E R Err)) :
    let w := (new : StreamRun E R Err).run isComplete extractResult actions
    w.received ++ wokenEvents w.stream.woken ++ eventsOf w.stream.nodes = w.accepted ∧
    (w.stream.waiting ≠ 0 → w.stream.nodes = []) ∧
    (w.AtEnd → w.received = w.accepted) ∧
    (w.stream.done = true → w.consumer ≠ .finished .left →
      ∃ n, (StreamRun.proceed^[n] w).AtEnd ∧ (StreamRun.proceed^[n] w).received = w.accepted) ∧
    ∀ drain, w.stream.Resolved drain → ∃ n, w.acceptedBefore[drain]? = some n ∧
      n ≤ w.received.length ∧
      (n < w.asked ∨ drain ∈ w.atOnce) := by
  intro w
  have h : w.Inv := inv_new.run isComplete extractResult actions
  exact ⟨h.delivered, h.noneWhileWaiting, h.received_of_atEnd, h.comes_to_end, h.resolved⟩

theorem drain_resolves_without_consumer :
    let w := (new : StreamRun Unit Unit Unit).run (fun _ => .ok false) (fun _ => .ok ())
      [.endStream none, .waitForConsumerDrain false]
    let w' :=
      (new : StreamRun Unit Unit Unit).run (fun _ => .error ()) (fun _ => .ok ()) [.next,
        .push (), .resume]
    (w.stream.Resolved 0 ∧ w.acceptedBefore[0]? = some 0 ∧ w.asked = 0) ∧
      w'.AtEnd ∧ w'.received = [] := by
  refine ⟨⟨rfl, rfl, rfl⟩, ⟨.threw (), rfl, by simp⟩, rfl⟩

end StreamRun

end JevCode.Ai
