import JevCode.Agent.ToolBatch

namespace JevCode.Agent

variable {Result : Type}

namespace ToolBatch

variable {b b' : ToolBatch Result} {event : BatchEvent Result} {i : Nat} {r r' : ToolRecord Result}

def Awaited (b : ToolBatch Result) : Prop :=
  b.steeringCheck = true → b.interrupted = false ∧ ∃ r ∈ b.records, r.phase = .checkSteering

structure SteeringFrame (b b' : ToolBatch Result) : Prop where
  interrupted : b'.interrupted = b.interrupted
  check : b.steeringCheck = true → b'.steeringCheck = true
  awaited : b.Awaited → b'.Awaited

theorem SteeringFrame.set (hr : b.records[i]? = some r) (hphase : r.phase ≠ .checkSteering)
    (hrecords : b'.records = b.records.set i r') (hcheck : b'.steeringCheck = b.steeringCheck)
    (hinterrupted : b'.interrupted = b.interrupted) : SteeringFrame b b' := by
  refine ⟨hinterrupted, fun h => hcheck.trans h, fun hawaited hcheck' => ?_⟩
  obtain ⟨hidle, q, hq, hqphase⟩ := hawaited (hcheck.symm.trans hcheck')
  refine ⟨hinterrupted.trans hidle, q, ?_, hqphase⟩
  obtain ⟨j, hj⟩ := List.getElem?_of_mem hq
  have hij : i ≠ j := by
    rintro rfl
    cases hr.symm.trans hj
    exact hphase hqphase
  rw [hrecords]
  exact List.mem_of_getElem? ((List.getElem?_set_ne hij).trans hj)

theorem SteeringFrame.emitAndSteer (hr : b.records[i]? = some r) (hphase : r.phase ≠ .checkSteering)
    (result : Result) (isError : Bool) : SteeringFrame b (b.emitAndSteer i r result isError) := by
  unfold ToolBatch.emitAndSteer
  dsimp only
  split
  case isTrue => exact .set hr hphase rfl rfl rfl
  case isFalse hpolls =>
    simp only [Bool.or_eq_true, not_or, Bool.not_eq_true] at hpolls
    refine ⟨rfl, fun _ => rfl, fun _ _ => ⟨hpolls.1.2, ?_⟩⟩
    exact ⟨_, List.mem_set (List.getElem?_eq_some_iff.mp hr).1 _, rfl⟩

theorem SteeringFrame.afterExecution (hr : b.records[i]? = some r)
    (hphase : r.phase ≠ .checkSteering) (result : Result) (isError : Bool) :
    SteeringFrame b (b.afterExecution i r result isError) := by
  unfold ToolBatch.afterExecution
  split
  · exact .set hr hphase rfl rfl rfl
  · exact .emitAndSteer hr hphase result isError

theorem SteeringFrame.dispatch (hr : b.records[i]? = some r) (hphase : r.phase ≠ .checkSteering)
    (d : Dispatch Result) : SteeringFrame b (b.dispatch i r d) := by
  cases d with
  | failed error => exact .afterExecution hr hphase error true
  | published => exact .set hr hphase rfl rfl rfl

theorem SteeringFrame.runTool (hr : b.records[i]? = some r) (hphase : r.phase ≠ .checkSteering)
    (how : Begin Result) : SteeringFrame b (b.runTool i r how) := by
  unfold ToolBatch.runTool
  split
  · exact .set hr hphase rfl rfl rfl
  · cases how with
    | crash => exact .set hr hphase rfl rfl rfl
    | rejected error => exact .afterExecution hr hphase error true
    | checked d =>
      dsimp only
      split
      · exact .set hr hphase rfl rfl rfl
      · exact .dispatch hr hphase d

variable [DecidableEq Result]

theorem steeringFrame_of_step (h : b.step event = some b')
    (hsettles : ∀ outcome, event ≠ .steeringSettles outcome)
    (hfinish : ∀ byAbort, event ≠ .finish byAbort) : SteeringFrame b b' := by
  cases event with
  | run i how =>
    obtain ⟨r, hr, h⟩ := Option.bind_eq_some_iff.mp h
    obtain ⟨⟨hwaiting, -⟩, h⟩ := Option.ite_none_right_eq_some.mp h
    cases h
    exact .runTool hr (by simp [hwaiting]) how
  | startRejects i =>
    obtain ⟨r, hr, h⟩ := Option.bind_eq_some_iff.mp h
    obtain ⟨⟨hwaiting, -⟩, h⟩ := Option.ite_none_right_eq_some.mp h
    cases h
    exact .set hr (by simp [hwaiting]) rfl rfl rfl
  | beforeReturns i outcome =>
    obtain ⟨r, hr, h⟩ := Option.bind_eq_some_iff.mp h
    obtain ⟨hphase, h⟩ := Option.ite_none_right_eq_some.mp h
    cases outcome with
    | stopped error =>
      cases h
      exact .afterExecution hr (by simp [hphase]) error true
    | proceed d =>
      cases h
      exact .dispatch hr (by simp [hphase]) d
  | executeSettles i result isError =>
    obtain ⟨r, hr, h⟩ := Option.bind_eq_some_iff.mp h
    obtain ⟨hphase, h⟩ := Option.ite_none_right_eq_some.mp h
    cases h
    exact .afterExecution hr (by simp [hphase]) result isError
  | afterReturns i changed =>
    obtain ⟨r, hr, h⟩ := Option.bind_eq_some_iff.mp h
    split at h
    next result isError hphase =>
      cases h
      exact .emitAndSteer hr (by simp [hphase]) _ _
    next => cases h
  | steeringSettles outcome => exact absurd rfl (hsettles outcome)
  | finalize i =>
    obtain ⟨r, hr, h⟩ := Option.bind_eq_some_iff.mp h
    split at h
    next ok hphase =>
      cases h
      exact .set hr (by simp [hphase]) rfl rfl rfl
    next hphase =>
      cases h
      exact .set hr (by simp [hphase]) rfl rfl rfl
    next => cases h
  | abort =>
    obtain ⟨-, h⟩ := Option.ite_none_right_eq_some.mp h
    cases h
    exact ⟨rfl, id, id⟩
  | finish byAbort => exact absurd rfl (hfinish byAbort)

theorem step_steeringSettles {outcome : SteeringOutcome}
    (h : b.step (.steeringSettles outcome) = some b') :
    b.steeringCheck = true ∧ b'.steeringCheck = false ∧
      b'.interrupted = (b.interrupted || outcome = .messages) := by
  obtain ⟨hcheck, h⟩ := Option.ite_none_right_eq_some.mp h
  cases h
  exact ⟨hcheck, rfl, rfl⟩

theorem step_finish (hawaited : b.Awaited) (h : b.step (.finish false) = some b') :
    b.steeringCheck = false := by
  obtain ⟨hfinish, -⟩ := Option.ite_none_right_eq_some.mp h
  simp only [Bool.and_eq_true, Bool.false_eq_true, if_false] at hfinish
  cases hcheck : b.steeringCheck with
  | false => rfl
  | true =>
    obtain ⟨-, r, hr, hphase⟩ := hawaited hcheck
    have hsettled := List.all_eq_true.mp hfinish.2 r hr
    simp [hphase, TaskPhase.Settled, TaskPhase.Fulfilled, TaskPhase.Rejected] at hsettled

end ToolBatch

end JevCode.Agent
