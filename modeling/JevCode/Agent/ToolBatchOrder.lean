import JevCode.Agent.ToolBatch

namespace JevCode.Agent

open JevCode.Data

variable {Result : Type}

def HasTask (calls : List ToolCallInput) (i : Nat) (call : ToolCallInput) : Prop :=
  calls[i]? = some call ∧ call.refused = false

/-- What the scheduler loop knows of the calls before `index`: the last exclusive task and the shared
tasks since. -/
structure Scheduled (calls : List ToolCallInput) (lastExclusive : Option Nat)
    (sharedTasks : List Nat) (index : Nat) : Prop where
  last : ∀ e ∈ lastExclusive, e < index ∧ ∃ call, HasTask calls e call ∧ call.exclusive = true
  covers : ∀ i call, HasTask calls i call → i < index →
    (∃ e ∈ lastExclusive, i < e) ∨ if call.exclusive then lastExclusive = some i else i ∈ sharedTasks

namespace Scheduled

variable {calls : List ToolCallInput} {lastExclusive : Option Nat}
    {sharedTasks : List Nat} {index : Nat}
  {call : ToolCallInput}

theorem init : Scheduled calls none [] 0 :=
  ⟨nofun, fun _ _ _ hi => absurd hi (Nat.not_lt_zero _)⟩

theorem refused (h : Scheduled calls lastExclusive sharedTasks index)
    (hcall : calls[index]? = some call) (hrefused : call.refused = true) :
    Scheduled calls lastExclusive sharedTasks (index + 1) := by
  refine ⟨fun e he => ⟨Nat.lt_succ_of_lt (h.last e he).1, (h.last e he).2⟩, fun i c hc hi => ?_⟩
  obtain hlt | rfl := Nat.lt_succ_iff_lt_or_eq.mp hi
  · exact h.covers i c hc hlt
  · cases hcall.symm.trans hc.1
    exact absurd hrefused (Bool.eq_false_iff.mp hc.2)

theorem exclusive (h : Scheduled calls lastExclusive sharedTasks index)
    (hcall : HasTask calls index call) (hexclusive : call.exclusive = true) :
    Scheduled calls (some index) [] (index + 1) := by
  refine ⟨?_, fun i c hc hi => ?_⟩
  · rintro e ⟨⟩
    exact ⟨Nat.lt_succ_self _, call, hcall, hexclusive⟩
  · obtain hlt | rfl := Nat.lt_succ_iff_lt_or_eq.mp hi
    · exact .inl ⟨index, rfl, hlt⟩
    · cases hcall.1.symm.trans hc.1
      exact .inr (by rw [if_pos hexclusive])

theorem shared (h : Scheduled calls lastExclusive sharedTasks index)
    (hcall : HasTask calls index call) (hshared : call.exclusive = false) :
    Scheduled calls lastExclusive (sharedTasks ++ [index]) (index + 1) := by
  refine ⟨fun e he => ⟨Nat.lt_succ_of_lt (h.last e he).1, (h.last e he).2⟩, fun i c hc hi => ?_⟩
  obtain hlt | rfl := Nat.lt_succ_iff_lt_or_eq.mp hi
  · refine (h.covers i c hc hlt).imp_right fun hcovers => ?_
    split at hcovers
    next hexclusive => rwa [if_pos hexclusive]
    next hexclusive =>
      rw [if_neg hexclusive]
      exact List.mem_append_left _ hcovers
  · cases hcall.1.symm.trans hc.1
    exact .inr (by simp [hshared])

theorem start_covers (h : Scheduled calls lastExclusive sharedTasks index) {i : Nat}
    {c : ToolCallInput} (hc : HasTask calls i c) (hi : i < index) {tasks : List Nat}
    (hlast : lastExclusive.toList ⊆ tasks) (hshared : c.exclusive = false → sharedTasks ⊆ tasks) :
    i ∈ tasks ∨ ∃ e ∈ tasks, i < e ∧ e < index ∧ ∃ call, HasTask calls e call ∧
      call.exclusive = true := by
  obtain ⟨e, he, hlt⟩ | hcovers := h.covers i c hc hi
  · exact .inr ⟨e, hlast (Option.mem_toList.mpr he), hlt, h.last e he⟩
  · left
    split at hcovers
    · exact hlast (Option.mem_toList.mpr hcovers)
    next hexclusive => exact hshared (Bool.not_eq_true _ ▸ hexclusive) hcovers

end Scheduled

theorem schedule_covers {calls rest : List ToolCallInput} {lastExclusive : Option Nat}
    {sharedTasks : List Nat} {index : Nat} (h : Scheduled calls lastExclusive sharedTasks index)
    (hrest : calls.drop index = rest) {k : Nat} {tasks : List Nat}
    (hk : (schedule lastExclusive sharedTasks index rest)[k]? = some (some tasks)) {i : Nat}
    {c call : ToolCallInput} (hc : HasTask calls i c) (hi : i < index + k)
    (hcall : calls[index + k]? = some call)
    (hconflict : c.exclusive = true ∨ call.exclusive = true) :
    i ∈ tasks ∨ ∃ e ∈ tasks, i < e ∧ e < index + k ∧ ∃ call, HasTask calls e call ∧
      call.exclusive = true := by
  induction rest generalizing lastExclusive sharedTasks index k with
  | nil => cases hk
  | cons head rest ih =>
    have hhead : calls[index]? = some head := by
      rw [← List.head?_drop, hrest, List.head?_cons]
    have htail : calls.drop (index + 1) = rest := by
      rw [← List.tail_drop, hrest, List.tail_cons]
    rw [schedule] at hk
    cases k with
    | zero =>
      rw [Nat.add_zero] at hi hcall ⊢
      cases hhead.symm.trans hcall
      split_ifs at hk with hrefused hexclusive
      · cases hk
      · cases hk
        exact h.start_covers hc hi (List.subset_append_left _ _) fun _ =>
          List.subset_append_right _ _
      · cases hk
        refine h.start_covers hc hi (List.Subset.refl _) fun hshared => ?_
        simp [hshared, hexclusive] at hconflict
    | succ k =>
      rw [← Nat.add_assoc, Nat.add_right_comm] at hi hcall ⊢
      split_ifs at hk with hrefused hexclusive
      · exact ih (h.refused hhead hrefused) htail hk hi hcall
      · exact ih (h.exclusive ⟨hhead, Bool.not_eq_true _ ▸ hrefused⟩ hexclusive) htail hk hi hcall
      · exact ih (h.shared ⟨hhead, Bool.not_eq_true _ ▸ hrefused⟩ (Bool.not_eq_true _ ▸ hexclusive))
          htail hk hi hcall

theorem schedule_isSome {lastExclusive : Option Nat} {sharedTasks : List Nat} {index k : Nat}
    {calls : List ToolCallInput} {tasks : Option (List Nat)} {call : ToolCallInput}
    (hk : (schedule lastExclusive sharedTasks index calls)[k]? = some tasks)
    (hcall : calls[k]? = some call) :
    tasks.isSome = !call.refused := by
  induction calls generalizing lastExclusive sharedTasks index k with
  | nil => cases hcall
  | cons head calls ih =>
    rw [schedule] at hk
    cases k with
    | zero =>
      cases hcall
      split_ifs at hk with hrefused hexclusive <;> cases hk <;> simp [hrefused]
    | succ k => split_ifs at hk <;> exact ih hk hcall

def Conflict (r q : ToolRecord Result) : Prop :=
  (r.exclusive = true ∨ q.exclusive = true) ∧ r.phase ≠ .noTask ∧ q.phase ≠ .noTask

namespace ToolBatch

variable {b b' : ToolBatch Result} {event : BatchEvent Result} {i : Nat} {r r' : ToolRecord Result}

structure Keeps (b : ToolBatch Result) (r r' : ToolRecord Result) : Prop where
  exclusive : r'.exclusive = r.exclusive
  start : r'.start = r.start
  noTask : r'.phase = .noTask ↔ r.phase = .noTask
  fulfilled : r.phase.Fulfilled → r'.phase.Fulfilled
  begun : r'.phase.Begun → r.phase.Begun ∨ b.StartFulfilled r.start

theorem Keeps.of_phase (hexclusive : r'.exclusive = r.exclusive) (hstart : r'.start = r.start)
    (hfrom : r.phase ≠ .noTask ∧ ¬r.phase.Fulfilled) (hto : r'.phase ≠ .noTask)
    (hbegun : r'.phase.Begun → r.phase.Begun ∨ b.StartFulfilled r.start) : Keeps b r r' :=
  ⟨hexclusive, hstart, iff_of_false hto hfrom.1, fun h => absurd h hfrom.2, hbegun⟩

theorem emitting_phase
    (h : b.Enters r ∨ r.phase = .executing ∨ ∃ result isError,
      r.phase = .afterToolCall result isError) :
    (r.phase ≠ .noTask ∧ ¬r.phase.Fulfilled) ∧ (r.phase.Begun ∨ b.StartFulfilled r.start) := by
  obtain (⟨hphase, hstart, -⟩ | hphase) | hphase | ⟨result, isError, hphase⟩ := h
  · rw [hphase]
    exact ⟨⟨nofun, nofun⟩, .inr hstart⟩
  all_goals
    rw [hphase]
    exact ⟨⟨nofun, nofun⟩, .inl trivial⟩

theorem RecordStep.keeps (h : RecordStep b event i r r') : Keeps b r r' := by
  cases h with
  | same => exact ⟨rfl, rfl, Iff.rfl, id, .inl⟩
  | skips hwaiting hstart | crashes hwaiting hstart | asks hwaiting hstart =>
    exact .of_phase rfl rfl (hwaiting ▸ ⟨nofun, nofun⟩) nofun fun _ => .inr hstart
  | dispatches henters =>
    obtain ⟨hphase, hbegun⟩ := emitting_phase (.inl henters)
    exact .of_phase rfl rfl hphase nofun fun _ => hbegun
  | executed result isError hphase =>
    obtain ⟨hphase, hbegun⟩ := emitting_phase (hphase.imp_right .inl)
    exact .of_phase rfl rfl hphase nofun fun _ => hbegun
  | emits outcome skips phase hphase hphase' =>
    obtain ⟨hphase, hbegun⟩ := emitting_phase hphase
    have hframe : r.Frame (if skips then r.skip outcome else r.emitToolResult outcome) := by
      split
      · exact r.skip_frame outcome
      · exact r.emitToolResult_frame outcome
    refine .of_phase hframe.exclusive hframe.start hphase ?_ fun _ => hbegun
    rintro rfl
    simp at hphase'
  | steered ok hphase =>
    exact .of_phase rfl rfl (hphase ▸ ⟨nofun, nofun⟩) nofun fun _ => .inl (hphase ▸ trivial)
  | finalizes ok hphase =>
    have hframe := r.close_frame .skipped
    exact .of_phase hframe.exclusive hframe.start (hphase ▸ ⟨nofun, nofun⟩) nofun fun _ =>
      .inl (hphase ▸ trivial)
  | startRejects hphase => exact .of_phase rfl rfl (hphase ▸ ⟨nofun, nofun⟩) nofun nofun
  | gives_up hphase =>
    have hframe := r.close_frame .skipped
    exact .of_phase hframe.exclusive hframe.start (hphase ▸ ⟨nofun, nofun⟩) nofun nofun
  | closes outcome =>
    have hframe := r.close_frame outcome
    refine ⟨hframe.exclusive, hframe.start, ?_, ?_, ?_⟩ <;> rw [hframe.phase]
    · exact id
    · exact .inl

structure Ordered (b : ToolBatch Result) : Prop where
  covers : ∀ i j r q, i < j → b.records[i]? = some r → b.records[j]? = some q → Conflict r q →
    i ∈ q.start ∨ ∃ e ∈ q.start, i < e ∧ e < j ∧ ∃ x, b.records[e]? = some x ∧ Conflict r x
  waits : ∀ q ∈ b.records, q.phase.Begun → b.StartFulfilled q.start

theorem Steps.keeps (h : Steps b event b') (hr' : b'.records[i]? = some r') :
    ∃ r, b.records[i]? = some r ∧ Keeps b r r' := by
  obtain ⟨hlt, -⟩ := List.getElem?_eq_some_iff.mp hr'
  rw [h.length] at hlt
  have hr := List.getElem?_eq_getElem hlt
  obtain ⟨q, hq, hstep⟩ := h.record i _ hr
  cases hr'.symm.trans hq
  exact ⟨_, hr, hstep.keeps⟩

theorem Keeps.conflict {q q' : ToolRecord Result} (hr : Keeps b r r') (hq : Keeps b q q') :
    Conflict r' q' ↔ Conflict r q := by
  unfold Conflict
  rw [hr.exclusive, hq.exclusive, Ne, Ne, hr.noTask, hq.noTask]

theorem Steps.startFulfilled (h : Steps b event b') {start : List Nat}
    (hstart : b.StartFulfilled start) :
    b'.StartFulfilled start := by
  intro j hj
  obtain ⟨r, hr, hfulfilled⟩ := hstart j hj
  obtain ⟨r', hr', hstep⟩ := h.record j r hr
  exact ⟨r', hr', hstep.keeps.fulfilled hfulfilled⟩

theorem Ordered.step (h : b.Ordered) (hsteps : Steps b event b') : b'.Ordered := by
  refine ⟨fun i j r' q' hij hr' hq' hconflict => ?_, fun q' hmem hbegun => ?_⟩
  · obtain ⟨r, hr, hkeepr⟩ := hsteps.keeps hr'
    obtain ⟨q, hq, hkeepq⟩ := hsteps.keeps hq'
    rw [hkeepq.start]
    refine (h.covers i j r q hij hr hq ((hkeepr.conflict hkeepq).mp hconflict)).imp_right ?_
    rintro ⟨e, he, hie, hej, x, hx, hconflict⟩
    obtain ⟨x', hx', hstep⟩ := hsteps.record e x hx
    exact ⟨e, he, hie, hej, x', hx', (hkeepr.conflict hstep.keeps).mpr hconflict⟩
  · obtain ⟨j, hj⟩ := List.mem_iff_getElem?.mp hmem
    obtain ⟨q, hq, hkeep⟩ := hsteps.keeps hj
    rw [hkeep.start]
    refine hsteps.startFulfilled ?_
    exact (hkeep.begun hbegun).elim (h.waits q (List.mem_of_getElem? hq)) id

theorem Ordered.fulfilled (h : b.Ordered) {j : Nat} {q : ToolRecord Result}
    (hq : b.records[j]? = some q) (hbegun : q.phase.Begun) (hij : i < j)
    (hr : b.records[i]? = some r) (hconflict : Conflict r q) :
    r.phase.Fulfilled := by
  induction j using Nat.strongRecOn generalizing q with
  | ind j ih =>
    have hstart := h.waits q (List.mem_of_getElem? hq) hbegun
    obtain hmem | ⟨e, hmem, hie, hej, x, hx, hconflict⟩ := h.covers i j r q hij hr hq hconflict
    · obtain ⟨r', hr', hfulfilled⟩ := hstart i hmem
      cases hr.symm.trans hr'
      exact hfulfilled
    · obtain ⟨x', hx', hfulfilled⟩ := hstart e hmem
      cases hx.symm.trans hx'
      exact ih e hej hx (hfulfilled ▸ trivial) hie hconflict

theorem initRecord_fields (hasInvalidEscapedCall : Bool) (call : ToolCallInput)
    (tasks : Option (List Nat)) :
    let r : ToolRecord Result := initRecord hasInvalidEscapedCall call tasks
    r.exclusive = call.exclusive ∧ match tasks with
      | none => r.phase = .noTask
      | some tasks => r.start = tasks ∧ r.phase = .waiting := by
  unfold initRecord
  cases tasks with
  | none => cases hasInvalidEscapedCall && !call.invalidEscaped <;> exact ⟨rfl, rfl⟩
  | some tasks => cases hasInvalidEscapedCall && !call.invalidEscaped <;> exact ⟨rfl, rfl, rfl⟩

theorem start_task {config : BatchConfig} {content : List ToolCallInput}
    (hr : (start config content).records[i]? = some r) (htask : r.phase ≠ .noTask) :
    let toolCalls := content.filter fun call => !call.providerResolved
    ∃ call, HasTask toolCalls i call ∧ r.exclusive = call.exclusive ∧ r.phase = .waiting ∧
      (schedule none [] 0 toolCalls)[i]? = some (some r.start) := by
  obtain ⟨call, tasks, hcall, htasks, rfl⟩ := start_record hr
  have hfields := @initRecord_fields Result
    ((content.filter fun call => !call.providerResolved).any (·.invalidEscaped)) call tasks
  have hrefused := schedule_isSome htasks hcall
  cases tasks with
  | none => exact absurd hfields.2 htask
  | some tasks =>
    obtain ⟨hexclusive, hstart, hphase⟩ := hfields
    refine ⟨call, ⟨hcall, ?_⟩, hexclusive, hphase, by rw [hstart, htasks]⟩
    simpa using hrefused.symm

theorem start_hasTask (config : BatchConfig) {content : List ToolCallInput} {call : ToolCallInput}
    (h : HasTask (content.filter fun call => !call.providerResolved) i call) :
    ∃ r, (start config content : ToolBatch Result).records[i]? = some r ∧
      r.exclusive = call.exclusive ∧
      r.phase ≠ .noTask := by
  obtain ⟨hlt, -⟩ := List.getElem?_eq_some_iff.mp h.1
  rw [← @start_length Result config content] at hlt
  have hr := List.getElem?_eq_getElem hlt
  obtain ⟨c, tasks, hc, htasks, heq⟩ := start_record hr
  cases h.1.symm.trans hc
  have hfields := @initRecord_fields Result
    ((content.filter fun call => !call.providerResolved).any (·.invalidEscaped)) call tasks
  have hsome := schedule_isSome htasks hc
  refine ⟨_, hr, ?_⟩
  rw [heq]
  cases tasks with
  | none => simp [h.2] at hsome
  | some tasks => exact ⟨hfields.1, hfields.2.2 ▸ nofun⟩

theorem start_ordered (config : BatchConfig) (content : List ToolCallInput) :
    (start config content : ToolBatch Result).Ordered := by
  refine ⟨fun i j r q hij hr hq hconflict => ?_, fun q hmem hbegun => ?_⟩
  · obtain ⟨c, hc, hexclusive, -, -⟩ := start_task hr hconflict.2.1
    obtain ⟨call, hcall, hexclusive', -, hstart⟩ := start_task hq hconflict.2.2
    rw [Conflict, hexclusive, hexclusive'] at hconflict
    have hcovers := schedule_covers .init List.drop_zero hstart hc ((Nat.zero_add j).symm ▸ hij)
      ((Nat.zero_add j).symm ▸ hcall.1) hconflict.1
    rw [Nat.zero_add] at hcovers
    refine hcovers.imp_right ?_
    rintro ⟨e, he, hie, hej, x, hx, hexclusive⟩
    obtain ⟨record, hrecord, hsame, htask⟩ := start_hasTask config hx
    exact ⟨e, he, hie, hej, record, hrecord, .inr (hsame.trans hexclusive), hconflict.2.1, htask⟩
  · obtain ⟨j, hj⟩ := List.mem_iff_getElem?.mp hmem
    by_cases htask : q.phase = .noTask
    · rw [htask] at hbegun
      exact hbegun.elim
    · obtain ⟨-, -, -, hphase, -⟩ := start_task hj htask
      rw [hphase] at hbegun
      exact hbegun.elim

theorem run_ordered [DecidableEq Result] {config : BatchConfig} {content : List ToolCallInput}
    {events : List (BatchEvent Result)} {b : ToolBatch Result}
    (hrun : runEvents step (start config content) events = some b) : b.Ordered :=
  runEvents_preserves (fun _ _ _ h hstep => h.step (step_cases hstep)) hrun
    (start_ordered config content)

end ToolBatch

theorem TaskPhase.Running.begun {phase : TaskPhase Result} (h : phase.Running) : phase.Begun := by
  cases phase <;> first | exact trivial | exact h

theorem ToolBatch.Ordered.completed {b : ToolBatch Result} (h : b.Ordered) {i j : Nat}
    {r q : ToolRecord Result} (hij : i < j) (hr : b.records[i]? = some r)
    (hq : b.records[j]? = some q) (hexclusive : r.exclusive = true ∨ q.exclusive = true)
    (hbegun : q.phase.Begun) :
    r.phase = .noTask ∨ r.phase = .settled true := by
  by_cases htask : r.phase = .noTask
  · exact .inl htask
  · refine .inr (h.fulfilled hq hbegun hij hr ⟨hexclusive, htask, fun hnone => ?_⟩)
    rw [hnone] at hbegun
    exact hbegun

theorem ToolBatch.Ordered.not_running {b : ToolBatch Result} (h : b.Ordered) {i j : Nat}
    {r q : ToolRecord Result} (hij : i < j) (hr : b.records[i]? = some r)
    (hq : b.records[j]? = some q) (hexclusive : r.exclusive = true ∨ q.exclusive = true)
    (hrunning : q.phase.Running) : ¬r.phase.Running := by
  intro hr'
  obtain hphase | hphase := h.completed hij hr hq hexclusive hrunning.begun
  all_goals
    rw [hphase] at hr'
    exact hr'

/-- While the task of an exclusive call runs, no other task of the batch runs; and of two calls of
which one is exclusive the second begins only when the first has completed, unless that never gets a
task. -/
theorem exclusive_tools_run_alone [DecidableEq Result] (config : BatchConfig)
    (content : List ToolCallInput) (events : List (BatchEvent Result)) (b : ToolBatch Result)
    (hrun : runEvents ToolBatch.step (ToolBatch.start config content) events = some b) :
    (∀ (i j : Nat) (r q : ToolRecord Result), b.records[i]? = some r →
      b.records[j]? = some q → i ≠ j →
      r.exclusive = true → r.phase.Running → ¬q.phase.Running) ∧
    ∀ (i j : Nat) (r q : ToolRecord Result), i < j → b.records[i]? = some r →
      b.records[j]? = some q →
      r.exclusive = true ∨ q.exclusive = true → q.phase.Begun → r.phase = .noTask ∨
        r.phase = .settled true := by
  have h := ToolBatch.run_ordered hrun
  refine ⟨fun i j r q hr hq hij hexclusive hr' hq' => ?_,
    fun i j r q hij hr hq => h.completed hij hr hq⟩
  obtain hlt | hgt := Nat.lt_or_gt_of_ne hij
  · exact h.not_running hlt hr hq (.inl hexclusive) hq' hr'
  · exact h.not_running hgt hq hr (.inr hexclusive) hr' hq'

def alternatingRun : List (BatchEvent Unit) :=
  [.run 0 (.checked .published), .beforeReturns 0 (.proceed .published), .executeSettles 0 () false,
    .afterReturns 0 none, .steeringSettles .none, .finalize 0, .run 2 (.checked .published)]

theorem exclusive_call_runs_alone :
    ∃ b, runEvents ToolBatch.step
        (ToolBatch.start hookedConfig [sharedCall, ⟨false, false, false, true⟩,
          exclusiveCall, sharedCall])
        alternatingRun = some b ∧
      (∃ r, b.records[2]? = some r ∧ r.phase = .beforeToolCall) ∧
      ∀ q, b.records[3]? = some q → ¬q.phase.Running := by
  have hruns : (runEvents ToolBatch.step
      (ToolBatch.start hookedConfig [sharedCall, ⟨false, false, false, true⟩,
      exclusiveCall, sharedCall])
      alternatingRun).any
        (fun b => b.records[2]?.any fun r => r.exclusive && decide (r.phase = .beforeToolCall)) =
        true := by
    decide +kernel
  obtain ⟨b, hrun, hb⟩ := (Option.any_eq_true _ _).mp hruns
  obtain ⟨r, hr, hr'⟩ := (Option.any_eq_true _ _).mp hb
  obtain ⟨hexclusive, hphase⟩ := Bool.and_eq_true_iff.mp hr'
  have hphase := of_decide_eq_true hphase
  obtain ⟨halone, -⟩ := exclusive_tools_run_alone _ _ alternatingRun b hrun
  exact ⟨b, hrun, ⟨r, hr, hphase⟩,
    fun q hq => halone 2 3 r q hr hq (by decide) hexclusive (hphase ▸ trivial)⟩

end JevCode.Agent
