import JevCode.Ai.ToolCallIds

namespace JevCode.Ai

open JevCode.Data

variable {Json : Type} {options : TransformOptions Json}

def OnlyResultsSince (messages : List (Message Json)) (id : String) : Prop :=
  ∀ before m after, messages = before ++ .assistant m :: after → id ∈ m.toolCalls.map (·.id) →
    ∀ message ∈ after, message.isToolResult = true

/-- No user, developer or assistant message stands between a tool call and its result. -/
def Contiguous (messages : List (Message Json)) : Prop :=
  ∀ before r after, messages = before ++ .toolResult r :: after →
    OnlyResultsSince before r.toolCallId

/-- The results of turns that were neither aborted nor ended by an error come before the next user,
developer or assistant message. -/
def InTime (answers : AssistantMessage Json → ToolResultMessage Json → Prop)
    (messages : List (Message Json)) : Prop :=
  ∀ before m between r after, messages = before ++ .assistant m ::
    (between ++ .toolResult r :: after) →
    m.isAborted = false → answers m r → ∀ message ∈ between, message.isToolResult = true

def Answers (m : AssistantMessage Json) (r : ToolResultMessage Json) : Prop :=
  r.toolCallId ∈ m.toolCalls.map (·.id)

/-- The result is sent under the id of a call of the message. -/
def SentAnswers (options : TransformOptions Json) (all : List (Message Json))
    (m : AssistantMessage Json) (r : ToolResultMessage Json) : Prop :=
  sentResultId options all r.toolCallId ∈ m.toolCalls.map fun call => options.toolCallId m call.id

section

variable {xs : List (Message Json)} {message : Message Json} {id : String}

theorem OnlyResultsSince.append (h : OnlyResultsSince xs id) (r : ToolResultMessage Json) :
    OnlyResultsSince (xs ++ [.toolResult r]) id := by
  intro before m after heq hid message hmem
  obtain ⟨-, -, hlast⟩ | ⟨after', rfl, hxs⟩ := append_singleton_split heq
  · cases hlast
  · obtain hmem | hmem := List.mem_append.mp hmem
    · exact h before m after' hxs hid message hmem
    · rw [List.mem_singleton.mp hmem]
      rfl

theorem onlyResultsSince_of_new (h : id ∉ callIds xs) : OnlyResultsSince (xs ++ [message]) id := by
  intro before m after heq hid x hmem
  obtain ⟨rfl, -, -⟩ | ⟨after', rfl, rfl⟩ := append_singleton_split heq
  · cases hmem
  · refine absurd ?_ h
    rw [callIds_append, callIds_cons, callIds_assistant]
    exact List.mem_append_right _ (List.mem_append_left _ hid)

theorem Contiguous.append (h : Contiguous xs)
    (hmessage : ∀ r, message = .toolResult r → OnlyResultsSince xs r.toolCallId) :
    Contiguous (xs ++ [message]) := by
  intro before r after heq
  obtain ⟨rfl, rfl, hlast⟩ | ⟨after', rfl, hxs⟩ := append_singleton_split heq
  · exact hmessage r hlast
  · exact h before r after' hxs

theorem Contiguous.appendNote (h : Contiguous xs) (hmessage : message.isToolResult = false) :
    Contiguous (xs ++ [message]) := by
  refine h.append ?_
  rintro r rfl
  cases hmessage

theorem Contiguous.appendNotes (h : Contiguous xs) {notes : List (Message Json)}
    (hnotes : ∀ message ∈ notes, message.isToolResult = false) : Contiguous (xs ++ notes) := by
  induction notes using List.reverseRecOn with
  | nil => rwa [List.append_nil]
  | append_singleton notes note ih =>
    rw [← List.append_assoc]
    exact (ih fun message hmem => hnotes message (List.mem_append_left _ hmem)).appendNote
      (hnotes note (by simp))

end

theorem InTime.elim {done rest : List (Message Json)} {message : Message Json}
    (h : InTime Answers (done ++ message :: rest))
    (hmessage : message.isToolResult = false) {id : String} (hturn : id ∈ turnCallIds done) :
    id ∉ resultIds rest := by
  intro hrest
  obtain ⟨turn, hmem, hid⟩ := List.mem_flatMap.mp hturn
  obtain ⟨hdone, hnormal⟩ := List.mem_filter.mp hmem
  obtain ⟨between, r, after, rfl, rfl⟩ := mem_resultIds.mp hrest
  cases turn with
  | assistant m =>
    obtain ⟨before, since, rfl⟩ := List.append_of_mem hdone
    have htrue :=
      h before m (since ++ message :: between) r after (by simp) (by simpa using hnormal) hid
        message (by simp)
    rw [hmessage] at htrue
    cases htrue
  | _ => cases hnormal

namespace SecondPass

variable {done rest : List (Message Json)} {s s' : SecondPass Json}

structure Tight (done : List (Message Json)) (s : SecondPass Json) : Prop where
  contiguous : Contiguous s.result
  since : ∀ id ∈ callIds done, s.toolCallStatus.get? id = none → OnlyResultsSince s.result id
  window : ∀ id ∈ callIds done, s.toolCallStatus.get? id = none →
    id ∈ s.pendingToolCalls.map (·.id) ∨ (s.pendingAbortedToolCalls.get? id).isSome

theorem Resolves.contiguous {allowed : String → ToolCallStatus → Prop} (h : Resolves allowed s s')
    (hcalls : ∀ id status, allowed id status → id ∈ callIds done) (hcontiguous : Contiguous s.result)
    (hsince : ∀ id ∈ callIds done, s.toolCallStatus.get? id = none → OnlyResultsSince s.result id) :
    Contiguous s'.result ∧ ∀ id ∈ callIds done, s'.toolCallStatus.get? id = none →
      OnlyResultsSince s'.result id := by
  induction h with
  | refl => exact ⟨hcontiguous, hsince⟩
  | step h status r hnone hr ih =>
    refine ⟨ih.1.append ?_, fun id hid hnone' => ?_⟩
    · rintro r' ⟨⟩
      exact ih.2 _ (hcalls _ _ hr) hnone
    · rw [resolve_status] at hnone'
      split at hnone'
      next => cases hnone'
      next => exact (ih.2 id hid hnone').append r

theorem Tight.flush (hinv : Inv done rest s) (h : Tight done s) (timestamp : Int) :
    Contiguous (s.flush (resultIds (done ++ rest)) timestamp).result := by
  obtain ⟨s₁, notes, hflush⟩ := flush_spec (resultIds (done ++ rest)) s timestamp
  rw [hflush.result]
  have hcalls := fun id status hid => (hinv.windows.answerable id status hid).call
  obtain ⟨hcontiguous, -⟩ := hflush.resolves.contiguous hcalls h.contiguous h.since
  exact hcontiguous.appendNotes fun message hmem => (hflush.notes message hmem).2

theorem Flushed.answered {message : Message Json} (h : Flushed done (message :: rest) s)
    (hintime : InTime Answers (done ++ message :: rest))
    (hmessage : message.isToolResult = false) {id : String} (hid : id ∈ callIds done) :
    s.toolCallStatus.get? id ≠ none := by
  intro hnone
  obtain ⟨hrest, hturn⟩ := h.unanswered id hid hnone
  refine hintime.elim hmessage hturn ?_
  rw [resultIds_cons] at hrest
  cases message with
  | toolResult r => cases hmessage
  | _ => exact hrest

theorem assistant_result (s : SecondPass Json) (m : AssistantMessage Json) :
    (s.assistant m).result = s.result ++ [.assistant m] ∧
    (s.assistant m).toolCallStatus = s.toolCallStatus := by
  unfold SecondPass.assistant
  dsimp only
  split_ifs <;> exact ⟨rfl, rfl⟩

theorem assistant_window (s : SecondPass Json) {m : AssistantMessage Json}
    (hnodup : (m.toolCalls.map (·.id)).Nodup) {id : String} (hid : id ∈ m.toolCalls.map (·.id)) :
    id ∈ (s.assistant m).pendingToolCalls.map (·.id) ∨
      ((s.assistant m).pendingAbortedToolCalls.get? id).isSome := by
  unfold SecondPass.assistant
  dsimp only
  split_ifs with haborted hempty
  · obtain ⟨call, hcall, rfl⟩ := List.mem_map.mp hid
    refine .inr ?_
    rw [get?_ofList_calls hnodup, find?_call hnodup hcall]
    rfl
  · rw [List.isEmpty_iff.mp hempty] at hid
    cases hid
  · exact .inl hid

theorem Tight.note {message : Message Json} (hinv : Inv done (message :: rest) s)
    (hintime : InTime Answers (done ++ message :: rest)) (h : Tight done s)
    (hassistant : message.isAssistant = false) (hresult : message.isToolResult = false)
    (timestamp : Int) :
    Tight (done ++ [message])
      ((s.flush (resultIds (done ++ message :: rest)) timestamp).push message) := by
  have hflushed := hinv.core.flush hinv.windows timestamp
  have hanswered : ∀ id ∈ callIds (done ++ [message]),
      (s.flush (resultIds (done ++ message :: rest)) timestamp).toolCallStatus.get? id ≠ none := by
    intro id hid
    refine hflushed.answered hintime hresult ?_
    cases message with
    | assistant m => cases hassistant
    | _ => simpa [callIds] using hid
  exact ⟨(h.flush hinv timestamp).appendNote hresult,
    fun id hid hnone => absurd hnone (hanswered id hid),
    fun id hid hnone => absurd hnone (hanswered id hid)⟩

theorem Tight.assistant {m : AssistantMessage Json}
    (hpaired : WellPaired (done ++ .assistant m :: rest)) (hinv : Inv done (.assistant m :: rest) s)
    (hintime : InTime Answers (done ++ .assistant m :: rest)) (h : Tight done s) (timestamp : Int) :
    Tight (done ++ [.assistant m])
      ((s.flush (resultIds (done ++ .assistant m :: rest)) timestamp).assistant m) := by
  have hflushed := hinv.core.flush hinv.windows timestamp
  have hcontiguous := h.flush hinv timestamp
  generalize s.flush (resultIds (done ++ .assistant m :: rest)) timestamp = t at *
  obtain ⟨hresult, hstatus⟩ := assistant_result t m
  have hnew : ∀ id ∈ callIds (done ++ [.assistant m]),
      (t.assistant m).toolCallStatus.get? id = none →
      id ∈ m.toolCalls.map (·.id) := by
    intro id hid hnone
    rw [callIds_append, callIds_assistant, List.mem_append] at hid
    rw [hstatus] at hnone
    exact hid.resolve_left fun hdone => hflushed.answered hintime rfl hdone hnone
  refine ⟨?_, fun id hid hnone => ?_,
    fun id hid hnone => assistant_window t hpaired.calls_nodup (hnew id hid hnone)⟩
  · rw [hresult]
    exact hcontiguous.appendNote rfl
  · rw [hresult]
    refine onlyResultsSince_of_new ?_
    rw [hflushed.core.callIds_result]
    exact (hpaired.fresh (hnew id hid hnone)).1

theorem Tight.toolResult {r : ToolResultMessage Json}
    (hpaired : WellPaired (done ++ .toolResult r :: rest))
    (hinv : Inv done (.toolResult r :: rest) s) (h : Tight done s) :
    Tight (done ++ [.toolResult r]) (s.toolResult (callIds (done ++ .toolResult r :: rest)) r) := by
  have hcalls : callIds (done ++ [.toolResult r]) = callIds done := by simp
  obtain ⟨hcall, hnone, pendingAborted, haborted, heq⟩ | ⟨-, -, hleft⟩ := hinv.toolResult_cases
  · rw [heq]
    have hother : ∀ id, (s.resolve r.toolCallId .resolved (.toolResult r)).toolCallStatus.get? id =
        none →
        id ≠ r.toolCallId ∧ s.toolCallStatus.get? id = none := by
      intro id hid
      rw [resolve_status] at hid
      split at hid
      next => cases hid
      next hne => exact ⟨hne, hid⟩
    refine ⟨h.contiguous.append ?_, fun id hid hid' => ?_, fun id hid hid' => ?_⟩
    · rintro r' ⟨⟩
      exact h.since _ (hpaired.answers hcall).1 hnone
    · exact (h.since id (hcalls ▸ hid) (hother id hid').2).append r
    · obtain ⟨hne, hid'⟩ := hother id hid'
      dsimp only
      rw [haborted, if_neg hne]
      exact h.window id (hcalls ▸ hid) hid'
  · obtain heq | ⟨hpending, hempty, content, heq⟩ := hleft
    · rw [heq]
      exact ⟨h.contiguous, hcalls ▸ h.since, hcalls ▸ h.window⟩
    · have hanswered : ∀ id ∈ callIds (done ++ [.toolResult r]),
          s.toolCallStatus.get? id ≠ none := by
        intro id hid hnone
        have hwindow := h.window id (hcalls ▸ hid) hnone
        rw [hpending, InsertionMap.get?, hempty] at hwindow
        simp at hwindow
      rw [heq]
      exact ⟨h.contiguous.appendNote rfl, fun id hid hnone => absurd hnone (hanswered id hid),
        fun id hid hnone => absurd hnone (hanswered id hid)⟩

theorem Tight.step {message : Message Json} (hpaired : WellPaired (done ++ message :: rest))
    (hinv : Inv done (message :: rest) s) (hintime : InTime Answers (done ++ message :: rest))
    (h : Tight done s) :
    Tight (done ++ [message])
      (s.step (resultIds (done ++ message :: rest)) (callIds (done ++ message :: rest))
        message) := by
  cases message with
  | assistant m => exact h.assistant hpaired hinv hintime m.timestamp
  | toolResult r => exact h.toolResult hpaired hinv
  | user content timestamp => exact h.note hinv hintime rfl rfl timestamp
  | developer content timestamp => exact h.note hinv hintime rfl rfl timestamp

theorem Tight.foldl (hpaired : WellPaired (done ++ rest)) (hinv : Inv done rest s)
    (hintime : InTime Answers (done ++ rest)) (h : Tight done s) :
    Tight (done ++ rest)
      (rest.foldl (SecondPass.step (resultIds (done ++ rest)) (callIds (done ++ rest))) s) := by
  induction rest generalizing done s with
  | nil => simpa using h
  | cons message rest ih =>
    have hsplit : done ++ message :: rest = (done ++ [message]) ++ rest := by simp
    have hnext := h.step hpaired hinv hintime
    have hinv' := hinv.step hpaired
    rw [hsplit] at hpaired hintime hnext hinv' ⊢
    exact ih hpaired hinv' hintime hnext

end SecondPass

theorem contiguous_of_inTime (now : Int) {transformed : List (Message Json)}
    (hpaired : WellPaired transformed) (hintime : InTime Answers transformed) :
    Contiguous (secondPass now transformed) := by
  have hpaired' : WellPaired ([] ++ transformed) := hpaired
  have hpaired'' : WellPaired (transformed ++ []) := (List.append_nil transformed).symm ▸ hpaired
  have hinit : SecondPass.Tight [] (SecondPass.init : SecondPass Json) := by
    refine ⟨fun before r after heq => ?_, nofun, nofun⟩
    exact absurd heq (List.append_ne_nil_of_right_ne_nil _ (List.cons_ne_nil _ _)).symm
  have htight := hinit.foldl hpaired' (SecondPass.Inv.init transformed) hintime
  have hinv := SecondPass.Inv.run hpaired''
  simp only [List.append_nil] at hinv
  have hflush := htight.flush hinv now
  rwa [List.append_nil] at hflush

namespace SecondPass

variable (real valid : List String) {s s' : SecondPass Json}

theorem Resolves.result_extends {allowed : String → ToolCallStatus → Prop}
    (h : Resolves allowed s s') :
    s.result <+: s'.result := by
  induction h with
  | refl => exact List.prefix_rfl
  | step h status r hnone hr ih => exact ih.trans (List.prefix_append _ _)

theorem flush_extends (s : SecondPass Json) (timestamp : Int) :
    s.result <+: (s.flush real timestamp).result := by
  obtain ⟨s₁, notes, hflush⟩ := flush_spec real s timestamp
  rw [hflush.result]
  exact hflush.resolves.result_extends.trans (List.prefix_append _ _)

theorem step_pushes (s : SecondPass Json) {message : Message Json}
    (h : message.isToolResult = false) :
    ∃ xs, (s.step real valid message).result = s.result ++ (xs ++ [message]) := by
  have hpush : ∀ timestamp, ∃ xs, (s.flush real timestamp).result ++ [message] = s.result ++
      (xs ++ [message]) := by
    intro timestamp
    obtain ⟨xs, hxs⟩ := flush_extends real s timestamp
    exact ⟨xs, by rw [← hxs, List.append_assoc]⟩
  cases message with
  | toolResult r => cases h
  | assistant m =>
    obtain ⟨xs, hxs⟩ := hpush m.timestamp
    exact ⟨xs, (assistant_result _ m).1.trans hxs⟩
  | user content timestamp => exact hpush timestamp
  | developer content timestamp => exact hpush timestamp

theorem step_extends (s : SecondPass Json) (message : Message Json) :
    s.result <+: (s.step real valid message).result := by
  cases h : message.isToolResult with
  | false =>
    obtain ⟨xs, hxs⟩ := step_pushes real valid s h
    rw [hxs]
    exact List.prefix_append _ _
  | true =>
    cases message with
    | toolResult r =>
      show s.result <+: (s.toolResult valid r).result
      unfold SecondPass.toolResult SecondPass.orphan
      dsimp only
      split_ifs <;> first | exact List.prefix_append _ _ | exact List.prefix_rfl
    | _ => cases h

theorem foldl_extends (s : SecondPass Json) (messages : List (Message Json)) :
    s.result <+: (messages.foldl (SecondPass.step real valid) s).result := by
  induction messages generalizing s with
  | nil => exact List.prefix_rfl
  | cons message messages ih => exact (step_extends real valid s message).trans (ih _)

theorem foldl_pushes (s : SecondPass Json) {messages : List (Message Json)} {message : Message Json}
    (hmem : message ∈ messages) (h : message.isToolResult = false) :
    ∃ xs ys, (messages.foldl (SecondPass.step real valid) s).result = s.result ++
      (xs ++ message :: ys) := by
  obtain ⟨before, after, rfl⟩ := List.append_of_mem hmem
  rw [List.foldl_append, List.foldl_cons]
  obtain ⟨xs, hxs⟩ := foldl_extends real valid s before
  obtain ⟨ys, hys⟩ := step_pushes real valid (before.foldl (SecondPass.step real valid) s) h
  obtain ⟨zs, hzs⟩ := foldl_extends real valid
    ((before.foldl (SecondPass.step real valid) s).step real valid message) after
  exact ⟨xs ++ ys, zs, by simp [← hzs, hys, ← hxs]⟩

theorem Inv.status_none {done rest : List (Message Json)} {r : ToolResultMessage Json}
    (h : Inv done (.toolResult r :: rest) s) (hturn : r.toolCallId ∈ turnCallIds done) :
    s.toolCallStatus.get? r.toolCallId = none := by
  cases hstatus : s.toolCallStatus.get? r.toolCallId with
  | none => rfl
  | some status =>
    cases status with
    | aborted => exact absurd hturn (h.core.aborted _ hstatus)
    | resolved => exact absurd List.mem_cons_self (h.core.resolved _ hstatus)

theorem Inv.pushes {done rest : List (Message Json)} {r : ToolResultMessage Json}
    (h : Inv done (.toolResult r :: rest) s) (hturn : r.toolCallId ∈ turnCallIds done) :
    (s.toolResult (callIds (done ++ .toolResult r :: rest)) r).result = s.result ++
    [.toolResult r] := by
  obtain ⟨-, -, pendingAborted, -, heq⟩ | ⟨-, hanswered, -⟩ := h.toolResult_cases
  · rw [heq]
    rfl
  · have hsome := hanswered (turnCallIds_subset _ hturn)
    rw [h.status_none hturn] at hsome
    cases hsome

end SecondPass

theorem secondPass_keeps (now : Int) {done rest : List (Message Json)} {r : ToolResultMessage Json}
    (hpaired : WellPaired (done ++ .toolResult r :: rest))
    (hturn : r.toolCallId ∈ turnCallIds done) :
    ∃ after, secondPass now (done ++ .toolResult r :: rest) =
      (done.foldl (SecondPass.step (resultIds (done ++ .toolResult r :: rest))
        (callIds (done ++ .toolResult r :: rest)))
        .init).result ++ .toolResult r :: after := by
  have hpush := (SecondPass.Inv.run hpaired).pushes hturn
  unfold secondPass
  generalize resultIds (done ++ .toolResult r :: rest) = real at *
  generalize callIds (done ++ .toolResult r :: rest) = valid at *
  dsimp only
  rw [List.foldl_append, List.foldl_cons]
  generalize done.foldl (SecondPass.step real valid) .init = s at *
  obtain ⟨xs, hxs⟩ := SecondPass.foldl_extends real valid (s.toolResult valid r) rest
  obtain ⟨ys, hys⟩ :=
    SecondPass.flush_extends real
      (rest.foldl (SecondPass.step real valid) (s.toolResult valid r)) now
  refine ⟨xs ++ ys, ?_⟩
  calc
    _ = ((s.toolResult valid r).result ++ xs) ++ ys := by rw [hxs, hys]; rfl
    _ = s.result ++ .toolResult r :: (xs ++ ys) := by simp [hpush]

theorem inTime_of_contiguous (now : Int) {transformed : List (Message Json)}
    (hpaired : WellPaired transformed) (h : Contiguous (secondPass now transformed)) :
    InTime Answers transformed := by
  rintro before m between r after rfl hnormal hr message hmem
  by_contra hother
  have hturn : r.toolCallId ∈ turnCallIds (before ++ .assistant m :: between) := by
    rw [turnCallIds_append, ← List.singleton_append, turnCallIds_append,
      turnCallIds_assistant, hnormal]
    exact List.mem_append_right _ (List.mem_append_left _ hr)
  rw [← List.cons_append, ← List.append_assoc] at hpaired h
  obtain ⟨later, hkept⟩ := secondPass_keeps now hpaired hturn
  have hsince := h _ r later hkept
  rw [List.foldl_append, List.foldl_cons] at hsince
  obtain ⟨xs, hxs⟩ :=
    SecondPass.step_pushes
      (resultIds ((before ++ .assistant m :: between) ++ .toolResult r :: after))
    (callIds ((before ++ .assistant m :: between) ++ .toolResult r :: after)) (before.foldl _ .init)
    (show (Message.assistant m).isToolResult = false from rfl)
  obtain ⟨ys, zs, hys⟩ := SecondPass.foldl_pushes _ _ _ hmem (Bool.not_eq_true _ ▸ hother)
  rw [hys, hxs] at hsince
  simp only [List.append_assoc, List.singleton_append] at hsince
  rw [← List.append_assoc] at hsince
  exact hother (hsince _ m (ys ++ message :: zs) rfl hr message (by simp))

theorem inTime_sent {all xs ys : List (Message Json)} (h : List.Forall₂ (SentAs options all) xs ys) :
    InTime Answers ys ↔ InTime (SentAnswers options all) xs := by
  have hkinds : ∀ {xs ys : List (Message Json)}, List.Forall₂ (SentAs options all) xs ys →
      ((∀ message ∈ xs, message.isToolResult = true) ↔ ∀ message ∈ ys,
      message.isToolResult = true) := by
    intro xs ys h
    induction h with
    | nil => rfl
    | cons hmessage h ih =>
      rw [List.forall_mem_cons, List.forall_mem_cons, ih]
      cases hmessage <;> rfl
  constructor
  · rintro hsent before m between r after rfl hnormal hr
    obtain ⟨before', message, rest', rfl, -, hmessage, hrest⟩ := forall₂_split h.flip
    obtain ⟨between', result, after', rfl, hbetween, hresult, -⟩ := forall₂_split hrest
    cases hmessage with
    | @assistant _ m' hcalls haborted =>
    cases hresult with
    | @toolResult _ r' hid =>
    refine (hkinds hbetween.flip).mpr
      (hsent before' m' between' r' after' rfl (haborted.trans hnormal) ?_)
    rw [Answers, hid, hcalls]
    exact hr
  · rintro hsent before' m' between' r' after' rfl hnormal hr
    obtain ⟨before, message, rest, rfl, -, hmessage, hrest⟩ := forall₂_split h
    obtain ⟨between, result, after, rfl, hbetween, hresult, -⟩ := forall₂_split hrest
    cases hmessage with
    | @assistant m _ hcalls haborted =>
    cases hresult with
    | @toolResult r _ hid =>
    refine (hkinds hbetween).mp (hsent before m between r after rfl (haborted.symm.trans hnormal) ?_)
    rw [SentAnswers, ← hid, ← hcalls]
    exact hr

/-- The results of tool calls are sent right after the calls if and only if the results of normal
turns come in time. -/
theorem results_are_sent_next_to_calls (options : TransformOptions Json) (now : Int)
    {messages : List (Message Json)} (hpaired : WellPaired messages)
    (h : Normalised options messages) :
    Contiguous (transformMessages options now messages) ↔
      InTime (SentAnswers options messages) messages := by
  obtain ⟨hwell, hsent⟩ := firstPass_wellPaired hpaired h (latestAssistantIndex messages)
  rw [← inTime_sent hsent]
  exact ⟨inTime_of_contiguous now hwell, contiguous_of_inTime now hwell⟩

def lateResult : List (Message Unit) :=
  [turn .toolUse ["a"] 0, .developer (.text "note") 1, resultOf "a" 2]

theorem late_result_is_sent_apart :
    WellPaired lateResult ∧ ¬ Contiguous (transformMessages (toAnthropic none) 3 lateResult) := by
  refine ⟨⟨by decide +kernel, by decide +kernel, by decide +kernel⟩, fun h => ?_⟩
  have hlate := h [turn .toolUse ["a"] 0, .developer (.text "note") 1] _ [] rfl [] _ _ rfl
    (List.mem_singleton.mpr rfl) (.developer (.text "note") 1) List.mem_cons_self
  cases hlate

def lateAbortedResult : List (Message Unit) :=
  [turn .aborted ["a"] 0, .developer (.text "note") 1, resultOf "a" 2]

theorem late_aborted_result_is_left_out :
    Contiguous (transformMessages (toAnthropic (some ("call_" ++ ·))) 3 lateAbortedResult) := by
  have hpaired : WellPaired lateAbortedResult :=
    ⟨by decide +kernel, by decide +kernel, by decide +kernel⟩
  refine (results_are_sent_next_to_calls _ 3 hpaired ⟨by decide +kernel, by decide +kernel⟩).mpr ?_
  intro before m between r after heq hnormal
  have hmem : Message.assistant m ∈ lateAbortedResult := heq ▸ by simp
  simp only [lateAbortedResult, turn, resultOf, List.mem_cons, Message.assistant.injEq, reduceCtorEq,
    List.not_mem_nil, or_false] at hmem
  rw [hmem] at hnormal
  cases hnormal

end JevCode.Ai
