import JevCode.Ai.TransformMessages
import Mathlib.Data.List.Nodup
import Mathlib.Data.List.Count

namespace JevCode.Ai

open JevCode.Data

variable {Json : Type}

@[simp] theorem callIds_append (xs ys : List (Message Json)) :
    callIds (xs ++ ys) = callIds xs ++ callIds ys :=
  List.flatMap_append

theorem callIds_cons (x : Message Json) (xs : List (Message Json)) :
    callIds (x :: xs) = callIds [x] ++ callIds xs :=
  callIds_append [x] xs

@[simp] theorem resultIds_append (xs ys : List (Message Json)) :
    resultIds (xs ++ ys) = resultIds xs ++ resultIds ys :=
  List.filterMap_append

theorem resultIds_cons (x : Message Json) (xs : List (Message Json)) :
    resultIds (x :: xs) = resultIds [x] ++ resultIds xs :=
  resultIds_append [x] xs

@[simp] theorem callIds_assistant (m : AssistantMessage Json) :
    callIds [Message.assistant m] = m.toolCalls.map (·.id) := by
  simp [callIds]

@[simp] theorem callIds_toolResult (r : ToolResultMessage Json) :
    callIds [Message.toolResult r] = [] := rfl

@[simp] theorem resultIds_toolResult (r : ToolResultMessage Json) :
    resultIds [Message.toolResult r] = [r.toolCallId] := rfl
@[simp] theorem resultIds_assistant (m : AssistantMessage Json) :
    resultIds [Message.assistant m] = [] := rfl

def turnCallIds (messages : List (Message Json)) : List String :=
  callIds (messages.filter fun
    | .assistant m => !m.isAborted
    | _ => false)

@[simp] theorem turnCallIds_append (xs ys : List (Message Json)) :
    turnCallIds (xs ++ ys) = turnCallIds xs ++ turnCallIds ys := by
  rw [turnCallIds, List.filter_append, callIds_append]
  rfl

theorem turnCallIds_subset (xs : List (Message Json)) : turnCallIds xs ⊆ callIds xs := by
  intro id hid
  obtain ⟨message, hmem, hid⟩ := List.mem_flatMap.mp hid
  exact List.mem_flatMap.mpr ⟨message, (List.mem_filter.mp hmem).1, hid⟩

theorem turnCallIds_assistant (m : AssistantMessage Json) :
    turnCallIds [.assistant m] = if m.isAborted then [] else m.toolCalls.map (·.id) := by
  unfold turnCallIds
  cases h : m.isAborted <;> simp [h, callIds]

def ResultsAfterCalls (messages : List (Message Json)) : Prop :=
  ∀ before r after, messages = before ++ .toolResult r :: after → r.toolCallId ∈ callIds messages →
    r.toolCallId ∈ callIds before

theorem resultsAfterCalls_iff {messages : List (Message Json)} :
    ResultsAfterCalls messages ↔ ∀ i < messages.length, ∀ id ∈ resultIds ((messages.drop i).take 1),
      id ∈ callIds messages → id ∈ callIds (messages.take i) := by
  constructor
  · intro h i hi id hid hcall
    have hsplit : messages = messages.take i ++ messages[i] :: messages.drop (i + 1) := by simp
    rw [List.drop_eq_getElem_cons hi, List.take_succ_cons, List.take_zero] at hid
    cases hmessage : messages[i] with
    | toolResult r =>
      rw [hmessage] at hid hsplit
      obtain rfl : id = r.toolCallId := List.mem_singleton.mp hid
      exact h _ r _ hsplit hcall
    | _ =>
      rw [hmessage] at hid
      cases hid
  · rintro h before r after rfl hcall
    have := h before.length (by simp) r.toolCallId (by simp) hcall
    rwa [List.take_left] at this

instance {messages : List (Message Json)} : Decidable (ResultsAfterCalls messages) :=
  decidable_of_iff _ resultsAfterCalls_iff.symm

/-- Tool calls have distinct ids, and at most one result each, which stands after the call. -/
structure WellPaired (messages : List (Message Json)) : Prop where
  distinct : (callIds messages).Nodup
  once : ∀ id ∈ callIds messages, (resultIds messages).count id ≤ 1
  after : ResultsAfterCalls messages

def Placed (messages : List (Message Json)) : Prop :=
  ∀ before r after, messages = before ++ .toolResult r :: after → r.toolCallId ∈ callIds before

theorem callIds_eq_of_assistants {xs ys : List (Message Json)}
    (h : xs.filter Message.isAssistant = ys.filter Message.isAssistant) :
    callIds xs = callIds ys := by
  have hfilter : ∀ zs : List (Message Json), callIds (zs.filter Message.isAssistant) =
      callIds zs := by
    intro zs
    induction zs with
    | nil => rfl
    | cons z zs ih =>
      cases z with
      | assistant m =>
        rw [List.filter_cons_of_pos rfl, callIds_cons, callIds_cons _ zs, ih]
      | _ => exact ih
  rw [← hfilter xs, h, hfilter ys]

theorem append_singleton_split {α : Type} {xs before after : List α} {a b : α}
    (h : xs ++ [a] = before ++ b :: after) :
    after = [] ∧ xs = before ∧ a = b ∨ ∃ after', after = after' ++ [a] ∧
      xs = before ++ b :: after' := by
  rcases after.eq_nil_or_concat' with rfl | ⟨after', last, rfl⟩
  · obtain ⟨hxs, hlast⟩ := List.append_inj' h rfl
    exact .inl ⟨rfl, hxs, List.singleton_inj.mp hlast⟩
  · rw [← List.cons_append, ← List.append_assoc] at h
    obtain ⟨hxs, hlast⟩ := List.append_inj' h rfl
    exact .inr ⟨after', by rw [List.singleton_inj.mp hlast], hxs⟩

theorem Placed.append {xs : List (Message Json)} (h : Placed xs) {message : Message Json}
    (hmessage : ∀ r, message = .toolResult r → r.toolCallId ∈ callIds xs) :
    Placed (xs ++ [message]) := by
  intro before r after heq
  obtain ⟨-, rfl, hlast⟩ | ⟨after', -, hxs⟩ := append_singleton_split heq
  · exact hmessage r hlast
  · exact h before r after' hxs

theorem mem_resultIds {messages : List (Message Json)} {id : String} :
    id ∈ resultIds messages ↔ ∃ before r after, messages = before ++ .toolResult r :: after ∧
      r.toolCallId = id := by
  constructor
  · intro hid
    obtain ⟨message, hmem, heq⟩ := List.mem_filterMap.mp hid
    obtain ⟨before, after, rfl⟩ := List.append_of_mem hmem
    cases message with
    | toolResult r => exact ⟨before, r, after, rfl, Option.some.inj heq⟩
    | _ => cases heq
  · rintro ⟨before, r, after, rfl, rfl⟩
    exact List.mem_filterMap.mpr ⟨_, List.mem_append_right _ List.mem_cons_self, rfl⟩

namespace WellPaired

variable {done rest : List (Message Json)}

theorem fresh {m : AssistantMessage Json}
    (h : WellPaired (done ++ .assistant m :: rest)) {id : String}
    (hid : id ∈ m.toolCalls.map (·.id)) : id ∉ callIds done ∧ id ∉ resultIds done := by
  have hcalls : callIds (done ++ .assistant m :: rest) =
      callIds done ++ (m.toolCalls.map (·.id) ++ callIds rest) := by
    rw [callIds_append, callIds_cons, callIds_assistant]
  have hnew : id ∉ callIds done := by
    have hdistinct := h.distinct
    rw [hcalls] at hdistinct
    exact fun hdone =>
      (List.nodup_append.mp hdistinct).2.2 id hdone id (List.mem_append_left _ hid) rfl
  have hcall : id ∈ callIds (done ++ .assistant m :: rest) := by simp [hcalls, hid]
  refine ⟨hnew, fun hresult => hnew ?_⟩
  obtain ⟨before, r, after, rfl, rfl⟩ := mem_resultIds.mp hresult
  have hafter := h.after before r (after ++ .assistant m :: rest) (by simp) hcall
  rw [callIds_append]
  exact List.mem_append_left _ hafter

theorem calls_nodup {m : AssistantMessage Json} (h : WellPaired (done ++ .assistant m :: rest)) :
    (m.toolCalls.map (·.id)).Nodup := by
  have hdistinct := h.distinct
  rw [callIds_append, callIds_cons, callIds_assistant] at hdistinct
  exact (List.nodup_append.mp (List.nodup_append.mp hdistinct).2.1).1

theorem answers {r : ToolResultMessage Json} (h : WellPaired (done ++ .toolResult r :: rest))
    (hr : r.toolCallId ∈ callIds (done ++ .toolResult r :: rest)) :
    r.toolCallId ∈ callIds done ∧ r.toolCallId ∉ resultIds rest := by
  refine ⟨h.after done r rest rfl hr, fun hrest => ?_⟩
  have honce := h.once _ hr
  rw [resultIds_append, List.count_append, resultIds_cons, List.count_append, resultIds_toolResult,
    List.count_singleton_self] at honce
  have := List.count_pos_iff.mpr hrest
  omega

end WellPaired

namespace SecondPass

variable {done rest : List (Message Json)} {s s' s'' : SecondPass Json} {id : String}

inductive Resolves (allowed : String → ToolCallStatus → Prop) (s : SecondPass Json) :
    SecondPass Json → Prop
  | refl : Resolves allowed s s
  | step {s' : SecondPass Json} (h : Resolves allowed s s') (status : ToolCallStatus)
    (r : ToolResultMessage Json)
      (hnone : s'.toolCallStatus.get? r.toolCallId = none) (hallowed : allowed r.toolCallId status) :
      Resolves allowed s (s'.resolve r.toolCallId status (.toolResult r))

theorem resolve_status (s : SecondPass Json) (id' : String) (status : ToolCallStatus)
    (message : Message Json) :
    (s.resolve id' status message).toolCallStatus.get? id = if id = id' then some status
      else s.toolCallStatus.get? id :=
  InsertionMap.get?_set _ _ _ _

namespace Resolves

variable {allowed allowed' : String → ToolCallStatus → Prop}

theorem trans (h : Resolves allowed s s') (h' : Resolves allowed s' s'') :
    Resolves allowed s s'' := by
  induction h' with
  | refl => exact h
  | step h' status r hnone hr ih => exact ih.step status r hnone hr

theorem withPending (h : Resolves allowed s s') (calls : List (ToolCall Json)) :
    Resolves allowed { s with pendingToolCalls := calls } { s' with pendingToolCalls := calls } := by
  induction h with
  | refl => exact .refl
  | step h status r hnone hr ih => exact ih.step status r hnone hr

theorem pending (h : Resolves allowed s s') :
    s'.pendingToolCalls = s.pendingToolCalls ∧
      s'.pendingAbortedToolCalls = s.pendingAbortedToolCalls ∧
    s'.pendingAbortedTimestamp = s.pendingAbortedTimestamp := by
  induction h with
  | refl => exact ⟨rfl, rfl, rfl⟩
  | step h status r hnone hr ih => exact ih

theorem status_isSome (h : Resolves allowed s s') (hsome : (s.toolCallStatus.get? id).isSome) :
    (s'.toolCallStatus.get? id).isSome := by
  induction h with
  | refl => exact hsome
  | step h status r hnone hr ih =>
    rw [resolve_status]
    split
    · rfl
    · exact ih

theorem status_none (h : Resolves allowed s s') (hnone : s'.toolCallStatus.get? id = none) :
    s.toolCallStatus.get? id = none := by
  by_contra hsome
  have := h.status_isSome (Option.isSome_iff_ne_none.mpr hsome)
  rw [hnone] at this
  cases this

end Resolves

theorem foldl_resolves {allowed : String → ToolCallStatus → Prop} {answered : List String}
    {f : SecondPass Json → ToolCall Json → SecondPass Json} {calls : List (ToolCall Json)}
    (hstep : ∀ s, ∀ call ∈ calls, Resolves allowed s (f s call) ∧
      (((f s call).toolCallStatus.get? call.id).isSome ∨ call.id ∈ answered)) (s : SecondPass Json) :
    Resolves allowed s (calls.foldl f s) ∧
    ∀ call ∈ calls, ((calls.foldl f s).toolCallStatus.get? call.id).isSome ∨ call.id ∈ answered := by
  induction calls generalizing s with
  | nil => exact ⟨.refl, nofun⟩
  | cons call calls ih =>
    obtain ⟨hfirst, hcall⟩ := hstep s call List.mem_cons_self
    obtain ⟨hrest, hcalls⟩ := ih (fun s c hc => hstep s c (List.mem_cons_of_mem _ hc)) (f s call)
    refine ⟨hfirst.trans hrest, fun c hc => ?_⟩
    obtain rfl | hc := List.mem_cons.mp hc
    · exact hcall.imp_left hrest.status_isSome
    · exact hcalls c hc

def Flushable (real : List String) (s : SecondPass Json) (id : String) : ToolCallStatus → Prop
  | .resolved => id ∈ s.pendingToolCalls.map (·.id) ∧ id ∉ real
  | .aborted => ∃ call ∈ s.pendingAbortedToolCalls.entries.map Prod.snd, call.id = id

structure FlushesTo (real : List String) (s s₁ s' : SecondPass Json)
    (notes : List (Message Json)) : Prop where
  resolves : Resolves (Flushable real s) s s₁
  pending : ∀ call ∈ s.pendingToolCalls, (s₁.toolCallStatus.get? call.id).isSome ∨ call.id ∈ real
  aborted : s.pendingAbortedTimestamp.isSome →
    ∀ call ∈ s.pendingAbortedToolCalls.entries.map Prod.snd,
    (s₁.toolCallStatus.get? call.id).isSome
  result : s'.result = s₁.result ++ notes
  notes : ∀ message ∈ notes, message.isAssistant = false ∧ message.isToolResult = false
  toolCallStatus : s'.toolCallStatus = s₁.toolCallStatus
  pendingToolCalls : s'.pendingToolCalls = []
  pendingAbortedToolCalls : s'.pendingAbortedToolCalls = .empty ∨
    s.pendingAbortedTimestamp = none ∧ s'.pendingAbortedToolCalls = s.pendingAbortedToolCalls

theorem flushToolCalls_resolves (real : List String) (timestamp : Int) (s : SecondPass Json) :
    let s' := s.pendingToolCalls.foldl (flushToolCall real timestamp) s
    Resolves (Flushable real s) s s' ∧
    ∀ call ∈ s.pendingToolCalls, (s'.toolCallStatus.get? call.id).isSome ∨ call.id ∈ real := by
  refine foldl_resolves (fun t call hcall => ?_) s
  unfold flushToolCall
  split
  next hflush =>
    obtain ⟨hnone, hnot⟩ := Bool.and_eq_true_iff.mp hflush
    refine ⟨.step .refl .resolved _ (Option.isNone_iff_eq_none.mp hnone) ⟨?_,
      of_decide_eq_true hnot⟩, .inl ?_⟩
    · exact List.mem_map_of_mem hcall
    · simp [SecondPass.resolve]
  next hflush =>
    refine ⟨.refl, ?_⟩
    rw [Bool.and_eq_true_iff, not_and_or] at hflush
    refine hflush.imp (fun hsome => ?_) fun hmem => ?_
    · simpa [Option.isSome_iff_ne_none] using hsome
    · simpa using hmem

theorem flushAbortedToolCalls_resolves (real : List String) (timestamp : Int) {s t : SecondPass Json}
    (h : t.pendingAbortedToolCalls = s.pendingAbortedToolCalls) :
    let t' :=
  (t.pendingAbortedToolCalls.entries.map Prod.snd).foldl (flushAbortedToolCall timestamp) t
    Resolves (Flushable real s) t t' ∧
    ∀ call ∈ s.pendingAbortedToolCalls.entries.map Prod.snd,
      (t'.toolCallStatus.get? call.id).isSome := by
  have hstep : ∀ t, ∀ call ∈ s.pendingAbortedToolCalls.entries.map Prod.snd,
      Resolves (Flushable real s) t (flushAbortedToolCall timestamp t call) ∧
        (((flushAbortedToolCall timestamp t call).toolCallStatus.get? call.id).isSome ∨
        call.id ∈ []) := by
    intro t call hcall
    unfold flushAbortedToolCall
    split
    next hnone =>
      refine ⟨.step .refl .aborted _ (Option.isNone_iff_eq_none.mp hnone) ⟨call, hcall, rfl⟩,
        .inl ?_⟩
      simp [SecondPass.resolve]
    next hsome => exact ⟨.refl, .inl (by simpa [Option.isSome_iff_ne_none] using hsome)⟩
  obtain ⟨hresolves, hcalls⟩ := foldl_resolves hstep t
  rw [h]
  exact ⟨hresolves, fun call hcall => (hcalls call hcall).resolve_right List.not_mem_nil⟩

theorem flush_spec (real : List String) (s : SecondPass Json) (timestamp : Int) :
    ∃ s₁ notes, FlushesTo real s s₁ (s.flush real timestamp) notes := by
  obtain ⟨hresolves, hpending⟩ := flushToolCalls_resolves real timestamp s
  obtain ⟨hcalls, haborted, htimestamp⟩ := hresolves.pending
  unfold SecondPass.flush flushPendingToolCalls flushPendingAbortedToolCalls
  generalize s.pendingToolCalls.foldl (flushToolCall real timestamp) s = t at *
  split
  next hnone =>
    have hnone : s.pendingAbortedTimestamp = none := htimestamp.symm.trans hnone
    have hnever : s.pendingAbortedTimestamp.isSome →
        ∀ call ∈ s.pendingAbortedToolCalls.entries.map Prod.snd,
        (t.toolCallStatus.get? call.id).isSome := by
      intro hsome
      rw [hnone] at hsome
      cases hsome
    exact ⟨t, [], hresolves, hpending, hnever, (List.append_nil _).symm, nofun, rfl, rfl,
      .inr ⟨hnone, haborted⟩⟩
  next at_ hsome =>
    obtain ⟨hresolves', haborted'⟩ :=
      flushAbortedToolCalls_resolves (s := s) (t := { t with pendingToolCalls := [] })
      real at_ haborted
    have hrestored := hresolves'.withPending t.pendingToolCalls
    refine ⟨_, _, hresolves.trans hrestored, fun call hcall => ?_,
      fun _ call hcall => haborted' call hcall, rfl, ?_, rfl, hresolves'.pending.1, .inl rfl⟩
    · exact (hpending call hcall).imp_left hrestored.status_isSome
    · intro message hmem
      rw [List.mem_singleton.mp hmem]
      exact ⟨rfl, rfl⟩

/-- What holds of the result and the statuses in the second pass over `done ++ rest` after `done`. -/
structure Core (done rest : List (Message Json)) (s : SecondPass Json) : Prop where
  assistants : s.result.filter Message.isAssistant = done.filter Message.isAssistant
  results : ∀ id, (resultIds s.result).count id = if (s.toolCallStatus.get? id).isSome then 1 else 0
  placed : Placed s.result
  known : ∀ id, (s.toolCallStatus.get? id).isSome → id ∈ callIds done
  resolved : ∀ id, s.toolCallStatus.get? id = some .resolved → id ∉ resultIds rest
  aborted : ∀ id, s.toolCallStatus.get? id = some .aborted → id ∉ turnCallIds done
  seen : ∀ id ∈ callIds done, id ∈ resultIds done → (s.toolCallStatus.get? id).isSome

structure Answerable (done rest : List (Message Json)) (id : String)
    (status : ToolCallStatus) : Prop where
  call : id ∈ callIds done
  resolved : status = .resolved → id ∉ resultIds rest
  aborted : status = .aborted → id ∉ turnCallIds done

theorem Core.callIds_result (h : Core done rest s) : callIds s.result = callIds done :=
  callIds_eq_of_assistants h.assistants

theorem Core.resolve (h : Core done rest s) {status : ToolCallStatus} {r : ToolResultMessage Json}
    (hr : Answerable done rest r.toolCallId status)
    (hnone : s.toolCallStatus.get? r.toolCallId = none) :
    Core done rest (s.resolve r.toolCallId status (.toolResult r)) := by
  refine ⟨?_, fun id => ?_, h.placed.append ?_, fun id hid => ?_, fun id hid => ?_, fun id hid => ?_,
    fun id hid hresult => ?_⟩
  · show (s.result ++ [Message.toolResult r]).filter _ = _
    rw [List.filter_append, h.assistants]
    exact List.append_nil _
  · show (resultIds (s.result ++ [Message.toolResult r])).count id = _
    rw [resultIds_append, List.count_append, h.results, resolve_status, resultIds_toolResult,
      List.count_singleton]
    by_cases hid : id = r.toolCallId
    · simp [hid, hnone]
    · simp [hid, Ne.symm hid]
  · rintro r' ⟨⟩
    rw [h.callIds_result]
    exact hr.call
  · rw [resolve_status] at hid
    split at hid
    next heq => exact heq ▸ hr.call
    next => exact h.known id hid
  · rw [resolve_status] at hid
    split at hid
    next heq => exact heq ▸ hr.resolved (Option.some.inj hid)
    next => exact h.resolved id hid
  · rw [resolve_status] at hid
    split at hid
    next heq => exact heq ▸ hr.aborted (Option.some.inj hid)
    next => exact h.aborted id hid
  · rw [resolve_status]
    split
    · rfl
    · exact h.seen id hid hresult

theorem Core.resolves (h : Core done rest s) {allowed : String → ToolCallStatus → Prop}
    (hs : Resolves allowed s s')
    (hallowed : ∀ id status, allowed id status → Answerable done rest id status) :
    Core done rest s' := by
  induction hs with
  | refl => exact h
  | step hs status r hnone hr ih => exact ih.resolve (hallowed _ _ hr) hnone

theorem Core.pushNotes (h : Core done rest s) (notes : List (Message Json))
    (hnotes : ∀ message ∈ notes, message.isAssistant = false ∧ message.isToolResult = false)
    (hresult : s'.result = s.result ++ notes) (hstatus : s'.toolCallStatus = s.toolCallStatus) :
    Core done rest s' := by
  have hids : resultIds notes = [] := by
    refine List.filterMap_eq_nil_iff.mpr fun message hmem => ?_
    cases message with
    | toolResult r => exact nomatch (hnotes _ hmem).2
    | _ => rfl
  have hassistants : notes.filter Message.isAssistant = [] := by
    refine List.filter_eq_nil_iff.mpr fun message hmem => ?_
    simp [(hnotes message hmem).1]
  refine ⟨?_, fun id => ?_, ?_, ?_, ?_, ?_, ?_⟩
  · rw [hresult, List.filter_append, h.assistants, hassistants, List.append_nil]
  · rw [hresult, resultIds_append, hids, List.append_nil, hstatus]
    exact h.results id
  · rw [hresult]
    clear hids hassistants hresult
    induction notes using List.reverseRecOn with
    | nil => simpa using h.placed
    | append_singleton notes note ih =>
      rw [← List.append_assoc]
      refine (ih fun message hmem => hnotes message (List.mem_append_left _ hmem)).append ?_
      rintro r rfl
      exact nomatch (hnotes (.toolResult r) (by simp)).2
  all_goals rw [hstatus]
  · exact h.known
  · exact h.resolved
  · exact h.aborted
  · exact h.seen

theorem Core.of_eq (h : Core done rest s) (hresult : s'.result = s.result)
    (hstatus : s'.toolCallStatus = s.toolCallStatus) : Core done rest s' := by
  refine h.pushNotes [] (fun message hmem => ?_) ?_ hstatus
  · cases hmem
  · rw [hresult, List.append_nil]

structure Windows (done rest : List (Message Json)) (s : SecondPass Json) : Prop where
  unanswered : ∀ id ∈ callIds done, s.toolCallStatus.get? id = none →
    id ∈ s.pendingToolCalls.map (·.id) ∨ (s.pendingAbortedToolCalls.get? id).isSome ∨
      id ∈ resultIds rest ∧ id ∈ turnCallIds done
  pending : ∀ id ∈ s.pendingToolCalls.map (·.id), id ∈ turnCallIds done
  aborted : ∀ id call, s.pendingAbortedToolCalls.get? id = some call →
    call.id = id ∧ id ∈ callIds done ∧ id ∉ turnCallIds done ∧ s.toolCallStatus.get? id = none ∧
      s.pendingAbortedTimestamp.isSome

structure Flushed (done rest : List (Message Json)) (s : SecondPass Json) : Prop where
  core : Core done rest s
  pendingToolCalls : s.pendingToolCalls = []
  pendingAbortedToolCalls : ∀ id, s.pendingAbortedToolCalls.get? id = none
  unanswered : ∀ id ∈ callIds done, s.toolCallStatus.get? id = none → id ∈ resultIds rest ∧
    id ∈ turnCallIds done

theorem Core.result_to_come (h : Core done rest s) (hcall : id ∈ callIds done)
    (hnone : s.toolCallStatus.get? id = none) (hreal : id ∈ resultIds (done ++ rest)) :
    id ∈ resultIds rest := by
  rw [resultIds_append, List.mem_append] at hreal
  refine hreal.resolve_left fun hdone => ?_
  have := h.seen id hcall hdone
  rw [hnone] at this
  cases this

theorem Windows.answerable (hw : Windows done rest s) (id : String) (status : ToolCallStatus)
    (h : Flushable (resultIds (done ++ rest)) s id status) : Answerable done rest id status := by
  cases status with
  | resolved =>
    refine ⟨turnCallIds_subset _ (hw.pending id h.1), fun _ hrest => h.2 ?_, nofun⟩
    rw [resultIds_append]
    exact List.mem_append_right _ hrest
  | aborted =>
    obtain ⟨call, hmem, rfl⟩ := h
    obtain ⟨⟨key, call⟩, hentry, rfl⟩ := List.mem_map.mp hmem
    obtain ⟨rfl, hcall, hturn, -, -⟩ := hw.aborted key call (InsertionMap.mem_entries.mp hentry)
    exact ⟨hcall, nofun, fun _ => hturn⟩

theorem Core.flush (h : Core done rest s) (hw : Windows done rest s) (timestamp : Int) :
    Flushed done rest (s.flush (resultIds (done ++ rest)) timestamp) := by
  obtain ⟨s₁, notes, hflush⟩ := flush_spec (resultIds (done ++ rest)) s timestamp
  have hcore := h.resolves hflush.resolves hw.answerable
  refine ⟨hcore.pushNotes notes hflush.notes hflush.result hflush.toolCallStatus,
    hflush.pendingToolCalls, fun id => ?_,
    fun id hid hnone => ?_⟩
  · obtain hempty | ⟨hnone, hsame⟩ := hflush.pendingAbortedToolCalls
    · rw [hempty]
      rfl
    · rw [hsame]
      by_contra hsome
      obtain ⟨call, hget⟩ := Option.ne_none_iff_exists'.mp hsome
      have := (hw.aborted id call hget).2.2.2.2
      rw [hnone] at this
      cases this
  · rw [hflush.toolCallStatus] at hnone
    obtain hmem | hmem | hmem := hw.unanswered id hid (hflush.resolves.status_none hnone)
    · obtain ⟨call, hcall, rfl⟩ := List.mem_map.mp hmem
      have hreal := (hflush.pending call hcall).resolve_left (by simp [hnone])
      exact ⟨hcore.result_to_come hid hnone hreal, hw.pending _ hmem⟩
    · obtain ⟨call, hget⟩ := Option.isSome_iff_exists.mp hmem
      obtain ⟨rfl, -, -, -, htimestamp⟩ := hw.aborted id call hget
      have hsome := hflush.aborted htimestamp call
        (List.mem_map_of_mem (f := Prod.snd) (InsertionMap.mem_entries.mpr hget))
      rw [hnone] at hsome
      cases hsome
    · exact hmem

structure Inv (done rest : List (Message Json)) (s : SecondPass Json) : Prop where
  core : Core done rest s
  windows : Windows done rest s

theorem Core.dropRest {message : Message Json} (h : Core done (message :: rest) s) :
    Core done rest s := by
  refine ⟨h.assistants, h.results, h.placed, h.known, fun id hid hrest => h.resolved id hid ?_,
    h.aborted, h.seen⟩
  rw [resultIds_cons]
  exact List.mem_append_right _ hrest

theorem Core.pass (h : Core done rest s) {message : Message Json}
    (hassistant : message.isAssistant = false)
    (hseen : ∀ id ∈ callIds done, id ∈ resultIds [message] → (s.toolCallStatus.get? id).isSome) :
    Core (done ++ [message]) rest s := by
  have hcalls : callIds [message] = [] ∧ turnCallIds [message] = [] := by
    cases message with
    | assistant m => cases hassistant
    | _ => exact ⟨rfl, rfl⟩
  refine ⟨?_, h.results, h.placed, ?_, h.resolved, ?_, ?_⟩
  · rw [List.filter_append, List.filter_cons_of_neg (by simp [hassistant]), List.filter_nil,
      List.append_nil]
    exact h.assistants
  · rw [callIds_append, hcalls.1, List.append_nil]
    exact h.known
  · rw [turnCallIds_append, hcalls.2, List.append_nil]
    exact h.aborted
  · rw [callIds_append, hcalls.1, List.append_nil, resultIds_append]
    intro id hid hresult
    exact (List.mem_append.mp hresult).elim (h.seen id hid) (hseen id hid)

theorem Flushed.note {message : Message Json} (h : Flushed done (message :: rest) s)
    (hassistant : message.isAssistant = false) (hresult : message.isToolResult = false) :
    Inv (done ++ [message]) rest (s.push message) := by
  have hids : resultIds [message] = [] ∧ callIds [message] = [] := by
    cases message with
    | toolResult r => cases hresult
    | assistant m => cases hassistant
    | _ => exact ⟨rfl, rfl⟩
  have hcore : Core (done ++ [message]) rest s := by
    refine h.core.dropRest.pass hassistant fun id _ hid => ?_
    rw [hids.1] at hid
    cases hid
  refine ⟨hcore.pushNotes [message] ?_ rfl rfl, ?_, ?_, ?_⟩
  · intro message' hmem
    rw [List.mem_singleton.mp hmem]
    exact ⟨hassistant, hresult⟩
  · intro id hid hnone
    rw [callIds_append, hids.2, List.append_nil] at hid
    obtain ⟨hrest, hturn⟩ := h.unanswered id hid hnone
    rw [resultIds_cons, hids.1, List.nil_append] at hrest
    exact .inr (.inr ⟨hrest, by simp [hturn]⟩)
  · intro id hid
    rw [SecondPass.push, h.pendingToolCalls] at hid
    cases hid
  · intro id call hget
    cases (h.pendingAbortedToolCalls id).symm.trans hget

theorem Windows.toolResult {r : ToolResultMessage Json} (h : Windows done (.toolResult r :: rest) s)
    (hpending : s'.pendingToolCalls = s.pendingToolCalls)
    (htimestamp : s'.pendingAbortedTimestamp = s.pendingAbortedTimestamp)
    (hstatus : ∀ id, id ≠ r.toolCallId → s'.toolCallStatus.get? id = s.toolCallStatus.get? id)
    (haborted : ∀ id, id ≠ r.toolCallId →
    s'.pendingAbortedToolCalls.get? id = s.pendingAbortedToolCalls.get? id)
    (hanswered : r.toolCallId ∈ callIds done → (s'.toolCallStatus.get? r.toolCallId).isSome)
    (hclosed : s'.pendingAbortedToolCalls.get? r.toolCallId = none) :
    Windows (done ++ [.toolResult r]) rest s' := by
  have hturn : turnCallIds (done ++ [.toolResult r]) = turnCallIds done := by
    rw [turnCallIds_append]
    exact List.append_nil _
  have hcalls : callIds (done ++ [.toolResult r]) = callIds done := by simp
  rw [← hcalls] at hanswered
  refine ⟨?_, ?_, ?_⟩ <;> rw [hturn]
  · intro id hid hnone
    have hne : id ≠ r.toolCallId := by
      rintro rfl
      have := hanswered hid
      rw [hnone] at this
      cases this
    rw [hpending, haborted id hne]
    rw [hcalls] at hid
    refine (h.unanswered id hid ((hstatus id hne).symm.trans hnone)).imp_right fun hw =>
      hw.imp_right ?_
    rintro ⟨hrest, hturn⟩
    rw [resultIds_cons, resultIds_toolResult, List.singleton_append, List.mem_cons] at hrest
    exact ⟨hrest.resolve_left hne, hturn⟩
  · rw [hpending]
    exact h.pending
  · intro id call hget
    have hne : id ≠ r.toolCallId := by
      rintro rfl
      cases hclosed.symm.trans hget
    rw [haborted id hne] at hget
    rw [hcalls, hstatus id hne, htimestamp]
    exact h.aborted id call hget

theorem Core.pushAssistant {m : AssistantMessage Json}
    (hpaired : WellPaired (done ++ .assistant m :: rest)) (h : Core done (.assistant m :: rest) s) :
    Core (done ++ [.assistant m]) rest (s.push (.assistant m)) := by
  have h' := h.dropRest
  refine ⟨?_, fun id => ?_, h.placed.append nofun, fun id hid => ?_, h'.resolved, fun id hid => ?_,
    fun id hid hresult => ?_⟩
  · rw [List.filter_append, ← h.assistants]
    exact List.filter_append _ _
  · show (resultIds (s.result ++ [.assistant m])).count id = _
    rw [resultIds_append, resultIds_assistant, List.append_nil]
    exact h.results id
  · rw [callIds_append]
    exact List.mem_append_left _ (h.known id hid)
  · rw [turnCallIds_append, List.mem_append, not_or]
    refine ⟨h.aborted id hid, fun hm => ?_⟩
    have hknown := h.known id (Option.isSome_of_eq_some hid)
    have hnew := turnCallIds_subset _ hm
    rw [callIds_assistant] at hnew
    exact (hpaired.fresh hnew).1 hknown
  · rw [callIds_append, callIds_assistant, List.mem_append] at hid
    rw [resultIds_append, resultIds_assistant, List.append_nil] at hresult
    refine h.seen id (hid.resolve_right fun hm => ?_) hresult
    exact (hpaired.fresh hm).2 hresult

theorem find?_call {calls : List (ToolCall Json)} (h : (calls.map (·.id)).Nodup)
    {call : ToolCall Json} (hcall : call ∈ calls) : calls.find? (·.id = call.id) = some call := by
  induction calls with
  | nil => cases hcall
  | cons first calls ih =>
    rw [List.map_cons, List.nodup_cons] at h
    obtain rfl | hcall := List.mem_cons.mp hcall
    · exact List.find?_cons_of_pos (by simp)
    · have hne : first.id ≠ call.id := fun heq => h.1 (heq ▸ List.mem_map_of_mem hcall)
      rw [List.find?_cons_of_neg (by simpa using hne)]
      exact ih h.2 hcall

theorem get?_ofList_calls {calls : List (ToolCall Json)} (h : (calls.map (·.id)).Nodup)
    (id : String) :
    (InsertionMap.ofList (calls.map fun call => (call.id, call))).get? id = calls.find?
    (·.id = id) := by
  have hentries : ∀ e ∈ calls.map fun call =>
    (call.id, call), calls.find? (·.id = e.1) = some e.2 := by
    intro e he
    obtain ⟨call, hcall, rfl⟩ := List.mem_map.mp he
    exact find?_call h hcall
  rw [InsertionMap.ofList, InsertionMap.get?_setAll (f :=
    fun id => calls.find? (·.id = id)) _ hentries]
  split
  · rfl
  next hnot =>
    refine (List.find?_eq_none.mpr fun call hcall heq => hnot ?_).symm
    rw [← of_decide_eq_true heq]
    exact List.mem_map_of_mem (f := Prod.fst) (List.mem_map_of_mem hcall)

theorem Flushed.unanswered_assistant {m : AssistantMessage Json}
    (h : Flushed done (.assistant m :: rest) s) (hid : id ∈ callIds done)
    (hnone : s.toolCallStatus.get? id = none) :
    id ∈ resultIds rest ∧ id ∈ turnCallIds (done ++ [.assistant m]) := by
  obtain ⟨hrest, hturn⟩ := h.unanswered id hid hnone
  rw [turnCallIds_append]
  exact ⟨hrest, List.mem_append_left _ hturn⟩

theorem Flushed.abortedTurn {m : AssistantMessage Json}
    (hpaired : WellPaired (done ++ .assistant m :: rest)) (h : Flushed done (.assistant m :: rest) s)
    (haborted : m.isAborted = true) :
    Inv (done ++ [.assistant m]) rest
      { s.push (.assistant m) with
        pendingAbortedToolCalls := .ofList (m.toolCalls.map fun call => (call.id, call))
        pendingAbortedTimestamp := some m.timestamp } := by
  have hfind := get?_ofList_calls hpaired.calls_nodup
  refine ⟨(h.core.pushAssistant hpaired).of_eq rfl rfl, fun id hid hnone => ?_,
    fun id hid => ?_, fun id call hget => ?_⟩
  · rw [callIds_append, callIds_assistant, List.mem_append] at hid
    obtain hid | hid := hid
    · exact .inr (.inr (h.unanswered_assistant hid hnone))
    · obtain ⟨call, hcall, rfl⟩ := List.mem_map.mp hid
      refine .inr (.inl ?_)
      dsimp only
      rw [hfind, find?_call hpaired.calls_nodup hcall]
      rfl
  · change id ∈ s.pendingToolCalls.map (·.id) at hid
    rw [h.pendingToolCalls] at hid
    cases hid
  · have hfound := (hfind id).symm.trans hget
    have heq : call.id = id := by simpa using List.find?_some hfound
    have hid : id ∈ m.toolCalls.map (·.id) :=
      heq ▸ List.mem_map_of_mem (List.mem_of_find?_eq_some hfound)
    have hnew := (hpaired.fresh hid).1
    refine ⟨heq, by simp [hid], ?_, ?_, rfl⟩
    · rw [turnCallIds_append, turnCallIds_assistant, if_pos haborted, List.append_nil]
      exact fun hturn => hnew (turnCallIds_subset _ hturn)
    · by_contra hsome
      exact hnew (h.core.known id (Option.isSome_iff_ne_none.mpr hsome))

theorem Flushed.normalTurn {m : AssistantMessage Json}
    (hpaired : WellPaired (done ++ .assistant m :: rest)) (h : Flushed done (.assistant m :: rest) s)
    (haborted : m.isAborted = false) :
    Inv (done ++ [.assistant m]) rest ({ s with
      pendingToolCalls := m.toolCalls }.push (.assistant m)) := by
  refine ⟨(h.core.pushAssistant hpaired).of_eq rfl rfl, fun id hid hnone => ?_,
    fun id hid => ?_, fun id call hget => ?_⟩
  · rw [callIds_append, callIds_assistant, List.mem_append] at hid
    obtain hid | hid := hid
    · exact .inr (.inr (h.unanswered_assistant hid hnone))
    · exact .inl hid
  · rw [turnCallIds_append, turnCallIds_assistant, haborted]
    exact List.mem_append_right _ hid
  · cases (h.pendingAbortedToolCalls id).symm.trans hget

theorem Flushed.assistant {m : AssistantMessage Json}
    (hpaired : WellPaired (done ++ .assistant m :: rest))
    (h : Flushed done (.assistant m :: rest) s) :
    Inv (done ++ [.assistant m]) rest (s.assistant m) := by
  unfold SecondPass.assistant
  split
  next haborted => exact h.abortedTurn hpaired haborted
  next haborted =>
    have hpending : (if m.toolCalls.isEmpty then s else { s with pendingToolCalls := m.toolCalls }) =
        { s with pendingToolCalls := m.toolCalls } := by
      split
      next hempty =>
        have hcalls := h.pendingToolCalls
        rw [List.isEmpty_iff.mp hempty, ← hcalls]
      next => rfl
    dsimp only
    rw [hpending]
    exact h.normalTurn hpaired (Bool.not_eq_true _ ▸ haborted)

theorem Inv.answer {r : ToolResultMessage Json}
    (hpaired : WellPaired (done ++ .toolResult r :: rest)) (h : Inv done (.toolResult r :: rest) s)
    (hcall : r.toolCallId ∈ callIds (done ++ .toolResult r :: rest))
    (hnone : s.toolCallStatus.get? r.toolCallId = none)
    {pendingAborted : InsertionMap String (ToolCall Json)}
    (haborted : ∀ id, pendingAborted.get? id = if id = r.toolCallId then none
    else s.pendingAbortedToolCalls.get? id) :
    Inv (done ++ [.toolResult r]) rest
      { s.resolve r.toolCallId .resolved (.toolResult r) with
        pendingAbortedToolCalls := pendingAborted } := by
  obtain ⟨hdone, hrest⟩ := hpaired.answers hcall
  have hanswer : Answerable done rest r.toolCallId .resolved := by
    refine ⟨hdone, fun _ => hrest, fun h => ?_⟩
    cases h
  have hcore := h.core.dropRest.resolve hanswer hnone
  have hstatus : ∀ id, (s.resolve r.toolCallId .resolved (.toolResult r)).toolCallStatus.get? id =
      if id = r.toolCallId then some .resolved else s.toolCallStatus.get? id := fun id =>
      resolve_status s _ _ _
  have hsome : ((s.resolve r.toolCallId .resolved (.toolResult r)).toolCallStatus.get?
      r.toolCallId).isSome := by
    simp [hstatus]
  refine ⟨(hcore.pass rfl ?_).of_eq rfl rfl, h.windows.toolResult rfl rfl
    (fun id hne => ?_) (fun id hne => ?_) (fun _ => hsome) ?_⟩
  · intro id _ hid
    rw [List.mem_singleton.mp hid]
    exact hsome
  · exact (hstatus id).trans (if_neg hne)
  · exact (haborted id).trans (if_neg hne)
  · exact (haborted _).trans (if_pos rfl)

theorem orphan_cases (s : SecondPass Json) (r : ToolResultMessage Json) :
    s.orphan r = s ∨ s.pendingToolCalls = [] ∧ s.pendingAbortedToolCalls.entries = [] ∧
      ∃ content, s.orphan r = s.push (.user content r.timestamp) := by
  unfold SecondPass.orphan
  split
  · exact .inl rfl
  next hclosed =>
    dsimp only
    split
    · exact .inl rfl
    · simp only [Bool.or_eq_true, Bool.not_eq_true', List.isEmpty_eq_false_iff, not_or,
        not_not] at hclosed
      exact .inr ⟨hclosed.1, hclosed.2, _, rfl⟩

theorem Inv.toolResult_cases {r : ToolResultMessage Json} (h : Inv done (.toolResult r :: rest) s) :
    (r.toolCallId ∈ callIds (done ++ .toolResult r :: rest) ∧
      s.toolCallStatus.get? r.toolCallId = none ∧
      ∃ pendingAborted : InsertionMap String (ToolCall Json),
        (∀ id, pendingAborted.get? id = if id = r.toolCallId then none
          else s.pendingAbortedToolCalls.get? id) ∧
        s.toolResult (callIds (done ++ .toolResult r :: rest)) r =
          { s.resolve r.toolCallId .resolved (.toolResult r) with
            pendingAbortedToolCalls := pendingAborted }) ∨
    (s.pendingAbortedToolCalls.get? r.toolCallId = none ∧
      (r.toolCallId ∈ callIds done → (s.toolCallStatus.get? r.toolCallId).isSome) ∧
      (s.toolResult (callIds (done ++ .toolResult r :: rest)) r = s ∨
        s.pendingToolCalls = [] ∧ s.pendingAbortedToolCalls.entries = [] ∧
        ∃ content, s.toolResult (callIds (done ++ .toolResult r :: rest)) r =
          s.push (.user content r.timestamp))) := by
  unfold SecondPass.toolResult
  split
  next hpending =>
    obtain ⟨call, hget⟩ := Option.isSome_iff_exists.mp hpending
    obtain ⟨-, hcall, -, hnone, -⟩ := h.windows.aborted _ call hget
    refine .inl ⟨?_, hnone, _, fun id => InsertionMap.get?_erase _ _ _, rfl⟩
    rw [callIds_append]
    exact List.mem_append_left _ hcall
  next hpending =>
    have hclosed : s.pendingAbortedToolCalls.get? r.toolCallId = none := by simpa using hpending
    split
    next haborted => exact .inr ⟨hclosed, fun _ => by simp [haborted], .inl rfl⟩
    next haborted =>
      split
      next horphan =>
        exact .inr ⟨hclosed, fun hdone => absurd (by simp [hdone]) horphan, orphan_cases s r⟩
      next hvalid =>
        refine .inl ⟨not_not.mp hvalid, ?_, s.pendingAbortedToolCalls, fun id => ?_, rfl⟩
        · -- it is not resolved, as its only real result is this one
          cases hstatus : s.toolCallStatus.get? r.toolCallId with
          | none => rfl
          | some status =>
            cases status with
            | aborted => exact absurd hstatus haborted
            | resolved => exact absurd List.mem_cons_self (h.core.resolved _ hstatus)
        · split
          next heq => rw [heq, hclosed]
          next => rfl

theorem Inv.toolResult {r : ToolResultMessage Json}
    (hpaired : WellPaired (done ++ .toolResult r :: rest)) (h : Inv done (.toolResult r :: rest) s) :
    Inv (done ++ [.toolResult r]) rest
      (s.toolResult (callIds (done ++ .toolResult r :: rest)) r) := by
  obtain ⟨hcall, hnone, pendingAborted, haborted, heq⟩ | ⟨hclosed, hanswered, hleft⟩ :=
    h.toolResult_cases
  · rw [heq]
    exact h.answer hpaired hcall hnone haborted
  · have hcore : Core (done ++ [.toolResult r]) rest s := by
      refine h.core.dropRest.pass rfl fun id hid hr => ?_
      rw [List.mem_singleton.mp hr] at hid ⊢
      exact hanswered hid
    have hwindows : Windows (done ++ [.toolResult r]) rest s :=
      h.windows.toolResult rfl rfl (fun _ _ => rfl) (fun _ _ => rfl) hanswered hclosed
    obtain heq | ⟨-, -, content, heq⟩ := hleft
    · rw [heq]
      exact ⟨hcore, hwindows⟩
    · rw [heq]
      refine ⟨hcore.pushNotes [.user content r.timestamp] ?_ rfl rfl, hwindows.unanswered,
        hwindows.pending, hwindows.aborted⟩
      intro message hmem
      rw [List.mem_singleton.mp hmem]
      exact ⟨rfl, rfl⟩

theorem Inv.step {message : Message Json} (hpaired : WellPaired (done ++ message :: rest))
    (h : Inv done (message :: rest) s) :
    Inv (done ++ [message]) rest
      (s.step (resultIds (done ++ message :: rest)) (callIds (done ++ message :: rest))
        message) := by
  cases message with
  | assistant m => exact (h.core.flush h.windows m.timestamp).assistant hpaired
  | toolResult r => exact h.toolResult hpaired
  | user content timestamp => exact (h.core.flush h.windows timestamp).note rfl rfl
  | developer content timestamp => exact (h.core.flush h.windows timestamp).note rfl rfl

theorem Inv.foldl {next : List (Message Json)} (hpaired : WellPaired (done ++ (next ++ rest)))
    (h : Inv done (next ++ rest) s) :
    Inv (done ++ next) rest
      (next.foldl (SecondPass.step (resultIds (done ++ (next ++ rest)))
        (callIds (done ++ (next ++ rest)))) s) := by
  induction next generalizing done s with
  | nil => simpa using h
  | cons message next ih =>
    have hsplit : done ++ (message :: next ++ rest) = (done ++ [message]) ++ (next ++ rest) := by
      simp
    rw [List.append_cons]
    rw [List.cons_append] at h hpaired hsplit ⊢
    have hnext := h.step hpaired
    rw [hsplit] at hpaired hnext ⊢
    exact ih hpaired hnext

theorem Inv.init (messages : List (Message Json)) : Inv [] messages SecondPass.init := by
  refine ⟨⟨rfl, fun _ => rfl, fun before r after heq => ?_, nofun, nofun, nofun, nofun⟩,
    nofun, nofun, nofun⟩
  exact absurd heq (List.append_ne_nil_of_right_ne_nil _ (List.cons_ne_nil _ _)).symm

theorem Inv.run {rest : List (Message Json)} (hpaired : WellPaired (done ++ rest)) :
    Inv done rest
      (done.foldl (SecondPass.step (resultIds (done ++ rest)) (callIds (done ++ rest)))
        SecondPass.init) := by
  have hpaired' : WellPaired ([] ++ (done ++ rest)) := hpaired
  exact (Inv.init (done ++ rest)).foldl hpaired'

end SecondPass

/-- Every tool call has one result, which stands after it, and there are no other results. -/
structure Paired (messages : List (Message Json)) : Prop where
  once : ∀ id ∈ callIds messages, (resultIds messages).count id = 1
  placed : Placed messages

theorem secondPass_paired (now : Int) {transformed : List (Message Json)}
    (h : WellPaired transformed) :
    Paired (secondPass now transformed) ∧
    (secondPass now transformed).filter Message.isAssistant = transformed.filter Message.isAssistant := by
  have h' : WellPaired (transformed ++ []) := (List.append_nil transformed).symm ▸ h
  have hinv := SecondPass.Inv.run h'
  have hflushed := hinv.core.flush hinv.windows now
  simp only [List.append_nil] at hflushed
  refine ⟨⟨fun id hid => ?_, hflushed.core.placed⟩, hflushed.core.assistants⟩
  rw [secondPass, hflushed.core.results, if_pos]
  by_contra hnone
  have hcall := hflushed.core.callIds_result ▸ hid
  have hnone := Option.not_isSome_iff_eq_none.mp hnone
  cases (hflushed.unanswered id hcall hnone).1

end JevCode.Ai
