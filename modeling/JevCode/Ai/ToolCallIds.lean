import JevCode.Ai.TransformMessagesLaws

namespace JevCode.Ai

open JevCode.Data

variable {Json : Type} {options : TransformOptions Json}

def idRenaming (options : TransformOptions Json) (messages : List (Message Json)) :
    List (String × String) :=
  messages.flatMap fun
    | .assistant m => m.toolCalls.map fun call => (call.id, options.toolCallId m call.id)
    | _ => []

def sentCallIds (options : TransformOptions Json) (messages : List (Message Json)) : List String :=
  (idRenaming options messages).map Prod.snd

def sentResultId (options : TransformOptions Json) (messages : List (Message Json))
    (id : String) : String :=
  match (idRenaming options messages).lookup id with
  | some sent => if sent ≠ "" then sent else id
  | none => id

/-- The normalised ids are distinct, and a result is sent under the id of no call but its own. -/
structure Normalised (options : TransformOptions Json) (messages : List (Message Json)) : Prop where
  injective : (sentCallIds options messages).Nodup
  collisionFree : ∀ id ∈ resultIds messages, sentResultId options messages id ∈
    sentCallIds options messages →
    (id, sentResultId options messages id) ∈ idRenaming options messages

inductive SentAs (options : TransformOptions Json) (all : List (Message Json)) :
    Message Json → Message Json → Prop
  | assistant {m m' : AssistantMessage Json}
      (hcalls : m'.toolCalls.map (·.id) = m.toolCalls.map fun call => options.toolCallId m call.id)
      (haborted : m'.isAborted = m.isAborted) : SentAs options all (.assistant m) (.assistant m')
  | toolResult {r r' : ToolResultMessage Json}
    (hid : r'.toolCallId = sentResultId options all r.toolCallId) :
      SentAs options all (.toolResult r) (.toolResult r')
  | user (content : UserContent Json) (timestamp : Int) :
      SentAs options all (.user content timestamp) (.user content timestamp)
  | developer (content : UserContent Json) (timestamp : Int) :
      SentAs options all (.developer content timestamp) (.developer content timestamp)

theorem idRenaming_append (xs ys : List (Message Json)) :
    idRenaming options (xs ++ ys) = idRenaming options xs ++ idRenaming options ys :=
  List.flatMap_append

theorem idRenaming_fst (options : TransformOptions Json) (messages : List (Message Json)) :
    (idRenaming options messages).map Prod.fst = callIds messages := by
  unfold idRenaming callIds
  rw [List.map_flatMap]
  congr 1
  funext message
  cases message with
  | assistant m => simp
  | _ => rfl

section Assistant

variable (m : AssistantMessage Json) (latest : Bool)

def toolCallsOf (blocks : List (AssistantBlock Json)) : List (ToolCall Json) :=
  blocks.filterMap fun
    | .toolCall call => some call
    | _ => none

theorem toolCallsOf_collapseAdjacentThinking (previous : Bool)
    (blocks : List (AssistantBlock Json)) :
    toolCallsOf (collapseAdjacentThinking previous blocks) = toolCallsOf blocks := by
  induction blocks generalizing previous with
  | nil => rfl
  | cons block blocks ih =>
    cases block with
    | thinking thinking signature =>
      rw [collapseAdjacentThinking]
      split
      · exact ih true
      · exact ih true
    | redactedThinking data => exact ih false
    | text text signature => exact ih false
    | toolCall call => exact congrArg (call :: ·) (ih false)

theorem toolCallsOf_transformBlock (block : AssistantBlock Json) :
    toolCallsOf (options.transformBlock m latest block) =
      (toolCallsOf [block]).map (options.transformToolCall m) := by
  cases block with
  | thinking thinking signature =>
    unfold TransformOptions.transformBlock
    dsimp only
    split_ifs <;> rfl
  | redactedThinking data =>
    unfold TransformOptions.transformBlock
    dsimp only
    split_ifs <;> rfl
  | text text signature =>
    unfold TransformOptions.transformBlock
    dsimp only
    split_ifs <;> rfl
  | toolCall call => rfl

theorem toolCallsOf_flatMap (blocks : List (AssistantBlock Json)) :
    toolCallsOf (blocks.flatMap (options.transformBlock m latest)) =
      (toolCallsOf blocks).map (options.transformToolCall m) := by
  induction blocks with
  | nil => rfl
  | cons block blocks ih =>
    have happend : ∀ xs ys : List (AssistantBlock Json), toolCallsOf (xs ++ ys) = toolCallsOf xs ++
        toolCallsOf ys :=
      fun xs ys => List.filterMap_append
    rw [List.flatMap_cons, happend, ih, toolCallsOf_transformBlock, ← List.map_append, ← happend,
      List.singleton_append]

theorem toolCalls_transformAssistant :
    (options.transformAssistant m latest).toolCalls = m.toolCalls.map
    (options.transformToolCall m) := by
  show toolCallsOf (if _ then _ else _) = _
  split
  · rw [toolCallsOf_collapseAdjacentThinking]
    exact toolCallsOf_flatMap m latest m.content
  · exact toolCallsOf_flatMap m latest m.content

theorem sentAs_assistant (all : List (Message Json)) :
    SentAs options all (.assistant m) (.assistant (options.transformAssistant m latest)) := by
  refine .assistant ?_ rfl
  rw [toolCalls_transformAssistant, List.map_map]
  rfl

end Assistant

def MapsIds (options : TransformOptions Json) (done : List (Message Json))
    (map : InsertionMap String String) : Prop :=
  ∀ id sent, map.get? id = some sent ↔ (id, sent) ∈ idRenaming options done ∧ sent ≠ id

theorem mapToolCallIds_get? (m : AssistantMessage Json) {calls : List (ToolCall Json)}
    (hcalls : (calls.map (·.id)).Nodup) {map : InsertionMap String String}
    (hfresh : ∀ call ∈ calls, map.get? call.id = none) (id sent : String) :
    (calls.foldl (fun map call =>
      if options.toolCallId m call.id ≠ call.id then map.set call.id (options.toolCallId m call.id)
        else map) map).get? id =
        some sent ↔
      map.get? id = some sent ∨
        (id, sent) ∈ calls.map
        (fun call => (call.id, options.toolCallId m call.id)) ∧ sent ≠ id := by
  induction calls generalizing map with
  | nil => simp
  | cons call calls ih =>
    rw [List.map_cons, List.nodup_cons] at hcalls
    have hne : ∀ c ∈ calls, c.id ≠ call.id := fun c hc heq => hcalls.1 (heq ▸ List.mem_map_of_mem hc)
    have hnone := hfresh call List.mem_cons_self
    rw [List.foldl_cons, ih hcalls.2]
    · rw [List.map_cons, List.mem_cons, Prod.mk.injEq]
      by_cases hsame : options.toolCallId m call.id = call.id
      · rw [if_neg (not_not.mpr hsame), hsame]
        grind
      · rw [if_pos hsame, InsertionMap.get?_set]
        grind
    · intro c hc
      split
      · rw [InsertionMap.get?_set, if_neg (hne c hc)]
        exact hfresh c (List.mem_cons_of_mem _ hc)
      · exact hfresh c (List.mem_cons_of_mem _ hc)

theorem MapsIds.mem_callIds {done : List (Message Json)} {map : InsertionMap String String}
    (h : MapsIds options done map) {id sent : String} (hget : map.get? id = some sent) :
    id ∈ callIds done := by
  rw [← idRenaming_fst options]
  exact List.mem_map_of_mem (f := Prod.fst) ((h id sent).mp hget).1

theorem MapsIds.assistant {done rest : List (Message Json)} {m : AssistantMessage Json}
    {map : InsertionMap String String} (hpaired : WellPaired (done ++ .assistant m :: rest))
    (h : MapsIds options done map) :
    MapsIds options (done ++ [.assistant m]) (options.mapToolCallIds m map) := by
  intro id sent
  have hm : idRenaming options [.assistant m] = m.toolCalls.map fun call =>
    (call.id, options.toolCallId m call.id) := by
    simp [idRenaming]
  rw [TransformOptions.mapToolCallIds, mapToolCallIds_get? m hpaired.calls_nodup, h id sent,
    idRenaming_append, hm, List.mem_append, or_and_right]
  intro call hcall
  by_contra hsome
  obtain ⟨sent, hget⟩ := Option.ne_none_iff_exists'.mp hsome
  exact (hpaired.fresh (List.mem_map_of_mem hcall)).1 (h.mem_callIds hget)

theorem MapsIds.pass {done : List (Message Json)} {map : InsertionMap String String}
    {message : Message Json} (h : MapsIds options done map)
    (hmessage : message.isAssistant = false) :
    MapsIds options (done ++ [message]) map := by
  have hnone : idRenaming options [message] = [] := by
    cases message with
    | assistant m => cases hmessage
    | _ => rfl
  intro id sent
  rw [idRenaming_append, hnone, List.append_nil]
  exact h id sent

theorem mem_idRenaming {messages : List (Message Json)} (h : (callIds messages).Nodup)
    {id sent : String} :
    (id, sent) ∈ idRenaming options messages ↔
    (idRenaming options messages).lookup id = some sent := by
  rw [← idRenaming_fst options] at h
  exact InsertionMap.mem_entries (m := ⟨_, h⟩)

theorem renameResult_toolCallId {done rest : List (Message Json)} {r : ToolResultMessage Json}
    {map : InsertionMap String String} (hpaired : WellPaired (done ++ .toolResult r :: rest))
    (h : MapsIds options done map) :
    (renameResult map r).toolCallId = sentResultId options
    (done ++ .toolResult r :: rest) r.toolCallId := by
  have hlookup : ∀ sent, (r.toolCallId, sent) ∈ idRenaming options (done ++ .toolResult r :: rest) ↔
      _ :=
    fun sent => mem_idRenaming hpaired.distinct
  unfold renameResult sentResultId
  cases hget : map.get? r.toolCallId with
  | some sent =>
    have hmem := ((h _ _).mp hget).1
    rw [(hlookup sent).mp (by simp [idRenaming_append, hmem])]
    dsimp only
    split <;> rfl
  | none =>
    cases hsent : (idRenaming options (done ++ .toolResult r :: rest)).lookup r.toolCallId with
    | none => rfl
    | some sent =>
      have hall := (hlookup sent).mpr hsent
      have hcall : r.toolCallId ∈ callIds (done ++ .toolResult r :: rest) := by
        rw [← idRenaming_fst options]
        exact List.mem_map_of_mem (f := Prod.fst) hall
      have hdone := (hpaired.answers hcall).1
      rw [← idRenaming_fst options] at hdone
      obtain ⟨⟨id, sent'⟩, hmem, hid⟩ := List.mem_map.mp hdone
      obtain rfl : id = r.toolCallId := hid
      have heq := (hlookup sent').mp (by simp [idRenaming_append, hmem])
      obtain rfl : sent' = sent := Option.some.inj (heq.symm.trans hsent)
      have hsame : sent' = r.toolCallId := by
        by_contra hne
        cases hget.symm.trans ((h _ _).mpr ⟨hmem, hne⟩)
      dsimp only
      split
      · exact hsame.symm
      · rfl

theorem firstPass_sentAs (latest : Option Nat) {done rest : List (Message Json)}
    (hpaired : WellPaired (done ++ rest)) {map : InsertionMap String String}
    (h : MapsIds options done map) (index : Nat) :
    List.Forall₂ (SentAs options (done ++ rest)) rest (firstPass options latest index map rest) := by
  induction rest generalizing done map index with
  | nil => exact .nil
  | cons message rest ih =>
    have hsplit : done ++ message :: rest = (done ++ [message]) ++ rest := by simp
    have hnext := fun map' (h' : MapsIds options (done ++ [message]) map') =>
      hsplit ▸ ih (hsplit ▸ hpaired) h' (index + 1)
    cases message with
    | assistant m => exact .cons (sentAs_assistant m _ _) (hnext _ (h.assistant hpaired))
    | toolResult r =>
      exact .cons (.toolResult (renameResult_toolCallId hpaired h)) (hnext _ (h.pass rfl))
    | user content timestamp => exact .cons (.user content timestamp) (hnext _ (h.pass rfl))
    | developer content timestamp =>
      exact .cons (.developer content timestamp) (hnext _ (h.pass rfl))

theorem forall₂_split {α β : Type} {R : α → β → Prop} {xs : List α} {before : List β} {y : β}
    {after : List β} (h : List.Forall₂ R xs (before ++ y :: after)) :
    ∃ before' x after', xs = before' ++ x :: after' ∧ List.Forall₂ R before' before ∧ R x y ∧
      List.Forall₂ R after' after := by
  induction before generalizing xs with
  | nil =>
    obtain ⟨x, xs, hx, hxs, rfl⟩ := List.forall₂_cons_right_iff.mp h
    exact ⟨[], x, xs, rfl, .nil, hx, hxs⟩
  | cons b before ih =>
    obtain ⟨x, xs, hx, hxs, rfl⟩ := List.forall₂_cons_right_iff.mp h
    obtain ⟨before', x', after', rfl, hbefore, hx', hafter⟩ := ih hxs
    exact ⟨x :: before', x', after', rfl, .cons hx hbefore, hx', hafter⟩

section Sent

variable {all xs ys : List (Message Json)}

theorem callIds_sent (h : List.Forall₂ (SentAs options all) xs ys) :
    callIds ys = sentCallIds options xs := by
  induction h with
  | nil => rfl
  | @cons x y xs ys hxy h ih =>
    have hcons : sentCallIds options (x :: xs) = sentCallIds options [x] ++
        sentCallIds options xs := by
      rw [sentCallIds, ← List.singleton_append, idRenaming_append, List.map_append]
      rfl
    rw [callIds_cons, hcons, ih]
    cases hxy with
    | @assistant m m' hcalls =>
      rw [callIds_assistant, hcalls]
      simp [sentCallIds, idRenaming]
    | _ => rfl

theorem resultIds_sent (h : List.Forall₂ (SentAs options all) xs ys) :
    resultIds ys = (resultIds xs).map (sentResultId options all) := by
  induction h with
  | nil => rfl
  | @cons x y xs ys hxy h ih =>
    rw [resultIds_cons, resultIds_cons x, List.map_append, ih]
    cases hxy with
    | toolResult hid => simp [hid]
    | _ => rfl

theorem Normalised.own (h : Normalised options all) {id id' : String} (hid : id ∈ resultIds all)
    (hcall : (id', sentResultId options all id) ∈ idRenaming options all) : id = id' := by
  have hown := h.collisionFree id hid (List.mem_map_of_mem (f := Prod.snd) hcall)
  exact congrArg Prod.fst (List.inj_on_of_nodup_map h.injective hown hcall rfl)

theorem Normalised.once (hpaired : WellPaired all) (h : Normalised options all) {sent : String}
    (hsent : sent ∈ sentCallIds options all) :
    ((resultIds all).map (sentResultId options all)).count sent ≤ 1 := by
  obtain ⟨⟨id, sent⟩, hcall, rfl⟩ := List.mem_map.mp hsent
  have hid : id ∈ callIds all := by
    rw [← idRenaming_fst options]
    exact List.mem_map_of_mem (f := Prod.fst) hcall
  refine le_trans ?_ (hpaired.once id hid)
  rw [List.count, List.countP_map]
  refine List.countP_mono_left fun id' hid' heq => ?_
  have heq : sentResultId options all id' = sent := by simpa using heq
  simp [h.own hid' (heq ▸ hcall)]

theorem Normalised.after (hpaired : WellPaired all) (h : Normalised options all)
    (hsent : List.Forall₂ (SentAs options all) all ys) : ResultsAfterCalls ys := by
  rintro before' r' after' rfl hcall
  rw [callIds_sent hsent] at hcall
  obtain ⟨before, message, after, heq, hbefore, hmessage, hafter⟩ := forall₂_split hsent
  cases hmessage with
  | @toolResult r _ hid =>
    have hresult : r.toolCallId ∈ resultIds all := mem_resultIds.mpr ⟨before, r, after, heq, rfl⟩
    rw [hid] at hcall ⊢
    have hown := h.collisionFree _ hresult hcall
    have hdone : r.toolCallId ∈ callIds before := by
      refine hpaired.after before r after heq ?_
      rw [← idRenaming_fst options]
      exact List.mem_map_of_mem (f := Prod.fst) hown
    rw [← idRenaming_fst options] at hdone
    obtain ⟨⟨_, sent⟩, hmem, rfl⟩ := List.mem_map.mp hdone
    have hsame : sent = sentResultId options all r.toolCallId := by
      have hall : (r.toolCallId, sent) ∈ idRenaming options all := by
        rw [heq, idRenaming_append]
        exact List.mem_append_left _ hmem
      rw [mem_idRenaming hpaired.distinct] at hall hown
      exact Option.some.inj (hall.symm.trans hown)
    rw [callIds_sent hbefore, ← hsame]
    exact List.mem_map_of_mem (f := Prod.snd) hmem

theorem Normalised.wellPaired (hpaired : WellPaired all) (h : Normalised options all)
    (hsent : List.Forall₂ (SentAs options all) all ys) : WellPaired ys := by
  refine ⟨?_, fun id hid => ?_, h.after hpaired hsent⟩
  · rw [callIds_sent hsent]
    exact h.injective
  · rw [callIds_sent hsent] at hid
    rw [resultIds_sent hsent]
    exact h.once hpaired hid

end Sent

theorem firstPass_wellPaired {messages : List (Message Json)} (hpaired : WellPaired messages)
    (h : Normalised options messages) (latest : Option Nat) :
    WellPaired (firstPass options latest 0 .empty messages) ∧
    List.Forall₂ (SentAs options messages) messages
      (firstPass options latest 0 .empty messages) := by
  have hmap : MapsIds options [] .empty := by
    intro id sent
    simp [idRenaming]
  have hpaired' : WellPaired ([] ++ messages) := hpaired
  have hsent := firstPass_sentAs latest hpaired' hmap 0
  exact ⟨h.wellPaired hpaired hsent, hsent⟩

/-- Every tool call is sent with one result, which stands after it, and no other results are sent. -/
theorem calls_are_sent_with_one_result (options : TransformOptions Json) (now : Int)
    {messages : List (Message Json)} (hpaired : WellPaired messages)
    (h : Normalised options messages) :
    Paired (transformMessages options now messages) ∧
    callIds (transformMessages options now messages) = sentCallIds options messages := by
  obtain ⟨hwell, hsent⟩ := firstPass_wellPaired hpaired h (latestAssistantIndex messages)
  obtain ⟨hresult, hassistants⟩ := secondPass_paired now hwell
  exact ⟨hresult, (callIds_eq_of_assistants hassistants).trans (callIds_sent hsent)⟩

section Examples

def toolUse (id : String) : ToolCall Unit :=
  { id := id, name := "bash", arguments := (), thoughtSignature := none }

def turn (stopReason : StopReason) (ids : List String) (timestamp : Int) : Message Unit :=
  .assistant
    { content := ids.map fun id => .toolCall (toolUse id)
      api := "openai-responses", provider := "openai", model := "gpt-5", stopReason :=
      stopReason, timestamp := timestamp }

def resultOf (id : String) (timestamp : Int) : Message Unit :=
  .toolResult { toolCallId := id, toolName := "bash", content := [.text "ok"], isError := false, timestamp := timestamp }

def toAnthropic (normalize : Option (String → String)) : TransformOptions Unit where
  model := { id := "claude", api := "anthropic-messages", provider := "anthropic" }
  normalizeToolCallId := normalize.map fun f id _ => f id
  repairLatestAssistantThinking := false
  repairAllAssistantThinking := false

def interruptedSession : List (Message Unit) :=
  [.user (.text "go") 0, turn .toolUse ["a", "b"] 1, resultOf "b" 2, .developer (.text "note") 3,
    resultOf "a" 4, turn .aborted ["c"] 5, resultOf "gone" 6, .user (.text "again") 7,
    resultOf "c" 8, turn .toolUse ["d"] 9]

theorem interrupted_session_is_sent_paired :
    Paired (transformMessages (toAnthropic (some ("call_" ++ ·))) 10 interruptedSession) ∧
    callIds (transformMessages (toAnthropic (some ("call_" ++ ·))) 10 interruptedSession) =
      ["call_a", "call_b", "call_c", "call_d"] := by
  have hpaired : WellPaired interruptedSession :=
    ⟨by decide +kernel, by decide +kernel, by decide +kernel⟩
  have h : Normalised (toAnthropic (some ("call_" ++ ·))) interruptedSession :=
    ⟨by decide +kernel, by decide +kernel⟩
  obtain ⟨hresult, hcalls⟩ := calls_are_sent_with_one_result _ 10 hpaired h
  exact ⟨hresult, hcalls.trans (by decide +kernel)⟩

end Examples

end JevCode.Ai
