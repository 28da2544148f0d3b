import JevCode.Session.EntryTokens
import JevCode.Session.StalenessExact

/-! `pruning.ts`: dropping the arguments of edits that later edits have made stale. A call is named
by the position of its entry and its own position in the message; its arguments are changed in place.
-/

namespace JevCode.Session

open JevCode.Text JevCode.Data

section Groups

def sortStrings (strings : List String) : List String := strings.mergeSort fun a b =>
  units a ≤ units b

def pathGroupKey (group : List String) : List String := sortStrings group

def pathHintsForGroups (groups : List (List String)) : List String :=
  sortStrings groups.flatten.dedup

def prunedToolArguments (pathHints : List String) (originalChars prunedAt : Nat) : Json :=
  .obj [("pruned", .bool true), ("reason", .str "stale_tool_arguments"),
    ("pathHints", .arr (pathHints.map .str)), ("originalChars", .num originalChars),
    ("prunedAt", .num prunedAt)]

def isPrunedToolArgumentsSentinel (value : Json) : Bool :=
  (value.get? "pruned").bind Json.bool? = some true && (value.get? "reason").bind Json.str? =
    some "stale_tool_arguments"

def isEditToolCall (call : ToolCall) : Bool :=
  call.name ∈ editToolNames || call.customWireName = some "apply_patch"

end Groups

section Index

structure Mutation where
  index : Nat
  callId : String

structure ArgumentStalenessIndex where
  latestSuccessfulMutationByPathGroup : InsertionMap (List String) Mutation
  failedCallIds : List String

def mutationGroups (call : ToolCall) (message : ToolResultMessage) : List (List String) :=
  let detailFiles := if call.name = "ast_edit" then resultDetailFiles message else []
  if detailFiles ≠ [] then detailFiles.map fun file => [file] else editToolPathGroups call

def groupSucceeded (message : ToolResultMessage) (group : List String) : Bool :=
  match successfulEditPaths message with
  | some succeeded => group.any (· ∈ succeeded)
  | none => true

def setGroups (latest : InsertionMap (List String) Mutation) (groups : List (List String))
    (mutation : Mutation) :
    InsertionMap (List String) Mutation :=
  groups.foldl (fun m group => m.set (pathGroupKey group) mutation) latest

def ArgumentStalenessIndex.add (calls : InsertionMap String ToolCall)
    (index : ArgumentStalenessIndex) (item : Entry × Nat) : ArgumentStalenessIndex :=
  match getToolResultMessage item.1 with
  | none => index
  | some message =>
    match calls.get? message.toolCallId with
    | none => index
    | some call =>
      if !isEditToolCall call || mutationGroups call message = [] then index
      else if message.isError then { index with failedCallIds := index.failedCallIds ++ [call.id] }
      else
        let mutated := (mutationGroups call message).filter (groupSucceeded message)
        { latestSuccessfulMutationByPathGroup :=
            setGroups index.latestSuccessfulMutationByPathGroup mutated ⟨item.2, call.id⟩
          failedCallIds :=
            if mutated = [] then index.failedCallIds ++ [call.id] else index.failedCallIds }

def buildAssistantArgumentStalenessIndex (entries : List Entry) : ArgumentStalenessIndex :=
  entries.zipIdx.foldl (ArgumentStalenessIndex.add (callsById entries)) ⟨.empty, []⟩

end Index

section Prune

variable (numberText : ℚ → List Char)

structure ArgumentCandidate where
  position : Nat
  call : ToolCall
  pathHints : List String
  originalChars : Nat

def ArgumentCandidate.pruned (candidate : ArgumentCandidate) (prunedAt : Nat) : ToolCall :=
  { candidate.call with
    arguments := prunedToolArguments candidate.pathHints candidate.originalChars prunedAt }

def argumentCandidate (index : ArgumentStalenessIndex) (insideProtectWindow : Bool) (i : Nat)
    (item : AssistantContent × Nat) : Option ArgumentCandidate :=
  match item.1 with
  | .toolCall call =>
    if !isEditToolCall call || isPrunedToolArgumentsSentinel call.arguments then none
    else if insideProtectWindow || call.id ∈ index.failedCallIds then none
    else
      let groups := editToolPathGroups call
      let isStale := groups.all fun group =>
        (index.latestSuccessfulMutationByPathGroup.get? (pathGroupKey group)).any fun latest =>
          i < latest.index && latest.callId ≠ call.id
      if groups = [] || !isStale then none
      else some ⟨item.2, call, pathHintsForGroups groups,
        ((call.arguments.text numberText).flatMap charUnits).length⟩
  | _ => none

/-- The candidates by entry, from the newest entry below `k` back, with the tokens of the assistant
messages after it. -/
def argumentCandidatesFrom (entries : List Entry) (config : PruneConfig)
    (index : ArgumentStalenessIndex) (fenceStart : Option Nat) :
    Nat → Nat → List (Nat × List ArgumentCandidate)
  | 0, _ => []
  | i + 1, accumulatedTokens =>
    match entries[i]? with
    | some entry =>
      if fenceStart.any (· ≤ i) then argumentCandidatesFrom entries config index fenceStart i
        accumulatedTokens
      else match entry.body with
      | .message ⟨.assistant, .assistant content⟩ =>
        let insideProtectWindow : Bool := (accumulatedTokens : Int) < config.protectTokens
        let candidates :=
          content.zipIdx.filterMap (argumentCandidate numberText index insideProtectWindow i)
        let rest := argumentCandidatesFrom entries config index fenceStart i
          (accumulatedTokens + estimateEntryTokens numberText entry)
        if candidates = [] then rest else (i, candidates) :: rest
      | _ => argumentCandidatesFrom entries config index fenceStart i accumulatedTokens
    | none => argumentCandidatesFrom entries config index fenceStart i accumulatedTokens

def mapContent (f : AssistantContent × Nat → AssistantContent) (entry : Entry) : Entry :=
  match entry.body with
  | .message ⟨.assistant, .assistant content⟩ =>
    { entry with body := .message ⟨.assistant, .assistant (content.zipIdx.map f)⟩ }
  | _ => entry

def stagedEntry (candidates : List ArgumentCandidate) (prunedAt : Nat) (entry : Entry) : Entry :=
  let byCallId :=
    InsertionMap.ofList (candidates.map fun candidate => (candidate.call.id, candidate))
  mapContent (fun item =>
    match item.1 with
    | .toolCall call =>
      match byCallId.get? call.id with
      | some candidate =>
        .toolCall { call with
          arguments := prunedToolArguments candidate.pathHints candidate.originalChars prunedAt }
      | none => item.1
    | _ => item.1) entry

def argumentSavings (entries : List Entry) (prunedAt : Nat)
    (group : Nat × List ArgumentCandidate) : Nat :=
  (entries[group.1]?.map fun entry =>
    estimateEntryTokens numberText entry -
      estimateEntryTokens numberText (stagedEntry group.2 prunedAt entry)).getD 0

def prunedEntry (candidates : List ArgumentCandidate) (prunedAt : Nat) (entry : Entry) : Entry :=
  mapContent (fun item =>
    match candidates.find? fun candidate => candidate.position = item.2 with
    | some candidate => .toolCall (candidate.pruned prunedAt)
    | none => item.1) entry

structure AssistantArgumentPruneResult where
  argumentPrunedCount : Nat
  argumentTokensSaved : Nat
  prunedEntries : List Entry

def pruneAssistantToolArguments (config : PruneConfig) (prunedAt : Nat) (entries : List Entry) :
    List Entry × AssistantArgumentPruneResult :=
  let groups :=
    argumentCandidatesFrom numberText entries config (buildAssistantArgumentStalenessIndex entries)
    (recentTurnFenceStart entries (config.protectRecentTurns.getD 2)) entries.length 0
  let admittedGroups := groups.filter fun group =>
    argumentSavings numberText entries prunedAt group ≠ 0
  let argumentTokensSaved := (admittedGroups.map (argumentSavings numberText entries prunedAt)).sum
  if groups = [] ∨ (argumentTokensSaved : Int) < config.minimumSavings ∨
    admittedGroups = [] then (entries, ⟨0, 0, []⟩)
  else
    let after := entries.zipIdx.map fun item =>
      match admittedGroups.lookup item.2 with
      | some candidates => prunedEntry candidates prunedAt item.1
      | none => item.1
    (after, ⟨(admittedGroups.map fun group => group.2.length).sum, argumentTokensSaved,
      admittedGroups.filterMap fun group => after[group.1]?⟩)

end Prune

variable {entries after : List Entry} {config : PruneConfig} {i j n : Nat} {call : ToolCall}

section Groups

theorem mem_of_pathGroupKey_eq {group group' : List String} {path : String}
    (h : pathGroupKey group = pathGroupKey group') (hpath : path ∈ group) : path ∈ group' := by
  have hsorted : path ∈ pathGroupKey group := List.mem_mergeSort.mpr hpath
  rw [h] at hsorted
  exact List.mem_mergeSort.mp hsorted

theorem get?_setGroups (latest : InsertionMap (List String) Mutation) (groups : List (List String))
    (mutation : Mutation) (key : List String) :
    (setGroups latest groups mutation).get? key = if key ∈ groups.map pathGroupKey then some mutation
      else latest.get? key := by
  induction groups generalizing latest with
  | nil => simp [setGroups]
  | cons group groups ih =>
    rw [show setGroups latest (group :: groups) mutation =
      setGroups (latest.set (pathGroupKey group) mutation) groups mutation
      from rfl, ih, InsertionMap.get?_set]
    by_cases hmem : key ∈ groups.map pathGroupKey
    · simp [hmem]
    · by_cases hkey : key = pathGroupKey group
      · simp [hkey]
      · simp [hmem, hkey]

end Groups

section Mutations

def Mutates (entries : List Entry) (j : Nat) (call : ToolCall) (group : List String) : Prop :=
  ∃ message, resultAt entries j = some message ∧
    (callsById entries).get? message.toolCallId = some call ∧
    isEditToolCall call = true ∧ message.isError = false ∧
    ∃ changed ∈ mutationGroups call message, groupSucceeded message changed = true ∧
      pathGroupKey changed = pathGroupKey group

/-- The mutation is the last one of the files that `key` stands for, after the first `n` entries. -/
structure LatestSound (entries : List Entry) (n : Nat) (index : ArgumentStalenessIndex) : Prop where
  mutates : ∀ group mutation, index.latestSuccessfulMutationByPathGroup.get? (pathGroupKey group) =
    some mutation →
    ∃ call, call.id = mutation.callId ∧ Mutates entries mutation.index call group
  last : ∀ j < n, ∀ call group, Mutates entries j call group →
    ∃ mutation, index.latestSuccessfulMutationByPathGroup.get? (pathGroupKey group) = some mutation ∧
      (j < mutation.index ∨ j = mutation.index ∧ call.id = mutation.callId)

theorem LatestSound.empty : LatestSound entries 0 ⟨.empty, []⟩ where
  mutates _ _ h := by cases h
  last _ h := by cases h

theorem LatestSound.skip {index : ArgumentStalenessIndex} (h : LatestSound entries n index)
    (hnone : ∀ call group, ¬ Mutates entries n call group) : LatestSound entries (n + 1) index where
  mutates := h.mutates
  last j hj call group hmutates := by
    rcases Nat.lt_succ_iff_lt_or_eq.mp hj with hj | rfl
    · exact h.last j hj call group hmutates
    · exact absurd hmutates (hnone call group)

theorem mutates_iff_of_answer {message : ToolResultMessage} {call' : ToolCall} {group : List String}
    (hresult : resultAt entries n = some message)
    (hcall : (callsById entries).get? message.toolCallId = some call) :
    Mutates entries n call' group ↔ call' = call ∧ isEditToolCall call = true ∧
      message.isError = false ∧
      pathGroupKey group ∈ ((mutationGroups call message).filter (groupSucceeded message)).map
        pathGroupKey := by
  constructor
  · rintro ⟨message', hresult', hcall', hedit, herror, changed, hchanged, hsucceeded, hkey⟩
    obtain rfl := Option.some.inj (hresult.symm.trans hresult')
    obtain rfl := Option.some.inj (hcall.symm.trans hcall')
    exact ⟨rfl, hedit, herror,
      List.mem_map.mpr ⟨changed, List.mem_filter.mpr ⟨hchanged, hsucceeded⟩, hkey⟩⟩
  · rintro ⟨rfl, hedit, herror, hmem⟩
    obtain ⟨changed, hchanged, hkey⟩ := List.mem_map.mp hmem
    obtain ⟨hchanged, hsucceeded⟩ := List.mem_filter.mp hchanged
    exact ⟨message, hresult, hcall, hedit, herror, changed, hchanged, hsucceeded, hkey⟩

theorem LatestSound.mutate {index : ArgumentStalenessIndex} {message : ToolResultMessage}
    {failed : List String} (h : LatestSound entries n index)
    (hresult : resultAt entries n = some message)
    (hcall : (callsById entries).get? message.toolCallId = some call)
    (hedit : isEditToolCall call = true) (herror : message.isError = false) :
    LatestSound entries (n + 1) ⟨setGroups index.latestSuccessfulMutationByPathGroup
      ((mutationGroups call message).filter (groupSucceeded message)) ⟨n, call.id⟩, failed⟩ := by
  refine ⟨?_, ?_⟩
  · intro group mutation hget
    rw [get?_setGroups] at hget
    split at hget
    · rename_i hmem
      obtain rfl := Option.some.inj hget
      exact ⟨call, rfl, (mutates_iff_of_answer hresult hcall).mpr ⟨rfl, hedit, herror, hmem⟩⟩
    · exact h.mutates group mutation hget
  · intro j hj call' group hmutates
    rw [get?_setGroups]
    rcases Nat.lt_succ_iff_lt_or_eq.mp hj with hj | rfl
    · split
      · exact ⟨_, rfl, .inl hj⟩
      · exact h.last j hj call' group hmutates
    · obtain ⟨rfl, -, -, hmem⟩ := (mutates_iff_of_answer hresult hcall).mp hmutates
      rw [if_pos hmem]
      exact ⟨_, rfl, .inr ⟨rfl, rfl⟩⟩

theorem LatestSound.add {index : ArgumentStalenessIndex} {entry : Entry}
    (h : LatestSound entries n index) (hentry : entries[n]? = some entry) :
    LatestSound entries (n + 1) (index.add (callsById entries) (entry, n)) := by
  unfold ArgumentStalenessIndex.add
  cases hmessage : getToolResultMessage entry with
  | none =>
    refine h.skip ?_
    rintro call group ⟨message, hresult, -⟩
    simp [resultAt, hentry, hmessage] at hresult
  | some message =>
    have hresult : resultAt entries n = some message := by simp [resultAt, hentry, hmessage]
    dsimp only
    cases hcall : (callsById entries).get? message.toolCallId with
    | none =>
      refine h.skip ?_
      rintro call group ⟨message', hresult', hcall', -⟩
      obtain rfl := Option.some.inj (hresult.symm.trans hresult')
      simp [hcall] at hcall'
    | some call =>
      dsimp only
      split
      · rename_i hskip
        refine h.skip fun call' group hmutates => ?_
        obtain ⟨-, hedit, -, hmem⟩ := (mutates_iff_of_answer hresult hcall).mp hmutates
        have hgroups : mutationGroups call message = [] := by simpa [hedit] using hskip
        simp [hgroups] at hmem
      · rename_i hnot
        split
        · rename_i herror
          have hsame := h.skip fun call' group hmutates => by
            have := ((mutates_iff_of_answer hresult hcall).mp hmutates).2.2.1
            simp [herror] at this
          exact ⟨hsame.mutates, hsame.last⟩
        · rename_i herror
          have hedit : isEditToolCall call = true := by
            cases hcase : isEditToolCall call with
            | true => rfl
            | false => simp [hcase] at hnot
          exact h.mutate hresult hcall hedit (by simpa using herror)

theorem latestSound_build (entries : List Entry) :
    LatestSound entries entries.length (buildAssistantArgumentStalenessIndex entries) :=
  foldl_zipIdx .empty fun _ _ _ hentry h => h.add hentry

end Mutations

section Pruned

/-- The call at position `i` may lose its arguments: it stands before the newest turns, and the files
of each of its groups were last changed later and by another call. -/
structure PrunableCall (entries : List Entry) (config : PruneConfig) (i : Nat)
    (call : ToolCall) : Prop where
  beforeFence : (recentTurnFenceStart entries (config.protectRecentTurns.getD 2)).any (· ≤ i) = false
  edit : isEditToolCall call = true
  notPruned : isPrunedToolArgumentsSentinel call.arguments = false
  groups : editToolPathGroups call ≠ []
  stale : ∀ group ∈ editToolPathGroups call, ∃ latest,
    (buildAssistantArgumentStalenessIndex entries).latestSuccessfulMutationByPathGroup.get?
    (pathGroupKey group) = some latest ∧
      i < latest.index ∧ latest.callId ≠ call.id

variable {numberText : ℚ → List Char}

theorem argumentCandidate_some {inside : Bool} {item : AssistantContent × Nat}
    {candidate : ArgumentCandidate}
    (hfence : (recentTurnFenceStart entries (config.protectRecentTurns.getD 2)).any (· ≤ i) = false)
    (h : argumentCandidate numberText (buildAssistantArgumentStalenessIndex entries) inside i item =
    some candidate) :
    item = (.toolCall candidate.call, candidate.position) ∧
      PrunableCall entries config i candidate.call := by
  obtain ⟨block, position⟩ := item
  unfold argumentCandidate at h
  cases block with
  | text t => cases h
  | thinking t => cases h
  | toolCall call =>
    dsimp only at h
    split at h
    · cases h
    · rename_i hedit
      split at h
      · cases h
      · split at h
        · cases h
        · rename_i hstale
          obtain rfl := Option.some.inj h
          simp only [Bool.or_eq_true, Bool.not_eq_true', not_or, Bool.not_eq_false,
            Bool.not_eq_true] at hedit
          simp only [Bool.or_eq_true, decide_eq_true_eq, Bool.not_eq_true', not_or,
            Bool.not_eq_false, List.all_eq_true, Option.any_eq_true, Bool.and_eq_true] at hstale
          exact ⟨rfl, hfence, hedit.1, hedit.2, hstale.1, hstale.2⟩

def blockAt (entries : List Entry) (i k : Nat) : Option AssistantContent :=
  entries[i]?.bind fun entry =>
    match entry.body with
    | .message ⟨.assistant, .assistant content⟩ => content[k]?
    | _ => none

theorem prunable_of_mem_argumentCandidatesFrom {k tokens : Nat}
    {group : Nat × List ArgumentCandidate}
    (h : group ∈ argumentCandidatesFrom numberText entries config
    (buildAssistantArgumentStalenessIndex entries)
      (recentTurnFenceStart entries (config.protectRecentTurns.getD 2)) k tokens) :
    ∀ candidate ∈ group.2, blockAt entries group.1 candidate.position =
      some (.toolCall candidate.call) ∧
      PrunableCall entries config group.1 candidate.call := by
  induction k generalizing tokens with
  | zero => cases h
  | succ i ih =>
    unfold argumentCandidatesFrom at h
    split at h
    · rename_i entry hentry
      split at h
      · exact ih h
      · rename_i hfence
        split at h
        · rename_i content hbody
          dsimp only at h
          split at h
          · exact ih h
          · rcases List.mem_cons.mp h with rfl | h
            · intro candidate hcandidate
              obtain ⟨item, hitem, hsome⟩ := List.mem_filterMap.mp hcandidate
              obtain ⟨rfl, hprunable⟩ := argumentCandidate_some (by simpa using hfence) hsome
              refine ⟨?_, hprunable⟩
              simpa [blockAt, hentry, hbody] using List.mem_zipIdx_iff_getElem?.mp hitem
            · exact ih h
        · exact ih h
    · exact ih h

inductive CallPruned (entries : List Entry) (config : PruneConfig) (i : Nat) (call : ToolCall) :
    ToolCall → Prop
  | same : CallPruned entries config i call call
  | pruned (pathHints : List String) (originalChars prunedAt : Nat)
    (hprunable : PrunableCall entries config i call) :
      CallPruned entries config i call { call with
      arguments := prunedToolArguments pathHints originalChars prunedAt }

inductive BlockPruned (entries : List Entry) (config : PruneConfig) (i : Nat) :
    AssistantContent → AssistantContent → Prop
  | same (block : AssistantContent) : BlockPruned entries config i block block
  | call {call call' : ToolCall} (h : CallPruned entries config i call call') :
      BlockPruned entries config i (.toolCall call) (.toolCall call')

inductive EntryPruned (entries : List Entry) (config : PruneConfig) (i : Nat)
    (entry : Entry) : Entry → Prop
  | same : EntryPruned entries config i entry entry
  | content {content content' : List AssistantContent}
    (hbody : entry.body = .message ⟨.assistant, .assistant content⟩)
      (h : List.Forall₂ (BlockPruned entries config i) content content') :
      EntryPruned entries config i entry { entry with
        body := .message ⟨.assistant, .assistant content'⟩ }

theorem entryPruned_mapContent {entry : Entry} {f : AssistantContent × Nat → AssistantContent}
    (h : ∀ content, entry.body = .message ⟨.assistant, .assistant content⟩ → ∀ block k,
      content[k]? = some block →
      BlockPruned entries config i block (f (block, k))) : EntryPruned entries config i entry
        (mapContent f entry) := by
  unfold mapContent
  split
  · rename_i content hbody
    refine .content hbody ?_
    have hfst : content = content.zipIdx.map Prod.fst := (List.zipIdx_map_fst 0 content).symm
    conv => arg 2; rw [hfst]
    rw [List.forall₂_map_left_iff, List.forall₂_map_right_iff, List.forall₂_same]
    intro item hitem
    exact h content hbody item.1 item.2 (List.mem_zipIdx_iff_getElem?.mp hitem)
  · exact .same

theorem entryPruned_prunedEntry {entry : Entry} {candidates : List ArgumentCandidate}
    {prunedAt : Nat} (hentry : entries[i]? = some entry) (h : ∀ candidate ∈ candidates,
      blockAt entries i candidate.position = some (.toolCall candidate.call) ∧
      PrunableCall entries config i candidate.call) :
    EntryPruned entries config i entry (prunedEntry candidates prunedAt entry) := by
  refine entryPruned_mapContent fun content hbody block k hblock => ?_
  cases hfind : candidates.find? fun candidate => candidate.position = k with
  | none => exact .same block
  | some candidate =>
    obtain ⟨hat, hprunable⟩ := h candidate (List.mem_of_find?_eq_some hfind)
    have hposition : candidate.position = k := by simpa using List.find?_some hfind
    simp only [blockAt, hentry, Option.bind_some, hbody, hposition, hblock, Option.some.injEq] at hat
    subst hat
    exact .call (.pruned _ _ _ hprunable)

theorem entryPruned_pruneAssistantToolArguments (numberText : ℚ → List Char) (config : PruneConfig)
    (prunedAt : Nat) (entries : List Entry) :
    List.Forall₂ (fun item entry' => EntryPruned entries config item.2 item.1 entry') entries.zipIdx
      (pruneAssistantToolArguments numberText config prunedAt entries).1 := by
  unfold pruneAssistantToolArguments
  dsimp only
  split
  · conv => arg 3; rw [← List.zipIdx_map_fst 0 entries]
    rw [List.forall₂_map_right_iff, List.forall₂_same]
    exact fun item _ => .same
  · dsimp only
    rw [List.forall₂_map_right_iff, List.forall₂_same]
    intro item hitem
    split
    · rename_i candidates hlookup
      obtain ⟨before, rest, hgroups, -⟩ := List.lookup_eq_some_iff.mp hlookup
      have hmem := (List.mem_filter.mp (hgroups ▸ List.mem_append_right before List.mem_cons_self)).1
      exact entryPruned_prunedEntry (List.mem_zipIdx_iff_getElem?.mp hitem)
        (prunable_of_mem_argumentCandidatesFrom hmem)
    · exact .same

def ArgumentsPruned (entries : List Entry) (config : PruneConfig) (after : List Entry) : Prop :=
  List.Forall₂ (fun item entry' => EntryPruned entries config item.2 item.1 entry')
    entries.zipIdx after

theorem ArgumentsPruned.length_eq (h : ArgumentsPruned entries config after) :
    after.length = entries.length := by
  rw [← List.Forall₂.length_eq h, List.length_zipIdx]

theorem ArgumentsPruned.entry {entry : Entry} (h : ArgumentsPruned entries config after)
    (hentry : entries[i]? = some entry) :
    ∃ entry', after[i]? = some entry' ∧ EntryPruned entries config i entry entry' := by
  obtain ⟨hlt, rfl⟩ := List.getElem?_eq_some_iff.mp hentry
  have hafter : i < after.length := by
    rw [h.length_eq]
    exact hlt
  refine ⟨after[i], List.getElem?_eq_getElem hafter, ?_⟩
  have hget := List.Forall₂.get h (i := i) (by simpa using hlt) hafter
  simpa using hget

theorem EntryPruned.getToolResultMessage_eq {entry entry' : Entry}
    (h : EntryPruned entries config i entry entry') :
    getToolResultMessage entry' = getToolResultMessage entry := by
  cases h with
  | same => rfl
  | content hbody => simp [getToolResultMessage, hbody]

theorem ArgumentsPruned.resultAt_eq (h : ArgumentsPruned entries config after) (j : Nat) :
    resultAt after j = resultAt entries j := by
  unfold resultAt
  cases hentry : entries[j]? with
  | none =>
    rw [List.getElem?_eq_none_iff, ← h.length_eq, ← List.getElem?_eq_none_iff] at hentry
    rw [hentry]
  | some entry =>
    obtain ⟨entry', hentry', hpruned⟩ := h.entry hentry
    rw [hentry']
    exact hpruned.getToolResultMessage_eq

theorem EntryPruned.toolCalls {entry entry' : Entry}
    (h : EntryPruned entries config i entry entry') :
    List.Forall₂ (fun call call' => ∃ i, CallPruned entries config i call call') (toolCalls entry)
      (toolCalls entry') := by
  cases h with
  | same => exact List.forall₂_same.mpr fun call _ => ⟨i, .same⟩
  | content hbody h =>
    simp only [Session.toolCalls, hbody]
    refine List.rel_filterMap ?_ h
    rintro block block' hblock
    cases hblock with
    | same =>
      cases block with
      | text t => exact .none
      | thinking t => exact .none
      | toolCall call => exact .some ⟨i, .same⟩
    | call hcall => exact .some ⟨i, hcall⟩

theorem CallPruned.id_eq {call' : ToolCall} (h : CallPruned entries config i call call') :
    call'.id = call.id := by
  cases h <;> rfl

theorem ArgumentsPruned.callsById (h : ArgumentsPruned entries config after) (id : String) :
    Option.Rel (fun call call' => ∃ i, CallPruned entries config i call call')
      ((callsById entries).get? id)
      ((callsById after).get? id) := by
  have hcalls : List.Forall₂ (fun call call' => ∃ i, CallPruned entries config i call call')
      (entries.flatMap toolCalls)
      (after.flatMap toolCalls) := by
    have hfst : entries.flatMap toolCalls = entries.zipIdx.flatMap fun item => toolCalls item.1 := by
      conv_lhs => rw [← List.zipIdx_map_fst 0 entries, List.flatMap_map]
    rw [hfst]
    exact List.rel_flatMap h fun _ _ hentry => hentry.toolCalls
  refine InsertionMap.get?_ofList_rel ?_ id
  rw [List.forall₂_map_left_iff, List.forall₂_map_right_iff]
  exact hcalls.imp fun call call' hcall => ⟨hcall.elim fun _ h => h.id_eq.symm, hcall⟩

end Pruned

section Stale

variable {path : String} {message : ToolResultMessage} {group : List String}

theorem mem_mutatedPaths : path ∈ mutatedPaths call message ↔
    ∃ group ∈ editToolPathGroups call, groupSucceeded message group = true ∧ path ∈ group := by
  rw [show mutatedPaths call message =
    ((editToolPathGroups call).filter (groupSucceeded message)).flatten from rfl]
  simp only [List.mem_flatten, List.mem_filter, and_assoc]

theorem of_mem_mutationGroups (h : group ∈ mutationGroups call message) :
    (call.name = "ast_edit" ∧ ∃ file ∈ resultDetailFiles message,
      group = [file]) ∨ group ∈ editToolPathGroups call := by
  unfold mutationGroups at h
  dsimp only at h
  by_cases hname : call.name = "ast_edit"
  · rw [if_pos hname] at h
    split at h
    · obtain ⟨file, hfile, rfl⟩ := List.mem_map.mp h
      exact .inl ⟨hname, file, hfile, rfl⟩
    · exact .inr h
  · rw [if_neg hname] at h
    exact .inr (by simpa using h)

theorem mutationGroups_eq (h : call.name = "ast_edit" → resultDetailFiles message = []) :
    mutationGroups call message = editToolPathGroups call := by
  unfold mutationGroups
  by_cases hname : call.name = "ast_edit"
  · simp [h hname]
  · simp [hname]

def EditsByName (entries : List Entry) : Prop :=
  ∀ entry ∈ entries, ∀ call ∈ toolCalls entry, isEditToolCall call = true → call.name ∈ editToolNames

def ListedOrNamed (entries : List Entry) : Prop :=
  ∀ j message call, resultAt entries j = some message →
    (callsById entries).get? message.toolCallId = some call →
    call.name = "ast_edit" → resultDetailFiles message ≠ [] → editToolPathGroups call = []

theorem mem_toolCalls_of_callsById {id : String} (h : (callsById entries).get? id = some call) :
    ∃ entry ∈ entries, call ∈ toolCalls entry := by
  obtain ⟨call', hcall', hpair⟩ := List.mem_map.mp (InsertionMap.mem_of_get?_ofList h)
  obtain ⟨-, rfl⟩ := Prod.mk.inj hpair
  exact List.mem_flatMap.mp hcall'

theorem not_prunableCall_of_latest {latest : Mutation} (hgroup : group ∈ editToolPathGroups call)
    (hlatest : (buildAssistantArgumentStalenessIndex
      entries).latestSuccessfulMutationByPathGroup.get? (pathGroupKey group) =
      some latest) (hcall : call.id = latest.callId) : ¬ PrunableCall entries config i call := by
  intro hprunable
  obtain ⟨latest', hlatest', -, hother⟩ := hprunable.stale group hgroup
  obtain rfl := Option.some.inj (hlatest.symm.trans hlatest')
  exact hother hcall.symm

def TargetKey.name : TargetKey → String
  | .path name _ | .command name _ _ | .pattern name _ _ _ _ _ => name

theorem name_of_toolTargetKey {key : TargetKey} (h : toolTargetKey call = some key) :
    key.name = call.name := by
  unfold toolTargetKey at h
  split at h
  · rw [← Option.some.inj h]
    rfl
  · split at h
    · rw [← Option.some.inj h]
      rfl
    · simp only [Option.bind_eq_bind, Option.bind_eq_some_iff] at h
      obtain ⟨args, -, pattern, -, hkey⟩ := h
      rw [← Option.some.inj hkey]
      rfl

theorem call_of_resultMetaAt {result : ResultMeta} (h : resultMetaAt entries j = some result) :
    result.key = toolTargetKey result.call ∧ ∃ entry ∈ entries, result.call ∈ toolCalls entry := by
  simp only [resultMetaAt, Option.bind_eq_bind, Option.bind_eq_some_iff] at h
  obtain ⟨message, -, call, hcall, hmeta⟩ := h
  split at hmeta
  · cases hmeta
  · obtain rfl := Option.some.inj hmeta
    exact ⟨rfl, mem_toolCalls_of_callsById hcall⟩

variable (h : ArgumentsPruned entries config after)

include h

theorem ArgumentsPruned.callsById_name {id : String}
    (hcall : (Session.callsById entries).get? id = some call) :
    ∃ call', (Session.callsById after).get? id = some call' ∧ call'.name = call.name := by
  have hrel := h.callsById id
  rw [hcall] at hrel
  generalize (Session.callsById after).get? id = found at hrel
  obtain ⟨⟨k, hpruned⟩⟩ := hrel
  refine ⟨_, rfl, ?_⟩
  cases hpruned <;> rfl

theorem ArgumentsPruned.callsById_eq {id : String}
    (hcall : (Session.callsById entries).get? id = some call)
    (hnot : ∀ k, ¬ PrunableCall entries config k call) :
    (Session.callsById after).get? id = some call := by
  have hrel := h.callsById id
  rw [hcall] at hrel
  generalize (Session.callsById after).get? id = found at hrel
  obtain ⟨⟨k, hpruned⟩⟩ := hrel
  cases hpruned with
  | same => rfl
  | pruned _ _ _ hprunable => exact absurd hprunable (hnot k)

theorem ArgumentsPruned.resultMetaAt_eq {result : ResultMeta}
    (hresult : resultMetaAt entries j = some result) (hedit : isEditToolCall result.call = false) :
    resultMetaAt after j = some result := by
  simp only [resultMetaAt, Option.bind_eq_bind, Option.bind_eq_some_iff] at hresult ⊢
  obtain ⟨message, hmessage, call, hcall, hmeta⟩ := hresult
  have hsame : result.call = call := by
    split at hmeta
    · cases hmeta
    · rw [← Option.some.inj hmeta]
  refine ⟨message, by rwa [h.resultAt_eq], call, h.callsById_eq hcall ?_, hmeta⟩
  intro k hprunable
  have hcallEdit := hprunable.edit
  rw [← hsame, hedit] at hcallEdit
  cases hcallEdit

theorem ArgumentsPruned.editsPath (hbyName : EditsByName entries) (hlisted : ListedOrNamed entries)
    (hedit : EditsPath entries j path) : ∃ j', j ≤ j' ∧ EditsPath after j' path := by
  have hlatest := latestSound_build entries
  obtain ⟨message, hmessage, call, hcall, ⟨hname, hfile⟩ | ⟨hok, hname, hpath⟩⟩ := hedit
  · obtain ⟨call', hcall', hsame⟩ := h.callsById_name hcall
    exact ⟨j, Nat.le_refl _, message, (h.resultAt_eq j).trans hmessage, call', hcall',
      .inl ⟨hsame ▸ hname, hfile⟩⟩
  · by_cases hprunable : ∃ k, PrunableCall entries config k call
    · obtain ⟨k, hprunable⟩ := hprunable
      obtain ⟨group, hgroup, hsucceeded, hmem⟩ := mem_mutatedPaths.mp hpath
      have hgroups : mutationGroups call message = editToolPathGroups call := by
        refine mutationGroups_eq fun hast => ?_
        by_contra hfiles
        exact hprunable.groups (hlisted j message call hmessage hcall hast hfiles)
      have hj : j < entries.length := by
        by_contra hge
        simp [resultAt, List.getElem?_eq_none (Nat.not_lt.mp hge)] at hmessage
      have hmutates : Mutates entries j call group :=
        ⟨message, hmessage, hcall, hprunable.edit, hok, group, hgroups ▸ hgroup, hsucceeded, rfl⟩
      obtain ⟨latest, hget, -, hother⟩ := hprunable.stale group hgroup
      obtain ⟨latest', hget', hlater⟩ := hlatest.last j hj call group hmutates
      obtain rfl := Option.some.inj (hget.symm.trans hget')
      have hlt : j < latest.index := hlater.resolve_right fun hsame => hother hsame.2.symm
      obtain ⟨last, hid, message', hmessage', hlast, hedit, hok', changed, hchanged,
          hsucceeded', hkey⟩ :=
        hlatest.mutates group latest hget
      have hin : path ∈ changed := mem_of_pathGroupKey_eq hkey.symm hmem
      refine ⟨latest.index, Nat.le_of_lt hlt, message', (h.resultAt_eq _).trans hmessage', ?_⟩
      rcases of_mem_mutationGroups hchanged with ⟨hast, file, hfile, rfl⟩ | hchanged
      · obtain ⟨last', hlast', hsame⟩ := h.callsById_name hlast
        obtain rfl := List.mem_singleton.mp hin
        exact ⟨last', hlast', .inl ⟨.inr (hsame.trans hast), hfile⟩⟩
      · have hkept := h.callsById_eq hlast fun k =>
          not_prunableCall_of_latest hchanged (hkey ▸ hget) hid
        obtain ⟨entry, hentry, hmem'⟩ := mem_toolCalls_of_callsById hlast
        exact ⟨last, hkept, .inr ⟨hok', hbyName entry hentry last hmem' hedit,
          mem_mutatedPaths.mpr ⟨changed, hchanged, hsucceeded', hin⟩⟩⟩
    · exact ⟨j, Nat.le_refl _, message, (h.resultAt_eq j).trans hmessage, call,
        h.callsById_eq hcall fun k hk => hprunable ⟨k, hk⟩, .inr ⟨hok, hname, hpath⟩⟩

theorem ArgumentsPruned.stale {result : ResultMeta} (hbyName : EditsByName entries)
    (hlisted : ListedOrNamed entries) (hresult : resultMetaAt entries i = some result)
    (hedit : isEditToolCall result.call = false) (hstale : Stale entries i) : Stale after i := by
  obtain ⟨result', hresult', j, hlt, hwitness⟩ := hstale
  obtain rfl := Option.some.inj (hresult.symm.trans hresult')
  have hnotEdit {other : ResultMeta} (hother : resultMetaAt entries j = some other)
      (hname : other.call.name ∉ editToolNames) : isEditToolCall other.call = false := by
    obtain ⟨-, entry, hentry, hmem⟩ := call_of_resultMetaAt hother
    exact Bool.eq_false_iff.mpr fun hcall => hname (hbyName entry hentry _ hmem hcall)
  refine ⟨result, h.resultMetaAt_eq hresult hedit, ?_⟩
  cases hwitness with
  | sameKey later key hlater hkey hlaterKey =>
    have hname : later.call.name = result.call.name := by
      rw [← name_of_toolTargetKey ((call_of_resultMetaAt hlater).1.symm.trans hlaterKey),
        name_of_toolTargetKey ((call_of_resultMetaAt hresult).1.symm.trans hkey)]
    have hlaterEdit : isEditToolCall later.call = false := by
      refine hnotEdit hlater fun hmem => ?_
      simp [isEditToolCall, ← hname, hmem] at hedit
    exact ⟨j, hlt, .sameKey later key (h.resultMetaAt_eq hlater hlaterEdit) hkey hlaterKey⟩
  | widerRead later path laterPath range laterRange hlater hread hpath hbase hranges hcontains =>
    have hlaterEdit : isEditToolCall later.call = false :=
      hnotEdit hlater (by simp [hread.2, editToolNames])
    exact ⟨j, hlt, .widerRead later path laterPath range laterRange
      (h.resultMetaAt_eq hlater hlaterEdit) hread hpath hbase
      hranges hcontains⟩
  | edited path hread hpath hchange =>
    obtain ⟨j', hle, hchange'⟩ := h.editsPath hbyName hlisted hchange
    exact ⟨j', Nat.lt_of_lt_of_le hlt hle, .edited path hread hpath hchange'⟩

end Stale

section Run

theorem ArgumentsPruned.block {block : AssistantContent} {k : Nat}
    (h : ArgumentsPruned entries config after) (hblock : blockAt entries i k = some block) :
    ∃ block', blockAt after i k = some block' ∧ BlockPruned entries config i block block' := by
  obtain ⟨entry, hentry, hat⟩ := Option.bind_eq_some_iff.mp hblock
  obtain ⟨entry', hentry', hpruned⟩ := h.entry hentry
  cases hpruned with
  | same => exact ⟨block, by rw [blockAt, hentry']; exact hat, .same block⟩
  | @content content content' hbody hblocks =>
    simp only [hbody] at hat
    obtain ⟨hlt, rfl⟩ := List.getElem?_eq_some_iff.mp hat
    have hlt' : k < content'.length := hblocks.length_eq ▸ hlt
    exact ⟨content'[k], by simp [blockAt, hentry', hlt'], hblocks.get hlt hlt'⟩

structure SupersededCall (entries : List Entry) (config : PruneConfig) (i : Nat)
    (call : ToolCall) : Prop where
  edit : isEditToolCall call = true
  beforeFence : min (config.protectRecentTurns.getD 2).toNat (turnStarts entries).length ≤
    ((turnStarts entries).filter (i < ·)).length
  groups : editToolPathGroups call ≠ []
  mutated : ∀ group ∈ editToolPathGroups call, ∃ j other, i < j ∧ other.id ≠ call.id ∧
    Mutates entries j other group

theorem PrunableCall.superseded (h : PrunableCall entries config i call) :
    SupersededCall entries config i call where
  edit := h.edit
  beforeFence := turnStarts_after_fence h.beforeFence
  groups := h.groups
  mutated group hgroup := by
    obtain ⟨latest, hlatest, hlt, hother⟩ := h.stale group hgroup
    obtain ⟨other, hid, hmutates⟩ := (latestSound_build entries).mutates group latest hlatest
    exact ⟨latest.index, other, hlt, hid ▸ hother, hmutates⟩

inductive BlockKept (entries : List Entry) (config : PruneConfig) (i : Nat) :
    AssistantContent → AssistantContent → Prop
  | same (block : AssistantContent) : BlockKept entries config i block block
  | arguments {call : ToolCall} (pathHints : List String) (originalChars prunedAt : Nat)
      (h : SupersededCall entries config i call) : BlockKept entries config i (.toolCall call)
        (.toolCall { call with arguments := prunedToolArguments pathHints originalChars prunedAt })

inductive EntryKept (entries : List Entry) (config : PruneConfig) (i : Nat)
    (entry : Entry) : Entry → Prop
  | same : EntryKept entries config i entry entry
  | content {content content' : List AssistantContent}
    (hbody : entry.body = .message ⟨.assistant, .assistant content⟩)
      (h : List.Forall₂ (BlockKept entries config i) content content') :
      EntryKept entries config i entry { entry with
        body := .message ⟨.assistant, .assistant content'⟩ }

theorem BlockPruned.kept {block block' : AssistantContent}
    (h : BlockPruned entries config i block block') :
    BlockKept entries config i block block' := by
  cases h with
  | same => exact .same block
  | call hcall =>
    cases hcall with
    | same => exact .same _
    | pruned pathHints originalChars prunedAt hprunable =>
      exact .arguments pathHints originalChars prunedAt hprunable.superseded

theorem EntryPruned.kept {entry entry' : Entry} (h : EntryPruned entries config i entry entry') :
    EntryKept entries config i entry entry' := by
  cases h with
  | same => exact .same
  | content hbody hblocks => exact .content hbody (hblocks.imp fun _ _ hblock => hblock.kept)

/-- A run changes nothing but the arguments of superseded calls; a stale result of a call that is not
an edit stays stale; and a second run leaves the pruned calls as they are. -/
theorem pruneAssistantToolArguments_sound (numberText : ℚ → List Char) (config : PruneConfig)
    (prunedAt prunedAgain : Nat) (entries : List Entry) :
    let after := (pruneAssistantToolArguments numberText config prunedAt entries).1
    let again := (pruneAssistantToolArguments numberText config prunedAgain after).1
    List.Forall₂ (fun item entry' => EntryKept entries config item.2 item.1 entry')
      entries.zipIdx after ∧
    (∀ j, resultAt after j = resultAt entries j) ∧
    (∀ i k block, blockAt entries i k = some block → blockAt after i k = some block ∨
      ∃ call pathHints originalChars prunedAt, block = .toolCall call ∧
      SupersededCall entries config i call ∧
        blockAt after i k =
          some (.toolCall { call with
          arguments := prunedToolArguments pathHints originalChars prunedAt }) ∧
        blockAt again i k = blockAt after i k) ∧
    (EditsByName entries → ListedOrNamed entries → ∀ i result, resultMetaAt entries i = some result →
      isEditToolCall result.call = false → i ∈ buildStalenessIndex entries →
      i ∈ buildStalenessIndex after) ∧
    (∀ i k call, blockAt after i k = some (.toolCall call) →
      isPrunedToolArgumentsSentinel call.arguments = true →
      blockAt again i k = some (.toolCall call)) := by
  intro after again
  have hfirst : ArgumentsPruned entries config after :=
    entryPruned_pruneAssistantToolArguments numberText config prunedAt entries
  have hsecond : ArgumentsPruned after config again :=
    entryPruned_pruneAssistantToolArguments numberText config prunedAgain after
  have hstable : ∀ i k call, blockAt after i k = some (.toolCall call) →
      isPrunedToolArgumentsSentinel call.arguments = true →
      blockAt again i k = some (.toolCall call) := by
    intro i k call hblock hsentinel
    obtain ⟨block', hblock', hpruned⟩ := hsecond.block hblock
    cases hpruned with
    | same => exact hblock'
    | call hcall =>
      cases hcall with
      | same => exact hblock'
      | pruned _ _ _ hprunable =>
        rw [hprunable.notPruned] at hsentinel
        cases hsentinel
  refine ⟨hfirst.imp fun _ _ h => h.kept, hfirst.resultAt_eq, ?_, ?_, hstable⟩
  · intro i k block hblock
    obtain ⟨block', hblock', hpruned⟩ := hfirst.block hblock
    cases hpruned with
    | same => exact .inl hblock'
    | @call call _ hcall =>
      cases hcall with
      | same => exact .inl hblock'
      | pruned pathHints originalChars prunedAt hprunable =>
        exact .inr ⟨call, pathHints, originalChars, prunedAt, rfl, hprunable.superseded, hblock',
          (hstable i k _ hblock' rfl).trans hblock'.symm⟩
  · intro hbyName hlisted i result hresult hedit hstale
    exact mem_buildStalenessIndex_iff.mpr
      (hfirst.stale hbyName hlisted hresult hedit (mem_buildStalenessIndex_iff.mp hstale))

def toolCallEntry (entryId : String) (calls : List ToolCall) : Entry :=
  ⟨entryId, "", .message ⟨.assistant, .assistant (calls.map .toolCall)⟩⟩

def toolResultEntry (entryId toolCallId toolName : String) (details : Option Json) : Entry :=
  ⟨entryId, "", .message ⟨.toolResult,
    .toolResult ⟨toolCallId, toolName, [.text "ok"], false, none, details⟩⟩⟩

def eagerConfig : PruneConfig := { defaultPruneConfig with protectTokens := 0, minimumSavings := 0 }

def decimalText (n : ℚ) : List Char := (toString n.num).toList

def readThenEdited (tool : String) (customWireName : Option String) : List Entry := [
  toolCallEntry "e1" [⟨"c1", "read", .obj [("path", .str "a.ts")], none⟩],
  toolResultEntry "e2" "c1" "read" none,
  toolCallEntry "e3" [⟨"c2", "edit",
    .obj [("path", .str "a.ts"), ("new_string", .str (String.ofList (.replicate 30 'あ')))], none⟩],
  toolResultEntry "e4" "c2" "edit" none,
  toolCallEntry "e5" [⟨"c3", tool, .obj [("path", .str "a.ts")], customWireName⟩],
  toolResultEntry "e6" "c3" tool none]

def editedThenWritten : List Entry := [
  toolCallEntry "e1" [⟨"c1", "edit", .obj [("path", .str "a.ts")], none⟩],
  toolResultEntry "e2" "c1" "edit" none,
  toolCallEntry "e3" [⟨"c2", "edit",
    .obj [("path", .str "a.ts"), ("new_string", .str (String.ofList (.replicate 30 'あ')))], none⟩],
  toolResultEntry "e4" "c2" "edit" none,
  toolCallEntry "e5" [⟨"c3", "write", .obj [("path", .str "a.ts")], none⟩],
  toolResultEntry "e6" "c3" "write" none]

def writtenTwice : List Entry := [
  toolCallEntry "e1" [⟨"c1", "write",
  .obj [("path", .str "a.ts"), ("content", .str (String.ofList (.replicate 30 'あ')))], none⟩],
    toolResultEntry "e2" "c1" "write" none,
  toolCallEntry "e3" [⟨"c2", "write", .obj [("path", .str "a.ts")], none⟩],
  toolResultEntry "e4" "c2" "write" none]

def rewrittenAfterRead : List Entry := [
  toolCallEntry "e1" [⟨"c1", "ast_edit",
  .obj [("path", .str "a.ts"), ("ops", .str (String.ofList (.replicate 30 'あ')))], none⟩,
    ⟨"c2", "edit", .obj [("path", .str "a.ts")], none⟩,
    ⟨"c3", "read", .obj [("path", .str "a.ts")], none⟩],
  toolResultEntry "e2" "c2" "edit" none,
  toolResultEntry "e3" "c3" "read" none,
  toolResultEntry "e4" "c1" "ast_edit"
    (some (.obj [("applied", .bool true), ("files", .arr [.str "src/a.ts"])]))]

def prunedEagerly (entries : List Entry) : List Entry :=
  (pruneAssistantToolArguments decimalText eagerConfig 1 entries).1

theorem pruneAssistantToolArguments_sound_readThenEdited :
    EditsByName (readThenEdited "edit" (some "apply_patch")) ∧
      ListedOrNamed (readThenEdited "edit" (some "apply_patch")) ∧
      1 ∈ buildStalenessIndex (readThenEdited "edit" (some "apply_patch")) ∧
      1 ∈ buildStalenessIndex
        (pruneAssistantToolArguments decimalText eagerConfig 1
          (readThenEdited "edit" (some "apply_patch"))).1 := by
  have hnames : EditsByName (readThenEdited "edit" (some "apply_patch")) := by
    unfold EditsByName
    decide +kernel
  have hnoAst : ∀ entry ∈ readThenEdited "edit" (some "apply_patch"), ∀ call ∈ toolCalls entry,
      call.name ≠ "ast_edit" := by
    decide +kernel
  have hlisted : ListedOrNamed (readThenEdited "edit" (some "apply_patch")) := by
    intro j message call _ hcall hname
    obtain ⟨entry, hentry, hmem⟩ := mem_toolCalls_of_callsById hcall
    exact absurd hname (hnoAst entry hentry call hmem)
  have hstale : 1 ∈ buildStalenessIndex (readThenEdited "edit" (some "apply_patch")) := by
    decide +kernel
  obtain ⟨-, -, -, hkept, -⟩ :=
    pruneAssistantToolArguments_sound decimalText eagerConfig 1 2
      (readThenEdited "edit" (some "apply_patch"))
  exact ⟨hnames, hlisted, hstale, hkept hnames hlisted 1 _ rfl (by decide) hstale⟩

theorem pruneAssistantToolArguments_not_sound :
    (1 ∈ buildStalenessIndex writtenTwice ∧ 1 ∉ buildStalenessIndex (prunedEagerly writtenTwice)) ∧
    (1 ∈ buildStalenessIndex editedThenWritten ∧
      1 ∉ buildStalenessIndex (prunedEagerly editedThenWritten)) ∧
    (2 ∈ buildStalenessIndex rewrittenAfterRead ∧
      2 ∉ buildStalenessIndex (prunedEagerly rewrittenAfterRead)) ∧
    (1 ∈ buildStalenessIndex (readThenEdited "patch" (some "apply_patch")) ∧
      1 ∉ buildStalenessIndex (prunedEagerly (readThenEdited "patch" (some "apply_patch")))) := by
  decide +kernel

end Run

end JevCode.Session
