import JevCode.Session.PruningLaws

/-! `pruning.ts`: committing a prune plan on the live entries. An entry is changed in place, so it is
named by its position; the clock gives the time at which each digest of the plan is looked at. -/

namespace JevCode.Session

open JevCode.Text JevCode.Data

structure ToolOutputPruneCommitReplacement where
  replacementText : Option String
  eviction : Option (List (String × Json))

structure ToolOutputPruneCommitOptions where
  replacements : InsertionMap String ToolOutputPruneCommitReplacement

def noOverrides : ToolOutputPruneCommitOptions := ⟨.empty⟩

inductive CommitOutcome
  | committed
  | mismatch (diagnostic : String)
  | unavailable (diagnostic : String)
  deriving DecidableEq

structure ToolOutputCommitOutcome where
  entryId : String
  outcome : CommitOutcome
  deriving DecidableEq

section Output

def AssistantContent.outputBlock : AssistantContent → OutputBlock
  | .text t => .text t
  | .thinking _ | .toolCall _ => .image ""

/-- A message taken for a tool result; `none` without a content, over which the loop throws. -/
def StoredMessage.toolOutput? (message : StoredMessage MessageContent) : Option ToolResultMessage :=
  match message.content with
  | .toolResult result => some result
  | .assistant content => some ⟨"", "", content.map AssistantContent.outputBlock, false, none, none⟩
  | .other t =>
    match message.role with
    | .bashExecution | .branchSummary | .compactionSummary => none
    | _ => some ⟨"", "", [.text t], false, none, none⟩

def SessionEntry.message? (entry : Entry) : Option (StoredMessage MessageContent) :=
  match entry.body with
  | .message message => some message
  | _ => none

def SessionEntry.toolOutput? (entry : Entry) : Option ToolResultMessage :=
  entry.message?.bind StoredMessage.toolOutput?

def outputText (entry : Entry) : Option String := entry.toolOutput?.map fun message =>
  (extractToolOutputText message).1

def SessionEntry.withOutput (entry : Entry) (result : ToolResultMessage) : Entry :=
  match entry.body with
  | .message message => { entry with body := .message ⟨message.role, .toolResult result⟩ }
  | _ => entry

end Output

section Replacement

structure CommitReplacement where
  text : String
  eviction : Option (List (String × Json))

def replacementFor (plan : ToolOutputPrunePlan) (options : ToolOutputPruneCommitOptions)
    (entryId : String) :
    Option CommitReplacement := do
  let proposals :=
    InsertionMap.ofList (plan.replacements.map fun replacement => (replacement.entryId, replacement))
  let proposal ← proposals.get? entryId
  let override := options.replacements.get? entryId
  return ⟨(override.bind fun o => o.replacementText).getD proposal.replacementText,
    override.bind fun o => o.eviction⟩

def objectFields : Option Json → List (String × Json)
  | some (.obj fields) => fields
  | _ => []

def withEviction (details : Option Json) (eviction : List (String × Json)) : Json :=
  let metaFields := objectFields ((objectFields details).lookup "meta")
  .obj (InsertionMap.setEntries "meta"
    (.obj (InsertionMap.setEntries "eviction" (.obj eviction) metaFields)) (objectFields details))

def ToolResultMessage.prune (message : ToolResultMessage) (replacement : CommitReplacement)
    (now : Nat) : ToolResultMessage :=
  { message with
    content := [.text replacement.text]
    prunedAt := some now
    details := match replacement.eviction with
      | some eviction => some (withEviction message.details eviction)
      | none => message.details }

def SessionEntry.prune (entry : Entry) (replacement : CommitReplacement) (now : Nat) : Entry :=
  match entry.toolOutput? with
  | some message => entry.withOutput (message.prune replacement now)
  | none => entry

end Replacement

section Commit

structure CommitRun where
  entries : List Entry
  outcomes : List ToolOutputCommitOutcome
  thrown : Option String

def CommitRun.report (run : CommitRun) (entryId : String) (outcome : CommitOutcome) : CommitRun :=
  { run with outcomes := run.outcomes ++ [⟨entryId, outcome⟩] }

def messageIndexById (entries : List Entry) : InsertionMap String Nat :=
  InsertionMap.ofList ((entries.zipIdx.filter fun item => item.1.message?.isSome).map fun item =>
    (item.1.id, item.2))

variable (sha256 : String → String)

def ToolOutputPruneDigest.Matches (digest : ToolOutputPruneDigest) (text : String) : Prop :=
  text.utf8ByteSize = digest.bytes ∧ sha256 text = digest.sha256

instance (digest : ToolOutputPruneDigest) (text : String) : Decidable (digest.Matches sha256 text) :=
  inferInstanceAs (Decidable (_ ∧ _))

variable (plan : ToolOutputPrunePlan) (options : ToolOutputPruneCommitOptions)

def commitDigest (byId : InsertionMap String Nat) (now : Nat) (run : CommitRun)
    (digest : ToolOutputPruneDigest) : CommitRun :=
  match (byId.get? digest.entryId).bind fun i => run.entries[i]?.map fun entry => (i, entry) with
  | none => run.report digest.entryId (.unavailable "entry not found")
  | some (i, entry) =>
    match outputText entry with
    | none => { run with thrown := some "TypeError" }
    | some text =>
      if ¬ digest.Matches sha256 text
        then run.report digest.entryId (.mismatch "tool output changed before commit")
      else match replacementFor plan options digest.entryId with
      | none => run.report digest.entryId (.unavailable "replacement proposal missing")
      | some replacement =>
        { run with
          entries :=
          run.entries.set i (entry.prune replacement now) }.report digest.entryId .committed

def commitStep (byId : InsertionMap String Nat) (clock : Nat → Nat) (run : CommitRun)
    (item : ToolOutputPruneDigest × Nat) :
    CommitRun :=
  match run.thrown with
  | some _ => run
  | none => commitDigest sha256 plan options byId (clock item.2) run item.1

def commitRun (clock : Nat → Nat) (entries : List Entry) : CommitRun :=
  plan.digests.zipIdx.foldl (commitStep sha256 plan options (messageIndexById entries) clock)
    ⟨entries, [], none⟩

/-- The entries as the call leaves them, and its outcomes unless it throws. -/
def commitToolOutputPrune (clock : Nat → Nat) (entries : List Entry) :
    List Entry × Except String (List ToolOutputCommitOutcome) :=
  let run := commitRun sha256 plan options clock entries
  (run.entries, match run.thrown with
    | some message => .error message
    | none => .ok run.outcomes)

end Commit

section Prune

variable {entry : Entry} {message : ToolResultMessage} {replacement : CommitReplacement}
    {now later : Nat}

theorem setEntries_setEntries (k : String) (v w : Json) (fields : List (String × Json)) :
    InsertionMap.setEntries k w (InsertionMap.setEntries k v fields) =
      InsertionMap.setEntries k w fields := by
  induction fields with
  | nil => simp [InsertionMap.setEntries]
  | cons field fields ih =>
    by_cases hk : field.1 = k
    · simp [InsertionMap.setEntries, hk]
    · simp [InsertionMap.setEntries, hk, ih]

theorem withEviction_withEviction (details : Option Json) (eviction : List (String × Json)) :
    withEviction (some (withEviction details eviction)) eviction =
      withEviction details eviction := by
  simp only [withEviction, objectFields, InsertionMap.lookup_setEntries, if_true,
    setEntries_setEntries]

theorem ToolResultMessage.prune_prune (message : ToolResultMessage) (replacement : CommitReplacement)
    (now later : Nat) :
    (message.prune replacement now).prune replacement later =
    { message.prune replacement now with prunedAt := some later } := by
  cases heviction : replacement.eviction with
  | none => simp [ToolResultMessage.prune, heviction]
  | some eviction => simp [ToolResultMessage.prune, heviction, withEviction_withEviction]

theorem ToolResultMessage.prune_later (message : ToolResultMessage) (replacement : CommitReplacement)
    (now later : Nat) :
    { message.prune replacement now with
      prunedAt := some later } = message.prune replacement later := rfl

theorem SessionEntry.prune_eq (h : entry.toolOutput? = some message) :
    ∃ stored, entry.body = .message stored ∧
    ∀ replacement now, entry.prune replacement now =
      { entry with
        body := .message ⟨stored.role, .toolResult (message.prune replacement now)⟩ } := by
  have hbody : ∃ stored, entry.body = .message stored := by
    unfold SessionEntry.toolOutput? SessionEntry.message? at h
    split at h
    · rename_i stored hbody
      exact ⟨stored, hbody⟩
    · cases h
  obtain ⟨stored, hbody⟩ := hbody
  exact ⟨stored, hbody,
    fun replacement now => by simp only [SessionEntry.prune, h, SessionEntry.withOutput, hbody]⟩

@[simp] theorem SessionEntry.id_prune (entry : Entry) (replacement : CommitReplacement) (now : Nat) :
    (entry.prune replacement now).id = entry.id := by
  unfold SessionEntry.prune SessionEntry.withOutput
  split
  · split <;> rfl
  · rfl

theorem SessionEntry.toolOutput?_prune (h : entry.toolOutput? = some message) :
    (entry.prune replacement now).toolOutput? = some (message.prune replacement now) := by
  obtain ⟨stored, -, hprune⟩ := prune_eq h
  rw [hprune]
  rfl

@[simp] theorem SessionEntry.isSome_message?_prune (entry : Entry)
    (replacement : CommitReplacement) (now : Nat) :
    (entry.prune replacement now).message?.isSome = entry.message?.isSome := by
  cases h : entry.toolOutput? with
  | none => simp [SessionEntry.prune, h]
  | some message =>
    obtain ⟨stored, hbody, hprune⟩ := prune_eq h
    rw [hprune]
    simp [SessionEntry.message?, hbody]

def SessionEntry.renewed (entry : Entry) (now : Nat) : Entry :=
  match entry.toolOutput? with
  | some message => entry.withOutput { message with prunedAt := some now }
  | none => entry

theorem SessionEntry.prune_prune (entry : Entry) (replacement : CommitReplacement)
    (now later : Nat) :
    (entry.prune replacement now).prune replacement later = entry.prune replacement later := by
  cases h : entry.toolOutput? with
  | none => simp [SessionEntry.prune, h]
  | some message =>
    obtain ⟨stored, hbody, hprune⟩ := prune_eq h
    rw [SessionEntry.prune, toolOutput?_prune h, hprune, hprune]
    simp only [ToolResultMessage.prune_prune, ToolResultMessage.prune_later, SessionEntry.withOutput]

theorem SessionEntry.prune_renewed (entry : Entry) (replacement : CommitReplacement)
    (now later : Nat) :
    (entry.prune replacement now).prune replacement later =
    (entry.prune replacement now).renewed later := by
  cases h : entry.toolOutput? with
  | none => simp [SessionEntry.prune, SessionEntry.renewed, h]
  | some message =>
    rw [SessionEntry.prune, SessionEntry.renewed, toolOutput?_prune h]
    simp only [ToolResultMessage.prune_prune]

theorem outputText_prune (h : (outputText entry).isSome) :
    outputText (entry.prune replacement now) = some replacement.text := by
  cases hmessage : entry.toolOutput? with
  | none => simp [outputText, hmessage] at h
  | some message =>
    simp [outputText, SessionEntry.toolOutput?_prune hmessage, ToolResultMessage.prune,
      extractToolOutputText, joinLines]

end Prune

section Run

variable {sha256 : String → String} {plan : ToolOutputPrunePlan}
    {options : ToolOutputPruneCommitOptions} {clock : Nat → Nat}
  {byId : InsertionMap String Nat} {entries : List Entry} {run : CommitRun}
  {digest : ToolOutputPruneDigest} {now i j : Nat}

theorem exists_of_get?_messageIndexById {id : String}
    (h : (messageIndexById entries).get? id = some i) :
    ∃ entry, entries[i]? = some entry ∧ entry.id = id ∧ entry.message?.isSome := by
  obtain ⟨⟨entry, k⟩, hitem, hpair⟩ := List.mem_map.mp (InsertionMap.mem_of_get?_ofList h)
  obtain ⟨rfl, rfl⟩ := Prod.mk.inj hpair
  obtain ⟨hitem, hmessage⟩ := List.mem_filter.mp hitem
  exact ⟨entry, List.mem_zipIdx_iff_getElem?.mp hitem, rfl, hmessage⟩

inductive DigestStep (sha256 : String → String) (plan : ToolOutputPrunePlan)
    (options : ToolOutputPruneCommitOptions) (byId : InsertionMap String Nat) (now : Nat)
    (run : CommitRun) (digest : ToolOutputPruneDigest) : CommitRun → Prop
  | refused (outcome : CommitOutcome) (houtcome : outcome ≠ .committed) :
      DigestStep sha256 plan options byId now run digest (run.report digest.entryId outcome)
  | threw (message : String) (i : Nat) (entry : Entry) (hindex : byId.get? digest.entryId = some i)
      (hentry : run.entries[i]? = some entry) (htext : outputText entry = none) :
      DigestStep sha256 plan options byId now run digest { run with thrown := some message }
  | committed (i : Nat) (entry : Entry) (text : String) (replacement : CommitReplacement)
      (hindex : byId.get? digest.entryId = some i) (hentry : run.entries[i]? = some entry)
      (htext : outputText entry = some text) (hmatches : digest.Matches sha256 text)
      (hreplacement : replacementFor plan options digest.entryId = some replacement) :
      DigestStep sha256 plan options byId now run digest
        ({ run with
        entries :=
        run.entries.set i (entry.prune replacement now) }.report digest.entryId .committed)

theorem digestStep_commitDigest :
    DigestStep sha256 plan options byId now run digest
      (commitDigest sha256 plan options byId now run digest) := by
  unfold commitDigest
  split
  · exact .refused _ (by simp)
  · rename_i i entry hfound
    obtain ⟨i', hindex, hpair⟩ := Option.bind_eq_some_iff.mp hfound
    obtain ⟨entry', hentry, hpair⟩ := Option.map_eq_some_iff.mp hpair
    obtain ⟨rfl, rfl⟩ := Prod.mk.inj hpair
    split
    · rename_i htext
      exact .threw _ i' entry' hindex hentry htext
    · rename_i text htext
      split
      · exact .refused _ (by simp)
      · rename_i hmatches
        split
        · exact .refused _ (by simp)
        · rename_i replacement hreplacement
          exact .committed i' entry' text replacement hindex hentry htext
            (not_not.mp hmatches) hreplacement

theorem commitDigest_of_matches {entry : Entry} {text : String} {replacement : CommitReplacement}
    (hindex : byId.get? digest.entryId = some i) (hentry : run.entries[i]? = some entry)
    (htext : outputText entry = some text) (hmatches : digest.Matches sha256 text)
    (hreplacement : replacementFor plan options digest.entryId = some replacement) :
    commitDigest sha256 plan options byId now run digest =
      { run with
        entries :=
          run.entries.set i (entry.prune replacement now) }.report digest.entryId .committed := by
  simp [commitDigest, hindex, hentry, htext, hmatches, hreplacement]

/-- The entry at `j` is the one its id stands for, and it is reported as committed. -/
def Reported (entries : List Entry) (outcomes : List ToolOutputCommitOutcome) (j : Nat)
    (entry : Entry) : Prop :=
  (messageIndexById entries).get? entry.id = some j ∧ ⟨entry.id, .committed⟩ ∈ outcomes

def Recorded (sha256 : String → String) (plan : ToolOutputPrunePlan) (entry : Entry) : Prop :=
  ∃ digest ∈ plan.digests, digest.entryId = entry.id ∧ ∃ text, outputText entry = some text ∧
    digest.Matches sha256 text

structure CommitSound (sha256 : String → String) (plan : ToolOutputPrunePlan)
    (options : ToolOutputPruneCommitOptions) (clock : Nat → Nat) (entries : List Entry)
    (done : List ToolOutputPruneDigest) (run : CommitRun) : Prop where
  length : run.entries.length = entries.length
  kept : ∀ j entry, entries[j]? = some entry → ¬ Reported entries run.outcomes j entry →
    run.entries[j]? = some entry
  pruned : ∀ j entry, entries[j]? = some entry → Reported entries run.outcomes j entry →
    Recorded sha256 plan entry ∧ ∃ replacement k, replacementFor plan options entry.id =
    some replacement ∧
      run.entries[j]? = some (entry.prune replacement (clock k))
  found : ∀ id, ⟨id, .committed⟩ ∈ run.outcomes → ((messageIndexById entries).get? id).isSome
  threw : run.thrown.isSome →
    ∃ digest ∈ plan.digests, ∃ j entry, (messageIndexById entries).get? digest.entryId = some j ∧
    entries[j]? = some entry ∧ outputText entry = none
  complete : run.thrown = none → ∀ digest ∈ done, ∀ j entry text, entries[j]? = some entry →
    entry.id = digest.entryId →
    (messageIndexById entries).get? entry.id = some j → outputText entry = some text →
    digest.Matches sha256 text →
    (replacementFor plan options entry.id).isSome → Reported entries run.outcomes j entry

theorem CommitSound.start (sha256 : String → String) (plan : ToolOutputPrunePlan)
    (options : ToolOutputPruneCommitOptions) (clock : Nat → Nat) (entries : List Entry) :
    CommitSound sha256 plan options clock entries [] ⟨entries, [], none⟩ where
  length := rfl
  kept _ _ hentry _ := hentry
  pruned _ _ _ hreported := by cases hreported.2
  found _ h := by cases h
  threw h := by cases h
  complete _ _ h := by cases h

variable {run' : CommitRun} {done : List ToolOutputPruneDigest} {k : Nat}

theorem DigestStep.outcomes_subset (h : DigestStep sha256 plan options byId now run digest run') :
    run.outcomes ⊆ run'.outcomes := by
  cases h with
  | refused => exact List.subset_append_left _ _
  | threw => exact List.Subset.refl _
  | committed => exact List.subset_append_left _ _

theorem DigestStep.entries_eq (h : DigestStep sha256 plan options byId now run digest run') :
    (run'.entries = run.entries ∧ ∀ id, ⟨id, .committed⟩ ∈ run'.outcomes →
      ⟨id, .committed⟩ ∈ run.outcomes) ∨
    ∃ i entry text replacement, byId.get? digest.entryId = some i ∧ run.entries[i]? = some entry ∧
      outputText entry = some text ∧ digest.Matches sha256 text ∧
      replacementFor plan options digest.entryId = some replacement ∧
      run'.entries = run.entries.set i (entry.prune replacement now) ∧
      ∀ id, ⟨id, .committed⟩ ∈ run'.outcomes ↔ ⟨id, .committed⟩ ∈ run.outcomes ∨
        id = digest.entryId := by
  cases h with
  | refused outcome houtcome =>
    refine .inl ⟨rfl, fun id hid => ?_⟩
    rcases List.mem_append.mp hid with hid | hid
    · exact hid
    · exact absurd (ToolOutputCommitOutcome.mk.inj (List.mem_singleton.mp hid)).2.symm houtcome
  | threw => exact .inl ⟨rfl, fun _ hid => hid⟩
  | committed i entry text replacement hindex hentry htext hmatches hreplacement =>
    exact .inr ⟨i, entry, text, replacement, hindex, hentry, htext, hmatches, hreplacement, rfl,
      fun id => by simp [CommitRun.report]⟩

theorem CommitSound.complete_next (h : CommitSound sha256 plan options clock entries done run)
    (hrun : commitDigest sha256 plan options (messageIndexById entries) now run digest = run')
    (hthrown : run'.thrown = none) {digest' : ToolOutputPruneDigest}
    (hdigest : digest' ∈ done ++ [digest]) {entry : Entry} {text : String}
    (hentry : entries[j]? = some entry) (hid : entry.id = digest'.entryId)
    (hindex : (messageIndexById entries).get? entry.id = some j)
    (htext : outputText entry = some text) (hmatches : digest'.Matches sha256 text)
    (hreplacement : (replacementFor plan options entry.id).isSome) :
    Reported entries run'.outcomes j entry := by
  have hstep : DigestStep sha256 plan options (messageIndexById entries) now run digest run' :=
    hrun ▸ digestStep_commitDigest
  by_cases hreported : Reported entries run.outcomes j entry
  · exact ⟨hindex, hstep.outcomes_subset hreported.2⟩
  · rcases List.mem_append.mp hdigest with hdone | hlast
    · have hrunning : run.thrown = none := by
        cases hstep with
        | refused => exact hthrown
        | threw => cases hthrown
        | committed => exact hthrown
      exact absurd (h.complete hrunning digest' hdone j entry text hentry hid hindex htext hmatches
        hreplacement) hreported
    · obtain rfl := List.mem_singleton.mp hlast
      obtain ⟨replacement, hreplacement⟩ := Option.isSome_iff_exists.mp hreplacement
      rw [commitDigest_of_matches (hid ▸ hindex) (h.kept j entry hentry hreported) htext hmatches
        (hid ▸ hreplacement)] at hrun
      subst hrun
      exact ⟨hindex, List.mem_append_right _ (by simp [hid])⟩

theorem CommitSound.outputText_eq_none (h : CommitSound sha256 plan options clock entries done run)
    {entry start : Entry} (hstart : entries[j]? = some start) (hentry : run.entries[j]? = some entry)
    (htext : outputText entry = none) :
    outputText start = none := by
  by_cases hreported : Reported entries run.outcomes j start
  · obtain ⟨⟨-, -, -, text, hstartText, -⟩, replacement, k, -, hpruned⟩ :=
      h.pruned j start hstart hreported
    obtain rfl := Option.some.inj (hpruned.symm.trans hentry)
    rw [outputText_prune (by simp [hstartText])] at htext
    cases htext
  · obtain rfl := Option.some.inj ((h.kept j start hstart hreported).symm.trans hentry)
    exact htext

theorem CommitSound.threw_next (h : CommitSound sha256 plan options clock entries done run)
    (hdigest : digest ∈ plan.digests)
    (hstep : DigestStep sha256 plan options (messageIndexById entries) now run digest run')
    (hthrown : run'.thrown.isSome) :
    ∃ digest ∈ plan.digests, ∃ j entry, (messageIndexById entries).get? digest.entryId = some j ∧
      entries[j]? = some entry ∧ outputText entry = none := by
  cases hstep with
  | refused => exact h.threw hthrown
  | threw message i entry hindex hentry htext =>
    obtain ⟨start, hstart, -⟩ := exists_of_get?_messageIndexById hindex
    exact ⟨digest, hdigest, i, start, hindex, hstart, h.outputText_eq_none hstart hentry htext⟩
  | committed => exact h.threw hthrown

theorem CommitSound.next (h : CommitSound sha256 plan options clock entries done run)
    (hdigest : digest ∈ plan.digests)
    (hrun : commitDigest sha256 plan options (messageIndexById entries) (clock k) run
    digest = run') :
    CommitSound sha256 plan options clock entries (done ++ [digest]) run' := by
  have hstep : DigestStep sha256 plan options (messageIndexById entries) (clock k) run digest run' :=
    hrun ▸ digestStep_commitDigest
  rcases hstep.entries_eq with ⟨hentries, hcommitted⟩ | ⟨i, found, text, replacement, hindex, hfound,
    htext, hmatches, hreplacement, hentries, hcommitted⟩
  · have hreported : ∀ j entry, Reported entries run'.outcomes j entry →
        Reported entries run.outcomes j entry :=
      fun j entry hr => ⟨hr.1, hcommitted _ hr.2⟩
    refine ⟨?_, ?_, ?_, ?_, h.threw_next hdigest hstep,
      fun hthrown _ hdone _ _ _ => h.complete_next hrun hthrown hdone⟩
    · rw [hentries, h.length]
    · intro j entry hentry hnot
      rw [hentries]
      exact h.kept j entry hentry fun hr => hnot ⟨hr.1, hstep.outcomes_subset hr.2⟩
    · intro j entry hentry hr
      rw [hentries]
      exact h.pruned j entry hentry (hreported j entry hr)
    · exact fun id hid => h.found id (hcommitted id hid)
  · obtain ⟨start, hstart, hid, -⟩ := exists_of_get?_messageIndexById hindex
    refine ⟨?_, ?_, ?_, ?_, h.threw_next hdigest hstep,
      fun hthrown _ hdone _ _ _ => h.complete_next hrun hthrown hdone⟩
    · rw [hentries, List.length_set, h.length]
    · intro j entry hentry hnot
      have hne : i ≠ j := by
        rintro rfl
        obtain rfl := Option.some.inj (hstart.symm.trans hentry)
        exact hnot ⟨hid ▸ hindex, (hcommitted _).mpr (.inr hid)⟩
      rw [hentries, List.getElem?_set_ne hne]
      exact h.kept j entry hentry fun hr => hnot ⟨hr.1, hstep.outcomes_subset hr.2⟩
    · intro j entry hentry hr
      rw [hentries]
      by_cases hij : i = j
      · subst hij
        obtain rfl := Option.some.inj (hstart.symm.trans hentry)
        rw [List.getElem?_set_self' , hfound]
        by_cases hbefore : Reported entries run.outcomes i start
        · obtain ⟨hrecorded, replacement', t, hreplacement', hpruned⟩ :=
            h.pruned i start hentry hbefore
          rw [hid, hreplacement] at hreplacement'
          obtain rfl := Option.some.inj hreplacement'
          obtain rfl := Option.some.inj (hpruned.symm.trans hfound)
          exact ⟨hrecorded, replacement, k, hid ▸ hreplacement, by simp [SessionEntry.prune_prune]⟩
        · obtain rfl := Option.some.inj ((h.kept i start hentry hbefore).symm.trans hfound)
          exact ⟨⟨digest, hdigest, hid.symm, text, htext, hmatches⟩, replacement, k,
            hid ▸ hreplacement, by simp⟩
      · rw [List.getElem?_set_ne hij]
        refine h.pruned j entry hentry ⟨hr.1,
          ((hcommitted _).mp hr.2).resolve_right fun heq => hij ?_⟩
        exact Option.some.inj (hindex.symm.trans (heq ▸ hr.1))
    · intro id hmem
      rcases (hcommitted id).mp hmem with hmem | rfl
      · exact h.found id hmem
      · rw [hindex]
        rfl

theorem CommitSound.foldl {rest : List (ToolOutputPruneDigest × Nat)}
    (h : CommitSound sha256 plan options clock entries done run)
    (hrest : ∀ item ∈ rest, item.1 ∈ plan.digests) :
    CommitSound sha256 plan options clock entries (done ++ rest.map Prod.fst)
      (rest.foldl (commitStep sha256 plan options (messageIndexById entries) clock) run) := by
  induction rest generalizing done run with
  | nil => simpa using h
  | cons item rest ih =>
    have hstep : CommitSound sha256 plan options clock entries (done ++ [item.1])
        (commitStep sha256 plan options (messageIndexById entries) clock run item) := by
      unfold commitStep
      cases hthrown : run.thrown with
      | none => exact h.next (hrest item List.mem_cons_self) rfl
      | some message => exact { h with complete := fun hnone => by simp [hthrown] at hnone }
    have := ih hstep fun item' hitem => hrest item' (List.mem_cons_of_mem _ hitem)
    simpa using this

theorem commitSound_commitRun (sha256 : String → String) (plan : ToolOutputPrunePlan)
    (options : ToolOutputPruneCommitOptions) (clock : Nat → Nat) (entries : List Entry) :
    CommitSound sha256 plan options clock entries plan.digests
      (commitRun sha256 plan options clock entries) := by
  have hrest : ∀ item ∈ plan.digests.zipIdx, item.1 ∈ plan.digests := fun item hitem =>
    List.fst_mem_of_mem_zipIdx hitem
  simpa [commitRun] using (CommitSound.start sha256 plan options clock entries).foldl hrest

end Run

section Again

variable {sha256 : String → String} {plan : ToolOutputPrunePlan}
    {options : ToolOutputPruneCommitOptions} {clock clock' : Nat → Nat}
  {entries after : List Entry} {run : CommitRun} {j : Nat} {entry : Entry}

theorem messageIndexById_congr
    (h : after.map (fun e : Entry => (e.id, e.message?.isSome)) = entries.map fun e =>
      (e.id, e.message?.isSome)) :
    messageIndexById after = messageIndexById entries := by
  have hkeys (es : List Entry) : (es.zipIdx.filter fun item => item.1.message?.isSome).map
      (fun item => (item.1.id, item.2)) =
      (((es.map fun e => (e.id, e.message?.isSome)).zipIdx).filter fun item => item.1.2).map
      fun item => (item.1.1, item.2) := by
    simp [List.zipIdx_map, List.filter_map, Function.comp_def]
  rw [messageIndexById, messageIndexById, hkeys, hkeys, h]

theorem CommitSound.messageIndexById_eq {done : List ToolOutputPruneDigest}
    (h : CommitSound sha256 plan options clock entries done run) :
    messageIndexById run.entries = messageIndexById entries := by
  refine messageIndexById_congr (List.ext_getElem? fun j => ?_)
  rw [List.getElem?_map, List.getElem?_map]
  cases hentry : entries[j]? with
  | none =>
    rw [List.getElem?_eq_none_iff] at hentry
    rw [List.getElem?_eq_none (by rw [h.length]; exact hentry)]
  | some entry =>
    by_cases hreported : Reported entries run.outcomes j entry
    · obtain ⟨-, replacement, k, -, hpruned⟩ := h.pruned j entry hentry hreported
      simp [hpruned]
    · rw [h.kept j entry hentry hreported]

theorem commitRun_again (hthrown : (commitRun sha256 plan options clock entries).thrown = none)
    (hentry : (commitRun sha256 plan options clock entries).entries[j]? = some entry) :
    (commitRun sha256 plan options clock'
      (commitRun sha256 plan options clock entries).entries).entries[j]? = some entry ∨
      ∃ replacement k, replacementFor plan options entry.id = some replacement ∧
        outputText entry = some replacement.text ∧
        Recorded sha256 plan entry ∧
        (commitRun sha256 plan options clock'
          (commitRun sha256 plan options clock entries).entries).entries[j]? =
          some (entry.renewed (clock' k)) := by
  have hfirst := commitSound_commitRun sha256 plan options clock entries
  generalize commitRun sha256 plan options clock entries = first at *
  have hsecond := commitSound_commitRun sha256 plan options clock' first.entries
  generalize commitRun sha256 plan options clock' first.entries = second at *
  by_cases hagain : Reported first.entries second.outcomes j entry
  · obtain ⟨hrecorded, replacement, k, hreplacement, hpruned⟩ := hsecond.pruned j entry hentry hagain
    have hindex := hagain.1
    rw [hfirst.messageIndexById_eq] at hindex
    obtain ⟨start, hstart, hid, -⟩ := exists_of_get?_messageIndexById hindex
    have hreported : Reported entries first.outcomes j start := by
      by_contra hnot
      obtain rfl := Option.some.inj ((hfirst.kept j start hstart hnot).symm.trans hentry)
      obtain ⟨digest, hdigest, hsame, text, htext, hmatches⟩ := hrecorded
      exact hnot (hfirst.complete hthrown digest hdigest j start text hstart hsame.symm hindex
        htext hmatches
        (by simp [hreplacement]))
    obtain ⟨⟨-, -, -, text, htext, -⟩, replacement', k', hreplacement', hentry'⟩ :=
      hfirst.pruned j start hstart hreported
    rw [hid, hreplacement] at hreplacement'
    obtain rfl := Option.some.inj hreplacement'
    obtain rfl := Option.some.inj (hentry'.symm.trans hentry)
    refine .inr ⟨replacement, k, hreplacement, outputText_prune (by simp [htext]), hrecorded, ?_⟩
    rw [hpruned, SessionEntry.prune_renewed]
  · exact .inl (hsecond.kept j entry hentry hagain)

end Again

section Plan

variable {services : PruneServices} {entries : List Entry} {config : PruneConfig}
    {options : PruneToolOutputsOptions}
  {stale : List Nat} {fenceStart : Option Nat} {tokens i : Nat} {entry : Entry}
  {message : ToolResultMessage}
  {candidate candidate' : ToolOutputPruneCandidate} {candidates : List ToolOutputPruneCandidate}
  {plan : ToolOutputPrunePlan}

structure CandidateSound (services : PruneServices)
    (candidate : ToolOutputPruneCandidate) : Prop where
  message : getToolResultMessage candidate.entry = some candidate.message
  tokens : candidate.tokens = services.estimateEntryTokens candidate.entry
  originalText : candidate.originalText = (extractToolOutputText candidate.message).1

theorem candidateSound_of_selectCandidate (hmessage : getToolResultMessage entry = some message)
    (h : selectCandidate services entries config stale fenceStart tokens i entry message =
      some candidate) :
    candidate.entry = entry ∧ CandidateSound services candidate := by
  unfold selectCandidate at h
  dsimp only at h
  split at h
  · cases h
  · split at h
    · cases h
    · obtain ⟨notice, rfl⟩ := withNotice_eq h
      exact ⟨rfl, hmessage, rfl, rfl⟩

theorem collectFrom_sound (k tokens : Nat) :
    ((collectFrom services entries config stale fenceStart k tokens).map fun c => c.entry).Sublist
    (entries.take k).reverse ∧
      ∀ c ∈ collectFrom services entries config stale fenceStart k tokens,
        CandidateSound services c := by
  induction k generalizing tokens with
  | zero => simp [collectFrom]
  | succ i ih =>
    unfold collectFrom
    cases hentry : entries[i]? with
    | none =>
      have hlength := List.getElem?_eq_none_iff.mp hentry
      have htake : entries.take (i + 1) = entries.take i := by
        rw [List.take_of_length_le hlength, List.take_of_length_le (Nat.le_succ_of_le hlength)]
      rw [htake]
      exact ih tokens
    | some entry =>
      have htake : (entries.take (i + 1)).reverse = entry :: (entries.take i).reverse := by
        rw [List.take_add_one, hentry]
        simp
      rw [htake]
      cases hmessage : getToolResultMessage entry with
      | none =>
        exact ⟨by simpa [hmessage] using (ih tokens).1.cons entry, by simpa [hmessage] using (ih tokens).2⟩
      | some message =>
        simp only [Option.bind_some, hmessage, Option.map_some]
        have hrest := ih (tokens + services.estimateEntryTokens entry)
        cases hselect : selectCandidate services entries config stale fenceStart tokens i
          entry message with
        | none => exact ⟨hrest.1.cons entry, hrest.2⟩
        | some c =>
          obtain ⟨rfl, hsound⟩ := candidateSound_of_selectCandidate hmessage hselect
          refine ⟨hrest.1.cons_cons c.entry, ?_⟩
          intro c' hc'
          rcases List.mem_cons.mp hc' with rfl | hc'
          · exact hsound
          · exact hrest.2 c' hc'

theorem withNotice_sound {artifact : Option String} (hsound : CandidateSound services candidate)
    (h : withNotice services candidate artifact = some candidate') :
    candidate'.entry = candidate.entry ∧ CandidateSound services candidate' ∧
      candidate'.savings = (candidate'.tokens : Int) -
        services.estimateTextTokens candidate'.notice := by
  obtain ⟨notice, rfl⟩ := withNotice_eq h
  exact ⟨rfl, ⟨hsound.message, hsound.tokens, hsound.originalText⟩, rfl⟩

structure PlannedFrom (services : PruneServices) (entries : List Entry)
    (planned : List ToolOutputPruneCandidate) : Prop where
  sublist : (planned.map fun c => c.entry).Sublist entries.reverse
  sound : ∀ c ∈ planned, CandidateSound services c
  savings : ∀ c ∈ planned, c.savings = (c.tokens : Int) - services.estimateTextTokens c.notice

theorem plannedFrom_filterMap {artifact : ToolOutputPruneCandidate → Option String}
    (hsub : (candidates.map fun c => c.entry).Sublist entries.reverse)
    (hsound : ∀ c ∈ candidates, CandidateSound services c) :
    PlannedFrom services entries
      (candidates.filterMap fun c => withNotice services c (artifact c)) := by
  have hnotice : ∀ c ∈ candidates.filterMap fun c =>
    withNotice services c (artifact c), CandidateSound services c ∧
      c.savings = (c.tokens : Int) - services.estimateTextTokens c.notice := by
    intro c hc
    obtain ⟨c', hc', hnotice⟩ := List.mem_filterMap.mp hc
    exact (withNotice_sound (hsound c' hc') hnotice).2
  refine ⟨List.Sublist.trans ?_ hsub, fun c hc => (hnotice c hc).1, fun c hc => (hnotice c hc).2⟩
  clear hnotice hsub
  induction candidates with
  | nil => simp
  | cons c candidates ih =>
    have hrest := ih fun c' hc' => hsound c' (List.mem_cons_of_mem _ hc')
    cases hnotice : withNotice services c (artifact c) with
    | none =>
      simp only [List.filterMap_cons, hnotice]
      exact hrest.cons c.entry
    | some c' =>
      simp only [List.filterMap_cons, hnotice, List.map_cons,
        (withNotice_sound (hsound c List.mem_cons_self) hnotice).1]
      exact hrest.cons_cons c.entry

theorem plannedFrom_planToolOutputPruneCandidates {planned : List ToolOutputPruneCandidate}
    (h : planToolOutputPruneCandidates services
      (collectToolOutputPruneCandidates services entries config) options =
      .ok planned) : PlannedFrom services entries planned := by
  obtain ⟨artifact, rfl⟩ := planToolOutputPruneCandidates_eq h
  have hsub : ((collectToolOutputPruneCandidates services entries config).map fun c =>
    c.entry).Sublist
      (entries.take entries.length).reverse := (collectFrom_sound entries.length 0).1
  rw [List.take_length] at hsub
  exact plannedFrom_filterMap hsub (collectFrom_sound entries.length 0).2

theorem planToolOutputPrune_eq (h : planToolOutputPrune services entries config options = .ok plan) :
    ∃ planned, PlannedFrom services entries planned ∧ plan.tokensSaved = totalSavings planned ∧
      plan.digests = planned.map
        (fun c => ⟨c.entry.id, services.sha256 c.originalText, c.originalText.utf8ByteSize⟩) ∧
      plan.replacements = planned.map fun c => ⟨c.entry.id, c.notice, c.complete, c.tokens⟩ := by
  rcases planToolOutputPrune_cases h with rfl | ⟨planned, hplanned, rfl⟩
  · exact ⟨[], ⟨by simp, by simp, by simp⟩, rfl, rfl, rfl⟩
  · exact ⟨planned, plannedFrom_planToolOutputPruneCandidates hplanned, rfl, rfl, rfl⟩

end Plan

section Commit

variable {services : PruneServices} {planned : List Entry} {config : PruneConfig}
    {pruneOptions : PruneToolOutputsOptions}
  {plan : ToolOutputPrunePlan} {entry : Entry}

theorem outputText_of_getToolResultMessage {message : ToolResultMessage}
    (h : getToolResultMessage entry = some message) :
    outputText entry = some (extractToolOutputText message).1 := by
  unfold getToolResultMessage at h
  split at h
  · rename_i result hbody
    obtain rfl := Option.some.inj h
    simp [outputText, SessionEntry.toolOutput?, SessionEntry.message?, hbody,
      StoredMessage.toolOutput?]
  · cases h

def CollisionFree (sha256 : String → String) (planned : List Entry) : Prop :=
  ∀ p ∈ planned, ∀ message ∈ getToolResultMessage p, ∀ text,
    sha256 text = sha256 (extractToolOutputText message).1 → text = (extractToolOutputText message).1

theorem exists_planned_of_recorded
    (hplan : planToolOutputPrune services planned config pruneOptions = .ok plan)
    (hsha : CollisionFree services.sha256 planned) (h : Recorded services.sha256 plan entry) :
    ∃ p ∈ planned, p.id = entry.id ∧ (getToolResultMessage p).isSome ∧
      outputText p = outputText entry := by
  obtain ⟨digest, hdigest, hid, text, htext, hmatches⟩ := h
  obtain ⟨candidates, hfrom, -, hdigests, -⟩ := planToolOutputPrune_eq hplan
  rw [hdigests] at hdigest
  obtain ⟨c, hc, rfl⟩ := List.mem_map.mp hdigest
  have hsound := hfrom.sound c hc
  have hmem : c.entry ∈ planned :=
    List.mem_reverse.mp (hfrom.sublist.subset (List.mem_map_of_mem hc))
  refine ⟨c.entry, hmem, hid, by simp [hsound.message], ?_⟩
  have hsame : text = (extractToolOutputText c.message).1 :=
    hsha c.entry hmem c.message hsound.message text (hsound.originalText ▸ hmatches.2)
  rw [outputText_of_getToolResultMessage hsound.message, htext, hsame]

/-- Every message that an id of the plan stands for has a content. -/
def HasContents (plan : ToolOutputPrunePlan) (entries : List Entry) : Prop :=
  ∀ digest ∈ plan.digests, ∀ j entry, (messageIndexById entries).get? digest.entryId = some j →
    entries[j]? = some entry →
    (outputText entry).isSome

/-- The entry holds the text of a tool result that was planned under its id. -/
def AsPlanned (planned : List Entry) (entry : Entry) : Prop :=
  ∃ p ∈ planned, p.id = entry.id ∧ (getToolResultMessage p).isSome ∧ outputText p = outputText entry

/-- A commit changes only entries that are as planned. Where it finds contents it returns, and has
changed exactly the entries it reports; a second commit then changes at most the time of an entry
whose replacement is the text the plan recorded. -/
theorem commitToolOutputPrune_touches_planned
    (hplan : planToolOutputPrune services planned config pruneOptions = .ok plan)
    (hsha : CollisionFree services.sha256 planned) (options : ToolOutputPruneCommitOptions)
    (clock clock' : Nat → Nat) (entries : List Entry) :
    (∀ (j : Nat) (entry : Entry), entries[j]? = some entry →
      (commitToolOutputPrune services.sha256 plan options clock
        entries).1[j]? = some entry ∨ AsPlanned planned entry ∧
        ∃ replacement k, replacementFor plan options entry.id = some replacement ∧
          (commitToolOutputPrune services.sha256 plan options clock entries).1[j]? = some
          (entry.prune replacement (clock k))) ∧
    (HasContents plan entries → ∃ after outcomes,
      commitToolOutputPrune services.sha256 plan options clock entries = (after, .ok outcomes) ∧
      after.length = entries.length ∧
      (∀ id, ⟨id, .committed⟩ ∈ outcomes → ∃ j entry, entries[j]? = some entry ∧ entry.id = id ∧
        Reported entries outcomes j entry) ∧
      (∀ j entry, entries[j]? = some entry → Reported entries outcomes j entry →
        AsPlanned planned entry ∧
        ∃ replacement k, replacementFor plan options entry.id = some replacement ∧
          after[j]? = some (entry.prune replacement (clock k))) ∧
      (∀ j entry, entries[j]? = some entry → ¬ Reported entries outcomes j entry →
        after[j]? = some entry) ∧
      ∀ (j : Nat) (entry : Entry), after[j]? = some entry →
        (commitToolOutputPrune services.sha256 plan options clock' after).1[j]? = some entry ∨
          ∃ replacement k, replacementFor plan options entry.id = some replacement ∧
            (∃ p ∈ planned, p.id = entry.id ∧ outputText p = some replacement.text) ∧
            (commitToolOutputPrune services.sha256 plan options clock' after).1[j]? = some
            (entry.renewed (clock' k))) := by
  have hsound := commitSound_commitRun services.sha256 plan options clock entries
  have hpruned : ∀ j entry, entries[j]? = some entry →
      Reported entries (commitRun services.sha256 plan options clock entries).outcomes j entry →
      AsPlanned planned entry ∧
        ∃ replacement k, replacementFor plan options entry.id = some replacement ∧
          (commitRun services.sha256 plan options clock entries).entries[j]? =
          some (entry.prune replacement (clock k)) := by
    intro j entry hentry hreported
    obtain ⟨hrecorded, hpruned⟩ := hsound.pruned j entry hentry hreported
    exact ⟨exists_planned_of_recorded hplan hsha hrecorded, hpruned⟩
  constructor
  · intro j entry hentry
    by_cases hreported : Reported entries
      (commitRun services.sha256 plan options clock entries).outcomes j entry
    · exact .inr (hpruned j entry hentry hreported)
    · exact .inl (hsound.kept j entry hentry hreported)
  · intro hcontents
    have hthrown : (commitRun services.sha256 plan options clock entries).thrown = none := by
      by_contra hthrown
      obtain ⟨digest, hdigest, j, entry, hindex, hentry, htext⟩ :=
        hsound.threw (Option.isSome_iff_ne_none.mpr hthrown)
      have := hcontents digest hdigest j entry hindex hentry
      simp [htext] at this
    refine ⟨(commitRun services.sha256 plan options clock entries).entries,
      (commitRun services.sha256 plan options clock entries).outcomes, ?_, hsound.length, ?_,
      hpruned, hsound.kept, ?_⟩
    · simp [commitToolOutputPrune, hthrown]
    · intro id hid
      obtain ⟨j, hindex⟩ := Option.isSome_iff_exists.mp (hsound.found id hid)
      obtain ⟨entry, hentry, rfl, -⟩ := exists_of_get?_messageIndexById hindex
      exact ⟨j, entry, hentry, rfl, hindex, hid⟩
    · intro j entry hentry
      rcases commitRun_again hthrown hentry with hsame |
        ⟨replacement, k, hreplacement, htext, hrecorded, hrenewed⟩
      · exact .inl hsame
      · obtain ⟨p, hp, hid, -, hsame⟩ := exists_planned_of_recorded hplan hsha hrecorded
        exact .inr ⟨replacement, k, hreplacement, ⟨p, hp, hid, hsame.trans htext⟩, hrenewed⟩

def prunedShots : List Entry := [
  ⟨"e1", "", .message ⟨.assistant,
  .assistant [.toolCall ⟨"c1", "read", .obj [("path", .str "a.png")], none⟩,
    .toolCall ⟨"c2", "read", .obj [("path", .str "b.png")], none⟩]⟩⟩,
  ⟨"e2", "", .message ⟨.toolResult, .toolResult
    ⟨"c1", "read", [.text "[Output truncated - 1208 tokens]", .image "a"], false, none, none⟩⟩⟩,
  ⟨"e3", "", .message ⟨.toolResult, .toolResult
    ⟨"c2", "read", [.text "[Output truncated - 1208 tokens]", .image "b"], false, none, none⟩⟩⟩,
  ⟨"e4", "", .message ⟨.user, .other "go on"⟩⟩]

def shotServices : PruneServices where
  estimateEntryTokens _ := 1208
  estimateTextTokens _ := 8
  createPrunedNotice tokens _ _ _ := "[Output truncated - " ++ toString tokens ++ " tokens]"
  sha256 text := if text = "[Output truncated - 1208 tokens]" then
    "a82f1ff9523248c4c021a89059f41d04232ee45873fd611736141edb691a7d20" else ""

def shotConfig : PruneConfig :=
  { defaultPruneConfig with protectTokens := 0, protectedTools := ["skill"], minimumSavings := 2000 }

def shotPlan : ToolOutputPrunePlan where
  prunedCount := 2
  tokensSaved := 2400
  digests := [⟨"e3", "a82f1ff9523248c4c021a89059f41d04232ee45873fd611736141edb691a7d20", 32⟩,
    ⟨"e2", "a82f1ff9523248c4c021a89059f41d04232ee45873fd611736141edb691a7d20", 32⟩]
  replacements := [⟨"e3", "[Output truncated - 1208 tokens]", false, 1208⟩,
    ⟨"e2", "[Output truncated - 1208 tokens]", false, 1208⟩]

theorem planToolOutputPrune_prunedShots :
    planToolOutputPrune shotServices prunedShots shotConfig ⟨none, none⟩ = .ok shotPlan := by
  decide +kernel

theorem collisionFree_prunedShots : CollisionFree shotServices.sha256 prunedShots := by
  intro p hp message hmessage text htext
  have hrecorded : (extractToolOutputText message).1 = "[Output truncated - 1208 tokens]" := by
    simp only [prunedShots, List.mem_cons, List.not_mem_nil, or_false] at hp
    rcases hp with rfl | rfl | rfl | rfl <;> cases hmessage <;> rfl
  rw [hrecorded] at htext ⊢
  simp only [shotServices, if_true] at htext
  split at htext
  · assumption
  · exact absurd htext (by decide)

theorem hasContents_prunedShots : HasContents shotPlan prunedShots := by
  intro digest hdigest j entry hindex hentry
  have hj : j = 2 ∨ j = 1 := by
    simp only [shotPlan, List.mem_cons, List.not_mem_nil, or_false] at hdigest
    rcases hdigest with rfl | rfl
    · exact .inl (Option.some.inj hindex).symm
    · exact .inr (Option.some.inj hindex).symm
  rcases hj with rfl | rfl <;> cases hentry <;> rfl

theorem commitToolOutputPrune_touches_prunedShots :
    planToolOutputPrune shotServices prunedShots shotConfig ⟨none, none⟩ = .ok shotPlan ∧
    CollisionFree shotServices.sha256 prunedShots ∧ HasContents shotPlan prunedShots ∧
      ∃ after outcomes,
      commitToolOutputPrune shotServices.sha256 shotPlan noOverrides (fun _ => 1000) prunedShots =
        (after, .ok outcomes) ∧
      after.length = 4 ∧
      ∀ j entry, prunedShots[j]? = some entry → ¬ Reported prunedShots outcomes j entry →
        after[j]? = some entry := by
  refine ⟨planToolOutputPrune_prunedShots, collisionFree_prunedShots, hasContents_prunedShots, ?_⟩
  obtain ⟨after, outcomes, hcommit, hlength, -, -, hkept, -⟩ :=
    (commitToolOutputPrune_touches_planned planToolOutputPrune_prunedShots
      collisionFree_prunedShots noOverrides
      (fun _ => 1000) (fun _ => 2000) prunedShots).2 hasContents_prunedShots
  exact ⟨after, outcomes, hcommit, hlength, hkept⟩

theorem commitToolOutputPrune_again_renews :
    planToolOutputPrune shotServices prunedShots shotConfig ⟨none, none⟩ = .ok shotPlan ∧
    CollisionFree shotServices.sha256 prunedShots ∧
    (let first :=
  commitToolOutputPrune shotServices.sha256 shotPlan noOverrides (fun _ => 1000) prunedShots
    let second :=
      commitToolOutputPrune shotServices.sha256 shotPlan noOverrides (fun _ => 2000) first.1
    first.2 = .ok [⟨"e3", .committed⟩, ⟨"e2", .committed⟩] ∧
      (resultAt first.1 1).bind (fun m => m.prunedAt) = some 1000 ∧
      (resultAt second.1 1).bind (fun m => m.prunedAt) = some 2000 ∧ second.1 ≠ first.1) ∧
    let edited := prunedShots.set 1 ⟨"e2", "", .message ⟨.bashExecution, .other "ls"⟩⟩
    let thrown :=
      commitToolOutputPrune shotServices.sha256 shotPlan noOverrides (fun _ => 1000) edited
    thrown.2 = .error "TypeError" ∧ (resultAt edited 2).bind (fun m => m.prunedAt) = none ∧
      (resultAt thrown.1 2).bind (fun m => m.prunedAt) = some 1000 := by
  have hfirst : (resultAt
      (commitToolOutputPrune shotServices.sha256 shotPlan noOverrides (fun _ => 1000) prunedShots).1
      1).bind
      (fun m => m.prunedAt) = some 1000 := by decide +kernel
  have hsecond : (resultAt
      (commitToolOutputPrune shotServices.sha256 shotPlan noOverrides (fun _ => 2000)
      (commitToolOutputPrune shotServices.sha256 shotPlan noOverrides (fun _ => 1000)
      prunedShots).1).1 1).bind
      (fun m => m.prunedAt) = some 2000 := by decide +kernel
  refine ⟨planToolOutputPrune_prunedShots, collisionFree_prunedShots,
    ⟨by decide +kernel, hfirst, hsecond, ?_⟩, by decide +kernel, rfl, by decide +kernel⟩
  intro hsame
  rw [hsame, hfirst] at hsecond
  cases hsecond

end Commit

end JevCode.Session
