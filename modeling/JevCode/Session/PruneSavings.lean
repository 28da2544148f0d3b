import JevCode.Session.EntryTokens
import JevCode.Session.PruneCommit

namespace JevCode.Session

open JevCode.Data

variable (numberText : ℚ → List Char)

/-- The services of `planToolOutputPrune` with the estimates the source uses. -/
def heuristicServices
    (createPrunedNotice : Nat → ToolResultMessage → Option ToolCall → Option String → String)
    (sha256 : String → String) : PruneServices where
  estimateEntryTokens := estimateEntryTokens numberText
  estimateTextTokens := estimateTextTokens
  createPrunedNotice := createPrunedNotice
  sha256 := sha256

def totalEntryTokens (entries : List Entry) : Int :=
  (entries.map fun entry => (estimateEntryTokens numberText entry : Int)).sum

variable {entries : List Entry} {entry pruned : Entry} {i : Nat}

theorem totalEntryTokens_set (h : entries[i]? = some entry) :
    totalEntryTokens numberText (entries.set i pruned) = totalEntryTokens numberText entries -
      (estimateEntryTokens numberText entry - estimateEntryTokens numberText pruned) := by
  obtain ⟨hlt, rfl⟩ := List.getElem?_eq_some_iff.mp h
  rw [totalEntryTokens, List.map_set, List.sum_set', dif_pos (by simpa using hlt), List.getElem_map,
    totalEntryTokens]
  ring

theorem estimateEntryTokens_prune {message : ToolResultMessage}
    (h : getToolResultMessage entry = some message) (replacement : CommitReplacement) (now : Nat) :
    estimateEntryTokens numberText (entry.prune replacement now) =
      estimateTextTokens replacement.text := by
  unfold getToolResultMessage at h
  split at h
  · rename_i result hbody
    have houtput : entry.toolOutput? = some result := by
      simp [SessionEntry.toolOutput?, SessionEntry.message?, hbody, StoredMessage.toolOutput?]
    obtain ⟨stored, hstored, hprune⟩ := SessionEntry.prune_eq houtput
    obtain rfl := EntryBody.message.inj (hstored.symm.trans hbody)
    rw [hprune]
    exact countCollectedMessageFragments_text _ rfl
  · cases h

theorem get?_messageIndexById (hids : (entries.map fun e => e.id).Nodup)
    (hentry : entries[i]? = some entry) (hmessage : entry.message?.isSome) :
    (messageIndexById entries).get? entry.id = some i := by
  refine InsertionMap.get?_ofList_of_mem ?_ (List.mem_map.mpr ⟨(entry, i), ?_, rfl⟩)
  · have hfst : entries.zipIdx.map (fun item => item.1.id) = entries.map fun e => e.id := by
      conv_rhs => rw [← List.zipIdx_map_fst 0 entries, List.map_map]
      rfl
    rw [List.map_map]
    exact (hfst ▸ hids).sublist (List.filter_sublist.map _)
  · exact List.mem_filter.mpr ⟨List.mem_zipIdx_iff_getElem?.mpr hentry, hmessage⟩

theorem isSome_message?_of_getToolResultMessage {message : ToolResultMessage}
    (h : getToolResultMessage entry = some message) :
    entry.message?.isSome := by
  unfold getToolResultMessage at h
  split at h
  · rename_i hbody
    simp [SessionEntry.message?, hbody]
  · cases h

theorem replacementFor_planned {plan : ToolOutputPrunePlan} {planned : List ToolOutputPruneCandidate}
    (hreplacements : plan.replacements = planned.map fun c =>
      ⟨c.entry.id, c.notice, c.complete, c.tokens⟩)
    (hnodup : (planned.map fun c => c.entry.id).Nodup) {c : ToolOutputPruneCandidate}
    (hc : c ∈ planned) :
    replacementFor plan noOverrides c.entry.id = some ⟨c.notice, none⟩ := by
  have hget : (InsertionMap.ofList
      (plan.replacements.map fun replacement => (replacement.entryId, replacement))).get?
      c.entry.id = some ⟨c.entry.id, c.notice, c.complete, c.tokens⟩ := by
    refine InsertionMap.get?_ofList_of_mem ?_ ?_
    · simpa [hreplacements, Function.comp_def] using hnodup
    · rw [hreplacements, List.map_map]
      exact List.mem_map.mpr ⟨c, hc, rfl⟩
  simp [replacementFor, hget, noOverrides]

section Loop

variable {createPrunedNotice : Nat → ToolResultMessage → Option ToolCall → Option String → String}
    {sha256 : String → String}
  {plan : ToolOutputPrunePlan} {byId : InsertionMap String Nat} {clock : Nat → Nat} {run : CommitRun}

def ToolOutputPruneCandidate.digest (sha256 : String → String) (c : ToolOutputPruneCandidate) :
    ToolOutputPruneDigest :=
  ⟨c.entry.id, sha256 c.originalText, c.originalText.utf8ByteSize⟩

structure Pending (numberText : ℚ → List Char) (plan : ToolOutputPrunePlan)
    (byId : InsertionMap String Nat) (run : CommitRun) (c : ToolOutputPruneCandidate) : Prop where
  message : getToolResultMessage c.entry = some c.message
  text : c.originalText = (extractToolOutputText c.message).1
  savings : c.savings = (estimateEntryTokens numberText c.entry : Int) - estimateTextTokens c.notice
  replacement : replacementFor plan noOverrides c.entry.id = some ⟨c.notice, none⟩
  live : ∃ i, byId.get? c.entry.id = some i ∧ run.entries[i]? = some c.entry

theorem commitStep_running {options : ToolOutputPruneCommitOptions}
    {item : ToolOutputPruneDigest × Nat} (hthrown : run.thrown = none) :
    commitStep sha256 plan options byId clock run item =
      commitDigest sha256 plan options byId (clock item.2) run item.1 := by
  rw [commitStep, hthrown]

theorem Pending.commit {c : ToolOutputPruneCandidate} (sha256 : String → String)
    (clock : Nat → Nat) (k : Nat) (h : Pending numberText plan byId run c)
    (hthrown : run.thrown = none) :
    ∃ run', commitStep sha256 plan noOverrides byId clock run (c.digest sha256, k) = run' ∧
      run'.thrown = none ∧
      run'.outcomes = run.outcomes ++ [⟨c.entry.id, .committed⟩] ∧
      totalEntryTokens numberText run'.entries =
        totalEntryTokens numberText run.entries - c.savings ∧
      ∀ c', c'.entry.id ≠ c.entry.id → Pending numberText plan byId run c' →
        Pending numberText plan byId run' c' := by
  obtain ⟨i, hindex, hentry⟩ := h.live
  have hmatches : (c.digest sha256).Matches sha256 (extractToolOutputText c.message).1 := by
    rw [← h.text]
    exact ⟨rfl, rfl⟩
  have hstep : commitStep sha256 plan noOverrides byId clock run (c.digest sha256, k) =
      { run with entries := run.entries.set i (c.entry.prune ⟨c.notice, none⟩ (clock k)) }.report
      c.entry.id .committed := by
    rw [commitStep_running hthrown]
    exact commitDigest_of_matches hindex hentry (outputText_of_getToolResultMessage h.message)
      hmatches h.replacement
  refine ⟨_, hstep, hthrown, rfl, ?_, ?_⟩
  · rw [h.savings, ← estimateEntryTokens_prune numberText h.message ⟨c.notice, none⟩ (clock k)]
    exact totalEntryTokens_set numberText hentry
  · intro c' hne hpending
    obtain ⟨i', hindex', hentry'⟩ := hpending.live
    refine { hpending with live := ⟨i', hindex', ?_⟩ }
    have hii : i ≠ i' := by
      rintro rfl
      exact hne (congrArg _ (Option.some.inj (hentry'.symm.trans hentry)))
    exact (List.getElem?_set_ne hii).trans hentry'

theorem foldl_commitStep_pending (sha256 : String → String) (clock : Nat → Nat) {n : Nat}
    {cs : List ToolOutputPruneCandidate} (hpending : ∀ c ∈ cs, Pending numberText plan byId run c)
    (hnodup : (cs.map fun c => c.entry.id).Nodup) (hthrown : run.thrown = none) :
    ∃ run', ((cs.map (·.digest sha256)).zipIdx n).foldl
      (commitStep sha256 plan noOverrides byId clock) run = run' ∧
      run'.thrown = none ∧
        run'.outcomes = run.outcomes ++ cs.map (fun c => ⟨c.entry.id, .committed⟩) ∧
      totalEntryTokens numberText run'.entries = totalEntryTokens numberText run.entries -
        totalSavings cs := by
  induction cs generalizing run n with
  | nil => exact ⟨run, rfl, hthrown, by simp, by simp [totalSavings]⟩
  | cons c cs ih =>
    rw [List.map_cons, List.nodup_cons] at hnodup
    obtain ⟨next, hstep, hnext, houtcomes, htotal, hrest⟩ :=
      (hpending c List.mem_cons_self).commit numberText sha256 clock n hthrown
    have hpending' : ∀ c' ∈ cs, Pending numberText plan byId next c' := by
      intro c' hc'
      have hne : c'.entry.id ≠ c.entry.id := fun heq => hnodup.1 (List.mem_map.mpr ⟨c', hc', heq⟩)
      exact hrest c' hne (hpending c' (List.mem_cons_of_mem _ hc'))
    obtain ⟨run', hfold, hrun', houtcomes', htotal'⟩ := ih (n := n + 1) hpending' hnodup.2 hnext
    refine ⟨run', ?_, hrun', ?_, ?_⟩
    · rw [List.map_cons, List.zipIdx_cons, List.foldl_cons, hstep, hfold]
    · rw [houtcomes', houtcomes]
      simp
    · rw [htotal', htotal, totalSavings, totalSavings, List.map_cons, List.sum_cons]
      ring

/-- Committing a plan on the entries it was made for takes its savings off their estimate. -/
theorem commitToolOutputPrune_saves {config : PruneConfig} {options : PruneToolOutputsOptions}
    (clock : Nat → Nat) (hids : (entries.map fun e => e.id).Nodup)
    (hplan : planToolOutputPrune (heuristicServices numberText createPrunedNotice sha256) entries
      config options = .ok plan) :
    ∃ after, commitToolOutputPrune sha256 plan noOverrides clock entries =
        (after, .ok (plan.digests.map fun digest => ⟨digest.entryId, .committed⟩)) ∧
      (after.map fun entry => (estimateEntryTokens numberText entry : Int)).sum =
        (entries.map fun entry =>
          (estimateEntryTokens numberText entry : Int)).sum - plan.tokensSaved := by
  obtain ⟨planned, hfrom, hsaved, hdigests, hreplacements⟩ := planToolOutputPrune_eq hplan
  have hnodup : (planned.map fun c => c.entry.id).Nodup := by
    have hids' : (entries.reverse.map fun e => e.id).Nodup := by
      rw [List.map_reverse]
      exact List.nodup_reverse.mpr hids
    have hsub := hids'.sublist (hfrom.sublist.map fun e => e.id)
    rwa [List.map_map] at hsub
  have hpending : ∀ c ∈ planned, Pending numberText plan (messageIndexById entries) ⟨entries,
      [], none⟩ c := by
    intro c hc
    have hsound := hfrom.sound c hc
    have hmem : c.entry ∈ entries :=
      List.mem_reverse.mp (hfrom.sublist.subset (List.mem_map_of_mem hc))
    obtain ⟨i, hentry⟩ := List.mem_iff_getElem?.mp hmem
    have hindex :=
      get?_messageIndexById hids hentry (isSome_message?_of_getToolResultMessage hsound.message)
    refine ⟨hsound.message, hsound.originalText, ?_, replacementFor_planned hreplacements hnodup hc,
      i, hindex, hentry⟩
    rw [hfrom.savings c hc, hsound.tokens]
    rfl
  obtain ⟨run, hrun, hthrown, houtcomes, htotal⟩ :=
    foldl_commitStep_pending numberText sha256 clock (n := 0) hpending hnodup rfl
  have hcommit : commitRun sha256 plan noOverrides clock entries = run := by
    rw [commitRun, hdigests]
    exact hrun
  refine ⟨run.entries, ?_, ?_⟩
  · rw [commitToolOutputPrune, hcommit]
    simp [hthrown, houtcomes, hdigests, Function.comp_def]
  · rw [hsaved]
    exact htotal

theorem commitToolOutputPrune_saves_prunedShots :
    (prunedShots.map fun e => e.id).Nodup ∧ ∃ after,
      commitToolOutputPrune shotServices.sha256 shotPlan noOverrides (fun _ => 1000) prunedShots =
        (after, .ok [⟨"e3", .committed⟩, ⟨"e2", .committed⟩]) ∧
      (after.map fun entry => (estimateEntryTokens (fun n => (toString n).toList) entry : Int)).sum =
        (prunedShots.map fun entry =>
          (estimateEntryTokens (fun n => (toString n).toList) entry : Int)).sum - 2400 := by
  have hids : (prunedShots.map fun e => e.id).Nodup := by decide
  have hplan : planToolOutputPrune
      (heuristicServices (fun n => (toString n).toList) shotServices.createPrunedNotice
      shotServices.sha256) prunedShots shotConfig ⟨none, none⟩ = .ok shotPlan := by decide +kernel
  exact ⟨hids, commitToolOutputPrune_saves _ (fun _ => 1000) hids hplan⟩

end Loop

end JevCode.Session
