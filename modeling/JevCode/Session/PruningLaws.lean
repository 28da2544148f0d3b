import JevCode.Data.Loop
import JevCode.Session.Pruning
import Mathlib.Data.List.Sort

namespace JevCode.Session

open JevCode.Data

variable {entries : List Entry} {i j n : Nat} {path : String}

def resultMetaAt (entries : List Entry) (i : Nat) : Option ResultMeta := do
  let message ← resultAt entries i
  let call ← (callsById entries).get? message.toolCallId
  if message.isError then none else some ⟨toolTargetKey call, call, message⟩

/-- The result at `j` shows that `path` was changed: an applied change names the file, or an edit
that did not fail touches it. -/
def EditsPath (entries : List Entry) (j : Nat) (path : String) : Prop :=
  ∃ message ∈ resultAt entries j, ∃ call ∈ (callsById entries).get? message.toolCallId,
    ((call.name = "resolve" ∨ call.name = "ast_edit") ∧ path ∈ resultDetailFiles message) ∨
      (message.isError = false ∧ call.name ∈ editToolNames ∧ path ∈ mutatedPaths call message)

inductive StaleWitness (entries : List Entry) (result : ResultMeta) (j : Nat) : Prop
  | sameKey (later : ResultMeta) (key : TargetKey) (hlater : resultMetaAt entries j = some later)
      (hkey : result.key = some key) (hlaterKey : later.key = some key)
  | widerRead (later : ResultMeta) (path laterPath : String) (range laterRange : ReadLineRange)
      (hlater : resultMetaAt entries j = some later) (hread : result.call.name = "read" ∧
      later.call.name = "read")
      (hpath : toolCallPath result.call = some path ∧ toolCallPath later.call = some laterPath)
      (hbase : readBasePath laterPath = readBasePath path)
      (hranges : readLineRanges path = [range] ∧ readLineRanges laterPath = [laterRange])
      (hcontains : laterRange.start ≤ range.start ∧ range.stop ≤ laterRange.stop ∧
        laterRange ≠ range)
  | edited (path : String) (hread : result.call.name = "read") (hpath : path ∈ lookupPaths result)
      (hedit : EditsPath entries j path)

def Stale (entries : List Entry) (i : Nat) : Prop :=
  ∃ result, resultMetaAt entries i = some result ∧ ∃ j, i < j ∧ StaleWitness entries result j

section Index

theorem resultMetaAt_of_add {message : ToolResultMessage} {call : ToolCall}
    (hresult : resultAt entries n = some message)
    (hcall : (callsById entries).get? message.toolCallId = some call)
    (herror : message.isError = false) :
    resultMetaAt entries n = some ⟨toolTargetKey call, call, message⟩ := by
  simp [resultMetaAt, hresult, hcall, herror]

theorem get?_setPaths_eq (index : InsertionMap String Nat) (paths : List String) (i : Nat)
    (path : String) :
    (setPaths index paths i).get? path = if path ∈ paths then some i else index.get? path := by
  induction paths generalizing index with
  | nil => simp [setPaths]
  | cons p paths ih =>
    rw [show setPaths index (p :: paths) i = setPaths (index.set p i) paths i from rfl, ih,
      InsertionMap.get?_set]
    by_cases hmem : path ∈ paths
    · simp [hmem]
    · by_cases hp : path = p
      · simp [hp]
      · simp [hmem, hp]

theorem get?_setPaths {index : InsertionMap String Nat} {paths : List String}
    (h : (setPaths index paths i).get? path = some j) :
    (path ∈ paths ∧ j = i) ∨ index.get? path = some j := by
  rw [get?_setPaths_eq] at h
  split at h
  · rename_i hmem
    exact .inl ⟨hmem, (Option.some.inj h).symm⟩
  · exact .inr h

structure IndexSound (entries : List Entry) (n : Nat) (index : ResultIndex) : Prop where
  byKey : ∀ key j, index.lastResultIndexByKey.get? key = some j →
    ∃ result, resultMetaAt entries j = some result ∧ result.key = some key
  byPath : ∀ path j, index.lastEditIndexByPath.get? path = some j → EditsPath entries j path
  results : ∀ item ∈ index.resultMeta, resultMetaAt entries item.1 = some item.2
  below : ∀ item ∈ index.resultMeta, item.1 < n
  sorted : index.resultMeta.Pairwise fun a b => a.1 < b.1

theorem IndexSound.empty : IndexSound entries 0 .empty where
  byKey _ _ h := by cases h
  byPath _ _ h := by cases h
  results _ h := by cases h
  below _ h := by cases h
  sorted := .nil

theorem IndexSound.mono {index : ResultIndex} (h : IndexSound entries n index) :
    IndexSound entries (n + 1) index :=
  { h with below := fun item hitem => Nat.lt_succ_of_lt (h.below item hitem) }

theorem IndexSound.push {index : ResultIndex} {result : ResultMeta} (h : IndexSound entries n index)
    (hresult : resultMetaAt entries n = some result) :
    (∀ item ∈ index.resultMeta ++ [(n, result)], resultMetaAt entries item.1 = some item.2) ∧
      (∀ item ∈ index.resultMeta ++ [(n, result)], item.1 < n + 1) ∧
      (index.resultMeta ++ [(n, result)]).Pairwise fun a b => a.1 < b.1 := by
  refine ⟨?_, ?_, ?_⟩
  · intro item hitem
    rcases List.mem_append.mp hitem with hitem | hitem
    · exact h.results item hitem
    · rw [List.mem_singleton.mp hitem]
      exact hresult
  · intro item hitem
    rcases List.mem_append.mp hitem with hitem | hitem
    · exact Nat.lt_succ_of_lt (h.below item hitem)
    · rw [List.mem_singleton.mp hitem]
      exact Nat.lt_succ_self n
  · refine List.pairwise_append.mpr ⟨h.sorted, List.pairwise_singleton _ _, ?_⟩
    intro a ha b hb
    rw [List.mem_singleton.mp hb]
    exact h.below a ha

theorem IndexSound.add {index : ResultIndex} {entry : Entry} (h : IndexSound entries n index)
    (hentry : entries[n]? = some entry) :
    IndexSound entries (n + 1) (index.add (callsById entries) (entry, n)) := by
  unfold ResultIndex.add
  cases hmessage : getToolResultMessage entry with
  | none => exact h.mono
  | some message =>
    have hresult : resultAt entries n = some message := by simp [resultAt, hentry, hmessage]
    dsimp only
    cases hcall : (callsById entries).get? message.toolCallId with
    | none => exact h.mono
    | some call =>
      dsimp only
      have happlied : ∀ path j,
          (setPaths index.lastEditIndexByPath
            (if call.name = "resolve" ∨ call.name = "ast_edit" then resultDetailFiles message
            else []) n).get? path =
            some j → EditsPath entries j path := by
        intro path j hget
        rcases get?_setPaths hget with ⟨hmem, rfl⟩ | hget
        · split at hmem
          · rename_i hname
            exact ⟨message, hresult, call, hcall, .inl ⟨hname, hmem⟩⟩
          · cases hmem
        · exact h.byPath path j hget
      split
      · exact { h.mono with byPath := happlied }
      · rename_i herror
        have hmeta := resultMetaAt_of_add hresult hcall (by simpa using herror)
        obtain ⟨hresults, hbelow, hpairs⟩ := h.push hmeta
        refine ⟨?_, ?_, hresults, hbelow, hpairs⟩
        · intro key j hget
          dsimp only at hget
          cases hkey : toolTargetKey call with
          | none => exact h.byKey key j (by simpa [hkey] using hget)
          | some key' =>
            simp only [hkey, InsertionMap.get?_set] at hget
            split at hget
            · rename_i heq
              obtain rfl := Option.some.inj hget
              exact ⟨_, hmeta, by rw [heq]; exact hkey⟩
            · exact h.byKey key j hget
        · intro path j hget
          rcases get?_setPaths hget with ⟨hmem, rfl⟩ | hget
          · split at hmem
            · rename_i hname
              exact ⟨message, hresult, call, hcall, .inr ⟨by simpa using herror, hname, hmem⟩⟩
            · cases hmem
          · exact happlied path j hget

theorem indexSound_indexResults (entries : List Entry) :
    ∃ n, IndexSound entries n (indexResults entries) :=
  ⟨_, foldl_zipIdx .empty fun _ _ _ hentry h => h.add hentry⟩

end Index

section Reads

variable {items reads : List (Nat × ResultMeta)}

def isReadOf (base : String) (item : Nat × ResultMeta) : Bool :=
  item.2.call.name = "read" && (toolCallPath item.2.call).any fun path => readBasePath path = base

theorem get?_foldl_groupRead {done : List (Nat × ResultMeta)}
    {groups : InsertionMap String (List (Nat × ResultMeta))}
    (h : ∀ base, (groups.get? base).getD [] = done.filter (isReadOf base)) (base : String) :
    ((items.foldl groupRead groups).get? base).getD [] = (done ++ items).filter (isReadOf base) := by
  induction items generalizing done groups with
  | nil => simpa using h base
  | cons item items ih =>
    have hgroup : ∀ base, ((groupRead groups item).get? base).getD [] =
        (done ++ [item]).filter (isReadOf base) := by
      intro base
      unfold groupRead
      by_cases hread : item.2.call.name = "read"
      · cases hpath : toolCallPath item.2.call with
        | none => simp [hread, hpath, h, isReadOf]
        | some path =>
          simp only [hread, ne_eq, not_true_eq_false, if_false, InsertionMap.get?_set]
          by_cases hbase : base = readBasePath path
          · simp [hbase, h, isReadOf, hread, hpath]
          · simp [hbase, h, isReadOf, hpath, Ne.symm hbase]
      · simp [hread, h, isReadOf]
    have hrest := ih hgroup
    simpa using hrest

theorem readsByBasePath_eq (items : List (Nat × ResultMeta)) (base : String) :
    ((items.foldl groupRead InsertionMap.empty).get? base).getD [] = items.filter
    (isReadOf base) := by
  have hempty (base : String) :
      ((InsertionMap.empty : InsertionMap String (List (Nat × ResultMeta))).get? base).getD [] =
      [].filter (isReadOf base) := rfl
  exact get?_foldl_groupRead hempty base

theorem exists_of_mem_containedReads (h : i ∈ containedReads reads) :
    ∃ item later, [item, later].Sublist reads ∧ item.1 = i ∧
      readSupersedesRead later.2.call item.2.call = true := by
  induction reads with
  | nil => cases h
  | cons item reads ih =>
    unfold containedReads at h
    have hrest (h : i ∈ containedReads reads) := ih h
    split at h
    · rename_i hany
      rcases List.mem_cons.mp h with rfl | h
      · obtain ⟨later, hlater, hsupersedes⟩ := List.any_eq_true.mp hany
        exact ⟨item, later, (List.singleton_sublist.mpr hlater).cons_cons item, rfl, hsupersedes⟩
      · obtain ⟨a, b, hsub, hab⟩ := hrest h
        exact ⟨a, b, hsub.cons item, hab⟩
    · obtain ⟨a, b, hsub, hab⟩ := hrest h
      exact ⟨a, b, hsub.cons item, hab⟩

theorem ranges_of_readSupersedesRead {later earlier : ToolCall} {laterPath : String}
    (hpath : toolCallPath earlier = some path) (hlater : toolCallPath later = some laterPath)
    (h : readSupersedesRead later earlier = true) :
    ∃ range laterRange, readLineRanges path = [range] ∧ readLineRanges laterPath = [laterRange] ∧
      laterRange.start ≤ range.start ∧ range.stop ≤ laterRange.stop ∧ laterRange ≠ range := by
  simp only [readSupersedesRead, hpath, hlater, Option.map_some] at h
  split at h
  · rename_i laterRange range hl hr
    refine ⟨range, laterRange, Option.some.inj hr, Option.some.inj hl, ?_⟩
    simp only [strictlyContainsReadRange, Bool.and_eq_true, Bool.or_eq_true, decide_eq_true_eq] at h
    refine ⟨h.1.1, h.1.2, ?_⟩
    rintro rfl
    omega
  · cases h

end Reads

theorem stale_of_isSuperseded {item : Nat × ResultMeta} {index : ResultIndex}
    (hindex : IndexSound entries n index) (hitem : item ∈ index.resultMeta)
    (h : isSuperseded index item = true) : Stale entries item.1 := by
  refine ⟨item.2, hindex.results item hitem, ?_⟩
  simp only [isSuperseded, Bool.or_eq_true, Bool.and_eq_true, Option.any_eq_true, decide_eq_true_eq,
    List.any_eq_true, Option.bind_eq_some_iff] at h
  rcases h with ⟨j, ⟨key, hkey, hget⟩, hlt⟩ | ⟨hread, path, hpath, j, hget, hlt⟩
  · obtain ⟨later, hlater, hlaterKey⟩ := hindex.byKey key j hget
    exact ⟨j, hlt, .sameKey later key hlater hkey hlaterKey⟩
  · exact ⟨j, hlt, .edited path hread hpath (hindex.byPath path j hget)⟩

theorem stale_of_mem_buildStalenessIndex (h : i ∈ buildStalenessIndex entries) :
    Stale entries i := by
  obtain ⟨n, hindex⟩ := indexSound_indexResults entries
  rcases List.mem_append.mp h with h | h
  · obtain ⟨item, hitem, rfl⟩ := List.mem_map.mp h
    obtain ⟨hitem, hsuperseded⟩ := List.mem_filter.mp hitem
    exact stale_of_isSuperseded hindex hitem hsuperseded
  · obtain ⟨⟨base, reads⟩, hreads, hi⟩ := List.mem_flatMap.mp h
    have hreads : reads = (indexResults entries).resultMeta.filter (isReadOf base) := by
      rw [← readsByBasePath_eq, InsertionMap.mem_entries.mp hreads]
      rfl
    have hsub : reads.Sublist (indexResults entries).resultMeta := hreads ▸ List.filter_sublist
    have hgroup : ∀ item ∈ reads, item.2.call.name = "read" ∧
        ∃ path, toolCallPath item.2.call = some path ∧ readBasePath path = base := by
      intro item hitem
      rw [hreads] at hitem
      simpa [isReadOf, Option.any_eq_true] using (List.mem_filter.mp hitem).2
    obtain ⟨item, later, hpair, rfl, hsupersedes⟩ := exists_of_mem_containedReads hi
    have hlt : item.1 < later.1 :=
      (List.pairwise_cons.mp (hindex.sorted.sublist (hpair.trans hsub))).1 later (by simp)
    have hitem : item ∈ reads := hpair.subset (by simp)
    have hlater : later ∈ reads := hpair.subset (by simp)
    obtain ⟨hread, path, hpath, hbase⟩ := hgroup item hitem
    obtain ⟨hlaterRead, laterPath, hlaterPath, hlaterBase⟩ := hgroup later hlater
    obtain ⟨range, laterRange, hrange, hlaterRange, hcontains⟩ :=
      ranges_of_readSupersedesRead hpath hlaterPath hsupersedes
    exact ⟨item.2, hindex.results item (hsub.subset hitem), later.1, hlt,
      .widerRead later.2 path laterPath range laterRange (hindex.results later (hsub.subset hlater))
        ⟨hread, hlaterRead⟩ ⟨hpath, hlaterPath⟩ (hlaterBase.trans hbase.symm) ⟨hrange,
        hlaterRange⟩ hcontains⟩

section Plan

variable {services : PruneServices} {config : PruneConfig} {options : PruneToolOutputsOptions}
  {candidate candidate' : ToolOutputPruneCandidate} {entry : Entry} {message : ToolResultMessage}

def resultTokensFrom (services : PruneServices) (entries : List Entry) (n : Nat) : Nat :=
  (((entries.drop n).filter fun entry => (getToolResultMessage entry).isSome).map
    services.estimateEntryTokens).sum

structure Prunable (services : PruneServices) (config : PruneConfig) (entries : List Entry) (i : Nat)
    (message : ToolResultMessage) : Prop where
  result : resultAt entries i = some message
  beforeFence : min (config.protectRecentTurns.getD 2).toNat (turnStarts entries).length ≤
    ((turnStarts entries).filter (i < ·)).length
  notPruned : message.prunedAt = none
  notProtected : message.toolName ∉ config.protectedTools ∨
    (Stale entries i ∧ message.toolName ∈ config.staleOverridableTools.getD [])
  outsideOrStale : config.protectTokens ≤ resultTokensFrom services entries (i + 1) ∨ Stale entries i

theorem pairwise_turnStarts (entries : List Entry) : (turnStarts entries).Pairwise (· < ·) := by
  have hidx : (entries.zipIdx.map Prod.snd).Pairwise (· < ·) := by
    rw [List.zipIdx_map_snd]
    exact List.pairwise_lt_range'
  exact hidx.sublist (List.filter_sublist.map Prod.snd)

theorem turnStarts_after_fence {turns : Int}
    (h : (recentTurnFenceStart entries turns).any (· ≤ i) = false) :
    min turns.toNat (turnStarts entries).length ≤ ((turnStarts entries).filter (i < ·)).length := by
  unfold recentTurnFenceStart at h
  split at h
  · omega
  · dsimp only at h
    have hsorted := pairwise_turnStarts entries
    generalize turnStarts entries = starts at h hsorted
    generalize hk : (starts.length - turns).toNat = k at h
    have hafter : ∀ s ∈ starts.drop k, i < s := by
      intro s hs
      cases hdrop : starts.drop k with
      | nil => simp [hdrop] at hs
      | cons fence rest =>
        have hfence : starts[k]? = some fence := by
          rw [← List.head?_drop, hdrop]
          rfl
        simp only [hfence, Option.any_some, decide_eq_false_iff_not, Nat.not_le] at h
        have hrest := List.pairwise_cons.mp (hdrop ▸ hsorted.sublist (List.drop_sublist k starts))
        rw [hdrop] at hs
        rcases List.mem_cons.mp hs with rfl | hs
        · exact h
        · exact Nat.lt_trans h (hrest.1 s hs)
    calc min turns.toNat starts.length ≤ (starts.drop k).length := by
          rw [List.length_drop]
          omega
      _ = ((starts.drop k).filter (i < ·)).length := by
          rw [List.filter_eq_self.mpr fun s hs => by simpa using hafter s hs]
      _ ≤ (starts.filter (i < ·)).length := ((List.drop_sublist k starts).filter _).length_le

theorem withNotice_eq {artifact : Option String}
    (h : withNotice services candidate artifact = some candidate') :
    ∃ notice, candidate' =
      { candidate with
        notice := notice
        savings := (candidate.tokens : Int) - services.estimateTextTokens notice } := by
  unfold withNotice at h
  dsimp only at h
  split at h
  · cases h
  · exact ⟨_, (Option.some.inj h).symm⟩

theorem prunable_of_selectCandidate (hresult : resultAt entries i = some message)
    (h : selectCandidate services entries config (buildStalenessIndex entries)
      (recentTurnFenceStart entries (config.protectRecentTurns.getD 2))
      (resultTokensFrom services entries (i + 1)) i entry
      message = some candidate) :
    candidate.entry = entry ∧ Prunable services config entries i message := by
  unfold selectCandidate at h
  dsimp only at h
  split at h
  · cases h
  · rename_i hkeep
    split at h
    · cases h
    · rename_i hprotect
      obtain ⟨notice, rfl⟩ := withNotice_eq h
      refine ⟨rfl, hresult, turnStarts_after_fence ?_, ?_, ?_, ?_⟩
      · exact Bool.eq_false_iff.mpr fun hfence => hkeep (.inr hfence)
      · by_contra hpruned
        exact hkeep (.inl (Option.isSome_iff_ne_none.mpr hpruned))
      · by_contra hnot
        rw [not_or, not_not] at hnot
        refine hprotect (.inr ⟨hnot.1,
          fun hstale => hnot.2 ⟨stale_of_mem_buildStalenessIndex hstale.1, hstale.2⟩⟩)
      · by_contra hnot
        rw [not_or, Int.not_le] at hnot
        exact hprotect (.inl ⟨hnot.1,
          fun hstale => hnot.2 (stale_of_mem_buildStalenessIndex hstale)⟩)

theorem resultTokensFrom_of_getElem (services : PruneServices) (hentry : entries[i]? = some entry) :
    resultTokensFrom services entries i =
      (if (getToolResultMessage entry).isSome then services.estimateEntryTokens entry else 0) +
        resultTokensFrom services entries (i + 1) := by
  obtain ⟨hlt, rfl⟩ := List.getElem?_eq_some_iff.mp hentry
  rw [resultTokensFrom, List.drop_eq_getElem_cons hlt, List.filter_cons]
  split
  · rw [List.map_cons, List.sum_cons, resultTokensFrom]
  · rw [Nat.zero_add, resultTokensFrom]

theorem prunable_of_mem_collectFrom {k : Nat} (hk : k ≤ entries.length)
    (h : candidate ∈ collectFrom services entries config (buildStalenessIndex entries)
      (recentTurnFenceStart entries (config.protectRecentTurns.getD 2)) k
      (resultTokensFrom services entries k)) :
    ∃ i message, entries[i]? = some candidate.entry ∧
      Prunable services config entries i message := by
  induction k with
  | zero => cases h
  | succ i ih =>
    have hentry : entries[i]? = some entries[i] := List.getElem?_eq_getElem hk
    have htokens := resultTokensFrom_of_getElem services hentry
    simp only [collectFrom, hentry, Option.bind_some] at h
    cases hmessage : getToolResultMessage entries[i] with
    | none =>
      simp only [hmessage, Option.isSome_none, Bool.false_eq_true, if_false, Nat.zero_add] at htokens
      simp only [hmessage, Option.map_none] at h
      exact ih (by omega) (htokens ▸ h)
    | some message =>
      simp only [hmessage, Option.isSome_some, if_true] at htokens
      simp only [hmessage, Option.map_some] at h
      rcases List.mem_append.mp h with h | h
      · obtain ⟨hsame, hprunable⟩ :=
          prunable_of_selectCandidate (by simp [resultAt, hentry, hmessage]) (Option.mem_toList.mp h)
        exact ⟨i, message, hsame ▸ hentry, hprunable⟩
      · rw [Nat.add_comm, ← htokens] at h
        exact ih (by omega) h

theorem prunable_of_mem_collect
    (h : candidate ∈ collectToolOutputPruneCandidates services entries config) :
    ∃ i message, entries[i]? = some candidate.entry ∧
      Prunable services config entries i message := by
  have htokens : resultTokensFrom services entries entries.length = 0 := by simp [resultTokensFrom]
  refine prunable_of_mem_collectFrom (Nat.le_refl _) ?_
  rwa [htokens]

theorem planToolOutputPruneCandidates_eq {candidates planned : List ToolOutputPruneCandidate}
    (h : planToolOutputPruneCandidates services candidates options = .ok planned) :
    ∃ artifact : ToolOutputPruneCandidate → Option String,
      planned = candidates.filterMap fun c => withNotice services c (artifact c) := by
  unfold planToolOutputPruneCandidates at h
  cases hmax : artifactRefMaxChars options with
  | error e =>
    rw [hmax] at h
    cases h
  | ok maxChars =>
    rw [hmax] at h
    cases h
    exact ⟨_, rfl⟩

theorem planToolOutputPrune_cases {plan : ToolOutputPrunePlan}
    (h : planToolOutputPrune services entries config options = .ok plan) :
    plan = emptyToolOutputPrunePlan ∨ ∃ planned,
      planToolOutputPruneCandidates services
        (collectToolOutputPruneCandidates services entries config) options = .ok planned ∧
        plan = {
          prunedCount := planned.length
          tokensSaved := totalSavings planned
          digests := planned.map fun c =>
            ⟨c.entry.id, services.sha256 c.originalText, c.originalText.utf8ByteSize⟩
          replacements := planned.map fun c => ⟨c.entry.id, c.notice, c.complete, c.tokens⟩ } := by
  unfold planToolOutputPrune at h
  dsimp only at h
  split at h
  · exact .inl (Except.ok.inj h).symm
  · cases hplanned :
        planToolOutputPruneCandidates services
        (collectToolOutputPruneCandidates services entries config) options with
    | error e =>
      rw [hplanned] at h
      cases h
    | ok planned =>
      rw [hplanned] at h
      simp only [bind, Except.bind] at h
      split at h
      · exact .inl (Except.ok.inj h).symm
      · exact .inr ⟨planned, rfl, (Except.ok.inj h).symm⟩

theorem planToolOutputPrune_sound {plan : ToolOutputPrunePlan}
    (h : planToolOutputPrune services entries config options = .ok plan) :
    ∀ id ∈ plan.digests.map ToolOutputPruneDigest.entryId ++
      plan.replacements.map ToolOutputPruneReplacement.entryId, ∃ i entry message, entries[i]? =
        some entry ∧ entry.id = id ∧ Prunable services config entries i message := by
  rcases planToolOutputPrune_cases h with rfl | ⟨planned, hplanned, rfl⟩
  · simp [emptyToolOutputPrunePlan]
  · have hprunable : ∀ c ∈ planned, ∃ i entry message, entries[i]? = some entry ∧
        entry.id = c.entry.id ∧
        Prunable services config entries i message := by
      intro c hc
      obtain ⟨artifact, rfl⟩ := planToolOutputPruneCandidates_eq hplanned
      obtain ⟨c', hc', hnotice⟩ := List.mem_filterMap.mp hc
      obtain ⟨i, message, hentry, hp⟩ := prunable_of_mem_collect hc'
      obtain ⟨notice, rfl⟩ := withNotice_eq hnotice
      exact ⟨i, c'.entry, message, hentry, rfl, hp⟩
    simpa [or_imp, forall_and] using hprunable

def readAgain : List Entry := [
  ⟨"e1", "", .message ⟨.assistant,
  .assistant [.toolCall ⟨"c1", "read", .obj [("path", .str "a.ts:10-20")], none⟩]⟩⟩,
    ⟨"e2", "", .message ⟨.toolResult,
    .toolResult ⟨"c1", "read", [.text "old text of the file"], false, none, none⟩⟩⟩,
  ⟨"e3", "", .message ⟨.assistant,
    .assistant [.toolCall ⟨"c2", "read", .obj [("path", .str "a.ts:1-40")], none⟩]⟩⟩,
  ⟨"e4", "", .message ⟨.toolResult,
    .toolResult ⟨"c2", "read", [.text "new text of the file"], false, none, none⟩⟩⟩,
  ⟨"e5", "", .message ⟨.user, .other "go on"⟩⟩]

def exampleServices : PruneServices where
  estimateEntryTokens _ := 40
  estimateTextTokens _ := 8
  createPrunedNotice tokens _ _ _ := "[Output truncated - " ++ toString tokens ++ " tokens]"
  sha256 _ := "bf1cbd6b821a5a799f066d8a5b162dda12e09e8885670d6c0adc3f1af7074b0a"

theorem narrower_read_is_pruned :
    ∃ plan, planToolOutputPrune exampleServices readAgain { defaultPruneConfig with
      minimumSavings := 10 } ⟨none, none⟩ =
        .ok plan ∧ plan.replacements.map ToolOutputPruneReplacement.entryId = ["e2"] ∧
      ∀ id ∈ plan.digests.map ToolOutputPruneDigest.entryId ++
          plan.replacements.map ToolOutputPruneReplacement.entryId,
        ∃ i entry message, readAgain[i]? = some entry ∧ entry.id = id ∧
          Prunable exampleServices { defaultPruneConfig with
          minimumSavings := 10 } readAgain i message := by
  have hplan : planToolOutputPrune exampleServices readAgain { defaultPruneConfig with
      minimumSavings := 10 } ⟨none, none⟩ =
      .ok ⟨1, 32, [⟨"e2", "bf1cbd6b821a5a799f066d8a5b162dda12e09e8885670d6c0adc3f1af7074b0a", 20⟩],
        [⟨"e2", "[Output truncated - 40 tokens]", true, 40⟩]⟩ := by decide +kernel
  exact ⟨_, hplan, rfl, planToolOutputPrune_sound hplan⟩

end Plan

end JevCode.Session
