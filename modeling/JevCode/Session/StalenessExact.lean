import JevCode.Session.PruningLaws

namespace JevCode.Session

open JevCode.Data

variable {entries : List Entry} {i j n : Nat} {path base : String}

section Index

structure IndexComplete (entries : List Entry) (n : Nat) (index : ResultIndex) : Prop where
  results : ∀ j < n, ∀ result, resultMetaAt entries j = some result → (j, result) ∈ index.resultMeta
  byKey : ∀ j < n, ∀ result key, resultMetaAt entries j = some result → result.key = some key →
    ∃ j', j ≤ j' ∧ index.lastResultIndexByKey.get? key = some j'
  byPath : ∀ j < n, ∀ path, EditsPath entries j path → ∃ j', j ≤ j' ∧
    index.lastEditIndexByPath.get? path = some j'

theorem IndexComplete.empty : IndexComplete entries 0 .empty where
  results _ h := by cases h
  byKey _ h := by cases h
  byPath _ h := by cases h

theorem setPaths_append (index : InsertionMap String Nat) (paths more : List String) (i : Nat) :
    setPaths (setPaths index paths i) more i = setPaths index (paths ++ more) i := by
  simp [setPaths]

theorem IndexComplete.setPaths {index : ResultIndex} {paths : List String}
    (h : IndexComplete entries n index) (hpaths : ∀ path, EditsPath entries n path → path ∈ paths) :
    ∀ j < n + 1, ∀ path, EditsPath entries j path →
      ∃ j', j ≤ j' ∧ (Session.setPaths index.lastEditIndexByPath paths n).get? path = some j' := by
  intro j hj path hedit
  rw [get?_setPaths_eq]
  by_cases hmem : path ∈ paths
  · exact ⟨n, Nat.lt_succ_iff.mp hj, by rw [if_pos hmem]⟩
  · rw [if_neg hmem]
    rcases Nat.lt_succ_iff_lt_or_eq.mp hj with hj | rfl
    · exact h.byPath j hj path hedit
    · exact absurd (hpaths path hedit) hmem

theorem editsPath_of_answer {message : ToolResultMessage} {call : ToolCall}
    (hresult : resultAt entries n = some message)
    (hcall : (callsById entries).get? message.toolCallId = some call)
    (h : EditsPath entries n path) :
    ((call.name = "resolve" ∨ call.name = "ast_edit") ∧ path ∈ resultDetailFiles message) ∨
      (message.isError = false ∧ call.name ∈ editToolNames ∧ path ∈ mutatedPaths call message) := by
  obtain ⟨message', hresult', call', hcall', hedit⟩ := h
  obtain rfl := Option.some.inj (hresult.symm.trans hresult')
  obtain rfl := Option.some.inj (hcall.symm.trans hcall')
  exact hedit

theorem IndexComplete.fail {index : ResultIndex} (paths : List String)
    (h : IndexComplete entries n index) (hmeta : resultMetaAt entries n = none)
    (hpaths : ∀ path, EditsPath entries n path → path ∈ paths) :
    IndexComplete entries (n + 1) { index with
      lastEditIndexByPath := Session.setPaths index.lastEditIndexByPath paths n } := by
  refine ⟨?_, ?_, h.setPaths hpaths⟩
  · intro j hj result hresult
    rcases Nat.lt_succ_iff_lt_or_eq.mp hj with hj | rfl
    · exact h.results j hj result hresult
    · simp [hmeta] at hresult
  · intro j hj result key hresult hkey
    rcases Nat.lt_succ_iff_lt_or_eq.mp hj with hj | rfl
    · exact h.byKey j hj result key hresult hkey
    · simp [hmeta] at hresult

theorem IndexComplete.skip {index : ResultIndex} (h : IndexComplete entries n index)
    (hnone : ∀ message, resultAt entries n = some message →
      (callsById entries).get? message.toolCallId = none) :
    IndexComplete entries (n + 1) index := by
  have hmeta : resultMetaAt entries n = none := by
    unfold resultMetaAt
    cases hresult : resultAt entries n with
    | none => rfl
    | some message => simp [hnone message hresult]
  refine h.fail [] hmeta ?_
  rintro path ⟨message, hresult, call, hcall, -⟩
  rw [hnone message hresult] at hcall
  cases hcall

theorem IndexComplete.push {index : ResultIndex} {result : ResultMeta} {paths : List String}
    (h : IndexComplete entries n index) (hmeta : resultMetaAt entries n = some result)
    (hpaths : ∀ path, EditsPath entries n path → path ∈ paths) :
    IndexComplete entries (n + 1)
      { lastResultIndexByKey := match result.key with
          | some key => index.lastResultIndexByKey.set key n
          | none => index.lastResultIndexByKey
        resultMeta := index.resultMeta ++ [(n, result)]
        lastEditIndexByPath := Session.setPaths index.lastEditIndexByPath paths n } := by
  refine ⟨?_, ?_, h.setPaths hpaths⟩
  · intro j hj result' hresult
    rcases Nat.lt_succ_iff_lt_or_eq.mp hj with hj | rfl
    · exact List.mem_append_left _ (h.results j hj result' hresult)
    · rw [hmeta] at hresult
      exact List.mem_append_right _ (by simp [Option.some.inj hresult])
  · intro j hj result' key hresult hkey
    rcases Nat.lt_succ_iff_lt_or_eq.mp hj with hj | rfl
    · obtain ⟨j', hle, hget⟩ := h.byKey j hj result' key hresult hkey
      cases hnew : result.key with
      | none => exact ⟨j', hle, hget⟩
      | some key' =>
        dsimp only
        rw [InsertionMap.get?_set]
        split
        · exact ⟨n, Nat.le_of_lt hj, rfl⟩
        · exact ⟨j', hle, hget⟩
    · obtain rfl := Option.some.inj (hmeta.symm.trans hresult)
      rw [hkey]
      exact ⟨j, Nat.le_refl _, by simp⟩

theorem IndexComplete.add {index : ResultIndex} {entry : Entry} (h : IndexComplete entries n index)
    (hentry : entries[n]? = some entry) :
    IndexComplete entries (n + 1) (index.add (callsById entries) (entry, n)) := by
  unfold ResultIndex.add
  cases hmessage : getToolResultMessage entry with
  | none => exact h.skip fun message hresult => by simp [resultAt, hentry, hmessage] at hresult
  | some message =>
    have hresult : resultAt entries n = some message := by simp [resultAt, hentry, hmessage]
    dsimp only
    cases hcall : (callsById entries).get? message.toolCallId with
    | none =>
      exact h.skip fun message' hresult' => by rwa [← Option.some.inj (hresult.symm.trans hresult')]
    | some call =>
      dsimp only
      split
      · rename_i herror
        refine h.fail _ (by simp [resultMetaAt, hresult, hcall, herror]) fun path hedit => ?_
        rcases editsPath_of_answer hresult hcall hedit with ⟨hname, hmem⟩ | ⟨hok, -⟩
        · rwa [if_pos hname]
        · rw [herror] at hok
          cases hok
      · rename_i herror
        rw [setPaths_append]
        refine h.push (resultMetaAt_of_add hresult hcall (by simpa using herror)) fun path hedit =>
          ?_
        rcases editsPath_of_answer hresult hcall hedit with ⟨hname, hmem⟩ | ⟨-, hname, hmem⟩
        · exact List.mem_append_left _ (by rwa [if_pos hname])
        · exact List.mem_append_right _ (by rwa [if_pos hname])

theorem indexComplete_indexResults (entries : List Entry) :
    IndexComplete entries entries.length (indexResults entries) :=
  foldl_zipIdx .empty fun _ _ _ hentry h => h.add hentry

end Index

section Reads

variable {reads items : List (Nat × ResultMeta)} {item later : Nat × ResultMeta}

theorem mem_containedReads (h : [item, later].Sublist reads)
    (hsupersedes : readSupersedesRead later.2.call item.2.call = true) :
    item.1 ∈ containedReads reads := by
  induction reads with
  | nil => cases h
  | cons head reads ih =>
    unfold containedReads
    cases h with
    | cons _ h =>
      split
      · exact List.mem_cons_of_mem _ (ih h)
      · exact ih h
    | cons_cons _ h =>
      have hany : (reads.any fun other => readSupersedesRead other.2.call item.2.call) = true :=
        List.any_eq_true.mpr ⟨later, List.singleton_sublist.mp h, hsupersedes⟩
      rw [if_pos hany]
      exact List.mem_cons_self

theorem readSupersedesRead_of_ranges {laterCall earlier : ToolCall} {laterPath : String}
    {range laterRange : ReadLineRange} (hpath : toolCallPath earlier = some path)
    (hlater : toolCallPath laterCall = some laterPath)
    (hranges : readLineRanges path = [range] ∧ readLineRanges laterPath = [laterRange])
    (hcontains : laterRange.start ≤ range.start ∧ range.stop ≤ laterRange.stop ∧
    laterRange ≠ range) :
    readSupersedesRead laterCall earlier = true := by
  simp only [readSupersedesRead, hpath, hlater, Option.map_some, hranges.1, hranges.2,
    strictlyContainsReadRange, Bool.and_eq_true, Bool.or_eq_true, decide_eq_true_eq]
  refine ⟨⟨hcontains.1, hcontains.2.1⟩, ?_⟩
  by_contra hnot
  refine hcontains.2.2 ?_
  obtain ⟨start, stop⟩ := range
  obtain ⟨laterStart, laterStop⟩ := laterRange
  simp only [ReadLineRange.mk.injEq] at *
  omega

theorem pair_sublist (hsorted : items.Pairwise fun a b => a.1 < b.1) (hitem : item ∈ items)
    (hlater : later ∈ items) (hlt : item.1 < later.1) : [item, later].Sublist items := by
  induction items with
  | nil => cases hitem
  | cons head items ih =>
    have hcons := List.pairwise_cons.mp hsorted
    rcases List.mem_cons.mp hitem with rfl | htail
    · rcases List.mem_cons.mp hlater with rfl | hlater
      · exact absurd hlt (Nat.lt_irrefl _)
      · exact (List.singleton_sublist.mpr hlater).cons_cons item
    · rcases List.mem_cons.mp hlater with rfl | hlater
      · exact absurd (hcons.1 item htail) (Nat.lt_asymm hlt)
      · exact (ih hcons.2 htail hlater).cons head

end Reads

theorem mem_buildStalenessIndex_of_stale (h : Stale entries i) :
    i ∈ buildStalenessIndex entries := by
  obtain ⟨result, hresult, j, hlt, hwitness⟩ := h
  have hindex := indexComplete_indexResults entries
  have hbound {k : Nat} {r : ResultMeta} (hk : resultMetaAt entries k = some r) : k <
      entries.length := by
    by_contra hge
    simp [resultMetaAt, resultAt, List.getElem?_eq_none (Nat.not_lt.mp hge)] at hk
  have hmem := hindex.results i (hbound hresult) result hresult
  have hsuperseded (h : isSuperseded (indexResults entries) (i, result) = true) : i ∈
      buildStalenessIndex entries :=
    List.mem_append_left _ (List.mem_map.mpr ⟨(i, result), List.mem_filter.mpr ⟨hmem, h⟩, rfl⟩)
  cases hwitness with
  | sameKey later key hlater hkey hlaterKey =>
    obtain ⟨j', hle, hget⟩ := hindex.byKey j (hbound hlater) later key hlater hlaterKey
    refine hsuperseded ?_
    simp [isSuperseded, hkey, hget, Nat.lt_of_lt_of_le hlt hle]
  | widerRead later path laterPath range laterRange hlater hread hpath hbase hranges hcontains =>
    have hlaterMem := hindex.results j (hbound hlater) later hlater
    obtain ⟨n, hsound⟩ := indexSound_indexResults entries
    have hpair : [(i, result), (j, later)].Sublist
        ((indexResults entries).resultMeta.filter (isReadOf (readBasePath path))) := by
      have hfilter :=
        (pair_sublist hsound.sorted hmem hlaterMem hlt).filter (isReadOf (readBasePath path))
      rwa [List.filter_eq_self.mpr (by simp [isReadOf, hread, hpath, hbase])] at hfilter
    have hgroup := readsByBasePath_eq (indexResults entries).resultMeta (readBasePath path)
    cases hget : ((indexResults entries).resultMeta.foldl groupRead InsertionMap.empty).get?
      (readBasePath path) with
    | none =>
      rw [hget, Option.getD_none] at hgroup
      rw [← hgroup] at hpair
      cases hpair
    | some reads =>
      rw [hget, Option.getD_some] at hgroup
      rw [← hgroup] at hpair
      have hcontained :=
        mem_containedReads hpair (readSupersedesRead_of_ranges hpath.1 hpath.2 hranges hcontains)
      exact List.mem_append_right _
        (List.mem_flatMap.mpr ⟨_, InsertionMap.mem_entries.mpr hget, hcontained⟩)
  | edited path hread hpath hedit =>
    have hj : j < entries.length := by
      obtain ⟨message, hmessage, -⟩ := hedit
      by_contra hge
      simp [resultAt, List.getElem?_eq_none (Nat.not_lt.mp hge)] at hmessage
    obtain ⟨j', hle, hget⟩ := hindex.byPath j hj path hedit
    refine hsuperseded ?_
    simp only [isSuperseded, hread, decide_true, Bool.true_and, Bool.or_eq_true, List.any_eq_true]
    exact .inr ⟨path, hpath, by simp [hget, Nat.lt_of_lt_of_le hlt hle]⟩

theorem mem_buildStalenessIndex_iff : i ∈ buildStalenessIndex entries ↔ Stale entries i :=
  ⟨stale_of_mem_buildStalenessIndex, mem_buildStalenessIndex_of_stale⟩

end JevCode.Session
