import JevCode.Session.Context

/-! `compaction.ts`: where to cut a session path and what goes to the summarizer.  The token
estimate of an entry and the keep budget, both the outcome of rounding and ratios, are parameters;
so nothing here depends on them. -/

namespace JevCode.Session

variable {κ : Type}

def getMessageFromEntry (e : SessionEntry κ) : Option (EntryMessage κ) :=
  match e.body with
  | .message m => some ⟨e.id, .stored m⟩
  | .customMessage c => some ⟨e.id, .custom c e.timestamp⟩
  | .branchSummary summary fromId => some ⟨e.id, .branchSummary summary fromId e.timestamp⟩
  | _ => none

def isValidCutPoint (e : SessionEntry κ) : Bool :=
  match e.body with
  | .message m =>
    match m.role with
    | .bashExecution | .hookMessage | .branchSummary | .compactionSummary | .user | .assistant =>
      true
    | .toolResult | .other _ => false
  | .branchSummary _ _ | .customMessage _ => true
  | .compaction _ | .setting _ => false

def findValidCutPoints (entries : List (SessionEntry κ)) (startIndex endIndex : Nat) : List Nat :=
  (List.range' startIndex (endIndex - startIndex)).filter fun i => entries[i]?.any isValidCutPoint

def startsTurn (e : SessionEntry κ) : Bool :=
  match e.body with
  | .branchSummary _ _ | .customMessage _ => true
  | .message m => m.role = .user || m.role = .bashExecution
  | _ => false

def findTurnStartFrom (entries : List (SessionEntry κ)) (startIndex : Nat) : Nat → Option Nat
  | 0 => if entries[startIndex]?.any startsTurn then some startIndex else none
  | k + 1 =>
    if entries[startIndex + (k + 1)]?.any startsTurn then some (startIndex + (k + 1))
    else findTurnStartFrom entries startIndex k

def findTurnStartIndex (entries : List (SessionEntry κ))
    (entryIndex startIndex : Nat) : Option Nat :=
  if entryIndex < startIndex then none
    else findTurnStartFrom entries startIndex (entryIndex - startIndex)

/-- Walk backwards over the `k` entries from `startIndex`; the first one at which the budget is
spent. -/
def budgetIndex (tokens : SessionEntry κ → Nat) (keepRecentTokens : Nat)
    (entries : List (SessionEntry κ)) (startIndex : Nat) : Nat → Nat → Option Nat
  | 0, _ => none
  | k + 1, accumulated =>
    let accumulated := accumulated + (entries[startIndex + k]?.map tokens).getD 0
    if keepRecentTokens ≤ accumulated then some (startIndex + k)
    else budgetIndex tokens keepRecentTokens entries startIndex k accumulated

def stopsScan (e : SessionEntry κ) : Bool :=
  match e.body with
  | .compaction _ | .message _ => true
  | _ => false

def scanBack (entries : List (SessionEntry κ)) (startIndex : Nat) : Nat → Nat
  | 0 => startIndex
  | k + 1 =>
    if entries[startIndex + k]?.any stopsScan then startIndex + (k + 1)
      else scanBack entries startIndex k

structure CutPointResult where
  firstKeptEntryIndex : Nat
  turnStartIndex : Option Nat
  isSplitTurn : Bool
  deriving DecidableEq

def isUserMessage (e : SessionEntry κ) : Bool :=
  match e.body with
  | .message m => m.role = .user
  | _ => false

def findCutPoint (tokens : SessionEntry κ → Nat) (keepRecentTokens : Nat)
    (entries : List (SessionEntry κ)) (startIndex endIndex : Nat) : CutPointResult :=
  match findValidCutPoints entries startIndex endIndex with
  | [] => ⟨startIndex, none, false⟩
  | first :: rest =>
    let cutIndex :=
      match budgetIndex tokens keepRecentTokens entries startIndex (endIndex - startIndex) 0 with
      | none => first
      | some i => ((first :: rest).find? (i ≤ ·)).getD ((first :: rest).getLast (by simp))
    let cutIndex := scanBack entries startIndex (cutIndex - startIndex)
    let isUser := entries[cutIndex]?.any isUserMessage
    let turnStartIndex := if isUser then none else findTurnStartIndex entries cutIndex startIndex
    ⟨cutIndex, turnStartIndex, !isUser && turnStartIndex.isSome⟩

def slice (entries : List (SessionEntry κ)) (i j : Nat) : List (SessionEntry κ) :=
  (entries.take j).drop i

structure CompactionPreparation (κ : Type) where
  firstKeptEntryId : String
  messagesToSummarize : List (EntryMessage κ)
  turnPrefixMessages : List (EntryMessage κ)
  recentMessages : List (EntryMessage κ)
  isSplitTurn : Bool
  previousSummary : Option String
  previousPreserveData : Option (RemoteCompaction κ)

def prepareCompaction (tokens : SessionEntry κ → Nat) (keepRecentTokens : Nat)
    (pathEntries : List (SessionEntry κ)) :
    Option (CompactionPreparation κ) :=
  if pathEntries.getLast?.any fun e => e.compaction?.isSome then none
  else
    let boundaryStart := ((lastCompactionIndex pathEntries).map (· + 1)).getD 0
    let boundaryEnd := pathEntries.length
    let cutPoint := findCutPoint tokens keepRecentTokens pathEntries boundaryStart boundaryEnd
    match pathEntries[cutPoint.firstKeptEntryIndex]? with
    | none => none
    | some firstKeptEntry =>
      if firstKeptEntry.id = "" then none
      else
        let historyEnd :=
          if cutPoint.isSplitTurn then cutPoint.turnStartIndex.getD 0
            else cutPoint.firstKeptEntryIndex
        let messagesToSummarize :=
          (slice pathEntries boundaryStart historyEnd).filterMap getMessageFromEntry
        let turnPrefixMessages :=
          if cutPoint.isSplitTurn then
            (slice pathEntries historyEnd cutPoint.firstKeptEntryIndex).filterMap getMessageFromEntry
          else []
        let recentMessages :=
          (slice pathEntries cutPoint.firstKeptEntryIndex boundaryEnd).filterMap getMessageFromEntry
        if messagesToSummarize = [] ∧ turnPrefixMessages = [] then none
        else
          let previous := (lastCompaction pathEntries).map Prod.snd
          some ⟨firstKeptEntry.id, messagesToSummarize, turnPrefixMessages, recentMessages,
            cutPoint.isSplitTurn, previous.map CompactionData.summary,
            previous.bind CompactionData.preserveData⟩

variable {path pre post : List (SessionEntry κ)} {e : SessionEntry κ} {c : CompactionData κ}

theorem lastCompactionIndex_eq_none :
    lastCompactionIndex path = none ↔ ∀ e ∈ path, e.compaction? = none := by
  induction path with
  | nil => simp [lastCompactionIndex]
  | cons e es ih =>
    unfold lastCompactionIndex
    cases h : lastCompactionIndex es with
    | none =>
      have hes := ih.mp h
      cases he : e.compaction? <;> simp_all
    | some i =>
      have hes := mt ih.mpr (by simp [h])
      simp_all

theorem lastCompactionIndex_split (he : e.compaction? = some c)
    (hpost : ∀ x ∈ post, x.compaction? = none) :
    lastCompactionIndex (pre ++ e :: post) = some pre.length := by
  induction pre with
  | nil => simp [lastCompactionIndex, lastCompactionIndex_eq_none.mpr hpost, he]
  | cons x xs ih => simp [lastCompactionIndex, ih]

theorem exists_split_of_lastCompactionIndex {i : Nat} (h : lastCompactionIndex path = some i) :
    ∃ pre e c post, path = pre ++ e :: post ∧ pre.length = i ∧ e.compaction? = some c ∧
      ∀ x ∈ post, x.compaction? = none := by
  induction path generalizing i with
  | nil => cases h
  | cons x xs ih =>
    unfold lastCompactionIndex at h
    cases hxs : lastCompactionIndex xs with
    | some j =>
      simp only [hxs, Option.some.injEq] at h
      obtain ⟨pre, e, c, post, rfl, hlen, he, hpost⟩ := ih hxs
      exact ⟨x :: pre, e, c, post, rfl, by simp [hlen, h], he, hpost⟩
    | none =>
      simp only [hxs] at h
      split at h
      · rename_i hx
        obtain ⟨c, hc⟩ := Option.isSome_iff_exists.mp hx
        cases h
        exact ⟨[], x, c, xs, rfl, rfl, hc, lastCompactionIndex_eq_none.mp hxs⟩
      · cases h

theorem lastCompaction_split (he : e.compaction? = some c)
    (hpost : ∀ x ∈ post, x.compaction? = none) :
    lastCompaction (pre ++ e :: post) = some (e, c) := by
  simp [lastCompaction, lastCompactionIndex_split he hpost, he]

theorem lastCompaction_eq_none (h : lastCompactionIndex path = none) :
    lastCompaction path = none := by
  simp [lastCompaction, h]

theorem findIdx_append_cons {p : SessionEntry κ → Bool} (hpre : ∀ x ∈ pre, p x = false)
    (he : p e = true) :
    (pre ++ e :: post).findIdx p = pre.length := by
  induction pre with
  | nil => simp [List.findIdx_cons, he]
  | cons x xs ih => simp [List.findIdx_cons, hpre x (by simp), ih fun y hy => hpre y (by simp [hy])]

theorem drop_split : (pre ++ e :: post).drop (pre.length + 1) = post := by
  rw [← List.drop_drop, List.drop_left, List.drop_one, List.tail_cons]

def compactionMessage (e : SessionEntry κ) (c : CompactionData κ) : EntryMessage κ :=
  ⟨e.id, .compactionSummary c.summary c.tokensBefore e.timestamp c.shortSummary c.providerPayload⟩

theorem buildSessionContext_split (hids : ((pre ++ e :: post).map SessionEntry.id).Nodup)
    (he : e.compaction? = some c) (hpost : ∀ x ∈ post, x.compaction? = none)
    (hlocal : c.providerPayload = none) :
    buildSessionContext (pre ++ e :: post) =
      compactionMessage e c ::
        ((keptEntries pre c).filterMap appendMessage ++ post.filterMap appendMessage) := by
  have hidx : ((pre ++ e :: post).findIdx fun e' => e'.compaction?.isSome && e'.id == e.id) =
      pre.length := by
    apply findIdx_append_cons
    · intro x hx
      rw [List.map_append, List.map_cons, List.nodup_append] at hids
      have hne := hids.2.2 x.id (List.mem_map_of_mem hx) e.id (by simp)
      simp [hne]
    · simp [he]
  simp only [buildSessionContext, lastCompaction_split he hpost, hidx, drop_split, hlocal,
    Option.isSome_none, compactionMessage, List.take_left, Bool.false_eq_true, if_false]

section

variable {entries : List (SessionEntry κ)} {startIndex i j k : Nat}

theorem scanBack_bounds (entries : List (SessionEntry κ)) (startIndex k : Nat) :
    startIndex ≤ scanBack entries startIndex k ∧ scanBack entries startIndex k ≤ startIndex + k := by
  induction k with
  | zero => simp [scanBack]
  | succ k ih =>
    unfold scanBack
    split <;> omega

theorem findTurnStartFrom_bounds {t : Nat} (h : findTurnStartFrom entries startIndex k = some t) :
    startIndex ≤ t ∧ t ≤ startIndex + k := by
  induction k with
  | zero =>
    unfold findTurnStartFrom at h
    split at h
    · cases h
      omega
    · cases h
  | succ k ih =>
    unfold findTurnStartFrom at h
    split at h
    · cases h
      omega
    · have := ih h
      omega

theorem findTurnStartIndex_bounds {t : Nat} (h : findTurnStartIndex entries i startIndex = some t) :
    startIndex ≤ t ∧ t ≤ i := by
  unfold findTurnStartIndex at h
  split at h
  · cases h
  · have := findTurnStartFrom_bounds h
    omega

theorem findCutPoint_bounds (tokens : SessionEntry κ → Nat) (keepRecentTokens : Nat)
    (entries : List (SessionEntry κ)) (startIndex endIndex : Nat) :
    startIndex ≤ (findCutPoint tokens keepRecentTokens entries startIndex
      endIndex).firstKeptEntryIndex ∧
      ((findCutPoint tokens keepRecentTokens entries startIndex endIndex).isSplitTurn = true →
        ∃ t, (findCutPoint tokens keepRecentTokens entries startIndex endIndex).turnStartIndex =
          some t ∧
          startIndex ≤ t ∧ t ≤
            (findCutPoint tokens keepRecentTokens entries startIndex
            endIndex).firstKeptEntryIndex) := by
  unfold findCutPoint
  split
  · simp
  · refine ⟨(scanBack_bounds _ _ _).1, fun hsplit => ?_⟩
    dsimp only at hsplit ⊢
    rw [Bool.and_eq_true] at hsplit
    obtain ⟨t, ht⟩ := Option.isSome_iff_exists.mp hsplit.2
    refine ⟨t, ht, ?_⟩
    rw [if_neg (by simpa using hsplit.1)] at ht
    exact findTurnStartIndex_bounds ht

theorem slice_append_slice (hij : i ≤ j) (hjk : j ≤ k) :
    slice path i j ++ slice path j k = slice path i k := by
  simp only [slice]
  have hsplit : path.take k = path.take j ++ (path.take k).drop j := by
    conv_lhs => rw [← List.take_append_drop j (path.take k)]
    rw [List.take_take, Nat.min_eq_left hjk]
  by_cases hlen : j ≤ path.length
  · conv_rhs => rw [hsplit]
    rw [List.drop_append_of_le_length (by simp; omega)]
  · rw [show (path.take k).drop j = [] from List.drop_eq_nil_of_le (by simp; omega), List.append_nil,
      List.take_of_length_le (by omega), List.take_of_length_le (by omega)]

theorem slice_append_drop (h : i ≤ j) : slice path i j ++ path.drop j = path.drop i := by
  by_cases hlen : j ≤ path.length
  · conv_rhs => rw [← List.take_append_drop j path]
    rw [List.drop_append_of_le_length (by simp; omega), slice]
  · rw [slice, List.take_of_length_le (by omega),
      List.drop_eq_nil_of_le (by omega : path.length ≤ j), List.append_nil]

end

/-- Where a path starts being considered: right after its last compaction. -/
def boundaryStart (path : List (SessionEntry κ)) : Nat :=
  ((lastCompactionIndex path).map (· + 1)).getD 0

theorem prepareCompaction_spec {tokens : SessionEntry κ → Nat} {keepRecentTokens : Nat}
    {prep : CompactionPreparation κ}
    (h : prepareCompaction tokens keepRecentTokens path = some prep) :
    ∃ cut first, boundaryStart path ≤ cut ∧ path[cut]? = some first ∧
      prep.firstKeptEntryId = first.id ∧
      prep.messagesToSummarize ++ prep.turnPrefixMessages =
        (slice path (boundaryStart path) cut).filterMap getMessageFromEntry ∧
      prep.recentMessages = (path.drop cut).filterMap getMessageFromEntry ∧
      prep.previousSummary = (lastCompaction path).map fun p => p.2.summary := by
  unfold prepareCompaction at h
  split at h
  · cases h
  dsimp only at h
  obtain ⟨hcut, hsplit⟩ :=
    findCutPoint_bounds tokens keepRecentTokens path (boundaryStart path) path.length
  unfold boundaryStart at hcut hsplit ⊢
  generalize findCutPoint tokens keepRecentTokens path
    (((lastCompactionIndex path).map (· + 1)).getD 0) path.length =
    cutPoint at h hcut hsplit
  cases hfirst : path[cutPoint.firstKeptEntryIndex]? with
  | none => simp [hfirst] at h
  | some first =>
    simp only [hfirst, Option.ite_none_left_eq_some, Option.some.injEq] at h
    obtain ⟨-, -, rfl⟩ := h
    have hrecent : slice path cutPoint.firstKeptEntryIndex path.length =
        path.drop cutPoint.firstKeptEntryIndex := by
      rw [slice, List.take_length]
    refine ⟨_, first, hcut, hfirst, rfl, ?_, congrArg _ hrecent, by rw [Option.map_map]; rfl⟩
    dsimp only
    cases hs : cutPoint.isSplitTurn with
    | false => simp
    | true =>
      obtain ⟨t, ht, h1, h2⟩ := hsplit hs
      simp only [ht, if_true, Option.getD_some]
      rw [← List.filterMap_append, slice_append_slice h1 h2]

theorem prepareCompaction_shape {tokens : SessionEntry κ → Nat} {keepRecentTokens : Nat}
    {prep : CompactionPreparation κ}
    (h : prepareCompaction tokens keepRecentTokens path = some prep) :
    prep.firstKeptEntryId ≠ "" ∧ (prep.isSplitTurn = false → prep.turnPrefixMessages = []) ∧
      ¬ (prep.messagesToSummarize = [] ∧ prep.turnPrefixMessages = []) := by
  unfold prepareCompaction at h
  split at h
  · cases h
  dsimp only at h
  split at h
  · cases h
  · next first _ =>
    rw [Option.ite_none_left_eq_some, Option.ite_none_left_eq_some, Option.some.injEq] at h
    obtain ⟨hid, hsome, rfl⟩ := h
    exact ⟨hid, fun hsplit => if_neg (Bool.eq_false_iff.mp hsplit), hsome⟩

/-- Paths made of appended entries and of compactions, each prepared on the path it is appended to.
-/
inductive Built : List (SessionEntry κ) → Prop
  | nil : Built []
  | append {path : List (SessionEntry κ)} {e : SessionEntry κ} (h : Built path)
    (hfresh : e.id ∉ path.map SessionEntry.id)
      (he : e.compaction? = none) : Built (path ++ [e])
  | compact {path : List (SessionEntry κ)} {e : SessionEntry κ} {c : CompactionData κ}
    {prep : CompactionPreparation κ}
      (tokens : SessionEntry κ → Nat) (keepRecentTokens : Nat) (h : Built path)
      (hprep : prepareCompaction tokens keepRecentTokens path = some prep)
      (hfresh : e.id ∉ path.map SessionEntry.id) (he : e.compaction? = some c)
      (hfirst : c.firstKeptEntryId = prep.firstKeptEntryId) (hlocal : c.providerPayload = none) :
        Built (path ++ [e])

theorem nodup_append_singleton (h : (path.map SessionEntry.id).Nodup)
    (hfresh : e.id ∉ path.map SessionEntry.id) :
    ((path ++ [e]).map SessionEntry.id).Nodup := by
  rw [List.map_append, List.nodup_append]
  refine ⟨h, by simp, ?_⟩
  rintro a ha b hb rfl
  exact hfresh (List.mem_singleton.mp hb ▸ ha)

theorem Built.nodup (h : Built path) : (path.map SessionEntry.id).Nodup := by
  induction h with
  | nil => simp
  | append _ hfresh _ ih => exact nodup_append_singleton ih hfresh
  | compact _ _ _ _ hfresh _ _ _ ih => exact nodup_append_singleton ih hfresh

theorem Built.local (h : Built path) :
    ∀ e ∈ path, ∀ c, e.compaction? = some c → c.providerPayload = none := by
  induction h with
  | nil => simp
  | append _ _ he ih =>
    intro e' he' c hc
    rcases List.mem_append.mp he' with he' | he'
    · exact ih e' he' c hc
    · rw [List.mem_singleton.mp he', he] at hc
      cases hc
  | compact _ _ _ _ _ he _ hlocal ih =>
    intro e' he' c hc
    rcases List.mem_append.mp he' with he' | he'
    · exact ih e' he' c hc
    · rw [List.mem_singleton.mp he', he, Option.some.injEq] at hc
      rwa [← hc]

/-- The messages in front of the last compaction that the context still shows. -/
def keptByPrevious (path : List (SessionEntry κ)) : List (EntryMessage κ) :=
  match lastCompactionIndex path, lastCompaction path with
  | some i, some (_, c) => (keptEntries (path.take i) c).filterMap appendMessage
  | _, _ => []

theorem keptByPrevious_split (he : e.compaction? = some c)
    (hpost : ∀ x ∈ post, x.compaction? = none) :
    keptByPrevious (pre ++ e :: post) = (keptEntries pre c).filterMap appendMessage := by
  simp [keptByPrevious, lastCompactionIndex_split he hpost, lastCompaction_split he hpost]

theorem getMessageFromEntry_of_appendMessage {m : EntryMessage κ} (h : appendMessage e = some m) :
    getMessageFromEntry e = some m := by
  obtain ⟨id, timestamp, body⟩ := e
  cases body with
  | branchSummary summary fromId =>
    simp only [appendMessage, Option.ite_none_left_eq_some] at h
    exact h.2
  | _ => exact h

theorem entryId_of_getMessageFromEntry {m : EntryMessage κ} (h : getMessageFromEntry e = some m) :
    m.entryId = e.id := by
  unfold getMessageFromEntry at h
  split at h <;> cases h <;> rfl

theorem keptEntries_eq_drop {cut : Nat} {first : SessionEntry κ}
    (hids : (path.map SessionEntry.id).Nodup) (hcut : path[cut]? = some first)
    (hc : c.firstKeptEntryId = first.id) : keptEntries path c = path.drop cut := by
  induction path generalizing cut with
  | nil => simp at hcut
  | cons x xs ih =>
    rw [List.map_cons, List.nodup_cons] at hids
    cases cut with
    | zero =>
      simp only [List.getElem?_cons_zero, Option.some.injEq] at hcut
      simp [keptEntries, hc, hcut]
    | succ cut =>
      rw [List.getElem?_cons_succ] at hcut
      have hne : x.id ≠ c.firstKeptEntryId := by
        rw [hc]
        intro heq
        exact hids.1 (heq ▸ List.mem_map_of_mem (List.mem_of_getElem? hcut))
      rw [keptEntries, List.dropWhile_cons_of_pos (by simpa using hne), List.drop_succ_cons]
      exact ih hids.2 hcut

theorem Built.buildSessionContext_eq (h : Built path) :
    buildSessionContext path =
      ((lastCompaction path).map fun p => compactionMessage p.1 p.2).toList ++
        (keptByPrevious path ++ (path.drop (boundaryStart path)).filterMap appendMessage) := by
  cases hlast : lastCompactionIndex path with
  | none =>
    simp [buildSessionContext, lastCompaction_eq_none hlast, keptByPrevious, boundaryStart, hlast]
  | some i =>
    obtain ⟨pre, e, c, post, rfl, -, he, hpost⟩ := exists_split_of_lastCompactionIndex hlast
    rw [buildSessionContext_split h.nodup he hpost (h.local e (by simp) c he),
      keptByPrevious_split he hpost, lastCompaction_split he hpost, boundaryStart,
      lastCompactionIndex_split he hpost]
    simp

theorem take_split : (pre ++ e :: post).take (pre.length + 1) = pre ++ [e] := by
  have hassoc : pre ++ e :: post = (pre ++ [e]) ++ post := by simp
  rw [hassoc, List.take_left' (by simp)]

theorem entryId_mem_take_of_keptByPrevious {m : EntryMessage κ} (h : m ∈ keptByPrevious path) :
    m.entryId ∈ (path.take (boundaryStart path)).map SessionEntry.id := by
  cases hlast : lastCompactionIndex path with
  | none => simp [keptByPrevious, hlast] at h
  | some i =>
    obtain ⟨pre, e, c, post, rfl, -, he, hpost⟩ := exists_split_of_lastCompactionIndex hlast
    rw [keptByPrevious_split he hpost, List.mem_filterMap] at h
    obtain ⟨x, hx, hm⟩ := h
    have hpre : x ∈ pre := (List.dropWhile_sublist _).subset hx
    rw [entryId_of_getMessageFromEntry (getMessageFromEntry_of_appendMessage hm)]
    simp only [boundaryStart, lastCompactionIndex_split he hpost, Option.map_some, Option.getD_some]
    rw [take_split]
    exact List.mem_map_of_mem (List.mem_append_left _ hpre)

theorem id_mem_take_of_lastCompaction (h : lastCompaction path = some (e, c)) :
    e.id ∈ (path.take (boundaryStart path)).map SessionEntry.id := by
  cases hlast : lastCompactionIndex path with
  | none => simp [lastCompaction_eq_none hlast] at h
  | some i =>
    obtain ⟨pre, e', c', post, rfl, -, he, hpost⟩ := exists_split_of_lastCompactionIndex hlast
    rw [lastCompaction_split he hpost, Option.some.injEq, Prod.mk.injEq] at h
    simp only [boundaryStart, lastCompactionIndex_split he hpost, Option.map_some,
      Option.getD_some, ← h.1]
    rw [take_split]
    exact List.mem_map_of_mem (List.mem_append_right _ (by simp))

def AgentMessage.isCompactionSummary : AgentMessage κ → Bool
  | .compactionSummary _ _ _ _ _ => true
  | _ => false

theorem isCompactionSummary_of_appendMessage {m : EntryMessage κ} (h : appendMessage e = some m) :
    m.message.isCompactionSummary = false := by
  have h := getMessageFromEntry_of_appendMessage h
  unfold getMessageFromEntry at h
  split at h <;> cases h <;> rfl

theorem isCompactionSummary_of_keptByPrevious {m : EntryMessage κ} (h : m ∈ keptByPrevious path) :
    m.message.isCompactionSummary = false := by
  unfold keptByPrevious at h
  split at h
  · obtain ⟨x, -, hm⟩ := List.mem_filterMap.mp h
    exact isCompactionSummary_of_appendMessage hm
  · cases h

/-- A message goes to the summarizer or is still shown after the compaction. -/
def Preserved (prep : CompactionPreparation κ) (path' : List (SessionEntry κ))
    (m : EntryMessage κ) : Prop :=
  m ∈ prep.messagesToSummarize ∨ m ∈ prep.turnPrefixMessages ∨ m ∈ buildSessionContext path'

section

variable {tokens : SessionEntry κ → Nat} {keepRecentTokens : Nat} {prep : CompactionPreparation κ}
  (hb : Built path) (hprep : prepareCompaction tokens keepRecentTokens path = some prep)
  (hfresh : e.id ∉ path.map SessionEntry.id) (he : e.compaction? = some c)
  (hfirst : c.firstKeptEntryId = prep.firstKeptEntryId) (hlocal : c.providerPayload = none)

include hb hprep hfresh he hfirst hlocal

theorem preserved_iff (m : EntryMessage κ) :
    ∃ cut, boundaryStart path ≤ cut ∧ (Preserved prep (path ++ [e]) m ↔
      m ∈ (slice path (boundaryStart path) cut).filterMap getMessageFromEntry ∨
        m = compactionMessage e c ∨ m ∈ (path.drop cut).filterMap appendMessage) := by
  obtain ⟨cut, first, hcut, hget, hid, hsummarized, -⟩ := prepareCompaction_spec hprep
  refine ⟨cut, hcut, ?_⟩
  have hafter :=
    buildSessionContext_split (nodup_append_singleton hb.nodup hfresh) he (by simp) hlocal
  rw [keptEntries_eq_drop hb.nodup hget (hfirst.trans hid)] at hafter
  rw [Preserved, hafter, ← hsummarized, ← or_assoc, ← List.mem_append]
  simp

theorem preserved_of_mem_drop {m : EntryMessage κ}
    (hm : m ∈ (path.drop (boundaryStart path)).filterMap appendMessage) :
    Preserved prep (path ++ [e]) m := by
  obtain ⟨cut, hcut, hiff⟩ := preserved_iff hb hprep hfresh he hfirst hlocal m
  rw [hiff]
  obtain ⟨x, hx, hxm⟩ := List.mem_filterMap.mp hm
  rw [← slice_append_drop hcut, List.mem_append] at hx
  rcases hx with hx | hx
  · exact .inl (List.mem_filterMap.mpr ⟨x, hx, getMessageFromEntry_of_appendMessage hxm⟩)
  · exact .inr (.inr (List.mem_filterMap.mpr ⟨x, hx, hxm⟩))

theorem not_preserved_of_mem_take {m : EntryMessage κ}
    (hm : m.entryId ∈ (path.take (boundaryStart path)).map SessionEntry.id) :
    ¬ Preserved prep (path ++ [e]) m := by
  obtain ⟨cut, hcut, hiff⟩ := preserved_iff hb hprep hfresh he hfirst hlocal m
  rw [hiff]
  have hids := hb.nodup
  rw [← List.take_append_drop (boundaryStart path) path, List.map_append, List.nodup_append] at hids
  have hlater : ∀ x ∈ path.drop (boundaryStart path), m.entryId ≠ x.id := fun x hx =>
    hids.2.2 m.entryId hm x.id (List.mem_map_of_mem hx)
  rintro (hm' | rfl | hm')
  · obtain ⟨x, hx, hxm⟩ := List.mem_filterMap.mp hm'
    refine hlater x ?_ (entryId_of_getMessageFromEntry hxm)
    rw [← slice_append_drop hcut]
    exact List.mem_append_left _ hx
  · exact hfresh ((List.take_sublist _ _).map _ |>.subset hm)
  · obtain ⟨x, hx, hxm⟩ := List.mem_filterMap.mp hm'
    refine hlater x ?_ (entryId_of_getMessageFromEntry (getMessageFromEntry_of_appendMessage hxm))
    rw [← slice_append_drop hcut]
    exact List.mem_append_right _ hx

end

/-- The second compaction of a path drops exactly what the first one kept.  Its summary is handed on
as `previousSummary`, so as a message it is gone too. -/
theorem preserved_by_compaction_iff {tokens : SessionEntry κ → Nat} {keepRecentTokens : Nat}
    {prep : CompactionPreparation κ} (hb : Built path)
    (hprep : prepareCompaction tokens keepRecentTokens path = some prep)
    (hfresh : e.id ∉ path.map SessionEntry.id) (he : e.compaction? = some c)
    (hfirst : c.firstKeptEntryId = prep.firstKeptEntryId) (hlocal : c.providerPayload = none) :
    ((∀ m ∈ buildSessionContext path, m.message.isCompactionSummary = false →
      Preserved prep (path ++ [e]) m) ↔
        keptByPrevious path = []) ∧
      (∀ id summary tokensBefore timestamp short payload,
        ⟨id, .compactionSummary summary tokensBefore timestamp short payload⟩ ∈
          buildSessionContext path →
          prep.previousSummary = some summary) ∧
      ((∀ m ∈ buildSessionContext path, Preserved prep (path ++ [e]) m) ↔
        lastCompactionIndex path = none) := by
  have hlater : ∀ m ∈ (path.drop (boundaryStart path)).filterMap appendMessage,
      Preserved prep (path ++ [e]) m :=
    fun m hm => preserved_of_mem_drop hb hprep hfresh he hfirst hlocal hm
  have hlost : ∀ m ∈ keptByPrevious path, ¬ Preserved prep (path ++ [e]) m := fun m hm =>
    not_preserved_of_mem_take hb hprep hfresh he hfirst hlocal
      (entryId_mem_take_of_keptByPrevious hm)
  rw [hb.buildSessionContext_eq]
  refine ⟨⟨fun h => ?_, fun h m hm hsummary => ?_⟩, fun id summary tb ts short payload hm => ?_,
    fun h => ?_, fun h => ?_⟩
  · rw [List.eq_nil_iff_forall_not_mem]
    intro m hm
    exact hlost m hm (h m (by simp [hm]) (isCompactionSummary_of_keptByPrevious hm))
  · rw [h, List.nil_append, List.mem_append, Option.mem_toList, Option.map_eq_some_iff] at hm
    rcases hm with ⟨p, -, rfl⟩ | hm
    · cases hsummary
    · exact hlater m hm
  · obtain ⟨-, -, -, -, -, -, -, hprevious⟩ := prepareCompaction_spec hprep
    rw [hprevious]
    rw [List.mem_append, List.mem_append, Option.mem_toList, Option.map_eq_some_iff] at hm
    rcases hm with ⟨p, hp, hm⟩ | hm | hm
    · simp only [compactionMessage, EntryMessage.mk.injEq,
        AgentMessage.compactionSummary.injEq] at hm
      rw [hp, Option.map_some, hm.2.1]
    · cases isCompactionSummary_of_keptByPrevious hm
    · obtain ⟨x, -, hxm⟩ := List.mem_filterMap.mp hm
      cases isCompactionSummary_of_appendMessage hxm
  · cases hlast : lastCompaction path with
    | none =>
      cases hidx : lastCompactionIndex path with
      | none => rfl
      | some i =>
        obtain ⟨pre, e', c', post, rfl, -, he', hpost⟩ := exists_split_of_lastCompactionIndex hidx
        rw [lastCompaction_split he' hpost] at hlast
        cases hlast
    | some p =>
      have hid := id_mem_take_of_lastCompaction (e := p.1) (c := p.2) hlast
      exact absurd (h (compactionMessage p.1 p.2) (by simp [hlast]))
        (not_preserved_of_mem_take hb hprep hfresh he hfirst hlocal hid)
  · intro m hm
    rw [lastCompaction_eq_none h] at hm
    simp only [Option.map_none, Option.toList_none, List.nil_append, List.mem_append] at hm
    rcases hm with hm | hm
    · simp [keptByPrevious, h] at hm
    · exact hlater m hm

def userEntry (id : String) : SessionEntry String := ⟨id, "", .message ⟨.user, id⟩⟩

def compactionEntry (id firstKept : String) : SessionEntry String :=
  ⟨id, "", .compaction ⟨id, none, firstKept, 0, none⟩⟩

def onceCompacted : List (SessionEntry String) :=
  [userEntry "u1", userEntry "u2", compactionEntry "c1" "u2", userEntry "u3", userEntry "u4"]

theorem built_users : Built ([] ++ [userEntry "u1"] ++ [userEntry "u2"]) :=
  .append (.append .nil (by decide) rfl) (by decide) rfl

theorem preserved_by_first_compaction :
    ∃ prep, prepareCompaction (fun _ => 1) 1 [userEntry "u1", userEntry "u2"] = some prep ∧
      ∀ m ∈ buildSessionContext [userEntry "u1", userEntry "u2"],
        Preserved prep ([userEntry "u1", userEntry "u2"] ++ [compactionEntry "c1" "u2"]) m :=
  have hprep : prepareCompaction (fun _ => 1) 1 [userEntry "u1", userEntry "u2"] = some _ := rfl
  ⟨_, hprep, (preserved_by_compaction_iff built_users hprep (by decide) rfl rfl rfl).2.2.mpr rfl⟩

theorem built_onceCompacted : Built onceCompacted := by
  have hcompacted : Built ([userEntry "u1", userEntry "u2"] ++ [compactionEntry "c1" "u2"]) :=
    .compact (fun _ => 1) 1 built_users rfl (by decide) rfl rfl rfl
  have hafter : Built ([userEntry "u1", userEntry "u2", compactionEntry "c1" "u2"] ++
      [userEntry "u3"]) :=
    hcompacted.append (by decide) rfl
  exact hafter.append (e := userEntry "u4") (by decide) rfl

theorem second_compaction_drops_message :
    Built onceCompacted ∧ ∃ prep, prepareCompaction (fun _ => 1) 1 onceCompacted = some prep ∧
      prep.firstKeptEntryId = "u4" ∧
      ⟨"u2", .stored ⟨.user, "u2"⟩⟩ ∈ buildSessionContext onceCompacted ∧
      ¬ Preserved prep (onceCompacted ++ [compactionEntry "c2" "u4"]) ⟨"u2",
        .stored ⟨.user, "u2"⟩⟩ := by
  refine ⟨built_onceCompacted, _, rfl, rfl, by decide, ?_⟩
  unfold Preserved
  decide

end JevCode.Session
