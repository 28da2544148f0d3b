import JevCode.Sdk.RevisionIds
import JevCode.Sdk.RevisionPins

namespace JevCode.Sdk

open JevCode.Text JevCode.Data

variable {Hash Json : Type}

def CursorOutcome.issued? : CursorOutcome → Option String
  | .granted cursor _ _ => some cursor
  | .exchanged _ cursor _ _ _ => some cursor
  | .consumed _ _ _ => none

def CursorOutcome.used? : CursorOutcome → Option String
  | .granted _ _ _ => none
  | .exchanged source _ _ _ _ => some source
  | .consumed cursor _ _ => some cursor

def issues (log : List CursorOutcome) : List String := log.filterMap CursorOutcome.issued?

def uses (log : List CursorOutcome) : List String := log.filterMap CursorOutcome.used?

def issuedTo (cursor : String) : List CursorOutcome → Option (String × Int)
  | [] => none
  | .granted c connectionId expiresAt :: past =>
    if c = cursor then some (connectionId, expiresAt) else issuedTo cursor past
  | .exchanged _ c connectionId _ expiresAt :: past =>
    if c = cursor then some (connectionId, expiresAt) else issuedTo cursor past
  | .consumed _ _ _ :: past => issuedTo cursor past

/-- Every use came before the expiry of the cursor, and a consumption from its connection. -/
def Justified : List CursorOutcome → Prop
  | [] => True
  | .granted _ _ _ :: past => Justified past
  | .exchanged source _ _ validatedAt _ :: past =>
    (∃ connectionId expiresAt, issuedTo source past = some (connectionId, expiresAt) ∧
      validatedAt < expiresAt) ∧
      Justified past
  | .consumed cursor connectionId now :: past =>
    (∃ expiresAt, issuedTo cursor past = some (connectionId, expiresAt) ∧ now < expiresAt) ∧
      Justified past

theorem mem_issues_of_issuedTo {cursor : String} {log : List CursorOutcome} {target : String × Int}
    (h : issuedTo cursor log = some target) : cursor ∈ issues log := by
  induction log with
  | nil => cases h
  | cons outcome past ih =>
    cases outcome with
    | granted c connectionId expiresAt =>
      by_cases hc : c = cursor
      · exact List.mem_filterMap.mpr ⟨_, List.mem_cons_self, by simp [CursorOutcome.issued?, hc]⟩
      · simp only [issuedTo, hc, if_false] at h
        simp [issues, CursorOutcome.issued?] at ih ⊢
        exact .inr (ih h)
    | exchanged source c connectionId validatedAt expiresAt =>
      by_cases hc : c = cursor
      · exact List.mem_filterMap.mpr ⟨_, List.mem_cons_self, by simp [CursorOutcome.issued?, hc]⟩
      · simp only [issuedTo, hc, if_false] at h
        simp [issues, CursorOutcome.issued?] at ih ⊢
        exact .inr (ih h)
    | consumed c connectionId now =>
      simp only [issuedTo] at h
      simpa [issues, CursorOutcome.issued?] using ih h

theorem perm_cons_filter {α : Type} {es : List (String × α)} (hnodup : (es.map Prod.fst).Nodup)
    {e : String × α} (he : e ∈ es) : es.Perm (e :: es.filter (·.1 ≠ e.1)) := by
  induction es with
  | nil => cases he
  | cons e' es ih =>
    rw [List.map_cons, List.nodup_cons] at hnodup
    rcases List.mem_cons.mp he with rfl | he
    · have hself : es.filter (·.1 ≠ e.1) = es := by
        rw [List.filter_eq_self]
        intro e' he'
        have hne : e'.1 ≠ e.1 := fun heq => hnodup.1 (heq ▸ List.mem_map_of_mem he')
        simpa using hne
      rw [List.filter_cons, if_neg (by simp), hself]
    · have hne : e'.1 ≠ e.1 := fun heq => hnodup.1 (heq ▸ List.mem_map_of_mem he)
      rw [List.filter_cons, if_pos (by simpa using hne)]
      exact ((ih hnodup.2 he).cons e').trans (List.Perm.swap _ _ _)

namespace CursorRegistry

variable {s s' : CursorRegistry Hash}

/-- The calls of `grant` of a connection that wait for their pin. -/
def waiting (s : CursorRegistry Hash) (connectionId : String) : Nat :=
  s.pending.countP (·.2.connectionId = connectionId)

def holders (s : CursorRegistry Hash) : List String := (s.active ++ s.pending).map Prod.fst

def issued (s : CursorRegistry Hash) : List String := s.pending.map Prod.fst ++ issues s.log

structure Held (s : CursorRegistry Hash) : Prop where
  pinned : s.store.Pinned
  capacity : s.store.pinIndex.length ≤ maxPinnedRevisions
  perm : s.store.pinKeys.Perm s.holders
  nodup : s.holders.Nodup
  budget : ∀ connectionId, s.connectionCount connectionId + s.waiting connectionId ≤
    maxCursorsPerConnection

structure Logged (s : CursorRegistry Hash) : Prop where
  active : ∀ e ∈ s.active, issuedTo e.1 s.log = some (e.2.connectionId, e.2.expiresAt)
  fresh : ∀ e ∈ s.pending, e.1 ∉ issues s.log
  used : ∀ cursor ∈ uses s.log, cursor ∈ issues s.log ∧ cursor ∉ s.active.map Prod.fst
  once : (uses s.log).Nodup
  justified : Justified s.log

theorem holders_release {cursor : String} (hcursor : cursor ∉ s.pending.map Prod.fst) :
    (s.release cursor).holders = s.holders.filter (· ≠ cursor) := by
  have hpending : s.pending.filter (·.1 ≠ cursor) = s.pending := by
    rw [List.filter_eq_self]
    intro e he
    have hne : e.1 ≠ cursor := fun heq => hcursor (heq ▸ List.mem_map_of_mem he)
    simpa using hne
  unfold holders release
  rw [List.filter_map, List.filter_append]
  congr 2
  exact hpending.symm

theorem Held.release (h : s.Held) {cursor : String} (hcursor : cursor ∉ s.pending.map Prod.fst) :
    (s.release cursor).Held where
  pinned := Store.pinned_unpin h.pinned cursor
  capacity := by
    show (s.store.unpin cursor).pinIndex.length ≤ _
    rw [Store.pinIndex_unpin]
    exact (List.length_filter_le _ _).trans h.capacity
  perm := by
    have hkeys : (s.release cursor).store.pinKeys = s.store.pinKeys.filter (· ≠ cursor) := by
      show (s.store.unpin cursor).pinIndex.map Prod.fst = _
      rw [Store.pinIndex_unpin, Store.pinKeys, List.filter_map]
      rfl
    rw [hkeys, holders_release hcursor]
    exact h.perm.filter _
  nodup := by
    rw [holders_release hcursor]
    exact h.nodup.filter _
  budget connectionId := by
    refine (Nat.add_le_add_right ?_ _).trans (h.budget connectionId)
    exact List.filter_sublist.countP_le

theorem Held.store (h : s.Held) {store : Store Hash} (hkeeps : Store.KeepsPins s.store store) :
    { s with store := store }.Held where
  pinned := hkeeps.pinned_of_pinned h.pinned
  capacity := by
    show store.pinIndex.length ≤ _
    rw [hkeeps.pinIndex]
    exact h.capacity
  perm := by
    have hkeys : store.pinKeys = s.store.pinKeys := by
      rw [Store.pinKeys, hkeeps.pinIndex, Store.pinKeys]
    show store.pinKeys.Perm _
    rw [hkeys]
    exact h.perm
  nodup := h.nodup
  budget := h.budget

theorem Logged.mono (h : s.Logged) (hactive : s'.active.Sublist s.active)
    (hpending : s'.pending = s.pending) (hlog : s'.log = s.log) : s'.Logged where
  active e he := by
    rw [hlog]
    exact h.active e (hactive.subset he)
  fresh e he := by
    rw [hlog]
    exact h.fresh e (hpending ▸ he)
  used cursor hcursor := by
    rw [hlog] at hcursor ⊢
    obtain ⟨hissued, hgone⟩ := h.used cursor hcursor
    exact ⟨hissued, fun hmem => hgone ((hactive.map Prod.fst).subset hmem)⟩
  once := by
    rw [hlog]
    exact h.once
  justified := by
    rw [hlog]
    exact h.justified

theorem releaseAll_frame (s : CursorRegistry Hash) (cursors : List String) :
    (s.releaseAll cursors).active = s.active.filter (·.1 ∉ cursors) ∧
      (s.releaseAll cursors).pending = s.pending ∧ (s.releaseAll cursors).log = s.log := by
  induction cursors generalizing s with
  | nil => simp [releaseAll]
  | cons cursor cursors ih =>
    obtain ⟨hactive, hpending, hlog⟩ := ih (s.release cursor)
    refine ⟨?_, hpending, hlog⟩
    show ((s.release cursor).releaseAll cursors).active = _
    rw [hactive]
    show (s.active.filter _).filter _ = _
    rw [List.filter_filter]
    apply List.filter_congr
    intro e _
    simp [not_or, Bool.and_comm]

theorem Held.releaseAll (h : s.Held) {cursors : List String}
    (hcursors : ∀ cursor ∈ cursors, cursor ∉ s.pending.map Prod.fst) :
    (s.releaseAll cursors).Held := by
  induction cursors generalizing s with
  | nil => exact h
  | cons cursor cursors ih =>
    exact ih (h.release (hcursors cursor List.mem_cons_self))
      fun cursor' hcursor' => hcursors cursor' (List.mem_cons_of_mem cursor hcursor')

theorem Held.notMem_pending (h : s.Held) {cursor : String}
    (hcursor : cursor ∈ s.active.map Prod.fst) :
    cursor ∉ s.pending.map Prod.fst := by
  have hnodup := h.nodup
  rw [holders, List.map_append, List.nodup_append] at hnodup
  exact fun hpending => hnodup.2.2 cursor hcursor cursor hpending rfl

theorem lookup_eq_of_mem {cursor : String} {source : ActiveCursor}
    (h : s.active.lookup cursor = some source) :
    (cursor, source) ∈ s.active := by
  obtain ⟨before, after, heq, -⟩ := List.lookup_eq_some_iff.mp h
  simp [heq]

theorem mem_active_of_expired {exceptCursor : Option String} {at_ : Int} {cursor : String}
    (h : cursor ∈ s.expiredCursors exceptCursor at_) : cursor ∈ s.active.map Prod.fst := by
  obtain ⟨e, he, rfl⟩ := List.mem_map.mp h
  exact List.mem_map_of_mem (List.mem_of_mem_filter he)

section Sweep

variable [DecidableEq Hash]

theorem Held.sweep (h : s.Held) (exceptCursor : Option String) (at_ storeNow : Int) :
    (s.sweep exceptCursor at_ storeNow).Held :=
  (h.releaseAll fun _ hcursor => h.notMem_pending (mem_active_of_expired hcursor)).store
    (Store.keepsPins_sweep _ storeNow)

theorem sweep_frame (s : CursorRegistry Hash) (exceptCursor : Option String) (at_ storeNow : Int) :
    (s.sweep exceptCursor at_ storeNow).active = s.active.filter
    (·.1 ∉ s.expiredCursors exceptCursor at_) ∧
      (s.sweep exceptCursor at_ storeNow).pending = s.pending ∧
      (s.sweep exceptCursor at_ storeNow).log = s.log :=
  s.releaseAll_frame (s.expiredCursors exceptCursor at_)

theorem Logged.sweep (h : s.Logged) (exceptCursor : Option String) (at_ storeNow : Int) :
    (s.sweep exceptCursor at_ storeNow).Logged := by
  obtain ⟨hactive, hpending, hlog⟩ := s.sweep_frame exceptCursor at_ storeNow
  refine h.mono ?_ hpending hlog
  rw [hactive]
  exact List.filter_sublist

theorem mem_active_sweep {cursor : String} {source : ActiveCursor} (h : (cursor, source) ∈ s.active)
    (at_ storeNow : Int) : (cursor, source) ∈ (s.sweep (some cursor) at_ storeNow).active := by
  rw [(s.sweep_frame (some cursor) at_ storeNow).1]
  refine List.mem_filter.mpr ⟨h, ?_⟩
  have hnot : cursor ∉ s.expiredCursors (some cursor) at_ := by
    intro hmem
    obtain ⟨e, he, heq⟩ := List.mem_map.mp hmem
    have := (List.mem_filter.mp he).2
    simp [heq] at this
  simpa using hnot

end Sweep

theorem Held.addPending (h : s.Held) {cursor : String} {active : ActiveCursor}
    {store : Store Hash} {uid : Nat} (hcursor : cursor ∉ s.store.pinKeys)
    (hcapacity : s.store.pinIndex.length < maxPinnedRevisions)
    (hindex : store.pinIndex = s.store.pinIndex ++ [(cursor, uid)]) (hpinned : store.Pinned)
    (hroom : s.connectionCount active.connectionId + s.waiting active.connectionId <
    maxCursorsPerConnection) :
    { s with store := store, pending := s.pending ++ [(cursor, active)] }.Held := by
  have hholders : { s with store := store, pending := s.pending ++ [(cursor, active)] }.holders =
      s.holders ++ [cursor] := by simp [holders]
  refine ⟨hpinned, ?_, ?_, ?_, fun connectionId => ?_⟩
  · show store.pinIndex.length ≤ _
    rw [hindex, List.length_append, List.length_singleton]
    exact hcapacity
  · show store.pinKeys.Perm _
    rw [hholders, Store.pinKeys, hindex, List.map_append]
    exact h.perm.append_right _
  · rw [hholders, List.nodup_append]
    refine ⟨h.nodup, List.nodup_singleton _, ?_⟩
    intro c hc c' hc' heq
    rw [List.mem_singleton.mp hc'] at heq
    exact hcursor (h.perm.mem_iff.mpr (heq ▸ hc))
  · have hold := h.budget connectionId
    show s.active.countP _ + (s.pending ++ [(cursor, active)]).countP _ ≤ _
    rw [List.countP_append, List.countP_singleton]
    simp only [connectionCount, waiting] at hold hroom
    split
    case isTrue heq =>
      rw [decide_eq_true_eq] at heq
      rw [heq] at hroom
      omega
    case isFalse => omega

theorem Logged.addPending (h : s.Logged) {cursor : String} {active : ActiveCursor}
    {store : Store Hash} (hcursor : cursor ∉ s.issued) :
    { s with store := store, pending := s.pending ++ [(cursor, active)] }.Logged where
  active := h.active
  fresh e he := by
    rcases List.mem_append.mp he with he | he
    · exact h.fresh e he
    · rw [List.mem_singleton.mp he]
      exact fun hmem => hcursor (List.mem_append_right _ hmem)
  used := h.used
  once := h.once
  justified := h.justified

theorem Logged.mem_issued (h : s.Logged) {cursor : String} (hcursor : cursor ∈ s.holders) :
    cursor ∈ s.issued := by
  obtain ⟨e, he, rfl⟩ := List.mem_map.mp hcursor
  rcases List.mem_append.mp he with he | he
  · exact List.mem_append_right _ (mem_issues_of_issuedTo (h.active e he))
  · exact List.mem_append_left _ (List.mem_map_of_mem he)

theorem granted_perm {i : Nat} {g : String × ActiveCursor} (hg : s.pending[i]? = some g) :
    (s.active ++ s.pending).Perm (s.active ++ [g] ++ s.pending.eraseIdx i) := by
  obtain ⟨hi, rfl⟩ := List.getElem?_eq_some_iff.mp hg
  rw [List.append_assoc]
  exact (List.getElem_cons_eraseIdx_perm hi).symm.append_left s.active

theorem Held.granted (h : s.Held) {i : Nat} (hstep : s.granted i = some s') : s'.Held := by
  obtain ⟨g, hg, rfl⟩ := Option.map_eq_some_iff.mp hstep
  have hmem : g.1 ∈ s.pending.map Prod.fst := List.mem_map_of_mem (List.mem_of_getElem? hg)
  have hnot : g.1 ∉ s.active.map Prod.fst := fun hactive => h.notMem_pending hactive hmem
  have hperm := granted_perm hg
  have hactive := InsertionMap.setEntries_of_notMem hnot g.2
  have hholders : s.holders.Perm
      ((InsertionMap.setEntries g.1 g.2 s.active ++ s.pending.eraseIdx i).map Prod.fst) := by
    rw [hactive]
    exact hperm.map Prod.fst
  refine ⟨h.pinned, h.capacity, h.perm.trans hholders, hholders.nodup_iff.mp h.nodup,
    fun connectionId => ?_⟩
  have hcount :=
    hperm.countP_eq (fun e : String × ActiveCursor => decide (e.2.connectionId = connectionId))
  have hold := h.budget connectionId
  show (InsertionMap.setEntries g.1 g.2 s.active).countP _ + (s.pending.eraseIdx i).countP _ ≤ _
  rw [hactive, ← List.countP_append, ← hcount, List.countP_append]
  exact hold

theorem Logged.granted (h : s.Logged) (hheld : s.Held) {i : Nat} (hstep : s.granted i = some s') :
    s'.Logged := by
  obtain ⟨g, hg, rfl⟩ := Option.map_eq_some_iff.mp hstep
  have hpending := List.mem_of_getElem? hg
  have hnot : g.1 ∉ s.active.map Prod.fst :=
    fun hactive => hheld.notMem_pending hactive (List.mem_map_of_mem hpending)
  have hactive := InsertionMap.setEntries_of_notMem hnot g.2
  have hissues : issues (.granted g.1 g.2.connectionId g.2.expiresAt :: s.log) = g.1 ::
      issues s.log := rfl
  have huses : uses (.granted g.1 g.2.connectionId g.2.expiresAt :: s.log) = uses s.log := rfl
  refine ⟨fun e he => ?_, fun e he => ?_, fun cursor hcursor => ?_, huses ▸ h.once, h.justified⟩
  · dsimp only at he
    rw [hactive] at he
    rcases List.mem_append.mp he with he | he
    · have hne : g.1 ≠ e.1 := fun heq => hnot (heq ▸ List.mem_map_of_mem he)
      simpa [issuedTo, hne] using h.active e he
    · simp [List.mem_singleton.mp he, issuedTo]
  · -- the other calls have other cursors
    have hnodup := (granted_perm hg).map Prod.fst |>.nodup_iff.mp hheld.nodup
    rw [List.append_assoc, List.map_append, List.nodup_append] at hnodup
    have hcons := hnodup.2.1
    rw [List.map_append, List.map_singleton, List.singleton_append, List.nodup_cons] at hcons
    rw [hissues, List.mem_cons, not_or]
    exact ⟨fun heq => hcons.1 (heq ▸ List.mem_map_of_mem he),
      h.fresh e (List.mem_of_mem_eraseIdx he)⟩
  · rw [huses] at hcursor
    obtain ⟨hissued, hgone⟩ := h.used cursor hcursor
    refine ⟨hissues ▸ List.mem_cons_of_mem _ hissued, ?_⟩
    dsimp only
    rw [hactive, List.map_append, List.mem_append, not_or]
    refine ⟨hgone, fun hmem => h.fresh g hpending ?_⟩
    rwa [← List.mem_singleton.mp hmem]

theorem Held.budget_exchanged (h : s.Held) {cursor : String} {source : ActiveCursor}
    (hsource : (cursor, source) ∈ s.active) (exchanged : String) (active : ActiveCursor)
    (hroom : s.otherCursors active.connectionId source + s.waiting active.connectionId <
      maxCursorsPerConnection)
    (connectionId : String) :
    (s.active.filter (·.1 ≠ cursor) ++ [(exchanged, active)]).countP
    (·.2.connectionId = connectionId) +
      s.waiting connectionId ≤ maxCursorsPerConnection := by
  have hnodup : (s.active.map Prod.fst).Nodup := by
    have := h.nodup
    rw [holders, List.map_append, List.nodup_append] at this
    exact this.1
  have hcount := (perm_cons_filter hnodup hsource).countP_eq
    (fun e : String × ActiveCursor => decide (e.2.connectionId = connectionId))
  have hold := h.budget connectionId
  rw [List.countP_append, List.countP_singleton]
  simp only [otherCursors, connectionCount, waiting] at hold hroom ⊢
  rw [List.countP_cons] at hcount
  dsimp only at hcount
  by_cases hconn : active.connectionId = connectionId
  · rw [hconn] at hroom
    simp only [hconn, decide_true, if_true]
    by_cases hsame : source.connectionId = connectionId
    · simp only [hsame, decide_true, if_true] at hcount hroom
      omega
    · simp only [hsame, decide_false, if_false, Bool.false_eq_true] at hcount hroom
      omega
  · simp only [hconn, decide_false, if_false, Bool.false_eq_true]
    omega

theorem Held.exchanged (h : s.Held) {cursor exchanged : String} {source : ActiveCursor}
    (hsource : (cursor, source) ∈ s.active) (hfresh : exchanged ∉ s.holders) (active : ActiveCursor)
    (hroom : s.otherCursors active.connectionId source + s.waiting active.connectionId <
      maxCursorsPerConnection) :
    { s with
      store := s.store.transferPin cursor exchanged
      active :=
        InsertionMap.setEntries exchanged active (s.active.filter (·.1 ≠ cursor)) }.Held := by
  have hcursor : cursor ∈ s.active.map Prod.fst := List.mem_map_of_mem hsource
  have hholder : cursor ∈ s.holders := by
    rw [holders, List.map_append]
    exact List.mem_append_left _ hcursor
  obtain ⟨uid, hindex, hpinned⟩ := Store.transferPin_eq (h.perm.mem_iff.mpr hholder)
    fun hmem => hfresh (h.perm.mem_iff.mp hmem)
  have hnotActive : exchanged ∉ (s.active.filter (·.1 ≠ cursor)).map Prod.fst := by
    intro hmem
    obtain ⟨e, he, rfl⟩ := List.mem_map.mp hmem
    exact hfresh (List.mem_map_of_mem (List.mem_append_left _ (List.mem_of_mem_filter he)))
  have hactive := InsertionMap.setEntries_of_notMem hnotActive active
  have hkept : s.holders.filter (· ≠ cursor) =
      (s.active.filter (·.1 ≠ cursor) ++ s.pending).map Prod.fst :=
    (holders_release (h.notMem_pending hcursor)).symm
  have hholders : (s.holders.filter (· ≠ cursor) ++ [exchanged]).Perm
      ((InsertionMap.setEntries exchanged active (s.active.filter (·.1 ≠ cursor)) ++ s.pending).map
      Prod.fst) := by
    rw [hactive, hkept, List.map_append, List.map_append, List.map_append, List.append_assoc,
      List.append_assoc]
    exact List.perm_append_comm.append_left _
  refine ⟨hpinned h.pinned, ?_, ?_, ?_, fun connectionId => ?_⟩
  · -- one pin less and one more
    show (s.store.transferPin cursor exchanged).pinIndex.length ≤ _
    have hmem : cursor ∈ s.store.pinKeys := h.perm.mem_iff.mpr hholder
    obtain ⟨p, hp, rfl⟩ := List.mem_map.mp hmem
    have hlt : (s.store.pinIndex.filter (·.1 ≠ p.1)).length < s.store.pinIndex.length :=
      List.length_filter_lt_length_iff_exists.mpr ⟨p, hp, by simp⟩
    rw [hindex, List.length_append, List.length_singleton]
    exact hlt.trans_le h.capacity
  · show (s.store.transferPin cursor exchanged).pinKeys.Perm _
    refine .trans ?_ hholders
    rw [Store.pinKeys, hindex, List.map_append]
    refine List.Perm.append_right _ ?_
    have := h.perm.filter (· ≠ cursor)
    rwa [Store.pinKeys, List.filter_map] at this
  · refine hholders.nodup_iff.mp
      (List.nodup_append.mpr ⟨h.nodup.filter _, List.nodup_singleton _, ?_⟩)
    intro c hc c' hc' heq
    rw [List.mem_singleton.mp hc'] at heq
    exact hfresh (heq ▸ List.mem_of_mem_filter hc)
  · show (InsertionMap.setEntries exchanged active _).countP _ + s.pending.countP _ ≤ _
    rw [hactive]
    exact h.budget_exchanged hsource exchanged active hroom connectionId

theorem Logged.exchanged (h : s.Logged) {cursor exchanged : String} {source active : ActiveCursor}
    {store : Store Hash} {validatedAt : Int} (hsource : (cursor, source) ∈ s.active)
    (hfresh : exchanged ∉ s.issued) (hvalid : validatedAt < source.expiresAt) :
    { s with
      store := store
      active := InsertionMap.setEntries exchanged active (s.active.filter (·.1 ≠ cursor))
      log := .exchanged cursor exchanged active.connectionId validatedAt active.expiresAt ::
        s.log }.Logged := by
  have hissued := h.active (cursor, source) hsource
  have hcursor : cursor ∈ issues s.log := mem_issues_of_issuedTo hissued
  have hnotIssued : exchanged ∉ issues s.log := fun hmem => hfresh (List.mem_append_right _ hmem)
  have hnotActive : ∀ e ∈ s.active, e.1 ≠ exchanged :=
    fun e he heq => hnotIssued (heq ▸ mem_issues_of_issuedTo (h.active e he))
  have hactive : InsertionMap.setEntries exchanged active (s.active.filter (·.1 ≠ cursor)) =
      s.active.filter (·.1 ≠ cursor) ++ [(exchanged, active)] := by
    refine InsertionMap.setEntries_of_notMem (fun hmem => ?_) active
    obtain ⟨e, he, heq⟩ := List.mem_map.mp hmem
    exact hnotActive e (List.mem_of_mem_filter he) heq
  rw [hactive]
  refine ⟨fun e he => ?_, fun e he => ?_, fun c hc => ?_, ?_, ⟨⟨_, _, hissued, hvalid⟩, h.justified⟩⟩
  · rcases List.mem_append.mp he with he | he
    · have he := List.mem_of_mem_filter he
      simpa [issuedTo, (hnotActive e he).symm] using h.active e he
    · simp [List.mem_singleton.mp he, issuedTo]
  · show e.1 ∉ exchanged :: issues s.log
    rw [List.mem_cons, not_or]
    exact ⟨fun heq => hfresh (List.mem_append_left _ (heq ▸ List.mem_map_of_mem he)), h.fresh e he⟩
  · have hc : c = cursor ∨ c ∈ uses s.log := List.mem_cons.mp hc
    have hcIssued : c ∈ issues s.log := hc.elim (fun heq => heq ▸ hcursor) fun hused =>
      (h.used c hused).1
    refine ⟨List.mem_cons_of_mem _ hcIssued, fun hmem => ?_⟩
    obtain ⟨e, he, rfl⟩ := List.mem_map.mp hmem
    rcases List.mem_append.mp he with he | he
    · obtain ⟨he, hne⟩ := List.mem_filter.mp he
      rcases hc with hc | hc
      · simp [hc] at hne
      · exact (h.used e.1 hc).2 (List.mem_map_of_mem he)
    · rw [List.mem_singleton.mp he] at hcIssued
      exact hnotIssued hcIssued
  · show (cursor :: uses s.log).Nodup
    refine List.nodup_cons.mpr ⟨fun hused => ?_, h.once⟩
    exact (h.used cursor hused).2 (List.mem_map_of_mem hsource)

theorem Logged.consumed (h : s.Logged) {cursor : String} {source : ActiveCursor}
    {store : Store Hash} {now : Int} (hsource : (cursor, source) ∈ s.active)
    (hvalid : now < source.expiresAt) :
    { s with
      store := store
      active := s.active.filter (·.1 ≠ cursor)
      log := .consumed cursor source.connectionId now :: s.log }.Logged := by
  have hissued := h.active (cursor, source) hsource
  refine ⟨fun e he => h.active e (List.mem_of_mem_filter he), h.fresh, fun c hc => ?_, ?_,
    ⟨⟨_, hissued, hvalid⟩, h.justified⟩⟩
  · have hc : c = cursor ∨ c ∈ uses s.log := List.mem_cons.mp hc
    have hcIssued : c ∈ issues s.log :=
      hc.elim (fun heq => heq ▸ mem_issues_of_issuedTo hissued) fun hused => (h.used c hused).1
    refine ⟨hcIssued, fun hmem => ?_⟩
    obtain ⟨e, he, rfl⟩ := List.mem_map.mp hmem
    obtain ⟨he, hne⟩ := List.mem_filter.mp he
    rcases hc with hc | hc
    · simp [hc] at hne
    · exact (h.used e.1 hc).2 (List.mem_map_of_mem he)
  · show (cursor :: uses s.log).Nodup
    refine List.nodup_cons.mpr ⟨fun hused => ?_, h.once⟩
    exact (h.used cursor hused).2 (List.mem_map_of_mem hsource)

def exchangeTarget? [DecidableEq Hash] (codec : CursorCodec Json) (s : CursorRegistry Hash)
    (cursor connectionId : String) (expected : CursorQueryContext Json)
    (resourceKind resourceId nonce : String) (validatedAt storeNow issuedAt : Int) :
    Option (String × Nat) :=
  match s.checkExchange codec cursor expected resourceKind resourceId validatedAt with
  | .accept source envelope =>
    ((s.sweep (some cursor) validatedAt storeNow).exchangePin? codec cursor connectionId source
      envelope nonce
      issuedAt).map fun exchanged =>
        (exchanged, (s.sweep (some cursor) validatedAt storeNow).otherCursors connectionId source)
  | _ => none

/-- Each grant and each exchange that goes through mints a cursor that was not handed out before and
finds room among the cursors of its connection, those of the calls under way included, and no call
names a cursor whose grant has not returned. -/
def StepOk [DecidableEq Hash] (codec : CursorCodec Json) (s : CursorRegistry Hash) :
    CursorEvent Hash Json → Prop
  | .grant connectionId envelope resourceKind resourceId sweepAt storeNow issuedAt =>
    ∀ g ∈ (s.sweep none sweepAt storeNow).grantPin? codec connectionId envelope resourceKind
      resourceId issuedAt, g.1 ∉ s.issued ∧
      (s.sweep none sweepAt storeNow).connectionCount connectionId + s.waiting connectionId <
        maxCursorsPerConnection
  | .exchange cursor connectionId expected resourceKind resourceId nonce validatedAt
    storeNow issuedAt =>
    cursor ∉ s.pending.map Prod.fst ∧
    ∀ target ∈ s.exchangeTarget? codec cursor connectionId expected resourceKind resourceId
      nonce validatedAt
      storeNow issuedAt,
      target.1 ∉ s.issued ∧ target.2 + s.waiting connectionId < maxCursorsPerConnection
  | .consume cursor _ _ _ _ | .release cursor => cursor ∉ s.pending.map Prod.fst
  | _ => True

instance [DecidableEq Hash] (codec : CursorCodec Json) (s : CursorRegistry Hash) :
    ∀ event : CursorEvent Hash Json, Decidable (s.StepOk codec event)
  | .grant connectionId envelope resourceKind resourceId sweepAt storeNow issuedAt =>
    inferInstanceAs (Decidable
      (∀ g ∈ (s.sweep none sweepAt storeNow).grantPin? codec connectionId envelope
      resourceKind resourceId issuedAt, g.1 ∉ s.issued ∧
        (s.sweep none sweepAt storeNow).connectionCount connectionId + s.waiting connectionId <
          maxCursorsPerConnection))
  | .exchange cursor connectionId expected resourceKind resourceId nonce validatedAt
    storeNow issuedAt =>
    inferInstanceAs (Decidable (cursor ∉ s.pending.map Prod.fst ∧
      ∀ target ∈ s.exchangeTarget? codec cursor connectionId expected resourceKind resourceId
      nonce validatedAt
        storeNow issuedAt,
        target.1 ∉ s.issued ∧ target.2 + s.waiting connectionId < maxCursorsPerConnection))
  | .consume cursor _ _ _ _ => inferInstanceAs (Decidable (cursor ∉ s.pending.map Prod.fst))
  | .release cursor => inferInstanceAs (Decidable (cursor ∉ s.pending.map Prod.fst))
  | .granted _ | .sweep _ _ | .close | .store _ => isTrue trivial

theorem checkExchange_accept {codec : CursorCodec Json} {cursor : String}
    {expected : CursorQueryContext Json} {resourceKind resourceId : String} {validatedAt : Int}
    {source : ActiveCursor} {envelope : CursorEnvelope Json}
    (h : s.checkExchange codec cursor expected resourceKind resourceId validatedAt =
    .accept source envelope) :
    (cursor, source) ∈ s.active ∧ validatedAt < source.expiresAt := by
  unfold checkExchange at h
  split at h
  · cases h
  · split at h
    case h_1 source' expiresAt hlookup _ =>
      split at h
      case isTrue => cases h
      case isFalse hvalid =>
        split at h
        · cases h
          exact ⟨lookup_eq_of_mem hlookup, lt_of_not_ge fun hle => hvalid (.inl hle)⟩
        · cases h
    case h_2 => cases h

section Steps

variable {codec : CursorCodec Json}

theorem consume_inv (hheld : s.Held) (hlogged : s.Logged) {cursor connectionId : String}
    {expected : CursorQueryContext Json} {now now' : Int}
    (hcursor : cursor ∉ s.pending.map Prod.fst) :
    (s.consume codec cursor connectionId expected now now').Held ∧
      (s.consume codec cursor connectionId expected now now').Logged := by
  have hreleased : (s.release cursor).Held ∧ (s.release cursor).Logged :=
    ⟨hheld.release hcursor, hlogged.mono List.filter_sublist rfl rfl⟩
  unfold consume
  split
  case h_1 => exact ⟨hheld, hlogged⟩
  case h_2 envelope _ =>
    split
    case h_1 => exact hreleased
    case h_2 active hlookup =>
      split
      case isTrue => exact hreleased
      case isFalse hlive =>
        rw [not_or, not_or, not_not] at hlive
        obtain ⟨rfl, hvalid, -⟩ := hlive
        split
        case isTrue =>
          have hheld' := hreleased.1
          exact ⟨⟨hheld'.pinned, hheld'.capacity, hheld'.perm, hheld'.nodup, hheld'.budget⟩,
            hlogged.consumed (lookup_eq_of_mem hlookup) (lt_of_not_ge hvalid)⟩
        case isFalse => exact ⟨hheld, hlogged⟩

variable [DecidableEq Hash]

theorem grant_inv (hheld : s.Held) (hlogged : s.Logged) {connectionId : String}
    {envelope : CursorEnvelope Json} {resourceKind resourceId : String}
    {sweepAt storeNow issuedAt : Int} (hok : s.StepOk codec
    (.grant connectionId envelope resourceKind resourceId sweepAt storeNow issuedAt)) :
    (s.grant codec connectionId envelope resourceKind resourceId sweepAt storeNow issuedAt).Held ∧
      (s.grant codec connectionId envelope resourceKind resourceId sweepAt storeNow
        issuedAt).Logged := by
  have hheld' := hheld.sweep none sweepAt storeNow
  have hlogged' := hlogged.sweep none sweepAt storeNow
  obtain ⟨-, hpending, hlog⟩ := s.sweep_frame none sweepAt storeNow
  have hissued : (s.sweep none sweepAt storeNow).issued = s.issued := by
    rw [issued, issued, hpending, hlog]
  unfold grant
  dsimp only
  split
  case h_1 => exact ⟨hheld', hlogged'⟩
  case h_2 cursor store hgrant =>
    obtain ⟨hfresh, hroom⟩ := hok _ hgrant
    rw [waiting, ← hpending] at hroom
    rw [← hissued] at hfresh
    refine ⟨?_, hlogged'.addPending hfresh⟩
    unfold grantPin? at hgrant
    split at hgrant
    case isTrue => cases hgrant
    case isFalse =>
      dsimp only at hgrant
      split at hgrant
      case isFalse => cases hgrant
      case isTrue hpinned =>
        cases hgrant
        rcases Store.pin_cases (s.sweep none sweepAt storeNow).store (codec.sign
          { envelope with issuedAt := some issuedAt, expiresAt := some (issuedAt + cursorTtlMs) })
          (resourceKey resourceKind resourceId) envelope.revision with heq |
            ⟨uid, hnot, hlt, hindex, hkeeps⟩
        · -- a cursor that is pinned already is a holder, and holders were handed out
          rw [heq, ← Store.mem_pinKeys] at hpinned
          exact absurd (hlogged'.mem_issued (hheld'.perm.mem_iff.mp hpinned)) hfresh
        · exact hheld'.addPending hnot hlt hindex (hkeeps hheld'.pinned) hroom

theorem exchange_inv (hheld : s.Held) (hlogged : s.Logged) {cursor connectionId : String}
    {expected : CursorQueryContext Json} {resourceKind resourceId nonce : String}
    {validatedAt storeNow issuedAt : Int} (hok : s.StepOk codec
      (.exchange cursor connectionId expected resourceKind resourceId nonce validatedAt
        storeNow issuedAt)) :
    (s.exchange codec cursor connectionId expected resourceKind resourceId nonce validatedAt storeNow
      issuedAt).Held ∧
      (s.exchange codec cursor connectionId expected resourceKind resourceId nonce
        validatedAt storeNow
        issuedAt).Logged := by
  obtain ⟨hcursor, hok⟩ := hok
  unfold exchange
  split
  case h_1 => exact ⟨hheld.release hcursor, hlogged.mono List.filter_sublist rfl rfl⟩
  case h_2 => exact ⟨hheld, hlogged⟩
  case h_3 source envelope hcheck =>
    obtain ⟨hsource, hvalid⟩ := checkExchange_accept hcheck
    have hheld' := hheld.sweep (some cursor) validatedAt storeNow
    have hlogged' := hlogged.sweep (some cursor) validatedAt storeNow
    have hsource' := mem_active_sweep hsource validatedAt storeNow
    obtain ⟨-, hpending, hlog⟩ := s.sweep_frame (some cursor) validatedAt storeNow
    have hissued : (s.sweep (some cursor) validatedAt storeNow).issued = s.issued := by
      rw [issued, issued, hpending, hlog]
    dsimp only
    split
    case h_1 => exact ⟨hheld', hlogged'⟩
    case h_2 exchanged hexchange =>
      obtain ⟨hfresh, hroom⟩ :=
        hok (exchanged, _) (by simp only [exchangeTarget?, hcheck, hexchange]; rfl)
      rw [waiting, ← hpending] at hroom
      rw [← hissued] at hfresh
      have hnot : exchanged ∉ (s.sweep (some cursor) validatedAt storeNow).holders :=
        fun hmem => hfresh (hlogged'.mem_issued hmem)
      have hmoved :=
        hheld'.exchanged hsource' hnot ⟨connectionId, resourceId, issuedAt + cursorTtlMs⟩ hroom
      exact ⟨⟨hmoved.pinned, hmoved.capacity, hmoved.perm, hmoved.nodup, hmoved.budget⟩,
        hlogged'.exchanged hsource' hfresh hvalid⟩

theorem step_inv {sha : Chars → Hash} (hheld : s.Held) (hlogged : s.Logged)
    {event : CursorEvent Hash Json} (hok : s.StepOk codec event)
    (hstep : s.step sha codec event = some s') : s'.Held ∧ s'.Logged := by
  cases event with
  | grant connectionId envelope resourceKind resourceId sweepAt storeNow issuedAt =>
    cases hstep
    exact grant_inv hheld hlogged hok
  | granted i => exact ⟨hheld.granted hstep, hlogged.granted hheld hstep⟩
  | exchange cursor connectionId expected resourceKind resourceId nonce validatedAt
    storeNow issuedAt =>
    cases hstep
    exact exchange_inv hheld hlogged hok
  | consume cursor connectionId expected now now' =>
    cases hstep
    exact consume_inv hheld hlogged hok
  | release cursor =>
    cases hstep
    exact ⟨hheld.release hok, hlogged.mono List.filter_sublist rfl rfl⟩
  | sweep at_ storeNow =>
    cases hstep
    exact ⟨hheld.sweep none at_ storeNow, hlogged.sweep none at_ storeNow⟩
  | close =>
    cases hstep
    obtain ⟨hactive, hpending, hlog⟩ := s.releaseAll_frame (s.active.map Prod.fst)
    refine ⟨hheld.releaseAll fun cursor hcursor => hheld.notMem_pending hcursor,
      hlogged.mono ?_ hpending hlog⟩
    show (s.releaseAll (s.active.map Prod.fst)).active.Sublist s.active
    rw [hactive]
    exact List.filter_sublist
  | store event =>
    simp only [CursorRegistry.step] at hstep
    split at hstep
    case isTrue => cases hstep
    case isFalse hpin =>
      obtain ⟨store, hstore, rfl⟩ := Option.map_eq_some_iff.mp hstep
      refine ⟨hheld.store (Store.keepsPins_step hstore (by simpa using hpin)), ?_⟩
      exact ⟨hlogged.active, hlogged.fresh, hlogged.used, hlogged.once, hlogged.justified⟩

end Steps

end CursorRegistry

open CursorRegistry

/-- In every run in which each cursor is minted once and the calls under way are counted, the budgets
hold, a cursor is used at most once, in time and by its connection, and every active cursor holds a
pin on a listed revision. -/
theorem cursor_budgets_hold [DecidableEq Hash] (sha : Chars → Hash) (codec : CursorCodec Json)
    (files : File Hash → Option (Content Hash)) (events : List (CursorEvent Hash Json))
    (s : CursorRegistry Hash)
    (hrun : runEvents (CursorRegistry.step sha codec) (CursorRegistry.new (Store.new files))
    events = some s)
    (hok : RunMeets (CursorRegistry.step sha codec) (StepOk codec)
      (CursorRegistry.new (Store.new files)) events) :
    (∀ connectionId, s.connectionCount connectionId ≤ maxCursorsPerConnection) ∧
    s.active.length ≤ maxCursorsPerSession ∧ (uses s.log).Nodup ∧ Justified s.log ∧
    ∀ e ∈ s.active, ∃ uid, (e.1, uid) ∈ s.store.pinIndex ∧
      ∃ r ∈ s.store.listed, r.uid = uid ∧ e.1 ∈ r.pins := by
  have hinit : (CursorRegistry.new (Store.new files)).Held ∧
      (CursorRegistry.new (Store.new files)).Logged := by
    refine ⟨⟨nofun, Nat.zero_le _, List.Perm.refl _, List.nodup_nil, fun _ => Nat.zero_le _⟩, ?_⟩
    exact ⟨nofun, nofun, nofun, List.nodup_nil, trivial⟩
  obtain ⟨hheld, hlogged⟩ := hok.invariant (P := fun s => s.Held ∧ s.Logged)
    (fun _ _ _ h hok hstep => step_inv h.1 h.2 hok hstep) hrun hinit
  refine ⟨fun connectionId => ?_, ?_, hlogged.once, hlogged.justified, fun e he => ?_⟩
  · exact (Nat.le_add_right _ _).trans (hheld.budget connectionId)
  · have hlength := hheld.perm.length_eq
    have hcapacity := hheld.capacity
    simp only [Store.pinKeys, holders, List.length_map, List.length_append] at hlength
    show s.active.length ≤ maxPinnedRevisions
    omega
  · have hmem : e.1 ∈ s.store.pinKeys :=
      hheld.perm.mem_iff.mpr (List.mem_map_of_mem (List.mem_append_left _ he))
    obtain ⟨p, hp, heq⟩ := List.mem_map.mp hmem
    obtain ⟨r, hr, huid, hpin⟩ := hheld.pinned p hp
    exact ⟨p.2, heq ▸ hp, r, hr, huid, heq ▸ hpin⟩

def pageEnvelope (nonce : Option String) : CursorEnvelope Nat :=
  { sessionId := "s"
    resource := "state"
    nonce := nonce
    revision := 1
    highWatermark := none
    issuedAt := none
    expiresAt := none
    purpose := none
    position := 0
    direction := "forward"
    pageShape := 0 }

def namedCodec (issuedAt : String → Int) : CursorCodec Nat where
  sign envelope := envelope.nonce.getD "page"
  verify cursor := some { pageEnvelope (some cursor) with
    issuedAt := some (issuedAt cursor)
    expiresAt := some (issuedAt cursor + cursorTtlMs) }
  canonicalJson _ := "0"

def pageContext : CursorQueryContext Nat :=
  { sessionId := "s", resource := some "state", resourceId := none, direction := "forward", pageShape := 0,
    purpose := none }

def exchangedRun : List (CursorEvent Chars Nat) :=
  (createWhole 0 "[]".toList 0).map .store ++
    [.grant "c1" (pageEnvelope (some "n1")) "state" "a" 1 1 1, .granted 0,
      .exchange "n1" "c2" pageContext "state" "a" "n2" 2 2 2,
      .grant "c1" (pageEnvelope (some "n3")) "state" "a" 3 3 3,
        .consume "n2" "c2" pageContext 4 4, .granted 0]

theorem exchanged_cursor_is_consumed_once :
    ∃ s, runEvents (CursorRegistry.step id (namedCodec fun _ => 0))
      (CursorRegistry.new (Store.new fun _ => none))
        exchangedRun = some s ∧
      uses s.log = ["n2", "n1"] ∧ s.active.map Prod.fst = ["n3"] ∧
        s.connectionCount "c1" ≤ maxCursorsPerConnection ∧
      ∀ e ∈ s.active, ∃ uid, (e.1, uid) ∈ s.store.pinIndex ∧ ∃ r ∈ s.store.listed, r.uid = uid ∧
        e.1 ∈ r.pins := by
  have hruns : (runEvents (CursorRegistry.step id (namedCodec fun _ => 0))
      (CursorRegistry.new (Store.new fun _ => none)) exchangedRun).any
        (fun s => uses s.log = ["n2", "n1"] && s.active.map Prod.fst = ["n3"]) = true := by
        decide +kernel
  obtain ⟨s, hrun, hs⟩ := (Option.any_eq_true _ _).mp hruns
  obtain ⟨huses, hactive⟩ := Bool.and_eq_true_iff.mp hs
  obtain ⟨hbudget, -, -, -, hpins⟩ :=
    cursor_budgets_hold id (namedCodec fun _ => 0) _ exchangedRun s hrun
    (by decide +kernel)
  exact ⟨s, hrun, of_decide_eq_true huses, of_decide_eq_true hactive, hbudget "c1", hpins⟩

/-- As many calls of `grant` as one connection may have cursors, and one more, before any has
returned. -/
def crowdedRun : List (CursorEvent Chars Nat) :=
  (createWhole 0 "[]".toList 0).map .store ++
    (List.range 33).map (fun i => .grant "c" (pageEnvelope (some (toString i))) "state" "a" 1 1 1) ++
    (List.range 33).map fun _ => .granted 0

def aliasedRun : List (CursorEvent Chars Nat) :=
  (createWhole 0 "[]".toList 0).map .store ++
    [.grant "c" (pageEnvelope none) "state" "a" 1 1 1,
    .grant "c" (pageEnvelope none) "state" "a" 1 1 1, .granted 0,
      .consume "page" "c" pageContext 1 1, .granted 0]

theorem concurrent_grants_exceed_budget :
    (∃ s, runEvents (CursorRegistry.step id (namedCodec fun _ => 0))
      (CursorRegistry.new (Store.new fun _ => none))
        crowdedRun = some s ∧ maxCursorsPerConnection < s.connectionCount "c") ∧
    ∃ s, runEvents (CursorRegistry.step id (namedCodec fun _ => 0))
      (CursorRegistry.new (Store.new fun _ => none))
        aliasedRun = some s ∧ s.active.map Prod.fst = ["page"] ∧ s.store.pinIndex = [] := by
  have hcrowded : (runEvents (CursorRegistry.step id (namedCodec fun _ => 0))
      (CursorRegistry.new (Store.new fun _ => none)) crowdedRun).any
        (fun s => maxCursorsPerConnection < s.connectionCount "c") = true := by decide +kernel
  have haliased : (runEvents (CursorRegistry.step id (namedCodec fun _ => 0))
      (CursorRegistry.new (Store.new fun _ => none)) aliasedRun).any
        (fun s => s.active.map Prod.fst = ["page"] && s.store.pinIndex = []) = true := by
        decide +kernel
  obtain ⟨s, hrun, hs⟩ := (Option.any_eq_true _ _).mp hcrowded
  obtain ⟨t, hrun', ht⟩ := (Option.any_eq_true _ _).mp haliased
  obtain ⟨hactive, hpins⟩ := Bool.and_eq_true_iff.mp ht
  exact ⟨⟨s, hrun, of_decide_eq_true hs⟩, t, hrun', of_decide_eq_true hactive,
    of_decide_eq_true hpins⟩

end JevCode.Sdk
