import JevCode.Sdk.CursorRegistry
import JevCode.Sdk.RevisionStoreLaws

namespace JevCode.Sdk

open JevCode.Text JevCode.Data

variable {Hash : Type} {sha : Chars → Hash}

namespace Store

variable {s s' s'' : Store Hash}

def pinKeys (s : Store Hash) : List String := s.pinIndex.map Prod.fst

theorem mem_pinKeys {cursorId : String} :
    cursorId ∈ s.pinKeys ↔ (s.pinIndex.lookup cursorId).isSome :=
  mem_map_fst_iff

structure KeepsPins (s s' : Store Hash) : Prop where
  pinIndex : s'.pinIndex = s.pinIndex
  pinned : ∀ r ∈ s.listed, r.pins ≠ [] → ∃ r' ∈ s'.listed, r'.uid = r.uid ∧ r'.pins = r.pins

theorem KeepsPins.of_resources (hindex : s'.pinIndex = s.pinIndex) (h : s'.resources = s.resources) :
    KeepsPins s s' :=
  ⟨hindex, fun r hr _ => ⟨r, by rwa [listed, h], rfl, rfl⟩⟩

theorem KeepsPins.trans (h : KeepsPins s s') (h' : KeepsPins s' s'') : KeepsPins s s'' := by
  refine ⟨h'.pinIndex.trans h.pinIndex, fun r hr hpins => ?_⟩
  obtain ⟨r', hr', huid, heq⟩ := h.pinned r hr hpins
  obtain ⟨r'', hr'', huid', heq'⟩ := h'.pinned r' hr' (heq ▸ hpins)
  exact ⟨r'', hr'', huid'.trans huid, heq'.trans heq⟩

theorem KeepsPins.pinned_of_pinned (h : KeepsPins s s') (hp : s.Pinned) : s'.Pinned := by
  intro p hpin
  rw [h.pinIndex] at hpin
  obtain ⟨r, hr, huid, hmem⟩ := hp p hpin
  obtain ⟨r', hr', huid', heq⟩ := h.pinned r hr (List.ne_nil_of_mem hmem)
  exact ⟨r', hr', huid'.trans huid, heq ▸ hmem⟩

theorem keepsPins_updateRevision (s : Store Hash) (uid : Nat) {f : Revision Hash → Revision Hash}
    (huid : ∀ r, (f r).uid = r.uid) (hpins : ∀ r, (f r).pins = r.pins) :
    KeepsPins s (s.updateRevision uid f) := by
  refine ⟨rfl, fun r hr _ => ?_⟩
  rw [listed_updateRevision]
  refine ⟨_, List.mem_map_of_mem hr, ?_⟩
  split
  · exact ⟨huid r, hpins r⟩
  · exact ⟨rfl, rfl⟩

theorem keepsPins_enforceMemory (s : Store Hash) : KeepsPins s s.enforceMemory := by
  unfold enforceMemory
  generalize s.listed.length = n
  induction n generalizing s with
  | zero => exact .of_resources rfl rfl
  | succ n ih =>
    unfold enforceMemoryLoop
    split
    · split
      · exact .of_resources rfl rfl
      · rename_i candidate _
        have h : KeepsPins s (s.updateRevision candidate.uid ({ · with payload := none })) :=
          keepsPins_updateRevision s _ (fun _ => rfl) fun _ => rfl
        refine .trans ?_ (ih _)
        exact ⟨rfl, h.pinned⟩
    · exact .of_resources rfl rfl

section Moves

variable [DecidableEq Hash]

theorem keepsPins_foldl_drop {resources : List (Bucket Hash)} {dropped : List (Revision Hash)}
    (hperm : s.listed.Perm (dropped ++ resources.flatMap Bucket.revisions))
    (hpins : ∀ r ∈ dropped, r.pins = []) :
    KeepsPins s (dropped.foldl drop { s with resources := resources }) := by
  obtain ⟨memoryBytes, hdrop⟩ := foldl_drop hpins { s with resources := resources }
  rw [hdrop]
  refine ⟨rfl, fun r hr hne => ?_⟩
  rcases List.mem_append.mp (hperm.mem_iff.mp hr) with hr | hr
  · exact absurd (hpins r hr) hne
  · exact ⟨r, hr, rfl, rfl⟩

theorem keepsPins_sweep (s : Store Hash) (now : Int) : KeepsPins s (s.sweep now) := by
  refine keepsPins_foldl_drop ?_ ?_
  · rw [listed_swept]
    exact (List.filter_append_perm (expired now) s.listed).symm
  · intro r hr
    have hexpired := (List.mem_filter.mp hr).2
    simp only [expired, Bool.and_eq_true, List.isEmpty_iff] at hexpired
    exact hexpired.1

theorem keepsPins_commit {i : Nat} {c : Creation Hash} {now : Int}
    (hstep : s.commit sha i c now = some s') :
    KeepsPins s s' := by
  unfold commit at hstep
  split at hstep
  case h_2 => cases hstep
  case h_1 payload hphase =>
    dsimp only at hstep
    split at hstep
    case h_1 =>
      cases hstep
      exact .of_resources rfl rfl
    case h_2 =>
      cases hstep
      refine .trans ?_ (keepsPins_enforceMemory _)
      refine ⟨rfl, fun r hr _ => ⟨r, ?_, rfl, rfl⟩⟩
      exact (listed_pushRevision c.key s.nextArray _ s.resources).mem_iff.mpr
        (List.mem_cons_of_mem _ hr)

theorem keepsPins_step {event : Event Hash} (hstep : step sha s event = some s')
    (hpin : event.isPin = false) :
    KeepsPins s s' := by
  cases event with
  | createRevision resourceKind resourceId text =>
    simp only [step] at hstep
    split at hstep
    · cases hstep
    · cases hstep
      exact .of_resources rfl rfl
  | write i =>
    obtain ⟨c, hc, hstep⟩ := Option.bind_eq_some_iff.mp hstep
    obtain ⟨c', h⟩ := write_advances hstep
    exact .of_resources h.pinIndex h.resources
  | readBack i =>
    obtain ⟨c, hc, hstep⟩ := Option.bind_eq_some_iff.mp hstep
    obtain ⟨c', h⟩ := readBack_advances hstep
    exact .of_resources h.pinIndex h.resources
  | commit i now =>
    obtain ⟨c, hc, hstep⟩ := Option.bind_eq_some_iff.mp hstep
    exact keepsPins_commit hstep
  | trim i =>
    obtain ⟨c, hc, hstep⟩ := Option.bind_eq_some_iff.mp hstep
    unfold Store.trim at hstep
    split at hstep
    case h_2 => cases hstep
    case h_1 array id hphase =>
      cases hstep
      have h := trimBuckets_perm array s.resources
      have hdrop : KeepsPins (s.setCreation i { c with phase := .settled (some id) })
          ((trimBuckets array s.resources).2.foldl drop
            { s.setCreation i { c with phase := .settled (some id) } with
              resources := (trimBuckets array s.resources).1 }) := keepsPins_foldl_drop h.1 h.2
      refine KeepsPins.trans ?_ hdrop
      exact .of_resources rfl rfl
  | discardManifest i =>
    obtain ⟨c, hc, hstep⟩ := Option.bind_eq_some_iff.mp hstep
    obtain ⟨c', h⟩ := discardManifest_advances hstep
    exact .of_resources h.pinIndex h.resources
  | reject i =>
    obtain ⟨c, hc, hstep⟩ := Option.bind_eq_some_iff.mp hstep
    obtain ⟨c', h⟩ := reject_advances hstep
    exact .of_resources h.pinIndex h.resources
  | unlinked file =>
    simp only [step] at hstep
    split at hstep
    · cases hstep
      exact .of_resources rfl rfl
    · cases hstep
  | unlinkFailed file =>
    simp only [step] at hstep
    split at hstep
    · cases hstep
      exact .of_resources rfl rfl
    · cases hstep
  | pin => cases hpin
  | transferPin => cases hpin
  | unpin => cases hpin
  | sweep now =>
    cases hstep
    exact keepsPins_sweep s now
  | readRevision resourceKind resourceId id now =>
    cases hstep
    unfold Store.readRevision
    split
    · exact .of_resources rfl rfl
    · rename_i r _
      have h : KeepsPins s (s.updateRevision r.uid ({ · with lastAccessed := now })) :=
        keepsPins_updateRevision s _ (fun _ => rfl) fun _ => rfl
      exact ⟨rfl, h.pinned⟩
  | readChunk i =>
    obtain ⟨reader, hreader, hstep⟩ := Option.bind_eq_some_iff.mp hstep
    obtain ⟨readers, rfl⟩ := readChunk_eq hstep
    exact .of_resources rfl rfl

end Moves

theorem pin_cases (s : Store Hash) (cursorId key : String) (id : Nat) :
    s.pin cursorId key id = s ∨ ∃ uid, cursorId ∉ s.pinKeys ∧
      s.pinIndex.length < maxPinnedRevisions ∧
      (s.pin cursorId key id).pinIndex = s.pinIndex ++ [(cursorId, uid)] ∧
      (s.Pinned → (s.pin cursorId key id).Pinned) := by
  unfold pin
  split
  case isTrue => exact .inl rfl
  case isFalse hfree =>
    rw [not_or] at hfree
    split
    case h_1 => exact .inl rfl
    case h_2 r hr =>
      have hkeeps := keepsPins_enforceMemory
        { s.updateRevision r.uid fun r => { r with pins := r.pins.insert cursorId } with
          pinIndex := s.pinIndex ++ [(cursorId, r.uid)] }
      refine .inr ⟨r.uid, ?_, Nat.lt_of_not_le hfree.2, hkeeps.pinIndex, fun h => ?_⟩
      · rw [mem_pinKeys]
        exact hfree.1
      · exact hkeeps.pinned_of_pinned (h.insert (mem_listed_of_revision? hr) cursorId)

theorem pinIndex_unpin (s : Store Hash) (cursorId : String) :
    (s.unpin cursorId).pinIndex = s.pinIndex.filter (·.1 ≠ cursorId) := by
  unfold unpin
  split
  case h_1 hnone =>
    rw [eq_comm, List.filter_eq_self]
    intro p hp
    have hnot : cursorId ∉ s.pinKeys := by
      rw [mem_pinKeys, hnone]
      simp
    have hne : p.1 ≠ cursorId := fun heq => hnot (heq ▸ List.mem_map_of_mem hp)
    simpa using hne
  case h_2 => rfl

theorem pinned_unpin (h : s.Pinned) (cursorId : String) : (s.unpin cursorId).Pinned := by
  unfold unpin
  split
  case h_1 => exact h
  case h_2 uid _ => exact h.erase cursorId uid

theorem transferPin_eq {source replacement : String} (hsource : source ∈ s.pinKeys)
    (hreplacement : replacement ∉ s.pinKeys) :
    ∃ uid, (s.transferPin source replacement).pinIndex =
      s.pinIndex.filter (·.1 ≠ source) ++ [(replacement, uid)] ∧
      (s.Pinned → (s.transferPin source replacement).Pinned) := by
  have hne : source ≠ replacement := fun heq => hreplacement (heq ▸ hsource)
  rw [mem_pinKeys] at hsource hreplacement
  obtain ⟨uid, huid⟩ := Option.isSome_iff_exists.mp hsource
  unfold transferPin
  rw [if_neg (not_or.mpr ⟨hne, hreplacement⟩), huid]
  exact ⟨uid, rfl, fun h => h.replace huid replacement⟩

end Store

end JevCode.Sdk
