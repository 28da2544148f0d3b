import JevCode.Sdk.RevisionStoreLaws

namespace JevCode.Sdk

open JevCode.Text JevCode.Data

variable {Hash : Type} [DecidableEq Hash] {sha : Chars → Hash}

namespace Store

def nextChunk? (c : Creation Hash) : Option Chars :=
  match c.phase with
  | .writing (chunk :: _) => some chunk
  | _ => none

def trimsArray? (c : Creation Hash) : Option Nat :=
  match c.phase with
  | .trimming array _ => some array
  | _ => none

/-- No step takes away a chunk that a call has written or writes. -/
def StepOk (sha : Chars → Hash) (s : Store Hash) : Event Hash → Prop
  | .write i => ∀ c ∈ s.creations[i]?, ∀ chunk ∈ nextChunk? c, .object (sha chunk) ∉ s.unlinks
  | .trim i => ∀ c ∈ s.creations[i]?, ∀ array ∈ trimsArray? c,
    s.SparesHeld (trimBuckets array s.resources).2
  | .sweep now => s.SparesHeld (s.listed.filter (expired now))
  | _ => True

instance (s : Store Hash) (dropped : List (Revision Hash)) : Decidable (s.SparesHeld dropped) :=
  inferInstanceAs (Decidable (∀ chunk ∈ s.held, (∃ r ∈ dropped, chunk ∈ r.chunks) →
    ∃ r ∈ s.listed, r ∉ dropped ∧ chunk ∈ r.chunks))

instance (s : Store Hash) : ∀ event : Event Hash, Decidable (s.StepOk sha event)
  | .write i => inferInstanceAs (Decidable (∀ c ∈ s.creations[i]?, ∀ chunk ∈ nextChunk? c,
      File.object (sha chunk) ∉ s.unlinks))
  | .trim i => inferInstanceAs (Decidable (∀ c ∈ s.creations[i]?, ∀ array ∈ trimsArray? c,
      s.SparesHeld (trimBuckets array s.resources).2))
  | .sweep now => inferInstanceAs (Decidable (s.SparesHeld (s.listed.filter (expired now))))
  | .createRevision _ _ _ | .readBack _ | .commit _ _ | .discardManifest _ | .reject _ | .unlinked _
  | .unlinkFailed _ | .pin _ _ _ _ | .transferPin _ _ | .unpin _ | .readRevision _ _ _ _
  | .readChunk _ => isTrue trivial

theorem inv_new (files : File Hash → Option (Content Hash)) : (Store.new files).Inv sha where
  backed := by
    refine ⟨fun file => rfl, fun chunk hneeds => ?_⟩
    cases hneeds with
    | inl hpos => cases hpos
    | inr hheld => cases hheld
  sound r hr := by cases hr
  nodup := List.nodup_nil
  fresh r hr := by cases hr
  pinned p hp := by cases hp
  creations c hc := by cases hc
  readers reader hreader := by cases hreader

theorem Inv.step (hsha : Function.Injective sha) {s s' : Store Hash} {event : Event Hash}
    (h : s.Inv sha) (hok : s.StepOk sha event) (hstep : step sha s event = some s') :
    s'.Inv sha := by
  cases event with
  | createRevision resourceKind resourceId text =>
    simp only [Sdk.step] at hstep
    split at hstep
    · cases hstep
    · cases hstep
      exact h.createRevision _ text
  | write i =>
    obtain ⟨c, hc, hstep⟩ := Option.bind_eq_some_iff.mp hstep
    refine h.write hc (fun chunk rest hphase => hok c hc chunk ?_) hstep
    simp [nextChunk?, hphase]
  | readBack i =>
    obtain ⟨c, hc, hstep⟩ := Option.bind_eq_some_iff.mp hstep
    exact h.readBack hsha hc hstep
  | commit i now =>
    obtain ⟨c, hc, hstep⟩ := Option.bind_eq_some_iff.mp hstep
    exact h.commit hsha hc hstep
  | trim i =>
    obtain ⟨c, hc, hstep⟩ := Option.bind_eq_some_iff.mp hstep
    refine h.trim (fun array id hphase => hok c hc array ?_) hstep
    simp [trimsArray?, hphase]
  | discardManifest i =>
    obtain ⟨c, hc, hstep⟩ := Option.bind_eq_some_iff.mp hstep
    exact h.discardManifest hstep
  | reject i =>
    obtain ⟨c, hc, hstep⟩ := Option.bind_eq_some_iff.mp hstep
    exact h.reject hstep
  | unlinked file =>
    simp only [Sdk.step] at hstep
    split at hstep
    case isTrue hfile =>
      cases hstep
      exact h.unlinked hfile
    case isFalse => cases hstep
  | unlinkFailed file =>
    simp only [Sdk.step] at hstep
    split at hstep
    case isTrue hfile =>
      cases hstep
      exact h.unlinks fun chunk hmem => List.mem_of_mem_erase hmem
    case isFalse => cases hstep
  | pin cursorId resourceKind resourceId id =>
    cases hstep
    exact h.pin cursorId _ id
  | transferPin sourceCursorId replacementCursorId =>
    cases hstep
    exact h.transferPin sourceCursorId replacementCursorId
  | unpin cursorId =>
    cases hstep
    exact h.unpin cursorId
  | sweep now =>
    cases hstep
    exact h.sweep hok
  | readRevision resourceKind resourceId id now =>
    cases hstep
    exact h.readRevision _ id now
  | readChunk i =>
    obtain ⟨reader, hreader, hstep⟩ := Option.bind_eq_some_iff.mp hstep
    exact h.readChunk hsha hreader hstep

def readNow (sha : Chars → Hash) (s : Store Hash) (r : Revision Hash) : Option Chars :=
  ((r.chunks.zip r.chunkLengths).mapM (s.readFile sha)).map List.flatten

theorem Inv.readNow_eq (hsha : Function.Injective sha) {s : Store Hash} (h : s.Inv sha)
    {r : Revision Hash} (hr : r ∈ s.listed) :
    ∃ text, r.hash = sha text ∧ s.readNow sha r = some text := by
  obtain ⟨text, hhash, hchunks, hlengths, -⟩ := h.sound r hr
  refine ⟨text, hhash, ?_⟩
  have hread : ∀ chunks : List Chars, (∀ next ∈ chunks, next ∈ chunksOf text) →
      (chunks.map fun next => (sha next, byteLength next)).mapM (s.readFile sha) = some chunks := by
    intro chunks hsub
    induction chunks with
    | nil => rfl
    | cons next chunks ih =>
      rw [List.map_cons, List.mapM_cons, h.readFile_eq hsha hr hhash (hsub next List.mem_cons_self),
        ih fun next' hnext' => hsub next' (List.mem_cons_of_mem next hnext')]
      rfl
  rw [readNow, hchunks, hlengths, List.zip_map', hread _ fun _ hnext => hnext, Option.map_some,
    flatten_chunksOf]

end Store

open Store

/-- In a run that takes away no chunk of a call under way, every listed revision has its files and
can be read back, every pin has its revision, and no reader of a listed revision has failed. -/
theorem listed_revisions_stay_readable (sha : Chars → Hash) (hsha : Function.Injective sha)
    (files : File Hash → Option (Content Hash)) (events : List (Event Hash)) (s : Store Hash)
    (hrun : runEvents (step sha) (Store.new files) events = some s)
    (hok : RunMeets (step sha) (StepOk sha) (Store.new files) events) :
    (∀ r ∈ s.listed,
      (∀ chunk ∈ r.chunks, ∃ text, s.files (.object chunk) = some (.data text) ∧ sha text = chunk) ∧
      ∃ text, r.hash = sha text ∧ s.readNow sha r = some text) ∧
    (∀ p ∈ s.pinIndex, ∃ r ∈ s.listed, r.uid = p.2 ∧ p.1 ∈ r.pins) ∧
    ∀ reader ∈ s.readers, ∀ r ∈ s.listed, r.uid = reader.uid →
      reader.state ≠ .failed ∧ ∀ text, reader.state = .done text → r.hash = sha text := by
  have h : s.Inv sha :=
    hok.invariant (fun _ _ _ h hok hstep => h.step hsha hok hstep) hrun (inv_new files)
  refine ⟨fun r hr => ⟨fun chunk hchunk => ?_, h.readNow_eq hsha hr⟩, h.pinned, ?_⟩
  · have hfile : File.object chunk ∈ s.listed.flatMap Revision.files :=
      List.mem_flatMap.mpr ⟨r, hr, mem_files.mpr hchunk⟩
    exact (h.backed.kept chunk (.inl (h.backed.counts.pos_iff.mpr hfile))).present
  · intro reader hreader r hr huid
    have hreads := (h.readers reader hreader).2
    unfold Reader.Ok at hreads
    refine ⟨fun hfailed => ?_, fun text hdone => ?_⟩
    · simp only [hfailed] at hreads
      exact hreads r hr huid
    · simp only [hdone] at hreads
      exact hreads r hr huid

def sharedSnapshot : List (Event Chars) :=
  [.createRevision "state" "a" "[]".toList, .write 0, .write 0, .readBack 0,
    .readBack 0, .commit 0 0, .trim 0, .createRevision "state" "b" "[]".toList, .write 1, .write 1,
    .readBack 1, .readBack 1]

theorem shared_snapshot_is_kept :
    ∃ s, runEvents (step id) (Store.new fun _ => none) (sharedSnapshot ++ [.commit 1 1, .trim 1,
        .pin "cursor" "state" "b" 1, .sweep 900001, .readRevision "state" "b" 1 900002]) = some s ∧
      s.pinIndex = [("cursor", 1)] ∧
      ∀ p ∈ s.pinIndex, ∃ r ∈ s.listed, r.uid = p.2 ∧ ∃ text, r.hash = text ∧
        s.readNow id r = some text := by
  have hruns : (runEvents (step id) (Store.new fun _ => none)
      (sharedSnapshot ++ [.commit 1 1, .trim 1, .pin "cursor" "state" "b" 1, .sweep 900001,
      .readRevision "state" "b" 1 900002])).any
        (·.pinIndex = [("cursor", 1)]) = true := by decide +kernel
  obtain ⟨s, hrun, hpin⟩ := (Option.any_eq_true _ _).mp hruns
  obtain ⟨hread, hpinned, -⟩ := listed_revisions_stay_readable id Function.injective_id _ _ s hrun
    (by decide +kernel)
  refine ⟨s, hrun, by simpa using hpin, fun p hp => ?_⟩
  obtain ⟨r, hr, huid, -⟩ := hpinned p hp
  exact ⟨r, hr, huid, (hread r hr).2⟩

theorem pinned_revision_loses_its_chunk :
    ∃ s, runEvents (step id) (Store.new fun _ => none)
      (sharedSnapshot ++ [.sweep 900001, .commit 1 900001, .trim 1, .pin "cursor" "state" "b" 1,
        .unlinked (.object "[]".toList)]) = some s ∧
      ∃ r ∈ s.listed, ("cursor", r.uid) ∈ s.pinIndex ∧
        (∃ chunk ∈ r.chunks, s.files (.object chunk) = none) ∧
        s.readNow id r = none := by
  have hruns : (runEvents (step id) (Store.new fun _ => none) (sharedSnapshot ++ [.sweep 900001,
      .commit 1 900001, .trim 1, .pin "cursor" "state" "b" 1, .unlinked (.object "[]".toList)])).any
        (fun s => ∃ r ∈ s.listed, ("cursor", r.uid) ∈ s.pinIndex ∧
          (∃ chunk ∈ r.chunks, s.files (.object chunk) = none) ∧ s.readNow id r = none) = true := by
    decide +kernel
  obtain ⟨s, hrun, hlost⟩ := (Option.any_eq_true _ _).mp hruns
  exact ⟨s, hrun, by simpa using hlost⟩

end JevCode.Sdk
