import JevCode.Sdk.RevisionStore

namespace JevCode.Sdk

open JevCode.Text JevCode.Data

variable {Hash : Type} {sha : Chars → Hash}

theorem flatten_chunksOf (t : Chars) : (chunksOf t).flatten = t := by
  fun_induction chunksOf with
  | case1 => rfl
  | case2 c t chunk ih =>
    have hchunk : chunk ++ t.drop chunk.length = t :=
      List.prefix_iff_eq_append.mp (isPrefix_fitPrefix _ t)
    rw [List.flatten_cons, ih, List.cons_append, hchunk]

def Parts (sha : Chars → Hash) (text data : Chars) (rest : List (Hash × Nat)) : Prop :=
  ∃ done todo, chunksOf text = done ++ todo ∧ data = done.flatten ∧
    rest = todo.map fun chunk => (sha chunk, byteLength chunk)

theorem Parts.start {text : Chars} {chunks : List Hash} {chunkLengths : List Nat}
    (hchunks : chunks = (chunksOf text).map sha)
    (hlengths : chunkLengths = (chunksOf text).map byteLength) :
    Parts sha text [] (chunks.zip chunkLengths) :=
  ⟨[], chunksOf text, rfl, rfl, by rw [hchunks, hlengths, List.zip_map']⟩

theorem Parts.finish {text data : Chars} (h : Parts sha text data []) : data = text := by
  obtain ⟨done, todo, hsplit, rfl, hrest⟩ := h
  rw [List.map_eq_nil_iff.mp hrest.symm, List.append_nil] at hsplit
  rw [← hsplit, flatten_chunksOf]

theorem Parts.next (hsha : Function.Injective sha) {text data read : Chars} {chunk : Hash × Nat}
    {rest : List (Hash × Nat)} (h : Parts sha text data (chunk :: rest))
    (hread : sha read = chunk.1) :
    Parts sha text (data ++ read) rest := by
  obtain ⟨done, todo, hsplit, rfl, hrest⟩ := h
  cases todo with
  | nil => cases hrest
  | cons next todo =>
    obtain ⟨rfl, rfl⟩ := List.cons.inj hrest
    obtain rfl := hsha hread
    exact ⟨done ++ [read], todo, by simp [hsplit], by simp, rfl⟩

theorem Parts.head {text data : Chars} {chunk : Hash × Nat} {rest : List (Hash × Nat)}
    (h : Parts sha text data (chunk :: rest)) :
    ∃ next ∈ chunksOf text, chunk = (sha next, byteLength next) := by
  obtain ⟨done, todo, hsplit, -, hrest⟩ := h
  cases todo with
  | nil => cases hrest
  | cons next todo => exact ⟨next, by simp [hsplit], (List.cons.inj hrest).1⟩

def Sound (sha : Chars → Hash) (r : Revision Hash) : Prop :=
  ∃ text, r.hash = sha text ∧ r.chunks = (chunksOf text).map sha ∧
    r.chunkLengths = (chunksOf text).map byteLength ∧ (r.payload = none ∨ r.payload = some text)

def Creation.Complete (sha : Chars → Hash) (c : Creation Hash) : Prop :=
  c.chunks = (chunksOf c.text).map sha ∧ c.chunkLengths = (chunksOf c.text).map byteLength

def Creation.Ok (sha : Chars → Hash) (c : Creation Hash) : Prop :=
  match c.phase with
  | .writing rest => ∃ done, chunksOf c.text = done ++ rest ∧ c.chunks = done.map sha ∧
      c.chunkLengths = done.map byteLength
  | .reading data rest => c.Complete sha ∧ Parts sha c.text data rest
  | .serialised payload => c.Complete sha ∧ (payload = none ∨ payload = some c.text)
  | _ => True

def Creation.id? (c : Creation Hash) : Option Nat :=
  match c.phase with
  | .discarding id | .trimming _ id => some id
  | .settled result => result
  | _ => none

/-- The chunks that a call has written and that no revision refers to for it yet. -/
def Creation.held (c : Creation Hash) : List Hash :=
  match c.phase with
  | .writing _ | .reading _ _ | .serialised _ => c.chunks
  | _ => []

def Reader.Ok (sha : Chars → Hash) (listed : List (Revision Hash)) (reader : Reader Hash) : Prop :=
  match reader.state with
  | .reading data rest =>
    ∃ text, Parts sha text data rest ∧ ∀ r ∈ listed, r.uid = reader.uid → r.hash = sha text
  | .done text => ∀ r ∈ listed, r.uid = reader.uid → r.hash = sha text
  | .failed => ∀ r ∈ listed, r.uid ≠ reader.uid

theorem Reader.Ok.mono {listed listed' : List (Revision Hash)} {reader : Reader Hash}
    (h : reader.Ok sha listed) (hsub : ∀ r' ∈ listed', r'.uid = reader.uid →
      ∃ r ∈ listed, r.uid = r'.uid ∧ r.hash = r'.hash) : reader.Ok sha listed' := by
  have hhash : ∀ text, (∀ r ∈ listed, r.uid = reader.uid → r.hash = sha text) →
      ∀ r' ∈ listed', r'.uid = reader.uid → r'.hash = sha text := by
    intro text hr r' hr' huid
    obtain ⟨r, hmem, hruid, hrhash⟩ := hsub r' hr' huid
    rw [← hrhash, hr r hmem (hruid.trans huid)]
  unfold Reader.Ok at h ⊢
  split at h
  · obtain ⟨text, hparts, hr⟩ := h
    exact ⟨text, hparts, hhash text hr⟩
  · exact hhash _ h
  · intro r' hr' huid
    obtain ⟨r, hmem, hruid, -⟩ := hsub r' hr' huid
    exact h r hmem (hruid.trans huid)

namespace Store

def held (s : Store Hash) : List Hash := s.creations.flatMap Creation.held

variable {s s' : Store Hash}

theorem mem_held_setCreation {i : Nat} {c : Creation Hash} {chunk : Hash}
    (h : chunk ∈ (s.setCreation i c).held) : chunk ∈ s.held ∨ chunk ∈ c.held := by
  obtain ⟨c', hc', hchunk⟩ := List.mem_flatMap.mp h
  cases List.mem_or_eq_of_mem_set hc' with
  | inl hmem => exact .inl (List.mem_flatMap.mpr ⟨c', hmem, hchunk⟩)
  | inr heq => exact .inr (heq ▸ hchunk)

theorem mem_held {i : Nat} {c : Creation Hash} (hc : s.creations[i]? = some c) {chunk : Hash}
    (hchunk : chunk ∈ c.held) : chunk ∈ s.held :=
  List.mem_flatMap.mpr ⟨c, List.mem_of_getElem? hc, hchunk⟩

theorem ok_setCreation (h : ∀ c ∈ s.creations, c.Ok sha) {i : Nat} {c : Creation Hash}
    (hc : c.Ok sha) :
    ∀ c' ∈ (s.setCreation i c).creations, c'.Ok sha := by
  intro c' hc'
  cases List.mem_or_eq_of_mem_set hc' with
  | inl hmem => exact h c' hmem
  | inr heq => exact heq ▸ hc

structure Keeps (r r' : Revision Hash) : Prop where
  uid : r'.uid = r.uid
  hash : r'.hash = r.hash
  chunks : r'.chunks = r.chunks
  chunkLengths : r'.chunkLengths = r.chunkLengths
  payload : r'.payload = r.payload ∨ r'.payload = none

theorem Keeps.refl (r : Revision Hash) : Keeps r r := ⟨rfl, rfl, rfl, rfl, .inl rfl⟩

theorem Keeps.pins (r : Revision Hash) (pins : List String) : Keeps r { r with pins := pins } :=
  ⟨rfl, rfl, rfl, rfl, .inl rfl⟩

theorem Keeps.sound {r r' : Revision Hash} (h : Keeps r r') (hr : Sound sha r) : Sound sha r' := by
  obtain ⟨text, hhash, hchunks, hlengths, hpayload⟩ := hr
  refine ⟨text, h.hash.trans hhash, h.chunks.trans hchunks, h.chunkLengths.trans hlengths, ?_⟩
  cases h.payload with
  | inl heq => exact heq ▸ hpayload
  | inr hnone => exact .inl hnone

theorem listed_updateRevision (s : Store Hash) (uid : Nat) (f : Revision Hash → Revision Hash) :
    (s.updateRevision uid f).listed = s.listed.map fun r => if r.uid = uid then f r else r := by
  simp only [listed, updateRevision, List.flatMap_map, List.map_flatMap]

theorem pinned_updateRevision {uid : Nat} {f : Revision Hash → Revision Hash}
    (hpins : ∀ r, (f r).pins = r.pins) (huid : ∀ r, (f r).uid = r.uid) {p : String × Nat}
    (h : ∃ r ∈ s.listed, r.uid = p.2 ∧ p.1 ∈ r.pins) :
    ∃ r ∈ (s.updateRevision uid f).listed, r.uid = p.2 ∧ p.1 ∈ r.pins := by
  obtain ⟨r, hr, hruid, hpin⟩ := h
  rw [listed_updateRevision]
  refine ⟨_, List.mem_map_of_mem hr, ?_⟩
  split
  · exact ⟨(huid r).trans hruid, (hpins r).symm ▸ hpin⟩
  · exact ⟨hruid, hpin⟩

theorem mem_files {r : Revision Hash} {chunk : Hash} :
    .object chunk ∈ r.files ↔ chunk ∈ r.chunks := by
  simp [Revision.files]

theorem trimLoop_perm (n : Nat) (revisions : List (Revision Hash)) :
    revisions.Perm ((trimLoop n revisions).2 ++ (trimLoop n revisions).1) ∧
    ∀ r ∈ (trimLoop n revisions).2, r.pins = [] := by
  induction n generalizing revisions with
  | zero => exact ⟨List.Perm.refl _, by simp [trimLoop]⟩
  | succ n ih =>
    unfold trimLoop
    split
    case h_1 => exact ⟨List.Perm.refl _, by simp⟩
    case h_2 candidate hfind =>
      obtain ⟨hpins, before, after, rfl, hbefore⟩ := List.find?_eq_some_iff_append.mp hfind
      have herase : (before ++ candidate :: after).eraseP (·.pins = []) = before ++ after := by
        rw [List.eraseP_append_right _ (by simpa using hbefore), List.eraseP_cons, hpins]
        rfl
      rw [herase]
      obtain ⟨hperm, hdropped⟩ := ih (before ++ after)
      refine ⟨List.perm_middle.trans (hperm.cons candidate), ?_⟩
      intro r hr
      cases hr with
      | head => simpa using hpins
      | tail _ hr => exact hdropped r hr

theorem trimBuckets_perm (array : Nat) (bs : List (Bucket Hash)) :
    (bs.flatMap Bucket.revisions).Perm
      ((trimBuckets array bs).2 ++ (trimBuckets array bs).1.flatMap Bucket.revisions) ∧
    ∀ r ∈ (trimBuckets array bs).2, r.pins = [] := by
  induction bs with
  | nil => exact ⟨List.Perm.refl _, by simp [trimBuckets]⟩
  | cons b bs ih =>
    unfold trimBuckets
    split
    case isTrue =>
      obtain ⟨hperm, hdropped⟩ :=
        trimLoop_perm (b.revisions.length - maxRevisionsPerResource) b.revisions
      refine ⟨?_, hdropped⟩
      rw [List.flatMap_cons, List.flatMap_cons, ← List.append_assoc]
      exact hperm.append_right _
    case isFalse =>
      refine ⟨?_, ih.2⟩
      rw [List.flatMap_cons, List.flatMap_cons]
      refine (ih.1.append_left b.revisions).trans ?_
      rw [← List.append_assoc, ← List.append_assoc]
      exact List.perm_append_comm.append_right _

theorem listed_swept (now : Int) (resources : List (Bucket Hash)) :
    ((resources.map fun b => { b with revisions := b.revisions.filter (!expired now ·) }).filter
      (·.revisions ≠ [])).flatMap Bucket.revisions =
        (resources.flatMap Bucket.revisions).filter (!expired now ·) := by
  induction resources with
  | nil => rfl
  | cons b bs ih =>
    rw [List.map_cons, List.filter_cons, List.flatMap_cons, List.filter_append, ← ih]
    split
    case isTrue => rw [List.flatMap_cons]
    case isFalse hempty =>
      have hnil : b.revisions.filter (!expired now ·) = [] := by simpa using hempty
      rw [hnil, List.nil_append]

theorem listed_pushRevision (key : String) (array : Nat) (r : Revision Hash)
    (bs : List (Bucket Hash)) :
    ((pushRevision key array r bs).flatMap Bucket.revisions).Perm
    (r :: bs.flatMap Bucket.revisions) := by
  induction bs with
  | nil => exact List.Perm.refl _
  | cons b bs ih =>
    unfold pushRevision
    split
    case isTrue =>
      rw [List.flatMap_cons, List.flatMap_cons, List.append_assoc]
      exact List.perm_middle
    case isFalse =>
      rw [List.flatMap_cons, List.flatMap_cons]
      exact (ih.append_left b.revisions).trans List.perm_middle

theorem mem_listed_of_bucket? {key : String} {b : Bucket Hash} (hb : s.bucket? key = some b)
    {r : Revision Hash} (hr : r ∈ b.revisions) : r ∈ s.listed :=
  List.mem_flatMap.mpr ⟨b, List.mem_of_find?_eq_some hb, hr⟩

theorem mem_listed_of_revision? {key : String} {id : Nat} {r : Revision Hash}
    (hr : s.revision? key id = some r) : r ∈ s.listed := by
  obtain ⟨b, hb, hfind⟩ := Option.bind_eq_some_iff.mp hr
  exact mem_listed_of_bucket? hb (List.mem_of_find?_eq_some hfind)

theorem pinned_update {uid : Nat} {pins : Revision Hash → List String} {r : Revision Hash}
    (hr : r ∈ s.listed) {cursorId : String} (hpin : r.uid ≠ uid → cursorId ∈ r.pins)
    (hpins : r.uid = uid → cursorId ∈ pins r) :
    ∃ r' ∈ (s.updateRevision uid fun r => { r with pins := pins r }).listed,
      r'.uid = r.uid ∧ cursorId ∈ r'.pins := by
  rw [listed_updateRevision]
  refine ⟨_, List.mem_map_of_mem hr, ?_⟩
  split
  case isTrue h => exact ⟨rfl, hpins h⟩
  case isFalse h => exact ⟨rfl, hpin h⟩

structure Advances (s s' : Store Hash) (i : Nat) (c c' : Creation Hash) : Prop where
  resources : s'.resources = s.resources
  pinIndex : s'.pinIndex = s.pinIndex
  creations : s'.creations = s.creations.set i c'
  key : c'.key = c.key
  text : c'.text = c.text
  id? : ∀ id ∈ c'.id?, id ∈ c.id?

section Advances

variable {i : Nat} {c : Creation Hash}

theorem id?_readsBack (c : Creation Hash) : { c with phase := readsBack c }.id? = none := by
  unfold readsBack
  split <;> rfl

theorem write_advances [DecidableEq Hash] (hstep : s.write sha i c = some s') :
    ∃ c', Advances s s' i c c' := by
  unfold Store.write at hstep
  split at hstep
  · cases hstep
    exact ⟨_, rfl, rfl, rfl, rfl, rfl, fun id hid => by cases hid⟩
  · cases hstep
    refine ⟨_, rfl, rfl, rfl, rfl, rfl, fun id hid => ?_⟩
    rw [id?_readsBack] at hid
    cases hid
  · cases hstep

theorem readBack_advances [DecidableEq Hash] (hstep : s.readBack sha i c = some s') :
    ∃ c', Advances s s' i c c' := by
  unfold Store.readBack at hstep
  split at hstep
  · cases hstep
    exact ⟨_, rfl, rfl, rfl, rfl, rfl, fun id hid => by cases hid⟩
  · split at hstep
    all_goals
      cases hstep
      exact ⟨_, rfl, rfl, rfl, rfl, rfl, fun id hid => by cases hid⟩
  · cases hstep

theorem discardManifest_advances (hstep : s.discardManifest sha i c = some s') :
    ∃ c', Advances s s' i c c' := by
  unfold Store.discardManifest at hstep
  split at hstep
  case h_2 => cases hstep
  case h_1 id hphase =>
    cases hstep
    refine ⟨_, rfl, rfl, rfl, rfl, rfl, fun id hid => ?_⟩
    simpa [Creation.id?, hphase] using hid

theorem reject_advances (hstep : s.reject i c = some s') : ∃ c', Advances s s' i c c' := by
  unfold Store.reject at hstep
  split at hstep
  case h_3 => cases hstep
  all_goals
    cases hstep
    exact ⟨_, rfl, rfl, rfl, rfl, rfl, fun id hid => by cases hid⟩

end Advances

theorem readChunk_eq [DecidableEq Hash] {i : Nat} {reader : Reader Hash}
    (hstep : s.readChunk sha i reader = some s') :
    ∃ readers, s' = { s with readers := readers } := by
  unfold Store.readChunk at hstep
  split at hstep
  case h_3 => cases hstep
  all_goals
    cases hstep
    exact ⟨_, rfl⟩

def Needs (s : Store Hash) (chunk : Hash) : Prop :=
  0 < s.refs (.object chunk) ∨ chunk ∈ s.held

structure Kept (sha : Chars → Hash) (s : Store Hash) (chunk : Hash) : Prop where
  present : ∃ text, s.files (.object chunk) = some (.data text) ∧ sha text = chunk
  spared : .object chunk ∉ s.unlinks

theorem Kept.putFile [DecidableEq Hash] {chunk : Hash} (h : s.Kept sha chunk) {file : File Hash}
    {content : Content Hash}
    (hcontent : ∀ chunk, .object chunk = file → ∃ text, content = .data text ∧ sha text = chunk) :
    { s with files := Function.update s.files file (some content) }.Kept sha chunk where
  present := by
    by_cases hfile : .object chunk = file
    · obtain ⟨text, rfl, hsha⟩ := hcontent chunk hfile
      exact ⟨text, by simp [hfile], hsha⟩
    · obtain ⟨text, htext, hsha⟩ := h.present
      exact ⟨text, by simpa [Function.update_of_ne hfile] using htext, hsha⟩
  spared := h.spared

structure Backed [DecidableEq Hash] (sha : Chars → Hash) (s : Store Hash) : Prop where
  counts : Counts s.refs (s.listed.flatMap Revision.files)
  kept : ∀ chunk, s.Needs chunk → s.Kept sha chunk

structure Inv [DecidableEq Hash] (sha : Chars → Hash) (s : Store Hash) : Prop where
  backed : s.Backed sha
  sound : ∀ r ∈ s.listed, Sound sha r
  nodup : (s.listed.map Revision.uid).Nodup
  fresh : ∀ r ∈ s.listed, r.uid < s.nextUid
  pinned : ∀ p ∈ s.pinIndex, ∃ r ∈ s.listed, r.uid = p.2 ∧ p.1 ∈ r.pins
  creations : ∀ c ∈ s.creations, c.Ok sha
  readers : ∀ reader ∈ s.readers, reader.uid < s.nextUid ∧ reader.Ok sha s.listed

variable [DecidableEq Hash]

theorem Backed.of_needs (h : s.Backed sha)
    (hcounts : Counts s'.refs (s'.listed.flatMap Revision.files))
    (hneeds : ∀ chunk, s'.Needs chunk → s.Needs chunk) (hfiles : s'.files = s.files)
    (hunlinks : ∀ chunk, .object chunk ∈ s'.unlinks → .object chunk ∈ s.unlinks) :
    s'.Backed sha where
  counts := hcounts
  kept chunk hchunk :=
    have hkept := h.kept chunk (hneeds chunk hchunk)
    ⟨hfiles ▸ hkept.present, fun hmem => hkept.spared (hunlinks chunk hmem)⟩

theorem Inv.of_backed (h : s.Inv sha) (hbacked : s'.Backed sha)
    (hresources : s'.resources = s.resources) (hpinIndex : s'.pinIndex = s.pinIndex)
    (hnextUid : s'.nextUid = s.nextUid) (hcreations : ∀ c ∈ s'.creations, c.Ok sha)
    (hreaders : ∀ reader ∈ s'.readers, reader.uid < s.nextUid ∧ reader.Ok sha s.listed) :
    s'.Inv sha := by
  have hlisted : s'.listed = s.listed := by rw [listed, listed, hresources]
  refine ⟨hbacked, ?_, ?_, ?_, ?_, hcreations, ?_⟩
  · exact hlisted ▸ h.sound
  · exact hlisted ▸ h.nodup
  · rw [hlisted, hnextUid]
    exact h.fresh
  · rw [hlisted, hpinIndex]
    exact h.pinned
  · rw [hlisted, hnextUid]
    exact hreaders

theorem Inv.setCreation (h : s.Inv sha) {i : Nat} {c : Creation Hash} (hok : c.Ok sha)
    (hheld : ∀ chunk ∈ c.held, s.Kept sha chunk) : (s.setCreation i c).Inv sha := by
  refine h.of_backed ⟨h.backed.counts, fun chunk hneeds => ?_⟩ rfl rfl rfl
    (ok_setCreation h.creations hok)
    h.readers
  have hkept : s.Kept sha chunk := by
    cases hneeds with
    | inl hrefs => exact h.backed.kept chunk (.inl hrefs)
    | inr hmem =>
      cases mem_held_setCreation hmem with
      | inl hmem => exact h.backed.kept chunk (.inr hmem)
      | inr hmem => exact hheld chunk hmem
  exact ⟨hkept.present, hkept.spared⟩

theorem Inv.kept_of_held (h : s.Inv sha) {i : Nat} {c : Creation Hash}
    (hc : s.creations[i]? = some c) :
    ∀ chunk ∈ c.held, s.Kept sha chunk :=
  fun chunk hchunk => h.backed.kept chunk (.inr (mem_held hc hchunk))

theorem Inv.createRevision (h : s.Inv sha) (key : String) (text : Chars) :
    { s with
      creations :=
        s.creations ++ [Creation.mk key text [] [] (.writing (chunksOf text))] }.Inv sha := by
  refine h.of_backed ?_ rfl rfl rfl ?_ h.readers
  · refine h.backed.of_needs h.backed.counts (fun chunk hneeds => hneeds.imp id fun hmem => ?_) rfl
      fun _ hmem => hmem
    simpa [held, Creation.held] using hmem
  · intro c hc
    cases List.mem_append.mp hc with
    | inl hc => exact h.creations c hc
    | inr hc =>
      rw [List.mem_singleton.mp hc]
      exact ⟨[], rfl, rfl, rfl⟩

theorem Inv.unlinks (h : s.Inv sha) {unlinks : List (File Hash)}
    (hsub : ∀ chunk, .object chunk ∈ unlinks → .object chunk ∈ s.unlinks) :
    { s with unlinks := unlinks }.Inv sha :=
  h.of_backed (h.backed.of_needs h.backed.counts (fun _ hneeds => hneeds) rfl hsub) rfl rfl
    rfl h.creations
    h.readers

theorem Inv.updateRevision (h : s.Inv sha) {uid : Nat} {f : Revision Hash → Revision Hash}
    (hf : ∀ r, Keeps r (f r)) {pinIndex : List (String × Nat)} {memoryBytes : Int}
    (hpinned : ∀ p ∈ pinIndex, ∃ r ∈ (s.updateRevision uid f).listed, r.uid = p.2 ∧ p.1 ∈ r.pins) :
    { s.updateRevision uid f with pinIndex := pinIndex, memoryBytes := memoryBytes }.Inv sha := by
  have hkeeps : ∀ r, Keeps r (if r.uid = uid then f r else r) := by
    intro r
    split
    · exact hf r
    · exact .refl r
  have hlisted := listed_updateRevision s uid f
  have hmem : ∀ r' ∈ (s.updateRevision uid f).listed, ∃ r ∈ s.listed, Keeps r r' := by
    intro r' hr'
    rw [hlisted] at hr'
    obtain ⟨r, hr, rfl⟩ := List.mem_map.mp hr'
    exact ⟨r, hr, hkeeps r⟩
  have hfiles : ((s.updateRevision uid f).listed.flatMap Revision.files) =
      s.listed.flatMap Revision.files := by
    rw [hlisted, List.flatMap_map]
    congr 1
    funext r
    simp only [Revision.files, (hkeeps r).hash, (hkeeps r).chunks]
  have huids : (s.updateRevision uid f).listed.map Revision.uid = s.listed.map Revision.uid := by
    rw [hlisted, List.map_map]
    congr 1
    funext r
    exact (hkeeps r).uid
  have hkept : ∀ chunk, s.Needs chunk → s.Kept sha chunk := h.backed.kept
  refine ⟨⟨?_, fun chunk hneeds => ⟨(hkept chunk hneeds).present, (hkept chunk hneeds).spared⟩⟩, ?_,
    ?_, ?_, hpinned, h.creations, ?_⟩
  · have hcounts := h.backed.counts
    rw [← hfiles] at hcounts
    exact hcounts
  · intro r' hr'
    obtain ⟨r, hr, hk⟩ := hmem r' hr'
    exact hk.sound (h.sound r hr)
  · have hnodup := h.nodup
    rw [← huids] at hnodup
    exact hnodup
  · intro r' hr'
    obtain ⟨r, hr, hk⟩ := hmem r' hr'
    exact hk.uid.symm ▸ h.fresh r hr
  · intro reader hreader
    refine ⟨(h.readers reader hreader).1, (h.readers reader hreader).2.mono fun r' hr' _ => ?_⟩
    obtain ⟨r, hr, hk⟩ := hmem r' hr'
    exact ⟨r, hr, hk.uid.symm, hk.hash.symm⟩

theorem Inv.enforceMemory (h : s.Inv sha) : s.enforceMemory.Inv sha := by
  unfold Store.enforceMemory
  generalize s.listed.length = n
  induction n generalizing s with
  | zero => exact h
  | succ n ih =>
    unfold enforceMemoryLoop
    split
    case isFalse => exact h
    case isTrue =>
      split
      · exact h
      · have hkeeps : ∀ r : Revision Hash, Keeps r { r with payload := none } :=
          fun r => ⟨rfl, rfl, rfl, rfl, .inr rfl⟩
        refine ih (h.updateRevision hkeeps fun p hp => ?_)
        refine pinned_updateRevision (fun _ => ?_) (fun _ => ?_) (h.pinned p hp) <;> rfl

theorem foldl_drop {dropped : List (Revision Hash)} (hpins : ∀ r ∈ dropped, r.pins = [])
    (s : Store Hash) :
    ∃ memoryBytes, dropped.foldl drop s =
      { s with
        memoryBytes := memoryBytes
        refs := (releaseAll s.refs (dropped.flatMap Revision.files)).1
        unlinks := s.unlinks ++ (releaseAll s.refs (dropped.flatMap Revision.files)).2 } := by
  induction dropped generalizing s with
  | nil => exact ⟨s.memoryBytes, by simp [releaseAll]⟩
  | cons r rs ih =>
    obtain ⟨memoryBytes, hrest⟩ :=
      ih (fun r' hr' => hpins r' (List.mem_cons_of_mem r hr')) (s.drop r)
    refine ⟨memoryBytes, ?_⟩
    rw [List.foldl_cons, hrest, List.flatMap_cons, releaseAll_append]
    simp [drop, hpins r List.mem_cons_self]

def SparesHeld (s : Store Hash) (dropped : List (Revision Hash)) : Prop :=
  ∀ chunk ∈ s.held, (∃ r ∈ dropped, chunk ∈ r.chunks) → ∃ r ∈ s.listed, r ∉ dropped ∧
    chunk ∈ r.chunks

theorem Inv.foldl_drop (h : s.Inv sha) {resources : List (Bucket Hash)}
    {dropped : List (Revision Hash)} (hperm : s.listed.Perm (dropped ++ { s with
      resources := resources }.listed)) (hpins : ∀ r ∈ dropped, r.pins = [])
      (hspares : s.SparesHeld dropped) :
    (dropped.foldl drop { s with resources := resources }).Inv sha := by
  obtain ⟨memoryBytes, hdrop⟩ := Store.foldl_drop hpins { s with resources := resources }
  rw [hdrop]
  have hsub : ∀ r ∈ { s with resources := resources }.listed, r ∈ s.listed :=
    fun r hr => hperm.mem_iff.mpr (List.mem_append_right dropped hr)
  have hcounts : Counts s.refs (dropped.flatMap Revision.files ++
      { s with resources := resources }.listed.flatMap Revision.files) := by
    have := h.backed.counts.perm (hperm.flatMap_right Revision.files)
    rwa [List.flatMap_append] at this
  have hafter := counts_releaseAll hcounts
  refine ⟨⟨hafter, fun chunk hneeds => ?_⟩, ?_, ?_, ?_, ?_, h.creations, ?_⟩
  · have hkept : s.Kept sha chunk := by
      refine h.backed.kept chunk (hneeds.imp (fun hpos => ?_) id)
      exact hcounts.pos_iff.mpr (List.mem_append_right _ (hafter.pos_iff.mp hpos))
    refine ⟨hkept.present, fun hmem => ?_⟩
    cases List.mem_append.mp hmem with
    | inl hmem => exact hkept.spared hmem
    | inr hgone =>
      obtain ⟨hdropped, hnot⟩ := not_held_of_gone hcounts hgone
      cases hneeds with
      | inl hpos => exact hnot (hafter.pos_iff.mp hpos)
      | inr hheld =>
        obtain ⟨r, hr, hchunk⟩ := List.mem_flatMap.mp hdropped
        obtain ⟨r', hr', hkept, hchunk'⟩ := hspares chunk hheld ⟨r, hr, mem_files.mp hchunk⟩
        have hlisted := (List.mem_append.mp (hperm.mem_iff.mp hr')).resolve_left hkept
        exact hnot (List.mem_flatMap.mpr ⟨r', hlisted, mem_files.mpr hchunk'⟩)
  · exact fun r hr => h.sound r (hsub r hr)
  · have hnodup := (hperm.map Revision.uid).nodup_iff.mp h.nodup
    rw [List.map_append] at hnodup
    exact hnodup.of_append_right
  · exact fun r hr => h.fresh r (hsub r hr)
  · intro p hp
    obtain ⟨r, hr, huid, hpin⟩ := h.pinned p hp
    refine ⟨r, (List.mem_append.mp (hperm.mem_iff.mp hr)).resolve_left fun hd => ?_, huid, hpin⟩
    rw [hpins r hd] at hpin
    cases hpin
  · intro reader hreader
    refine ⟨(h.readers reader hreader).1, (h.readers reader hreader).2.mono fun r hr _ => ?_⟩
    exact ⟨r, hsub r hr, rfl, rfl⟩

theorem Inv.trim (h : s.Inv sha) {i : Nat} {c : Creation Hash}
    (hspares : ∀ array id, c.phase = .trimming array id →
      s.SparesHeld (trimBuckets array s.resources).2)
    (hstep : s.trim i c = some s') : s'.Inv sha := by
  unfold Store.trim at hstep
  split at hstep
  case h_2 => cases hstep
  case h_1 array id hphase =>
    cases hstep
    have hset : (s.setCreation i { c with phase := .settled (some id) }).Inv sha :=
      h.setCreation trivial fun chunk hchunk => by cases hchunk
    obtain ⟨hperm, hpins⟩ := trimBuckets_perm array s.resources
    refine hset.foldl_drop hperm hpins fun chunk hheld => hspares array id hphase chunk ?_
    exact (mem_held_setCreation hheld).resolve_right fun hmem => by cases hmem

theorem Inv.sweep (h : s.Inv sha) {now : Int}
    (hspares : s.SparesHeld (s.listed.filter (expired now))) :
    (s.sweep now).Inv sha := by
  refine h.foldl_drop ?_ ?_ hspares
  · show s.listed.Perm (_ ++ List.flatMap _ _)
    rw [listed_swept]
    exact (List.filter_append_perm _ _).symm
  · intro r hr
    have hexpired := (List.mem_filter.mp hr).2
    simp only [expired, Bool.and_eq_true, List.isEmpty_iff] at hexpired
    exact hexpired.1

theorem Inv.putFile (h : s.Inv sha) {file : File Hash} {content : Content Hash}
    (hcontent : ∀ chunk, .object chunk = file → ∃ text, content = .data text ∧ sha text = chunk) :
    { s with files := Function.update s.files file (some content) }.Inv sha :=
  h.of_backed ⟨h.backed.counts,
    fun chunk hneeds => (h.backed.kept chunk hneeds).putFile hcontent⟩ rfl rfl rfl
    h.creations h.readers

theorem Inv.write (h : s.Inv sha) {i : Nat} {c : Creation Hash} (hc : s.creations[i]? = some c)
    (hunlinks : ∀ chunk rest, c.phase = .writing (chunk :: rest) → .object (sha chunk) ∉ s.unlinks)
    (hstep : s.write sha i c = some s') : s'.Inv sha := by
  have hok := h.creations c (List.mem_of_getElem? hc)
  unfold Creation.Ok at hok
  have hheld := h.kept_of_held hc
  unfold Creation.held at hheld
  unfold Store.write at hstep
  split at hstep
  case h_1 chunk rest hphase =>
    cases hstep
    simp only [hphase] at hok hheld
    obtain ⟨done, hsplit, hchunks, hlengths⟩ := hok
    have hcontent : ∀ hash : Hash, .object hash = File.object (sha chunk) →
        ∃ text, (.data chunk : Content Hash) = .data text ∧ sha text = hash := by
      rintro hash ⟨⟩
      exact ⟨chunk, rfl, rfl⟩
    refine (h.putFile hcontent).setCreation ?_ fun hash hhash => ?_
    · exact ⟨done ++ [chunk], by simp [hsplit], by simp [hchunks], by simp [hlengths]⟩
    · cases List.mem_append.mp hhash with
      | inl hhash => exact (hheld hash hhash).putFile hcontent
      | inr hhash =>
        obtain rfl := List.mem_singleton.mp hhash
        exact ⟨⟨chunk, by simp, rfl⟩, hunlinks chunk rest hphase⟩
  case h_2 hphase =>
    cases hstep
    simp only [hphase] at hok hheld
    obtain ⟨done, hsplit, hchunks, hlengths⟩ := hok
    rw [List.append_nil] at hsplit
    rw [← hsplit] at hchunks hlengths
    have hcontent : ∀ hash : Hash, .object hash = File.manifest (sha c.text) →
        ∃ text, Content.manifest (c.chunks.zip c.chunkLengths) = .data text ∧ sha text = hash := by
      rintro hash ⟨⟩
    have hput := h.putFile hcontent
    unfold readsBack
    split
    · exact hput.setCreation ⟨⟨hchunks, hlengths⟩, Parts.start hchunks hlengths⟩
        fun hash hhash => (hheld hash hhash).putFile hcontent
    · exact hput.setCreation ⟨⟨hchunks, hlengths⟩, .inl rfl⟩
        fun hash hhash => (hheld hash hhash).putFile hcontent
  case h_3 => cases hstep

theorem sha_of_readFile {chunk : Hash × Nat} {text : Chars} (h : s.readFile sha chunk = some text) :
    sha text = chunk.1 := by
  unfold readFile at h
  split at h
  case h_2 => cases h
  case h_1 =>
    split at h
    case isTrue hmatch =>
      cases h
      exact hmatch.2
    case isFalse => cases h

theorem Inv.readBack (hsha : Function.Injective sha) (h : s.Inv sha) {i : Nat} {c : Creation Hash}
    (hc : s.creations[i]? = some c) (hstep : s.readBack sha i c = some s') : s'.Inv sha := by
  have hok := h.creations c (List.mem_of_getElem? hc)
  unfold Creation.Ok at hok
  have hheld := h.kept_of_held hc
  unfold Creation.held at hheld
  unfold Store.readBack at hstep
  split at hstep
  case h_1 data hphase =>
    cases hstep
    simp only [hphase] at hok hheld
    exact h.setCreation ⟨hok.1, .inr (congrArg some hok.2.finish)⟩ hheld
  case h_2 data chunk rest hphase =>
    simp only [hphase] at hok hheld
    split at hstep
    case h_1 text hread =>
      cases hstep
      exact h.setCreation ⟨hok.1, hok.2.next hsha (sha_of_readFile hread)⟩ hheld
    case h_2 =>
      cases hstep
      exact h.setCreation trivial fun chunk hchunk => by cases hchunk
  case h_3 => cases hstep

theorem Inv.push (h : s.Inv sha) {r : Revision Hash} (hsound : Sound sha r)
    (huid : r.uid = s.nextUid) (hkept : ∀ chunk ∈ r.chunks, s.Kept sha chunk) (key : String)
    (memoryBytes : Int) (nextArray : Nat) :
    { s with
      resources := pushRevision key s.nextArray r s.resources
      refs := retainAll s.refs r.files
      memoryBytes := memoryBytes
      nextUid := s.nextUid + 1
      nextArray := nextArray }.Inv sha := by
  have hperm := listed_pushRevision key s.nextArray r s.resources
  have hmem : ∀ r', r' ∈ (pushRevision key s.nextArray r s.resources).flatMap Bucket.revisions →
      r' = r ∨ r' ∈ s.listed := fun r' hr' => List.mem_cons.mp (hperm.mem_iff.mp hr')
  have hcounts := counts_retainAll h.backed.counts r.files
  refine ⟨⟨?_, fun chunk hneeds => ?_⟩, ?_, ?_, ?_, ?_, h.creations, ?_⟩
  · refine hcounts.perm ?_
    have hfiles := (hperm.flatMap_right Revision.files).symm
    rwa [List.flatMap_cons] at hfiles
  · have hold : s.Kept sha chunk := by
      cases hneeds with
      | inr hheld => exact h.backed.kept chunk (.inr hheld)
      | inl hpos =>
        cases List.mem_append.mp (hcounts.pos_iff.mp hpos) with
        | inl hfile => exact hkept chunk (mem_files.mp hfile)
        | inr hfile => exact h.backed.kept chunk (.inl (h.backed.counts.pos_iff.mpr hfile))
    exact ⟨hold.present, hold.spared⟩
  · intro r' hr'
    cases hmem r' hr' with
    | inl heq => exact heq ▸ hsound
    | inr hr' => exact h.sound r' hr'
  · refine (hperm.map Revision.uid).nodup_iff.mpr (List.nodup_cons.mpr ⟨fun huids => ?_, h.nodup⟩)
    obtain ⟨r', hr', heq⟩ := List.mem_map.mp huids
    exact absurd (h.fresh r' hr') (by rw [heq, huid]; exact lt_irrefl _)
  · intro r' hr'
    cases hmem r' hr' with
    | inl heq =>
      rw [heq, huid]
      exact Nat.lt_succ_self s.nextUid
    | inr hr' => exact Nat.lt_succ_of_lt (h.fresh r' hr')
  · intro p hp
    obtain ⟨r', hr', hp'⟩ := h.pinned p hp
    exact ⟨r', hperm.mem_iff.mpr (List.mem_cons_of_mem r hr'), hp'⟩
  · intro reader hreader
    obtain ⟨hlt, hok⟩ := h.readers reader hreader
    refine ⟨Nat.lt_succ_of_lt hlt, hok.mono fun r' hr' hruid => ?_⟩
    cases hmem r' hr' with
    | inl heq => exact absurd (heq ▸ hruid) (by rw [huid]; exact ne_of_gt hlt)
    | inr hr' => exact ⟨r', hr', rfl, rfl⟩

theorem Inv.refs_pos_of_same (hsha : Function.Injective sha) (h : s.Inv sha) {r : Revision Hash}
    (hr : r ∈ s.listed) {c : Creation Hash} (hcomplete : c.Complete sha)
    (hhash : r.hash = sha c.text) :
    ∀ chunk ∈ c.chunks, 0 < s.refs (.object chunk) := by
  intro chunk hchunk
  obtain ⟨text, htext, hchunks, -⟩ := h.sound r hr
  obtain rfl : text = c.text := hsha (htext.symm.trans hhash)
  refine h.backed.counts.pos_iff.mpr (List.mem_flatMap.mpr ⟨r, hr, mem_files.mpr ?_⟩)
  rwa [hchunks, ← hcomplete.1]

theorem Inv.commit (hsha : Function.Injective sha) (h : s.Inv sha) {i : Nat}
    {c : Creation Hash} {now : Int} (hc : s.creations[i]? = some c)
    (hstep : s.commit sha i c now = some s') : s'.Inv sha := by
  have hok := h.creations c (List.mem_of_getElem? hc)
  unfold Creation.Ok at hok
  have hheld := h.kept_of_held hc
  unfold Creation.held at hheld
  unfold Store.commit at hstep
  split at hstep
  case h_2 => cases hstep
  case h_1 payload hphase =>
    simp only [hphase] at hok hheld
    obtain ⟨hcomplete, hpayload⟩ := hok
    simp only at hstep
    split at hstep
    case h_1 same hsame =>
      cases hstep
      obtain ⟨hprevious, hhash⟩ := Option.filter_eq_some_iff.mp hsame
      obtain ⟨b, hb, hlast⟩ := Option.bind_eq_some_iff.mp hprevious
      have hlisted := mem_listed_of_bucket? hb (List.mem_of_getLast? hlast)
      have hpos := h.refs_pos_of_same hsha hlisted hcomplete (by simpa using hhash)
      refine Inv.setCreation (h.unlinks fun chunk hmem => ?_) trivial fun chunk hchunk => by
        cases hchunk
      refine (List.mem_append.mp hmem).resolve_right fun hdiscard => ?_
      obtain ⟨hchunk, hzero⟩ := List.mem_filter.mp hdiscard
      exact absurd (hpos chunk (by simpa using hchunk)) (by simpa using hzero)
    case h_2 =>
      cases hstep
      refine Inv.enforceMemory (Inv.setCreation (h.push ?_ rfl hheld c.key _ _) trivial ?_)
      · exact ⟨c.text, rfl, hcomplete.1, hcomplete.2, hpayload⟩
      · exact fun chunk hchunk => by cases hchunk

theorem Inv.reject (h : s.Inv sha) {i : Nat} {c : Creation Hash} (hstep : s.reject i c = some s') :
    s'.Inv sha := by
  unfold Store.reject at hstep
  split at hstep
  all_goals
    cases hstep
  all_goals
    exact h.setCreation trivial fun chunk hchunk => by cases hchunk

theorem Inv.discardManifest (h : s.Inv sha) {i : Nat} {c : Creation Hash}
    (hstep : s.discardManifest sha i c = some s') : s'.Inv sha := by
  unfold Store.discardManifest at hstep
  split at hstep
  case h_2 => cases hstep
  case h_1 =>
    cases hstep
    refine Inv.setCreation (h.unlinks fun chunk hmem => ?_) trivial fun chunk hchunk => by
      cases hchunk
    split at hmem
    · simpa using hmem
    · exact hmem

theorem Inv.unlinked (h : s.Inv sha) {file : File Hash} (hfile : file ∈ s.unlinks) :
    { s with
      files := Function.update s.files file none, unlinks := s.unlinks.erase file }.Inv sha := by
  refine h.of_backed ⟨h.backed.counts, fun chunk hneeds => ?_⟩ rfl rfl rfl h.creations h.readers
  have hkept : s.Kept sha chunk := h.backed.kept chunk hneeds
  refine ⟨?_, fun hmem => hkept.spared (List.mem_of_mem_erase hmem)⟩
  obtain ⟨text, htext, hsha⟩ := hkept.present
  have hne : File.object chunk ≠ file := fun heq => hkept.spared (heq ▸ hfile)
  exact ⟨text, by simpa [Function.update_of_ne hne] using htext, hsha⟩

def Pinned (s : Store Hash) : Prop :=
  ∀ p ∈ s.pinIndex, ∃ r ∈ s.listed, r.uid = p.2 ∧ p.1 ∈ r.pins

section

omit [DecidableEq Hash]

theorem Pinned.insert (h : s.Pinned) {r : Revision Hash} (hr : r ∈ s.listed) (cursorId : String) :
    { s.updateRevision r.uid fun r => { r with pins := r.pins.insert cursorId } with
      pinIndex := s.pinIndex ++ [(cursorId, r.uid)] }.Pinned := by
  intro p hp
  cases List.mem_append.mp hp with
  | inl hp =>
    obtain ⟨r', hr', huid, hpin⟩ := h p hp
    rw [← huid]
    exact pinned_update hr' (fun _ => hpin) fun _ => List.mem_insert_of_mem hpin
  | inr hp =>
    obtain rfl := List.mem_singleton.mp hp
    exact pinned_update hr (fun hne => absurd rfl hne) fun _ => List.mem_insert_self

theorem Pinned.erase (h : s.Pinned) (cursorId : String) (uid : Nat) :
    { s.updateRevision uid fun r => { r with pins := r.pins.erase cursorId } with
      pinIndex := s.pinIndex.filter (·.1 ≠ cursorId) }.Pinned := by
  intro p hp
  obtain ⟨hp, hne⟩ := List.mem_filter.mp hp
  obtain ⟨r, hr, hruid, hpin⟩ := h p hp
  rw [← hruid]
  refine pinned_update hr (fun _ => hpin) fun _ => ?_
  exact (List.mem_erase_of_ne (by simpa using hne)).mpr hpin

theorem Pinned.replace (h : s.Pinned) {sourceCursorId : String} {uid : Nat}
    (huid : s.pinIndex.lookup sourceCursorId = some uid) (replacementCursorId : String) :
    { s.updateRevision uid fun r =>
        { r with pins := (r.pins.erase sourceCursorId).insert replacementCursorId } with
      pinIndex := s.pinIndex.filter (fun p : String × Nat => p.1 ≠ sourceCursorId) ++
        [(replacementCursorId, uid)] }.Pinned := by
  intro p hp
  cases List.mem_append.mp hp with
  | inl hp =>
    obtain ⟨hp, hne⟩ := List.mem_filter.mp hp
    obtain ⟨r, hr, hruid, hpin⟩ := h p hp
    rw [← hruid]
    refine pinned_update hr (fun _ => hpin) fun _ => List.mem_insert_of_mem ?_
    exact (List.mem_erase_of_ne (by simpa using hne)).mpr hpin
  | inr hp =>
    obtain rfl := List.mem_singleton.mp hp
    obtain ⟨before, after, hindex, -⟩ := List.lookup_eq_some_iff.mp huid
    obtain ⟨r, hr, hruid, -⟩ := h (sourceCursorId, uid) (by simp [hindex])
    rw [← hruid]
    exact pinned_update hr (fun hne => absurd hruid hne) fun _ => List.mem_insert_self

end

theorem Inv.pin (h : s.Inv sha) (cursorId key : String) (id : Nat) :
    (s.pin cursorId key id).Inv sha := by
  unfold Store.pin
  split
  case isTrue => exact h
  case isFalse =>
    split
    case h_1 => exact h
    case h_2 r hr =>
      exact Inv.enforceMemory (h.updateRevision (fun r => Keeps.pins r (r.pins.insert cursorId))
        (Pinned.insert h.pinned (mem_listed_of_revision? hr) cursorId))

theorem Inv.unpin (h : s.Inv sha) (cursorId : String) : (s.unpin cursorId).Inv sha := by
  unfold Store.unpin
  split
  case h_1 => exact h
  case h_2 uid huid =>
    exact h.updateRevision (fun r => Keeps.pins r (r.pins.erase cursorId))
      (Pinned.erase h.pinned cursorId uid)

theorem Inv.transferPin (h : s.Inv sha) (sourceCursorId replacementCursorId : String) :
    (s.transferPin sourceCursorId replacementCursorId).Inv sha := by
  unfold Store.transferPin
  split
  case isTrue => exact h
  case isFalse =>
    split
    case h_1 => exact h
    case h_2 uid huid =>
      exact h.updateRevision
        (fun r => Keeps.pins r ((r.pins.erase sourceCursorId).insert replacementCursorId))
        (Pinned.replace h.pinned huid replacementCursorId)

theorem Inv.setReaders (h : s.Inv sha) {readers : List (Reader Hash)}
    (hreaders : ∀ reader ∈ readers, reader.uid < s.nextUid ∧ reader.Ok sha s.listed) :
    { s with readers := readers }.Inv sha :=
  h.of_backed (h.backed.of_needs h.backed.counts (fun _ hneeds => hneeds) rfl fun _ hmem =>
    hmem) rfl rfl rfl
    h.creations hreaders

theorem Inv.hash_eq (h : s.Inv sha) {r r' : Revision Hash} (hr : r ∈ s.listed) (hr' : r' ∈ s.listed)
    (huid : r'.uid = r.uid) : r'.hash = r.hash := by
  rw [List.inj_on_of_nodup_map h.nodup hr' hr huid]

theorem Inv.readRevision (h : s.Inv sha) (key : String) (id : Nat) (now : Int) :
    (s.readRevision key id now).Inv sha := by
  unfold Store.readRevision
  split
  case h_1 => exact h
  case h_2 r hr =>
    have hkeeps : ∀ r : Revision Hash, Keeps r { r with lastAccessed := now } :=
      fun r => ⟨rfl, rfl, rfl, rfl, .inl rfl⟩
    have hlisted := mem_listed_of_revision? hr
    have htouched : (s.updateRevision r.uid fun r => { r with lastAccessed := now }).Inv sha := by
      refine h.updateRevision hkeeps fun p hp => ?_
      refine pinned_updateRevision (fun _ => ?_) (fun _ => ?_) (h.pinned p hp) <;> rfl
    refine htouched.setReaders fun reader hreader => ?_
    cases List.mem_append.mp hreader with
    | inl hreader => exact htouched.readers reader hreader
    | inr hreader =>
      obtain rfl := List.mem_singleton.mp hreader
      refine ⟨h.fresh r hlisted, ?_⟩
      obtain ⟨text, hhash, hchunks, hlengths, hpayload⟩ := h.sound r hlisted
      have hself : { r with lastAccessed := now } ∈
          (s.updateRevision r.uid fun r => { r with lastAccessed := now }).listed := by
        rw [listed_updateRevision]
        exact List.mem_map.mpr ⟨r, hlisted, if_pos rfl⟩
      have hall : ∀ r' ∈ (s.updateRevision r.uid fun r => { r with lastAccessed := now }).listed,
          r'.uid = r.uid → r'.hash = sha text :=
        fun r' hr' huid => (htouched.hash_eq hself hr' huid).trans hhash
      cases hpayload with
      | inl hnone =>
        rw [hnone]
        exact ⟨text, Parts.start hchunks hlengths, hall⟩
      | inr hsome =>
        rw [hsome]
        exact hall

theorem Inv.readFile_eq (hsha : Function.Injective sha) (h : s.Inv sha) {r : Revision Hash}
    (hr : r ∈ s.listed) {text next : Chars} (hhash : r.hash = sha text)
    (hnext : next ∈ chunksOf text) :
    s.readFile sha (sha next, byteLength next) = some next := by
  obtain ⟨text', hhash', hchunks, -⟩ := h.sound r hr
  obtain rfl : text' = text := hsha (hhash'.symm.trans hhash)
  have hchunk : sha next ∈ r.chunks := by
    rw [hchunks]
    exact List.mem_map_of_mem hnext
  have hpos : 0 < s.refs (.object (sha next)) :=
    h.backed.counts.pos_iff.mpr (List.mem_flatMap.mpr ⟨r, hr, mem_files.mpr hchunk⟩)
  obtain ⟨read, hfile, heq⟩ := (h.backed.kept (sha next) (.inl hpos)).present
  obtain rfl := hsha heq
  simp [readFile, hfile]

theorem Inv.readChunk (hsha : Function.Injective sha) (h : s.Inv sha) {i : Nat}
    {reader : Reader Hash} (hreader : s.readers[i]? = some reader)
    (hstep : s.readChunk sha i reader = some s') : s'.Inv sha := by
  obtain ⟨hlt, hok⟩ := h.readers reader (List.mem_of_getElem? hreader)
  have hset : ∀ state : ReadState Hash, Reader.Ok sha s.listed ⟨reader.uid, state⟩ →
      { s with readers := s.readers.set i ⟨reader.uid, state⟩ }.Inv sha := by
    intro state hstate
    refine h.setReaders fun reader' hreader' => ?_
    cases List.mem_or_eq_of_mem_set hreader' with
    | inl hmem => exact h.readers reader' hmem
    | inr heq => exact heq ▸ ⟨hlt, hstate⟩
  unfold Reader.Ok at hok
  unfold Store.readChunk at hstep
  split at hstep
  case h_1 data hstate =>
    cases hstep
    simp only [hstate] at hok
    obtain ⟨text, hparts, hr⟩ := hok
    obtain rfl := hparts.finish
    exact hset (.done data) hr
  case h_2 data chunk rest hstate =>
    cases hstep
    simp only [hstate] at hok
    obtain ⟨text, hparts, hr⟩ := hok
    cases hread : s.readFile sha chunk with
    | some read => exact hset _ ⟨text, hparts.next hsha (sha_of_readFile hread), hr⟩
    | none =>
      refine hset .failed fun r hlisted huid => ?_
      obtain ⟨next, hnext, rfl⟩ := hparts.head
      rw [h.readFile_eq hsha hlisted (hr r hlisted huid) hnext] at hread
      cases hread
  case h_3 => cases hstep

end Store

end JevCode.Sdk
