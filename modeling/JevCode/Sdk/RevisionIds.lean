import JevCode.Sdk.RevisionRuns

namespace JevCode.Sdk

open JevCode.Text JevCode.Data

variable {Hash : Type} {sha : Chars → Hash}

namespace Store

variable {s s' : Store Hash}

/-- The key of a list with the id and the hash of its newest revision. -/
def Bucket.head (b : Bucket Hash) : String × Option (Nat × Hash) :=
  (b.key, b.revisions.getLast?.map fun r => (r.id, r.hash))

def heads (s : Store Hash) : List (String × Option (Nat × Hash)) := s.resources.map Bucket.head

def newest? (s : Store Hash) (key : String) : Option (Nat × Hash) :=
  ((s.bucket? key).bind (·.revisions.getLast?)).map fun r => (r.id, r.hash)

theorem newest?_eq_lookup (s : Store Hash) (key : String) :
    s.newest? key = (s.heads.lookup key).join := by
  unfold newest? bucket? heads
  generalize s.resources = bs
  induction bs with
  | nil => rfl
  | cons b bs ih =>
    by_cases hb : b.key = key
    · subst hb
      simp [Bucket.head]
    · have hb' : (key == b.key) = false := by simpa using Ne.symm hb
      simpa [Bucket.head, hb, hb', List.lookup_cons] using ih

theorem newest?_of_heads (h : s'.heads = s.heads) (key : String) :
    s'.newest? key = s.newest? key := by
  rw [newest?_eq_lookup, newest?_eq_lookup, h]

theorem heads_of_resources (h : s'.resources = s.resources) : s'.heads = s.heads := by
  rw [heads, heads, h]

theorem heads_updateRevision (s : Store Hash) (uid : Nat) {f : Revision Hash → Revision Hash}
    (hid : ∀ r, (f r).id = r.id) (hhash : ∀ r, (f r).hash = r.hash) :
    (s.updateRevision uid f).heads = s.heads := by
  simp only [heads, updateRevision, List.map_map]
  apply List.map_congr_left
  intro b _
  simp only [Function.comp_apply, Bucket.head, List.getLast?_map, Option.map_map,
    Prod.mk.injEq, true_and]
  congr 1
  funext r
  by_cases hr : r.uid = uid <;> simp [hr, hid, hhash]

theorem heads_enforceMemory (s : Store Hash) : s.enforceMemory.heads = s.heads := by
  unfold enforceMemory
  generalize s.listed.length = n
  induction n generalizing s with
  | zero => rfl
  | succ n ih =>
    unfold enforceMemoryLoop
    split
    · split
      · rfl
      · rw [ih]
        exact heads_updateRevision s _ (fun _ => rfl) fun _ => rfl
    · rfl

theorem creations_enforceMemory (s : Store Hash) : s.enforceMemory.creations = s.creations := by
  unfold enforceMemory
  generalize s.listed.length = n
  induction n generalizing s with
  | zero => rfl
  | succ n ih =>
    unfold enforceMemoryLoop
    split
    · split
      · rfl
      · rw [ih]
        rfl
    · rfl

theorem foldl_drop_frame [DecidableEq Hash] (dropped : List (Revision Hash)) (s : Store Hash) :
    (dropped.foldl drop s).resources = s.resources ∧
    (dropped.foldl drop s).creations = s.creations := by
  induction dropped generalizing s with
  | nil => exact ⟨rfl, rfl⟩
  | cons r dropped ih => exact ih (s.drop r)

def trimsNewest (revisions : List (Revision Hash)) : Prop :=
  (∃ r ∈ revisions.getLast?, r.pins = []) ∧ maxRevisionsPerResource ≤ revisions.countP (·.pins ≠ [])

theorem trimLoop_append {r : Revision Hash} {n : Nat} {revisions : List (Revision Hash)}
    (h : r.pins ≠ [] ∨ n ≤ revisions.countP (·.pins = [])) :
    ∃ rest, (trimLoop n (revisions ++ [r])).1 = rest ++ [r] := by
  induction n generalizing revisions with
  | zero => exact ⟨revisions, rfl⟩
  | succ n ih =>
    by_cases hany : ∃ a ∈ revisions, a.pins = []
    · obtain ⟨a, ha, hpins⟩ := hany
      have herase : (revisions ++ [r]).eraseP (·.pins = []) =
          revisions.eraseP (·.pins = []) ++ [r] :=
        List.eraseP_append_left (by simpa using hpins) _ ha
      obtain ⟨found, hfound⟩ : ∃ found, (revisions ++ [r]).find? (·.pins = []) = some found :=
        Option.isSome_iff_exists.mp (List.find?_isSome.mpr ⟨a, by simp [ha], by simpa using hpins⟩)
      obtain ⟨b, front, back, -, hb, hsplit, hleft⟩ :=
        List.exists_of_eraseP (p :=
          fun r : Revision Hash => decide (r.pins = [])) ha (by simpa using hpins)
      have hrevisions : r.pins ≠ [] ∨ n ≤ (revisions.eraseP (·.pins = [])).countP (·.pins = []) := by
        refine h.imp id fun hcount => ?_
        rw [hsplit, List.countP_append, List.countP_cons, if_pos hb] at hcount
        rw [hleft, List.countP_append]
        omega
      obtain ⟨rest, hrest⟩ := ih hrevisions
      refine ⟨rest, ?_⟩
      simp only [trimLoop, hfound, herase, hrest]
    · have hzero : revisions.countP (·.pins = []) = 0 := by
        rw [List.countP_eq_zero]
        intro a ha hpins
        exact hany ⟨a, ha, by simpa using hpins⟩
      have hpins : r.pins ≠ [] := h.resolve_right (by omega)
      have hnone : (revisions ++ [r]).find? (·.pins = []) = none := by
        rw [List.find?_eq_none]
        intro a ha hpins'
        rcases List.mem_append.mp ha with ha | ha
        · exact hany ⟨a, ha, by simpa using hpins'⟩
        · rw [List.mem_singleton.mp ha] at hpins'
          exact hpins (by simpa using hpins')
      exact ⟨revisions, by simp only [trimLoop, hnone]⟩

theorem getLast?_trimmed {revisions : List (Revision Hash)} (h : ¬trimsNewest revisions) :
    (trimmed revisions).1.getLast? = revisions.getLast? := by
  rcases revisions.eq_nil_or_concat' with rfl | ⟨init, r, rfl⟩
  · rfl
  · have hcount :=
      List.length_eq_countP_add_countP (fun r : Revision Hash => decide (r.pins = [])) (l := init)
    have hinit : r.pins ≠ [] ∨
        (init ++ [r]).length - maxRevisionsPerResource ≤ init.countP (·.pins = []) := by
      by_cases hpins : r.pins = []
      · refine .inr ?_
        have hfew : ¬maxRevisionsPerResource ≤ (init ++ [r]).countP (·.pins ≠ []) :=
          fun hmany => h ⟨⟨r, by simp, hpins⟩, hmany⟩
        simp [hpins] at hfew hcount ⊢
        omega
      · exact .inl hpins
    obtain ⟨rest, hrest⟩ := trimLoop_append hinit
    rw [trimmed, hrest]
    simp

theorem heads_trimBuckets {array : Nat} {bs : List (Bucket Hash)}
    (h : ∀ b ∈ bs, b.array = array → ¬trimsNewest b.revisions) :
    (trimBuckets array bs).1.map Bucket.head = bs.map Bucket.head := by
  induction bs with
  | nil => rfl
  | cons b bs ih =>
    unfold trimBuckets
    split
    case isTrue harray =>
      simp [Bucket.head, getLast?_trimmed (h b List.mem_cons_self harray)]
    case isFalse =>
      rw [List.map_cons, List.map_cons, ih fun b' hb' => h b' (List.mem_cons_of_mem b hb')]

theorem getLast?_filter {revisions : List (Revision Hash)} {p : Revision Hash → Bool}
    (h : ∀ r ∈ revisions.getLast?, p r = true) :
    (revisions.filter p).getLast? = revisions.getLast? := by
  rcases revisions.eq_nil_or_concat' with rfl | ⟨init, r, rfl⟩
  · rfl
  · have hr : p r = true := h r (by simp)
    simp [List.filter_append, hr]

theorem heads_sweep [DecidableEq Hash] {now : Int} (hne : ∀ b ∈ s.resources, b.revisions ≠ [])
    (h : ∀ b ∈ s.resources, ∀ r ∈ b.revisions.getLast?, ¬expired now r) :
    (s.sweep now).heads = s.heads := by
  have hlast : ∀ b ∈ s.resources, (b.revisions.filter (!expired now ·)).getLast? =
      b.revisions.getLast? :=
    fun b hb => getLast?_filter fun r hr => by simpa using h b hb r hr
  have hresources : (s.sweep now).resources =
      s.resources.map fun b => { b with revisions := b.revisions.filter (!expired now ·) } := by
    unfold sweep
    rw [(foldl_drop_frame _ _).1]
    show List.filter _ _ = _
    rw [List.filter_eq_self]
    intro b' hb'
    obtain ⟨b, hb, rfl⟩ := List.mem_map.mp hb'
    have hsome : (b.revisions.filter (!expired now ·)).getLast? ≠ none := by
      rw [hlast b hb]
      simpa using hne b hb
    have hne' : b.revisions.filter (!expired now ·) ≠ [] := by
      intro hnil
      rw [hnil] at hsome
      exact hsome rfl
    simpa using hne'
  rw [heads, heads, hresources, List.map_map]
  apply List.map_congr_left
  intro b hb
  simp [Bucket.head, hlast b hb]

theorem newest?_pushRevision (s : Store Hash) (key : String) (array : Nat) (r : Revision Hash)
    (key' : String) :
    { s with resources := pushRevision key array r s.resources }.newest? key' =
      if key' = key then some (r.id, r.hash) else s.newest? key' := by
  unfold newest? bucket?
  generalize s.resources = bs
  induction bs with
  | nil =>
    by_cases hkey : key' = key
    · simp [pushRevision, hkey]
    · simp [pushRevision, hkey, Ne.symm hkey]
  | cons b bs ih =>
    unfold pushRevision
    split
    case isTrue hb =>
      subst hb
      by_cases hkey : key' = b.key
      · simp [hkey]
      · simp [hkey, Ne.symm hkey]
    case isFalse hb =>
      by_cases hkey : b.key = key'
      · subst hkey
        simp [hb]
      · simpa [hkey] using ih

theorem ne_nil_of_heads (h : s'.heads = s.heads) (hne : ∀ b ∈ s.resources, b.revisions ≠ []) :
    ∀ b ∈ s'.resources, b.revisions ≠ [] := by
  intro b' hb' hnil
  have hmem : (b'.key, none) ∈ s.heads := by
    rw [← h]
    exact List.mem_map.mpr ⟨b', hb', by simp [Bucket.head, hnil]⟩
  obtain ⟨b, hb, hhead⟩ := List.mem_map.mp hmem
  have hlast : b.revisions.getLast? = none := by simpa [Bucket.head] using congrArg Prod.snd hhead
  exact hne b hb (List.getLast?_eq_none_iff.mp hlast)

theorem ne_nil_pushRevision (key : String) (array : Nat) (r : Revision Hash)
    {bs : List (Bucket Hash)} (hne : ∀ b ∈ bs, b.revisions ≠ []) :
    ∀ b ∈ pushRevision key array r bs, b.revisions ≠ [] := by
  induction bs with
  | nil =>
    intro b hb
    rw [List.mem_singleton.mp hb]
    simp
  | cons b bs ih =>
    intro b' hb'
    unfold pushRevision at hb'
    split at hb'
    · rcases List.mem_cons.mp hb' with rfl | hb'
      · simp
      · exact hne b' (List.mem_cons_of_mem b hb')
    · rcases List.mem_cons.mp hb' with rfl | hb'
      · exact hne b' List.mem_cons_self
      · exact ih (fun b hb => hne b (List.mem_cons_of_mem _ hb)) b' hb'

def KeepsNewest (s : Store Hash) : Event Hash → Prop
  | .trim i => ∀ c ∈ s.creations[i]?, ∀ array ∈ trimsArray? c,
    ∀ b ∈ s.resources, b.array = array → ¬trimsNewest b.revisions
  | .sweep now => ∀ b ∈ s.resources, ∀ r ∈ b.revisions.getLast?, ¬expired now r
  | _ => True

instance (revisions : List (Revision Hash)) : Decidable (trimsNewest revisions) :=
  inferInstanceAs (Decidable ((∃ r ∈ revisions.getLast?, r.pins = []) ∧
    maxRevisionsPerResource ≤ revisions.countP (·.pins ≠ [])))

instance (s : Store Hash) : ∀ event : Event Hash, Decidable (s.KeepsNewest event)
  | .trim i => inferInstanceAs (Decidable (∀ c ∈ s.creations[i]?, ∀ array ∈ trimsArray? c,
      ∀ b ∈ s.resources, b.array = array → ¬trimsNewest b.revisions))
  | .sweep now =>
    inferInstanceAs (Decidable (∀ b ∈ s.resources, ∀ r ∈ b.revisions.getLast?, ¬expired now r))
  | .createRevision _ _ _ | .write _ | .readBack _ | .commit _ _ | .discardManifest _ | .reject _
  | .unlinked _ | .unlinkFailed _ | .pin _ _ _ _ | .transferPin _ _ | .unpin _ |
    .readRevision _ _ _ _
  | .readChunk _ => isTrue trivial

def IdsKnown (sha : Chars → Hash) (s s' : Store Hash) : Prop :=
  ∀ (j : Nat) (d : Creation Hash) (id : Nat), s'.creations[j]? = some d → id ∈ d.id? →
    (∃ c : Creation Hash, s.creations[j]? = some c ∧ c.key = d.key ∧ c.text = d.text ∧ id ∈ c.id?) ∨
      s.newest? d.key = some (id, sha d.text)

theorem idsKnown_of_creations (h : s'.creations = s.creations) : IdsKnown sha s s' :=
  fun _ d _ hd hid => .inl ⟨d, h ▸ hd, rfl, rfl, hid⟩

theorem idsKnown_setCreation {i : Nat} {c c' : Creation Hash} (hc : s.creations[i]? = some c)
    (hset : s'.creations = s.creations.set i c') (hkey : c'.key = c.key) (htext : c'.text = c.text)
    (hid : ∀ id ∈ c'.id?, id ∈ c.id? ∨ s.newest? c.key = some (id, sha c.text)) :
    IdsKnown sha s s' := by
  intro j d id hd hidd
  rw [hset, List.getElem?_set] at hd
  split at hd
  case isTrue hij =>
    subst hij
    split at hd
    case isTrue =>
      cases hd
      rw [hkey, htext]
      exact (hid id hidd).imp (fun h => ⟨c, hc, rfl, rfl, h⟩) fun h => h
    case isFalse => cases hd
  case isFalse => exact .inl ⟨d, hd, rfl, rfl, hidd⟩

theorem Advances.idsKnown {i : Nat} {c c' : Creation Hash} (h : Advances s s' i c c')
    (hc : s.creations[i]? = some c) :
    IdsKnown sha s s' :=
  idsKnown_setCreation hc h.creations h.key h.text fun id hid => .inl (h.id? id hid)

structure Pushed (sha : Chars → Hash) (s s' : Store Hash) (i : Nat) (c c' : Creation Hash)
    (id : Nat) : Prop where
  getElem? : s.creations[i]? = some c
  creations : s'.creations = s.creations.set i c'
  key : c'.key = c.key
  text : c'.text = c.text
  id? : c'.id? = some id
  next : id = (s.newest? c.key).elim 1 (·.1 + 1)
  newest? : ∀ key, s'.newest? key = if key = c.key then some (id, sha c.text) else s.newest? key
  nonempty : (∀ b ∈ s.resources, b.revisions ≠ []) → ∀ b ∈ s'.resources, b.revisions ≠ []

structure Quiet (sha : Chars → Hash) (s s' : Store Hash) : Prop where
  heads : s'.heads = s.heads
  ids : IdsKnown sha s s'

theorem Quiet.of_frame (hheads : s'.heads = s.heads) (hcreations : s'.creations = s.creations) :
    Quiet sha s s' :=
  ⟨hheads, idsKnown_of_creations hcreations⟩

theorem Quiet.of_advances {i : Nat} {c : Creation Hash} (hc : s.creations[i]? = some c)
    (h : ∃ c', Advances s s' i c c') : Quiet sha s s' := by
  obtain ⟨c', h⟩ := h
  exact ⟨heads_of_resources h.resources, h.idsKnown hc⟩

theorem commit_cases [DecidableEq Hash] {i : Nat} {c : Creation Hash} {now : Int}
    (hc : s.creations[i]? = some c) (hstep : s.commit sha i c now = some s') :
    Quiet sha s s' ∨ ∃ c' id, Pushed sha s s' i c c' id := by
  unfold commit at hstep
  split at hstep
  case h_2 => cases hstep
  case h_1 payload hphase =>
    dsimp only at hstep
    split at hstep
    case h_1 same hsame =>
      cases hstep
      obtain ⟨hprevious, hhash⟩ := Option.filter_eq_some_iff.mp hsame
      refine .inl ⟨rfl, idsKnown_setCreation hc rfl rfl rfl fun id hid => .inr ?_⟩
      cases hid
      rw [newest?, hprevious, Option.map_some, of_decide_eq_true hhash]
    case h_2 =>
      cases hstep
      let phase : Phase Hash := .trimming ((s.bucket? c.key).elim s.nextArray Bucket.array)
        (((s.bucket? c.key).bind (·.revisions.getLast?)).elim 1 (·.id + 1))
      refine .inr ⟨{ c with
        phase := phase }, _, hc, ?_, rfl, rfl, rfl, ?_, fun key => ?_, fun hne => ?_⟩
      · rw [creations_enforceMemory]
        rfl
      · rw [Store.newest?]
        cases (s.bucket? c.key).bind (·.revisions.getLast?) <;> rfl
      · rw [newest?_of_heads (heads_enforceMemory _)]
        exact newest?_pushRevision s c.key s.nextArray _ key
      · exact ne_nil_of_heads (heads_enforceMemory _) (ne_nil_pushRevision c.key s.nextArray _ hne)

theorem quiet_createRevision [DecidableEq Hash] {resourceKind resourceId : String} {text : Chars}
    (hstep : step sha s (.createRevision resourceKind resourceId text) = some s') :
    Quiet sha s s' := by
  simp only [step] at hstep
  split at hstep
  · cases hstep
  · cases hstep
    refine ⟨rfl, fun j d id hd hid => .inl ?_⟩
    rw [List.getElem?_append] at hd
    split at hd
    · exact ⟨d, hd, rfl, rfl, hid⟩
    · have := List.mem_of_getElem? hd
      rw [List.mem_singleton.mp this] at hid
      cases hid

theorem quiet_trim [DecidableEq Hash] {i : Nat} {c : Creation Hash} (hc : s.creations[i]? = some c)
    (hok : s.KeepsNewest (.trim i)) (hstep : s.trim i c = some s') : Quiet sha s s' := by
  unfold Store.trim at hstep
  split at hstep
  case h_2 => cases hstep
  case h_1 array id hphase =>
    cases hstep
    refine ⟨?_, idsKnown_setCreation hc (foldl_drop_frame _ _).2 rfl rfl fun id hid => .inl ?_⟩
    · rw [heads, (foldl_drop_frame _ _).1]
      exact heads_trimBuckets (hok c hc array (by simp [trimsArray?, hphase]))
    · simpa [Creation.id?, hphase] using hid

theorem quiet_pin (s : Store Hash) (cursorId key : String) (id : Nat) :
    Quiet sha s (s.pin cursorId key id) := by
  unfold Store.pin
  split
  · exact .of_frame rfl rfl
  · split
    · exact .of_frame rfl rfl
    · refine .of_frame ?_ (creations_enforceMemory _)
      rw [heads_enforceMemory]
      exact heads_updateRevision s _ (fun _ => rfl) fun _ => rfl

theorem quiet_transferPin (s : Store Hash) (sourceCursorId replacementCursorId : String) :
    Quiet sha s (s.transferPin sourceCursorId replacementCursorId) := by
  unfold Store.transferPin
  split
  · exact .of_frame rfl rfl
  · split
    · exact .of_frame rfl rfl
    · exact .of_frame (heads_updateRevision s _ (fun _ => rfl) fun _ => rfl) rfl

theorem quiet_unpin (s : Store Hash) (cursorId : String) : Quiet sha s (s.unpin cursorId) := by
  unfold Store.unpin
  split
  · exact .of_frame rfl rfl
  · exact .of_frame (heads_updateRevision s _ (fun _ => rfl) fun _ => rfl) rfl

theorem quiet_readRevision (s : Store Hash) (key : String) (id : Nat) (now : Int) :
    Quiet sha s (s.readRevision key id now) := by
  unfold Store.readRevision
  split
  · exact .of_frame rfl rfl
  · exact .of_frame (heads_updateRevision s _ (fun _ => rfl) fun _ => rfl) rfl

theorem step_cases [DecidableEq Hash] {event : Event Hash}
    (hne : ∀ b ∈ s.resources, b.revisions ≠ []) (hok : s.KeepsNewest event)
    (hstep : step sha s event = some s') :
    Quiet sha s s' ∨ ∃ i c c' id, Pushed sha s s' i c c' id := by
  cases event with
  | createRevision resourceKind resourceId text => exact .inl (quiet_createRevision hstep)
  | write i =>
    obtain ⟨c, hc, hstep⟩ := Option.bind_eq_some_iff.mp hstep
    exact .inl (.of_advances hc (write_advances hstep))
  | readBack i =>
    obtain ⟨c, hc, hstep⟩ := Option.bind_eq_some_iff.mp hstep
    exact .inl (.of_advances hc (readBack_advances hstep))
  | commit i now =>
    obtain ⟨c, hc, hstep⟩ := Option.bind_eq_some_iff.mp hstep
    exact (commit_cases hc hstep).imp_right fun ⟨c', id, h⟩ => ⟨i, c, c', id, h⟩
  | trim i =>
    obtain ⟨c, hc, hstep⟩ := Option.bind_eq_some_iff.mp hstep
    exact .inl (quiet_trim hc hok hstep)
  | discardManifest i =>
    obtain ⟨c, hc, hstep⟩ := Option.bind_eq_some_iff.mp hstep
    exact .inl (.of_advances hc (discardManifest_advances hstep))
  | reject i =>
    obtain ⟨c, hc, hstep⟩ := Option.bind_eq_some_iff.mp hstep
    exact .inl (.of_advances hc (reject_advances hstep))
  | unlinked file =>
    obtain ⟨-, hstep⟩ := Option.ite_none_right_eq_some.mp hstep
    cases hstep
    exact .inl (.of_frame rfl rfl)
  | unlinkFailed file =>
    obtain ⟨-, hstep⟩ := Option.ite_none_right_eq_some.mp hstep
    cases hstep
    exact .inl (.of_frame rfl rfl)
  | pin cursorId resourceKind resourceId id =>
    cases hstep
    exact .inl (quiet_pin s cursorId _ id)
  | transferPin sourceCursorId replacementCursorId =>
    cases hstep
    exact .inl (quiet_transferPin s sourceCursorId replacementCursorId)
  | unpin cursorId =>
    cases hstep
    exact .inl (quiet_unpin s cursorId)
  | sweep now =>
    cases hstep
    exact .inl (.of_frame (heads_sweep hne hok) (foldl_drop_frame _ _).2)
  | readRevision resourceKind resourceId id now =>
    cases hstep
    exact .inl (quiet_readRevision s _ id now)
  | readChunk i =>
    obtain ⟨reader, hreader, hstep⟩ := Option.bind_eq_some_iff.mp hstep
    obtain ⟨readers, rfl⟩ := readChunk_eq hstep
    exact .inl (.of_frame rfl rfl)

structure IdInv (sha : Chars → Hash) (s : Store Hash) : Prop where
  nonempty : ∀ b ∈ s.resources, b.revisions ≠ []
  bounded : ∀ c ∈ s.creations, ∀ id ∈ c.id?, ∃ top hash, s.newest? c.key =
    some (top, hash) ∧ id ≤ top ∧
    (id = top → hash = sha c.text)
  named : ∀ c ∈ s.creations, ∀ d ∈ s.creations, c.key = d.key → ∀ id ∈ c.id?, id ∈ d.id? →
    sha c.text = sha d.text

theorem idInv_new (files : File Hash → Option (Content Hash)) : (Store.new files).IdInv sha where
  nonempty b hb := by cases hb
  bounded c hc := by cases hc
  named c hc := by cases hc

theorem IdInv.of_known (h : s.IdInv sha) (hheads : s'.heads = s.heads) (hknown : IdsKnown sha s s') :
    s'.IdInv sha := by
  have hbound : ∀ d ∈ s'.creations, ∀ id ∈ d.id?, ∃ top hash, s.newest? d.key = some (top, hash) ∧
      id ≤ top ∧ (id = top → hash = sha d.text) := by
    intro d hd id hid
    obtain ⟨j, hj⟩ := List.mem_iff_getElem?.mp hd
    rcases hknown j d id hj hid with ⟨c, hc, hkey, htext, hidc⟩ | htop
    · rw [← hkey, ← htext]
      exact h.bounded c (List.mem_of_getElem? hc) id hidc
    · exact ⟨id, _, htop, le_rfl, fun _ => rfl⟩
  refine ⟨ne_nil_of_heads hheads h.nonempty, ?_, ?_⟩
  · intro d hd id hid
    rw [newest?_of_heads hheads]
    exact hbound d hd id hid
  · intro c hc d hd hkey id hidc hidd
    obtain ⟨j, hj⟩ := List.mem_iff_getElem?.mp hc
    obtain ⟨k, hk⟩ := List.mem_iff_getElem?.mp hd
    have htop : ∀ e ∈ s'.creations, e.key = c.key → id ∈ e.id? →
        ∀ hash, s.newest? c.key = some (id, hash) →
        hash = sha e.text := by
      intro e he hekey hide hash hnewest
      obtain ⟨top, hash', hnewest', -, heq⟩ := hbound e he id hide
      rw [hekey, hnewest] at hnewest'
      cases hnewest'
      exact heq rfl
    rcases hknown j c id hj hidc with ⟨c₀, hc₀, hkey₀, htext₀, hid₀⟩ | hnewest
    · rcases hknown k d id hk hidd with ⟨d₀, hd₀, hkey₁, htext₁, hid₁⟩ | hnewest
      · rw [← htext₀, ← htext₁]
        exact h.named c₀ (List.mem_of_getElem? hc₀) d₀ (List.mem_of_getElem? hd₀)
          (by rw [hkey₀, hkey₁, hkey]) id hid₀ hid₁
      · rw [← hkey] at hnewest
        exact (htop c hc rfl hidc _ hnewest).symm
    · exact htop d hd hkey.symm hidd _ hnewest

theorem IdInv.of_pushed {i id : Nat} {c c' : Creation Hash} (h : s.IdInv sha)
    (hp : Pushed sha s s' i c c' id) :
    s'.IdInv sha := by
  have hcreations : ∀ d ∈ s'.creations, d ∈ s.creations ∨ d = c' := by
    intro d hd
    rw [hp.creations] at hd
    exact List.mem_or_eq_of_mem_set hd
  have hnew : ∀ d ∈ s.creations, d.key = c.key → ∀ id' ∈ d.id?, id' < id := by
    intro d hd hkey id' hid'
    obtain ⟨top, hash, hnewest, hle, -⟩ := h.bounded d hd id' hid'
    rw [hp.next, ← hkey, hnewest]
    exact Nat.lt_succ_of_le hle
  refine ⟨hp.nonempty h.nonempty, fun d hd id' hid' => ?_, fun d hd e he hkey id' hidd hide => ?_⟩
  · rw [hp.newest?]
    cases hcreations d hd with
    | inl hd =>
      split
      case isTrue hkey =>
        have hlt := hnew d hd hkey id' hid'
        exact ⟨id, _, rfl, hlt.le, fun heq => absurd heq hlt.ne⟩
      case isFalse => exact h.bounded d hd id' hid'
    | inr heq =>
      subst heq
      rw [hp.id?] at hid'
      cases hid'
      rw [if_pos hp.key, hp.text]
      exact ⟨id, _, rfl, le_rfl, fun _ => rfl⟩
  · cases hcreations d hd with
    | inl hd =>
      cases hcreations e he with
      | inl he => exact h.named d hd e he hkey id' hidd hide
      | inr heq =>
        subst heq
        rw [hp.id?] at hide
        cases hide
        exact absurd (hnew d hd (hkey.trans hp.key) id hidd) (lt_irrefl id)
    | inr hdeq =>
      subst hdeq
      rw [hp.id?] at hidd
      cases hidd
      cases hcreations e he with
      | inl he => exact absurd (hnew e he (hkey.symm.trans hp.key) id hide) (lt_irrefl id)
      | inr heq => rw [heq]

theorem IdInv.step [DecidableEq Hash] {event : Event Hash} (h : s.IdInv sha)
    (hok : s.KeepsNewest event) (hstep : step sha s event = some s') : s'.IdInv sha := by
  rcases step_cases h.nonempty hok hstep with ⟨hheads, hknown⟩ | ⟨i, c, c', id, hp⟩
  · exact h.of_known hheads hknown
  · exact h.of_pushed hp

structure Reached (key : String) (n start : Nat) (s : Store Hash) : Prop where
  newest : ∃ top hash, s.newest? key = some (top, hash) ∧ n ≤ top
  calls : ∀ (j : Nat) (d : Creation Hash), start ≤ j → s.creations[j]? = some d → d.key = key →
    ∀ id ∈ d.id?, n ≤ id

theorem Reached.step [DecidableEq Hash] {key : String} {n start : Nat} {event : Event Hash}
    (h : s.Reached key n start) (hinv : s.IdInv sha) (hok : s.KeepsNewest event)
    (hstep : step sha s event = some s') :
    s'.Reached key n start := by
  obtain ⟨top, hash, hnewest, hle⟩ := h.newest
  rcases step_cases hinv.nonempty hok hstep with ⟨hheads, hknown⟩ | ⟨i, c, c', id, hp⟩
  · refine ⟨⟨top, hash, by rw [newest?_of_heads hheads, hnewest], hle⟩,
      fun j d hj hd hkey id hid => ?_⟩
    rcases hknown j d id hd hid with ⟨c, hc, hkey', -, hidc⟩ | htop
    · exact h.calls j c hj hc (hkey'.trans hkey) id hidc
    · rw [hkey, hnewest] at htop
      cases htop
      exact hle
  · have hid : c.key = key → n ≤ id := by
      intro hkey
      rw [hp.next, hkey, hnewest]
      exact Nat.le_succ_of_le hle
    refine ⟨?_, fun j d hj hd hkey id' hid' => ?_⟩
    · rw [hp.newest?]
      split
      case isTrue hkey => exact ⟨id, _, rfl, hid hkey.symm⟩
      case isFalse => exact ⟨top, hash, hnewest, hle⟩
    · rw [hp.creations, List.getElem?_set] at hd
      split at hd
      · split at hd
        · cases hd
          rw [hp.id?] at hid'
          cases hid'
          exact hid (hp.key.symm.trans hkey)
        · cases hd
      · exact h.calls j d hj hd hkey id' hid'

end Store

open Store

/-- In a run that never drops a newest revision, two calls on a resource that return the same id were
given the same content, and a call made after another one has returned does not return a smaller id.
-/
theorem revision_id_names_one_content [DecidableEq Hash] (sha : Chars → Hash)
    (hsha : Function.Injective sha) (files : File Hash → Option (Content Hash))
    (before after : List (Event Hash)) (t s : Store Hash)
    (hbefore : runEvents (step sha) (Store.new files) before = some t)
    (hafter : runEvents (step sha) t after = some s)
    (hok : RunMeets (step sha) KeepsNewest (Store.new files) (before ++ after)) :
    (∀ c ∈ s.creations, ∀ d ∈ s.creations, c.key = d.key → ∀ id, c.phase = .settled (some id) →
      d.phase = .settled (some id) → c.text = d.text) ∧
    ∀ c ∈ t.creations, ∀ id, c.phase = .settled (some id) →
      ∀ j d, t.creations.length ≤ j → s.creations[j]? = some d → d.key = c.key →
        ∀ id', d.phase = .settled (some id') → id ≤ id' := by
  obtain ⟨hokBefore, hokAfter⟩ := hok.append hbefore
  have ht : t.IdInv sha :=
    hokBefore.invariant (fun _ _ _ h hok hstep => h.step hok hstep) hbefore (idInv_new files)
  have hs : s.IdInv sha := hokAfter.invariant (fun _ _ _ h hok hstep => h.step hok hstep) hafter ht
  have hid : ∀ (c : Creation Hash) id, c.phase = .settled (some id) → id ∈ c.id? := by
    intro c id hphase
    simp [Creation.id?, hphase]
  refine ⟨fun c hc d hd hkey id hcid hdid => ?_, fun c hc id hcid j d hj hd hkey id' hdid => ?_⟩
  · exact hsha (hs.named c hc d hd hkey id (hid c id hcid) (hid d id hdid))
  · obtain ⟨top, hash, hnewest, hle, -⟩ := ht.bounded c hc id (hid c id hcid)
    have hstart : t.Reached c.key id t.creations.length := by
      refine ⟨⟨top, hash, hnewest, hle⟩, fun j d hj hd => ?_⟩
      rw [List.getElem?_eq_none hj] at hd
      cases hd
    have hreached : s.IdInv sha ∧ s.Reached c.key id t.creations.length :=
      hokAfter.invariant (P := fun s => s.IdInv sha ∧ s.Reached c.key id t.creations.length)
        (fun _ _ _ h hok hstep => ⟨h.1.step hok hstep, h.2.step h.1 hok hstep⟩) hafter ⟨ht, hstart⟩
    exact hreached.2.calls j d hj hd hkey id' (hid d id' hdid)

def createWhole (i : Nat) (text : Chars) (now : Int) : List (Event Chars) :=
  [.createRevision "state" "a" text, .write i, .write i, .readBack i, .readBack i,
    .commit i now, .trim i]

theorem older_snapshot_expires :
    ∃ t s, runEvents (step id) (Store.new fun _ => none)
        (createWhole 0 "[]".toList 0 ++ createWhole 1 "\x7b\x7d".toList 600000) = some t ∧
      runEvents (step id) t (.sweep 900001 :: createWhole 2 "[1]".toList 900002) = some s ∧
      t.creations.map Creation.phase = [.settled (some 1), .settled (some 2)] ∧
      s.creations.map Creation.phase = [.settled (some 1), .settled (some 2), .settled (some 3)] ∧
      ∀ c ∈ t.creations, ∀ id, c.phase = .settled (some id) →
        ∀ j d, t.creations.length ≤ j → s.creations[j]? = some d → d.key = c.key →
          ∀ id', d.phase = .settled (some id') → id ≤ id' := by
  have hruns : ((runEvents (step id) (Store.new fun _ => none)
      (createWhole 0 "[]".toList 0 ++ createWhole 1 "\x7b\x7d".toList 600000)).any fun t =>
        t.creations.map Creation.phase = [.settled (some 1), .settled (some 2)] &&
        (runEvents (step id) t (.sweep 900001 :: createWhole 2 "[1]".toList 900002)).any fun s =>
          s.creations.map Creation.phase =
            [.settled (some 1), .settled (some 2), .settled (some 3)]) = true := by
    decide +kernel
  obtain ⟨t, ht, hruns⟩ := (Option.any_eq_true _ _).mp hruns
  obtain ⟨hphases, hruns⟩ := Bool.and_eq_true_iff.mp hruns
  obtain ⟨s, hs, hphases'⟩ := (Option.any_eq_true _ _).mp hruns
  have hok : RunMeets (step id) KeepsNewest (Store.new fun _ => none)
      (createWhole 0 "[]".toList 0 ++ createWhole 1 "\x7b\x7d".toList 600000 ++
        .sweep 900001 :: createWhole 2 "[1]".toList 900002) := by
    decide +kernel
  exact ⟨t, s, ht, hs, by simpa using hphases, by simpa using hphases',
    (revision_id_names_one_content id Function.injective_id _ _ _ t s ht hs hok).2⟩

theorem ids_start_again :
    ∃ t s, runEvents (step id) (Store.new fun _ => none)
        (createWhole 0 "[]".toList 0 ++ createWhole 1 "\x7b\x7d".toList 0) = some t ∧
      runEvents (step id) t (.sweep 900001 :: createWhole 2 "[1]".toList 900002) = some s ∧
      (∃ c ∈ s.creations, ∃ d ∈ s.creations, c.key = d.key ∧ c.phase = .settled (some 1) ∧
        d.phase = .settled (some 1) ∧ c.text ≠ d.text) ∧
      ∃ c ∈ t.creations, c.phase = .settled (some 2) ∧
        ∃ d, s.creations[t.creations.length]? = some d ∧
        d.key = c.key ∧ d.phase = .settled (some 1) := by
  have hruns : ((runEvents (step id) (Store.new fun _ => none)
      (createWhole 0 "[]".toList 0 ++ createWhole 1 "\x7b\x7d".toList 0)).any fun t =>
        (runEvents (step id) t (.sweep 900001 :: createWhole 2 "[1]".toList 900002)).any fun s =>
          (∃ c ∈ s.creations, ∃ d ∈ s.creations, c.key = d.key ∧ c.phase = .settled (some 1) ∧
            d.phase = .settled (some 1) ∧ c.text ≠ d.text) &&
          (∃ c ∈ t.creations, c.phase = .settled (some 2) ∧ ∃ d ∈ s.creations[t.creations.length]?,
            d.key = c.key ∧ d.phase = .settled (some 1))) = true := by
    decide +kernel
  obtain ⟨t, ht, hruns⟩ := (Option.any_eq_true _ _).mp hruns
  obtain ⟨s, hs, hruns⟩ := (Option.any_eq_true _ _).mp hruns
  obtain ⟨hsame, hless⟩ := Bool.and_eq_true_iff.mp hruns
  exact ⟨t, s, ht, hs, of_decide_eq_true hsame, of_decide_eq_true hless⟩

end JevCode.Sdk
