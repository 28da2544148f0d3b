import JevCode.Hashline.GroupLaws

namespace JevCode.Hashline

open JevCode.Text

@[simp] theorem isDeleted_append (es fs : List Edit) (l : Nat) :
    isDeleted (es ++ fs) l = (isDeleted es l || isDeleted fs l) := List.any_append

theorem isDeleted_iff {edits : List Edit} {l : Nat} :
    isDeleted edits l = true ↔ ∃ e ∈ edits, e.deletedLine? = some l := by
  simp [isDeleted]

@[simp] theorem Edit.deletedLine?_normalize (fileLines : List String) (e : Edit) :
    (e.normalize fileLines).deletedLine? = e.deletedLine? := by cases e <;> rfl

@[simp] theorem isDeleted_map_normalize (fileLines : List String) (edits : List Edit) (l : Nat) :
    isDeleted (edits.map (Edit.normalize fileLines)) l = isDeleted edits l := by
  simp [isDeleted, List.any_map, Function.comp_def]

theorem Edit.targetLine?_of_deletedLine? {e : Edit} {l : Nat} (h : e.deletedLine? = some l) :
    e.targetLine? = some l := by
  cases e with
  | insert c t n i => cases h
  | delete a n i => exact h

theorem Edit.insert_of_isGroupInsert {n : Nat} {e : Edit} (h : isGroupInsert n e) :
    ∃ a t i, e = .insert (.beforeAnchor a) t n i := by
  unfold isGroupInsert at h
  split at h
  · rename_i a t m i
    exact ⟨a, t, i, by simp_all⟩
  · cases h

theorem Edit.delete_of_isGroupDelete {n : Nat} {e : Edit} (h : isGroupDelete n e) :
    ∃ a i, e = .delete a n i := by
  unfold isGroupDelete at h
  split at h
  · rename_i a m i
    exact ⟨a, i, by simp_all⟩
  · cases h

theorem Edit.insert_of_isPureInsert {n : Nat} {c : Cursor} {e : Edit} (h : isPureInsert n c e) :
    ∃ t i, e = .insert c t n i := by
  unfold isPureInsert at h
  split at h
  · rename_i c' t m i
    exact ⟨t, i, by simp_all⟩
  · cases h

def Edit.inserted? : Edit → Option (Cursor × String)
  | .insert c t _ _ => some (c, t)
  | .delete _ _ _ => none

theorem filterMap_text?_eq (edits : List Edit) :
    edits.filterMap Edit.text? = (edits.filterMap Edit.inserted?).map Prod.snd := by
  rw [List.map_filterMap]
  apply List.filterMap_congr
  intro e _
  cases e <;> rfl

theorem checkAnchor_eq_ok_nil {fileLines : List String} {a : Anchor} :
    checkAnchor fileLines a = .ok [] ↔
      1 ≤ a.line ∧ a.line ≤ fileLines.length ∧
        (a.hash = rangeInteriorHash ∨
          computeLineHash a.line (lineAt fileLines a.line) = a.hash) := by
  unfold checkAnchor
  split
  · rename_i h
    simp only [reduceCtorEq, false_iff]
    omega
  · rename_i h
    have hrange : 1 ≤ a.line ∧ a.line ≤ fileLines.length := by omega
    simp only [hrange, true_and]
    split
    · simp_all
    · split <;> simp_all

theorem validateHashlineAnchors_eq_ok_nil {edits : List Edit} {fileLines : List String} :
    validateHashlineAnchors edits fileLines = .ok [] ↔
      ∀ e ∈ edits, ∀ a, e.anchor? = some a → checkAnchor fileLines a = .ok [] := by
  induction edits with
  | nil => simp [validateHashlineAnchors]
  | cons e es ih =>
    unfold validateHashlineAnchors
    cases ha : e.anchor? with
    | none => simp [ih, ha]
    | some a =>
      cases hc : checkAnchor fileLines a with
      | error err => simp [ha, hc, bind, Except.bind]
      | ok here =>
        cases hv : validateHashlineAnchors es fileLines with
        | error err => simp_all [bind, Except.bind]
        | ok rest =>
          simp only [bind, Except.bind, pure, Except.pure, Except.ok.injEq, List.append_eq_nil_iff,
            List.mem_cons, forall_eq_or_imp, ha, Option.some.injEq, forall_eq', hc]
          rw [hv] at ih
          simp only [Except.ok.injEq] at ih
          rw [← ih]

section

variable {fileLines : List String} {allTargetLines : List Nat} {options : ApplyOptions}

def Segment.inserted (fileLines : List String) (options : ApplyOptions) :
    Segment → List (Cursor × String)
  | .replacement g => g.members.filterMap Edit.inserted?
  | .pureInsert g =>
    (tryAbsorbPureInsertGroup g fileLines options.autoDropPureInsertDuplicates).keptPayload.map
      (g.cursor, ·)
  | .single e => [e].filterMap Edit.inserted?

def Segment.deletes (fileLines : List String) (allTargetLines : List Nat) (l : Nat) : Segment → Bool
  | .replacement g =>
    g.startLine - safePrefixCount fileLines allTargetLines g ≤ l &&
      l ≤ g.endLine + safeSuffixCount fileLines allTargetLines g
  | .pureInsert _ => false
  | .single e => e.deletedLine? == some l

theorem deletedLine?_deleteEditsForAutoAbsorbedLines (fileLines : List String) (n i l : Nat)
    (lines : List Nat) :
    isDeleted (deleteEditsForAutoAbsorbedLines fileLines n i lines) l = decide (l ∈ lines) := by
  rw [Bool.eq_iff_iff, isDeleted_iff]
  simp only [deleteEditsForAutoAbsorbedLines, List.mem_mapIdx, decide_eq_true_eq]
  constructor
  · rintro ⟨e, ⟨j, hj, rfl⟩, he⟩
    cases he
    exact List.getElem_mem hj
  · intro h
    obtain ⟨j, hj, rfl⟩ := List.mem_iff_getElem.mp h
    exact ⟨_, ⟨j, hj, rfl⟩, rfl⟩

theorem inserted?_deleteEditsForAutoAbsorbedLines (fileLines : List String) (n i : Nat)
    (lines : List Nat) :
    (deleteEditsForAutoAbsorbedLines fileLines n i lines).filterMap Edit.inserted? = [] := by
  rw [List.filterMap_eq_nil_iff]
  intro e he
  obtain ⟨j, hj, rfl⟩ := List.mem_mapIdx.mp he
  rfl

def Segment.Found : Segment → Prop
  | .replacement g => ∃ es, findReplacementGroup es = some g
  | .pureInsert g => ∃ es, findPureInsertGroup es = some g
  | .single _ => True

theorem found_of_mem_segments {edits : List Edit} {seg : Segment} (h : seg ∈ segments edits) :
    seg.Found := by
  induction edits using segments.induct with
  | case1 => simp [segments] at h
  | case2 e es ih =>
    rw [segments] at h
    rcases List.mem_cons.mp h with rfl | h
    · unfold nextSegment
      split
      · exact ⟨_, by assumption⟩
      · split
        · exact ⟨_, by assumption⟩
        · trivial
    · exact ih h

theorem members_subset_of_mem_segments {edits : List Edit} {seg : Segment}
    (h : seg ∈ segments edits) :
    seg.members ⊆ edits := by
  intro e he
  rw [← segments_members edits]
  exact List.mem_flatMap.mpr ⟨seg, h, he⟩

theorem tryAbsorbPureInsertGroup_keptPayload_of_not_absorbs {g : PureInsertGroup}
    {fileLines : List String} {b : Bool}
    (h : ¬ (0 < (tryAbsorbPureInsertGroup g fileLines b).absorbedLeading ∨
      0 < (tryAbsorbPureInsertGroup g fileLines b).absorbedTrailing)) :
    (tryAbsorbPureInsertGroup g fileLines b).keptPayload = g.payload := by
  simp only [tryAbsorbPureInsertGroup, not_or, Nat.not_lt, Nat.le_zero] at h ⊢
  obtain ⟨hlead, htrail⟩ := h
  rw [htrail, hlead, List.drop_zero, Nat.sub_zero, List.take_length]

theorem filterMap_inserted?_of_isPureInsert {n : Nat} {c : Cursor} {edits : List Edit}
    (h : ∀ e ∈ edits, isPureInsert n c e) :
    edits.filterMap Edit.inserted? = (edits.filterMap Edit.text?).map (c, ·) := by
  rw [List.map_filterMap]
  apply List.filterMap_congr
  intro e he
  obtain ⟨t, i, rfl⟩ := Edit.insert_of_isPureInsert (h e he)
  rfl

theorem filterMap_inserted?_mapIdx (c : Cursor) (n next : Nat) (texts : List String) :
    (texts.mapIdx fun i text => Edit.insert c text n (next + i)).filterMap Edit.inserted? = texts.map
    (c, ·) := by
  induction texts generalizing next with
  | nil => rfl
  | cons t ts ih =>
    have h := ih (next + 1)
    simp only [Nat.add_right_comm next 1] at h
    simp only [List.mapIdx_cons, List.map_cons, List.filterMap_cons, Edit.inserted?, ← h,
      Nat.add_assoc]

theorem inserted_absorbSegment (st : AbsorbState) {seg : Segment} (hseg : seg.Found) :
    (absorbSegment fileLines allTargetLines options st seg).1.filterMap Edit.inserted? =
      seg.inserted fileLines options := by
  cases seg with
  | replacement g =>
    simp [absorbSegment, absorbReplacement, Segment.inserted,
      inserted?_deleteEditsForAutoAbsorbedLines]
  | single e => rfl
  | pureInsert g =>
    obtain ⟨es, hg⟩ := hseg
    obtain ⟨-, hpayload, hmembers, -⟩ := findPureInsertGroup_spec hg
    simp only [absorbSegment, absorbPureInsert, Segment.inserted]
    split
    · exact filterMap_inserted?_mapIdx ..
    · rename_i h
      rw [tryAbsorbPureInsertGroup_keptPayload_of_not_absorbs h, hpayload,
        filterMap_inserted?_of_isPureInsert hmembers]

theorem isDeleted_absorbSegment (st : AbsorbState) {seg : Segment} (hseg : seg.Found) (l : Nat) :
    isDeleted (absorbSegment fileLines allTargetLines options st seg).1 l =
      seg.deletes fileLines allTargetLines l := by
  cases seg with
  | replacement g =>
    obtain ⟨es, hg⟩ := hseg
    obtain ⟨inserts, deletes, -, hmembers, -, hdeleted, hins, -, -, hrange, hle, hend⟩ :=
      findReplacementGroup_spec hg
    have hnone : isDeleted inserts l = false := by
      rw [Bool.eq_false_iff, ne_eq, isDeleted_iff]
      rintro ⟨e, he, hl⟩
      obtain ⟨a, t, i, rfl⟩ := Edit.insert_of_isGroupInsert (hins e he)
      cases hl
    have hdel : isDeleted deletes l = decide (l ∈ g.deleted) := by
      rw [Bool.eq_iff_iff, isDeleted_iff, decide_eq_true_iff, hdeleted, List.mem_filterMap]
    simp only [absorbSegment, absorbReplacement, isDeleted_append, hmembers, hnone, hdel,
      Bool.false_or, deletedLine?_deleteEditsForAutoAbsorbedLines, Segment.deletes]
    rw [hrange]
    simp only [List.mem_range'_1]
    rw [Bool.eq_iff_iff]
    simp only [Bool.or_eq_true, decide_eq_true_eq, Bool.and_eq_true]
    have := (safePrefixCount_repeats fileLines allTargetLines g).lt_start
    omega
  | single e => simp [absorbSegment, isDeleted, Segment.deletes]
  | pureInsert g =>
    obtain ⟨es, hg⟩ := hseg
    obtain ⟨-, -, hmembers, -⟩ := findPureInsertGroup_spec hg
    rw [Segment.deletes, Bool.eq_false_iff, ne_eq, isDeleted_iff]
    rintro ⟨e, he, hl⟩
    simp only [absorbSegment, absorbPureInsert] at he
    split at he
    · obtain ⟨j, hj, rfl⟩ := List.mem_mapIdx.mp he
      cases hl
    · obtain ⟨t, i, rfl⟩ := Edit.insert_of_isPureInsert (hmembers e he)
      cases hl

theorem inserted_absorbSegments (st : AbsorbState) {segs : List Segment}
    (hsegs : ∀ seg ∈ segs, seg.Found) :
    (absorbSegments fileLines allTargetLines options st segs).1.filterMap Edit.inserted? =
      segs.flatMap (Segment.inserted fileLines options) := by
  induction segs generalizing st with
  | nil => rfl
  | cons seg segs ih =>
    simp only [absorbSegments, List.filterMap_append, List.flatMap_cons,
      inserted_absorbSegment st (hsegs seg (by simp)), ih _ fun s hs => hsegs s (by simp [hs])]

theorem isDeleted_absorbSegments (st : AbsorbState) {segs : List Segment}
    (hsegs : ∀ seg ∈ segs, seg.Found) (l : Nat) :
    isDeleted (absorbSegments fileLines allTargetLines options st segs).1 l =
      segs.any (Segment.deletes fileLines allTargetLines l) := by
  induction segs generalizing st with
  | nil => rfl
  | cons seg segs ih =>
    simp only [absorbSegments, isDeleted_append, List.any_cons,
      isDeleted_absorbSegment st (hsegs seg (by simp)), ih _ fun s hs => hsegs s (by simp [hs])]

end

theorem inserted_absorb (edits : List Edit) (fileLines : List String) (options : ApplyOptions) :
    (absorbReplacementBoundaryDuplicates edits fileLines options).1.filterMap Edit.inserted? =
      (segments edits).flatMap (Segment.inserted fileLines options) :=
  inserted_absorbSegments _ fun _ h => found_of_mem_segments h

theorem isDeleted_absorb (edits : List Edit) (fileLines : List String)
    (options : ApplyOptions) (l : Nat) :
    isDeleted (absorbReplacementBoundaryDuplicates edits fileLines options).1 l =
      (segments edits).any (Segment.deletes fileLines (collectAnchorTargetLines edits) l) :=
  isDeleted_absorbSegments _ (fun _ h => found_of_mem_segments h) l

def Cursor.beforeLine? : Cursor → Option Nat
  | .beforeAnchor a => some a.line
  | _ => none

def Cursor.landing? (fileLines : List String) (c : Cursor) : Option Nat :=
  (c.normalize fileLines).beforeLine?

theorem Edit.textBefore?_insert (c : Cursor) (t : String) (n i l : Nat) :
    (Edit.insert c t n i).textBefore? l = if c.beforeLine? = some l then some t else none := by
  cases c <;> simp [Edit.textBefore?, Cursor.beforeLine?]

theorem Edit.textBefore?_normalize (fileLines : List String) (e : Edit) (l : Nat) :
    (e.normalize fileLines).textBefore? l =
      e.inserted?.bind fun p => if p.1.landing? fileLines = some l then some p.2 else none := by
  cases e with
  | delete a n i => rfl
  | insert c t n i =>
    simp only [Edit.normalize, Edit.inserted?, Cursor.landing?, Option.bind_some,
      Edit.textBefore?_insert]
    rfl

theorem filterMap_map_normalize {fileLines : List String} {f : Edit → Option String}
    {P : Cursor → Prop} [DecidablePred P]
    (hf : ∀ e : Edit, f (e.normalize fileLines) = e.inserted?.bind fun p => if P p.1
      then some p.2 else none)
    (edits : List Edit) :
    (edits.map (Edit.normalize fileLines)).filterMap f =
      ((edits.filterMap Edit.inserted?).filter fun p => P p.1).map Prod.snd := by
  rw [List.filterMap_map, ← List.filterMap_eq_map', ← List.filterMap_eq_filter,
    List.filterMap_filterMap, List.filterMap_filterMap]
  apply List.filterMap_congr
  intro e _
  rw [Function.comp_apply, hf]
  cases e.inserted? with
  | none => rfl
  | some p => by_cases h : P p.1 <;> simp [Option.guard, h]

theorem insertsAt_normalize (fileLines : List String) (edits : List Edit) (l : Nat) :
    insertsAt (edits.map (Edit.normalize fileLines)) l =
      ((edits.filterMap Edit.inserted?).filter fun p => p.1.landing? fileLines =
        some l).map Prod.snd :=
  filterMap_map_normalize (P := fun c => c.landing? fileLines = some l)
    (fun e => Edit.textBefore?_normalize fileLines e l) edits

theorem Cursor.normalize_eq_bof {fileLines : List String} {c : Cursor} :
    c.normalize fileLines = .bof ↔ c = .bof := by
  cases c with
  | afterAnchor a =>
    simp only [Cursor.normalize]
    split <;> simp
  | _ => simp [Cursor.normalize]

theorem bofTexts_normalize (fileLines : List String) (edits : List Edit) :
    (edits.map (Edit.normalize fileLines)).filterMap Edit.bofText? =
      ((edits.filterMap Edit.inserted?).filter fun p => p.1 = .bof).map Prod.snd := by
  refine filterMap_map_normalize (P := (· = .bof)) (fun e => ?_) edits
  cases e with
  | delete a n i => rfl
  | insert c t n i =>
    have hbof : (Edit.insert (c.normalize fileLines) t n i).bofText? =
        if c.normalize fileLines = .bof then some t else none := by
      cases c.normalize fileLines <;> rfl
    simp only [Edit.normalize, hbof, Edit.inserted?, Option.bind_some, Cursor.normalize_eq_bof]

theorem eofTexts_normalize (fileLines : List String) (edits : List Edit) :
    (edits.map (Edit.normalize fileLines)).filterMap Edit.eofText? =
      ((edits.filterMap Edit.inserted?).filter fun p => p.1.normalize fileLines =
        .eof).map Prod.snd := by
  refine filterMap_map_normalize (P := fun c => c.normalize fileLines = .eof) (fun e => ?_) edits
  cases e with
  | delete a n i => rfl
  | insert c t n i =>
    have heof : (Edit.insert (c.normalize fileLines) t n i).eofText? =
        if c.normalize fileLines = .eof then some t else none := by
      cases c.normalize fileLines <;> rfl
    simp only [Edit.normalize, heof, Edit.inserted?, Option.bind_some]

def AnchorsInRange (edits : List Edit) (fileLines : List String) : Prop :=
  ∀ e ∈ edits, ∀ a, e.anchor? = some a → 1 ≤ a.line ∧ a.line ≤ fileLines.length

theorem anchorsInRange_of_validate {edits : List Edit} {fileLines : List String}
    (h : validateHashlineAnchors edits fileLines = .ok []) : AnchorsInRange edits fileLines := by
  intro e he a ha
  have := checkAnchor_eq_ok_nil.mp (validateHashlineAnchors_eq_ok_nil.mp h e he a ha)
  exact ⟨this.1, this.2.1⟩

theorem exists_member_of_mem_inserted {fileLines : List String} {options : ApplyOptions}
    {seg : Segment} (hseg : seg.Found) {c : Cursor} {t : String}
    (h : (c, t) ∈ seg.inserted fileLines options) :
    ∃ e ∈ seg.members, ∃ t' n i, e = .insert c t' n i := by
  cases seg with
  | replacement g =>
    obtain ⟨e, he, hct⟩ := List.mem_filterMap.mp h
    cases e with
    | delete a n i => cases hct
    | insert c' t' n i =>
      cases hct
      exact ⟨_, he, _, _, _, rfl⟩
  | single e =>
    obtain ⟨e', he, hct⟩ := List.mem_filterMap.mp h
    cases e' with
    | delete a n i => cases hct
    | insert c' t' n i =>
      cases hct
      exact ⟨_, he, _, _, _, rfl⟩
  | pureInsert g =>
    obtain ⟨es, hg⟩ := hseg
    obtain ⟨-, -, hmembers, hne⟩ := findPureInsertGroup_spec hg
    obtain ⟨t', -, hct⟩ := List.mem_map.mp h
    cases hct
    obtain ⟨e, es', hes⟩ := List.exists_cons_of_ne_nil hne
    have he : e ∈ g.members := by simp [hes]
    obtain ⟨t', i, rfl⟩ := Edit.insert_of_isPureInsert (hmembers e he)
    exact ⟨_, he, _, _, _, rfl⟩

theorem group_deleted_of_found {g : ReplacementGroup}
    (hseg : (Segment.replacement g).Found) {l : Nat} :
    l ∈ g.deleted ↔ g.startLine ≤ l ∧ l ≤ g.endLine := by
  obtain ⟨es, hg⟩ := hseg
  obtain ⟨-, -, -, -, -, -, -, -, -, hrange, -, hend⟩ := findReplacementGroup_spec hg
  rw [hrange, List.mem_range'_1]
  omega

theorem isDeleted_of_group {edits : List Edit} {g : ReplacementGroup}
    (hg : .replacement g ∈ segments edits) {l : Nat} (h1 : g.startLine ≤ l) (h2 : l ≤ g.endLine) :
    isDeleted edits l = true := by
  have hl := (group_deleted_of_found (found_of_mem_segments hg)).mpr ⟨h1, h2⟩
  have hsub := members_subset_of_mem_segments hg
  obtain ⟨es, hfind⟩ := found_of_mem_segments hg
  obtain ⟨inserts, deletes, -, hmembers, -, hdeleted, -⟩ := findReplacementGroup_spec hfind
  rw [hdeleted, List.mem_filterMap] at hl
  obtain ⟨e, he, hel⟩ := hl
  exact isDeleted_iff.mpr ⟨e, hsub (by simp [Segment.members, hmembers, he]), hel⟩

theorem mem_targets_of_isDeleted {edits : List Edit} {l : Nat} (h : isDeleted edits l = true) :
    l ∈ collectAnchorTargetLines edits := by
  obtain ⟨e, he, hl⟩ := isDeleted_iff.mp h
  exact List.mem_filterMap.mpr ⟨e, he, Edit.targetLine?_of_deletedLine? hl⟩

theorem isDeleted_inRange {edits : List Edit} {fileLines : List String}
    (h : AnchorsInRange edits fileLines) {l : Nat} (hl : isDeleted edits l = true) :
    1 ≤ l ∧ l ≤ fileLines.length := by
  obtain ⟨e, he, hel⟩ := isDeleted_iff.mp hl
  cases e with
  | insert c t n i => cases hel
  | delete a n i =>
    cases hel
    exact h _ he a rfl

theorem group_inRange {edits : List Edit} {fileLines : List String}
    (h : AnchorsInRange edits fileLines) {g : ReplacementGroup}
    (hg : .replacement g ∈ segments edits) :
    1 ≤ g.startLine ∧ g.startLine ≤ g.endLine ∧ g.endLine ≤ fileLines.length := by
  obtain ⟨es, hfind⟩ := found_of_mem_segments hg
  obtain ⟨-, -, -, -, -, -, -, -, -, -, hle, -⟩ := findReplacementGroup_spec hfind
  have h1 := isDeleted_inRange h (isDeleted_of_group hg le_rfl hle)
  have h2 := isDeleted_inRange h (isDeleted_of_group hg hle le_rfl)
  omega

theorem landing?_inRange {fileLines : List String} {c : Cursor} {l : Nat}
    (hc : ∀ a, c.anchor? = some a → 1 ≤ a.line ∧ a.line ≤ fileLines.length)
    (h : c.landing? fileLines = some l) : 1 ≤ l ∧ l ≤ fileLines.length := by
  cases c with
  | bof => cases h
  | eof => cases h
  | beforeAnchor a =>
    cases h
    exact hc a rfl
  | afterAnchor a =>
    simp only [Cursor.landing?, Cursor.normalize] at h
    split at h
    · cases h
    · cases h
      dsimp only
      omega

theorem segment_deletes_inRange {edits : List Edit} {fileLines : List String}
    (h : AnchorsInRange edits fileLines) {seg : Segment} (hseg : seg ∈ segments edits) {l : Nat}
    (hl : seg.deletes fileLines (collectAnchorTargetLines edits) l = true) :
    1 ≤ l ∧ l ≤ fileLines.length := by
  cases seg with
  | pureInsert g => cases hl
  | single e =>
    have he : e ∈ edits := members_subset_of_mem_segments hseg (by simp [Segment.members])
    exact isDeleted_inRange h (isDeleted_iff.mpr ⟨e, he, by simpa [Segment.deletes] using hl⟩)
  | replacement g =>
    have hrange := group_inRange h hseg
    have habove := (safePrefixCount_repeats fileLines (collectAnchorTargetLines edits) g).lt_start
    have hbelow := (safeSuffixCount_repeats fileLines (collectAnchorTargetLines edits) g).le_file
    simp only [Segment.deletes, Bool.and_eq_true, decide_eq_true_eq] at hl
    omega

theorem bucketsInRange_absorb {edits : List Edit} {fileLines : List String} (options : ApplyOptions)
    (h : AnchorsInRange edits fileLines) :
    BucketsInRange ((absorbReplacementBoundaryDuplicates edits fileLines options).1.map
      (Edit.normalize fileLines))
      fileLines := by
  intro e he hanchor
  obtain ⟨f, hf, rfl⟩ := List.mem_map.mp he
  cases f with
  | delete a n i =>
    have hdel : isDeleted (absorbReplacementBoundaryDuplicates edits fileLines options).1
        a.line = true :=
      isDeleted_iff.mpr ⟨_, hf, rfl⟩
    rw [isDeleted_absorb, List.any_eq_true] at hdel
    obtain ⟨seg, hseg, hl⟩ := hdel
    exact segment_deletes_inRange h hseg hl
  | insert c t n i =>
    have hmem : (c, t) ∈ (absorbReplacementBoundaryDuplicates edits fileLines options).1.filterMap
        Edit.inserted? :=
      List.mem_filterMap.mpr ⟨_, hf, rfl⟩
    rw [inserted_absorb, List.mem_flatMap] at hmem
    obtain ⟨seg, hseg, hct⟩ := hmem
    obtain ⟨e, he, t', n', i', rfl⟩ := exists_member_of_mem_inserted (found_of_mem_segments hseg) hct
    have hrange := h _ (members_subset_of_mem_segments hseg he)
    cases hn : c.normalize fileLines with
    | beforeAnchor a =>
      have hland : c.landing? fileLines = some a.line := by rw [Cursor.landing?, hn]; rfl
      simpa [Edit.normalize, hn, Edit.bucketLine] using landing?_inRange hrange hland
    | bof => simp [Edit.normalize, hn, Edit.isAnchorEdit, Edit.bofText?] at hanchor
    | eof => simp [Edit.normalize, hn, Edit.isAnchorEdit, Edit.eofText?] at hanchor
    | afterAnchor a =>
      cases c <;> simp only [Cursor.normalize, reduceCtorEq] at hn
      split at hn <;> cases hn

end JevCode.Hashline
