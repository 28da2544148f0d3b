import JevCode.Hashline.AbsorbLaws
import JevCode.Hashline.Ops

namespace JevCode.Hashline

open JevCode.Text

def Op.anchors (op : Op) : List Anchor :=
  (if op.payload = [] then [] else op.cursor.anchor?.toList) ++ op.deleted

def Op.deletedLines (op : Op) : List Nat := op.deleted.map Anchor.line

theorem expandRange_lines (range : ParsedRange) :
    (expandRange range).map Anchor.line = List.range' range.start.line
    (range.stop.line + 1 - range.start.line) := by
  simp [expandRange, Function.comp_def]

section

variable {op : Op} {lineNum editIndex : Nat}

theorem inserted?_edits (op : Op) (lineNum editIndex : Nat) :
    (op.edits lineNum editIndex).filterMap Edit.inserted? = op.payload.map (op.cursor, ·) := by
  have hdel : (op.deleted.mapIdx fun k anchor =>
      Edit.delete anchor lineNum (editIndex + op.payload.length + k)).filterMap
        Edit.inserted? = [] := by
    rw [List.filterMap_eq_nil_iff]
    intro e he
    obtain ⟨i, hi, rfl⟩ := List.mem_mapIdx.mp he
    rfl
  rw [Op.edits, List.filterMap_append, filterMap_inserted?_mapIdx, hdel, List.append_nil]

theorem deletedLine?_edits {l : Nat} :
    (∃ e ∈ op.edits lineNum editIndex, e.deletedLine? = some l) ↔ l ∈ op.deletedLines := by
  simp only [Op.edits, Op.deletedLines, List.mem_append, List.mem_mapIdx, List.mem_map]
  constructor
  · rintro ⟨e, ⟨i, hi, rfl⟩ | ⟨i, hi, rfl⟩, he⟩
    · cases he
    · exact ⟨_, List.getElem_mem hi, by simpa [Edit.deletedLine?] using he⟩
  · rintro ⟨a, ha, rfl⟩
    obtain ⟨i, hi, rfl⟩ := List.mem_iff_getElem.mp ha
    exact ⟨_, .inr ⟨i, hi, rfl⟩, rfl⟩

theorem anchor?_edits {a : Anchor} :
    (∃ e ∈ op.edits lineNum editIndex, e.anchor? = some a) ↔ a ∈ op.anchors := by
  simp only [Op.edits, Op.anchors, List.mem_append, List.mem_mapIdx]
  constructor
  · rintro ⟨e, ⟨i, hi, rfl⟩ | ⟨i, hi, rfl⟩, he⟩
    · have hne : op.payload ≠ [] := List.ne_nil_of_length_pos (by omega)
      exact .inl (by simpa [hne, Edit.anchor?] using he)
    · cases he
      exact .inr (List.getElem_mem hi)
  · rintro (ha | ha)
    · split at ha
      · cases ha
      · rename_i hne
        obtain ⟨t, ts, hts⟩ := List.exists_cons_of_ne_nil hne
        exact ⟨_, .inl ⟨0, by simp [hts], rfl⟩, by simpa [Edit.anchor?] using ha⟩
    · obtain ⟨i, hi, rfl⟩ := List.mem_iff_getElem.mp ha
      exact ⟨_, .inr ⟨i, hi, rfl⟩, rfl⟩

end

theorem exists_mem_pushOps {P : Edit → Prop} {Q : Op → Prop}
    (h : ∀ op lineNum editIndex, (∃ e ∈ op.edits lineNum editIndex, P e) ↔ Q op) (editIndex : Nat)
    (ops : List (Nat × Op)) : (∃ e ∈ pushOps editIndex ops, P e) ↔ ∃ p ∈ ops, Q p.2 := by
  induction ops generalizing editIndex with
  | nil => simp [pushOps]
  | cons p ops ih =>
    simp only [pushOps, List.mem_append, or_and_right, exists_or, h, ih, List.mem_cons,
      exists_eq_left]

theorem map_snd_numberOps (lineNum : Nat) (ops : List Op) :
    (numberOps lineNum ops).map Prod.snd = ops := by
  induction ops generalizing lineNum with
  | nil => rfl
  | cons op ops ih => rw [numberOps, List.map_cons, ih]

theorem exists_mem_opEdits {P : Edit → Prop} {Q : Op → Prop}
    (h : ∀ op lineNum editIndex, (∃ e ∈ op.edits lineNum editIndex, P e) ↔ Q op) (ops : List Op) :
    (∃ e ∈ opEdits ops, P e) ↔ ∃ op ∈ ops, Q op := by
  rw [opEdits, exists_mem_pushOps h]
  conv_rhs => rw [← map_snd_numberOps 1 ops]
  simp only [List.mem_map]
  constructor
  · rintro ⟨p, hp, hq⟩
    exact ⟨p.2, ⟨p, hp, rfl⟩, hq⟩
  · rintro ⟨_, ⟨p, hp, rfl⟩, hq⟩
    exact ⟨p, hp, hq⟩

theorem inserted?_opEdits (ops : List Op) :
    (opEdits ops).filterMap Edit.inserted? = ops.flatMap fun op => op.payload.map
    (op.cursor, ·) := by
  have h : ∀ editIndex lops, (pushOps editIndex lops).filterMap Edit.inserted? =
      (lops.map Prod.snd).flatMap fun op => op.payload.map (op.cursor, ·) := by
    intro editIndex lops
    induction lops generalizing editIndex with
    | nil => rfl
    | cons p lops ih =>
      rw [pushOps, List.filterMap_append, inserted?_edits, ih, List.map_cons, List.flatMap_cons]
  rw [opEdits, h, map_snd_numberOps]

theorem isDeleted_opEdits (ops : List Op) (l : Nat) :
    isDeleted (opEdits ops) l = true ↔ ∃ op ∈ ops, l ∈ op.deletedLines := by
  rw [isDeleted_iff, exists_mem_opEdits fun _ _ _ => deletedLine?_edits]

theorem validate_opEdits_iff {ops : List Op} {fileLines : List String} :
    validateHashlineAnchors (opEdits ops) fileLines = .ok [] ↔
      ∀ op ∈ ops, ∀ a ∈ op.anchors, checkAnchor fileLines a = .ok [] := by
  rw [validateHashlineAnchors_eq_ok_nil]
  have h : ∀ a, (∃ e ∈ opEdits ops, e.anchor? = some a) ↔ ∃ op ∈ ops, a ∈ op.anchors := fun a =>
    exists_mem_opEdits (fun _ _ _ => anchor?_edits) ops
  constructor
  · intro hall op hop a ha
    obtain ⟨e, he, hea⟩ := (h a).mpr ⟨op, hop, ha⟩
    exact hall e he a hea
  · intro hall e he a hea
    obtain ⟨op, hop, ha⟩ := (h a).mp ⟨e, he, hea⟩
    exact hall op hop a ha

theorem mem_targets_opEdits {ops : List Op} {l : Nat} :
    l ∈ collectAnchorTargetLines (opEdits ops) ↔ ∃ op ∈ ops, ∃ a ∈ op.anchors, a.line = l := by
  have h : ∀ a, (∃ e ∈ opEdits ops, e.anchor? = some a) ↔ ∃ op ∈ ops, a ∈ op.anchors := fun a =>
    exists_mem_opEdits (fun _ _ _ => anchor?_edits) ops
  simp only [collectAnchorTargetLines, List.mem_filterMap, Edit.targetLine?, Option.map_eq_some_iff]
  constructor
  · rintro ⟨e, he, a, hea, rfl⟩
    obtain ⟨op, hop, ha⟩ := (h a).mp ⟨e, he, hea⟩
    exact ⟨op, hop, a, ha, rfl⟩
  · rintro ⟨op, hop, a, ha, rfl⟩
    obtain ⟨e, he, hea⟩ := (h a).mpr ⟨op, hop, ha⟩
    exact ⟨e, he, a, hea, rfl⟩

/-- The segments of an op whose edits stand in front of `rest`. -/
def Op.segments (op : Op) (lineNum editIndex : Nat) (rest : List Edit) : List Segment :=
  match op with
  | .insert cursor first more =>
    [.pureInsert ⟨lineNum, cursor, first :: more, op.edits lineNum editIndex, rest⟩]
  | .replace _ [] => (op.edits lineNum editIndex).map .single
  | .replace range (first :: more) => [.replacement
      ⟨lineNum, first :: more, range.start.line, range.stop.line, op.deletedLines,
      op.edits lineNum editIndex, rest⟩]

section

variable {lineNum editIndex : Nat} {rest : List Edit}

theorem isGroupDelete_lineNum {e : Edit} (h : isGroupDelete lineNum e = true) :
    e.lineNum = lineNum := by
  obtain ⟨a, i, rfl⟩ := Edit.delete_of_isGroupDelete h
  rfl

theorem isGroupInsert_lineNum {e : Edit} (h : isGroupInsert lineNum e = true) :
    e.lineNum = lineNum := by
  obtain ⟨a, t, i, rfl⟩ := Edit.insert_of_isGroupInsert h
  rfl

theorem isPureInsert_lineNum {c : Cursor} {e : Edit} (h : isPureInsert lineNum c e = true) :
    e.lineNum = lineNum := by
  obtain ⟨t, i, rfl⟩ := Edit.insert_of_isPureInsert h
  rfl

theorem takeWhile_append_of_head (p : Edit → Bool) (xs ys : List Edit) (hxs : ∀ e ∈ xs, p e = true)
    (hys : ∀ e ∈ ys.head?, p e = false) :
    (xs ++ ys).takeWhile p = xs ∧ (xs ++ ys).dropWhile p = ys := by
  rw [List.takeWhile_append_of_pos hxs, List.dropWhile_append_of_pos hxs]
  cases ys with
  | nil => simp
  | cons y ys =>
    have hy := hys y rfl
    simp [hy]

theorem head?_isGroupDelete_eq_false (hrest : ∀ e ∈ rest, e.lineNum ≠ lineNum) :
    ∀ e ∈ rest.head?, isGroupDelete lineNum e = false := by
  intro e he
  rw [Bool.eq_false_iff]
  exact fun h => hrest e (List.mem_of_mem_head? he) (isGroupDelete_lineNum h)

theorem edits_insert (cursor : Cursor) (first : String) (more : List String) :
    (Op.insert cursor first more).edits lineNum editIndex =
      (first :: more).mapIdx fun k text => .insert cursor text lineNum (editIndex + k) := by
  simp [Op.edits, Op.payload, Op.deleted, Op.cursor]

theorem findReplacementGroup_insert (editIndex : Nat) (cursor : Cursor) (first : String)
    (more : List String) (hrest : ∀ e ∈ rest, e.lineNum ≠ lineNum) :
    findReplacementGroup ((Op.insert cursor first more).edits lineNum editIndex ++ rest) = none := by
  cases cursor with
  | beforeAnchor a =>
    have hsplit := takeWhile_append_of_head (isGroupInsert lineNum)
      ((Op.insert (.beforeAnchor a) first more).edits lineNum editIndex) rest (fun e he => by
        rw [edits_insert] at he
        obtain ⟨i, hi, rfl⟩ := List.mem_mapIdx.mp he
        simp [isGroupInsert]) fun e he => by
        rw [Bool.eq_false_iff]
        exact fun h => hrest e (List.mem_of_mem_head? he) (isGroupInsert_lineNum h)
    have hdel := takeWhile_append_of_head (isGroupDelete lineNum) [] rest (by simp)
      (head?_isGroupDelete_eq_false hrest)
    rw [List.nil_append] at hdel
    rw [edits_insert, List.mapIdx_cons, List.cons_append] at hsplit ⊢
    simp only [findReplacementGroup, hsplit.2, hdel.1, List.filterMap_nil]
  | _ =>
    rw [edits_insert, List.mapIdx_cons, List.cons_append]
    rfl

theorem findPureInsertGroup_insert (editIndex : Nat) (cursor : Cursor) (first : String)
    (more : List String) (hrest : ∀ e ∈ rest, e.lineNum ≠ lineNum) :
    findPureInsertGroup ((Op.insert cursor first more).edits lineNum editIndex ++ rest) =
      some ⟨lineNum, cursor, first :: more,
        (Op.insert cursor first more).edits lineNum editIndex, rest⟩ := by
  have hsplit := takeWhile_append_of_head (isPureInsert lineNum cursor)
    ((Op.insert cursor first more).edits lineNum editIndex) rest (fun e he => by
      rw [edits_insert] at he
      obtain ⟨i, hi, rfl⟩ := List.mem_mapIdx.mp he
      simp [isPureInsert]) fun e he => by
      rw [Bool.eq_false_iff]
      exact fun h => hrest e (List.mem_of_mem_head? he) (isPureInsert_lineNum h)
  have hhead : rest.head?.any (isGroupDelete lineNum) = false := by
    cases h : rest.head? with
    | none => rfl
    | some e => exact head?_isGroupDelete_eq_false hrest e h
  have htexts : ((Op.insert cursor first more).edits lineNum editIndex).filterMap Edit.text? =
      first :: more := by
    rw [filterMap_text?_eq, inserted?_edits, List.map_map]
    simp [Op.payload, Function.comp_def]
  have hcons : (Op.insert cursor first more).edits lineNum editIndex =
      .insert cursor first lineNum editIndex ::
      more.mapIdx fun k text => .insert cursor text lineNum (editIndex + (k + 1)) := by
    rw [edits_insert, List.mapIdx_cons]
    rfl
  rw [hcons, List.cons_append] at hsplit ⊢
  simp only [findPureInsertGroup, hsplit.1, hsplit.2, hhead]
  rw [← hcons, htexts]
  rfl

def Op.insertEdits (op : Op) (lineNum editIndex : Nat) : List Edit :=
  op.payload.mapIdx fun k text => .insert op.cursor text lineNum (editIndex + k)

def Op.deleteEdits (op : Op) (lineNum editIndex : Nat) : List Edit :=
  op.deleted.mapIdx fun k anchor => .delete anchor lineNum (editIndex + op.payload.length + k)

theorem isGroupDelete_of_mem_deleteEdits {op : Op} {e : Edit}
    (h : e ∈ op.deleteEdits lineNum editIndex) :
    isGroupDelete lineNum e = true := by
  obtain ⟨i, hi, rfl⟩ := List.mem_mapIdx.mp h
  simp [isGroupDelete]

theorem deletedLine?_deleteEdits (op : Op) :
    (op.deleteEdits lineNum editIndex).filterMap Edit.deletedLine? = op.deletedLines := by
  have hmap : (op.deleteEdits lineNum editIndex).map Edit.deletedLine? =
      op.deletedLines.map some := by
    apply List.ext_getElem
    · simp [Op.deleteEdits, Op.deletedLines]
    · intro i h1 h2
      simp [Op.deleteEdits, Op.deletedLines, Edit.deletedLine?]
  calc (op.deleteEdits lineNum editIndex).filterMap Edit.deletedLine?
      = ((op.deleteEdits lineNum editIndex).map Edit.deletedLine?).filterMap id := by
        rw [List.filterMap_map]
        rfl
    _ = op.deletedLines := by
        rw [hmap, List.filterMap_map]
        exact List.filterMap_some

theorem findReplacementGroup_replace (editIndex : Nat) (range : ParsedRange) (first : String)
    (more : List String) (hrest : ∀ e ∈ rest, e.lineNum ≠ lineNum) :
    findReplacementGroup ((Op.replace range (first :: more)).edits lineNum editIndex ++ rest) =
      some ⟨lineNum, first :: more, range.start.line, range.stop.line,
        (Op.replace range (first :: more)).deletedLines,
        (Op.replace range (first :: more)).edits lineNum editIndex, rest⟩ := by
  set op := Op.replace range (first :: more) with hop
  have hedits : op.edits lineNum editIndex = op.insertEdits lineNum editIndex ++
      op.deleteEdits lineNum editIndex := rfl
  have hlines : op.deletedLines =
      List.range' range.start.line (range.stop.line + 1 - range.start.line) :=
    expandRange_lines range
  have hle := range.le
  have hins := takeWhile_append_of_head (isGroupInsert lineNum) (op.insertEdits lineNum editIndex)
    (op.deleteEdits lineNum editIndex ++ rest) (fun e he => by
      obtain ⟨i, hi, rfl⟩ := List.mem_mapIdx.mp he
      simp [isGroupInsert, hop, Op.cursor]) fun e he => by
      obtain ⟨a, as, has⟩ := List.exists_cons_of_ne_nil (expandRange_ne_nil range)
      simp only [Op.deleteEdits, hop, Op.deleted, has, List.mapIdx_cons, List.cons_append,
        List.head?_cons, Option.mem_some_iff] at he
      rw [← he]
      rfl
  have hdel := takeWhile_append_of_head (isGroupDelete lineNum) (op.deleteEdits lineNum editIndex)
    rest (fun e he => isGroupDelete_of_mem_deleteEdits he) (head?_isGroupDelete_eq_false hrest)
  have htexts : (op.insertEdits lineNum editIndex).filterMap Edit.text? = first :: more := by
    rw [filterMap_text?_eq, Op.insertEdits, filterMap_inserted?_mapIdx, List.map_map]
    simp [hop, Op.payload, Function.comp_def]
  have hcons : op.insertEdits lineNum editIndex =
      .insert (.beforeAnchor range.start) first lineNum editIndex ::
      more.mapIdx fun k text =>
      .insert (.beforeAnchor range.start) text lineNum (editIndex + (k + 1)) := by
    simp [Op.insertEdits, hop, Op.payload, Op.cursor]
  have hlen : range.stop.line + 1 - range.start.line = (range.stop.line - range.start.line) + 1 := by
    omega
  rw [hlen, List.range'_succ] at hlines
  rw [hedits, List.append_assoc]
  rw [hcons, List.cons_append] at hins ⊢
  simp only [findReplacementGroup, hins.1, hins.2, hdel.1, hdel.2, deletedLine?_deleteEdits,
    ← hcons, htexts]
  rw [hlines]
  simp [List.range'_succ]
  omega

theorem segments_deletes_append (deletes : List Edit)
    (h : ∀ e ∈ deletes, isGroupDelete lineNum e = true) :
    segments (deletes ++ rest) = deletes.map .single ++ segments rest := by
  induction deletes with
  | nil => rfl
  | cons e deletes ih =>
    obtain ⟨a, i, rfl⟩ := Edit.delete_of_isGroupDelete (h e (by simp))
    have hnext : ∀ es, nextSegment (.delete a lineNum i) es = (.single (.delete a lineNum i), es) :=
      fun _ => rfl
    rw [List.cons_append, segments, hnext, ih fun e he => h e (by simp [he])]
    rfl

theorem segments_edits_append (op : Op) (hrest : ∀ e ∈ rest, e.lineNum ≠ lineNum) :
    segments (op.edits lineNum editIndex ++ rest) = op.segments lineNum editIndex rest ++
      segments rest := by
  match op with
  | .insert cursor first more =>
    have hrep := findReplacementGroup_insert editIndex cursor first more hrest
    have hpure := findPureInsertGroup_insert editIndex cursor first more hrest
    rw [edits_insert, List.mapIdx_cons, List.cons_append] at hrep hpure ⊢
    simp only [segments, nextSegment, hrep, hpure, Op.segments, List.singleton_append, edits_insert,
      List.mapIdx_cons]
  | .replace range [] =>
    have hdel : ∀ e ∈ (Op.replace range []).edits lineNum editIndex,
        isGroupDelete lineNum e = true := by
      intro e he
      exact isGroupDelete_of_mem_deleteEdits
        (show e ∈ (Op.replace range []).deleteEdits lineNum editIndex from he)
    exact segments_deletes_append _ hdel
  | .replace range (first :: more) =>
    have hrep := findReplacementGroup_replace editIndex range first more hrest
    have hcons : (Op.replace range (first :: more)).edits lineNum editIndex ≠ [] := by
      simp [Op.edits, Op.payload]
    obtain ⟨e, es, hes⟩ := List.exists_cons_of_ne_nil hcons
    rw [hes, List.cons_append] at hrep ⊢
    simp only [segments, nextSegment, hrep, Op.segments, List.singleton_append, hes]

end

def Segment.absorbsNothing (fileLines : List String) (allTargetLines : List Nat)
    (options : ApplyOptions) :
    Segment → Bool
  | .replacement g =>
    safePrefixCount fileLines allTargetLines g == 0 &&
      safeSuffixCount fileLines allTargetLines g == 0
  | .pureInsert g =>
    let result := tryAbsorbPureInsertGroup g fileLines options.autoDropPureInsertDuplicates
    result.absorbedLeading == 0 && result.absorbedTrailing == 0
  | .single _ => true

/-- No segment of the batch widens its deletion or drops a line of its payload. -/
def triggersNoAbsorption (edits : List Edit) (fileLines : List String)
    (options : ApplyOptions) : Bool :=
  (segments edits).all (Segment.absorbsNothing fileLines (collectAnchorTargetLines edits) options)

section

variable {fileLines : List String} {options : ApplyOptions}

theorem absorbSegment_of_absorbsNothing {allTargetLines : List Nat} (st : AbsorbState)
    {seg : Segment} (h : seg.absorbsNothing fileLines allTargetLines options = true) :
    (absorbSegment fileLines allTargetLines options st seg).1 = seg.members := by
  cases seg with
  | single e => rfl
  | replacement g =>
    simp only [Segment.absorbsNothing, Bool.and_eq_true, beq_iff_eq] at h
    simp [absorbSegment, absorbReplacement, h.1, h.2, deleteEditsForAutoAbsorbedLines,
      Segment.members]
  | pureInsert g =>
    simp only [Segment.absorbsNothing, Bool.and_eq_true, beq_iff_eq] at h
    simp [absorbSegment, absorbPureInsert, h.1, h.2, Segment.members]

theorem absorbSegments_of_absorbsNothing {allTargetLines : List Nat} (st : AbsorbState)
    {segs : List Segment}
    (h : ∀ seg ∈ segs, seg.absorbsNothing fileLines allTargetLines options = true) :
    (absorbSegments fileLines allTargetLines options st segs).1 = segs.flatMap Segment.members := by
  induction segs generalizing st with
  | nil => rfl
  | cons seg segs ih =>
    simp only [absorbSegments, List.flatMap_cons,
      absorbSegment_of_absorbsNothing st (h seg (by simp)), ih _ fun s hs => h s (by simp [hs])]

theorem absorb_eq_self {edits : List Edit}
    (h : triggersNoAbsorption edits fileLines options = true) :
    (absorbReplacementBoundaryDuplicates edits fileLines options).1 = edits := by
  have hsegs := absorbSegments_of_absorbsNothing ⟨edits.length, [], []⟩ (List.all_eq_true.mp h)
  rw [segments_members] at hsegs
  exact hsegs

theorem Segment.absorbsNothing_congr {targets targets' : List Nat}
    (h : ∀ l, l ∈ targets ↔ l ∈ targets') (seg : Segment) :
    seg.absorbsNothing fileLines targets options =
      seg.absorbsNothing fileLines targets' options := by
  have hext : ∀ lines, hasExternalTargets lines targets = hasExternalTargets lines targets' := by
    intro lines
    simp only [hasExternalTargets, h]
  cases seg with
  | replacement g => simp only [Segment.absorbsNothing, safePrefixCount, safeSuffixCount, hext]
  | _ => rfl

def Op.absorbsNothing (fileLines : List String) (allTargetLines : List Nat) (options : ApplyOptions)
    (op : Op) : Bool :=
  (op.segments 0 0 []).all (Segment.absorbsNothing fileLines allTargetLines options)

theorem Op.all_segments_absorbsNothing {targets : List Nat} (op : Op) (lineNum editIndex : Nat)
    (rest : List Edit) :
    (op.segments lineNum editIndex rest).all (Segment.absorbsNothing fileLines targets options) =
      op.absorbsNothing fileLines targets options := by
  match op with
  | .insert _ _ _ => rfl
  | .replace range [] =>
    have hsingle : ∀ edits : List Edit,
        (edits.map Segment.single).all (Segment.absorbsNothing fileLines targets options) =
        true := by
      intro edits
      simp [List.all_eq_true, Segment.absorbsNothing]
    exact (hsingle _).trans (hsingle _).symm
  | .replace _ (_ :: _) => rfl

theorem le_lineNum_of_mem_numberOps {lineNum : Nat} {ops : List Op} {p : Nat × Op}
    (h : p ∈ numberOps lineNum ops) :
    lineNum ≤ p.1 := by
  induction ops generalizing lineNum with
  | nil => cases h
  | cons op ops ih =>
    rcases List.mem_cons.mp h with rfl | h
    · exact le_rfl
    · have := ih h
      omega

theorem lineNum_of_mem_pushOps {editIndex : Nat} {lops : List (Nat × Op)} {e : Edit}
    (h : e ∈ pushOps editIndex lops) :
    ∃ p ∈ lops, e.lineNum = p.1 := by
  induction lops generalizing editIndex with
  | nil => cases h
  | cons p lops ih =>
    rcases List.mem_append.mp h with h | h
    · exact ⟨p, by simp, lineNum_of_mem_edits h⟩
    · obtain ⟨q, hq, hline⟩ := ih h
      exact ⟨q, by simp [hq], hline⟩

theorem all_segments_pushOps (targets : List Nat) (editIndex lineNum : Nat) (ops : List Op) :
    (segments (pushOps editIndex (numberOps lineNum ops))).all
    (Segment.absorbsNothing fileLines targets options) =
      ops.all (Op.absorbsNothing fileLines targets options) := by
  induction ops generalizing editIndex lineNum with
  | nil => simp [numberOps, pushOps, segments]
  | cons op ops ih =>
    rw [numberOps, pushOps, segments_edits_append op, List.all_append,
      Op.all_segments_absorbsNothing, ih, List.all_cons]
    intro e he
    obtain ⟨p, hp, hline⟩ := lineNum_of_mem_pushOps he
    have := le_lineNum_of_mem_numberOps hp
    omega

theorem triggersNoAbsorption_opEdits (ops : List Op) :
    triggersNoAbsorption (opEdits ops) fileLines options =
      ops.all (Op.absorbsNothing fileLines (collectAnchorTargetLines (opEdits ops)) options) :=
  all_segments_pushOps ..

theorem triggersNoAbsorption_perm {ops ops' : List Op} (h : ops'.Perm ops) :
    triggersNoAbsorption (opEdits ops') fileLines options =
      triggersNoAbsorption (opEdits ops) fileLines options := by
  have htargets : ∀ l, l ∈ collectAnchorTargetLines (opEdits ops') ↔
      l ∈ collectAnchorTargetLines (opEdits ops) := by
    intro l
    simp only [mem_targets_opEdits, h.mem_iff]
  have hop : ∀ op, Op.absorbsNothing fileLines (collectAnchorTargetLines (opEdits ops')) options op =
      Op.absorbsNothing fileLines (collectAnchorTargetLines (opEdits ops)) options op := by
    intro op
    simp only [Op.absorbsNothing, funext (Segment.absorbsNothing_congr htargets)]
  rw [triggersNoAbsorption_opEdits, triggersNoAbsorption_opEdits, Bool.eq_iff_iff]
  simp only [List.all_eq_true, h.mem_iff, hop]

end

end JevCode.Hashline
