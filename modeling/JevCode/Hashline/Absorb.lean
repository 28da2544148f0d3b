import JevCode.Hashline.Groups

namespace JevCode.Hashline

inductive Segment
  | replacement (group : ReplacementGroup)
  | pureInsert (group : PureInsertGroup)
  | single (edit : Edit)
  deriving DecidableEq

def Segment.members : Segment → List Edit
  | .replacement g => g.members
  | .pureInsert g => g.members
  | .single e => [e]

def nextSegment (e : Edit) (es : List Edit) : Segment × List Edit :=
  match findReplacementGroup (e :: es) with
  | some g => (.replacement g, g.rest)
  | none =>
    match findPureInsertGroup (e :: es) with
    | some g => (.pureInsert g, g.rest)
    | none => (.single e, es)

theorem findReplacementGroup_spec {edits : List Edit} {g : ReplacementGroup}
    (h : findReplacementGroup edits = some g) :
    ∃ inserts deletes,
      edits = inserts ++ deletes ++ g.rest ∧
      g.members = inserts ++ deletes ∧
      g.replacement = inserts.filterMap Edit.text? ∧
      g.deleted = deletes.filterMap Edit.deletedLine? ∧
      (∀ e ∈ inserts, isGroupInsert g.sourceLineNum e) ∧
      (∀ e ∈ deletes, isGroupDelete g.sourceLineNum e) ∧
      (∃ a t i es, inserts = .insert (.beforeAnchor a) t g.sourceLineNum i :: es ∧
        a.line = g.startLine) ∧
      g.deleted = List.range' g.startLine g.deleted.length ∧
      g.startLine ≤ g.endLine ∧ g.startLine + g.deleted.length = g.endLine + 1 := by
  unfold findReplacementGroup at h
  split at h
  case h_2 => cases h
  case h_1 a t n i es =>
  dsimp only at h
  split at h
  · cases h
  rename_i startLine ds hd
  split at h
  · cases h
  rename_i hrange
  split at h
  · cases h
  rename_i hfirst
  cases h
  refine ⟨_, _, ?_, rfl, rfl, rfl, ?_, ?_, ?_, ?_, ?_, ?_⟩
  · simp [List.takeWhile_append_dropWhile]
  · exact fun e he => List.mem_takeWhile_imp he
  · exact fun e he => List.mem_takeWhile_imp he
  · exact ⟨a, t, i, es.takeWhile (isGroupInsert n), by simp [isGroupInsert], by simpa using hfirst⟩
  · simpa using hrange
  · rw [hd]
    simp
  · rw [hd]
    simp only [List.length_cons]
    omega

theorem findReplacementGroup_members {edits : List Edit} {g : ReplacementGroup}
    (h : findReplacementGroup edits = some g) : g.members ++ g.rest = edits := by
  obtain ⟨inserts, deletes, hedits, hmembers, -⟩ := findReplacementGroup_spec h
  rw [hmembers, hedits]

theorem findPureInsertGroup_spec {edits : List Edit} {g : PureInsertGroup}
    (h : findPureInsertGroup edits = some g) :
    edits = g.members ++ g.rest ∧ g.payload = g.members.filterMap Edit.text? ∧
      (∀ e ∈ g.members, isPureInsert g.sourceLineNum g.cursor e) ∧ g.members ≠ [] := by
  unfold findPureInsertGroup at h
  split at h
  case h_2 => cases h
  case h_1 c t n i es =>
  dsimp only at h
  split at h
  · cases h
  cases h
  refine ⟨List.takeWhile_append_dropWhile.symm, rfl, fun e he => List.mem_takeWhile_imp he, ?_⟩
  simp [isPureInsert]

theorem nextSegment_members (e : Edit) (es : List Edit) :
    (nextSegment e es).1.members ++ (nextSegment e es).2 = e :: es := by
  unfold nextSegment
  split
  · rename_i g h
    exact findReplacementGroup_members h
  · split
    · rename_i g h
      exact (findPureInsertGroup_spec h).1.symm
    · rfl

theorem nextSegment_members_ne_nil (e : Edit) (es : List Edit) :
    (nextSegment e es).1.members ≠ [] := by
  unfold nextSegment
  split
  · rename_i g h
    obtain ⟨inserts, deletes, -, hmembers, -, -, -, -, ⟨a, t, i, es', rfl, -⟩, -⟩ :=
      findReplacementGroup_spec h
    simp [Segment.members, hmembers]
  · split
    · rename_i g h
      exact (findPureInsertGroup_spec h).2.2.2
    · simp [Segment.members]

theorem nextSegment_length_lt (e : Edit) (es : List Edit) :
    (nextSegment e es).2.length < (e :: es).length := by
  have h := congrArg List.length (nextSegment_members e es)
  have := List.length_pos_of_ne_nil (nextSegment_members_ne_nil e es)
  simp only [List.length_append] at h
  omega

def segments : List Edit → List Segment
  | [] => []
  | e :: es => (nextSegment e es).1 :: segments (nextSegment e es).2
termination_by edits => edits.length
decreasing_by exact nextSegment_length_lt e es

theorem segments_members (edits : List Edit) : (segments edits).flatMap Segment.members = edits := by
  induction edits using segments.induct with
  | case1 => simp [segments]
  | case2 e es ih =>
    rw [segments, List.flatMap_cons, ih, nextSegment_members]

structure AbsorbState where
  nextSyntheticIndex : Nat
  warnings : List String
  emittedAbsorbKeys : List String
  deriving DecidableEq

def AbsorbState.warn (st : AbsorbState) (key warning : String) : AbsorbState :=
  if key ∈ st.emittedAbsorbKeys then st
  else { st with
    warnings := st.warnings ++ [warning], emittedAbsorbKeys := key :: st.emittedAbsorbKeys }

def AbsorbState.warnIf (st : AbsorbState) (count : Nat) (key warning : String) : AbsorbState :=
  if 0 < count then st.warn key warning else st

def collectAnchorTargetLines (edits : List Edit) : List Nat := edits.filterMap Edit.targetLine?

def hasExternalTargets (lines externalTargetLines : List Nat) : Bool :=
  lines.any (· ∈ externalTargetLines)

def deletedBalance (fileLines : List String) (g : ReplacementGroup) : DelimiterBalance :=
  computeDelimiterBalance (g.deleted.map fun line => fileLines.getD (line - 1) "")

def prefixCount (fileLines : List String) (g : ReplacementGroup) : Nat :=
  let block := countMatchingPrefixBlock fileLines g.startLine g.replacement
  if block ≠ 0 then block
  else countMatchingSingleStructuralPrefixBoundary fileLines g.startLine g.replacement
    (deletedBalance fileLines g)

def suffixCount (fileLines : List String) (g : ReplacementGroup) : Nat :=
  let block := countMatchingSuffixBlock fileLines g.endLine g.replacement
  if block ≠ 0 then block
  else countMatchingSingleStructuralSuffixBoundary fileLines g.endLine g.replacement
    (deletedBalance fileLines g)

def safePrefixCount (fileLines : List String) (allTargetLines : List Nat)
    (g : ReplacementGroup) : Nat :=
  let count := prefixCount fileLines g
  if hasExternalTargets (List.range' (g.startLine - count) count) allTargetLines then 0 else count

def safeSuffixCount (fileLines : List String) (allTargetLines : List Nat)
    (g : ReplacementGroup) : Nat :=
  let count := suffixCount fileLines g
  if hasExternalTargets (List.range' (g.endLine + 1) count) allTargetLines then 0 else count

def deleteEditsForAutoAbsorbedLines (fileLines : List String) (sourceLineNum index : Nat)
    (lines : List Nat) :
    List Edit :=
  lines.mapIdx fun i line =>
    .delete ⟨line, computeLineHash line (fileLines.getD (line - 1) "")⟩ sourceLineNum (index + i)

def absorbReplacement (fileLines : List String) (allTargetLines : List Nat) (st : AbsorbState)
    (g : ReplacementGroup) : List Edit × AbsorbState :=
  let above := safePrefixCount fileLines allTargetLines g
  let below := safeSuffixCount fileLines allTargetLines g
  let st := st.warnIf above s!"prefix:{g.startLine - above}..{g.startLine - 1}"
    (s!"Auto-absorbed {above} duplicate line(s) above replacement at line {g.sourceLineNum} " ++
      s!"(file lines {g.startLine - above}..{g.startLine - 1} matched the payload's leading lines; " ++
      "widened the deletion to absorb them).")
  let st := st.warnIf below s!"suffix:{g.endLine + 1}..{g.endLine + below}"
    (s!"Auto-absorbed {below} duplicate line(s) below replacement at line {g.sourceLineNum} " ++
      s!"(file lines {g.endLine + 1}..{g.endLine + below} matched the payload's trailing lines; " ++
      "widened the deletion to absorb them).")
  let next := st.nextSyntheticIndex
  (deleteEditsForAutoAbsorbedLines fileLines g.sourceLineNum
    next (List.range' (g.startLine - above) above) ++
      g.members ++
      deleteEditsForAutoAbsorbedLines fileLines g.sourceLineNum (next + above)
        (List.range' (g.endLine + 1) below),
    { st with nextSyntheticIndex := next + above + below })

def absorbPureInsert (fileLines : List String) (options : ApplyOptions) (st : AbsorbState)
    (g : PureInsertGroup) : List Edit × AbsorbState :=
  let result := tryAbsorbPureInsertGroup g fileLines options.autoDropPureInsertDuplicates
  if 0 < result.absorbedLeading ∨ 0 < result.absorbedTrailing then
    let above := pureInsertNeighborhood g.cursor fileLines
    let leadStart := above - result.absorbedLeading + 1
    let trailEnd := above + result.absorbedTrailing
    let st := st.warnIf result.absorbedLeading s!"pure-insert-leading:{leadStart}..{above}"
      (s!"Auto-dropped {result.absorbedLeading} duplicate line(s) at the start of insert at line {g.sourceLineNum} " ++
        s!"(file lines {leadStart}..{above} already match the payload's leading lines).")
    let st := st.warnIf result.absorbedTrailing s!"pure-insert-trailing:{above + 1}..{trailEnd}"
      (s!"Auto-dropped {result.absorbedTrailing} duplicate line(s) at the end of insert at line {g.sourceLineNum} " ++
        s!"(file lines {above + 1}..{trailEnd} already match the payload's trailing lines).")
    let next := st.nextSyntheticIndex
    (result.keptPayload.mapIdx fun i text => .insert g.cursor text g.sourceLineNum (next + i),
      { st with nextSyntheticIndex := next + result.keptPayload.length })
  else (g.members, st)

def absorbSegment (fileLines : List String) (allTargetLines : List Nat) (options : ApplyOptions)
    (st : AbsorbState) : Segment → List Edit × AbsorbState
  | .replacement g => absorbReplacement fileLines allTargetLines st g
  | .pureInsert g => absorbPureInsert fileLines options st g
  | .single e => ([e], st)

def absorbSegments (fileLines : List String) (allTargetLines : List Nat) (options : ApplyOptions) :
    AbsorbState → List Segment → List Edit × AbsorbState
  | st, [] => ([], st)
  | st, seg :: segs =>
    let (emitted, st) := absorbSegment fileLines allTargetLines options st seg
    let (more, st) := absorbSegments fileLines allTargetLines options st segs
    (emitted ++ more, st)

def absorbReplacementBoundaryDuplicates (edits : List Edit) (fileLines : List String)
    (options : ApplyOptions) : List Edit × List String :=
  let (absorbed, st) := absorbSegments fileLines (collectAnchorTargetLines edits) options
    ⟨edits.length, [], []⟩ (segments edits)
  (absorbed, st.warnings)

end JevCode.Hashline
