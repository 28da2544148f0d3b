import JevCode.Edit.CharacterMatch

namespace JevCode.Edit

open JevCode.Text JevCode.Data

section

variable {lines pattern : List String} {p : Nat}

theorem matchesAt_exact_iff {i : Nat} (hle : i + pattern.length ≤ lines.length) :
    matchesAt lines pattern (fun a b => a = b) i = true ↔ OccursAt pattern lines i := by
  have hlength : pattern.length ≤ (lines.drop i).length := by
    rw [List.length_drop]
    omega
  rw [OccursAt, matchesAt]
  generalize lines.drop i = rest at hlength
  clear hle
  induction pattern generalizing rest with
  | nil => simp
  | cons a pattern ih =>
    cases rest with
    | nil => simp at hlength
    | cons b rest =>
      rw [List.length_cons, List.length_cons, Nat.add_le_add_iff_right] at hlength
      rw [List.zip_cons_cons, List.all_cons, List.cons_prefix_cons, Bool.and_eq_true,
        decide_eq_true_eq]
      exact and_congr eq_comm (ih rest hlength)

theorem collectIndexedMatches_of_unique (hpattern : pattern ≠ [])
    (h : ∀ i, OccursAt pattern lines i ↔ i = p) {start : Nat} (hstart : start ≤ p) :
    collectIndexedMatches start (lines.length - pattern.length + 1)
      (matchesAt lines pattern fun a b => a = b) = [p] := by
  have hle := length_le_of_occursAt hpattern ((h p).mpr rfl)
  have hfilter : collectIndexedMatches start (lines.length - pattern.length + 1)
      (matchesAt lines pattern fun a b => a = b) =
      (List.range' start (lines.length - pattern.length + 1 - start)).filter (· = p) := by
    refine List.filter_congr fun i hi => ?_
    have hrange := List.mem_range'_1.mp hi
    rw [Bool.eq_iff_iff, matchesAt_exact_iff (by omega), h i, decide_eq_true_eq]
  have hmem : p ∈ List.range' start (lines.length - pattern.length + 1 - start) := by
    rw [List.mem_range'_1]
    omega
  rw [hfilter, List.filter_eq, List.count_eq_one_of_mem List.nodup_range' hmem]
  rfl

theorem seekSequence_of_unique (tools : MatchTools) (allowFuzzy : Bool) (hpattern : pattern ≠ [])
    (h : ∀ i, OccursAt pattern lines i ↔ i = p) {start : Nat} (hstart : start ≤ p) :
    seekSequence tools lines pattern start false allowFuzzy =
      { index := some p, confidence := 1, strategy := some .exact } := by
  have hle := length_le_of_occursAt hpattern ((h p).mpr rfl)
  have hpass : runExactPasses tools lines pattern allowFuzzy start
      (lines.length - pattern.length + 1) =
      some { index := some p, confidence := 1, strategy := some .exact } := by
    rw [runExactPasses, comparisonPasses, List.findSome?_cons,
      collectIndexedMatches_of_unique hpattern h hstart]
    rfl
  unfold seekSequence
  rw [if_neg hpattern, if_neg (by omega)]
  dsimp only
  rw [if_neg Bool.false_ne_true, hpass]

end

/-- A hunk with a line of context and no other means to place it, whose old lines are found only at
`p`. -/
structure ExactHunk (lines : List String) (hunk : DiffHunk) (p : Nat) : Prop where
  noChangeContext : hunk.changeContext = none
  noOldHint : hunk.oldStartLine = none
  noNewHint : hunk.newStartLine = none
  notEndOfFile : hunk.isEndOfFile = false
  hasContext : hunk.hasContextLines = true
  context : ∃ line ∈ hunk.oldLines, line ∈ hunk.newLines
  unique : ∀ i, OccursAt hunk.oldLines lines i ↔ i = p

namespace ExactHunk

variable {lines : List String} {hunk : DiffHunk} {p : Nat} (h : ExactHunk lines hunk p)

include h

theorem oldLines_ne_nil : hunk.oldLines ≠ [] := by
  obtain ⟨line, hline, -⟩ := h.context
  exact List.ne_nil_of_mem hline

theorem newLines_ne_nil : hunk.newLines ≠ [] := by
  obtain ⟨line, -, hline⟩ := h.context
  exact List.ne_nil_of_mem hline

theorem end_le : p + hunk.oldLines.length ≤ lines.length :=
  length_le_of_occursAt h.oldLines_ne_nil ((h.unique p).mpr rfl)

theorem take_drop : (lines.drop p).take hunk.oldLines.length = hunk.oldLines := by
  obtain ⟨post, hpost⟩ := (h.unique p).mpr rfl
  rw [← hpost, List.take_left]

def replacement? (hunk : DiffHunk) (p : Nat) : Option Replacement :=
  if hunk.oldLines = hunk.newLines then none else some ⟨p, hunk.oldLines.length, hunk.newLines⟩

theorem search_eq (tools : MatchTools) (allowFuzzy : Bool) {lineIndex : Nat} (hle : lineIndex ≤ p)
    (variants : List HunkVariant) :
    preferHinted hunk lineIndex
      (preferNearContext lines hunk none (searchNearContext lines hunk variants none
      (searchVariants tools lines allowFuzzy hunk variants lineIndex
        (searchOldLines tools lines allowFuzzy hunk lineIndex)))) =
      ⟨hunk.oldLines, hunk.newLines,
        { index := some p, confidence := 1, strategy := some .exact }⟩ := by
  have hseek : findSequenceWithHint tools lines allowFuzzy hunk.oldLines lineIndex
      (getHunkHintIndex hunk lineIndex)
      hunk.isEndOfFile = { index := some p, confidence := 1, strategy := some .exact } := by
    unfold findSequenceWithHint
    dsimp only
    rw [h.notEndOfFile, seekSequence_of_unique tools allowFuzzy h.oldLines_ne_nil h.unique hle]
    rfl
  have hfound : searchOldLines tools lines allowFuzzy hunk lineIndex =
      ⟨hunk.oldLines, hunk.newLines,
      { index := some p, confidence := 1, strategy := some .exact }⟩ := by
    simp only [searchOldLines, hseek]
    rfl
  have hhint : (getHunkHintIndex hunk lineIndex <|> hunk.oldStartLine.map (· - 1)) = none := by
    rw [getHunkHintIndex, h.noOldHint]
    rfl
  rw [hfound, preferHinted, hhint]
  rfl

theorem addHunk_eq (tools : MatchTools) (allowFuzzy : Bool) (path : String) {state : PatchState}
    (hle : state.lineIndex ≤ p) :
    addHunk tools lines allowFuzzy path state hunk = .ok {
      state with
      lineIndex := p + hunk.oldLines.length
      replacements := state.replacements ++ (replacement? hunk p).toList } := by
  have hlocate : ∀ allowAggressiveFallbacks,
      locateContext tools lines allowFuzzy path hunk state.lineIndex
      allowAggressiveFallbacks = .ok (none, state.lineIndex) := by
    intro allowAggressiveFallbacks
    rw [locateContext, h.noChangeContext]
  have hcheck : ∀ found, checkSecondMatch tools lines allowFuzzy path hunk hunk.oldLines
      found = .ok () := by
    intro found
    rw [checkSecondMatch, h.hasContext, h.noChangeContext]
    rfl
  unfold addHunk
  simp only [h.noOldHint, h.noNewHint, checkLineHint, bind, Except.bind, hlocate,
    if_neg h.oldLines_ne_nil, h.search_eq tools allowFuzzy hle]
  simp only [foundIndex, SearchResult.isAmbiguous, Option.any_none, Bool.false_eq_true, if_false,
    hcheck, replacement?]
  by_cases hsame : hunk.oldLines = hunk.newLines
  · rw [if_pos hsame, if_pos hsame]
    simp [dominantWarning, pure, Except.pure]
  · rw [if_neg hsame, if_neg hsame, h.take_drop, adjustLinesIndentation_self]
    simp [dominantWarning, pure, Except.pure]

end ExactHunk

/-- The file with each block of old lines replaced by the new lines of its hunk. -/
def spliceBlocks (lines : List String) : Nat → List (DiffHunk × Nat) → List String
  | start, [] => lines.drop start
  | start, (hunk, p) :: blocks =>
    (lines.drop start).take (p - start) ++ hunk.newLines ++
      spliceBlocks lines (p + hunk.oldLines.length) blocks

def Spaced : Nat → List Replacement → Prop
  | _, [] => True
  | start, r :: rest => start ≤ r.startIndex ∧ Spaced (r.startIndex + r.oldLen) rest

def Apart : Nat → List (DiffHunk × Nat) → Prop
  | _, [] => True
  | start, (hunk, p) :: blocks => start ≤ p ∧ Apart (p + hunk.oldLines.length) blocks

def replacements (blocks : List (DiffHunk × Nat)) : List Replacement :=
  blocks.filterMap fun b => ExactHunk.replacement? b.1 b.2

theorem Spaced.mono {start start' : Nat} {rs : List Replacement} (h : Spaced start rs)
    (hle : start' ≤ start) :
    Spaced start' rs := by
  cases rs with
  | nil => trivial
  | cons r rest => exact ⟨hle.trans h.1, h.2⟩

theorem Spaced.le_of_mem {start : Nat} {rs : List Replacement} (h : Spaced start rs) :
    ∀ r ∈ rs, start ≤ r.startIndex := by
  induction rs generalizing start with
  | nil => simp
  | cons r rest ih =>
    intro r' hr'
    rcases List.mem_cons.mp hr' with rfl | hr'
    · exact h.1
    · exact (h.1.trans (Nat.le_add_right _ _)).trans (ih h.2 r' hr')

theorem Spaced.pairwise {start : Nat} {rs : List Replacement} (h : Spaced start rs) :
    rs.Pairwise fun a b => a.startIndex ≤ b.startIndex := by
  induction rs generalizing start with
  | nil => exact .nil
  | cons r rest ih =>
    exact .cons (fun r' hr' => (Nat.le_add_right _ _).trans (h.2.le_of_mem r' hr')) (ih h.2)

theorem checkOverlaps_of_spaced (path : String) {start : Nat} {rs : List Replacement}
    (h : Spaced start rs) :
    checkOverlaps path rs = .ok () := by
  induction rs generalizing start with
  | nil => rfl
  | cons r rest ih =>
    cases rest with
    | nil => rfl
    | cons next rest =>
      rw [checkOverlaps, if_neg (Nat.not_lt.mpr h.2.1), ih h.2]

theorem spaced_replacements {start : Nat} {blocks : List (DiffHunk × Nat)} (h : Apart start blocks) :
    Spaced start (replacements blocks) := by
  induction blocks generalizing start with
  | nil => trivial
  | cons b blocks ih =>
    obtain ⟨hunk, p⟩ := b
    have hrest := ih h.2
    rw [replacements, List.filterMap_cons, ExactHunk.replacement?]
    by_cases hsame : hunk.oldLines = hunk.newLines
    · rw [if_pos hsame]
      exact hrest.mono (h.1.trans (Nat.le_add_right _ _))
    · rw [if_neg hsame]
      exact ⟨h.1, hrest⟩

section

variable {lines : List String}

theorem foldlM_addHunk (tools : MatchTools) (allowFuzzy : Bool) (path : String)
    {blocks : List (DiffHunk × Nat)} (h : ∀ b ∈ blocks, ExactHunk lines b.1 b.2) {state : PatchState}
    (hapart : Apart state.lineIndex blocks) :
    ∃ lineIndex, (blocks.map Prod.fst).foldlM (addHunk tools lines allowFuzzy path) state = .ok {
      state with
      lineIndex := lineIndex
      replacements := state.replacements ++ replacements blocks } := by
  induction blocks generalizing state with
  | nil => exact ⟨state.lineIndex, by simp [replacements, pure, Except.pure]⟩
  | cons b blocks ih =>
    obtain ⟨hunk, p⟩ := b
    rw [List.map_cons, List.foldlM_cons,
      (h (hunk, p) (by simp)).addHunk_eq tools allowFuzzy path hapart.1]
    have hnext : Apart ({
        state with
        lineIndex := p + hunk.oldLines.length
        replacements := state.replacements ++ (ExactHunk.replacement? hunk p).toList } :
          PatchState).lineIndex blocks :=
      hapart.2
    obtain ⟨lineIndex, hrun⟩ := ih (fun b hb => h b (by simp [hb])) hnext
    refine ⟨lineIndex, ?_⟩
    simp only [bind, Except.bind]
    rw [hrun]
    cases hr : ExactHunk.replacement? hunk p <;> simp [replacements, hr]

theorem applyReplacements_eq {blocks : List (DiffHunk × Nat)}
    (h : ∀ b ∈ blocks, ExactHunk lines b.1 b.2) {start : Nat} (hapart : Apart start blocks) :
    applyReplacements lines (replacements blocks) = lines.take start ++
      spliceBlocks lines start blocks := by
  induction blocks generalizing start with
  | nil => exact (List.take_append_drop start lines).symm
  | cons b blocks ih =>
    obtain ⟨hunk, p⟩ := b
    have hexact := h (hunk, p) (by simp)
    have hrest := ih (fun b hb => h b (by simp [hb])) hapart.2
    have hlength : (lines.take (p + hunk.oldLines.length)).length = p + hunk.oldLines.length := by
      rw [List.length_take, Nat.min_eq_left hexact.end_le]
    have hfront : lines.take p = lines.take start ++ (lines.drop start).take (p - start) := by
      rw [← List.take_add, Nat.add_sub_cancel' hapart.1]
    rw [spliceBlocks, ← List.append_assoc, ← List.append_assoc, ← hfront]
    unfold replacements applyReplacements at *
    rw [List.filterMap_cons, ExactHunk.replacement?]
    by_cases hsame : hunk.oldLines = hunk.newLines
    · rw [if_pos hsame, hrest, List.take_add, hexact.take_drop, hsame]
    · rw [if_neg hsame]
      dsimp only
      rw [List.foldr_cons, hrest]
      dsimp only
      rw [List.take_append_of_le_length (by omega), List.take_take,
        Nat.min_eq_left (Nat.le_add_right _ _), List.drop_left' hlength]

theorem spliceBlocks_ne_nil {blocks : List (DiffHunk × Nat)} (hne : blocks ≠ [])
    (h : ∀ b ∈ blocks, ExactHunk lines b.1 b.2) (start : Nat) :
    spliceBlocks lines start blocks ≠ [] := by
  obtain ⟨⟨hunk, p⟩, blocks, rfl⟩ := List.exists_cons_of_ne_nil hne
  rw [spliceBlocks]
  simp [(h (hunk, p) (by simp)).newLines_ne_nil]

end

theorem apart_of_isChain {blocks : List (DiffHunk × Nat)}
    (h : blocks.IsChain fun a b => a.2 + a.1.oldLines.length ≤ b.2) :
    Apart 0 blocks := by
  have hfrom : ∀ start, (∀ b ∈ blocks.head?, start ≤ b.2) → Apart start blocks := by
    induction blocks with
    | nil => exact fun _ _ => trivial
    | cons b blocks ih =>
      intro start hstart
      refine ⟨hstart b rfl, ih (List.isChain_of_isChain_cons h) _ ?_⟩
      intro next hnext
      cases blocks with
      | nil => cases hnext
      | cons c rest =>
        cases hnext
        exact (List.isChain_cons_cons.mp h).1
  exact hfrom 0 fun _ _ => Nat.zero_le _

/-- A patch of exact hunks replaces each block and keeps every other line; without a final newline in
the file, newlines at the end of the result are dropped. -/
theorem exact_patch_applied (tools : MatchTools) (content path : String)
    (blocks : List (DiffHunk × Nat)) (fuzzyThreshold : ℚ) (allowFuzzy : Bool)
    (htwo : 2 ≤ blocks.length) (hexact : ∀ b ∈ blocks, ExactHunk (fileLines content) b.1 b.2)
    (hchain : blocks.IsChain fun a b => a.2 + a.1.oldLines.length ≤ b.2) :
    applyHunksToContent tools content path (blocks.map Prod.fst) fuzzyThreshold allowFuzzy =
      .ok ⟨if endsWithNewline content
        then joinLines (spliceBlocks (fileLines content) 0 blocks ++ [""])
        else String.ofList ((joinLines (spliceBlocks (fileLines content) 0 blocks)).toList.rdropWhile
          (· = '\n')), []⟩ := by
  have hapart := apart_of_isChain hchain
  have hspaced := spaced_replacements hapart
  have hne : blocks ≠ [] := List.ne_nil_of_length_pos (by omega)
  have hcompute : computeReplacements tools (fileLines content) allowFuzzy path
      (blocks.map Prod.fst) =
      .ok (replacements blocks, []) := by
    have hstart : Apart ({} : PatchState).lineIndex blocks := hapart
    obtain ⟨lineIndex, hrun⟩ := foldlM_addHunk tools allowFuzzy path hexact hstart
    unfold computeReplacements
    rw [hrun]
    simp only [bind, Except.bind, List.nil_append]
    rw [hspaced.pairwise.insertionSort_eq, checkOverlaps_of_spaced path hspaced]
    rfl
  have hlines : applyHunksToContent tools content path (blocks.map Prod.fst)
      fuzzyThreshold allowFuzzy =
      applyHunksByLine tools content path (blocks.map Prod.fst) allowFuzzy := by
    obtain ⟨b, c, rest, rfl⟩ : ∃ b c rest, blocks = b :: c :: rest := by
      match blocks, htwo with
      | b :: c :: rest, _ => exact ⟨b, c, rest, rfl⟩
    rfl
  have hresult : fileContent (spliceBlocks (fileLines content) 0 blocks) (endsWithNewline content) =
      if endsWithNewline content then joinLines (spliceBlocks (fileLines content) 0 blocks ++ [""])
      else String.ofList ((joinLines (spliceBlocks (fileLines content) 0 blocks)).toList.rdropWhile
        (· = '\n')) := by
    cases endsWithNewline content with
    | false => rfl
    | true =>
      rw [fileContent, if_pos rfl, if_pos rfl]
      refine applyTrailingNewlinePolicy_eq_self ?_
      rw [joinLines_append (spliceBlocks_ne_nil hne hexact 0) (by simp), endsWithNewline]
      simp [joinLines]
  rw [hlines, applyHunksByLine, hcompute, ← hresult]
  have hsplice := applyReplacements_eq hexact hapart
  rw [List.take_zero, List.nil_append] at hsplice
  simp only [bind, Except.bind, hsplice]
  rfl

def contextHunk (oldLines newLines : List String) : DiffHunk :=
  ⟨none, none, none, true, oldLines, newLines, false⟩

theorem occursAt_iff_of_decide {pattern lines : List String} {p : Nat} (hpattern : pattern ≠ [])
    (h : ∀ i < lines.length + 1, OccursAt pattern lines i ↔ i = p) (hp : p < lines.length + 1) :
    ∀ i, OccursAt pattern lines i ↔ i = p := by
  intro i
  by_cases hi : i < lines.length + 1
  · exact h i hi
  · refine iff_of_false (fun hocc => ?_) (by omega)
    have := length_le_of_occursAt hpattern hocc
    omega

theorem exactHunk_contextHunk {lines oldLines newLines : List String} {p : Nat}
    (hcontext : ∃ line ∈ oldLines, line ∈ newLines) (hp : p < lines.length + 1)
    (h : ∀ i < lines.length + 1, OccursAt oldLines lines i ↔ i = p) :
    ExactHunk lines (contextHunk oldLines newLines) p where
  noChangeContext := rfl
  noOldHint := rfl
  noNewHint := rfl
  notEndOfFile := rfl
  hasContext := rfl
  context := hcontext
  unique := by
    obtain ⟨line, hline, -⟩ := hcontext
    exact occursAt_iff_of_decide (List.ne_nil_of_mem hline) h hp

theorem exact_patch_two_hunks :
    applyHunksToContent plainTools "a\nb\nc\n" "f" [contextHunk ["a"] ["a", "x"],
      contextHunk ["c"] ["y", "c"]]
      (95 / 100) true = .ok ⟨"a\nx\nb\ny\nc\n", []⟩ := by
  have hrun := exact_patch_applied plainTools "a\nb\nc\n" "f"
    [(contextHunk ["a"] ["a", "x"], 0), (contextHunk ["c"] ["y", "c"], 2)] (95 / 100)
    true (by decide)
    (by
      intro b hb
      simp only [List.mem_cons, List.not_mem_nil, or_false] at hb
      rcases hb with rfl | rfl
      · exact exactHunk_contextHunk ⟨"a", by decide, by decide⟩ (by decide +kernel)
          (by decide +kernel)
      · exact exactHunk_contextHunk ⟨"c", by decide, by decide⟩ (by decide +kernel)
          (by decide +kernel))
    (by simp [contextHunk])
  refine hrun.trans ?_
  decide +kernel

theorem exact_patch_loses_empty_line :
    ExactHunk (fileLines "a\nb") (contextHunk ["a"] ["a", "x"]) 0 ∧
      ExactHunk (fileLines "a\nb") (contextHunk ["b"] ["b", ""]) 1 ∧
      applyHunksToContent plainTools "a\nb" "f" [contextHunk ["a"] ["a", "x"],
        contextHunk ["b"] ["b", ""]] (95 / 100) true =
        .ok ⟨"a\nx\nb", []⟩ ∧
      joinLines (spliceBlocks (fileLines "a\nb") 0 [(contextHunk ["a"] ["a", "x"], 0),
        (contextHunk ["b"] ["b", ""], 1)]) =
        "a\nx\nb\n" := by
  refine ⟨exactHunk_contextHunk ⟨"a", by decide, by decide⟩ (by decide +kernel) (by decide +kernel),
    exactHunk_contextHunk ⟨"b", by decide, by decide⟩ (by decide +kernel) (by decide +kernel), by
    decide +kernel, by decide +kernel⟩

end JevCode.Edit
