import JevCode.Edit.Patch

namespace JevCode.Edit

open JevCode.Text JevCode.Data

def linesBefore (lines : List String) : List Char := lines.flatMap fun line => line.toList ++ ['\n']

def linesAfter (lines : List String) : List Char := lines.flatMap fun line => '\n' :: line.toList

theorem toList_joinLines_before (pre : List String) {mid : List String} (h : mid ≠ []) :
    (joinLines (pre ++ mid)).toList = linesBefore pre ++ (joinLines mid).toList := by
  induction pre with
  | nil => rfl
  | cons line pre ih =>
    rw [List.cons_append, joinLines_cons (by simp [h]), String.toList_append,
      String.toList_append, ih]
    simp [linesBefore]

theorem linesAfter_eq {post : List String} (h : post ≠ []) :
    linesAfter post = '\n' :: (joinLines post).toList := by
  induction post with
  | nil => exact absurd rfl h
  | cons line post ih =>
    by_cases hpost : post = []
    · simp [hpost, linesAfter, joinLines]
    · have ih := ih hpost
      rw [linesAfter] at ih ⊢
      rw [List.flatMap_cons, ih, joinLines_cons hpost]
      simp

theorem linesBefore_eq {pre : List String} (h : pre ≠ []) :
    linesBefore pre = (joinLines pre).toList ++ ['\n'] := by
  have hempty : (joinLines (pre ++ [""])).toList = linesBefore pre ++ (joinLines [""]).toList :=
    toList_joinLines_before pre (by simp)
  rw [joinLines_append h (by simp)] at hempty
  simpa [joinLines] using hempty.symm

theorem toList_joinLines_mid (pre : List String) {mid : List String} (post : List String)
    (h : mid ≠ []) :
    (joinLines (pre ++ mid ++ post)).toList = linesBefore pre ++
    (joinLines mid).toList ++ linesAfter post := by
  rw [List.append_assoc, toList_joinLines_before pre (by simp [h]), List.append_assoc]
  congr 1
  by_cases hpost : post = []
  · simp [hpost, linesAfter]
  · rw [joinLines_append h hpost, linesAfter_eq hpost]
    simp

theorem joinLines_eq_empty {lines : List String} (hne : lines ≠ []) (h : joinLines lines = "") :
    lines = [""] := by
  obtain ⟨line, lines, rfl⟩ := List.exists_cons_of_ne_nil hne
  by_cases hrest : lines = []
  · subst hrest
    have hline : joinLines [line] = line := by simp [joinLines]
    rw [← hline, h]
  · have hmem : '\n' ∈ (joinLines (line :: lines)).toList := by
      rw [joinLines_cons hrest]
      simp
    rw [h] at hmem
    cases hmem

def finalLine (hadFinalNewline : Bool) : List String := if hadFinalNewline then [""] else []

theorem splitLines_eq_fileLines (content : String) :
    splitLines content = fileLines content ++ finalLine (endsWithNewline content) := by
  unfold fileLines finalLine
  by_cases h : endsWithNewline content = true
  · obtain ⟨cs, hcs⟩ := List.getLast?_eq_some_iff.mp (of_decide_eq_true h)
    have hcontent : content = String.ofList cs ++ "\n" ++ "" := by
      apply String.toList_inj.mp
      simp [hcs]
    rw [if_pos h, if_pos h, hcontent, splitLines_append_newline]
    have hempty : splitLines "" = [""] := by decide
    rw [hempty, List.dropLast_concat]
  · rw [if_neg h, if_neg h, List.append_nil]

theorem joinLines_fileLines (content : String) :
    joinLines (fileLines content ++ finalLine (endsWithNewline content)) = content := by
  rw [← splitLines_eq_fileLines, joinLines_splitLines]

theorem fileContent_eq (lines : List String) (hadFinalNewline : Bool) :
    fileContent lines hadFinalNewline =
      applyTrailingNewlinePolicy (joinLines (lines ++ finalLine hadFinalNewline))
        hadFinalNewline := by
  cases hadFinalNewline with
  | false =>
    rw [fileContent, finalLine, if_neg Bool.false_ne_true, if_neg Bool.false_ne_true,
      List.append_nil]
  | true => rfl

theorem applyTrailingNewlinePolicy_eq_self {content : String} {hadFinalNewline : Bool}
    (h : endsWithNewline content = hadFinalNewline) :
    applyTrailingNewlinePolicy content hadFinalNewline = content := by
  unfold applyTrailingNewlinePolicy
  cases hadFinalNewline with
  | true => rw [if_pos rfl, if_pos h]
  | false =>
    rw [if_neg Bool.false_ne_true]
    have hself : content.toList.rdropWhile (· = '\n') = content.toList := by
      rw [List.rdropWhile_eq_self_iff]
      intro hne hlast
      have hend : endsWithNewline content = true := by
        refine decide_eq_true ?_
        rw [List.getLast?_eq_some_getLast hne, of_decide_eq_true hlast]
      rw [h] at hend
      cases hend
    rw [hself, String.ofList_toList]

section

variable (pre : List String) {post : List String} {final : Bool}

theorem endsWithNewline_ofList_append {cs ds : List Char} (h : ds ≠ []) :
    endsWithNewline (String.ofList (cs ++ ds)) = endsWithNewline (String.ofList ds) := by
  unfold endsWithNewline
  rw [String.toList_ofList, String.toList_ofList, List.getLast?_append_of_ne_nil _ h]

theorem applyTrailingNewlinePolicy_ne {front tail : List Char}
    (h : endsWithNewline (String.ofList (front ++ '\n' :: tail)) = final)
    (h' : endsWithNewline (String.ofList (front ++ tail)) = final) :
    applyTrailingNewlinePolicy (String.ofList (front ++ '\n' :: tail)) final ≠
      applyTrailingNewlinePolicy (String.ofList (front ++ tail)) final := by
  intro heq
  rw [applyTrailingNewlinePolicy_eq_self h, applyTrailingNewlinePolicy_eq_self h'] at heq
  have hlength := congrArg (fun s : String => s.toList.length) heq
  simp at hlength

theorem joinLines_finalLine (hpost : post ≠ [])
    (hlast : final = false → joinLines post ≠ "" ∧ endsWithNewline (joinLines post) = false) :
    (joinLines (post ++ finalLine final)).toList ≠ [] ∧ endsWithNewline
    (joinLines (post ++ finalLine final)) = final := by
  cases final with
  | true =>
    rw [finalLine, if_pos rfl, joinLines_append hpost (by simp)]
    refine ⟨by simp [joinLines], ?_⟩
    rw [endsWithNewline]
    simp [joinLines]
  | false =>
    obtain ⟨hne, hend⟩ := hlast rfl
    rw [finalLine, if_neg Bool.false_ne_true, List.append_nil]
    exact ⟨by simpa using hne, hend⟩

theorem deletion_at_end :
    applyTrailingNewlinePolicy (String.ofList (linesBefore pre ++ linesAfter [])) false =
      applyTrailingNewlinePolicy (joinLines pre) false := by
  by_cases hpre : pre = []
  · subst hpre
    rfl
  · rw [linesBefore_eq hpre]
    unfold applyTrailingNewlinePolicy
    simp only [Bool.false_eq_true, if_false, linesAfter, List.flatMap_nil, List.append_nil,
      String.toList_ofList]
    rw [List.rdropWhile_concat_pos _ _ _ (by decide)]

theorem deletion_agrees_iff
    (hlast : final = false → post ≠ [] → joinLines post ≠ "" ∧
      endsWithNewline (joinLines post) = false) :
    applyTrailingNewlinePolicy
      (String.ofList (linesBefore pre ++ linesAfter (post ++ finalLine final))) final =
        applyTrailingNewlinePolicy (joinLines (pre ++ (post ++ finalLine final))) final ↔
      post = [] ∧ (pre = [] ∨ final = false) := by
  by_cases hrest : post ++ finalLine final = []
  · obtain ⟨rfl, hfinal⟩ := List.append_eq_nil_iff.mp hrest
    have hfinal : final = false := by
      cases final with
      | false => rfl
      | true => cases hfinal
    subst hfinal
    rw [hrest, List.append_nil]
    exact iff_of_true (deletion_at_end pre) ⟨rfl, .inr rfl⟩
  · have hother : joinLines (pre ++ (post ++ finalLine final)) =
        String.ofList (linesBefore pre ++ (joinLines (post ++ finalLine final)).toList) := by
      rw [← toList_joinLines_before pre hrest, String.ofList_toList]
    rw [linesAfter_eq hrest, hother]
    by_cases hpost : post = []
    · subst hpost
      have hfinal : final = true := by
        cases final with
        | true => rfl
        | false => exact absurd rfl hrest
      subst hfinal
      have hnil : (joinLines ([] ++ finalLine true)).toList = [] := rfl
      rw [hnil]
      by_cases hpre : pre = []
      · subst hpre
        refine iff_of_true ?_ ⟨rfl, .inl rfl⟩
        rfl
      · refine iff_of_false (applyTrailingNewlinePolicy_ne ?_ ?_) ?_
        · rw [endsWithNewline_ofList_append (by simp)]
          rfl
        · rw [List.append_nil, linesBefore_eq hpre, endsWithNewline_ofList_append (by simp)]
          rfl
        · rintro ⟨-, h | h⟩
          · exact hpre h
          · cases h
    · obtain ⟨hne, hend⟩ := joinLines_finalLine hpost fun hfinal => hlast hfinal hpost
      refine iff_of_false (applyTrailingNewlinePolicy_ne ?_ ?_) fun h => hpost h.1
      · rw [endsWithNewline_ofList_append (by simp), ← List.singleton_append,
          endsWithNewline_ofList_append hne, String.ofList_toList, hend]
      · rw [endsWithNewline_ofList_append hne, String.ofList_toList, hend]

end

section

variable (tools : MatchTools) {content oldText : String} (path : String) {hunk : DiffHunk}
    (fuzzyThreshold : ℚ)
  (allowFuzzy : Bool)

theorem findRelaxedMatch_of_unique {before after : List Char} (hold : oldText.toList ≠ [])
    (h : FirstAt oldText.toList content.toList before after) (hafter : ¬ oldText.toList <:+: after) :
    findRelaxedMatch tools content oldText fuzzyThreshold allowFuzzy =
      { found := some ⟨oldText, before.length, lineNumberAt content.toList before.length, 1⟩ } := by
  have hmatch := findMatch_of_firstAt tools.findBestFuzzyMatch allowFuzzy fuzzyThreshold hold h
  dsimp only at hmatch
  rw [if_neg hafter] at hmatch
  rw [findRelaxedMatch, hmatch]
  rfl

theorem applyCharacterMatch_of_unique {before after : List Char} (hcr : '\r' ∉ content.toList)
    (hold : joinLines hunk.oldLines ≠ "")
    (h : FirstAt (joinLines hunk.oldLines).toList content.toList before after)
    (hafter : ¬ (joinLines hunk.oldLines).toList <:+: after) :
    applyCharacterMatch tools content path hunk fuzzyThreshold allowFuzzy =
      .ok ⟨String.ofList (before ++ (joinLines hunk.newLines).toList ++ after), []⟩ := by
  have hcrOld : '\r' ∉ (joinLines hunk.oldLines).toList := by
    intro hmem
    refine hcr ?_
    rw [h.eq]
    simp [hmem]
  have hcut : replaceRange content before.length (joinLines hunk.oldLines).length
      (joinLines hunk.newLines) =
      String.ofList (before ++ (joinLines hunk.newLines).toList ++ after) := by
    rw [replaceRange, h.eq, List.take_left, ← String.length_toList, ← List.length_append,
      ← List.append_assoc, List.drop_left]
  unfold applyCharacterMatch
  dsimp only
  rw [normalizeToLF_of_notMem hcr, normalizeToLF_of_notMem hcrOld,
    findRelaxedMatch_of_unique tools fuzzyThreshold allowFuzzy (by simpa using hold) h hafter]
  simp only [Option.any_none, Bool.false_eq_true, if_false, adjustIndentation_self, hcut]

theorem applyCharacterMatch_of_empty (content : String) (hold : joinLines hunk.oldLines = "") :
    ∃ e, applyCharacterMatch tools content path hunk fuzzyThreshold allowFuzzy = .error e := by
  have hnormal : normalizeToLF "" = "" := by decide
  have hmatch : ∀ threshold, findMatch tools.findBestFuzzyMatch (normalizeToLF content) "" allowFuzzy
      threshold = {} :=
    fun threshold => by rw [findMatch, if_pos rfl]
  have hrelaxed : findRelaxedMatch tools (normalizeToLF content) "" fuzzyThreshold
      allowFuzzy = {} := by
    rw [findRelaxedMatch, hmatch, hmatch]
    exact ite_self _
  unfold applyCharacterMatch
  dsimp only
  rw [hold, hnormal, hrelaxed]
  exact ⟨_, rfl⟩

end

section

variable {content : String} {pre old post : List String}

theorem toList_eq_of_fileLines (hold : old ≠ []) (hfile : fileLines content = pre ++ old ++ post) :
    content.toList = linesBefore pre ++ ((joinLines old).toList ++
      linesAfter (post ++ finalLine (endsWithNewline content))) := by
  have hjoin := joinLines_fileLines content
  rw [hfile, List.append_assoc] at hjoin
  rw [← List.append_assoc, ← toList_joinLines_mid pre _ hold, hjoin]

theorem joinLines_post (hcontent : content.toList = linesBefore pre ++ ((joinLines old).toList ++
      linesAfter (post ++ finalLine (endsWithNewline content))))
        (hfinal : endsWithNewline content = false)
    (hpost : post ≠ []) : joinLines post ≠ "" ∧ endsWithNewline (joinLines post) = false := by
  have hend : endsWithNewline (String.ofList (linesBefore pre ++ (joinLines old).toList ++
      '\n' :: (joinLines post).toList)) = false := by
    rw [hfinal, finalLine, if_neg Bool.false_ne_true, List.append_nil, linesAfter_eq hpost,
      ← List.append_assoc]
      at hcontent
    rw [← hcontent, String.ofList_toList, hfinal]
  rw [endsWithNewline_ofList_append (by simp)] at hend
  have hnonempty : (joinLines post).toList ≠ [] := by
    intro hnil
    rw [hnil] at hend
    cases hend
  have hcons : '\n' :: (joinLines post).toList = ['\n'] ++ (joinLines post).toList := rfl
  rw [hcons, endsWithNewline_ofList_append hnonempty, String.ofList_toList] at hend
  exact ⟨by simpa using hnonempty, hend⟩

theorem occursAt_linesBefore {rest : List Char} (hne : joinLines old ≠ "")
    (hcontent : content.toList = linesBefore pre ++ ((joinLines old).toList ++ rest))
    (honly : ∀ i j, i ≤ content.length → j ≤ content.length →
      OccursAt (joinLines old).toList content.toList i →
      OccursAt (joinLines old).toList content.toList j → i = j) (i : Nat)
    (hi : OccursAt (joinLines old).toList content.toList i) : i = (linesBefore pre).length := by
  have hbound : i ≤ content.length := by
    have hle := length_le_of_occursAt (by simpa using hne) hi
    rw [String.length_toList, String.length_toList] at hle
    omega
  refine honly i _ hbound ?_ hi ?_
  · rw [← String.length_toList, hcontent, List.length_append]
    exact Nat.le_add_right _ _
  · rw [OccursAt, hcontent, List.drop_left]
    exact List.prefix_append _ _

end

theorem applyHunksToContent_of_simple (tools : MatchTools) (content path : String) {hunk : DiffHunk}
    (fuzzyThreshold : ℚ) (allowFuzzy : Bool) (hsimple : isSimpleReplace hunk = true) :
    applyHunksToContent tools content path [hunk] fuzzyThreshold allowFuzzy =
      (applyCharacterMatch tools content path hunk fuzzyThreshold allowFuzzy).map fun patched =>
        { patched with
          content := applyTrailingNewlinePolicy patched.content (endsWithNewline content) } := by
  rw [applyHunksToContent, if_pos hsimple]
  cases applyCharacterMatch tools content path hunk fuzzyThreshold allowFuzzy <;> rfl

theorem spliced_agrees_iff {content : String} {pre old new post : List String}
    (hcontent : content.toList = linesBefore pre ++ ((joinLines old).toList ++
      linesAfter (post ++ finalLine (endsWithNewline content)))) :
    applyTrailingNewlinePolicy (String.ofList (linesBefore pre ++ (joinLines new).toList ++
          linesAfter (post ++ finalLine (endsWithNewline content)))) (endsWithNewline content) =
        fileContent (pre ++ new ++ post) (endsWithNewline content) ↔
      new ≠ [] ∨ (post = [] ∧ (pre = [] ∨ endsWithNewline content = false)) := by
  rw [fileContent_eq]
  by_cases hnew : new = []
  · have hagree := deletion_agrees_iff pre fun hfinal hpost => joinLines_post hcontent hfinal hpost
    have hempty : (joinLines []).toList = [] := rfl
    rw [hnew, hempty, List.append_nil, List.append_nil, List.append_assoc, hagree]
    exact ⟨.inr, fun h => h.resolve_left fun h => h rfl⟩
  · refine iff_of_true ?_ (.inl hnew)
    rw [← toList_joinLines_mid pre _ hnew, String.ofList_toList, List.append_assoc,
      List.append_assoc, List.append_assoc]

/-- The character path gives what the replacement of the whole lines gives exactly if there are old
lines to look for and either new lines, or nothing behind the old ones and no newline left over. -/
theorem characterMatch_agrees_iff (tools : MatchTools) (content path : String)
    (hunk : DiffHunk) (p : Nat) (fuzzyThreshold : ℚ) (allowFuzzy : Bool)
    (hcr : '\r' ∉ content.toList) (hsimple : isSimpleReplace hunk = true)
    (hlines : OccursAt hunk.oldLines (fileLines content) p)
    (honly : ∀ i j, i ≤ content.length → j ≤ content.length →
    OccursAt (joinLines hunk.oldLines).toList content.toList i →
      OccursAt (joinLines hunk.oldLines).toList content.toList j → i = j) :
    (∃ warnings, applyHunksToContent tools content path [hunk] fuzzyThreshold allowFuzzy =
      .ok ⟨fileContent ((fileLines content).take p ++ hunk.newLines ++
        (fileLines content).drop (p + hunk.oldLines.length))
        (endsWithNewline content), warnings⟩) ↔
      hunk.oldLines ≠ [""] ∧ (hunk.newLines ≠ [] ∨
        (p + hunk.oldLines.length = (fileLines content).length ∧
          (p = 0 ∨ endsWithNewline content = false))) := by
  have hold : hunk.oldLines ≠ [] := by
    simp only [isSimpleReplace, Bool.and_eq_true, decide_eq_true_eq] at hsimple
    exact hsimple.1.1.2
  have hfile := eq_append_of_occursAt hlines
  have hlength := length_le_of_occursAt hold hlines
  rw [applyHunksToContent_of_simple tools content path fuzzyThreshold allowFuzzy hsimple]
  by_cases hblank : hunk.oldLines = [""]
  · -- The empty text is never found.
    have hempty : joinLines hunk.oldLines = "" := by
      rw [hblank]
      decide
    obtain ⟨e, he⟩ :=
      applyCharacterMatch_of_empty tools path fuzzyThreshold allowFuzzy content hempty
    rw [he]
    refine iff_of_false ?_ fun h => h.1 hblank
    rintro ⟨warnings, hwarnings⟩
    cases hwarnings
  · have hne : joinLines hunk.oldLines ≠ "" := fun h => hblank (joinLines_eq_empty hold h)
    have hcontent := toList_eq_of_fileLines hold hfile
    obtain ⟨hfirst, hafter⟩ := firstAt_of_unique (by simpa using hne) hcontent
      (occursAt_linesBefore hne hcontent honly)
    have hpre : (fileLines content).take p = [] ↔ p = 0 := by
      rw [← List.length_eq_zero_iff, List.length_take]
      omega
    have hpost : (fileLines content).drop (p + hunk.oldLines.length) = [] ↔
        p + hunk.oldLines.length = (fileLines content).length := by
      rw [List.drop_eq_nil_iff]
      omega
    rw [applyCharacterMatch_of_unique tools path fuzzyThreshold allowFuzzy hcr hne hfirst hafter,
      ← hpre, ← hpost]
    refine Iff.trans ?_ ((spliced_agrees_iff hcontent).trans (and_iff_right hblank).symm)
    constructor
    · rintro ⟨warnings, h⟩
      exact (PatchedContent.mk.inj (Except.ok.inj h)).1
    · intro h
      rw [← h]
      exact ⟨[], rfl⟩

def plainTools : MatchTools := ⟨none, none, id⟩

def bareHunk (oldLines newLines : List String) : DiffHunk :=
  ⟨none, none, none, false, oldLines, newLines, false⟩

theorem characterMatch_replaces_line :
    ∃ warnings, applyHunksToContent plainTools "a\nb\nc\n" "f" [bareHunk ["b"] ["x"]]
      (95 / 100) true =
      .ok ⟨fileContent ((fileLines "a\nb\nc\n").take 1 ++ ["x"] ++
        (fileLines "a\nb\nc\n").drop (1 + ["b"].length))
        (endsWithNewline "a\nb\nc\n"), warnings⟩ := by
  have hone : ∀ i < 7, OccursAt (joinLines ["b"]).toList "a\nb\nc\n".toList i → i = 2 := by
    decide +kernel
  have hlength : "a\nb\nc\n".length = 6 := by decide +kernel
  refine (characterMatch_agrees_iff plainTools "a\nb\nc\n" "f" (bareHunk ["b"] ["x"]) 1
    (95 / 100) true
    (by decide +kernel) (by decide +kernel) (by decide +kernel) ?_).mpr (by decide +kernel)
  intro i j hi hj hocci hoccj
  rw [hlength] at hi hj
  rw [hone i (by omega) hocci, hone j (by omega) hoccj]

theorem characterMatch_leaves_newline :
    isSimpleReplace (bareHunk ["b"] []) = true ∧ OccursAt ["b"] (fileLines "a\nb\nc\n") 1 ∧
      (∀ i < 7, OccursAt (joinLines ["b"]).toList "a\nb\nc\n".toList i → i = 2) ∧
      applyHunksToContent plainTools "a\nb\nc\n" "f" [bareHunk ["b"] []] (95 / 100) true =
        .ok ⟨"a\n\nc\n", []⟩ ∧
      fileContent ((fileLines "a\nb\nc\n").take 1 ++ [] ++
        (fileLines "a\nb\nc\n").drop (1 + ["b"].length))
        (endsWithNewline "a\nb\nc\n") = "a\nc\n" := by
  refine ⟨by decide +kernel, by decide +kernel, by decide +kernel, by decide +kernel, by decide +kernel⟩

end JevCode.Edit
