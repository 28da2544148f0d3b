import JevCode.Hashline.FirstChanged
import Mathlib.Algebra.Order.BigOperators.Group.List
import Mathlib.Data.List.Perm.Basic

namespace JevCode.Hashline

open JevCode.Text

def closesLine (text : String) : Bool :=
  text.toList.getLast? = none || text.toList.getLast? = some '\n'

def closesLast (lines : List String) : Bool := lines.getLast?.all closesLine

def anchoredTexts (edits : List Edit) (fileLines : List String) : List String :=
  (List.range' 1 fileLines.length).flatMap (insertsAt edits)

/-- What the normalised batch must leave behind the last newline of the file: nothing behind the
payload that absorbed the final empty line, and no open line where the file was emptied. -/
def keepsFinalNewline (edits : List Edit) (fileLines : List String) : Bool :=
  let bof := edits.filterMap Edit.bofText?
  let eof := edits.filterMap Edit.eofText?
  let texts := anchoredTexts edits fileLines
  if isDeleted edits fileLines.length then texts.getLast? = some "" || closesLast (texts ++ eof)
  else if texts = [] ∧ (List.range' 1 (fileLines.length - 1)).all (isDeleted edits) then
    (bof.getLast? = some "" && bof ≠ [""]) || closesLast (bof ++ eof)
  else true

theorem closesLast_append (xs : List String) {ys : List String} (h : ys ≠ []) :
    closesLast (xs ++ ys) = closesLast ys := by
  rw [closesLast, List.getLast?_append_of_ne_nil xs h, closesLast]

theorem closesLast_congr {xs ys zs : List String} (h : xs.getLast? = ys.getLast?) :
    closesLast (xs ++ zs) = closesLast (ys ++ zs) := by
  by_cases hz : zs = []
  · simp [hz, closesLast, h]
  · rw [closesLast_append xs hz, closesLast_append ys hz]

theorem closesLine_append (front : String) {line : String} (h : line ≠ "") :
    closesLine (front ++ line) = closesLine line := by
  have hne : line.toList ≠ [] := by simpa using h
  rw [closesLine, closesLine, String.toList_append, List.getLast?_append_of_ne_nil _ hne]

theorem closesLine_joinLines (lines : List String) :
    closesLine (joinLines lines) = closesLast lines := by
  induction lines with
  | nil => rfl
  | cons line lines ih =>
    by_cases h : lines = []
    · simp [h, joinLines, closesLast]
    · rw [joinLines_cons h]
      by_cases hjoin : joinLines lines = ""
      · have hlast : closesLast (line :: lines) = closesLast lines := closesLast_append [line] h
        rw [hlast, ← ih, hjoin]
        simp [closesLine]
      · rw [closesLine_append _ hjoin, ih]
        exact (closesLast_append [line] h).symm

theorem closesLine_iff {text : String} :
    closesLine text = true ↔ text = "" ∨ text.toList.getLast? = some '\n' := by
  simp [closesLine]

theorem closesLast_insertAtEnd {xs : List String} (eof : List String) (hxs : xs ≠ []) :
    closesLast (insertAtEnd xs eof).1 =
      ((xs.getLast? = some "" && xs ≠ [""]) || closesLast (xs ++ eof)) := by
  unfold insertAtEnd
  split
  · rename_i heof
    have hclosed : xs.getLast? = some "" → closesLast xs = true := fun h => by
      simp [closesLast, h, closesLine]
    subst heof
    rw [List.append_nil]
    by_cases hlast : xs.getLast? = some ""
    · simp [hclosed hlast]
    · simp [hlast]
  · rename_i heof
    split
    · rename_i hblank
      rw [hblank, closesLast_append [""] heof]
      simp
    · rename_i hblank
      by_cases hlast : xs.getLast? = some ""
      · obtain ⟨ys, rfl⟩ := List.getLast?_eq_some_iff.mp hlast
        simp [hblank, closesLast, closesLine]
      · simp [hlast]

theorem getLast?_insertAtStart {xs : List String} (bof : List String) (hxs : xs ≠ [])
    (hblank : xs ≠ [""]) :
    (insertAtStart xs bof).getLast? = xs.getLast? ∧ insertAtStart xs bof ≠
    [] ∧ insertAtStart xs bof ≠ [""] := by
  unfold insertAtStart
  split
  · exact ⟨rfl, hxs, hblank⟩
  · rename_i hbof
    refine ⟨List.getLast?_append_of_ne_nil _ hxs, by simp [hxs], fun h => ?_⟩
    have := congrArg List.length h
    have := List.length_pos_of_ne_nil hxs
    have := List.length_pos_of_ne_nil hbof
    simp at *
    omega

theorem closesLast_edges {xs : List String} (bof eof : List String) (hxs : xs ≠ [])
    (hblank : xs ≠ [""]) :
    closesLast (insertAtEnd (insertAtStart xs bof) eof).1 =
      (decide (xs.getLast? = some "") || closesLast (xs ++ eof)) := by
  obtain ⟨hlast, hne, hne'⟩ := getLast?_insertAtStart bof hxs hblank
  rw [closesLast_insertAtEnd eof hne, hlast, closesLast_congr hlast]
  simp [hne']

theorem closesLast_edges_of_blank (bof eof : List String) :
    closesLast (insertAtEnd (insertAtStart [""] bof) eof).1 =
      ((bof.getLast? = some "" && bof ≠ [""]) || closesLast (bof ++ eof)) := by
  by_cases hbof : bof = []
  · subst hbof
    by_cases heof : eof = []
    · subst heof
      rfl
    · have hstart : insertAtStart [""] [] = [""] := rfl
      rw [hstart, closesLast_insertAtEnd eof (by simp), closesLast_append [""] heof]
      simp
  · have hstart : insertAtStart [""] bof = bof := by simp [insertAtStart, hbof]
    rw [hstart, closesLast_insertAtEnd eof hbof]

section

variable {edits : List Edit} {fileLines : List String}

theorem getLast?_simultaneous_of_deleted {k : Nat} (h1 : 1 ≤ k) (h2 : k ≤ fileLines.length)
    (hdel : ∀ l, k ≤ l → l ≤ fileLines.length → isDeleted edits l = true)
    (hins : insertsAt edits k ≠ []) :
    (simultaneous edits fileLines).getLast? = (anchoredTexts edits fileLines).getLast? ∧
      simultaneous edits fileLines ≠ [] := by
  have hsplit : List.range' 1 fileLines.length = List.range' 1 (k - 1) ++
      List.range' k (fileLines.length - k + 1) := by
    have h := @List.range'_append_1 1 (k - 1) (fileLines.length - k + 1)
    have hstart : 1 + (k - 1) = k := by omega
    have hlen : k - 1 + (fileLines.length - k + 1) = fileLines.length := by omega
    rw [hstart, hlen] at h
    exact h.symm
  have hout : (List.range' k (fileLines.length - k + 1)).flatMap (lineOutput edits fileLines) =
      (List.range' k (fileLines.length - k + 1)).flatMap (insertsAt edits) := by
    refine List.flatMap_congr fun l hl => ?_
    rw [List.mem_range'_1] at hl
    simp [lineOutput, hdel l (by omega) (by omega)]
  have hne : (List.range' k (fileLines.length - k + 1)).flatMap (insertsAt edits) ≠ [] := by
    rw [List.range'_succ, List.flatMap_cons]
    simp [hins]
  rw [simultaneous, anchoredTexts, hsplit, List.flatMap_append, List.flatMap_append, hout,
    List.getLast?_append_of_ne_nil _ hne, List.getLast?_append_of_ne_nil _ hne]
  exact ⟨rfl, by simp [hne]⟩

theorem simultaneous_of_kept (hpos : 1 ≤ fileLines.length)
    (hkept : isDeleted edits fileLines.length = false) :
    ∃ front, simultaneous edits fileLines = front ++ [lineAt fileLines fileLines.length] ∧
      (front = [] ↔ anchoredTexts edits fileLines = [] ∧
        (List.range' 1 (fileLines.length - 1)).all (isDeleted edits) = true) := by
  have hsplit := range'_split hpos (le_refl fileLines.length)
  rw [Nat.sub_self, List.range'_zero] at hsplit
  refine ⟨(List.range' 1 (fileLines.length - 1)).flatMap (lineOutput edits fileLines) ++
    insertsAt edits fileLines.length, ?_, ?_⟩
  · rw [simultaneous, hsplit, List.flatMap_append]
    simp [lineOutput, hkept]
  · rw [anchoredTexts, hsplit, List.flatMap_append]
    simp only [List.append_eq_nil_iff, List.flatMap_eq_nil_iff, List.mem_singleton, forall_eq,
      lineOutput, List.all_eq_true]
    constructor
    · rintro ⟨hfront, hlast⟩
      exact ⟨⟨fun l hl => (hfront l hl).1, hlast⟩,
        fun l hl => by have := (hfront l hl).2; simpa using this⟩
    · rintro ⟨⟨hfront, hlast⟩, hdel⟩
      exact ⟨fun l hl => ⟨hfront l hl, by simp [hdel l hl]⟩, hlast⟩

theorem length_anchoredTexts_le (edits : List Edit) (fileLines : List String) :
    (anchoredTexts edits fileLines).length ≤ (simultaneous edits fileLines).length := by
  rw [anchoredTexts, simultaneous, List.length_flatMap, List.length_flatMap]
  refine List.sum_le_sum fun l _ => ?_
  simp [lineOutput]

end

theorem length_le_flatMap_filter {α : Type*} (line? : α → Option Nat) (n : Nat) (xs : List α)
    (h : ∀ x ∈ xs, ∃ l, line? x = some l ∧ 1 ≤ l ∧ l ≤ n) :
    xs.length ≤ ((List.range' 1 n).flatMap fun l => xs.filter fun x => line? x = some l).length := by
  induction xs with
  | nil => simp
  | cons x xs ih =>
    have hperm :=
      List.flatMap_append_perm (List.range' 1 n) (fun l => [x].filter fun x => line? x = some l)
      fun l => xs.filter fun x => line? x = some l
    have hcons : ∀ l, ((x :: xs).filter fun x => line? x = some l) =
        ([x].filter fun x => line? x = some l) ++ xs.filter fun x => line? x = some l := fun l => by
      rw [← List.filter_append]
      rfl
    obtain ⟨l, hl, h1, h2⟩ := h x (by simp)
    have hx : x ∈ (List.range' 1 n).flatMap fun l => [x].filter fun x => line? x = some l :=
      List.mem_flatMap.mpr ⟨l, List.mem_range'_1.mpr ⟨h1, by omega⟩, by simp [hl]⟩
    have hpos := List.length_pos_of_mem hx
    have ih := ih fun y hy => h y (by simp [hy])
    have hlen := hperm.length_eq
    simp only [hcons, List.length_append, List.length_cons] at hlen ⊢
    omega

section

variable {edits : List Edit} {fileLines : List String} {options : ApplyOptions}
    (hrange : AnchorsInRange edits fileLines)

include hrange

theorem landing?_inRange_of_mem {p : Cursor × String} {l : Nat}
    (hp : p ∈ (segments edits).flatMap (Segment.inserted fileLines options))
    (hl : p.1.landing? fileLines = some l) :
    1 ≤ l ∧ l ≤ fileLines.length := by
  obtain ⟨seg, hseg, hct⟩ := List.mem_flatMap.mp hp
  obtain ⟨e, he, t, n, i, rfl⟩ := exists_member_of_mem_inserted (found_of_mem_segments hseg) hct
  exact landing?_inRange (hrange _ (members_subset_of_mem_segments hseg he)) hl

theorem length_replacement_le {g : ReplacementGroup} (hg : .replacement g ∈ segments edits) :
    g.replacement.length ≤
      (anchoredTexts (absorbedEdits edits fileLines options) fileLines).length := by
  let ins := (segments edits).flatMap (Segment.inserted fileLines options)
  let landed := ins.filter fun p => (p.1.landing? fileLines).isSome
  have hgroup : g.replacement.length ≤ landed.length := by
    have hsub : (g.members.filterMap Edit.inserted?).Sublist ins := by
      rw [show ins = ((segments edits).map (Segment.inserted fileLines options)).flatten
        from List.flatMap_def]
      exact List.sublist_flatten_of_mem (List.mem_map.mpr ⟨_, hg, rfl⟩)
    obtain ⟨es, hfind⟩ := found_of_mem_segments hg
    obtain ⟨inserts, deletes, -, hmembers, hreplacement, -, hins, -⟩ :=
      findReplacementGroup_spec hfind
    rw [hmembers, List.filterMap_append] at hsub
    have hall : ((inserts.filterMap Edit.inserted?).filter fun p =>
      (p.1.landing? fileLines).isSome) =
        inserts.filterMap Edit.inserted? := by
      rw [List.filter_eq_self]
      intro p hp
      obtain ⟨e, he, hct⟩ := List.mem_filterMap.mp hp
      obtain ⟨a, t, i, rfl⟩ := Edit.insert_of_isGroupInsert (hins e he)
      cases hct
      rfl
    have hlen :=
      (((List.sublist_append_left _ _).trans hsub).filter fun p =>
        (p.1.landing? fileLines).isSome).length_le
    rw [hall] at hlen
    rw [hreplacement, filterMap_text?_eq, List.length_map]
    exact hlen
  have hlanded :=
    length_le_flatMap_filter (fun p : Cursor × String => p.1.landing? fileLines)
      fileLines.length landed (by
    intro p hp
    obtain ⟨hmem, hsome⟩ := List.mem_filter.mp hp
    obtain ⟨l, hl⟩ := Option.isSome_iff_exists.mp hsome
    exact ⟨l, hl, landing?_inRange_of_mem hrange hmem hl⟩)
  have htexts : (anchoredTexts (absorbedEdits edits fileLines options) fileLines).length =
      ((List.range' 1 fileLines.length).flatMap fun l =>
        landed.filter fun p => p.1.landing? fileLines = some l).length := by
    rw [anchoredTexts, List.length_flatMap, List.length_flatMap]
    congr 1
    refine List.map_congr_left fun l _ => ?_
    rw [absorbedEdits, insertsAt_normalize, inserted_absorb, List.length_map, List.filter_filter]
    congr 1
    refine List.filter_congr fun p _ => ?_
    by_cases hl : p.1.landing? fileLines = some l <;> simp [hl]
  omega

end

theorem suffixCount_cases (fileLines : List String) (g : ReplacementGroup) :
    suffixCount fileLines g = 0 ∨ 2 ≤ suffixCount fileLines g ∨
      ∃ line, fileLines[g.endLine]? = some line ∧ isStructuralClosingBoundaryLine line = true := by
  unfold suffixCount
  dsimp only
  split
  · rcases longestBlock_spec
      (fun count =>
      matchesBlock fileLines g.endLine g.replacement (g.replacement.length - count) count)
      (min g.replacement.length (fileLines.length - g.endLine)) with h | ⟨h, -⟩
    · exact .inl h
    · exact .inr (.inl h)
  · unfold countMatchingSingleStructuralSuffixBoundary
    split
    · exact .inl rfl
    · rename_i line _
      split
      · exact .inl rfl
      split
      · exact .inl rfl
      split
      · exact .inl rfl
      · rename_i hstruct hline
        exact .inr (.inr ⟨line, by simpa using hline, by simpa using hstruct⟩)

theorem absorbed_final_line {edits : List Edit} {fileLines : List String} {options : ApplyOptions}
    (hrange : AnchorsInRange edits fileLines) (hblank : lineAt fileLines fileLines.length = "")
    (hfinal : isDeleted edits fileLines.length = false)
    (hdel : isDeleted (absorbedEdits edits fileLines options) fileLines.length = true) :
    ∃ k, 1 ≤ k ∧ k ≤ fileLines.length ∧
      (∀ l, k ≤ l → l ≤ fileLines.length →
        isDeleted (absorbedEdits edits fileLines options) l = true) ∧
      insertsAt (absorbedEdits edits fileLines options) k ≠ [] ∧
      2 ≤ (anchoredTexts (absorbedEdits edits fileLines options) fileLines).length := by
  rw [isDeleted_absorbedEdits, hfinal, Bool.false_or] at hdel
  obtain ⟨g, hmem, hg⟩ := List.any_eq_true.mp hdel
  have hseg := mem_replacementGroups.mp hmem
  have hin := group_inRange hrange hseg
  simp only [Bool.or_eq_true, Bool.and_eq_true, decide_eq_true_eq] at hg
  have hbelow : g.endLine < fileLines.length ∧
      fileLines.length ≤ g.endLine + absorbedBelow edits fileLines g := by
    omega
  have hrep := safeSuffixCount_repeats fileLines (collectAnchorTargetLines edits) g
  have hcount : absorbedBelow edits fileLines g = suffixCount fileLines g := by
    unfold absorbedBelow safeSuffixCount at hbelow ⊢
    dsimp only at hbelow ⊢
    split at hbelow
    · omega
    · rename_i hext
      simp [hext]
  have htwo : 2 ≤ absorbedBelow edits fileLines g := by
    by_contra hlt
    have hone : fileLines.length = g.endLine + 1 := by omega
    rcases suffixCount_cases fileLines g with h | h | ⟨line, hline, hstruct⟩
    · omega
    · omega
    · have hlast : lineAt fileLines fileLines.length = line := by
        rw [lineAt, List.getD_eq_getElem?_getD, hone, Nat.add_sub_cancel, hline, Option.getD_some]
      rw [← hlast, hblank] at hstruct
      revert hstruct
      decide
  refine ⟨g.startLine, hin.1, by omega, fun l h1 h2 => ?_, ?_, ?_⟩
  · rw [isDeleted_absorbedEdits]
    by_cases hl : l ≤ g.endLine
    · simp [isDeleted_of_group hseg h1 hl]
    · have habs : isAbsorbed edits fileLines l = true :=
        List.any_eq_true.mpr ⟨g, hmem, by simp; omega⟩
      simp [habs]
  · obtain ⟨es, hfind⟩ := found_of_mem_segments hseg
    obtain ⟨inserts, deletes, -, hmembers, -, -, -, -, ⟨a, t, i, more, rfl, ha⟩, -⟩ :=
      findReplacementGroup_spec hfind
    rw [insertsAt_absorbedEdits]
    refine List.ne_nil_of_mem (a :=
      t) (List.mem_flatMap.mpr ⟨_, hseg, List.mem_map.mpr ⟨(.beforeAnchor a, t), ?_, rfl⟩⟩)
    refine List.mem_filter.mpr
      ⟨List.mem_filterMap.mpr ⟨.insert (.beforeAnchor a) t g.sourceLineNum i, ?_, rfl⟩, ?_⟩
    · simp [hmembers]
    · simp [Cursor.landing?, Cursor.normalize, Cursor.beforeLine?, ha]
  · have : g.replacement.length ≤
        (anchoredTexts (absorbedEdits edits fileLines options) fileLines).length :=
      length_replacement_le hrange hseg
    have := hrep.le_length
    unfold absorbedBelow at htwo
    omega

theorem closesLast_appliedLines {edits : List Edit} {fileLines : List String}
    (options : ApplyOptions) (hrange : AnchorsInRange edits fileLines)
    (hblank : lineAt fileLines fileLines.length = "") (hpos : 1 ≤ fileLines.length)
    (hfinal : isDeleted edits fileLines.length = false) :
    closesLast (appliedLines (absorbedEdits edits fileLines options) fileLines).1 =
      keepsFinalNewline (absorbedEdits edits fileLines options) fileLines := by
  unfold appliedLines keepsFinalNewline
  dsimp only
  cases hdel : isDeleted (absorbedEdits edits fileLines options) fileLines.length with
  | true =>
    obtain ⟨k, h1, h2, hdeleted, hins, htwo⟩ := absorbed_final_line hrange hblank hfinal hdel
    obtain ⟨hlast, hne⟩ := getLast?_simultaneous_of_deleted h1 h2 hdeleted hins
    have hnot : simultaneous (absorbedEdits edits fileLines options) fileLines ≠ [""] :=
      fun hone => by
      have := (length_anchoredTexts_le (absorbedEdits edits fileLines options) fileLines)
      rw [hone] at this
      simp at this
      omega
    rw [closesLast_edges _ _ hne hnot, hlast, closesLast_congr hlast]
    simp
  | false =>
    obtain ⟨front, hfront, hnil⟩ := simultaneous_of_kept hpos hdel
    rw [hblank] at hfront
    rw [hfront]
    by_cases hempty : front = []
    · rw [hempty, List.nil_append, closesLast_edges_of_blank]
      simp [hnil.mp hempty]
    · rw [closesLast_edges _ _ (by simp) (by simp [hempty])]
      rw [if_neg Bool.false_ne_true, if_neg (mt hnil.mpr hempty)]
      simp

theorem lineAt_length_of_newline {text : String} (h : text.toList.getLast? = some '\n') :
    lineAt (splitLines text) (splitLines text).length = "" := by
  have hclosed : closesLast (splitLines text) = true := by
    rw [← closesLine_joinLines, joinLines_splitLines]
    exact closesLine_iff.mpr (.inr h)
  obtain ⟨front, last, hlines⟩ :=
    (List.eq_nil_or_concat' (splitLines text)).resolve_left (splitLines_ne_nil text)
  have hlast : closesLine last = true := by simpa [closesLast, hlines] using hclosed
  have hmem : last ∈ splitLines text := by simp [hlines]
  have hnot : '\n' ∉ last.toList := notMem_of_mem_splitLines hmem
  have hempty : last = "" := (closesLine_iff.mp hlast).resolve_right fun hend =>
    hnot (List.mem_of_getLast? hend)
  simp [lineAt, hlines, hempty]

/-- The final newline of a file survives a batch exactly if `keepsFinalNewline` holds of the batch as
absorbed. -/
theorem final_newline_survives_iff (text : String) (edits : List Edit) (options : ApplyOptions)
    (r : ApplyResult) (hnewline : text.toList.getLast? = some '\n')
    (hfinal : ∀ e ∈ edits, e.targetLine? ≠ some (splitLines text).length)
    (h : applyHashlineEdits text edits options = .ok r) :
    (r.lines = "" ∨ r.lines.toList.getLast? = some '\n') ↔
      keepsFinalNewline (absorbedEdits edits (splitLines text) options)
        (splitLines text) = true := by
  have hdel : isDeleted edits (splitLines text).length = false := by
    rw [Bool.eq_false_iff]
    intro hdel
    obtain ⟨e, he, hl⟩ := isDeleted_iff.mp hdel
    exact hfinal e he (Edit.targetLine?_of_deletedLine? hl)
  obtain ⟨hvalid, hcases⟩ := applyHashlineEdits_eq_ok h
  have hkeeps := closesLast_appliedLines options (anchorsInRange_of_validate hvalid)
    (lineAt_length_of_newline hnewline) (List.length_pos_of_ne_nil (splitLines_ne_nil text)) hdel
  have hlines : r.lines =
      joinLines (appliedLines (absorbedEdits edits (splitLines text) options)
      (splitLines text)).1 := by
    rcases hcases with ⟨rfl, hlines, -⟩ | ⟨hlines, -⟩
    · have hnil := resultLines_nil (splitLines text) options
      rw [resultLines_eq (anchorsInRange_of_validate hvalid)] at hnil
      rw [appliedLines, hnil, joinLines_splitLines, hlines]
    · exact hlines
  rw [← closesLine_iff, hlines, closesLine_joinLines, hkeeps]

theorem final_newline_survives_absorption :
    applyHashlineEdits "a\nb\nc\n" [.insert (.beforeAnchor ⟨2, "yo"⟩) "x" 1 0,
      .insert (.beforeAnchor ⟨2, "yo"⟩) "c" 1 1, .insert (.beforeAnchor ⟨2, "yo"⟩) "" 1 2,
        .delete ⟨2, "yo"⟩ 1 3] {} =
      .ok ⟨"a\nx\nc\n", some 2, ["Auto-absorbed 2 duplicate line(s) below replacement at line 1 " ++
        "(file lines 3..4 matched the payload's trailing lines; widened the deletion to absorb them)."]⟩ ∧
      ("a\nx\nc\n" = "" ∨ "a\nx\nc\n".toList.getLast? = some '\n') := by
  have h : applyHashlineEdits "a\nb\nc\n" [.insert (.beforeAnchor ⟨2, "yo"⟩) "x" 1 0,
        .insert (.beforeAnchor ⟨2, "yo"⟩) "c" 1 1, .insert (.beforeAnchor ⟨2, "yo"⟩) "" 1 2,
        .delete ⟨2, "yo"⟩ 1 3] {} =
      .ok ⟨"a\nx\nc\n", some 2, ["Auto-absorbed 2 duplicate line(s) below replacement at line 1 " ++
        "(file lines 3..4 matched the payload's trailing lines; widened the deletion to absorb them)."]⟩ := by
    decide +kernel
  exact ⟨h, (final_newline_survives_iff _ _ _ _ (by decide) (by decide) h).mpr (by decide +kernel)⟩

theorem emptied_file_loses_newline :
    "a\n".toList.getLast? = some '\n' ∧
      (∀ e ∈ [Edit.delete ⟨1, "hs"⟩ 1 0, .insert .bof "x" 2 1],
        e.targetLine? ≠ some (splitLines "a\n").length) ∧
      applyHashlineEdits "a\n" [.delete ⟨1, "hs"⟩ 1 0, .insert .bof "x" 2 1] {} =
        .ok ⟨"x", some 1, []⟩ ∧
      ¬ ("x" = "" ∨ "x".toList.getLast? = some '\n') := by
  refine ⟨by decide, by decide, by decide +kernel, by decide⟩

end JevCode.Hashline
