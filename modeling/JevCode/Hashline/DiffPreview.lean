import JevCode.Data.JsonTree
import JevCode.Edit.DiffString
import JevCode.Hashline.Apply
import JevCode.Hashline.RoundTrip

namespace JevCode.Hashline

open JevCode.Text JevCode.Data

def leadingNumber (text : List Char) : Option Int :=
  match text.takeWhile isDigit with
  | [] => none
  | digits => some (Nat.ofDigitChars 10 digits 0)

def parseInt (text : List Char) : Option Int :=
  match trimStart text with
  | '-' :: rest => (leadingNumber rest).map (-·)
  | '+' :: rest => leadingNumber rest
  | rest => leadingNumber rest

def numberText : Option Int → String
  | some n => toString n
  | none => "NaN"

def anchoredRow (kind : String) (lineNumber : Option Int) (content : String) : String :=
  kind ++ numberText lineNumber ++ computeLineHash (lineNumber.getD 0).toNat content ++
    "|" ++ content

structure PreviewCounts where
  addedLines : Nat := 0
  removedLines : Nat := 0

def previewLine (counts : PreviewCounts) (line : String) : PreviewCounts × String :=
  match line.toList with
  | [] => (counts, line)
  | kind :: body =>
    if '|' ∉ body then (counts, line)
    else
      let lineNumber := parseInt (body.takeWhile (· ≠ '|'))
      let content := String.ofList ((body.dropWhile (· ≠ '|')).drop 1)
      match kind with
      | '+' =>
        ({ counts with addedLines := counts.addedLines + 1 }, anchoredRow "+" lineNumber content)
      | '-' =>
        ({ counts with
          removedLines :=
          counts.removedLines + 1 }, "-" ++ numberText lineNumber ++ "--" ++ "|" ++ content)
      | ' ' =>
        (counts, anchoredRow " "
          (lineNumber.map (· + counts.addedLines - counts.removedLines)) content)
      | _ => (counts, line)

structure CompactHashlineDiffPreview where
  preview : String
  addedLines : Nat
  removedLines : Nat

def buildCompactHashlineDiffPreview (diff : String) : CompactHashlineDiffPreview :=
  let lines := if diff = "" then [] else splitLines diff
  let (counts, formatted) := mapState previewLine {} lines
  ⟨joinLines formatted, counts.addedLines, counts.removedLines⟩

open JevCode.Edit

def lineAnchor (n : Nat) (text : String) : Anchor := ⟨n, computeLineHash n text⟩

structure UsableAnchor (fileLines : List String) (n : Nat) (text : String) : Prop where
  names : NamesLine fileLines n text
  parsed : ∀ lineNum, parseLid (toString n ++ computeLineHash n text).toList lineNum =
    .ok (lineAnchor n text)
  checked : checkAnchor fileLines (lineAnchor n text) = .ok []

theorem isLower_of_mem_letters : ∀ c ∈ letters, isLower c = true := forall_mem_of_all (by decide)

theorem isFull_lineAnchor {n : Nat} (h : 1 ≤ n) (text : String) :
    (lineAnchor n text).isFull = true := by
  obtain ⟨a, ha, b, hb, hhash⟩ := computeLineHash_eq_ofList n text
  simp [Anchor.isFull, lineAnchor, h, hhash, isLower_of_mem_letters a ha,
    isLower_of_mem_letters b hb]

theorem render_lineAnchor (n : Nat) (text : String) :
    (lineAnchor n text).render = toString n ++ computeLineHash n text := by
  simp only [Anchor.render, lineAnchor, Nat.toString_eq_repr, Nat.repr_eq_ofList_toDigits]

theorem usableAnchor_of_names {fileLines : List String} {n : Nat} {text : String}
    (h : NamesLine fileLines n text) :
    UsableAnchor fileLines n text := by
  refine ⟨h, ?_, ?_⟩
  · rw [← render_lineAnchor]
    exact parseLid_render (isFull_lineAnchor h.1 text)
  · obtain ⟨hpos, hline⟩ := h
    have hlength := (List.getElem?_eq_some_iff.mp hline).1
    have htext : lineAt fileLines n = text := by
      rw [lineAt, List.getD_eq_getElem?_getD, hline, Option.getD_some]
    have hbounds : ¬n = 0 ∧ n ≤ fileLines.length := by omega
    simpa [checkAnchor, lineAnchor, htext] using hbounds

theorem leadingNumber_toDigits (n : Nat) : leadingNumber (Nat.toDigits 10 n) = some (n : Int) := by
  have hdigits : (Nat.toDigits 10 n).takeWhile isDigit = Nat.toDigits 10 n :=
    List.takeWhile_eq_self_iff.mpr fun c hc => isDigit_of_mem_toDigits hc
  unfold leadingNumber
  rw [hdigits]
  split
  · rename_i hnil
    exact absurd hnil Nat.toDigits_ne_nil
  · rw [Nat.ofDigitChars_ten_toDigits]

theorem parseInt_toDigits (n : Nat) : parseInt (Nat.toDigits 10 n) = some (n : Int) := by
  cases h : Nat.toDigits 10 n with
  | nil => exact absurd h Nat.toDigits_ne_nil
  | cons d ds =>
    have hrange := isDigit_iff.mp (isDigit_of_mem_toDigits (h ▸ List.mem_cons_self))
    unfold parseInt
    rw [trimStart_cons (isSpace_of_printable (by omega) (by omega))]
    split
    · rename_i heq
      obtain rfl := (List.cons.inj heq).1
      simp at hrange
    · rename_i heq
      obtain rfl := (List.cons.inj heq).1
      simp at hrange
    · rw [← h, leadingNumber_toDigits]

theorem toList_formatNumberedDiffLine (row : DiffRow) : (formatNumberedDiffLine row).toList =
    row.kind.sigil.toList ++ (Nat.toDigits 10 row.lineNum ++ '|' :: row.content.toList) := by
  simp [formatNumberedDiffLine]

theorem bar_ne_of_mem_toDigits {n : Nat} {c : Char} (h : c ∈ Nat.toDigits 10 n) :
    decide (c ≠ '|') = true := by
  have hrange := isDigit_iff.mp (isDigit_of_mem_toDigits h)
  apply decide_eq_true
  rintro rfl
  simp at hrange

theorem previewLine_format (counts : PreviewCounts) (row : DiffRow) :
    previewLine counts (formatNumberedDiffLine row) =
      match row.kind with
      | .added =>
        ({ counts with
          addedLines := counts.addedLines + 1 }, anchoredRow "+" (some row.lineNum) row.content)
      | .removed => ({ counts with removedLines := counts.removedLines + 1 },
          "-" ++ toString row.lineNum ++ "--" ++ "|" ++ row.content)
      | .context => (counts,
          anchoredRow " " (some (row.lineNum + counts.addedLines - counts.removedLines))
          row.content) := by
  have hbar : '|' ∈ Nat.toDigits 10 row.lineNum ++ '|' :: row.content.toList := by simp
  have htake : (Nat.toDigits 10 row.lineNum ++ '|' :: row.content.toList).takeWhile (· ≠ '|') =
      Nat.toDigits 10 row.lineNum := by
    rw [List.takeWhile_append_of_pos fun c hc => bar_ne_of_mem_toDigits hc]
    simp
  have hdrop : (Nat.toDigits 10 row.lineNum ++ '|' :: row.content.toList).dropWhile (· ≠ '|') =
      '|' :: row.content.toList := by
    rw [List.dropWhile_append_of_pos fun c hc => bar_ne_of_mem_toDigits hc]
    simp
  have hcontent : String.ofList (('|' :: row.content.toList).drop 1) = row.content :=
    String.ofList_toList
  unfold previewLine
  rw [toList_formatNumberedDiffLine]
  cases row.kind <;>
    simp only [RowKind.sigil, String.reduceToList, List.cons_append, List.nil_append, hbar, htake,
    hdrop, hcontent, parseInt_toDigits, not_true_eq_false, if_false] <;> rfl

inductive PreviewRow (fileLines : List String) : String → Prop
  | added : UsableAnchor fileLines n text →
      PreviewRow fileLines ("+" ++ toString n ++ computeLineHash n text ++ "|" ++ text)
  | removed (n : Nat) : '\n' ∉ text.toList →
    PreviewRow fileLines ("-" ++ toString n ++ "--" ++ "|" ++ text)
  | context : UsableAnchor fileLines n text →
      PreviewRow fileLines (" " ++ toString n ++ computeLineHash n text ++ "|" ++ text)
  | elision : 1 ≤ n → PreviewRow fileLines
    (" " ++ toString n ++ computeLineHash n "..." ++ "|" ++ "...")

variable {oldContent newContent : String}

theorem notMem_of_namesLine {content text : String} (h : NamesLine (splitLines content) n text) :
    '\n' ∉ text.toList :=
  notMem_of_mem_splitLines (List.mem_of_getElem? h.2)

theorem notMem_of_rowNamed {added removed : Nat} {row : DiffRow}
    (h : RowNamed (splitLines oldContent) (splitLines newContent) added removed row) :
    '\n' ∉ row.content.toList := by
  unfold RowNamed at h
  split at h
  · exact notMem_of_namesLine h
  · exact notMem_of_namesLine h
  · obtain ⟨n, -, -, htext | htext⟩ := h
    · rw [htext]
      decide
    · exact notMem_of_namesLine htext

theorem previewRow_of_rowNamed {added removed : Nat} {row : DiffRow}
    (h : RowNamed (splitLines oldContent) (splitLines newContent) added removed row) :
    PreviewRow (splitLines newContent)
      (previewLine ⟨added, removed⟩ (formatNumberedDiffLine row)).2 := by
  have hcontent := notMem_of_rowNamed h
  rw [previewLine_format]
  obtain ⟨kind, lineNum, content⟩ := row
  cases kind with
  | added => exact .added (usableAnchor_of_names h)
  | removed => exact .removed lineNum hcontent
  | context =>
    obtain ⟨n, hn, hpos, htext⟩ := h
    have hnumber : (lineNum : Int) + added - removed = n := by
      simp only at hn
      omega
    simp only [hnumber]
    rcases htext with rfl | htext
    · exact .elision hpos
    · exact .context (usableAnchor_of_names htext)

theorem counts_previewLine (added removed : Nat) (row : DiffRow) :
    (previewLine ⟨added, removed⟩ (formatNumberedDiffLine row)).1 =
      ⟨added + countRows .added [row], removed + countRows .removed [row]⟩ := by
  rw [previewLine_format]
  obtain ⟨kind, lineNum, content⟩ := row
  cases kind <;> rfl

theorem previewRow_of_rowsNamed {rows : List DiffRow} {added removed : Nat}
    (h : RowsNamed (splitLines oldContent) (splitLines newContent) added removed rows) :
    ∀ line ∈ (mapState previewLine ⟨added, removed⟩ (rows.map formatNumberedDiffLine)).2,
      PreviewRow (splitLines newContent) line := by
  induction rows generalizing added removed with
  | nil => simp [mapState]
  | cons row rows ih =>
    intro line hline
    rw [List.map_cons, mapState] at hline
    rcases List.mem_cons.mp hline with rfl | hline
    · exact previewRow_of_rowNamed h.1
    · rw [counts_previewLine] at hline
      exact ih h.2 line hline

theorem rowNamed_of_mem {rows : List DiffRow} {added removed : Nat}
    (h : RowsNamed old new added removed rows) {row : DiffRow} (hrow : row ∈ rows) :
    ∃ added removed, RowNamed old new added removed row := by
  induction rows generalizing added removed with
  | nil => cases hrow
  | cons first rows ih =>
    rcases List.mem_cons.mp hrow with rfl | hrow
    · exact ⟨added, removed, h.1⟩
    · exact ih h.2 hrow

theorem newline_notMem_toDigits (n : Nat) : '\n' ∉ Nat.toDigits 10 n := by
  intro hmem
  exact absurd (isDigit_of_mem_toDigits hmem) (by decide)

theorem newline_notMem_computeLineHash (n : Nat) (text : String) :
    '\n' ∉ (computeLineHash n text).toList := by
  obtain ⟨a, ha, b, hb, hhash⟩ := computeLineHash_eq_ofList n text
  rw [hhash, String.toList_ofList]
  intro hmem
  rcases List.mem_pair.mp hmem with rfl | rfl
  · exact absurd ha (by decide)
  · exact absurd hb (by decide)

theorem notMem_of_previewRow {line : String} (h : PreviewRow (splitLines newContent) line) :
    '\n' ∉ line.toList := by
  have hrow : ∀ (n : Nat) {kind text : String}, '\n' ∉ kind.toList → '\n' ∉ text.toList →
      '\n' ∉ (kind ++ toString n ++ computeLineHash n text ++ "|" ++ text).toList := by
    intro n kind text hkind htext
    simp [hkind, htext, newline_notMem_toDigits, newline_notMem_computeLineHash]
  cases h with
  | added h => exact hrow _ (by decide) (notMem_of_namesLine h.names)
  | removed n h => simp [h, newline_notMem_toDigits]
  | context h => exact hrow _ (by decide) (notMem_of_namesLine h.names)
  | elision h => exact hrow _ (by decide) (by decide)

theorem notMem_format {row : DiffRow} (h : '\n' ∉ row.content.toList) :
    '\n' ∉ (formatNumberedDiffLine row).toList := by
  have hsigil : '\n' ∉ row.kind.sigil.toList := by cases row.kind <;> decide
  simp [formatNumberedDiffLine, h, hsigil, newline_notMem_toDigits]

theorem splitLines_join_rows {rows : List String} (hne : ∀ row ∈ rows, row ≠ "")
    (h : ∀ row ∈ rows, '\n' ∉ row.toList) :
    (if joinLines rows = "" then [] else splitLines (joinLines rows)) = rows := by
  cases rows with
  | nil => rfl
  | cons row rows =>
    have hsplit := splitLines_joinLines_of_notMem (List.cons_ne_nil row rows) h
    rw [if_neg, hsplit]
    intro hempty
    rw [hempty] at hsplit
    exact hne row List.mem_cons_self (List.cons.inj hsplit).1.symm

theorem mem_splitLines_joinLines {rows : List String} (h : ∀ row ∈ rows, '\n' ∉ row.toList)
    {row : String} (hrow : row ∈ splitLines (joinLines rows)) : row = "" ∨ row ∈ rows := by
  cases rows with
  | nil => exact .inl (List.mem_singleton.mp hrow)
  | cons first rows =>
    rw [splitLines_joinLines_of_notMem (List.cons_ne_nil first rows) h] at hrow
    exact .inr hrow

theorem preview_generated {rows : List DiffRow} (h : ∀ row ∈ rows, '\n' ∉ row.content.toList) :
    (buildCompactHashlineDiffPreview (joinLines (rows.map formatNumberedDiffLine))).preview =
      joinLines (mapState previewLine {} (rows.map formatNumberedDiffLine)).2 := by
  have hlines : ∀ line ∈ rows.map formatNumberedDiffLine, line ≠ "" ∧ '\n' ∉ line.toList := by
    intro line hline
    obtain ⟨row, hrow, rfl⟩ := List.mem_map.mp hline
    refine ⟨?_, notMem_format (h row hrow)⟩
    intro hempty
    have hlist := toList_formatNumberedDiffLine row
    rw [hempty] at hlist
    simp at hlist
  rw [buildCompactHashlineDiffPreview, splitLines_join_rows (fun line hline => (hlines line hline).1)
    fun line hline => (hlines line hline).2]

section

variable {diffLines : String → String → List DiffLinePart}
  (h : IsLineDiff (diffLines oldContent newContent) oldContent newContent) (contextLines : Int)

include h

theorem notMem_of_mem_output :
    ∀ row ∈ (diffParts contextLines.toNat {} (diffLines oldContent newContent)).output, '\n' ∉
      row.content.toList := by
  intro row hrow
  obtain ⟨added, removed, hnamed⟩ := rowNamed_of_mem (rowsNamed_diffParts h contextLines.toNat) hrow
  exact notMem_of_rowNamed hnamed

theorem rowNamed_of_mem_diff {row : String}
    (hrow : row ∈ splitLines
      (generateDiffString diffLines oldContent newContent contextLines).diff) :
    row = "" ∨ ∃ diffRow added removed, row = formatNumberedDiffLine diffRow ∧
      RowNamed (splitLines oldContent) (splitLines newContent) added removed diffRow := by
  have hlines : ∀ line ∈
      (diffParts contextLines.toNat {} (diffLines oldContent newContent)).output.map
      formatNumberedDiffLine, '\n' ∉ line.toList := by
    intro line hline
    obtain ⟨diffRow, hmem, rfl⟩ := List.mem_map.mp hline
    exact notMem_format (notMem_of_mem_output h contextLines diffRow hmem)
  refine (mem_splitLines_joinLines hlines hrow).imp_right fun hmem => ?_
  obtain ⟨diffRow, hdiffRow, rfl⟩ := List.mem_map.mp hmem
  obtain ⟨added, removed, hnamed⟩ :=
    rowNamed_of_mem (rowsNamed_diffParts h contextLines.toNat) hdiffRow
  exact ⟨diffRow, added, removed, rfl, hnamed⟩

theorem previewRow_of_mem_preview {row : String} (hrow : row ∈ splitLines
      (buildCompactHashlineDiffPreview
        (generateDiffString diffLines oldContent newContent contextLines).diff).preview) :
    row = "" ∨ PreviewRow (splitLines newContent) row := by
  have hrows := previewRow_of_rowsNamed (rowsNamed_diffParts h contextLines.toNat)
  rw [generateDiffString, preview_generated (notMem_of_mem_output h contextLines)] at hrow
  exact (mem_splitLines_joinLines (fun line hline => notMem_of_previewRow (hrows line hline))
    hrow).imp_right (hrows row)

end

/-- After an edit, the added rows and the context rows of the preview carry anchors that can be used
on the new file, elisions apart, and the removed rows of the diff name the lines of the old file. -/
theorem preview_anchors_usable (diffLines : String → String → List DiffLinePart)
    (oldContent newContent : String) (contextLines : Int)
    (h : IsLineDiff (diffLines oldContent newContent) oldContent newContent) :
    let diff := (generateDiffString diffLines oldContent newContent contextLines).diff
    (∀ row ∈ splitLines (buildCompactHashlineDiffPreview diff).preview,
      (row.toList.head? = some '+' → ∃ n text,
        row = "+" ++ toString n ++ computeLineHash n text ++ "|" ++ text ∧
        UsableAnchor (splitLines newContent) n text) ∧
      (row.toList.head? = some ' ' → ∃ n text,
        row = " " ++ toString n ++ computeLineHash n text ++ "|" ++ text ∧
          (text ≠ "..." → UsableAnchor (splitLines newContent) n text))) ∧
    ∀ row ∈ splitLines diff, row.toList.head? = some '-' → ∃ n text,
      row = "-" ++ toString n ++ "|" ++ text ∧ NamesLine (splitLines oldContent) n text := by
  constructor
  · intro row hrow
    rcases previewRow_of_mem_preview h contextLines hrow with rfl | hrow
    · simp
    · cases hrow with
      | added husable => exact ⟨fun _ => ⟨_, _, rfl, husable⟩, fun hhead => by simp at hhead⟩
      | removed n hnone => constructor <;> intro hhead <;> simp at hhead
      | context husable =>
        exact ⟨fun hhead => by simp at hhead, fun _ => ⟨_, _, rfl, fun _ => husable⟩⟩
      | elision hpos =>
        exact ⟨fun hhead => by simp at hhead, fun _ => ⟨_, "...", rfl, fun hne => absurd rfl hne⟩⟩
  · intro row hrow hhead
    rcases rowNamed_of_mem_diff h contextLines hrow with rfl |
      ⟨⟨kind, n, text⟩, added, removed, rfl, hnamed⟩
    · simp at hhead
    · cases kind with
      | removed => exact ⟨n, text, rfl, hnamed⟩
      | added => simp [toList_formatNumberedDiffLine, RowKind.sigil] at hhead
      | context => simp [toList_formatNumberedDiffLine, RowKind.sigil] at hhead

def changedLine : List DiffLinePart :=
  [⟨.unchanged, "a\n"⟩, ⟨.removed, "b\n"⟩, ⟨.added, "c\n"⟩, ⟨.unchanged, "d"⟩]

theorem changedLine_anchors_usable :
    IsLineDiff changedLine "a\nb\nd" "a\nc\nd" ∧
      (generateDiffString (fun _ _ => changedLine) "a\nb\nd"
        "a\nc\nd").diff = " 1|a\n-2|b\n+2|c\n 3|d" ∧
      (∀ row ∈ splitLines (buildCompactHashlineDiffPreview
          (generateDiffString (fun _ _ => changedLine) "a\nb\nd" "a\nc\nd").diff).preview,
        row.toList.head? = some '+' →
          ∃ n text, row = "+" ++ toString n ++ computeLineHash n text ++ "|" ++ text ∧
          UsableAnchor (splitLines "a\nc\nd") n text) ∧
      ∀ row ∈ splitLines (generateDiffString (fun _ _ => changedLine) "a\nb\nd" "a\nc\nd").diff,
        row.toList.head? = some '-' → ∃ n text, row = "-" ++ toString n ++ "|" ++ text ∧
          NamesLine (splitLines "a\nb\nd") n text := by
  have hdiff : IsLineDiff changedLine "a\nb\nd" "a\nc\nd" :=
    ⟨by decide, by decide, by simp [AtLineBoundaries, oldValues, changedLine],
      by simp [AtLineBoundaries, newValues, changedLine]⟩
  have husable := preview_anchors_usable (fun _ _ => changedLine) "a\nb\nd" "a\nc\nd" 4 hdiff
  exact ⟨hdiff, by decide +kernel, fun row hrow => (husable.1 row hrow).1, husable.2⟩

end JevCode.Hashline
