import JevCode.Session.TruncationLaws

namespace JevCode.Session.Truncation

open JevCode.Text JevCode.Data

variable {content shown t : List CodeUnit} {A B R lines : List Line} {maxLines maxBytes : Nat}

def lineCount (text : List CodeUnit) : Nat := countNewlines text + 1

def ShownAs (t shown : List CodeUnit) : Prop :=
  shown = t ∨ ∃ points, t = pointsUnits points ∧ shown = charsUnits (points.map CodePoint.toChar)

def WindowsMeet (content : List CodeUnit) (maxLines maxBytes : Nat) : Prop :=
  ∃ a b, content = a ++ nl :: b ∧ utf8Length a ≤ maxBytes / 2 ∧
    utf8Length b ≤ maxBytes - maxBytes / 2 ∧
    lineCount a + lineCount b ≤ maxLines

/-- The content is over the budget, all its lines but the last fit the share of the head, and the
last one does not fit the share of the tail. -/
def OverlongLast (content : List CodeUnit) (maxLines maxBytes : Nat) : Prop :=
  maxBytes < utf8Length content ∧
  ∃ a l, content = a ++ nl :: l ∧ nl ∉ l ∧ 0 < maxBytes / 2 ∧ utf8Length a ≤ maxBytes / 2 ∧
    lineCount a ≤ maxLines / 2 ∧ maxBytes - maxBytes / 2 < utf8Length l

inductive Shows (marker : Nat → Nat → List CodeUnit) (content : List CodeUnit)
    (maxLines maxBytes : Nat) (r : TruncationResult) : Prop
  | head (isPrefix : r.content <+: content) (bytes : utf8Length r.content ≤ maxBytes)
      (lines : lineCount r.content ≤ maxLines)
  | tail (t : List CodeUnit) (isSuffix : t <:+ content) (shown : ShownAs t r.content)
      (bytes : utf8Length r.content ≤ maxBytes) (lines : lineCount r.content ≤ maxLines)
  | middle (head t tail : List CodeUnit) (elidedLines elidedBytes : Nat)
      (content_eq : r.content = head ++ nl :: (marker elidedLines elidedBytes ++ nl :: tail))
      (elided : r.elidedLines = some elidedLines ∧ r.elidedBytes = some elidedBytes)
      (isPrefix : head <+: content) (isSuffix : t <:+ content) (shown : ShownAs t tail)
      (disjoint : head.length + t.length ≤ content.length)
        (bytes : utf8Length head + utf8Length tail ≤ maxBytes)
      (lines : lineCount head + lineCount tail ≤ maxLines)
  | meet (windows : WindowsMeet content maxLines maxBytes) (content_eq : r.content = content)
      (bytes : utf8Length content ≤ maxBytes + 1) (lines : lineCount content ≤ maxLines)

theorem lineCount_join (hA : A ≠ []) (hnl : ∀ l ∈ A, nl ∉ l) : lineCount (join A) = A.length := by
  rw [lineCount, ← length_linesOf, linesOf, join, List.splitOn_intercalate nl hnl hA]

theorem lineCount_join_le (hA : A.length ≤ maxLines) (hpos : 1 ≤ maxLines) (hnl : ∀ l ∈ A, nl ∉ l) :
    lineCount (join A) ≤ maxLines := by
  by_cases hnil : A = []
  · rw [hnil]
    exact hpos
  · rw [lineCount_join hnil hnl]
    exact hA

structure HeadShows (content : List CodeUnit) (maxLines maxBytes : Nat) (r : TruncationResult)
    (A R : List Line) :
    Prop where
  lines : linesOf content = A ++ R
  content_eq : r.content = join A
  count : outputLineCount r = A.length
  bytes : outputByteCount r = size A
  length_le : A.length ≤ maxLines
  size_le : size A ≤ maxBytes
  notPartial : r.lastLinePartial ≠ some true
  proper : R ≠ []

structure TailShows (content : List CodeUnit) (maxLines maxBytes : Nat) (r : TruncationResult)
    (A R : List Line) :
    Prop where
  lines : linesOf content = A ++ R
  content_eq : r.content = join R
  count : outputLineCount r = R.length
  bytes : outputByteCount r = size R
  length_le : R.length ≤ maxLines
  size_le : size R ≤ maxBytes
  notPartial : r.lastLinePartial ≠ some true
  nonempty : R ≠ []

structure PartialShows (content : List CodeUnit) (maxBytes : Nat) (r : TruncationResult)
    (A : List Line) (l : Line) (points : List CodePoint) : Prop where
  lines : linesOf content = A ++ [l]
  overLong : maxBytes < utf8Length l
  suffix : points <:+ codePoints l
  content_eq : r.content = charsUnits (points.map CodePoint.toChar)
  count : outputLineCount r = 1
  bytes : outputByteCount r = utf8Length r.content
  size_le : utf8Length r.content ≤ maxBytes
  lastPartial : r.lastLinePartial = some true

theorem headResult_truncated (totalLines totalBytes : Nat) (e : HeadEnd) :
    (headResult content maxLines maxBytes totalLines totalBytes e).truncated = some true := by
  cases e <;> rfl

theorem tailResult_truncated (totalLines totalBytes : Nat) (e : TailEnd) :
    (tailResult content maxLines maxBytes totalLines totalBytes e).truncated = some true := by
  cases e <;> rfl

theorem truncateHead_truncated
    (hover : ¬(lineCount content ≤ maxLines ∧ utf8Length content ≤ maxBytes)) :
    (truncateHead content (limits maxLines maxBytes)).truncated = some true := by
  have hover : truncateHead content (limits maxLines maxBytes) =
      headResult content maxLines maxBytes _ _ _ := if_neg hover
  rw [hover, headResult_truncated]

theorem truncateTail_truncated
    (hover : ¬(lineCount content ≤ maxLines ∧ utf8Length content ≤ maxBytes)) :
    (truncateTail content (limits maxLines maxBytes)).truncated = some true := by
  have hover : truncateTail content (limits maxLines maxBytes) =
      tailResult content maxLines maxBytes _ _ _ := if_neg hover
  rw [hover, tailResult_truncated]

theorem headShows (hover : ¬(lineCount content ≤ maxLines ∧ utf8Length content ≤ maxBytes)) :
    ∃ A R, HeadShows content maxLines maxBytes
      (truncateHead content (limits maxLines maxBytes)) A R := by
  obtain ⟨k, ⟨⟨htotal, hlines, hbytes⟩, -⟩, hkeeps⟩ :=
    truncateHead_keeps content maxLines maxBytes (limits maxLines maxBytes) rfl rfl
  obtain ⟨hcount, hsize⟩ := hkeeps.counts (by rw [truncateHead_truncated hover]; simp)
  have hlen : ((linesOf content).take k).length = k := by
    rw [List.length_take, Nat.min_eq_left htotal]
  refine ⟨(linesOf content).take k, (linesOf content).drop k, (List.take_append_drop k _).symm,
    hkeeps.content_eq, ?_, ?_, by rw [hlen]; exact hlines, hbytes, hkeeps.notPartial, fun hR => ?_⟩
  · rw [outputLineCount, hcount, hlen, Option.getD_some]
  · rw [outputByteCount, hsize, Option.getD_some]
    rfl
  · -- all the lines fit
    have hall : k = (linesOf content).length := Nat.le_antisymm htotal (by simpa using hR)
    rw [hall, headBytes, List.take_length, size_linesOf] at hbytes
    exact hover ⟨by rw [lineCount, ← length_linesOf, ← hall]; exact hlines, hbytes⟩

theorem linesOf_concat (content : List CodeUnit) :
    ∃ A, linesOf content = A ++ [lastLine nl content] := by
  obtain ⟨A, l, hAl⟩ :=
    (List.eq_nil_or_concat (linesOf content)).resolve_left (linesOf_ne_nil content)
  rw [List.concat_eq_append] at hAl
  exact ⟨A, by rw [lastLine_eq hAl, hAl]⟩

theorem tailShows (hpos : 1 ≤ maxLines)
    (hover : ¬(lineCount content ≤ maxLines ∧ utf8Length content ≤ maxBytes)) :
    (∃ A R, TailShows content maxLines maxBytes
      (truncateTail content (limits maxLines maxBytes)) A R) ∨
      ∃ A l points, PartialShows content maxBytes (truncateTail content (limits maxLines maxBytes)) A
        l points := by
  obtain ⟨hwhole, hpartial⟩ :=
    truncateTail_keeps content maxLines maxBytes (limits maxLines maxBytes) hpos rfl rfl
  by_cases hlast : utf8Length (lastLine nl content) ≤ maxBytes
  · obtain ⟨k, hk, ⟨⟨htotal, hlines, hbytes⟩, -⟩, hkeeps⟩ := hwhole hlast
    obtain ⟨hcount, hsize⟩ := hkeeps.counts (by rw [truncateTail_truncated hover]; simp)
    have hlen : ((linesOf content).drop ((linesOf content).length - k)).length = k := by
      rw [List.length_drop]
      omega
    refine .inl ⟨(linesOf content).take ((linesOf content).length - k),
      (linesOf content).drop ((linesOf content).length - k), (List.take_append_drop _ _).symm,
      hkeeps.content_eq, ?_, ?_, by
        rw [hlen]; exact hlines, hbytes, hkeeps.notPartial, List.ne_nil_of_length_pos (by omega)⟩
    · rw [outputLineCount, hcount, hlen, Option.getD_some]
    · rw [outputByteCount, hsize, Option.getD_some]
      rfl
  · obtain ⟨points, hkeeps⟩ := hpartial (Nat.not_le.mp hlast)
    obtain ⟨A, hA⟩ := linesOf_concat content
    refine .inr ⟨A, _, points, hA, Nat.not_le.mp hlast, hkeeps.suffix, hkeeps.content_eq, ?_, ?_, ?_,
      hkeeps.lastPartial⟩
    · rw [outputLineCount, hkeeps.lines, Option.getD_some]
    · rw [outputByteCount, hkeeps.bytes, Option.getD_some]
    · rw [hkeeps.content_eq, utf8Length_charsUnits]
      exact hkeeps.fits

theorem HeadShows.isPrefix {r : TruncationResult} (h : HeadShows content maxLines maxBytes r A R) :
    r.content <+: content := by
  have hjoin := join_isPrefix A R
  rw [← h.lines, join_linesOf] at hjoin
  rw [h.content_eq]
  exact hjoin

theorem TailShows.isSuffix {r : TruncationResult} (h : TailShows content maxLines maxBytes r A R) :
    r.content <:+ content := by
  have hjoin := join_isSuffix A R
  rw [← h.lines, join_linesOf] at hjoin
  rw [h.content_eq]
  exact hjoin

theorem HeadShows.lineCount_le {r : TruncationResult} (h : HeadShows content maxLines maxBytes r A R)
    (hpos : 1 ≤ maxLines) : lineCount r.content ≤ maxLines := by
  rw [h.content_eq]
  exact lineCount_join_le h.length_le hpos fun l hl =>
    notMem_linesOf content l (by rw [h.lines]; simp [hl])

theorem TailShows.lineCount_le {r : TruncationResult} (h : TailShows content maxLines maxBytes r A R)
    (hpos : 1 ≤ maxLines) : lineCount r.content ≤ maxLines := by
  rw [h.content_eq]
  exact lineCount_join_le h.length_le hpos fun l hl =>
    notMem_linesOf content l (by rw [h.lines]; simp [hl])

theorem notMem_charsUnits {points : List CodePoint} (h : nl ∉ pointsUnits points) :
    nl ∉ charsUnits (points.map CodePoint.toChar) := by
  induction points with
  | nil => exact h
  | cons p points ih =>
    simp only [pointsUnits, List.flatMap_cons, List.mem_append, not_or] at h
    simp only [charsUnits, List.map_cons, List.flatMap_cons, List.mem_append, not_or]
    refine ⟨?_, ih h.2⟩
    cases p with
    | scalar c => exact h.1
    | lone u => exact (by decide : nl ∉ charUnits '\uFFFD')

section Partial

variable {r : TruncationResult} {l : Line} {points : List CodePoint}

theorem PartialShows.isSuffix (h : PartialShows content maxBytes r A l points) :
    pointsUnits points <:+ l := by
  obtain ⟨front, hfront⟩ := h.suffix
  refine ⟨pointsUnits front, ?_⟩
  rw [← pointsUnits_codePoints l, ← hfront]
  simp [pointsUnits]

theorem PartialShows.line (h : PartialShows content maxBytes r A l points) : l <:+ content := by
  have hjoin := join_isSuffix A [l]
  rwa [← h.lines, join_linesOf, join_singleton] at hjoin

theorem PartialShows.lineCount (h : PartialShows content maxBytes r A l points) :
    lineCount r.content = 1 := by
  have hl : nl ∉ l := notMem_linesOf content l (by rw [h.lines]; simp)
  have hpoints : nl ∉ r.content := by
    rw [h.content_eq]
    exact notMem_charsUnits fun hmem => hl (h.isSuffix.subset hmem)
  rw [Truncation.lineCount, countNewlines, List.count_eq_zero_of_not_mem hpoints]

end Partial

theorem length_join_le {A' R' : List Line} (hA : linesOf content = A ++ R')
    (hR : linesOf content = A' ++ R) (hle : A.length + R.length ≤ (linesOf content).length)
    (hne : R' ≠ []) :
    (join A).length + (join R).length ≤ content.length := by
  have hlen : R.length ≤ R'.length := by
    have := congrArg List.length hA
    rw [List.length_append] at this
    omega
  obtain ⟨M, rfl⟩ : R <:+ R' := List.suffix_of_suffix_length_le ⟨A', hR.symm⟩ ⟨A, hA.symm⟩ hlen
  have htail := (join_isSuffix M R).length_le
  have htotal := length_join_append A hne
  rw [← hA, join_linesOf] at htotal
  omega

section Shows

variable {marker : Nat → Nat → List CodeUnit} {lines bytes : Nat}

theorem truncateHead_shows (hover : ¬(lineCount content ≤ maxLines ∧ utf8Length content ≤ maxBytes))
    (hlines : lines ≤ maxLines) (hbytes : bytes ≤ maxBytes) (hpos : 1 ≤ lines) :
    Shows marker content maxLines maxBytes (truncateHead content (limits lines bytes)) := by
  have hover' : ¬(lineCount content ≤ lines ∧ utf8Length content ≤ bytes) := fun hfits =>
    hover ⟨hfits.1.trans hlines, hfits.2.trans hbytes⟩
  obtain ⟨A, R, h⟩ := headShows hover'
  refine .head h.isPrefix ?_ ((h.lineCount_le hpos).trans hlines)
  rw [h.content_eq]
  exact h.size_le.trans hbytes

theorem truncateTail_shows (hover : ¬(lineCount content ≤ maxLines ∧ utf8Length content ≤ maxBytes))
    (hlines : lines ≤ maxLines) (hbytes : bytes ≤ maxBytes) (hpos : 1 ≤ lines) :
    Shows marker content maxLines maxBytes (truncateTail content (limits lines bytes)) := by
  have hover' : ¬(lineCount content ≤ lines ∧ utf8Length content ≤ bytes) := fun hfits =>
    hover ⟨hfits.1.trans hlines, hfits.2.trans hbytes⟩
  obtain ⟨A, R, h⟩ | ⟨A, l, points, h⟩ := tailShows hpos hover'
  · refine .tail _ h.isSuffix (.inl rfl) ?_ ((h.lineCount_le hpos).trans hlines)
    rw [h.content_eq]
    exact h.size_le.trans hbytes
  · refine .tail _ (h.isSuffix.trans h.line) (.inr ⟨points, rfl, h.content_eq⟩)
      (h.size_le.trans hbytes) ?_
    rw [h.lineCount]
    exact hpos.trans hlines

end Shows

section Both

variable {head tail : TruncationResult} {A' R' : List Line}
    {headLines tailLines headBytes tailBytes : Nat}

theorem lineCount_eq (content : List CodeUnit) : lineCount content = (linesOf content).length :=
  (length_linesOf content).symm

theorem HeadShows.meet (h : HeadShows content headLines (maxBytes / 2) head A R')
    (ht : TailShows content tailLines (maxBytes - maxBytes / 2) tail A' R) (hA : A ≠ [])
    (hsum : lineCount content ≤ A.length + R.length) (hlines : headLines + tailLines ≤ maxLines) :
    WindowsMeet content maxLines maxBytes ∧ utf8Length content ≤ maxBytes + 1 ∧
      lineCount content ≤ maxLines := by
  have htotal : lineCount content = A.length + R'.length := by
    rw [lineCount_eq, h.lines, List.length_append]
  have hlen : R'.length ≤ R.length := by omega
  obtain ⟨M, hM⟩ : R' <:+ R :=
    List.suffix_of_suffix_length_le ⟨A, h.lines.symm⟩ ⟨A', ht.lines.symm⟩ hlen
  have hsize : size R' ≤ maxBytes - maxBytes / 2 := by
    have := (size_le_append M R').2
    rw [hM] at this
    exact this.trans ht.size_le
  have hcontent : content = join A ++ nl :: join R' := by
    rw [← join_linesOf content, h.lines, join_append hA h.proper]
  have hnl : ∀ l ∈ A ++ R', nl ∉ l := by
    rw [← h.lines]
    exact notMem_linesOf content
  have hcountA := lineCount_join hA fun l hl => hnl l (List.mem_append_left _ hl)
  have hcountR := lineCount_join h.proper fun l hl => hnl l (List.mem_append_right _ hl)
  have hheadLen := h.length_le
  have htailLen := ht.length_le
  refine ⟨⟨join A, join R', hcontent, h.size_le, hsize, by omega⟩, ?_, by omega⟩
  have hbytes := utf8Length_append_nl (join A) (join R')
  rw [← hcontent] at hbytes
  have hhead : utf8Length (join A) ≤ maxBytes / 2 := h.size_le
  have htail : utf8Length (join R') ≤ maxBytes - maxBytes / 2 := hsize
  omega

theorem HeadShows.overlongLast {l : Line} {points : List CodePoint}
    (h : HeadShows content headLines (maxBytes / 2) head A R')
    (ht : PartialShows content (maxBytes - maxBytes / 2) tail A' l points) (hA : A ≠ [])
    (hsum : lineCount content ≤ A.length + 1) (hbytes : 0 < maxBytes / 2)
    (hlines : headLines ≤ maxLines / 2)
    (hover : ¬(lineCount content ≤ maxLines ∧ utf8Length content ≤ maxBytes)) :
    OverlongLast content maxLines maxBytes := by
  have hpos := List.length_pos_of_ne_nil hA
  have hlen := h.length_le
  have hlong : maxBytes < utf8Length content := Nat.not_le.mp fun hfits => hover ⟨by omega, hfits⟩
  have htotal : lineCount content = A.length + R'.length := by
    rw [lineCount_eq, h.lines, List.length_append]
  obtain ⟨l', rfl⟩ : ∃ l', R' = [l'] :=
    List.length_eq_one_iff.mp (Nat.le_antisymm (by omega) (List.length_pos_of_ne_nil h.proper))
  obtain rfl : l' = l := (lastLine_eq h.lines).symm.trans (lastLine_eq ht.lines)
  refine ⟨hlong, join A, l', ?_, notMem_linesOf content l' (by rw [h.lines]; simp), hbytes,
    h.size_le, ?_, ht.overLong⟩
  · rw [← join_linesOf content, h.lines, join_append hA (by simp), join_singleton]
  · rw [lineCount_join hA fun l hl => notMem_linesOf content l (by rw [h.lines]; simp [hl])]
    exact hlen.trans hlines

theorem HeadShows.segment (h : HeadShows content headLines headBytes head A R') (hA : A ≠ [])
    (totalLines : Nat) :
    makeReadSegment head 1 totalLines content =
      some (.lines (join A) A.length (size A) 1 (min totalLines (1 + A.length - 1))) := by
  rw [makeReadSegment]
  dsimp only
  rw [h.count, if_neg (by simpa using hA), if_neg h.notPartial, h.bytes, h.content_eq]

theorem TailShows.segment (h : TailShows content tailLines tailBytes tail A R)
    (startLine totalLines : Nat) :
    makeReadSegment tail startLine totalLines content =
      some (.lines (join R) R.length (size R) startLine
        (min totalLines (startLine + R.length - 1))) := by
  rw [makeReadSegment]
  dsimp only
  rw [h.count, if_neg (by simpa using h.nonempty), if_neg h.notPartial, h.bytes, h.content_eq]

theorem PartialShows.segment {l : Line} {points : List CodePoint}
    (h : PartialShows content tailBytes tail A l points) (startLine totalLines : Nat) :
    makeReadSegment tail startLine totalLines content =
      some (.partialLine tail.content (utf8Length tail.content) (min totalLines (startLine + 1 - 1))
        (min totalLines (startLine + 1 - 1)) (lastSourceLineBytes content)) := by
  rw [makeReadSegment]
  dsimp only
  rw [h.count, if_neg (by decide), if_pos h.lastPartial, h.bytes]

end Both

section Compose

variable {toLocaleString formatBytes : Nat → List CodeUnit} {options : TruncationOptions}
  {head tail : TruncationResult} {A' R' : List Line} {headLines tailLines headBytes tailBytes : Nat}

theorem truncateMiddle_of_middle {headWindow tailWindow : ReadSegment}
    (hkind : (truncateMiddleWindows content options).kind = .middle)
    (hhead : (truncateMiddleWindows content options).head = some headWindow)
    (htail : (truncateMiddleWindows content options).tail = some tailWindow) :
    truncateMiddle toLocaleString formatBytes content options =
      composeWindows toLocaleString formatBytes content (truncateMiddleWindows content options)
        headWindow tailWindow := by
  unfold truncateMiddle
  dsimp only
  rw [hkind, hhead, htail]

theorem truncateMiddle_of_full (hkind : (truncateMiddleWindows content options).kind = .full) :
    (truncateMiddle toLocaleString formatBytes content options).content = content := by
  unfold truncateMiddle
  dsimp only
  rw [hkind]
  rfl

theorem composeWindows_shows {windows : ReadWindow} {headWindow tailWindow : ReadSegment}
    {t : List CodeUnit} (hsum : headWindow.lineCount + tailWindow.lineCount < windows.totalLines)
    (hhead : headWindow.content <+: content) (htail : t <:+ content)
    (hshown : ShownAs t tailWindow.content)
    (hdisjoint : headWindow.content.length + t.length ≤ content.length)
    (hbytes : utf8Length headWindow.content + utf8Length tailWindow.content ≤ maxBytes)
    (hlines : lineCount headWindow.content + lineCount tailWindow.content ≤ maxLines) :
    Shows (formatMiddleElisionMarker toLocaleString formatBytes) content maxLines maxBytes
      (composeWindows toLocaleString formatBytes content windows headWindow tailWindow) := by
  unfold composeWindows
  rw [if_neg (Nat.not_le.mpr hsum)]
  exact .middle _ t _ _ _ rfl ⟨rfl, rfl⟩ hhead htail hshown hdisjoint hbytes hlines

theorem joinWindows_shows (hw : truncateMiddleWindows content options =
      joinWindows content (lineCount content) (utf8Length content) head tail)
    (h : HeadShows content headLines (maxBytes / 2) head A R') (hA : A ≠ [])
    (ht : (∃ A' R, TailShows content tailLines (maxBytes - maxBytes / 2) tail A' R) ∨
      ∃ A' l points, PartialShows content (maxBytes - maxBytes / 2) tail A' l points)
    (hbytes : 0 < maxBytes / 2) (hlines : headLines + tailLines = maxLines)
    (htailLines : 0 < tailLines) (hheadLines : headLines ≤ maxLines / 2)
    (hover : ¬(lineCount content ≤ maxLines ∧ utf8Length content ≤ maxBytes))
    (hlast : ¬OverlongLast content maxLines maxBytes) :
    Shows (formatMiddleElisionMarker toLocaleString formatBytes) content maxLines maxBytes
      (truncateMiddle toLocaleString formatBytes content options) := by
  have hheadSize : utf8Length (join A) ≤ maxBytes / 2 := h.size_le
  have hheadPrefix : join A <+: content := h.content_eq ▸ h.isPrefix
  have hheadCount : lineCount (join A) ≤ headLines := by
    rw [lineCount_join hA fun l hl => notMem_linesOf content l (by rw [h.lines]; simp [hl])]
    exact h.length_le
  obtain ⟨A', R, ht⟩ | ⟨A', l, points, ht⟩ := ht
  · by_cases hsum : lineCount content ≤ A.length + R.length
    · obtain ⟨hmeet, hsize, hcount⟩ := h.meet ht hA hsum hlines.le
      refine .meet hmeet (truncateMiddle_of_full ?_) hsize hcount
      rw [hw, joinWindows]
      dsimp only
      rw [h.count, ht.count, if_pos ⟨hsum, ht.notPartial⟩]
      rfl
    · rw [joinWindows] at hw
      dsimp only at hw
      rw [h.count, ht.count, if_neg fun hfull => hsum hfull.1, h.segment hA, ht.segment] at hw
      rw [truncateMiddle_of_middle (by rw [hw]) (by rw [hw]) (by rw [hw])]
      have htailSize : utf8Length (join R) ≤ maxBytes - maxBytes / 2 := ht.size_le
      have htailCount : lineCount (join R) ≤ tailLines := by
        have := ht.lineCount_le htailLines
        rwa [ht.content_eq] at this
      refine composeWindows_shows ?_ hheadPrefix (ht.content_eq ▸ ht.isSuffix) (.inl rfl) ?_ ?_ ?_
      · rw [hw]
        exact Nat.not_le.mp hsum
      · exact length_join_le h.lines ht.lines (by rw [← lineCount_eq]; omega) h.proper
      · exact (Nat.add_le_add hheadSize htailSize).trans (by omega)
      · exact (Nat.add_le_add hheadCount htailCount).trans hlines.le
  · have hsum : ¬lineCount content ≤ A.length + 1 := fun hsum =>
      hlast (h.overlongLast ht hA hsum hbytes hheadLines hover)
    rw [joinWindows] at hw
    dsimp only at hw
    rw [h.count, ht.count, if_neg fun hfull => hsum hfull.1, h.segment hA, ht.segment] at hw
    rw [truncateMiddle_of_middle (by rw [hw]) (by rw [hw]) (by rw [hw])]
    refine composeWindows_shows ?_ hheadPrefix (ht.isSuffix.trans ht.line)
      (.inr ⟨points, rfl, ht.content_eq⟩) ?_ ?_ ?_
    · rw [hw]
      exact Nat.not_le.mp hsum
    · have hline :=
        length_join_le h.lines ht.lines
          (by rw [← lineCount_eq, List.length_singleton]; omega) h.proper
      rw [join_singleton] at hline
      exact (Nat.add_le_add_left ht.isSuffix.length_le _).trans hline
    · exact (Nat.add_le_add hheadSize ht.size_le).trans (by omega)
    · refine (Nat.add_le_add hheadCount ht.lineCount.le).trans ?_
      omega

theorem shares_limits (maxLines maxBytes : Nat) :
    shares (limits maxLines maxBytes) =
      ⟨maxBytes / 2, maxBytes - maxBytes / 2, max 1 (maxLines / 2),
        maxLines - max 1 (maxLines / 2)⟩ := rfl

theorem truncateMiddle_of_tailOnly
    (hkind : (truncateMiddleWindows content (limits maxLines maxBytes)).kind = .tailOnly) :
    truncateMiddle toLocaleString formatBytes content (limits maxLines maxBytes) =
      truncateTail content (limits (orElse (maxLines - max 1 (maxLines / 2)) maxLines)
        (orElse (maxBytes - maxBytes / 2) maxBytes)) := by
  unfold truncateMiddle
  dsimp only
  rw [hkind, shares_limits]
  rfl

theorem truncateMiddle_of_headOnly
    (hkind : (truncateMiddleWindows content (limits maxLines maxBytes)).kind = .headOnly) :
    truncateMiddle toLocaleString formatBytes content (limits maxLines maxBytes) =
      truncateHead content (limits (max 1 (maxLines / 2)) (maxBytes / 2)) := by
  unfold truncateMiddle
  dsimp only
  rw [hkind, shares_limits]

theorem orElse_le {a b : Nat} (h : a ≤ b) : orElse a b ≤ b := by
  unfold orElse
  split <;> omega

theorem orElse_pos {a b : Nat} (h : 0 < b) : 0 < orElse a b := by
  unfold orElse
  split <;> omega

/-- Within a positive budget, and with the head's default share, `truncateMiddle` shows a prefix and
a suffix that together fit the budget; windows that meet keep the newline between them too. -/
theorem truncateMiddle_within_budget (toLocaleString formatBytes : Nat → List CodeUnit)
    (content : List CodeUnit) (maxLines maxBytes : Nat) (hlines : 0 < maxLines)
    (hbytes : 0 < maxBytes) (hlast : ¬OverlongLast content maxLines maxBytes) :
    Shows (formatMiddleElisionMarker toLocaleString formatBytes) content maxLines maxBytes
      (truncateMiddle toLocaleString formatBytes content (limits maxLines maxBytes)) := by
  have hwindows : truncateMiddleWindows content (limits maxLines maxBytes) =
      if utf8Length content ≤ maxBytes ∧ lineCount content ≤ maxLines then
        fullReadWindow content (lineCount content) (utf8Length content) .disjoint
      else _ := rfl
  split at hwindows
  next hfits =>
    have hwhole : (truncateMiddle toLocaleString formatBytes content
        (limits maxLines maxBytes)).content = content :=
      truncateMiddle_of_full (by rw [hwindows]; rfl)
    refine .head ?_ ?_ ?_
    · exact ⟨[], by rw [hwhole, List.append_nil]⟩
    · rw [hwhole]
      exact hfits.1
    · rw [hwhole]
      exact hfits.2
  next hfits =>
    have hover : ¬(lineCount content ≤ maxLines ∧ utf8Length content ≤ maxBytes) :=
      fun h => hfits h.symm
    have htailOnly : (truncateMiddleWindows content (limits maxLines maxBytes)).kind = .tailOnly →
        Shows (formatMiddleElisionMarker toLocaleString formatBytes) content maxLines maxBytes
          (truncateMiddle toLocaleString formatBytes content (limits maxLines maxBytes)) := by
      intro hkind
      rw [truncateMiddle_of_tailOnly hkind]
      exact truncateTail_shows hover (orElse_le (Nat.sub_le _ _)) (orElse_le (Nat.sub_le _ _))
        (orElse_pos hlines)
    have hheadOnly : (truncateMiddleWindows content (limits maxLines maxBytes)).kind = .headOnly →
        Shows (formatMiddleElisionMarker toLocaleString formatBytes) content maxLines maxBytes
          (truncateMiddle toLocaleString formatBytes content (limits maxLines maxBytes)) := by
      intro hkind
      rw [truncateMiddle_of_headOnly hkind]
      exact truncateHead_shows hover (by omega) (by omega) (by omega)
    rw [shares_limits] at hwindows
    dsimp only at hwindows
    split at hwindows
    next => exact htailOnly (by rw [hwindows]; rfl)
    next hheadShare =>
      split at hwindows
      next => exact hheadOnly (by rw [hwindows]; rfl)
      next htailShare =>
        split at hwindows
        next => exact htailOnly (by rw [hwindows]; rfl)
        next husable =>
          split at hwindows
          next => exact hheadOnly (by rw [hwindows]; rfl)
          next =>
            simp only [not_or] at hheadShare htailShare husable
            have hhead : ¬(lineCount content ≤ max 1 (maxLines / 2) ∧
                utf8Length content ≤ maxBytes / 2) := fun h =>
              hover ⟨by omega, by omega⟩
            have htail : ¬(lineCount content ≤ maxLines - max 1 (maxLines / 2) ∧
                utf8Length content ≤ maxBytes - maxBytes / 2) := fun h => hover ⟨by omega, by omega⟩
            obtain ⟨A, R', h⟩ := headShows hhead
            have hA : A ≠ [] := by
              rintro rfl
              exact husable.1 h.count
            exact joinWindows_shows hwindows h hA (tailShows (by omega) htail) (by omega)
              (by omega) (by omega)
              (by omega) hover hlast

def decimal (n : Nat) : List CodeUnit := charsUnits (Nat.toDigits 10 n)

theorem truncateMiddle_within_budget_abc : ¬OverlongLast [0x61, nl, 0x62, nl, 0x63] 2 3 ∧
    Shows (formatMiddleElisionMarker decimal (decimal · ++ [0x42])) [0x61, nl, 0x62, nl, 0x63] 2 3
      (truncateMiddle decimal (decimal · ++ [0x42]) [0x61, nl, 0x62, nl, 0x63] (limits 2 3)) := by
  have hlast : ¬OverlongLast [0x61, nl, 0x62, nl, 0x63] 2 3 := by
    rintro ⟨-, a, l, hcontent, hl, -, -, -, hover⟩
    have hline : lastLine nl [0x61, nl, 0x62, nl, 0x63] = l := by
      rw [hcontent, lastLine_append_cons, lastLine_of_notMem hl]
    rw [← hline] at hover
    exact absurd hover (by decide +kernel)
  exact ⟨hlast, truncateMiddle_within_budget _ _ _ 2 3 (by decide) (by decide) hlast⟩

theorem windows_that_meet_exceed_maxBytes :
    (truncateMiddle decimal (decimal · ++ [0x42]) [0x61, 0x61, nl, 0x62, 0x62]
      (limits 10 4)).content =
      [0x61, 0x61, nl, 0x62, 0x62] ∧ ¬utf8Length [0x61, 0x61, nl, 0x62, 0x62] ≤ 4 := by
  refine ⟨?_, ?_⟩ <;> decide +kernel

end Compose

end JevCode.Session.Truncation
