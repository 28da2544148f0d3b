import JevCode.Data.Separated
import JevCode.Session.Truncation
import JevCode.Text.Lines

namespace JevCode.Session.Truncation

open JevCode.Text JevCode.Data

abbrev Line := List CodeUnit

def join (lines : List Line) : List CodeUnit := [nl].intercalate lines

def linesOf (content : List CodeUnit) : List Line := content.splitOn nl

def size (lines : List Line) : Nat := utf8Length (join lines)

variable {content : List CodeUnit} {A B R lines : List Line} {l : Line}
    {maxBytes maxLines left : Nat}

theorem join_linesOf (content : List CodeUnit) : join (linesOf content) = content :=
  List.intercalate_splitOn nl

theorem join_append (hA : A ≠ []) (hB : B ≠ []) : join (A ++ B) = join A ++ nl :: join B := by
  induction A with
  | nil => exact absurd rfl hA
  | cons a A ih =>
    by_cases hnil : A = []
    · rw [hnil, join, List.singleton_append, List.intercalate_cons_of_ne_nil hB, join,
        List.intercalate_singleton]
      simp [join]
    · rw [join, List.cons_append, List.intercalate_cons_of_ne_nil (by simp [hnil]), join,
        List.intercalate_cons_of_ne_nil hnil]
      simp only [join] at ih ⊢
      rw [ih hnil]
      simp

theorem utf8Length_append_nl (a b : List CodeUnit) :
    utf8Length (a ++ nl :: b) = utf8Length a + 1 + utf8Length b := by
  rw [utf8Length_append_cons (by decide) (by decide)]
  rfl

@[simp] theorem size_nil : size [] = 0 := rfl

@[simp] theorem size_singleton (l : Line) : size [l] = utf8Length l := by
  rw [size, join, List.intercalate_singleton]

theorem size_append (hA : A ≠ []) (hB : B ≠ []) : size (A ++ B) = size A + 1 + size B := by
  rw [size, join_append hA hB, utf8Length_append_nl]
  rfl

def sepBytes (A : List Line) : Nat := if 0 < A.length then 1 else 0

theorem size_concat (A : List Line) (l : Line) :
    size (A ++ [l]) = size A + (sepBytes A + utf8Length l) := by
  by_cases hA : A = []
  · simp [hA, sepBytes]
  · rw [size_append hA (by simp), size_singleton, sepBytes, if_pos (List.length_pos_of_ne_nil hA),
      Nat.add_assoc]

theorem size_cons (l : Line) (A : List Line) :
    size (l :: A) = size A + (sepBytes A + utf8Length l) := by
  by_cases hA : A = []
  · simp [hA, sepBytes]
  · rw [← List.singleton_append, size_append (by simp) hA, size_singleton, sepBytes,
      if_pos (List.length_pos_of_ne_nil hA)]
    omega

theorem size_le_append (A B : List Line) : size A ≤ size (A ++ B) ∧ size B ≤ size (A ++ B) := by
  by_cases hA : A = []
  · simp [hA]
  · by_cases hB : B = []
    · simp [hB]
    · rw [size_append hA hB]
      omega

theorem length_join_append (A : List Line) (hB : B ≠ []) :
    (join (A ++ B)).length = (join A).length + sepBytes A + (join B).length := by
  by_cases hA : A = []
  · simp [hA, sepBytes, join]
  · rw [join_append hA hB, List.length_append, List.length_cons, sepBytes,
      if_pos (List.length_pos_of_ne_nil hA)]
    omega

@[simp] theorem join_singleton (l : Line) : join [l] = l := List.intercalate_singleton

theorem join_isPrefix (A B : List Line) : join A <+: join (A ++ B) := by
  by_cases hA : A = []
  · rw [hA]
    exact List.nil_prefix
  · by_cases hB : B = []
    · subst hB
      exact ⟨[], by simp⟩
    · rw [join_append hA hB]
      exact List.prefix_append _ _

theorem join_isSuffix (A B : List Line) : join B <:+ join (A ++ B) := by
  by_cases hA : A = []
  · subst hA
    exact ⟨[], by simp⟩
  · by_cases hB : B = []
    · rw [hB]
      exact List.nil_suffix
    · rw [join_append hA hB]
      exact (List.suffix_cons nl _).trans (List.suffix_append _ _)

structure HeadAt (content : List CodeUnit) (A R : List Line) (s : HeadScan) : Prop where
  included : s.includedLines = A.length
  used : s.bytesUsed = size A
  cut : s.cutIndex = (join A).length
  rest : content.drop s.cursor = join R
  cursor : s.cursor + (join R).length = content.length

theorem findIdx?_of_notMem (hl : nl ∉ l) : l.findIdx? (· = nl) = none :=
  List.findIdx?_eq_none_iff.mpr fun _ hu => decide_eq_false fun heq => hl (heq ▸ hu)

theorem findIdx?_nl (hl : nl ∉ l) (t : List CodeUnit) :
    (l ++ nl :: t).findIdx? (· = nl) = some l.length := by
  rw [List.findIdx?_append, findIdx?_of_notMem hl, List.findIdx?_cons]
  simp

theorem slice_of_drop {t : List CodeUnit} {a : Nat} (h : content.drop a = l ++ t) :
    slice content a (a + l.length) = l := by
  rw [slice, List.drop_take, h]
  simp

theorem HeadAt.lineEnd {s : HeadScan} (h : HeadAt content A (l :: R) s) (hl : nl ∉ l) :
    (indexOf content s.cursor).getD content.length = s.cursor + l.length ∧
      slice content s.cursor (s.cursor + l.length) = l ∧
      indexOf content s.cursor = if R = [] then none else some (s.cursor + l.length) := by
  by_cases hR : R = []
  · have hrest : content.drop s.cursor = l := by
      rw [h.rest, hR, join_singleton]
    have hfound : indexOf content s.cursor = none := by
      rw [indexOf, hrest, findIdx?_of_notMem hl, Option.map_none]
    have hcursor := h.cursor
    rw [← h.rest, hrest] at hcursor
    rw [hfound, if_pos hR]
    exact ⟨hcursor.symm, slice_of_drop (t := []) (by simpa using hrest), rfl⟩
  · have hrest : content.drop s.cursor = l ++ nl :: join R := by
      rw [h.rest, ← List.singleton_append, join_append (by simp) hR, join_singleton]
    have hfound : indexOf content s.cursor = some (s.cursor + l.length) := by
      rw [indexOf, hrest, findIdx?_nl hl, Option.map_some]
    rw [hfound, if_neg hR]
    exact ⟨rfl, slice_of_drop hrest, rfl⟩

def HeadDone (lines : List Line) (maxLines maxBytes : Nat) : HeadEnd → Prop
  | .overlong => ∃ l R, lines = l :: R ∧ maxBytes < utf8Length l
  | .stopped s _ => ∃ A R, lines = A ++ R ∧ s.includedLines = A.length ∧ s.bytesUsed = size A ∧
      s.cutIndex = (join A).length ∧ A.length ≤ maxLines ∧ size A ≤ maxBytes ∧
      (R = [] ∨ A.length = maxLines ∨ ∃ l R', R = l :: R' ∧ maxBytes < size (A ++ [l]))

theorem HeadAt.done {s : HeadScan} {R : List Line} (h : HeadAt content A R s)
    (hlines : lines = A ++ R) (hlen : A.length ≤ maxLines) (hfits : size A ≤ maxBytes)
    (hstop : R = [] ∨ A.length = maxLines ∨ ∃ l R', R = l :: R' ∧ maxBytes < size (A ++ [l]))
    (by' : TruncatedBy) :
    HeadDone lines maxLines maxBytes (.stopped s by') :=
  ⟨A, R, hlines, h.included, h.used, h.cut, hlen, hfits, hstop⟩

def HeadScan.include (s : HeadScan) (A : List Line) (l : Line) (cursor : Nat) : HeadScan where
  includedLines := s.includedLines + 1
  bytesUsed := s.bytesUsed + (sepBytes A + utf8Length l)
  cutIndex := s.cursor + l.length
  cursor := cursor

theorem HeadAt.include_done {s : HeadScan} (h : HeadAt content A (l :: R) s)
    (hlines : lines = A ++ l :: R) (hcontent : content = join lines) (cursor : Nat) :
    (s.include A l cursor).includedLines = (A ++ [l]).length ∧
    (s.include A l cursor).bytesUsed = size (A ++ [l]) ∧
      (s.include A l cursor).cutIndex = (join (A ++ [l])).length := by
  refine ⟨?_, ?_, ?_⟩
  · simp [HeadScan.include, h.included]
  · rw [HeadScan.include, h.used, size_concat]
  · have hlen := h.cursor
    rw [hcontent, hlines, length_join_append A (by simp)] at hlen
    rw [HeadScan.include, length_join_append A (by simp), join_singleton]
    dsimp only
    omega

theorem HeadAt.include {s : HeadScan} {l' : Line} (h : HeadAt content A (l :: l' :: R) s)
    (hlines : lines = A ++ l :: l' :: R) (hcontent : content = join lines) :
    HeadAt content (A ++ [l]) (l' :: R) (s.include A l (s.cursor + l.length + 1)) := by
  obtain ⟨hincluded, hused, hcut⟩ := h.include_done hlines hcontent (s.cursor + l.length + 1)
  have hrest : content.drop s.cursor = l ++ nl :: join (l' :: R) := by
    rw [h.rest, ← List.singleton_append, join_append (by simp) (by simp), join_singleton]
  refine ⟨hincluded, hused, hcut, ?_, ?_⟩
  · rw [HeadScan.include, Nat.add_assoc, ← List.drop_drop, hrest]
    simp
  · have hlen := h.cursor
    rw [← h.rest, hrest] at hlen
    simp only [HeadScan.include, List.length_append, List.length_cons] at hlen ⊢
    omega

theorem headLoop_spec {s : HeadScan} (h : HeadAt content A (l :: R) s) (hlines : lines = A ++ l :: R)
    (hcontent : content = join lines)
    (hnl : ∀ l ∈ lines, nl ∉ l) (hleft : A.length + left = maxLines) (hfits : size A ≤ maxBytes) :
    HeadDone lines maxLines maxBytes (headLoop content maxBytes left s) := by
  induction left generalizing A l R s with
  | zero => exact h.done hlines (by omega) hfits (.inr (.inl (by omega))) .lines
  | succ left ih =>
    obtain ⟨hend, hslice, hfound⟩ := h.lineEnd (hnl l (by rw [hlines]; simp))
    have hsep : (if 0 < s.includedLines then 1 else 0) = sepBytes A := by rw [h.included]; rfl
    have hunits := length_le_utf8Length l
    have hsize := size_concat A l
    have hstop : maxBytes < size (A ++ [l]) →
        ∀ by', HeadDone lines maxLines maxBytes (.stopped s by') :=
      fun hover => h.done hlines (by omega) hfits (.inr (.inr ⟨l, R, rfl, hover⟩))
    have hoverlong : maxBytes < size (A ++ [l]) →
        HeadDone lines maxLines maxBytes
        (if s.includedLines = 0 then .overlong else .stopped s .bytes) := by
      intro hover
      split
      next hnone =>
        have hA : A = [] := List.length_eq_zero_iff.mp (h.included.symm.trans hnone)
        subst hA
        exact ⟨l, R, hlines, by simpa using hover⟩
      next => exact hstop hover .bytes
    unfold headLoop
    dsimp only
    rw [hend, hslice, hsep, h.used, Nat.add_sub_cancel_left]
    split
    next hroom => exact hstop (by omega) .bytes
    next hroom =>
      split
      next => exact hoverlong (by omega)
      next =>
        split
        next => exact hoverlong (by omega)
        next hline =>
          rw [hfound]
          cases R with
          | nil =>
            obtain ⟨hincluded, hused, hcut⟩ := h.include_done hlines hcontent s.cursor
            rw [HeadScan.include, h.used] at hused
            exact ⟨A ++ [l], [], by simp [hlines], hincluded, hused,
              hcut, by simp; omega, by omega, .inl rfl⟩
          | cons l' R =>
            have hnext := h.include hlines hcontent
            rw [HeadScan.include, h.used] at hnext
            rw [if_neg (by simp)]
            exact ih hnext (by simp [hlines]) (by simp; omega) (by omega)

/-- `k` lines fit, where `bytes j` is the size of `j` lines. -/
def Fits (bytes : Nat → Nat) (total maxLines maxBytes k : Nat) : Prop :=
  k ≤ total ∧ k ≤ maxLines ∧ bytes k ≤ maxBytes

def Longest (bytes : Nat → Nat) (total maxLines maxBytes k : Nat) : Prop :=
  Fits bytes total maxLines maxBytes k ∧ ∀ j, Fits bytes total maxLines maxBytes j → j ≤ k

theorem Longest.of_stop {bytes : Nat → Nat} {total k : Nat}
    (hmono : ∀ i j, i ≤ j → bytes i ≤ bytes j) (hfits : Fits bytes total maxLines maxBytes k)
    (hstop : k = total ∨ k = maxLines ∨ maxBytes < bytes (k + 1)) :
    Longest bytes total maxLines maxBytes k := by
  refine ⟨hfits, fun j hj => ?_⟩
  obtain ⟨htotal, hlines, hbytes⟩ := hj
  obtain rfl | rfl | hover := hstop
  · exact htotal
  · exact hlines
  · refine Nat.not_lt.mp fun hlt => ?_
    have := hmono (k + 1) j hlt
    omega

def headBytes (lines : List Line) (j : Nat) : Nat := size (lines.take j)

def tailBytes (lines : List Line) (j : Nat) : Nat := size (lines.drop (lines.length - j))

theorem headBytes_mono (lines : List Line) (i j : Nat) (h : i ≤ j) :
    headBytes lines i ≤ headBytes lines j := by
  have hle := (size_le_append ((lines.take j).take i) ((lines.take j).drop i)).1
  rw [List.take_append_drop, List.take_take, Nat.min_eq_left h] at hle
  exact hle

theorem tailBytes_mono (lines : List Line) (i j : Nat) (h : i ≤ j) :
    tailBytes lines i ≤ tailBytes lines j := by
  have hle :=
    (size_le_append ((lines.drop (lines.length - j)).take (lines.length - i - (lines.length - j)))
    ((lines.drop (lines.length - j)).drop (lines.length - i - (lines.length - j)))).2
  rw [List.take_append_drop, List.drop_drop,
    show lines.length - j + (lines.length - i - (lines.length - j)) =
    lines.length - i by omega] at hle
  exact hle

theorem linesOf_ne_nil (content : List CodeUnit) : linesOf content ≠ [] := List.splitOn_ne_nil _ _

theorem notMem_linesOf (content : List CodeUnit) : ∀ l ∈ linesOf content, nl ∉ l :=
  fun _ hl => notMem_of_mem_splitOn hl

theorem length_linesOf (content : List CodeUnit) :
    (linesOf content).length = countNewlines content + 1 := by
  unfold linesOf countNewlines
  induction content with
  | nil => rfl
  | cons u content ih =>
    rw [List.splitOn_cons_eq_if_modifyHead, List.count_cons]
    split
    · rw [List.length_cons, ih]
    · rw [List.length_modifyHead, ih, Nat.add_zero]

structure Keeps (r : TruncationResult) (content kept : List CodeUnit) (k : Nat) : Prop where
  content_eq : r.content = kept
  whole : r.truncated = none → kept = content ∧ r.outputLines = none ∧ r.outputBytes = none
  counts : r.truncated ≠ none → r.outputLines = some k ∧ r.outputBytes = some (utf8Length kept)
  notPartial : r.lastLinePartial ≠ some true

theorem size_linesOf (content : List CodeUnit) : size (linesOf content) = utf8Length content := by
  rw [size, join_linesOf]

theorem keeps_whole {kept : List CodeUnit} (hkept : kept = content) (totalLines totalBytes k : Nat) :
    Keeps (noTruncResult content totalLines totalBytes) content kept k where
  content_eq := hkept.symm
  whole _ := ⟨hkept, rfl, rfl⟩
  counts h := absurd rfl h
  notPartial := nofun

theorem truncateHead_keeps (content : List CodeUnit) (maxLines maxBytes : Nat)
    (options : TruncationOptions) (hlines : options.maxLines = some maxLines)
    (hbytes : options.maxBytes = some maxBytes) :
    ∃ k, Longest (headBytes (linesOf content)) (linesOf content).length maxLines maxBytes k ∧
      Keeps (truncateHead content options) content (join ((linesOf content).take k)) k := by
  unfold truncateHead
  rw [hlines, hbytes]
  simp only [Option.getD_some]
  rw [← length_linesOf, ← size_linesOf]
  split
  next hfits =>
    refine ⟨(linesOf content).length,
      .of_stop (headBytes_mono _) ⟨Nat.le_refl _, hfits.1, ?_⟩ (.inl rfl),
      keeps_whole (by rw [List.take_length, join_linesOf]) _ _ _⟩
    simpa [headBytes] using hfits.2
  next hfits =>
    obtain ⟨l, R, hlR⟩ := List.exists_cons_of_ne_nil (linesOf_ne_nil content)
    have hstart : HeadAt content [] (l :: R) ⟨0, 0, 0, 0⟩ := by
      rw [← hlR]
      exact ⟨rfl, rfl, rfl, by simp [join_linesOf], by simp [join_linesOf]⟩
    have hdone : HeadDone (linesOf content) maxLines maxBytes
        (headLoop content maxBytes maxLines ⟨0, 0, 0, 0⟩) :=
      headLoop_spec hstart hlR (join_linesOf content).symm (notMem_linesOf content)
        (by simp) (by simp)
    cases hscan : headLoop content maxBytes maxLines ⟨0, 0, 0, 0⟩ with
    | overlong =>
      rw [hscan] at hdone
      obtain ⟨l, R, hlR, hover⟩ := hdone
      refine ⟨0, .of_stop (headBytes_mono _) ⟨Nat.zero_le _, Nat.zero_le _, Nat.zero_le _⟩
        (.inr (.inr ?_)), ?_, ?_, ?_, by simp [headResult]⟩
      · simpa [headBytes, hlR] using hover
      · simp [headResult, join]
      · simp [headResult]
      · exact fun _ => ⟨rfl, rfl⟩
    | stopped s truncatedBy =>
      rw [hscan] at hdone
      obtain ⟨A, R, hAR, hincluded, hused, hcut, hlen, hsize, hstop⟩ := hdone
      have htake : (linesOf content).take A.length = A := by rw [hAR]; simp
      refine ⟨A.length, .of_stop (headBytes_mono _) ⟨by simp [hAR], hlen, ?_⟩ ?_, ?_, ?_,
        ?_, by simp [headResult]⟩
      · rw [headBytes, htake]
        exact hsize
      · obtain rfl | hmax | ⟨l, R', rfl, hover⟩ := hstop
        · exact .inl (by simp [hAR])
        · exact .inr (.inl hmax)
        · refine .inr (.inr ?_)
          rw [headBytes, hAR, show A ++ l :: R' = (A ++ [l]) ++ R' by simp,
            List.take_left' (by simp)]
          exact hover
      · rw [htake]
        have htakeAll := List.prefix_iff_eq_take.mp (join_isPrefix A R)
        rw [← hAR, join_linesOf] at htakeAll
        rw [headResult, hcut]
        exact htakeAll.symm
      · simp [headResult]
      · intro _
        rw [htake, headResult, hincluded, hused]
        exact ⟨rfl, rfl⟩

theorem truncateTailBytes_fits {data : List CodeUnit}
    (hunits : data.length = maxBytes ∨ maxBytes < utf8Length data) :
    truncateTailBytes data maxBytes =
      (charsUnits (fitSuffix maxBytes (wellFormedChars data)),
        byteLength (fitSuffix maxBytes (wellFormedChars data))) := by
  unfold truncateTailBytes
  split
  next hzero => rw [hzero, fitSuffix_zero]; rfl
  next =>
    split
    next hfits =>
      have hlen : data.length = maxBytes := hunits.resolve_right (Nat.not_lt.mpr hfits.2)
      have hscalar : ∀ p ∈ codePoints data, p.IsScalar :=
        isScalar_of_byteLength_le (by rw [pointsUnits_codePoints, hlen]; exact hfits.2)
      have hunits := charsUnits_map_toChar hscalar
      rw [pointsUnits_codePoints] at hunits
      rw [fitSuffix_of_le hfits.2]
      exact Prod.ext hunits.symm rfl
    next =>
      dsimp only
      rw [length_utf8Bytes, drop_findUtf8BoundaryForward, ofUtf8Bytes_utf8Bytes, length_utf8Bytes,
        fitSuffix_wellFormedChars_drop (Nat.le_refl _)]

structure TailAt (content : List CodeUnit) (A R : List Line) (s : TailScan) : Prop where
  included : s.includedLines = R.length
  used : s.bytesUsed = size R
  start : s.startIndex + (join R).length = content.length
  rest : content.take s.stop = join A
  stop : s.stop = (join A).length

theorem lastIndexOf_of_take {t : List CodeUnit} {k : Nat} (hk : 0 < k)
    (h : content.take k = t ++ nl :: l) (hl : nl ∉ l) :
    lastIndexOf content (k - 1) = some t.length := by
  have hfind : (t ++ nl :: l).reverse.findIdx? (· = nl) = some l.length := by
    rw [List.reverse_append, List.reverse_cons, List.append_assoc, List.singleton_append,
      findIdx?_nl (by simpa using hl), List.length_reverse]
  rw [lastIndexOf, Nat.sub_add_cancel hk, h, hfind, Option.map_some, List.length_append,
    List.length_cons]
  congr 1
  omega

theorem lastIndexOf_of_notMem {k : Nat} (hk : 0 < k) (h : content.take k = l) (hl : nl ∉ l) :
    lastIndexOf content (k - 1) = none := by
  rw [lastIndexOf, Nat.sub_add_cancel hk, h, findIdx?_of_notMem (by simpa using hl), Option.map_none]

theorem TailAt.lineStart {s : TailScan} (h : TailAt content (A ++ [l]) R s) (hl : nl ∉ l)
    (hstop : 0 < s.stop) :
    lastIndexOf content (s.stop - 1) = (if A = [] then none else some (join A).length) ∧
      s.stop - (((lastIndexOf content (s.stop - 1)).map (· + 1)).getD 0) = l.length ∧
      slice content (((lastIndexOf content (s.stop - 1)).map (· + 1)).getD 0) s.stop = l := by
  by_cases hA : A = []
  · have hrest : content.take s.stop = l := by rw [h.rest, hA, List.nil_append, join_singleton]
    have hlen : s.stop = l.length := by rw [h.stop, hA, List.nil_append, join_singleton]
    rw [lastIndexOf_of_notMem hstop hrest hl, if_pos hA]
    exact ⟨rfl, hlen, by simp [slice, hrest]⟩
  · have hrest : content.take s.stop = join A ++ nl :: l := by
      rw [h.rest, join_append hA (by simp), join_singleton]
    have hlen : s.stop = (join A).length + 1 + l.length := by
      rw [h.stop, join_append hA (by simp), join_singleton, List.length_append, List.length_cons]
      omega
    rw [lastIndexOf_of_take hstop hrest hl, if_neg hA]
    refine ⟨rfl, ?_, ?_⟩
    · simp only [Option.map_some, Option.getD_some]
      omega
    · simp only [Option.map_some, Option.getD_some, slice, hrest]
      rw [show join A ++ nl :: l = (join A ++ [nl]) ++ l by simp, List.drop_left' (by simp)]

def TailDone (content : List CodeUnit) (lines : List Line) (maxLines maxBytes : Nat) : TailEnd → Prop
  | .overlong tail => ∃ A l, lines = A ++ [l] ∧ maxBytes < utf8Length l ∧
      tail = (charsUnits (fitSuffix maxBytes (wellFormedChars l)),
      byteLength (fitSuffix maxBytes (wellFormedChars l)))
  | .stopped s _ => ∃ A R, lines = A ++ R ∧ s.includedLines = R.length ∧ s.bytesUsed = size R ∧
      s.startIndex + (join R).length = content.length ∧ R.length ≤ maxLines ∧ size R ≤ maxBytes ∧
      (A = [] ∨ R.length = maxLines ∨ ∃ A' l, A = A' ++ [l] ∧ maxBytes < size (l :: R)) ∧
      (R = [] → maxLines = 0)

theorem TailAt.done {s : TailScan} (h : TailAt content A R s) (hlines : lines = A ++ R)
    (hlen : R.length ≤ maxLines) (hfits : size R ≤ maxBytes)
    (hstop : A = [] ∨ R.length = maxLines ∨ ∃ A' l, A = A' ++ [l] ∧ maxBytes < size (l :: R))
    (hsome : R = [] → maxLines = 0) (by' : TruncatedBy) :
    TailDone content lines maxLines maxBytes (.stopped s by') :=
  ⟨A, R, hlines, h.included, h.used, h.start, hlen, hfits, hstop, hsome⟩

def TailScan.include (s : TailScan) (R : List Line) (l : Line) (stop : Nat) : TailScan where
  includedLines := s.includedLines + 1
  bytesUsed := s.bytesUsed + (sepBytes R + utf8Length l)
  startIndex := s.stop - l.length
  stop := stop

theorem TailAt.include {s : TailScan} (h : TailAt content (A ++ [l]) R s)
    (hlines : lines = A ++ l :: R) (hcontent : content = join lines) :
    TailAt content A (l :: R) (s.include R l (join A).length) := by
  have hlen : content.length = s.stop + sepBytes R + (join R).length := by
    by_cases hR : R = []
    · have hall : content = join (A ++ [l]) := by rw [hcontent, hlines, hR]
      rw [h.stop, hR, hall]
      simp [sepBytes, join]
    · rw [hcontent, hlines, show A ++ l :: R = (A ++ [l]) ++ R by simp,
        length_join_append _ hR, h.stop]
      simp [sepBytes, List.length_pos_of_ne_nil hR]
  have hstop : s.stop = (join A).length + sepBytes A + l.length := by
    rw [h.stop, length_join_append A (by simp), join_singleton]
  have hjoin : (join (l :: R)).length = l.length + sepBytes R + (join R).length := by
    by_cases hR : R = []
    · simp [hR, sepBytes, join]
    · rw [← List.singleton_append, length_join_append [l] hR, join_singleton]
      simp [sepBytes, List.length_pos_of_ne_nil hR]
  refine ⟨?_, ?_, ?_, ?_, rfl⟩
  · simp [TailScan.include, h.included]
  · rw [TailScan.include, h.used, size_cons]
  · rw [TailScan.include, hjoin, hlen]
    dsimp only
    omega
  · have htake := List.prefix_iff_eq_take.mp (join_isPrefix A (l :: R))
    rw [← hlines, ← hcontent] at htake
    exact htake.symm

theorem TailAt.stops {s : TailScan} (h : TailAt content (A ++ [l]) R s)
    (hlines : lines = A ++ l :: R) (hlen : R.length ≤ maxLines) (hfits : size R ≤ maxBytes)
    (hover : maxBytes < size (l :: R)) (hR : R ≠ []) (by' : TruncatedBy) :
    TailDone content lines maxLines maxBytes (.stopped s by') :=
  h.done (by simp [hlines]) hlen hfits (.inr (.inr ⟨A, l, rfl, hover⟩))
    (fun hnil => absurd hnil hR) by'

theorem TailAt.overlong {s : TailScan} (h : TailAt content (A ++ [l]) R s)
    (hlines : lines = A ++ l :: R) (hlen : R.length ≤ maxLines) (hfits : size R ≤ maxBytes)
    (hover : maxBytes < size (l :: R)) {data : List CodeUnit}
    (hdata : R = [] → truncateTailBytes data maxBytes = truncateTailBytes l maxBytes) :
    TailDone content lines maxLines maxBytes
      (if s.includedLines = 0 then .overlong (truncateTailBytes data maxBytes)
        else .stopped s .bytes) := by
  split
  next hnone =>
    have hR : R = [] := List.length_eq_zero_iff.mp (h.included.symm.trans hnone)
    subst hR
    rw [size_singleton] at hover
    exact ⟨A, l, hlines, hover, by rw [hdata rfl, truncateTailBytes_fits (.inr hover)]⟩
  next hsome =>
    exact h.stops hlines hlen hfits hover (fun hR => hsome (by rw [h.included, hR]; rfl)) .bytes

theorem TailAt.eq_nil_of_stop {s : TailScan} (h : TailAt content (A ++ [l]) R s)
    (hzero : s.stop = 0) :
    A = [] ∧ l = [] := by
  have hlen := h.stop
  rw [length_join_append A (by simp), join_singleton, hzero] at hlen
  refine ⟨?_, List.length_eq_zero_iff.mp (by omega)⟩
  by_contra hA
  simp only [sepBytes, List.length_pos_of_ne_nil hA, if_true] at hlen
  omega

theorem TailAt.next {s : TailScan} (h : TailAt content (A ++ [l]) R s) (hlines : lines = A ++ l :: R)
    (hcontent : content = join lines) (hA : A ≠ []) :
    TailAt content A (l :: R)
      ⟨s.includedLines + 1, size R + (sepBytes R + utf8Length l), (join A).length + 1,
        (join A).length⟩ := by
  have hnext := h.include hlines hcontent
  have hstart : (join A).length + 1 = s.stop - l.length := by
    rw [h.stop, join_append hA (by simp), join_singleton, List.length_append, List.length_cons]
    omega
  rwa [TailScan.include, h.used, ← hstart] at hnext

theorem slice_max {start stop : Nat} (hslice : slice content start stop = l) (x : Nat) :
    slice content (max start x) stop = l.drop (x - start) := by
  rw [← hslice, slice, slice, List.drop_drop]
  congr 1
  omega

theorem truncateTailBytes_window (hlong : maxBytes < l.length) :
    truncateTailBytes (l.drop (l.length - maxBytes)) maxBytes = truncateTailBytes l maxBytes := by
  have hunits := length_le_utf8Length l
  rw [truncateTailBytes_fits (.inl (by rw [List.length_drop]; omega)),
    truncateTailBytes_fits (.inr (by omega)), fitSuffix_wellFormedChars_drop (Nat.le_refl _)]

theorem tailLoop_spec {s : TailScan} (h : TailAt content (A ++ [l]) R s)
    (hlines : lines = A ++ l :: R) (hcontent : content = join lines) (hnl : ∀ l ∈ lines, nl ∉ l)
    (hleft : R.length + left = maxLines) (hfits : size R ≤ maxBytes)
    (hover : ¬(lines.length ≤ maxLines ∧ size lines ≤ maxBytes)) (hpos : 0 < maxLines) :
    TailDone content lines maxLines maxBytes (tailLoop content maxBytes left s) := by
  induction left generalizing A l R s with
  | zero =>
    exact h.done (by simp [hlines]) (by omega) hfits (.inr (.inl (by omega))) (by rintro rfl; simp at hleft; omega)
      .lines
  | succ left ih =>
    have hl : nl ∉ l := hnl l (by rw [hlines]; simp)
    have hsep : (if 0 < s.includedLines then 1 else 0) = sepBytes R := by rw [h.included]; rfl
    have hunits := length_le_utf8Length l
    have hsize := size_cons l R
    have hlen : R.length ≤ maxLines := by omega
    have hcount : lines.length = A.length + (R.length + 1) := by rw [hlines, List.length_append, List.length_cons]
    unfold tailLoop
    dsimp only
    rw [hsep, h.used]
    by_cases hzero : s.stop = 0
    · -- the first line is empty: `lastIndexOf` may find the newline behind it, but there is no room for that one
      obtain ⟨rfl, rfl⟩ := h.eq_nil_of_stop hzero
      have hbytes : maxBytes < size R + sepBytes R := by
        refine Nat.not_le.mp fun hle => hover ⟨?_, ?_⟩
        · rw [hcount, List.length_nil]
          omega
        · rw [hlines, List.nil_append, hsize]
          exact hle
      rw [if_pos hbytes]
      refine h.stops hlines hlen hfits (by omega) ?_ .bytes
      rintro rfl
      simp [sepBytes] at hbytes
    · obtain ⟨hfound, hlength, hslice⟩ := h.lineStart hl (Nat.pos_of_ne_zero hzero)
      rw [hlength, hslice, slice_max hslice]
      split
      next hroom =>
        refine h.stops hlines hlen hfits (by omega) ?_ .bytes
        rintro rfl
        simp [sepBytes] at hroom
      next hroom =>
        split
        next hlong =>
          refine h.overlong hlines hlen hfits (by omega) fun hR => ?_
          subst hR
          simp only [sepBytes, size_nil, List.length_nil, Nat.lt_irrefl, if_false,
            Nat.sub_zero] at hlong
          rw [← truncateTailBytes_window hlong]
          congr 2
          omega
        next =>
          split
          next => exact h.overlong hlines hlen hfits (by omega) fun _ => rfl
          next hline =>
            have hA : A ≠ [] := by
              rintro rfl
              exact hover ⟨by rw [hcount, List.length_nil]; omega, by rw [hlines, List.nil_append]; omega⟩
            rw [hfound, if_neg hA]
            have hnext := h.next hlines hcontent hA
            obtain ⟨A', l', rfl⟩ := (List.eq_nil_or_concat A).resolve_left hA
            rw [List.concat_eq_append] at *
            exact ih hnext (by simp [hlines]) (by simp; omega) (by omega)

structure KeepsPartial (r : TruncationResult) (l : Line) (maxBytes : Nat)
    (points : List CodePoint) : Prop where
  suffix : points <:+ codePoints l
  fits : byteLength (points.map CodePoint.toChar) ≤ maxBytes
  longest : ∀ q, q <:+ codePoints l → byteLength (q.map CodePoint.toChar) ≤ maxBytes →
    q.length ≤ points.length
  content_eq : r.content = charsUnits (points.map CodePoint.toChar)
  truncated : r.truncated = some true
  lines : r.outputLines = some 1
  bytes : r.outputBytes = some (utf8Length r.content)
  lastPartial : r.lastLinePartial = some true
  suffix_of_scalar : (∀ p ∈ points, p.IsScalar) → r.content <:+ l

theorem utf8Length_charsUnits (t : Chars) : utf8Length (charsUnits t) = byteLength t := by
  rw [utf8Length, wellFormedChars_charsUnits]

theorem exists_points (l : Line) (maxBytes : Nat) :
    ∃ points, points <:+ codePoints l ∧
      points.map CodePoint.toChar = fitSuffix maxBytes (wellFormedChars l) := by
  obtain ⟨front, hfront⟩ := fitSuffix_suffix maxBytes (wellFormedChars l)
  obtain ⟨a, b, hab, -, hb⟩ := List.map_eq_append_iff.mp hfront.symm
  exact ⟨b, ⟨a, hab.symm⟩, hb⟩

theorem tailResult_overlong {l : Line} (totalLines totalBytes : Nat) :
    ∃ points, KeepsPartial (tailResult content maxLines maxBytes totalLines totalBytes
      (.overlong (charsUnits (fitSuffix maxBytes (wellFormedChars l)),
        byteLength (fitSuffix maxBytes (wellFormedChars l))))) l maxBytes points := by
  obtain ⟨points, hsuffix, hpoints⟩ := exists_points l maxBytes
  refine ⟨points, hsuffix, ?_, fun q hq hfits => ?_, ?_, rfl, rfl, ?_, rfl, fun hscalar => ?_⟩
  · rw [hpoints]
    exact byteLength_fitSuffix_le _ _
  · have hle := (suffix_fitSuffix (hq.map CodePoint.toChar) hfits).length_le
    change (q.map CodePoint.toChar).length ≤ (fitSuffix maxBytes (wellFormedChars l)).length at hle
    rw [← hpoints] at hle
    simpa using hle
  · rw [hpoints]
    rfl
  · rw [tailResult]
    exact congrArg some (utf8Length_charsUnits _).symm
  · rw [tailResult, ← hpoints]
    dsimp only
    rw [charsUnits_map_toChar hscalar]
    obtain ⟨front, hfront⟩ := hsuffix
    refine ⟨pointsUnits front, ?_⟩
    rw [← pointsUnits_codePoints l, ← hfront]
    simp [pointsUnits]

theorem lastLine_eq {A : List Line} {l : Line} (h : linesOf content = A ++ [l]) :
    lastLine nl content = l := by
  have hl : nl ∉ l := notMem_linesOf content l (by rw [h]; simp)
  rw [← join_linesOf content, h]
  by_cases hA : A = []
  · rw [hA, List.nil_append, join_singleton, lastLine_of_notMem hl]
  · rw [join_append hA (by simp), join_singleton, lastLine_append_cons, lastLine_of_notMem hl]

theorem tailResult_stopped {s : TailScan} {truncatedBy : TruncatedBy} (totalLines totalBytes : Nat)
    (hpos : 1 ≤ maxLines)
    (hdone : TailDone content (linesOf content) maxLines maxBytes (.stopped s truncatedBy)) :
    utf8Length (lastLine nl content) ≤ maxBytes ∧
      ∃ k, 1 ≤ k ∧ Longest (tailBytes (linesOf content)) (linesOf content).length
        maxLines maxBytes k ∧
        Keeps (tailResult content maxLines maxBytes totalLines totalBytes (.stopped s truncatedBy))
          content
          (join ((linesOf content).drop ((linesOf content).length - k))) k := by
  obtain ⟨A', R, hAR, hincluded, hused, hstartIndex, hlen, hsize, hstop, hsome⟩ := hdone
  have hR : R ≠ [] := fun hnil => by
    have := hsome hnil
    omega
  have hdrop : (linesOf content).drop ((linesOf content).length - R.length) = R := by
    rw [hAR, List.length_append, Nat.add_sub_cancel, List.drop_left]
  have hlastR : utf8Length (lastLine nl content) ≤ size R := by
    obtain ⟨R', l, hR'⟩ := (List.eq_nil_or_concat R).resolve_left hR
    rw [List.concat_eq_append] at hR'
    rw [lastLine_eq (A := A' ++ R') (l := l) (by rw [hAR, hR', List.append_assoc])]
    have hle := (size_le_append R' [l]).2
    rwa [← hR', size_singleton] at hle
  refine ⟨hlastR.trans hsize, R.length, List.length_pos_of_ne_nil hR,
    .of_stop (tailBytes_mono _) ⟨by simp [hAR], hlen, ?_⟩ ?_, ?_, ?_, ?_, by simp [tailResult]⟩
  · rw [tailBytes, hdrop]
    exact hsize
  · obtain rfl | hmax | ⟨A'', l', rfl, hover⟩ := hstop
    · exact .inl (by simp [hAR])
    · exact .inr (.inl hmax)
    · refine .inr (.inr ?_)
      rw [tailBytes, show (linesOf content).length - (R.length + 1) =
        A''.length by rw [hAR]; simp, hAR, List.append_assoc, List.singleton_append, List.drop_left]
      exact hover
  · have htail := List.suffix_iff_eq_drop.mp (join_isSuffix A' R)
    rw [← hAR, join_linesOf] at htail
    rw [hdrop]
    refine Eq.trans ?_ htail.symm
    rw [tailResult]
    dsimp only
    congr 1
    omega
  · simp [tailResult]
  · intro _
    rw [hdrop, tailResult, hincluded, hused]
    exact ⟨rfl, rfl⟩

theorem truncateTail_keeps (content : List CodeUnit) (maxLines maxBytes : Nat)
    (options : TruncationOptions) (hpos : 1 ≤ maxLines) (hlines : options.maxLines = some maxLines)
    (hbytes : options.maxBytes = some maxBytes) :
    (utf8Length (lastLine nl content) ≤ maxBytes →
      ∃ k, 1 ≤ k ∧ Longest (tailBytes (linesOf content)) (linesOf content).length
        maxLines maxBytes k ∧
        Keeps (truncateTail content options) content
          (join ((linesOf content).drop ((linesOf content).length - k))) k) ∧
    (maxBytes < utf8Length (lastLine nl content) →
      ∃ points, KeepsPartial (truncateTail content options) (lastLine nl content)
        maxBytes points) := by
  obtain ⟨A, l, hAl⟩ :=
    (List.eq_nil_or_concat (linesOf content)).resolve_left (linesOf_ne_nil content)
  rw [List.concat_eq_append] at hAl
  have hlast := lastLine_eq hAl
  rw [hlast]
  unfold truncateTail
  rw [hlines, hbytes]
  simp only [Option.getD_some]
  rw [← length_linesOf, ← size_linesOf content]
  split
  next hfits =>
    constructor
    · intro _
      refine ⟨(linesOf content).length, by simp [hAl],
        .of_stop (tailBytes_mono _) ⟨Nat.le_refl _, hfits.1, ?_⟩ (.inl rfl),
        keeps_whole (by rw [Nat.sub_self, List.drop_zero, join_linesOf]) _ _ _⟩
      simpa [tailBytes] using hfits.2
    · intro hover
      have hle := (size_le_append A [l]).2
      rw [← hAl, size_singleton] at hle
      omega
  next hfits =>
    have hstart : TailAt content (A ++ [l]) [] ⟨0, 0, content.length, content.length⟩ := by
      rw [← hAl]
      exact ⟨rfl, rfl, rfl, by simp [join_linesOf], by simp [join_linesOf]⟩
    have hdone : TailDone content (linesOf content) maxLines maxBytes
        (tailLoop content maxBytes maxLines ⟨0, 0, content.length, content.length⟩) :=
      tailLoop_spec hstart hAl (join_linesOf content).symm (notMem_linesOf content) (by simp)
        (by simp) hfits hpos
    cases hscan : tailLoop content maxBytes maxLines ⟨0, 0, content.length, content.length⟩ with
    | overlong tail =>
      rw [hscan] at hdone
      obtain ⟨A', l', hAl', hover, rfl⟩ := hdone
      obtain rfl : l' = l := (lastLine_eq hAl').symm.trans hlast
      exact ⟨fun hle => absurd hover (Nat.not_lt.mpr hle), fun _ => tailResult_overlong _ _⟩
    | stopped s truncatedBy =>
      rw [hscan] at hdone
      have hkeeps := tailResult_stopped (linesOf content).length (size (linesOf content)) hpos hdone
      rw [hlast] at hkeeps
      exact ⟨fun _ => hkeeps.2, fun hover => absurd hkeeps.1 (Nat.not_le.mpr hover)⟩

/-- `truncateHead` keeps the most lines from the head that fit, `truncateTail` the most from the
tail; of a last line that does not fit it keeps the longest suffix of whole code points. -/
theorem truncation_keeps_longest (content : List CodeUnit) (maxLines maxBytes : Nat)
    (hpos : 1 ≤ maxLines) :
    let options : TruncationOptions := ⟨some maxLines, some maxBytes, none, none⟩
    let lines := linesOf content
    (∃ k, Longest (headBytes lines) lines.length maxLines maxBytes k ∧
      Keeps (truncateHead content options) content (join (lines.take k)) k) ∧
    (utf8Length (lastLine nl content) ≤ maxBytes →
      ∃ k, 1 ≤ k ∧ Longest (tailBytes lines) lines.length maxLines maxBytes k ∧
        Keeps (truncateTail content options) content (join (lines.drop (lines.length - k))) k) ∧
    (maxBytes < utf8Length (lastLine nl content) →
      ∃ points, KeepsPartial (truncateTail content options) (lastLine nl content)
      maxBytes points) := by
  intro options lines
  exact ⟨truncateHead_keeps content maxLines maxBytes options rfl rfl,
    truncateTail_keeps content maxLines maxBytes options hpos rfl rfl⟩

theorem truncation_keeps_longest_oneLine : 1 ≤ 1 ∧
    ∃ k, Longest (headBytes (linesOf [0x61, nl, 0x62])) (linesOf [0x61, nl, 0x62]).length 1 8 k ∧
      Keeps (truncateHead [0x61, nl, 0x62] ⟨some 1, some 8, none, none⟩) [0x61, nl, 0x62]
        (join ((linesOf [0x61, nl, 0x62]).take k)) k :=
  ⟨Nat.le_refl 1, (truncation_keeps_longest [0x61, nl, 0x62] 1 8 (Nat.le_refl 1)).1⟩

theorem partial_line_is_not_a_suffix :
    (truncateTail [0x61, 0xd800, 0x62] ⟨some 1, some 4, none, none⟩).content = [0xfffd, 0x62] ∧
      ¬[0xfffd, 0x62] <:+ ([0x61, 0xd800, 0x62] : List CodeUnit) := by
  refine ⟨?_, by decide⟩
  decide +kernel

end JevCode.Session.Truncation
