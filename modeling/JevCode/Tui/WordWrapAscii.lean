import JevCode.Tui.WordRows
import JevCode.Tui.WordWrapLaws

namespace JevCode.Tui.WordWrap

open JevCode.Text

/-- What `wordWrapLine` does with a line that is not printable ASCII. -/
def wordWrapTokens (d : Display) (line : List CodeUnit) (maxWidth : Nat) : List TextChunk :=
  if d.visibleWidth line ≤ maxWidth then [⟨line, 0, line.length⟩]
  else ((tokensOf (d.segment line)).foldl (Wrap.step d maxWidth) {}).finish line

/-- The texts of the chunks without the white space around them. -/
def trimmedTexts (chunks : List TextChunk) : List (List CodeUnit) := chunks.map fun c =>
  trimUnits c.text

@[simp] theorem trimmedTexts_append (xs ys : List TextChunk) :
    trimmedTexts (xs ++ ys) = trimmedTexts xs ++ trimmedTexts ys := List.map_append

/-- The segmenter takes printable ASCII apart unit by unit. -/
def Display.SegmentsAscii (d : Display) : Prop :=
  ∀ s, isPrintableAscii s = true → d.segment s = s.map fun u => [u]

theorem not_space_of_letter {u : CodeUnit} (h : isPrintableAsciiUnit u = true) (hu : u ≠ 0x20) :
    isSpaceUnit u = false ∧ isWhiteSpace u = false ∧ isBlank u = false := by
  simp only [isPrintableAsciiUnit, isSpaceUnit, isWhiteSpace, isBlank, Bool.and_eq_true,
    decide_eq_true_eq, UInt16.le_iff_toNat_le, ne_eq, ← UInt16.toNat_inj, List.mem_cons,
    List.not_mem_nil, Bool.or_eq_false_iff, decide_eq_false_iff_not, Bool.and_eq_false_iff,
      or_false] at *
  simp at *
  omega

structure IsPlainWord (word : List CodeUnit) : Prop extends IsWord word where
  ascii : ∀ u ∈ word, isPrintableAsciiUnit u = true

theorem IsPlainWord.not_space {word : List CodeUnit} (h : IsPlainWord word) {u : CodeUnit}
    (hu : u ∈ word) :
    isSpaceUnit u = false ∧ isWhiteSpace u = false ∧ isBlank u = false :=
  not_space_of_letter (h.ascii u hu) (h.no_blank u hu)

def PlainWords (maxWidth : Nat) (items : List Spaced) : Prop :=
  ∀ item ∈ items, 0 < item.1 ∧ IsPlainWord item.2 ∧ item.2.length ≤ maxWidth

structure Solid (row : List CodeUnit) : Prop where
  first : ∃ u rest, row = u :: rest ∧ isSpaceUnit u = false
  last : ∃ rest u, row = rest ++ [u] ∧ isSpaceUnit u = false

theorem IsPlainWord.solid {word : List CodeUnit} (h : IsPlainWord word) : Solid word := by
  constructor
  · obtain ⟨u, rest, rfl⟩ := List.exists_cons_of_ne_nil h.ne_nil
    exact ⟨u, rest, rfl, (h.not_space List.mem_cons_self).1⟩
  · refine ⟨word.dropLast, word.getLast h.ne_nil, (List.dropLast_concat_getLast _).symm, ?_⟩
    exact (h.not_space (List.getLast_mem h.ne_nil)).1

theorem Solid.append {row word : List CodeUnit} (hrow : Solid row) (hword : Solid word) (gap : Nat) :
    Solid (row ++ blanks gap ++ word) := by
  obtain ⟨u, rest, rfl, hu⟩ := hrow.first
  obtain ⟨rest', u', rfl, hu'⟩ := hword.last
  exact ⟨⟨u, rest ++ blanks gap ++ (rest' ++ [u']), by simp, hu⟩,
    ⟨u :: rest ++ blanks gap ++ rest', u', by simp, hu'⟩⟩

theorem Solid.ne_nil {row : List CodeUnit} (h : Solid row) : row ≠ [] := by
  obtain ⟨u, rest, rfl, -⟩ := h.first
  simp

theorem space_of_mem_blanks {n : Nat} {u : CodeUnit} (h : u ∈ blanks n) : u = 0x20 :=
  List.eq_of_mem_replicate h

theorem rdropWhile_blanks (s : List CodeUnit) (n : Nat) :
    (s ++ blanks n).rdropWhile isSpaceUnit = s.rdropWhile isSpaceUnit := by
  rw [List.rdropWhile, List.rdropWhile, List.reverse_append, blanks, List.reverse_replicate]
  congr 1
  induction n with
  | zero => simp
  | succ n ih =>
    rw [List.replicate_succ, List.cons_append, List.dropWhile_cons_of_pos (by decide), ih]

theorem Solid.trimEnd {row : List CodeUnit} (h : Solid row) (before : List CodeUnit) (n : Nat) :
    trimEndUnits (before ++ row ++ blanks n) = before ++ row := by
  obtain ⟨rest, u, rfl, hu⟩ := h.last
  rw [trimEndUnits, rdropWhile_blanks, ← List.append_assoc,
    List.rdropWhile_concat_neg _ _ _ (by simp [hu])]

theorem dropWhile_blanks (n : Nat) (s : List CodeUnit) :
    (blanks n ++ s).dropWhile isSpaceUnit = s.dropWhile isSpaceUnit := by
  rw [blanks]
  induction n with
  | zero => simp
  | succ n ih =>
    rw [List.replicate_succ, List.cons_append, List.dropWhile_cons_of_pos (by decide), ih]

theorem Solid.trim {row : List CodeUnit} (h : Solid row) (m n : Nat) :
    trimUnits (blanks m ++ row ++ blanks n) = row := by
  have hend := h.trimEnd [] n
  obtain ⟨u, rest, hcons, hu⟩ := h.first
  rw [trimUnits, List.append_assoc, dropWhile_blanks, hcons, List.cons_append,
    List.dropWhile_cons_of_neg (by simp [hu]), ← List.cons_append, ← hcons]
  simpa [trimEndUnits] using hend

theorem Solid.trim_self {row : List CodeUnit} (h : Solid row) : trimUnits row = row := by
  simpa [blanks] using h.trim 0 0

theorem trimUnits_blanks (n : Nat) : trimUnits (blanks n) = [] := by
  have hdrop := dropWhile_blanks n []
  rw [List.append_nil, List.dropWhile_nil] at hdrop
  rw [trimUnits, hdrop]
  rfl

def Token.key (t : Token) : List CodeUnit × Bool := (t.text, t.isWhitespace)

def spacedKeys (items : List Spaced) : List (List CodeUnit × Bool) :=
  items.flatMap fun item => [(blanks item.1, true), (item.2, false)]

def Scan.keys (sc : Scan) : List (List CodeUnit × Bool) :=
  sc.tokens.map Token.key ++ [(sc.currentToken, sc.inWhitespace)]

theorem scan_same (sc : Scan) (hsc : sc.currentToken ≠ []) (run : List CodeUnit)
    (hrun : ∀ u ∈ run, isWhiteSpace u = sc.inWhitespace) :
    ((run.map fun u => [u]).foldl Scan.step sc).keys =
        sc.tokens.map Token.key ++ [(sc.currentToken ++ run, sc.inWhitespace)] ∧
      ((run.map fun u => [u]).foldl Scan.step sc).currentToken ≠ [] ∧
      ((run.map fun u => [u]).foldl Scan.step sc).inWhitespace = sc.inWhitespace := by
  induction run generalizing sc with
  | nil => simp [Scan.keys, hsc]
  | cons u run ih =>
    have hstep : sc.step [u] =
        { sc with currentToken := sc.currentToken ++ [u], charIndex := sc.charIndex + 1 } := by
      simp [Scan.step, hsc, isWhitespaceGrapheme, hrun u List.mem_cons_self]
    have hnext := ih (sc.step [u]) (by simp [hstep]) fun v hv => by
      rw [hstep]
      exact hrun v (List.mem_cons_of_mem _ hv)
    rw [List.map_cons, List.foldl_cons]
    simpa [hstep] using hnext

theorem scan_other {sc : Scan} (hsc : sc.currentToken ≠ []) {run : List CodeUnit} (hne : run ≠ [])
    (hrun : ∀ u ∈ run, isWhiteSpace u = !sc.inWhitespace) :
    ((run.map fun u => [u]).foldl Scan.step sc).keys = sc.keys ++ [(run, !sc.inWhitespace)] ∧
      ((run.map fun u => [u]).foldl Scan.step sc).currentToken ≠ [] ∧
      ((run.map fun u => [u]).foldl Scan.step sc).inWhitespace = !sc.inWhitespace := by
  obtain ⟨u, run, rfl⟩ := List.exists_cons_of_ne_nil hne
  have hstep : sc.step [u] =
      { tokens := sc.push, currentToken := [u], tokenStart := sc.charIndex, inWhitespace := !sc.inWhitespace
        charIndex := sc.charIndex + 1 } := by
    simp [Scan.step, hsc, isWhitespaceGrapheme, hrun u List.mem_cons_self]
  have hnext := scan_same (sc.step [u]) (by simp [hstep]) run fun v hv => by
    rw [hstep]
    exact hrun v (List.mem_cons_of_mem _ hv)
  rw [List.map_cons, List.foldl_cons]
  simpa [hstep, Scan.keys, Scan.push, Token.key] using hnext

theorem whiteSpace_of_mem_blanks {n : Nat} {u : CodeUnit} (h : u ∈ blanks n) :
    isWhiteSpace u = true := by
  rw [space_of_mem_blanks h]
  decide

theorem scan_words {maxWidth : Nat} {items : List Spaced}
    (hitems : PlainWords maxWidth items) {sc : Scan} (hsc : sc.currentToken ≠ [])
    (hkind : sc.inWhitespace = false) :
    (((unspaced items).map fun u => [u]).foldl Scan.step sc).keys = sc.keys ++ spacedKeys items ∧
      (((unspaced items).map fun u => [u]).foldl Scan.step sc).currentToken ≠ [] := by
  induction items generalizing sc with
  | nil => simp [spacedKeys, hsc]
  | cons item items ih =>
    obtain ⟨gap, word⟩ := item
    obtain ⟨⟨hgap, hword, -⟩, hrest⟩ := List.forall_mem_cons.mp hitems
    have hblanks : blanks gap ≠ [] := by simp [blanks]; omega
    obtain ⟨hkeys, hne, hspace⟩ := scan_other hsc hblanks fun u hu => by
      rw [hkind]
      exact whiteSpace_of_mem_blanks hu
    obtain ⟨hkeys', hne', hspace'⟩ := scan_other hne hword.ne_nil fun u hu => by
      rw [hspace, hkind]
      exact (hword.not_space hu).2.1
    obtain ⟨hkeys'', hne''⟩ := ih hrest hne' (by rw [hspace', hspace, hkind]; rfl)
    rw [unspaced_cons, List.map_append, List.map_append, List.foldl_append, List.foldl_append]
    refine ⟨?_, hne''⟩
    rw [hkeys'', hkeys', hkeys, hspace, hkind]
    simp [spacedKeys]

theorem tokensOf_words {maxWidth : Nat} {word : List CodeUnit} (hword : IsPlainWord word)
    {items : List Spaced} (hitems : PlainWords maxWidth items) :
    (tokensOf ((word ++ unspaced items).map fun u => [u])).map Token.key =
    (word, false) :: spacedKeys items := by
  obtain ⟨u, rest, rfl⟩ := List.exists_cons_of_ne_nil hword.ne_nil
  have hspace (v : CodeUnit) (hv : v ∈ u :: rest) : isWhiteSpace v = false :=
    (hword.not_space hv).2.1
  have hstep : ({} : Scan).step [u] = { currentToken := [u], charIndex := 1 } := by
    simp [Scan.step, isWhitespaceGrapheme, hspace u List.mem_cons_self]
  obtain ⟨hkeys, hne, hkind⟩ := scan_same { currentToken := [u], charIndex := 1 } (by simp) rest
    fun v hv => hspace v (List.mem_cons_of_mem _ hv)
  obtain ⟨hkeys', hne'⟩ := scan_words hitems hne hkind
  rw [tokensOf]
  simp only [List.map_append, List.map_cons, List.cons_append, List.foldl_cons,
    List.foldl_append, hstep]
  rw [if_pos hne', Scan.push, List.map_append]
  rw [hkeys] at hkeys'
  simpa [Scan.keys, Token.key] using hkeys'

section Tokens

variable {d : Display} {maxWidth : Nat} {w : Wrap} {token : Token} {word : List CodeUnit} {gap : Nat}

theorem visibleWidth_blanks (d : Display) (n : Nat) : d.visibleWidth (blanks n) = n := by
  rw [visibleWidth_ascii fun u hu => by rw [space_of_mem_blanks hu]; decide]
  exact List.length_replicate

theorem isPrintableAscii_of_forall {s : List CodeUnit} (h : ∀ u ∈ s, isPrintableAsciiUnit u = true) :
    isPrintableAscii s = true := List.all_eq_true.mpr h

theorem segment_blanks (hd : d.SegmentsAscii) (n : Nat) :
    d.segment (blanks n) = List.replicate n [0x20] := by
  rw [hd _ (isPrintableAscii_of_forall fun u hu => by rw [space_of_mem_blanks hu]; decide), blanks,
    List.map_replicate]

theorem visibleWidth_unit {u : CodeUnit} (h : isPrintableAsciiUnit u = true) :
    d.visibleWidth [u] = 1 :=
  visibleWidth_ascii fun v hv => by rw [List.mem_singleton.mp hv]; exact h

theorem not_hasWideGrapheme (hd : d.SegmentsAscii) (hword : IsPlainWord word) :
    d.hasWideGrapheme word = false := by
  rw [Display.hasWideGrapheme, hd _ (isPrintableAscii_of_forall hword.ascii), List.any_eq_false]
  intro g hg
  obtain ⟨u, hu, rfl⟩ := List.mem_map.mp hg
  simp [visibleWidth_unit (hword.ascii u hu)]

theorem step_word_fits (hkey : token.key = (word, false)) (hword : IsPlainWord word)
    (hfits : w.currentWidth + word.length ≤ maxWidth) : w.step d maxWidth token =
      { w with
        atLineStart := false
        currentChunk := w.currentChunk ++ word
        currentWidth := w.currentWidth + word.length } := by
  obtain ⟨rfl, hspace⟩ := Prod.mk.inj hkey
  have hlen : ¬ token.text.length > maxWidth := by omega
  have hfits' : ¬ w.currentWidth + token.text.length > maxWidth := by omega
  simp [Wrap.step, hspace, visibleWidth_ascii hword.ascii, hlen, hfits']

theorem step_word_breaks (hd : d.SegmentsAscii) (hkey : token.key = (word, false))
    (hword : IsPlainWord word) (hlen : word.length ≤ maxWidth)
    (hfits : maxWidth < w.currentWidth + word.length) : w.step d maxWidth token =
      Wrap.stepBreak { w with atLineStart := false } token word.length := by
  obtain ⟨rfl, hspace⟩ := Prod.mk.inj hkey
  have hnarrow : ¬ token.text.length > maxWidth := by omega
  simp [Wrap.step, Wrap.stepFull, hspace, visibleWidth_ascii hword.ascii, hnarrow, hfits,
    not_hasWideGrapheme hd hword]

theorem step_blanks_fit (hkey : token.key = (blanks gap, true)) (hstart : w.atLineStart = false)
    (hfits : w.currentWidth + gap ≤ maxWidth) : w.step d maxWidth token =
      { w with
        currentChunk := w.currentChunk ++ blanks gap, currentWidth := w.currentWidth + gap } := by
  obtain ⟨htext, hspace⟩ := Prod.mk.inj hkey
  have hnarrow : ¬ gap > maxWidth := by omega
  have hfits' : ¬ w.currentWidth + gap > maxWidth := by omega
  simp [Wrap.step, hstart, htext, visibleWidth_blanks, hnarrow, hfits']

theorem step_blanks_break (hkey : token.key = (blanks gap, true)) (hstart : w.atLineStart = false)
    (hlen : gap ≤ maxWidth) (hfits : maxWidth < w.currentWidth + gap) : w.step d maxWidth token =
      Wrap.stepBreak { w with atLineStart := false } token gap := by
  obtain ⟨htext, hspace⟩ := Prod.mk.inj hkey
  have hnarrow : ¬ gap > maxWidth := by omega
  simp [Wrap.step, Wrap.stepFull, hstart, htext, hspace, visibleWidth_blanks, hnarrow, hfits]

theorem consumeLoop_blanks (availableWidth n : Nat) (consumed : List CodeUnit) {consumedWidth : Nat}
    (h : consumedWidth ≤ availableWidth) (hn : availableWidth - consumedWidth ≤ n) :
    d.consumeLoop availableWidth (List.replicate n [0x20]) consumed consumedWidth =
      consumed ++ blanks (availableWidth - consumedWidth) := by
  induction n generalizing consumed consumedWidth with
  | zero => simp [Display.consumeLoop, blanks, Nat.le_zero.mp hn]
  | succ n ih =>
    rw [List.replicate_succ]
    simp only [Display.consumeLoop, visibleWidth_unit (u := 0x20) (by decide)]
    split
    case isTrue hfull =>
      have hnone : availableWidth - consumedWidth = 0 := by omega
      simp [hnone, blanks]
    case isFalse hroom =>
      split
      case isTrue hlast =>
        have hone : availableWidth - consumedWidth = 1 := by omega
        rw [hone]
        rfl
      case isFalse hmore =>
        have hsucc : availableWidth - consumedWidth = availableWidth - (consumedWidth + 1) + 1 := by
          omega
        rw [ih (consumed ++ [0x20]) (by omega) (by omega), hsucc, blanks_succ]
        simp

theorem consumePrefix_blanks (hd : d.SegmentsAscii) {n k : Nat} (h : k ≤ n) :
    d.consumePrefixToWidth (blanks n) k = blanks k := by
  rw [Display.consumePrefixToWidth, segment_blanks hd]
  simpa using consumeLoop_blanks (d := d) k n [] (Nat.zero_le _) (by omega)

theorem break_blanks (hmax : 0 < maxWidth) (chunks : List TextChunk) (start n : Nat) :
    ∃ br : Break, (List.replicate (n + 1) [0x20]).foldl (Break.step d maxWidth) ⟨chunks, [], 0,
      start, start⟩ = br ∧
      trimmedTexts br.chunks = trimmedTexts chunks ++ List.replicate (n / maxWidth) [] ∧
      br.tokenChunk = blanks (n % maxWidth + 1) ∧ br.tokenChunkWidth = n % maxWidth + 1 := by
  have hunit : d.visibleWidth [0x20] = 1 := visibleWidth_unit (by decide)
  refine ⟨_, rfl, ?_⟩
  induction n with
  | zero => simp [Break.step, hunit, Nat.mod_eq_of_lt hmax, blanks_succ]
  | succ n ih =>
    rw [List.replicate_succ', List.foldl_append]
    obtain ⟨htexts, hchunk, hwidth⟩ := ih
    have hlt : n % maxWidth < maxWidth := Nat.mod_lt _ hmax
    rw [List.foldl_cons, List.foldl_nil]
    generalize (List.replicate (n + 1) [0x20]).foldl (Break.step d maxWidth) ⟨chunks, [], 0, start,
      start⟩ = br at *
    by_cases hfull : n % maxWidth + 1 = maxWidth
    · have hnext : n + 1 = maxWidth * (n / maxWidth + 1) := by
        rw [Nat.mul_add, Nat.mul_one]
        have := Nat.div_add_mod n maxWidth
        omega
      have hdiv : (n + 1) / maxWidth = n / maxWidth + 1 := Nat.div_eq_of_eq_mul_right hmax hnext
      have hmod : (n + 1) % maxWidth = 0 := Nat.mod_eq_zero_of_dvd ⟨_, hnext⟩
      have hstep : br.step d maxWidth [0x20] =
          ⟨br.chunks ++ [⟨br.tokenChunk, br.tokenChunkStart, br.tokenCharIndex⟩], [0x20], 1,
          br.tokenCharIndex, br.tokenCharIndex + 1⟩ := by
        have hwide : br.tokenChunkWidth + 1 > maxWidth := by omega
        have hne : br.tokenChunk ≠ [] := by simp [hchunk, blanks_succ]
        simp [Break.step, hunit, hwide, hne]
      rw [hstep, hdiv, hmod, List.replicate_succ']
      refine ⟨?_, rfl, rfl⟩
      simp only [trimmedTexts_append, htexts, List.append_assoc]
      simp [trimmedTexts, hchunk, trimUnits_blanks]
    · have hnext : n + 1 = n % maxWidth + 1 + maxWidth * (n / maxWidth) := by
        have := Nat.div_add_mod n maxWidth
        omega
      have hdiv : (n + 1) / maxWidth = n / maxWidth := by
        rw [hnext, Nat.add_mul_div_left _ _ hmax, Nat.div_eq_of_lt (by omega), Nat.zero_add]
      have hmod : (n + 1) % maxWidth = n % maxWidth + 1 := by
        rw [hnext, Nat.add_mul_mod_self_left, Nat.mod_eq_of_lt (by omega)]
      have hstep : br.step d maxWidth [0x20] =
          { br with
            tokenChunk := br.tokenChunk ++ [0x20]
            tokenChunkWidth := br.tokenChunkWidth + 1
            tokenCharIndex := br.tokenCharIndex + 1 } := by
        have hroom : ¬ n % maxWidth + 1 + 1 > maxWidth := by omega
        simp [Break.step, hunit, hwidth, hroom]
      rw [hstep, hdiv, hmod, hchunk, hwidth]
      exact ⟨htexts, (blanks_add (n % maxWidth + 1) 1).symm, rfl⟩

structure HoldsRow (w : Wrap) (shift : Nat) (row : List CodeUnit) : Prop where
  started : w.atLineStart = false
  current : w.currentChunk = blanks shift ++ row
  width : w.currentWidth = shift + row.length

variable {shift : Nat} {row : List CodeUnit}

theorem step_blanks_wide (hd : d.SegmentsAscii) (hmax : 0 < maxWidth)
    (hkey : token.key = (blanks gap, true)) (hw : HoldsRow w shift row) (hrow : Solid row)
    (hcolumn : shift + row.length ≤ maxWidth) (hwide : maxWidth < gap) :
    HoldsRow (w.step d maxWidth token)
      ((shift + row.length + gap - maxWidth - 1) % maxWidth + 1) [] ∧
      trimmedTexts (w.step d maxWidth token).chunks = trimmedTexts w.chunks ++
        (row :: List.replicate ((shift + row.length + gap - maxWidth - 1) / maxWidth) []) := by
  obtain ⟨htext, hspace⟩ := Prod.mk.inj hkey
  have hne : w.currentChunk ≠ [] := by simp [hw.current, hrow.ne_nil]
  have hconsumed : (if w.currentChunk ≠ [] ∧ w.currentWidth < maxWidth then
      d.consumePrefixToWidth token.text (maxWidth - w.currentWidth) else []) =
        blanks (maxWidth - (shift + row.length)) := by
    rw [hw.width, htext]
    split
    case isTrue => exact consumePrefix_blanks hd (by omega)
    case isFalse hfull =>
      have hnone : maxWidth - (shift + row.length) = 0 := by
        have := not_and.mp hfull hne
        omega
      rw [hnone]
      rfl
  have hrest : token.text.drop (blanks (maxWidth - (shift + row.length))).length =
      blanks (shift + row.length + gap - maxWidth - 1 + 1) := by
    rw [htext, length_blanks]
    calc (blanks gap).drop (maxWidth - (shift + row.length))
      _ = blanks (gap - (maxWidth - (shift + row.length))) := List.drop_replicate
      _ = blanks (shift + row.length + gap - maxWidth - 1 + 1) := by congr 1; omega
  obtain ⟨br, hbr, htexts, hchunk, hwidth⟩ := break_blanks (d := d) hmax
    (w.chunks ++ [⟨w.currentChunk ++ blanks (maxWidth - (shift + row.length)), w.chunkStartIndex,
      token.startIndex + (blanks (maxWidth - (shift + row.length))).length⟩])
    (token.startIndex + (blanks (maxWidth - (shift + row.length))).length)
      (shift + row.length + gap - maxWidth - 1)
  have hbrne : br.tokenChunk ≠ [] := by simp [hchunk, blanks_succ]
  have hstep : w.step d maxWidth token =
      { chunks := br.chunks
        currentChunk := br.tokenChunk
        currentWidth := br.tokenChunkWidth
        chunkStartIndex := br.tokenChunkStart
        atLineStart := false } := by
    have hwidth' : d.visibleWidth token.text > maxWidth := by
      rw [htext, visibleWidth_blanks]; exact hwide
    rw [Wrap.step, if_neg (by simp [hw.started])]
    simp only [if_pos hwidth', Wrap.stepLong, hconsumed, if_pos hne, hrest, segment_blanks hd,
      hbr, if_pos hbrne]
  rw [hstep]
  refine ⟨⟨rfl, by simp [hchunk], by simp [hwidth]⟩, ?_⟩
  rw [htexts, hw.current]
  simpa [trimmedTexts] using hrow.trim shift (maxWidth - (shift + row.length))

theorem HoldsRow.fits (hw : HoldsRow w shift row) (hkey : token.key = (word, false))
    (hword : IsPlainWord word) (hfits : shift + row.length + word.length ≤ maxWidth) :
    HoldsRow (w.step d maxWidth token) shift (row ++ word) ∧
      (w.step d maxWidth token).chunks = w.chunks := by
  rw [step_word_fits hkey hword (by rw [hw.width]; exact hfits)]
  exact ⟨⟨rfl, by simp [hw.current], by simp [hw.width, Nat.add_assoc]⟩, rfl⟩

theorem stepBreak_solid (shift gap : Nat)
    (hcurrent : w.currentChunk = blanks shift ++ row ++ blanks gap) (hrow : Solid row)
    (token : Token) (tokenWidth : Nat) :
    trimmedTexts (w.stepBreak token tokenWidth).chunks = trimmedTexts w.chunks ++ [row] := by
  have htrim : trimEndUnits w.currentChunk = blanks shift ++ row := by rw [hcurrent, hrow.trimEnd]
  have hne : blanks shift ++ row ≠ [] := by simp [hrow.ne_nil]
  have hrow' := hrow.trim shift 0
  rw [blanks_zero, List.append_nil] at hrow'
  unfold Wrap.stepBreak
  simp only [htrim, if_pos (Or.inl hne)]
  split <;> simp [trimmedTexts, hrow']

theorem stepBreak_blank (hcurrent : w.currentChunk = blanks gap) (hchunks : w.chunks ≠ [])
    (token : Token) (tokenWidth : Nat) : (w.stepBreak token tokenWidth).chunks = w.chunks := by
  have htrim : trimEndUnits w.currentChunk = [] := by
    have hdrop := rdropWhile_blanks [] gap
    rw [hcurrent, trimEndUnits]
    simpa using hdrop
  unfold Wrap.stepBreak
  simp only [htrim, ne_eq, not_true_eq_false, false_or, if_neg hchunks]
  split <;> rfl

theorem stepBreak_space (hspace : token.isWhitespace = true) (tokenWidth : Nat) :
    (w.stepBreak token tokenWidth).currentChunk = [] ∧
    (w.stepBreak token tokenWidth).currentWidth = 0 := by
  unfold Wrap.stepBreak
  rw [if_pos hspace]
  exact ⟨rfl, rfl⟩

theorem holdsRow_stepBreak (hkey : token.key = (word, false)) :
    HoldsRow (w.stepBreak token word.length) 0 word := by
  obtain ⟨rfl, hspace⟩ := Prod.mk.inj hkey
  unfold Wrap.stepBreak
  rw [if_neg (by simp [hspace])]
  exact ⟨rfl, rfl, (Nat.zero_add _).symm⟩

theorem tokens_rows (hd : d.SegmentsAscii) (hmax : 0 < maxWidth) (line : List CodeUnit)
    {items : List Spaced} (hitems : PlainWords maxWidth items) {tokens : List Token}
    (hkeys : tokens.map Token.key = spacedKeys items) {w : Wrap} {shift : Nat} {row : List CodeUnit}
    (hw : HoldsRow w shift row) (hrow : Solid row) (hcolumn : shift + row.length ≤ maxWidth) :
    trimmedTexts ((tokens.foldl (Wrap.step d maxWidth) w).finish line) =
      trimmedTexts w.chunks ++ tokenRows maxWidth (shift + row.length) row items := by
  induction items generalizing tokens w shift row with
  | nil =>
    obtain rfl : tokens = [] := by simpa [spacedKeys] using hkeys
    have hne : w.currentChunk ≠ [] := by simp [hw.current, hrow.ne_nil]
    have htrim := hrow.trim shift 0
    rw [blanks_zero, List.append_nil, ← hw.current] at htrim
    simp [Wrap.finish, hne, tokenRows, trimmedTexts, htrim]
  | cons item items ih =>
    obtain ⟨gap, word⟩ := item
    obtain ⟨⟨hgap, hword, hlen⟩, hrest⟩ := List.forall_mem_cons.mp hitems
    obtain ⟨blank, tokens, rfl, hblank, hkeys⟩ := List.map_eq_cons_iff.mp hkeys
    obtain ⟨letters, tokens, rfl, hletters, hkeys⟩ := List.map_eq_cons_iff.mp hkeys
    rw [List.foldl_cons, List.foldl_cons]
    simp only [tokenRows]
    by_cases hwide : gap > maxWidth
    · rw [if_pos hwide]
      obtain ⟨hnext, htexts⟩ := step_blanks_wide hd hmax hblank hw hrow hcolumn hwide
      generalize w.step d maxWidth blank = w' at hnext htexts ⊢
      have hchunks : w'.chunks ≠ [] := by
        intro hnil
        simp [hnil, trimmedTexts] at htexts
      split
      case isTrue hfits =>
        obtain ⟨hnext', hsame⟩ := hnext.fits (d := d) hletters hword (by simpa using hfits)
        rw [ih hrest hkeys hnext' (by simpa using hword.solid) (by simpa using hfits), hsame, htexts]
        simp
      case isFalse hfits =>
        have hstep := step_word_breaks hd hletters hword hlen
          (by rw [hnext.width, List.length_nil, Nat.add_zero]; exact Nat.lt_of_not_le hfits)
        have hsame := stepBreak_blank (w :=
          { w' with atLineStart := false }) (by simpa using hnext.current) hchunks
          letters word.length
        rw [hstep, ih hrest hkeys (holdsRow_stepBreak hletters) hword.solid (by simpa using hlen),
          hsame, htexts]
        simp
    · rw [if_neg hwide]
      by_cases hroom : shift + row.length + gap ≤ maxWidth
      · rw [step_blanks_fit hblank hw.started (by rw [hw.width]; exact hroom)]
        split
        case isTrue hfits =>
          have hw' : HoldsRow { w with
              currentChunk := w.currentChunk ++ blanks gap
              currentWidth := w.currentWidth + gap } shift (row ++ blanks gap) :=
            ⟨hw.started, by simp [hw.current], by simp [hw.width, Nat.add_assoc]⟩
          obtain ⟨hnext, hsame⟩ :=
            hw'.fits (d := d) hletters hword (by simpa [Nat.add_assoc] using hfits)
          rw [ih hrest hkeys hnext (hrow.append hword.solid gap)
            (by simpa [Nat.add_assoc] using hfits), hsame]
          simp [Nat.add_assoc]
        case isFalse hfits =>
          rw [step_word_breaks hd hletters hword hlen (by simp only [hw.width]; omega),
            ih hrest hkeys (holdsRow_stepBreak hletters) hword.solid (by simpa using hlen),
            stepBreak_solid shift gap (by simp [hw.current]) hrow]
          simp
      · have hfits : ¬ shift + row.length + gap + word.length ≤ maxWidth := by omega
        have hsolid :=
          stepBreak_solid (w := { w with atLineStart := false }) shift 0 (by simp [hw.current]) hrow
          blank gap
        obtain ⟨hempty, hnone⟩ :=
          stepBreak_space (w := { w with atLineStart := false }) (Prod.mk.inj hblank).2 gap
        rw [if_neg hfits, step_blanks_break hblank hw.started (by omega) (by rw [hw.width]; omega)]
        generalize Wrap.stepBreak { w with
          atLineStart := false } blank gap = w' at hsolid hempty hnone ⊢
        have hw' : HoldsRow (w'.step d maxWidth letters) 0 word := by
          rw [step_word_fits hletters hword (by omega)]
          exact ⟨rfl, by simp [hempty], by simp [hnone]⟩
        have hsame : (w'.step d maxWidth letters).chunks = w'.chunks := by
          rw [step_word_fits hletters hword (by omega)]
        rw [ih hrest hkeys hw' hword.solid (by simpa using hlen), hsame, hsolid]
        simp

theorem tokenRows_whole {items : List Spaced} (column : Nat) (row : List CodeUnit)
    (h : column + (unspaced items).length ≤ maxWidth) :
    tokenRows maxWidth column row items = [row ++ unspaced items] := by
  induction items generalizing column row with
  | nil => simp [tokenRows]
  | cons item items ih =>
    obtain ⟨gap, word⟩ := item
    simp only [unspaced_cons, List.length_append, length_blanks] at h
    rw [tokenRows, if_neg (by omega), if_pos (by omega), ih _ _ (by omega)]
    simp

theorem wordWrapTokens_rows (hd : d.SegmentsAscii) (hmax : 0 < maxWidth) (hword : IsPlainWord word)
    (hlen : word.length ≤ maxWidth) {items : List Spaced} (hitems : PlainWords maxWidth items)
    (hascii : isPrintableAscii (word ++ unspaced items) = true)
    (hsolid : Solid (word ++ unspaced items)) :
    trimmedTexts (wordWrapTokens d (word ++ unspaced items) maxWidth) =
      tokenRows maxWidth word.length word items := by
  have hwidth : d.visibleWidth (word ++ unspaced items) = (word ++ unspaced items).length :=
    visibleWidth_ascii (List.all_eq_true.mp hascii)
  unfold wordWrapTokens
  split
  case isTrue hshort =>
    rw [hwidth, List.length_append] at hshort
    rw [tokenRows_whole _ _ hshort]
    simp [trimmedTexts, hsolid.trim_self]
  case isFalse =>
    have hkeys := tokensOf_words hword hitems
    rw [hd _ hascii]
    obtain ⟨letters, tokens, htokens, hletters, hkeys⟩ := List.map_eq_cons_iff.mp hkeys
    have hfirst := step_word_fits (d := d) (w := {}) hletters hword (by simpa using hlen)
    have hw : HoldsRow (Wrap.step d maxWidth {} letters) 0 word := by
      rw [hfirst]
      exact ⟨rfl, by simp, by simp⟩
    rw [htokens, List.foldl_cons,
      tokens_rows hd hmax _ hitems hkeys hw hword.solid (by simpa using hlen), hfirst]
    simp [trimmedTexts]

end Tokens

section Window

variable {line : List CodeUnit} {maxWidth start gap : Nat} {row : List CodeUnit}

theorem breakAt_eq_some (start : Nat) {i stop : Nat} (hi : (line)[i]?.any isBlank = true)
    (hstart : start ≤ i) (hstop : i < stop)
    (hafter : ∀ j, i < j → j < stop → (line)[j]?.any isBlank = false) :
    breakAt line start stop = some i := by
  induction stop with
  | zero => omega
  | succ stop ih =>
    rw [breakAt, if_pos (by omega)]
    rcases Nat.lt_or_ge i stop with hlt | hge
    · rw [hafter stop hlt (Nat.lt_succ_self _), if_neg (by decide)]
      exact ih hlt fun j hj hj' => hafter j hj (Nat.lt_succ_of_lt hj')
    · obtain rfl : i = stop := by omega
      rw [if_pos hi]

theorem breakAt_eq_none {stop : Nat}
    (h : ∀ j, start ≤ j → j < stop → (line)[j]?.any isBlank = false) :
    breakAt line start stop = none := by
  induction stop with
  | zero => rfl
  | succ stop ih =>
    rw [breakAt]
    split
    case isTrue hlt =>
      rw [h stop (by omega) (Nat.lt_succ_self _), if_neg (by decide)]
      exact ih fun j hj hj' => h j hj (Nat.lt_succ_of_lt hj')
    case isFalse => rfl

theorem any_isBlank_of_mem {s : List CodeUnit} (h : ∀ u ∈ s, isBlank u = false) (i : Nat) :
    (s)[i]?.any isBlank = false := by
  cases hi : (s)[i]? with
  | none => rfl
  | some u => exact h u (List.mem_of_getElem? hi)

theorem getElem?_of_drop {s : List CodeUnit} (h : line.drop start = s) (i : Nat) :
    (line)[start + i]? = (s)[i]? := by
  rw [← h, List.getElem?_drop]

theorem asciiLoop_turn (hrow : Solid row) {k : Nat} (hk : k ≤ gap) (rest : List CodeUnit)
    (hrest : rest.takeWhile isBlank = []) (hdrop : line.drop start = row ++ blanks gap ++ rest)
    (hend : asciiChunkEnd line maxWidth start = start + row.length + k) (fuel : Nat)
    (chunks : List TextChunk) :
    ∃ c : TextChunk, trimUnits c.text = row ∧ asciiLoop line maxWidth (fuel + 1) start chunks =
      asciiLoop line maxWidth fuel (start + row.length + gap) (chunks ++ [c]) := by
  have hlen : 0 < row.length := List.length_pos_iff.mpr hrow.ne_nil
  have hstart : start < line.length := by
    have hsum := congrArg List.length hdrop
    simp at hsum
    omega
  have hgap : blanks gap = blanks k ++ blanks (gap - k) := by rw [← blanks_add]; congr 1; omega
  have hraw : slice line start (start + row.length + k) = row ++ blanks k := by
    rw [slice, hdrop, hgap, Nat.add_assoc, Nat.add_sub_cancel_left, ← List.append_assoc,
      List.append_assoc]
    exact List.take_left' (by simp)
  have htext : trimEndUnits (row ++ blanks k) = row := by simpa using hrow.trimEnd [] k
  have hskip : ((line.drop (start + row.length + k)).takeWhile isBlank).length = gap - k := by
    rw [Nat.add_assoc, ← List.drop_drop, hdrop, hgap, ← List.append_assoc, List.append_assoc,
      List.drop_left' (by simp), List.takeWhile_append_of_pos fun u hu => by
      rw [space_of_mem_blanks hu]; decide, hrest]
    simp
  refine ⟨⟨row, start, start + (row ++ blanks k).length⟩, hrow.trim_self, ?_⟩
  simp only [asciiLoop, if_pos hstart, hend, hraw, htext, hskip, if_pos (Or.inl hrow.ne_nil)]
  congr 1
  omega

theorem asciiChunkEnd_row (hrow : row ≠ []) (hmax : row.length ≤ maxWidth)
    (hplain : row.length < maxWidth ∨ IsPlainWord row) (hgap : 0 < gap) {word rest : List CodeUnit}
    (hword : IsPlainWord word) (hdrop : line.drop start = row ++ blanks gap ++ (word ++ rest))
    (hreach : maxWidth ≤ row.length + gap + word.length) (hlong : start + maxWidth < line.length) :
    ∃ k ≤ gap, asciiChunkEnd line maxWidth start = start + row.length + k := by
  have hpos : 0 < row.length := List.length_pos_iff.mpr hrow
  have hcut : min line.length (start + maxWidth) = start + maxWidth := by omega
  rcases Nat.lt_or_ge row.length maxWidth with hlt | hge
  · -- the last blank of the window
    obtain ⟨k, hk, hkeq⟩ : ∃ k < gap, row.length + k = min maxWidth (row.length + gap) - 1 :=
      ⟨min maxWidth (row.length + gap) - 1 - row.length, by omega, by omega⟩
    refine ⟨k, Nat.le_of_lt hk, ?_⟩
    have hblank : (line)[start + row.length + k]?.any isBlank = true := by
      have hmem : (blanks gap)[k]? = some 0x20 := by simp [blanks, hk]
      rw [Nat.add_assoc, getElem?_of_drop hdrop, List.getElem?_append_left (by simp; omega),
        List.getElem?_append_right (by omega), Nat.add_sub_cancel_left, hmem]
      rfl
    have hafter (j : Nat) (hj : start + row.length + k < j) (hj' : j < start + maxWidth) :
        (line)[j]?.any isBlank = false := by
      obtain ⟨i, rfl⟩ := Nat.exists_eq_add_of_le (show start + (row.length + gap) ≤ j by omega)
      rw [Nat.add_assoc, getElem?_of_drop hdrop, List.getElem?_append_right (by simp),
        List.getElem?_append_left (by simp; omega)]
      exact any_isBlank_of_mem (fun u hu => (hword.not_space hu).2.2) _
    have hbreak := breakAt_eq_some start hblank (by omega) (by omega) hafter
    simp only [asciiChunkEnd, hcut, if_pos hlong, hbreak]
    rw [if_pos (by omega)]
  · -- a word as wide as the window
    have hword' : IsPlainWord row := hplain.resolve_left (Nat.not_lt.mpr hge)
    refine ⟨0, Nat.zero_le _, ?_⟩
    have hbreak : breakAt line start (start + maxWidth) = none := by
      apply breakAt_eq_none
      intro j hj hj'
      obtain ⟨i, rfl⟩ := Nat.exists_eq_add_of_le hj
      rw [getElem?_of_drop hdrop, List.append_assoc, List.getElem?_append_left (by omega)]
      exact any_isBlank_of_mem (fun u hu => (hword'.not_space hu).2.2) _
    simp only [asciiChunkEnd, hcut, if_pos hlong, hbreak]
    omega

theorem takeWhile_isBlank_word {word : List CodeUnit} (hword : IsPlainWord word)
    (rest : List CodeUnit) :
    (word ++ rest).takeWhile isBlank = [] := by
  obtain ⟨u, word, rfl⟩ := List.exists_cons_of_ne_nil hword.ne_nil
  rw [List.cons_append,
    List.takeWhile_cons_of_neg (by simp [(hword.not_space List.mem_cons_self).2.2])]

theorem asciiLoop_rows {items : List Spaced} (hitems : PlainWords maxWidth items) (hrow : Solid row)
    (hmax : row.length ≤ maxWidth) (hplain : row.length < maxWidth ∨ IsPlainWord row ∨ items = [])
    (hdrop : line.drop start = row ++ unspaced items) {fuel : Nat}
    (hfuel : line.length - start ≤ fuel) (chunks : List TextChunk) :
    trimmedTexts (asciiLoop line maxWidth fuel start chunks) =
      trimmedTexts chunks ++ windowRows maxWidth row items := by
  induction items generalizing start row fuel chunks with
  | nil =>
    have hlen := congrArg List.length hdrop
    have hpos : 0 < row.length := List.length_pos_iff.mpr hrow.ne_nil
    simp at hlen
    obtain ⟨fuel, rfl⟩ := Nat.exists_eq_succ_of_ne_zero (show fuel ≠ 0 by omega)
    have hend : asciiChunkEnd line maxWidth start = start + row.length + 0 := by
      rw [asciiChunkEnd, if_neg (by omega)]
      omega
    obtain ⟨c, hc, hturn⟩ :=
      asciiLoop_turn hrow (Nat.le_refl 0) [] rfl (by simpa using hdrop) hend fuel chunks
    have hdone : asciiLoop line maxWidth fuel (start + row.length + 0) (chunks ++ [c]) =
        chunks ++ [c] := by
      cases fuel with
      | zero => rfl
      | succ fuel => rw [asciiLoop, if_neg (by omega)]
    rw [hturn, hdone, windowRows]
    simp [trimmedTexts, hc]
  | cons item items ih =>
    obtain ⟨gap, word⟩ := item
    obtain ⟨⟨hgap, hword, hwordLen⟩, hrest⟩ := List.forall_mem_cons.mp hitems
    have hpos : 0 < row.length := List.length_pos_iff.mpr hrow.ne_nil
    have hdrop' : line.drop start = row ++ blanks gap ++ (word ++ unspaced items) := by
      simpa using hdrop
    have hlen := congrArg List.length hdrop'
    simp at hlen
    simp only [windowRows]
    split
    case isTrue hfits =>
      refine ih hrest (hrow.append hword.solid gap) ?_ ?_ (by simpa using hdrop) hfuel chunks
      · simp; omega
      · rcases hfits with hlt | ⟨hnil, -⟩
        · exact .inl (by simpa [Nat.add_assoc] using hlt)
        · exact .inr (.inr hnil)
    case isFalse hfits =>
      have hplain' : row.length < maxWidth ∨ IsPlainWord row := by simpa using hplain
      have hbehind : items ≠ [] → 0 < (unspaced items).length := by
        intro hne
        obtain ⟨item, more, rfl⟩ := List.exists_cons_of_ne_nil hne
        have := (hrest item List.mem_cons_self).1
        obtain ⟨gap', word'⟩ := item
        simp at this ⊢
        omega
      have hlong : start + maxWidth < line.length := by
        by_cases hnil : items = []
        · have := not_and.mp (not_or.mp hfits).2 hnil
          omega
        · have := hbehind hnil
          omega
      obtain ⟨k, hk, hend⟩ := asciiChunkEnd_row hrow.ne_nil hmax hplain' hgap hword hdrop'
        (Nat.le_of_not_lt (not_or.mp hfits).1) hlong
      obtain ⟨fuel, rfl⟩ := Nat.exists_eq_succ_of_ne_zero (show fuel ≠ 0 by omega)
      obtain ⟨c, hc, hturn⟩ :=
        asciiLoop_turn hrow hk _ (takeWhile_isBlank_word hword _) hdrop' hend fuel chunks
      have hnext : line.drop (start + row.length + gap) = word ++ unspaced items := by
        rw [Nat.add_assoc, ← List.drop_drop, hdrop', List.drop_left' (by simp)]
      rw [hturn, ih hrest hword.solid hwordLen (.inr (.inl hword)) hnext (by omega)]
      simp [trimmedTexts, hc]

theorem windowRows_whole {items : List Spaced} (row : List CodeUnit)
    (hitems : ∀ item ∈ items, 0 < item.1) (h : row.length + (unspaced items).length ≤ maxWidth) :
    windowRows maxWidth row items = [row ++ unspaced items] := by
  induction items generalizing row with
  | nil => simp [windowRows]
  | cons item items ih =>
    obtain ⟨gap, word⟩ := item
    obtain ⟨-, hrest⟩ := List.forall_mem_cons.mp hitems
    simp only [unspaced_cons, List.length_append, length_blanks] at h
    have hfits : row.length + gap + word.length < maxWidth ∨
        items = [] ∧ row.length + gap + word.length ≤ maxWidth := by
      cases items with
      | nil => exact .inr ⟨rfl, by omega⟩
      | cons next more =>
        have hnext := hrest next List.mem_cons_self
        obtain ⟨gap', word'⟩ := next
        simp only [unspaced_cons, List.length_append, length_blanks] at h hnext
        exact .inl (by omega)
    rw [windowRows]
    simp only [if_pos hfits]
    rw [ih _ hrest (by simp; omega)]
    simp

theorem wordWrapAsciiLine_rows {word : List CodeUnit} (hword : IsPlainWord word)
    (hlen : word.length ≤ maxWidth) {items : List Spaced} (hitems : PlainWords maxWidth items)
    (hsolid : Solid (word ++ unspaced items)) :
    trimmedTexts (wordWrapAsciiLine (word ++ unspaced items) maxWidth) =
      windowRows maxWidth word items := by
  unfold wordWrapAsciiLine
  split
  case isTrue hshort =>
    rw [List.length_append] at hshort
    rw [windowRows_whole word (fun item h => (hitems item h).1) hshort]
    simp [trimmedTexts, hsolid.trim_self]
  case isFalse =>
    have hdrop : (word ++ unspaced items).drop 0 = word ++ unspaced items := List.drop_zero
    have hrows :=
      asciiLoop_rows hitems hword.solid hlen (.inr (.inl hword)) hdrop (Nat.sub_le _ _) []
    obtain ⟨more, rows, hhead⟩ := windowRows_head maxWidth word items
    have hne : asciiLoop (word ++ unspaced items) maxWidth (word ++ unspaced items).length
        0 [] ≠ [] := by
      intro hnil
      rw [hnil, hhead] at hrows
      simp [trimmedTexts] at hrows
    simp only [if_pos hne, hrows]
    rfl

end Window

/-- How the words of a line have to lie for both paths to break it alike. -/
def LineBreaksAlike (maxWidth : Nat) : List Spaced → Prop
  | [] => True
  | (_, word) :: rest => BreaksAlike maxWidth word.length 0 rest

variable {d : Display} {line : List CodeUnit} {maxWidth : Nat}

theorem mem_unspaced {items : List Spaced} {item : Spaced} (h : item ∈ items) {u : CodeUnit}
    (hu : u ∈ item.2) :
    u ∈ unspaced items := List.mem_flatMap.mpr ⟨item, h, List.mem_append_right _ hu⟩

theorem solid_of_ascii {s : List CodeUnit} (hascii : isPrintableAscii s = true) (hne : s ≠ [])
    (hhead : s.head? ≠ some 0x20) (hlast : s.getLast? ≠ some 0x20) : Solid s := by
  have hprint := List.all_eq_true.mp hascii
  constructor
  · obtain ⟨u, rest, rfl⟩ := List.exists_cons_of_ne_nil hne
    have hu : u ≠ 0x20 := by simpa using hhead
    exact ⟨u, rest, rfl, (not_space_of_letter (hprint u List.mem_cons_self) hu).1⟩
  · have hu : s.getLast hne ≠ 0x20 := by simpa [List.getLast?_eq_some_getLast hne] using hlast
    refine ⟨s.dropLast, s.getLast hne, (List.dropLast_concat_getLast _).symm, ?_⟩
    exact (not_space_of_letter (hprint _ (List.getLast_mem hne)) hu).1

/-- On printable ASCII the two paths show the same texts exactly when the words lie so. -/
theorem wordWrapAsciiLine_agrees_iff (hd : d.SegmentsAscii) (hmax : 1 ≤ maxWidth)
    (hascii : isPrintableAscii line = true) (hhead : line.head? ≠ some 0x20)
    (hlast : line.getLast? ≠ some 0x20) (hwords : ∀ item ∈ wordsOf line, item.2.length ≤ maxWidth) :
    trimmedTexts (wordWrapAsciiLine line maxWidth) = trimmedTexts (wordWrapTokens d line maxWidth) ↔
      LineBreaksAlike maxWidth (wordsOf line) := by
  cases line with
  | nil => simp [wordWrapAsciiLine, wordWrapTokens, Display.visibleWidth, LineBreaksAlike, wordsOf]
  | cons u text =>
    have hu : u ≠ 0x20 := by simpa using hhead
    have hsolid := solid_of_ascii hascii (List.cons_ne_nil u text) hhead hlast
    have hline := unspaced_wordsOf hlast
    obtain ⟨hall, hapart⟩ := wordsOf_apart (u :: text)
    obtain ⟨word, items, hwordsOf⟩ := wordsOf_head hu text
    rw [hwordsOf] at hline hall hapart hwords ⊢
    have hprint : ∀ item ∈ (0, word) :: items, IsPlainWord item.2 := fun item h =>
      ⟨hall item h, fun v hv => List.all_eq_true.mp hascii v (hline ▸ mem_unspaced h hv)⟩
    have hword : IsPlainWord word := hprint _ List.mem_cons_self
    have hlen : word.length ≤ maxWidth := hwords _ List.mem_cons_self
    have hitems : PlainWords maxWidth items := fun item h =>
      ⟨(hapart item h).1, hprint item (List.mem_cons_of_mem _ h),
        hwords item (List.mem_cons_of_mem _ h)⟩
    rw [unspaced_cons, blanks_zero, List.nil_append] at hline
    rw [← hline] at hsolid hascii ⊢
    rw [wordWrapAsciiLine_rows hword hlen hitems hsolid,
      wordWrapTokens_rows hd hmax hword hlen hitems hascii hsolid, eq_comm]
    exact breaksAlike_iff hmax hapart rfl hword.ne_nil

def asciiDisplay : Display where
  segment s := s.map fun u => [u]
  normalize s := s
  nativeVisibleWidth s _ := s.length
  tabWidth := 3

theorem asciiDisplay_segmentsAscii : asciiDisplay.SegmentsAscii := fun _ _ => rfl

theorem wordWrapAsciiLine_agrees_of_room :
    trimmedTexts (wordWrapAsciiLine (units "ab cd ef") 6) =
      trimmedTexts (wordWrapTokens asciiDisplay (units "ab cd ef") 6) :=
  (wordWrapAsciiLine_agrees_iff asciiDisplay_segmentsAscii (by decide) (by decide)
    (by decide) (by decide)
    (by decide)).mpr (by
      have hwords : wordsOf (units "ab cd ef") =
          [(0, units "ab"), (1, units "cd"), (1, units "ef")] := by decide
      rw [hwords]
      simp [LineBreaksAlike, BreaksAlike, units, charUnits])

theorem wordWrapAsciiLine_disagrees :
    ¬ ∀ (d : Display) (line : List CodeUnit) (maxWidth : Nat), d.SegmentsAscii →
    1 ≤ maxWidth → isPrintableAscii line = true → line.head? ≠ some 0x20 →
      line.getLast? ≠ some 0x20 →
    (∀ item ∈ wordsOf line, item.2.length ≤ maxWidth) →
      trimmedTexts (wordWrapAsciiLine line maxWidth) =
        trimmedTexts (wordWrapTokens d line maxWidth) :=
  fun h =>
    absurd (h asciiDisplay (units "ab cd ef") 5 asciiDisplay_segmentsAscii (by decide)
      (by decide) (by decide)
    (by decide) (by decide)) (by decide)

end JevCode.Tui.WordWrap
