import JevCode.Data.Tiling
import JevCode.Tui.WordWrap
import Mathlib.Data.List.SplitBy

namespace JevCode.Tui.WordWrap

open JevCode.Data JevCode.Text

def Display.totalWidth (d : Display) : List (List CodeUnit) → Nat
  | [] => 0
  | g :: gs => d.visibleWidth g + d.totalWidth gs

theorem Display.totalWidth_append (d : Display) (xs ys : List (List CodeUnit)) :
    d.totalWidth (xs ++ ys) = d.totalWidth xs + d.totalWidth ys := by
  induction xs with
  | nil => simp [totalWidth]
  | cons g xs ih =>
    simp only [List.cons_append, totalWidth, ih]
    omega

/-- A segmenter takes a text apart, and a run of its graphemes as it takes the whole; widths add up
over graphemes, and trimming does not make a text wider. -/
structure Display.Lawful (d : Display) : Prop where
  flatten_segment : ∀ s, (d.segment s).flatten = s
  ne_nil_of_mem : ∀ s, ∀ g ∈ d.segment s, g ≠ []
  segment_run : ∀ s before gs after, d.segment s = before ++ (gs ++ after) →
    d.segment gs.flatten = gs
  visibleWidth_eq : ∀ s, d.visibleWidth s = d.totalWidth (d.segment s)
  visibleWidth_trimEnd : ∀ s, d.visibleWidth (trimEndUnits s) ≤ d.visibleWidth s

/-- White space, or a unit of a grapheme that starts with white space. -/
def Display.BlankAt (d : Display) (line : List CodeUnit) (i : Nat) : Prop :=
  (∃ u, (line)[i]? = some u ∧ isSpaceUnit u = true) ∨
    ∃ before g after, d.segment line = before ++ g :: after ∧ isWhitespaceGrapheme g = true ∧
      before.flatten.length ≤ i ∧ i < before.flatten.length + g.length

/-- The chunks of a line, with what may be left out between them. -/
structure WrapsWithin (d : Display) (line : List CodeUnit) (maxWidth : Nat) (blank : Nat → Prop)
    (chunks : List TextChunk) : Prop where
  ordered : chunks.Pairwise fun a b => a.startIndex < b.startIndex ∧ a.endIndex ≤ b.startIndex
  ranges : ∀ c ∈ chunks, c.startIndex ≤ c.endIndex ∧ c.endIndex ≤ line.length
  slices : ∀ c ∈ chunks, ∃ space, (∀ u ∈ space, isSpaceUnit u = true) ∧
    slice line c.startIndex c.endIndex = c.text ++ space
  narrow : ∀ c ∈ chunks, d.visibleWidth c.text ≤ maxWidth
  outside : ∀ i < line.length, (∀ c ∈ chunks, ¬ (c.startIndex ≤ i ∧ i < c.endIndex)) → blank i

variable {d : Display} {line : List CodeUnit} {maxWidth : Nat}

def FitsLine (d : Display) (line : List CodeUnit) (maxWidth : Nat) (c : TextChunk) : Prop :=
  (∃ space, (∀ u ∈ space, isSpaceUnit u = true) ∧
    slice line c.startIndex c.endIndex = c.text ++ space) ∧
    d.visibleWidth c.text ≤ maxWidth

abbrev Tiles (d : Display) (line : List CodeUnit) (maxWidth : Nat) : List TextChunk → Nat → Prop :=
  Tiled TextChunk.startIndex TextChunk.endIndex (FitsLine d line maxWidth) (d.BlankAt line)

theorem Tiles.push {chunks : List TextChunk} {text : List CodeUnit} {start stop : Nat}
    (h : Tiles d line maxWidth chunks start) (hlt : start < stop)
    (hfits : FitsLine d line maxWidth ⟨text, start, stop⟩) :
    Tiles d line maxWidth (chunks ++ [⟨text, start, stop⟩]) stop :=
  Tiled.push (c := TextChunk.mk text start stop) h hlt hfits

theorem Tiles.wrapsWithin {chunks : List TextChunk} (h : Tiles d line maxWidth chunks line.length) :
    WrapsWithin d line maxWidth (d.BlankAt line) (if chunks ≠ [] then chunks else [emptyChunk]) := by
  split
  case isTrue =>
    refine ⟨h.pairwise, ?_, fun c hc => (h.forall_good c hc).1,
      fun c hc => (h.forall_good c hc).2, ?_⟩
    · intro c hc
      have hrange := h.range_le c hc
      exact ⟨by omega, hrange.2⟩
    · exact fun i hi houtside => h.blank_of_outside hi houtside
  case isFalse hnil =>
    obtain rfl : chunks = [] := Decidable.not_not.mp hnil
    refine ⟨List.pairwise_singleton _ _, ?_, ?_, ?_, ?_⟩
    · simp [emptyChunk]
    · simp [emptyChunk, slice]
    · simp [emptyChunk, Display.visibleWidth]
    · exact fun i hi _ => h.blank_of_outside hi (by simp)

theorem trimEndUnits_append (s : List CodeUnit) :
    ∃ space, (∀ u ∈ space, isSpaceUnit u = true) ∧ s = trimEndUnits s ++ space := by
  refine ⟨s.rtakeWhile isSpaceUnit, fun u hu => List.mem_rtakeWhile_imp hu, ?_⟩
  exact (List.rdropWhile_append_rtakeWhile).symm

theorem space_of_trimEndUnits {s : List CodeUnit} (h : trimEndUnits s = []) :
    ∀ u ∈ s, isSpaceUnit u = true :=
  List.rdropWhile_eq_nil_iff.mp h

theorem blankAt_of_space {a b : Nat} (hb : b ≤ line.length)
    (h : ∀ u ∈ slice line a b, isSpaceUnit u = true) :
    ∀ i, a ≤ i → i < b → d.BlankAt line i := by
  intro i hai hib
  refine .inl ⟨line.get ⟨i, by omega⟩, by simp, h _ ?_⟩
  rw [slice, List.mem_iff_getElem]
  refine ⟨i - a, ?_, ?_⟩
  · simp only [List.length_take, List.length_drop]
    omega
  · simp only [List.getElem_take, List.getElem_drop, List.get_eq_getElem]
    congr 1
    omega

theorem visibleWidth_ascii {s : List CodeUnit} (h : ∀ u ∈ s, isPrintableAsciiUnit u = true) :
    d.visibleWidth s = s.length := by
  unfold Display.visibleWidth
  split
  case isTrue hnil => rw [hnil, List.length_nil]
  case isFalse =>
    have htab : s.count 9 = 0 := by
      rw [List.count_eq_zero]
      intro hmem
      exact absurd (h 9 hmem) (by decide)
    have hall : (s.all fun u => decide (u = 9) || isPrintableAsciiUnit u) = true := by
      rw [List.all_eq_true]
      exact fun u hu => by rw [h u hu, Bool.or_true]
    simp only [htab, hall, if_true, Nat.zero_mul, Nat.add_zero, Nat.sub_zero]

theorem breakAt_lt {start i j : Nat} (h : breakAt line start i = some j) : j < i := by
  induction i with
  | zero => cases h
  | succ i ih =>
    simp only [breakAt] at h
    split at h
    · split at h
      · cases h
        exact Nat.lt_succ_self _
      · exact Nat.lt_succ_of_lt (ih h)
    · cases h

theorem asciiChunkEnd_bounds {start : Nat} (hmax : 0 < maxWidth) (hstart : start < line.length) :
    start < asciiChunkEnd line maxWidth start ∧ asciiChunkEnd line maxWidth start ≤ line.length ∧
      asciiChunkEnd line maxWidth start ≤ start + maxWidth := by
  simp only [asciiChunkEnd]
  split
  · split
    case h_1 j hbreak =>
      have hlt := breakAt_lt hbreak
      split
      · omega
      · omega
    case h_2 => omega
  · omega

theorem length_slice {a b : Nat} (hb : b ≤ line.length) : (slice line a b).length = b - a := by
  simp only [slice, List.length_take, List.length_drop]
  omega

theorem mem_of_mem_slice {a b : Nat} {u : CodeUnit} (h : u ∈ slice line a b) : u ∈ line :=
  List.mem_of_mem_drop (List.mem_of_mem_take h)

theorem asciiLoop_tiles (hascii : ∀ u ∈ line, isPrintableAsciiUnit u = true) (hmax : 0 < maxWidth)
    {fuel start : Nat} {chunks : List TextChunk} (h : Tiles d line maxWidth chunks start)
    (hstart : start ≤ line.length) (hfuel : line.length ≤ start + fuel) :
    Tiles d line maxWidth (asciiLoop line maxWidth fuel start chunks) line.length := by
  induction fuel generalizing start chunks with
  | zero =>
    obtain rfl : start = line.length := by omega
    exact h
  | succ fuel ih =>
    simp only [asciiLoop]
    split
    case isFalse hend =>
      obtain rfl : start = line.length := by omega
      exact h
    case isTrue hlt =>
      obtain ⟨hgt, hle, hwidth⟩ := asciiChunkEnd_bounds hmax hlt
      generalize asciiChunkEnd line maxWidth start = stop at *
      obtain ⟨space, hspace, hraw⟩ := trimEndUnits_append (slice line start stop)
      have hlength := length_slice (a := start) hle
      have hstop : start + (slice line start stop).length = stop := by omega
      have hnext : Tiles d line maxWidth (if trimEndUnits (slice line start stop) ≠ [] ∨
          chunks = [] then
          chunks ++ [⟨trimEndUnits (slice line start stop), start,
            start + (slice line start stop).length⟩]
          else chunks) stop := by
        rw [hstop]
        split
        case isTrue =>
          refine Tiles.push h hgt ⟨⟨space, hspace, hraw⟩, ?_⟩
          have htrim : ∀ u ∈ trimEndUnits (slice line start stop),
              isPrintableAsciiUnit u = true := by
            intro u hu
            exact hascii u (mem_of_mem_slice (by rw [hraw]; exact List.mem_append_left _ hu))
          rw [visibleWidth_ascii htrim]
          have hsum := congrArg List.length hraw
          rw [List.length_append] at hsum
          omega
        case isFalse hnone =>
          obtain ⟨hnil, -⟩ := not_or.mp hnone
          exact .skip h (by omega)
            (blankAt_of_space hle (space_of_trimEndUnits (Decidable.not_not.mp hnil)))
      have hblanks : ((line.drop stop).takeWhile isBlank).length ≤ line.length - stop := by
        rw [← List.length_drop]
        exact (List.takeWhile_prefix _).length_le
      refine ih (.skip hnext (by omega) (blankAt_of_space (by omega) ?_)) (by omega) (by omega)
      intro u hu
      have htake : slice line stop (stop + ((line.drop stop).takeWhile isBlank).length) =
          (line.drop stop).takeWhile isBlank := by
        rw [slice, Nat.add_sub_cancel_left]
        exact (List.prefix_iff_eq_take.mp (List.takeWhile_prefix _)).symm
      rw [htake] at hu
      have hblank := List.mem_takeWhile_imp hu
      simp only [isBlank, Bool.or_eq_true, decide_eq_true_eq] at hblank
      rcases hblank with rfl | rfl
      · decide
      · decide

inductive Tokenized : Nat → List Token → List (List CodeUnit) → Prop
  | nil (start : Nat) : Tokenized start [] []
  | cons {t : Token} {tokens : List Token} {run rest : List (List CodeUnit)}
    (htext : t.text = run.flatten)
      (hend : t.endIndex = t.startIndex + run.flatten.length)
      (hspace : t.isWhitespace = true → ∀ g ∈ run, isWhitespaceGrapheme g = true)
      (h : Tokenized t.endIndex tokens rest) : Tokenized t.startIndex (t :: tokens) (run ++ rest)

structure Scan.Holds (sc : Scan) (run : List (List CodeUnit)) : Prop where
  nonempty : ∀ g ∈ run, g ≠ []
  text : sc.currentToken = run.flatten
  index : sc.charIndex = sc.tokenStart + run.flatten.length
  space : sc.inWhitespace = true → ∀ g ∈ run, isWhitespaceGrapheme g = true

theorem Scan.Holds.eq_nil {sc : Scan} {run : List (List CodeUnit)} (h : sc.Holds run)
    (hnil : sc.currentToken = []) :
    run = [] := by
  rw [h.text, List.flatten_eq_nil_iff] at hnil
  exact List.eq_nil_iff_forall_not_mem.mpr fun g hg => h.nonempty g hg (hnil g hg)

theorem Scan.Holds.tokenized {sc : Scan} {run rest : List (List CodeUnit)} {tokens : List Token}
    (h : sc.Holds run) (htokens : Tokenized sc.charIndex tokens rest) :
    Tokenized sc.tokenStart (⟨sc.currentToken, sc.tokenStart, sc.charIndex, sc.inWhitespace⟩ ::
      tokens) (run ++ rest) :=
  Tokenized.cons (t :=
    ⟨sc.currentToken, sc.tokenStart, sc.charIndex, sc.inWhitespace⟩) h.text h.index h.space htokens

theorem scan_tokenized {gs : List (List CodeUnit)} (hgs : ∀ g ∈ gs, g ≠ []) {sc : Scan}
    {run : List (List CodeUnit)} (h : sc.Holds run) :
    ∃ tokens, (if (gs.foldl Scan.step sc).currentToken ≠ [] then (gs.foldl Scan.step sc).push
        else (gs.foldl Scan.step sc).tokens) = sc.tokens ++ tokens ∧
          Tokenized sc.tokenStart tokens (run ++ gs) := by
  induction gs generalizing sc run with
  | nil =>
    rw [List.foldl_nil]
    split
    case isTrue => exact ⟨_, rfl, h.tokenized (.nil _)⟩
    case isFalse hnil =>
      obtain rfl := h.eq_nil (Decidable.not_not.mp hnil)
      exact ⟨[], by simp, .nil _⟩
  | cons g gs ih =>
    have hg := hgs g List.mem_cons_self
    have htail : ∀ g' ∈ gs, g' ≠ [] := fun g' h' => hgs g' (List.mem_cons_of_mem _ h')
    rw [List.foldl_cons]
    by_cases hnil : sc.currentToken = []
    · obtain rfl := h.eq_nil hnil
      have hindex : sc.charIndex = sc.tokenStart := h.index
      have hstep : (sc.step g).Holds [g] := by
        refine ⟨by simpa using hg, ?_, ?_, ?_⟩
        · simp [Scan.step, hnil]
        · simp [Scan.step, hnil]
        · simp [Scan.step, hnil]
      obtain ⟨tokens, hfinish, htokens⟩ := ih htail hstep
      refine ⟨tokens, ?_, ?_⟩
      · simpa [Scan.step, hnil] using hfinish
      · simpa [Scan.step, hnil, hindex] using htokens
    · by_cases hkind : isWhitespaceGrapheme g = sc.inWhitespace
      · have hstep : (sc.step g).Holds (run ++ [g]) := by
          refine ⟨?_, ?_, ?_, ?_⟩
          · exact List.forall_mem_append.mpr ⟨h.nonempty, List.forall_mem_singleton.mpr hg⟩
          · rw [List.flatten_append, ← h.text]
            simp [Scan.step, hnil, hkind]
          · simp [Scan.step, hnil, hkind, h.index, Nat.add_assoc]
          · simp only [Scan.step, hnil, hkind, if_false, ne_eq, not_true_eq_false]
            exact fun hspace =>
              List.forall_mem_append.mpr ⟨h.space hspace, by simpa [hkind] using hspace⟩
        obtain ⟨tokens, hfinish, htokens⟩ := ih htail hstep
        refine ⟨tokens, ?_, ?_⟩
        · simpa [Scan.step, hnil, hkind] using hfinish
        · simpa [Scan.step, hnil, hkind] using htokens
      · have hstep : (sc.step g).Holds [g] := by
          refine ⟨by simpa using hg, ?_, ?_, ?_⟩
          · simp [Scan.step, hnil, hkind]
          · simp [Scan.step, hnil, hkind]
          · simp [Scan.step, hnil, hkind]
        obtain ⟨tokens, hfinish, htokens⟩ := ih htail hstep
        have hstart : (sc.step g).tokenStart = sc.charIndex := by simp [Scan.step, hnil, hkind]
        rw [hstart] at htokens
        refine ⟨_, ?_, h.tokenized htokens⟩
        have hpushed : (sc.step g).tokens = sc.push := by simp [Scan.step, hnil, hkind]
        rw [hfinish, hpushed, Scan.push, List.append_assoc, List.singleton_append]

theorem tokensOf_tokenized {gs : List (List CodeUnit)} (hgs : ∀ g ∈ gs, g ≠ []) :
    Tokenized 0 (tokensOf gs) gs := by
  have hempty : ({} : Scan).Holds [] := ⟨by simp, rfl, rfl, by simp⟩
  obtain ⟨tokens, hfinish, htokens⟩ := scan_tokenized hgs hempty
  have heq : tokensOf gs = tokens := hfinish
  rw [heq]
  exact htokens

/-- What is wrapped so far: the chunks, and behind them a text of whole graphemes. -/
structure Holds (d : Display) (line : List CodeUnit) (maxWidth : Nat)
    (chunks : List TextChunk) (start : Nat) (text : List CodeUnit) (width : Nat)
    (before run after : List (List CodeUnit)) : Prop where
  segments : d.segment line = before ++ (run ++ after)
  start_eq : start = before.flatten.length
  text_eq : text = run.flatten
  width_eq : width = d.totalWidth run
  narrow : width ≤ maxWidth
  tiles : Tiles d line maxWidth chunks start

namespace Holds

variable {chunks : List TextChunk} {start width : Nat} {text : List CodeUnit}
    {before run after : List (List CodeUnit)}

theorem line_eq (hd : d.Lawful)
    (h : Holds d line maxWidth chunks start text width before run after) :
    line = before.flatten ++ (text ++ after.flatten) := by
  rw [h.text_eq, ← hd.flatten_segment line, h.segments]
  simp

theorem slice_eq (hd : d.Lawful)
    (h : Holds d line maxWidth chunks start text width before run after) :
    slice line start (start + text.length) = text := by
  rw [slice, Nat.add_sub_cancel_left, h.start_eq, h.line_eq hd, List.drop_left, List.take_left]

theorem end_le (hd : d.Lawful) (h : Holds d line maxWidth chunks start text width before run after) :
    start + text.length ≤ line.length := by
  have hlength := congrArg List.length (h.line_eq hd)
  simp only [List.length_append] at hlength
  rw [h.start_eq]
  omega

theorem run_ne_nil (hd : d.Lawful)
    (h : Holds d line maxWidth chunks start text width before run after) :
    ∀ g ∈ run, g ≠ [] := by
  intro g hg
  refine hd.ne_nil_of_mem line g ?_
  rw [h.segments]
  simp [hg]

theorem run_eq_nil (hd : d.Lawful)
    (h : Holds d line maxWidth chunks start text width before run after) (hnil : text = []) :
    run = [] := by
  rw [h.text_eq, List.flatten_eq_nil_iff] at hnil
  exact List.eq_nil_iff_forall_not_mem.mpr fun g hg => h.run_ne_nil hd g hg (hnil g hg)

theorem visibleWidth_text (hd : d.Lawful)
    (h : Holds d line maxWidth chunks start text width before run after) :
    d.visibleWidth text = width := by
  rw [h.text_eq, hd.visibleWidth_eq, hd.segment_run line before run after h.segments, h.width_eq]

theorem advance (h : Holds d line maxWidth chunks start text width before run after)
    {chunks' : List TextChunk} (htiles : Tiles d line maxWidth chunks' (start + text.length)) :
    Holds d line maxWidth chunks' (start + text.length) [] 0 (before ++ run) [] after := by
  refine ⟨?_, ?_, rfl, rfl, Nat.zero_le _, htiles⟩
  · rw [h.segments, List.append_assoc, List.nil_append]
  · rw [h.start_eq, h.text_eq, List.flatten_append, List.length_append]

theorem push (hd : d.Lawful) (h : Holds d line maxWidth chunks start text width before run after)
    (hne : text ≠ []) :
    Holds d line maxWidth (chunks ++ [⟨text, start, start + text.length⟩]) (start + text.length) [] 0
      (before ++ run) []
      after := by
  have hpos := List.length_pos_iff.mpr hne
  refine h.advance (Tiles.push h.tiles (by omega) ⟨⟨[], by simp, ?_⟩, ?_⟩)
  · rw [h.slice_eq hd, List.append_nil]
  · rw [h.visibleWidth_text hd]
    exact h.narrow

theorem pushTrimmed (hd : d.Lawful)
    (h : Holds d line maxWidth chunks start text width before run after) (hne : text ≠ []) :
    Holds d line maxWidth (if trimEndUnits text ≠ [] ∨ chunks = [] then
        chunks ++ [⟨trimEndUnits text, start, start + text.length⟩] else chunks)
          (start + text.length) [] 0
      (before ++ run) [] after := by
  refine h.advance ?_
  split
  case isTrue =>
    have hpos := List.length_pos_iff.mpr hne
    obtain ⟨space, hspace, htrim⟩ := trimEndUnits_append text
    refine Tiles.push h.tiles (by omega) ⟨⟨space, hspace, ?_⟩, ?_⟩
    · rw [h.slice_eq hd, ← htrim]
    · have htrimmed := hd.visibleWidth_trimEnd text
      rw [h.visibleWidth_text hd] at htrimmed
      exact Nat.le_trans htrimmed h.narrow
  case isFalse hnone =>
    obtain ⟨hnil, -⟩ := not_or.mp hnone
    refine .skip h.tiles (by omega) (blankAt_of_space (h.end_le hd) ?_)
    rw [h.slice_eq hd]
    exact space_of_trimEndUnits (Decidable.not_not.mp hnil)

theorem extend (more : List (List CodeUnit))
    (h : Holds d line maxWidth chunks start text width before run (more ++ after))
    (hfits : width + d.totalWidth more ≤ maxWidth) :
    Holds d line maxWidth chunks start (text ++ more.flatten) (width + d.totalWidth more)
      before (run ++ more)
      after := by
  refine ⟨?_, h.start_eq, ?_, ?_, hfits, h.tiles⟩
  · rw [h.segments, List.append_assoc]
  · rw [h.text_eq, List.flatten_append]
  · rw [h.width_eq, d.totalWidth_append]

end Holds

theorem blankAt_of_whitespace {before run after : List (List CodeUnit)}
    (h : d.segment line = before ++ (run ++ after))
    (hspace : ∀ g ∈ run, isWhitespaceGrapheme g = true) :
    ∀ i, before.flatten.length ≤ i → i < before.flatten.length + run.flatten.length →
      d.BlankAt line i := by
  induction run generalizing before with
  | nil =>
    intro i hle hlt
    rw [List.flatten_nil, List.length_nil] at hlt
    omega
  | cons g run ih =>
    intro i hle hlt
    simp only [List.flatten_cons, List.length_append] at hlt
    by_cases hi : i < before.flatten.length + g.length
    · exact .inr ⟨before, g, run ++ after, by simpa using h, hspace g List.mem_cons_self, hle, hi⟩
    · have hlength : (before ++ [g]).flatten.length = before.flatten.length + g.length := by
        simp
      have hnext : d.segment line = (before ++ [g]) ++ (run ++ after) := by simpa using h
      refine ih hnext (fun g' h' => hspace g' (List.mem_cons_of_mem _ h')) i ?_ ?_
      · omega
      · omega

theorem Holds.skip {chunks : List TextChunk} {start : Nat} {before more after : List (List CodeUnit)}
    (h : Holds d line maxWidth chunks start [] 0 before [] (more ++ after))
    (hspace : ∀ g ∈ more, isWhitespaceGrapheme g = true) :
    Holds d line maxWidth chunks (start + more.flatten.length) [] 0 (before ++ more) [] after := by
  have hsegments : d.segment line = before ++ (more ++ after) := by simpa using h.segments
  refine ⟨?_, ?_, rfl, rfl, Nat.zero_le _, .skip h.tiles (by omega) ?_⟩
  · rw [hsegments, List.append_assoc, List.nil_append]
  · rw [h.start_eq, List.flatten_append, List.length_append]
  · rw [h.start_eq]
    exact blankAt_of_whitespace hsegments hspace

theorem consumeLoop_eq {availableWidth : Nat} (gs : List (List CodeUnit))
    (consumed : List CodeUnit) {width : Nat} (hwidth : width ≤ availableWidth) :
    ∃ front rest, gs = front ++ rest ∧ d.consumeLoop availableWidth gs consumed width = consumed ++
      front.flatten ∧
      width + d.totalWidth front ≤ availableWidth := by
  induction gs generalizing consumed width with
  | nil => exact ⟨[], [], rfl, by simp [Display.consumeLoop], hwidth⟩
  | cons g gs ih =>
    simp only [Display.consumeLoop]
    split
    case isTrue => exact ⟨[], g :: gs, rfl, by simp, hwidth⟩
    case isFalse hfits =>
      split
      case isTrue =>
        refine ⟨[g], gs, rfl, by simp, ?_⟩
        simp only [Display.totalWidth]
        omega
      case isFalse =>
        obtain ⟨front, rest, rfl, htext, hle⟩ := ih (consumed ++ g) (Nat.le_of_not_lt hfits)
        refine ⟨g :: front, rest, rfl, ?_, ?_⟩
        · rw [htext, List.flatten_cons, List.append_assoc]
        · simp only [Display.totalWidth]
          omega

theorem consumePrefixToWidth_eq (hd : d.Lawful) {before run after : List (List CodeUnit)}
    (h : d.segment line = before ++ (run ++ after)) (availableWidth : Nat) :
    ∃ front rest, run = front ++ rest ∧ d.consumePrefixToWidth run.flatten availableWidth =
      front.flatten ∧
      d.totalWidth front ≤ availableWidth := by
  obtain ⟨front, rest, heq, htext, hle⟩ :=
    consumeLoop_eq (d := d) run [] (Nat.zero_le availableWidth)
  refine ⟨front, rest, heq, ?_, by omega⟩
  rw [Display.consumePrefixToWidth, hd.segment_run line before run after h, htext, List.nil_append]

theorem Break.step_holds (hd : d.Lawful) {br : Break} {before run after : List (List CodeUnit)}
    {g : List CodeUnit} (h : Holds d line maxWidth br.chunks br.tokenChunkStart br.tokenChunk
      br.tokenChunkWidth before run (g :: after))
    (hindex : br.tokenCharIndex = br.tokenChunkStart + br.tokenChunk.length)
    (hg : d.visibleWidth g ≤ maxWidth) :
    ∃ before' run', before' ++ run' = before ++ run ++ [g] ∧ run' ≠ [] ∧
      Holds d line maxWidth (br.step d maxWidth g).chunks (br.step d maxWidth g).tokenChunkStart
        (br.step d maxWidth g).tokenChunk (br.step d maxWidth g).tokenChunkWidth before' run' after ∧
      (br.step d maxWidth g).tokenCharIndex =
        (br.step d maxWidth g).tokenChunkStart + (br.step d maxWidth g).tokenChunk.length := by
  have htotal : d.totalWidth [g] = d.visibleWidth g := Nat.add_zero _
  simp only [Break.step]
  split
  case isTrue hbreak =>
    have hpushed := (h.push hd hbreak.2).extend [g] (by omega)
    rw [htotal, Nat.zero_add, List.nil_append, List.nil_append, List.flatten_singleton,
      ← hindex] at hpushed
    exact ⟨before ++ run, [g], rfl, by simp, hpushed, rfl⟩
  case isFalse hkeep =>
    have hfits : br.tokenChunkWidth + d.visibleWidth g ≤ maxWidth := by
      by_cases hnil : br.tokenChunk = []
      · have hwidth := h.width_eq
        rw [h.run_eq_nil hd hnil] at hwidth
        simp only [Display.totalWidth] at hwidth
        omega
      · exact Nat.le_of_not_lt fun hlt => hkeep ⟨hlt, hnil⟩
    have hextended := h.extend [g] (by omega)
    rw [htotal, List.flatten_singleton] at hextended
    refine ⟨before, run ++ [g], by simp, by simp, hextended, ?_⟩
    simp only [List.length_append]
    omega

theorem Break.run_holds (hd : d.Lawful) {gs : List (List CodeUnit)}
    (hgs : ∀ g ∈ gs, d.visibleWidth g ≤ maxWidth) (br : Break)
    {before run after : List (List CodeUnit)}
    (h : Holds d line maxWidth br.chunks br.tokenChunkStart br.tokenChunk br.tokenChunkWidth before
    run (gs ++ after))
    (hindex : br.tokenCharIndex = br.tokenChunkStart + br.tokenChunk.length)
    (hne : run ≠ [] ∨ gs ≠ []) :
    ∃ before' run', before' ++ run' = before ++ run ++ gs ∧ run' ≠ [] ∧
      Holds d line maxWidth (gs.foldl (Break.step d maxWidth) br).chunks
        (gs.foldl (Break.step d maxWidth) br).tokenChunkStart
        (gs.foldl (Break.step d maxWidth) br).tokenChunk
        (gs.foldl (Break.step d maxWidth) br).tokenChunkWidth before' run' after := by
  induction gs generalizing br before run with
  | nil => exact ⟨before, run, by simp, by simpa using hne, h⟩
  | cons g gs ih =>
    obtain ⟨before', run', heq, hne', hnext, hindex'⟩ :=
      step_holds hd h hindex (hgs g List.mem_cons_self)
    obtain ⟨before'', run'', heq', hne'', hdone⟩ :=
      ih (fun g' h' => hgs g' (List.mem_cons_of_mem _ h')) _ hnext hindex' (.inl hne')
    exact ⟨before'', run'', by rw [heq', heq]; simp, hne'', hdone⟩

/-- The state behind a token: nothing is in the chunk at the start of a line. -/
def Wrap.Holds (d : Display) (line : List CodeUnit) (maxWidth : Nat) (w : Wrap)
    (before run after : List (List CodeUnit)) : Prop :=
  WordWrap.Holds d line maxWidth w.chunks w.chunkStartIndex w.currentChunk w.currentWidth
    before run after ∧
    (w.atLineStart = true → w.currentChunk = [])

namespace Wrap

variable {w : Wrap} {token : Token} {before run more after : List (List CodeUnit)}

theorem break_holds (hd : d.Lawful) {chunks : List TextChunk} {current : List CodeUnit}
    {width start stop : Nat} {atLineStart : Bool}
    (h : WordWrap.Holds d line maxWidth chunks stop [] 0 before [] (more ++ after))
    (hmore : ∀ g ∈ more, d.visibleWidth g ≤ maxWidth) (hne : more ≠ [])
    (hline : atLineStart = false) :
    ∃ before' run', before' ++ run' = before ++ more ∧
      Wrap.Holds d line maxWidth
        (if (more.foldl (Break.step d maxWidth) ⟨chunks, [], 0, stop, stop⟩).tokenChunk ≠ [] then
          ⟨(more.foldl (Break.step d maxWidth) ⟨chunks, [], 0, stop, stop⟩).chunks,
            (more.foldl (Break.step d maxWidth) ⟨chunks, [], 0, stop, stop⟩).tokenChunk,
            (more.foldl (Break.step d maxWidth) ⟨chunks, [], 0, stop, stop⟩).tokenChunkWidth,
            (more.foldl (Break.step d maxWidth) ⟨chunks, [], 0, stop,
              stop⟩).tokenChunkStart, atLineStart⟩
        else
          ⟨(more.foldl (Break.step d maxWidth) ⟨chunks, [], 0, stop, stop⟩).chunks, current, width,
            start, atLineStart⟩)
        before' run' after := by
  obtain ⟨before', run', heq, hne', hdone⟩ :=
    Break.run_holds hd hmore ⟨chunks, [], 0, stop, stop⟩ h rfl (.inr hne)
  rw [List.append_nil] at heq
  refine ⟨before', run', heq, ?_⟩
  rw [if_pos fun hnil => hne' (hdone.run_eq_nil hd hnil)]
  exact ⟨hdone, fun hstart => by simp [hline] at hstart⟩

theorem stepLong_holds (hd : d.Lawful) (h : w.Holds d line maxWidth before run (more ++ after))
    (hstart : token.startIndex = w.chunkStartIndex + w.currentChunk.length)
    (htext : token.text = more.flatten) (hmore : ∀ g ∈ more, d.visibleWidth g ≤ maxWidth)
    (hlong : maxWidth < d.totalWidth more) (hline : w.atLineStart = false) :
    ∃ before' run', before' ++ run' = before ++ run ++ more ∧
      (w.stepLong d maxWidth token).Holds d line maxWidth before' run' after := by
  have hsegments : d.segment line = (before ++ run) ++ (more ++ after) := by
    rw [h.1.segments, List.append_assoc]
  obtain ⟨front, rest, heq, hconsumed, hfront⟩ : ∃ front rest, more = front ++ rest ∧
      (if w.currentChunk ≠ [] ∧ w.currentWidth < maxWidth then
        d.consumePrefixToWidth token.text (maxWidth - w.currentWidth) else []) = front.flatten ∧
      w.currentWidth + d.totalWidth front ≤ maxWidth := by
    split
    case isTrue hboth =>
      obtain ⟨front, rest, heq, hconsumed, hle⟩ :=
        consumePrefixToWidth_eq hd hsegments (maxWidth - w.currentWidth)
      exact ⟨front, rest, heq, by rw [htext, hconsumed], by omega⟩
    case isFalse => exact ⟨[], more, rfl, rfl, h.1.narrow⟩
  have hrest : rest ≠ [] := by
    rintro rfl
    rw [List.append_nil] at heq
    rw [heq] at hlong
    omega
  have hdrop : token.text.drop front.flatten.length = rest.flatten := by
    rw [htext, heq, List.flatten_append, List.drop_left]
  have hsegmentRest : d.segment rest.flatten = rest := by
    refine hd.segment_run line (before ++ run ++ front) rest after ?_
    rw [hsegments, heq]
    simp
  simp only [stepLong, hconsumed, hdrop, hsegmentRest]
  have hmoreRest : ∀ g ∈ rest, d.visibleWidth g ≤ maxWidth := fun g hg => hmore g (by simp [heq, hg])
  have heqs : before ++ run ++ front ++ rest = before ++ run ++ more := by
    rw [heq, List.append_assoc _ front rest]
  have hholds : WordWrap.Holds d line maxWidth w.chunks w.chunkStartIndex
      (w.currentChunk ++ front.flatten)
      (w.currentWidth + d.totalWidth front) before (run ++ front) (rest ++ after) :=
    WordWrap.Holds.extend front (by rw [← List.append_assoc, ← heq]; exact h.1) hfront
  by_cases hnil : w.currentChunk = []
  · have hfrontNil : front.flatten = [] := by
      rw [← hconsumed, if_neg fun hboth => hboth.1 hnil]
    have hpushed : WordWrap.Holds d line maxWidth w.chunks
        (token.startIndex + front.flatten.length) [] 0
        (before ++ run ++ front) [] (rest ++ after) := by
      have htiles : Tiles d line maxWidth w.chunks
          (w.chunkStartIndex + (w.currentChunk ++ front.flatten).length) := by
        simpa [hnil, hfrontNil] using hholds.tiles
      have hadvance := hholds.advance htiles
      rw [List.length_append, ← Nat.add_assoc, ← hstart, ← List.append_assoc] at hadvance
      exact hadvance
    simp only [if_neg (not_not_intro hnil)]
    obtain ⟨before', run', heq', hdone⟩ := break_holds hd hpushed hmoreRest hrest hline
    exact ⟨before', run', by rw [heq', heqs], hdone⟩
  · have hpushed := hholds.push hd (by simp [hnil])
    rw [List.length_append, ← Nat.add_assoc, ← hstart, ← List.append_assoc] at hpushed
    simp only [if_pos hnil, ne_eq]
    obtain ⟨before', run', heq', hdone⟩ := break_holds hd hpushed hmoreRest hrest hline
    exact ⟨before', run', by rw [heq', heqs], hdone⟩

theorem stepBreak_holds (hd : d.Lawful) (h : w.Holds d line maxWidth before run (more ++ after))
    (hstart : token.startIndex = w.chunkStartIndex + w.currentChunk.length)
    (hend : token.endIndex = token.startIndex + more.flatten.length)
    (htext : token.text = more.flatten)
    (hspace : token.isWhitespace = true → ∀ g ∈ more, isWhitespaceGrapheme g = true)
    (hfits : d.totalWidth more ≤ maxWidth) (hne : w.currentChunk ≠ []) :
    ∃ before' run', before' ++ run' = before ++ run ++ more ∧
      (w.stepBreak token (d.totalWidth more)).Holds d line maxWidth before' run' after := by
  have hpushed := h.1.pushTrimmed hd hne
  rw [← hstart] at hpushed
  simp only [stepBreak, ← hstart]
  split
  case isTrue hwhite =>
    refine ⟨before ++ run ++ more, [], List.append_nil _, ?_, fun _ => rfl⟩
    rw [hend]
    exact hpushed.skip (hspace hwhite)
  case isFalse =>
    have hextended := hpushed.extend more (by omega)
    rw [Nat.zero_add, List.nil_append, List.nil_append, ← htext] at hextended
    exact ⟨before ++ run, more, rfl, hextended, fun hstart => by cases hstart⟩

theorem stepFull_holds (hd : d.Lawful) (h : w.Holds d line maxWidth before run (more ++ after))
    (hstart : token.startIndex = w.chunkStartIndex + w.currentChunk.length)
    (hend : token.endIndex = token.startIndex + more.flatten.length)
    (htext : token.text = more.flatten)
    (hspace : token.isWhitespace = true → ∀ g ∈ more, isWhitespaceGrapheme g = true)
    (hfits : d.totalWidth more ≤ maxWidth) (hne : w.currentChunk ≠ []) :
    ∃ before' run', before' ++ run' = before ++ run ++ more ∧
      (w.stepFull d maxWidth token
        (d.totalWidth more)).Holds d line maxWidth before' run' after := by
  have hsegments : d.segment line = (before ++ run) ++ (more ++ after) := by
    rw [h.1.segments, List.append_assoc]
  simp only [stepFull]
  split
  case isFalse =>
    rw [if_neg (not_not_intro rfl)]
    exact stepBreak_holds hd h hstart hend htext hspace hfits hne
  case isTrue =>
    split
    case isFalse => exact stepBreak_holds hd h hstart hend htext hspace hfits hne
    case isTrue =>
      obtain ⟨front, rest, heq, hfront, hle⟩ :=
        consumePrefixToWidth_eq hd hsegments (maxWidth - w.currentWidth)
      have hextended : WordWrap.Holds d line maxWidth w.chunks w.chunkStartIndex
          (w.currentChunk ++ front.flatten)
          (w.currentWidth + d.totalWidth front) before (run ++ front) (rest ++ after) :=
        WordWrap.Holds.extend front (by rw [← List.append_assoc, ← heq]; exact h.1) (by omega)
      have hrest : d.totalWidth rest ≤ maxWidth := by
        rw [heq, d.totalWidth_append] at hfits
        omega
      have hsegmentRest : d.segment rest.flatten = rest := by
        refine hd.segment_run line (before ++ run ++ front) rest after ?_
        rw [hsegments, heq]
        simp
      have hdrop : token.text.drop front.flatten.length = rest.flatten := by
        rw [htext, heq, List.flatten_append, List.drop_left]
      have hnext := (hextended.push hd (by simp [hne])).extend rest (by omega)
      rw [List.length_append, ← Nat.add_assoc, ← hstart, Nat.zero_add, List.nil_append,
        List.nil_append] at hnext
      rw [htext, hfront, ← htext, hdrop, hd.visibleWidth_eq rest.flatten, hsegmentRest]
      refine ⟨before ++ (run ++ front), rest, by rw [heq]; simp, hnext,
        fun hstart => by cases hstart⟩

theorem step_holds (hd : d.Lawful) (h : w.Holds d line maxWidth before run (more ++ after))
    (hstart : token.startIndex = w.chunkStartIndex + w.currentChunk.length)
    (hend : token.endIndex = token.startIndex + more.flatten.length)
    (htext : token.text = more.flatten)
    (hspace : token.isWhitespace = true → ∀ g ∈ more, isWhitespaceGrapheme g = true)
    (hmore : ∀ g ∈ more, d.visibleWidth g ≤ maxWidth) :
    ∃ before' run', before' ++ run' = before ++ run ++ more ∧
      (w.step d maxWidth token).Holds d line maxWidth before' run' after := by
  have hsegments : d.segment line = (before ++ run) ++ (more ++ after) := by
    rw [h.1.segments, List.append_assoc]
  have hwidth : d.visibleWidth token.text = d.totalWidth more := by
    rw [htext, hd.visibleWidth_eq, hd.segment_run line (before ++ run) more after hsegments]
  simp only [step, hwidth]
  split
  case isTrue hskip =>
    have hnil := h.2 hskip.1
    obtain rfl := h.1.run_eq_nil hd hnil
    refine ⟨before ++ more, [], by simp, ?_, h.2⟩
    have hzero : w.currentWidth = 0 := h.1.width_eq
    have hholds := h.1
    rw [hnil, hzero] at hholds
    have hskipped := hholds.skip (hspace hskip.2)
    rw [hnil, List.length_nil, Nat.add_zero] at hstart
    rw [← hstart, ← hend] at hskipped
    simp only [hnil, hzero]
    exact hskipped
  case isFalse =>
    have hstarted : Wrap.Holds d line maxWidth { w with
        atLineStart := false } before run (more ++ after) :=
      ⟨h.1, fun hline => by cases hline⟩
    split
    case isTrue hlong => exact stepLong_holds hd hstarted hstart htext hmore hlong rfl
    case isFalse hshort =>
      split
      case isTrue hfull =>
        refine stepFull_holds hd hstarted hstart hend htext hspace (Nat.le_of_not_lt hshort) ?_
        intro hnil
        have hzero := h.1.width_eq
        rw [h.1.run_eq_nil hd hnil] at hzero
        simp only [Display.totalWidth] at hzero
        omega
      case isFalse hfits =>
        have hextended := h.1.extend more (Nat.le_of_not_lt hfits)
        rw [← htext] at hextended
        exact ⟨before, run ++ more, by simp, hextended, fun hline => by cases hline⟩

theorem Holds.end_eq {w : Wrap} (h : w.Holds d line maxWidth before run after) :
    w.chunkStartIndex + w.currentChunk.length = (before ++ run).flatten.length := by
  rw [h.1.start_eq, h.1.text_eq, List.flatten_append, List.length_append]

theorem run_holds (hd : d.Lawful) {tokens : List Token} {start : Nat} {gs : List (List CodeUnit)}
    (htokens : Tokenized start tokens gs) (hgs : ∀ g ∈ gs, d.visibleWidth g ≤ maxWidth)
    (h : w.Holds d line maxWidth before run gs)
    (hstart : start = w.chunkStartIndex + w.currentChunk.length) :
    ∃ before' run', (tokens.foldl (Wrap.step d maxWidth) w).Holds d line maxWidth
      before' run' [] := by
  induction htokens generalizing w before run with
  | nil => exact ⟨before, run, h⟩
  | @cons t tokens more rest htext hend hspace _ ih =>
    obtain ⟨hmore, hrest⟩ := List.forall_mem_append.mp hgs
    obtain ⟨before', run', heq, hstep⟩ := step_holds hd h hstart hend htext hspace hmore
    refine ih hrest hstep ?_
    rw [hstep.end_eq, heq, List.flatten_append, List.length_append, ← h.end_eq, ← hstart, hend]

theorem finish_wraps (hd : d.Lawful) (h : w.Holds d line maxWidth before run []) :
    WrapsWithin d line maxWidth (d.BlankAt line) (w.finish line) := by
  have hend : w.chunkStartIndex + w.currentChunk.length = line.length := by
    rw [h.end_eq, ← hd.flatten_segment line, h.1.segments, List.append_nil]
  simp only [finish]
  refine Tiles.wrapsWithin ?_
  split
  case isTrue hne =>
    have hpushed := (h.1.push hd hne).tiles
    rw [hend] at hpushed
    exact hpushed
  case isFalse hnil =>
    have htiles := h.1.tiles
    rw [Decidable.not_not.mp hnil, List.length_nil, Nat.add_zero] at hend
    rw [hend] at htiles
    exact htiles

end Wrap

theorem tiles_whole (hne : line ≠ []) (hwidth : d.visibleWidth line ≤ maxWidth) :
    Tiles d line maxWidth [⟨line, 0, line.length⟩] line.length := by
  have hempty : Tiles d line maxWidth [] 0 := .nil
  refine hempty.push (List.length_pos_iff.mpr hne) ⟨⟨[], by simp, ?_⟩, hwidth⟩
  simp [slice]

theorem wordWrapLine_wraps (hd : d.Lawful) (hmax : 0 < maxWidth)
    (hgs : ∀ g ∈ d.segment line, d.visibleWidth g ≤ maxWidth) :
    WrapsWithin d line maxWidth (d.BlankAt line) (wordWrapLine d line maxWidth) := by
  unfold wordWrapLine
  split
  case isTrue hempty =>
    obtain rfl | hzero := hempty
    · have htiles : Tiles d [] maxWidth [] ([] : List CodeUnit).length := .nil
      exact htiles.wrapsWithin
    · omega
  case isFalse hsome =>
    have hne : line ≠ [] := fun hnil => hsome (.inl hnil)
    split
    case isTrue hascii =>
      have hprintable : ∀ u ∈ line, isPrintableAsciiUnit u = true := List.all_eq_true.mp hascii
      simp only [wordWrapAsciiLine]
      split
      case isTrue hshort =>
        rw [← visibleWidth_ascii (d := d) hprintable] at hshort
        exact (tiles_whole hne hshort).wrapsWithin
      case isFalse =>
        exact (asciiLoop_tiles hprintable hmax .nil (Nat.zero_le _) (by omega)).wrapsWithin
    case isFalse =>
      split
      case isTrue hshort => exact (tiles_whole hne hshort).wrapsWithin
      case isFalse =>
        have hstart : Wrap.Holds d line maxWidth {} [] [] (d.segment line) :=
          ⟨⟨rfl, rfl, rfl, rfl, Nat.zero_le _, .nil⟩, fun _ => rfl⟩
        obtain ⟨before, run, hdone⟩ :=
          Wrap.run_holds hd (tokensOf_tokenized (hd.ne_nil_of_mem line)) hgs hstart rfl
        exact Wrap.finish_wraps hd hdone

def plainWidth (u : CodeUnit) : Nat :=
  if u = 0x200b ∨ u = 0x301 then 0 else if u ≥ 0x2e80 then 2 else 1

def plainTotal : List CodeUnit → Nat
  | [] => 0
  | u :: s => plainWidth u + plainTotal s

def plainDisplay : Display where
  segment s := s.splitBy fun _ u => u = 0x301
  normalize s := s
  nativeVisibleWidth s _ := plainTotal s
  tabWidth := 1

theorem plainTotal_append (s t : List CodeUnit) :
    plainTotal (s ++ t) = plainTotal s + plainTotal t := by
  induction s with
  | nil => simp [plainTotal]
  | cons u s ih =>
    simp only [List.cons_append, plainTotal, ih]
    omega

theorem plainWidth_ascii {u : CodeUnit} (h : u = 9 ∨ isPrintableAsciiUnit u = true) :
    plainWidth u = 1 := by
  have hle : u ≤ 0x7e := by
    rcases h with rfl | hprint
    · decide
    · simp only [isPrintableAsciiUnit, Bool.and_eq_true, decide_eq_true_eq] at hprint
      exact hprint.2
  have hsmall : u.toNat ≤ 0x7e := hle
  have hnot : ¬ (u = 0x200b ∨ u = 0x301) := by
    rintro (rfl | rfl)
    · exact absurd hle (by decide)
    · exact absurd hle (by decide)
  have hlow : ¬ u ≥ 0x2e80 := by
    intro hge
    have hbig : 0x2e80 ≤ u.toNat := hge
    omega
  rw [plainWidth, if_neg hnot, if_neg hlow]

theorem plainTotal_ascii {s : List CodeUnit} (h : ∀ u ∈ s, u = 9 ∨ isPrintableAsciiUnit u = true) :
    plainTotal s = s.length := by
  induction s with
  | nil => rfl
  | cons u s ih =>
    rw [plainTotal, plainWidth_ascii (h u List.mem_cons_self),
      ih fun u' h' => h u' (List.mem_cons_of_mem _ h'),
      List.length_cons, Nat.add_comm]

theorem plainTotal_spaced (s : List CodeUnit) :
    plainTotal (s.flatMap fun u => if u = 9 then List.replicate 1 0x20 else [u]) = plainTotal s := by
  induction s with
  | nil => rfl
  | cons u s ih =>
    rw [List.flatMap_cons, plainTotal_append, ih, plainTotal]
    split
    case isTrue htab =>
      subst htab
      rfl
    case isFalse => rfl

theorem plainDisplay_visibleWidth (s : List CodeUnit) :
    plainDisplay.visibleWidth s = plainTotal s := by
  unfold Display.visibleWidth
  split
  case isTrue hnil => rw [hnil, plainTotal]
  case isFalse =>
    simp only
    split
    case isTrue hall =>
      have hascii : ∀ u ∈ s, u = 9 ∨ isPrintableAsciiUnit u = true := by
        intro u hu
        simpa using List.all_eq_true.mp hall u hu
      rw [plainTotal_ascii hascii]
      simp only [plainDisplay]
      omega
    case isFalse =>
      simp only [plainDisplay]
      split
      · rfl
      · exact plainTotal_spaced s

theorem plainDisplay_totalWidth (gs : List (List CodeUnit)) :
    plainDisplay.totalWidth gs = plainTotal gs.flatten := by
  induction gs with
  | nil => rfl
  | cons g gs ih =>
    rw [Display.totalWidth, List.flatten_cons, plainTotal_append, ih, plainDisplay_visibleWidth]

theorem plainDisplay_lawful : plainDisplay.Lawful where
  flatten_segment := List.flatten_splitBy _
  ne_nil_of_mem _ _ := List.ne_nil_of_mem_splitBy
  segment_run s before gs after h := by
    have hpart : gs <:+: s.splitBy fun _ u => u = 0x301 :=
      ⟨before, after, by rw [List.append_assoc]; exact h.symm⟩
    refine List.splitBy_flatten ?_ ?_ ?_
    · exact fun hnil => List.nil_notMem_splitBy _ s (hpart.subset hnil)
    · exact fun m hm => List.isChain_of_mem_splitBy (hpart.subset hm)
    · have hchain := List.isChain_getLast_head_splitBy (fun _ u => u = 0x301) s
      exact List.IsChain.infix hchain hpart
  visibleWidth_eq s := by
    rw [plainDisplay_totalWidth, plainDisplay_visibleWidth]
    exact congrArg plainTotal (List.flatten_splitBy _ s).symm
  visibleWidth_trimEnd s := by
    obtain ⟨space, -, heq⟩ := trimEndUnits_append s
    have hsum := congrArg plainTotal heq
    rw [plainTotal_append] at hsum
    rw [plainDisplay_visibleWidth, plainDisplay_visibleWidth]
    omega

theorem wordWrapLine_wraps_wide_letters :
    WrapsWithin plainDisplay (units "ab あいう") 4 (plainDisplay.BlankAt (units "ab あいう"))
      (wordWrapLine plainDisplay (units "ab あいう") 4) :=
  wordWrapLine_wraps plainDisplay_lawful (by decide) (by decide +kernel)

def SpaceAt (line : List CodeUnit) (i : Nat) : Prop :=
  ∃ u, (line)[i]? = some u ∧ (isSpaceUnit u = true ∨ isWhiteSpace u = true)

/-- The accent on a space: the grapheme counts as white space, and is left out with its accent. -/
def accentedSpace : List CodeUnit := [0x3042, 0x20, 0x301, 0x3044]

theorem wordWrapLine_loses_units :
    plainDisplay.Lawful ∧
      ((∀ g ∈ plainDisplay.segment [0x200b], plainDisplay.visibleWidth g ≤ 0) ∧
        ¬ WrapsWithin plainDisplay [0x200b] 0 (SpaceAt [0x200b])
          (wordWrapLine plainDisplay [0x200b] 0)) ∧
      (∀ g ∈ plainDisplay.segment accentedSpace, plainDisplay.visibleWidth g ≤ 2) ∧
        ¬ WrapsWithin plainDisplay accentedSpace 2 (SpaceAt accentedSpace)
          (wordWrapLine plainDisplay accentedSpace 2) := by
  refine ⟨plainDisplay_lawful, ⟨by decide +kernel, fun hwraps => ?_⟩, by decide +kernel,
    fun hwraps => ?_⟩
  · have houtside : ∀ c ∈ wordWrapLine plainDisplay [0x200b] 0,
        ¬ (c.startIndex ≤ 0 ∧ 0 < c.endIndex) := by
      decide +kernel
    obtain ⟨u, hu, hspace⟩ := hwraps.outside 0 (by decide) houtside
    obtain rfl := Option.some.inj hu
    revert hspace
    decide
  · have houtside : ∀ c ∈ wordWrapLine plainDisplay accentedSpace 2,
        ¬ (c.startIndex ≤ 2 ∧ 2 < c.endIndex) := by
      decide +kernel
    obtain ⟨u, hu, hspace⟩ := hwraps.outside 2 (by decide) houtside
    obtain rfl := Option.some.inj hu
    revert hspace
    decide

end JevCode.Tui.WordWrap
