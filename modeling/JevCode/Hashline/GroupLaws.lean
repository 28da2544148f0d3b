import JevCode.Hashline.Apply
import JevCode.Text.Resupply

namespace JevCode.Hashline

open JevCode.Text

theorem longestBlock_spec (ok : Nat → Bool) (max : Nat) :
    longestBlock ok max = 0 ∨
      (2 ≤ longestBlock ok max ∧ longestBlock ok max ≤ max ∧ ok (longestBlock ok max) = true) := by
  induction max with
  | zero => simp [longestBlock]
  | succ max ih =>
    unfold longestBlock
    split
    · simp
    · split
      · rename_i h2 hok
        exact .inr ⟨by omega, le_rfl, hok⟩
      · rcases ih with ih | ⟨h1, h2, h3⟩
        · exact .inl ih
        · exact .inr ⟨h1, by omega, h3⟩

theorem matchesBlock_iff {fileLines payload : List String} {i j count : Nat} :
    matchesBlock fileLines i payload j count = true ↔
      ∀ o < count, fileLines[i + o]? = payload[j + o]? := by
  simp [matchesBlock, List.all_eq_true]

theorem take_drop_eq_block {fileLines payload : List String} {i j count : Nat}
    (hj : j + count ≤ payload.length) (h : matchesBlock fileLines i payload j count = true) :
    (payload.drop j).take count = block (lineAt fileLines) (i + 1) count := by
  rw [matchesBlock_iff] at h
  apply List.ext_getElem
  · simp [block]
    omega
  · intro o h1 h2
    have ho : o < count := by simp [block] at h2; omega
    have hjo : j + o < payload.length := by omega
    have hline := h o ho
    rw [List.getElem?_eq_getElem hjo] at hline
    have hidx : i + 1 + o - 1 = i + o := by omega
    simp [block, lineAt, List.getD_eq_getElem?_getD, hidx, hline]

theorem singleton_eq_block {fileLines : List String} {i : Nat} {line : String}
    (h : fileLines[i]? = some line) :
    [line] = block (lineAt fileLines) (i + 1) 1 := by
  simp [block, lineAt, List.getD_eq_getElem?_getD, h]

structure RepeatsAbove (fileLines payload : List String) (start count : Nat) : Prop where
  le_length : count ≤ payload.length
  lt_start : count = 0 ∨ count < start
  take_eq : payload.take count = block (lineAt fileLines) (start - count) count

structure RepeatsBelow (fileLines payload : List String) (last count : Nat) : Prop where
  le_length : count ≤ payload.length
  le_file : count = 0 ∨ last + count ≤ fileLines.length
  drop_eq : payload.drop (payload.length - count) = block (lineAt fileLines) (last + 1) count

theorem RepeatsAbove.zero (fileLines payload : List String) (start : Nat) :
    RepeatsAbove fileLines payload start 0 := ⟨Nat.zero_le _, .inl rfl, by simp [block]⟩

theorem RepeatsBelow.zero (fileLines payload : List String) (last : Nat) :
    RepeatsBelow fileLines payload last 0 := ⟨Nat.zero_le _, .inl rfl, by simp [block]⟩

theorem repeatsAbove_longestBlock (fileLines payload : List String) (start : Nat) :
    RepeatsAbove fileLines payload start
      (longestBlock (fun count => matchesBlock fileLines (start - 1 - count) payload 0 count)
        (min payload.length (start - 1))) := by
  generalize hc : longestBlock _ _ = c
  rcases longestBlock_spec (fun count => matchesBlock fileLines (start - 1 - count) payload 0 count)
    (min payload.length (start - 1)) with h | ⟨h1, h2, h3⟩
  · rw [hc] at h
    rw [h]
    exact .zero ..
  · rw [hc] at h1 h2 h3
    have htake := take_drop_eq_block (by omega) h3
    have hidx : start - 1 - c + 1 = start - c := by omega
    rw [List.drop_zero, hidx] at htake
    exact ⟨by omega, .inr (by omega), htake⟩

theorem repeatsBelow_longestBlock (fileLines payload : List String) (last : Nat) :
    RepeatsBelow fileLines payload last
      (longestBlock (fun count => matchesBlock fileLines last payload (payload.length - count) count)
        (min payload.length (fileLines.length - last))) := by
  generalize hc : longestBlock _ _ = c
  rcases longestBlock_spec
    (fun count => matchesBlock fileLines last payload (payload.length - count) count)
    (min payload.length (fileLines.length - last)) with h | ⟨h1, h2, h3⟩
  · rw [hc] at h
    rw [h]
    exact .zero ..
  · rw [hc] at h1 h2 h3
    have htake := take_drop_eq_block (by omega) h3
    rw [List.take_of_length_le (by simp; omega)] at htake
    exact ⟨by omega, .inr (by omega), htake⟩

theorem repeatsAbove_one {fileLines payload : List String} {start : Nat} {first : String}
    {tail : List String} (hpayload : payload = first :: tail) (hstart : 1 < start)
    (h : fileLines[start - 2]? = some first) :
    RepeatsAbove fileLines payload start 1 := by
  refine ⟨by simp [hpayload], .inr hstart, ?_⟩
  have hidx : start - 2 + 1 = start - 1 := by omega
  rw [hpayload, ← hidx]
  exact singleton_eq_block h

theorem repeatsBelow_one {fileLines payload : List String} {last : Nat} {line : String}
    (hpayload : payload.getLast? = some line) (h : fileLines[last]? = some line) :
    RepeatsBelow fileLines payload last 1 := by
  obtain ⟨ys, rfl⟩ := List.getLast?_eq_some_iff.mp hpayload
  have hlast : last < fileLines.length := (List.getElem?_eq_some_iff.mp h).1
  refine ⟨by simp, .inr hlast, ?_⟩
  simp [← singleton_eq_block h]

section

variable (fileLines : List String) (allTargetLines : List Nat) (g : ReplacementGroup)

theorem prefixCount_repeats :
    RepeatsAbove fileLines g.replacement g.startLine (prefixCount fileLines g) := by
  unfold prefixCount
  dsimp only
  split
  · have h := repeatsAbove_longestBlock fileLines g.replacement g.startLine
    have hidx : ∀ count, g.startLine - 1 - count = g.startLine - count - 1 := by omega
    simp only [hidx] at h
    exact h
  · unfold countMatchingSingleStructuralPrefixBoundary
    split
    · exact .zero ..
    · split
      · exact .zero ..
      split
      · exact .zero ..
      split
      · exact .zero ..
      split
      · exact repeatsAbove_one (by assumption) (by omega) (by simp_all)
      · exact .zero ..

theorem suffixCount_repeats :
    RepeatsBelow fileLines g.replacement g.endLine (suffixCount fileLines g) := by
  unfold suffixCount
  dsimp only
  split
  · exact repeatsBelow_longestBlock fileLines g.replacement g.endLine
  · unfold countMatchingSingleStructuralSuffixBoundary
    split
    · exact .zero ..
    · split
      · exact .zero ..
      split
      · exact .zero ..
      split
      · exact .zero ..
      split
      · exact repeatsBelow_one (by assumption) (by simp_all)
      · exact .zero ..

theorem safePrefixCount_repeats :
    RepeatsAbove fileLines g.replacement g.startLine
      (safePrefixCount fileLines allTargetLines g) := by
  unfold safePrefixCount
  dsimp only
  split
  · exact .zero ..
  · exact prefixCount_repeats fileLines g

theorem safeSuffixCount_repeats :
    RepeatsBelow fileLines g.replacement g.endLine (safeSuffixCount fileLines allTargetLines g) := by
  unfold safeSuffixCount
  dsimp only
  split
  · exact .zero ..
  · exact suffixCount_repeats fileLines g

theorem safePrefixCount_notMem {l : Nat}
    (h1 : g.startLine - safePrefixCount fileLines allTargetLines g ≤ l) (h2 : l < g.startLine) :
    l ∉ allTargetLines := by
  unfold safePrefixCount at h1
  dsimp only at h1
  split at h1
  · omega
  · rename_i h
    simp only [hasExternalTargets, Bool.not_eq_true, List.any_eq_false, decide_eq_true_eq,
      List.mem_range'_1] at h
    exact h l (by omega)

theorem safeSuffixCount_notMem {l : Nat} (h1 : g.endLine < l)
    (h2 : l ≤ g.endLine + safeSuffixCount fileLines allTargetLines g) : l ∉ allTargetLines := by
  unfold safeSuffixCount at h2
  dsimp only at h2
  split at h2
  · omega
  · rename_i h
    simp only [hasExternalTargets, Bool.not_eq_true, List.any_eq_false, decide_eq_true_eq,
      List.mem_range'_1] at h
    exact h l (by omega)

end

theorem absorbedLeading_repeats (cursor : Cursor) (payload fileLines : List String) (above : Nat)
    (generic : Bool) :
    RepeatsAbove fileLines payload (above + 1)
      (absorbedLeading cursor payload fileLines above generic) := by
  have hblock : RepeatsAbove fileLines payload (above + 1) (if generic then
      longestBlock (fun count => matchesBlock fileLines (above - count) payload 0 count)
        (min payload.length above)
    else 0) := by
    split
    · exact repeatsAbove_longestBlock fileLines payload (above + 1)
    · exact .zero ..
  unfold absorbedLeading
  dsimp only
  generalize (if generic then _ else 0 : Nat) = block at hblock ⊢
  by_cases hzero : block ≠ 0
  · rwa [if_pos hzero]
  · rw [if_neg hzero]
    cases payload with
    | nil => exact .zero ..
    | cons first tail =>
      dsimp only
      by_cases hfirst : above = 0 ∨ fileLines[above - 1]? ≠ some first
      · rw [if_pos hfirst]
        exact .zero ..
      · have hone : RepeatsAbove fileLines (first :: tail) (above + 1) 1 := by
          have hidx : above + 1 - 2 = above - 1 := by omega
          exact repeatsAbove_one rfl (by omega) (by rw [hidx]; exact not_not.mp (not_or.mp hfirst).2)
        rw [if_neg hfirst]
        split
        · exact hone
        split
        · exact hone
        · exact .zero ..

theorem absorbedTrailing_repeats (cursor : Cursor) (payload fileLines : List String) (below : Nat)
    (generic : Bool) :
    RepeatsBelow fileLines payload below
      (absorbedTrailing cursor payload fileLines below generic) := by
  have hblock : RepeatsBelow fileLines payload below (if generic then
      longestBlock (fun count => matchesBlock fileLines below payload (payload.length - count) count)
        (min payload.length (fileLines.length - below))
    else 0) := by
    split
    · exact repeatsBelow_longestBlock fileLines payload below
    · exact .zero ..
  unfold absorbedTrailing
  dsimp only
  generalize (if generic then _ else 0 : Nat) = block at hblock ⊢
  by_cases hzero : block ≠ 0
  · rwa [if_pos hzero]
  · rw [if_neg hzero]
    cases hlast : payload.getLast? with
    | none => exact .zero ..
    | some last =>
      dsimp only
      by_cases hfile : fileLines[below]? ≠ some last
      · rw [if_pos hfile]
        exact .zero ..
      · have hone : RepeatsBelow fileLines payload below 1 :=
          repeatsBelow_one hlast (not_not.mp hfile)
        rw [if_neg hfile]
        split
        · exact hone
        split
        · exact hone
        · exact .zero ..

end JevCode.Hashline
