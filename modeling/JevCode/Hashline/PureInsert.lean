import JevCode.Hashline.Provenance

namespace JevCode.Hashline

open JevCode.Text JevCode.Data

def filesFrom (fileLines : List String) (lo count : Nat) : List OriginLine :=
  (List.range' lo count).map fun l => (.file l, lineAt fileLines l)

def keptOrigins (segment : Nat) (payload : List String) : List OriginLine :=
  payload.mapIdx fun k t => (.payload segment k, t)

/-- The lines of the file that stand for the dropped payload lines, around the payload lines that are
kept. The insert goes between line `above` and the next one. -/
def blockOrigins (fileLines : List String) (segment above : Nat) (result : PureInsertAbsorbResult) :
    List OriginLine :=
  filesFrom fileLines (above - result.absorbedLeading + 1) result.absorbedLeading ++
    keptOrigins segment result.keptPayload ++ filesFrom fileLines (above + 1) result.absorbedTrailing

def Segment.InsertsAt (fileLines : List String) (options : ApplyOptions) (q : Place)
    (seg : Segment) : Prop :=
  ∃ p ∈ seg.inserted fileLines options, p.1.place fileLines = q

/-- No other op of the batch comes between the matched lines and the kept payload. The segment of the
insert stands between `before` and `after`. -/
structure BlockUndisturbed (edits : List Edit) (fileLines : List String) (options : ApplyOptions)
    (before after : List Segment) (cursor : Cursor) (above : Nat)
    (result : PureInsertAbsorbResult) : Prop where
  kept : ∀ l, above - result.absorbedLeading < l → l ≤ above + result.absorbedTrailing →
    isDeleted edits l = false ∧ isAbsorbed edits fileLines l = false
  inside : ∀ l, above - result.absorbedLeading < l →
    l < above + result.absorbedTrailing → l ≠ above →
    ∀ seg ∈ segments edits, ¬ seg.InsertsAt fileLines options (.line (l + 1))
  leading : 0 < result.absorbedLeading → (result.keptPayload ≠ [] ∨ 0 < result.absorbedTrailing) →
    ∀ seg ∈ before, ¬ seg.InsertsAt fileLines options (cursor.place fileLines)
  trailing : 0 < result.absorbedTrailing → (result.keptPayload ≠ [] ∨ 0 < result.absorbedLeading) →
    (∀ seg ∈ after, ¬ seg.InsertsAt fileLines options (cursor.place fileLines)) ∧
      (cursor = .bof → ∀ seg ∈ segments edits, ¬ seg.InsertsAt fileLines options (.line 1))
  placeholder : (∃ seg ∈ segments edits,
      seg.InsertsAt fileLines options .start ∨ seg.InsertsAt fileLines options .stop) →
    (splicedOrigins edits fileLines options).map Prod.snd ≠ [""]
  blank : (∃ seg ∈ segments edits, seg.InsertsAt fileLines options .stop) →
    ∀ z, (splicedOrigins edits fileLines options).getLast? = some z → z.2 = "" →
      z ∉ blockOrigins fileLines before.length above result ∨
        (blockOrigins fileLines before.length above result).length = 1

section

variable {edits : List Edit} {fileLines : List String} {options : ApplyOptions}

def gapLines (edits : List Edit) (fileLines : List String) (options : ApplyOptions) (l : Nat) :
    List OriginLine :=
  (if l = 0 then atPlace fileLines (batchInserts edits fileLines options) .start else []) ++
    atPlace fileLines (batchInserts edits fileLines options)
    (if l < fileLines.length then .line (l + 1) else .stop)

def aboveGap (edits : List Edit) (fileLines : List String) (options : ApplyOptions) (l : Nat) :
    List OriginLine :=
  (List.range' 0 l).flatMap fun k =>
    gapLines edits fileLines options k ++ fileLine edits fileLines (k + 1)

def belowGap (edits : List Edit) (fileLines : List String) (options : ApplyOptions) (l : Nat) :
    List OriginLine :=
  (List.range' (l + 1) (fileLines.length - l)).flatMap fun k =>
    fileLine edits fileLines k ++ gapLines edits fileLines options k

theorem aboveGap_succ (l : Nat) :
    aboveGap edits fileLines options (l + 1) =
      aboveGap edits fileLines options l ++
        (gapLines edits fileLines options l ++ fileLine edits fileLines (l + 1)) := by
  simp [aboveGap, List.range'_concat]

theorem belowGap_of_lt {l : Nat} (h : l < fileLines.length) :
    belowGap edits fileLines options l =
      fileLine edits fileLines (l + 1) ++ (gapLines edits fileLines options (l + 1) ++
        belowGap edits fileLines options (l + 1)) := by
  have hlen : fileLines.length - l = (fileLines.length - (l + 1)) + 1 := by omega
  rw [belowGap, hlen, List.range'_succ, List.flatMap_cons, List.append_assoc]
  rfl

theorem orderedOrigins_eq {l : Nat} (h : l ≤ fileLines.length) :
    orderedOrigins edits fileLines options =
      aboveGap edits fileLines options l ++
        (gapLines edits fileLines options l ++ belowGap edits fileLines options l) := by
  induction l with
  | zero =>
    have hshift := flatMap_range'_shift
      (fun l => atPlace fileLines (batchInserts edits fileLines options)
      (if l < fileLines.length then .line (l + 1) else .stop))
      (fileLine edits fileLines) fileLines.length
    have hspliced : splicedOrigins edits fileLines options =
        (List.range' 1 fileLines.length).flatMap fun l =>
        atPlace fileLines (batchInserts edits fileLines options)
          (if l - 1 < fileLines.length then .line (l - 1 + 1) else .stop) ++
          fileLine edits fileLines l := by
      apply List.flatMap_congr
      intro l hl
      rw [List.mem_range'_1] at hl
      rw [if_pos (by omega), Nat.sub_add_cancel hl.1]
    have hbelow : belowGap edits fileLines options 0 =
        (List.range' 1 fileLines.length).flatMap fun l =>
        fileLine edits fileLines l ++ atPlace fileLines (batchInserts edits fileLines options)
          (if l < fileLines.length then .line (l + 1) else .stop) := by
      apply List.flatMap_congr
      intro l hl
      rw [List.mem_range'_1] at hl
      have hne : l ≠ 0 := by omega
      simp [gapLines, hne]
    simp only [lt_irrefl, if_false] at hshift
    rw [orderedOrigins, hspliced, List.append_assoc, ← hshift, hbelow]
    simp [aboveGap, gapLines]
  | succ l ih =>
    rw [ih (by omega), aboveGap_succ, belowGap_of_lt (by omega)]
    simp

theorem nodup_gapLines (edits : List Edit) (options : ApplyOptions) {l : Nat}
    (h : l ≤ fileLines.length) :
    (gapLines edits fileLines options l).Nodup := by
  have hnodup : (orderedOrigins edits fileLines options).Nodup := nodup_orderedOrigins
  rw [orderedOrigins_eq h] at hnodup
  exact hnodup.sublist ((List.sublist_append_left _ _).trans (List.sublist_append_right _ _))

theorem payload_of_mem_gapLines {l : Nat} {x : OriginLine}
    (h : x ∈ gapLines edits fileLines options l) :
    ∃ s k, x.1 = .payload s k := by
  rcases List.mem_append.mp h with h | h
  · split at h
    · exact payload_of_mem_atPlace h
    · cases h
  · exact payload_of_mem_atPlace h

theorem kept_of_mem_orderedOrigins {l : Nat} {t : String}
    (h : (.file l, t) ∈ orderedOrigins edits fileLines options) :
    fileLine edits fileLines l = [(.file l, lineAt fileLines l)] := by
  have hnot : ∀ q, (.file l, t) ∉ atPlace fileLines (batchInserts edits fileLines options) q := by
    intro q hq
    obtain ⟨s, k, hs⟩ := payload_of_mem_atPlace hq
    cases hs
  simp only [orderedOrigins, List.mem_append, hnot, false_or, or_false] at h
  obtain ⟨k, -, hk⟩ := List.mem_flatMap.mp h
  rcases List.mem_append.mp hk with hk | hk
  · exact absurd hk (hnot _)
  · obtain ⟨heq, hkept⟩ := mem_fileLine.mp hk
    cases heq
    simp [fileLine, hkept]

theorem fileLine_eq_iff {l : Nat} :
    fileLine edits fileLines l = [(.file l, lineAt fileLines l)] ↔
      isDeleted edits l = false ∧ isAbsorbed edits fileLines l = false := by
  unfold fileLine
  cases isDeleted edits l <;> cases isAbsorbed edits fileLines l <;> simp

@[simp] theorem filesFrom_zero (lo : Nat) : filesFrom fileLines lo 0 = [] := rfl

theorem filesFrom_succ (lo count : Nat) :
    filesFrom fileLines lo (count + 1) = (.file lo, lineAt fileLines lo) ::
      filesFrom fileLines (lo + 1) count := by
  simp [filesFrom, List.range'_succ]

theorem filesFrom_concat (lo count : Nat) :
    filesFrom fileLines lo (count + 1) = filesFrom fileLines lo count ++
      [(.file (lo + count), lineAt fileLines (lo + count))] := by
  simp [filesFrom, List.range'_concat]

theorem mem_filesFrom {lo count : Nat} {x : OriginLine} :
    x ∈ filesFrom fileLines lo count ↔ ∃ l, lo ≤ l ∧ l < lo + count ∧
      x = (.file l, lineAt fileLines l) := by
  simp only [filesFrom, List.mem_map, List.mem_range'_1]
  constructor
  · rintro ⟨l, hl, rfl⟩
    exact ⟨l, hl.1, hl.2, rfl⟩
  · rintro ⟨l, h1, h2, rfl⟩
    exact ⟨l, ⟨h1, h2⟩, rfl⟩

theorem pair_infix_filesFrom {lo count l : Nat} (h1 : lo ≤ l) (h2 : l + 1 < lo + count) :
    [(.file l, lineAt fileLines l),
      (.file (l + 1), lineAt fileLines (l + 1))] <:+: filesFrom fileLines lo count := by
  have hsplit : count = (l - lo) + ((count - (l - lo) - 2) + 1 + 1) := by omega
  have hlo : lo + (l - lo) = l := by omega
  rw [hsplit, filesFrom, ← List.range'_append_1, List.map_append, hlo, List.range'_succ,
    List.range'_succ]
  exact ⟨filesFrom fileLines lo (l - lo),
    filesFrom fileLines (l + 2) (count - (l - lo) - 2), by simp [filesFrom]⟩

theorem exists_aboveGap_eq (options : ApplyOptions) {u k : Nat}
    (hlines : ∀ l, u < l → l ≤ u + k → fileLine edits fileLines l = [(.file l, lineAt fileLines l)])
    (hgaps : ∀ l, u < l → l < u + k → gapLines edits fileLines options l = []) :
    ∃ xs, aboveGap edits fileLines options (u + k) = xs ++ filesFrom fileLines (u + 1) k := by
  induction k with
  | zero => exact ⟨aboveGap edits fileLines options u, by simp [filesFrom]⟩
  | succ k ih =>
    obtain ⟨xs, hxs⟩ := ih (fun l h1 h2 => hlines l h1 (by omega)) fun l h1 h2 =>
      hgaps l h1 (by omega)
    have hline := hlines (u + k + 1) (by omega) (by omega)
    rw [← Nat.add_assoc, aboveGap_succ, hline, filesFrom_concat, Nat.add_right_comm u 1 k]
    by_cases hk : k = 0
    · subst hk
      exact ⟨aboveGap edits fileLines options u ++
        gapLines edits fileLines options u, by simp [filesFrom]⟩
    · rw [hgaps (u + k) (by omega) (by omega), hxs]
      exact ⟨xs, by simp⟩

theorem exists_belowGap_eq (options : ApplyOptions) {a k : Nat} (h : a + k ≤ fileLines.length)
    (hlines : ∀ l, a < l → l ≤ a + k → fileLine edits fileLines l = [(.file l, lineAt fileLines l)])
    (hgaps : ∀ l, a < l → l < a + k → gapLines edits fileLines options l = []) :
    ∃ ys, belowGap edits fileLines options a = filesFrom fileLines (a + 1) k ++ ys := by
  induction k generalizing a with
  | zero => exact ⟨belowGap edits fileLines options a, by simp [filesFrom]⟩
  | succ k ih =>
    obtain ⟨ys, hys⟩ := ih (a := a + 1) (by omega) (fun l h1 h2 => hlines l (by omega) (by omega))
      fun l h1 h2 => hgaps l (by omega) (by omega)
    rw [belowGap_of_lt (by omega), hlines (a + 1) (by omega) (by omega), filesFrom_succ]
    by_cases hk : k = 0
    · subst hk
      exact ⟨gapLines edits fileLines options (a + 1) ++
        belowGap edits fileLines options (a + 1), by simp [filesFrom]⟩
    · rw [hgaps (a + 1) (by omega) (by omega), hys]
      exact ⟨ys, by simp⟩

section

variable {segment above : Nat} {result : PureInsertAbsorbResult} {ps qs : List OriginLine}

theorem keptOrigins_eq_nil {payload : List String} :
    keptOrigins segment payload = [] ↔ payload = [] := by
  simp [keptOrigins]

theorem infix_of_parts {xs lead kept trail ys ps qs : List OriginLine}
    (hps : ps = [] ∨ lead = [] ∨ (kept = [] ∧ trail = []))
    (hqs : qs = [] ∨ trail = [] ∨ (kept = [] ∧ lead = [])) :
    lead ++ kept ++ trail <:+: xs ++ lead ++ (ps ++ (kept ++ qs) ++ (trail ++ ys)) := by
  rcases hps with rfl | rfl | ⟨rfl, rfl⟩
  · rcases hqs with rfl | rfl | ⟨rfl, rfl⟩
    · exact ⟨xs, ys, by simp⟩
    · exact ⟨xs, qs ++ ys, by simp⟩
    · exact ⟨xs ++ qs, ys, by simp⟩
  · rcases hqs with rfl | rfl | ⟨rfl, -⟩
    · exact ⟨xs ++ ps, ys, by simp⟩
    · exact ⟨xs ++ ps, qs ++ ys, by simp⟩
    · exact ⟨xs ++ ps ++ qs, ys, by simp⟩
  · exact ⟨xs, ps ++ qs ++ ys, by simp⟩

theorem exists_orderedOrigins_eq (options : ApplyOptions) {l : Nat} (h1 : 1 ≤ l)
    (h2 : l ≤ fileLines.length)
    (hkept : fileLine edits fileLines l = [(.file l, lineAt fileLines l)]) :
    ∃ xs, orderedOrigins edits fileLines options = xs ++ (.file l, lineAt fileLines l) ::
      (gapLines edits fileLines options l ++ belowGap edits fileLines options l) := by
  obtain ⟨k, rfl⟩ : ∃ k, l = k + 1 := ⟨l - 1, by omega⟩
  refine ⟨aboveGap edits fileLines options k ++ gapLines edits fileLines options k, ?_⟩
  rw [orderedOrigins_eq h2, aboveGap_succ, hkept]
  simp

theorem gapLines_eq_nil_of_next {l : Nat} (h1 : 1 ≤ l) (h2 : l ≤ fileLines.length)
    (hnext : [(.file l, lineAt fileLines l), (.file (l + 1), lineAt fileLines (l + 1))] <:+:
      orderedOrigins edits fileLines options) : gapLines edits fileLines options l = [] := by
  have hmem : (.file l, lineAt fileLines l) ∈ orderedOrigins edits fileLines options :=
    hnext.subset (by simp)
  obtain ⟨xs, hxs⟩ := exists_orderedOrigins_eq options h1 h2 (kept_of_mem_orderedOrigins hmem)
  refine eq_nil_of_next nodup_orderedOrigins hxs hnext fun hmem => ?_
  obtain ⟨s, k, hs⟩ := payload_of_mem_gapLines hmem
  cases hs

theorem filesFrom_last {count : Nat} (hpos : 0 < count) (hle : count ≤ above) :
    filesFrom fileLines (above - count + 1) count =
      filesFrom fileLines (above - count + 1) (count - 1) ++
        [(.file above, lineAt fileLines above)] := by
  obtain ⟨k, rfl⟩ : ∃ k, count = k + 1 := ⟨count - 1, by omega⟩
  have hline : above - (k + 1) + 1 + k = above := by omega
  rw [filesFrom_concat, hline, Nat.add_sub_cancel]

theorem filesFrom_first {lo count : Nat} (hpos : 0 < count) :
    filesFrom fileLines lo count = (.file lo, lineAt fileLines lo) ::
      filesFrom fileLines (lo + 1) (count - 1) := by
  obtain ⟨k, rfl⟩ : ∃ k, count = k + 1 := ⟨count - 1, by omega⟩
  rw [filesFrom_succ, Nat.add_sub_cancel]

section

variable (hgap : gapLines edits fileLines options above = ps ++
    (keptOrigins segment result.keptPayload ++ qs))
include hgap

theorem file_notMem_gap {l : Nat} : (.file l, lineAt fileLines l) ∉ ps ++ qs := by
  intro hmem
  have hmem' : (.file l, lineAt fileLines l) ∈ gapLines edits fileLines options above := by
    rw [hgap]
    rcases List.mem_append.mp hmem with h | h <;> simp [h]
  obtain ⟨s, k, hs⟩ := payload_of_mem_gapLines hmem'
  cases hs

theorem gap_eq_nil_of_adjacent (habove : above ≤ fileLines.length)
    (hkept : result.keptPayload = []) (hlead : 0 < result.absorbedLeading)
    (hle : result.absorbedLeading ≤ above) (htrail : 0 < result.absorbedTrailing)
    (h : blockOrigins fileLines segment above result <:+: orderedOrigins edits fileLines options) :
    ps = [] ∧ qs = [] := by
  rw [blockOrigins, filesFrom_last hlead hle, filesFrom_first htrail, hkept] at h
  have hnext : [(.file above, lineAt fileLines above),
      (.file (above + 1), lineAt fileLines (above + 1))] <:+:
      orderedOrigins edits fileLines options :=
      List.IsInfix.trans ⟨_, _, by simp [keptOrigins]; rfl⟩ h
  have hnil := gapLines_eq_nil_of_next (by omega) habove hnext
  rw [hgap] at hnil
  simp_all

theorem leading_of_infix (habove : above ≤ fileLines.length)
    (hkept : result.keptPayload ≠ []) (hlead : 0 < result.absorbedLeading)
    (hle : result.absorbedLeading ≤ above)
    (h : blockOrigins fileLines segment above result <:+: orderedOrigins edits fileLines options) :
    ps = [] := by
  obtain ⟨y, ks, hks⟩ :=
    List.exists_cons_of_ne_nil (mt keptOrigins_eq_nil.mp hkept : keptOrigins segment _ ≠ [])
  rw [blockOrigins, filesFrom_last hlead hle, hks] at h
  have hnext : [(.file above, lineAt fileLines above), y] <:+: orderedOrigins edits
      fileLines options :=
    List.IsInfix.trans ⟨_, _, by simp; rfl⟩ h
  have hmem : (.file above, lineAt fileLines above) ∈ orderedOrigins edits fileLines options :=
    hnext.subset (by simp)
  obtain ⟨xs, hxs⟩ :=
    exists_orderedOrigins_eq options (by omega) habove (kept_of_mem_orderedOrigins hmem)
  rw [hgap, List.append_assoc] at hxs
  refine eq_nil_of_next nodup_orderedOrigins hxs hnext fun hy => ?_
  have hnodup := nodup_gapLines edits options habove
  rw [hgap, List.nodup_append] at hnodup
  exact hnodup.2.2 y hy y (by simp [hks]) rfl

theorem trailing_of_infix (habove : above ≤ fileLines.length)
    (hkept : result.keptPayload ≠ []) (htrail : 0 < result.absorbedTrailing)
    (h : blockOrigins fileLines segment above result <:+: orderedOrigins edits fileLines options) :
    qs = [] := by
  obtain ⟨ks, x, hks⟩ :=
    (keptOrigins segment result.keptPayload).eq_nil_or_concat'.resolve_left
      (mt keptOrigins_eq_nil.mp hkept)
  rw [blockOrigins, filesFrom_first htrail, hks] at h
  have hnext : [x, (.file (above + 1), lineAt fileLines (above + 1))] <:+: orderedOrigins edits
      fileLines options :=
    List.IsInfix.trans ⟨filesFrom fileLines (above - result.absorbedLeading + 1)
      result.absorbedLeading ++ ks, _, by simp; rfl⟩ h
  have hword : orderedOrigins edits fileLines options =
      aboveGap edits fileLines options above ++ ps ++ ks ++
      x :: (qs ++ belowGap edits fileLines options above) := by
    rw [orderedOrigins_eq habove, hgap, hks]
    simp
  exact eq_nil_of_next nodup_orderedOrigins hword hnext fun hy =>
    file_notMem_gap hgap (List.mem_append_right ps hy)

end

theorem nil_or_edge (segment : Nat) {ps : List OriginLine} {payload : List String}
    {near far lo lo' : Nat} (h : 0 < near → (payload ≠ [] ∨ 0 < far) → ps = []) :
    ps = [] ∨ filesFrom fileLines lo near = [] ∨
      (keptOrigins segment payload = [] ∧ filesFrom fileLines lo' far = []) := by
  by_cases h0 : near = 0
  · exact .inr (.inl (by simp [h0, filesFrom]))
  by_cases h1 : payload ≠ [] ∨ 0 < far
  · exact .inl (h (by omega) h1)
  · rw [not_or, not_not] at h1
    have h2 : far = 0 := by omega
    exact .inr (.inr (by simp [h1.1, h2, filesFrom, keptOrigins]))

theorem infix_of_gaps (hlead : result.absorbedLeading ≤ above)
    (htrail : above + result.absorbedTrailing ≤ fileLines.length)
    (hgap : gapLines edits fileLines options above = ps ++
      (keptOrigins segment result.keptPayload ++ qs))
    (hlines : ∀ l, above - result.absorbedLeading < l → l ≤ above + result.absorbedTrailing →
      fileLine edits fileLines l = [(.file l, lineAt fileLines l)])
    (hgaps : ∀ l, above - result.absorbedLeading < l →
      l < above + result.absorbedTrailing → l ≠ above →
      gapLines edits fileLines options l = [])
    (hps : 0 < result.absorbedLeading →
      (result.keptPayload ≠ [] ∨ 0 < result.absorbedTrailing) → ps = [])
    (hqs : 0 < result.absorbedTrailing →
      (result.keptPayload ≠ [] ∨ 0 < result.absorbedLeading) → qs = []) :
    blockOrigins fileLines segment above result <:+: orderedOrigins edits fileLines options := by
  have habove : above - result.absorbedLeading + result.absorbedLeading = above := by omega
  obtain ⟨xs, hxs⟩ := exists_aboveGap_eq options (u := above - result.absorbedLeading)
    (k := result.absorbedLeading) (fun l h1 h2 => hlines l h1 (by omega))
    fun l h1 h2 => hgaps l h1 (by omega) (by omega)
  obtain ⟨ys, hys⟩ := exists_belowGap_eq options htrail (fun l h1 h2 => hlines l (by omega) h2)
    fun l h1 h2 => hgaps l (by omega) h2 (by omega)
  rw [habove] at hxs
  rw [orderedOrigins_eq (l := above) (by omega), hxs, hgap, hys]
  exact infix_of_parts (nil_or_edge segment hps) (nil_or_edge segment hqs)

theorem infix_orderedOrigins_iff (hlead : result.absorbedLeading ≤ above)
    (htrail : above + result.absorbedTrailing ≤ fileLines.length)
    (hgap : gapLines edits fileLines options above = ps ++
      (keptOrigins segment result.keptPayload ++ qs)) :
    blockOrigins fileLines segment above result <:+: orderedOrigins edits fileLines options ↔
      (∀ l, above - result.absorbedLeading < l → l ≤ above + result.absorbedTrailing →
        fileLine edits fileLines l = [(.file l, lineAt fileLines l)]) ∧
      (∀ l, above - result.absorbedLeading < l → l < above + result.absorbedTrailing → l ≠ above →
        gapLines edits fileLines options l = []) ∧
      (0 < result.absorbedLeading →
        (result.keptPayload ≠ [] ∨ 0 < result.absorbedTrailing) → ps = []) ∧
      (0 < result.absorbedTrailing → (result.keptPayload ≠ [] ∨ 0 < result.absorbedLeading) →
        qs = []) := by
  constructor
  · intro h
    have hleadInfix : filesFrom fileLines (above - result.absorbedLeading + 1)
        result.absorbedLeading <:+:
        orderedOrigins edits fileLines options :=
      List.IsInfix.trans ⟨[], keptOrigins segment result.keptPayload ++
        filesFrom fileLines (above + 1) result.absorbedTrailing, by simp [blockOrigins]⟩ h
    have htrailInfix : filesFrom fileLines (above + 1) result.absorbedTrailing <:+:
        orderedOrigins edits fileLines options :=
      List.IsInfix.trans ⟨filesFrom fileLines (above - result.absorbedLeading + 1)
        result.absorbedLeading ++
        keptOrigins segment result.keptPayload, [], by simp [blockOrigins]⟩ h
    have hlines : ∀ l, above - result.absorbedLeading < l → l ≤ above + result.absorbedTrailing →
        fileLine edits fileLines l = [(.file l, lineAt fileLines l)] := by
      intro l h1 h2
      have hmem : (.file l, lineAt fileLines l) ∈ orderedOrigins edits fileLines options := by
        by_cases hl : l ≤ above
        · exact hleadInfix.subset (mem_filesFrom.mpr ⟨l, by omega, by omega, rfl⟩)
        · exact htrailInfix.subset (mem_filesFrom.mpr ⟨l, by omega, by omega, rfl⟩)
      exact kept_of_mem_orderedOrigins hmem
    refine ⟨hlines, ?_, ?_, ?_⟩
    · intro l h1 h2 hne
      by_cases hl : l < above
      · exact gapLines_eq_nil_of_next (by omega) (by omega)
          ((pair_infix_filesFrom (by omega) (by omega)).trans hleadInfix)
      · exact gapLines_eq_nil_of_next (by omega) (by omega)
          ((pair_infix_filesFrom (by omega) (by omega)).trans htrailInfix)
    · intro h1 h2
      by_cases hkept : result.keptPayload = []
      · exact (gap_eq_nil_of_adjacent hgap (by omega) hkept h1 hlead
          (h2.resolve_left (absurd hkept)) h).1
      · exact leading_of_infix hgap (by omega) hkept h1 hlead h
    · intro h1 h2
      by_cases hkept : result.keptPayload = []
      · exact (gap_eq_nil_of_adjacent hgap (by omega) hkept
          (h2.resolve_left (absurd hkept)) hlead h1 h).2
      · exact trailing_of_infix hgap (by omega) hkept h1 h
  · rintro ⟨hlines, hgaps, hps, hqs⟩
    exact infix_of_gaps hlead htrail hgap hlines hgaps hps hqs

end

theorem originInserts_append (i : Nat) (xs ys : List Segment) :
    originInserts fileLines options i (xs ++ ys) =
      originInserts fileLines options i xs ++
        originInserts fileLines options (i + xs.length) ys := by
  induction xs generalizing i with
  | nil => rfl
  | cons seg xs ih =>
    rw [List.cons_append, originInserts, originInserts, ih, List.append_assoc, List.length_cons,
      Nat.add_right_comm, Nat.add_assoc]

theorem atPlace_append (xs ys : List (Cursor × OriginLine)) (q : Place) :
    atPlace fileLines (xs ++ ys) q = atPlace fileLines xs q ++ atPlace fileLines ys q := by
  simp [atPlace]

theorem atPlace_originInserts_eq_nil {i : Nat} {segs : List Segment} {q : Place} :
    atPlace fileLines (originInserts fileLines options i segs) q = [] ↔
      ∀ seg ∈ segs, ¬ seg.InsertsAt fileLines options q := by
  induction segs generalizing i with
  | nil => simp [originInserts, atPlace]
  | cons seg segs ih =>
    have hseg : atPlace fileLines ((seg.inserted fileLines options).mapIdx fun k p =>
      (p.1, .payload i k, p.2)) q = [] ↔
        ¬ seg.InsertsAt fileLines options q := by
      rw [List.eq_nil_iff_forall_not_mem]
      simp only [mem_atPlace, List.mem_mapIdx, Segment.InsertsAt, not_exists, not_and]
      constructor
      · intro h p hp
        obtain ⟨k, hk, rfl⟩ := List.mem_iff_getElem.mp hp
        exact h _ _ ⟨k, hk, rfl⟩
      · rintro h x c ⟨k, hk, heq⟩
        cases heq
        exact h _ (List.getElem_mem hk)
    rw [originInserts, atPlace_append, List.append_eq_nil_iff, hseg, ih, List.forall_mem_cons]

section

variable {before after : List Segment} {g : PureInsertGroup} {result : PureInsertAbsorbResult}

theorem atPlace_batchInserts (hsegs : segments edits = before ++ .pureInsert g :: after)
    (hresult : tryAbsorbPureInsertGroup g fileLines options.autoDropPureInsertDuplicates = result)
    (q : Place) :
    atPlace fileLines (batchInserts edits fileLines options) q =
      atPlace fileLines (originInserts fileLines options 0 before) q ++
        ((if g.cursor.place fileLines = q
          then keptOrigins before.length result.keptPayload else []) ++
          atPlace fileLines (originInserts fileLines options (before.length + 1) after) q) := by
  have hkept : atPlace fileLines
      (((Segment.pureInsert g).inserted fileLines options).mapIdx fun k p =>
        ((p.1, .payload before.length k, p.2) : Cursor × OriginLine)) q =
      if g.cursor.place fileLines = q then keptOrigins before.length result.keptPayload else [] := by
    have hmap : (((Segment.pureInsert g).inserted fileLines options).mapIdx fun k p =>
        ((p.1, .payload before.length k, p.2) : Cursor × OriginLine)) =
        (keptOrigins before.length result.keptPayload).map (g.cursor, ·) := by
      rw [Segment.inserted, hresult]
      apply List.ext_getElem <;> simp [keptOrigins]
    rw [hmap, atPlace, List.filter_map, List.map_map]
    by_cases hq : g.cursor.place fileLines = q <;> simp [hq, Function.comp_def]
  rw [batchInserts, hsegs, originInserts_append, Nat.zero_add, originInserts, atPlace_append,
    atPlace_append, hkept]

theorem place_cases {c : Cursor}
    (hc : ∀ a, c.anchor? = some a → 1 ≤ a.line ∧ a.line ≤ fileLines.length) :
    (c = .bof ∧ pureInsertNeighborhood c fileLines = 0) ∨
      (c.place fileLines = .line (pureInsertNeighborhood c fileLines + 1) ∧
        pureInsertNeighborhood c fileLines < fileLines.length) ∨
      (c.place fileLines = .stop ∧ pureInsertNeighborhood c fileLines = fileLines.length) := by
  cases c with
  | bof => exact .inl ⟨rfl, rfl⟩
  | eof => exact .inr (.inr ⟨rfl, rfl⟩)
  | beforeAnchor a =>
    have := hc a rfl
    refine .inr (.inl ⟨?_, ?_⟩)
    · simp only [Cursor.place, pureInsertNeighborhood, Place.line.injEq]
      omega
    · simp only [pureInsertNeighborhood]
      omega
  | afterAnchor a =>
    have := hc a rfl
    by_cases hlast : fileLines.length ≤ a.line
    · exact .inr (.inr ⟨by simp [Cursor.place, hlast], by simp only [pureInsertNeighborhood]; omega⟩)
    · exact .inr (.inl ⟨by simp [Cursor.place, hlast, pureInsertNeighborhood], by simp only [pureInsertNeighborhood]; omega⟩)

theorem gapLines_of_segment (hpos : 1 ≤ fileLines.length)
    (hsegs : segments edits = before ++ .pureInsert g :: after)
    (hresult : tryAbsorbPureInsertGroup g fileLines options.autoDropPureInsertDuplicates = result)
    (hc : ∀ a, g.cursor.anchor? = some a → 1 ≤ a.line ∧ a.line ≤ fileLines.length) :
    ∃ ps, gapLines edits fileLines options (pureInsertNeighborhood g.cursor fileLines) =
        ps ++ (keptOrigins before.length result.keptPayload ++
          (atPlace fileLines (originInserts fileLines options (before.length + 1) after)
            (g.cursor.place fileLines) ++
            if g.cursor = .bof then atPlace fileLines (batchInserts edits fileLines options)
              (.line 1) else [])) ∧
      (0 < pureInsertNeighborhood g.cursor fileLines →
        ps = atPlace fileLines (originInserts fileLines options 0 before)
          (g.cursor.place fileLines)) := by
  have hplace := atPlace_batchInserts hsegs hresult (g.cursor.place fileLines)
  rw [if_pos rfl] at hplace
  rcases place_cases hc with ⟨hbof, habove⟩ | ⟨hline, habove⟩ | ⟨hstop, habove⟩
  · have hstart : g.cursor.place fileLines = .start := by rw [hbof]; rfl
    refine ⟨atPlace fileLines (originInserts fileLines options 0 before) (g.cursor.place fileLines),
      ?_, fun _ => rfl⟩
    rw [hstart] at hplace ⊢
    rw [gapLines, habove, if_pos rfl, if_pos (by omega), if_pos hbof, hplace]
    simp
  · have hbof : g.cursor ≠ .bof := by
      intro h
      rw [h] at hline
      cases hline
    rw [gapLines, if_pos habove, if_neg hbof, ← hline, hplace]
    by_cases hzero : pureInsertNeighborhood g.cursor fileLines = 0
    · exact ⟨atPlace fileLines (batchInserts edits fileLines options) .start ++
        atPlace fileLines (originInserts fileLines options 0 before) (g.cursor.place fileLines), by
        simp [hzero], fun h => absurd hzero (by omega)⟩
    · exact ⟨_, by simp [hzero], fun _ => rfl⟩
  · have hbof : g.cursor ≠ .bof := by
      intro h
      rw [h] at hstop
      cases hstop
    have hzero : fileLines.length ≠ 0 := by omega
    rw [gapLines, habove, if_neg (lt_irrefl _), if_neg hbof, ← hstop, hplace]
    exact ⟨_, by simp [hzero], fun _ => rfl⟩

theorem absorbedLeading_le
    (hresult : tryAbsorbPureInsertGroup g fileLines options.autoDropPureInsertDuplicates = result) :
    result.absorbedLeading ≤ pureInsertNeighborhood g.cursor fileLines := by
  rw [← hresult]
  have :=
    (absorbedLeading_repeats g.cursor g.payload fileLines (pureInsertNeighborhood g.cursor fileLines)
    options.autoDropPureInsertDuplicates).lt_start
  simp only [tryAbsorbPureInsertGroup]
  omega

theorem add_absorbedTrailing_le
    (hresult : tryAbsorbPureInsertGroup g fileLines options.autoDropPureInsertDuplicates = result)
    (habove : pureInsertNeighborhood g.cursor fileLines ≤ fileLines.length) :
    pureInsertNeighborhood g.cursor fileLines + result.absorbedTrailing ≤ fileLines.length := by
  rw [← hresult]
  have :=
    (absorbedTrailing_repeats g.cursor (g.payload.drop (absorbedLeading g.cursor g.payload fileLines
      (pureInsertNeighborhood g.cursor fileLines) options.autoDropPureInsertDuplicates)) fileLines
    (pureInsertNeighborhood g.cursor fileLines) options.autoDropPureInsertDuplicates).le_file
  simp only [tryAbsorbPureInsertGroup]
  omega

theorem map_filesFrom (lo count : Nat) :
    (filesFrom fileLines lo count).map Prod.snd = block (lineAt fileLines) lo count := by
  simp [filesFrom, block, Function.comp_def]

theorem map_blockOrigins (segment : Nat)
    (hresult : tryAbsorbPureInsertGroup g fileLines options.autoDropPureInsertDuplicates = result) :
    (blockOrigins fileLines segment (pureInsertNeighborhood g.cursor fileLines)
      result).map Prod.snd = g.payload := by
  have hle := absorbedLeading_le hresult
  subst hresult
  have hlead :=
    absorbedLeading_repeats g.cursor g.payload fileLines (pureInsertNeighborhood g.cursor fileLines)
    options.autoDropPureInsertDuplicates
  have htrail :=
    absorbedTrailing_repeats g.cursor (g.payload.drop (absorbedLeading g.cursor g.payload fileLines
      (pureInsertNeighborhood g.cursor fileLines) options.autoDropPureInsertDuplicates)) fileLines
    (pureInsertNeighborhood g.cursor fileLines) options.autoDropPureInsertDuplicates
  have hkept : ∀ texts : List String, (keptOrigins segment texts).map Prod.snd = texts := by
    intro texts
    apply List.ext_getElem <;> simp [keptOrigins]
  simp only [tryAbsorbPureInsertGroup] at hle
  simp only [blockOrigins, tryAbsorbPureInsertGroup, List.map_append, map_filesFrom, hkept]
  rw [← Nat.sub_add_comm hle, ← hlead.take_eq, ← htrail.drop_eq, List.append_assoc,
    List.take_append_drop, List.take_append_drop]

theorem getLast?_splicedOrigins (hpos : 1 ≤ fileLines.length)
    (hkept : fileLine edits fileLines fileLines.length =
      [(.file fileLines.length, lineAt fileLines fileLines.length)]) :
    (splicedOrigins edits fileLines options).getLast? = some
    (.file fileLines.length, lineAt fileLines fileLines.length) := by
  rw [splicedOrigins, range'_split hpos le_rfl, Nat.sub_self, List.range'_zero, List.flatMap_append,
    List.flatMap_cons, List.flatMap_nil, hkept]
  simp

theorem atPlace_ne_nil_iff {q : Place} :
    atPlace fileLines (batchInserts edits fileLines options) q ≠ [] ↔
      ∃ seg ∈ segments edits, seg.InsertsAt fileLines options q := by
  rw [ne_eq, batchInserts, atPlace_originInserts_eq_nil]
  push Not
  rfl

theorem block_at_end (hpos : 1 ≤ fileLines.length)
    (hsegs : segments edits = before ++ .pureInsert g :: after)
    (hresult : tryAbsorbPureInsertGroup g fileLines options.autoDropPureInsertDuplicates = result)
    (hc : ∀ a, g.cursor.anchor? = some a → 1 ≤ a.line ∧ a.line ≤ fileLines.length)
    (habsorbs : 0 < result.absorbedLeading ∨ 0 < result.absorbedTrailing) {z : OriginLine}
    (hz : (splicedOrigins edits fileLines options).getLast? = some z)
    (hsub : blockOrigins fileLines before.length (pureInsertNeighborhood g.cursor fileLines) result ⊆
      orderedOrigins edits fileLines options) {x : OriginLine}
    (hx : x ∈ blockOrigins fileLines before.length
      (pureInsertNeighborhood g.cursor fileLines) result)
    (hxstop : x ∈ atPlace fileLines (batchInserts edits fileLines options) .stop) :
    z ∈ blockOrigins fileLines before.length (pureInsertNeighborhood g.cursor fileLines) result ∧
      ∀ y ∈ (blockOrigins fileLines before.length (pureInsertNeighborhood g.cursor fileLines)
        result).getLast?, y ∈ atPlace fileLines (batchInserts edits fileLines options) .stop := by
  have hplace := atPlace_batchInserts hsegs hresult (g.cursor.place fileLines)
  rw [if_pos rfl] at hplace
  have hfile : ∀ lo count, x ∉ filesFrom fileLines lo count := by
    intro lo count hmem
    obtain ⟨l, -, -, rfl⟩ := mem_filesFrom.mp hmem
    obtain ⟨s, k, hs⟩ := payload_of_mem_atPlace hxstop
    cases hs
  have hxkept : x ∈ keptOrigins before.length result.keptPayload := by
    simp only [blockOrigins, List.mem_append, hfile, false_or, or_false] at hx
    exact hx
  have hkeptAt : ∀ y ∈ keptOrigins before.length result.keptPayload,
      y ∈ atPlace fileLines (batchInserts edits fileLines options) (g.cursor.place fileLines) := by
    intro y hy
    rw [hplace]
    simp [hy]
  have hstop : g.cursor.place fileLines = .stop := place_unique (hkeptAt x hxkept) hxstop
  have habove : pureInsertNeighborhood g.cursor fileLines = fileLines.length := by
    rcases place_cases hc with ⟨hbof, -⟩ | ⟨hline, -⟩ | ⟨-, habove⟩
    · rw [hbof] at hstop
      cases hstop
    · rw [hline] at hstop
      cases hstop
    · exact habove
  have htrail : result.absorbedTrailing = 0 := by
    have := add_absorbedTrailing_le hresult (by omega)
    omega
  have hlead : 0 < result.absorbedLeading := habsorbs.resolve_right (by omega)
  have hlast : (.file fileLines.length, lineAt fileLines fileLines.length) ∈
      blockOrigins fileLines before.length (pureInsertNeighborhood g.cursor fileLines) result := by
    have hle := absorbedLeading_le hresult
    simp only [blockOrigins, List.mem_append]
    exact .inl (.inl (mem_filesFrom.mpr ⟨_, by omega, by omega, rfl⟩))
  constructor
  · have hkept := kept_of_mem_orderedOrigins (hsub hlast)
    rw [← Option.some.inj ((getLast?_splicedOrigins hpos hkept).symm.trans hz)]
    exact hlast
  · intro y hy
    have hne : keptOrigins before.length result.keptPayload ≠ [] := List.ne_nil_of_mem hxkept
    rw [blockOrigins, htrail, filesFrom_zero, List.append_nil,
      List.getLast?_append_of_ne_nil _ hne] at hy
    rw [← hstop]
    exact hkeptAt y (List.mem_of_getLast? hy)

theorem infix_resultOrigins_iff (hpos : 1 ≤ fileLines.length)
    (hsegs : segments edits = before ++ .pureInsert g :: after)
    (hresult : tryAbsorbPureInsertGroup g fileLines options.autoDropPureInsertDuplicates = result)
    (hc : ∀ a, g.cursor.anchor? = some a → 1 ≤ a.line ∧ a.line ≤ fileLines.length)
    (habsorbs : 0 < result.absorbedLeading ∨ 0 < result.absorbedTrailing) :
    blockOrigins fileLines before.length (pureInsertNeighborhood g.cursor fileLines) result <:+:
        resultOrigins edits fileLines options ↔
      BlockUndisturbed edits fileLines options before after g.cursor
        (pureInsertNeighborhood g.cursor fileLines) result := by
  obtain ⟨ps, hgap, hps⟩ := gapLines_of_segment hpos hsegs hresult hc
  have habove : pureInsertNeighborhood g.cursor fileLines ≤ fileLines.length := by
    rcases place_cases hc with ⟨-, h⟩ | ⟨-, h⟩ | ⟨-, h⟩ <;> omega
  have hle := absorbedLeading_le hresult
  have htrail := add_absorbedTrailing_le hresult habove
  have hmid := infix_orderedOrigins_iff hle htrail hgap
  have hfile : ∃ x ∈ blockOrigins fileLines before.length
      (pureInsertNeighborhood g.cursor fileLines) result, x ∉
      atPlace fileLines (batchInserts edits fileLines options) .start ∧
        x ∉ atPlace fileLines (batchInserts edits fileLines options) .stop := by
    have hnot : ∀ l q, (.file l, lineAt fileLines l) ∉
        atPlace fileLines (batchInserts edits fileLines options) q := by
      intro l q hmem
      obtain ⟨s, k, hs⟩ := payload_of_mem_atPlace hmem
      cases hs
    simp only [blockOrigins, List.mem_append]
    rcases habsorbs with h | h
    · exact ⟨_, .inl (.inl (mem_filesFrom.mpr ⟨_, le_rfl, by omega, rfl⟩)), hnot _ _, hnot _ _⟩
    · exact ⟨_, .inr (mem_filesFrom.mpr ⟨_, le_rfl, by omega, rfl⟩), hnot _ _, hnot _ _⟩
  have hedges : blockOrigins fileLines before.length
      (pureInsertNeighborhood g.cursor fileLines) result <:+:
      resultOrigins edits fileLines options ↔ _ :=
    infix_insertOrigins_iff nodup_orderedOrigins hfile fun z hz hsub x hx hxstop =>
      block_at_end hpos hsegs hresult hc habsorbs hz hsub hx hxstop
  have hinside : ∀ l, 0 < l → l < fileLines.length → (gapLines edits fileLines options l = [] ↔
      ∀ seg ∈ segments edits, ¬ seg.InsertsAt fileLines options (.line (l + 1))) := by
    intro l h1 h2
    rw [gapLines, if_neg (by omega), if_pos h2, List.nil_append, batchInserts,
      atPlace_originInserts_eq_nil]
  have hqs : (atPlace fileLines (originInserts fileLines options (before.length + 1) after)
      (g.cursor.place fileLines) ++
      if g.cursor = .bof then atPlace fileLines (batchInserts edits fileLines options) (.line 1)
      else []) = [] ↔
      (∀ seg ∈ after, ¬ seg.InsertsAt fileLines options (g.cursor.place fileLines)) ∧
        (g.cursor = .bof → ∀ seg ∈ segments edits, ¬ seg.InsertsAt fileLines options (.line 1)) := by
    rw [List.append_eq_nil_iff, atPlace_originInserts_eq_nil]
    by_cases hbof : g.cursor = .bof <;> simp [hbof, batchInserts, atPlace_originInserts_eq_nil]
  rw [hedges, ← orderedOrigins, hmid, atPlace_ne_nil_iff, atPlace_ne_nil_iff, ← exists_or]
  constructor
  · rintro ⟨⟨hlines, hgaps, hlead, htrailing⟩, hplaceholder, hblank⟩
    refine ⟨fun l h1 h2 => fileLine_eq_iff.mp (hlines l h1 h2), fun l h1 h2 hne => ?_,
      fun h1 h2 => ?_,
      fun h1 h2 => hqs.mp (htrailing h1 h2), fun h =>
      hplaceholder (by simpa [and_or_left] using h), hblank⟩
    · exact (hinside l (by omega) (by omega)).mp (hgaps l h1 h2 hne)
    · have hnil := hlead h1 h2
      rwa [hps (by omega), atPlace_originInserts_eq_nil] at hnil
  · intro h
    refine ⟨⟨fun l h1 h2 => fileLine_eq_iff.mpr (h.kept l h1 h2), fun l h1 h2 hne => ?_,
      fun h1 h2 => ?_,
      fun h1 h2 => hqs.mpr (h.trailing h1 h2)⟩, fun hex =>
      h.placeholder (by simpa [and_or_left] using hex), h.blank⟩
    · exact (hinside l (by omega) (by omega)).mpr (h.inside l h1 h2 hne)
    · rw [hps (by omega), atPlace_originInserts_eq_nil]
      exact h.leading h1 h2

end

end

theorem cursor_inRange_of_segment {edits : List Edit} {fileLines : List String}
    (hrange : AnchorsInRange edits fileLines) {g : PureInsertGroup}
    (hg : .pureInsert g ∈ segments edits) :
    ∀ a, g.cursor.anchor? = some a → 1 ≤ a.line ∧ a.line ≤ fileLines.length := by
  obtain ⟨es, hfind⟩ := found_of_mem_segments hg
  obtain ⟨-, -, hmembers, hne⟩ := findPureInsertGroup_spec hfind
  obtain ⟨e, es', hes⟩ := List.exists_cons_of_ne_nil hne
  have he : e ∈ g.members := by simp [hes]
  have hmem := members_subset_of_mem_segments hg he
  obtain ⟨t, i, rfl⟩ := Edit.insert_of_isPureInsert (hmembers e he)
  exact hrange _ hmem

/-- A pure insert that drops payload lines: the matched lines of the file and the kept payload are
the payload as written, and they stand in the result in one piece exactly if no other op disturbs
them. -/
theorem dropped_payload_in_result_iff (text : String) (edits : List Edit) (options : ApplyOptions)
    (hvalid : validateHashlineAnchors edits (splitLines text) = .ok []) (before after : List Segment)
    (g : PureInsertGroup) (hsegs : segments edits = before ++ .pureInsert g :: after)
    (result : PureInsertAbsorbResult)
    (hresult : tryAbsorbPureInsertGroup g (splitLines text) options.autoDropPureInsertDuplicates =
    result)
    (habsorbs : 0 < result.absorbedLeading ∨ 0 < result.absorbedTrailing) :
    ∃ r, applyHashlineEdits text edits options = .ok r ∧
      r.lines = joinLines ((resultOrigins edits (splitLines text) options).map Prod.snd) ∧
      (blockOrigins (splitLines text) before.length
        (pureInsertNeighborhood g.cursor (splitLines text)) result).map
        Prod.snd = g.payload ∧
      (blockOrigins (splitLines text) before.length
        (pureInsertNeighborhood g.cursor (splitLines text)) result <:+:
          resultOrigins edits (splitLines text) options ↔
        BlockUndisturbed edits (splitLines text) options before after g.cursor
          (pureInsertNeighborhood g.cursor (splitLines text)) result) := by
  have hrange := anchorsInRange_of_validate hvalid
  obtain ⟨r, hr, hlines⟩ := applyHashlineEdits_ok hvalid options
  have hpos : 1 ≤ (splitLines text).length := List.length_pos_of_ne_nil (splitLines_ne_nil text)
  refine ⟨r, hr, by rw [map_resultOrigins hrange, hlines], map_blockOrigins _ hresult, ?_⟩
  exact infix_resultOrigins_iff hpos hsegs hresult
    (cursor_inRange_of_segment hrange (by simp [hsegs])) habsorbs

def echoInsert : PureInsertGroup where
  sourceLineNum := 1
  cursor := .beforeAnchor ⟨3, "zm"⟩
  payload := ["\x7d", "b"]
  members :=
    [.insert (.beforeAnchor ⟨3, "zm"⟩) "\x7d" 1 0, .insert (.beforeAnchor ⟨3, "zm"⟩) "b" 1 1]
  rest := []

theorem dropped_brace_in_result :
    ∃ r, applyHashlineEdits "a\n\x7d\nz" echoInsert.members {} = .ok r ∧
      BlockUndisturbed echoInsert.members (splitLines "a\n\x7d\nz") {} [] [] echoInsert.cursor 2
        ⟨["b"], 1, 0⟩ := by
  obtain ⟨r, hr, -, -, hiff⟩ :=
    dropped_payload_in_result_iff "a\n\x7d\nz" echoInsert.members {} (by decide +kernel) [] []
    echoInsert (by decide +kernel) ⟨["b"], 1, 0⟩ (by decide +kernel) (by decide +kernel)
  exact ⟨r, hr, hiff.mp (by decide +kernel)⟩

theorem deleted_match_loses_brace :
    validateHashlineAnchors (echoInsert.members ++ [.delete ⟨2, "rk"⟩ 2 2])
      (splitLines "a\n\x7d\nz") = .ok [] ∧
      segments (echoInsert.members ++ [.delete ⟨2, "rk"⟩ 2 2]) =
        [.pureInsert { echoInsert with
          rest := [.delete ⟨2, "rk"⟩ 2 2] }, .single (.delete ⟨2, "rk"⟩ 2 2)] ∧
      tryAbsorbPureInsertGroup { echoInsert with
        rest := [.delete ⟨2, "rk"⟩ 2 2] } (splitLines "a\n\x7d\nz") false =
        ⟨["b"], 1, 0⟩ ∧
      (applyHashlineEdits "a\n\x7d\nz" (echoInsert.members ++ [.delete ⟨2, "rk"⟩ 2 2]) {}).map
        ApplyResult.lines =
        .ok "a\nb\nz" ∧
      "\x7d" ∉ splitLines "a\nb\nz" := by
  decide +kernel

end JevCode.Hashline
