import JevCode.Edit.LineDiffSearch

namespace JevCode.Edit.LineDiff

open JevCode.Data

def cutLines : Bytes → List Bytes
  | [] => []
  | b :: rest =>
    if b = lineFeed then [b] :: cutLines rest
    else
      match cutLines rest with
      | [] => [[b]]
      | line :: lines => (b :: line) :: lines

section

variable {line : Bytes}

theorem cutLines_append_lineFeed (h : lineFeed ∉ line) (rest : Bytes) :
    cutLines (line ++ lineFeed :: rest) = (line ++ [lineFeed]) :: cutLines rest := by
  induction line with
  | nil => rw [List.nil_append, cutLines, if_pos rfl, List.nil_append]
  | cons b line ih =>
    obtain ⟨hb, hline⟩ := not_or.mp (List.mem_cons.not.mp h)
    rw [List.cons_append, cutLines, if_neg (Ne.symm hb), ih hline, List.cons_append]

theorem cutLines_of_notMem (h : lineFeed ∉ line) :
    cutLines line = if line = [] then [] else [line] := by
  induction line with
  | nil => rfl
  | cons b line ih =>
    obtain ⟨hb, hline⟩ := not_or.mp (List.mem_cons.not.mp h)
    rw [cutLines, if_neg (Ne.symm hb), ih hline, if_neg (List.cons_ne_nil _ _)]
    cases line with
    | nil => rfl
    | cons c line => rw [if_neg (List.cons_ne_nil _ _)]

def Terminated (line : Bytes) : Prop := ∃ content, line = content ++ [lineFeed] ∧ lineFeed ∉ content

def LineTokens : List Bytes → Prop
  | [] => True
  | [line] => Terminated line ∨ line ≠ [] ∧ lineFeed ∉ line
  | line :: next :: lines => Terminated line ∧ LineTokens (next :: lines)

theorem cutLines_flatten {lines : List Bytes} (h : LineTokens lines) :
    cutLines lines.flatten = lines := by
  induction lines with
  | nil => rfl
  | cons line lines ih =>
    cases lines with
    | nil =>
      rw [List.flatten_singleton]
      obtain ⟨content, rfl, hcontent⟩ | ⟨hne, hline⟩ := h
      · rw [cutLines_append_lineFeed hcontent, cutLines]
      · rw [cutLines_of_notMem hline, if_neg hne]
    | cons next lines =>
      obtain ⟨⟨content, rfl, hcontent⟩, hrest⟩ := h
      rw [List.flatten_cons, List.append_assoc, List.singleton_append,
        cutLines_append_lineFeed hcontent, ih hrest]

theorem LineTokens.tail {lines : List Bytes} (h : LineTokens (line :: lines)) :
    LineTokens lines := by
  cases lines with
  | nil => trivial
  | cons next lines => exact h.2

theorem LineTokens.of_append {lines more : List Bytes} (h : LineTokens (lines ++ more)) :
    LineTokens lines := by
  induction lines with
  | nil => trivial
  | cons line lines ih =>
    cases lines with
    | nil =>
      cases more with
      | nil => exact h
      | cons next more => exact .inl h.1
    | cons next lines => exact ⟨h.1, ih h.2⟩

theorem LineTokens.of_inside {lines more : List Bytes} (h : LineTokens more)
    (hinside : lines <:+: more) : LineTokens lines := by
  obtain ⟨before, after, rfl⟩ := hinside
  have hdrop : LineTokens (lines ++ after) := by
    induction before with
    | nil => rwa [List.append_assoc, List.nil_append] at h
    | cons line before ih => exact ih h.tail
  exact hdrop.of_append

theorem lineTokens_cutLines (bytes : Bytes) :
    LineTokens (cutLines bytes) ∧ (cutLines bytes).flatten = bytes := by
  induction bytes with
  | nil => exact ⟨trivial, rfl⟩
  | cons b rest ih =>
    rw [cutLines]
    split
    next hb =>
      have hterminated : Terminated [b] := ⟨[], by rw [hb]; rfl, List.not_mem_nil⟩
      refine ⟨?_, by rw [List.flatten_cons, ih.2, List.singleton_append]⟩
      cases hrest : cutLines rest with
      | nil => exact .inl hterminated
      | cons line lines => exact ⟨hterminated, hrest ▸ ih.1⟩
    next hb =>
      cases hrest : cutLines rest with
      | nil =>
        rw [hrest] at ih
        refine ⟨.inr ⟨List.cons_ne_nil _ _, ?_⟩, by rw [← ih.2]; rfl⟩
        rw [List.mem_singleton]
        exact Ne.symm hb
      | cons line lines =>
        rw [hrest] at ih
        refine ⟨?_, by rw [← ih.2]; rfl⟩
        have hcons : Terminated line → Terminated (b :: line) := by
          rintro ⟨content, rfl, hcontent⟩
          refine ⟨b :: content, rfl, ?_⟩
          rw [List.mem_cons, not_or]
          exact ⟨Ne.symm hb, hcontent⟩
        cases lines with
        | nil =>
          obtain hline | ⟨hne, hline⟩ := ih.1
          · exact .inl (hcons hline)
          · refine .inr ⟨List.cons_ne_nil _ _, ?_⟩
            rw [List.mem_cons, not_or]
            exact ⟨Ne.symm hb, hline⟩
        | cons next lines => exact ⟨hcons ih.1.1, ih.1.2⟩

end

def mergedFrom (bytes : Bytes) : Nat → Nat → Nat → List Range
  | rounds + 1, last, i =>
    if i < bytes.length then
      if 0 < sepLen bytes i then (last, i + sepLen bytes i) ::
        mergedFrom bytes rounds (i + sepLen bytes i) (i + sepLen bytes i)
      else mergedFrom bytes rounds last (i + 1)
    else [(last, bytes.length)]
  | 0, last, _ => [(last, bytes.length)]

theorem foldl_mergeRange_pair (ret : List Range) (a b c d k : Nat) (hk : k % 2 = 0)
    (rest : List Range) :
    (((a, b) :: (c, d) :: rest).zipIdx k).foldl mergeRange ret =
    (rest.zipIdx (k + 2)).foldl mergeRange (ret ++ [(a, d)]) := by
  rw [List.zipIdx_cons, List.zipIdx_cons, List.foldl_cons, List.foldl_cons]
  congr 1
  rw [mergeRange, mergeRange]
  simp only [hk, Nat.zero_ne_one, if_false]
  rw [if_pos (by omega), List.getLast?_append, List.getLast?_singleton]
  simp

theorem splitFrom_spec (bytes : Bytes) (rounds last i : Nat) :
    ∃ init merged final, splitFrom bytes rounds last i = init ++ [(final, bytes.length)] ∧
      mergedFrom bytes rounds last i = merged ++ [(final, bytes.length)] ∧ init.length % 2 = 0 ∧
      ∀ ret k, k % 2 = 0 → (init.zipIdx k).foldl mergeRange ret = ret ++ merged := by
  induction rounds generalizing last i with
  | zero => exact ⟨[], [], last, rfl, rfl, rfl, fun ret _ _ => (List.append_nil ret).symm⟩
  | succ rounds ih =>
    rw [splitFrom, mergedFrom]
    split
    next =>
      split
      next =>
        obtain ⟨init, merged, final, hsplit, hmerged, hlength, hfold⟩ :=
          ih (i + sepLen bytes i) (i + sepLen bytes i)
        refine ⟨_ :: _ :: init, _ :: merged, final, by rw [hsplit]; rfl, by rw [hmerged]; rfl, ?_,
          fun ret k hk => ?_⟩
        · rw [List.length_cons, List.length_cons]
          omega
        · rw [foldl_mergeRange_pair _ _ _ _ _ _ hk, hfold _ _ (by omega), List.append_assoc,
            List.singleton_append]
      next => exact ih last (i + 1)
    next => exact ⟨[], [], last, rfl, rfl, rfl, fun ret _ _ => (List.append_nil ret).symm⟩

theorem tokenizeRanges_eq (value : Bytes) :
    tokenizeRanges value = (mergedFrom value value.length 0 0).filter fun range =>
      range.1 ≠ range.2 := by
  obtain ⟨init, merged, final, hsplit, hmerged, hlength, hfold⟩ :=
    splitFrom_spec value value.length 0 0
  rw [tokenizeRanges, hsplit, hmerged, popFinalEmpty, List.getLast?_append, List.getLast?_singleton]
  simp only [Option.some_or, Option.any_some, decide_eq_true_eq]
  by_cases hempty : final = value.length
  · rw [if_pos hempty, List.dropLast_concat, hfold [] 0 rfl, List.nil_append, List.filter_append]
    simp [hempty]
  · rw [if_neg hempty, List.zipIdx_append, List.foldl_append, hfold [] 0 rfl, Nat.zero_add]
    simp [mergeRange, hlength]

theorem take_drop_succ {bytes : Bytes} {last i : Nat} {b : UInt8} (hlast : last ≤ i)
    (hb : bytes[i]? = some b) :
    (bytes.drop last).take (i + 1 - last) = (bytes.drop last).take (i - last) ++ [b] := by
  have hget : (bytes.drop last)[i - last]? = some b := by
    rw [List.getElem?_drop, show last + (i - last) = i by omega, hb]
  rw [show i + 1 - last = i - last + 1 by omega, List.take_add_one, hget]
  rfl

theorem final_line {bytes : Bytes} {last : Nat} (hlast : last ≤ bytes.length)
    (h : lineFeed ∉ bytes.drop last) :
    ([(last, bytes.length)].filter fun range => range.1 ≠ range.2).map (slice bytes) = cutLines
    (bytes.drop last) := by
  rw [cutLines_of_notMem h]
  by_cases hempty : last = bytes.length
  · simp [hempty]
  · have hne : bytes.drop last ≠ [] := by
      rw [Ne, List.drop_eq_nil_iff]
      omega
    have hslice : slice bytes (last, bytes.length) = bytes.drop last :=
      List.take_of_length_le (by rw [List.length_drop])
    rw [if_neg hne, List.filter_cons, if_pos (by simpa using hempty), List.filter_nil,
      List.map_singleton, hslice]

theorem mergedFrom_lines {bytes : Bytes} {rounds last i : Nat} (hlast : last ≤ i)
    (hi : i ≤ bytes.length) (hrounds : bytes.length ≤ i + rounds)
    (hcontent : lineFeed ∉ (bytes.drop last).take (i - last)) :
    ((mergedFrom bytes rounds last i).filter fun range => range.1 ≠ range.2).map
    (slice bytes) = cutLines (bytes.drop last) := by
  have hend (hend : bytes.length ≤ i) : lineFeed ∉ bytes.drop last := by
    rwa [List.take_of_length_le (by rw [List.length_drop]; omega)] at hcontent
  induction rounds generalizing last i with
  | zero => exact final_line (by omega) (hend (by omega))
  | succ rounds ih =>
    rw [mergedFrom]
    split
    next hlt =>
      split
      next hsep =>
        obtain ⟨content, hline, hnot, hle⟩ : ∃ content,
            (bytes.drop last).take (i + sepLen bytes i - last) = content ++ [lineFeed] ∧
            lineFeed ∉ content ∧
              i + sepLen bytes i ≤ bytes.length := by
          rw [sepLen] at hsep ⊢
          split at hsep
          next hfeed =>
            rw [if_pos hfeed]
            exact ⟨_, take_drop_succ hlast hfeed, hcontent, hlt⟩
          next hfeed =>
            rw [if_neg hfeed]
            split at hsep
            next hpair =>
              rw [if_pos hpair]
              refine ⟨_, take_drop_succ (Nat.le_succ_of_le hlast) hpair.2, ?_,
                (List.getElem?_eq_some_iff.mp hpair.2).1⟩
              rw [take_drop_succ hlast hpair.1, List.mem_append, List.mem_singleton, not_or]
              exact ⟨hcontent, by decide⟩
            next => omega
        have hdrop : bytes.drop last = content ++ lineFeed :: bytes.drop (i + sepLen bytes i) := by
          rw [← List.take_append_drop (i + sepLen bytes i - last) (bytes.drop last), hline,
            List.drop_drop, List.append_assoc, List.singleton_append]
          congr 3
          omega
        rw [List.filter_cons, if_pos (by simp; omega), List.map_cons, slice, hline, hdrop,
          cutLines_append_lineFeed hnot]
        have hnil : lineFeed ∉
            (bytes.drop (i + sepLen bytes i)).take (i + sepLen bytes i - (i + sepLen bytes i)) := by
          rw [Nat.sub_self, List.take_zero]
          exact List.not_mem_nil
        rw [ih (Nat.le_refl _) hle (by omega) hnil
          fun hend => by rw [List.drop_eq_nil_iff.mpr hend]; exact List.not_mem_nil]
      next hsep =>
        have hget : bytes[i]? = some bytes[i] := List.getElem?_eq_getElem hlt
        have hnext : lineFeed ∉ (bytes.drop last).take (i + 1 - last) := by
          rw [take_drop_succ hlast hget, List.mem_append, List.mem_singleton, not_or]
          refine ⟨hcontent, fun hfeed => hsep ?_⟩
          rw [sepLen, if_pos (hget.trans (congrArg some hfeed.symm))]
          exact Nat.one_pos
        refine ih (by omega) hlt (by omega) hnext fun hend => ?_
        rwa [List.take_of_length_le (by rw [List.length_drop]; omega)] at hnext
    next hge => exact final_line (by omega) (hend (by omega))

theorem tokens_eq_cutLines (value : Bytes) : tokens value = cutLines value := by
  rw [tokens, tokenizeRanges_eq]
  have h : ((mergedFrom value value.length 0 0).filter fun range => range.1 ≠ range.2).map
      (slice value) =
      cutLines (value.drop 0) :=
    mergedFrom_lines (Nat.le_refl _) (Nat.zero_le _) (Nat.le_add_left _ _) (by simp)
  rwa [List.drop_zero] at h

theorem tokens_flatten (value : Bytes) : (tokens value).flatten = value := by
  rw [tokens_eq_cutLines]
  exact (lineTokens_cutLines value).2

theorem tokens_of_run {value : Bytes} {lines : List Bytes} (h : lines <:+: tokens value) :
    tokens lines.flatten = lines := by
  rw [tokens_eq_cutLines] at h ⊢
  exact cutLines_flatten ((lineTokens_cutLines value).1.of_inside h)

theorem diffLines_groups (oldStr newStr : Bytes) :
    ∃ (comps : Array Comp) (last : Option Nat) (groups : List (LineDiffPart × List Bytes)),
      search (tokens oldStr) (tokens newStr) = .error (comps, last) ∧
      diffLines oldStr newStr = buildValues (tokens oldStr) (tokens newStr) last comps ∧
      diffLines oldStr newStr = groups.map (·.1) ∧
      Groups (tokens oldStr) (tokens newStr) groups (indels (tokens oldStr) (tokens newStr)) := by
  obtain ⟨comps, p, hsearch, hnode⟩ := search_finds (tokens oldStr) (tokens newStr)
  obtain ⟨groups, hvalues, hgroups⟩ := buildValues_groups hnode
  have hdiff : diffLines oldStr newStr =
      buildValues (tokens oldStr) (tokens newStr) p.last comps := by
    rw [diffLines, diffTokens, hsearch]
  exact ⟨comps, p.last, groups, hsearch, hdiff, hdiff.trans hvalues, hgroups⟩

theorem flatMap_value {groups : List (LineDiffPart × List Bytes)}
    (h : ∀ group ∈ groups, group.1.value = group.2.flatten) (keep : LineDiffPart → Bool) :
    ((groups.map (·.1)).filter keep).flatMap (·.value) =
    ((groups.filter (keep ·.1)).flatMap (·.2)).flatten := by
  induction groups with
  | nil => rfl
  | cons group groups ih =>
    obtain ⟨hgroup, hgroups⟩ := List.forall_mem_cons.mp h
    rw [List.map_cons, List.filter_cons, List.filter_cons]
    split
    next => rw [List.flatMap_cons, List.flatMap_cons, List.flatten_append, hgroup, ih hgroups]
    next => exact ih hgroups

/-- The diff always finds a path: its unchanged and removed parts are the old string, its unchanged
and added parts the new one, and every part is a run of lines. -/
theorem diffLines_spells_both (oldStr newStr : Bytes) :
    ∃ (comps : Array Comp) (last : Option Nat) (groups : List (LineDiffPart × List Bytes)),
      search (tokens oldStr) (tokens newStr) = .error (comps, last) ∧
      diffLines oldStr newStr = buildValues (tokens oldStr) (tokens newStr) last comps ∧
      ((diffLines oldStr newStr).filter (·.inOld)).flatMap (·.value) = oldStr ∧
      ((diffLines oldStr newStr).filter (·.inNew)).flatMap (·.value) = newStr ∧
      diffLines oldStr newStr = groups.map Prod.fst ∧
      (∀ group ∈ groups, group.1.value = group.2.flatten) ∧
      (groups.filter (·.1.inOld)).flatMap (·.2) = tokens oldStr ∧
      (groups.filter (·.1.inNew)).flatMap (·.2) = tokens newStr := by
  obtain ⟨comps, last, groups, hsearch, hvalues, hparts, hgroups⟩ := diffLines_groups oldStr newStr
  refine ⟨comps, last, groups, hsearch, hvalues, ?_, ?_, hparts, hgroups.value,
    hgroups.old, hgroups.new⟩
  · rw [hparts, flatMap_value hgroups.value, hgroups.old, tokens_flatten]
  · rw [hparts, flatMap_value hgroups.value, hgroups.new, tokens_flatten]

/-- The lines in the added and removed parts are those outside of a longest common subsequence. -/
theorem diffLines_minimal (oldStr newStr : Bytes) :
    ∃ common, IsLongestCommon common (tokens oldStr) (tokens newStr) ∧
      (((diffLines oldStr newStr).filter (·.isChange)).map fun part =>
        (tokens part.value).length).sum =
        (tokens oldStr).length + (tokens newStr).length - 2 * common.length := by
  obtain ⟨comps, last, groups, -, -, hparts, hgroups⟩ := diffLines_groups oldStr newStr
  obtain ⟨common, hleft, hright, hlength⟩ := exists_common (tokens oldStr) (tokens newStr)
  refine ⟨common, ⟨hleft, hright, fun other hl hr => ?_⟩, ?_⟩
  · have := indels_le_of_common hl hr
    omega
  have hrun : ∀ group ∈ groups, (tokens group.1.value).length = group.2.length := by
    intro group hgroup
    have hinside (keep : LineDiffPart → Bool) (hkeep : keep group.1 = true) :
        group.2 <:+: (groups.filter (keep ·.1)).flatMap (·.2) := by
      have hmem : group ∈ groups.filter (keep ·.1) := List.mem_filter.mpr ⟨hgroup, hkeep⟩
      obtain ⟨before, after, hsplit⟩ := List.append_of_mem hmem
      rw [hsplit, List.flatMap_append, List.flatMap_cons, ← List.append_assoc]
      exact ⟨_, _, rfl⟩
    rw [hgroups.value group hgroup]
    cases hold : group.1.inOld with
    | true => rw [tokens_of_run (hgroups.old ▸ hinside (·.inOld) hold)]
    | false =>
      have hnew : group.1.inNew = true := by
        simp only [LineDiffPart.inOld, LineDiffPart.inNew, Bool.or_eq_false_iff,
          Bool.not_eq_false'] at hold ⊢
        rw [hold.1, hold.2]
        rfl
      rw [tokens_of_run (hgroups.new ▸ hinside (·.inNew) hnew)]
  have hcount : (((diffLines oldStr newStr).filter (·.isChange)).map fun part =>
    (tokens part.value).length) =
      (groups.filter (·.1.isChange)).map (·.2.length) := by
    rw [hparts, List.filter_map, List.map_map]
    exact List.map_congr_left fun group hgroup => hrun group (List.mem_filter.mp hgroup).1
  rw [hcount, hgroups.changes]
  omega

end JevCode.Edit.LineDiff
