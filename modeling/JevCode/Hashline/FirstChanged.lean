import JevCode.Hashline.Boundary

namespace JevCode.Hashline

open JevCode.Text

def changedLines (edits : List Edit) (fileLines : List String) : List Nat :=
  let byLine := bucketAnchorEditsByLine (anchorEdits edits)
  let bofLines := edits.filterMap Edit.bofText?
  let spliced := spliceBuckets byLine (sortedLines byLine) fileLines
  (byLine.filter fun b => touchesBucket b.2).map Prod.fst ++ (if bofLines = [] then [] else [1]) ++
    (insertAtEnd (insertAtStart spliced bofLines) (edits.filterMap Edit.eofText?)).2.toList

section

variable {edits : List Edit}

theorem touchesBucket_of_mem {bucket : List IndexedEdit} {e : IndexedEdit} (he : e ∈ bucket) :
    touchesBucket bucket = true := by
  refine List.any_eq_true.mpr ⟨e, he, ?_⟩
  cases e.edit <;> rfl

theorem mem_touched_of_mem {e : Edit} (he : e ∈ edits) (hanchor : e.isAnchorEdit = true) :
    e.bucketLine ∈ ((bucketAnchorEditsByLine (anchorEdits edits)).filter fun b =>
      touchesBucket b.2).map Prod.fst := by
  obtain ⟨i, hi, rfl⟩ := List.mem_iff_getElem.mp he
  have hmem : (⟨edits[i], i⟩ : IndexedEdit) ∈ anchorEdits edits :=
    List.mem_filter.mpr ⟨List.mem_mapIdx.mpr ⟨i, hi, rfl⟩, hanchor⟩
  have hkey :=
    (mem_keys_bucketAnchorEditsByLine (anchorEdits edits) edits[i].bucketLine).mpr ⟨_, hmem, rfl⟩
  have hbucket := lookup_bucketAnchorEditsByLine (anchorEdits edits) edits[i].bucketLine
  obtain ⟨bucket, hlookup⟩ := Option.isSome_iff_exists.mp ((lookup_isSome_iff _ _).mpr hkey)
  rw [hlookup, Option.getD_some] at hbucket
  have hin : (⟨edits[i], i⟩ : IndexedEdit) ∈ bucket := by
    rw [hbucket]
    exact List.mem_filter.mpr ⟨hmem, by simp⟩
  refine List.mem_map.mpr ⟨(edits[i].bucketLine, bucket),
    List.mem_filter.mpr ⟨?_, touchesBucket_of_mem hin⟩, rfl⟩
  obtain ⟨pre, suf, heq, -⟩ := List.lookup_eq_some_iff.mp hlookup
  simp [heq]

theorem exists_of_mem_touched {l : Nat}
    (h : l ∈ ((bucketAnchorEditsByLine (anchorEdits edits)).filter fun b =>
      touchesBucket b.2).map Prod.fst) :
    ∃ e ∈ edits, e.isAnchorEdit = true ∧ e.bucketLine = l := by
  have hkey : l ∈ (bucketAnchorEditsByLine (anchorEdits edits)).map Prod.fst :=
    (List.filter_sublist.map Prod.fst).subset h
  obtain ⟨e, he, hl⟩ := (mem_keys_bucketAnchorEditsByLine _ _).mp hkey
  obtain ⟨hidx, hanchor⟩ := List.mem_filter.mp he
  obtain ⟨i, hi, rfl⟩ := List.mem_mapIdx.mp hidx
  exact ⟨_, List.getElem_mem hi, hanchor, hl⟩

theorem lineOutput_of_untouched {fileLines : List String} {l : Nat} (h1 : 1 ≤ l)
    (h : ∀ e ∈ edits, e.isAnchorEdit = true → e.bucketLine ≠ l) :
    lineOutput edits fileLines l = [lineAt fileLines l] := by
  have hnil : (edits.filter Edit.isAnchorEdit).filter (·.bucketLine = l) = [] := by
    rw [List.filter_eq_nil_iff]
    intro e he
    obtain ⟨hmem, hanchor⟩ := List.mem_filter.mp he
    simpa using h e hmem hanchor
  have hinserts := insertsAt_eq edits h1
  have hdeleted := isDeleted_eq edits l
  rw [hnil] at hinserts hdeleted
  rw [lineOutput, ← hinserts, ← hdeleted]
  rfl

theorem take_prefix_simultaneous {fileLines : List String} {k : Nat} (hk : k ≤ fileLines.length)
    (h : ∀ e ∈ edits, e.isAnchorEdit = true → k < e.bucketLine) :
    fileLines.take k <+: simultaneous edits fileLines := by
  have hsplit : List.range' 1 fileLines.length = List.range' 1 k ++
      List.range' (1 + k) (fileLines.length - k) := by
    rw [List.range'_append_1, Nat.add_sub_cancel' hk]
  have hkept : (List.range' 1 k).flatMap (lineOutput edits fileLines) = fileLines.take k := by
    have hlen : (fileLines.take k).length = k := by simp [hk]
    conv_rhs => rw [← map_lineAt (fileLines.take k), hlen, List.map_eq_flatMap]
    refine List.flatMap_congr fun l hl => ?_
    rw [List.mem_range'_1] at hl
    rw [lineOutput_of_untouched hl.1 fun e he hanchor => by have := h e he hanchor; omega,
      lineAt_take hl.1 (by omega) hk]
  rw [simultaneous, hsplit, List.flatMap_append, hkept]
  exact List.prefix_append _ _

theorem simultaneous_of_no_anchorEdits (fileLines : List String)
    (h : ∀ e ∈ edits, e.isAnchorEdit = true → False) : simultaneous edits fileLines = fileLines := by
  have hkept : fileLines.take fileLines.length <+: simultaneous edits fileLines :=
    take_prefix_simultaneous le_rfl fun e he hanchor => (h e he hanchor).elim
  have hlen : (simultaneous edits fileLines).length = fileLines.length := by
    have hout : (List.range' 1 fileLines.length).flatMap (lineOutput edits fileLines) =
        (List.range' 1 fileLines.length).flatMap fun l => [lineAt fileLines l] :=
      List.flatMap_congr fun l hl => lineOutput_of_untouched (List.mem_range'_1.mp hl).1
        fun e he hanchor => (h e he hanchor).elim
    rw [simultaneous, hout, ← List.map_eq_flatMap, map_lineAt]
  rw [List.take_length] at hkept
  exact (hkept.eq_of_length hlen.symm).symm

end

theorem take_prefix_insertAtEnd {xs lines : List String} {pos : Nat}
    (h : (insertAtEnd xs lines).2 = some pos) :
    1 ≤ pos ∧ pos ≤ xs.length + 1 ∧ xs.take (pos - 1) <+: (insertAtEnd xs lines).1 := by
  unfold insertAtEnd at h ⊢
  split at h
  · cases h
  split at h
  · rename_i hne hxs
    cases h
    simp [hne, hxs]
  · rename_i hne hxs
    cases h
    simp only [hne, hxs, if_false, Nat.add_sub_cancel, List.append_assoc]
    refine ⟨by omega, ?_, List.prefix_append _ _⟩
    split <;> omega

theorem insertAtEnd_of_none {xs lines : List String} (h : (insertAtEnd xs lines).2 = none) :
    (insertAtEnd xs lines).1 = xs ∧ lines = [] := by
  unfold insertAtEnd at h ⊢
  split
  · rename_i hlines
    exact ⟨rfl, hlines⟩
  · rename_i hne
    simp only [hne, if_false] at h
    split at h <;> cases h

section

variable {edits : List Edit} {fileLines : List String}

def appliedLines (edits : List Edit) (fileLines : List String) : List String × Option Nat :=
  insertAtEnd (insertAtStart (simultaneous edits fileLines) (edits.filterMap Edit.bofText?))
    (edits.filterMap Edit.eofText?)

variable (hrange : BucketsInRange edits fileLines)

include hrange

theorem mem_changedLines {l : Nat} :
    l ∈ changedLines edits fileLines ↔
      (∃ e ∈ edits, e.isAnchorEdit = true ∧ e.bucketLine = l) ∨
        (edits.filterMap Edit.bofText? ≠ [] ∧ l = 1) ∨
        (appliedLines edits fileLines).2 = some l := by
  simp only [changedLines, spliceBuckets_eq_simultaneous hrange, List.mem_append,
    or_assoc, appliedLines, Option.mem_toList]
  refine or_congr ⟨exists_of_mem_touched, ?_⟩ (or_congr ?_ Iff.rfl)
  · rintro ⟨e, he, hanchor, rfl⟩
    exact mem_touched_of_mem he hanchor
  · split <;> simp [*]

theorem take_prefix_appliedLines {f : Nat} (hmin : (changedLines edits fileLines).min? = some f) :
    f - 1 ≤ fileLines.length ∧ fileLines.take (f - 1) <+: (appliedLines edits fileLines).1 := by
  obtain ⟨hmem, hle⟩ := List.min?_eq_some_iff.mp hmin
  have hbuckets : ∀ e ∈ edits, e.isAnchorEdit = true → f ≤ e.bucketLine := fun e he hanchor =>
    hle _ ((mem_changedLines hrange).mpr (.inl ⟨e, he, hanchor, rfl⟩))
  by_cases hbof : edits.filterMap Edit.bofText? = []
  case neg =>
    have hf : f ≤ 1 := hle _ ((mem_changedLines hrange).mpr (.inr (.inl ⟨hbof, rfl⟩)))
    have hzero : f - 1 = 0 := by omega
    simp [hzero]
  have hstarted : appliedLines edits fileLines =
      insertAtEnd (simultaneous edits fileLines) (edits.filterMap Edit.eofText?) := by
    simp [appliedLines, insertAtStart, hbof]
  have hlen : f - 1 ≤ fileLines.length := by
    by_cases hsome : ∃ e ∈ edits, e.isAnchorEdit = true
    · obtain ⟨e, he, hanchor⟩ := hsome
      have := hbuckets e he hanchor
      have := (hrange e he hanchor).2
      omega
    · rcases (mem_changedLines hrange).mp hmem with ⟨e, he, hanchor, -⟩ | ⟨hne, -⟩ | hpos
      · exact absurd ⟨e, he, hanchor⟩ hsome
      · exact absurd hbof hne
      · rw [hstarted] at hpos
        have := (take_prefix_insertAtEnd hpos).2.1
        rw [simultaneous_of_no_anchorEdits fileLines fun e he hanchor =>
          hsome ⟨e, he, hanchor⟩] at this
        omega
  have hkept : fileLines.take (f - 1) <+: simultaneous edits fileLines := by
    by_cases hzero : f = 0
    · simp [hzero]
    · exact take_prefix_simultaneous hlen fun e he hanchor => by have := hbuckets e he hanchor; omega
  refine ⟨hlen, ?_⟩
  rw [hstarted]
  cases hpos : (insertAtEnd (simultaneous edits fileLines) (edits.filterMap Edit.eofText?)).2 with
  | none => rwa [(insertAtEnd_of_none hpos).1]
  | some pos =>
    have hf : f ≤ pos := hle _ ((mem_changedLines hrange).mpr (.inr (.inr (by rw [hstarted, hpos]))))
    refine List.IsPrefix.trans ?_ (take_prefix_insertAtEnd hpos).2.2
    exact List.prefix_take_iff.mpr ⟨hkept, by simp; omega⟩

theorem appliedLines_of_unchanged (hmin : (changedLines edits fileLines).min? = none) :
    (appliedLines edits fileLines).1 = fileLines := by
  have hnil : ∀ l, l ∉ changedLines edits fileLines := by simp [List.min?_eq_none_iff.mp hmin]
  have hbof : edits.filterMap Edit.bofText? = [] := by
    by_contra hne
    exact hnil 1 ((mem_changedLines hrange).mpr (.inr (.inl ⟨hne, rfl⟩)))
  have hspliced : simultaneous edits fileLines = fileLines :=
    simultaneous_of_no_anchorEdits fileLines fun e he hanchor =>
      hnil _ ((mem_changedLines hrange).mpr (.inl ⟨e, he, hanchor, rfl⟩))
  have hstarted : appliedLines edits fileLines =
      insertAtEnd fileLines (edits.filterMap Edit.eofText?) := by
    simp [appliedLines, insertAtStart, hbof, hspliced]
  have heof : (insertAtEnd fileLines (edits.filterMap Edit.eofText?)).2 = none := by
    by_contra hne
    obtain ⟨pos, hpos⟩ := Option.ne_none_iff_exists'.mp hne
    exact hnil pos ((mem_changedLines hrange).mpr (.inr (.inr (by rw [hstarted, hpos]))))
  rw [hstarted, (insertAtEnd_of_none heof).1]

end

theorem take_prefix_splitLines_joinLines {us xs : List String} (h : us <+: xs)
    (hus : ∀ u ∈ us, '\n' ∉ u.toList) :
    us <+: splitLines (joinLines xs) := by
  by_cases hxs : xs = []
  · subst hxs
    rw [List.prefix_nil.mp h]
    exact List.nil_prefix
  · obtain ⟨rest, rfl⟩ := h
    rw [splitLines_joinLines hxs, List.flatMap_append, flatMap_splitLines_of_notMem hus]
    exact List.prefix_append _ _

theorem applyHashlineEdits_eq_ok {text : String} {edits : List Edit} {options : ApplyOptions}
    {r : ApplyResult} (h : applyHashlineEdits text edits options = .ok r) :
    validateHashlineAnchors edits (splitLines text) = .ok [] ∧
      ((edits = [] ∧ r.lines = text ∧ r.firstChangedLine = none) ∨
        (r.lines = joinLines
          (appliedLines (absorbedEdits edits (splitLines text) options) (splitLines text)).1 ∧
          r.firstChangedLine =
            (changedLines (absorbedEdits edits (splitLines text) options)
            (splitLines text)).min?)) := by
  unfold applyHashlineEdits at h
  split at h
  · rename_i hnil
    cases h
    exact ⟨by rw [hnil]; rfl, .inl ⟨hnil, rfl, rfl⟩⟩
  · simp only [bind, Except.bind] at h
    split at h
    · cases h
    rename_i mismatches hvalid
    split at h
    · cases h
    rename_i hnone
    cases h
    have hnil : mismatches = [] := by simpa using hnone
    rw [hnil] at hvalid
    refine ⟨hvalid, .inr ⟨?_, rfl⟩⟩
    have hrange := bucketsInRange_absorb options (anchorsInRange_of_validate hvalid)
    exact congrArg joinLines (applyNormalized_lines hrange)

/-- `firstChangedLine` is sound: it is there when the text changed, and no line above it changed. -/
theorem firstChangedLine_sound (text : String) (edits : List Edit) (options : ApplyOptions)
    (r : ApplyResult) (h : applyHashlineEdits text edits options = .ok r) :
    (r.lines ≠ text → r.firstChangedLine.isSome) ∧
      ∀ f, r.firstChangedLine = some f → ∀ n, 1 ≤ n → n < f →
        ∃ line, (splitLines text)[n - 1]? = some line ∧
          (splitLines r.lines)[n - 1]? = some line := by
  obtain ⟨hvalid, ⟨-, hlines, hnone⟩ | ⟨hlines, hfirst⟩⟩ := applyHashlineEdits_eq_ok h
  · exact ⟨fun hne => absurd hlines hne, fun f hf => by rw [hnone] at hf; cases hf⟩
  have hrange : BucketsInRange (absorbedEdits edits (splitLines text) options) (splitLines text) :=
    bucketsInRange_absorb options (anchorsInRange_of_validate hvalid)
  constructor
  · intro hne
    by_contra hnone
    rw [Option.not_isSome_iff_eq_none, hfirst] at hnone
    rw [appliedLines_of_unchanged hrange hnone, joinLines_splitLines] at hlines
    exact hne hlines
  · intro f hf n h1 hn
    rw [hfirst] at hf
    obtain ⟨hlen, hkept⟩ := take_prefix_appliedLines hrange hf
    have hjoined := take_prefix_splitLines_joinLines hkept
      fun u hu => notMem_of_mem_splitLines (List.mem_of_mem_take hu)
    rw [← hlines] at hjoined
    have hlt : n - 1 < (splitLines text).length := by omega
    refine ⟨(splitLines text)[n - 1], List.getElem?_eq_getElem hlt, ?_⟩
    have hget := List.prefix_iff_getElem?.mp hjoined (n - 1) (by simp; omega)
    rw [hget, List.getElem_take]

theorem firstChangedLine_above_deleted_line :
    applyHashlineEdits "a\n\nb" [.delete ⟨3, "yo"⟩ 1 0, .insert .eof "x" 2 1] {} =
      .ok ⟨"a\nx\n", some 2, []⟩ ∧
      ∃ line, (splitLines "a\n\nb")[1 - 1]? = some line ∧
        (splitLines "a\nx\n")[1 - 1]? = some line := by
  have h : applyHashlineEdits "a\n\nb" [.delete ⟨3, "yo"⟩ 1 0, .insert .eof "x" 2 1] {} =
      .ok ⟨"a\nx\n", some 2, []⟩ := by decide +kernel
  exact ⟨h, (firstChangedLine_sound _ _ _ _ h).2 2 rfl 1 (by decide) (by decide)⟩

end JevCode.Hashline
