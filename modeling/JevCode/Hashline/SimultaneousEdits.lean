import JevCode.Hashline.Boundary

namespace JevCode.Hashline

open JevCode.Text

def Edit.textPlacedAt? (line : Nat) : Edit → Option String
  | .insert (.beforeAnchor a) t _ _ => if a.line = line then some t else none
  | .insert (.afterAnchor a) t _ _ => if a.line + 1 = line then some t else none
  | _ => none

/-- Every edit refers to the original file: a line stands behind the inserts at it, unless it is
deleted. -/
def editedTogether (edits : List Edit) (fileLines : List String) : List String :=
  (List.range' 1 fileLines.length).flatMap fun line =>
    edits.filterMap (Edit.textPlacedAt? line) ++ if isDeleted edits line then []
      else [lineAt fileLines line]

/-- The edit names a line, and is not an insert behind the last one. -/
def Edit.isInside (fileLines : List String) : Edit → Bool
  | .insert .bof _ _ _ | .insert .eof _ _ _ => false
  | .insert (.beforeAnchor _) _ _ _ => true
  | .insert (.afterAnchor a) _ _ _ => a.line ≠ fileLines.length
  | .delete _ _ _ => true

section

variable {fileLines : List String} {e : Edit}

theorem normalize_of_isInside (hinside : e.isInside fileLines = true)
    (hrange : ∀ a ∈ e.anchor?, a.line ≤ fileLines.length) :
    (e.normalize fileLines).bofText? = none ∧ (e.normalize fileLines).eofText? = none ∧
      ∀ line, (e.normalize fileLines).textBefore? line = e.textPlacedAt? line := by
  cases e with
  | delete a n i => exact ⟨rfl, rfl, fun line => rfl⟩
  | insert c t n i =>
    cases c with
    | bof => cases hinside
    | eof => cases hinside
    | beforeAnchor a => exact ⟨rfl, rfl, fun line => rfl⟩
    | afterAnchor a =>
      have hlast : a.line ≠ fileLines.length := of_decide_eq_true hinside
      have hle : a.line ≤ fileLines.length := hrange a rfl
      have hnext : Cursor.normalize fileLines (.afterAnchor a) =
          .beforeAnchor ⟨a.line + 1, computeLineHash (a.line + 1) (lineAt fileLines (a.line + 1))⟩ :=
        if_neg (by omega)
      rw [Edit.normalize, hnext]
      exact ⟨rfl, rfl, fun line => rfl⟩

end

section

variable {edits : List Edit} {fileLines : List String}
    (hinside : ∀ e ∈ edits, e.isInside fileLines = true)
  (hvalid : validateHashlineAnchors edits fileLines = .ok [])

include hinside hvalid

theorem normalize_of_validated {e : Edit} (he : e ∈ edits) :
    (e.normalize fileLines).bofText? = none ∧ (e.normalize fileLines).eofText? = none ∧
      ∀ line, (e.normalize fileLines).textBefore? line = e.textPlacedAt? line := by
  refine normalize_of_isInside (hinside e he) fun a ha => ?_
  exact (checkAnchor_eq_ok_nil.mp (validateHashlineAnchors_eq_ok_nil.mp hvalid e he a ha)).2.1

theorem simultaneous_normalize :
    simultaneous (edits.map (Edit.normalize fileLines)) fileLines =
      editedTogether edits fileLines := by
  have hinserts : ∀ line, insertsAt (edits.map (Edit.normalize fileLines)) line =
      edits.filterMap (Edit.textPlacedAt? line) := by
    intro line
    rw [insertsAt, List.filterMap_map]
    exact List.filterMap_congr fun e he => (normalize_of_validated hinside hvalid he).2.2 line
  have hdeleted : ∀ line, isDeleted (edits.map (Edit.normalize fileLines)) line =
      isDeleted edits line := by
    intro line
    rw [isDeleted, List.any_map]
    simp only [Function.comp_def, Edit.deletedLine?_normalize]
    rfl
  rw [simultaneous, editedTogether]
  refine List.flatMap_congr fun line _ => ?_
  rw [lineOutput, hinserts, hdeleted]

theorem resultLines_of_unabsorbed {options : ApplyOptions}
    (habsorb : (absorbReplacementBoundaryDuplicates edits fileLines options).1 = edits) :
    resultLines edits fileLines options = editedTogether edits fileLines := by
  have hbof : (edits.map (Edit.normalize fileLines)).filterMap Edit.bofText? = [] := by
    rw [List.filterMap_map, List.filterMap_eq_nil_iff]
    exact fun e he => (normalize_of_validated hinside hvalid he).1
  have heof : (edits.map (Edit.normalize fileLines)).filterMap Edit.eofText? = [] := by
    rw [List.filterMap_map, List.filterMap_eq_nil_iff]
    exact fun e he => (normalize_of_validated hinside hvalid he).2.1
  have hrange := bucketsInRange_absorb options (anchorsInRange_of_validate hvalid)
  rw [habsorb] at hrange
  rw [resultLines, habsorb, applyNormalized_lines hrange, hbof, heof,
    simultaneous_normalize hinside hvalid]
  rfl

end

theorem splicing_is_simultaneous {text : String} {edits : List Edit} {options : ApplyOptions}
    (hvalid : validateHashlineAnchors edits (splitLines text) = .ok [])
    (hinside : ∀ e ∈ edits, e.isInside (splitLines text) = true)
    (habsorb : (absorbReplacementBoundaryDuplicates edits (splitLines text) options).1 = edits) :
    ∃ result, applyHashlineEdits text edits options = .ok result ∧
      result.lines = joinLines (editedTogether edits (splitLines text)) := by
  obtain ⟨result, happly, hlines⟩ := applyHashlineEdits_ok hvalid options
  rw [resultLines_of_unabsorbed hinside hvalid habsorb] at hlines
  exact ⟨result, happly, hlines⟩

theorem splicing_around_deleted_line :
    ∃ result, applyHashlineEdits "a\nb\nc" [.insert (.beforeAnchor ⟨2, "yo"⟩) "x" 1 0,
      .delete ⟨2, "yo"⟩ 2 1, .insert (.afterAnchor ⟨1, "hs"⟩) "y" 3 2,
        .insert (.afterAnchor ⟨2, "yo"⟩) "z" 4 3] {} = .ok result ∧
      result.lines = "a\nx\ny\nz\nc" :=
  splicing_is_simultaneous (by decide +kernel) (by decide +kernel) (by decide +kernel)

end JevCode.Hashline
