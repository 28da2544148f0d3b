import JevCode.Hashline.AbsorbLaws
import Mathlib.Data.List.Flatten

namespace JevCode.Hashline

open JevCode.Text

def Segment.replacement? : Segment → Option ReplacementGroup
  | .replacement g => some g
  | _ => none

def replacementGroups (edits : List Edit) : List ReplacementGroup :=
  (segments edits).filterMap Segment.replacement?

theorem mem_replacementGroups {edits : List Edit} {g : ReplacementGroup} :
    g ∈ replacementGroups edits ↔ .replacement g ∈ segments edits := by
  simp only [replacementGroups, List.mem_filterMap]
  constructor
  · rintro ⟨seg, hseg, h⟩
    cases seg <;> cases h
    exact hseg
  · exact fun h => ⟨_, h, rfl⟩

def absorbedAbove (edits : List Edit) (fileLines : List String) (g : ReplacementGroup) : Nat :=
  safePrefixCount fileLines (collectAnchorTargetLines edits) g

def absorbedBelow (edits : List Edit) (fileLines : List String) (g : ReplacementGroup) : Nat :=
  safeSuffixCount fileLines (collectAnchorTargetLines edits) g

def ReplacementGroup.anchored (g : ReplacementGroup) : Bool :=
  (g.members.filterMap Edit.inserted?).all fun p => p.1.beforeLine? == some g.startLine

/-- The original lines that no delete edit of the batch names. -/
def untargetedLines (edits : List Edit) (fileLines : List String) : List String :=
  untouched (lineAt fileLines) (isDeleted edits) fileLines.length

/-- The absorbed batch, with after-anchor cursors normalised. -/
def absorbedEdits (edits : List Edit) (fileLines : List String)
    (options : ApplyOptions) : List Edit :=
  (absorbReplacementBoundaryDuplicates edits fileLines options).1.map (Edit.normalize fileLines)

/-- The absorption of a batch stays inside what its payloads give back. -/
structure AbsorbsSafely (edits : List Edit) (fileLines : List String)
    (options : ApplyOptions) : Prop where
  fits : ∀ g ∈ replacementGroups edits,
    absorbedAbove edits fileLines g + absorbedBelow edits fileLines g ≤ g.replacement.length
  anchored : ∀ g ∈ replacementGroups edits,
    0 < absorbedAbove edits fileLines g + absorbedBelow edits fileLines g → g.anchored = true
  ordered : (replacementGroups edits).Pairwise fun g g' => g.startLine = g'.startLine →
    absorbedAbove edits fileLines g' = 0 ∨ absorbedBelow edits fileLines g = 0
  placeholder : untargetedLines edits fileLines = [""] →
    simultaneous (absorbedEdits edits fileLines options) fileLines = [""] →
    (absorbedEdits edits fileLines options).filterMap Edit.bofText? = [] ∧
      (absorbedEdits edits fileLines options).filterMap Edit.eofText? = []

section

variable {L : Nat → String} {A B : ReplacementGroup → Nat} {l : Nat}

theorem exists_copies {G : List ReplacementGroup}
    (hA : ∀ g ∈ G, g.replacement.take (A g) = block L (l - A g) (A g))
    (hB : ∀ g ∈ G, g.replacement.drop (g.replacement.length - B g) = block L (g.endLine + 1) (B g))
    (hfit : ∀ g ∈ G, A g + B g ≤ g.replacement.length)
    (hend : ∀ g ∈ G, ∀ g' ∈ G, 0 < B g → 0 < B g' → g.endLine = g'.endLine)
    (hord : G.Pairwise fun g g' => A g' = 0 ∨ B g = 0) :
    ∃ a e b, (block L (l - a) a ++ block L (e + 1) b).Sublist (G.flatMap (·.replacement)) ∧
      (a = 0 ∨ ∃ g ∈ G, A g = a) ∧ (b = 0 ∨ ∃ g ∈ G, B g = b ∧ e = g.endLine) ∧
      ∀ g ∈ G, A g ≤ a ∧ B g ≤ b := by
  induction G with
  | nil => exact ⟨0, 0, 0, by simp [block], .inl rfl, .inl rfl, by simp⟩
  | cons g G ih =>
    obtain ⟨a, e, b, hsub, ha, hb, hmax⟩ :=
      ih (fun g' h => hA g' (by simp [h])) (fun g' h => hB g' (by simp [h]))
      (fun g' h => hfit g' (by simp [h]))
      (fun g₁ h₁ g₂ h₂ => hend g₁ (by simp [h₁]) g₂ (by simp [h₂]))
      hord.of_cons
    have htake : (block L (l - A g) (A g)).Sublist g.replacement := by
      rw [← hA g (by simp)]
      exact List.take_sublist _ _
    have hboth : (block L (l - A g) (A g) ++ block L (g.endLine + 1) (B g)).Sublist
        g.replacement := by
      rw [← hA g (by simp), ← hB g (by simp)]
      conv_rhs => rw [← List.take_append_drop (A g) g.replacement]
      refine List.Sublist.append (.refl _) ?_
      have := hfit g (by simp)
      exact List.drop_sublist_drop_left _ (by omega)
    simp only [List.flatMap_cons]
    by_cases hBg : B g = 0
    · by_cases hAg : a ≤ A g
      · refine ⟨A g, e, b, htake.append ((List.sublist_append_right _ _).trans hsub),
          .inr ⟨g, by simp, rfl⟩, ?_, ?_⟩
        · grind
        · grind
      · refine ⟨a, e, b, hsub.trans (List.sublist_append_right _ _), by grind, by grind, by grind⟩
    · -- the later replacements absorb nothing above
      have hzero : ∀ g' ∈ G, A g' = 0 := fun g' h =>
        (List.rel_of_pairwise_cons hord h).resolve_right hBg
      have ha0 : a = 0 := by grind
      by_cases hbg : B g ≤ b
      · refine ⟨A g, e, b, htake.append ?_, .inr ⟨g, by simp, rfl⟩, by grind, by grind⟩
        exact (List.sublist_append_right _ _).trans hsub
      · refine ⟨A g, g.endLine, B g, hboth.trans (List.sublist_append_left _ _),
          .inr ⟨g, by simp, rfl⟩, .inr ⟨g, by simp, rfl, rfl⟩, by grind⟩

end

def resultLines (edits : List Edit) (fileLines : List String) (options : ApplyOptions) :
    List String :=
  (applyNormalized (absorbReplacementBoundaryDuplicates edits fileLines options).1 fileLines).1

theorem simultaneous_nil (fileLines : List String) : simultaneous [] fileLines = fileLines := by
  have hout : lineOutput [] fileLines = fun l => [lineAt fileLines l] := rfl
  rw [simultaneous, hout, ← List.map_eq_flatMap, map_lineAt]

theorem resultLines_nil (fileLines : List String) (options : ApplyOptions) :
    resultLines [] fileLines options = fileLines := by
  have habsorb : absorbReplacementBoundaryDuplicates [] fileLines options = ([], []) := by
    simp [absorbReplacementBoundaryDuplicates, segments, absorbSegments]
  have hrange : BucketsInRange (([] : List Edit).map (Edit.normalize fileLines)) fileLines := by
    simp [BucketsInRange]
  rw [resultLines, habsorb, applyNormalized_lines hrange]
  simp [insertAtEnd, insertAtStart, simultaneous_nil]

theorem applyHashlineEdits_ok {text : String} {edits : List Edit}
    (h : validateHashlineAnchors edits (splitLines text) = .ok []) (options : ApplyOptions) :
    ∃ r, applyHashlineEdits text edits options = .ok r ∧
      r.lines = joinLines (resultLines edits (splitLines text) options) := by
  unfold applyHashlineEdits
  split
  · rename_i hedits
    subst hedits
    exact ⟨_, rfl, by rw [resultLines_nil, joinLines_splitLines]⟩
  · simp only [h, bind, Except.bind, ne_eq, not_true_eq_false, if_false, pure, Except.pure]
    exact ⟨_, rfl, rfl⟩

theorem eq_nil_or_of_sublist_singleton {us : List String} {x : String} (h : us.Sublist [x]) :
    us = [] ∨ us = [x] := by
  cases h with
  | cons _ h => exact .inl (List.sublist_nil.mp h)
  | cons_cons _ h => exact .inr (by rw [List.sublist_nil.mp h])

theorem sublist_insertAtStart {us xs lines : List String} (h : us.Sublist xs)
    (hblank : us = [""] → xs = [""] → lines = []) :
    us.Sublist (insertAtStart xs lines) := by
  unfold insertAtStart
  split
  · exact h
  split
  · rename_i hne hxs
    subst hxs
    rcases eq_nil_or_of_sublist_singleton h with rfl | rfl
    · exact List.nil_sublist _
    · exact absurd (hblank rfl rfl) hne
  · exact h.trans (List.sublist_append_right _ _)

theorem sublist_insertAtEnd {us xs lines : List String} (h : us.Sublist xs)
    (hblank : us = [""] → xs = [""] → lines = []) :
    us.Sublist (insertAtEnd xs lines).1 := by
  unfold insertAtEnd
  split
  · exact h
  split
  · rename_i hne hxs
    subst hxs
    rcases eq_nil_or_of_sublist_singleton h with rfl | rfl
    · exact List.nil_sublist _
    · exact absurd (hblank rfl rfl) hne
  · refine h.trans ?_
    dsimp only
    generalize (if xs.getLast? = some "" then xs.length - 1 else xs.length) = k
    conv_lhs => rw [← List.take_append_drop k xs]
    rw [List.append_assoc]
    exact List.Sublist.append (.refl _) (List.sublist_append_right _ _)

theorem flatMap_replacement_sublist {segs : List Segment} {F : Segment → List String}
    {keep : ReplacementGroup → Bool}
    (h : ∀ g, .replacement g ∈ segs → keep g = true → g.replacement.Sublist (F (.replacement g))) :
    (((segs.filterMap Segment.replacement?).filter keep).flatMap (·.replacement)).Sublist
    (segs.flatMap F) := by
  induction segs with
  | nil => simp
  | cons seg segs ih =>
    have ih := ih fun g hg => h g (by simp [hg])
    rw [List.flatMap_cons]
    cases seg with
    | replacement g =>
      simp only [List.filterMap_cons, Segment.replacement?, List.filter_cons]
      split
      · rw [List.flatMap_cons]
        exact (h g (by simp) (by assumption)).append ih
      · exact ih.trans (List.sublist_append_right _ _)
    | pureInsert g => exact ih.trans (List.sublist_append_right _ _)
    | single e => exact ih.trans (List.sublist_append_right _ _)

theorem inserted_of_anchored {g : ReplacementGroup} (hseg : (Segment.replacement g).Found)
    (h : g.anchored = true) (fileLines : List String) (options : ApplyOptions) :
    (((Segment.replacement g).inserted fileLines options).filter
      fun p => p.1.landing? fileLines = some g.startLine).map Prod.snd = g.replacement := by
  obtain ⟨es, hfind⟩ := hseg
  obtain ⟨inserts, deletes, -, hmembers, hrepl, -, -, hdel, -⟩ := findReplacementGroup_spec hfind
  have hall : ∀ p ∈ g.members.filterMap Edit.inserted?, p.1.landing? fileLines =
      some g.startLine := by
    intro p hp
    have hline := List.all_eq_true.mp h p hp
    obtain ⟨c, t⟩ := p
    cases c <;> simp_all [Cursor.beforeLine?, Cursor.landing?, Cursor.normalize]
  have hfilter : (g.members.filterMap Edit.inserted?).filter
      (fun p => p.1.landing? fileLines = some g.startLine) = g.members.filterMap Edit.inserted? :=
    List.filter_eq_self.mpr fun p hp => by simp [hall p hp]
  have hdeletes : deletes.filterMap Edit.text? = [] := by
    rw [List.filterMap_eq_nil_iff]
    intro e he
    obtain ⟨a, i, rfl⟩ := Edit.delete_of_isGroupDelete (hdel e he)
    rfl
  rw [Segment.inserted, hfilter, ← filterMap_text?_eq, hmembers, List.filterMap_append, hdeletes,
    List.append_nil, hrepl]

section

variable {edits : List Edit} {fileLines : List String}

theorem endLine_eq_of_absorbedBelow {g g' : ReplacementGroup} (hg : .replacement g ∈ segments edits)
    (hg' : .replacement g' ∈ segments edits) (hstart : g.startLine = g'.startLine)
    (h : 0 < absorbedBelow edits fileLines g) (h' : 0 < absorbedBelow edits fileLines g') :
    g.endLine = g'.endLine := by
  have key : ∀ g₁ g₂ : ReplacementGroup, .replacement g₁ ∈ segments edits →
      .replacement g₂ ∈ segments edits →
      g₁.startLine = g₂.startLine → 0 < absorbedBelow edits fileLines g₁ →
      g₂.endLine ≤ g₁.endLine := by
    intro g₁ g₂ h₁ h₂ hs hpos
    by_contra hlt
    obtain ⟨es, hfind⟩ := found_of_mem_segments h₁
    obtain ⟨-, -, -, -, -, -, -, -, -, -, hle, -⟩ := findReplacementGroup_spec hfind
    have hdel :=
      mem_targets_of_isDeleted (isDeleted_of_group (l := g₁.endLine + 1) h₂ (by omega) (by omega))
    exact safeSuffixCount_notMem fileLines _ g₁ (by omega)
      (by unfold absorbedBelow at hpos; omega) hdel
  exact Nat.le_antisymm (key g' g hg' hg hstart.symm h') (key g g' hg hg' hstart h)

theorem insertsAt_absorbedEdits (options : ApplyOptions) (l : Nat) :
    insertsAt (absorbedEdits edits fileLines options) l =
      (segments edits).flatMap fun seg =>
        ((seg.inserted fileLines options).filter fun p => p.1.landing? fileLines =
          some l).map Prod.snd := by
  rw [absorbedEdits, insertsAt_normalize, inserted_absorb, List.filter_flatMap, List.map_flatMap]

theorem deletes_of_mem_members {targets : List Nat} {seg : Segment} (hseg : seg.Found) {e : Edit}
    (he : e ∈ seg.members) {l : Nat} (hl : e.deletedLine? = some l) :
    seg.deletes fileLines targets l = true := by
  cases seg with
  | single e' =>
    rw [List.mem_singleton.mp he] at hl
    simp [Segment.deletes, hl]
  | pureInsert g =>
    obtain ⟨es, hfind⟩ := hseg
    obtain ⟨t, i, rfl⟩ := Edit.insert_of_isPureInsert ((findPureInsertGroup_spec hfind).2.2.1 e he)
    cases hl
  | replacement g =>
    have hmem := group_deleted_of_found hseg (l := l)
    obtain ⟨es, hfind⟩ := hseg
    obtain ⟨inserts, deletes, -, hmembers, -, hdeleted, hins, -⟩ := findReplacementGroup_spec hfind
    rw [Segment.members, hmembers, List.mem_append] at he
    rcases he with he | he
    · obtain ⟨a, t, i, rfl⟩ := Edit.insert_of_isGroupInsert (hins e he)
      cases hl
    · have hdel := hmem.mp (by rw [hdeleted]; exact List.mem_filterMap.mpr ⟨e, he, hl⟩)
      simp only [Segment.deletes, Bool.and_eq_true, decide_eq_true_eq]
      omega

def isAbsorbed (edits : List Edit) (fileLines : List String) (l : Nat) : Bool :=
  (replacementGroups edits).any fun g =>
    (g.startLine - absorbedAbove edits fileLines g ≤ l && l < g.startLine) ||
      (g.endLine < l && l ≤ g.endLine + absorbedBelow edits fileLines g)

theorem isDeleted_absorbedEdits (options : ApplyOptions) (l : Nat) :
    isDeleted (absorbedEdits edits fileLines options) l =
      (isDeleted edits l || isAbsorbed edits fileLines l) := by
  rw [absorbedEdits, isDeleted_map_normalize, isDeleted_absorb, Bool.eq_iff_iff]
  simp only [Bool.or_eq_true, List.any_eq_true, isAbsorbed, mem_replacementGroups, Bool.and_eq_true,
    decide_eq_true_eq]
  constructor
  · rintro ⟨seg, hseg, hl⟩
    cases seg with
    | pureInsert g => cases hl
    | single e =>
      have he : e ∈ edits := members_subset_of_mem_segments hseg (by simp [Segment.members])
      exact .inl (isDeleted_iff.mpr ⟨e, he, by simpa [Segment.deletes] using hl⟩)
    | replacement g =>
      simp only [Segment.deletes, Bool.and_eq_true, decide_eq_true_eq] at hl
      by_cases hin : g.startLine ≤ l ∧ l ≤ g.endLine
      · exact .inl (isDeleted_of_group hseg hin.1 hin.2)
      · exact .inr ⟨g, hseg, by unfold absorbedAbove absorbedBelow; omega⟩
  · rintro (hl | ⟨g, hg, hl⟩)
    · obtain ⟨e, he, hel⟩ := isDeleted_iff.mp hl
      rw [← segments_members edits] at he
      obtain ⟨seg, hseg, hmem⟩ := List.mem_flatMap.mp he
      exact ⟨seg, hseg, deletes_of_mem_members (found_of_mem_segments hseg) hmem hel⟩
    · refine ⟨_, hg, ?_⟩
      obtain ⟨es, hfind⟩ := found_of_mem_segments hg
      obtain ⟨-, -, -, -, -, -, -, -, -, -, hle, -⟩ := findReplacementGroup_spec hfind
      simp only [Segment.deletes, Bool.and_eq_true, decide_eq_true_eq]
      unfold absorbedAbove absorbedBelow at hl
      omega

theorem AbsorbsSafely.exists_copies_at {options : ApplyOptions}
    (h : AbsorbsSafely edits fileLines options) (l : Nat) :
    ∃ a e b, (block (lineAt fileLines) (l - a) a ++ block (lineAt fileLines) (e + 1) b).Sublist
        (insertsAt (absorbedEdits edits fileLines options) l) ∧
      (a = 0 ∨ ∃ g, .replacement g ∈ segments edits ∧ g.startLine = l ∧
        absorbedAbove edits fileLines g = a) ∧
      (b = 0 ∨ ∃ g, .replacement g ∈ segments edits ∧ g.startLine = l ∧
        absorbedBelow edits fileLines g = b ∧
        e = g.endLine) ∧
      ∀ g, .replacement g ∈ segments edits → g.startLine = l →
        absorbedAbove edits fileLines g ≤ a ∧ absorbedBelow edits fileLines g ≤ b := by
  let keep : ReplacementGroup → Bool := fun g => g.startLine == l &&
    decide (0 < absorbedAbove edits fileLines g + absorbedBelow edits fileLines g)
  have hmem : ∀ g, g ∈ (replacementGroups edits).filter keep ↔ .replacement g ∈ segments edits ∧
      g.startLine = l ∧
      0 < absorbedAbove edits fileLines g + absorbedBelow edits fileLines g := by
    intro g
    simp [keep, mem_replacementGroups]
  obtain ⟨a, e, b, hsub, ha, hb, hmax⟩ := exists_copies (L := lineAt fileLines) (l := l)
    (A := absorbedAbove edits fileLines) (B := absorbedBelow edits fileLines) (G :=
    (replacementGroups edits).filter keep)
    (fun g hg => by
      have := (safePrefixCount_repeats fileLines (collectAnchorTargetLines edits) g).take_eq
      rwa [((hmem g).mp hg).2.1] at this)
    (fun g _ => (safeSuffixCount_repeats fileLines (collectAnchorTargetLines edits) g).drop_eq)
    (fun g hg => h.fits g (List.mem_of_mem_filter hg))
    (fun g hg g' hg' => endLine_eq_of_absorbedBelow ((hmem g).mp hg).1 ((hmem g').mp hg').1
      (((hmem g).mp hg).2.1.trans ((hmem g').mp hg').2.1.symm))
    ((h.ordered.filter keep).imp_of_mem fun {g g'} hg hg' hor =>
      hor (((hmem g).mp hg).2.1.trans ((hmem g').mp hg').2.1.symm))
  refine ⟨a, e, b, hsub.trans ?_, ?_, ?_, ?_⟩
  · rw [insertsAt_absorbedEdits]
    apply flatMap_replacement_sublist
    intro g hg hkeep
    obtain ⟨-, hstart, hpos⟩ :=
      (hmem g).mp (List.mem_filter.mpr ⟨mem_replacementGroups.mpr hg, hkeep⟩)
    rw [← hstart, inserted_of_anchored (found_of_mem_segments hg)
      (h.anchored g (mem_replacementGroups.mpr hg) hpos)]
  · rcases ha with ha | ⟨g, hg, ha⟩
    · exact .inl ha
    · exact .inr ⟨g, ((hmem g).mp hg).1, ((hmem g).mp hg).2.1, ha⟩
  · rcases hb with hb | ⟨g, hg, hb⟩
    · exact .inl hb
    · exact .inr ⟨g, ((hmem g).mp hg).1, ((hmem g).mp hg).2.1, hb⟩
  · intro g hg hstart
    by_cases hpos : 0 < absorbedAbove edits fileLines g + absorbedBelow edits fileLines g
    · exact hmax g ((hmem g).mpr ⟨hg, hstart, hpos⟩)
    · omega

theorem AbsorbsSafely.resupplied {options : ApplyOptions} (h : AbsorbsSafely edits fileLines options)
    (hrange : AnchorsInRange edits fileLines) :
    ∃ above last below, Resupplied (lineAt fileLines) (isDeleted edits) (isAbsorbed edits fileLines)
      fileLines.length
      (lineOutput (absorbedEdits edits fileLines options) fileLines) above last below := by
  choose above last below hsub habove hbelow hmax using h.exists_copies_at
  refine ⟨above, last, below, ?_, ?_, ?_, ?_, ?_⟩
  · intro l _ _
    rw [lineOutput, isDeleted_absorbedEdits]
    exact (hsub l).append (.refl _)
  · intro l i h1 h2
    rcases habove l with hzero | ⟨g, hg, hstart, ha⟩
    · omega
    · rw [Bool.eq_false_iff]
      intro hdel
      exact safePrefixCount_notMem fileLines _ g (by unfold absorbedAbove at ha; omega) (by omega)
        (mem_targets_of_isDeleted hdel)
  · intro l hpos
    rcases hbelow l with hzero | ⟨g, hg, hstart, -, hlast⟩
    · omega
    · have := group_inRange hrange hg
      exact ⟨by omega, fun i h1 h2 => isDeleted_of_group hg (by omega) (by omega)⟩
  · intro l _ hpos
    rcases hbelow l with hzero | ⟨g, hg, hstart, hb, hlast⟩
    · omega
    · have := (safeSuffixCount_repeats fileLines (collectAnchorTargetLines edits) g).le_file
      unfold absorbedBelow at hb
      omega
  · intro l h1 h2 hl
    simp only [isAbsorbed, List.any_eq_true, mem_replacementGroups, Bool.or_eq_true,
      Bool.and_eq_true, decide_eq_true_eq] at hl
    obtain ⟨g, hg, hl⟩ := hl
    have hg' := group_inRange hrange hg
    have hm := hmax g.startLine g hg rfl
    rcases hl with hl | hl
    · exact .inl ⟨g.startLine, by omega, by omega, hl.2⟩
    · rcases hbelow g.startLine with hzero | ⟨g', hgs', hstart', hb, hlast⟩
      · omega
      · have hend := endLine_eq_of_absorbedBelow hg hgs' hstart'.symm
          (show 0 < absorbedBelow edits fileLines g by omega) (by omega)
        exact .inr ⟨g.startLine, hg'.1, by omega, by omega, by omega⟩

theorem resultLines_eq (hrange : AnchorsInRange edits fileLines) (options : ApplyOptions) :
    resultLines edits fileLines options =
      (insertAtEnd (insertAtStart (simultaneous (absorbedEdits edits fileLines options) fileLines)
          ((absorbedEdits edits fileLines options).filterMap Edit.bofText?))
        ((absorbedEdits edits fileLines options).filterMap Edit.eofText?)).1 :=
  applyNormalized_lines (bucketsInRange_absorb options hrange)

theorem insertAtStart_eq_blank {us xs lines : List String} (h : us.Sublist xs) (hus : us = [""])
    (hstart : insertAtStart xs lines = [""]) : xs = [""] := by
  unfold insertAtStart at hstart
  split at hstart
  · exact hstart
  split at hstart
  · assumption
  · rename_i hne _
    obtain ⟨hlines, -⟩ | ⟨-, rfl⟩ := List.append_eq_singleton_iff.mp hstart
    · exact absurd hlines hne
    · rw [List.sublist_nil.mp h] at hus
      cases hus

theorem AbsorbsSafely.sublist_resultLines {options : ApplyOptions}
    (h : AbsorbsSafely edits fileLines options) (hrange : AnchorsInRange edits fileLines) :
    (untargetedLines edits fileLines).Sublist (resultLines edits fileLines options) := by
  obtain ⟨above, last, below, hres⟩ := h.resupplied hrange
  have hsub : (untargetedLines edits fileLines).Sublist
      (simultaneous (absorbedEdits edits fileLines options) fileLines) := hres.untouched_sublist
  rw [resultLines_eq hrange]
  refine sublist_insertAtEnd (sublist_insertAtStart hsub fun hb hx => (h.placeholder hb hx).1)
    fun hb hstart => ?_
  exact (h.placeholder hb (insertAtStart_eq_blank hsub hb hstart)).2

end

theorem mem_untargetedLines {edits : List Edit} {fileLines : List String} {line : String}
    (h : line ∈ untargetedLines edits fileLines) : line ∈ fileLines := by
  simp only [untargetedLines, untouched, untouchedFrom, List.mem_map, List.mem_filter] at h
  obtain ⟨l, ⟨hl, -⟩, rfl⟩ := h
  have hmem := List.mem_map_of_mem (f := lineAt fileLines) hl
  rwa [map_lineAt] at hmem

theorem sublist_splitLines_joinLines {us xs : List String} (h : us.Sublist xs)
    (hus : ∀ u ∈ us, '\n' ∉ u.toList) :
    us.Sublist (splitLines (joinLines xs)) := by
  by_cases hxs : xs = []
  · subst hxs
    rw [List.sublist_nil.mp h]
    exact List.nil_sublist _
  · rw [splitLines_joinLines hxs, ← flatMap_splitLines_of_notMem hus]
    exact h.flatMap splitLines

theorem untargetedLines_sublist_applyHashlineEdits (text : String) (edits : List Edit)
    (options : ApplyOptions) (hvalid : validateHashlineAnchors edits (splitLines text) = .ok [])
    (hsafe : AbsorbsSafely edits (splitLines text) options) :
    ∃ r, applyHashlineEdits text edits options = .ok r ∧
      (untargetedLines edits (splitLines text)).Sublist (splitLines r.lines) := by
  obtain ⟨r, hr, hlines⟩ := applyHashlineEdits_ok hvalid options
  refine ⟨r, hr, ?_⟩
  rw [hlines]
  exact sublist_splitLines_joinLines (hsafe.sublist_resultLines (anchorsInRange_of_validate hvalid))
    fun u hu => notMem_of_mem_splitLines (mem_untargetedLines hu)

theorem untargetedLines_sublist_of_repeated_head :
    ∃ r, applyHashlineEdits "x\ny\nold\nz" [.insert (.beforeAnchor ⟨3, "oi"⟩) "x" 1 0,
        .insert (.beforeAnchor ⟨3, "oi"⟩) "y" 1 1, .insert (.beforeAnchor ⟨3, "oi"⟩) "new" 1 2,
        .delete ⟨3, "oi"⟩ 1 3] {} = .ok r ∧ ["x", "y", "z"].Sublist (splitLines r.lines) :=
  untargetedLines_sublist_applyHashlineEdits _ _ _ (by decide +kernel)
    ⟨by decide +kernel, by decide +kernel, by decide +kernel, fun h => absurd h (by decide +kernel)⟩

def overlapText : String := "x\ny\nold\nx\ny"

def overlapEdits : List Edit :=
  [.insert (.beforeAnchor ⟨3, "oi"⟩) "x" 1 0, .insert (.beforeAnchor ⟨3, "oi"⟩) "y" 1 1,
    .delete ⟨3, "oi"⟩ 1 2]

theorem overlap_loses_lines :
    validateHashlineAnchors overlapEdits (splitLines overlapText) = .ok [] ∧
      ∃ r, applyHashlineEdits overlapText overlapEdits {} = .ok r ∧
        ¬ (untargetedLines overlapEdits (splitLines overlapText)).Sublist (splitLines r.lines) := by
  have hvalid : validateHashlineAnchors overlapEdits (splitLines overlapText) = .ok [] := by
    decide +kernel
  obtain ⟨r, hr, hlines⟩ := applyHashlineEdits_ok hvalid {}
  refine ⟨hvalid, r, hr, fun hsub => ?_⟩
  have hle := hsub.length_le
  rw [hlines] at hle
  revert hle
  decide +kernel

end JevCode.Hashline
