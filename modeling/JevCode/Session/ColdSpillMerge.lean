import Mathlib.Data.List.Forall2
import JevCode.Session.ColdSpillRoundTrip

namespace JevCode.Session.ColdSpill

open JevCode.Data JevCode.Text

variable {ν R : Type}

/-- Adjacent text blocks become one with the joined text. -/
def mergeTexts : List (ContentBlock ν R) → List (ContentBlock ν R)
  | [] => []
  | .text first rest :: blocks =>
    .text (joinTexts (.text first rest :: blocks.takeWhile isText)) rest ::
      mergeTexts (blocks.dropWhile isText)
  | block :: blocks => block :: mergeTexts blocks
termination_by blocks => blocks.length
decreasing_by
  · have h := (List.dropWhile_suffix (l := blocks) isText).length_le
    simp only [List.length_cons]
    omega
  · simp

def StartsOther (blocks : List (ContentBlock ν R)) : Prop := blocks.takeWhile isText = []

theorem StartsOther.dropWhile {blocks : List (ContentBlock ν R)} (h : StartsOther blocks) :
    blocks.dropWhile isText = blocks := by
  have happend := List.takeWhile_append_dropWhile (p := isText) (l := blocks)
  rwa [h, List.nil_append] at happend

theorem startsOther_cons {block : ContentBlock ν R} {blocks : List (ContentBlock ν R)} :
    StartsOther (block :: blocks) ↔ isText block = false := by
  rw [StartsOther, List.takeWhile_cons]
  cases isText block <;> simp

theorem startsOther_dropWhile (blocks : List (ContentBlock ν R)) :
    StartsOther (blocks.dropWhile isText) := by
  unfold StartsOther
  induction blocks with
  | nil => rfl
  | cons block blocks ih =>
    cases hblock : isText block with
    | true => rwa [List.dropWhile_cons_of_pos hblock]
    | false =>
      have hneg : ¬isText block = true := Bool.eq_false_iff.mp hblock
      rw [List.dropWhile_cons_of_neg hneg, List.takeWhile_cons_of_neg hneg]

theorem mergeTexts_cons_of_other {block : ContentBlock ν R} (hblock : isText block = false)
    (blocks : List (ContentBlock ν R)) :
    mergeTexts (block :: blocks) = block :: mergeTexts blocks := by
  cases block with
  | text t rest => cases hblock
  | _ =>
    rw [mergeTexts]
    simp

theorem joinTexts_singleton (t : Chars) (rest : R) :
    joinTexts [(.text t rest : ContentBlock ν R)] = t := by
  simp [joinTexts, ContentBlock.text?]

theorem mergeTexts_run {run tail : List (ContentBlock ν R)}
    (hrun : ∀ block ∈ run, isText block = true) (htail : StartsOther tail)
    (first : Chars) (rest : R) :
    mergeTexts (.text first rest :: run ++ tail) =
      .text (joinTexts (.text first rest :: run)) rest :: mergeTexts tail := by
  rw [List.cons_append, mergeTexts, List.takeWhile_append_of_pos hrun, htail, List.append_nil,
    List.dropWhile_append_of_pos hrun, htail.dropWhile]

theorem grouped_cons_of_other {block : ContentBlock ν R}
    (hblock : isText block = false) (index : Nat) (blocks : List (ContentBlock ν R)) :
    grouped index (block :: blocks) = (index, block) :: grouped (index + 1) blocks := by
  cases block with
  | text t rest => cases hblock
  | _ =>
    rw [grouped]
    simp

theorem startsOther_grouped {content : List (ContentBlock ν R)} (h : StartsOther content)
    (index : Nat) :
    StartsOther ((grouped index content).map Prod.snd) := by
  cases content with
  | nil => simp [grouped, StartsOther]
  | cons block blocks =>
    rw [startsOther_cons] at h
    rw [grouped_cons_of_other h, List.map_cons, startsOther_cons]
    exact h

theorem map_snd_numbered (index : Nat) (run : List (ContentBlock ν R)) :
    (numbered index run).map Prod.snd = run := by
  induction run generalizing index with
  | nil => rfl
  | cons block run ih => rw [numbered, List.map_cons, ih]

theorem mergeTexts_text {tail : List (ContentBlock ν R)} (htail : StartsOther tail)
    (t : Chars) (rest : R) :
    mergeTexts (.text t rest :: tail) = .text t rest :: mergeTexts tail := by
  have hmerged := mergeTexts_run (List.forall_mem_nil _) htail t rest
  rwa [joinTexts_singleton] at hmerged

theorem mergeTexts_grouped (index : Nat) (content : List (ContentBlock ν R)) :
    mergeTexts ((grouped index content).map Prod.snd) = mergeTexts content := by
  fun_induction grouped index content with
  | case1 => rfl
  | case2 index first rest blocks run groups hlong ih =>
    have htail := startsOther_grouped (startsOther_dropWhile blocks) (index + run.length)
    rw [List.map_cons, mergeTexts_text htail, ih, mergeTexts]
  | case3 index first rest blocks run groups hshort ih =>
    have htail := startsOther_grouped (startsOther_dropWhile blocks) (index + run.length)
    have htext : ∀ block ∈ blocks.takeWhile isText, isText block = true := fun _ h =>
      List.mem_takeWhile_imp h
    rw [List.map_append, map_snd_numbered, mergeTexts_run htext htail, ih, mergeTexts]
  | case4 index block blocks hblock ih =>
    have hother : isText block = false := by
      cases block with
      | text t rest => exact absurd rfl (hblock t rest)
      | _ => rfl
    rw [List.map_cons, mergeTexts_cons_of_other hother, mergeTexts_cons_of_other hother, ih]

def Similar : ContentBlock ν R → ContentBlock ν R → Prop
  | .text s x, .text t y => x = y ∧ (isLong t = false → s = t ∨ isLong s = true)
  | back, block => isText back = false ∧ isText block = false

theorem Similar.isText_eq {back block : ContentBlock ν R} (h : Similar back block) :
    isText back = isText block := by
  cases back <;> cases block <;> first | rfl | exact h.1.trans h.2.symm

theorem StartsOther.similar {backs blocks : List (ContentBlock ν R)} (h : StartsOther blocks)
    (hsimilar : List.Forall₂ Similar backs blocks) : StartsOther backs := by
  cases hsimilar with
  | nil => rfl
  | cons hhead htail =>
    rw [startsOther_cons] at h ⊢
    exact hhead.isText_eq.trans h

theorem texts_of_similar {backs run : List (ContentBlock ν R)}
    (hsimilar : List.Forall₂ Similar backs run) (hrun : ∀ block ∈ run, isText block = true) :
    ∀ back ∈ backs, isText back = true := by
  induction hsimilar with
  | nil => exact List.forall_mem_nil _
  | cons hhead htail ih =>
    rw [List.forall_mem_cons] at hrun ⊢
    exact ⟨hhead.isText_eq.trans hrun.1, ih hrun.2⟩

theorem similar_text {back : ContentBlock ν R} {t : Chars} {rest : R}
    (h : Similar back (.text t rest)) :
    ∃ s, back = .text s rest ∧ (isLong t = false → s = t ∨ isLong s = true) := by
  cases back with
  | text s x =>
    obtain ⟨rfl, hshort⟩ := h
    exact ⟨s, rfl, hshort⟩
  | _ => exact absurd h.2 (by simp [isText, ContentBlock.text?])

theorem run_eq_of_similar {backs run : List (ContentBlock ν R)}
    (hsimilar : List.Forall₂ Similar backs run) (hrun : ∀ block ∈ run, isText block = true)
    (hbacks : isLong (joinTexts backs) = false) (hshort : isLong (joinTexts run) = false) :
    backs = run := by
  induction hsimilar with
  | nil => rfl
  | @cons back block backs run hhead htail ih =>
    rw [List.forall_mem_cons] at hrun
    cases block with
    | text t rest =>
      obtain ⟨s, rfl, hs⟩ := similar_text hhead
      rw [joinTexts_cons, isLong_eq_false, unitLength_append] at hbacks hshort
      have hst : s = t := by
        refine (hs (isLong_eq_false.mpr (by omega))).resolve_right ?_
        rw [Bool.not_eq_true, isLong_eq_false]
        omega
      rw [hst, ih hrun.2 (isLong_eq_false.mpr (by omega)) (isLong_eq_false.mpr (by omega))]
    | _ => exact absurd hrun.1 (by simp [isText, ContentBlock.text?])

theorem eq_of_mergeTexts_eq (index : Nat) (content : List (ContentBlock ν R)) :
    ∀ backs, List.Forall₂ Similar backs ((grouped index content).map Prod.snd) →
      mergeTexts backs = mergeTexts ((grouped index content).map Prod.snd) →
      backs = (grouped index content).map Prod.snd := by
  fun_induction grouped index content with
  | case1 =>
    intro backs hsimilar _
    exact List.forall₂_nil_right_iff.mp hsimilar
  | case2 index first rest blocks run groups hlong ih =>
    intro backs hsimilar hmerged
    have hother := startsOther_grouped (startsOther_dropWhile blocks) (index + run.length)
    rw [List.map_cons] at hsimilar hmerged ⊢
    obtain ⟨back, backs, hhead, htail, rfl⟩ := List.forall₂_cons_right_iff.mp hsimilar
    obtain ⟨s, rfl, -⟩ := similar_text hhead
    rw [mergeTexts_text hother, mergeTexts_text (hother.similar htail)] at hmerged
    obtain ⟨hblock, hblocks⟩ := List.cons.inj hmerged
    rw [hblock, ih _ htail hblocks]
  | case3 index first rest blocks run groups hshort ih =>
    intro backs hsimilar hmerged
    have hother := startsOther_grouped (startsOther_dropWhile blocks) (index + run.length)
    have htext : ∀ block ∈ blocks.takeWhile isText, isText block = true := fun _ h =>
      List.mem_takeWhile_imp h
    rw [List.map_append, map_snd_numbered] at hsimilar hmerged ⊢
    have hrun := List.forall₂_take_append _ _ _ hsimilar
    have htail := List.forall₂_drop_append _ _ _ hsimilar
    rw [← List.take_append_drop run.length backs] at hmerged ⊢
    revert hrun htail hmerged
    generalize backs.take run.length = taken
    generalize backs.drop run.length = dropped
    intro hmerged hrun htail
    have hsame := run_eq_of_similar hrun (List.forall_mem_cons.mpr ⟨rfl, htext⟩)
    obtain ⟨back, backs, hhead, hrest, rfl⟩ := List.forall₂_cons_right_iff.mp hrun
    obtain ⟨s, rfl, -⟩ := similar_text hhead
    rw [mergeTexts_run htext hother,
      mergeTexts_run (texts_of_similar hrest htext) (hother.similar htail)] at hmerged
    obtain ⟨hblock, hblocks⟩ := List.cons.inj hmerged
    have hjoined := (ContentBlock.text.inj hblock).1
    rw [hsame (hjoined ▸ Bool.eq_false_iff.mpr hshort) (Bool.eq_false_iff.mpr hshort),
      ih _ htail hblocks]
  | case4 index block blocks hblock ih =>
    intro backs hsimilar hmerged
    have hother : isText block = false := by
      cases block with
      | text t rest => exact absurd rfl (hblock t rest)
      | _ => rfl
    rw [List.map_cons] at hsimilar hmerged ⊢
    obtain ⟨back, backs, hhead, htail, rfl⟩ := List.forall₂_cons_right_iff.mp hsimilar
    rw [mergeTexts_cons_of_other hother,
      mergeTexts_cons_of_other (hhead.isText_eq.trans hother)] at hmerged
    obtain ⟨hblock, hblocks⟩ := List.cons.inj hmerged
    rw [hblock, ih _ htail hblocks]

variable {codec : JsonCodec ν} (sha256 : Chars → String) (isAssistant : Bool)
  {groups : List (Nat × ContentBlock ν R)}

def backAt (codec : JsonCodec ν) (sha256 : Chars → String) (isAssistant : Bool)
    (groups : List (Nat × ContentBlock ν R)) (p : Nat) (g : Nat × ContentBlock ν R) :
    Option (ContentBlock ν R) :=
  let back :=
    rehydrateBlock codec sha256 (spillGroups codec groups).2 p
      (coldSpillContentBlock codec g.1 g.2).1
  if isAssistant then back.map enforceToolCallArgumentObject else back

theorem rehydrateBlocks_eq_some {payloads : List ColdSpillWrite}
    (f : ContentBlock ν R → ContentBlock ν R) {index : Nat}
    {blocks backs : List (ContentBlock ν R)} :
    (rehydrateBlocks codec sha256 payloads index blocks).map (List.map f) = some backs ↔
      List.Forall₂ (fun item back => (rehydrateBlock codec sha256 payloads item.2 item.1).map
        f = some back)
        (blocks.zipIdx index) backs := by
  induction blocks generalizing index backs with
  | nil => simp [rehydrateBlocks, eq_comm]
  | cons block blocks ih =>
    rw [List.zipIdx_cons, List.forall₂_cons_left_iff, rehydrateBlocks]
    simp only [← ih]
    cases rehydrateBlock codec sha256 payloads index block with
    | none => simp
    | some first =>
      cases rehydrateBlocks codec sha256 payloads (index + 1) blocks with
      | none => simp
      | some more => simp [eq_comm]

theorem rehydrateContent_eq_some {backs : List (ContentBlock ν R)} :
    rehydrateContent codec sha256 isAssistant (spillGroups codec groups).2
      (spillGroups codec groups).1 = some backs ↔
      List.Forall₂ (fun item back =>
        backAt codec sha256 isAssistant groups item.2 item.1 = some back)
        groups.zipIdx backs := by
  have hzip : (spillGroups codec groups).1.zipIdx =
      groups.zipIdx.map fun item => ((coldSpillContentBlock codec item.1.1 item.1.2).1, item.2) := by
    rw [spillGroups, List.zipIdx_map]
    rfl
  cases isAssistant with
  | true =>
    refine (rehydrateBlocks_eq_some sha256 enforceToolCallArgumentObject).trans ?_
    rw [hzip, List.forall₂_map_left_iff]
    exact Iff.rfl
  | false =>
    refine Iff.trans (b := (rehydrateBlocks codec sha256 (spillGroups codec groups).2 0
      (spillGroups codec groups).1).map (List.map id) = some backs) ?_
        ((rehydrateBlocks_eq_some sha256 id).trans ?_)
    · simp [rehydrateContent]
    · rw [hzip, List.forall₂_map_left_iff]
      simp [backAt]

theorem map_snd_eq (groups : List (Nat × ContentBlock ν R)) :
    groups.map Prod.snd = groups.zipIdx.map fun item => item.1.2 := by
  rw [show (fun item : (Nat × ContentBlock ν R) × Nat => item.1.2) = Prod.snd ∘ Prod.fst from rfl,
    ← List.map_map, List.zipIdx_map_fst]

theorem backAt_text (p i : Nat) (t : Chars) (rest : R) :
    backAt codec sha256 isAssistant groups p (i, .text t rest) =
      (rehydrateString (spillGroups codec groups).2 (blockPath p .text) (noticeIfLong t)).map
      (.text · rest) := by
  cases isAssistant with
  | false =>
    simp only [backAt, coldSpillContentBlock, coldSpillText_eq, rehydrateBlock,
      Bool.false_eq_true, if_false]
  | true =>
    simp only [backAt, coldSpillContentBlock, coldSpillText_eq, rehydrateBlock,
      Option.map_map, if_true]
    rfl

theorem backAt_thinking (p i : Nat) (t : Chars) (rest : R) :
    backAt codec sha256 isAssistant groups p (i, .thinking t rest) =
      (rehydrateString (spillGroups codec groups).2 (blockPath p .thinking) (noticeIfLong t)).map
        (.thinking · rest) := by
  cases isAssistant with
  | false =>
    simp only [backAt, coldSpillContentBlock, coldSpillText_eq, rehydrateBlock,
      Bool.false_eq_true, if_false]
  | true =>
    simp only [backAt, coldSpillContentBlock, coldSpillText_eq, rehydrateBlock,
      Option.map_map, if_true]
    rfl

section

variable (h : WellGrouped codec groups)

include h

theorem backAt_eq_iff {g : Nat × ContentBlock ν R} (hg : g ∈ groups) (p : Nat) :
    backAt codec sha256 isAssistant groups p g = some g.2 ↔ ComesBack codec groups p g.2 := by
  cases isAssistant with
  | false => exact block_comesBack h hg p
  | true => exact (enforced_eq_iff h hg p).trans (block_comesBack h hg p)

theorem rehydrated_text {p : Nat} {t back : Chars}
    (hback : rehydrateString (spillGroups codec groups).2 (blockPath p .text) t = some back) :
    back = t ∨ isLong back = true := by
  unfold rehydrateString at hback
  rw [payload?_blockPath codec h.sorted h.args] at hback
  cases hs : spilledAt codec groups p .text with
  | none =>
    rw [hs] at hback
    exact .inl (Option.some.inj hback).symm
  | some other =>
    obtain ⟨-, hspilled, hfield⟩ := (spilledAt_eq_some codec h.sorted).mp hs
    rw [hs] at hback
    cases other with
    | text u rest => exact .inr (Option.some.inj hback ▸ hspilled)
    | _ => cases hfield

theorem similar_backAt {p : Nat} {g : Nat × ContentBlock ν R} {back : ContentBlock ν R}
    (hback : backAt codec sha256 isAssistant groups p g = some back) : Similar back g.2 := by
  obtain ⟨i, block⟩ := g
  cases block with
  | text t rest =>
    rw [backAt_text, Option.map_eq_some_iff] at hback
    obtain ⟨s, hs, rfl⟩ := hback
    refine ⟨rfl, fun hshort => ?_⟩
    rw [(noticeIfLong_eq_iff t).mpr hshort] at hs
    exact rehydrated_text h hs
  | thinking t rest =>
    rw [backAt_thinking, Option.map_eq_some_iff] at hback
    obtain ⟨s, -, rfl⟩ := hback
    exact ⟨rfl, rfl⟩
  | toolCall args malformed rest =>
    cases isAssistant with
    | false =>
      obtain ⟨value, -, rfl⟩ := Option.map_eq_some_iff.mp hback
      exact ⟨rfl, rfl⟩
    | true =>
      obtain ⟨block, hblock, rfl⟩ := Option.map_eq_some_iff.mp hback
      obtain ⟨value, -, rfl⟩ := Option.map_eq_some_iff.mp hblock
      cases value <;> exact ⟨rfl, rfl⟩
  | _ =>
    cases isAssistant with
    | false =>
      obtain ⟨s, -, rfl⟩ := Option.map_eq_some_iff.mp hback
      exact ⟨rfl, rfl⟩
    | true =>
      obtain ⟨block, hblock, rfl⟩ := Option.map_eq_some_iff.mp hback
      obtain ⟨s, -, rfl⟩ := Option.map_eq_some_iff.mp hblock
      exact ⟨rfl, rfl⟩

theorem rehydrated_eq_iff :
    rehydrateContent codec sha256 isAssistant (spillGroups codec groups).2
      (spillGroups codec groups).1 =
        some (groups.map Prod.snd) ↔
      ∀ p i block, groups[p]? = some (i, block) → ComesBack codec groups p block := by
  rw [rehydrateContent_eq_some, map_snd_eq, List.forall₂_map_right_iff, List.forall₂_same]
  constructor
  · intro hall p i block hp
    have hitem : ((i, block), p) ∈ groups.zipIdx := List.mem_zipIdx_iff_getElem?.mpr hp
    exact (backAt_eq_iff sha256 isAssistant h (List.mem_of_getElem? hp) p).mp (hall _ hitem)
  · intro hall item hitem
    have hp := List.mem_zipIdx_iff_getElem?.mp hitem
    exact (backAt_eq_iff sha256 isAssistant h (List.mem_of_getElem? hp) item.2).mpr (hall _ _ _ hp)

end

theorem comesBack_of_mem (hsorted : groups.Pairwise (·.1 < ·.1)) {p : Nat} {block : ContentBlock ν R}
    (hmem : (p, block) ∈ groups) (href : block.holdsReference (isRecorded codec groups) = false) :
    ComesBack codec groups p block := by
  unfold ComesBack
  cases hs : spilledAt codec groups p block.field with
  | some other =>
    have hother := ((spilledAt_eq_some codec hsorted).mp hs).1
    exact congrArg (fun g => g.2.value) (eq_of_pairwise hsorted hother hmem rfl)
  | none =>
    cases hspilled : isSpilled codec block with
    | true =>
      rw [(spilledAt_eq_some codec hsorted).mpr ⟨hmem, hspilled, rfl⟩] at hs
      cases hs
    | false => exact href

theorem comesBack_of_range (hsorted : groups.Pairwise (·.1 < ·.1))
    (hrange : groups.map Prod.fst = List.range groups.length)
    (href : ∀ g ∈ groups, g.2.holdsReference (isRecorded codec groups) = false) :
    ∀ p i block, groups[p]? = some (i, block) → ComesBack codec groups p block := by
  intro p i block hp
  have hmem := List.mem_of_getElem? hp
  have hindex := List.getElem?_map (f := Prod.fst) (l := groups) (i := p)
  rw [hrange, hp, List.getElem?_range (List.getElem?_eq_some_iff.mp hp).1] at hindex
  obtain rfl : p = i := Option.some.inj hindex
  exact comesBack_of_mem hsorted hmem (href _ hmem)

theorem wellGrouped_grouped {content : List (ContentBlock ν R)}
    (hargs : ∀ block ∈ content, HasObjectArguments block)
    (hjson : ∀ args malformed rest, .toolCall args malformed rest ∈ content →
      codec.parse (codec.stringify args) = some args) : WellGrouped codec (grouped 0 content) where
  sorted := pairwise_grouped 0 content
  args := by
    rintro ⟨i, block⟩ hg
    cases (le_of_mem_grouped hg).2 with
    | inl hmem => exact hargs block hmem
    | inr htext =>
      cases block with
      | toolCall args malformed rest => cases htext
      | _ => trivial
  json := by
    rintro ⟨i, block⟩ hg args malformed rest rfl
    cases (le_of_mem_grouped hg).2 with
    | inl hmem => exact hjson args malformed rest hmem
    | inr htext => cases htext

/-- A message comes back, up to merging adjacent text blocks, exactly if each of its groups finds its
own payload, or that of a block with the same value, at the position where it stands after the
merging. -/
theorem spilled_message_comes_back (codec : JsonCodec ν) (sha256 : Chars → String)
    (isAssistant : Bool) (content : List (ContentBlock ν R))
    (hargs : ∀ block ∈ content, HasObjectArguments block)
    (hjson : ∀ args malformed rest, .toolCall args malformed rest ∈ content →
      codec.parse (codec.stringify args) = some args) :
    (rehydrateContent codec sha256 isAssistant (coldSpillContentBlocks codec content).2
        (coldSpillContentBlocks codec content).1).map mergeTexts = some (mergeTexts content) ↔
      ∀ p i block, (grouped 0 content)[p]? = some (i, block) →
        ComesBack codec (grouped 0 content) p block := by
  have hgrouped := wellGrouped_grouped hargs hjson
  rw [coldSpillContentBlocks_eq, ← rehydrated_eq_iff sha256 isAssistant hgrouped,
    ← mergeTexts_grouped 0 content, Option.map_eq_some_iff]
  constructor
  · rintro ⟨backs, hbacks, hmerged⟩
    have hsimilar : List.Forall₂ Similar backs ((grouped 0 content).map Prod.snd) := by
      rw [map_snd_eq, List.forall₂_map_right_iff]
      refine List.Forall₂.flip (((rehydrateContent_eq_some sha256 isAssistant).mp hbacks).imp ?_)
      exact fun item back hback => similar_backAt sha256 isAssistant hgrouped hback
    rw [hbacks, eq_of_mergeTexts_eq 0 content backs hsimilar hmerged]
  · exact fun hback => ⟨_, hback, rfl⟩

theorem rehydrated_after_run (t u : Chars) {rest rest' : R} (hu : isLong u = true) :
    let spilled := spillGroups codec [(0, .text t rest), (2, .thinking u rest')]
    rehydrateContent codec sha256 isAssistant spilled.2 spilled.1 =
      some [.text t rest, .thinking coldSpillNotice rest'] := by
  intro spilled
  have hgroups : WellGrouped codec [(0, .text t rest), (2, .thinking u rest')] :=
    ⟨by simp, by simp [HasObjectArguments], by simp⟩
  have htext := (backAt_eq_iff sha256 isAssistant hgroups List.mem_cons_self 0).mpr
    (comesBack_of_mem hgroups.sorted List.mem_cons_self rfl)
  have hnone : payload? spilled.2 (blockPath 1 .thinking) = none := by
    rw [payload?_blockPath codec hgroups.sorted hgroups.args]
    rfl
  have hthinking : backAt codec sha256 isAssistant [(0, .text t rest), (2, .thinking u rest')] 1
      (2, .thinking u rest') = some (.thinking coldSpillNotice rest') := by
    rw [backAt_thinking, rehydrateString, hnone, noticeIfLong, hu]
    rfl
  exact (rehydrateContent_eq_some sha256 isAssistant).mpr (.cons htext (.cons hthinking .nil))

def emptyObjectCodec : JsonCodec Nat where
  stringify _ := ['\x7b', '\x7d']
  parse _ := some (.obj [])

theorem isLong_replicate (c : Char) (n : Nat) :
    isLong (List.replicate n c) = decide (1024 ≤ n * utf16Size c) := by
  simp [isLong, unitLength, coldSpillMinChars]

def textRun : List (ContentBlock Nat Unit) :=
  [.text (List.replicate 600 'a') (), .text (List.replicate 600 'a') ()]

def longThinking : ContentBlock Nat Unit := .thinking (List.replicate 1024 'b') ()

def emptyCall : ContentBlock Nat Unit := .toolCall (.obj []) false ()

theorem isLong_textRun : isLong (joinTexts textRun) = true := by
  rw [textRun, joinTexts_cons, joinTexts_singleton, List.replicate_append_replicate,
    isLong_replicate]
  decide

theorem isLong_longThinking : isLong (List.replicate 1024 'b') = true := by
  rw [isLong_replicate]
  decide

theorem grouped_textRun (index : Nat) (blocks : List (ContentBlock Nat Unit))
    (h : StartsOther blocks) :
    grouped index (textRun ++ blocks) = (index, .text (joinTexts textRun) ()) ::
      grouped (index + 2) blocks := by
  have htake : (ContentBlock.text (List.replicate 600 'a') () :: blocks).takeWhile isText =
      [.text (List.replicate 600 'a') ()] := by
    rw [List.takeWhile_cons_of_pos rfl, h]
  have hdrop : (ContentBlock.text (List.replicate 600 'a') () :: blocks).dropWhile
      isText = blocks := by
    rw [List.dropWhile_cons_of_pos rfl, h.dropWhile]
  rw [textRun, List.cons_append, List.cons_append, List.nil_append, grouped, htake, hdrop]
  exact if_pos isLong_textRun

theorem grouped_runLast :
    grouped 0 (emptyCall :: longThinking :: textRun) =
      [(0, emptyCall), (1, longThinking), (2, .text (joinTexts textRun) ())] := by
  have hrun := grouped_textRun 2 [] rfl
  rw [List.append_nil] at hrun
  rw [grouped_cons_of_other rfl, grouped_cons_of_other rfl, hrun, grouped]

theorem grouped_runFirst :
    grouped 0 (textRun ++ [longThinking]) =
      [(0, .text (joinTexts textRun) ()), (2, longThinking)] := by
  rw [grouped_textRun 0 [longThinking] (startsOther_cons.mpr rfl),
    grouped_cons_of_other rfl, grouped]

theorem run_after_thinking_comes_back :
    (rehydrateContent emptyObjectCodec (fun _ => "") true
        (coldSpillContentBlocks emptyObjectCodec (emptyCall :: longThinking :: textRun)).2
        (coldSpillContentBlocks emptyObjectCodec (emptyCall :: longThinking :: textRun)).1).map
          mergeTexts =
      some (mergeTexts (emptyCall :: longThinking :: textRun)) := by
  refine (spilled_message_comes_back emptyObjectCodec _ true _ ?_ ?_).mpr ?_
  · simp [emptyCall, longThinking, textRun, HasObjectArguments, -List.reduceReplicate]
  · simp [emptyCall, longThinking, textRun, emptyObjectCodec, -List.reduceReplicate]
  · have hsorted := pairwise_grouped 0 (emptyCall :: longThinking :: textRun)
    rw [grouped_runLast] at hsorted ⊢
    refine comesBack_of_range hsorted rfl ?_
    simp only [List.forall_mem_cons]
    exact ⟨rfl, rfl, rfl, List.forall_mem_nil _⟩

theorem thinking_after_run_is_lost :
    (∀ block ∈ textRun ++ [longThinking], HasObjectArguments block) ∧
      rehydrateContent emptyObjectCodec (fun _ => "") true
          (coldSpillContentBlocks emptyObjectCodec (textRun ++ [longThinking])).2
          (coldSpillContentBlocks emptyObjectCodec (textRun ++ [longThinking])).1 =
        some [.text (joinTexts textRun) (), .thinking coldSpillNotice ()] ∧
      (rehydrateContent emptyObjectCodec (fun _ => "") true
          (coldSpillContentBlocks emptyObjectCodec (textRun ++ [longThinking])).2
          (coldSpillContentBlocks emptyObjectCodec (textRun ++ [longThinking])).1).map mergeTexts ≠
        some (mergeTexts (textRun ++ [longThinking])) := by
  have hargs : ∀ block ∈ textRun ++ [longThinking], HasObjectArguments block := by
    simp [longThinking, textRun, HasObjectArguments, -List.reduceReplicate]
  have hback : rehydrateContent emptyObjectCodec (fun _ => "") true
      (coldSpillContentBlocks emptyObjectCodec (textRun ++ [longThinking])).2
      (coldSpillContentBlocks emptyObjectCodec (textRun ++ [longThinking])).1 =
        some [.text (joinTexts textRun) (), .thinking coldSpillNotice ()] := by
    rw [coldSpillContentBlocks_eq, grouped_runFirst]
    exact rehydrated_after_run _ true _ _ isLong_longThinking
  refine ⟨hargs, hback, ?_⟩
  rw [hback, ← mergeTexts_grouped 0 (textRun ++ [longThinking]), grouped_runFirst, List.map_cons,
    List.map_cons, Option.map_some, mergeTexts_text (startsOther_cons.mpr rfl),
    mergeTexts_text (startsOther_cons.mpr rfl), mergeTexts_cons_of_other rfl,
      mergeTexts_cons_of_other rfl]
  intro heq
  have hblocks := Option.some.inj heq
  have hnotice := (ContentBlock.thinking.inj (List.cons.inj (List.cons.inj hblocks).2).1).1
  have hlong := isLong_longThinking
  rw [← hnotice, isLong_coldSpillNotice] at hlong
  cases hlong

end JevCode.Session.ColdSpill
