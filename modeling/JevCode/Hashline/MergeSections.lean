import JevCode.Hashline.OpBlocks
import JevCode.Hashline.OpLaws

namespace JevCode.Hashline

open JevCode.Data JevCode.Text

def Edit.unnumbered : Edit → Edit
  | .insert c t _ _ => .insert c t 0 0
  | .delete a _ _ => .delete a 0 0

/-- The edits of a diff up to their numbers, `none` if it is rejected. -/
def parsedEdits (diff : String) : Option (List Edit) :=
  (parseHashlineWithWarnings diff).toOption.map fun p => p.1.map Edit.unnumbered

def sectionDiffs (sections : List HashlineInputSection) (path : String) : List String :=
  (sections.filter fun s => s.path = path).map HashlineInputSection.diff

/-- The lines end as they are read: with a payload line that is neither empty nor ended by `\r`, or
with an op line. -/
def endsClean (lines : List String) : Bool :=
  lines.getLastD "" ≠ "" &&
    (isOpLine (lines.getLastD "") || stripCr (lines.getLastD "") = lines.getLastD "")

/-- Every section but the last ends clean, and every one but the first starts with an op line. -/
def cleanBoundaries : List (List String) → Bool
  | before :: after :: sections =>
    endsClean before && isOpLine (after.headD "") && cleanBoundaries (after :: sections)
  | _ => true

/-- Something other than an op comes first, or an op line cannot be read with the lines up to the
next one. -/
def isRejected (lines : List String) : Bool :=
  !(openingLines lines).all isBlank || (opBlocks lines).any fun block => (readBlock block).isNone

def Op.unnumbered (op : Op) : List Edit := (op.edits 0 0).map Edit.unnumbered

theorem map_unnumbered_edits (op : Op) (lineNum editIndex : Nat) :
    (op.edits lineNum editIndex).map Edit.unnumbered = op.unnumbered := by
  simp only [Op.unnumbered, Op.edits, List.map_append]
  congr 1 <;> apply List.ext_getElem <;> simp [Edit.unnumbered]

theorem map_unnumbered_pushOps (editIndex : Nat) (ops : List (Nat × Op)) :
    (pushOps editIndex ops).map Edit.unnumbered = (ops.map Prod.snd).flatMap Op.unnumbered := by
  induction ops generalizing editIndex with
  | nil => rfl
  | cons p ops ih =>
    rw [pushOps, List.map_append, ih, map_unnumbered_edits]
    rfl

theorem filterMap_text?_unnumbered (op : Op) : op.unnumbered.filterMap Edit.text? = op.payload := by
  have htext : ∀ e : Edit, e.unnumbered.text? = e.text? := fun e => by cases e <;> rfl
  rw [Op.unnumbered, List.filterMap_map]
  simp only [Function.comp_def, htext]
  rw [filterMap_text?_eq, inserted?_edits, List.map_map, Function.comp_def, List.map_id']

theorem filterMap_text?_flatMap (ops : List Op) :
    (ops.flatMap Op.unnumbered).filterMap Edit.text? = ops.flatMap Op.payload := by
  rw [List.filterMap_flatMap]
  simp only [filterMap_text?_unnumbered]

theorem parsedEdits_eq {diff : String}
    (h : ∀ line ∈ diffLines diff, isPayloadTerminatorLine line = isOpLine line) :
    parsedEdits diff = (readOps (diffLines diff)).map fun ops => ops.flatMap Op.unnumbered := by
  rw [← parseLines_eq_readOps (n := 1) h, parsedEdits]
  have hparse : parseHashlineWithWarnings diff =
      (parseLines 1 (diffLines diff)).map fun p => (pushOps 0 p.1, p.2) := by
    unfold parseHashlineWithWarnings diffLines
    dsimp only
    cases parseLines 1 (if diff.toList.getLast? = some '\n' then (splitCrLf diff).dropLast
      else splitCrLf diff) <;> rfl
  rw [hparse]
  cases parseLines 1 (diffLines diff) with
  | error err => rfl
  | ok p => exact congrArg some (map_unnumbered_pushOps 0 p.1)

theorem joinLines_flatten {Cs : List (List String)} (h : ∀ C ∈ Cs, C ≠ []) :
    joinLines (Cs.map joinLines) = joinLines Cs.flatten := by
  induction Cs with
  | nil => rfl
  | cons C Cs ih =>
    have hC : C ≠ [] := h C (by simp)
    by_cases hCs : Cs = []
    · simp [hCs, joinLines]
    · have hne : Cs.flatten ≠ [] := by
        obtain ⟨D, Ds, rfl⟩ := List.exists_cons_of_ne_nil hCs
        simp [h D (by simp)]
      rw [List.map_cons, joinLines_cons (by simpa using hCs), ih fun D hD => h D (by simp [hD]),
        List.flatten_cons, joinLines_append hC hne]

theorem splitCrLf_joinLines {lines : List String} {last : String}
    (h : ∀ l ∈ lines ++ [last], '\n' ∉ l.toList) :
    splitCrLf (joinLines (lines ++ [last])) = lines.map stripCr ++ [last] := by
  rw [splitCrLf, splitLines_joinLines_of_notMem (by simp) h, List.reverse_append,
    List.reverse_singleton, List.singleton_append]
  dsimp only
  rw [List.reverse_cons, ← List.map_reverse, List.reverse_reverse]
  rfl

theorem diffLines_joinLines {lines : List String} {last : String}
    (h : ∀ l ∈ lines ++ [last], '\n' ∉ l.toList) (hlast : last = "" → lines ≠ []) :
    diffLines (joinLines (lines ++ [last])) = lines.map stripCr ++ if last = "" then []
      else [last] := by
  have hnotlast : last ≠ "" → (joinLines (lines ++ [last])).toList.getLast? ≠ some '\n' := by
    intro hne hend
    have hmem : '\n' ∉ last.toList := h last (by simp)
    have htoList : last.toList ≠ [] := by simpa using hne
    by_cases hlines : lines = []
    · simp only [hlines, List.nil_append, joinLines, List.map_cons, List.map_nil,
        List.intercalate_singleton, String.toList_ofList] at hend
      exact hmem (List.mem_of_getLast? hend)
    · rw [joinLines_append hlines (by simp), String.toList_append] at hend
      simp only [joinLines, List.map_cons, List.map_nil, List.intercalate_singleton,
        String.toList_ofList] at hend
      rw [List.getLast?_append_of_ne_nil _ htoList] at hend
      exact hmem (List.mem_of_getLast? hend)
  unfold diffLines
  rw [splitCrLf_joinLines h]
  by_cases hempty : last = ""
  · have hend : (joinLines (lines ++ [last])).toList.getLast? = some '\n' := by
      rw [joinLines_append (hlast hempty) (by simp), hempty]
      simp [joinLines]
    rw [if_pos hend, if_pos hempty, List.dropLast_concat, List.append_nil]
  · rw [if_neg (hnotlast hempty), if_neg hempty]

theorem SectionLines.ne_nil {lines : List String} (h : SectionLines lines) : lines ≠ [] := by
  obtain ⟨line, hline, -⟩ := h.nonblank
  exact List.ne_nil_of_mem hline

theorem SectionLines.exists_concat {lines : List String} (h : SectionLines lines) :
    ∃ front last, lines = front ++ [last] ∧ (last = "" → front ≠ []) := by
  obtain ⟨front, last, rfl⟩ := (List.eq_nil_or_concat' lines).resolve_left h.ne_nil
  refine ⟨front, last, rfl, ?_⟩
  rintro rfl rfl
  obtain ⟨line, hline, hblank⟩ := h.nonblank
  rw [List.nil_append, List.mem_singleton] at hline
  exact hblank (by rw [hline]; rfl)

theorem diffLines_append {lines lines' : List String} (h : SectionLines lines')
    (hlines : ∀ l ∈ lines, '\n' ∉ l.toList) :
    diffLines (joinLines (lines ++ lines')) = lines.map stripCr ++ diffLines (joinLines lines') := by
  obtain ⟨front, last, rfl, hlast⟩ := h.exists_concat
  have hnewline : ∀ l ∈ front ++ [last], '\n' ∉ l.toList := fun l hl => (h.mem l hl).1
  rw [diffLines_joinLines hnewline hlast, ← List.append_assoc, diffLines_joinLines]
  · rw [List.map_append, List.append_assoc]
  · intro l hl
    rw [List.append_assoc] at hl
    rcases List.mem_append.mp hl with hl | hl
    · exact hlines l hl
    · exact hnewline l hl
  · exact fun hempty => by simp [hlast hempty]

theorem SectionLines.append {lines lines' : List String} (h : SectionLines lines)
    (h' : ∀ l ∈ lines', IsSectionLine l) :
    SectionLines (lines ++ lines') := by
  refine ⟨fun l hl => ?_, ?_⟩
  · rcases List.mem_append.mp hl with hl | hl
    · exact h.mem l hl
    · exact h' l hl
  · obtain ⟨line, hline, hblank⟩ := h.nonblank
    exact ⟨line, by simp [hline], hblank⟩

theorem headD_flatten {D : List String} {Cs : List (List String)} (h : D ≠ []) :
    (D :: Cs).flatten.headD "" = D.headD "" := by
  obtain ⟨d, ds, rfl⟩ := List.exists_cons_of_ne_nil h
  rfl

theorem sectionLines_flatten {Cs : List (List String)} (hne : Cs ≠ [])
    (h : ∀ C ∈ Cs, SectionLines C) :
    SectionLines Cs.flatten := by
  obtain ⟨C, Cs, rfl⟩ := List.exists_cons_of_ne_nil hne
  refine (h C (by simp)).append fun l hl => ?_
  obtain ⟨D, hD, hl⟩ := List.mem_flatten.mp hl
  exact (h D (by simp [hD])).mem l hl

section

variable {lines : List String} (h : SectionLines lines)

include h

theorem openingLines_diffLines_eq_nil :
    openingLines (diffLines (joinLines lines)) = [] ↔ isOpLine (lines.headD "") = true := by
  obtain ⟨front, last, rfl, hlast⟩ := h.exists_concat
  rw [diffLines_joinLines (fun l hl => (h.mem l hl).1) hlast]
  cases front with
  | nil =>
    have hne : last ≠ "" := fun hempty => hlast hempty rfl
    cases hop : isOpLine last <;> simp [openingLines, hne, hop]
  | cons first front =>
    have hfirst := isOpLine_stripCr first
    cases hop : isOpLine first <;> simp [openingLines, hfirst, hop]

theorem isOpLine_of_mem_diffLines :
    ∀ line ∈ diffLines (joinLines lines), isPayloadTerminatorLine line = isOpLine line := by
  obtain ⟨front, last, rfl, hlast⟩ := h.exists_concat
  rw [diffLines_joinLines (fun l hl => (h.mem l hl).1) hlast]
  intro line hline
  rcases List.mem_append.mp hline with hline | hline
  · obtain ⟨l, hl, rfl⟩ := List.mem_map.mp hline
    rw [isPayloadTerminatorLine_stripCr, isOpLine_stripCr]
    exact (h.mem l (by simp [hl])).2
  · split at hline
    · cases hline
    · rw [List.mem_singleton.mp hline]
      exact (h.mem last (by simp)).2

theorem exists_nonblank_diffLines : ∃ line ∈ diffLines (joinLines lines), isBlank line = false := by
  obtain ⟨line, hline, hblank⟩ := h.nonblank
  have hblank : isBlank line = false := decide_eq_false hblank
  obtain ⟨front, last, rfl, hlast⟩ := h.exists_concat
  rw [diffLines_joinLines (fun l hl => (h.mem l hl).1) hlast]
  rcases List.mem_append.mp hline with hline | hline
  · exact ⟨stripCr line, by simp [List.mem_map.mpr ⟨line, hline, rfl⟩], by rw [isBlank_stripCr, hblank]⟩
  · rw [List.mem_singleton] at hline
    subst hline
    have hne : line ≠ "" := by
      rintro rfl
      revert hblank
      decide
    exact ⟨line, by simp [hne], hblank⟩

theorem exists_op_of_readOps {ops : List Op}
    (hread : readOps (diffLines (joinLines lines)) = some ops) :
    (openingLines (diffLines (joinLines lines))).all isBlank = true ∧
      ∃ line ∈ diffLines (joinLines lines), isOpLine line = true := by
  have hlead : (openingLines (diffLines (joinLines lines))).all isBlank = true := by
    by_contra hnot
    rw [readOps, if_neg hnot] at hread
    cases hread
  refine ⟨hlead, ?_⟩
  by_contra hnone
  obtain ⟨line, hline, hblank⟩ := exists_nonblank_diffLines h
  have hall : openingLines (diffLines (joinLines lines)) = diffLines (joinLines lines) := by
    rw [openingLines, List.takeWhile_eq_self_iff]
    intro l hl
    by_contra hop
    exact hnone ⟨l, hl, by simpa using hop⟩
  rw [hall, List.all_eq_true] at hlead
  rw [hlead line hline] at hblank
  cases hblank

end

theorem opBlocks_append_op (lines : List String) {rest : List String} (h : openingLines rest = []) :
    opBlocks (lines ++ rest) = opBlocks lines ++ opBlocks rest ∧
      openingLines (lines ++ rest) = openingLines lines := by
  by_cases hop : ∃ line ∈ lines, isOpLine line = true
  · obtain ⟨front, line, payload, hblocks, happend⟩ := opBlocks_append hop
    rw [(happend rest).1, hblocks, h, List.append_nil]
    exact ⟨by simp, (happend rest).2⟩
  · have hnone : ∀ l ∈ lines, isOpLine l = false := fun l hl => by
      by_contra hne
      exact hop ⟨l, hl, by simpa using hne⟩
    have hempty := opBlocks_of_lead hnone []
    have hself := openingLines_of_lead hnone []
    rw [List.append_nil] at hempty hself
    rw [opBlocks_of_lead hnone, openingLines_of_lead hnone, hempty, hself, h]
    exact ⟨rfl, by simp [openingLines]⟩

theorem readOps_append {lines rest : List String} (h : openingLines rest = []) :
    readOps (lines ++ rest) = (readOps lines).bind fun ops => (readOps rest).map fun more =>
      ops ++ more := by
  obtain ⟨hblocks, hlead⟩ := opBlocks_append_op lines h
  rw [readOps, readOps, readOps, hlead, hblocks, h, List.mapM_append]
  split
  · simp only [List.all_nil, if_true]
    cases (opBlocks lines).mapM readBlock with
    | none => rfl
    | some ops => cases (opBlocks rest).mapM readBlock <;> rfl
  · rfl

theorem readOps_stripCr_of_endsClean {lines : List String} (h : SectionLines lines)
    (hclean : endsClean lines = true) :
    readOps (lines.map stripCr) = readOps (diffLines (joinLines lines)) := by
  obtain ⟨front, last, rfl, hlast⟩ := h.exists_concat
  rw [diffLines_joinLines (fun l hl => (h.mem l hl).1) hlast]
  simp only [endsClean, List.getLastD_concat, Bool.and_eq_true, Bool.or_eq_true,
    decide_eq_true_eq] at hclean
  obtain ⟨hne, hop | hsame⟩ := hclean
  · have hstart : ∀ line, isOpLine line = true → openingLines [line] = [] := fun line hline => by
      simp [openingLines, hline]
    have hblock : readOps [stripCr last] = readOps [last] := by
      have hop' : isOpLine (stripCr last) = true := by rw [isOpLine_stripCr, hop]
      have hread : ∀ payload, readBlock (stripCr last, payload) = readBlock (last, payload) :=
        fun payload => by
        simp only [readBlock, parseOp_stripCr 0 hop]
      rw [readOps_cons_op hop, readOps_cons_op hop', hread]
    rw [List.map_append, List.map_singleton, if_neg hne,
      readOps_append (hstart _ (by rw [isOpLine_stripCr, hop])), hblock,
      ← readOps_append (hstart last hop)]
  · rw [List.map_append, List.map_singleton, hsame, if_neg hne]

theorem readOps_of_cleanBoundaries {Cs : List (List String)} (hne : Cs ≠ [])
    (h : ∀ C ∈ Cs, SectionLines C) (hclean : cleanBoundaries Cs = true) :
    readOps (diffLines (joinLines Cs.flatten)) =
      (Cs.mapM fun C => readOps (diffLines (joinLines C))).map List.flatten := by
  induction Cs with
  | nil => exact absurd rfl hne
  | cons C Cs ih =>
    cases Cs with
    | nil =>
      rw [List.flatten_cons, List.flatten_nil, List.append_nil, List.mapM_cons, List.mapM_nil]
      cases readOps (diffLines (joinLines C)) with
      | none => rfl
      | some ops => simp
    | cons D Cs =>
      simp only [cleanBoundaries, Bool.and_eq_true] at hclean
      obtain ⟨⟨hend, hop⟩, hmore⟩ := hclean
      have hC := h C (by simp)
      have hrest : ∀ E ∈ D :: Cs, SectionLines E := fun E hE => h E (List.mem_cons_of_mem _ hE)
      have hflat := sectionLines_flatten (List.cons_ne_nil D Cs) hrest
      rw [← headD_flatten (hrest D (by simp)).ne_nil] at hop
      have ih := ih (List.cons_ne_nil D Cs) hrest hmore
      rw [List.flatten_cons, diffLines_append hflat fun l hl => (hC.mem l hl).1,
        readOps_append ((openingLines_diffLines_eq_nil hflat).mpr hop),
        readOps_stripCr_of_endsClean hC hend, ih, mapM_cons_eq_bind _ C]
      cases readOps (diffLines (joinLines C)) with
      | none => rfl
      | some ops =>
        dsimp only [Option.bind_some]
        cases (D :: Cs).mapM fun C => readOps (diffLines (joinLines C)) <;> rfl

structure LastBlock (lines : List String) (front : List (String × List String)) (line : String)
    (payload : List String) (line' : String) (payload' : List String) : Prop where
  alone : opBlocks (diffLines (joinLines lines)) = front ++ [(line, payload)]
  followed : opBlocks (lines.map stripCr) = front ++ [(line', payload')]
  opening : openingLines (lines.map stripCr) = openingLines (diffLines (joinLines lines))
  exists_op : ∃ line ∈ lines.map stripCr, isOpLine line = true
  parseOp_eq : ∀ n p, parseOp n line' p = parseOp n line p
  length_le : payload.length ≤ payload'.length
  endsClean : payload' = payload → endsClean lines = true

section

variable {init : List String} {last : String}

theorem lastBlock_empty (hdiff : diffLines (joinLines (init ++ [""])) = init.map stripCr)
    (hop : ∃ line ∈ init.map stripCr, isOpLine line = true) :
    ∃ front line payload, LastBlock (init ++ [""]) front line payload line (payload ++ [""]) := by
  obtain ⟨front, line, payload, hblocks, happend⟩ := opBlocks_append hop
  obtain ⟨l, hl, hlop⟩ := hop
  have hmap : (init ++ [""]).map stripCr = init.map stripCr ++ [""] := List.map_append
  refine ⟨front, line, payload, ?_, ?_, ?_, ?_, fun _ _ => rfl, by simp,
    fun hsame => absurd hsame (by simp)⟩
  · rw [hdiff, hblocks]
  · rw [hmap]
    exact (happend [""]).1
  · rw [hmap, hdiff, (happend [""]).2]
  · rw [hmap]
    exact ⟨l, List.mem_append_left _ hl, hlop⟩

theorem lastBlock_op (hne : last ≠ "")
    (hdiff : diffLines (joinLines (init ++ [last])) = init.map stripCr ++ [last])
    (hlast : isOpLine last = true) :
    LastBlock (init ++ [last]) (opBlocks (init.map stripCr)) last [] (stripCr last) [] := by
  have hlast' : isOpLine (stripCr last) = true := by rw [isOpLine_stripCr, hlast]
  have hstart : ∀ line, isOpLine line = true → openingLines [line] = [] := fun line hline => by
    simp [openingLines, hline]
  have hone : ∀ line, isOpLine line = true → opBlocks [line] = [(line, [])] := fun line hline => by
    simp [opBlocks, openingLines, hline]
  have hmap : (init ++ [last]).map stripCr = init.map stripCr ++ [stripCr last] := List.map_append
  obtain ⟨hblocks, hlead⟩ := opBlocks_append_op (init.map stripCr) (hstart last hlast)
  obtain ⟨hblocks', hlead'⟩ := opBlocks_append_op (init.map stripCr) (hstart (stripCr last) hlast')
  refine ⟨?_, ?_, ?_, ?_, fun n p => parseOp_stripCr n hlast p, le_rfl, fun _ => ?_⟩
  · rw [hdiff, hblocks, hone last hlast]
  · rw [hmap, hblocks', hone _ hlast']
  · rw [hmap, hdiff, hlead, hlead']
  · rw [hmap]
    exact ⟨stripCr last, by simp, hlast'⟩
  · simp [endsClean, hne, hlast]

theorem lastBlock_payload (hne : last ≠ "")
    (hdiff : diffLines (joinLines (init ++ [last])) = init.map stripCr ++ [last])
    (hlast : isOpLine last = false) (hop : ∃ line ∈ init.map stripCr, isOpLine line = true) :
    ∃ front line payload, LastBlock (init ++ [last]) front line (payload ++ [last]) line
      (payload ++ [stripCr last]) := by
  have hlead : ∀ line, isOpLine line = false → openingLines [line] = [line] ∧ opBlocks [line] = [] :=
    fun line hline => by
    simp [openingLines, opBlocks, hline]
  have hlast' : isOpLine (stripCr last) = false := by rw [isOpLine_stripCr, hlast]
  have hmap : (init ++ [last]).map stripCr = init.map stripCr ++ [stripCr last] := List.map_append
  obtain ⟨front, line, payload, -, happend⟩ := opBlocks_append hop
  obtain ⟨l, hl, hlop⟩ := hop
  refine ⟨front, line, payload, ?_, ?_, ?_, ?_, fun _ _ => rfl, by simp, fun hsame => ?_⟩
  · rw [hdiff, (happend _).1, (hlead last hlast).1, (hlead last hlast).2]
  · rw [hmap, (happend _).1, (hlead _ hlast').1, (hlead _ hlast').2]
  · rw [hmap, hdiff, (happend _).2, (happend _).2]
  · rw [hmap]
    exact ⟨l, List.mem_append_left _ hl, hlop⟩
  · have hstrip : stripCr last = last := by simpa using hsame
    simp [endsClean, hne, hstrip]

end

theorem exists_lastBlock {lines : List String} (h : SectionLines lines)
    (hop : ∃ line ∈ diffLines (joinLines lines), isOpLine line = true) :
    ∃ front line payload line' payload', LastBlock lines front line payload line' payload' := by
  obtain ⟨init, last, rfl, hlast⟩ := h.exists_concat
  have hdiff := diffLines_joinLines (fun l hl => (h.mem l hl).1) hlast
  by_cases hempty : last = ""
  · subst hempty
    rw [if_pos rfl, List.append_nil] at hdiff
    rw [hdiff] at hop
    obtain ⟨front, line, payload, hblock⟩ := lastBlock_empty hdiff hop
    exact ⟨front, line, payload, line, _, hblock⟩
  rw [if_neg hempty] at hdiff
  cases hlastop : isOpLine last with
  | true => exact ⟨_, _, _, _, _, lastBlock_op hempty hdiff hlastop⟩
  | false =>
    have hinit : ∃ line ∈ init.map stripCr, isOpLine line = true := by
      rw [hdiff] at hop
      obtain ⟨line, hline, hop⟩ := hop
      rcases List.mem_append.mp hline with hline | hline
      · exact ⟨line, hline, hop⟩
      · rw [List.mem_singleton.mp hline, hlastop] at hop
        cases hop
    obtain ⟨front, line, payload, hblock⟩ := lastBlock_payload hempty hdiff hlastop hinit
    exact ⟨front, line, _, line, _, hblock⟩

theorem mapM_append_singleton {α β : Type*} {f : α → Option β} {xs : List α} {x : α} {ys : List β}
    (h : (xs ++ [x]).mapM f = some ys) :
    ∃ zs y, ys = zs ++ [y] ∧ xs.mapM f = some zs ∧ f x = some y := by
  rw [List.mapM_append] at h
  cases hxs : xs.mapM f with
  | none => simp [hxs] at h
  | some zs =>
    cases hx : f x with
    | none => simp [hxs, hx] at h
    | some y => exact ⟨zs, y, by simpa [hxs, hx] using h.symm, rfl, rfl⟩

theorem readOps_joined {C F : List String} (hC : SectionLines C) (hF : SectionLines F)
    {ops rest : List Op} (hops : readOps (diffLines (joinLines C)) = some ops)
    (hrest : readOps (diffLines (joinLines F)) = some rest) :
    ∃ joined common payload payload', readOps (diffLines (joinLines (C ++ F))) = some joined ∧
      ops.flatMap Op.payload = common ++ payload ∧
      joined.flatMap Op.payload =
        common ++ (payload' ++ openingLines (diffLines (joinLines F)) ++ rest.flatMap Op.payload) ∧
      payload.length ≤ payload'.length ∧ (payload' = payload → endsClean C = true) := by
  obtain ⟨hlead, hop⟩ := exists_op_of_readOps hC hops
  obtain ⟨hleadRest, -⟩ := exists_op_of_readOps hF hrest
  obtain ⟨front, line, payload, line', payload', hblock⟩ := exists_lastBlock hC hop
  obtain ⟨front', last, payload'', hlast, happend⟩ := opBlocks_append hblock.exists_op
  obtain ⟨rfl, hsame⟩ := List.append_inj' (hlast.symm.trans hblock.followed) rfl
  obtain ⟨rfl, rfl⟩ : last = line' ∧ payload'' = payload' := by simpa using hsame
  rw [readOps, if_pos hlead, hblock.alone] at hops
  rw [readOps, if_pos hleadRest] at hrest
  obtain ⟨frontOps, op, rfl, hfrontOps, hlastOp⟩ := mapM_append_singleton hops
  obtain ⟨own, hown, hpayload⟩ := parseOp_payload (n := 0) (readBlock_eq_some.mp hlastOp)
  obtain ⟨op', hparse, hown', -⟩ :=
    hpayload 0 (payload'' ++ openingLines (diffLines (joinLines F))) fun hnil => by
    have hlen := hblock.length_le
    rw [(List.append_eq_nil_iff.mp hnil).1, List.length_nil, Nat.le_zero] at hlen
    exact List.eq_nil_of_length_eq_zero hlen
  rw [← hblock.parseOp_eq] at hparse
  refine ⟨frontOps ++ op' :: rest, frontOps.flatMap Op.payload ++ own, payload, payload'', ?_, ?_,
    ?_, hblock.length_le, hblock.endsClean⟩
  · rw [diffLines_append hF fun l hl => (hC.mem l hl).1, readOps, (happend _).2,
      hblock.opening, if_pos hlead, (happend _).1, List.mapM_append, hfrontOps, mapM_cons_eq_bind,
      readBlock_eq_some.mpr hparse, hrest]
    rfl
  · simp only [List.flatMap_append, List.flatMap_cons, List.flatMap_nil, hown, List.append_nil,
      List.append_assoc]
  · simp only [List.flatMap_append, List.flatMap_cons, hown', List.append_assoc]

theorem readOps_flatten {Cs : List (List String)} (hne : Cs ≠ []) (h : ∀ C ∈ Cs, SectionLines C)
    {opss : List (List Op)}
    (hread : (Cs.mapM fun C => readOps (diffLines (joinLines C))) = some opss) :
    ∃ ops, readOps (diffLines (joinLines Cs.flatten)) = some ops ∧
      (opss.flatten.flatMap Op.payload).length ≤ (ops.flatMap Op.payload).length ∧
      (ops.flatMap Op.payload = opss.flatten.flatMap Op.payload → cleanBoundaries Cs = true) := by
  induction Cs generalizing opss with
  | nil => exact absurd rfl hne
  | cons C Cs ih =>
    rw [mapM_cons_eq_bind, Option.bind_eq_some_iff] at hread
    obtain ⟨ops, hC, hread⟩ := hread
    obtain ⟨more, hmore, rfl⟩ := Option.map_eq_some_iff.mp hread
    cases Cs with
    | nil =>
      have hnil : more = [] := by simpa using hmore.symm
      subst hnil
      refine ⟨ops, ?_, ?_, fun _ => rfl⟩
      · rw [List.flatten_cons, List.flatten_nil, List.append_nil, hC]
      · simp
    | cons D Cs =>
      have hrest : ∀ E ∈ D :: Cs, SectionLines E := fun E hE => h E (List.mem_cons_of_mem _ hE)
      have hflat := sectionLines_flatten (List.cons_ne_nil D Cs) hrest
      obtain ⟨rest, hrestRead, hle, hclean⟩ := ih (List.cons_ne_nil D Cs) hrest hmore
      obtain ⟨joined, common, payload, payload', hjoined, hops, htexts, hlen, hends⟩ :=
        readOps_joined (h C (by simp)) hflat hC hrestRead
      refine ⟨joined, hjoined, ?_, fun heq => ?_⟩
      · rw [List.flatten_cons, List.flatMap_append, hops, htexts]
        simp only [List.length_append]
        omega
      · rw [List.flatten_cons, List.flatMap_append, hops, htexts, List.append_assoc,
          List.append_assoc, List.append_cancel_left_eq] at heq
        have htotal := congrArg List.length heq
        simp only [List.length_append] at htotal
        obtain ⟨hpayloadEq, hmoreEq⟩ := List.append_inj heq (by omega)
        have hleadEq : openingLines (diffLines (joinLines (D :: Cs).flatten)) = [] :=
          List.eq_nil_of_length_eq_zero (by omega)
        rw [hleadEq, List.nil_append] at hmoreEq
        have hhead := (openingLines_diffLines_eq_nil hflat).mp hleadEq
        rw [headD_flatten (hrest D (by simp)).ne_nil] at hhead
        simp only [cleanBoundaries, hends hpayloadEq, hhead, hclean hmoreEq, Bool.and_self]

theorem get?_foldl_sections (sections : List HashlineInputSection)
    (byPath : InsertionMap String (List String)) (path : String) :
    (sections.foldl (fun (byPath : InsertionMap String (List String)) s =>
        byPath.set s.path ((byPath.get? s.path).getD [] ++ [s.diff])) byPath).get? path =
      if sectionDiffs sections path = [] then byPath.get? path
      else some ((byPath.get? path).getD [] ++ sectionDiffs sections path) := by
  induction sections generalizing byPath with
  | nil => rfl
  | cons s sections ih =>
    rw [List.foldl_cons, ih, InsertionMap.get?_set]
    by_cases hpath : s.path = path
    · subst hpath
      have hcons : sectionDiffs (s :: sections) s.path = s.diff :: sectionDiffs sections s.path := by
        simp [sectionDiffs]
      rw [hcons]
      by_cases hnil : sectionDiffs sections s.path = []
      · simp [hnil]
      · simp [hnil]
    · have hskip : sectionDiffs (s :: sections) path = sectionDiffs sections path := by
        simp [sectionDiffs, hpath]
      have hother : path ≠ s.path := fun h => hpath h.symm
      rw [hskip, if_neg hother]

theorem diff_of_mem_merge {sections : List HashlineInputSection} {s : HashlineInputSection}
    (h : s ∈ mergeSamePathSections sections) :
    s.diff = joinLines (sectionDiffs sections s.path) ∧ sectionDiffs sections s.path ≠ [] := by
  obtain ⟨e, he, rfl⟩ := List.mem_map.mp h
  have hget := InsertionMap.mem_entries.mp he
  rw [get?_foldl_sections] at hget
  split at hget
  · cases hget
  · rename_i hne
    exact ⟨by rw [← Option.some.inj hget]; rfl, hne⟩

theorem readOps_eq_none_iff {lines : List String} :
    readOps lines = none ↔ isRejected lines = true := by
  have hmapM : ∀ blocks : List (String × List String),
      blocks.mapM readBlock = none ↔ (blocks.any fun block => (readBlock block).isNone) = true := by
    intro blocks
    induction blocks with
    | nil => simp
    | cons block blocks ih =>
      rw [mapM_cons_eq_bind, List.any_cons]
      cases readBlock block with
      | none => simp
      | some op => simpa using ih
  rw [readOps, isRejected]
  cases (openingLines lines).all isBlank with
  | false => simp
  | true => simpa using hmapM (opBlocks lines)

theorem mapM_map_option {α β γ : Type*} (f : α → Option β) (g : β → γ) (xs : List α) :
    (xs.mapM fun x => (f x).map g) = (xs.mapM f).map (List.map g) := by
  induction xs with
  | nil => rfl
  | cons x xs ih =>
    rw [mapM_cons_eq_bind, mapM_cons_eq_bind, ih]
    cases f x with
    | none => rfl
    | some y => cases xs.mapM f <;> rfl

theorem mapM_congr_option {α β : Type*} {f g : α → Option β} {xs : List α}
    (h : ∀ x ∈ xs, f x = g x) :
    xs.mapM f = xs.mapM g := by
  induction xs with
  | nil => rfl
  | cons x xs ih =>
    rw [mapM_cons_eq_bind, mapM_cons_eq_bind, h x (by simp), ih fun y hy => h y (by simp [hy])]

theorem flatMap_flatten {α β : Type*} (f : α → List β) (xss : List (List α)) :
    xss.flatten.flatMap f = (xss.map fun xs => xs.flatMap f).flatten := by
  simp only [List.flatMap_def, List.map_flatten, List.flatten_flatten, List.map_map,
    Function.comp_def]

theorem unnumbered_flatten_iff {Cs : List (List String)} (hne : Cs ≠ [])
    (h : ∀ C ∈ Cs, SectionLines C) :
    (readOps (diffLines (joinLines Cs.flatten))).map (fun ops => ops.flatMap Op.unnumbered) =
        ((Cs.mapM fun C => readOps (diffLines (joinLines C))).map
          (List.map fun ops => ops.flatMap Op.unnumbered)).map List.flatten ↔
      cleanBoundaries Cs = true ∨ readOps (diffLines (joinLines Cs.flatten)) = none := by
  constructor
  · intro heq
    cases hread : readOps (diffLines (joinLines Cs.flatten)) with
    | none => exact .inr rfl
    | some ops =>
      left
      rw [hread] at heq
      cases hmore : Cs.mapM fun C => readOps (diffLines (joinLines C)) with
      | none => simp [hmore] at heq
      | some opss =>
        obtain ⟨ops', hread', -, hclean⟩ := readOps_flatten hne h hmore
        obtain rfl : ops = ops' := Option.some.inj (hread.symm.trans hread')
        refine hclean ?_
        simp only [hmore, Option.map_some, Option.some.injEq] at heq
        have htexts := congrArg (List.filterMap Edit.text?) heq
        rwa [← flatMap_flatten, filterMap_text?_flatMap, filterMap_text?_flatMap] at htexts
  · rintro (hclean | hnone)
    · rw [readOps_of_cleanBoundaries hne h hclean]
      cases Cs.mapM fun C => readOps (diffLines (joinLines C)) with
      | none => rfl
      | some opss => exact congrArg some (flatMap_flatten Op.unnumbered opss)
    · cases hmore : Cs.mapM fun C => readOps (diffLines (joinLines C)) with
      | none => rw [hnone]; rfl
      | some opss =>
        obtain ⟨ops, hread, -⟩ := readOps_flatten hne h hmore
        rw [hread] at hnone
        cases hnone

theorem sectionLines_of_sectionDiffs {tools : PathTools} {input : String}
    {options : SplitHashlineOptions} {sections : List HashlineInputSection}
    (hsplit : splitHashlineInputs tools input options = .ok sections) (path : String) :
    ∀ C ∈ (sectionDiffs sections path).map splitLines, SectionLines C := by
  intro C hC
  obtain ⟨d, hd, rfl⟩ := List.mem_map.mp hC
  obtain ⟨t, ht, rfl⟩ := List.mem_map.mp hd
  obtain ⟨ls, hls, hjoin⟩ := sectionLines_of_split hsplit t (List.mem_filter.mp ht).1
  rw [hjoin, splitLines_joinLines_of_notMem hls.ne_nil fun l hl => (hls.mem l hl).1]
  exact hls

/-- Parsing the joined sections of a path is parsing each of them exactly if their boundaries are
clean or the joined lines are rejected as they stand. -/
theorem merge_homomorphism_iff {tools : PathTools} {input : String} {options : SplitHashlineOptions}
    {sections : List HashlineInputSection}
    (hsplit : splitHashlineInputs tools input options = .ok sections) {s : HashlineInputSection}
    (hs : s ∈ mergeSamePathSections sections) :
    parsedEdits s.diff = ((sectionDiffs sections s.path).mapM parsedEdits).map List.flatten ↔
      cleanBoundaries ((sectionDiffs sections s.path).map splitLines) = true ∨
        isRejected (diffLines s.diff) = true := by
  obtain ⟨hdiff, hne⟩ := diff_of_mem_merge hs
  have hsections := sectionLines_of_sectionDiffs hsplit s.path
  generalize hCs : (sectionDiffs sections s.path).map splitLines = Cs at hsections
  have hdiffs : sectionDiffs sections s.path = Cs.map joinLines := by
    rw [← hCs, List.map_map]
    simp [Function.comp_def, joinLines_splitLines]
  have hCsne : Cs ≠ [] := by
    rw [hdiffs] at hne
    exact fun h => hne (by rw [h]; rfl)
  have hmerged : s.diff = joinLines Cs.flatten := by
    rw [hdiff, hdiffs, joinLines_flatten fun C hC => (hsections C hC).ne_nil]
  have heach : (sectionDiffs sections s.path).mapM parsedEdits =
      (Cs.mapM fun C => readOps (diffLines (joinLines C))).map
      (List.map fun ops => ops.flatMap Op.unnumbered) := by
    rw [hdiffs, List.mapM_map, ← mapM_map_option]
    exact mapM_congr_option fun C hC => parsedEdits_eq (isOpLine_of_mem_diffLines (hsections C hC))
  rw [heach, hmerged, parsedEdits_eq
    (isOpLine_of_mem_diffLines (sectionLines_flatten hCsne hsections)), ← readOps_eq_none_iff]
  exact unnumbered_flatten_iff hCsne hsections

def resolvedPaths : PathTools where
  isAbsolute path := path.toList.head? = some '/'
  resolve path := path
  relative _ path := path

theorem merge_homomorphism_delete_replace :
    splitHashlineInputs resolvedPaths "§a\n≔1hs\n§a\n≔2yo\nx" {} =
      .ok [⟨"a", "≔1hs"⟩, ⟨"a", "≔2yo\nx"⟩] ∧
      ⟨"a", "≔1hs\n≔2yo\nx"⟩ ∈ mergeSamePathSections [⟨"a", "≔1hs"⟩, ⟨"a", "≔2yo\nx"⟩] ∧
      parsedEdits "≔1hs\n≔2yo\nx" =
        ((sectionDiffs [⟨"a", "≔1hs"⟩, ⟨"a", "≔2yo\nx"⟩] "a").mapM
          parsedEdits).map List.flatten := by
  have hsplit : splitHashlineInputs resolvedPaths "§a\n≔1hs\n§a\n≔2yo\nx" {} =
      .ok [⟨"a", "≔1hs"⟩, ⟨"a", "≔2yo\nx"⟩] := by
    decide +kernel
  have hs : ⟨"a", "≔1hs\n≔2yo\nx"⟩ ∈ mergeSamePathSections [⟨"a", "≔1hs"⟩, ⟨"a", "≔2yo\nx"⟩] := by
    decide +kernel
  exact ⟨hsplit, hs, (merge_homomorphism_iff hsplit hs).mpr (.inl (by decide +kernel))⟩

theorem merge_turns_delete_into_replace :
    splitHashlineInputs resolvedPaths "§a\n≔1hs\n\n§a\n≔2yo\nx" {} =
      .ok [⟨"a", "≔1hs\n"⟩, ⟨"a", "≔2yo\nx"⟩] ∧
      mergeSamePathSections [⟨"a", "≔1hs\n"⟩, ⟨"a", "≔2yo\nx"⟩] = [⟨"a", "≔1hs\n\n≔2yo\nx"⟩] ∧
      parsedEdits "≔1hs\n\n≔2yo\nx" ≠ (["≔1hs\n", "≔2yo\nx"].mapM parsedEdits).map List.flatten := by
  refine ⟨by decide +kernel, by decide +kernel, by decide +kernel⟩

end JevCode.Hashline
