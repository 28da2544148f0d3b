import JevCode.Hashline.Input
import JevCode.Hashline.RoundTrip

namespace JevCode.Hashline

open JevCode.Text

def openingLines (lines : List String) : List String := lines.takeWhile fun line => !isOpLine line

def opBlocks : List String → List (String × List String)
  | [] => []
  | line :: lines =>
    if isOpLine line then (line, openingLines lines) :: opBlocks lines else opBlocks lines

def readBlock (block : String × List String) : Option Op :=
  match parseOp 0 block.1 block.2 with
  | .ok op => op
  | .error _ => none

def isBlank (line : String) : Bool := trim line.toList = []

def readOps (lines : List String) : Option (List Op) :=
  if (openingLines lines).all isBlank then (opBlocks lines).mapM readBlock else none

theorem opBlocks_of_lead {lines : List String} (h : ∀ line ∈ lines, isOpLine line = false)
    (rest : List String) :
    opBlocks (lines ++ rest) = opBlocks rest := by
  induction lines with
  | nil => rfl
  | cons line lines ih =>
    rw [List.cons_append, opBlocks, if_neg (by simp [h line (by simp)]),
      ih fun l hl => h l (by simp [hl])]

theorem openingLines_of_lead {lines : List String} (h : ∀ line ∈ lines, isOpLine line = false)
    (rest : List String) :
    openingLines (lines ++ rest) = lines ++ openingLines rest :=
  List.takeWhile_append_of_pos fun line hline => by simp [h line hline]

theorem opBlocks_dropWhile (lines : List String) :
    opBlocks (lines.dropWhile fun line => !isOpLine line) = opBlocks lines := by
  conv_rhs => rw [← List.takeWhile_append_dropWhile (p := fun line => !isOpLine line) (l := lines)]
  exact (opBlocks_of_lead (fun line hline => by simpa using List.mem_takeWhile_imp hline) _).symm

theorem openingLines_dropWhile (lines : List String) :
    openingLines (lines.dropWhile fun line => !isOpLine line) = [] := by
  rw [openingLines, List.takeWhile_eq_nil_iff]
  intro hpos
  have h :=
    List.head_dropWhile_not (fun line => !isOpLine line)
      (by simpa using List.ne_nil_of_length_pos hpos)
  rw [List.head_eq_getElem] at h
  simpa using h

theorem opBlocks_append {lines : List String} (h : ∃ line ∈ lines, isOpLine line = true) :
    ∃ front line payload, opBlocks lines = front ++ [(line, payload)] ∧ ∀ rest,
      opBlocks (lines ++ rest) = front ++ (line, payload ++ openingLines rest) :: opBlocks rest ∧
        openingLines (lines ++ rest) = openingLines lines := by
  induction lines with
  | nil => obtain ⟨line, hline, -⟩ := h; cases hline
  | cons line lines ih =>
    have hlead : ∀ rest, isOpLine line = true → openingLines (line :: rest) = [] :=
      fun rest hop => by simp [openingLines, hop]
    by_cases hmore : ∃ line ∈ lines, isOpLine line = true
    · obtain ⟨front, last, payload, hblocks, happend⟩ := ih hmore
      by_cases hop : isOpLine line = true
      · refine ⟨(line, openingLines lines) :: front, last, payload, ?_, fun rest => ⟨?_, ?_⟩⟩
        · rw [opBlocks, if_pos hop, hblocks, List.cons_append]
        · rw [List.cons_append, opBlocks, if_pos hop, (happend rest).1, (happend rest).2,
            List.cons_append]
        · rw [List.cons_append, hlead _ hop, hlead _ hop]
      · refine ⟨front, last, payload, ?_, fun rest => ⟨?_, ?_⟩⟩
        · rw [opBlocks, if_neg hop, hblocks]
        · rw [List.cons_append, opBlocks, if_neg hop, (happend rest).1]
        · have hsame := (happend rest).2
          simp only [openingLines] at hsame ⊢
          simp [hop, hsame]
    · have hnone : ∀ l ∈ lines, isOpLine l = false := fun l hl => by
        by_contra hne
        exact hmore ⟨l, hl, by simpa using hne⟩
      have hop : isOpLine line = true := by
        obtain ⟨l, hl, hop⟩ := h
        rcases List.mem_cons.mp hl with rfl | hl
        · exact hop
        · exact absurd ⟨l, hl, hop⟩ hmore
      have hempty := opBlocks_of_lead hnone []
      have hself := openingLines_of_lead hnone []
      rw [List.append_nil] at hempty hself
      refine ⟨[], line, lines, ?_, fun rest => ⟨?_, ?_⟩⟩
      · rw [opBlocks, if_pos hop, hempty, hself]
        simp [opBlocks, openingLines]
      · rw [List.cons_append, opBlocks, if_pos hop, openingLines_of_lead hnone,
          opBlocks_of_lead hnone, List.nil_append]
      · rw [List.cons_append, hlead _ hop, hlead _ hop]

theorem exists_head_of_isOpLine {line : String} (h : isOpLine line = true) :
    ∃ c ∈ [opInsertBefore, opInsertAfter, opReplace], ∃ cs, line.toList = c :: cs := by
  unfold isOpLine at h
  cases hline : line.toList with
  | nil => simp [hline] at h
  | cons c cs => exact ⟨c, by simpa [hline] using h, cs, rfl⟩

theorem isBlank_of_isOpLine {line : String} (h : isOpLine line = true) : isBlank line = false := by
  obtain ⟨c, hc, cs, hline⟩ := exists_head_of_isOpLine h
  have hops : ∀ c ∈ [opInsertBefore, opInsertAfter, opReplace], isSpace c = false :=
    forall_mem_of_all (by decide)
  rw [isBlank, hline, trim_cons (hops c hc)]
  rfl

section

variable {n : Nat} (m : Nat)

theorem parseLid_lineNum {raw : List Char} {a : Anchor} (h : parseLid raw n = .ok a) :
    parseLid raw m = .ok a := by
  unfold parseLid at h ⊢
  split at h
  · exact h
  · cases h

theorem parseRange_lineNum {raw : List Char} {range : ParsedRange}
    (h : parseRange raw n = .ok range) :
    parseRange raw m = .ok range := by
  unfold parseRange at h ⊢
  split at h
  · cases hstart : parseLid raw n with
    | error err => simp [hstart, bind, Except.bind] at h
    | ok start => simpa [hstart, parseLid_lineNum m hstart, bind, Except.bind] using h
  · rename_i startRaw endRaw _
    split at h
    · cases h
    · rename_i hne
      rw [if_neg hne]
      cases hstart : parseLid startRaw n with
      | error err => simp [hstart, bind, Except.bind] at h
      | ok start =>
        cases hstop : parseLid endRaw n with
        | error err => simp [hstart, hstop, bind, Except.bind] at h
        | ok stop =>
          simp only [hstart, hstop, bind, Except.bind] at h
          simp only [parseLid_lineNum m hstart, parseLid_lineNum m hstop, bind, Except.bind]
          split at h
          · cases h
          · rename_i hle
            split at h
            · cases h
            · rename_i hsame
              rw [dif_neg hle, dif_neg hsame]
              exact h
  · cases h

theorem parseInsertTarget_lineNum {raw : List Char} {toCursor : Anchor → Cursor} {cursor : Cursor}
    (h : parseInsertTarget raw n toCursor = .ok cursor) :
    parseInsertTarget raw m toCursor = .ok cursor := by
  unfold parseInsertTarget at h ⊢
  split at h
  · rename_i hbof
    rw [if_pos hbof]
    exact h
  split at h
  · rename_i hbof heof
    rw [if_neg hbof, if_pos heof]
    exact h
  · rename_i hbof heof
    rw [if_neg hbof, if_neg heof]
    cases ha : parseLid raw n with
    | error err => simp [ha, bind, Except.bind] at h
    | ok a => simpa [ha, parseLid_lineNum m ha, bind, Except.bind] using h

end

def MatchesInsert (line : String) (toCursor : Anchor → Cursor) (target : List Char)
    (body : Option (List Char)) : Prop :=
  (matchInsert opInsertBefore line.toList = some (target, body) ∧ toCursor = .beforeAnchor) ∨
    (matchInsert opInsertBefore line.toList = none ∧
    matchInsert opInsertAfter line.toList = some (target, body) ∧
      toCursor = .afterAnchor)

def MatchesReplace (line : String) (target : List Char) : Prop :=
  matchInsert opInsertBefore line.toList = none ∧ matchInsert opInsertAfter line.toList = none ∧
    matchReplace line.toList = some target

theorem parseOp_eq_some_iff {n : Nat} {line : String} {payload : List String} {op : Op} :
    parseOp n line payload = .ok (some op) ↔
      (∃ toCursor target body cursor first rest, MatchesInsert line toCursor target body ∧
        parseInsertTarget target n toCursor = .ok cursor ∧
        (resolveInlineInsertBody cursor
          body).toList ++ payload = first :: rest ∧ op = .insert cursor first rest) ∨
      ∃ target range, MatchesReplace line target ∧ parseRange target n = .ok range ∧
        op = .replace range payload := by
  have hinsert : ∀ (toCursor : Anchor → Cursor) (target : List Char) (body : Option (List Char)),
      (do
        let cursor ← parseInsertTarget target n toCursor
        match (resolveInlineInsertBody cursor body).toList ++ payload with
        | [] => throw (.payloadRequired n)
        | first :: rest =>
          return some (Op.insert cursor first rest) : Except ParseError (Option Op)) =
            .ok (some op) ↔
      ∃ cursor first rest, parseInsertTarget target n toCursor = .ok cursor ∧
        (resolveInlineInsertBody cursor body).toList ++ payload = first :: rest ∧
        op = .insert cursor first rest := by
    intro toCursor target body
    cases hc : parseInsertTarget target n toCursor with
    | error err => simp [bind, Except.bind]
    | ok cursor =>
      cases hlines : (resolveInlineInsertBody cursor body).toList ++ payload with
      | nil => simp [bind, Except.bind, hlines]
      | cons first rest => simp [bind, Except.bind, hlines, pure, Except.pure, eq_comm]
  unfold parseOp MatchesInsert MatchesReplace
  dsimp only
  cases hbefore : matchInsert opInsertBefore line.toList with
  | some m =>
    obtain ⟨target, body⟩ := m
    refine (hinsert .beforeAnchor target body).trans ?_
    simp
  | none =>
    dsimp only
    cases hafter : matchInsert opInsertAfter line.toList with
    | some m =>
      obtain ⟨target, body⟩ := m
      refine (hinsert .afterAnchor target body).trans ?_
      simp
    | none =>
      dsimp only
      cases hreplace : matchReplace line.toList with
      | none => simp
      | some target =>
        dsimp only
        cases hr : parseRange target n with
        | error err => simp [bind, Except.bind, hr]
        | ok range => simp [bind, Except.bind, pure, Except.pure, hr, eq_comm]

theorem head_of_matchInsert {op : Char} {cs : List Char} {m : List Char × Option (List Char)}
    (h : matchInsert op cs = some m) : cs.head? = some op := by
  unfold matchInsert at h
  split at h
  · cases h
  · split at h
    · cases h
    · rename_i hc
      rw [List.head?_cons, not_not.mp hc]

theorem head_of_matchReplace {cs target : List Char} (h : matchReplace cs = some target) :
    cs.head? = some opReplace := by
  unfold matchReplace at h
  split at h
  · cases h
  · split at h
    · cases h
    · rename_i hc
      rw [List.head?_cons, not_not.mp hc]

section

variable {n : Nat} {line : String} {payload : List String} {op : Op}

theorem isOpLine_of_parseOp (h : parseOp n line payload = .ok (some op)) : isOpLine line = true := by
  rcases parseOp_eq_some_iff.mp h with ⟨_, _, _, _, _, _, hmatch | hmatch, -⟩ | ⟨_, _, hmatch, -⟩
  · simp [isOpLine, head_of_matchInsert hmatch.1]
  · simp [isOpLine, head_of_matchInsert hmatch.2.1]
  · simp [isOpLine, head_of_matchReplace hmatch.2.2]

theorem parseOp_payload (h : parseOp n line payload = .ok (some op)) :
    ∃ own, op.payload = own ++ payload ∧ ∀ m payload', (payload' = [] → payload = []) →
      ∃ op', parseOp m line payload' = .ok (some op') ∧ op'.payload = own ++ payload' ∧
        (payload' = payload → op' = op) := by
  rcases parseOp_eq_some_iff.mp h with
    ⟨toCursor, target, body, cursor, first, rest, hmatch, hcursor, hlines, rfl⟩ |
      ⟨target, range, hmatch, hrange, rfl⟩
  · refine ⟨(resolveInlineInsertBody cursor body).toList, hlines.symm, fun m payload' hempty => ?_⟩
    have hne : (resolveInlineInsertBody cursor body).toList ++ payload' ≠ [] := by
      intro hnil
      obtain ⟨hown, hpayload⟩ := List.append_eq_nil_iff.mp hnil
      rw [hown, hempty hpayload] at hlines
      cases hlines
    obtain ⟨first', rest', hlines'⟩ := List.exists_cons_of_ne_nil hne
    refine ⟨.insert cursor first' rest', ?_, hlines'.symm, fun heq => ?_⟩
    · exact parseOp_eq_some_iff.mpr (.inl ⟨toCursor, target, body, cursor, first', rest', hmatch,
        parseInsertTarget_lineNum m hcursor, hlines', rfl⟩)
    · rw [heq, hlines] at hlines'
      cases hlines'
      rfl
  · refine ⟨[], rfl, fun m payload' _ => ⟨.replace range payload', ?_, rfl, fun heq => by rw [heq]⟩⟩
    exact parseOp_eq_some_iff.mpr (.inr ⟨target, range, hmatch, parseRange_lineNum m hrange, rfl⟩)

theorem readBlock_eq_some :
    readBlock (line, payload) = some op ↔ parseOp n line payload = .ok (some op) := by
  have hzero : readBlock (line, payload) = some op ↔ parseOp 0 line payload = .ok (some op) := by
    unfold readBlock
    dsimp only
    cases parseOp 0 line payload <;> simp
  have hother : ∀ m k, parseOp m line payload = .ok (some op) →
      parseOp k line payload = .ok (some op) := by
    intro m k h
    obtain ⟨own, -, hread⟩ := parseOp_payload h
    obtain ⟨op', hop', -, hsame⟩ := hread k payload id
    rw [hsame rfl] at hop'
    exact hop'
  exact hzero.trans ⟨hother 0 n, hother n 0⟩

theorem readBlock_eq_none (h : ∀ op, parseOp n line payload ≠ .ok (some op)) :
    readBlock (line, payload) = none := by
  rw [Option.eq_none_iff_forall_ne_some]
  exact fun op hop => h op (readBlock_eq_some.mp hop)

end

theorem readOps_cons_blank {line : String} {lines : List String} (h : isBlank line = true) :
    readOps (line :: lines) = readOps lines := by
  have hop : isOpLine line = false := by
    rw [Bool.eq_false_iff]
    intro hop
    rw [isBlank_of_isOpLine hop] at h
    cases h
  simp [readOps, openingLines, opBlocks, hop, h]

theorem mapM_cons_eq_bind {α β : Type*} (f : α → Option β) (x : α) (xs : List α) :
    (x :: xs).mapM f = (f x).bind fun y => (xs.mapM f).map fun ys => y :: ys := by
  rw [List.mapM_cons]
  cases f x with
  | none => rfl
  | some y => cases xs.mapM f <;> rfl

theorem readOps_cons_op {line : String} {lines : List String} (h : isOpLine line = true) :
    readOps (line :: lines) = (readBlock (line, openingLines lines)).bind fun op =>
      ((opBlocks lines).mapM readBlock).map fun ops => op :: ops := by
  have hlead : openingLines (line :: lines) = [] := by simp [openingLines, h]
  rw [readOps, hlead, List.all_nil, if_pos rfl, opBlocks, if_pos h, mapM_cons_eq_bind]

theorem readOps_cons_other {line : String} {lines : List String} (hblank : isBlank line = false)
    (hop : isOpLine line = false) : readOps (line :: lines) = none := by
  simp [readOps, openingLines, hop, hblank]

theorem collectPayload_sectionLines {lines : List String}
    (h : ∀ line ∈ lines, isPayloadTerminatorLine line = isOpLine line) :
    collectPayload lines = (openingLines lines, lines.dropWhile fun line => !isOpLine line) := by
  induction lines with
  | nil => rfl
  | cons line lines ih =>
    have ih := ih fun l hl => h l (by simp [hl])
    simp only [collectPayload, openingLines, Prod.mk.injEq] at ih ⊢
    simp only [List.takeWhile_cons, List.dropWhile_cons, h line (by simp), ih.1, ih.2, and_self]

theorem parseLines_eq_readOps {n : Nat} {lines : List String}
    (hlines : ∀ line ∈ lines, isPayloadTerminatorLine line = isOpLine line) :
    (parseLines n lines).toOption.map (fun p => p.1.map Prod.snd) = readOps lines := by
  have hmarkers : ∀ line ∈ lines, line ∉ [endPatchMarker, abortMarker, beginPatchMarker] := by
    intro line hline hmem
    have hmarker : ∀ line ∈ [endPatchMarker, abortMarker, beginPatchMarker],
        isPayloadTerminatorLine line ≠ isOpLine line := by decide +kernel
    exact hmarker line hmem (hlines line hline)
  induction n, lines using parseLines.induct with
  | case1 n => simp [parseLines, readOps, openingLines, opBlocks, Except.toOption]
  | case2 n line rest hblank ih =>
    rw [parseLines, if_pos hblank, readOps_cons_blank (decide_eq_true hblank)]
    exact ih (fun l hl => hlines l (by simp [hl])) fun l hl => hmarkers l (by simp [hl])
  | case3 n rest hblank => exact absurd (by simp) (hmarkers endPatchMarker (by simp))
  | case4 n rest hblank hend => exact absurd (by simp) (hmarkers abortMarker (by simp))
  | case5 n rest hblank hend habort ih =>
    exact absurd (by simp) (hmarkers beginPatchMarker (by simp))
  | case6 n line rest hblank hend habort hbegin payload =>
    rename_i ih
    have hrest : ∀ l ∈ rest, isPayloadTerminatorLine l = isOpLine l := fun l hl =>
      hlines l (by simp [hl])
    have hcollect := collectPayload_sectionLines hrest
    have hpayload : payload = openingLines rest := congrArg Prod.fst hcollect
    rw [hcollect, hpayload] at ih
    rw [parseLines, if_neg hblank, if_neg hend, if_neg habort, if_neg hbegin, hcollect]
    dsimp only at ih ⊢
    have hnone : (∀ op, parseOp n line (openingLines rest) ≠ .ok (some op)) →
        readOps (line :: rest) = none := by
      intro hparse
      by_cases hop : isOpLine line = true
      · rw [readOps_cons_op hop, readBlock_eq_none hparse]
        rfl
      · exact readOps_cons_other (decide_eq_false hblank) (by simpa using hop)
    cases hparse : parseOp n line (openingLines rest) with
    | error err =>
      rw [hnone (by simp [hparse])]
      rfl
    | ok op =>
      cases op with
      | none =>
        rw [hnone (by simp [hparse])]
        simp only [bind, Except.bind]
        split <;> rfl
      | some op =>
        have hmore := ih (fun l hl => hrest l (List.dropWhile_subset _ hl))
          fun l hl => hmarkers l (by simp [List.dropWhile_subset _ hl])
        rw [readOps, openingLines_dropWhile, List.all_nil, if_pos rfl, opBlocks_dropWhile] at hmore
        rw [readOps_cons_op (isOpLine_of_parseOp hparse), readBlock_eq_some.mpr hparse, ← hmore]
        cases parseLines (n + 1 + (openingLines rest).length)
          (rest.dropWhile fun line => !isOpLine line) <;> rfl

theorem stripCr_cases (line : String) :
    (stripCr line = line ∧ line.toList.getLast? ≠ some '\r') ∨ line.toList =
    (stripCr line).toList ++ ['\r'] := by
  unfold stripCr
  split
  · rename_i h
    obtain ⟨cs, hcs⟩ := List.getLast?_eq_some_iff.mp h
    exact .inr (by simp [hcs])
  · rename_i h
    exact .inl ⟨rfl, h⟩

theorem isOpLine_stripCr (line : String) : isOpLine (stripCr line) = isOpLine line := by
  rcases stripCr_cases line with ⟨h, -⟩ | h
  · rw [h]
  · rw [isOpLine, isOpLine, h]
    cases (stripCr line).toList with
    | nil => rfl
    | cons c cs => rfl

theorem isBlank_stripCr (line : String) : isBlank (stripCr line) = isBlank line := by
  rcases stripCr_cases line with ⟨h, -⟩ | h
  · rw [h]
  · have hspace : isSpace '\r' = true := by decide
    rw [isBlank, isBlank, h]
    refine decide_eq_decide.mpr ?_
    simp only [trim_eq_nil_iff, List.mem_append, List.mem_singleton]
    constructor
    · rintro hall c (hc | rfl)
      · exact hall c hc
      · exact hspace
    · exact fun hall c hc => hall c (.inl hc)

theorem isPayloadTerminatorLine_stripCr (line : String) :
    isPayloadTerminatorLine (stripCr line) = isPayloadTerminatorLine line := by
  rcases stripCr_cases line with ⟨h, -⟩ | h
  · rw [h]
  · have hmarker : isEnvelopeOrAbortMarkerLine line =
        isEnvelopeOrAbortMarkerLine (stripCr line) := by
      rw [isEnvelopeOrAbortMarkerLine, isEnvelopeOrAbortMarkerLine, h,
        trimEnd_append_space _ (by decide)]
    rw [isPayloadTerminatorLine, isPayloadTerminatorLine, hmarker, h]
    cases (stripCr line).toList with
    | nil => rfl
    | cons c cs => rfl

theorem scan_concat {α : Type*} {p : α → Bool} {x : α} (h : p x = false) (xs : List α) :
    (xs ++ [x]).takeWhile p = xs.takeWhile p ∧ (xs ++ [x]).dropWhile p = xs.dropWhile p ++ [x] := by
  induction xs with
  | nil => simp [h]
  | cons y xs ih =>
    cases hy : p y <;> simp [hy, ih]

theorem bodyAndEnd_append_cr (s : List Char) : bodyAndEnd (s ++ ['\r']) = bodyAndEnd s := by
  have hdot : isDot '\r' = false := by decide
  have hspace : isSpace '\r' = true := by decide
  have hall : ∀ s : List Char, (s ++ ['\r']).all isSpace = s.all isSpace := fun s => by simp [hspace]
  cases s with
  | nil => rfl
  | cons c s =>
    by_cases hc : c = '|'
    · subst hc
      simp only [List.cons_append, bodyAndEnd, (scan_concat hdot s).1, (scan_concat hdot s).2, hall]
    · have hbar : ∀ s : List Char, bodyAndEnd (c :: s) = if (c :: s).all isSpace then some none
          else none := fun s => by
        rw [bodyAndEnd]
        rintro rest ⟨⟩
        exact hc rfl
      rw [List.cons_append, hbar, hbar, ← List.cons_append, hall]

theorem trimStart_append_cr (s : List Char) :
    trimStart (s ++ ['\r']) = trimStart s ++ ['\r'] ∨
      (trimStart (s ++ ['\r']) = [] ∧ trimStart s = []) := by
  by_cases h : trimStart s = []
  · right
    refine ⟨?_, h⟩
    rw [trimStart, List.dropWhile_append, if_pos (by simpa [trimStart] using h)]
    rfl
  · exact .inl (trimStart_append h _)

theorem matchInsert_append_cr (op : Char) {c : Char} {s : List Char} :
    matchInsert op (c :: s ++ ['\r']) = matchInsert op (c :: s) := by
  obtain ⟨htake, hdrop⟩ :=
    scan_concat (p := fun c => c ≠ '|' && !isSpace c) (x := '\r') (by decide) (trimStart s)
  unfold matchInsert
  simp only [List.cons_append]
  split
  · rfl
  rcases trimStart_append_cr s with h | ⟨h, h'⟩
  · rw [h, htake, hdrop, bodyAndEnd_append_cr]
  · rw [h, h']

theorem matchReplace_append_cr {c : Char} {s : List Char} :
    matchReplace (c :: s ++ ['\r']) = matchReplace (c :: s) := by
  obtain ⟨htake, hdrop⟩ :=
    scan_concat (p := fun c => !isSpace c) (x := '\r') (by decide) (trimStart s)
  have hspace : isSpace '\r' = true := by decide
  unfold matchReplace
  simp only [List.cons_append]
  split
  · rfl
  rcases trimStart_append_cr s with h | ⟨h, h'⟩
  · rw [h, htake, hdrop]
    simp only [List.all_append, List.all_cons, List.all_nil, hspace, Bool.and_true]
  · rw [h, h']

theorem parseOp_stripCr (n : Nat) {line : String} (h : isOpLine line = true)
    (payload : List String) :
    parseOp n (stripCr line) payload = parseOp n line payload := by
  rcases stripCr_cases line with ⟨hsame, -⟩ | hcr
  · rw [hsame]
  · rw [← isOpLine_stripCr] at h
    obtain ⟨c, -, cs, hline⟩ := exists_head_of_isOpLine h
    rw [hline] at hcr
    unfold parseOp
    rw [hcr, hline]
    simp only [matchInsert_append_cr, matchReplace_append_cr]

end JevCode.Hashline
