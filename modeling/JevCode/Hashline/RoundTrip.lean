import JevCode.Hashline.Parser

namespace JevCode.Hashline

open JevCode.Text

def Anchor.render (a : Anchor) : String := String.ofList (Nat.toDigits 10 a.line) ++ a.hash

def Anchor.isFull (a : Anchor) : Bool :=
  1 ≤ a.line && a.hash.toList.length = 2 && a.hash.toList.all isLower

def Op.headers : Op → List String
  | .insert (.beforeAnchor a) _ _ => [String.ofList (opInsertBefore :: a.render.toList)]
  | .insert (.afterAnchor a) _ _ => [String.ofList (opInsertAfter :: a.render.toList)]
  | .insert .bof _ _ => [opInsertBefore, opInsertAfter].map fun op =>
    String.ofList (op :: "BOF".toList)
  | .insert .eof _ _ => [opInsertBefore, opInsertAfter].map fun op =>
    String.ofList (op :: "EOF".toList)
  | .replace range _ =>
    String.ofList (opReplace ::
      (range.start.render.toList ++ "..".toList ++ range.stop.render.toList)) ::
      if range.start = range.stop
      then [String.ofList (opReplace :: range.start.render.toList)] else []

def Op.anchorsFull : Op → Bool
  | .insert cursor _ _ => cursor.anchor?.all Anchor.isFull
  | .replace range _ => range.start.isFull && range.stop.isFull

def isPayloadLine (line : String) : Bool :=
  '\r' ∉ line.toList && '\n' ∉ line.toList && !isPayloadTerminatorLine line

structure WrittenOp where
  op : Op
  header : String
  header_mem : header ∈ op.headers
  full : op.anchorsFull = true
  payload : ∀ line ∈ op.payload, isPayloadLine line = true

def WrittenOp.lines (w : WrittenOp) : List String := w.header :: w.op.payload

def expectedInserts (cursor : Cursor) (payload : List String) (lineNum index : Nat) : List Edit :=
  (payload.zipIdx index).map fun (text, k) => .insert cursor text lineNum k

def expectedDeletes (start stop : Anchor) (lineNum index : Nat) : List Edit :=
  if start.line = stop.line then [.delete start lineNum index]
  else
    [.delete start lineNum index] ++
      (List.ofFn fun k : Fin (stop.line - start.line - 1) =>
        .delete ⟨start.line + 1 + k, rangeInteriorHash⟩ lineNum (index + 1 + k)) ++
      [.delete stop lineNum (index + (stop.line - start.line))]

def Op.expected (lineNum index : Nat) : Op → List Edit
  | .insert cursor first rest => expectedInserts cursor (first :: rest) lineNum index
  | .replace range payload =>
    expectedInserts (.beforeAnchor range.start) payload lineNum index ++
      expectedDeletes range.start range.stop lineNum (index + payload.length)

/-- The edits of a diff whose ops follow each other, each on a line of its own with its payload under
it. -/
def expectedEdits (lineNum index : Nat) : List Op → List Edit
  | [] => []
  | op :: ops =>
    op.expected lineNum index ++
      expectedEdits (lineNum + 1 + op.payload.length)
      (index + (op.expected lineNum index).length) ops

def endLines (lines : List String) : String := String.join (lines.map (· ++ "\n"))

def renderOps (ops : List WrittenOp) : String := endLines (ops.flatMap WrittenOp.lines)

theorem endLines_cons (line : String) (lines : List String) :
    endLines (line :: lines) = line ++ "\n" ++ endLines lines := by
  apply String.toList_inj.mp
  simp [endLines, String.toList_join]

theorem splitLines_endLines {lines : List String} (h : ∀ line ∈ lines, '\n' ∉ line.toList) :
    splitLines (endLines lines) = lines ++ [""] := by
  induction lines with
  | nil => rfl
  | cons line lines ih =>
    rw [endLines_cons, splitLines_append_newline, splitLines_of_notMem (h line (by simp)),
      ih fun l hl => h l (by simp [hl])]
    rfl

theorem splitCrLf_endLines {lines : List String}
    (h : ∀ line ∈ lines, '\r' ∉ line.toList ∧ '\n' ∉ line.toList) :
    splitCrLf (endLines lines) = lines ++ [""] := by
  have hkeep : ∀ line ∈ lines.reverse,
      (if line.toList.getLast? = some '\r' then String.ofList line.toList.dropLast
      else line) = line := by
    intro line hline
    rw [if_neg fun hlast => (h line (by simpa using hline)).1 (List.mem_of_getLast? hlast)]
  rw [splitCrLf, splitLines_endLines fun line hline => (h line hline).2, List.reverse_append,
    List.reverse_singleton, List.singleton_append]
  dsimp only
  rw [List.map_congr_left hkeep]
  simp

theorem getLast?_endLines {lines : List String} (h : lines ≠ []) :
    (endLines lines).toList.getLast? = some '\n' := by
  obtain ⟨front, last, rfl⟩ := (List.eq_nil_or_concat' lines).resolve_left h
  simp [endLines, String.toList_join]

theorem collectPayload_append {payload rest : List String}
    (hpayload : ∀ t ∈ payload, isPayloadTerminatorLine t = false)
    (hrest : rest.head?.all isPayloadTerminatorLine = true) :
    collectPayload (payload ++ rest) = (payload, rest) := by
  have hstop : (rest.takeWhile fun line => !isPayloadTerminatorLine line) = [] ∧
      (rest.dropWhile fun line => !isPayloadTerminatorLine line) = rest := by
    cases rest with
    | nil => exact ⟨rfl, rfl⟩
    | cons line rest =>
      have hline : isPayloadTerminatorLine line = true := by simpa using hrest
      simp [hline]
  have hkeep : ∀ t ∈ payload, (!isPayloadTerminatorLine t) = true := fun t ht => by
    simp [hpayload t ht]
  rw [collectPayload, List.takeWhile_append_of_pos hkeep, List.dropWhile_append_of_pos hkeep,
    hstop.1, hstop.2, List.append_nil]

theorem head?_toDigits {n : Nat} (h : 1 ≤ n) : ∃ d ds, Nat.toDigits 10 n = d :: ds ∧ d ≠ '0' := by
  induction n using Nat.strongRecOn with
  | ind n ih =>
    by_cases hlt : n < 10
    · have hdigit : ∀ m < 10, 1 ≤ m → m.digitChar ≠ '0' := by decide
      exact ⟨n.digitChar, [], Nat.toDigits_of_lt_base hlt, hdigit n hlt h⟩
    · obtain ⟨d, ds, hds, hd⟩ := ih (n / 10) (by omega) (by omega)
      refine ⟨d, ds ++ [(n % 10).digitChar], ?_, hd⟩
      rw [Nat.toDigits_of_base_le (by decide) (by omega), hds, List.cons_append]

theorem isLower_iff {c : Char} : isLower c = true ↔ 97 ≤ c.toNat ∧ c.toNat ≤ 122 := by
  simp only [isLower, Bool.and_eq_true, decide_eq_true_eq]
  exact Iff.rfl

theorem mem_render {a : Anchor} (ha : a.isFull = true) {c : Char} (hc : c ∈ a.render.toList) :
    isSpace c = false ∧ c ≠ '|' ∧ c ≠ '.' ∧ c ∉ ['+', '<', '-', '='] := by
  simp only [Anchor.isFull, Bool.and_eq_true, decide_eq_true_eq] at ha
  have hrange : isDigit c = true ∨ isLower c = true := by
    simp only [Anchor.render, String.toList_append, String.toList_ofList, List.mem_append] at hc
    rcases hc with hc | hc
    · exact .inl (isDigit_of_mem_toDigits hc)
    · exact .inr (List.all_eq_true.mp ha.2 c hc)
  rw [isDigit_iff, isLower_iff] at hrange
  refine ⟨isSpace_of_printable (by omega) (by omega), ?_, ?_, ?_⟩
  · rintro rfl
    simp at hrange
  · rintro rfl
    simp at hrange
  · intro hmem
    simp only [List.mem_cons, List.not_mem_nil, or_false] at hmem
    rcases hmem with rfl | rfl | rfl | rfl <;> simp at hrange

theorem render_ne_nil {a : Anchor} : a.render.toList ≠ [] := by
  simp [Anchor.render, Nat.toDigits_ne_nil]

theorem matchLid_render {a : Anchor} (ha : a.isFull = true) : matchLid a.render.toList = some a := by
  have hfull := ha
  simp only [Anchor.isFull, Bool.and_eq_true, decide_eq_true_eq] at hfull
  obtain ⟨⟨hline, hlen⟩, hlower⟩ := hfull
  obtain ⟨x, y, hxy⟩ := List.length_eq_two.mp hlen
  obtain ⟨d, ds, hds, hd⟩ := head?_toDigits hline
  have hdigits : ∀ c ∈ d :: ds, isDigit c = true := fun c hc => isDigit_of_mem_toDigits (hds ▸ hc)
  have hd' : isDigit d = true := hdigits d (by simp)
  have hx : isLower x = true ∧ isLower y = true := by simpa [hxy] using hlower
  have hraw : a.render.toList = (d :: ds) ++ [x, y] := by simp [Anchor.render, hds, hxy]
  have hspace : isSpace d = false := (mem_render ha (by simp [hraw])).1
  have hmark : d ∉ ['>', '+', '-', '*'] := by
    intro hmem
    rw [isDigit_iff] at hd'
    simp only [List.mem_cons, List.not_mem_nil, or_false] at hmem
    rcases hmem with rfl | rfl | rfl | rfl <;> simp at hd'
  have hnot : isDigit x = false := by
    rw [Bool.eq_false_iff, ne_eq, isDigit_iff]
    have := isLower_iff.mp hx.1
    omega
  have htrim : trimStart ((trimStart a.render.toList).dropWhile fun c => c ∈ ['>', '+', '-', '*']) =
      (d :: ds) ++ [x, y] := by
    rw [hraw, List.cons_append, trimStart_cons hspace,
      List.dropWhile_cons_of_neg (by simpa using hmark), trimStart_cons hspace]
  have htake : ((d :: ds) ++ [x, y]).takeWhile isDigit = d :: ds := by
    rw [List.takeWhile_append_of_pos hdigits]
    simp [hnot]
  have hdrop : ((d :: ds) ++ [x, y]).dropWhile isDigit = [x, y] := by
    rw [List.dropWhile_append_of_pos hdigits]
    simp [hnot]
  have hvalue : (d :: ds).foldl (fun n c => 10 * n + (c.toNat - '0'.toNat)) 0 = a.line := by
    rw [← hds]
    exact Nat.ofDigitChars_ten_toDigits
  have hhash : String.ofList [x, y] = a.hash := by rw [← hxy, String.ofList_toList]
  unfold matchLid
  simp only [htrim, htake, hdrop, hvalue, hhash]
  simp [hd, hx, bodyAndEnd]

theorem parseLid_render {a : Anchor} (ha : a.isFull = true) (lineNum : Nat) :
    parseLid a.render.toList lineNum = .ok a := by
  rw [parseLid, matchLid_render ha]

theorem splitDots_of_notMem {s : List Char} (h : '.' ∉ s) : splitDots s = [s] := by
  induction s with
  | nil => rfl
  | cons c s ih =>
    have hc : c ≠ '.' := fun hc => h (by simp [hc])
    rw [splitDots, ih fun hs => h (by simp [hs])]
    · rfl
    · rintro rest rfl
      exact absurd rfl hc

theorem splitDots_append {s t : List Char} (h : '.' ∉ s) :
    splitDots (s ++ "..".toList ++ t) = s :: splitDots t := by
  induction s with
  | nil => rfl
  | cons c s ih =>
    have hc : c ≠ '.' := fun hc => h (by simp [hc])
    rw [List.cons_append, List.cons_append, splitDots, ih fun hs => h (by simp [hs])]
    · rfl
    · rintro rest rfl
      exact absurd rfl hc

theorem parseRange_one {range : ParsedRange} (h : range.start = range.stop)
    (hfull : range.start.isFull = true) (lineNum : Nat) :
    parseRange range.start.render.toList lineNum = .ok range := by
  have hdot : '.' ∉ range.start.render.toList := fun hc => (mem_render hfull hc).2.2.1 rfl
  obtain ⟨start, stop, le, same⟩ := range
  cases h
  rw [parseRange, splitDots_of_notMem hdot]
  simp only [parseLid_render hfull]
  rfl

theorem parseRange_two {range : ParsedRange} (hstart : range.start.isFull = true)
    (hstop : range.stop.isFull = true) (lineNum : Nat) :
    parseRange (range.start.render.toList ++ "..".toList ++ range.stop.render.toList) lineNum =
      .ok range := by
  have hdot : '.' ∉ range.start.render.toList := fun hc => (mem_render hstart hc).2.2.1 rfl
  have hdot' : '.' ∉ range.stop.render.toList := fun hc => (mem_render hstop hc).2.2.1 rfl
  obtain ⟨start, stop, le, same⟩ := range
  dsimp only at *
  rw [parseRange, splitDots_append hdot, splitDots_of_notMem hdot']
  have hsame : ¬ (stop.line = start.line ∧ stop.hash ≠ start.hash) := fun h => h.2 (same h.1)
  simp only [render_ne_nil, false_or, if_false, parseLid_render hstart, parseLid_render hstop,
    bind, Except.bind, Nat.not_lt.mpr le, hsame, dite_false, pure, Except.pure]

theorem matchInsert_target {op : Char} {target : List Char} (hne : target ≠ [])
    (h : ∀ c ∈ target, isSpace c = false ∧ c ≠ '|') :
    matchInsert op (op :: target) = some (target, none) := by
  have htarget : ∀ c ∈ target, (fun c => c ≠ '|' && !isSpace c) c = true :=
    fun c hc => by simp [h c hc]
  have htrim : trimStart target = target := by
    cases target with
    | nil => rfl
    | cons c target => exact trimStart_cons (h c (by simp)).1 _
  have htake : (target.takeWhile fun c => c ≠ '|' && !isSpace c) = target :=
    List.takeWhile_eq_self_iff.mpr htarget
  have hdrop : (target.dropWhile fun c => c ≠ '|' && !isSpace c) = [] :=
    List.dropWhile_eq_nil_iff.mpr htarget
  unfold matchInsert
  simp only [ne_eq, not_true_eq_false, if_false, htrim, htake, hdrop]
  cases target with
  | nil => exact absurd rfl hne
  | cons c target => rfl

theorem matchInsert_of_ne {op c : Char} (h : c ≠ op) (rest : List Char) :
    matchInsert op (c :: rest) = none := by
  simp [matchInsert, h]

theorem matchReplace_target {target : List Char} (hne : target ≠ [])
    (hspace : ∀ c ∈ target, isSpace c = false)
    (hhead : ∀ c ∈ target.head?, c ∉ ['+', '<', '-', '=']) :
    matchReplace (opReplace :: target) = some target := by
  have htarget : ∀ c ∈ target, (fun c => !isSpace c) c = true := fun c hc => by simp [hspace c hc]
  have htrim : trimStart target = target := by
    cases target with
    | nil => rfl
    | cons c target => exact trimStart_cons (hspace c (by simp)) _
  have htake : (target.takeWhile fun c => !isSpace c) = target :=
    List.takeWhile_eq_self_iff.mpr htarget
  have hdrop : (target.dropWhile fun c => !isSpace c) = [] := List.dropWhile_eq_nil_iff.mpr htarget
  unfold matchReplace
  simp only [ne_eq, not_true_eq_false, if_false, htrim, htake, hdrop]
  cases target with
  | nil => exact absurd rfl hne
  | cons c target =>
    have hc := hhead c rfl
    simp only [hc, if_false]
    rfl

section

variable {lineNum : Nat} {target : List Char} {cursor : Cursor} {first : String} {rest : List String}

theorem parseOp_insertBefore (hne : target ≠ []) (h : ∀ c ∈ target, isSpace c = false ∧ c ≠ '|')
    (hcursor : parseInsertTarget target lineNum .beforeAnchor = .ok cursor) :
    parseOp lineNum (String.ofList (opInsertBefore :: target)) (first :: rest) =
      .ok (some (.insert cursor first rest)) := by
  unfold parseOp
  simp only [String.toList_ofList, matchInsert_target hne h, hcursor]
  rfl

theorem parseOp_insertAfter (hne : target ≠ []) (h : ∀ c ∈ target, isSpace c = false ∧ c ≠ '|')
    (hcursor : parseInsertTarget target lineNum .afterAnchor = .ok cursor) :
    parseOp lineNum (String.ofList (opInsertAfter :: target)) (first :: rest) =
      .ok (some (.insert cursor first rest)) := by
  have hbefore : matchInsert opInsertBefore (opInsertAfter :: target) = none :=
    matchInsert_of_ne (by decide) _
  unfold parseOp
  simp only [String.toList_ofList, hbefore, matchInsert_target hne h, hcursor]
  rfl

theorem parseOp_replace {range : ParsedRange} {payload : List String} (hne : target ≠ [])
    (hspace : ∀ c ∈ target, isSpace c = false) (hhead : ∀ c ∈ target.head?, c ∉ ['+', '<', '-', '='])
    (hrange : parseRange target lineNum = .ok range) :
    parseOp lineNum (String.ofList (opReplace :: target)) payload =
      .ok (some (.replace range payload)) := by
  have hbefore : matchInsert opInsertBefore (opReplace :: target) = none :=
    matchInsert_of_ne (by decide) _
  have hafter : matchInsert opInsertAfter (opReplace :: target) = none :=
    matchInsert_of_ne (by decide) _
  unfold parseOp
  simp only [String.toList_ofList, hbefore, hafter, matchReplace_target hne hspace hhead, hrange]
  rfl

end

theorem parseInsertTarget_render {a : Anchor} (ha : a.isFull = true) (lineNum : Nat)
    (toCursor : Anchor → Cursor) :
    parseInsertTarget a.render.toList lineNum toCursor = .ok (toCursor a) := by
  have hword : ∀ d ds, a.render.toList = d :: ds → isDigit d = true := by
    intro d ds h
    have hline : 1 ≤ a.line := by
      simp only [Anchor.isFull, Bool.and_eq_true, decide_eq_true_eq] at ha
      exact ha.1.1
    obtain ⟨e, es, hes, -⟩ := head?_toDigits hline
    simp only [Anchor.render, String.toList_append, String.toList_ofList, hes, List.cons_append,
      List.cons.injEq] at h
    rw [← h.1]
    exact isDigit_of_mem_toDigits (n := a.line) (by simp [hes])
  have hbof : a.render.toList ≠ "BOF".toList := fun h => absurd (hword _ _ h) (by decide)
  have heof : a.render.toList ≠ "EOF".toList := fun h => absurd (hword _ _ h) (by decide)
  rw [parseInsertTarget, if_neg hbof, if_neg heof, parseLid_render ha]
  rfl

theorem parseOp_header {op : Op} {header : String} (hheader : header ∈ op.headers)
    (hfull : op.anchorsFull = true) (lineNum : Nat) :
    parseOp lineNum header op.payload = .ok (some op) := by
  cases op with
  | insert cursor first rest =>
    cases cursor with
    | bof =>
      simp only [Op.headers, List.map_cons, List.map_nil, List.mem_cons, List.not_mem_nil,
        or_false] at hheader
      rcases hheader with rfl | rfl
      · exact parseOp_insertBefore (by decide) (forall_mem_of_all (by decide)) rfl
      · exact parseOp_insertAfter (by decide) (forall_mem_of_all (by decide)) rfl
    | eof =>
      simp only [Op.headers, List.map_cons, List.map_nil, List.mem_cons, List.not_mem_nil,
        or_false] at hheader
      rcases hheader with rfl | rfl
      · exact parseOp_insertBefore (by decide) (forall_mem_of_all (by decide)) rfl
      · exact parseOp_insertAfter (by decide) (forall_mem_of_all (by decide)) rfl
    | beforeAnchor a =>
      obtain rfl := List.mem_singleton.mp hheader
      exact parseOp_insertBefore render_ne_nil
        (fun c hc => ⟨(mem_render hfull hc).1, (mem_render hfull hc).2.1⟩)
        (parseInsertTarget_render hfull lineNum _)
    | afterAnchor a =>
      obtain rfl := List.mem_singleton.mp hheader
      exact parseOp_insertAfter render_ne_nil
        (fun c hc => ⟨(mem_render hfull hc).1, (mem_render hfull hc).2.1⟩)
        (parseInsertTarget_render hfull lineNum _)
  | replace range payload =>
    obtain ⟨hstart, hstop⟩ : range.start.isFull = true ∧ range.stop.isFull = true := by
      simpa [Op.anchorsFull] using hfull
    rcases List.mem_cons.mp hheader with rfl | hone
    · refine parseOp_replace (by simp) ?_ ?_ (parseRange_two hstart hstop lineNum)
      · intro c hc
        simp only [List.mem_append] at hc
        rcases hc with (hc | hc) | hc
        · exact (mem_render hstart hc).1
        · exact forall_mem_of_all (p := fun c => isSpace c = false) (by decide) c hc
        · exact (mem_render hstop hc).1
      · intro c hc
        rw [List.append_assoc, List.head?_append_of_ne_nil _ render_ne_nil] at hc
        exact (mem_render hstart (List.mem_of_mem_head? hc)).2.2.2
    · split at hone
      · rename_i hsame
        obtain rfl := List.mem_singleton.mp hone
        exact parseOp_replace render_ne_nil (fun c hc => (mem_render hstart hc).1)
          (fun c hc => (mem_render hstart (List.mem_of_mem_head? hc)).2.2.2)
          (parseRange_one hsame hstart lineNum)
      · cases hone

theorem header_head? {op : Op} {header : String} (h : header ∈ op.headers) :
    ∃ c ∈ [opInsertBefore, opInsertAfter, opReplace], header.toList.head? = some c := by
  cases op with
  | insert cursor first rest =>
    cases cursor <;> simp only [Op.headers, List.map_cons, List.map_nil, List.mem_cons,
      List.not_mem_nil, or_false] at h
    · rcases h with rfl | rfl <;> exact ⟨_, by decide, rfl⟩
    · rcases h with rfl | rfl <;> exact ⟨_, by decide, rfl⟩
    · subst h
      exact ⟨opInsertBefore, by decide, by simp⟩
    · subst h
      exact ⟨opInsertAfter, by decide, by simp⟩
  | replace range payload =>
    refine ⟨opReplace, by decide, ?_⟩
    rcases List.mem_cons.mp h with rfl | h
    · simp
    · split at h
      · obtain rfl := List.mem_singleton.mp h
        simp
      · cases h

theorem parseLines_op {lineNum : Nat} {line : String} {payload rest : List String}
    {op : Op} {c : Char} (hc : c ∈ [opInsertBefore, opInsertAfter, opReplace])
    (hhead : line.toList.head? = some c)
    (hpayload : ∀ t ∈ payload, isPayloadTerminatorLine t = false)
    (hrest : rest.head?.all isPayloadTerminatorLine = true)
    (hop : parseOp lineNum line payload = .ok (some op)) :
    parseLines lineNum (line :: (payload ++ rest)) =
      (parseLines (lineNum + 1 + payload.length) rest).map fun p => ((lineNum, op) :: p.1, p.2) := by
  obtain ⟨tail, hline⟩ : ∃ tail, line.toList = c :: tail := List.head?_eq_some_iff.mp hhead
  have hspace : isSpace c = false := by
    have hops : ∀ c ∈ [opInsertBefore, opInsertAfter, opReplace], isSpace c = false :=
      forall_mem_of_all (by decide)
    exact hops c hc
  have hblank : trim line.toList ≠ [] := by
    rw [hline, trim_cons hspace]
    exact List.cons_ne_nil _ _
  have hmarker : ∀ marker ∈ [endPatchMarker, abortMarker, beginPatchMarker], line ≠ marker := by
    rintro marker hmem rfl
    have hstar : ∀ marker ∈ [endPatchMarker, abortMarker, beginPatchMarker], marker.toList.head? =
        some '*' := by decide
    rw [hstar line hmem, Option.some.injEq] at hhead
    subst hhead
    revert hc
    decide
  rw [parseLines, if_neg hblank, if_neg (hmarker _ (by simp)), if_neg (hmarker _ (by simp)),
    if_neg (hmarker _ (by simp)), collectPayload_append hpayload hrest]
  dsimp only
  rw [hop]
  cases parseLines (lineNum + 1 + payload.length) rest <;> rfl

theorem head?_flatMap_lines (ops : List WrittenOp) :
    (ops.flatMap WrittenOp.lines).head?.all isPayloadTerminatorLine = true := by
  cases ops with
  | nil => rfl
  | cons w ops =>
    obtain ⟨c, hc, hhead⟩ := header_head? w.header_mem
    have hop : isOpLine w.header = true := by
      rw [isOpLine, hhead, Option.any_some, decide_eq_true hc]
    simpa [WrittenOp.lines] using isPayloadTerminatorLine_of_isOpLine hop

theorem parseLines_written (ops : List WrittenOp) (lineNum : Nat) :
    parseLines lineNum (ops.flatMap WrittenOp.lines) =
      .ok (numberOps lineNum (ops.map WrittenOp.op), []) := by
  induction ops generalizing lineNum with
  | nil => simp [parseLines, numberOps]
  | cons w ops ih =>
    obtain ⟨c, hc, hhead⟩ := header_head? w.header_mem
    have hpayload : ∀ t ∈ w.op.payload, isPayloadTerminatorLine t = false := by
      intro t ht
      have hline := w.payload t ht
      simp only [isPayloadLine, Bool.and_eq_true, Bool.not_eq_true'] at hline
      exact hline.2
    rw [List.flatMap_cons, WrittenOp.lines, List.cons_append,
      parseLines_op hc hhead hpayload (head?_flatMap_lines ops)
      (parseOp_header w.header_mem w.full lineNum), ih]
    rfl

theorem notMem_header {op : Op} {header : String} (h : header ∈ op.headers)
    (hfull : op.anchorsFull = true) :
    '\r' ∉ header.toList ∧ '\n' ∉ header.toList := by
  have hanchor : ∀ {a : Anchor}, a.isFull = true → '\r' ∉ a.render.toList ∧ '\n' ∉ a.render.toList :=
    fun ha =>
    ⟨fun hc => absurd (mem_render ha hc).1 (by decide),
      fun hc => absurd (mem_render ha hc).1 (by decide)⟩
  cases op with
  | insert cursor first rest =>
    cases cursor <;> simp only [Op.headers, List.map_cons, List.map_nil, List.mem_cons,
      List.not_mem_nil, or_false] at h
    · rcases h with rfl | rfl <;> decide
    · rcases h with rfl | rfl <;> decide
    · have := hanchor hfull
      simpa [h, opInsertBefore] using this
    · have := hanchor hfull
      simpa [h, opInsertAfter] using this
  | replace range payload =>
    obtain ⟨hstart, hstop⟩ : range.start.isFull = true ∧ range.stop.isFull = true := by
      simpa [Op.anchorsFull] using hfull
    have hfirst := hanchor hstart
    have hlast := hanchor hstop
    rcases List.mem_cons.mp h with rfl | h
    · simp [opReplace, hfirst, hlast]
    · split at h
      · obtain rfl := List.mem_singleton.mp h
        simp [opReplace, hfirst]
      · cases h

theorem notMem_lines {ops : List WrittenOp} {line : String}
    (h : line ∈ ops.flatMap WrittenOp.lines) :
    '\r' ∉ line.toList ∧ '\n' ∉ line.toList := by
  obtain ⟨w, -, hline⟩ := List.mem_flatMap.mp h
  rcases List.mem_cons.mp hline with rfl | hpayload
  · exact notMem_header w.header_mem w.full
  · have hline := w.payload line hpayload
    simp only [isPayloadLine, Bool.and_eq_true, decide_eq_true_eq] at hline
    exact hline.1

theorem mapIdx_insert (cursor : Cursor) (payload : List String) (lineNum index : Nat) :
    payload.mapIdx (fun k text => Edit.insert cursor text lineNum (index + k)) =
      expectedInserts cursor payload lineNum index := by
  apply List.ext_getElem
  · simp [expectedInserts]
  · intro k hk hk'
    simp [expectedInserts]

theorem mapIdx_delete (range : ParsedRange) (lineNum index : Nat) :
    (expandRange range).mapIdx (fun k anchor => Edit.delete anchor lineNum (index + k)) =
      expectedDeletes range.start range.stop lineNum index := by
  obtain ⟨⟨start, startHash⟩, ⟨stop, stopHash⟩, le, same⟩ := range
  dsimp only at le same
  unfold expectedDeletes
  by_cases hone : start = stop
  · subst hone
    have hcount : start + 1 - start = 1 := by omega
    simp [expandRange, hcount]
  · obtain ⟨n, rfl⟩ : ∃ n, stop = start + n + 1 := ⟨stop - start - 1, by omega⟩
    have hcount : start + n + 1 + 1 - start = n + 2 := by omega
    have hinterior : start + n + 1 - start - 1 = n := by omega
    have hlast : start + n + 1 - start = n + 1 := by omega
    rw [if_neg hone]
    apply List.ext_getElem
    · simp only [expandRange, hcount, hinterior, List.length_mapIdx, List.length_map,
        List.length_range', List.length_append, List.length_singleton, List.length_ofFn]
      omega
    · intro k hk hk'
      have hk : k < n + 2 := by simpa [expandRange, hcount] using hk
      rcases k with - | k
      · simp [expandRange]
      · rcases Nat.lt_succ_iff_lt_or_eq.mp (Nat.lt_of_succ_lt_succ hk) with hlt | rfl
        · have hne : start + (k + 1) ≠ start + n + 1 := by omega
          simp [expandRange, hinterior, hlt, hne]
          omega
        · have hstop : start + (k + 1) = start + k + 1 := by omega
          have hne : start + k + 1 ≠ start := by omega
          simp [expandRange, hlast, hstop, hne]

theorem edits_eq_expected (op : Op) (lineNum index : Nat) :
    op.edits lineNum index = op.expected lineNum index := by
  cases op with
  | insert cursor first rest =>
    rw [Op.edits, Op.payload, Op.cursor, Op.deleted, mapIdx_insert, List.mapIdx_nil,
      List.append_nil, Op.expected]
  | replace range payload =>
    rw [Op.edits, Op.payload, Op.cursor, Op.deleted, mapIdx_insert, mapIdx_delete, Op.expected]

theorem pushOps_numberOps (ops : List Op) (lineNum index : Nat) :
    pushOps index (numberOps lineNum ops) = expectedEdits lineNum index ops := by
  induction ops generalizing lineNum index with
  | nil => rfl
  | cons op ops ih =>
    have hlength : op.payload.length + op.deleted.length = (op.expected lineNum index).length := by
      rw [← edits_eq_expected]
      simp [Op.edits]
    rw [numberOps, pushOps, ih, edits_eq_expected, Nat.add_assoc index, hlength, expectedEdits]

theorem parse_renderOps (ops : List WrittenOp) :
    parseHashlineWithWarnings (renderOps ops) =
      .ok (expectedEdits 1 0 (ops.map WrittenOp.op), []) := by
  have hlines : (if (renderOps ops).toList.getLast? = some '\n'
      then (splitCrLf (renderOps ops)).dropLast
      else splitCrLf (renderOps ops)) = if ops = [] then [""] else ops.flatMap WrittenOp.lines := by
    rw [renderOps, splitCrLf_endLines fun line hline => notMem_lines hline]
    by_cases hops : ops = []
    · subst hops
      rfl
    · have hne : ops.flatMap WrittenOp.lines ≠ [] := by
        obtain ⟨w, more, rfl⟩ := List.exists_cons_of_ne_nil hops
        simp [WrittenOp.lines]
      rw [if_pos (getLast?_endLines hne), if_neg hops, List.dropLast_concat]
  unfold parseHashlineWithWarnings
  dsimp only
  rw [hlines]
  by_cases hops : ops = []
  · subst hops
    have hblank : trim "".toList = [] := rfl
    rw [if_pos rfl, parseLines, if_pos hblank, parseLines]
    rfl
  · rw [if_neg hops, parseLines_written, ← pushOps_numberOps]
    rfl

def replaceThenAppend : List WrittenOp :=
  [⟨.replace ⟨⟨1, "hs"⟩, ⟨3, "ni"⟩, by decide, by decide⟩ ["", " x"],
    "≔1hs..3ni", by decide +kernel, by decide, by decide⟩, ⟨.insert .eof "y" [], "»EOF", by
    decide, by decide, by decide⟩]

theorem parse_renderOps_two :
    parseHashlineWithWarnings "≔1hs..3ni\n\n x\n»EOF\ny\n" = .ok
      ([.insert (.beforeAnchor ⟨1, "hs"⟩) "" 1 0, .insert (.beforeAnchor ⟨1, "hs"⟩) " x" 1 1,
        .delete ⟨1, "hs"⟩ 1 2, .delete ⟨2, rangeInteriorHash⟩ 1 3, .delete ⟨3, "ni"⟩ 1 4,
          .insert .eof "y" 4 5], []) := by
  have hrender : renderOps replaceThenAppend = "≔1hs..3ni\n\n x\n»EOF\ny\n" := by decide +kernel
  rw [← hrender]
  exact parse_renderOps replaceThenAppend

end JevCode.Hashline
