import JevCode.Text.Trim
import JevCode.Text.Utf16

namespace JevCode.Edit.Native

open JevCode.Text

def replaceClass (cls : List CodeUnit) (replacement : CodeUnit) (s : List CodeUnit) :
    List CodeUnit :=
  s.map fun u => if u ∈ cls then replacement else u

def isBlank (u : CodeUnit) : Bool := u = code ' ' || u = code '\t'

def collapseBlanks : Bool → List CodeUnit → List CodeUnit
  | _, [] => []
  | inRun, u :: s =>
    if isBlank u then
      if inRun then collapseBlanks true s else code ' ' :: collapseBlanks true s
    else u :: collapseBlanks false s

def normalizeForFuzzy (line : List CodeUnit) : List CodeUnit :=
  let trimmed := trimUnits line
  if trimmed.length = 0 then []
  else
    collapseBlanks false <|
      replaceClass [0x2010, 0x2011, 0x2012, 0x2013, 0x2014, 0x2212] (code '-') <|
      replaceClass [code '\'', code '\'', 0x201a, 0x201b, 0x60, 0xb4] (code '\'') <|
      replaceClass [code '"', code '"', 0x201e, 0x201f, 0xab, 0xbb] (code '"') trimmed

def isJsTrimWhitespace (u : CodeUnit) : Bool :=
  u ∈ [0x0009, 0x000a, 0x000b, 0x000c, 0x000d, 0x0020, 0x00a0, 0x1680] ||
    (0x2000 ≤ u && u ≤ 0x200a) ||
    u ∈ [0x2028, 0x2029, 0x202f, 0x205f, 0x3000, 0xfeff]

def advanceStart (units : List CodeUnit) (start stop : Nat) : Nat :=
  if start < stop ∧ units[start]?.any isJsTrimWhitespace
    then advanceStart units (start + 1) stop else start
termination_by stop - start

def retreatEnd (units : List CodeUnit) (start : Nat) : Nat → Nat
  | 0 => 0
  | stop + 1 =>
    if stop + 1 > start ∧
      units[stop]?.any isJsTrimWhitespace then retreatEnd units start stop else stop + 1

def trimmedBounds (units : List CodeUnit) : Nat × Nat :=
  let start := advanceStart units 0 units.length
  (start, retreatEnd units start units.length)

def pushDepthPrefix (out : List CodeUnit) (depth : Int) (includeDepth : Bool) : List CodeUnit :=
  (if includeDepth then if depth = 0 then out ++ [code '0'] else out ++ units (toString depth)
    else out) ++ [code '|']

def mapped (u : CodeUnit) : CodeUnit :=
  if u ∈ [0x201e, 0x201f, 0x00ab, 0x00bb] then code '"'
  else if u ∈ [0x201a, 0x201b, 0x0060, 0x00b4] then code '\''
  else if u ∈ [0x2010, 0x2011, 0x2012, 0x2013, 0x2014, 0x2212] then code '-'
  else u

structure LinePass where
  out : List CodeUnit
  pendingSpace : Bool

def LinePass.step (pass : LinePass) (u : CodeUnit) : LinePass :=
  if u = code ' ' ∨ u = code '\t' then { pass with pendingSpace := true }
  else
    let out :=
      if pass.pendingSpace ∧ pass.out ≠ [] ∧
        pass.out.getLast? ≠ some (code '|') then pass.out ++ [code ' ']
      else pass.out
    ⟨out ++ [mapped u], false⟩

def normalizeLine (line : List CodeUnit) (prefixDepth : Option Int) : List CodeUnit :=
  let out :=
    match prefixDepth with
    | some depth => pushDepthPrefix [] depth true
    | none => []
  let bounds := trimmedBounds line
  (((line.take bounds.2).drop bounds.1).foldl LinePass.step ⟨out, false⟩).out

def nativeNormalizeForFuzzy (line : List CodeUnit) : List CodeUnit := normalizeLine line none

theorem isJsTrimWhitespace_eq (u : CodeUnit) : isJsTrimWhitespace u = isSpaceUnit u := by
  rw [Bool.eq_iff_iff]
  simp only [isJsTrimWhitespace, isSpaceUnit, Bool.or_eq_true, Bool.and_eq_true, decide_eq_true_eq,
    List.mem_cons, List.not_mem_nil, or_false]
  tauto

theorem advanceStart_spec (units : List CodeUnit) (start : Nat) (h : start ≤ units.length) :
    units.drop (advanceStart units start units.length) = (units.drop start).dropWhile isSpaceUnit ∧
      advanceStart units start units.length ≤ units.length := by
  induction hn : units.length - start generalizing start with
  | zero =>
    have hlen : start = units.length := by omega
    rw [advanceStart, hlen]
    simp
  | succ n ih =>
    have hlt : start < units.length := by omega
    rw [advanceStart, List.drop_eq_getElem_cons hlt, List.dropWhile_cons,
      List.getElem?_eq_getElem hlt, Option.any_some, isJsTrimWhitespace_eq]
    by_cases hspace : isSpaceUnit units[start] = true
    · simp only [hlt, hspace, and_self, if_true]
      exact ih (start + 1) hlt (by omega)
    · rw [if_neg fun hc => hspace hc.2, if_neg hspace]
      exact ⟨List.drop_eq_getElem_cons hlt, h⟩

theorem retreatEnd_spec (units : List CodeUnit) (start stop : Nat) (h : stop ≤ units.length) :
    (units.take (retreatEnd units start stop)).drop start =
    ((units.take stop).drop start).rdropWhile isSpaceUnit := by
  induction stop with
  | zero => simp [retreatEnd]
  | succ stop ih =>
    have hlt : stop < units.length := h
    rw [retreatEnd, List.getElem?_eq_getElem hlt, Option.any_some, isJsTrimWhitespace_eq]
    by_cases hstart : start ≤ stop
    · have hcut : (units.take (stop + 1)).drop start = (units.take stop).drop start ++
          [units[stop]] := by
        rw [List.take_add_one, List.getElem?_eq_getElem hlt, Option.toList_some,
          List.drop_append_of_le_length (by rw [List.length_take]; omega)]
      rw [hcut]
      by_cases hspace : isSpaceUnit units[stop] = true
      · rw [List.rdropWhile_concat_pos _ _ _ hspace, if_pos ⟨by omega, hspace⟩]
        exact ih (by omega)
      · rw [List.rdropWhile_concat_neg _ _ _ hspace, if_neg fun hc => hspace hc.2, hcut]
    · rw [if_neg fun hc => hstart (by omega)]
      have hnil : (units.take (stop + 1)).drop start = [] :=
        List.drop_eq_nil_of_le (by rw [List.length_take]; omega)
      rw [hnil, List.rdropWhile_nil]

theorem trimmedBounds_spec (line : List CodeUnit) :
    (line.take (trimmedBounds line).2).drop (trimmedBounds line).1 = trimUnits line := by
  have hstart := advanceStart_spec line 0 (Nat.zero_le _)
  rw [trimmedBounds, retreatEnd_spec line _ _ (Nat.le_refl _), List.take_length, hstart.1,
    List.drop_zero, trimUnits]

theorem mapped_cases (u : CodeUnit) : mapped u = code '"' ∧ u ∈ [0x201e, 0x201f, 0x00ab, 0x00bb] ∨
    mapped u = code '\'' ∧ u ∈ [0x201a, 0x201b, 0x0060, 0x00b4] ∨
    mapped u = code '-' ∧ u ∈ [0x2010, 0x2011, 0x2012, 0x2013, 0x2014, 0x2212] ∨
    mapped u = u ∧ u ∉ [0x201e, 0x201f, 0x00ab, 0x00bb] ∧ u ∉ [0x201a, 0x201b, 0x0060, 0x00b4] ∧
      u ∉ [0x2010, 0x2011, 0x2012, 0x2013, 0x2014, 0x2212] := by
  unfold mapped
  split
  case isTrue h => exact .inl ⟨rfl, h⟩
  case isFalse h1 =>
    split
    case isTrue h => exact .inr (.inl ⟨rfl, h⟩)
    case isFalse h2 =>
      split
      case isTrue h => exact .inr (.inr (.inl ⟨rfl, h⟩))
      case isFalse h3 => exact .inr (.inr (.inr ⟨rfl, h1, h2, h3⟩))

theorem replaceClass_mapped (s : List CodeUnit) :
    replaceClass [0x2010, 0x2011, 0x2012, 0x2013, 0x2014, 0x2212] (code '-')
      (replaceClass [code '\'', code '\'', 0x201a, 0x201b, 0x60, 0xb4] (code '\'')
        (replaceClass [code '"', code '"', 0x201e, 0x201f, 0xab, 0xbb] (code '"') s)) =
          s.map mapped := by
  simp only [replaceClass, List.map_map]
  congr 1
  funext u
  simp only [Function.comp_apply]
  rcases mapped_cases u with ⟨hm, hu⟩ | ⟨hm, hu⟩ | ⟨hm, hu⟩ | ⟨hm, h1, h2, h3⟩ <;>
    rw [hm] <;> clear hm
  · revert u; exact forall_mem_of_all (by decide)
  · revert u; exact forall_mem_of_all (by decide)
  · revert u; exact forall_mem_of_all (by decide)
  · by_cases hd : u = code '"'
    · rw [hd]; decide
    · by_cases hs : u = code '\''
      · rw [hs]; decide
      · have hd' : u ∉ [code '"', code '"', 0x201e, 0x201f, 0xab, 0xbb] := by
          simp only [List.mem_cons, hd, false_or] at h1 ⊢; exact h1
        have hs' : u ∉ [code '\'', code '\'', 0x201a, 0x201b, 0x60, 0xb4] := by
          simp only [List.mem_cons, hs, false_or] at h2 ⊢; exact h2
        rw [if_neg hd', if_neg hs', if_neg h3]

theorem isBlank_mapped (u : CodeUnit) : isBlank (mapped u) = isBlank u := by
  rcases mapped_cases u with ⟨hm, hu⟩ | ⟨hm, hu⟩ | ⟨hm, hu⟩ | ⟨hm, -⟩ <;> rw [hm] <;>
    clear hm <;> revert u <;>
    exact forall_mem_of_all (by decide)

theorem mapped_eq_bar (u : CodeUnit) : mapped u = code '|' ↔ u = code '|' := by
  rcases mapped_cases u with ⟨hm, hu⟩ | ⟨hm, hu⟩ | ⟨hm, hu⟩ | ⟨hm, -⟩ <;> rw [hm] <;>
    clear hm <;> revert u <;>
    exact forall_mem_of_all (by decide)

def passTail : Bool → Bool → List CodeUnit → List CodeUnit
  | _, _, [] => []
  | noSpace, pending, u :: s =>
    if isBlank u then passTail noSpace true s
    else (if pending && !noSpace then [code ' '] else []) ++ mapped u ::
      passTail (u = code '|') false s

theorem step_blank {u : CodeUnit} (h : isBlank u = true) (pass : LinePass) :
    pass.step u = ⟨pass.out, true⟩ := by
  rw [LinePass.step, if_pos (by simpa [isBlank] using h)]

theorem foldl_step_eq (s : List CodeUnit) (pass : LinePass) (noSpace : Bool)
    (h : noSpace = true ↔ pass.out = [] ∨ pass.out.getLast? = some (code '|')) :
    (s.foldl LinePass.step pass).out = pass.out ++ passTail noSpace pass.pendingSpace s := by
  induction s generalizing pass noSpace with
  | nil => simp [passTail]
  | cons u s ih =>
    rw [List.foldl_cons, passTail]
    by_cases hu : isBlank u = true
    · rw [if_pos hu, step_blank hu]
      exact ih ⟨pass.out, true⟩ noSpace h
    · have hguard : (pass.pendingSpace && !noSpace) = true ↔
          pass.pendingSpace ∧ pass.out ≠ [] ∧ pass.out.getLast? ≠ some (code '|') := by
        rw [Bool.and_eq_true, Bool.not_eq_true', ← Bool.not_eq_true, h, not_or]
      rw [if_neg hu, LinePass.step, if_neg (by simpa [isBlank] using hu),
        ih _ (decide (u = code '|'))
        (by simp [mapped_eq_bar])]
      by_cases hspace : (pass.pendingSpace && !noSpace) = true
      · simp only [if_pos hspace, if_pos (hguard.mp hspace), List.append_assoc, List.cons_append,
          List.nil_append]
      · simp only [if_neg hspace, if_neg (mt hguard.mpr hspace), List.append_assoc, List.cons_append,
          List.nil_append]

def SpacedBar (s : List CodeUnit) : Prop :=
  ∃ before u after, s = before ++ code '|' :: u :: after ∧ isBlank u = true

theorem spacedBar_nil : ¬ SpacedBar [] := by
  rintro ⟨before, u, after, h, -⟩
  simp at h

theorem spacedBar_cons (v : CodeUnit) (s : List CodeUnit) :
    SpacedBar (v :: s) ↔ v = code '|' ∧ s.head?.any isBlank ∨ SpacedBar s := by
  constructor
  · rintro ⟨before, u, after, h, hu⟩
    cases before with
    | nil =>
      obtain ⟨rfl, rfl⟩ := List.cons.inj h
      exact .inl ⟨rfl, by simpa using hu⟩
    | cons w before =>
      obtain ⟨-, rfl⟩ := List.cons.inj h
      exact .inr ⟨before, u, after, rfl, hu⟩
  · rintro (⟨rfl, hu⟩ | ⟨before, u, after, rfl, hu⟩)
    · cases s with
      | nil => simp at hu
      | cons u after => exact ⟨[], u, after, rfl, by simpa using hu⟩
    · exact ⟨v :: before, u, after, rfl, hu⟩

def EndsBare (s : List CodeUnit) : Prop := ∀ u, s.getLast? = some u → isBlank u = false

theorem EndsBare.tail {u : CodeUnit} {s : List CodeUnit} (h : EndsBare (u :: s)) : EndsBare s := by
  intro v hv
  cases s with
  | nil => simp at hv
  | cons w s => exact h v (by rw [List.getLast?_cons_cons]; exact hv)

theorem EndsBare.tail_ne_nil {u : CodeUnit} {s : List CodeUnit} (h : EndsBare (u :: s))
    (hu : isBlank u = true) :
    s ≠ [] := by
  rintro rfl
  rw [h u rfl] at hu
  exact absurd hu Bool.false_ne_true

theorem passTail_eq_iff (s : List CodeUnit) (hend : EndsBare s) :
    (∀ noSpace, passTail noSpace false s = collapseBlanks false (s.map mapped) ↔
        ¬ ((noSpace = true ∧ s.head?.any isBlank) ∨ SpacedBar s)) ∧
      (s ≠ [] → (passTail false true s = code ' ' :: collapseBlanks true (s.map mapped) ↔
        ¬ SpacedBar s) ∧
        passTail true true s ≠ code ' ' :: collapseBlanks true (s.map mapped)) := by
  induction s with
  | nil => simp [passTail, collapseBlanks, spacedBar_nil]
  | cons u s ih =>
    obtain ⟨ihout, ihin⟩ := ih hend.tail
    by_cases hu : isBlank u = true
    · have hne : u ≠ code '|' := by
        rintro rfl
        exact absurd hu (by decide)
      obtain ⟨ihspace, ihbar⟩ := ihin (hend.tail_ne_nil hu)
      have hspaced : SpacedBar (u :: s) ↔ SpacedBar s := by simp [spacedBar_cons, hne]
      simp only [passTail, List.map_cons, collapseBlanks, isBlank_mapped, hu, if_true,
        Bool.false_eq_true, if_false, List.head?_cons, Option.any_some, hspaced, and_true]
      refine ⟨fun noSpace => ?_, fun _ => ⟨ihspace, ihbar⟩⟩
      cases noSpace with
      | false => simpa using ihspace
      | true => simpa using ihbar
    · have hmapped : mapped u ≠ code ' ' := by
        intro h
        rw [← isBlank_mapped, h] at hu
        exact hu (by decide)
      have hrest : passTail (decide (u = code '|')) false s = collapseBlanks false (s.map mapped) ↔
          ¬ SpacedBar (u :: s) := by
        rw [ihout, spacedBar_cons, decide_eq_true_eq]
      simp only [passTail, List.map_cons, collapseBlanks, isBlank_mapped, hu, if_false,
        Bool.false_and, Bool.true_and, Bool.not_false, Bool.not_true, if_true, Bool.false_eq_true,
        List.nil_append, List.cons_append, List.cons.injEq, true_and, hrest, List.head?_cons,
          Option.any_some, and_false, false_or, hmapped, ne_eq,
        false_and, not_false_eq_true, and_true, implies_true]

theorem isBlank_of_not_isSpaceUnit {u : CodeUnit} (h : isSpaceUnit u = false) :
    isBlank u = false := by
  cases hblank : isBlank u with
  | false => rfl
  | true =>
    simp only [isBlank, Bool.or_eq_true, decide_eq_true_eq] at hblank
    rcases hblank with rfl | rfl <;> exact absurd h (by decide)

theorem endsBare_trimUnits (line : List CodeUnit) : EndsBare (trimUnits line) := by
  intro u hu
  have hne : trimUnits line ≠ [] := by
    intro hnil
    rw [hnil] at hu
    simp at hu
  have hlast := List.rdropWhile_last_not isSpaceUnit (line.dropWhile isSpaceUnit) hne
  rw [List.getLast?_eq_some_getLast hne, Option.some.injEq] at hu
  rw [← hu]
  exact isBlank_of_not_isSpaceUnit (Bool.eq_false_iff.mpr hlast)

theorem head?_trimUnits (line : List CodeUnit) : (trimUnits line).head?.any isBlank = false := by
  have hpre := List.rdropWhile_prefix isSpaceUnit (line.dropWhile isSpaceUnit)
  have hhead := List.head?_dropWhile_not isSpaceUnit line
  rw [← trimUnits] at hpre
  cases htrim : trimUnits line with
  | nil => rfl
  | cons u rest =>
    obtain ⟨after, hafter⟩ := htrim ▸ hpre
    rw [← hafter] at hhead
    exact isBlank_of_not_isSpaceUnit (by simpa using hhead)

theorem normalizeForFuzzy_eq (line : List CodeUnit) :
    normalizeForFuzzy line = collapseBlanks false ((trimUnits line).map mapped) := by
  simp only [normalizeForFuzzy, replaceClass_mapped]
  split
  case isTrue h => rw [List.length_eq_zero_iff.mp h]; rfl
  case isFalse => rfl

theorem nativeNormalizeForFuzzy_eq (line : List CodeUnit) :
    nativeNormalizeForFuzzy line = passTail true false (trimUnits line) := by
  rw [nativeNormalizeForFuzzy, normalizeLine]
  simp only [trimmedBounds_spec]
  rw [foldl_step_eq _ _ true (by simp), List.nil_append]

/-- The two agree on a line exactly when, once trimmed, it has no bar directly before a space or a
tab. -/
theorem nativeNormalizeForFuzzy_eq_iff (line : List CodeUnit) :
    nativeNormalizeForFuzzy line = normalizeForFuzzy line ↔ ¬ SpacedBar (trimUnits line) := by
  rw [nativeNormalizeForFuzzy_eq, normalizeForFuzzy_eq,
    (passTail_eq_iff _ (endsBare_trimUnits line)).1, head?_trimUnits]
  simp

theorem nativeNormalizeForFuzzy_loses_space :
    ¬ ∀ line : List CodeUnit, code '\n' ∉ line →
      nativeNormalizeForFuzzy line = normalizeForFuzzy line := by
  intro h
  have hline := h (units "a | b") (by decide)
  rw [nativeNormalizeForFuzzy_eq, normalizeForFuzzy_eq] at hline
  exact absurd hline (by decide)

end JevCode.Edit.Native
