import JevCode.Data.Tokenizer
import JevCode.Tui.StdinBuffer
import Mathlib.Data.Nat.Find

namespace JevCode.Tui

open JevCode.Data

variable {xs ys : List CodeUnit}

theorem isHighSurrogate_esc : isHighSurrogate esc = false := by decide

def isStringSequence (xs : List CodeUnit) : Bool :=
  xs[1]? = some (code ']') || xs[1]? = some (code 'P') || xs[1]? = some (code '_')

theorem continuesAsStringTerminator_eq (remaining : List CodeUnit) (index : Nat) :
    continuesAsStringTerminator remaining index =
      (isStringSequence remaining &&
        (remaining[index + 1]? = none || remaining[index + 1]? = some (code '\\'))) := by
  unfold continuesAsStringTerminator isStringSequence
  by_cases h : remaining[1]? = some (code ']') <;> by_cases h' : remaining[1]? = some (code 'P') <;>
    by_cases h'' : remaining[1]? = some (code '_') <;> simp [h, h', h'']

def IsCut (remaining : List CodeUnit) (seqEnd : Nat) : Prop :=
  remaining[seqEnd]? = some esc ∧ 2 ≤ seqEnd ∧
    ¬ (isStringSequence remaining = true ∧
    (remaining[seqEnd + 1]? = none ∨ remaining[seqEnd + 1]? = some (code '\\')))

def EndsAt (remaining : List CodeUnit) (seqEnd : Nat) : Prop :=
  isCompleteSequence (remaining.take seqEnd) ≠ .incomplete ∨ IsCut remaining seqEnd

theorem isCut_iff {n : Nat} :
    (xs[n]? = some esc && 2 ≤ n && !continuesAsStringTerminator xs n) = true ↔ IsCut xs n := by
  rw [continuesAsStringTerminator_eq, IsCut]
  simp only [Bool.and_eq_true, Bool.not_eq_true', Bool.and_eq_false_iff, Bool.or_eq_false_iff,
    decide_eq_true_eq, decide_eq_false_iff_not, not_and_or, not_or, Bool.not_eq_true, and_assoc]

theorem sequencesAt_of_not_endsAt {n : Nat} (h : ¬ EndsAt xs n) : sequencesAt xs n = none := by
  obtain ⟨hincomplete, hcut⟩ := not_or.mp h
  unfold sequencesAt
  simp only [not_ne_iff.mp hincomplete]
  rw [if_neg (mt isCut_iff.mp hcut)]

theorem isEscapeRun_take {n : Nat} (hesc : xs[n]? = some esc) (hn : 2 ≤ n)
    (h : isEscapeRun (xs.take n) = true) :
    [esc, esc, esc] <+: xs := by
  obtain ⟨m, rfl⟩ := Nat.exists_eq_add_of_le' hn
  match xs with
  | [] => simp at hesc
  | [_] => simp at hesc
  | [_, _] => simp at hesc
  | a :: b :: c :: rest =>
    simp only [isEscapeRun, List.take_succ_cons, List.all_cons, List.isEmpty_cons, Bool.not_false,
      Bool.true_and, Bool.and_eq_true, decide_eq_true_eq] at h
    have hc : c = esc := by
      cases m with
      | zero => simpa using hesc
      | succ m => simpa using (List.all_eq_true.mp h.2.2) c (by simp)
    rw [h.1, h.2.1, hc]
    exact List.prefix_append [esc, esc, esc] rest

theorem sequencesAt_of_endsAt {n : Nat} (hrun : ¬ [esc, esc, esc] <+: xs) (h : EndsAt xs n) :
    sequencesAt xs n = some ([xs.take n], n) := by
  unfold sequencesAt
  cases hstatus : isCompleteSequence (xs.take n) with
  | complete => simp only [hstatus]
  | notEscape => simp only [hstatus]
  | incomplete =>
    have hcut : IsCut xs n := h.resolve_left (not_not.mpr hstatus)
    have hnot : isEscapeRun (xs.take n) = false := by
      by_contra hescapes
      exact hrun (isEscapeRun_take hcut.1 hcut.2.1 (Bool.not_eq_false _ ▸ hescapes))
    simp only [hstatus, hnot, if_pos (isCut_iff.mpr hcut), Bool.false_and,
      Bool.false_eq_true, if_false]

structure FirstEnd (xs : List CodeUnit) (n : Nat) : Prop where
  pos : 1 ≤ n
  le : n ≤ xs.length
  ends : EndsAt xs n
  first : ∀ k, 1 ≤ k → k < n → ¬ EndsAt xs k

theorem findSequences_eq_none (h : ∀ n, 1 ≤ n → n ≤ xs.length → ¬ EndsAt xs n) :
    findSequences xs = none := by
  refine List.findSome?_eq_none_iff.mpr fun n hn => sequencesAt_of_not_endsAt (h n ?_ ?_)
  · exact (List.mem_range'_1.mp hn).1
  · have := (List.mem_range'_1.mp hn).2
    omega

theorem findSequences_of_firstEnd {n : Nat} (hrun : ¬ [esc, esc, esc] <+: xs) (h : FirstEnd xs n) :
    findSequences xs = some ([xs.take n], n) := by
  have hsplit : List.range' 1 xs.length = List.range' 1 (n - 1) ++ n ::
      List.range' (n + 1) (xs.length - n) := by
    have hpos := h.pos
    have hle := h.le
    have hlength : xs.length = (n - 1) + (xs.length - n + 1) := by omega
    rw [hlength, ← List.range'_append_1, List.range'_succ, Nat.add_sub_cancel' hpos, ← hlength]
  refine List.findSome?_eq_some_iff.mpr ⟨_, n, _, hsplit, sequencesAt_of_endsAt hrun h.ends,
    fun k hk => ?_⟩
  obtain ⟨hpos, hlt⟩ := List.mem_range'_1.mp hk
  exact sequencesAt_of_not_endsAt (h.first k hpos (by omega))

theorem exists_firstEnd {n : Nat} (hpos : 1 ≤ n) (hle : n ≤ xs.length) (h : EndsAt xs n) :
    ∃ k, FirstEnd xs k := by
  classical
  have hexists : ∃ k, 1 ≤ k ∧ EndsAt xs k := ⟨n, hpos, h⟩
  obtain ⟨hfirst, hends⟩ := Nat.find_spec hexists
  refine ⟨Nat.find hexists, hfirst, ?_, hends,
    fun k hk hlt hends => Nat.find_min hexists hlt ⟨hk, hends⟩⟩
  exact (Nat.find_min' hexists ⟨hpos, h⟩).trans hle

section Append

theorem isStringSequence_append (h : 2 ≤ xs.length) :
    isStringSequence (xs ++ ys) = isStringSequence xs := by
  unfold isStringSequence
  rw [List.getElem?_append_left (by omega)]

theorem EndsAt.append {n : Nat} (hn : n ≤ xs.length) (h : EndsAt xs n) (ys : List CodeUnit) :
    EndsAt (xs ++ ys) n := by
  unfold EndsAt
  rw [List.take_append_of_le_length hn]
  refine h.imp_right ?_
  rintro ⟨hesc, htwo, hstring⟩
  have hlt : n < xs.length := (List.getElem?_eq_some_iff.mp hesc).1
  refine ⟨(List.getElem?_append_left hlt).trans hesc, htwo, ?_⟩
  rw [isStringSequence_append (by omega)]
  rintro ⟨hs, hnext⟩
  by_cases hnext' : n + 1 < xs.length
  · rw [List.getElem?_append_left hnext'] at hnext
    exact hstring ⟨hs, hnext⟩
  · exact hstring ⟨hs, .inl (List.getElem?_eq_none (by omega))⟩

def EndsInEsc (xs : List CodeUnit) : Prop := isStringSequence xs = true ∧ xs.getLast? = some esc

theorem EndsAt.of_append {n : Nat} (hn : n < xs.length) (hend : n + 1 < xs.length ∨ ¬ EndsInEsc xs)
    (h : EndsAt (xs ++ ys) n) : EndsAt xs n := by
  unfold EndsAt at h
  rw [List.take_append_of_le_length hn.le] at h
  refine h.imp_right ?_
  rintro ⟨hesc, htwo, hstring⟩
  rw [List.getElem?_append_left hn] at hesc
  rw [isStringSequence_append (by omega)] at hstring
  refine ⟨hesc, htwo, ?_⟩
  rintro ⟨hs, hnext⟩
  by_cases hlast : n + 1 < xs.length
  · exact hstring ⟨hs, by rwa [List.getElem?_append_left hlast]⟩
  · refine hend.resolve_left hlast ⟨hs, ?_⟩
    rw [List.getLast?_eq_getElem?, ← hesc]
    congr 1
    omega

theorem getLast?_of_suffix {word : List CodeUnit} (hword : word ≠ []) (h : word <:+ xs) :
    xs.getLast? = word.getLast? := by
  obtain ⟨front, rfl⟩ := h
  exact List.getLast?_append_of_ne_nil _ hword

theorem EndsInEsc.incomplete {d : CodeUnit} {rest : List CodeUnit}
    (h : EndsInEsc (esc :: d :: rest)) :
    isCompleteSequence (esc :: d :: rest) = .incomplete := by
  obtain ⟨hstring, hlast⟩ := h
  have hterminator : ¬ [esc, code '\\'] <:+ esc :: d :: rest := by
    intro hsuffix
    rw [getLast?_of_suffix (List.cons_ne_nil _ _) hsuffix] at hlast
    revert hlast
    decide
  have hbel : ¬ [bel] <:+ esc :: d :: rest := by
    intro hsuffix
    rw [getLast?_of_suffix (List.cons_ne_nil _ _) hsuffix] at hlast
    revert hlast
    decide
  simp only [isStringSequence, List.getElem?_cons_succ, List.getElem?_cons_zero, Option.some.injEq,
    Bool.or_eq_true, decide_eq_true_eq] at hstring
  have hfront : ∀ c : CodeUnit, [esc, c] <+: esc :: c :: rest := fun c =>
    List.prefix_append [esc, c] rest
  rw [isCompleteSequence, if_neg (not_not.mpr rfl)]
  obtain (rfl | rfl) | rfl := hstring
  · rw [if_neg (by decide), if_neg (by decide), if_pos rfl, isCompleteOscSequence,
      if_neg (not_not.mpr (hfront _)), if_neg (by simp [hterminator, hbel])]
  · rw [if_neg (by decide), if_neg (by decide), if_neg (by decide), if_pos rfl,
      isCompleteDcsSequence, isCompleteStringSequence, if_neg (not_not.mpr (hfront _)),
      if_neg hterminator]
  · rw [if_neg (by decide), if_neg (by decide), if_neg (by decide), if_neg (by decide), if_pos rfl,
      isCompleteApcSequence, isCompleteStringSequence, if_neg (not_not.mpr (hfront _)),
      if_neg hterminator]

theorem FirstEnd.append {rest : List CodeUnit} {n : Nat} (h : FirstEnd (esc :: rest) n)
    (ys : List CodeUnit) :
    FirstEnd (esc :: rest ++ ys) n := by
  have hle := h.le
  refine ⟨h.pos, ?_, h.ends.append h.le ys, fun k hpos hlt hends => ?_⟩
  · rw [List.length_append]
    omega
  · refine h.first k hpos hlt (hends.of_append (by omega) ?_)
    by_contra hend
    obtain ⟨hlast, htorn⟩ := not_or.mp hend
    rw [not_not] at htorn
    obtain rfl : n = (esc :: rest).length := by omega
    cases rest with
    | nil => exact absurd hpos (by simp at hlt; omega)
    | cons d rest =>
      obtain hstatus | ⟨hesc, -, -⟩ := h.ends
      · rw [List.take_length] at hstatus
        exact hstatus htorn.incomplete
      · rw [List.getElem?_length] at hesc
        cases hesc

end Append

def isTornMeta (xs : List CodeUnit) : Bool :=
  3 ≤ xs.length && xs[1]?.any isHighSurrogate && !xs[2]?.any isLowSurrogate

def nextCharacter (c : CodeUnit) : List CodeUnit → Option (List CodeUnit × List CodeUnit)
  | [] => if isHighSurrogate c then none else some ([c], [])
  | d :: rest =>
    if isHighSurrogate c && isLowSurrogate d then some ([c, d], rest) else some ([c], d :: rest)

def nextSequence : List CodeUnit → Option (List CodeUnit × List CodeUnit)
  | [] => none
  | c :: rest =>
    if c = esc then
      if isTornMeta (c :: rest) then some ((c :: rest).take 2, (c :: rest).drop 2)
      else if [esc, esc, esc] <+: c :: rest then some ([c], rest)
      else (findSequences (c :: rest)).map fun found =>
        ((c :: rest).take found.2, (c :: rest).drop found.2)
    else nextCharacter c rest

section Next

variable {rest : List CodeUnit}

theorem nextSequence_tornMeta (h : isTornMeta (esc :: rest) = true) :
    nextSequence (esc :: rest) = some ((esc :: rest).take 2, (esc :: rest).drop 2) := by
  rw [nextSequence, if_pos rfl, if_pos h]

theorem isTornMeta_run (xs : List CodeUnit) : isTornMeta (esc :: esc :: xs) = false := by
  simp [isTornMeta, isHighSurrogate_esc]

theorem nextSequence_run (xs : List CodeUnit) :
    nextSequence (esc :: esc :: esc :: xs) = some ([esc], esc :: esc :: xs) := by
  rw [nextSequence, if_pos rfl, isTornMeta_run, if_neg Bool.false_ne_true,
    if_pos ⟨xs, rfl⟩]

theorem nextSequence_of_firstEnd {n : Nat} (htorn : isTornMeta (esc :: rest) = false)
    (hrun : ¬ [esc, esc, esc] <+: esc :: rest) (h : FirstEnd (esc :: rest) n) :
    nextSequence (esc :: rest) = some ((esc :: rest).take n, (esc :: rest).drop n) := by
  rw [nextSequence, if_pos rfl, htorn, if_neg Bool.false_ne_true, if_neg hrun,
    findSequences_of_firstEnd hrun h]
  rfl

def Open (xs : List CodeUnit) : Prop := ∀ n, 1 ≤ n → n ≤ xs.length → ¬ EndsAt xs n

theorem nextSequence_of_open (htorn : isTornMeta (esc :: rest) = false)
    (hrun : ¬ [esc, esc, esc] <+: esc :: rest) (h : Open (esc :: rest)) :
    nextSequence (esc :: rest) = none := by
  rw [nextSequence, if_pos rfl, htorn, if_neg Bool.false_ne_true, if_neg hrun,
    findSequences_eq_none h]
  rfl

theorem nextSequence_esc_cases (rest : List CodeUnit) :
    (isTornMeta (esc :: rest) = true) ∨ (∃ xs, rest = esc :: esc :: xs) ∨
    (isTornMeta (esc :: rest) = false ∧ ¬ [esc, esc, esc] <+: esc :: rest ∧
      ((∃ n, FirstEnd (esc :: rest) n) ∨ Open (esc :: rest))) := by
  cases htorn : isTornMeta (esc :: rest) with
  | true => exact .inl rfl
  | false =>
    refine .inr ?_
    by_cases hrun : [esc, esc, esc] <+: esc :: rest
    · obtain ⟨xs, hxs⟩ := hrun
      exact .inl ⟨xs, (List.cons.inj hxs).2.symm⟩
    · refine .inr ⟨rfl, hrun, ?_⟩
      by_cases hends : ∃ n, 1 ≤ n ∧ n ≤ (esc :: rest).length ∧ EndsAt (esc :: rest) n
      · obtain ⟨n, hpos, hle, h⟩ := hends
        exact .inl (exists_firstEnd hpos hle h)
      · exact .inr fun n hpos hle h => hends ⟨n, hpos, hle, h⟩

inductive Found : List CodeUnit → List CodeUnit → List CodeUnit → Prop
  | character {c : CodeUnit} {xs token rest : List CodeUnit} (hesc : c ≠ esc)
      (h : nextCharacter c xs = some (token, rest)) : Found (c :: xs) token rest
  | tornMeta {xs : List CodeUnit} (h : isTornMeta (esc :: xs) = true) :
      Found (esc :: xs) ((esc :: xs).take 2) ((esc :: xs).drop 2)
  | run (xs : List CodeUnit) : Found (esc :: esc :: esc :: xs) [esc] (esc :: esc :: xs)
  | sequence {xs : List CodeUnit} {n : Nat} (htorn : isTornMeta (esc :: xs) = false)
      (hrun : ¬ [esc, esc, esc] <+: esc :: xs) (h : FirstEnd (esc :: xs) n) :
      Found (esc :: xs) ((esc :: xs).take n) ((esc :: xs).drop n)

theorem found_of_nextSequence {xs token rest : List CodeUnit}
    (h : nextSequence xs = some (token, rest)) :
    Found xs token rest := by
  cases xs with
  | nil => cases h
  | cons c xs =>
    by_cases hesc : c = esc
    · subst hesc
      obtain htorn | ⟨xs, rfl⟩ | ⟨htorn, hrun, ⟨n, hfirst⟩ | hopen⟩ := nextSequence_esc_cases xs
      · cases (nextSequence_tornMeta htorn).symm.trans h
        exact .tornMeta htorn
      · cases (nextSequence_run xs).symm.trans h
        exact .run xs
      · cases (nextSequence_of_firstEnd htorn hrun hfirst).symm.trans h
        exact .sequence htorn hrun hfirst
      · cases (nextSequence_of_open htorn hrun hopen).symm.trans h
    · rw [nextSequence, if_neg hesc] at h
      exact .character hesc h

theorem nextCharacter_split {c : CodeUnit} {token rest' : List CodeUnit}
    (h : nextCharacter c rest = some (token, rest')) :
    token ≠ [] ∧ c :: rest = token ++ rest' := by
  cases rest with
  | nil =>
    rw [nextCharacter] at h
    split at h
    · cases h
    · cases h
      exact ⟨List.cons_ne_nil _ _, rfl⟩
  | cons d rest =>
    rw [nextCharacter] at h
    split at h
    all_goals
      cases h
      exact ⟨List.cons_ne_nil _ _, rfl⟩

theorem nextCharacter_stable {c : CodeUnit} {token rest' : List CodeUnit}
    (h : nextCharacter c rest = some (token, rest')) (ys : List CodeUnit) :
    nextCharacter c (rest ++ ys) = some (token, rest' ++ ys) := by
  cases rest with
  | nil =>
    rw [nextCharacter] at h
    split at h
    next => cases h
    next hlow =>
      cases h
      cases ys with
      | nil => rw [List.nil_append, nextCharacter, if_neg hlow]
      | cons d ys => rw [List.nil_append, nextCharacter, if_neg (by simp [hlow])]
  | cons d rest =>
    rw [nextCharacter] at h
    rw [List.cons_append, nextCharacter]
    split at h
    next hpair =>
      cases h
      rw [if_pos hpair]
    next hpair =>
      cases h
      rw [if_neg hpair, List.cons_append]

theorem nextSequence_split {xs token rest : List CodeUnit}
    (h : nextSequence xs = some (token, rest)) :
    token ≠ [] ∧ xs = token ++ rest := by
  cases found_of_nextSequence h with
  | character hesc h => exact nextCharacter_split h
  | tornMeta htorn => exact ⟨List.cons_ne_nil _ _, (List.take_append_drop 2 _).symm⟩
  | run xs => exact ⟨List.cons_ne_nil _ _, rfl⟩
  | @sequence xs n htorn hrun hfirst =>
    refine ⟨fun hnil => ?_, (List.take_append_drop n _).symm⟩
    have := hfirst.pos
    rw [List.take_eq_nil_iff] at hnil
    simp at hnil
    omega

theorem open_pair {d : CodeUnit} (h : d = esc ∨ isHighSurrogate d = true) : Open [esc, d] := by
  have hstatus : isCompleteSequence [esc, d] = .incomplete := by
    obtain rfl | hhigh := h
    · decide
    · have hne : ∀ c, isHighSurrogate c = false → d ≠ c := by
        rintro c hc rfl
        cases hc.symm.trans hhigh
      rw [isCompleteSequence, if_neg (not_not.mpr rfl), if_neg (hne _ (by decide)),
        if_neg (hne _ (by decide)), if_neg (hne _ (by decide)), if_neg (hne _ (by decide)),
        if_neg (hne _ (by decide)), if_neg (hne _ (by decide)), List.isEmpty_nil,
          if_pos rfl, if_pos hhigh]
  intro n hpos hle hends
  have htwo : n = 1 ∨ n = 2 := by
    simp at hle
    omega
  obtain rfl | rfl := htwo
  · obtain h | ⟨-, h, -⟩ := hends
    · exact h (by rfl)
    · omega
  · obtain h | ⟨h, -, -⟩ := hends
    · exact h hstatus
    · cases h

theorem open_esc : Open [esc] := by
  intro n hpos hle hends
  obtain rfl : n = 1 := Nat.le_antisymm hle hpos
  obtain h | ⟨-, h, -⟩ := hends
  · exact h (by rfl)
  · omega

theorem isTornMeta_append (h : 3 ≤ xs.length) : isTornMeta (xs ++ ys) = isTornMeta xs := by
  unfold isTornMeta
  rw [List.getElem?_append_left (by omega), List.getElem?_append_left (by omega), List.length_append,
    decide_eq_true (Nat.le_add_right_of_le h), decide_eq_true h]

theorem start_append {d : CodeUnit} (hpair : rest = [] → ¬ (d = esc ∨ isHighSurrogate d = true))
    (htorn : isTornMeta (esc :: d :: rest) = false) (hrun : ¬ [esc, esc, esc] <+: esc :: d :: rest)
    (ys : List CodeUnit) :
    isTornMeta (esc :: d :: rest ++ ys) = false ∧ ¬ [esc, esc, esc] <+: esc :: d :: rest ++ ys := by
  cases rest with
  | nil =>
    obtain ⟨hesc, hhigh⟩ := not_or.mp (hpair rfl)
    refine ⟨by simp [isTornMeta, hhigh], fun hstarts => hesc ?_⟩
    simp only [List.cons_append, List.cons_prefix_cons] at hstarts
    exact hstarts.2.1.symm
  | cons e rest =>
    refine ⟨(isTornMeta_append (by simp)).trans htorn, fun hstarts => hrun ?_⟩
    simp only [List.cons_append, List.cons_prefix_cons, List.nil_prefix, and_true] at hstarts ⊢
    exact hstarts

theorem FirstEnd.start {n : Nat} (h : FirstEnd (esc :: rest) n)
    (htorn : isTornMeta (esc :: rest) = false) (hrun : ¬ [esc, esc, esc] <+: esc :: rest)
    (ys : List CodeUnit) :
    isTornMeta (esc :: rest ++ ys) = false ∧ ¬ [esc, esc, esc] <+: esc :: rest ++ ys := by
  cases rest with
  | nil => exact absurd h.ends (open_esc n h.pos h.le)
  | cons d rest =>
    refine start_append (fun hrest hpair => ?_) htorn hrun ys
    subst hrest
    exact open_pair hpair n h.pos h.le h.ends

theorem nextSequence_stable {xs token rest : List CodeUnit}
    (h : nextSequence xs = some (token, rest)) (ys : List CodeUnit) :
    nextSequence (xs ++ ys) = some (token, rest ++ ys) := by
  cases found_of_nextSequence h with
  | character hesc h =>
    rw [List.cons_append, nextSequence, if_neg hesc]
    exact nextCharacter_stable h ys
  | @tornMeta xs htorn =>
    have hlength : 3 ≤ (esc :: xs).length := by
      simp only [isTornMeta, Bool.and_eq_true, decide_eq_true_eq] at htorn
      exact htorn.1.1
    have htorn' : isTornMeta (esc :: (xs ++ ys)) = true := (isTornMeta_append hlength).trans htorn
    refine (nextSequence_tornMeta htorn').trans ?_
    rw [← List.cons_append, List.take_append_of_le_length (by omega),
      List.drop_append_of_le_length (by omega)]
  | run xs => exact nextSequence_run (xs ++ ys)
  | sequence htorn hrun hfirst =>
    obtain ⟨htorn', hrun'⟩ := hfirst.start htorn hrun ys
    have hfirst' := hfirst.append ys
    rw [List.cons_append] at htorn' hrun' hfirst'
    refine (nextSequence_of_firstEnd htorn' hrun' hfirst').trans ?_
    rw [← List.cons_append, List.take_append_of_le_length hfirst.le,
      List.drop_append_of_le_length hfirst.le]

end Next

abbrev sequences : Tokenizer CodeUnit where
  next := nextSequence
  split := nextSequence_split
  stable := nextSequence_stable

theorem next_nil : sequences.next [] = none := rfl

section Extract

def escapeRun (xs : List CodeUnit) : Nat := if isEscapeRun xs then xs.length else 0

def KnownRun (known : Nat) (xs : List CodeUnit) : Prop := ∃ ys, xs = List.replicate known esc ++ ys

theorem exists_escapes (xs : List CodeUnit) :
    ∃ n ys, xs = List.replicate n esc ++ ys ∧ ys.head? ≠ some esc := by
  induction xs with
  | nil => exact ⟨0, [], rfl, by simp⟩
  | cons c xs ih =>
    obtain ⟨n, ys, rfl, hys⟩ := ih
    by_cases hc : c = esc
    · exact ⟨n + 1, ys, by rw [hc, List.replicate_succ, List.cons_append], hys⟩
    · exact ⟨0, c :: (List.replicate n esc ++ ys), rfl, by simpa using hc⟩

theorem KnownRun.le {known n : Nat} (h : KnownRun known (List.replicate n esc ++ ys))
    (hys : ys.head? ≠ some esc) :
    known ≤ n := by
  obtain ⟨zs, hzs⟩ := h
  by_contra hlt
  have hget : (List.replicate n esc ++ ys)[n]? = (List.replicate known esc ++ zs)[n]? := by rw [hzs]
  rw [List.getElem?_append_right (by simp), List.getElem?_append_left (by simpa using hlt),
    List.length_replicate, Nat.sub_self, List.getElem?_replicate_of_lt (by omega),
    ← List.head?_eq_getElem?] at hget
  exact hys hget

theorem escapeRunLength_eq {known n : Nat} (hknown : known ≤ n) (hn : 1 ≤ n)
    (hys : ys.head? ≠ some esc) :
    escapeRunLength known (List.replicate n esc ++ ys) = n := by
  have hstart : max known 1 ≤ n := Nat.max_le.mpr ⟨hknown, hn⟩
  have hwhile : ys.takeWhile (· = esc) = [] := by
    cases ys with
    | nil => rfl
    | cons y ys => exact List.takeWhile_cons_of_neg (by simpa using hys)
  simp only [escapeRunLength]
  rw [List.drop_append_of_le_length (by simpa using hstart), List.drop_replicate,
    List.takeWhile_append_of_pos (by simp), hwhile, List.append_nil, List.length_replicate]
  omega

theorem replicate_append_run (k : Nat) (ys : List CodeUnit) :
    ∃ zs, List.replicate k esc ++ esc :: esc :: ys = esc :: esc :: zs := by
  match k with
  | 0 => exact ⟨ys, rfl⟩
  | 1 => exact ⟨esc :: ys, rfl⟩
  | k + 2 => exact ⟨List.replicate k esc ++ esc :: esc :: ys, rfl⟩

theorem run_escapes (k : Nat) (ys : List CodeUnit) :
    sequences.run (List.replicate k esc ++ esc :: esc :: ys) =
      (List.replicate k [esc] ++ (sequences.run (esc :: esc :: ys)).1,
        (sequences.run (esc :: esc :: ys)).2) := by
  induction k with
  | zero => rfl
  | succ k ih =>
    obtain ⟨zs, hzs⟩ := replicate_append_run k ys
    rw [List.replicate_succ, List.cons_append, List.replicate_succ, List.cons_append, hzs,
      sequences.run_of_some (nextSequence_run zs), ← hzs, ih]

theorem next_of_short_run {n : Nat} (hn : n ≤ 2) : sequences.next (List.replicate n esc) = none := by
  match n with
  | 0 => rfl
  | 1 => exact nextSequence_of_open (by decide) (by decide) open_esc
  | 2 => exact nextSequence_of_open (by decide) (by decide) (open_pair (.inl rfl))

theorem isEscapeRun_replicate {n : Nat} (hn : 1 ≤ n) :
    isEscapeRun (List.replicate n esc) = true := by
  obtain ⟨n, rfl⟩ := Nat.exists_eq_add_of_le' hn
  simp [isEscapeRun, List.replicate_succ]

theorem escapeRun_replicate (n : Nat) : escapeRun (List.replicate n esc) = n := by
  cases n with
  | zero => rfl
  | succ n => rw [escapeRun, if_pos (isEscapeRun_replicate (by omega)), List.length_replicate]

def extracted (xs : List CodeUnit) : Extracted :=
  ⟨(sequences.run xs).1, (sequences.run xs).2, escapeRun (sequences.run xs).2⟩

theorem extracted_of_some {token rest : List CodeUnit} (h : sequences.next xs = some (token, rest)) :
    extracted xs = (extracted rest).after [token] := by
  rw [extracted, sequences.run_of_some h]
  rfl

theorem extracted_of_none (h : sequences.next xs = none) :
    extracted xs = ⟨[], xs, escapeRun xs⟩ := by
  rw [extracted, sequences.run_of_none h]

theorem extracted_escapes (k : Nat) (ys : List CodeUnit) :
    extracted (List.replicate k esc ++ esc :: esc :: ys) =
      (extracted (esc :: esc :: ys)).after (.replicate k [esc]) := by
  rw [extracted, run_escapes]
  rfl

theorem drop_escapes {n : Nat} (hn : 2 ≤ n) (ys : List CodeUnit) :
    (List.replicate n esc ++ ys).drop (n - 2) = esc :: esc :: ys ∧
    List.replicate n esc ++ ys = List.replicate (n - 2) esc ++ esc :: esc :: ys := by
  obtain ⟨k, rfl⟩ := Nat.exists_eq_add_of_le' hn
  have hsplit : List.replicate (k + 2) esc ++ ys = List.replicate k esc ++ esc :: esc :: ys := by
    rw [List.replicate_add, List.append_assoc]
    rfl
  refine ⟨?_, hsplit⟩
  rw [hsplit, Nat.add_sub_cancel, List.drop_left' (List.length_replicate)]

attribute [local simp] extractFrom

theorem extractFrom_sequence {rounds known : Nat} {rest : List CodeUnit}
    (ih : ∀ xs : List CodeUnit, xs.length ≤ rounds → extractFrom rounds 0 xs = extracted xs)
    (hrounds : (esc :: rest).length ≤ rounds + 1) (htorn : isTornMeta (esc :: rest) = false)
    (hrun : escapeRunLength known (esc :: rest) ≤ 2)
    (hlength : escapeRunLength known (esc :: rest) ≠ (esc :: rest).length)
    (hthree : ¬ [esc, esc, esc] <+: esc :: rest) (hnot : isEscapeRun (esc :: rest) = false) :
    extractFrom (rounds + 1) known (esc :: rest) = extracted (esc :: rest) := by
  rw [extractFrom, if_pos rfl]
  dsimp only
  rw [if_neg (by rw [← isTornMeta, htorn]; exact Bool.false_ne_true), if_neg hlength,
    if_neg (by omega)]
  obtain htorn' | ⟨xs, rfl⟩ | ⟨-, -, ⟨n, hfirst⟩ | hopen⟩ := nextSequence_esc_cases rest
  · cases htorn.symm.trans htorn'
  · exact absurd ⟨xs, rfl⟩ hthree
  · have hpos := hfirst.pos
    rw [findSequences_of_firstEnd hthree hfirst,
      extracted_of_some (nextSequence_of_firstEnd htorn hthree hfirst)]
    dsimp only
    rw [ih]
    rw [List.length_drop]
    omega
  · rw [findSequences_eq_none hopen, extracted_of_none (nextSequence_of_open htorn hthree hopen),
      escapeRun, hnot]
    rfl

theorem extractFrom_run {rounds known n : Nat} {ys rest : List CodeUnit}
    (ih : ∀ xs : List CodeUnit, xs.length ≤ rounds → extractFrom rounds 0 xs = extracted xs)
    (hrounds : (esc :: rest).length ≤ rounds + 1) (htorn : isTornMeta (esc :: rest) = false)
    (hsplit : esc :: rest = List.replicate n esc ++ ys) (hys : ys.head? ≠ some esc) (hn : 1 ≤ n)
    (hknown : known ≤ n) :
    extractFrom (rounds + 1) known (esc :: rest) = extracted (esc :: rest) := by
  have hrun : escapeRunLength known (esc :: rest) = n := by
    rw [hsplit, escapeRunLength_eq hknown hn hys]
  have hlength : (esc :: rest).length = n + ys.length := by
    rw [hsplit, List.length_append, List.length_replicate]
  by_cases hlong : 2 < n
  · obtain ⟨hdrop, hfront⟩ := drop_escapes hlong.le ys
    rw [extractFrom, if_pos rfl]
    dsimp only
    rw [if_neg (by rw [← isTornMeta, htorn]; exact Bool.false_ne_true), hrun]
    split
    next hall =>
      obtain rfl : ys = [] := List.length_eq_zero_iff.mp (by omega)
      have hnone : sequences.next [esc, esc] = none := next_of_short_run le_rfl
      have hescapes : escapeRun [esc, esc] = 2 := escapeRun_replicate 2
      rw [if_pos (by omega), hsplit, hdrop, hfront, extracted_escapes, extracted_of_none hnone,
        hescapes, Extracted.after, List.append_nil]
    next hmore =>
      rw [hsplit, hdrop, hfront, extracted_escapes, ih]
      simp only [List.length_cons] at hlength hrounds hmore ⊢
      omega
  · match ys with
    | [] =>
      rw [List.append_nil] at hsplit
      have hnone : sequences.next (esc :: rest) = none := hsplit ▸ next_of_short_run (by omega)
      rw [extractFrom, if_pos rfl, extracted_of_none hnone]
      dsimp only
      rw [if_neg (by rw [← isTornMeta, htorn]; exact Bool.false_ne_true), hrun,
        if_pos (by simpa using hlength.symm), if_neg (by omega)]
      rw [hsplit, escapeRun_replicate]
    | y :: ys =>
      have hy : y ≠ esc := by simpa using hys
      refine extractFrom_sequence ih hrounds htorn (by omega) ?_ ?_ ?_
      · rw [hrun, hlength, List.length_cons]
        omega
      · rw [hsplit]
        obtain rfl | rfl : n = 1 ∨ n = 2 := by omega
        · simp [List.replicate_succ, List.cons_prefix_cons, hy.symm]
        · simp [List.replicate_succ, List.cons_prefix_cons, hy.symm]
      · rw [hsplit, isEscapeRun]
        simp [hy]

theorem extractFrom_character {rounds known : Nat} {c : CodeUnit} {rest : List CodeUnit}
    (ih : ∀ xs : List CodeUnit, xs.length ≤ rounds → extractFrom rounds 0 xs = extracted xs)
    (hrounds : (c :: rest).length ≤ rounds + 1) (hc : c ≠ esc) :
    extractFrom (rounds + 1) known (c :: rest) = extracted (c :: rest) := by
  have hnext : sequences.next (c :: rest) = nextCharacter c rest := by
    show nextSequence (c :: rest) = _
    rw [nextSequence, if_neg hc]
  rw [extractFrom, if_neg hc]
  cases rest with
  | nil =>
    rw [nextCharacter] at hnext
    cases hhigh : isHighSurrogate c with
    | true =>
      rw [hhigh, if_pos rfl] at hnext
      rw [if_pos (by simp), extracted_of_none hnext, escapeRun, if_neg (by simp [isEscapeRun, hc])]
    | false =>
      rw [hhigh, if_neg Bool.false_ne_true] at hnext
      rw [if_neg (by simp), if_neg (by simp), ih [] (Nat.zero_le _), extracted_of_some hnext]
  | cons d rest =>
    simp only [List.length_cons] at hrounds
    rw [nextCharacter] at hnext
    rw [if_neg (by simp)]
    cases hpair : isHighSurrogate c && isLowSurrogate d with
    | true =>
      rw [hpair, if_pos rfl] at hnext
      rw [if_pos (by simpa using hpair), extracted_of_some hnext]
      exact congrArg _ (ih rest (by omega))
    | false =>
      rw [hpair, if_neg Bool.false_ne_true] at hnext
      rw [if_neg (by simpa using hpair), extracted_of_some hnext,
        ih (d :: rest) (by simp only [List.length_cons]; omega)]

theorem extractFrom_eq {rounds known : Nat} (hrounds : xs.length ≤ rounds)
    (hknown : KnownRun known xs) :
    extractFrom rounds known xs = extracted xs := by
  induction rounds generalizing known xs with
  | zero =>
    obtain rfl := List.length_eq_zero_iff.mp (Nat.le_zero.mp hrounds)
    rw [extracted_of_none rfl]
    rfl
  | succ rounds ih =>
    have ih' : ∀ xs : List CodeUnit, xs.length ≤ rounds → extractFrom rounds 0 xs = extracted xs :=
      fun xs hxs => ih hxs ⟨xs, rfl⟩
    match xs with
    | [] =>
      rw [extracted_of_none rfl]
      rfl
    | c :: rest =>
      by_cases hc : c = esc
      · subst hc
        cases htorn : isTornMeta (esc :: rest) with
        | true =>
          rw [extractFrom, if_pos rfl, extracted_of_some (nextSequence_tornMeta htorn)]
          dsimp only
          rw [if_pos (by rw [← isTornMeta, htorn]), ih']
          rw [List.length_drop]
          omega
        | false =>
          obtain ⟨n, ys, hsplit, hys⟩ := exists_escapes (esc :: rest)
          have hn : 1 ≤ n := by
            by_contra hzero
            obtain rfl : n = 0 := by omega
            exact hys (by rw [← List.nil_append ys, ← List.replicate_zero, ← hsplit]; rfl)
          exact extractFrom_run ih' hrounds htorn hsplit hys hn ((hsplit ▸ hknown).le hys)
      · exact extractFrom_character ih' hrounds hc

theorem extractCompleteSequences_eq {known : Nat} (h : KnownRun known xs) :
    extractCompleteSequences xs known = extracted xs :=
  extractFrom_eq le_rfl h

end Extract

end JevCode.Tui
