import JevCode.Tui.StdinTokens

namespace JevCode.Tui

open JevCode.Data

variable {xs : List CodeUnit}

def resolved (remainder : List CodeUnit) : List (List CodeUnit) :=
  if remainder.isEmpty then [] else splitResolvedEscapeRun remainder

structure InProgress (d : CodeUnit) (rest : List CodeUnit) : Prop where
  tornMeta : isTornMeta (esc :: d :: rest) = false
  run : ¬ [esc, esc, esc] <+: esc :: d :: rest
  isOpen : Open (esc :: d :: rest)
  pair : rest = [] → ¬ (d = esc ∨ isHighSurrogate d = true)

theorem stuck_cases (h : sequences.next xs = none) :
    xs = [] ∨ xs = [esc] ∨ xs = [esc, esc] ∨ (∃ c, c ≠ esc ∧ isHighSurrogate c = true ∧ xs = [c]) ∨
    (∃ d, isHighSurrogate d = true ∧
      xs = [esc, d]) ∨ ∃ d rest, xs = esc :: d :: rest ∧ InProgress d rest := by
  cases xs with
  | nil => exact .inl rfl
  | cons c xs =>
    refine .inr ?_
    by_cases hc : c = esc
    · subst hc
      obtain htorn | ⟨ys, rfl⟩ | ⟨htorn, hrun, ⟨n, hfirst⟩ | hopen⟩ := nextSequence_esc_cases xs
      · cases (nextSequence_tornMeta htorn).symm.trans h
      · cases (nextSequence_run ys).symm.trans h
      · cases (nextSequence_of_firstEnd htorn hrun hfirst).symm.trans h
      · cases xs with
        | nil => exact .inl rfl
        | cons d rest =>
          by_cases hpair : rest = [] ∧ (d = esc ∨ isHighSurrogate d = true)
          · obtain ⟨rfl, rfl | hhigh⟩ := hpair
            · exact .inr (.inl rfl)
            · exact .inr (.inr (.inr (.inl ⟨d, hhigh, rfl⟩)))
          · refine .inr (.inr (.inr
              (.inr ⟨d, rest, rfl, htorn, hrun, hopen, fun hrest hd => hpair ⟨hrest, hd⟩⟩)))
    · have hnone : nextCharacter c xs = none := by
        change nextSequence (c :: xs) = none at h
        rwa [nextSequence, if_neg hc] at h
      cases xs with
      | nil =>
        rw [nextCharacter] at hnone
        split at hnone
        next hhigh => exact .inr (.inr (.inl ⟨c, hc, hhigh, rfl⟩))
        next => cases hnone
      | cons d rest =>
        rw [nextCharacter] at hnone
        split at hnone <;> cases hnone

namespace InProgress

variable {d : CodeUnit} {rest : List CodeUnit}

theorem firstEnd (h : InProgress d rest) (htorn : ¬ EndsInEsc (esc :: d :: rest)) {m : List CodeUnit}
    (hm : isStringSequence (esc :: d :: rest) = false ∨ m.head? = some (code '[')) :
    FirstEnd (esc :: d :: rest ++ esc :: m) (esc :: d :: rest).length := by
  refine ⟨by simp, by simp, .inr ⟨by simp, by simp, ?_⟩, fun k hpos hlt hends => ?_⟩
  · rw [isStringSequence_append (by simp)]
    rintro ⟨hstring, hnext⟩
    have hhead := hm.resolve_left (by simp [hstring])
    rw [List.getElem?_append_right (by omega), Nat.add_sub_cancel_left, List.getElem?_cons_succ,
      ← List.head?_eq_getElem?, hhead] at hnext
    revert hnext
    decide
  · exact h.isOpen k hpos hlt.le (hends.of_append hlt (.inr htorn))

theorem open_append (h : InProgress d rest) (htorn : ¬ EndsInEsc (esc :: d :: rest))
    (hstring : isStringSequence (esc :: d :: rest) = true) : Open (esc :: d :: rest ++ [esc]) := by
  intro n hpos hle hends
  rw [List.length_append, List.length_singleton] at hle
  obtain hlt | rfl | rfl : n < (esc :: d :: rest).length ∨ n = (esc :: d :: rest).length ∨
      n = (esc :: d :: rest).length + 1 := by omega
  · exact h.isOpen n hpos hlt.le (hends.of_append hlt (.inr htorn))
  · obtain hstatus | ⟨-, -, hcut⟩ := hends
    · rw [List.take_left] at hstatus
      exact h.isOpen _ hpos le_rfl (.inl (by rwa [List.take_length]))
    · refine hcut ⟨?_, .inl (List.getElem?_eq_none (by simp))⟩
      rwa [isStringSequence_append (by simp)]
  · obtain hstatus | ⟨hesc, -, -⟩ := hends
    · rw [List.take_of_length_le (by simp)] at hstatus
      have hends : EndsInEsc (esc :: d :: rest ++ [esc]) := by
        refine ⟨?_, List.getLast?_concat⟩
        rwa [isStringSequence_append (by simp)]
      exact hstatus hends.incomplete
    · rw [List.getElem?_eq_none (by simp)] at hesc
      cases hesc

theorem firstEnd_torn (h : InProgress d rest) (htorn : EndsInEsc (esc :: d :: rest))
    (m : List CodeUnit) :
    FirstEnd (esc :: d :: rest ++ esc :: m) (rest.length + 1) := by
  obtain ⟨hstring, hlast⟩ := htorn
  have hrest : rest ≠ [] := by
    rintro rfl
    obtain rfl : d = esc := by simpa using hlast
    revert hstring
    decide
  have hlength := List.length_pos_iff.mpr hrest
  refine ⟨by omega, by simp; omega, .inr ⟨?_, by omega, ?_⟩, fun k hpos hlt hends => ?_⟩
  · rw [List.getElem?_append_left (by simp), ← hlast, List.getLast?_eq_getElem?]
    rfl
  · rintro ⟨-, hnext⟩
    have hesc : (esc :: d :: rest ++ esc :: m)[rest.length + 1 + 1]? = some esc := by simp
    rw [hesc] at hnext
    revert hnext
    decide
  · have hends' : EndsAt (esc :: d :: rest) k := by
      refine hends.of_append ?_ (.inl ?_) <;> simp only [List.length_cons] <;> omega
    exact h.isOpen k hpos (by simp only [List.length_cons]; omega) hends'

theorem not_isEscapeRun (h : InProgress d rest) : isEscapeRun (esc :: d :: rest) = false := by
  by_contra hescapes
  have hall : ∀ c ∈ esc :: d :: rest, c = esc := by
    simpa [isEscapeRun] using hescapes
  cases rest with
  | nil => exact h.pair rfl (.inl (hall d (by simp)))
  | cons e rest =>
    refine h.run ?_
    rw [hall d (by simp), hall e (by simp)]
    exact List.prefix_append [esc, esc, esc] rest

theorem resolved (h : InProgress d rest) : resolved (esc :: d :: rest) = [esc :: d :: rest] := by
  rw [Tui.resolved, if_neg (by simp), splitResolvedEscapeRun, h.not_isEscapeRun]
  rfl

end InProgress

theorem next_of_esc : sequences.next [esc] = none := next_of_short_run (Nat.le_succ 1)

theorem pasteStart_take {n : Nat} (hpos : 1 ≤ n) (hle : n ≤ 5) :
    ∃ m, pasteStart.take n = esc :: m ∧ (m = [] ∧ n = 1 ∨ m.head? = some (code '[')) ∧
      sequences.next (esc :: m) = none ∧ sequences.next (esc :: esc :: m) = none := by
  have hall : ∀ k < 5, (pasteStart.take (k + 1)).tail = [] ∧ k = 0 ∨
      (pasteStart.take (k + 1)).tail.head? = some (code '[') := by decide
  have hnext : ∀ k < 5, sequences.next (pasteStart.take (k + 1)) = none ∧
      sequences.next (esc :: pasteStart.take (k + 1)) = none := by decide +kernel
  obtain ⟨k, rfl⟩ := Nat.exists_eq_add_of_le' hpos
  refine ⟨(pasteStart.take (k + 1)).tail, rfl, ?_, (hnext k (by omega)).1, (hnext k (by omega)).2⟩
  exact (hall k (by omega)).imp_left fun h => ⟨h.1, by rw [h.2]⟩

theorem run_before_marker (h : sequences.next xs = none) {n : Nat} (hpos : 1 ≤ n) (hle : n ≤ 5) :
    ∃ tokens x, sequences.run (xs ++ pasteStart.take n) = (tokens, x ++ pasteStart.take n) ∧
      sequences.next x = none ∧
      (¬ EndsInEsc xs → tokens ++ resolved x = resolved xs) ∧
      (tokens = [] → xs = [] ∨ xs = [esc] ∨ n = 1) := by
  obtain ⟨m, htake, hm, hmarker, hmeta⟩ := pasteStart_take hpos hle
  have hrun := sequences.run_of_none hmarker
  rw [htake]
  have hended : ∀ {xs : List CodeUnit}, sequences.next (xs ++ esc :: m) = some (xs, esc :: m) →
      resolved xs = [xs] →
      ∃ tokens x, sequences.run (xs ++ esc :: m) = (tokens, x ++ esc :: m) ∧
      sequences.next x = none ∧
        (¬ EndsInEsc xs → tokens ++ resolved x = resolved xs) ∧
        (tokens = [] → xs = [] ∨ xs = [esc] ∨ n = 1) := by
    intro xs hnext hresolved
    refine ⟨[xs], [], ?_, rfl, fun _ => hresolved.symm, fun hnil => by cases hnil⟩
    rw [sequences.run_of_some hnext, hrun, List.nil_append]
  obtain rfl | rfl | rfl | ⟨c, hc, hhigh, rfl⟩ | ⟨d, hhigh, rfl⟩ | ⟨d, rest, rfl, hprogress⟩ :=
    stuck_cases h
  · exact ⟨[], [], hrun, rfl, fun _ => rfl, fun _ => .inl rfl⟩
  · exact ⟨[], [esc], sequences.run_of_none hmeta, h, fun _ => rfl, fun _ => .inr (.inl rfl)⟩
  · refine ⟨[[esc]], [esc], ?_, next_of_esc, fun _ => by decide, fun hnil => by cases hnil⟩
    rw [List.cons_append, List.cons_append, List.nil_append,
      sequences.run_of_some (nextSequence_run m), sequences.run_of_none hmeta]
  · have hnext : nextSequence (c :: esc :: m) = some ([c], esc :: m) := by
      rw [nextSequence, if_neg hc, nextCharacter,
        if_neg (by simp [show isLowSurrogate esc = false by decide])]
    exact hended hnext (by simp [resolved, splitResolvedEscapeRun])
  · have htorn : isTornMeta (esc :: d :: esc :: m) = true := by
      simp [isTornMeta, hhigh, show isLowSurrogate esc = false by decide]
    have hd : d ≠ esc := by
      rintro rfl
      cases isHighSurrogate_esc.symm.trans hhigh
    exact hended (nextSequence_tornMeta htorn)
      (by simp [resolved, splitResolvedEscapeRun, isEscapeRun, hd])
  · obtain ⟨htorn, hthree⟩ := start_append hprogress.pair hprogress.tornMeta hprogress.run (esc :: m)
    rw [List.cons_append] at htorn hthree
    by_cases hends : EndsInEsc (esc :: d :: rest)
    · have hfirst := hprogress.firstEnd_torn hends m
      rw [List.cons_append] at hfirst
      obtain ⟨front, hfront⟩ := List.getLast?_eq_some_iff.mp hends.2
      have hlength : front.length = rest.length + 1 := by
        simpa using (congrArg List.length hfront).symm
      refine ⟨[front], [esc], ?_, next_of_esc, fun hnot => absurd hends hnot,
        fun hnil => by cases hnil⟩
      have hnext := nextSequence_of_firstEnd htorn hthree hfirst
      rw [← List.cons_append, hfront, List.append_assoc, List.take_left' hlength,
        List.drop_left' hlength] at hnext
      rw [hfront, List.append_assoc, sequences.run_of_some hnext, List.singleton_append,
        sequences.run_of_none hmeta]
    · by_cases hm' : isStringSequence (esc :: d :: rest) = true ∧ m = []
      · obtain ⟨hstring, rfl⟩ := hm'
        have hopen := hprogress.open_append hends hstring
        rw [List.cons_append] at hopen
        refine ⟨[], esc :: d :: rest,
          sequences.run_of_none (nextSequence_of_open htorn hthree hopen), h, fun _ => rfl,
          fun _ => .inr (.inr ?_)⟩
        exact hm.elim (·.2) fun hhead => by cases hhead
      · have hcut : isStringSequence (esc :: d :: rest) = false ∨ m.head? = some (code '[') := by
          rw [not_and_or, Bool.not_eq_true] at hm'
          exact hm'.imp_right fun hne => hm.resolve_left fun h => hne h.1
        have hfirst := hprogress.firstEnd hends hcut
        rw [List.cons_append] at hfirst
        have hnext := nextSequence_of_firstEnd htorn hthree hfirst
        rw [← List.cons_append, List.take_left, List.drop_left] at hnext
        exact hended hnext hprogress.resolved

end JevCode.Tui
