import JevCode.Tui.StdinBufferLaws

namespace JevCode.Tui

open JevCode.Data

inductive BeforePaste : List CodeUnit → List CodeUnit → Prop
  | first {text before after : List CodeUnit} (h : FirstAt pasteStart text before after) :
    BeforePaste text before
  | later {text before after content rest stretch : List CodeUnit}
    (h : FirstAt pasteStart text before after)
      (hend : FirstAt pasteEnd after content rest) (hrest : BeforePaste rest stretch) :
      BeforePaste text stretch

def Torn (sequence : List CodeUnit) : Prop :=
  isSgrMousePrefix sequence = true ∧ isSgrMouseSequence sequence = false ∨ EndsInEsc sequence

def Untorn (text : List CodeUnit) : Prop :=
  ∀ stretch, BeforePaste text stretch → ∀ sequence ∈
    (extractCompleteSequences stretch 0).sequences ++
    [(extractCompleteSequences stretch 0).remainder], ¬ Torn sequence

variable {output : Option Nat × List Event} {emitted : List Event}
    {text before after content rest chunk : List CodeUnit}

theorem wanted_append (xs ys : List (List CodeUnit)) : wanted (xs ++ ys) = wanted xs ++ wanted ys :=
  List.filter_append _ _

theorem wanted_of_untorn {tokens : List (List CodeUnit)} (h : ∀ token ∈ tokens, ¬ Torn token) :
    wanted tokens = tokens := by
  refine List.filter_eq_self.mpr fun token hmem => ?_
  have hreport := (not_or.mp (h token hmem)).1
  cases hstarts : isSgrMousePrefix token with
  | false => rfl
  | true =>
    rw [hstarts, not_and, Bool.not_eq_false] at hreport
    rw [hreport rfl]
    rfl

theorem ne_nil_of_firstAt (h : FirstAt pasteStart text before after) : text ≠ [] := by
  rw [h.eq]
  simp [pasteStart]

theorem BeforePaste.ne_nil {stretch : List CodeUnit} (h : BeforePaste text stretch) : text ≠ [] := by
  cases h with
  | first h => exact ne_nil_of_firstAt h
  | later h hend hrest => exact ne_nil_of_firstAt h

theorem BeforePaste.append {stretch : List CodeUnit} (h : BeforePaste text stretch)
    (more : List CodeUnit) :
    BeforePaste (text ++ more) stretch := by
  induction h with
  | first h => exact .first (h.append more)
  | later h hend _ ih => exact .later (h.append more) (hend.append more) ih

theorem Untorn.of_append {more : List CodeUnit} (h : Untorn (text ++ more)) : Untorn text :=
  fun stretch hstretch => h stretch (hstretch.append more)

theorem Untorn.firstStretch (h : Untorn text) (hstart : FirstAt pasteStart text before after) :
    (∀ token ∈ (sequences.run before).1, ¬ Torn token) ∧ ¬ Torn (sequences.run before).2 := by
  have hextract : extractCompleteSequences before 0 = extracted before :=
    extractCompleteSequences_eq ⟨before, rfl⟩
  have huntorn := h before (.first hstart)
  rw [hextract] at huntorn
  exact ⟨fun token hmem => huntorn token (List.mem_append_left _ hmem),
    huntorn _ (by simp [extracted])⟩

theorem Untorn.afterFirst (h : Untorn text) (hstart : FirstAt pasteStart text before after)
    (hend : FirstAt pasteEnd after content rest) : Untorn rest :=
  fun stretch hstretch => h stretch (.later hstart hend hstretch)

theorem sequencesBeforePaste_append (xs ys : List CodeUnit) :
    sequencesBeforePaste (xs ++ ys) = (sequences.run xs).1 ++
      sequencesBeforePaste ((sequences.run xs).2 ++ ys) := by
  rw [sequencesBeforePaste, sequences.run_append, List.append_assoc]
  rfl

theorem sequencesBeforePaste_of_none (h : sequences.next text = none) :
    sequencesBeforePaste text = resolved text := by
  rw [sequencesBeforePaste, sequences.run_of_none h, List.nil_append]

theorem not_torn_esc : ¬ Torn [esc] := by
  unfold Torn EndsInEsc
  decide

theorem untorn_resolved (h : ¬ Torn text) : ∀ token ∈ resolved text, ¬ Torn token := by
  intro token hmem
  unfold resolved splitResolvedEscapeRun at hmem
  split at hmem
  · cases hmem
  · split at hmem
    next hescapes =>
      obtain ⟨c, hc, rfl⟩ := List.mem_map.mp hmem
      rw [eq_replicate_of_isEscapeRun (Bool.and_eq_true_iff.mp hescapes).1] at hc
      rw [List.eq_of_mem_replicate hc]
      exact not_torn_esc
    next =>
      rw [List.mem_singleton.mp hmem]
      exact h

theorem process_split_before {middle : List CodeUnit}
    (h : FirstAt pasteStart (text ++ chunk) (text ++ middle) after)
    (huntorn : Untorn (text ++ chunk)) (hchunk : chunk ≠ []) :
    (buffering ((wanted (sequences.run text).1).foldl emit output)
      (sequences.run text).2).process chunk =
      continuePaste ((sequencesBeforePaste (text ++ middle)).foldl emit output).2 after := by
  have hsplit : FirstAt pasteStart
      ((sequences.run text).1.flatten ++ ((sequences.run text).2 ++ chunk))
      ((sequences.run text).1.flatten ++ ((sequences.run text).2 ++ middle)) after := by
    rwa [← List.append_assoc, ← List.append_assoc, sequences.flatten_run]
  have htokens : wanted (sequences.run text).1 = (sequences.run text).1 := by
    refine wanted_of_untorn fun token hmem => (huntorn.firstStretch h).1 token ?_
    rw [sequences.run_append]
    exact List.mem_append_left _ hmem
  rw [process_paste (sequences.next_run text) hchunk hsplit.dropFront, htokens,
    sequencesBeforePaste_append text middle, List.foldl_append]

theorem process_split_marker {front back : List CodeUnit} (hfront : front ≠ []) (hback : back ≠ [])
    (hmarker : pasteStart = front ++ back) (hchunk : chunk = back ++ after)
    (htext : text = before ++ front) (h : FirstAt pasteStart (text ++ chunk) before after)
    (huntorn : Untorn (text ++ chunk)) :
    (buffering ((wanted (sequences.run text).1).foldl emit output)
      (sequences.run text).2).process chunk =
      continuePaste ((sequencesBeforePaste before).foldl emit output).2 after := by
  obtain ⟨htokens, hremainder⟩ := huntorn.firstStretch h
  have hlength : front.length + back.length = 6 := by rw [← List.length_append, ← hmarker]; rfl
  have hpos := List.length_pos_iff.mpr hfront
  have hpos' := List.length_pos_iff.mpr hback
  have htake : pasteStart.take front.length = front := by rw [hmarker, List.take_left]
  obtain ⟨tokens, x, hrun, hx, hresolved, -⟩ :=
    run_before_marker (sequences.next_run before) hpos (by omega)
  rw [htake] at hrun
  have hresolved := hresolved fun hends => hremainder (.inr hends)
  have hruntext : sequences.run text = ((sequences.run before).1 ++ tokens, x ++ front) := by
    rw [htext, sequences.run_append, hrun]
  have hbefore : before = ((sequences.run before).1 ++ tokens).flatten ++ x := by
    have hflatten := sequences.flatten_run text
    rw [hruntext, ← List.append_assoc, htext] at hflatten
    exact (List.append_cancel_right hflatten).symm
  have hsplit : FirstAt pasteStart (((sequences.run before).1 ++ tokens).flatten ++
      ((x ++ front) ++ chunk))
      (((sequences.run before).1 ++ tokens).flatten ++ x) after := by
    rwa [← hbefore, ← List.append_assoc, ← List.append_assoc, ← hbefore, ← htext]
  have hwanted : wanted ((sequences.run before).1 ++ tokens) =
      (sequences.run before).1 ++ tokens := by
    refine wanted_of_untorn fun token hmem => ?_
    obtain hmem | hmem := List.mem_append.mp hmem
    · exact htokens token hmem
    · exact untorn_resolved hremainder token (hresolved ▸ List.mem_append_left _ hmem)
  have hnext := sequences.next_run text
  rw [hruntext] at hnext ⊢
  dsimp only at hnext ⊢
  rw [process_paste hnext (by simp [hchunk, hback]) hsplit.dropFront, hwanted,
    sequencesBeforePaste_of_none hx, ← List.foldl_append, List.append_assoc, hresolved]
  rfl

theorem continuePaste_append (hchunk : chunk ≠ [])
    (ih : ∀ {emitted content rest}, FirstAt pasteEnd text content rest → rest ≠ [] →
      ((buffering (none, emitted) []).process rest).process chunk =
      (buffering (none, emitted) []).process (rest ++ chunk)) :
    (continuePaste emitted text).process chunk = continuePaste emitted (text ++ chunk) := by
  by_cases hend : pasteEnd <:+: text
  · obtain ⟨content, rest, h⟩ := exists_firstAt pasteEnd_ne_nil hend
    have hboth : rest ++ chunk ≠ [] := by simp [hchunk]
    rw [continuePaste_closed h, continuePaste_closed (h.append chunk), afterPaste_of_ne_nil _ hboth]
    cases rest with
    | nil => rfl
    | cons c rest =>
      rw [afterPaste_of_ne_nil _ (List.cons_ne_nil c rest)]
      exact ih h (List.cons_ne_nil c rest)
  · rw [continuePaste_open hend, process_pasting hchunk]

theorem run_remainder_occurs (text : List CodeUnit) : (sequences.run text).2 <:+: text := by
  nth_rewrite 2 [← sequences.flatten_run text]
  exact (List.suffix_append _ _).isInfix

theorem process_append (htext : text ≠ []) (hchunk : chunk ≠ []) (huntorn : Untorn (text ++ chunk)) :
    ((buffering output []).process text).process chunk = (buffering output []).process
    (text ++ chunk) := by
  induction hn : text.length using Nat.strongRecOn generalizing text output with
  | ind n ih =>
    have hboth : text ++ chunk ≠ [] := by simp [htext]
    by_cases hstart : pasteStart <:+: text
    · obtain ⟨before, after, h⟩ := exists_firstAt pasteStart_ne_nil hstart
      rw [process_paste next_nil htext h, process_paste next_nil hboth (h.append chunk)]
      refine continuePaste_append hchunk fun {emitted content rest} hend hrest =>
        ih rest.length ?_ hrest ?_ rfl
      · have hlength := congrArg List.length h.eq
        rw [hend.eq] at hlength
        simp only [List.length_append, show pasteStart.length = 6 from rfl] at hlength
        omega
      · exact huntorn.afterFirst (h.append chunk) (hend.append chunk)
    · rw [process_plain next_nil htext hstart, List.nil_append]
      by_cases hstart' : pasteStart <:+: text ++ chunk
      · obtain ⟨before, after, h⟩ := exists_firstAt pasteStart_ne_nil hstart'
        rw [process_paste next_nil hboth h]
        obtain ⟨middle, rfl, hmiddle⟩ | ⟨front, back, hfront, hback, hmarker, hleft, hright⟩ :=
          h.cases_append hstart
        · exact process_split_before h huntorn hchunk
        · exact process_split_marker hfront hback hmarker hright hleft h huntorn
      · have hlater : ¬ pasteStart <:+: (sequences.run text).2 ++ chunk := by
          intro hoccurs
          refine hstart' (hoccurs.trans ?_)
          nth_rewrite 2 [← sequences.flatten_run text]
          rw [List.append_assoc]
          exact (List.suffix_append _ _).isInfix
        rw [process_plain next_nil hboth hstart',
          process_plain (sequences.next_run text) hchunk hlater, List.nil_append,
          sequences.run_append text chunk, wanted_append, List.foldl_append]

theorem foldl_process {chunks : List (List CodeUnit)} (hchunks : ∀ chunk ∈ chunks, chunk ≠ [])
    (hne : chunks ≠ []) (huntorn : Untorn chunks.flatten) :
    chunks.foldl StdinBuffer.process (buffering output []) =
      (buffering output []).process chunks.flatten := by
  induction chunks using List.reverseRecOn with
  | nil => exact absurd rfl hne
  | append_singleton chunks chunk ih =>
    rw [List.flatten_append, List.flatten_singleton] at huntorn ⊢
    rw [List.foldl_append, List.foldl_cons, List.foldl_nil]
    by_cases hempty : chunks = []
    · rw [hempty]
      rfl
    · have hfront : ∀ c ∈ chunks, c ≠ [] := fun c hc => hchunks c (List.mem_append_left _ hc)
      have htext : chunks.flatten ≠ [] := by
        intro hnil
        obtain ⟨c, cs, rfl⟩ := List.exists_cons_of_ne_nil hempty
        exact hfront c List.mem_cons_self (List.append_eq_nil_iff.mp hnil).1
      rw [ih hfront hempty huntorn.of_append]
      exact process_append htext (hchunks chunk (by simp)) huntorn

section Torn

theorem EndsInEsc.length {sequence : List CodeUnit} (h : EndsInEsc sequence) :
    3 ≤ sequence.length := by
  obtain ⟨hstring, hlast⟩ := h
  match sequence with
  | [] => cases hlast
  | [c] => cases hstring
  | [c, d] =>
    obtain rfl : d = esc := by simpa using hlast
    have hnot : isStringSequence [c, esc] = false := rfl
    cases hnot.symm.trans hstring
  | c :: d :: e :: rest => simp

theorem Torn.length {sequence : List CodeUnit} (h : Torn sequence) : 3 ≤ sequence.length := by
  obtain ⟨hstarts, -⟩ | hends := h
  · exact (of_decide_eq_true hstarts).length_le
  · exact hends.length

theorem FirstEnd.not_endsInEsc {n : Nat} (h : FirstEnd (esc :: text) n) :
    ¬ EndsInEsc ((esc :: text).take n) := by
  intro hends
  have hlength := hends.length
  have hle := h.le
  rw [List.length_take, Nat.min_eq_left hle] at hlength
  obtain hstatus | ⟨hesc, -, -⟩ := h.ends
  · obtain ⟨m, rfl⟩ := Nat.exists_eq_add_of_le' (Nat.le_of_succ_le hlength)
    cases text with
    | nil =>
      simp at hle
    | cons d text =>
      rw [List.take_succ_cons, List.take_succ_cons] at hends hstatus
      exact hstatus hends.incomplete
  · refine h.first (n - 1) (by omega) (by omega) (.inr ⟨?_, by omega, ?_⟩)
    · have hlast := hends.2
      rwa [List.getLast?_eq_getElem?, List.length_take, Nat.min_eq_left hle,
        List.getElem?_take_of_lt (by omega)] at hlast
    · rw [Nat.sub_add_cancel (by omega), hesc]
      rintro ⟨-, hnext⟩
      revert hnext
      decide

theorem length_of_nextCharacter {c : CodeUnit} {token : List CodeUnit}
    (h : nextCharacter c text = some (token, rest)) :
    token.length ≤ 2 := by
  cases text with
  | nil =>
    rw [nextCharacter] at h
    split at h
    · cases h
    · cases h
      simp
  | cons d text =>
    rw [nextCharacter] at h
    split at h
    all_goals
      cases h
      simp

theorem not_endsInEsc_of_next {token : List CodeUnit}
    (h : sequences.next text = some (token, rest)) :
    ¬ EndsInEsc token := by
  intro hends
  have hlength := hends.length
  cases found_of_nextSequence h with
  | character hesc h =>
    have := length_of_nextCharacter h
    omega
  | tornMeta htorn =>
    rw [List.length_take] at hlength
    omega
  | run xs => simp at hlength
  | sequence htorn hrun hfirst => exact hfirst.not_endsInEsc hends

theorem not_torn_of_mem_wanted {token : List CodeUnit} (h : token ∈ wanted (sequences.run text).1) :
    ¬ Torn token := by
  obtain ⟨hmem, hreport⟩ := List.mem_filter.mp h
  obtain ⟨ys, rest, hnext⟩ := sequences.exists_next_of_mem_run hmem
  rintro (⟨hstarts, hsequence⟩ | hends)
  · rw [hstarts, hsequence] at hreport
    cases hreport
  · exact not_endsInEsc_of_next hnext hends

def NoneTorn (emitted : List Event) : Prop := ∀ sequence, .data sequence ∈ emitted → ¬ Torn sequence

theorem NoneTorn.foldl {tokens : List (List CodeUnit)} (h : NoneTorn output.2)
    (htokens : ∀ token ∈ tokens, ¬ Torn token) :
    NoneTorn (tokens.foldl emit output).2 := by
  induction tokens generalizing output with
  | nil => exact h
  | cons token tokens ih =>
    refine ih ?_ fun token' hmem => htokens token' (List.mem_cons_of_mem _ hmem)
    unfold emit
    split
    next => exact h
    next =>
      intro sequence hmem
      obtain hmem | hmem := List.mem_append.mp hmem
      · exact h sequence hmem
      · cases List.mem_singleton.mp hmem
        exact htokens _ List.mem_cons_self

theorem NoneTorn.paste (h : NoneTorn emitted) (content : List CodeUnit) :
    NoneTorn (emitted ++ [.paste content]) := by
  intro sequence hmem
  obtain hmem | hmem := List.mem_append.mp hmem
  · exact h sequence hmem
  · cases List.mem_singleton.mp hmem

inductive Tidy : StdinBuffer → Prop
  | buffering {output : Option Nat × List Event} {rest : List CodeUnit}
    (hrest : sequences.next rest = none)
      (hstart : ¬ pasteStart <:+: rest) (htorn : NoneTorn output.2) : Tidy (buffering output rest)
  | pasting {emitted : List Event} {text : List CodeUnit} (hend : ¬ pasteEnd <:+: text)
    (htorn : NoneTorn emitted) :
      Tidy (pasting emitted text)

theorem before_marker_of_next_eq_none (h : sequences.next (before ++ pasteStart.take 5) = none) :
    before = [] ∨ before = [esc] := by
  have hrun := sequences.run_append before (pasteStart.take 5)
  rw [sequences.run_of_none h] at hrun
  obtain ⟨hfirst, hsecond⟩ := List.append_eq_nil_iff.mp (congrArg Prod.fst hrun).symm
  have hbefore : (sequences.run before).2 = before := by
    have := sequences.flatten_run before
    rwa [hfirst] at this
  obtain ⟨tokens, x, hmarker, -, -, hcases⟩ :=
    run_before_marker (sequences.next_run before) (show 1 ≤ 5 by decide) (Nat.le_refl 5)
  rw [hmarker] at hsecond
  have := hcases hsecond
  rw [hbefore] at this
  simpa using this

theorem eq_nil_of_firstAt_singleton {word : List CodeUnit} {c : CodeUnit} (hword : ¬ word <:+: text)
    (hlength : 2 ≤ word.length) (h : FirstAt word (text ++ [c]) before after) :
    after = [] ∧ text = before ++ word.dropLast := by
  obtain ⟨middle, -, hmiddle⟩ | ⟨front, back, hfront, hback, hsplit, rfl, hright⟩ :=
    h.cases_append hword
  · have := congrArg List.length hmiddle
    simp only [List.length_singleton, List.length_append] at this
    omega
  · obtain ⟨d, back, rfl⟩ := List.exists_cons_of_ne_nil hback
    obtain ⟨rfl, hnil⟩ := List.cons.inj hright
    obtain ⟨rfl, rfl⟩ := List.append_eq_nil_iff.mp hnil.symm
    exact ⟨rfl, by rw [hsplit, List.dropLast_concat]⟩

theorem Tidy.process {s : StdinBuffer} (h : Tidy s) (c : CodeUnit) : Tidy (s.process [c]) := by
  have hchunk : [c] ≠ [] := List.cons_ne_nil _ _
  cases h with
  | @buffering output rest hrest hstart htorn =>
    by_cases hstart' : pasteStart <:+: rest ++ [c]
    · obtain ⟨before, after, h⟩ := exists_firstAt pasteStart_ne_nil hstart'
      obtain ⟨rfl, hbefore⟩ := eq_nil_of_firstAt_singleton hstart (by decide) h
      rw [process_paste hrest hchunk h, continuePaste_open (by decide)]
      refine .pasting (by decide) (htorn.foldl ?_)
      rw [hbefore] at hrest
      obtain rfl | rfl := before_marker_of_next_eq_none hrest
      · rw [sequencesBeforePaste_of_none rfl]
        intro token hmem
        cases hmem
      · rw [sequencesBeforePaste_of_none next_of_esc]
        intro token hmem
        rw [List.mem_singleton.mp hmem]
        exact not_torn_esc
    · rw [process_plain hrest hchunk hstart']
      refine .buffering (sequences.next_run _) (fun hoccurs => hstart' (hoccurs.trans ?_))
        (htorn.foldl fun token hmem => not_torn_of_mem_wanted hmem)
      exact run_remainder_occurs _
  | @pasting emitted text hend htorn =>
    rw [process_pasting hchunk]
    by_cases hend' : pasteEnd <:+: text ++ [c]
    · obtain ⟨content, rest, h⟩ := exists_firstAt pasteEnd_ne_nil hend'
      obtain ⟨rfl, -⟩ := eq_nil_of_firstAt_singleton hend (by decide) h
      rw [continuePaste_closed h]
      exact .buffering rfl (by decide) (htorn.paste content)
    · rw [continuePaste_open hend']
      exact .pasting hend' htorn

theorem Tidy.noneTorn {s : StdinBuffer} (h : Tidy s) : NoneTorn s.emitted := by
  cases h with
  | buffering hrest hstart htorn => exact htorn
  | pasting hend htorn => exact htorn

theorem noneTorn_singles (text : List CodeUnit) : NoneTorn (eventsOf (text.map ([·]))) := by
  have htidy : ∀ s, Tidy s → Tidy ((text.map ([·])).foldl StdinBuffer.process s) := by
    intro s hs
    induction text generalizing s with
    | nil => exact hs
    | cons c text ih => exact ih _ (hs.process c)
  have hnew : Tidy (buffering (none, []) []) :=
    .buffering rfl (by decide) fun sequence hmem => by cases hmem
  exact (htidy .new hnew).noneTorn

theorem Torn.emit {sequence : List CodeUnit} (h : Torn sequence) :
    (emit output sequence).2 = output.2 ++ [.data sequence] := by
  have hsingle : singleCodePoint sequence = none := by
    have hlength := h.length
    match sequence with
    | [] | [_] | [_, _] => simp at hlength
    | _ :: _ :: _ :: _ => rfl
  rw [Tui.emit, hsingle]
  rfl

theorem Torn.mem_foldl {sequence : List CodeUnit} (h : Torn sequence) {tokens : List (List CodeUnit)}
    (hmem : sequence ∈ tokens) : .data sequence ∈ (tokens.foldl Tui.emit output).2 := by
  induction tokens generalizing output with
  | nil => cases hmem
  | cons token tokens ih =>
    obtain rfl | hmem := List.mem_cons.mp hmem
    · have hextends :=
        foldl_emitDataSequence_extends (buffering (Tui.emit output sequence) []) tokens
      rw [foldl_emitDataSequence] at hextends
      refine hextends.subset ?_
      show _ ∈ (Tui.emit output sequence).2
      rw [h.emit]
      exact List.mem_append_right _ List.mem_cons_self
    · exact ih hmem

theorem Torn.resolved (h : Torn text) : resolved text = [text] := by
  have hlength := h.length
  have hnot : isEscapeRun text = false := by
    by_contra hescapes
    have hall := eq_replicate_of_isEscapeRun (Bool.not_eq_false _ ▸ hescapes)
    have hsecond : text[1]? = some esc := by
      rw [hall, List.getElem?_replicate_of_lt (by omega)]
    obtain ⟨hstarts, -⟩ | ⟨hstring, -⟩ := h
    · obtain ⟨more, rfl⟩ := of_decide_eq_true hstarts
      exact absurd (Option.some.inj hsecond) (by decide)
    · simp only [isStringSequence, hsecond] at hstring
      exact absurd hstring (by decide)
  rw [Tui.resolved, if_neg
    (by simp [List.ne_nil_of_length_pos (Nat.lt_of_lt_of_le (by decide) hlength)]),
    splitResolvedEscapeRun, hnot]
  rfl

theorem mem_process_of_torn {stretch sequence : List CodeUnit} (h : BeforePaste text stretch)
    (hmem : sequence ∈ sequencesBeforePaste stretch) (htorn : Torn sequence) :
    .data sequence ∈ ((buffering output []).process text).emitted := by
  induction h generalizing output with
  | @first text before after h =>
    rw [process_paste next_nil (ne_nil_of_firstAt h) h]
    exact (continuePaste_extends _ _).subset (htorn.mem_foldl hmem)
  | @later text before after content rest stretch h hend hrest ih =>
    rw [process_paste next_nil (ne_nil_of_firstAt h) h, continuePaste_closed hend,
      afterPaste_of_ne_nil _ hrest.ne_nil]
    exact ih hmem

theorem untorn_of_noneTorn (h : NoneTorn (eventsOf [text])) : Untorn text := by
  intro stretch hstretch sequence hmem htorn
  have hextract : extractCompleteSequences stretch 0 = extracted stretch :=
    extractCompleteSequences_eq ⟨stretch, rfl⟩
  have hbefore : sequence ∈ sequencesBeforePaste stretch := by
    rw [hextract] at hmem
    obtain hmem | hmem := List.mem_append.mp hmem
    · exact List.mem_append_left _ hmem
    · obtain rfl := List.mem_singleton.mp hmem
      exact List.mem_append_right _ (htorn.resolved ▸ List.mem_cons_self)
  have hemitted : .data sequence ∈ ((buffering (none, []) []).process text).emitted :=
    mem_process_of_torn hstretch hbefore htorn
  exact h sequence hemitted htorn

end Torn

theorem eventsOf_of_untorn {chunks : List (List CodeUnit)} (hchunks : ∀ chunk ∈ chunks, chunk ≠ [])
    (huntorn : Untorn chunks.flatten) :
    eventsOf chunks = if chunks.flatten = [] then [] else eventsOf [chunks.flatten] := by
  cases chunks with
  | nil => rfl
  | cons chunk chunks =>
    have htext : (chunk :: chunks).flatten ≠ [] :=
      fun hnil => hchunks chunk List.mem_cons_self (List.append_eq_nil_iff.mp hnil).1
    have hprocess : (chunk :: chunks).foldl StdinBuffer.process (buffering (none, []) []) = _ :=
      foldl_process hchunks (List.cons_ne_nil _ _) huntorn
    rw [if_neg htext]
    exact congrArg StdinBuffer.emitted hprocess

/-- The events do not depend on how the input is cut into chunks if and only if no paste tears a
sequence. -/
theorem chunks_do_not_show_iff (text : List CodeUnit) :
    (∀ chunks chunks' : List (List CodeUnit), (∀ chunk ∈ chunks, chunk ≠ []) →
      (∀ chunk ∈ chunks', chunk ≠ []) →
      chunks.flatten = text → chunks'.flatten = text → eventsOf chunks = eventsOf chunks') ↔
        Untorn text := by
  constructor
  · intro h
    by_cases htext : text = []
    · intro stretch hstretch
      exact absurd htext hstretch.ne_nil
    · have hsingles : (text.map ([·])).flatten = text := List.flatMap_singleton' text
      refine untorn_of_noneTorn ?_
      rw [h [text] (text.map ([·])) (by simpa using htext) (by simp) (by simp) hsingles]
      exact noneTorn_singles text
  · rintro h chunks chunks' hchunks hchunks' rfl hflatten
    rw [eventsOf_of_untorn hchunks h, eventsOf_of_untorn hchunks' (hflatten ▸ h), hflatten]

def malformedReport : List CodeUnit := [esc, code '[', code '<', code '1', code 'M']

theorem malformed_report_shows_chunks :
    [malformedReport ++ pasteStart].flatten = [malformedReport, pasteStart].flatten ∧
    eventsOf [malformedReport ++ pasteStart] = [.data malformedReport] ∧
    eventsOf [malformedReport, pasteStart] = [] := by
  decide +kernel

example :
    eventsOf [[esc, code ']', code 'a', esc] ++ pasteStart] =
    [.data [esc, code ']', code 'a', esc]] ∧
    eventsOf [[esc, code ']', code 'a', esc, esc], pasteStart.tail] =
      [.data [esc, code ']', code 'a'], .data [esc]] := by
  decide +kernel

end JevCode.Tui
