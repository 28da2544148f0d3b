import JevCode.Tui.StdinBufferLaws

namespace JevCode.Tui

open JevCode.Data

def Event.input : Event → List CodeUnit
  | .data sequence => sequence
  | .paste content => pasteStart ++ content ++ pasteEnd

/-- What is still in the buffer, with the start marker of an open paste. -/
def StdinBuffer.pending (s : StdinBuffer) : List CodeUnit :=
  s.buffer ++ if s.pasteMode then pasteStart ++ s.pasteBuffer else []

/-- Input without mouse reports and without keys in the Kitty encoding. -/
structure Plain (text : List CodeUnit) : Prop where
  mouse : ¬ [esc, code '[', code '<'] <:+: text
  kitty : ∀ sequence, sequence <:+: text → parseUnmodifiedKittyPrintableCodepoint sequence = none

theorem Plain.of_part {text word : List CodeUnit} (h : Plain text)
    (hword : word <:+: text) : Plain word :=
  ⟨fun hmouse => h.mouse (hmouse.trans hword),
    fun sequence hsequence => h.kitty sequence (hsequence.trans hword)⟩

inductive Accounts (text : List CodeUnit) : StdinBuffer → Prop
  | buffering {emitted : List Event} {rest : List CodeUnit} (hrest : sequences.next rest = none)
      (h : emitted.flatMap Event.input ++ rest = text) : Accounts text
      (buffering (none, emitted) rest)
  | pasting {emitted : List Event} {content : List CodeUnit}
      (h : emitted.flatMap Event.input ++ (pasteStart ++ content) = text) : Accounts text
      (pasting emitted content)

theorem Accounts.eq {text : List CodeUnit} {s : StdinBuffer} (h : Accounts text s) :
    s.emitted.flatMap Event.input ++ s.pending = text := by
  cases h with
  | buffering hrest h => simpa [StdinBuffer.pending, Tui.buffering] using h
  | pasting h => simpa [StdinBuffer.pending, Tui.pasting] using h

variable {emitted : List Event} {text before after content rest chunk : List CodeUnit}

theorem foldl_emit_of_plain {tokens : List (List CodeUnit)} (h : ∀ token ∈ tokens, Plain token) :
    tokens.foldl emit (none, emitted) = (none, emitted ++ tokens.map .data) := by
  induction tokens generalizing emitted with
  | nil => rw [List.map_nil, List.append_nil]; rfl
  | cons token tokens ih =>
    have hemit : emit (none, emitted) token = (none, emitted ++ [.data token]) := by
      have hkitty := (h token List.mem_cons_self).kitty token List.infix_rfl
      rw [emit, hkitty, if_neg]
      cases singleCodePoint token <;> simp
    rw [List.foldl_cons, hemit, ih fun t ht => h t (List.mem_cons_of_mem _ ht), List.map_cons,
      List.append_assoc, List.singleton_append]

theorem wanted_of_plain {tokens : List (List CodeUnit)} (h : ∀ token ∈ tokens, Plain token) :
    wanted tokens = tokens := by
  refine List.filter_eq_self.mpr fun token hmem => ?_
  have hstarts : isSgrMousePrefix token = false :=
    decide_eq_false fun hstarts => (h token hmem).mouse hstarts.isInfix
  rw [hstarts]
  rfl

theorem flatMap_input_data (tokens : List (List CodeUnit)) :
    (tokens.map Event.data).flatMap Event.input = tokens.flatten := by
  induction tokens with
  | nil => rfl
  | cons token tokens ih => rw [List.map_cons, List.flatMap_cons, ih, List.flatten_cons]; rfl

theorem flatten_resolved (text : List CodeUnit) : (resolved text).flatten = text := by
  unfold resolved splitResolvedEscapeRun
  split
  next h => rw [List.isEmpty_iff.mp h]; rfl
  next =>
    split
    · exact List.flatMap_singleton' text
    · exact List.flatten_singleton

theorem flatten_sequencesBeforePaste (text : List CodeUnit) :
    (sequencesBeforePaste text).flatten = text := by
  rw [sequencesBeforePaste, List.flatten_append, flatten_resolved, sequences.flatten_run]

theorem plain_of_mem_flatten {tokens : List (List CodeUnit)} (h : Plain tokens.flatten) :
    ∀ token ∈ tokens, Plain token :=
  fun _ hmem => h.of_part (List.infix_of_mem_flatten hmem)

theorem Accounts.continuePaste (h : emitted.flatMap Event.input ++ (pasteStart ++ after) = text)
    (hrest : ∀ content rest emitted, FirstAt pasteEnd after content rest → rest ≠ [] →
      emitted.flatMap Event.input ++ rest = text →
        Accounts text ((Tui.buffering (none, emitted) []).process rest)) :
    Accounts text (continuePaste emitted after) := by
  by_cases hend : pasteEnd <:+: after
  · obtain ⟨content, rest, hfirst⟩ := exists_firstAt pasteEnd_ne_nil hend
    have hinput : (emitted ++ [Event.paste content]).flatMap Event.input ++ rest = text := by
      rw [← h, hfirst.eq]
      simp [Event.input]
    rw [continuePaste_closed hfirst]
    obtain rfl | hne := eq_or_ne rest []
    · exact .buffering next_nil hinput
    · rw [afterPaste_of_ne_nil _ hne]
      exact hrest content rest _ hfirst hne hinput
  · rw [continuePaste_open hend]
    exact .pasting h

theorem Accounts.process_buffering (hplain : Plain text) (hrest : sequences.next rest = none)
    (hchunk : chunk ≠ []) (h : emitted.flatMap Event.input ++ (rest ++ chunk) = text) :
    Accounts text ((Tui.buffering (none, emitted) rest).process chunk) := by
  have hinput : Plain (rest ++ chunk) := hplain.of_part (h ▸ (List.suffix_append _ _).isInfix)
  induction hn : (rest ++ chunk).length using Nat.strongRecOn generalizing emitted rest chunk with
  | ind n ih =>
    by_cases hstart : pasteStart <:+: rest ++ chunk
    · obtain ⟨before, after, hfirst⟩ := exists_firstAt pasteStart_ne_nil hstart
      have hbefore : ∀ token ∈ sequencesBeforePaste before, Plain token := by
        refine plain_of_mem_flatten (hinput.of_part ?_)
        rw [flatten_sequencesBeforePaste, hfirst.eq]
        exact (List.prefix_append _ _).isInfix
      rw [process_paste hrest hchunk hfirst, foldl_emit_of_plain hbefore]
      refine .continuePaste ?_ fun content rest' emitted' hend hne heq => ?_
      · rw [List.flatMap_append, flatMap_input_data, flatten_sequencesBeforePaste, List.append_assoc,
          ← hfirst.eq, h]
      · have hsuffix : rest' <:+: rest ++ chunk :=
          ⟨before ++ pasteStart ++ content ++ pasteEnd, [], by rw [hfirst.eq, hend.eq]; simp⟩
        refine ih rest'.length ?_ next_nil hne heq (hinput.of_part hsuffix) rfl
        have := congrArg List.length hfirst.eq
        have := congrArg List.length hend.eq
        have := List.length_pos_iff.mpr pasteStart_ne_nil
        simp only [List.length_append] at *
        omega
    · have hflatten := sequences.flatten_run (rest ++ chunk)
      have htokens : ∀ token ∈ (sequences.run (rest ++ chunk)).1, Plain token :=
        plain_of_mem_flatten (hinput.of_part ⟨[], _, hflatten⟩)
      rw [process_plain hrest hchunk hstart, wanted_of_plain htokens, foldl_emit_of_plain htokens]
      refine .buffering (sequences.next_run _) ?_
      rw [List.flatMap_append, flatMap_input_data, List.append_assoc, hflatten, h]

theorem Accounts.process {s : StdinBuffer} (h : Accounts text s) (hplain : Plain (text ++ chunk))
    (hchunk : chunk ≠ []) :
    Accounts (text ++ chunk) (s.process chunk) := by
  cases h with
  | buffering hrest h =>
    exact .process_buffering hplain hrest hchunk (by rw [← h, List.append_assoc])
  | pasting h =>
    rw [process_pasting hchunk]
    refine .continuePaste (by rw [← h]; simp) fun content rest emitted _ hne heq => ?_
    exact .process_buffering hplain next_nil hne heq

theorem Accounts.foldl {s : StdinBuffer} {chunks : List (List CodeUnit)} (h : Accounts text s)
    (hchunks : ∀ chunk ∈ chunks, chunk ≠ []) (hplain : Plain (text ++ chunks.flatten)) :
    Accounts (text ++ chunks.flatten) (chunks.foldl StdinBuffer.process s) := by
  induction chunks generalizing text s with
  | nil => rwa [List.flatten_nil, List.append_nil]
  | cons chunk chunks ih =>
    rw [List.flatten_cons, ← List.append_assoc] at hplain ⊢
    refine ih (h.process (hplain.of_part (List.prefix_append _ _).isInfix)
      (hchunks chunk List.mem_cons_self)) ?_ hplain
    exact fun c hc => hchunks c (List.mem_cons_of_mem _ hc)

/-- The events, with the pastes between their markers, and what is still in the buffer are all of the
input. -/
theorem keystrokes_are_kept {chunks : List (List CodeUnit)} (hchunks : ∀ chunk ∈ chunks, chunk ≠ [])
    (hplain : Plain chunks.flatten) :
    (eventsOf chunks).flatMap Event.input ++
    (chunks.foldl StdinBuffer.process .new).pending = chunks.flatten := by
  have hnew : Accounts [] (buffering (none, []) []) := .buffering next_nil rfl
  exact (hnew.foldl hchunks hplain).eq

def cutInput : List (List CodeUnit) :=
  [[code 'a', esc], [code '[', code 'A', esc, code '['],
    [code '2', code '0', code '0', code '~', code 'h'], [code 'i', esc, code '[', code '2'],
    [code '0', code '1', code '~', code 'x', esc]]

theorem cut_input_is_kept :
    eventsOf cutInput = [.data [code 'a'], .data [esc, code '[', code 'A'],
      .paste [code 'h', code 'i'], .data [code 'x']] ∧
    (eventsOf cutInput).flatMap Event.input ++
    (cutInput.foldl StdinBuffer.process .new).pending = cutInput.flatten := by
  refine ⟨by decide +kernel,
    keystrokes_are_kept (by decide) ⟨by decide, fun sequence hsequence => ?_⟩⟩
  have hnone : ∀ tail ∈ cutInput.flatten.tails, ∀ word ∈ tail.inits,
      parseUnmodifiedKittyPrintableCodepoint word = none := by
    decide +kernel
  obtain ⟨tail, hword, htail⟩ := List.infix_iff_prefix_suffix.mp hsequence
  exact hnone tail ((List.mem_tails tail _).mpr htail) sequence
    ((List.mem_inits sequence tail).mpr hword)

end JevCode.Tui
