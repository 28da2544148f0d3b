import JevCode.Tui.PasteMarkers

namespace JevCode.Tui

open JevCode.Data

def emit (output : Option Nat × List Event) (sequence : List CodeUnit) : Option Nat × List Event :=
  if (singleCodePoint sequence).isSome && singleCodePoint sequence = output.1 then (none, output.2)
  else (parseUnmodifiedKittyPrintableCodepoint sequence, output.2 ++ [.data sequence])

def buffering (output : Option Nat × List Event) (rest : List CodeUnit) : StdinBuffer where
  buffer := rest
  bufferedEscapeRunLength := escapeRun rest
  pasteMode := false
  pasteBuffer := []
  pendingKittyPrintableCodepoint := output.1
  emitted := output.2

def pasting (emitted : List Event) (text : List CodeUnit) : StdinBuffer where
  buffer := []
  bufferedEscapeRunLength := 0
  pasteMode := true
  pasteBuffer := text
  pendingKittyPrintableCodepoint := none
  emitted := emitted

def wanted (tokens : List (List CodeUnit)) : List (List CodeUnit) :=
  tokens.filter fun sequence => !(isSgrMousePrefix sequence && !isSgrMouseSequence sequence)

def sequencesBeforePaste (text : List CodeUnit) : List (List CodeUnit) :=
  (sequences.run text).1 ++ resolved (sequences.run text).2

variable {output : Option Nat × List Event} {rest : List CodeUnit}

theorem emitDataSequence_buffering (sequence : List CodeUnit) :
    (buffering output rest).emitDataSequence sequence = buffering (emit output sequence) rest := by
  unfold StdinBuffer.emitDataSequence emit buffering
  dsimp only
  split <;> rfl

theorem foldl_emitDataSequence (tokens : List (List CodeUnit)) :
    tokens.foldl StdinBuffer.emitDataSequence (buffering output rest) =
      buffering (tokens.foldl emit output) rest := by
  induction tokens generalizing output with
  | nil => rfl
  | cons token tokens ih => rw [List.foldl_cons, emitDataSequence_buffering, ih, List.foldl_cons]

theorem emitBeforePaste_eq (text : List CodeUnit) :
    (buffering output rest).emitBeforePaste text = buffering
    ((sequencesBeforePaste text).foldl emit output) rest := by
  have hextract : extractCompleteSequences text 0 = extracted text :=
    extractCompleteSequences_eq ⟨text, rfl⟩
  unfold StdinBuffer.emitBeforePaste sequencesBeforePaste resolved
  simp only [hextract, extracted, foldl_emitDataSequence, List.foldl_append]
  split <;> simp

section Rounds

variable {s s' : StdinBuffer} {str : List CodeUnit}

def weight (s : StdinBuffer) (str : List CodeUnit) : Nat :=
  s.buffer.length + s.pasteBuffer.length + str.length

theorem endPaste_weight (hs : s.buffer = []) (h : s.endPaste = (s', rest)) (hrest : rest ≠ []) :
    weight s' rest < s.pasteBuffer.length := by
  unfold StdinBuffer.endPaste at h
  split at h
  · cases h
    have hlength := List.length_pos_iff.mpr hrest
    rw [List.length_drop, show pasteEnd.length = 6 from rfl] at hlength
    simp only [weight, hs, List.length_nil, List.length_drop, show pasteEnd.length = 6 from rfl]
    omega
  · cases h
    exact absurd rfl hrest

theorem processUntilPaste_weight (h : s.processUntilPaste str = (s', rest)) (hrest : rest ≠ []) :
    weight s' rest < weight s str := by
  unfold StdinBuffer.processUntilPaste at h
  dsimp only at h
  split at h
  · cases h
    exact absurd rfl hrest
  · split at h
    · have hlt := endPaste_weight rfl h hrest
      simp only [List.length_append] at hlt
      unfold weight at *
      omega
    · split at h
      · have hlt := endPaste_weight rfl h hrest
        simp only [List.length_drop, List.length_append] at hlt
        unfold weight at *
        omega
      · cases h
        exact absurd rfl hrest

theorem processRounds_eq {n n' : Nat} (hn : weight s str < n) (hn' : weight s str < n') :
    StdinBuffer.processRounds n s str = StdinBuffer.processRounds n' s str := by
  induction n generalizing n' s str with
  | zero => omega
  | succ n ih =>
    obtain ⟨n', rfl⟩ := Nat.exists_eq_succ_of_ne_zero (Nat.ne_zero_of_lt hn')
    rw [StdinBuffer.processRounds, StdinBuffer.processRounds]
    cases h : s.processUntilPaste str with
    | mk s' rest =>
      cases rest with
      | nil => rfl
      | cons c rest =>
        have hlt := processUntilPaste_weight h (List.cons_ne_nil c rest)
        exact ih (by omega) (by omega)

def afterPaste : StdinBuffer × List CodeUnit → StdinBuffer
  | (s, []) => s
  | (s, remaining) => s.process remaining

theorem afterPaste_of_ne_nil (s : StdinBuffer) {remaining : List CodeUnit} (h : remaining ≠ []) :
    afterPaste (s, remaining) = s.process remaining := by
  cases remaining with
  | nil => exact absurd rfl h
  | cons c remaining => rfl

theorem process_eq (s : StdinBuffer) (str : List CodeUnit) :
    s.process str = afterPaste (s.processUntilPaste str) := by
  rw [StdinBuffer.process, StdinBuffer.processRounds]
  cases h : s.processUntilPaste str with
  | mk s' rest =>
    cases rest with
    | nil => rfl
    | cons c rest =>
      have hlt := processUntilPaste_weight h (List.cons_ne_nil c rest)
      exact processRounds_eq (by unfold weight at *; omega) (by unfold weight; omega)

theorem emitDataSequence_extends (s : StdinBuffer) (sequence : List CodeUnit) :
    s.emitted <+: (s.emitDataSequence sequence).emitted := by
  unfold StdinBuffer.emitDataSequence
  dsimp only
  split
  · exact List.prefix_rfl
  · exact List.prefix_append _ _

theorem foldl_emitDataSequence_extends (s : StdinBuffer) (tokens : List (List CodeUnit)) :
    s.emitted <+: (tokens.foldl StdinBuffer.emitDataSequence s).emitted := by
  induction tokens generalizing s with
  | nil => exact List.prefix_rfl
  | cons token tokens ih => exact (emitDataSequence_extends s token).trans (ih _)

theorem emitBeforePaste_extends (s : StdinBuffer) (text : List CodeUnit) :
    s.emitted <+: (s.emitBeforePaste text).emitted := by
  unfold StdinBuffer.emitBeforePaste
  dsimp only
  split
  · exact foldl_emitDataSequence_extends _ _
  · exact (foldl_emitDataSequence_extends _ _).trans (foldl_emitDataSequence_extends _ _)

theorem endPaste_extends (s : StdinBuffer) : s.emitted <+: s.endPaste.1.emitted := by
  unfold StdinBuffer.endPaste
  split
  · exact List.prefix_append _ _
  · exact List.prefix_rfl

theorem processUntilPaste_extends (s : StdinBuffer) (str : List CodeUnit) :
    s.emitted <+: (s.processUntilPaste str).1.emitted := by
  unfold StdinBuffer.processUntilPaste
  dsimp only
  split
  · exact emitDataSequence_extends s []
  · split
    · exact endPaste_extends { s with buffer := [], bufferedEscapeRunLength := 0, pasteBuffer := _ }
    · split
      · refine List.IsPrefix.trans ?_ (endPaste_extends _)
        dsimp only
        split
        · exact emitBeforePaste_extends s _
        · exact List.prefix_rfl
      · refine List.IsPrefix.trans ?_ (foldl_emitDataSequence_extends _ _)
        exact List.prefix_rfl

theorem process_extends (s : StdinBuffer) (str : List CodeUnit) :
    s.emitted <+: (s.process str).emitted := by
  unfold StdinBuffer.process
  generalize s.buffer.length + s.pasteBuffer.length + str.length + 1 = n
  induction n generalizing s str with
  | zero => exact List.prefix_rfl
  | succ n ih =>
    have hfirst := processUntilPaste_extends s str
    rw [StdinBuffer.processRounds]
    split
    next h =>
      rw [h] at hfirst
      exact hfirst
    next h =>
      rw [h] at hfirst
      exact hfirst.trans (ih _ _)

theorem afterPaste_extends (s : StdinBuffer) (remaining : List CodeUnit) :
    s.emitted <+: (afterPaste (s, remaining)).emitted := by
  cases remaining with
  | nil => exact List.prefix_rfl
  | cons c remaining => exact process_extends s _

end Rounds

theorem pasteStart_ne_nil : pasteStart ≠ [] := List.cons_ne_nil _ _
theorem pasteEnd_ne_nil : pasteEnd ≠ [] := List.cons_ne_nil _ _

def continuePaste (emitted : List Event) (text : List CodeUnit) : StdinBuffer :=
  afterPaste (pasting emitted text).endPaste

section Chunk

variable {emitted : List Event} {text before after content chunk : List CodeUnit}

theorem continuePaste_open (h : ¬ pasteEnd <:+: text) :
    continuePaste emitted text = pasting emitted text := by
  rw [continuePaste, StdinBuffer.endPaste, pasting, (indexOf_eq_none pasteEnd_ne_nil).mpr h]
  rfl

theorem continuePaste_closed (h : FirstAt pasteEnd text content rest) :
    continuePaste emitted text =
      afterPaste (buffering (none, emitted ++ [.paste content]) [], rest) := by
  rw [continuePaste, StdinBuffer.endPaste, pasting, indexOf_of_firstAt pasteEnd_ne_nil h]
  dsimp only
  rw [h.eq, List.take_left, ← List.length_append, ← List.append_assoc, List.drop_left]
  rfl

theorem continuePaste_extends (emitted : List Event) (text : List CodeUnit) :
    emitted <+: (continuePaste emitted text).emitted :=
  (endPaste_extends (pasting emitted text)).trans (afterPaste_extends _ _)

theorem process_pasting (hchunk : chunk ≠ []) :
    (pasting emitted text).process chunk = continuePaste emitted (text ++ chunk) := by
  rw [process_eq, StdinBuffer.processUntilPaste, if_neg (by simp [hchunk])]
  rfl

theorem eq_replicate_of_isEscapeRun (h : isEscapeRun text = true) :
    text = List.replicate text.length esc := by
  simp only [isEscapeRun, Bool.and_eq_true, List.all_eq_true, decide_eq_true_eq] at h
  exact List.eq_replicate_iff.mpr ⟨rfl, h.2⟩

theorem knownRun_escapeRun (text : List CodeUnit) : KnownRun (escapeRun text) text := by
  unfold escapeRun
  split
  next h => exact ⟨[], (eq_replicate_of_isEscapeRun h).trans (List.append_nil _).symm⟩
  next => exact ⟨text, rfl⟩

theorem KnownRun.append {known : Nat} (h : KnownRun known text) (more : List CodeUnit) :
    KnownRun known (text ++ more) := by
  obtain ⟨ys, rfl⟩ := h
  exact ⟨ys ++ more, List.append_assoc _ _ _⟩

theorem escapeRun_le (h : sequences.next rest = none) : escapeRun rest ≤ 2 := by
  unfold escapeRun
  split
  next hescapes =>
    by_contra hlong
    obtain ⟨-, hsplit⟩ := drop_escapes (Nat.le_of_lt (not_le.mp hlong)) []
    rw [List.append_nil, ← eq_replicate_of_isEscapeRun hescapes] at hsplit
    obtain ⟨k, hk⟩ : ∃ k, rest.length - 2 = k + 1 := ⟨rest.length - 3, by omega⟩
    obtain ⟨ys, hys⟩ := replicate_append_run k []
    rw [hk, List.replicate_succ, List.cons_append, hys] at hsplit
    rw [hsplit] at h
    cases (nextSequence_run ys).symm.trans h
  next => exact Nat.zero_le _

theorem pasteScanFrom_eq (hrest : sequences.next rest = none) :
    (buffering output rest).bufferedEscapeRunLength - pasteStart.length = 0 := by
  show escapeRun rest - pasteStart.length = 0
  have := escapeRun_le hrest
  rw [show pasteStart.length = 6 from rfl]
  omega

theorem process_paste (hrest : sequences.next rest = none) (hchunk : chunk ≠ [])
    (h : FirstAt pasteStart (rest ++ chunk) before after) :
    (buffering output rest).process chunk =
      continuePaste ((sequencesBeforePaste before).foldl emit output).2 after := by
  have hbefore : (if 0 < before.length then (buffering output rest).emitBeforePaste before
      else buffering output rest) =
      buffering ((sequencesBeforePaste before).foldl emit output) rest := by
    split
    next => exact emitBeforePaste_eq before
    next hempty =>
      obtain rfl : before = [] := List.length_eq_zero_iff.mp (Nat.eq_zero_of_not_pos hempty)
      rw [sequencesBeforePaste, sequences.run_of_none rfl]
      rfl
  have hindex : indexOf pasteStart ((buffering output rest).buffer ++ chunk) = some before.length :=
    indexOf_of_firstAt pasteStart_ne_nil h
  have htake : ((buffering output rest).buffer ++ chunk).take before.length = before := by
    rw [show (buffering output rest).buffer ++ chunk = _ from h.eq, List.take_left]
  have hdrop : ((buffering output rest).buffer ++ chunk).drop (before.length + pasteStart.length) =
      after := by
    rw [show (buffering output rest).buffer ++ chunk = _ from h.eq, ← List.append_assoc,
      ← List.length_append, List.drop_left]
  rw [process_eq, StdinBuffer.processUntilPaste, if_neg (by simp [hchunk])]
  dsimp only
  rw [if_neg (by simp [buffering])]
  simp only [pasteScanFrom_eq hrest, List.drop_zero, Nat.zero_add, hindex, htake, hdrop, hbefore]
  rfl

theorem process_plain (hrest : sequences.next rest = none) (hchunk : chunk ≠ [])
    (h : ¬ pasteStart <:+: rest ++ chunk) :
    (buffering output rest).process chunk =
      buffering ((wanted (sequences.run (rest ++ chunk)).1).foldl emit output)
        (sequences.run (rest ++ chunk)).2 := by
  have hextract : extractCompleteSequences (rest ++ chunk) (escapeRun rest) =
      extracted (rest ++ chunk) :=
    extractCompleteSequences_eq ((knownRun_escapeRun rest).append chunk)
  have hindex : indexOf pasteStart ((buffering output rest).buffer ++ chunk) = none :=
    (indexOf_eq_none pasteStart_ne_nil).mpr h
  rw [process_eq, StdinBuffer.processUntilPaste, if_neg (by simp [hchunk])]
  dsimp only
  rw [if_neg (by simp [buffering])]
  simp only [pasteScanFrom_eq hrest, List.drop_zero, hindex]
  simp only [buffering, hextract]
  exact foldl_emitDataSequence _

end Chunk

end JevCode.Tui
