import JevCode.Session.TokenEstimate

/-! `compaction.ts`: `boundConversationTextForSummary` cuts the middle out of a conversation that
does not fit the summary request. Texts are lists of UTF-16 code units, and the arithmetic is over
the rationals. -/

namespace JevCode.Session

open JevCode.Text (CodeUnit units)

def elisionMarker (elided : ℤ) : List CodeUnit :=
  units "\n\n[... " ++ units (toString elided) ++
    units " characters of older conversation elided so this summarization request fits within the model context window ...]\n\n"

def overheadTokens : ℚ := 4096
def safetyFactor : ℚ := 6 / 10

def inputBudgetTokens (contextWindow outputMaxTokens : ℚ) : ℤ :=
  ⌊(contextWindow - max 0 outputMaxTokens - overheadTokens) * safetyFactor⌋

def sliceFrom (text : List CodeUnit) (start : ℤ) : List CodeUnit :=
  text.drop (if start < 0 then text.length + start else start).toNat

def assemble (conversationText head tail : List CodeUnit) : List CodeUnit :=
  head ++ elisionMarker (conversationText.length - head.length - tail.length) ++ tail

def fitsBudget (budget : ℤ) (candidate : List CodeUnit) : Bool :=
  estimateTextTokensHeuristic [candidate] ≤ budget

def excerpt (conversationText : List CodeUnit) (budgetChars : Nat) : List CodeUnit :=
  let headChars := ⌊(budgetChars : ℚ) * (35 / 100)⌋₊
  let tailChars := budgetChars - headChars
  let head := conversationText.take headChars
  let tail :=
    if 0 < tailChars then sliceFrom conversationText (conversationText.length - tailChars) else []
  assemble conversationText head tail

def attempts (conversationText : List CodeUnit) (budget : ℤ) : Nat → Nat → Option (List CodeUnit)
  | 0, _ => none
  | left + 1, budgetChars =>
    if budgetChars = 0 then none
    else if fitsBudget budget (excerpt conversationText budgetChars)
      then some (excerpt conversationText budgetChars)
    else attempts conversationText budget left ⌊(budgetChars : ℚ) * (8 / 10)⌋₊

def boundConversationTextForSummary (conversationText : List CodeUnit) (contextWindow : Option ℚ)
    (outputMaxTokens : ℚ) : List CodeUnit :=
  match contextWindow.filter (0 < ·) with
  | none => conversationText
  | some contextWindow =>
    let budget := inputBudgetTokens contextWindow outputMaxTokens
    let totalEstimatedTokens := estimateTextTokensHeuristic [conversationText]
    if budget ≤ 0 then []
    else if totalEstimatedTokens ≤ budget then conversationText
    else
      let charsPerToken : ℚ := conversationText.length / totalEstimatedTokens
      match attempts conversationText budget 12 ⌊budget * charsPerToken⌋₊ with
      | some assembled => assembled
      | none =>
        let bareMarker := assemble conversationText [] []
        if fitsBudget budget bareMarker then bareMarker else []

/-- A beginning and an end of the text that do not overlap, with the marker in place of what stands
between them. -/
def Elided (text result : List CodeUnit) : Prop :=
  ∃ head middle tail, text = head ++ middle ++ tail ∧
    result = head ++ elisionMarker middle.length ++ tail

theorem elided_assemble {text : List CodeUnit} {headChars tailChars : Nat}
    (h : headChars + tailChars ≤ text.length) :
    Elided text (assemble text (text.take headChars) (text.drop (text.length - tailChars))) := by
  refine ⟨text.take headChars, (text.drop headChars).take (text.length - tailChars - headChars),
    text.drop (text.length - tailChars), ?_, ?_⟩
  · have hdrop : text.drop (text.length - tailChars) =
        (text.drop headChars).drop (text.length - tailChars - headChars) := by
      rw [List.drop_drop]
      congr 1
      omega
    rw [hdrop, List.append_assoc, List.take_append_drop, List.take_append_drop]
  · have hmiddle : (text.length : ℤ) - (text.take headChars).length -
        (text.drop (text.length - tailChars)).length =
        ((text.drop headChars).take (text.length - tailChars - headChars)).length := by
      simp only [List.length_take, List.length_drop]
      omega
    rw [assemble, hmiddle]

theorem elided_bareMarker (text : List CodeUnit) : Elided text (assemble text [] []) := by
  refine ⟨[], text, [], by simp, ?_⟩
  rw [assemble, List.length_nil, Nat.cast_zero, sub_zero, sub_zero]

theorem fitsBudget_iff {budget : ℤ} {candidate : List CodeUnit} :
    fitsBudget budget candidate = true ↔ (estimateTextTokensHeuristic [candidate] : ℤ) ≤ budget := by
  rw [fitsBudget, decide_eq_true_eq]

theorem elisionMarker_ne_nil (elided : ℤ) : elisionMarker elided ≠ [] := by
  have hstart : units "\n\n[... " ≠ [] := by decide
  simp only [elisionMarker, ne_eq, List.append_eq_nil_iff, hstart, false_and, not_false_eq_true]

theorem elided_excerpt {text : List CodeUnit} {budgetChars : Nat} (h : budgetChars ≤ text.length) :
    Elided text (excerpt text budgetChars) := by
  have hhead : ⌊(budgetChars : ℚ) * (35 / 100)⌋₊ ≤ budgetChars := by
    have hle : (budgetChars : ℚ) * (35 / 100) ≤ budgetChars := by
      have : (0 : ℚ) ≤ budgetChars := by positivity
      linarith
    exact_mod_cast Nat.floor_le_of_le hle
  unfold excerpt
  simp only
  generalize ⌊(budgetChars : ℚ) * (35 / 100)⌋₊ = headChars at *
  split
  · have hslice : sliceFrom text (text.length - (budgetChars - headChars : ℕ)) =
        text.drop (text.length - (budgetChars - headChars)) := by
      rw [sliceFrom, if_neg (by omega)]
      congr 1
      omega
    rw [hslice]
    exact elided_assemble (by omega)
  · have hnil : ([] : List CodeUnit) = text.drop (text.length - 0) := by simp
    rw [hnil]
    exact elided_assemble (by omega)

theorem attempts_spec {text : List CodeUnit} {budget : ℤ} {left budgetChars : Nat}
    {result : List CodeUnit} (hchars : budgetChars ≤ text.length)
    (h : attempts text budget left budgetChars = some result) :
    fitsBudget budget result = true ∧ Elided text result := by
  induction left generalizing budgetChars with
  | zero => cases h
  | succ left ih =>
    rw [attempts] at h
    split at h
    · cases h
    split at h
    · next hfits =>
      cases h
      exact ⟨hfits, elided_excerpt hchars⟩
    · refine ih ?_ h
      have hle : (budgetChars : ℚ) * (8 / 10) ≤ text.length := by
        have hcast : (budgetChars : ℚ) ≤ text.length := by exact_mod_cast hchars
        have : (0 : ℚ) ≤ budgetChars := by positivity
        linarith
      exact_mod_cast Nat.floor_le_of_le hle

theorem budgetChars_le {text : List CodeUnit} {budget : ℤ} (hpos : 0 < budget)
    (h : budget < estimateTextTokensHeuristic [text]) :
    ⌊(budget : ℚ) * (text.length / estimateTextTokensHeuristic [text])⌋₊ ≤ text.length := by
  have htotal : (0 : ℚ) < estimateTextTokensHeuristic [text] := by exact_mod_cast hpos.trans h
  have hle : (budget : ℚ) ≤ estimateTextTokensHeuristic [text] := by exact_mod_cast h.le
  have hprod : (budget : ℚ) * (text.length / estimateTextTokensHeuristic [text]) ≤ text.length := by
    rw [← mul_div_assoc, div_le_iff₀ htotal, mul_comm]
    exact mul_le_mul_of_nonneg_left hle (by positivity)
  exact_mod_cast Nat.floor_le_of_le hprod

/-- The bounded text is within the budget or empty, and it is the text itself, empty or the text with
its middle left out. -/
theorem boundConversationTextForSummary_sound (conversationText : List CodeUnit)
    (contextWindow : Option ℚ) (outputMaxTokens : ℚ) :
    (∀ window ∈ contextWindow, 0 < window →
      (estimateTextTokensHeuristic
        [boundConversationTextForSummary conversationText contextWindow outputMaxTokens] : ℤ) ≤
          inputBudgetTokens window outputMaxTokens ∨
        boundConversationTextForSummary conversationText contextWindow outputMaxTokens = []) ∧
      (boundConversationTextForSummary conversationText contextWindow outputMaxTokens ≠
        conversationText →
        boundConversationTextForSummary conversationText contextWindow outputMaxTokens ≠ [] →
        Elided conversationText
          (boundConversationTextForSummary conversationText contextWindow outputMaxTokens)) := by
  cases hwindow : contextWindow.filter (0 < ·) with
  | none =>
    have hbound : boundConversationTextForSummary conversationText contextWindow outputMaxTokens =
        conversationText := by
      rw [boundConversationTextForSummary, hwindow]
    refine ⟨fun window hmem hpos => ?_, fun hne => absurd hbound hne⟩
    rw [hmem, Option.filter_some, if_pos (by simpa using hpos)] at hwindow
    cases hwindow
  | some window =>
    have hsome : contextWindow = some window := (Option.filter_eq_some_iff.mp hwindow).1
    subst hsome
    unfold boundConversationTextForSummary
    rw [hwindow]
    simp only [Option.mem_some_iff, forall_eq']
    generalize inputBudgetTokens window outputMaxTokens = budget
    split
    · exact ⟨fun _ => .inr rfl, fun _ hne => absurd rfl hne⟩
    next hpos =>
    split
    · next hfits => exact ⟨fun _ => .inl hfits, fun hne => absurd rfl hne⟩
    next hover =>
    split
    · next result hattempt =>
      have hspec := attempts_spec (budgetChars_le (by omega) (by omega)) hattempt
      exact ⟨fun _ => .inl (fitsBudget_iff.mp hspec.1), fun _ _ => hspec.2⟩
    · split
      · next hfits =>
          exact ⟨fun _ => .inl (fitsBudget_iff.mp hfits),
            fun _ _ => elided_bareMarker conversationText⟩
      · exact ⟨fun _ => .inr rfl, fun _ hne => absurd rfl hne⟩

theorem boundConversationTextForSummary_empty :
    ¬ ∀ (conversationText : List CodeUnit) (contextWindow : Option ℚ) (outputMaxTokens : ℚ),
      boundConversationTextForSummary conversationText contextWindow outputMaxTokens ≠
        conversationText →
      Elided conversationText
        (boundConversationTextForSummary conversationText contextWindow outputMaxTokens) := by
  intro h
  have hempty : boundConversationTextForSummary [0x61] (some 1000) 0 = [] := by
    norm_num [boundConversationTextForSummary, Option.filter, inputBudgetTokens,
      overheadTokens, safetyFactor]
  have helided := h [0x61] (some 1000) 0
  rw [hempty] at helided
  obtain ⟨head, middle, tail, -, hresult⟩ := helided (by simp)
  rw [eq_comm, List.append_eq_nil_iff, List.append_eq_nil_iff] at hresult
  exact elisionMarker_ne_nil _ hresult.1.2

end JevCode.Session
