import JevCode.Data.Loop
import JevCode.Edit.Match
import Mathlib.Tactic.IntervalCases

namespace JevCode.Edit

open JevCode.Data

structure ReplaceOptions where
  fuzzy : Bool
  all : Bool
  threshold : Option ℚ := none

structure ReplaceResult where
  content : String
  count : Nat
  deriving DecidableEq

inductive ReplaceError
  | emptyOldText
  | ambiguous (occurrences : Nat) (occurrencePreviews : List String)
  deriving DecidableEq

def maxOccurrencePreviews : Nat := 5

def formatOccurrenceMatchError (occurrences : Nat) (occurrencePreviews : List String)
    (path : Option String) : String :=
  let previews := "\n\n".intercalate occurrencePreviews
  let moreMsg :=
    if maxOccurrencePreviews < occurrences
      then s!" (showing first {maxOccurrencePreviews} of {occurrences})" else ""
  let pathSuffix := (path.map fun path => s!" in {path}").getD ""
  s!"Found {occurrences} occurrences{pathSuffix}{moreMsg}:\n\n{previews}\n\nAdd more context lines to disambiguate."

def ReplaceError.message : ReplaceError → String
  | .emptyOldText => "oldText must not be empty."
  | .ambiguous occurrences occurrencePreviews =>
    formatOccurrenceMatchError occurrences occurrencePreviews none

/-- The content with `n` characters from `start` on replaced. -/
def replaceRange (content : String) (start n : Nat) (text : String) : String :=
  String.ofList (content.toList.take start ++ text.toList ++ content.toList.drop (start + n))

section

variable (native : Option NativeMatcher) (oldText newText : String)

/-- The match that a round of the loop replaces and the text it puts there; `none` if the loop
breaks. -/
def nextReplacement (fuzzy : Bool) (threshold : ℚ) (content : String) :
    Option (FuzzyMatch × String) :=
  let matchOutcome := findMatch native content oldText fuzzy (some threshold)
  let shouldUseClosest :=
    fuzzy && (matchOutcome.closest.any fun closest => threshold ≤ closest.confidence) &&
    matchOutcome.fuzzyMatches.all (· ≤ 1)
  match matchOutcome.found <|> (if shouldUseClosest then matchOutcome.closest else none) with
  | none => none
  | some m =>
    let adjustedNewText := adjustIndentation oldText m.actualText newText
    if adjustedNewText = m.actualText then none else some (m, adjustedNewText)

def replaceStep (fuzzy : Bool) (threshold : ℚ) (result : ReplaceResult) : Option ReplaceResult :=
  (nextReplacement native oldText newText fuzzy threshold result.content).map fun p =>
    ⟨replaceRange result.content p.1.startIndex p.1.actualText.length p.2, result.count + 1⟩

def replaceAll (fuel : Nat) (fuzzy : Bool) (threshold : ℚ) (content : String) :
    Option ReplaceResult :=
  let parts := pieces oldText.toList content.toList
  let exactCount := parts.length - 1
  if 0 < exactCount then some ⟨String.ofList (newText.toList.intercalate parts), exactCount⟩
  else runLoop (replaceStep native oldText newText fuzzy threshold) fuel ⟨content, 0⟩

def replaceSingle (fuzzy : Bool) (threshold : ℚ) (content : String) :
    Except ReplaceError ReplaceResult :=
  let matchOutcome := findMatch native content oldText fuzzy (some threshold)
  if (matchOutcome.occurrences.any fun n => decide (1 < n)) = true then
    .error (.ambiguous (matchOutcome.occurrences.getD 0) matchOutcome.occurrencePreviews)
  else
    match matchOutcome.found with
    | none => .ok ⟨content, 0⟩
    | some m =>
      let adjustedNewText := adjustIndentation oldText m.actualText newText
      .ok ⟨replaceRange content m.startIndex m.actualText.length adjustedNewText, 1⟩

/-- `none` if the loop has not ended after `fuel` rounds. -/
def replaceText (fuel : Nat) (content : String) (options : ReplaceOptions) :
    Option (Except ReplaceError ReplaceResult) :=
  if oldText = "" then some (.error .emptyOldText)
  else
    let threshold := options.threshold.getD defaultFuzzyThreshold
    let normalizedContent := normalizeToLF content
    let normalizedOldText := normalizeToLF oldText
    let normalizedNewText := normalizeToLF newText
    if options.all then
      (replaceAll native normalizedOldText normalizedNewText fuel options.fuzzy threshold
        normalizedContent).map .ok
    else some (replaceSingle native normalizedOldText normalizedNewText options.fuzzy threshold
      normalizedContent)

end

open JevCode.Text

section

variable (native : Option NativeMatcher) {content oldText : String} (newText : String) (fuzzy : Bool)
    (threshold : ℚ)

theorem findMatch_of_firstAt {before after : List Char} (hold : oldText.toList ≠ [])
    (h : FirstAt oldText.toList content.toList before after) :
    let outcome := findMatch native content oldText fuzzy (some threshold)
    if oldText.toList <:+: after then outcome.occurrences.any (fun n => decide (1 < n)) = true
    else outcome = { found := some ⟨oldText, before.length, lineNumberAt content.toList before.length, 1⟩ } := by
  have hne : oldText ≠ "" := by simpa using hold
  have hcount : (pieces oldText.toList content.toList).length - 1 =
      (pieces oldText.toList after).length := by
    rw [pieces_of_firstAt hold h, List.length_cons, Nat.add_sub_cancel]
  dsimp only
  rw [findMatch, if_neg hne, findExactMatchOutcome, indexOf_of_firstAt hold h]
  dsimp only
  rw [hcount]
  by_cases hmore : oldText.toList <:+: after
  · obtain ⟨before', after', h'⟩ := exists_firstAt hold hmore
    have htwo : 1 < (pieces oldText.toList after).length := by
      rw [pieces_of_firstAt hold h', List.length_cons]
      have := length_pieces_pos oldText.toList after'
      omega
    rw [if_pos hmore, if_pos htwo]
    simpa using htwo
  · rw [if_neg hmore, pieces_of_not_infix hmore, List.length_singleton, if_neg (Nat.lt_irrefl 1)]

theorem replaceSingle_of_firstAt {before after : List Char} (hold : oldText.toList ≠ [])
    (h : FirstAt oldText.toList content.toList before after) :
    if oldText.toList <:+: after then ∃ e, replaceSingle native oldText newText fuzzy threshold
      content = .error e
    else replaceSingle native oldText newText fuzzy threshold content =
      .ok ⟨replaceRange content before.length oldText.length newText, 1⟩ := by
  have hcases := findMatch_of_firstAt native fuzzy threshold hold h
  unfold replaceSingle
  dsimp only at hcases ⊢
  split
  · rename_i hmore
    rw [if_pos hmore] at hcases
    exact ⟨_, by rw [if_pos hcases]⟩
  · rename_i hmore
    rw [if_neg hmore] at hcases
    rw [hcases, if_neg (by simp)]
    dsimp only
    rw [adjustIndentation_self]

end

/-- A single exact replacement is unambiguous exactly if the starts of the old text do not all lie in
its first occurrence. Contents and texts are compared with LF line endings. -/
theorem replaceText_single_iff (native : Option NativeMatcher) (fuel : Nat)
    (content oldText newText : String) (fuzzy : Bool) (threshold : Option ℚ) (hold : oldText ≠ "") :
    (∀ r, replaceText native oldText newText fuel content ⟨fuzzy, false, threshold⟩ = some (.ok r) →
      (normalizeToLF oldText).toList <:+: (normalizeToLF content).toList →
      ∃ i, (∀ j, OccursAt (normalizeToLF oldText).toList (normalizeToLF content).toList j ↔ j = i) ∧
        r = ⟨replaceRange (normalizeToLF content) i (normalizeToLF oldText).length
          (normalizeToLF newText), 1⟩) ↔
      ¬ OverlapsOnly (normalizeToLF oldText).toList (normalizeToLF content).toList := by
  have hword := normalizeToLF_ne_empty hold
  have hrun : replaceText native oldText newText fuel content ⟨fuzzy, false, threshold⟩ =
      some (replaceSingle native (normalizeToLF oldText) (normalizeToLF newText) fuzzy
        (threshold.getD defaultFuzzyThreshold) (normalizeToLF content)) := by
    rw [replaceText, if_neg hold]
    rfl
  rw [hrun]
  by_cases hoccurs : (normalizeToLF oldText).toList <:+: (normalizeToLF content).toList
  · obtain ⟨before, after, h⟩ := exists_firstAt hword hoccurs
    have hsingle := replaceSingle_of_firstAt native (normalizeToLF newText) fuzzy
      (threshold.getD defaultFuzzyThreshold) hword h
    by_cases hmore : (normalizeToLF oldText).toList <:+: after
    · rw [if_pos hmore] at hsingle
      obtain ⟨e, he⟩ := hsingle
      rw [he]
      exact ⟨fun _ => h.not_overlapsOnly hmore, fun _ r hr => by cases hr⟩
    · rw [if_neg hmore] at hsingle
      rw [hsingle, ← h.unique_iff hword hmore]
      constructor
      · intro hall
        obtain ⟨i, hi, -⟩ := hall _ rfl hoccurs
        rw [← (hi before.length).mp h.occursAt] at hi
        exact hi
      · rintro honly r hr -
        cases hr
        exact ⟨before.length, honly, rfl⟩
  · refine ⟨fun _ => ?_, fun _ r _ hinfix => absurd hinfix hoccurs⟩
    rintro ⟨i, -, hi, -⟩
    exact hoccurs (infix_of_occursAt hi)

theorem replaceText_single_once :
    replaceText none "b" "x" 0 "abc" ⟨true, false, none⟩ = some (.ok ⟨"axc", 1⟩) ∧
      ∃ i, (∀ j, OccursAt (normalizeToLF "b").toList (normalizeToLF "abc").toList j ↔ j = i) ∧
        ReplaceResult.mk "axc" 1 =
          ⟨replaceRange (normalizeToLF "abc") i (normalizeToLF "b").length (normalizeToLF "x"),
          1⟩ := by
  have hrun : replaceText none "b" "x" 0 "abc" ⟨true, false, none⟩ = some (.ok ⟨"axc", 1⟩) := by
    decide +kernel
  have honly : ∀ j, OccursAt (normalizeToLF "b").toList (normalizeToLF "abc").toList j → j = 1 := by
    intro j hj
    have hlt : j < 3 := by
      have hlength : (normalizeToLF "abc").toList.length = 3 := by decide +kernel
      by_contra hge
      rw [OccursAt, List.drop_eq_nil_of_le (by rw [hlength]; exact Nat.not_lt.mp hge)] at hj
      revert hj
      decide +kernel
    interval_cases j <;> revert hj <;> decide +kernel
  refine ⟨hrun, (replaceText_single_iff none 0 "abc" "b" "x" true none (by decide)).mpr ?_ _ hrun
    (by decide +kernel)⟩
  rintro ⟨i, j, hi, hj, hlt, -⟩
  rw [honly i hi, honly j hj] at hlt
  exact Nat.lt_irrefl 1 hlt

theorem replaceText_single_overlap :
    replaceText none "aa" "b" 0 "aaa" ⟨true, false, none⟩ = some (.ok ⟨"ba", 1⟩) ∧
      OccursAt (normalizeToLF "aa").toList (normalizeToLF "aaa").toList 0 ∧
      OccursAt (normalizeToLF "aa").toList (normalizeToLF "aaa").toList 1 := by
  refine ⟨by decide +kernel, by decide +kernel, by decide +kernel⟩

end JevCode.Edit
