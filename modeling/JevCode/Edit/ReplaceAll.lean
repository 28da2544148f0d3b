import JevCode.Edit.Replace

namespace JevCode.Edit

open JevCode.Data

structure MarkedContent where
  content : String
  written : List Bool

section

variable (content : String) (m : FuzzyMatch)

def cutText : List Char := (content.toList.drop m.startIndex).take m.actualText.length

def linesAbove : Nat := (content.toList.take m.startIndex).count '\n'

def linesTouched : Nat := (cutText content m).count '\n' + 1

end

def unmarked (content : String) : MarkedContent :=
  ⟨content, List.replicate (content.toList.count '\n' + 1) false⟩

def MarkedContent.isFresh (s : MarkedContent) (m : FuzzyMatch) : Bool :=
  ((s.written.drop (linesAbove s.content m)).take (linesTouched s.content m)).all (!·)

def MarkedContent.rewrite (s : MarkedContent) (m : FuzzyMatch) (text : String) : MarkedContent where
  content := replaceRange s.content m.startIndex m.actualText.length text
  written :=
    s.written.take (linesAbove s.content m) ++ List.replicate (text.toList.count '\n' + 1) true ++
    s.written.drop (linesAbove s.content m + linesTouched s.content m)

section

variable (native : Option NativeMatcher) (oldText newText : String) (threshold : ℚ)

def markedStep (s : MarkedContent) : Option MarkedContent :=
  (nextReplacement native oldText newText true threshold s.content).map fun p => s.rewrite p.1 p.2

/-- The next round, if there is one, touches no line written before, or puts in less than it cuts
out. -/
def MakesProgress (s : MarkedContent) : Prop :=
  ∀ m text, nextReplacement native oldText newText true threshold s.content = some (m, text) →
    s.isFresh m = true ∨ text.length < (cutText s.content m).length

end

section

variable (s : MarkedContent) (m : FuzzyMatch) (text : String)

theorem toList_content_eq (content : String) (m : FuzzyMatch) :
    content.toList = content.toList.take m.startIndex ++ cutText content m ++
      content.toList.drop (m.startIndex + m.actualText.length) := by
  rw [cutText, ← List.drop_drop, List.append_assoc, List.take_append_drop, List.take_append_drop]

theorem toList_rewrite :
    (s.rewrite m text).content.toList = s.content.toList.take m.startIndex ++ text.toList ++
    s.content.toList.drop (m.startIndex + m.actualText.length) := by
  rw [MarkedContent.rewrite, replaceRange, String.toList_ofList]

def MarkedContent.Marked : Prop := s.written.length = s.content.toList.count '\n' + 1

theorem marked_unmarked (content : String) : (unmarked content).Marked := List.length_replicate

theorem written_eq : s.written = s.written.take (linesAbove s.content m) ++
    (s.written.drop (linesAbove s.content m)).take (linesTouched s.content m) ++
      s.written.drop (linesAbove s.content m + linesTouched s.content m) := by
  rw [← List.drop_drop, List.append_assoc, List.take_append_drop, List.take_append_drop]

variable {s}

theorem linesAbove_lt (h : s.Marked) :
    linesAbove s.content m + linesTouched s.content m ≤ s.written.length := by
  have hcount := congrArg (List.count '\n') (toList_content_eq s.content m)
  rw [MarkedContent.Marked] at h
  simp only [List.count_append] at hcount
  unfold linesTouched linesAbove
  omega

theorem marked_rewrite (h : s.Marked) : (s.rewrite m text).Marked := by
  have hle := linesAbove_lt m h
  have hcount := congrArg (List.count '\n') (toList_content_eq s.content m)
  rw [MarkedContent.Marked] at h ⊢
  rw [toList_rewrite]
  simp only [MarkedContent.rewrite, List.count_append, List.length_append, List.length_take,
    List.length_drop, List.length_replicate] at hcount ⊢
  unfold linesTouched linesAbove at *
  omega

theorem count_rewrite : (s.rewrite m text).written.count false +
    ((s.written.drop (linesAbove s.content m)).take
      (linesTouched s.content m)).count false = s.written.count false := by
  have hcount := congrArg (List.count false) (written_eq s m)
  simp only [MarkedContent.rewrite, List.count_append, List.count_replicate] at hcount ⊢
  simp only [beq_iff_eq, Bool.true_eq_false, if_false]
  omega

theorem count_rewrite_lt (h : s.Marked) (hfresh : s.isFresh m = true) :
    (s.rewrite m text).written.count false < s.written.count false := by
  have hcount := count_rewrite (s := s) m text
  have hall : ((s.written.drop (linesAbove s.content m)).take (linesTouched s.content m)).count
      false =
      ((s.written.drop (linesAbove s.content m)).take (linesTouched s.content m)).length := by
    rw [List.count_eq_length]
    intro b hb
    simpa using List.all_eq_true.mp hfresh b hb
  have hle := linesAbove_lt m h
  have hpos : 0 < linesTouched s.content m := Nat.succ_pos _
  rw [List.length_take, List.length_drop] at hall
  omega

theorem length_rewrite_lt (h : text.length < (cutText s.content m).length) :
    (s.rewrite m text).content.length < s.content.length := by
  have hlength := congrArg List.length (toList_content_eq s.content m)
  have hrewrite := congrArg List.length (toList_rewrite s m text)
  simp only [List.length_append, String.length_toList] at hlength hrewrite
  omega

end

def loopMeasure (s : MarkedContent) : Nat × Nat := (s.written.count false, s.content.length)

section

variable {native : Option NativeMatcher} {oldText newText : String} {threshold : ℚ}
    {s : MarkedContent}

theorem marked_of_reaches {content : String}
    (h : LoopReaches (markedStep native oldText newText threshold) (unmarked content) s) :
    s.Marked := by
  induction h with
  | refl => exact marked_unmarked content
  | tail _ hstep ih =>
    obtain ⟨p, -, rfl⟩ := Option.map_eq_some_iff.mp hstep
    exact marked_rewrite p.1 p.2 ih

theorem markedStep_lt {s' : MarkedContent} (h : s.Marked)
    (hprogress : MakesProgress native oldText newText threshold s)
    (hstep : markedStep native oldText newText threshold s = some s') :
    Prod.Lex (· < ·) (· < ·) (loopMeasure s') (loopMeasure s) := by
  obtain ⟨⟨m, text⟩, hnext, rfl⟩ := Option.map_eq_some_iff.mp hstep
  rcases hprogress m text hnext with hfresh | hshorter
  · exact .left _ _ (count_rewrite_lt m text h hfresh)
  · have hle : (s.rewrite m text).written.count false ≤ s.written.count false := by
      have := count_rewrite (s := s) m text
      omega
    rcases Nat.lt_or_eq_of_le hle with hlt | heq
    · exact .left _ _ hlt
    · rw [loopMeasure, loopMeasure, heq]
      exact .right _ (length_rewrite_lt m text hshorter)

end

section

variable (native : Option NativeMatcher) (oldText newText : String) (threshold : ℚ)

def contentStep (content : String) : Option String :=
  (nextReplacement native oldText newText true threshold content).map fun p =>
    replaceRange content p.1.startIndex p.1.actualText.length p.2

theorem runLoop_contentStep (fuel : Nat) (result : ReplaceResult) :
    runLoop (contentStep native oldText newText threshold) fuel result.content =
      (runLoop (replaceStep native oldText newText true threshold) fuel
        result).map ReplaceResult.content := by
  refine runLoop_map ReplaceResult.content (fun result => ?_) fuel result
  rw [contentStep, replaceStep, Option.map_map]
  rfl

theorem runLoop_markedStep (fuel : Nat) (s : MarkedContent) :
    runLoop (contentStep native oldText newText threshold) fuel s.content =
      (runLoop (markedStep native oldText newText threshold) fuel s).map MarkedContent.content := by
  refine runLoop_map MarkedContent.content (fun s => ?_) fuel s
  rw [contentStep, markedStep, Option.map_map]
  rfl

end

theorem replaceText_all_ends (native : Option NativeMatcher) (content oldText newText : String)
    (threshold : Option ℚ) (hold : oldText ≠ "")
    (hprogress : ¬ (normalizeToLF oldText).toList <:+: (normalizeToLF content).toList →
      ∀ s, LoopReaches (markedStep native (normalizeToLF oldText) (normalizeToLF newText)
          (threshold.getD defaultFuzzyThreshold)) (unmarked (normalizeToLF content)) s →
        MakesProgress native (normalizeToLF oldText) (normalizeToLF newText)
          (threshold.getD defaultFuzzyThreshold) s) :
    ∃ fuel r, replaceText native oldText newText fuel content ⟨true, true, threshold⟩ =
      some (.ok r) := by
  have hrun : ∀ fuel, replaceText native oldText newText fuel content ⟨true, true, threshold⟩ =
      (replaceAll native (normalizeToLF oldText) (normalizeToLF newText) fuel true
        (threshold.getD defaultFuzzyThreshold) (normalizeToLF content)).map .ok := by
    intro fuel
    rw [replaceText, if_neg hold]
    rfl
  simp only [hrun]
  have hword := normalizeToLF_ne_empty hold
  generalize normalizeToLF oldText = old, normalizeToLF newText = new, normalizeToLF content = text,
    threshold.getD defaultFuzzyThreshold = bar at hprogress hword ⊢
  unfold replaceAll
  dsimp only
  split
  · exact ⟨0, _, rfl⟩
  · rename_i hexact
    have hnot : ¬ old.toList <:+: text.toList := by
      intro hinfix
      obtain ⟨before, after, h⟩ := exists_firstAt hword hinfix
      refine hexact ?_
      rw [pieces_of_firstAt hword h, List.length_cons, Nat.add_sub_cancel]
      exact length_pieces_pos old.toList after
    obtain ⟨fuel, final, hfinal⟩ :=
      exists_runLoop (InvImage.wf loopMeasure (WellFounded.prod_lex Nat.lt_wfRel.wf Nat.lt_wfRel.wf))
        fun t t' hreach hstep =>
        markedStep_lt (marked_of_reaches hreach) (hprogress hnot t hreach) hstep
    have hcontent := runLoop_markedStep native old new bar fuel (unmarked text)
    rw [hfinal, Option.map_some] at hcontent
    have hresult : some final.content =
        (runLoop (replaceStep native old new true bar) fuel ⟨text, 0⟩).map
        ReplaceResult.content :=
        hcontent.symm.trans (runLoop_contentStep native old new bar fuel ⟨text, 0⟩)
    obtain ⟨r, hr, -⟩ := Option.map_eq_some_iff.mp hresult.symm
    exact ⟨fuel, r, by rw [hr]; rfl⟩

theorem replaceText_all_once :
    ∃ fuel r, replaceText none "a b" "c" fuel "a  b" ⟨true, true, none⟩ = some (.ok r) := by
  refine replaceText_all_ends none "a  b" "a b" "c" none (by decide) fun _ s hreach => ?_
  have hfirst : nextReplacement none (normalizeToLF "a b") (normalizeToLF "c") true
      defaultFuzzyThreshold
      (normalizeToLF "a  b") = some (⟨"a  b", 0, 1, 1⟩, "c") := by
    decide +kernel
  have hstop : nextReplacement none (normalizeToLF "a b") (normalizeToLF "c") true
      defaultFuzzyThreshold "c" = none := by
    decide +kernel
  have hreached : s = unmarked (normalizeToLF "a  b") ∨ s.content = "c" := by
    induction hreach with
    | refl => exact .inl rfl
    | tail _ hstep ih =>
      obtain ⟨p, hnext, rfl⟩ := Option.map_eq_some_iff.mp hstep
      rcases ih with rfl | hcontent
      · obtain rfl := Option.some.inj (hfirst.symm.trans hnext)
        exact .inr (by decide +kernel)
      · rw [hcontent] at hnext
        cases hstop.symm.trans hnext
  intro m text hnext
  rcases hreached with rfl | hcontent
  · obtain ⟨rfl, rfl⟩ := Prod.mk.inj (Option.some.inj (hfirst.symm.trans hnext))
    exact .inl (by decide +kernel)
  · rw [hcontent] at hnext
    cases hstop.symm.trans hnext

theorem replaceText_all_never_ends :
    ¬ ∃ fuel r, replaceText none "value = 20\nvalue = 10" "value = 10\nvalue = 20" fuel
      "value = 10\nvalue = 10\nvalue = 20" ⟨true, true, none⟩ = some r := by
  have hforth : contentStep none "value = 20\nvalue = 10" "value = 10\nvalue = 20"
      defaultFuzzyThreshold
      "value = 10\nvalue = 10\nvalue = 20" = some "value = 10\nvalue = 20\nvalue = 20" := by
    decide +kernel
  have hback : contentStep none "value = 20\nvalue = 10" "value = 10\nvalue = 20"
      defaultFuzzyThreshold
      "value = 10\nvalue = 20\nvalue = 20" = some "value = 10\nvalue = 10\nvalue = 20" := by
    decide +kernel
  have hloop : ∀ fuel, replaceText none "value = 20\nvalue = 10" "value = 10\nvalue = 20" fuel
      "value = 10\nvalue = 10\nvalue = 20" ⟨true, true, none⟩ =
        (runLoop (replaceStep none "value = 20\nvalue = 10" "value = 10\nvalue = 20" true
        defaultFuzzyThreshold) fuel
          ⟨"value = 10\nvalue = 10\nvalue = 20", 0⟩).map .ok := by
    intro fuel
    have hnormal : normalizeToLF "value = 20\nvalue = 10" = "value = 20\nvalue = 10" ∧
        normalizeToLF "value = 10\nvalue = 20" = "value = 10\nvalue = 20" ∧
        normalizeToLF "value = 10\nvalue = 10\nvalue = 20" =
          "value = 10\nvalue = 10\nvalue = 20" := by
      decide +kernel
    have hexact : ¬ 0 < (pieces "value = 20\nvalue = 10".toList
        "value = 10\nvalue = 10\nvalue = 20".toList).length - 1 := by
      decide +kernel
    rw [replaceText, if_neg (by decide), hnormal.1, hnormal.2.1, hnormal.2.2]
    dsimp only
    rw [if_pos rfl, replaceAll, if_neg hexact]
    rfl
  rintro ⟨fuel, r, hr⟩
  have hnone := (runLoop_contentStep none _ _ defaultFuzzyThreshold fuel ⟨_, 0⟩).symm.trans
    (runLoop_of_period hforth hback fuel).1
  rw [hloop, Option.map_eq_none_iff.mp hnone] at hr
  cases hr

end JevCode.Edit
