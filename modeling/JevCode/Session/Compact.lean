import JevCode.Data.Search
import JevCode.Session.PrepareCompaction
import JevCode.Text.Trim

/-! `compaction.ts` and `compaction/utils.ts`: `compact` turns a preparation into a summary. What the
model answers is a parameter, and so are the rendered prompts, the bounded text of the messages and
the rendered file lists. -/

namespace JevCode.Session

open JevCode.Data JevCode.Text

def openingTag (name : String) : List Char := ("<" ++ name ++ ">").toList

def closingTag (name : String) : List Char := ("</" ++ name ++ ">").toList

def stripTag (name : String) : List Char → List Char
  | [] => []
  | c :: text =>
    if openingTag name <+: c :: text then
      let inner := text.drop ((openingTag name).length - 1)
      match indexOf (closingTag name) inner with
      | some k => stripTag name ((inner.drop (k + (closingTag name).length)).dropWhile isSpace)
      | none => c :: stripTag name text
    else c :: stripTag name text
termination_by text => text.length
decreasing_by
  · have hsuffix : (inner.drop (k + (closingTag name).length)).dropWhile isSpace <:+ _ :=
      List.dropWhile_suffix isSpace
    have := hsuffix.length_le
    simp only [inner, List.length_drop, List.length_cons] at *
    omega
  · simp
  · simp

def stripFileOperationTags (summary : List Char) : List Char :=
  trimEnd (stripTag "modified-files" (stripTag "read-files" summary))

def blankLine : List Char := "\n\n".toList

def upsertFileOperations (summary fileOperations : List Char) : List Char :=
  let baseSummary := stripFileOperationTags summary
  if fileOperations = [] then baseSummary
  else if baseSummary = [] then fileOperations
  else baseSummary ++ (blankLine ++ fileOperations)

variable {κ : Type}

structure SummaryOptions (κ : Type) where
  summarizationPrompt : String
  updateSummarizationPrompt : String
  turnPrefixSummarizationPrompt : String
  promptOverride : Option String
  customInstructions : Option String
  extraContext : List String
  conversationText : List (EntryMessage κ) → ℤ → String
  reserveTokens : ℚ
  fileOperations : String
  summariesMayShareWebSocketSession : Bool

def given (text : Option String) : Option String := text.filter (· ≠ "")

def formatAdditionalContext (context : List String) : String :=
  if context = [] then ""
  else "<additional-context>\n" ++ "\n".intercalate (context.map ("- " ++ ·)) ++
    "\n</additional-context>\n\n"

inductive SummaryCall (κ : Type)
  | generateSummary (messages : List (EntryMessage κ)) (previousSummary : Option String)
  | generateTurnPrefixSummary (messages : List (EntryMessage κ))

namespace SummaryCall

variable (options : SummaryOptions κ)

def maxTokens : SummaryCall κ → ℤ
  | .generateSummary _ _ => ⌊8 / 10 * options.reserveTokens⌋
  | .generateTurnPrefixSummary _ => ⌊5 / 10 * options.reserveTokens⌋

def previousSummaryText (previousSummary : Option String) : String :=
  match given previousSummary with
  | some previousSummary => "<previous-summary>\n" ++ previousSummary ++ "\n</previous-summary>\n\n"
  | none => ""

def basePrompt (previousSummary : Option String) : String :=
  let prompt := if (given previousSummary).isSome then options.updateSummarizationPrompt
    else options.summarizationPrompt
  let prompt := (given options.promptOverride).getD prompt
  match given options.customInstructions with
  | some customInstructions => prompt ++ "\n\nAdditional focus: " ++ customInstructions
  | none => prompt

def conversation (call : SummaryCall κ) (messages : List (EntryMessage κ)) : String :=
  "<conversation>\n" ++ options.conversationText messages (call.maxTokens options) ++
    "\n</conversation>\n\n"

def promptText (call : SummaryCall κ) : String :=
  match call with
  | .generateSummary messages previousSummary =>
    call.conversation options messages ++ previousSummaryText previousSummary ++
      formatAdditionalContext options.extraContext ++ basePrompt options previousSummary
  | .generateTurnPrefixSummary messages =>
    call.conversation options messages ++ options.turnPrefixSummarizationPrompt

def failure : SummaryCall κ → String
  | .generateSummary _ _ => "Summarization failed: "
  | .generateTurnPrefixSummary _ => "Turn prefix summarization failed: "

def run (complete : String → ℤ → Except String String) (call : SummaryCall κ) :
    Except String String :=
  match complete (call.promptText options) (call.maxTokens options) with
  | .ok text => .ok text
  | .error message => .error (call.failure ++ (if message = "" then "Unknown error" else message))

end SummaryCall

structure CompactionResult where
  summary : List Char
  firstKeptEntryId : String

structure CompactRun (κ : Type) where
  calls : List (SummaryCall κ)
  outcome : Except String CompactionResult

def noPriorHistory : String := "No prior history."

def turnContextHeader : String := "\n\n---\n\n**Turn Context (split turn):**\n\n"

def summarizeSplitTurn (options : SummaryOptions κ) (complete : String → ℤ → Except String String)
    (historyCall : Option (SummaryCall κ)) (turnPrefixCall : SummaryCall κ) :
    List (SummaryCall κ) × Except String String :=
  let historyResult :=
    (historyCall.map fun call => call.run options complete).getD (.ok noPriorHistory)
  let turnPrefixResult := turnPrefixCall.run options complete
  let merged := do return (← historyResult) ++ turnContextHeader ++ (← turnPrefixResult)
  match options.summariesMayShareWebSocketSession, historyResult with
  | true, .error _ => (historyCall.toList, merged)
  | _, _ => (historyCall.toList ++ [turnPrefixCall], merged)

def summarize (options : SummaryOptions κ) (complete : String → ℤ → Except String String)
    (preparation : CompactionPreparation κ) : List (SummaryCall κ) × Except String String :=
  let historyCall :=
    SummaryCall.generateSummary preparation.messagesToSummarize preparation.previousSummary
  if preparation.isSplitTurn && !preparation.turnPrefixMessages.isEmpty then
    summarizeSplitTurn options complete (if preparation.messagesToSummarize.isEmpty then none
      else some historyCall)
      (.generateTurnPrefixSummary preparation.turnPrefixMessages)
  else if !preparation.messagesToSummarize.isEmpty
    then ([historyCall], historyCall.run options complete)
  else
    match given preparation.previousSummary with
    | some previousSummary => ([], .ok previousSummary)
    | none => ([], .ok noPriorHistory)

def compact (options : SummaryOptions κ) (complete : String → ℤ → Except String String)
    (preparation : CompactionPreparation κ) : CompactRun κ :=
  let (calls, summary) := summarize options complete preparation
  let outcome := do
    let summary ← summary
    if preparation.firstKeptEntryId = "" then
      throw "First kept entry has no ID - session may need migration"
    return CompactionResult.mk (upsertFileOperations summary.toList options.fileOperations.toList)
      preparation.firstKeptEntryId
  ⟨calls, outcome⟩

theorem stripTag_cons {name : String} {c : Char} (hc : c ≠ '<') (text : List Char) :
    stripTag name (c :: text) = c :: stripTag name text := by
  have hnot : ¬ openingTag name <+: c :: text := by
    simp [openingTag, Ne.symm hc]
  rw [stripTag, if_neg hnot]

theorem stripTag_append {name : String} {front : List Char} (h : '<' ∉ front) (rest : List Char) :
    stripTag name (front ++ rest) = front ++ stripTag name rest := by
  induction front with
  | nil => rfl
  | cons c front ih =>
    rw [List.mem_cons, not_or] at h
    rw [List.cons_append, stripTag_cons (Ne.symm h.1), ih h.2]
    rfl

theorem stripTag_of_notMem {name : String} {text : List Char} (h : '<' ∉ text) :
    stripTag name text = text := by
  calc stripTag name text = stripTag name (text ++ []) := by rw [List.append_nil]
    _ = text ++ stripTag name [] := stripTag_append h []
    _ = text := by rw [stripTag, List.append_nil]

theorem stripFileOperationTags_of_notMem {text : List Char} (h : '<' ∉ text) :
    stripFileOperationTags text = trimEnd text := by
  rw [stripFileOperationTags, stripTag_of_notMem h, stripTag_of_notMem h]

theorem stripFileOperationTags_append {front : List Char} (h : '<' ∉ front)
    (hend : trimEnd front = front) (gap rest : List Char) (hgap : '<' ∉ gap)
    (hspace : ∀ c ∈ gap, isSpace c = true) :
    stripFileOperationTags (front ++ (gap ++ rest)) = front ∨
      ∃ rest', stripFileOperationTags (front ++ (gap ++ rest)) = front ++ (gap ++ rest') := by
  have hgap' : trimEnd gap = [] := trimEnd_eq_nil_iff.mpr hspace
  rw [stripFileOperationTags, stripTag_append h, stripTag_append hgap, stripTag_append h,
    stripTag_append hgap]
  generalize stripTag "modified-files" (stripTag "read-files" rest) = rest'
  rw [trimEnd_append, trimEnd_append gap, hgap', hend]
  split
  · exact .inl (if_pos rfl)
  · split
    · exact .inl rfl
    · exact .inr ⟨_, rfl⟩

theorem infix_of_infix_replicate {α : Type} {word left right : List α} {x : α} {n : Nat}
    (hn : word.length ≤ n) (hhead : word.head? ≠ some x) (hlast : word.getLast? ≠ some x)
    (h : word <:+: left ++ (List.replicate n x ++ right)) : word <:+: left ∨ word <:+: right := by
  obtain ⟨before, after, heq⟩ := h
  rcases List.append_eq_append_iff.mp heq with ⟨rest, hleft, -⟩ | ⟨rest, hword, hrun⟩
  · exact .inl ⟨before, rest, hleft.symm⟩
  rcases List.append_eq_append_iff.mp hword with ⟨front, hleft, rfl⟩ | ⟨front, -, rfl⟩
  · -- the word ends inside of the run
    cases hrest : rest.getLast? with
    | none =>
      rw [List.getLast?_eq_none_iff] at hrest
      subst hrest
      exact .inl ⟨before, [], by simp [hleft]⟩
    | some y =>
      have hpre : rest <+: List.replicate n x := by
        refine List.prefix_of_prefix_length_le ⟨after, hrun.symm⟩ (List.prefix_append _ right) ?_
        rw [List.length_append] at hn
        rw [List.length_replicate]
        omega
      have hy : y = x := List.eq_of_mem_replicate (hpre.subset (List.mem_of_getLast? hrest))
      rw [List.getLast?_append, hrest, hy] at hlast
      exact absurd rfl hlast
  · -- the word starts inside of the run or behind it
    rw [List.append_assoc] at hrun
    rcases List.append_eq_append_iff.mp hrun with ⟨gap, -, hright⟩ | ⟨gap, hreplicate, hword⟩
    · exact .inr ⟨gap, after, by rw [hright, List.append_assoc]⟩
    · cases gap with
      | nil => exact .inr ⟨[], after, by simpa using hword⟩
      | cons y gap =>
        have hy : y = x := List.eq_of_mem_replicate (n := n) (by rw [hreplicate]; simp)
        cases word with
        | nil => exact .inr (List.nil_infix)
        | cons z word =>
          rw [List.cons_append, List.cons_append, List.cons.injEq] at hword
          rw [List.head?_cons, hword.1, hy] at hhead
          exact absurd rfl hhead

/-- The previous summary is passed to a call, which puts it into its prompt, or it is part of the
summary returned. -/
def Remembered (options : SummaryOptions κ) (run : CompactRun κ) (previous : String) : Prop :=
  (∃ messages, SummaryCall.generateSummary messages (some previous) ∈ run.calls ∧
    previous.toList <:+:
    ((SummaryCall.generateSummary messages (some previous)).promptText options).toList) ∨
  ∀ result, run.outcome = .ok result → previous.toList <:+: result.summary

theorem infix_promptText (options : SummaryOptions κ) (messages : List (EntryMessage κ))
    (previous : String) :
    previous.toList <:+:
      ((SummaryCall.generateSummary messages (some previous)).promptText options).toList := by
  by_cases hempty : previous = ""
  · rw [hempty]
    exact List.nil_infix
  · have hgiven : given (some previous) = some previous := by simp [given, hempty]
    simp only [SummaryCall.promptText, SummaryCall.previousSummaryText, hgiven, String.toList_append,
      ← List.append_assoc]
    apply List.IsInfix.trans _ (List.prefix_append _ _).isInfix
    apply List.IsInfix.trans _ (List.prefix_append _ _).isInfix
    apply List.IsInfix.trans _ (List.prefix_append _ _).isInfix
    exact (List.suffix_append _ _).isInfix

theorem mem_calls_of_history {options : SummaryOptions κ}
    {complete : String → ℤ → Except String String} {prep : CompactionPreparation κ}
    (h : prep.messagesToSummarize ≠ []) :
    .generateSummary prep.messagesToSummarize prep.previousSummary ∈
      (compact options complete prep).calls := by
  have hempty : prep.messagesToSummarize.isEmpty = false := by simpa using h
  simp only [compact, summarize, hempty]
  split
  · simp only [summarizeSplitTurn, Bool.false_eq_true, if_false]
    split <;> simp
  · simp

def splitTurnText : List Char := "No prior history.\n\n---\n\n**Turn Context (split turn):**".toList

theorem toList_noPriorHistory :
    (noPriorHistory ++ turnContextHeader).toList = splitTurnText ++ blankLine := by
  decide +kernel

theorem lt_notMem_splitTurnText : '<' ∉ splitTurnText := by decide +kernel

theorem splitTurnText_ne_nil : splitTurnText ≠ [] := by decide

/-- The previous summary is a part of what every summary of a split turn without history holds. -/
def InFixedText (previous fileOperations : List Char) : Prop :=
  if fileOperations = [] then previous <:+: splitTurnText
  else previous <:+: splitTurnText ++ blankLine ∨ previous <:+: blankLine ++ fileOperations

section SplitTurn

variable {options : SummaryOptions κ} {complete : String → ℤ → Except String String}
    {prep : CompactionPreparation κ}
  (hhistory : prep.messagesToSummarize = []) (hsplit : prep.isSplitTurn = true)
  (hturnPrefixed : prep.turnPrefixMessages ≠ [])
  (hid : prep.firstKeptEntryId ≠ "")

include hhistory hsplit hturnPrefixed

theorem calls_splitTurn :
    (compact options complete prep).calls =
    [.generateTurnPrefixSummary prep.turnPrefixMessages] := by
  simp [compact, summarize, summarizeSplitTurn, hhistory, hsplit, hturnPrefixed]

include hid

theorem outcome_splitTurn :
    (compact options complete prep).outcome =
      ((SummaryCall.generateTurnPrefixSummary prep.turnPrefixMessages).run options
        complete).map fun text =>
        ⟨upsertFileOperations (splitTurnText ++ (blankLine ++ text.toList))
          options.fileOperations.toList, prep.firstKeptEntryId⟩ := by
  have htext : ∀ text : String, (noPriorHistory ++ turnContextHeader ++ text).toList =
      splitTurnText ++ (blankLine ++ text.toList) := by
    intro text
    rw [String.toList_append, toList_noPriorHistory, List.append_assoc]
  simp only [compact, summarize, summarizeSplitTurn, hhistory, hsplit, List.isEmpty_nil]
  rw [if_pos (by simpa using hturnPrefixed)]
  cases (SummaryCall.generateTurnPrefixSummary prep.turnPrefixMessages).run options complete with
  | error message => simp [Except.map, bind, Except.bind]
  | ok text =>
    simp [Except.map, bind, Except.bind, pure, Except.pure, hid, htext]

theorem summary_splitTurn {result : CompactionResult}
    (h : (compact options complete prep).outcome = .ok result) :
    (options.fileOperations.toList = [] → splitTurnText <+: result.summary) ∧
      (options.fileOperations.toList ≠ [] →
        splitTurnText ++ blankLine <+: result.summary ∧
          blankLine ++ options.fileOperations.toList <:+ result.summary) := by
  rw [outcome_splitTurn hhistory hsplit hturnPrefixed hid] at h
  cases hrun : (SummaryCall.generateTurnPrefixSummary prep.turnPrefixMessages).run
    options complete with
  | error message =>
    rw [hrun] at h
    cases h
  | ok text =>
    rw [hrun] at h
    cases h
    have hspace : ∀ c ∈ blankLine, isSpace c = true := forall_mem_of_all (by decide)
    have hbase :=
      stripFileOperationTags_append lt_notMem_splitTurnText (by decide) blankLine text.toList
      (by decide) hspace
    have hpre : splitTurnText <+: stripFileOperationTags
        (splitTurnText ++ (blankLine ++ text.toList)) := by
      rcases hbase with hbase | ⟨rest, hbase⟩ <;> rw [hbase]
      exact List.prefix_append _ _
    have hne : stripFileOperationTags (splitTurnText ++ (blankLine ++ text.toList)) ≠ [] := by
      intro hnil
      rw [hnil, List.prefix_nil] at hpre
      exact splitTurnText_ne_nil hpre
    dsimp only [upsertFileOperations]
    refine ⟨fun hfiles => ?_, fun hfiles => ?_⟩
    · rw [if_pos hfiles]
      exact hpre
    · rw [if_neg hfiles, if_neg hne]
      refine ⟨?_, List.suffix_append _ _⟩
      rcases hbase with hbase | ⟨rest, hbase⟩
      · rw [hbase, ← List.append_assoc]
        exact List.prefix_append _ _
      · rw [hbase, ← List.append_assoc, List.append_assoc (splitTurnText ++ _)]
        exact List.prefix_append _ _

end SplitTurn

theorem exists_letter (first last : Option Char) :
    ∃ c, some c ≠ first ∧ some c ≠ last ∧ isSpace c = false ∧ c ≠ '<' := by
  by_cases ha : some 'a' ≠ first ∧ some 'a' ≠ last
  · exact ⟨'a', ha.1, ha.2, by decide, by decide⟩
  by_cases hb : some 'b' ≠ first ∧ some 'b' ≠ last
  · exact ⟨'b', hb.1, hb.2, by decide, by decide⟩
  · refine ⟨'c', ?_, ?_, by decide, by decide⟩ <;> rintro rfl
    all_goals
      simp only [ne_eq, Option.some.injEq, Char.reduceEq, not_false_eq_true, true_and, and_true,
      not_not] at ha hb
      exact absurd (ha.trans hb.symm) (by decide)

theorem run_answer (options : SummaryOptions κ) (call : SummaryCall κ) (text : String) :
    call.run options (fun _ _ => .ok text) = .ok text := rfl

theorem remembers_splitTurn_iff {options : SummaryOptions κ} {prep : CompactionPreparation κ}
    (hhistory : prep.messagesToSummarize = []) (hsplit : prep.isSplitTurn = true)
    (hturn : prep.turnPrefixMessages ≠ []) (hid : prep.firstKeptEntryId ≠ "") {previous : String} :
    (∀ complete, Remembered options (compact options complete prep) previous) ↔
      InFixedText previous.toList options.fileOperations.toList := by
  constructor
  · intro h
    have hanswer : ∀ text : List Char, previous.toList <:+:
        upsertFileOperations (splitTurnText ++ (blankLine ++ text))
        options.fileOperations.toList := by
      intro text
      rcases h fun _ _ => .ok (String.ofList text) with ⟨messages, hmem, -⟩ | hincluded
      · rw [calls_splitTurn hhistory hsplit hturn, List.mem_singleton] at hmem
        cases hmem
      · refine hincluded ⟨upsertFileOperations (splitTurnText ++ (blankLine ++ text))
          options.fileOperations.toList, prep.firstKeptEntryId⟩ ?_
        rw [outcome_splitTurn hhistory hsplit hturn hid, run_answer, Except.map,
          String.toList_ofList]
    unfold InFixedText
    split
    · next hfiles =>
      have hempty := hanswer []
      have htrim : trimEnd (splitTurnText ++ (blankLine ++ [])) = splitTurnText := by decide
      rwa [upsertFileOperations, if_pos hfiles, stripFileOperationTags_of_notMem (by decide),
        htrim] at hempty
    · next hfiles =>
      obtain ⟨c, hfirst, hlast, hspace, hlt⟩ :=
        exists_letter previous.toList.head? previous.toList.getLast?
      have hrun := hanswer (List.replicate (previous.toList.length + 1) c)
      have hstrip : stripFileOperationTags (splitTurnText ++ (blankLine ++
          List.replicate (previous.toList.length + 1) c)) =
            splitTurnText ++ blankLine ++ List.replicate (previous.toList.length + 1) c := by
        have hnot : '<' ∉ splitTurnText ++
            (blankLine ++ List.replicate (previous.toList.length + 1) c) := by
          simp only [List.mem_append, List.mem_replicate, not_or, not_and]
          exact ⟨lt_notMem_splitTurnText, by decide, fun _ h => hlt h.symm⟩
        rw [stripFileOperationTags_of_notMem hnot, ← List.append_assoc, List.replicate_succ',
          ← List.append_assoc, trimEnd_concat hspace]
      have hne : splitTurnText ++ blankLine ++
          List.replicate (previous.toList.length + 1) c ≠ [] := by
        rw [List.append_assoc]
        exact List.append_ne_nil_of_left_ne_nil splitTurnText_ne_nil _
      rw [upsertFileOperations, if_neg hfiles, hstrip, if_neg hne, List.append_assoc] at hrun
      exact infix_of_infix_replicate (Nat.le_succ _) (Ne.symm hfirst) (Ne.symm hlast) hrun
  · intro hfixed complete
    refine .inr fun result hresult => ?_
    obtain ⟨hnone, hsome⟩ := summary_splitTurn hhistory hsplit hturn hid hresult
    unfold InFixedText at hfixed
    split at hfixed
    · next hfiles => exact hfixed.trans (hnone hfiles).isInfix
    · next hfiles =>
      obtain ⟨hpre, hsuf⟩ := hsome hfiles
      exact hfixed.elim (·.trans hpre.isInfix) (·.trans hsuf.isInfix)

/-- The previous summary is kept exactly when there is history to summarize it with, or it only
repeats what the summary of a split turn without history holds anyway. -/
theorem compact_remembers_iff (tokens : SessionEntry κ → Nat) (pathEntries : List (SessionEntry κ))
    (settings : CompactionSettings) (prepareOptions : PrepareCompactionOptions)
    (options : SummaryOptions κ) {prep : CompactionPreparation κ} {previous : String}
    (hprep : prepareCompactionWith tokens pathEntries settings prepareOptions = some prep)
    (hprevious : prep.previousSummary = some previous) :
    (∀ complete, Remembered options (compact options complete prep) previous) ↔
      prep.messagesToSummarize ≠ [] ∨ InFixedText previous.toList options.fileOperations.toList := by
  obtain ⟨hid, hturnPrefixed, hsome⟩ := prepareCompaction_shape hprep
  by_cases hhistory : prep.messagesToSummarize = []
  · have hturn : prep.turnPrefixMessages ≠ [] := fun h => hsome ⟨hhistory, h⟩
    have hsplit : prep.isSplitTurn = true := by
      cases hs : prep.isSplitTurn with
      | true => rfl
      | false => exact absurd (hturnPrefixed hs) hturn
    rw [remembers_splitTurn_iff hhistory hsplit hturn hid]
    exact ⟨.inr, fun h => h.resolve_left (fun hne => hne hhistory)⟩
  · refine ⟨fun _ => .inl hhistory,
      fun _ complete => .inl ⟨prep.messagesToSummarize, ?_, infix_promptText ..⟩⟩
    rw [← hprevious]
    exact mem_calls_of_history hhistory

def plainOptions : SummaryOptions String where
  summarizationPrompt := "Summarize."
  updateSummarizationPrompt := "Update."
  turnPrefixSummarizationPrompt := "Summarize the turn."
  promptOverride := none
  customInstructions := none
  extraContext := []
  conversationText := fun _ _ => ""
  reserveTokens := 16384
  fileOperations := ""
  summariesMayShareWebSocketSession := false

theorem compact_remembers_onceCompacted :
    ∃ prep, prepareCompactionWith (fun _ => 1) onceCompacted keepOne ⟨none, none⟩ = some prep ∧
      prep.previousSummary = some "c1" ∧
      ∀ complete, Remembered plainOptions (compact plainOptions complete prep) "c1" := by
  have hprep : prepareCompactionWith (fun _ => 1) onceCompacted keepOne ⟨none, none⟩ =
      prepareCompaction (fun _ => 1) 1 onceCompacted :=
    congrArg (prepareCompaction _ · _) keepRecentTokensCorrected_keepOne
  exact ⟨_, hprep, rfl, (compact_remembers_iff _ _ _ _ _ hprep rfl).mpr (.inl (by decide))⟩

def splitAfterCompaction : List (SessionEntry String) :=
  [userEntry "u1", compactionEntry "c1" "u1", userEntry "u2",
    ⟨"a2", "", .message ⟨.assistant, "a2"⟩⟩]

theorem compact_forgets_summary :
    ¬ ∀ (tokens : SessionEntry String → Nat) (pathEntries : List (SessionEntry String))
      (settings : CompactionSettings)
      (prepareOptions : PrepareCompactionOptions) (options : SummaryOptions String)
      (complete : String → ℤ → Except String String) (prep : CompactionPreparation String)
      (previous : String), prepareCompactionWith tokens pathEntries settings prepareOptions = some prep →
      prep.previousSummary = some previous →
        Remembered options (compact options complete prep) previous := by
  intro h
  have hprep : prepareCompactionWith (fun _ => 1) splitAfterCompaction keepOne ⟨none, none⟩ =
      prepareCompaction (fun _ => 1) 1 splitAfterCompaction :=
    congrArg (prepareCompaction _ · _) keepRecentTokensCorrected_keepOne
  have hall := fun complete => h _ _ _ _ plainOptions complete _ "c1" hprep rfl
  rw [remembers_splitTurn_iff rfl rfl (by decide) (by decide)] at hall
  revert hall
  unfold InFixedText
  decide

end JevCode.Session
