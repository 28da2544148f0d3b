import JevCode.Session.CloneJson
import JevCode.Session.Compaction
import JevCode.Session.TokenEstimate

/-! `compaction.ts`: the token estimate of a session entry. A fragment is a list of characters, as
the text of a JSON value is; a message that is neither an assistant message nor a tool result is
represented by its text. -/

namespace JevCode.Session

open JevCode.Text (charUnits units)

def imageTokenEstimate : Nat := 1200

structure CollectedFragments where
  fragments : List (List Char)
  extra : Nat

variable (numberText : ℚ → List Char)

def AssistantContent.fragments : AssistantContent → List (List Char)
  | .text t => [t.toList]
  | .thinking t => [t.toList]
  | .toolCall call => [call.name.toList, call.arguments.text numberText]

def OutputBlock.text? : OutputBlock → Option (List Char)
  | .text t => if t = "" then none else some t.toList
  | .image _ => none

def OutputBlock.isImage : OutputBlock → Bool
  | .text _ => false
  | .image _ => true

def ToolResultMessage.fragments (message : ToolResultMessage) : CollectedFragments where
  fragments := message.content.filterMap OutputBlock.text?
  extra := (message.content.filter OutputBlock.isImage).length * imageTokenEstimate

def collectContentFragments : Role → MessageContent → CollectedFragments
  | .assistant, .assistant content => ⟨content.flatMap (·.fragments numberText), 0⟩
  | .toolResult, .toolResult message | .hookMessage, .toolResult message => message.fragments
  | .user, .toolResult message | .assistant, .toolResult message => ⟨message.fragments.fragments, 0⟩
  | .user, .other t | .hookMessage, .other t | .bashExecution, .other t => ⟨[t.toList], 0⟩
  | .branchSummary, .other t | .compactionSummary, .other t => ⟨[t.toList], 0⟩
  | .other name, .toolResult message =>
    if name = "custom" then ⟨message.fragments.fragments, 0⟩ else ⟨[], 0⟩
  | .other name, .other t => if name = "custom" then ⟨[t.toList], 0⟩ else ⟨[], 0⟩
  | _, _ => ⟨[], 0⟩

def collectMessageFragments : AgentMessage MessageContent → CollectedFragments
  | .stored message => collectContentFragments numberText message.role message.content
  | .custom custom _ => collectContentFragments numberText (.other "custom") custom.content
  | .branchSummary summary _ _ => ⟨[summary.toList], 0⟩
  | .compactionSummary summary _ _ _ _ => ⟨[summary.toList], 0⟩

def countCollectedMessageFragments (collected : CollectedFragments) : Nat :=
  estimateTextTokensHeuristic (collected.fragments.map (·.flatMap charUnits)) + collected.extra

/-- The estimate that `estimateEntryTokens` keeps for an entry it has not seen change. -/
def estimateEntryTokens (entry : Entry) : Nat :=
  match getMessageFromEntry entry with
  | none => 0
  | some message =>
    countCollectedMessageFragments (collectMessageFragments numberText message.message)

def estimateTextTokens (text : String) : Nat := estimateTextTokensHeuristic [units text]

theorem countCollectedMessageFragments_text (message : ToolResultMessage) {text : String}
    (h : message.content = [.text text]) :
    countCollectedMessageFragments message.fragments = estimateTextTokens text := by
  simp only [countCollectedMessageFragments, ToolResultMessage.fragments, h, List.filterMap_cons,
    List.filterMap_nil, OutputBlock.text?, estimateTextTokens]
  split
  · next hnone =>
    split at hnone
    · next hempty =>
      subst hempty
      simp [OutputBlock.isImage, estimateTextTokensHeuristic_eq, units]
    · cases hnone
  · next hsome =>
    split at hsome
    · cases hsome
    · obtain rfl := Option.some.inj hsome
      simp [OutputBlock.isImage, units]

end JevCode.Session
