import JevCode.Data.InsertionMap
import JevCode.Text.Lines

/-! `ai/src/providers/transform-messages.ts`: the messages of a session as they are sent to a
provider. The first pass rewrites the content of assistant messages and the ids of tool calls, the
second one pairs tool calls with tool results. -/

namespace JevCode.Ai

open JevCode.Data JevCode.Text

inductive StopReason
  | stop
  | length
  | toolUse
  | error
  | aborted
  deriving DecidableEq

structure ToolCall (Json : Type) where
  id : String
  name : String
  arguments : Json
  thoughtSignature : Option String

inductive AssistantBlock (Json : Type)
  | thinking (thinking : String) (thinkingSignature : Option String)
  | redactedThinking (data : String)
  | text (text : String) (textSignature : Option String)
  | toolCall (call : ToolCall Json)

structure AssistantMessage (Json : Type) where
  content : List (AssistantBlock Json)
  api : String
  provider : String
  model : String
  stopReason : StopReason
  timestamp : Int

inductive ContentPart (Json : Type)
  | text (text : String)
  | image (image : Json)

structure ToolResultMessage (Json : Type) where
  toolCallId : String
  toolName : String
  content : List (ContentPart Json)
  isError : Bool
  timestamp : Int

inductive UserContent (Json : Type)
  | text (text : String)
  | parts (parts : List (ContentPart Json))

inductive Message (Json : Type)
  | user (content : UserContent Json) (timestamp : Int)
  | developer (content : UserContent Json) (timestamp : Int)
  | assistant (m : AssistantMessage Json)
  | toolResult (r : ToolResultMessage Json)

structure ModelInfo where
  id : String
  api : String
  provider : String

/-- The arguments of `transformMessages` besides the messages. -/
structure TransformOptions (Json : Type) where
  model : ModelInfo
  normalizeToolCallId : Option (String → AssistantMessage Json → String)
  repairLatestAssistantThinking : Bool
  repairAllAssistantThinking : Bool

variable {Json : Type}

def isBlank (text : String) : Bool := (trim text.toList).isEmpty

def isSigned (signature : Option String) : Bool := signature.any (· ≠ "")

namespace AssistantMessage

def toolCalls (m : AssistantMessage Json) : List (ToolCall Json) :=
  m.content.filterMap fun
    | .toolCall call => some call
    | _ => none

def isAborted (m : AssistantMessage Json) : Bool := m.stopReason = .error || m.stopReason = .aborted

end AssistantMessage

namespace Message

def isAssistant : Message Json → Bool
  | .assistant _ => true
  | _ => false

def isToolResult : Message Json → Bool
  | .toolResult _ => true
  | _ => false

def timestamp : Message Json → Int
  | .user _ timestamp | .developer _ timestamp => timestamp
  | .assistant m => m.timestamp
  | .toolResult r => r.timestamp

end Message

def collapseAdjacentThinking (previousWasThinking : Bool) :
    List (AssistantBlock Json) → List (AssistantBlock Json)
  | [] => []
  | .thinking thinking signature :: blocks =>
    if previousWasThinking then collapseAdjacentThinking true blocks
    else .thinking thinking signature :: collapseAdjacentThinking true blocks
  | block :: blocks => block :: collapseAdjacentThinking false blocks

namespace TransformOptions

variable (options : TransformOptions Json)

def isSameModel (m : AssistantMessage Json) : Bool :=
  m.provider = options.model.provider && m.api = options.model.api && m.model = options.model.id

def toolCallId (m : AssistantMessage Json) (id : String) : String :=
  if options.isSameModel m then id
  else
    match options.normalizeToolCallId with
    | some normalize => normalize id m
    | none => id

def transformToolCall (m : AssistantMessage Json) (call : ToolCall Json) : ToolCall Json :=
  let call' := if !options.isSameModel m && isSigned call.thoughtSignature then { call with
    thoughtSignature := none } else call
  { call' with id := options.toolCallId m call.id }

def bothAnthropic (m : AssistantMessage Json) : Bool :=
  options.model.api = "anthropic-messages" && m.api = "anthropic-messages"

def transformBlock (m : AssistantMessage Json) (latest : Bool) (block : AssistantBlock Json) :
    List (AssistantBlock Json) :=
  let isSameModel := options.isSameModel m
  let mustPreserveLatestAnthropicThinking := latest && options.bothAnthropic m
  let hasPartialThinking := m.isAborted
  let dropAssistantThinkingForRepair :=
    (options.repairAllAssistantThinking || options.repairLatestAssistantThinking && latest) &&
      options.bothAnthropic m
  let replaysAsNativeThinking := mustPreserveLatestAnthropicThinking || isSameModel
  match block with
  | .thinking thinking signature =>
    if hasPartialThinking then []
    else if dropAssistantThinkingForRepair && replaysAsNativeThinking then []
    else if mustPreserveLatestAnthropicThinking then [block]
    else if isSameModel && isSigned signature then
      if isBlank thinking && options.model.api = "anthropic-messages" then [] else [block]
    else if isBlank thinking then []
    else if isSameModel then [block]
    else [.text thinking none]
  | .redactedThinking _ =>
    if hasPartialThinking then []
    else if dropAssistantThinkingForRepair && replaysAsNativeThinking then []
    else if replaysAsNativeThinking then [block]
    else []
  | .text text _ => if isSameModel then [block] else [.text text none]
  | .toolCall call => [.toolCall (options.transformToolCall m call)]

def transformAssistant (m : AssistantMessage Json) (latest : Bool) : AssistantMessage Json :=
  let transformedContent := m.content.flatMap (options.transformBlock m latest)
  { m with
    content :=
      if options.model.api = "anthropic-messages"
        then collapseAdjacentThinking false transformedContent
      else transformedContent }

def mapToolCallIds (m : AssistantMessage Json) (toolCallIdMap : InsertionMap String String) :
    InsertionMap String String :=
  m.toolCalls.foldl
    (fun map call =>
      if options.toolCallId m call.id ≠ call.id
        then map.set call.id (options.toolCallId m call.id) else map)
    toolCallIdMap

end TransformOptions

def renameResult (toolCallIdMap : InsertionMap String String) (r : ToolResultMessage Json) :
    ToolResultMessage Json :=
  match toolCallIdMap.get? r.toolCallId with
  | some normalizedId => if normalizedId ≠ "" then { r with toolCallId := normalizedId } else r
  | none => r

def latestAssistantIndex (messages : List (Message Json)) : Option Nat :=
  (messages.reverse.findIdx? Message.isAssistant).map fun i => messages.length - 1 - i

def firstPass (options : TransformOptions Json) (latest : Option Nat) :
    Nat → InsertionMap String String → List (Message Json) → List (Message Json)
  | _, _, [] => []
  | index, map, .assistant m :: messages =>
    .assistant (options.transformAssistant m (latest = some index)) ::
      firstPass options latest (index + 1) (options.mapToolCallIds m map) messages
  | index, map, .toolResult r :: messages =>
    .toolResult (renameResult map r) :: firstPass options latest (index + 1) map messages
  | index, map, message :: messages => message :: firstPass options latest (index + 1) map messages

inductive ToolCallStatus
  | resolved
  | aborted
  deriving DecidableEq

structure SecondPass (Json : Type) where
  result : List (Message Json)
  pendingToolCalls : List (ToolCall Json)
  pendingAbortedToolCalls : InsertionMap String (ToolCall Json)
  pendingAbortedTimestamp : Option Int
  toolCallStatus : InsertionMap String ToolCallStatus

def callIds (messages : List (Message Json)) : List String :=
  messages.flatMap fun
    | .assistant m => m.toolCalls.map (·.id)
    | _ => []

def resultIds (messages : List (Message Json)) : List String :=
  messages.filterMap fun
    | .toolResult r => some r.toolCallId
    | _ => none

def turnAbortedGuidance : String :=
  "<turn-aborted>\nThe previous turn was aborted. Any running tools/commands were terminated. \n" ++
    "If tools were aborted, they may have partially executed; verify current state before retrying.\n</turn-aborted>\n"

def syntheticResult (call : ToolCall Json) (text : String) (timestamp : Int) : Message Json :=
  .toolResult
    { toolCallId := call.id, toolName := call.name, content := [.text text], isError := true, timestamp := timestamp }

def staleToolResult (r : ToolResultMessage Json) (textParts : List String) : String :=
  let errorAttr := if r.isError then " is-error=\"true\"" else ""
  "<stale-tool-result tool=\"" ++ r.toolName ++ "\" id=\"" ++ r.toolCallId ++ "\"" ++
    errorAttr ++ ">\n" ++
    "\n".intercalate textParts ++ "\n</stale-tool-result>"

namespace SecondPass

def init : SecondPass Json where
  result := []
  pendingToolCalls := []
  pendingAbortedToolCalls := .empty
  pendingAbortedTimestamp := none
  toolCallStatus := .empty

def push (s : SecondPass Json) (message : Message Json) : SecondPass Json :=
  { s with result := s.result ++ [message] }

def resolve (s : SecondPass Json) (id : String) (status : ToolCallStatus) (message : Message Json) :
    SecondPass Json :=
  { s with result := s.result ++ [message], toolCallStatus := s.toolCallStatus.set id status }

def flushToolCall (realToolResultIds : List String) (timestamp : Int) (s : SecondPass Json)
    (call : ToolCall Json) :
    SecondPass Json :=
  if (s.toolCallStatus.get? call.id).isNone && call.id ∉ realToolResultIds then
    s.resolve call.id .resolved (syntheticResult call "No result provided" timestamp)
  else s

def flushPendingToolCalls (realToolResultIds : List String) (s : SecondPass Json) (timestamp : Int) :
    SecondPass Json :=
  { s.pendingToolCalls.foldl (flushToolCall realToolResultIds timestamp) s with
    pendingToolCalls := [] }

def flushAbortedToolCall (timestamp : Int) (s : SecondPass Json) (call : ToolCall Json) :
    SecondPass Json :=
  if (s.toolCallStatus.get? call.id).isNone
    then s.resolve call.id .aborted (syntheticResult call "aborted" timestamp)
  else s

def flushPendingAbortedToolCalls (s : SecondPass Json) : SecondPass Json :=
  match s.pendingAbortedTimestamp with
  | none => s
  | some timestamp =>
    let s :=
      (s.pendingAbortedToolCalls.entries.map Prod.snd).foldl (flushAbortedToolCall timestamp) s
    { s.push (.developer (.text turnAbortedGuidance) (timestamp + 1)) with
      pendingAbortedToolCalls := .empty, pendingAbortedTimestamp := none }

def flush (realToolResultIds : List String) (s : SecondPass Json) (timestamp : Int) :
    SecondPass Json :=
  (s.flushPendingToolCalls realToolResultIds timestamp).flushPendingAbortedToolCalls

def assistant (s : SecondPass Json) (m : AssistantMessage Json) : SecondPass Json :=
  if m.isAborted then
    { s.push (.assistant m) with
      pendingAbortedToolCalls := .ofList (m.toolCalls.map fun call => (call.id, call))
      pendingAbortedTimestamp := some m.timestamp }
  else
    let s := if m.toolCalls.isEmpty then s else { s with pendingToolCalls := m.toolCalls }
    s.push (.assistant m)

def orphan (s : SecondPass Json) (r : ToolResultMessage Json) : SecondPass Json :=
  if !s.pendingToolCalls.isEmpty || !s.pendingAbortedToolCalls.entries.isEmpty then s
  else
    let textParts := r.content.filterMap fun
      | .text text => if isBlank text then none else some text
      | .image _ => none
    if textParts.isEmpty then s else s.push (.user (.text (staleToolResult r textParts)) r.timestamp)

def toolResult (validToolUseIds : List String) (s : SecondPass Json) (r : ToolResultMessage Json) :
    SecondPass Json :=
  if (s.pendingAbortedToolCalls.get? r.toolCallId).isSome then
    { s.resolve r.toolCallId .resolved (.toolResult r) with
      pendingAbortedToolCalls := s.pendingAbortedToolCalls.erase r.toolCallId }
  else if s.toolCallStatus.get? r.toolCallId = some .aborted then s
  else if r.toolCallId ∉ validToolUseIds then s.orphan r
  else s.resolve r.toolCallId .resolved (.toolResult r)

def step (realToolResultIds validToolUseIds : List String) (s : SecondPass Json) :
    Message Json → SecondPass Json
  | .assistant m => (s.flush realToolResultIds m.timestamp).assistant m
  | .toolResult r => s.toolResult validToolUseIds r
  | message => (s.flush realToolResultIds message.timestamp).push message

end SecondPass

def secondPass (now : Int) (transformed : List (Message Json)) : List (Message Json) :=
  let realToolResultIds := resultIds transformed
  let validToolUseIds := callIds transformed
  let s := transformed.foldl (SecondPass.step realToolResultIds validToolUseIds) .init
  (s.flush realToolResultIds now).result

def transformMessages (options : TransformOptions Json) (now : Int)
    (messages : List (Message Json)) :
    List (Message Json) :=
  secondPass now (firstPass options (latestAssistantIndex messages) 0 .empty messages)

end JevCode.Ai
