import JevCode.Session.Context
import Mathlib.Data.Rat.Defs

namespace JevCode.Session

inductive Json
  | null
  | bool (value : Bool)
  | num (value : ℚ)
  | str (value : String)
  | arr (items : List Json)
  | obj (fields : List (String × Json))

namespace Json

def get? (value : Json) (key : String) : Option Json :=
  match value with
  | obj fields => fields.lookup key
  | _ => none

def str? : Json → Option String
  | str s => some s
  | _ => none

def arr? : Json → Option (List Json)
  | arr items => some items
  | _ => none

def num? : Json → Option ℚ
  | num n => some n
  | _ => none

def bool? : Json → Option Bool
  | bool b => some b
  | _ => none

def isNull : Json → Bool
  | null => true
  | _ => false

end Json

structure ToolCall where
  id : String
  name : String
  arguments : Json
  customWireName : Option String

inductive AssistantContent
  | text (text : String)
  | thinking (text : String)
  | toolCall (call : ToolCall)

def AssistantContent.toolCall? : AssistantContent → Option ToolCall
  | toolCall call => some call
  | _ => none

inductive OutputBlock
  | text (text : String)
  | image (data : String)

structure ToolResultMessage where
  toolCallId : String
  toolName : String
  content : List OutputBlock
  isError : Bool
  prunedAt : Option Nat
  details : Option Json

inductive MessageContent
  | assistant (content : List AssistantContent)
  | toolResult (message : ToolResultMessage)
  | other (text : String)

abbrev Entry := SessionEntry MessageContent

def toolCalls (entry : Entry) : List ToolCall :=
  match entry.body with
  | .message ⟨.assistant, .assistant content⟩ => content.filterMap AssistantContent.toolCall?
  | _ => []

def getToolResultMessage (entry : Entry) : Option ToolResultMessage :=
  match entry.body with
  | .message ⟨.toolResult, .toolResult message⟩ => some message
  | _ => none

def resultAt (entries : List Entry) (i : Nat) : Option ToolResultMessage :=
  entries[i]?.bind getToolResultMessage

end JevCode.Session
