import Mathlib.Data.List.Basic

namespace JevCode.Session

inductive Role
  | user
  | assistant
  | toolResult
  | bashExecution
  | hookMessage
  | branchSummary
  | compactionSummary
  | other (name : String)
  deriving DecidableEq

structure StoredMessage (κ : Type) where
  role : Role
  content : κ
  deriving DecidableEq

structure CustomContent (κ : Type) where
  customType : String
  content : κ
  display : Bool
  details : Option κ
  attribution : Option String
  deriving DecidableEq

structure RemoteCompaction (κ : Type) where
  provider : String
  replacementHistory : List κ
  deriving DecidableEq

structure CompactionData (κ : Type) where
  summary : String
  shortSummary : Option String
  firstKeptEntryId : String
  tokensBefore : Nat
  preserveData : Option (RemoteCompaction κ)
  deriving DecidableEq

inductive SettingEntry
  | thinkingLevelChange
  | modelChange
  | serviceTierChange
  | custom
  | label
  | ttsrInjection
  | mcpToolSelection
  | discoveredBuiltinToolSelection
  | sessionInit
  | modeChange
  | configuredModelChain
  deriving DecidableEq

inductive EntryBody (κ : Type)
  | message (message : StoredMessage κ)
  | customMessage (custom : CustomContent κ)
  | branchSummary (summary fromId : String)
  | compaction (compaction : CompactionData κ)
  | setting (kind : SettingEntry)
  deriving DecidableEq

structure SessionEntry (κ : Type) where
  id : String
  timestamp : String
  body : EntryBody κ
  deriving DecidableEq

inductive AgentMessage (κ : Type)
  | stored (message : StoredMessage κ)
  | custom (custom : CustomContent κ) (timestamp : String)
  | branchSummary (summary fromId timestamp : String)
  | compactionSummary (summary : String) (tokensBefore : Nat) (timestamp : String)
    (shortSummary : Option String)
      (providerPayload : Option (RemoteCompaction κ))
  deriving DecidableEq

/-- A message with the id of the entry it comes from, as `associateSessionMessageEntryId` notes it.
-/
structure EntryMessage (κ : Type) where
  entryId : String
  message : AgentMessage κ
  deriving DecidableEq

variable {κ : Type}

def SessionEntry.compaction? (e : SessionEntry κ) : Option (CompactionData κ) :=
  match e.body with
  | .compaction c => some c
  | _ => none

def appendMessage (e : SessionEntry κ) : Option (EntryMessage κ) :=
  match e.body with
  | .message m => some ⟨e.id, .stored m⟩
  | .customMessage c => some ⟨e.id, .custom c e.timestamp⟩
  | .branchSummary summary fromId =>
    if summary = "" then none else some ⟨e.id, .branchSummary summary fromId e.timestamp⟩
  | _ => none

def CompactionData.providerPayload (c : CompactionData κ) : Option (RemoteCompaction κ) :=
  c.preserveData.filter fun remote => remote.provider ≠ ""

def lastCompactionIndex : List (SessionEntry κ) → Option Nat
  | [] => none
  | e :: es =>
    match lastCompactionIndex es with
    | some i => some (i + 1)
    | none => if e.compaction?.isSome then some 0 else none

def lastCompaction (path : List (SessionEntry κ)) : Option (SessionEntry κ × CompactionData κ) := do
  let i ← lastCompactionIndex path
  let e ← path[i]?
  let c ← e.compaction?
  return (e, c)

def keptEntries (before : List (SessionEntry κ)) (c : CompactionData κ) : List (SessionEntry κ) :=
  before.dropWhile fun e => e.id ≠ c.firstKeptEntryId

def buildSessionContext (path : List (SessionEntry κ)) : List (EntryMessage κ) :=
  match lastCompaction path with
  | none => path.filterMap appendMessage
  | some (e, c) =>
    let compactionIdx := path.findIdx fun e' => e'.compaction?.isSome && e'.id == e.id
    let kept := if c.providerPayload.isSome then [] else keptEntries (path.take compactionIdx) c
    ⟨e.id, .compactionSummary c.summary c.tokensBefore e.timestamp c.shortSummary
      c.providerPayload⟩ ::
      (kept.filterMap appendMessage ++ (path.drop (compactionIdx + 1)).filterMap appendMessage)

end JevCode.Session
