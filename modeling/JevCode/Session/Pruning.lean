import Mathlib.Algebra.GroupWithZero.Nat
import Mathlib.Algebra.Ring.Int.Defs
import JevCode.Session.Messages
import JevCode.Data.InsertionMap
import JevCode.Text.Lines

/-! `pruning.ts`: which tool outputs a prune plan drops. Token estimates, the text of a notice and
the digest of an output are parameters: the plan weighs them, but no entry is selected for what they
are. -/

namespace JevCode.Session

open JevCode.Text JevCode.Data

structure PruneConfig where
  protectTokens : Int
  minimumSavings : Int
  protectedTools : List String
  protectRecentTurns : Option Int
  staleOverridableTools : Option (List String)

def defaultPruneConfig : PruneConfig where
  protectTokens := 40000
  minimumSavings := 20000
  protectedTools := ["skill", "read"]
  protectRecentTurns := some 2
  staleOverridableTools := some ["read"]

structure PruneToolOutputsOptions where
  relaxedMinimum : Option Int
  artifactRefMaxChars : Option Int

structure PruneServices where
  estimateEntryTokens : Entry → Nat
  estimateTextTokens : String → Nat
  createPrunedNotice : Nat → ToolResultMessage → Option ToolCall → Option String → String
  sha256 : String → String

section Arguments

def editToolNames : List String := ["edit", "write", "apply_patch", "ast_edit"]

def toolArguments (call : ToolCall) : Option Json :=
  match call.arguments with
  | .obj fields => some (.obj fields)
  | .arr items => some (.arr items)
  | _ => none

def nullish (value : Option Json) : Option Json := value.filter fun v => !v.isNull

def nonEmptyString (value : Option Json) : Option String :=
  (value.bind Json.str?).filter fun s => s ≠ ""

def toolCallPath (call : ToolCall) : Option String := do
  let args ← toolArguments call
  nonEmptyString (nullish (args.get? "path") <|> nullish (args.get? "file_path") <|>
    args.get? "filePath")

def matchPatchHeader (line : List Char) : Option (Bool × String) := do
  let s ← "*** ".toList.isPrefixOf? line
  let header (kind : String) (isMoveTo : Bool) : Option (Bool × String) :=
    match (kind ++ ": ").toList.isPrefixOf? s with
    | some (c :: path) => some (isMoveTo, String.ofList (trim (c :: path)))
    | _ => none
  header "Add File" false <|> header "Update File" false <|> header "Delete File" false <|> header
    "Move to" true

def addPathGroup (groups : List (List String)) (header : Bool × String) : List (List String) :=
  if header.2 = "" then groups
  else if header.1 = true ∧ groups ≠ [] then groups.dropLast ++ [groups.getLastD [] ++ [header.2]]
  else groups ++ [[header.2]]

def editToolPathGroups (call : ToolCall) : List (List String) :=
  match toolCallPath call with
  | some path => [[path]]
  | none =>
    match ((toolArguments call).bind fun args => args.get? "input").bind Json.str? with
    | none => []
    | some input =>
      ((input.toList.splitOnP fun c => !isDot c).filterMap matchPatchHeader).foldl addPathGroup []

end Arguments

section Reads

def lower (s : List Char) : List Char := s.map Char.toLower

def scanLineNumber (s : List Char) : Option (Nat × List Char) :=
  let s := match s with
    | 'L' :: rest | 'l' :: rest => rest
    | _ => s
  match s.takeWhile isDigit with
  | [] => none
  | digits => some (digits.foldl (fun n c => 10 * n + (c.toNat - '0'.toNat)) 0, s.dropWhile isDigit)

def isRangePart (part : List Char) : Bool :=
  match scanLineNumber part with
  | some (_, []) | some (_, ['-']) => true
  | some (_, c :: rest) =>
    (c = '-' || c = '+') && (scanLineNumber rest).any fun found => found.2 = []
  | none => false

def isRangeSelector (s : List Char) : Bool := (s.splitOn ',').all isRangePart

def isRawSelector (s : List Char) : Bool := lower s = "raw".toList

def isReadSelector (s : List Char) : Bool :=
  isRangeSelector s || isRawSelector s || lower s = "conflicts".toList

def splitLastColon (s : List Char) : Option (List Char × List Char) :=
  match s.reverse.dropWhile (· ≠ ':') with
  | _ :: c :: before => some ((c :: before).reverse, (s.reverse.takeWhile (· ≠ ':')).reverse)
  | _ => none

structure ReadTarget where
  basePath : String
  selector : List (List Char)

def splitReadTarget (path : String) : ReadTarget :=
  match splitLastColon path.toList with
  | none => ⟨path, []⟩
  | some (basePath, outer) =>
    if !isReadSelector outer then ⟨path, []⟩
    else match splitLastColon basePath with
    | some (innerBase, inner) =>
      if (isRawSelector inner && isRangeSelector outer) ||
        (isRangeSelector inner && isRawSelector outer) then
        ⟨String.ofList innerBase, [inner, outer]⟩
      else ⟨String.ofList basePath, [outer]⟩
    | none => ⟨String.ofList basePath, [outer]⟩

def readBasePath (path : String) : String := (splitReadTarget path).basePath

structure ReadLineRange where
  start : Nat
  stop : Nat
  deriving DecidableEq

def readLineRange (part : List Char) : Option ReadLineRange := do
  let (start, rest) ← scanLineNumber part
  match rest with
  | c :: rest =>
    if c ≠ '-' ∧ c ≠ '+' then none
    else
      let (n, rest) ← scanLineNumber rest
      let stop := if c = '+' then start + n - 1 else n
      if rest = [] ∧ 0 < start ∧ start ≤ stop then some ⟨start, stop⟩ else none
  | [] => none

def readLineRanges (path : String) : List ReadLineRange :=
  let selector := (splitReadTarget path).selector
  if selector.any fun part => isRawSelector part || lower part = "conflicts".toList then []
  else selector.flatMap fun part => (part.splitOn ',').filterMap readLineRange

def strictlyContainsReadRange (container contained : ReadLineRange) : Bool :=
  container.start ≤ contained.start && contained.stop ≤ container.stop &&
    (container.start < contained.start || contained.stop < container.stop)

def readSupersedesRead (later earlier : ToolCall) : Bool :=
  match (toolCallPath later).map readLineRanges, (toolCallPath earlier).map readLineRanges with
  | some [laterRange], some [earlierRange] => strictlyContainsReadRange laterRange earlierRange
  | _, _ => false

end Reads

section Targets

def wordEnds (rest : List Char) : Bool :=
  !rest.head?.any fun c => c.isAlphanum || c = '_'

def isIdempotentBashCommand (command : List Char) : Bool :=
  let startsAs (words : String) : Bool := (words.toList.isPrefixOf? command).any wordEnds
  (["bun", "npm", "pnpm", "yarn"].any fun tool =>
    ["test", "build"].any fun task =>
      startsAs (tool ++ " " ++ task) || startsAs (tool ++ " run " ++ task)) ||
  startsAs "git status" || startsAs "cargo build" || startsAs "make build" || startsAs "just build"

def normalizeCommand (command : String) : List Char :=
  [' '].intercalate ((command.toList.splitOnP isSpace).filter (· ≠ []))

def normalizedIdempotentBashCommand (call : ToolCall) : Option (String × Option String) := do
  if call.name ≠ "bash" then none
  let args ← toolArguments call
  let command ← (args.get? "command").bind Json.str?
  let normalized := normalizeCommand command
  if normalized.any (· ∈ [';', '&', '|']) || !isIdempotentBashCommand normalized then none
  else some (String.ofList normalized, (args.get? "cwd").bind Json.str?)

inductive TargetKey
  | path (name path : String)
  | command (name command : String) (cwd : Option String)
  | pattern (name pattern : String) (paths : List String) (skip : ℚ)
    (caseInsensitive gitignore : Bool)
  deriving DecidableEq

def toolTargetKey (call : ToolCall) : Option TargetKey :=
  match toolCallPath call with
  | some path => some (.path call.name path)
  | none =>
    match normalizedIdempotentBashCommand call with
    | some (command, cwd) => some (.command call.name command cwd)
    | none => do
      let args ← toolArguments call
      let pattern ← nonEmptyString (args.get? "pattern")
      let paths := (((args.get? "paths").bind Json.arr?).getD []).filterMap Json.str?
      let skip := ((args.get? "skip").bind Json.num?).getD 0
      let caseInsensitive := (args.get? "i").bind Json.bool? = some true
      let gitignore := (args.get? "gitignore").bind Json.bool? ≠ some false
      return .pattern call.name pattern paths skip caseInsensitive gitignore

end Targets

section Details

def resultDetailFiles (message : ToolResultMessage) : List String :=
  let candidates := [message.details, message.details.bind fun raw => raw.get? "sourceResultDetails"]
  let found := candidates.findSome? fun details =>
    if (details.bind fun d => d.get? "applied").bind Json.bool? = some true then
      (details.bind fun d => d.get? "files").bind Json.arr?
    else none
  ((found.getD []).filterMap Json.str?).filter (· ≠ "")

def successfulEditPaths (message : ToolResultMessage) : Option (List String) :=
  ((message.details.bind fun d => d.get? "perFileResults").bind Json.arr?).map fun perFile =>
    perFile.filterMap fun item => do
      let path ← (item.get? "path").bind Json.str?
      if (item.get? "isError").elim ((item.get? "diff").bind Json.str?).isSome
          fun isError => isError.bool? = some false then
        some path
      else none

def readResolvedPath (message : ToolResultMessage) : Option String :=
  nonEmptyString (message.details.bind fun d => d.get? "resolvedPath")

end Details

section Staleness

def callsById (entries : List Entry) : InsertionMap String ToolCall :=
  InsertionMap.ofList ((entries.flatMap toolCalls).map fun call => (call.id, call))

structure ResultMeta where
  key : Option TargetKey
  call : ToolCall
  message : ToolResultMessage

structure ResultIndex where
  lastResultIndexByKey : InsertionMap TargetKey Nat
  resultMeta : List (Nat × ResultMeta)
  lastEditIndexByPath : InsertionMap String Nat

def ResultIndex.empty : ResultIndex := ⟨InsertionMap.empty, [], InsertionMap.empty⟩

def mutatedPaths (call : ToolCall) (message : ToolResultMessage) : List String :=
  ((editToolPathGroups call).filter fun group =>
    match successfulEditPaths message with
    | some succeeded => group.any (· ∈ succeeded)
    | none => true).flatten

def setPaths (index : InsertionMap String Nat) (paths : List String) (i : Nat) :
    InsertionMap String Nat :=
  paths.foldl (fun m path => m.set path i) index

def ResultIndex.add (calls : InsertionMap String ToolCall) (index : ResultIndex)
    (item : Entry × Nat) : ResultIndex :=
  match getToolResultMessage item.1 with
  | none => index
  | some message =>
    match calls.get? message.toolCallId with
    | none => index
    | some call =>
      let applied :=
        if call.name = "resolve" ∨ call.name = "ast_edit" then resultDetailFiles message else []
      let index :=
        { index with lastEditIndexByPath := setPaths index.lastEditIndexByPath applied item.2 }
      if message.isError then index
      else
        let key := toolTargetKey call
        let edited := if call.name ∈ editToolNames then mutatedPaths call message else []
        { lastResultIndexByKey := match key with
            | some key => index.lastResultIndexByKey.set key item.2
            | none => index.lastResultIndexByKey
          resultMeta := index.resultMeta ++ [(item.2, ⟨key, call, message⟩)]
          lastEditIndexByPath := setPaths index.lastEditIndexByPath edited item.2 }

def indexResults (entries : List Entry) : ResultIndex :=
  entries.zipIdx.foldl (ResultIndex.add (callsById entries)) .empty

def lookupPaths (result : ResultMeta) : List String :=
  ((toolCallPath result.call).map readBasePath).toList ++ (readResolvedPath result.message).toList

def isSuperseded (index : ResultIndex) (item : Nat × ResultMeta) : Bool :=
  let later (found : Option Nat) : Bool := found.any (item.1 < ·)
  later (item.2.key.bind index.lastResultIndexByKey.get?) ||
    (item.2.call.name = "read" &&
      (lookupPaths item.2).any fun path => later (index.lastEditIndexByPath.get? path))

def groupRead (groups : InsertionMap String (List (Nat × ResultMeta))) (item : Nat × ResultMeta) :
    InsertionMap String (List (Nat × ResultMeta)) :=
  if item.2.call.name ≠ "read" then groups
  else match toolCallPath item.2.call with
  | none => groups
  | some path => groups.set (readBasePath path) ((groups.get? (readBasePath path)).getD [] ++ [item])

def containedReads : List (Nat × ResultMeta) → List Nat
  | [] => []
  | item :: later =>
    if later.any fun other =>
      readSupersedesRead other.2.call item.2.call then item.1 :: containedReads later
    else containedReads later

def buildStalenessIndex (entries : List Entry) : List Nat :=
  let index := indexResults entries
  let readsByBasePath := index.resultMeta.foldl groupRead InsertionMap.empty
  (index.resultMeta.filter (isSuperseded index)).map Prod.fst ++
    readsByBasePath.entries.flatMap fun reads => containedReads reads.2

end Staleness

section Plan

def isTurnStart (entry : Entry) : Bool :=
  match entry.body with
  | .message m => m.role = .user || m.role = .bashExecution
  | _ => false

def turnStarts (entries : List Entry) : List Nat :=
  (entries.zipIdx.filter fun item => isTurnStart item.1).map Prod.snd

def recentTurnFenceStart (entries : List Entry) (protectRecentTurns : Int) : Option Nat :=
  if protectRecentTurns ≤ 0 then none
  else
    let starts := turnStarts entries
    starts[(starts.length - protectRecentTurns).toNat]?

def extractToolOutputText (message : ToolResultMessage) : String × Bool :=
  (joinLines (message.content.filterMap fun
    | .text text => some text
    | .image _ => none),
   message.content.all fun
    | .text _ => true
    | .image _ => false)

def utf16Length (s : String) : Nat := (s.toList.map fun c => if c.toNat < 0x10000 then 1 else 2).sum

structure ToolOutputPruneCandidate where
  entry : Entry
  message : ToolResultMessage
  call : Option ToolCall
  tokens : Nat
  originalText : String
  complete : Bool
  notice : String
  savings : Int

variable (services : PruneServices)

def withNotice (candidate : ToolOutputPruneCandidate) (artifact : Option String) :
    Option ToolOutputPruneCandidate :=
  let notice :=
    services.createPrunedNotice candidate.tokens candidate.message candidate.call artifact
  let savings := (candidate.tokens : Int) - services.estimateTextTokens notice
  let errorNoticeGrows :=
    candidate.message.isError && utf16Length candidate.originalText < utf16Length notice
  if savings ≤ 0 || errorNoticeGrows then none else some { candidate with
    notice := notice, savings := savings }

def selectCandidate (entries : List Entry) (config : PruneConfig) (stale : List Nat)
    (fenceStart : Option Nat) (accumulatedTokens : Nat) (i : Nat) (entry : Entry)
    (message : ToolResultMessage) :
    Option ToolOutputPruneCandidate :=
  let isStale := i ∈ stale
  let isProtected := message.toolName ∈ config.protectedTools ∧
    ¬ (isStale ∧ message.toolName ∈ config.staleOverridableTools.getD [])
  let insideProtectWindow := (accumulatedTokens : Int) < config.protectTokens
  if message.prunedAt.isSome ∨ fenceStart.any (· ≤ i) then none
  else if (insideProtectWindow ∧ ¬ isStale) ∨ isProtected then none
  else
    let (text, complete) := extractToolOutputText message
    withNotice services ⟨entry, message, (callsById entries).get? message.toolCallId,
      services.estimateEntryTokens entry, text, complete, "", 0⟩ none

/-- The candidates among the first `k` entries, walking back with the tokens of the results after
them. -/
def collectFrom (entries : List Entry) (config : PruneConfig) (stale : List Nat)
    (fenceStart : Option Nat) :
    Nat → Nat → List ToolOutputPruneCandidate
  | 0, _ => []
  | i + 1, accumulatedTokens =>
    match entries[i]?.bind fun entry => (getToolResultMessage entry).map fun message =>
      (entry, message) with
    | none => collectFrom entries config stale fenceStart i accumulatedTokens
    | some (entry, message) =>
      (selectCandidate services entries config stale fenceStart accumulatedTokens i entry
        message).toList ++
        collectFrom entries config stale fenceStart i
        (accumulatedTokens + services.estimateEntryTokens entry)

def collectToolOutputPruneCandidates (entries : List Entry) (config : PruneConfig) :
    List ToolOutputPruneCandidate :=
  collectFrom services entries config (buildStalenessIndex entries)
    (recentTurnFenceStart entries (config.protectRecentTurns.getD 2)) entries.length 0

def totalSavings (candidates : List ToolOutputPruneCandidate) : Int :=
  (candidates.map fun c => c.savings).sum

def minimumSavings (config : PruneConfig) (options : PruneToolOutputsOptions) : Int :=
  match options.relaxedMinimum with
  | some relaxed => min config.minimumSavings (max 0 relaxed)
  | none => config.minimumSavings

def maxArtifactRefChars : Int := 16384

def artifactRefMaxChars (options : PruneToolOutputsOptions) : Except String Nat :=
  match options.artifactRefMaxChars with
  | none => .ok 0
  | some maxChars =>
    if maxChars ≤ 0 ∨ maxArtifactRefChars < maxChars then
      .error s!"artifactRefMaxChars must be an integer between 1 and {maxArtifactRefChars}"
    else .ok maxChars.toNat

def planToolOutputPruneCandidates (candidates : List ToolOutputPruneCandidate)
    (options : PruneToolOutputsOptions) :
    Except String (List ToolOutputPruneCandidate) := do
  let maxChars ← artifactRefMaxChars options
  let artifactBudget :=
    if 0 < maxChars then some (String.ofList (List.replicate maxChars 'x')) else none
  return candidates.filterMap fun candidate =>
    withNotice services candidate (if candidate.complete then artifactBudget else none)

structure ToolOutputPruneDigest where
  entryId : String
  sha256 : String
  bytes : Nat
  deriving DecidableEq

structure ToolOutputPruneReplacement where
  entryId : String
  replacementText : String
  complete : Bool
  tokens : Nat
  deriving DecidableEq

structure ToolOutputPrunePlan where
  prunedCount : Nat
  tokensSaved : Int
  digests : List ToolOutputPruneDigest
  replacements : List ToolOutputPruneReplacement
  deriving DecidableEq

def emptyToolOutputPrunePlan : ToolOutputPrunePlan := ⟨0, 0, [], []⟩

def planToolOutputPrune (entries : List Entry) (config : PruneConfig)
    (options : PruneToolOutputsOptions) :
    Except String ToolOutputPrunePlan :=
  let candidates := collectToolOutputPruneCandidates services entries config
  let minimum := minimumSavings config options
  if totalSavings candidates < minimum ∨ candidates = [] then .ok emptyToolOutputPrunePlan
  else do
    let planned ← planToolOutputPruneCandidates services candidates options
    if totalSavings planned < minimum ∨ planned = [] then return emptyToolOutputPrunePlan
    else return {
      prunedCount := planned.length
      tokensSaved := totalSavings planned
      digests := planned.map fun c =>
        ⟨c.entry.id, services.sha256 c.originalText, c.originalText.utf8ByteSize⟩
      replacements := planned.map fun c => ⟨c.entry.id, c.notice, c.complete, c.tokens⟩ }

end Plan

end JevCode.Session
