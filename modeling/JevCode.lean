import JevCode.Agent.AttemptScope
import JevCode.Agent.ManagedAttempt
import JevCode.Agent.ManagedSize
import JevCode.Agent.RunSettlement
import JevCode.Agent.Steering
import JevCode.Agent.ToolBatchOrder
import JevCode.Ai.EventStreamLaws
import JevCode.Ai.JsonSchemaMeaning
import JevCode.Ai.RepairJson
import JevCode.Ai.ToolResultOrder
import JevCode.Async.ResumeOrder
import JevCode.Edit.ApplyPatch
import JevCode.Edit.ConcurrentEdits
import JevCode.Edit.Levenshtein
import JevCode.Edit.LineDiffLaws
import JevCode.Edit.NativeDistance
import JevCode.Edit.NativeNormalize
import JevCode.Edit.Notebook
import JevCode.Edit.PatchLaws
import JevCode.Edit.ReplaceAll
import JevCode.Hashline.DiffPreview
import JevCode.Hashline.FinalNewline
import JevCode.Hashline.MergeSections
import JevCode.Hashline.NativeFormat
import JevCode.Hashline.OpOrderLaws
import JevCode.Hashline.PureInsert
import JevCode.Hashline.SimultaneousEdits
import JevCode.Sdk.ChatEffectJournal
import JevCode.Sdk.CursorRegistryLaws
import JevCode.Sdk.LaneTurns
import JevCode.Sdk.ReactionSequencer
import JevCode.Sdk.ReverseRequests
import JevCode.Sdk.SessionEventStream
import JevCode.Sdk.StringPaging
import JevCode.Sdk.TelegramHtmlLaws
import JevCode.Secrets.Messages
import JevCode.Secrets.RegexSecrets
import JevCode.Secrets.RoundTrip
import JevCode.Session.ArgumentPruning
import JevCode.Session.ColdSpillMerge
import JevCode.Session.ColumnCap
import JevCode.Session.Compact
import JevCode.Session.FallbackChain
import JevCode.Session.PruneSavings
import JevCode.Session.SummaryBound
import JevCode.Session.TailBuffer
import JevCode.Session.TailChain
import JevCode.Session.ToolPairs
import JevCode.Session.TruncateMiddle
import JevCode.Session.YieldQueue
import JevCode.Tui.BracketedPaste
import JevCode.Tui.StdinBytes
import JevCode.Tui.StdinChunks
import JevCode.Tui.WordWrapAscii
import JevCode.Utils.CommandArgs
import JevCode.Utils.RingBuffer
import JevCode.Utils.Snowflake
import JevCode.Utils.Sse
import JevCode.Vim.Buffer
