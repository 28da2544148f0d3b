import JevCode.Session.OutputSink
import JevCode.Text.CodePoints

/-! `streaming-output.ts`: truncation of a content to a number of lines and of bytes, from its head,
its tail or its middle. A content is any JavaScript string, so a list of UTF-16 units. -/

namespace JevCode.Session.Truncation

open JevCode.Text

def defaultMaxLines : Nat := 3000
def defaultMaxBytes : Nat := 50 * 1024

def nl : CodeUnit := 0x0a

inductive TruncatedBy
  | lines
  | bytes
  | middle
  deriving DecidableEq

structure TruncationOptions where
  maxLines : Option Nat
  maxBytes : Option Nat
  maxHeadBytes : Option Nat
  maxHeadLines : Option Nat

structure TruncationResult where
  content : List CodeUnit
  truncated : Option Bool
  truncatedBy : Option TruncatedBy
  totalLines : Nat
  totalBytes : Nat
  outputLines : Option Nat
  outputBytes : Option Nat
  elidedBytes : Option Nat
  elidedLines : Option Nat
  lastLinePartial : Option Bool
  firstLineExceedsLimit : Option Bool
  lastLineExceedsLimit : Option Bool
  deriving DecidableEq

def countNewlines (text : List CodeUnit) : Nat := text.count nl

def truncateTailBytes (data : List CodeUnit) (maxBytes : Nat) : List CodeUnit × Nat :=
  if maxBytes = 0 then ([], 0)
  else if data.length ≤ maxBytes ∧ utf8Length data ≤ maxBytes then (data, utf8Length data)
  else
    let window := data.drop (data.length - maxBytes)
    let buf := utf8Bytes (wellFormedChars window)
    let start := findUtf8BoundaryForward buf (buf.length - maxBytes)
    let slice := buf.drop start
    (charsUnits (ofUtf8Bytes slice), slice.length)

def noTruncResult (content : List CodeUnit) (totalLines totalBytes : Nat) : TruncationResult :=
  ⟨content, none, none, totalLines, totalBytes, none, none, none, none, none, none, none⟩

def indexOf (content : List CodeUnit) (start : Nat) : Option Nat :=
  ((content.drop start).findIdx? (· = nl)).map (start + ·)

def lastIndexOf (content : List CodeUnit) (last : Nat) : Option Nat :=
  ((content.take (last + 1)).reverse.findIdx? (· = nl)).map
    ((content.take (last + 1)).length - 1 - ·)

def slice (content : List CodeUnit) (a b : Nat) : List CodeUnit := (content.take b).drop a

structure HeadScan where
  includedLines : Nat
  bytesUsed : Nat
  cutIndex : Nat
  cursor : Nat

inductive HeadEnd
  | overlong
  | stopped (s : HeadScan) (truncatedBy : TruncatedBy)

def headLoop (content : List CodeUnit) (maxBytes : Nat) : Nat → HeadScan → HeadEnd
  | 0, s => .stopped s .lines
  | left + 1, s =>
    let found := indexOf content s.cursor
    let lineEnd := found.getD content.length
    let sepBytes := if 0 < s.includedLines then 1 else 0
    if maxBytes < s.bytesUsed + sepBytes then .stopped s .bytes
    else
      let remaining := maxBytes - s.bytesUsed - sepBytes
      let lineCodeUnits := lineEnd - s.cursor
      if remaining < lineCodeUnits then if s.includedLines = 0 then .overlong else .stopped s .bytes
      else
        let lineBytes := utf8Length (slice content s.cursor lineEnd)
        if remaining < lineBytes then if s.includedLines = 0 then .overlong else .stopped s .bytes
        else
          let s := { s with
            includedLines := s.includedLines + 1
            bytesUsed := s.bytesUsed + (sepBytes + lineBytes)
            cutIndex := lineEnd }
          match found with
          | none => .stopped s .lines
          | some newline => headLoop content maxBytes left { s with cursor := newline + 1 }

def headResult (content : List CodeUnit) (maxLines maxBytes totalLines totalBytes : Nat) :
    HeadEnd → TruncationResult
  | .overlong =>
    { content := [], truncated := some true, truncatedBy := some .bytes, totalLines := totalLines,
      totalBytes := totalBytes, outputLines := some 0, outputBytes := some 0, elidedBytes :=
      none, elidedLines := none, lastLinePartial := some false, firstLineExceedsLimit :=
        some true, lastLineExceedsLimit := none }
  | .stopped s truncatedBy =>
    let truncatedBy :=
      if maxLines ≤ s.includedLines ∧ s.bytesUsed ≤ maxBytes then .lines else truncatedBy
    { content := content.take s.cutIndex, truncated := some true, truncatedBy := some truncatedBy,
      totalLines := totalLines, totalBytes := totalBytes, outputLines := some s.includedLines,
      outputBytes := some s.bytesUsed, elidedBytes := none, elidedLines :=
        none, lastLinePartial := some false,
      firstLineExceedsLimit := some false, lastLineExceedsLimit := none }

def truncateHead (content : List CodeUnit) (options : TruncationOptions) : TruncationResult :=
  let maxLines := options.maxLines.getD defaultMaxLines
  let maxBytes := options.maxBytes.getD defaultMaxBytes
  let totalBytes := utf8Length content
  let totalLines := countNewlines content + 1
  if totalLines ≤ maxLines ∧ totalBytes ≤ maxBytes then noTruncResult content totalLines totalBytes
  else headResult content maxLines maxBytes totalLines totalBytes
    (headLoop content maxBytes maxLines ⟨0, 0, 0, 0⟩)

structure TailScan where
  includedLines : Nat
  bytesUsed : Nat
  startIndex : Nat
  stop : Nat

inductive TailEnd
  | overlong (tail : List CodeUnit × Nat)
  | stopped (s : TailScan) (truncatedBy : TruncatedBy)

def tailLoop (content : List CodeUnit) (maxBytes : Nat) : Nat → TailScan → TailEnd
  | 0, s => .stopped s .lines
  | left + 1, s =>
    let found := lastIndexOf content (s.stop - 1)
    let lineStart := (found.map (· + 1)).getD 0
    let sepBytes := if 0 < s.includedLines then 1 else 0
    if maxBytes < s.bytesUsed + sepBytes then .stopped s .bytes
    else
      let remaining := maxBytes - s.bytesUsed - sepBytes
      let lineCodeUnits := s.stop - lineStart
      if remaining < lineCodeUnits then
        if s.includedLines = 0 then
          -- only the window of the line that can matter is encoded
          .overlong (truncateTailBytes
            (slice content (max lineStart (s.stop - maxBytes)) s.stop) maxBytes)
        else .stopped s .bytes
      else
        let lineText := slice content lineStart s.stop
        let lineBytes := utf8Length lineText
        if remaining < lineBytes then
          if s.includedLines = 0 then .overlong (truncateTailBytes lineText maxBytes)
            else .stopped s .bytes
        else
          let s := { s with
            includedLines := s.includedLines + 1
            bytesUsed := s.bytesUsed + (sepBytes + lineBytes)
            startIndex := lineStart }
          match found with
          | none => .stopped s .lines
          | some newline => tailLoop content maxBytes left { s with stop := newline }

def tailResult (content : List CodeUnit) (maxLines maxBytes totalLines totalBytes : Nat) :
    TailEnd → TruncationResult
  | .overlong tail =>
    { content := tail.1, truncated := some true, truncatedBy := some .bytes, totalLines := totalLines,
      totalBytes := totalBytes, outputLines := some 1, outputBytes :=
      some tail.2, elidedBytes := none, elidedLines := none, lastLinePartial :=
        some true, firstLineExceedsLimit := some false,
      lastLineExceedsLimit := some true }
  | .stopped s truncatedBy =>
    let truncatedBy :=
      if maxLines ≤ s.includedLines ∧ s.bytesUsed ≤ maxBytes then .lines else truncatedBy
    { content := content.drop s.startIndex, truncated := some true, truncatedBy := some truncatedBy,
      totalLines := totalLines, totalBytes := totalBytes, outputLines := some s.includedLines,
      outputBytes := some s.bytesUsed, elidedBytes := none, elidedLines :=
        none, lastLinePartial := some false,
      firstLineExceedsLimit := some false, lastLineExceedsLimit := none }

def truncateTail (content : List CodeUnit) (options : TruncationOptions) : TruncationResult :=
  let maxLines := options.maxLines.getD defaultMaxLines
  let maxBytes := options.maxBytes.getD defaultMaxBytes
  let totalBytes := utf8Length content
  let totalLines := countNewlines content + 1
  if totalLines ≤ maxLines ∧ totalBytes ≤ maxBytes then noTruncResult content totalLines totalBytes
  else
    tailResult content maxLines maxBytes totalLines totalBytes
      (tailLoop content maxBytes maxLines ⟨0, 0, content.length, content.length⟩)

section Middle

-- `toLocaleString` of a number follows the host's locale, and `formatBytes` rounds a quotient of floats
variable (toLocaleString formatBytes : Nat → List CodeUnit)

def formatMiddleElisionMarker (elidedLines elidedBytes : Nat) : List CodeUnit :=
  charsUnits ['[', '…', ' '] ++ toLocaleString elidedLines ++ charsUnits " line".toList ++
    (if elidedLines = 1 then [] else charsUnits ['s']) ++ charsUnits " elided (".toList ++
    formatBytes elidedBytes ++
    charsUnits [')', ' ', '…', ']']

inductive ReadSegment
  | lines (content : List CodeUnit) (lines bytes startLine endLine : Nat)
  | partialLine (content : List CodeUnit) (bytes startLine endLine sourceLineBytes : Nat)
  deriving DecidableEq

namespace ReadSegment

def content : ReadSegment → List CodeUnit
  | .lines content .. => content
  | .partialLine content .. => content

def lineCount : ReadSegment → Nat
  | .lines _ count .. => count
  | .partialLine .. => 1

def bytes : ReadSegment → Nat
  | .lines _ _ bytes .. => bytes
  | .partialLine _ bytes .. => bytes

def lastLinePartial : ReadSegment → Bool
  | .lines .. => false
  | .partialLine .. => true

end ReadSegment

inductive WindowKind
  | full
  | headOnly
  | tailOnly
  | middle
  deriving DecidableEq

inductive Overlap
  | disjoint
  | adjacent
  | overlapping
  deriving DecidableEq

structure ReadWindow where
  kind : WindowKind
  head : Option ReadSegment
  tail : Option ReadSegment
  overlap : Overlap
  elidedLines : Nat
  elidedBytes : Nat
  totalLines : Nat
  totalBytes : Nat
  truncatedBy : Option TruncatedBy
  deriving DecidableEq

def outputLineCount (result : TruncationResult) : Nat :=
  result.outputLines.getD (if result.content = [] then 0 else countNewlines result.content + 1)

def outputByteCount (result : TruncationResult) : Nat :=
  result.outputBytes.getD (utf8Length result.content)

def lastSourceLineBytes (content : List CodeUnit) : Nat :=
  utf8Length (content.drop (((lastIndexOf content (content.length - 1)).map (· + 1)).getD 0))

def makeReadSegment (result : TruncationResult) (startLine totalLines : Nat)
    (sourceContent : List CodeUnit) :
    Option ReadSegment :=
  let lines := outputLineCount result
  if lines = 0 then none
  else
    let bytes := outputByteCount result
    let endLine := min totalLines (startLine + lines - 1)
    if result.lastLinePartial = some true then
      some (.partialLine result.content bytes endLine endLine (lastSourceLineBytes sourceContent))
    else some (.lines result.content lines bytes startLine endLine)

def fullReadWindow (content : List CodeUnit) (totalLines totalBytes : Nat)
    (overlap : Overlap) : ReadWindow :=
  ⟨.full, some (.lines content totalLines totalBytes 1 totalLines), none, overlap, 0, 0, totalLines,
    totalBytes, none⟩

structure Shares where
  headBytes : Nat
  tailBytes : Nat
  headLines : Nat
  tailLines : Nat

def shares (options : TruncationOptions) : Shares :=
  let maxBytes := options.maxBytes.getD defaultMaxBytes
  let maxLines := options.maxLines.getD defaultMaxLines
  let headBytes := options.maxHeadBytes.getD (maxBytes / 2)
  let headLines := options.maxHeadLines.getD (max 1 (maxLines / 2))
  ⟨headBytes, maxBytes - headBytes, headLines, maxLines - headLines⟩

def limits (maxLines maxBytes : Nat) : TruncationOptions :=
  ⟨some maxLines, some maxBytes, none, none⟩

def orElse (a b : Nat) : Nat := if a = 0 then b else a

def oneSided (content : List CodeUnit) (totalLines totalBytes : Nat) (kind : WindowKind)
    (result : TruncationResult) (startLine : Nat) : ReadWindow :=
  let segment := makeReadSegment result startLine totalLines content
  { kind := kind
    head := if kind = .headOnly then segment else none
    tail := if kind = .headOnly then none else segment
    overlap := .disjoint
    elidedLines := totalLines - outputLineCount result
    elidedBytes := totalBytes - outputByteCount result
    totalLines := totalLines
    totalBytes := totalBytes
    truncatedBy := some (if result.truncatedBy = some .lines then .lines else .bytes) }

def joinWindows (content : List CodeUnit) (totalLines totalBytes : Nat)
    (head tail : TruncationResult) : ReadWindow :=
  let headEnd := outputLineCount head
  let tailStart := totalLines - outputLineCount tail + 1
  let overlap :=
    if headEnd + 1 < tailStart then .disjoint else if headEnd + 1 = tailStart then .adjacent
      else .overlapping
  let tailPartial := tail.lastLinePartial = some true
  if totalLines ≤ outputLineCount head + outputLineCount tail ∧ ¬tailPartial then
    fullReadWindow content totalLines totalBytes overlap
  else
    match makeReadSegment head 1 totalLines content,
      makeReadSegment tail tailStart totalLines content with
    | some headWindow, some tailWindow =>
      let partialSourceBytes :=
        match tailWindow with
        | .partialLine _ _ _ _ sourceLineBytes => sourceLineBytes
        | .lines _ _ bytes .. => bytes
      { kind := .middle
        head := some headWindow
        tail := some tailWindow
        overlap := overlap
        elidedLines :=
          if tailPartial then tailStart - headEnd - 1
          else totalLines - outputLineCount head - outputLineCount tail
        elidedBytes :=
          if tailPartial then totalBytes - outputByteCount head - partialSourceBytes
          else totalBytes - outputByteCount head - outputByteCount tail
        totalLines := totalLines
        totalBytes := totalBytes
        truncatedBy := some .middle }
    | _, _ => fullReadWindow content totalLines totalBytes overlap

def truncateMiddleWindows (content : List CodeUnit) (options : TruncationOptions) : ReadWindow :=
  let maxBytes := options.maxBytes.getD defaultMaxBytes
  let maxLines := options.maxLines.getD defaultMaxLines
  let share := shares options
  let totalBytes := utf8Length content
  let totalLines := countNewlines content + 1
  if totalBytes ≤ maxBytes ∧
    totalLines ≤ maxLines then fullReadWindow content totalLines totalBytes .disjoint
  else if share.headBytes = 0 ∨ share.headLines = 0 then
    let tail :=
      truncateTail content
        (limits (orElse share.tailLines maxLines) (orElse share.tailBytes maxBytes))
    oneSided content totalLines totalBytes .tailOnly tail (totalLines - outputLineCount tail + 1)
  else
    let head := truncateHead content (limits share.headLines share.headBytes)
    if share.tailBytes = 0 ∨
      share.tailLines = 0 then oneSided content totalLines totalBytes .headOnly head 1
    else
      let tail := truncateTail content (limits share.tailLines share.tailBytes)
      if outputLineCount head = 0 ∨ head.firstLineExceedsLimit = some true then
        oneSided content totalLines totalBytes .tailOnly tail (totalLines - outputLineCount tail + 1)
      else if outputLineCount tail = 0 then oneSided content totalLines totalBytes .headOnly head 1
      else joinWindows content totalLines totalBytes head tail

def composeWindows (content : List CodeUnit) (windows : ReadWindow) (head tail : ReadSegment) :
    TruncationResult :=
  if windows.totalLines ≤ head.lineCount + tail.lineCount then
    noTruncResult content windows.totalLines windows.totalBytes
  else
    let legacyElidedLines := windows.totalLines - head.lineCount - tail.lineCount
    let legacyElidedBytes :=
      match tail with
      | .partialLine .. => windows.totalBytes - head.bytes - tail.bytes
      | .lines .. => windows.elidedBytes
    let marker :=
      formatMiddleElisionMarker toLocaleString formatBytes legacyElidedLines legacyElidedBytes
    { content := head.content ++ nl :: (marker ++ nl :: tail.content)
      truncated := some true
      truncatedBy := some .middle
      totalLines := windows.totalLines
      totalBytes := windows.totalBytes
      outputLines := some (head.lineCount + tail.lineCount + 1)
      outputBytes := some (head.bytes + tail.bytes + utf8Length marker + 2)
      elidedLines := some legacyElidedLines
      elidedBytes := some legacyElidedBytes
      lastLinePartial := some tail.lastLinePartial
      firstLineExceedsLimit := some false
      lastLineExceedsLimit := if tail.lastLinePartial then some true else none }

def truncateMiddle (content : List CodeUnit) (options : TruncationOptions) : TruncationResult :=
  let maxBytes := options.maxBytes.getD defaultMaxBytes
  let maxLines := options.maxLines.getD defaultMaxLines
  let share := shares options
  let windows := truncateMiddleWindows content options
  match windows.kind with
  | .full => noTruncResult content windows.totalLines windows.totalBytes
  | .tailOnly =>
    truncateTail content (limits (orElse share.tailLines maxLines) (orElse share.tailBytes maxBytes))
  | .headOnly => truncateHead content (limits share.headLines share.headBytes)
  | .middle =>
    match windows.head, windows.tail with
    | some head, some tail => composeWindows toLocaleString formatBytes content windows head tail
    | _, _ => noTruncResult content windows.totalLines windows.totalBytes

end Middle

end JevCode.Session.Truncation
