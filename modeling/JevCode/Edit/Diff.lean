import JevCode.Data.InsertionMap
import JevCode.Text.Trim

namespace JevCode.Edit

open JevCode.Text JevCode.Data

structure DiffHunk where
  changeContext : Option String
  oldStartLine : Option Nat
  newStartLine : Option Nat
  hasContextLines : Bool
  oldLines : List String
  newLines : List String
  isEndOfFile : Bool
  deriving DecidableEq

inductive PatchError
  | parse (message : String) (lineNumber : Nat)
  | apply (message : String)
  deriving DecidableEq

def PatchError.message : PatchError → String
  | .parse message lineNumber => s!"Line {lineNumber}: {message}"
  | .apply message => message

def eofMarker : String := "*** End of File"
def changeContextMarker : String := "@@ "
def emptyChangeContextMarker : String := "@@"

def multiFileMarkers : List String :=
  ["*** Update File:", "*** Add File:", "*** Delete File:", "diff --git "]

def diffMetadataPrefixes : List String := [
  "*** Update File:",
  "*** Add File:",
  "*** Delete File:",
  "diff --git ",
  "index ",
  "--- ",
  "+++ ",
  "new file mode ",
  "deleted file mode ",
  "rename from ",
  "rename to ",
  "similarity index ",
  "dissimilarity index ",
  "old mode ",
  "new mode "]

def patchWrapperPrefixes : List String := ["*** Begin Patch", "*** End Patch"]

section Strings

def startsWith (line start : String) : Bool := start.toList.isPrefixOf line.toList

def slice (line : String) (n : Nat) : String := String.ofList (line.toList.drop n)

def trimmed (line : String) : String := String.ofList (trim line.toList)

def trimmedStart (line : String) : String := String.ofList (trimStart line.toList)

def trimmedEnd (line : String) : String := String.ofList (trimEnd line.toList)

def scanNumber (s : List Char) : Option (Nat × List Char) :=
  match s.takeWhile isDigit with
  | [] => none
  | digits => some (digits.foldl (fun n c => 10 * n + (c.toNat - '0'.toNat)) 0, s.dropWhile isDigit)

def scanLiteral (literal : String) (s : List Char) : Option (List Char) :=
  literal.toList.isPrefixOf? s

def scanSpaces (s : List Char) : Option (List Char) :=
  if (s.head?.any isSpace) then some (s.dropWhile isSpace) else none

def scanCount (s : List Char) : Nat × List Char :=
  match (scanLiteral "," s).bind scanNumber with
  | some found => found
  | none => (1, s)

end Strings

def isDiffContentLine (line : String) : Bool :=
  match line.toList with
  | ' ' :: _ => true
  | '+' :: _ => !startsWith line "+++ "
  | '-' :: _ => !startsWith line "--- "
  | _ => false

def matchesTrimmedPrefix (line : String) (prefixes : List String) : Bool :=
  prefixes.any fun start => startsWith line start

def isPatchWrapperLine (line : String) : Bool :=
  line = "***" || matchesTrimmedPrefix line patchWrapperPrefixes

section Normalize

def dropTrailingBlanks (lines : List String) : List String :=
  lines.rdropWhile fun line => line = "" || (trimmed line = "" && !isDiffContentLine line)

def dropFirstWrapper (lines : List String) : List String :=
  match lines with
  | [] => []
  | first :: rest => if isPatchWrapperLine (trimmed first) then rest else first :: rest

def dropLastWrapper (lines : List String) : List String :=
  match lines.getLast? with
  | none => lines
  | some last => if isPatchWrapperLine (trimmed last) then lines.dropLast else lines

/-- The lines `normalizeDiff` does not take for metadata. -/
def isKeptLine (line : String) : Bool :=
  isDiffContentLine line || !matchesTrimmedPrefix (trimmed line) diffMetadataPrefixes

def normalizeDiff (diff : String) : String :=
  joinLines ((dropLastWrapper (dropFirstWrapper (dropTrailingBlanks (splitLines diff)))).filter
    isKeptLine)

end Normalize

section Header

structure UnifiedHunkHeader where
  oldStartLine : Nat
  oldLineCount : Nat
  newStartLine : Nat
  newLineCount : Nat
  changeContext : Option String

def parseUnifiedHunkHeader (line : String) : Option UnifiedHunkHeader := do
  let s ← scanLiteral "@@" line.toList
  let s ← scanLiteral "-" (trimStart s)
  let (oldStartLine, s) ← scanNumber s
  let (oldLineCount, s) := scanCount s
  let s ← scanSpaces s
  let s ← scanLiteral "+" s
  let (newStartLine, s) ← scanNumber s
  let (newLineCount, s) := scanCount s
  let s ← scanLiteral "@@" (trimStart s)
  if (trimStart s).all isDot then
    let changeContext := trimmed (String.ofList (trimStart s))
    some ⟨oldStartLine, oldLineCount, newStartLine, newLineCount,
      if changeContext = "" then none else some changeContext⟩
  else none

def isEmptyContextMarker (line : String) : Bool :=
  match scanLiteral "@@" line.toList with
  | some s => trimStart s = "@@".toList
  | none => false

def matchLineHint (value : String) : Option Nat := do
  let s ← scanLiteral "line" (value.toList.map Char.toLower)
  let s ← scanSpaces ((scanLiteral "s" s).getD s)
  let (line, s) ← scanNumber s
  let s := match (scanLiteral "-" (trimStart s)).bind fun s => scanNumber (trimStart s) with
    | some (_, s) => s
    | none => s
  if s = [] ∨ trimStart s = "@@".toList then some line else none

def isTopOfFile (value : String) : Bool :=
  let s := value.toList.map Char.toLower
  ["top", "start", "beginning"].any fun word =>
    match (scanLiteral word s).bind scanSpaces with
    | some s => ((scanLiteral "of" s).bind scanSpaces) = some "file".toList
    | none => false

structure HunkHeader where
  changeContexts : List String
  oldStartLine : Option Nat
  newStartLine : Option Nat
  startIndex : Nat

def parseChangeContext (contextValue : String) (lineNumber : Nat) : Except PatchError HunkHeader :=
  let trimmedContextValue := trimmed contextValue
  let normalizedContextValue := match scanLiteral "@@" trimmedContextValue.toList with
    | some s => String.ofList (trimStart s)
    | none => trimmedContextValue
  match matchLineHint normalizedContextValue with
  | some line =>
    if line < 1 then .error (.parse "Line hint must be >= 1" lineNumber)
      else .ok ⟨[], some line, some line, 1⟩
  | none =>
    if isTopOfFile normalizedContextValue then .ok ⟨[], some 1, some 1, 1⟩
    else .ok ⟨if trimmedContextValue = "" then [] else [contextValue], none, none, 1⟩

def parseHeaderLine (headerLine : String) (lineNumber : Nat) (allowMissingContext : Bool) :
    Except PatchError HunkHeader :=
  let headerTrimmed := trimmedEnd headerLine
  if startsWith headerLine "@@" then
    if headerTrimmed = emptyChangeContextMarker || isEmptyContextMarker headerTrimmed
      then .ok ⟨[], none, none, 1⟩
    else match parseUnifiedHunkHeader headerTrimmed with
    | some header =>
      if header.oldStartLine < 1 ∨ header.newStartLine < 1 then
        .error (.parse "Line numbers in @@ header must be >= 1" lineNumber)
      else .ok ⟨header.changeContext.toList, some header.oldStartLine, some header.newStartLine, 1⟩
    | none =>
      if startsWith headerTrimmed changeContextMarker then
        parseChangeContext (slice headerTrimmed changeContextMarker.length) lineNumber
      else
        let contextValue := trimmed (slice headerTrimmed 2)
        .ok ⟨if contextValue = "" then [] else [contextValue], none, none, 1⟩
  else if allowMissingContext then .ok ⟨[], none, none, 0⟩
  else .error (.parse s!"Expected hunk to start with @@ context marker, got: '{headerLine}'"
    lineNumber)

/-- The `@@` lines that follow the header directly: the contexts they add and how many they are. -/
def nestedContexts : List String → List String × Nat
  | [] => ([], 0)
  | nextLine :: rest =>
    if startsWith nextLine "@@" then
      let trimmedLine := trimmedEnd nextLine
      if startsWith trimmedLine changeContextMarker then
        let nestedContext := slice trimmedLine changeContextMarker.length
        let (contexts, n) := nestedContexts rest
        (if trimmed nestedContext = "" then contexts else nestedContext :: contexts, n + 1)
      else if trimmedLine = emptyChangeContextMarker then
        let (contexts, n) := nestedContexts rest
        (contexts, n + 1)
      else ([], 0)
    else ([], 0)

end Header

section Strip

/-- `/^\s*(\d{1,6})\s+(.+)$/`: the number and the rest. After spaces only, `.+` takes the last of
them. -/
def matchNumbered (line : String) : Option (Nat × String) := do
  let s := trimStart line.toList
  if 6 < (s.takeWhile isDigit).length then none
  else
    let (number, s) ← scanNumber s
    let spaces := s.takeWhile isSpace
    match s.dropWhile isSpace with
    | [] => match spaces.getLast? with
      | some c => if 2 ≤ spaces.length ∧ isDot c then some (number, String.ofList [c]) else none
      | none => none
    | rest => if spaces ≠ [] ∧ rest.all isDot then some (number, String.ofList rest) else none

def countSequential : List Nat → Nat
  | a :: b :: rest => (if b = a + 1 then 1 else 0) + countSequential (b :: rest)
  | _ => 0

/-- The test before `stripLineNumberPrefixes` strips anything. -/
def looksNumbered (lines : List String) : Bool :=
  let allLines := lines.filter fun line => trimmed line ≠ ""
  let numbers := (allLines.filterMap matchNumbered).map Prod.fst
  2 ≤ allLines.length && max 2 ((3 * allLines.length + 4) / 5) ≤ numbers.length &&
    !(3 ≤ numbers.length && countSequential numbers < max 1 (numbers.length - 2))

def strip (line : String) : String :=
  match matchNumbered line with
  | some (_, rest) => rest
  | none => line

def stripLineNumberPrefixes (hunk : DiffHunk) : DiffHunk :=
  if looksNumbered (hunk.oldLines ++ hunk.newLines) then
    { hunk with oldLines := hunk.oldLines.map strip, newLines := hunk.newLines.map strip }
  else hunk

end Strip

section Body

def DiffHunk.addContext (hunk : DiffHunk) (line : String) : DiffHunk :=
  { hunk with
    hasContextLines := true, oldLines := hunk.oldLines ++ [line], newLines :=
    hunk.newLines ++ [line] }

def parseBody (lineNumber : Nat) : List String → DiffHunk → Nat → Except PatchError (DiffHunk × Nat)
  | [], hunk, parsedLines => .ok (hunk, parsedLines)
  | line :: rest, hunk, parsedLines =>
    if line = "" ∧ 0 < parsedLines ∧
      (rest.head?.any fun next => startsWith (trimmedStart next) "@@") then
      .ok (hunk, parsedLines)
    else if !isDiffContentLine line && trimmedEnd line = eofMarker && startsWith line eofMarker then
      if parsedLines = 0 then .error (.parse "Hunk does not contain any lines" (lineNumber + 1))
      else .ok ({ hunk with isEndOfFile := true }, parsedLines + 1)
    else if trimmed line = "..." ∨ trimmed line = "…" then
      parseBody lineNumber rest { hunk with hasContextLines := true } (parsedLines + 1)
    else match line.toList with
    | [] => parseBody lineNumber rest (hunk.addContext "") (parsedLines + 1)
    | ' ' :: _ => parseBody lineNumber rest (hunk.addContext (slice line 1)) (parsedLines + 1)
    | '+' :: _ =>
      parseBody lineNumber rest { hunk with
        newLines := hunk.newLines ++ [slice line 1] } (parsedLines + 1)
    | '-' :: _ =>
      parseBody lineNumber rest { hunk with
        oldLines := hunk.oldLines ++ [slice line 1] } (parsedLines + 1)
    | _ =>
      if !startsWith line "@@" then parseBody lineNumber rest (hunk.addContext line)
        (parsedLines + 1)
      else if parsedLines = 0 then
        .error (.parse
          s!"Unexpected line in hunk: '{line}'. Lines must start with ' ' (context), '+' (add), or '-' (remove)"
          (lineNumber + 1))
      else .ok (hunk, parsedLines)

structure ParseHunkResult where
  hunk : DiffHunk
  linesConsumed : Nat
  linesConsumed_pos : 0 < linesConsumed

def parseOneHunk (lines : List String) (lineNumber : Nat) (allowMissingContext : Bool) :
    Except PatchError ParseHunkResult :=
  match lines with
  | [] => .error (.parse "Diff does not contain any lines" lineNumber)
  | headerLine :: _ => do
    let header ← parseHeaderLine headerLine lineNumber allowMissingContext
    let (nested, n) := nestedContexts (lines.drop header.startIndex)
    let startIndex := header.startIndex + n
    if lines.length ≤ startIndex
      then throw (.parse "Hunk does not contain any lines" (lineNumber + 1))
    let changeContexts := header.changeContexts ++ nested
    let (hunk, parsedLines) ← parseBody lineNumber (lines.drop startIndex)
      ⟨if changeContexts = [] then none else some (joinLines changeContexts), header.oldStartLine,
      header.newStartLine, false, [], [], false⟩ 0
    if h : parsedLines = 0
      then throw (.parse "Hunk does not contain any lines" (lineNumber + startIndex))
    else return ⟨stripLineNumberPrefixes hunk, parsedLines + startIndex, by omega⟩

end Body

section Files

def dropSide (candidate : List Char) : List Char :=
  match candidate with
  | 'a' :: '/' :: rest => rest
  | 'b' :: '/' :: rest => rest
  | _ => candidate

def extractMarkerPath (line : String) : Option String :=
  if startsWith line "diff --git " then
    let parts := (line.toList.splitOnP isSpace).filter (· ≠ [])
    (parts[3]? <|> parts[2]?).map fun candidate => String.ofList (dropSide candidate)
  else
    (["*** Update File:", "*** Add File:", "*** Delete File:"].find? (startsWith line ·)).map
      fun marker =>
      trimmed (slice line marker.length)

structure MarkerCounts where
  counts : InsertionMap String Nat
  paths : List String

def MarkerCounts.add (found : MarkerCounts) (line : String) : MarkerCounts :=
  if isDiffContentLine line then found
  else match multiFileMarkers.find? (startsWith (trimmed line) ·) with
  | none => found
  | some marker => {
      counts := found.counts.set marker ((found.counts.get? marker).getD 0 + 1)
      paths := match extractMarkerPath (trimmed line) with
        | some filePath =>
          if filePath = "" ∨ filePath ∈ found.paths then found.paths else found.paths ++ [filePath]
        | none => found.paths }

def countMultiFileMarkers (diff : String) : Nat :=
  let found := (splitLines diff).foldl MarkerCounts.add ⟨InsertionMap.empty, []⟩
  if 0 < found.paths.length then found.paths.length
  else (found.counts.entries.map Prod.snd).foldl max 0

end Files

section Hunks

def isUnifiedDiffMetadataLine (line : String) : Bool :=
  matchesTrimmedPrefix line (diffMetadataPrefixes.filter fun start => !startsWith start "*** ")

def parseHunks (lines : List String) (i : Nat) : Except PatchError (List DiffHunk) :=
  match lines with
  | [] => .ok []
  | line :: rest =>
    if trimmed line = "" then parseHunks rest (i + 1)
    else if line.toList.head?.all (· ∉ [' ', '+', '-']) &&
      isUnifiedDiffMetadataLine (trimmed line) then
      parseHunks rest (i + 1)
    else if startsWith (trimmed line) "@@" && rest.all fun next => trimmed next = "" then .ok []
    else do
      let result ← parseOneHunk (line :: rest) (i + 1) true
      let hunks ← parseHunks ((line :: rest).drop result.linesConsumed) (i + result.linesConsumed)
      return result.hunk :: hunks
  termination_by lines.length
  decreasing_by
  · simp
  · simp
  · have := result.linesConsumed_pos
    simp only [List.length_cons, List.length_drop]
    omega

def parseDiffHunks (diff : String) : Except PatchError (List DiffHunk) :=
  let multiFileCount := countMultiFileMarkers diff
  if 1 < multiFileCount then
    .error (.apply
      s!"Diff contains {multiFileCount} file markers. Single-file patches cannot contain multi-file markers.")
  else parseHunks (splitLines (normalizeDiff diff)) 0

end Hunks

inductive DiffLine
  | context (text : String)
  | removed (text : String)
  | added (text : String)
  deriving DecidableEq

namespace DiffLine

def text : DiffLine → String
  | context text | removed text | added text => text

def mark : DiffLine → Char
  | context _ => ' '
  | removed _ => '-'
  | added _ => '+'

def render (line : DiffLine) : String := String.ofList (line.mark :: line.text.toList)

def isContext : DiffLine → Bool
  | context _ => true
  | _ => false

/-- The texts a context line stands for nothing but left-out lines with. -/
def isElision : DiffLine → Bool
  | context text => trimmed text = "..." || trimmed text = "…"
  | _ => false

def old? : DiffLine → Option String
  | context text | removed text => some text
  | added _ => none

def new? : DiffLine → Option String
  | context text | added text => some text
  | removed _ => none

end DiffLine

def renderLines (hunks : List (List DiffLine)) : List String :=
  hunks.flatMap fun hunk => "@@" :: hunk.map DiffLine.render

def renderHunks (hunks : List (List DiffLine)) : String := joinLines (renderLines hunks)

def oldTexts (hunk : List DiffLine) : List String := hunk.filterMap DiffLine.old?

def newTexts (hunk : List DiffLine) : List String := hunk.filterMap DiffLine.new?

def readLines (hunk : List DiffLine) : DiffHunk :=
  let shown := hunk.filter fun line => !line.isElision
  stripLineNumberPrefixes
    ⟨none, none, none, hunk.any DiffLine.isContext, oldTexts shown, newTexts shown, false⟩

/-- A removed `-- x` and an added `++ x` are file headers. -/
def readHunk (hunk : List DiffLine) : DiffHunk :=
  readLines (hunk.filter fun line => isKeptLine line.render)

/-- The diffs whose hunks are all found: no hunk vanishes with its file headers, the last hunk is not
blank, and the last line is not the end of a patch envelope. -/
structure Legible (hunks : List (List DiffLine)) : Prop where
  nonempty : hunks ≠ []
  oneLine : ∀ hunk ∈ hunks, ∀ line ∈ hunk, '\n' ∉ line.text.toList
  kept : ∀ hunk ∈ hunks, ∃ line ∈ hunk, isKeptLine line.render = true
  notBlank : ∀ hunk ∈ hunks.getLast?, ∃ line ∈ hunk, isKeptLine line.render = true ∧
    trimmed line.render ≠ ""
  notWrapper : ∀ hunk ∈ hunks.getLast?, ∀ line ∈ hunk.getLast?,
    isPatchWrapperLine (trimmed line.render) = false

theorem trim_space_cons (cs : List Char) : trim (' ' :: cs) = trim cs := rfl

namespace DiffLine

@[simp] theorem toList_render (line : DiffLine) :
    line.render.toList = line.mark :: line.text.toList := by
  simp [render]

@[simp] theorem slice_render (line : DiffLine) : slice line.render 1 = line.text := by
  simp [slice]

theorem render_ne_empty (line : DiffLine) : line.render ≠ "" := by
  intro h
  have := congrArg String.toList h
  simp at this

theorem mark_cases (line : DiffLine) : line.mark = ' ' ∨ line.mark = '-' ∨ line.mark = '+' := by
  cases line <;> simp [mark]

theorem startsWith_render_eq_false (line : DiffLine) {start : String}
    (h : start.toList.head?.all (· ∉ [' ', '-', '+'])) (hne : start ≠ "") :
    startsWith line.render start = false := by
  cases hs : start.toList with
  | nil => exact absurd (String.toList_inj.mp hs) hne
  | cons c cs =>
    simp only [hs, List.head?_cons, Option.all_some, decide_eq_true_eq] at h
    have hc : (c == line.mark) = false := by
      rw [beq_eq_false_iff_ne]
      rintro rfl
      rcases line.mark_cases with hm | hm | hm <;> simp [hm] at h
    simp [startsWith, hs, List.isPrefixOf, hc]

theorem trimmed_removed (text : String) :
    (trimmed (removed text).render).toList = '-' :: trimEnd text.toList := by
  simp only [trimmed, toList_render, String.toList_ofList]
  exact trim_cons rfl _

theorem trimmed_added (text : String) :
    (trimmed (added text).render).toList = '+' :: trimEnd text.toList := by
  simp only [trimmed, toList_render, String.toList_ofList]
  exact trim_cons rfl _

theorem trimmed_context (text : String) : trimmed (context text).render = trimmed text := by
  simp only [trimmed, toList_render]
  exact congrArg String.ofList (trim_space_cons _)

theorem newline_notMem_render {line : DiffLine} (h : '\n' ∉ line.text.toList) :
    '\n' ∉ line.render.toList := by
  rw [toList_render, List.mem_cons, not_or]
  refine ⟨?_, h⟩
  rcases line.mark_cases with hm | hm | hm <;> simp [hm]

theorem isDiffContentLine_of_blank {line : DiffLine} (h : trimmed line.render = "") :
    isDiffContentLine line.render = true := by
  cases line with
  | context text => simp [isDiffContentLine, mark]
  | removed text => simpa [h] using trimmed_removed text
  | added text => simpa [h] using trimmed_added text

theorem isElided_iff (line : DiffLine) :
    (trimmed line.render = "..." ∨ trimmed line.render = "…") ↔ line.isElision = true := by
  cases line with
  | context text => simp [trimmed_context, isElision]
  | removed text =>
    have h := trimmed_removed text
    constructor
    · rintro (h' | h') <;> simp [h'] at h
    · simp [isElision]
  | added text =>
    have h := trimmed_added text
    constructor
    · rintro (h' | h') <;> simp [h'] at h
    · simp [isElision]

end DiffLine

section Markers

theorem startsWith_eq_false {line start : String} {c d : Char} {cs ds : List Char}
    (hl : line.toList = c :: cs) (hs : start.toList = d :: ds) (h : d ≠ c) :
    startsWith line start = false := by
  simp [startsWith, hl, hs, List.isPrefixOf, h]

theorem find?_multiFileMarkers {line : String} {c : Char} {cs : List Char}
    (hl : line.toList = c :: cs) (hc : c ≠ '*' ∧ c ≠ 'd') :
    multiFileMarkers.find? (startsWith line ·) = none := by
  simp only [multiFileMarkers, List.find?_eq_none, List.forall_mem_cons, Bool.not_eq_true]
  refine ⟨?_, ?_, ?_, ?_, fun _ h => nomatch h⟩
  · exact startsWith_eq_false hl rfl hc.1.symm
  · exact startsWith_eq_false hl rfl hc.1.symm
  · exact startsWith_eq_false hl rfl hc.1.symm
  · exact startsWith_eq_false hl rfl hc.2.symm

theorem MarkerCounts.add_render (found : MarkerCounts) (line : DiffLine) :
    found.add line.render = found := by
  unfold MarkerCounts.add
  split
  · rfl
  · rename_i hcontent
    cases line with
    | context text => simp [isDiffContentLine, DiffLine.mark] at hcontent
    | removed text => rw [find?_multiFileMarkers (DiffLine.trimmed_removed text) (by decide)]
    | added text => rw [find?_multiFileMarkers (DiffLine.trimmed_added text) (by decide)]

theorem MarkerCounts.add_header (found : MarkerCounts) : found.add "@@" = found := rfl

theorem foldl_add_renderLines (found : MarkerCounts) (hunks : List (List DiffLine)) :
    (renderLines hunks).foldl MarkerCounts.add found = found := by
  induction hunks with
  | nil => rfl
  | cons hunk hunks ih =>
    have hhunk : (hunk.map DiffLine.render).foldl MarkerCounts.add found = found := by
      induction hunk with
      | nil => rfl
      | cons line hunk ih' => simpa [MarkerCounts.add_render] using ih'
    simp only [renderLines, List.flatMap_cons, List.foldl_append, List.foldl_cons] at ih ⊢
    rw [MarkerCounts.add_header, hhunk, ih]

end Markers

section Normalize

theorem splitLines_joinLines_renderLines {hunks : List (List DiffLine)} (hne : hunks ≠ [])
    (h : ∀ hunk ∈ hunks, ∀ line ∈ hunk, '\n' ∉ line.text.toList) :
    splitLines (joinLines (renderLines hunks)) = renderLines hunks := by
  have hlines : renderLines hunks ≠ [] := by
    cases hunks with
    | nil => contradiction
    | cons hunk hunks => simp [renderLines]
  rw [splitLines_joinLines hlines, flatMap_splitLines_of_notMem]
  intro l hl
  obtain ⟨hunk, hhunk, hl⟩ := List.mem_flatMap.mp hl
  rcases List.mem_cons.mp hl with rfl | hl
  · decide
  · obtain ⟨line, hline, rfl⟩ := List.mem_map.mp hl
    exact DiffLine.newline_notMem_render (h hunk hhunk line hline)

theorem countMultiFileMarkers_renderHunks {hunks : List (List DiffLine)} (h : Legible hunks) :
    countMultiFileMarkers (renderHunks hunks) = 0 := by
  simp only [countMultiFileMarkers, renderHunks,
    splitLines_joinLines_renderLines h.nonempty h.oneLine, foldl_add_renderLines]
  rfl

theorem Legible.exists_last {hunks : List (List DiffLine)} (h : Legible hunks) :
    ∃ (init : List String) (line : DiffLine), renderLines hunks = init ++ [line.render] ∧
      isPatchWrapperLine (trimmed line.render) = false := by
  have hlast : hunks.getLast h.nonempty ∈ hunks.getLast? := by
    simp [List.getLast?_eq_some_getLast h.nonempty]
  generalize hunks.getLast h.nonempty = hunk at hlast
  obtain ⟨front, rfl⟩ := List.getLast?_eq_some_iff.mp hlast
  obtain ⟨kept, hkept, -⟩ := h.kept hunk (by simp)
  have hne : hunk ≠ [] := List.ne_nil_of_mem hkept
  have hline : hunk.getLast hne ∈ hunk.getLast? := by simp [List.getLast?_eq_some_getLast hne]
  generalize hunk.getLast hne = line at hline
  have hwrapper := h.notWrapper hunk hlast line hline
  obtain ⟨lines, rfl⟩ := List.getLast?_eq_some_iff.mp hline
  refine ⟨renderLines front ++ "@@" :: lines.map DiffLine.render, line, ?_, hwrapper⟩
  simp [renderLines]

theorem dropTrailingBlanks_concat_render (init : List String) (line : DiffLine) :
    dropTrailingBlanks (init ++ [line.render]) = init ++ [line.render] := by
  unfold dropTrailingBlanks
  rw [List.rdropWhile_concat_neg]
  intro h
  rcases Bool.or_eq_true _ _ ▸ h with h | h
  · exact line.render_ne_empty (of_decide_eq_true h)
  · rw [Bool.and_eq_true, decide_eq_true_eq] at h
    rw [DiffLine.isDiffContentLine_of_blank h.1] at h
    exact absurd h.2 (by decide)

theorem dropFirstWrapper_header (rest : List String) :
    dropFirstWrapper ("@@" :: rest) = "@@" :: rest := rfl

theorem dropWrappers_renderLines {hunks : List (List DiffLine)} (h : Legible hunks) :
    dropLastWrapper (dropFirstWrapper (dropTrailingBlanks (renderLines hunks))) =
      renderLines hunks := by
  obtain ⟨init, line, hlines, hwrapper⟩ := h.exists_last
  have hfirst : dropFirstWrapper (renderLines hunks) = renderLines hunks := by
    cases hunks with
    | nil => rfl
    | cons hunk hunks => exact dropFirstWrapper_header _
  have htrailing : dropTrailingBlanks (renderLines hunks) = renderLines hunks := by
    rw [hlines, dropTrailingBlanks_concat_render]
  rw [htrailing, hfirst, dropLastWrapper, hlines, List.getLast?_concat]
  simp [hwrapper]

theorem filter_renderLines (hunks : List (List DiffLine)) :
    (renderLines hunks).filter isKeptLine =
      renderLines (hunks.map (·.filter fun line => isKeptLine line.render)) := by
  have hheader : isKeptLine "@@" = true := rfl
  induction hunks with
  | nil => rfl
  | cons hunk hunks ih =>
    simp only [renderLines, List.flatMap_cons, List.map_cons, List.cons_append,
      List.filter_cons, hheader, if_true, List.filter_append, List.filter_map,
      Function.comp_def] at ih ⊢
    rw [ih]

theorem splitLines_normalizeDiff_renderHunks {hunks : List (List DiffLine)} (h : Legible hunks) :
    splitLines (normalizeDiff (renderHunks hunks)) =
      renderLines (hunks.map (·.filter fun line => isKeptLine line.render)) := by
  rw [normalizeDiff, renderHunks, splitLines_joinLines_renderLines h.nonempty h.oneLine,
    dropWrappers_renderLines h, filter_renderLines, splitLines_joinLines_renderLines]
  · simpa using h.nonempty
  · intro hunk hhunk line hline
    obtain ⟨hunk', hhunk', rfl⟩ := List.mem_map.mp hhunk
    exact h.oneLine hunk' hhunk' line (List.mem_of_mem_filter hline)

end Normalize

section Parse

def DiffHunk.addLine (hunk : DiffHunk) (line : DiffLine) : DiffHunk :=
  if line.isElision then { hunk with hasContextLines := true }
  else match line with
  | .context text => hunk.addContext text
  | .removed text => { hunk with oldLines := hunk.oldLines ++ [text] }
  | .added text => { hunk with newLines := hunk.newLines ++ [text] }

theorem parseBody_render (lineNumber : Nat) (line : DiffLine) (rest : List String)
    (hunk : DiffHunk) (n : Nat) :
    parseBody lineNumber (line.render :: rest) hunk n =
      parseBody lineNumber rest (hunk.addLine line) (n + 1) := by
  have heof : startsWith line.render eofMarker = false :=
    line.startsWith_render_eq_false (by decide) (by decide)
  rw [parseBody, if_neg (by simp [line.render_ne_empty]), if_neg (by simp [heof])]
  simp only [line.isElided_iff]
  cases line with
  | context text =>
    unfold DiffHunk.addLine
    split
    · rfl
    · simp [DiffLine.mark, DiffLine.text]
  | removed text => simp [DiffHunk.addLine, DiffLine.isElision, DiffLine.mark, DiffLine.text]
  | added text => simp [DiffHunk.addLine, DiffLine.isElision, DiffLine.mark, DiffLine.text]

theorem parseBody_map_render (lineNumber : Nat) (lines : List DiffLine) (rest : List String)
    (hunk : DiffHunk) (n : Nat) :
    parseBody lineNumber (lines.map DiffLine.render ++ rest) hunk n =
      parseBody lineNumber rest (lines.foldl DiffHunk.addLine hunk) (n + lines.length) := by
  induction lines generalizing hunk n with
  | nil => rfl
  | cons line lines ih =>
    rw [List.map_cons, List.cons_append, parseBody_render, ih, List.foldl_cons, List.length_cons]
    congr 1
    omega

theorem parseBody_renderLines (lineNumber : Nat) (hunks : List (List DiffLine)) (hunk : DiffHunk)
    {n : Nat} (hn : 0 < n) :
    parseBody lineNumber (renderLines hunks) hunk n = .ok (hunk, n) := by
  cases hunks with
  | nil => rfl
  | cons lines hunks =>
    have h0 : n ≠ 0 := by omega
    have htrim : trimmed "@@" = "@@" := rfl
    have hstart : startsWith "@@" "@@" = true := rfl
    have heof : startsWith "@@" eofMarker = false := rfl
    simp [renderLines, parseBody, htrim, hstart, heof, h0]

theorem foldl_addLine (lines : List DiffLine) (hunk : DiffHunk) :
    lines.foldl DiffHunk.addLine hunk =
      { hunk with
        hasContextLines := hunk.hasContextLines || lines.any DiffLine.isContext
        oldLines := hunk.oldLines ++ oldTexts (lines.filter fun line => !line.isElision)
        newLines := hunk.newLines ++ newTexts (lines.filter fun line => !line.isElision) } := by
  induction lines generalizing hunk with
  | nil => simp [oldTexts, newTexts]
  | cons line lines ih =>
    rw [List.foldl_cons, ih]
    cases line with
    | context text =>
      by_cases h : (DiffLine.context text).isElision
      · simp [DiffHunk.addLine, h, DiffLine.isContext]
      · simp [DiffHunk.addLine, h, DiffLine.isContext, DiffHunk.addContext, oldTexts, newTexts,
          DiffLine.old?, DiffLine.new?]
    | removed text =>
      have h : (DiffLine.removed text).isElision = false := rfl
      simp [DiffHunk.addLine, h, DiffLine.isContext, oldTexts, newTexts, List.filterMap_cons,
        DiffLine.old?, DiffLine.new?]
    | added text =>
      have h : (DiffLine.added text).isElision = false := rfl
      simp [DiffHunk.addLine, h, DiffLine.isContext, oldTexts, newTexts, List.filterMap_cons,
        DiffLine.old?, DiffLine.new?]

theorem nestedContexts_render (line : DiffLine) (rest : List String) :
    nestedContexts (line.render :: rest) = ([], 0) := by
  have h : startsWith line.render "@@" = false :=
    line.startsWith_render_eq_false (by decide) (by decide)
  simp [nestedContexts, h]

theorem parseOneHunk_renderLines (lines : List DiffLine) (hne : lines ≠ [])
    (hunks : List (List DiffLine)) (lineNumber : Nat) :
    parseOneHunk ("@@" :: lines.map DiffLine.render ++ renderLines hunks) lineNumber true =
      .ok ⟨readLines lines, lines.length + 1, by omega⟩ := by
  have hheader : parseHeaderLine "@@" lineNumber true = .ok ⟨[], none, none, 1⟩ := rfl
  have hnested : nestedContexts (lines.map DiffLine.render ++ renderLines hunks) = ([], 0) := by
    cases lines with
    | nil => contradiction
    | cons line lines => exact nestedContexts_render line _
  have hpos : 0 < lines.length := List.length_pos_of_ne_nil hne
  have hbody : ∀ hunk, parseBody lineNumber (lines.map DiffLine.render ++ renderLines hunks) hunk 0 =
      .ok (lines.foldl DiffHunk.addLine hunk, lines.length) := by
    intro hunk
    rw [parseBody_map_render, parseBody_renderLines _ _ _ (by omega), Nat.zero_add]
  simp [parseOneHunk, hheader, bind, Except.bind, hnested, hbody, foldl_addLine, readLines, hne,
    pure, Except.pure]

theorem drop_renderLines_cons (lines : List DiffLine) (hunks : List (List DiffLine)) :
    ("@@" :: lines.map DiffLine.render ++ renderLines hunks).drop
    (lines.length + 1) = renderLines hunks := by
  rw [List.cons_append, List.drop_succ_cons, List.drop_left' (by simp)]

theorem parseHunks_renderLines_cons {lines : List DiffLine} (hne : lines ≠ [])
    {hunks : List (List DiffLine)} {i : Nat}
    (h : hunks = [] → ∃ line ∈ lines, trimmed line.render ≠ "") :
    parseHunks (renderLines (lines :: hunks)) i =
      (parseHunks (renderLines hunks) (i + (lines.length + 1))).map (readLines lines :: ·) := by
  have hlines : renderLines (lines :: hunks) = "@@" :: lines.map DiffLine.render ++
      renderLines hunks := rfl
  have hrest : ((lines.map DiffLine.render ++ renderLines hunks).all fun next => trimmed next = "") =
      false := by
    cases hunks with
    | nil =>
      obtain ⟨line, hline, hblank⟩ := h rfl
      simp only [List.all_eq_false, List.mem_append, List.mem_map]
      exact ⟨line.render, .inl ⟨line, hline, rfl⟩, by simpa using hblank⟩
    | cons lines' hunks =>
      simp only [List.all_eq_false, List.mem_append]
      exact ⟨"@@", .inr List.mem_cons_self, by decide⟩
  have hparse := parseOneHunk_renderLines lines hne hunks (i + 1)
  have hdrop := drop_renderLines_cons lines hunks
  have hblank : trimmed "@@" ≠ "" := by decide
  have hmetadata : isUnifiedDiffMetadataLine (trimmed "@@") = false := rfl
  rw [List.cons_append] at hlines hparse hdrop
  rw [hlines, parseHunks, if_neg hblank, hmetadata, Bool.and_false, if_neg (by decide), hrest,
    Bool.and_false, if_neg (by decide), hparse]
  simp only [bind, Except.bind, hdrop]
  cases parseHunks (renderLines hunks) (i + (lines.length + 1)) <;> rfl

theorem parseHunks_renderLines {hunks : List (List DiffLine)} (hne : ∀ lines ∈ hunks, lines ≠ [])
    (hlast : ∀ lines ∈ hunks.getLast?, ∃ line ∈ lines, trimmed line.render ≠ "") (i : Nat) :
    parseHunks (renderLines hunks) i = .ok (hunks.map readLines) := by
  induction hunks generalizing i with
  | nil => simp [renderLines, parseHunks]
  | cons lines hunks ih =>
    rw [parseHunks_renderLines_cons (hne lines (by simp)), ih]
    · rfl
    · exact fun lines' h => hne lines' (List.mem_cons_of_mem _ h)
    · intro lines' h
      apply hlast lines'
      rw [Option.mem_def] at h ⊢
      rw [List.getLast?_cons, h]
      rfl
    · rintro rfl
      exact hlast lines rfl

end Parse

/-- A legible diff is read hunk by hunk; a hunk without file headers, elisions and line numbers is
read as it was written. -/
theorem parseDiffHunks_renderHunks {hunks : List (List DiffLine)} (h : Legible hunks) :
    parseDiffHunks (renderHunks hunks) = .ok (hunks.map readHunk) ∧
      ∀ hunk ∈ hunks, (∀ line ∈ hunk, isKeptLine line.render = true ∧ line.isElision = false) →
        looksNumbered (oldTexts hunk ++ newTexts hunk) = false →
        (readHunk hunk).oldLines = oldTexts hunk ∧ (readHunk hunk).newLines = newTexts hunk := by
  constructor
  · have hkept : ∀ lines ∈ hunks.map (·.filter fun line => isKeptLine line.render), lines ≠ [] := by
      intro lines hlines
      obtain ⟨hunk, hhunk, rfl⟩ := List.mem_map.mp hlines
      obtain ⟨line, hline, hk⟩ := h.kept hunk hhunk
      exact List.ne_nil_of_mem (List.mem_filter.mpr ⟨hline, hk⟩)
    rw [parseDiffHunks, countMultiFileMarkers_renderHunks h, splitLines_normalizeDiff_renderHunks h,
      if_neg (by decide), parseHunks_renderLines hkept]
    · simp [readHunk, Function.comp_def]
    · intro lines hlines
      rw [List.getLast?_map, Option.mem_def, Option.map_eq_some_iff] at hlines
      obtain ⟨hunk, hhunk, rfl⟩ := hlines
      obtain ⟨line, hline, hk, hblank⟩ := h.notBlank hunk hhunk
      exact ⟨line, List.mem_filter.mpr ⟨hline, hk⟩, hblank⟩
  · intro hunk _ hplain hnumbers
    have hkept : (hunk.filter fun line => isKeptLine line.render) = hunk :=
      List.filter_eq_self.mpr fun line hline => (hplain line hline).1
    have hshown : (hunk.filter fun line => !line.isElision) = hunk :=
      List.filter_eq_self.mpr fun line hline => by simp [(hplain line hline).2]
    simp [readHunk, readLines, hkept, hshown, stripLineNumberPrefixes, hnumbers]

theorem renamed_call_read_back :
    let hunks : List (List DiffLine) :=
      [[.context "f() \x7b", .removed "  g();", .added "  h();", .context ""],
        [.added "-- done", .removed "2 x"]]
    Legible hunks ∧ parseDiffHunks (renderHunks hunks) = .ok (hunks.map readHunk) ∧
      hunks.map (fun hunk => (readHunk hunk).oldLines) = hunks.map oldTexts ∧
      hunks.map (fun hunk => (readHunk hunk).newLines) = hunks.map newTexts := by
  intro hunks
  have h : Legible hunks :=
    ⟨by decide, by decide, by decide +kernel, by decide +kernel, by decide +kernel⟩
  have hread := (parseDiffHunks_renderHunks h).2
  refine ⟨h, (parseDiffHunks_renderHunks h).1, List.map_congr_left ?_, List.map_congr_left ?_⟩
  · have hold : ∀ hunk ∈ hunks, (readHunk hunk).oldLines = oldTexts hunk := by
      intro hunk hhunk
      refine (hread hunk hhunk ?_ ?_).1
      · revert hunk
        decide +kernel
      · revert hunk
        decide +kernel
    exact hold
  · decide +kernel

theorem dots_are_not_read_back :
    ¬ ∀ hunks : List (List DiffLine), hunks ≠ [] →
      (∀ hunk ∈ hunks, hunk ≠ [] ∧ ∀ line ∈ hunk, '\n' ∉ line.text.toList) →
      ∃ parsed, parseDiffHunks (renderHunks hunks) = .ok parsed ∧
        parsed.map (·.oldLines) = hunks.map oldTexts ∧
          parsed.map (·.newLines) = hunks.map newTexts := by
  intro h
  obtain ⟨parsed, hparsed, hold, -⟩ := h [[.context "...", .added "x"]] (by decide) (by decide)
  have hcode : parseDiffHunks (renderHunks [[.context "...", .added "x"]]) =
      .ok [⟨none, none, none, true, [], ["x"], false⟩] := by decide +kernel
  rw [hcode, Except.ok.injEq] at hparsed
  subst hparsed
  exact absurd hold (by decide)

end JevCode.Edit
