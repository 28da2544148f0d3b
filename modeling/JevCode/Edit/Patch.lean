import JevCode.Edit.HunkVariants
import JevCode.Edit.LineIndentation
import JevCode.Edit.Replace
import JevCode.Edit.Seek
import Mathlib.Data.List.Sort
import Mathlib.Data.Rat.Floor

namespace JevCode.Edit

open JevCode.Text JevCode.Data

structure Replacement where
  startIndex : Nat
  oldLen : Nat
  newLines : List String
  deriving DecidableEq

structure PatchedContent where
  content : String
  warnings : List String := []
  deriving DecidableEq

def ambiguityHintWindow : Nat := 200
def matchPreviewContext : Nat := 2
def matchPreviewMaxLen : Nat := 80

def percent (confidence : ℚ) : Int := ⌊confidence * 100 + 1 / 2⌋

def SearchResult.isAmbiguous (result : SearchResult) : Bool := result.matchCount.any fun n =>
  decide (1 < n)

def formatSequenceMatchPreview (lines : List String) (startIdx : Nat) : String :=
  formatPreviewWindow lines startIdx matchPreviewContext matchPreviewMaxLen

def formatSequenceMatchPreviews (lines : List String) (matchIndices : Option (List Nat))
    (matchCount : Option Nat) :
    Option String :=
  match matchIndices.getD [] with
  | [] => none
  | indices =>
    let previews := "\n\n".intercalate (indices.map (formatSequenceMatchPreview lines))
    let moreMsg :=
      if indices.length < matchCount.getD 0
        then s!" (showing first {indices.length} of {matchCount.getD 0})" else ""
    some (previews ++ moreMsg)

def chooseHintedMatch (matchIndices : Option (List Nat)) (hintIndex : Option Nat)
    (window : Nat) : Option Nat :=
  match hintIndex with
  | none => none
  | some hint =>
    match (matchIndices.getD []).filter fun i => i ≤ hint + window && hint ≤ i + window with
    | [i] => some i
    | _ => none

def getHunkHintIndex (hunk : DiffHunk) (currentIndex : Nat) : Option Nat :=
  hunk.oldStartLine.bind fun line => if currentIndex ≤ line - 1 then some (line - 1) else none

def findContextRelativeMatch (lines : List String) (patternLine : String) (contextIndex : Nat)
    (preferSecondForwardMatch : Bool) : Option Nat :=
  let same (i : Nat) : Bool := trimmed (lines.getD i "") = trimmed patternLine
  match collectIndexedMatches (contextIndex + 1) lines.length same with
  | [] => (collectIndexedMatches 0 (min contextIndex lines.length) same).getLast?
  | [first] => some first
  | first :: second :: _ => some (if preferSecondForwardMatch then second else first)

section

variable (tools : MatchTools) (lines : List String) (allowFuzzy : Bool)

def findHintedContext (part : String) (lineHint : Nat) : Option SearchResult :=
  let hintedResult := findContextLine tools lines part (lineHint - 1) allowFuzzy
  hintedResult.index.map fun i =>
    { hintedResult with matchCount := some 1, matchIndices := some [i] }

def findNestedContext (lineHint : Option Nat) : Nat → List String → SearchResult
  | _, [] => {}
  | currentStart, part :: rest =>
    let result := findContextLine tools lines part currentStart allowFuzzy
    let hinted : Option SearchResult :=
      lineHint.bind fun hint =>
        if rest = [] && currentStart ≤ hint - 1 then findHintedContext tools lines allowFuzzy part
          hint else none
    if result.isAmbiguous then hinted.getD { result with index := none }
    else
      match result.index with
      | none => hinted.getD { confidence := result.confidence }
      | some i => if rest = [] then result else findNestedContext lineHint (i + 1) rest

def innerContext (innerResult : SearchResult) : Option SearchResult :=
  match innerResult.index with
  | some i =>
    some (if innerResult.isAmbiguous then { innerResult with
      matchCount := some 1, matchIndices := some [i] }
      else innerResult)
  | none => if innerResult.isAmbiguous then some { innerResult with matchCount := some 1 } else none

def spaceParts (context : String) : List String :=
  ((context.toList.splitOnP isSpace).filter (· ≠ [])).map String.ofList

def hasSignatureChars (context : String) : Bool :=
  context.toList.any fun c => c ∈ ['(', ')', '\x7b', '\x7d', '[', ']']

def findOuterInner (context : String) (startFrom : Nat) : SearchResult × Option SearchResult :=
  let parts := spaceParts context
  let outerResult :=
    findContextLine tools lines (" ".intercalate parts.dropLast) startFrom allowFuzzy
  (outerResult, outerResult.index.bind fun i =>
    innerContext (findContextLine tools lines (parts.getLastD "") (i + 1) allowFuzzy))

def findFlatContext (context : String) (startFrom : Nat) (lineHint : Option Nat) : SearchResult :=
  let result := findContextLine tools lines context startFrom allowFuzzy
  let hinted : Option SearchResult :=
    if result.index.isNone || result.isAmbiguous then
      lineHint.bind fun hint => findHintedContext tools lines allowFuzzy context hint
    else none
  match hinted with
  | some hintedResult => hintedResult
  | none =>
    if result.index.isSome || result.isAmbiguous then result
    else
      let fromStartResult := findContextLine tools lines context 0 allowFuzzy
      if startFrom ≠ 0 && (fromStartResult.index.isSome || fromStartResult.isAmbiguous)
        then fromStartResult
      else if !hasSignatureChars context && 1 < (spaceParts context).length then
        match findOuterInner tools lines allowFuzzy context startFrom with
        | (outerResult, inner) =>
          if outerResult.isAmbiguous then { outerResult with index := none }
          else if outerResult.index.isNone then { confidence := outerResult.confidence }
          else inner.getD result
      else result

def findHierarchicalContext (context : String) (startFrom : Nat) (lineHint : Option Nat) :
    SearchResult :=
  if '\n' ∈ context.toList then
    findNestedContext tools lines allowFuzzy lineHint startFrom
      (((splitLines context).map trimmed).filter (· ≠ ""))
  else if !hasSignatureChars context && 2 < (spaceParts context).length then
    match findOuterInner tools lines allowFuzzy context startFrom with
    | (outerResult, inner) =>
      if outerResult.isAmbiguous then { outerResult with index := none }
      else inner.getD (findFlatContext tools lines allowFuzzy context startFrom lineHint)
  else findFlatContext tools lines allowFuzzy context startFrom lineHint

def SearchResult.isFound (result : SearchResult) : Bool := result.index.isSome || result.isAmbiguous

def SearchResult.isUnique (result : SearchResult) : Bool :=
  result.index.isSome && !result.isAmbiguous

def findSequenceWithHint (pattern : List String) (currentIndex : Nat) (hintIndex : Option Nat)
    (eof : Bool) :
    SearchResult :=
  let primaryResult := seekSequence tools lines pattern currentIndex eof allowFuzzy
  let hintedResult : Option SearchResult :=
    hintIndex.bind fun hint =>
      if hint ≠ currentIndex
        then some (seekSequence tools lines pattern hint eof allowFuzzy) else none
  let fromHint := if hintedResult.any SearchResult.isFound then hintedResult else none
  let fromStart : Option SearchResult :=
    let fromStartResult := seekSequence tools lines pattern 0 eof allowFuzzy
    if currentIndex ≠ 0 && fromStartResult.isFound then some fromStartResult else none
  if primaryResult.isAmbiguous then fromHint.getD primaryResult
  else if primaryResult.index.isSome then primaryResult
  else (fromHint <|> fromStart).getD primaryResult

def attemptSequenceFallback (hunk : DiffHunk) (currentIndex : Nat) (lineHint : Option Nat)
    (allowAggressiveFallbacks : Bool) : Option Nat :=
  if hunk.oldLines = [] then none
  else
    let hint := getHunkHintIndex hunk currentIndex <|> lineHint
    let fallbackResult :=
      findSequenceWithHint tools lines allowFuzzy hunk.oldLines currentIndex hint false
    if fallbackResult.isUnique then
      fallbackResult.index.bind fun i =>
        if i + 1 ≤ lines.length - hunk.oldLines.length &&
            (seekSequence tools lines hunk.oldLines (i + 1) false allowFuzzy).index.isSome then none
        else some i
    else
      (filterFallbackVariants (buildFallbackVariants hunk) allowAggressiveFallbacks).findSome?
        fun variant =>
        let variantResult :=
          findSequenceWithHint tools lines allowFuzzy variant.oldLines currentIndex hint false
        if variant.oldLines ≠ [] && variantResult.isUnique then variantResult.index else none

variable (path : String)

def checkLineHint (lineHint : Option Nat) : Except PatchError Unit :=
  match lineHint with
  | some 0 => .error (.apply s!"Line hint 0 is out of range for {path} (line numbers start at 1)")
  | _ => .ok ()

def strategyHint (result : SearchResult) : String :=
  (result.strategy.map fun strategy => s!" Matching strategy: {strategy.text}.").getD ""

def previewText (result : SearchResult) : String :=
  ((formatSequenceMatchPreviews lines result.matchIndices result.matchCount).map fun previews =>
    s!"\n\n{previews}").getD ""

def ambiguousError (what : String) (result : SearchResult) : PatchError :=
  .apply (s!"Found {result.matchCount.getD 0} matches for {what} in {path}.{strategyHint result}{previewText lines result}" ++
    "\n\nAdd more surrounding context or additional @@ anchors to make it unique.")

def locateContext (hunk : DiffHunk) (lineIndex : Nat) (allowAggressiveFallbacks : Bool) :
    Except PatchError (Option Nat × Nat) :=
  match hunk.changeContext with
  | none => .ok (none, lineIndex)
  | some context =>
    let result := findHierarchicalContext tools lines allowFuzzy context lineIndex hunk.oldStartLine
    let contextLines := splitLines context
    match result.index, result.isAmbiguous with
    | some i, false =>
      let finalContext := trimmed (contextLines.getLastD "")
      let isHierarchicalContext :=
        '\n' ∈ context.toList || 2 < (trimmed context |> spaceParts).length
      .ok (some i,
        if hunk.oldLines.head?.any fun first =>
        trimmed first = finalContext || isHierarchicalContext then i else i + 1)
    | index, isAmbiguous =>
      match attemptSequenceFallback tools lines allowFuzzy hunk lineIndex hunk.oldStartLine
        allowAggressiveFallbacks with
      | some fallback => .ok (index, fallback)
      | none =>
        let innermost := contextLines.getLastD ""
        let displayContext := " > ".intercalate contextLines
        if isAmbiguous then .error (ambiguousError lines path s!"context \x27{innermost}\x27" result)
        else .error (.apply s!"Failed to find context \x27{displayContext}\x27 in {path}")

def insertionIndex (hunk : DiffHunk) (lineIndex : Nat) : Except PatchError Nat :=
  if hunk.changeContext.isSome then .ok lineIndex
  else
    match hunk.oldStartLine <|> hunk.newStartLine with
    | some hint =>
      if hint < 1 then
        .error (.apply s!"Line hint {hint} is out of range for insertion in {path} (line numbers start at 1)")
      else if lines.length + 1 < hint then
        .error (.apply s!"Line hint {hint} is out of range for insertion in {path} (file has {lines.length} lines)")
      else .ok (hint - 1)
    | none => .ok (if lines.getLast? = some "" then lines.length - 1 else lines.length)

structure HunkSearch where
  pattern : List String
  newSlice : List String
  result : SearchResult

def searchOldLines (hunk : DiffHunk) (lineIndex : Nat) : HunkSearch :=
  let search (pattern : List String) : SearchResult :=
    findSequenceWithHint tools lines allowFuzzy pattern lineIndex (getHunkHintIndex hunk lineIndex)
      hunk.isEndOfFile
  let searchResult := search hunk.oldLines
  if searchResult.index.isNone && hunk.oldLines.getLast? = some "" then
    let newSlice :=
      if hunk.newLines.getLast? = some "" then hunk.newLines.dropLast else hunk.newLines
    ⟨hunk.oldLines.dropLast, newSlice, search hunk.oldLines.dropLast⟩
  else ⟨hunk.oldLines, hunk.newLines, searchResult⟩

def searchVariants (hunk : DiffHunk) (variants : List HunkVariant) (lineIndex : Nat)
    (search : HunkSearch) : HunkSearch :=
  if search.result.isUnique then search
  else
    (variants.findSome? fun variant =>
      let variantResult := findSequenceWithHint tools lines allowFuzzy variant.oldLines lineIndex
        (getHunkHintIndex hunk lineIndex) hunk.isEndOfFile
      if variant.oldLines ≠ [] && variantResult.isUnique
        then some ⟨variant.oldLines, variant.newLines, variantResult⟩
      else none).getD search

def searchNearContext (hunk : DiffHunk) (variants : List HunkVariant) (contextIndex : Option Nat)
    (search : HunkSearch) :
    HunkSearch :=
  match search.result.index, contextIndex with
  | none, some context =>
    (variants.findSome? fun variant =>
      match variant.oldLines, variant.newLines with
      | [removedLine], [_] =>
        let hasSharedDuplicate := hunk.newLines.any fun line => trimmed line = trimmed removedLine
        (findContextRelativeMatch lines removedLine context hasSharedDuplicate).map fun i =>
          ⟨variant.oldLines, variant.newLines, { index := some i, confidence := 95 / 100 }⟩
      | _, _ => none).getD search
  | _, _ => search

def preferNearContext (hunk : DiffHunk) (contextIndex : Option Nat)
    (search : HunkSearch) : HunkSearch :=
  match search.result.index, contextIndex, search.pattern with
  | some _, some context, [line] =>
    let hasSharedDuplicate := hunk.newLines.any fun newLine => trimmed newLine = trimmed line
    if 1 < (lines.filter fun other => trimmed other = trimmed line).length then
      match findContextRelativeMatch lines line context hasSharedDuplicate with
      | some i =>
        { search with result := { index := some i, confidence := search.result.confidence } }
      | none => search
    else search
  | _, _, _ => search

def preferHinted (hunk : DiffHunk) (lineIndex : Nat) (search : HunkSearch) : HunkSearch :=
  let hintIndex := getHunkHintIndex hunk lineIndex <|> hunk.oldStartLine.map (· - 1)
  match chooseHintedMatch search.result.matchIndices hintIndex ambiguityHintWindow with
  | some i =>
    if search.result.isAmbiguous then { search with result := { search.result with
      index := some i, matchCount := some 1 } }
    else search
  | none => search

def notFoundError (hunk : DiffHunk) (lineIndex : Nat) (pattern : List String) : PatchError :=
  let oldText := joinLines hunk.oldLines
  let failed := s!"Failed to find expected lines in {path}:\n{oldText}"
  match findClosestSequenceMatch lines pattern lineIndex hunk.isEndOfFile with
  | (some i, confidence) =>
    let near :=
      s!"\n\nClosest match ({percent confidence}% similar) near line {i + 1}:\n{formatSequenceMatchPreview lines i}"
    .apply (if 0 < confidence then failed ++ near else failed)
  | (none, _) => .apply failed

def foundIndex (hunk : DiffHunk) (lineIndex : Nat) (search : HunkSearch) : Except PatchError Nat :=
  if search.result.isAmbiguous then .error (ambiguousError lines path "the text" search.result)
  else
    match search.result.index with
    | none => .error (notFoundError lines path hunk lineIndex search.pattern)
    | some found => .ok found

def checkSecondMatch (hunk : DiffHunk) (pattern : List String) (found : Nat) :
    Except PatchError Unit :=
  if hunk.changeContext.isNone && !hunk.hasContextLines && !hunk.isEndOfFile &&
    hunk.oldStartLine.isNone then
    match (seekSequence tools lines pattern (found + 1) false allowFuzzy).index with
    | none => .ok ()
    | some second =>
      .error (.apply (s!"Found 2 occurrences in {path}:\n\n{formatSequenceMatchPreview lines found}" ++
        s!"\n\n{formatSequenceMatchPreview lines second}\n\nAdd more context lines to disambiguate."))
  else .ok ()

structure PatchState where
  lineIndex : Nat := 0
  replacements : List Replacement := []
  warnings : List String := []
  deriving DecidableEq

def dominantWarning (search : HunkSearch) (found : Nat) : List String :=
  if search.result.strategy = some .fuzzyDominant then
    [s!"Dominant fuzzy match selected in {path} near line {found + 1} ({percent search.result.confidence}% similar)."]
  else []

def addHunk (state : PatchState) (hunk : DiffHunk) : Except PatchError PatchState := do
  checkLineHint path hunk.oldStartLine
  checkLineHint path hunk.newStartLine
  let allowAggressiveFallbacks :=
    hunk.changeContext.isSome || hunk.oldStartLine.isSome || hunk.isEndOfFile
  let fallbackVariants :=
    filterFallbackVariants (buildFallbackVariants hunk) allowAggressiveFallbacks
  let start :=
    match hunk.oldStartLine with
    | some hint =>
      if hunk.changeContext.isNone && !hunk.hasContextLines then min (hint - 1) (lines.length - 1)
        else state.lineIndex
    | none => state.lineIndex
  let (contextIndex, lineIndex) ← locateContext tools lines allowFuzzy path hunk start
    allowAggressiveFallbacks
  if hunk.oldLines = [] then
    let insertionIdx ← insertionIndex lines path hunk lineIndex
    return { state with
      lineIndex := lineIndex
      replacements := state.replacements ++ [⟨insertionIdx, 0, hunk.newLines⟩] }
  let search := preferHinted hunk lineIndex (preferNearContext lines hunk contextIndex
    (searchNearContext lines hunk fallbackVariants contextIndex
      (searchVariants tools lines allowFuzzy hunk fallbackVariants lineIndex
        (searchOldLines tools lines allowFuzzy hunk lineIndex))))
  let found ← foundIndex lines path hunk lineIndex search
  checkSecondMatch tools lines allowFuzzy path hunk search.pattern found
  let next := { state with
    lineIndex := found + search.pattern.length
    warnings := state.warnings ++ dominantWarning path search found }
  if search.pattern = search.newSlice then return next
  let actualMatchedLines := (lines.drop found).take search.pattern.length
  let adjustedNewLines := adjustLinesIndentation search.pattern actualMatchedLines search.newSlice
  return { next with
    replacements := next.replacements ++ [⟨found, search.pattern.length, adjustedNewLines⟩] }

def formatRange (replacement : Replacement) : String :=
  if replacement.oldLen = 0 then s!"{replacement.startIndex + 1} (insertion)"
  else s!"{replacement.startIndex + 1}-{replacement.startIndex + replacement.oldLen}"

def checkOverlaps : List Replacement → Except PatchError Unit
  | prev :: next :: rest =>
    if next.startIndex < prev.startIndex + prev.oldLen then
      .error (.apply (s!"Overlapping hunks detected in {path} at lines {formatRange prev} and {formatRange next}. " ++
        "Split hunks or add more context to avoid overlap."))
    else checkOverlaps (next :: rest)
  | _ => .ok ()

def computeReplacements (hunks : List DiffHunk) :
    Except PatchError (List Replacement × List String) := do
  let state ← hunks.foldlM (addHunk tools lines allowFuzzy path) {}
  let replacements := state.replacements.insertionSort fun a b => a.startIndex ≤ b.startIndex
  checkOverlaps path replacements
  return (replacements, state.warnings)

end

def applyReplacements (lines : List String) (replacements : List Replacement) : List String :=
  replacements.foldr (fun r result => result.take r.startIndex ++ r.newLines ++
    result.drop (r.startIndex + r.oldLen)) lines

def findRelaxedMatch (tools : MatchTools) (content oldText : String) (fuzzyThreshold : ℚ)
    (allowFuzzy : Bool) :
    MatchOutcome :=
  let matchOutcome :=
    findMatch tools.findBestFuzzyMatch content oldText allowFuzzy (some fuzzyThreshold)
  let relaxedThreshold := min fuzzyThreshold (92 / 100)
  let relaxedOutcome :=
    findMatch tools.findBestFuzzyMatch content oldText allowFuzzy (some relaxedThreshold)
  if matchOutcome.found.isNone && allowFuzzy && relaxedThreshold < fuzzyThreshold &&
    relaxedOutcome.found.isSome then
    relaxedOutcome
  else matchOutcome

def applyCharacterMatch (tools : MatchTools) (originalContent path : String) (hunk : DiffHunk)
    (fuzzyThreshold : ℚ) (allowFuzzy : Bool) : Except PatchError PatchedContent :=
  let normalizedContent := normalizeToLF originalContent
  let oldText := joinLines hunk.oldLines
  let normalizedOldText := normalizeToLF oldText
  let matchOutcome :=
    findRelaxedMatch tools normalizedContent normalizedOldText fuzzyThreshold allowFuzzy
  if (matchOutcome.occurrences.any fun n => decide (1 < n)) = true then
    let previews := "\n\n".intercalate matchOutcome.occurrencePreviews
    let occurrences := matchOutcome.occurrences.getD 0
    let moreMsg := if 5 < occurrences then s!" (showing first 5 of {occurrences})" else ""
    .error (.apply (s!"Found {occurrences} occurrences in {path}{moreMsg}:\n\n{previews}\n\n" ++
      "Add more context lines to disambiguate."))
  else if (matchOutcome.fuzzyMatches.any fun n => decide (1 < n)) = true then
    .error (.apply (s!"Found {matchOutcome.fuzzyMatches.getD 0} high-confidence matches in {path}. " ++
      "The text must be unique. Please provide more context to make it unique."))
  else
    match matchOutcome.found, matchOutcome.closest with
    | none, some closest =>
      .error (.apply (s!"Could not find a close enough match in {path}. " ++
        s!"Closest match ({percent closest.confidence}% similar) at line {closest.startLine}."))
    | none, none => .error (.apply s!"Failed to find expected lines in {path}:\n{oldText}")
    | some m, _ =>
      let adjustedNewText :=
        adjustIndentation normalizedOldText m.actualText (joinLines hunk.newLines)
      .ok {
        content := replaceRange normalizedContent m.startIndex m.actualText.length adjustedNewText
        warnings :=
          if matchOutcome.dominantFuzzy then
            [s!"Dominant fuzzy match selected in {path} near line {m.startLine} ({percent m.confidence}% similar)."]
          else [] }

def endsWithNewline (content : String) : Bool := content.toList.getLast? = some '\n'

def applyTrailingNewlinePolicy (content : String) (hadFinalNewline : Bool) : String :=
  if hadFinalNewline then (if endsWithNewline content then content else content ++ "\n")
  else String.ofList (content.toList.rdropWhile (· = '\n'))

/-- A single hunk with nothing but the lines it takes out and puts in. -/
def isSimpleReplace (hunk : DiffHunk) : Bool :=
  hunk.changeContext.isNone && !hunk.hasContextLines && hunk.oldLines ≠ [] &&
    hunk.oldStartLine.isNone &&
    !hunk.isEndOfFile

/-- The lines of a file, without the empty one behind its final newline. -/
def fileLines (content : String) : List String :=
  if endsWithNewline content then (splitLines content).dropLast else splitLines content

def fileContent (lines : List String) (hadFinalNewline : Bool) : String :=
  applyTrailingNewlinePolicy (joinLines (if hadFinalNewline then lines ++ [""] else lines))
    hadFinalNewline

def applyHunksByLine (tools : MatchTools) (originalContent path : String) (hunks : List DiffHunk)
    (allowFuzzy : Bool) :
    Except PatchError PatchedContent := do
  let originalLines := fileLines originalContent
  let (replacements, warnings) ← computeReplacements tools originalLines allowFuzzy path hunks
  return ⟨fileContent (applyReplacements originalLines replacements)
    (endsWithNewline originalContent), warnings⟩

def applyHunksToContent (tools : MatchTools) (originalContent path : String) (hunks : List DiffHunk)
    (fuzzyThreshold : ℚ) (allowFuzzy : Bool) : Except PatchError PatchedContent :=
  match hunks with
  | [hunk] =>
    if isSimpleReplace hunk then do
      let patched ← applyCharacterMatch tools originalContent path hunk fuzzyThreshold allowFuzzy
      return { patched with
        content := applyTrailingNewlinePolicy patched.content (endsWithNewline originalContent) }
    else applyHunksByLine tools originalContent path hunks allowFuzzy
  | _ => applyHunksByLine tools originalContent path hunks allowFuzzy

end JevCode.Edit
