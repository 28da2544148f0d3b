import JevCode.Data.Search
import JevCode.Edit.Indentation
import JevCode.Text.Utf8
import Mathlib.Algebra.Ring.Rat

namespace JevCode.Edit

open JevCode.Text JevCode.Data

structure FuzzyMatch where
  actualText : String
  startIndex : Nat
  startLine : Nat
  confidence : ℚ
  deriving DecidableEq

structure MatchOutcome where
  found : Option FuzzyMatch := none
  closest : Option FuzzyMatch := none
  occurrences : Option Nat := none
  occurrenceLines : List Nat := []
  occurrencePreviews : List String := []
  fuzzyMatches : Option Nat := none
  dominantFuzzy : Bool := false
  deriving DecidableEq

def defaultFuzzyThreshold : ℚ := 95 / 100
def fallbackThreshold : ℚ := 80 / 100
def occurrencePreviewContext : Nat := 5
def occurrencePreviewMaxLen : Nat := 80
def maxRecordedMatches : Nat := 5
def dominantFuzzyMinConfidence : ℚ := 97 / 100
def dominantFuzzyDelta : ℚ := 8 / 100

def truncatedLine (line : String) (maxLen : Nat) : String :=
  if maxLen < unitLength line.toList
    then String.ofList (takeUnits (maxLen - 1) line.toList ++ ['…']) else line

def formatPreviewWindow (lines : List String) (centerIndex context maxLen : Nat) : String :=
  let start := centerIndex - context
  let stop := min lines.length (centerIndex + context + 1)
  joinLines ((((lines.take stop).drop start).zipIdx start).map fun p =>
    s!"  {p.2 + 1} | {truncatedLine p.1 maxLen}")

def indexOfFrom (target content : List Char) (start : Nat) : Option Nat :=
  (indexOf target (content.drop start)).map (start + ·)

def occurrenceIndices (target content : List Char) : Nat → Nat → List Nat
  | 0, _ => []
  | n + 1, searchStart =>
    match indexOfFrom target content searchStart with
    | none => []
    | some i => i :: occurrenceIndices target content n (i + 1)

def lineNumberAt (content : List Char) (i : Nat) : Nat :=
  (splitLines (String.ofList (content.take i))).length

def findExactMatchOutcome (content target : String) : Option MatchOutcome :=
  match indexOf target.toList content.toList with
  | none => none
  | some exactIndex =>
    let occurrences := (pieces target.toList content.toList).length - 1
    if 1 < occurrences then
      let occurrenceLines :=
        (occurrenceIndices target.toList content.toList maxRecordedMatches 0).map
        (lineNumberAt content.toList)
      some {
        occurrences := some occurrences
        occurrenceLines := occurrenceLines
        occurrencePreviews := occurrenceLines.map fun lineNumber =>
          formatPreviewWindow (splitLines content)
          (lineNumber - 1) occurrencePreviewContext occurrencePreviewMaxLen }
    else some { found := some ⟨target, exactIndex, lineNumberAt content.toList exactIndex, 1⟩ }

def charCodes (s : String) : List Nat :=
  s.toList.flatMap fun c =>
    if c.toNat < 0x10000 then [c.toNat]
    else [0xD800 + (c.toNat - 0x10000) / 0x400, 0xDC00 + (c.toNat - 0x10000) % 0x400]

def levenshteinCells (aCode : Nat) : Nat → List Nat → List Nat → List Nat
  | left, bCode :: codes, diagonal :: above :: prev =>
    let cost := if aCode = bCode then 0 else 1
    let cell := min (above + 1) (min (left + 1) (diagonal + cost))
    cell :: levenshteinCells aCode cell codes (above :: prev)
  | _, _, _ => []

def levenshteinRows (b : List Nat) : Nat → List Nat → List Nat → List Nat
  | _, [], prev => prev
  | i, aCode :: a, prev => levenshteinRows b (i + 1) a (i :: levenshteinCells aCode i b prev)

def levenshteinDistance (a b : String) : Nat :=
  if a = b then 0
  else (levenshteinRows (charCodes b) 1 (charCodes a)
    (List.range ((charCodes b).length + 1))).getLastD 0

def similarity (a b : String) : ℚ :=
  let maxLen := max (charCodes a).length (charCodes b).length
  if maxLen = 0 then 1 else 1 - (levenshteinDistance a b : ℚ) / maxLen

def minCount (counts : List Nat) (default : Nat) : Nat := counts.min?.getD default

def computeRelativeIndentDepths (lines : List String) : List Nat :=
  let nonEmptyIndents := (lines.filter isNonEmptyLine).map countLeadingWhitespace
  let minIndent := minCount nonEmptyIndents 0
  let indentUnit := minCount ((nonEmptyIndents.map (· - minIndent)).filter (0 < ·)) 1
  lines.map fun line =>
    if !isNonEmptyLine line then 0
    else
      let relativeIndent := countLeadingWhitespace line - minIndent
      (2 * relativeIndent + indentUnit) / (2 * indentUnit)

def normalizeLines (lines : List String) (includeDepth : Bool) : List String :=
  (lines.zip (computeRelativeIndentDepths lines)).map fun p =>
    let depth := if includeDepth then s!"{p.2}|" else "|"
    if !isNonEmptyLine p.1 then depth else depth ++ normalizeForFuzzy p.1

def computeLineOffsets : Nat → List String → List Nat
  | _, [] => []
  | offset, line :: lines => offset :: computeLineOffsets (offset + line.length + 1) lines

structure BestFuzzyMatchResult where
  best : Option FuzzyMatch := none
  aboveThresholdCount : Nat := 0
  secondBestScore : ℚ := 0
  deriving DecidableEq

structure BestSearch where
  best : Option FuzzyMatch := none
  bestScore : ℚ := -1
  secondBestScore : ℚ := -1
  aboveThresholdCount : Nat := 0

def BestSearch.add (search : BestSearch) (threshold : ℚ) (m : FuzzyMatch) : BestSearch :=
  let count :=
    if threshold ≤ m.confidence then search.aboveThresholdCount + 1 else search.aboveThresholdCount
  if search.bestScore < m.confidence then ⟨some m, m.confidence, search.bestScore, count⟩
  else if search.secondBestScore < m.confidence then
    { search with secondBestScore := m.confidence, aboveThresholdCount := count }
  else { search with aboveThresholdCount := count }

def windowAt (contentLines : List String) (n start : Nat) : List String :=
  (contentLines.drop start).take n

def scoreWindow (targetNormalized windowNormalized : List String) : ℚ :=
  (List.zipWith similarity targetNormalized windowNormalized).sum / targetNormalized.length

def findBestFuzzyMatchCore (contentLines targetLines : List String) (offsets : List Nat)
    (threshold : ℚ) (includeDepth : Bool) : BestFuzzyMatchResult :=
  let targetNormalized := normalizeLines targetLines includeDepth
  let search :=
    (List.range (contentLines.length - targetLines.length + 1)).foldl (fun search start =>
    let windowLines := windowAt contentLines targetLines.length start
    let score := scoreWindow targetNormalized (normalizeLines windowLines includeDepth)
    search.add threshold ⟨joinLines windowLines, offsets.getD start 0, start + 1, score⟩)
      ({} : BestSearch)
  ⟨search.best, search.aboveThresholdCount, search.secondBestScore⟩

def findBestFuzzyMatch (content target : String) (threshold : ℚ) : BestFuzzyMatchResult :=
  let contentLines := splitLines content
  let targetLines := splitLines target
  if target = "" || contentLines.length < targetLines.length then {}
  else
    let offsets := computeLineOffsets 0 contentLines
    let result := findBestFuzzyMatchCore contentLines targetLines offsets threshold true
    match result.best with
    | none => result
    | some best =>
      if best.confidence < threshold ∧ fallbackThreshold ≤ best.confidence then
        let noDepthResult := findBestFuzzyMatchCore contentLines targetLines offsets threshold false
        match noDepthResult.best with
        | none => result
        | some noDepthBest =>
          if best.confidence < noDepthBest.confidence then noDepthResult else result
      else result

abbrev NativeMatcher := String → String → ℚ → BestFuzzyMatchResult

def isDominant (confidence secondBestScore : ℚ) : Bool :=
  dominantFuzzyMinConfidence ≤ confidence && dominantFuzzyDelta ≤ confidence - secondBestScore

def findMatch (native : Option NativeMatcher) (content target : String) (allowFuzzy : Bool)
    (threshold : Option ℚ) : MatchOutcome :=
  if target = "" then {}
  else
    match findExactMatchOutcome content target with
    | some exactMatch => exactMatch
    | none =>
      let threshold := threshold.getD defaultFuzzyThreshold
      let result := (native.getD findBestFuzzyMatch) content target threshold
      match result.best with
      | none => {}
      | some best =>
        if allowFuzzy && threshold ≤ best.confidence && result.aboveThresholdCount = 1 then
          { found := some best, closest := some best }
        else if allowFuzzy && threshold ≤ best.confidence && 1 < result.aboveThresholdCount &&
            isDominant best.confidence result.secondBestScore then
          { found := some best, closest := some best, fuzzyMatches := some result.aboveThresholdCount,
            dominantFuzzy := true }
        else { closest := some best, fuzzyMatches := some result.aboveThresholdCount }

end JevCode.Edit
