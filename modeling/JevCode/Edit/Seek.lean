import JevCode.Edit.Match

namespace JevCode.Edit

open JevCode.Text JevCode.Data

def sequenceFuzzyThreshold : ℚ := 92 / 100
def contextFuzzyThreshold : ℚ := 80 / 100
def partialMatchMinLength : Nat := 6
def partialMatchMinRatio : ℚ := 30 / 100

inductive MatchStrategy
  | exact
  | trimTrailing
  | trim
  | commentPrefix
  | unicode
  | linePrefix
  | substring
  | fuzzy
  | fuzzyDominant
  | character
  deriving DecidableEq

def MatchStrategy.text : MatchStrategy → String
  | .exact => "exact"
  | .trimTrailing => "trim-trailing"
  | .trim => "trim"
  | .commentPrefix => "comment-prefix"
  | .unicode => "unicode"
  | .linePrefix => "prefix"
  | .substring => "substring"
  | .fuzzy => "fuzzy"
  | .fuzzyDominant => "fuzzy-dominant"
  | .character => "character"

structure SearchResult where
  index : Option Nat := none
  confidence : ℚ := 0
  matchCount : Option Nat := none
  matchIndices : Option (List Nat) := none
  strategy : Option MatchStrategy := none
  deriving DecidableEq

structure NativeSequenceFuzzyResult where
  index : Option Nat
  confidence : ℚ
  matchCount : Nat
  matchIndices : List Nat
  secondBestScore : ℚ

/-- Code outside the module: the matchers of the native package, once they are loaded, and
`normalize("NFC")`. -/
structure MatchTools where
  findBestFuzzyMatch : Option NativeMatcher
  scoreSequenceFuzzy : Option (List String → List String → Nat → Bool → NativeSequenceFuzzyResult)
  nfc : String → String

def collectIndexedMatches (start stop : Nat) (predicate : Nat → Bool) : List Nat :=
  (List.range' start (stop - start)).filter predicate

def toSingleMatchResult (found : List Nat) (confidence : ℚ) (strategy : MatchStrategy) :
    Option SearchResult :=
  found.head?.map fun i => { index := some i, confidence := confidence, strategy := some strategy }

def toAmbiguousMatchResult (found : List Nat) (confidence : ℚ) (strategy : MatchStrategy) :
    Option SearchResult :=
  found.head?.map fun i => {
    index := some i
    confidence := confidence
    matchCount := some found.length
    matchIndices := some (found.take maxRecordedMatches)
    strategy := some strategy }

def matchesAt (lines pattern : List String) (compare : String → String → Bool) (i : Nat) : Bool :=
  ((lines.drop i).zip pattern).all fun p => compare p.1 p.2

def fuzzyScoreAt (lines pattern : List String) (i : Nat) : ℚ :=
  (List.zipWith (fun line patternLine =>
    similarity (normalizeForFuzzy line) (normalizeForFuzzy patternLine))
    (lines.drop i) pattern).sum / pattern.length

def lineStartsWithPattern (line pattern : String) : Bool :=
  let lineNorm := normalizeForFuzzy line
  let patternNorm := normalizeForFuzzy pattern
  if patternNorm = "" then lineNorm = "" else startsWith lineNorm patternNorm

def lengthRatio (part line : String) : ℚ :=
  ((charCodes part).length : ℚ) / (max 1 (charCodes line).length : Nat)

def lineIncludesPattern (line pattern : String) : Bool :=
  let lineNorm := normalizeForFuzzy line
  let patternNorm := normalizeForFuzzy pattern
  if patternNorm = "" then lineNorm = ""
  else if (charCodes patternNorm).length < partialMatchMinLength then false
  else if ¬ patternNorm.toList <:+: lineNorm.toList then false
  else partialMatchMinRatio ≤ lengthRatio patternNorm lineNorm

def stripCommentPrefix (line : String) : String :=
  let start := trimmedStart line
  let stripped :=
    if startsWith start "/*" then slice start 2
    else if startsWith start "*/" then slice start 2
    else if startsWith start "//" then slice start 2
    else if startsWith start "*" then slice start 1
    else if startsWith start "#" then slice start 1
    else if startsWith start ";" then slice start 1
    else if startsWith start "/ " then slice start 1
    else start
  trimmedStart stripped

structure ComparisonPass where
  compare : String → String → Bool
  confidence : ℚ
  strategy : MatchStrategy

def comparisonPasses (tools : MatchTools) : List ComparisonPass := [
  ⟨fun a b => a = b, 1, .exact⟩,
  ⟨fun a b => trimmedEnd a = trimmedEnd b, 99 / 100, .trimTrailing⟩,
  ⟨fun a b => trimmed a = trimmed b, 98 / 100, .trim⟩,
  ⟨fun a b => stripCommentPrefix a = stripCommentPrefix b, 975 / 1000, .commentPrefix⟩,
  ⟨fun a b => normalizeUnicode tools.nfc a = normalizeUnicode tools.nfc b, 97 / 100, .unicode⟩]

def partialPasses : List ComparisonPass := [
  ⟨lineStartsWithPattern, 965 / 1000, .linePrefix⟩,
  ⟨lineIncludesPattern, 94 / 100, .substring⟩]

def runExactPasses (tools : MatchTools) (lines pattern : List String) (allowFuzzy : Bool)
    (start stop : Nat) :
    Option SearchResult :=
  ((comparisonPasses tools).findSome? fun pass =>
    toSingleMatchResult (collectIndexedMatches start stop (matchesAt lines pattern pass.compare))
      pass.confidence pass.strategy) <|>
  if allowFuzzy then
    partialPasses.findSome? fun pass =>
      toAmbiguousMatchResult
        (collectIndexedMatches start stop (matchesAt lines pattern pass.compare))
        pass.confidence pass.strategy
  else none

structure FuzzyScan where
  bestScore : ℚ := 0
  secondBestScore : ℚ := 0
  bestIndex : Option Nat := none
  fuzzyMatches : List Nat := []

def FuzzyScan.add (threshold : ℚ) (score : Nat → ℚ) (scan : FuzzyScan) (i : Nat) : FuzzyScan :=
  let fuzzyMatches := if threshold ≤ score i then scan.fuzzyMatches ++ [i] else scan.fuzzyMatches
  if scan.bestScore < score i then ⟨score i, scan.bestScore, some i, fuzzyMatches⟩
  else if scan.secondBestScore < score i then { scan with
    secondBestScore := score i, fuzzyMatches := fuzzyMatches }
  else { scan with fuzzyMatches := fuzzyMatches }

def scoreFuzzyRange (threshold : ℚ) (score : Nat → ℚ) (scan : FuzzyScan)
    (start stop : Nat) : FuzzyScan :=
  (List.range' start (stop - start)).foldl (FuzzyScan.add threshold score) scan

def fuzzyResult (index : Nat) (confidence secondBestScore : ℚ) (matchCount : Nat)
    (matchIndices : List Nat) :
    SearchResult :=
  if 1 < matchCount && isDominant confidence secondBestScore then
    ⟨some index, confidence, some 1, some matchIndices, some .fuzzyDominant⟩
  else ⟨some index, confidence, some matchCount, some matchIndices, some .fuzzy⟩

def seekCharacters (tools : MatchTools) (lines pattern : List String) (start : Nat) (bestScore : ℚ) :
    SearchResult :=
  let contentText := joinLines (lines.drop start)
  let matchOutcome :=
    findMatch tools.findBestFuzzyMatch contentText (joinLines pattern) true (some (92 / 100))
  let fallbackMatchCount := matchOutcome.occurrences <|> matchOutcome.fuzzyMatches
  match matchOutcome.found with
  | some m => {
      index := some (start + lineNumberAt contentText.toList m.startIndex - 1)
      confidence := m.confidence
      matchCount := some (fallbackMatchCount.getD 1)
      strategy := some .character }
  | none => { confidence := bestScore, matchCount := fallbackMatchCount }

def seekFuzzy (tools : MatchTools) (lines pattern : List String) (start searchStart : Nat)
    (eof : Bool) : SearchResult :=
  let stop := lines.length - pattern.length + 1
  let native :=
    (tools.scoreSequenceFuzzy.map fun score => score lines pattern start eof).bind fun r =>
    if sequenceFuzzyThreshold ≤ r.confidence then
      r.index.map fun i => fuzzyResult i r.confidence r.secondBestScore r.matchCount r.matchIndices
    else none
  match native with
  | some result => result
  | none =>
    let fromSearch :=
      scoreFuzzyRange sequenceFuzzyThreshold (fuzzyScoreAt lines pattern) {} searchStart stop
    let scan :=
      if eof && start < searchStart then
        scoreFuzzyRange sequenceFuzzyThreshold (fuzzyScoreAt lines pattern) fromSearch
          start searchStart
      else fromSearch
    match scan.bestIndex with
    | some bestIndex =>
      if sequenceFuzzyThreshold ≤ scan.bestScore then
        fuzzyResult bestIndex scan.bestScore scan.secondBestScore scan.fuzzyMatches.length
          (scan.fuzzyMatches.take maxRecordedMatches)
      else seekCharacters tools lines pattern start scan.bestScore
    | none => seekCharacters tools lines pattern start scan.bestScore

def seekSequence (tools : MatchTools) (lines pattern : List String) (start : Nat)
    (eof allowFuzzy : Bool) : SearchResult :=
  if pattern = [] then { index := some start, confidence := 1, strategy := some .exact }
  else if lines.length < pattern.length then {}
  else
    let searchStart := if eof then lines.length - pattern.length else start
    let stop := lines.length - pattern.length + 1
    match runExactPasses tools lines pattern allowFuzzy searchStart stop with
    | some result => result
    | none =>
      match if eof && start < searchStart then runExactPasses tools lines pattern allowFuzzy start
        stop else none with
      | some result => result
      | none => if allowFuzzy then seekFuzzy tools lines pattern start searchStart eof else {}

def findClosestSequenceMatch (lines pattern : List String) (start : Nat) (eof : Bool) :
    Option Nat × ℚ :=
  if pattern = [] then (some start, 1)
  else if lines.length < pattern.length then (none, 0)
  else
    let maxStart := lines.length - pattern.length
    let searchStart := if eof then maxStart else start
    let fromSearch := scoreFuzzyRange 0 (fuzzyScoreAt lines pattern) {} searchStart (maxStart + 1)
    let scan :=
      if eof && start < searchStart then scoreFuzzyRange 0 (fuzzyScoreAt lines pattern) fromSearch
        start searchStart
      else fromSearch
    (scan.bestIndex, scan.bestScore)

def seekSubstring (lines : List String) (contextNorm : String) (startFrom : Nat) :
    Option SearchResult :=
  let found := collectIndexedMatches startFrom lines.length fun i =>
    contextNorm.toList <:+: (normalizeForFuzzy (lines.getD i "")).toList
  let longEnough := found.filter fun i =>
    partialMatchMinRatio ≤ lengthRatio contextNorm (normalizeForFuzzy (lines.getD i ""))
  let result (index matchCount : Nat) : SearchResult :=
    ⟨some index, 94 / 100, some matchCount, some (found.take maxRecordedMatches), some .substring⟩
  match found, longEnough with
  | [], _ => none
  | [i], _ => some (result i 1)
  | _, i :: rest => some (result i (rest.length + 1))
  | i :: _ :: rest, [] => some (result i (rest.length + 2))

def findContextLineOnce (tools : MatchTools) (lines : List String) (context : String)
    (startFrom : Nat) (allowFuzzy : Bool) : SearchResult :=
  let pass (confidence : ℚ) (strategy : MatchStrategy) (predicate : String → Bool) : Option
    SearchResult :=
    toAmbiguousMatchResult (collectIndexedMatches startFrom lines.length fun i =>
      predicate (lines.getD i ""))
      confidence strategy
  let contextNorm := normalizeForFuzzy context
  let strict := pass 1 .exact (fun line => line = context) <|>
    pass (99 / 100) .trim (fun line => trimmed line = trimmed context) <|>
    pass (98 / 100) .unicode
      (fun line => normalizeUnicode tools.nfc line = normalizeUnicode tools.nfc context)
  match strict with
  | some result => result
  | none =>
    if !allowFuzzy then {}
    else
      let lenient :=
        (if contextNorm = "" then none
         else pass (96 / 100) .linePrefix fun line =>
         startsWith (normalizeForFuzzy line) contextNorm) <|>
        (if (charCodes contextNorm).length < partialMatchMinLength then none
         else seekSubstring lines contextNorm startFrom)
      match lenient with
      | some result => result
      | none =>
        let score (i : Nat) : ℚ := similarity (normalizeForFuzzy (lines.getD i "")) contextNorm
        let scan := scoreFuzzyRange contextFuzzyThreshold score {} startFrom lines.length
        if scan.bestIndex.isSome && contextFuzzyThreshold ≤ scan.bestScore then
          ⟨scan.bestIndex, scan.bestScore, some scan.fuzzyMatches.length,
            some (scan.fuzzyMatches.take maxRecordedMatches), some .fuzzy⟩
        else { confidence := scan.bestScore }

def findContextLine (tools : MatchTools) (lines : List String) (context : String) (startFrom : Nat)
    (allowFuzzy : Bool) : SearchResult :=
  let result := findContextLineOnce tools lines context startFrom allowFuzzy
  let name := trim context.toList
  if result.index.isNone && allowFuzzy && ['(', ')'].isSuffixOf name then
    let parenResult :=
      findContextLineOnce tools lines (String.ofList name.dropLast) startFrom allowFuzzy
    if parenResult.index.isSome || 0 < parenResult.matchCount.getD 0 then parenResult
    else findContextLineOnce tools lines (String.ofList name.dropLast.dropLast) startFrom allowFuzzy
  else result

end JevCode.Edit
