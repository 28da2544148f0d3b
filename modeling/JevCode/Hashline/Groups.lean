import JevCode.Hashline.Syntax

namespace JevCode.Hashline

open JevCode.Text

structure ReplacementGroup where
  sourceLineNum : Nat
  replacement : List String
  startLine : Nat
  endLine : Nat
  deleted : List Nat
  members : List Edit
  rest : List Edit
  deriving DecidableEq

def isGroupInsert (lineNum : Nat) : Edit → Bool
  | .insert (.beforeAnchor _) _ n _ => n == lineNum
  | _ => false

def isGroupDelete (lineNum : Nat) : Edit → Bool
  | .delete _ n _ => n == lineNum
  | _ => false

/-- `findReplacementGroup` on the edits from the start index on; `rest` is what follows `endIndex`.
-/
def findReplacementGroup (edits : List Edit) : Option ReplacementGroup :=
  match edits with
  | .insert (.beforeAnchor first) _ lineNum _ :: _ =>
    let inserts := edits.takeWhile (isGroupInsert lineNum)
    let tail := edits.dropWhile (isGroupInsert lineNum)
    let deletes := tail.takeWhile (isGroupDelete lineNum)
    let rest := tail.dropWhile (isGroupDelete lineNum)
    let deleted := deletes.filterMap Edit.deletedLine?
    match deleted with
    | [] => none
    | startLine :: _ =>
      if deleted ≠ List.range' startLine deleted.length then none
      else if first.line ≠ startLine then none
      else some {
        sourceLineNum := lineNum
        replacement := inserts.filterMap Edit.text?
        startLine := startLine
        endLine := startLine + deleted.length - 1
        deleted := deleted
        members := inserts ++ deletes
        rest := rest }
  | _ => none

def matchesBlock (fileLines : List String) (fileIdx : Nat) (payload : List String)
    (payloadIdx count : Nat) : Bool :=
  (List.range count).all fun offset => fileLines[fileIdx + offset]? == payload[payloadIdx + offset]?

def longestBlock (ok : Nat → Bool) : Nat → Nat
  | 0 => 0
  | max + 1 => if max + 1 < 2 then 0 else if ok (max + 1) then max + 1 else longestBlock ok max

def countMatchingPrefixBlock (fileLines : List String) (startLine : Nat)
    (replacement : List String) : Nat :=
  longestBlock (fun count => matchesBlock fileLines (startLine - count - 1) replacement 0 count)
    (min replacement.length (startLine - 1))

def countMatchingSuffixBlock (fileLines : List String) (endLine : Nat)
    (replacement : List String) : Nat :=
  longestBlock (fun count =>
    matchesBlock fileLines endLine replacement (replacement.length - count) count)
    (min replacement.length (fileLines.length - endLine))

def isStructuralClosingBoundaryLine (line : String) : Bool :=
  let body := trimStart line.toList
  let closers := body.takeWhile fun c => c == ']' || c == ')' || c == '}'
  let tail := body.dropWhile fun c => c == ']' || c == ')' || c == '}'
  let tail := match tail with
    | ';' :: tail => tail
    | ',' :: tail => tail
    | tail => tail
  !closers.isEmpty && tail.all isSpace

structure DelimiterBalance where
  paren : Int
  bracket : Int
  brace : Int
  deriving DecidableEq

def zeroDelimiterBalance : DelimiterBalance := ⟨0, 0, 0⟩

def DelimiterBalance.step (b : DelimiterBalance) : Char → DelimiterBalance
  | '(' => { b with paren := b.paren + 1 }
  | ')' => { b with paren := b.paren - 1 }
  | '[' => { b with bracket := b.bracket + 1 }
  | ']' => { b with bracket := b.bracket - 1 }
  | '{' => { b with brace := b.brace + 1 }
  | '}' => { b with brace := b.brace - 1 }
  | _ => b

def computeDelimiterBalance (lines : List String) : DelimiterBalance :=
  lines.foldl (fun b line => line.toList.foldl DelimiterBalance.step b) zeroDelimiterBalance

def shouldDropSingleStructuralBoundary (fullPayload keptPayload : List String)
    (expectedBalance : DelimiterBalance) : Bool :=
  computeDelimiterBalance keptPayload == expectedBalance &&
    computeDelimiterBalance fullPayload != expectedBalance

def countMatchingSingleStructuralPrefixBoundary (fileLines : List String) (startLine : Nat)
    (replacement : List String) (expectedBalance : DelimiterBalance) : Nat :=
  match replacement with
  | [] => 0
  | line :: tail =>
    if startLine ≤ 1 then 0
    else if !isStructuralClosingBoundaryLine line then 0
    else if fileLines[startLine - 2]? ≠ some line then 0
    else if shouldDropSingleStructuralBoundary replacement tail expectedBalance then 1 else 0

def countMatchingSingleStructuralSuffixBoundary (fileLines : List String) (endLine : Nat)
    (replacement : List String) (expectedBalance : DelimiterBalance) : Nat :=
  match replacement.getLast? with
  | none => 0
  | some line =>
    if fileLines.length ≤ endLine then 0
    else if !isStructuralClosingBoundaryLine line then 0
    else if fileLines[endLine]? ≠ some line then 0
    else if shouldDropSingleStructuralBoundary replacement replacement.dropLast
      expectedBalance then 1 else 0

structure PureInsertGroup where
  sourceLineNum : Nat
  cursor : Cursor
  payload : List String
  members : List Edit
  rest : List Edit
  deriving DecidableEq

def isPureInsert (lineNum : Nat) (cursor : Cursor) : Edit → Bool
  | .insert c _ n _ => n == lineNum && c == cursor
  | _ => false

def findPureInsertGroup (edits : List Edit) : Option PureInsertGroup :=
  match edits with
  | .insert cursor _ lineNum _ :: _ =>
    let members := edits.takeWhile (isPureInsert lineNum cursor)
    let rest := edits.dropWhile (isPureInsert lineNum cursor)
    if rest.head?.any (isGroupDelete lineNum) then none
    else some {
      sourceLineNum := lineNum
      cursor := cursor
      payload := members.filterMap Edit.text?
      members := members
      rest := rest }
  | _ => none

/-- Number of file lines above the insertion point, which is `aboveEndIdx + 1` and `belowStartIdx`
of `pureInsertNeighborhood`. -/
def pureInsertNeighborhood (cursor : Cursor) (fileLines : List String) : Nat :=
  match cursor with
  | .bof => 0
  | .eof => fileLines.length
  | .beforeAnchor a => a.line - 1
  | .afterAnchor a => a.line

structure PureInsertAbsorbResult where
  keptPayload : List String
  absorbedLeading : Nat
  absorbedTrailing : Nat
  deriving DecidableEq

def Cursor.isAfterAnchor : Cursor → Bool
  | .afterAnchor _ => true
  | _ => false

def Cursor.isBeforeAnchor : Cursor → Bool
  | .beforeAnchor _ => true
  | _ => false

def absorbedLeading (cursor : Cursor) (payload fileLines : List String) (above : Nat)
    (generic : Bool) : Nat :=
  let block := if generic then
      longestBlock (fun count => matchesBlock fileLines (above - count) payload 0 count)
        (min payload.length above)
    else 0
  if block ≠ 0 then block
  else match payload with
    | [] => 0
    | first :: tail =>
      if above = 0 ∨ fileLines[above - 1]? ≠ some first then 0
      else if generic && cursor.isAfterAnchor && !isStructuralClosingBoundaryLine first then 1
      else if isStructuralClosingBoundaryLine first &&
          shouldDropSingleStructuralBoundary payload tail zeroDelimiterBalance then 1
      else 0

def absorbedTrailing (cursor : Cursor) (payload fileLines : List String) (below : Nat)
    (generic : Bool) : Nat :=
  let block := if generic then
      longestBlock (fun count => matchesBlock fileLines below payload (payload.length - count) count)
        (min payload.length (fileLines.length - below))
    else 0
  if block ≠ 0 then block
  else match payload.getLast? with
    | none => 0
    | some last =>
      if fileLines[below]? ≠ some last then 0
      else if cursor.isBeforeAnchor && generic && !isStructuralClosingBoundaryLine last then 1
      else if isStructuralClosingBoundaryLine last &&
          shouldDropSingleStructuralBoundary payload payload.dropLast zeroDelimiterBalance then 1
      else 0

def tryAbsorbPureInsertGroup (group : PureInsertGroup) (fileLines : List String)
    (allowGenericBoundaryAbsorb : Bool) : PureInsertAbsorbResult :=
  let above := pureInsertNeighborhood group.cursor fileLines
  let leading :=
    absorbedLeading group.cursor group.payload fileLines above allowGenericBoundaryAbsorb
  let remaining := group.payload.drop leading
  let trailing := absorbedTrailing group.cursor remaining fileLines above allowGenericBoundaryAbsorb
  { keptPayload := remaining.take (remaining.length - trailing)
    absorbedLeading := leading
    absorbedTrailing := trailing }

end JevCode.Hashline
