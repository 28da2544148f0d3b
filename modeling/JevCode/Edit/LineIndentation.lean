import JevCode.Edit.Indentation

namespace JevCode.Edit

open JevCode.Text JevCode.Data

def isBlankLine (line : String) : Bool := trimmed line = ""

def areEqualTrimmedLines (left right : List String) : Bool := left.map trimmed = right.map trimmed

def getIndentChar (lines : List String) : Char :=
  (lines.findSome? fun line => (getLeadingWhitespace line).head?).getD ' '

structure IndentKinds where
  tabOnly : Bool
  spaceOnly : Bool
  mixed : Bool

def indentKinds (lines : List String) : IndentKinds :=
  let indents := (lines.filter fun line => !isBlankLine line).map getLeadingWhitespace
  { tabOnly := indents.all fun ws => ' ' ∉ ws
    spaceOnly := indents.all fun ws => '\t' ∉ ws
    mixed := indents.any fun ws => ' ' ∈ ws && '\t' ∈ ws }

/-- A round of the loop for the ratio of the indentations, 0 until there is one; `none` if they are
inconsistent. -/
def addRatio (ratio : Nat) (p : String × String) : Option Nat :=
  let patternIndent := countLeadingWhitespace p.1
  let actualIndent := countLeadingWhitespace p.2
  if patternIndent = 0 then some ratio
  else if actualIndent % patternIndent ≠ 0 then none
  else if ratio = 0 then some (actualIndent / patternIndent)
  else if ratio ≠ actualIndent / patternIndent then none
  else some ratio

def tabsToSpaces (patternLines actualLines newLines : List String) : Option (List String) :=
  let pairs := nonEmptyPairs patternLines actualLines
  match pairs.foldlM addRatio 0 with
  | none => none
  | some ratio =>
    if ratio ≠ 0 && indentsScale pairs ratio then
      some (splitLines (convertLeadingTabsToSpaces (joinLines newLines) ratio))
    else none

def addSample (samples : InsertionMap Nat Nat) (p : String × String) :
    Option (InsertionMap Nat Nat) :=
  let spaces := countLeadingWhitespace p.1
  let tabs := countLeadingWhitespace p.2
  if tabs = 0 then some samples
  else if (samples.get? tabs).any (· ≠ spaces) then none
  else some (samples.set tabs spaces)

def tabModel : List (Nat × Nat) → Option (Nat × Int)
  | [] => none
  | [(tabs, spaces)] =>
    if spaces % tabs = 0 && 0 < spaces / tabs then some (spaces / tabs, 0) else none
  | (t1, s1) :: (t2, s2) :: rest =>
    let rise : Int := (s2 : Int) - s1
    let run : Int := (t2 : Int) - t1
    let width := rise / run
    let offset := (s1 : Int) - t1 * width
    if rise % run = 0 && 0 < width &&
        ((t1, s1) :: (t2, s2) :: rest).all (fun p => (p.1 : Int) * width + offset = p.2) then
      some (width.toNat, offset)
    else none

def indentWithTabs (width : Nat) (offset : Int) (line : String) : String :=
  let ws := countLeadingWhitespace line
  let adjusted : Int := ws - offset
  if isBlankLine line || ws = 0 then line
  else if 0 ≤ adjusted then
    String.ofList (List.replicate (adjusted / width).toNat '\t' ++
      List.replicate (adjusted % width).toNat ' ' ++
      line.toList.drop ws)
  else line

def spacesToTabs (patternLines actualLines newLines : List String) : Option (List String) :=
  match (nonEmptyPairs patternLines actualLines).foldlM addSample InsertionMap.empty with
  | none => none
  | some samples => (tabModel samples.entries).map fun model =>
    newLines.map (indentWithTabs model.1 model.2)

def sameLines (actualLines : List String) (line : String) : List String :=
  actualLines.filter fun actual => trimmed actual = trimmed line

def alignLines (actualLines : List String) (shift : String → String) :
    InsertionMap String Nat → List String → List String
  | _, [] => []
  | used, line :: lines =>
    if isBlankLine line then line :: alignLines actualLines shift used lines
    else
      match sameLines actualLines line with
      | [] => shift line :: alignLines actualLines shift used lines
      | [actual] => actual :: alignLines actualLines shift used lines
      | several =>
        let usedCount := (used.get? (trimmed line)).getD 0
        if line ∈ several then line :: alignLines actualLines shift used lines
        else
          match several[usedCount]? with
          | some actual =>
            actual :: alignLines actualLines shift (used.set (trimmed line) (usedCount + 1)) lines
          | none => shift line :: alignLines actualLines shift used lines

def alignIndentation (patternLines actualLines newLines : List String) : List String :=
  let patternMin :=
    (((patternLines.filter fun line => !isBlankLine line).map countLeadingWhitespace).min?).getD 0
  let delta := (uniformDelta (indentDeltas (nonEmptyPairs patternLines actualLines))).getD 0
  let shift (line : String) : String :=
    if delta ≠ 0 && countLeadingWhitespace line = patternMin
      then shiftLine delta (getIndentChar actualLines) line else line
  alignLines actualLines shift InsertionMap.empty newLines

def adjustLinesIndentation (patternLines actualLines newLines : List String) : List String :=
  if patternLines = [] || actualLines = [] || newLines = [] then newLines
  else if patternLines = actualLines then newLines
  else if areEqualTrimmedLines patternLines newLines then newLines
  else
    let pattern := indentKinds patternLines
    let actual := indentKinds actualLines
    let unmixed := !pattern.mixed && !actual.mixed
    let converted :=
      (if unmixed && pattern.tabOnly && actual.spaceOnly
        then tabsToSpaces patternLines actualLines newLines else none) <|>
      (if unmixed && pattern.spaceOnly && actual.tabOnly
        then spacesToTabs patternLines actualLines newLines else none)
    converted.getD (alignIndentation patternLines actualLines newLines)

theorem adjustLinesIndentation_self (patternLines newLines : List String) :
    adjustLinesIndentation patternLines patternLines newLines = newLines := by
  unfold adjustLinesIndentation
  split
  · rfl
  · rw [if_pos rfl]

end JevCode.Edit
