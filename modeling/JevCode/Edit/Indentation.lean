import JevCode.Edit.Diff
import JevCode.Edit.Normalize

namespace JevCode.Edit

open JevCode.Text

def isIndentChar (c : Char) : Bool := c = ' ' || c = '\t'

def getLeadingWhitespace (line : String) : List Char := line.toList.takeWhile isIndentChar

def countLeadingWhitespace (line : String) : Nat := (getLeadingWhitespace line).length

def isNonEmptyLine (line : String) : Bool := trimmed line ≠ ""

def detectIndentChar (text : String) : Char :=
  ((splitLines text).findSome? fun line => (getLeadingWhitespace line).head?).getD ' '

structure IndentProfile where
  lines : List String
  indentCounts : List Nat := []
  char : Option Char := none
  spaceOnly : Bool := true
  tabOnly : Bool := true
  mixed : Bool := false
  unit : Nat := 0
  nonEmptyCount : Nat := 0
  deriving DecidableEq

def IndentProfile.add (profile : IndentProfile) (line : String) : IndentProfile :=
  if isNonEmptyLine line then
    let indent := getLeadingWhitespace line
    { profile with
      nonEmptyCount := profile.nonEmptyCount + 1
      indentCounts := profile.indentCounts ++ [indent.length]
      tabOnly := profile.tabOnly && ' ' ∉ indent
      spaceOnly := profile.spaceOnly && '\t' ∉ indent
      mixed := profile.mixed || (' ' ∈ indent && '\t' ∈ indent) ||
        (indent.head?.any fun current => profile.char.any fun char => char ≠ current)
      char := profile.char <|> indent.head? }
  else profile

def indentUnit (indentCounts : List Nat) : Nat :=
  indentCounts.foldl (fun current count =>
    if count = 0 then current else if current = 0 then count else Nat.gcd current count) 0

def buildIndentProfile (text : String) : IndentProfile :=
  let lines := splitLines text
  let profile := lines.foldl IndentProfile.add { lines := lines }
  let unit :=
    if profile.tabOnly && 0 < profile.nonEmptyCount then 1
    else if profile.spaceOnly && 0 < profile.nonEmptyCount then indentUnit profile.indentCounts
    else 0
  { profile with unit := unit }

def padding (n : Nat) : List Char := List.replicate n ' '

def convertLeadingTabsToSpaces (text : String) (spacesPerTab : Nat) : String :=
  if spacesPerTab = 0 then text
  else joinLines ((splitLines text).map fun line =>
    let leading := getLeadingWhitespace line
    if trimmedStart line = "" then line
    else if '\t' ∉ leading || ' ' ∈ leading then line
    else String.ofList (padding (leading.length * spacesPerTab) ++ trimStart line.toList))

def unicodeReplacements (c : Char) : List Char :=
  if (0x2010 ≤ c.toNat && c.toNat ≤ 0x2015) || c.toNat = 0x2212 then ['-']
  else if 0x2018 ≤ c.toNat && c.toNat ≤ 0x201B then ['\x27']
  else if 0x201C ≤ c.toNat && c.toNat ≤ 0x201F then ['\x22']
  else if c.toNat ∈ [0x00A0, 0x202F, 0x205F, 0x3000] ||
    (0x2002 ≤ c.toNat && c.toNat ≤ 0x200A) then [' ']
  else if c.toNat = 0x2260 then ['!', '=']
  else if c.toNat = 0x00BD then ['1', '/', '2']
  else if (0x200B ≤ c.toNat && c.toNat ≤ 0x200D) || c.toNat = 0xFEFF then []
  else [c]

def normalizeUnicode (nfc : String → String) (s : String) : String :=
  nfc (String.ofList ((trim s.toList).flatMap unicodeReplacements))

def fuzzyPunctuation (c : Char) : Char :=
  if c ∈ ['\x22', '„', '‟', '«', '»'] then '\x22'
  else if c ∈ ['\x27', '‚', '‛', '\x60', '´'] then '\x27'
  else if c ∈ ['‐', '‑', '‒', '–', '—', '−'] then '-'
  else c

def collapseBlanks : List Char → List Char
  | [] => []
  | c :: cs =>
    if isIndentChar c then
      match cs with
      | d :: _ => if isIndentChar d then collapseBlanks cs else ' ' :: collapseBlanks cs
      | [] => [' ']
    else c :: collapseBlanks cs

def normalizeForFuzzy (line : String) : String :=
  String.ofList (collapseBlanks ((trim line.toList).map fuzzyPunctuation))

def isIndentationOnlyRewrite (oldText newText : String) : Bool :=
  (splitLines oldText).map trimmed = (splitLines newText).map trimmed

def nonEmptyPairs (oldLines actualLines : List String) : List (String × String) :=
  (oldLines.zip actualLines).filter fun p => isNonEmptyLine p.1 && isNonEmptyLine p.2

def indentsScale (pairs : List (String × String)) (unit : Nat) : Bool :=
  pairs.all fun p =>
    countLeadingWhitespace p.1 = 0 || countLeadingWhitespace p.2 = countLeadingWhitespace p.1 * unit

def indentDeltas (pairs : List (String × String)) : List Int :=
  pairs.map fun p => (countLeadingWhitespace p.2 : Int) - countLeadingWhitespace p.1

def uniformDelta : List Int → Option Int
  | [] => none
  | delta :: deltas => if deltas.all (· = delta) then some delta else none

def maybeConvertTabIndentation (oldProfile actualProfile newProfile : IndentProfile)
    (newText : String) : Option String :=
  if !actualProfile.spaceOnly || !oldProfile.tabOnly || !newProfile.tabOnly ||
    actualProfile.unit = 0 then none
  else if indentsScale (nonEmptyPairs oldProfile.lines actualProfile.lines) actualProfile.unit then
    some (convertLeadingTabsToSpaces newText actualProfile.unit)
  else none

def computeUniformIndentDelta (oldProfile actualProfile : IndentProfile) : Option Int :=
  uniformDelta (indentDeltas (nonEmptyPairs oldProfile.lines actualProfile.lines))

def shiftLine (delta : Int) (indentChar : Char) (line : String) : String :=
  if !isNonEmptyLine line then line
  else if 0 < delta then String.ofList (List.replicate delta.toNat indentChar ++ line.toList)
  else slice line (min (-delta).toNat (countLeadingWhitespace line))

def applyIndentDelta (text : String) (delta : Int) (indentChar : Char) : String :=
  joinLines ((splitLines text).map (shiftLine delta indentChar))

def hasNonEmptyIndentProfiles (profiles : List IndentProfile) : Bool := profiles.all fun p =>
  0 < p.nonEmptyCount

def hasMixedIndentation (profiles : List IndentProfile) : Bool := profiles.any fun p => p.mixed

def charsDiffer (a b : Option Char) : Bool := a.isSome && b.isSome && a ≠ b

def adjustIndentation (oldText actualText newText : String) : String :=
  if oldText = actualText then newText
  else if isIndentationOnlyRewrite oldText newText then newText
  else
    let oldProfile := buildIndentProfile oldText
    let actualProfile := buildIndentProfile actualText
    let newProfile := buildIndentProfile newText
    if !hasNonEmptyIndentProfiles [oldProfile, actualProfile, newProfile] then newText
    else if hasMixedIndentation [oldProfile, actualProfile, newProfile] then newText
    else if charsDiffer oldProfile.char actualProfile.char then
      (maybeConvertTabIndentation oldProfile actualProfile newProfile newText).getD newText
    else
      match computeUniformIndentDelta oldProfile actualProfile with
      | none => newText
      | some delta =>
        if delta = 0 then newText
        else if charsDiffer newProfile.char actualProfile.char then newText
        else
          let indentChar :=
            (actualProfile.char <|> oldProfile.char).getD (detectIndentChar actualText)
          applyIndentDelta newText delta indentChar

theorem adjustIndentation_self (oldText newText : String) :
    adjustIndentation oldText oldText newText = newText := by
  rw [adjustIndentation, if_pos rfl]

end JevCode.Edit
