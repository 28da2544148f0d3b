import JevCode.Text.Utf16
import JevCode.Tui.StdinBuffer

namespace JevCode.Tui.WordWrap

open JevCode.Text

/-- What the terminal helpers take from outside: `Intl.Segmenter`, `String.prototype.normalize`, the
native width of a text, and the width of a tab. -/
structure Display where
  segment : List CodeUnit → List (List CodeUnit)
  normalize : List CodeUnit → List CodeUnit
  nativeVisibleWidth : List CodeUnit → Nat → Nat
  tabWidth : Nat

def slice (s : List CodeUnit) (start stop : Nat) : List CodeUnit :=
  (s.drop start).take (stop - start)

def trimEndUnits (s : List CodeUnit) : List CodeUnit := s.rdropWhile isSpaceUnit

def isPrintableAsciiUnit (u : CodeUnit) : Bool := 0x20 ≤ u && u ≤ 0x7e

def isPrintableAscii (text : List CodeUnit) : Bool := text.all isPrintableAsciiUnit

/-- `visibleWidthRaw`; a text of one unit is a case of the pure ASCII texts, where the tabs count
`tabWidth` each. -/
def Display.visibleWidth (d : Display) (str : List CodeUnit) : Nat :=
  if str = [] then 0
  else
    let tabCount := str.count 9
    if str.all fun u =>
      u = 9 || isPrintableAsciiUnit u then str.length + tabCount * d.tabWidth - tabCount
    else
      let normalized := d.normalize str
      let text :=
        if tabCount = 0 then normalized
        else normalized.flatMap fun u => if u = 9 then List.replicate d.tabWidth 0x20 else [u]
      d.nativeVisibleWidth text d.tabWidth

def isWhiteSpace (u : CodeUnit) : Bool :=
  (0x09 ≤ u && u ≤ 0x0d) || u ∈ [0x20, 0x85, 0xa0, 0x1680, 0x2028, 0x2029, 0x202f, 0x205f, 0x3000] ||
    (0x2000 ≤ u && u ≤ 0x200a)

/-- Whether `getWordNavKind` is `"whitespace"`, which goes by the first code point; beyond the basic
plane there is no white space. -/
def isWhitespaceGrapheme (grapheme : List CodeUnit) : Bool := grapheme.head?.any isWhiteSpace

structure TextChunk where
  text : List CodeUnit
  startIndex : Nat
  endIndex : Nat
  deriving DecidableEq

def emptyChunk : TextChunk := ⟨[], 0, 0⟩

def isBlank (u : CodeUnit) : Bool := u = 0x20 || u = 0x09

def breakAt (line : List CodeUnit) (chunkStart : Nat) : Nat → Option Nat
  | 0 => none
  | i + 1 =>
    if i + 1 > chunkStart then if (line)[i]?.any isBlank then some i
      else breakAt line chunkStart i else none

def asciiChunkEnd (line : List CodeUnit) (maxWidth chunkStart : Nat) : Nat :=
  let chunkEnd := min line.length (chunkStart + maxWidth)
  if chunkEnd < line.length then
    match breakAt line chunkStart chunkEnd with
    | some i => if i > chunkStart then i else chunkEnd
    | none => chunkEnd
  else chunkEnd

def asciiLoop (line : List CodeUnit) (maxWidth : Nat) : Nat → Nat → List TextChunk → List TextChunk
  | 0, _, chunks => chunks
  | fuel + 1, chunkStart, chunks =>
    if chunkStart < line.length then
      let chunkEnd := asciiChunkEnd line maxWidth chunkStart
      let raw := slice line chunkStart chunkEnd
      let text := trimEndUnits raw
      let chunks :=
        if text ≠ [] ∨ chunks = [] then chunks ++
          [⟨text, chunkStart, chunkStart + raw.length⟩] else chunks
      asciiLoop line maxWidth fuel
        (chunkEnd + ((line.drop chunkEnd).takeWhile isBlank).length) chunks
    else chunks

def wordWrapAsciiLine (line : List CodeUnit) (maxWidth : Nat) : List TextChunk :=
  if line.length ≤ maxWidth then [⟨line, 0, line.length⟩]
  else
    let chunks := asciiLoop line maxWidth line.length 0 []
    if chunks ≠ [] then chunks else [emptyChunk]

structure Token where
  text : List CodeUnit
  startIndex : Nat
  endIndex : Nat
  isWhitespace : Bool
  deriving DecidableEq

structure Scan where
  tokens : List Token := []
  currentToken : List CodeUnit := []
  tokenStart : Nat := 0
  inWhitespace : Bool := false
  charIndex : Nat := 0

def Scan.push (sc : Scan) : List Token :=
  sc.tokens ++ [⟨sc.currentToken, sc.tokenStart, sc.charIndex, sc.inWhitespace⟩]

def Scan.step (sc : Scan) (grapheme : List CodeUnit) : Scan :=
  let graphemeIsWhitespace := isWhitespaceGrapheme grapheme
  let sc :=
    if sc.currentToken = [] then { sc with
      inWhitespace := graphemeIsWhitespace, tokenStart := sc.charIndex }
    else if graphemeIsWhitespace ≠ sc.inWhitespace then
      { tokens := sc.push, currentToken := [], tokenStart := sc.charIndex, inWhitespace := graphemeIsWhitespace
        charIndex := sc.charIndex }
    else sc
  { sc with
    currentToken := sc.currentToken ++ grapheme, charIndex := sc.charIndex + grapheme.length }

def tokensOf (graphemes : List (List CodeUnit)) : List Token :=
  let sc := graphemes.foldl Scan.step {}
  if sc.currentToken ≠ [] then sc.push else sc.tokens

namespace Display

variable (d : Display)

def consumeLoop (availableWidth : Nat) : List (List CodeUnit) → List CodeUnit → Nat → List CodeUnit
  | [], consumed, _ => consumed
  | grapheme :: graphemes, consumed, consumedWidth =>
    let graphemeWidth := d.visibleWidth grapheme
    if consumedWidth + graphemeWidth > availableWidth then consumed
    else if consumedWidth + graphemeWidth = availableWidth then consumed ++ grapheme
    else consumeLoop availableWidth graphemes (consumed ++ grapheme) (consumedWidth + graphemeWidth)

def consumePrefixToWidth (text : List CodeUnit) (availableWidth : Nat) : List CodeUnit :=
  d.consumeLoop availableWidth (d.segment text) [] 0

def hasWideGrapheme (text : List CodeUnit) : Bool := (d.segment text).any fun g =>
  d.visibleWidth g > 1

end Display

structure Wrap where
  chunks : List TextChunk := []
  currentChunk : List CodeUnit := []
  currentWidth : Nat := 0
  chunkStartIndex : Nat := 0
  atLineStart : Bool := true

structure Break where
  chunks : List TextChunk
  tokenChunk : List CodeUnit
  tokenChunkWidth : Nat
  tokenChunkStart : Nat
  tokenCharIndex : Nat

def Break.step (d : Display) (maxWidth : Nat) (br : Break) (grapheme : List CodeUnit) : Break :=
  let graphemeWidth := d.visibleWidth grapheme
  let br :=
    if br.tokenChunkWidth + graphemeWidth > maxWidth ∧ br.tokenChunk ≠ [] then
      { br with
        chunks := br.chunks ++ [⟨br.tokenChunk, br.tokenChunkStart, br.tokenCharIndex⟩]
        tokenChunk := grapheme
        tokenChunkWidth := graphemeWidth
        tokenChunkStart := br.tokenCharIndex }
    else
      { br with
        tokenChunk := br.tokenChunk ++ grapheme, tokenChunkWidth :=
        br.tokenChunkWidth + graphemeWidth }
  { br with tokenCharIndex := br.tokenCharIndex + grapheme.length }

namespace Wrap

def stepLong (d : Display) (maxWidth : Nat) (w : Wrap) (token : Token) : Wrap :=
  let consumed :=
    if w.currentChunk ≠ [] ∧ w.currentWidth < maxWidth then
      d.consumePrefixToWidth token.text (maxWidth - w.currentWidth)
    else []
  let consumedEnd := token.startIndex + consumed.length
  let w :=
    if w.currentChunk ≠ [] then
      { w with
        chunks := w.chunks ++ [⟨w.currentChunk ++ consumed, w.chunkStartIndex, consumedEnd⟩]
        currentChunk := []
        currentWidth := 0
        chunkStartIndex := consumedEnd }
    else w
  let br := (d.segment (token.text.drop consumed.length)).foldl (Break.step d maxWidth)
    ⟨w.chunks, [], 0, consumedEnd, consumedEnd⟩
  if br.tokenChunk ≠ [] then
    { w with
      chunks := br.chunks
      currentChunk := br.tokenChunk
      currentWidth := br.tokenChunkWidth
      chunkStartIndex := br.tokenChunkStart }
  else { w with chunks := br.chunks }

def stepBreak (w : Wrap) (token : Token) (tokenWidth : Nat) : Wrap :=
  let trimmedChunk := trimEndUnits w.currentChunk
  let chunks :=
    if trimmedChunk ≠ [] ∨ w.chunks = [] then
      w.chunks ++ [⟨trimmedChunk, w.chunkStartIndex, w.chunkStartIndex + w.currentChunk.length⟩]
    else w.chunks
  if token.isWhitespace then ⟨chunks, [], 0, token.endIndex, true⟩
  else ⟨chunks, token.text, tokenWidth, token.startIndex, false⟩

def stepFull (d : Display) (maxWidth : Nat) (w : Wrap) (token : Token) (tokenWidth : Nat) : Wrap :=
  let consumed :=
    if w.currentChunk ≠ [] ∧ !token.isWhitespace ∧ w.currentWidth < maxWidth ∧
      d.hasWideGrapheme token.text then
      d.consumePrefixToWidth token.text (maxWidth - w.currentWidth)
    else []
  if consumed ≠ [] then
    let remainder := token.text.drop consumed.length
    { chunks := w.chunks ++ [⟨w.currentChunk ++ consumed, w.chunkStartIndex, token.startIndex + consumed.length⟩]
      currentChunk := remainder
      currentWidth := d.visibleWidth remainder
      chunkStartIndex := token.startIndex + consumed.length
      atLineStart := false }
  else w.stepBreak token tokenWidth

def step (d : Display) (maxWidth : Nat) (w : Wrap) (token : Token) : Wrap :=
  let tokenWidth := d.visibleWidth token.text
  if w.atLineStart ∧ token.isWhitespace then { w with chunkStartIndex := token.endIndex }
  else
    let w := { w with atLineStart := false }
    if tokenWidth > maxWidth then w.stepLong d maxWidth token
    else if w.currentWidth + tokenWidth > maxWidth then w.stepFull d maxWidth token tokenWidth
    else { w with
      currentChunk := w.currentChunk ++ token.text, currentWidth := w.currentWidth + tokenWidth }

def finish (w : Wrap) (line : List CodeUnit) : List TextChunk :=
  let chunks :=
    if w.currentChunk ≠ [] then w.chunks ++
      [⟨w.currentChunk, w.chunkStartIndex, line.length⟩] else w.chunks
  if chunks ≠ [] then chunks else [emptyChunk]

end Wrap

def wordWrapLine (d : Display) (line : List CodeUnit) (maxWidth : Nat) : List TextChunk :=
  if line = [] ∨ maxWidth = 0 then [emptyChunk]
  else if isPrintableAscii line then wordWrapAsciiLine line maxWidth
  else if d.visibleWidth line ≤ maxWidth then [⟨line, 0, line.length⟩]
  else ((tokensOf (d.segment line)).foldl (Wrap.step d maxWidth) {}).finish line

end JevCode.Tui.WordWrap
