import JevCode.Data.Search

/-! `tui/src/stdin-buffer.ts`: terminal input is cut into keys, control sequences and pastes. Strings
are lists of UTF-16 code units; what only a timer does is left out. -/

namespace JevCode.Tui

open JevCode.Data

abbrev CodeUnit := UInt16

def code (c : Char) : CodeUnit := .ofNat c.toNat

def esc : CodeUnit := 0x1b
def bel : CodeUnit := 0x07

def pasteStart : List CodeUnit := [esc, code '[', code '2', code '0', code '0', code '~']

def pasteEnd : List CodeUnit := [esc, code '[', code '2', code '0', code '1', code '~']

def isHighSurrogate (c : CodeUnit) : Bool := 0xd800 ≤ c && c ≤ 0xdbff

def isLowSurrogate (c : CodeUnit) : Bool := 0xdc00 ≤ c && c ≤ 0xdfff

def isDigit (c : CodeUnit) : Bool := code '0' ≤ c && c ≤ code '9'

def singleCodePoint : List CodeUnit → Option Nat
  | [c] => some c.toNat
  | [c, d] =>
    if isHighSurrogate c && isLowSurrogate d
      then some (0x10000 + (c.toNat - 0xd800) * 0x400 + (d.toNat - 0xdc00)) else none
  | _ => none

def isSgrMousePrefix (sequence : List CodeUnit) : Bool := [esc, code '[', code '<'] <+: sequence

/-- `\d+;\d+;\d+[Mm]` is matched one number at a time: `separators` are the characters after the
numbers. -/
def matchNumbers : List (CodeUnit → Bool) → List CodeUnit → Bool
  | [], text => text.isEmpty
  | separator :: separators, text =>
    let (digits, rest) := text.span isDigit
    match rest with
    | c :: rest => !digits.isEmpty && separator c && matchNumbers separators rest
    | [] => false

def isSgrMouseSequence (sequence : List CodeUnit) : Bool :=
  isSgrMousePrefix sequence &&
    matchNumbers [(· = code ';'), (· = code ';'), fun c => c = code 'M' || c = code 'm']
    (sequence.drop 3)

inductive Completeness
  | complete
  | incomplete
  | notEscape
  deriving DecidableEq

def isCompleteCsiSequence (data : List CodeUnit) : Completeness :=
  if ¬ [esc, code '['] <+: data then .complete
  else
    let payload := data.drop 2
    match payload.getLast? with
    | none => .incomplete
    | some lastChar =>
      if 0x40 ≤ lastChar && lastChar ≤ 0x7e then
        if [code '<'] <+: payload then
          if lastChar = code 'M' || lastChar = code 'm' then .complete else .incomplete
        else .complete
      else .incomplete

def isCompleteOscSequence (data : List CodeUnit) : Completeness :=
  if ¬ [esc, code ']'] <+: data then .complete
  else if [esc, code '\\'] <:+ data || [bel] <:+ data then .complete
  else .incomplete

def isCompleteStringSequence (introducer : CodeUnit) (data : List CodeUnit) : Completeness :=
  if ¬ [esc, introducer] <+: data then .complete
  else if [esc, code '\\'] <:+ data then .complete
  else .incomplete

def isCompleteDcsSequence : List CodeUnit → Completeness := isCompleteStringSequence (code 'P')

def isCompleteApcSequence : List CodeUnit → Completeness := isCompleteStringSequence (code '_')

def isCompleteSequence : List CodeUnit → Completeness
  | [] => .notEscape
  | c :: afterEsc =>
    if c ≠ esc then .notEscape
    else
      match afterEsc with
      | [] => .incomplete
      | d :: rest =>
        if d = esc then isCompleteSequence (d :: rest)
        else if d = code '[' then
          if [code 'M'] <+: rest then if 6 ≤ (c :: d :: rest).length then .complete else .incomplete
          else isCompleteCsiSequence (c :: d :: rest)
        else if d = code ']' then isCompleteOscSequence (c :: d :: rest)
        else if d = code 'P' then isCompleteDcsSequence (c :: d :: rest)
        else if d = code '_' then isCompleteApcSequence (c :: d :: rest)
        else if d = code 'O' then if 2 ≤ (d :: rest).length then .complete else .incomplete
        else if rest.isEmpty then if isHighSurrogate d then .incomplete else .complete
        else .complete

def parseUnmodifiedKittyPrintableCodepoint (sequence : List CodeUnit) : Option Nat :=
  if ¬ [esc, code '['] <+: sequence then none
  else
    let (digits, rest) := (sequence.drop 2).span isDigit
    let ends := fun rest : List CodeUnit => decide (rest = [code 'u'])
    let matched : Bool := !digits.isEmpty &&
      (ends rest ||
        match rest with
        | c :: rest =>
          let (_, rest) := rest.span isDigit
          c = code ':' &&
            (ends rest ||
              match rest with
              | c :: rest =>
                let (digits, rest) := rest.span isDigit
                c = code ':' && !digits.isEmpty && ends rest
              | [] => false)
        | [] => false)
    let codepoint := digits.foldl (fun n c => 10 * n + (c.toNat - (code '0').toNat)) 0
    if matched && 32 ≤ codepoint then some codepoint else none

def continuesAsStringTerminator (remaining : List CodeUnit) (index : Nat) : Bool :=
  if remaining[1]? ≠ some (code ']') && remaining[1]? ≠ some (code 'P') && remaining[1]? ≠
    some (code '_') then false
  else remaining[index + 1]? = none || remaining[index + 1]? = some (code '\\')

def isEscapeRun (text : List CodeUnit) : Bool := !text.isEmpty && text.all (· = esc)

def splitResolvedEscapeRun (buffer : List CodeUnit) : List (List CodeUnit) :=
  if isEscapeRun buffer && 2 ≤ buffer.length then buffer.map ([·]) else [buffer]

/-- What the loop of `extractCompleteSequences` does at `seqEnd`: the sequences it pushes and how far
it goes on. -/
def sequencesAt (remaining : List CodeUnit) (seqEnd : Nat) : Option (List (List CodeUnit) × Nat) :=
  let candidate := remaining.take seqEnd
  match isCompleteSequence candidate with
  | .complete => some ([candidate], seqEnd)
  | .incomplete =>
    if remaining[seqEnd]? = some esc && 2 ≤ seqEnd &&
      !continuesAsStringTerminator remaining seqEnd then
      let trailing := remaining.drop seqEnd
      if isEscapeRun candidate && (trailing[0]? = some esc && trailing[1]?.any (· ≠ esc)) then
        some (candidate.dropLast.map ([·]), seqEnd - 1)
      else if isEscapeRun candidate then some (candidate.map ([·]), seqEnd)
      else some ([candidate], seqEnd)
    else none
  | .notEscape => some ([candidate], seqEnd)

def findSequences (remaining : List CodeUnit) : Option (List (List CodeUnit) × Nat) :=
  (List.range' 1 remaining.length).findSome? (sequencesAt remaining)

structure Extracted where
  sequences : List (List CodeUnit)
  remainder : List CodeUnit
  escapeRunRemainder : Nat

def Extracted.after (sequences : List (List CodeUnit)) (rest : Extracted) : Extracted :=
  { rest with sequences := sequences ++ rest.sequences }

def escapeRunLength (knownEscapeRunLength : Nat) (remaining : List CodeUnit) : Nat :=
  let start := max knownEscapeRunLength 1
  start + ((remaining.drop start).takeWhile (· = esc)).length

/-- The loop of `extractCompleteSequences` from a position on; every round takes at least one
character. -/
def extractFrom : Nat → Nat → List CodeUnit → Extracted
  | _, _, [] => ⟨[], [], 0⟩
  | 0, _, remaining => ⟨[], remaining, 0⟩
  | rounds + 1, knownEscapeRunLength, c :: rest =>
    let remaining := c :: rest
    if c = esc then
      if 3 ≤ remaining.length && remaining[1]?.any isHighSurrogate &&
        !remaining[2]?.any isLowSurrogate then
        (extractFrom rounds 0 (remaining.drop 2)).after [remaining.take 2]
      else
        let runLength := escapeRunLength knownEscapeRunLength remaining
        if runLength = remaining.length then
          if 0 < runLength - 2
            then ⟨.replicate (runLength - 2) [esc], remaining.drop (runLength - 2), 2⟩
          else ⟨[], remaining, runLength⟩
        else if 2 < runLength then
          (extractFrom rounds 0 (remaining.drop (runLength - 2))).after
            (.replicate (runLength - 2) [esc])
        else
          match findSequences remaining with
          | some (sequences, consumed) =>
            (extractFrom rounds 0 (remaining.drop consumed)).after sequences
          | none => ⟨[], remaining, 0⟩
    else if isHighSurrogate c && remaining.length = 1 then ⟨[], remaining, 0⟩
    else if isHighSurrogate c && remaining[1]?.any isLowSurrogate then
      (extractFrom rounds 0 (remaining.drop 2)).after [remaining.take 2]
    else (extractFrom rounds 0 rest).after [[c]]

def extractCompleteSequences (buffer : List CodeUnit) (knownEscapeRunLength : Nat) : Extracted :=
  extractFrom buffer.length knownEscapeRunLength buffer

inductive Event
  | data (sequence : List CodeUnit)
  | paste (content : List CodeUnit)
  deriving DecidableEq

structure StdinBuffer where
  buffer : List CodeUnit
  bufferedEscapeRunLength : Nat
  pasteMode : Bool
  pasteBuffer : List CodeUnit
  pendingKittyPrintableCodepoint : Option Nat
  emitted : List Event
  deriving DecidableEq

namespace StdinBuffer

def new : StdinBuffer where
  buffer := []
  bufferedEscapeRunLength := 0
  pasteMode := false
  pasteBuffer := []
  pendingKittyPrintableCodepoint := none
  emitted := []

variable (s : StdinBuffer)

def emitDataSequence (sequence : List CodeUnit) : StdinBuffer :=
  let rawCodepoint := singleCodePoint sequence
  if rawCodepoint.isSome && rawCodepoint = s.pendingKittyPrintableCodepoint then
    { s with pendingKittyPrintableCodepoint := none }
  else
    { s with
      pendingKittyPrintableCodepoint := parseUnmodifiedKittyPrintableCodepoint sequence
      emitted := s.emitted ++ [.data sequence] }

def emitBeforePaste (beforePaste : List CodeUnit) : StdinBuffer :=
  let result := extractCompleteSequences beforePaste 0
  let s := result.sequences.foldl emitDataSequence s
  if result.remainder.isEmpty then s else (splitResolvedEscapeRun result.remainder).foldl
    emitDataSequence s

def endPaste : StdinBuffer × List CodeUnit :=
  match indexOf pasteEnd s.pasteBuffer with
  | some endIndex =>
    ({ s with
        pasteMode := false, pasteBuffer := [], pendingKittyPrintableCodepoint := none
        emitted := s.emitted ++ [.paste (s.pasteBuffer.take endIndex)] },
      s.pasteBuffer.drop (endIndex + pasteEnd.length))
  | none => (s, [])

def processUntilPaste (str : List CodeUnit) : StdinBuffer × List CodeUnit :=
  if str.isEmpty && s.buffer.isEmpty then (s.emitDataSequence [], [])
  else
    let buffer := s.buffer ++ str
    if s.pasteMode then
      { s with
        buffer := [], bufferedEscapeRunLength := 0, pasteBuffer := s.pasteBuffer ++ buffer }.endPaste
    else
      let pasteScanFrom := s.bufferedEscapeRunLength - pasteStart.length
      match indexOf pasteStart (buffer.drop pasteScanFrom) with
      | some index =>
        let startIndex := pasteScanFrom + index
        let s := if 0 < startIndex then s.emitBeforePaste (buffer.take startIndex) else s
        { s with
          buffer := [], bufferedEscapeRunLength := 0, pasteMode := true
          pasteBuffer :=
            buffer.drop (startIndex + pasteStart.length), pendingKittyPrintableCodepoint :=
              none }.endPaste
      | none =>
        let result := extractCompleteSequences buffer s.bufferedEscapeRunLength
        let s :=
          { s with buffer := result.remainder, bufferedEscapeRunLength := result.escapeRunRemainder }
        ((result.sequences.filter fun sequence =>
          !(isSgrMousePrefix sequence && !isSgrMouseSequence sequence)).foldl
          emitDataSequence s, [])

def processRounds : Nat → StdinBuffer → List CodeUnit → StdinBuffer
  | 0, s, _ => s
  | rounds + 1, s, str =>
    match s.processUntilPaste str with
    | (s, []) => s
    | (s, remaining) => processRounds rounds s remaining

def process (str : List CodeUnit) : StdinBuffer :=
  processRounds (s.buffer.length + s.pasteBuffer.length + str.length + 1) s str

end StdinBuffer

def eventsOf (chunks : List (List CodeUnit)) : List Event :=
  (chunks.foldl StdinBuffer.process .new).emitted

end JevCode.Tui
