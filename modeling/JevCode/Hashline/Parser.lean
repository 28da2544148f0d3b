import JevCode.Hashline.Ops
import JevCode.Text.Trim

/-! `parser.ts`: the text of a diff section down to its ops. The regular expressions are unfolded
into scans of the line; none of them can match in more than one way. -/

namespace JevCode.Hashline

open JevCode.Text

def beginPatchMarker : String := "*** Begin Patch"
def endPatchMarker : String := "*** End Patch"
def abortMarker : String := "*** Abort"

def abortWarning : String :=
  "Tool stream truncated mid-call due to detected output corruption. Applied ops above are valid. Re-issue any remaining edits."

def opInsertBefore : Char := '«'
def opInsertAfter : Char := '»'
def opReplace : Char := '≔'
def filePrefix : Char := '§'

inductive ParseError
  | expectedAnchor (lineNum : Nat) (raw : String)
  | twoAnchors (lineNum : Nat)
  | endsBeforeStart (lineNum : Nat) (startRaw endRaw : String)
  | twoHashes (lineNum : Nat) (startRaw endRaw : String)
  | payloadRequired (lineNum : Nat)
  | unrecognizedOp (lineNum : Nat) (line : String)
  | noPrecedingOp (lineNum : Nat) (line : String)
  deriving DecidableEq

def isLower (c : Char) : Bool := 'a' ≤ c && c ≤ 'z'

def bodyAndEnd (s : List Char) : Option (Option (List Char)) :=
  match s with
  | '|' :: rest =>
    if (rest.dropWhile isDot).all isSpace then some (some (rest.takeWhile isDot)) else none
  | _ => if s.all isSpace then some none else none

def matchLid (raw : List Char) : Option Anchor :=
  let s := trimStart ((trimStart raw).dropWhile fun c => c ∈ ['>', '+', '-', '*'])
  let digits := s.takeWhile isDigit
  match digits, s.dropWhile isDigit with
  | d :: _, a :: b :: rest =>
    if d ≠ '0' ∧ isLower a ∧ isLower b ∧ (bodyAndEnd rest).isSome then
      some ⟨digits.foldl (fun n c => 10 * n + (c.toNat - '0'.toNat)) 0, String.ofList [a, b]⟩
    else none
  | _, _ => none

def parseLid (raw : List Char) (lineNum : Nat) : Except ParseError Anchor :=
  match matchLid raw with
  | some anchor => .ok anchor
  | none => .error (.expectedAnchor lineNum (String.ofList raw))

def splitDots : List Char → List (List Char)
  | '.' :: '.' :: rest => [] :: splitDots rest
  | c :: rest => (splitDots rest).modifyHead (c :: ·)
  | [] => [[]]

def parseRange (raw : List Char) (lineNum : Nat) : Except ParseError ParsedRange :=
  match splitDots raw with
  | [_] => do
    let start ← parseLid raw lineNum
    return ⟨start, start, Nat.le_refl _, fun _ => rfl⟩
  | [startRaw, endRaw] =>
    if startRaw = [] ∨ endRaw = [] then .error (.twoAnchors lineNum)
    else do
      let start ← parseLid startRaw lineNum
      let stop ← parseLid endRaw lineNum
      if h : stop.line < start.line then
        throw (.endsBeforeStart lineNum (String.ofList startRaw) (String.ofList endRaw))
      else if h' : stop.line = start.line ∧ stop.hash ≠ start.hash then
        throw (.twoHashes lineNum (String.ofList startRaw) (String.ofList endRaw))
      else return ⟨start, stop, Nat.le_of_not_lt h, fun heq => by simpa [heq] using h'⟩
  | _ => .error (.twoAnchors lineNum)

def parseInsertTarget (raw : List Char) (lineNum : Nat) (toCursor : Anchor → Cursor) :
    Except ParseError Cursor :=
  if raw = "BOF".toList then .ok .bof
  else if raw = "EOF".toList then .ok .eof
  else do
    let anchor ← parseLid raw lineNum
    return toCursor anchor

def resolveInlineInsertBody (cursor : Cursor) (body : Option (List Char)) : Option String :=
  match body with
  | none => none
  | some body =>
    match cursor.anchor? with
    | none => some (String.ofList body)
    | some anchor =>
      if computeLineHash anchor.line (String.ofList body) = anchor.hash then none
        else some (String.ofList body)

def matchInsert (op : Char) (line : List Char) : Option (List Char × Option (List Char)) :=
  match line with
  | [] => none
  | c :: rest =>
    if c ≠ op then none
    else
      let rest := trimStart rest
      let isTarget := fun c => c ≠ '|' && !isSpace c
      match rest.takeWhile isTarget with
      | [] => none
      | target => (bodyAndEnd (rest.dropWhile isTarget)).map fun body => (target, body)

def matchReplace (line : List Char) : Option (List Char) :=
  match line with
  | [] => none
  | c :: rest =>
    if c ≠ opReplace then none
    else
      let rest := trimStart rest
      match rest.takeWhile fun c => !isSpace c with
      | [] => none
      | d :: target =>
        if d ∈ ['+', '<', '-', '='] then none
        else if (rest.dropWhile fun c => !isSpace c).all isSpace then some (d :: target) else none

def isEnvelopeOrAbortMarkerLine (line : String) : Bool :=
  String.ofList (trimEnd line.toList) ∈ [beginPatchMarker, endPatchMarker, abortMarker]

def isPayloadTerminatorLine (line : String) : Bool :=
  (line.toList.head?.any fun c => c ∈ [filePrefix, opInsertBefore, opInsertAfter, opReplace]) ||
    isEnvelopeOrAbortMarkerLine line

def collectPayload (lines : List String) : List String × List String :=
  (lines.takeWhile fun line => !isPayloadTerminatorLine line,
    lines.dropWhile fun line => !isPayloadTerminatorLine line)

def parseOp (lineNum : Nat) (line : String) (payload : List String) :
    Except ParseError (Option Op) :=
  let insert (toCursor : Anchor → Cursor) (target : List Char) (body : Option (List Char)) : Except
    ParseError (Option Op) := do
    let cursor ← parseInsertTarget target lineNum toCursor
    match (resolveInlineInsertBody cursor body).toList ++ payload with
    | [] => throw (.payloadRequired lineNum)
    | first :: rest => return some (.insert cursor first rest)
  match matchInsert opInsertBefore line.toList with
  | some (target, body) => insert .beforeAnchor target body
  | none =>
    match matchInsert opInsertAfter line.toList with
    | some (target, body) => insert .afterAnchor target body
    | none =>
      match matchReplace line.toList with
      | some target => do
        let range ← parseRange target lineNum
        return some (.replace range payload)
      | none => .ok none

def parseLines (lineNum : Nat) : List String → Except ParseError (List (Nat × Op) × List String)
  | [] => .ok ([], [])
  | line :: rest =>
    if trim line.toList = [] then parseLines (lineNum + 1) rest
    else if line = endPatchMarker then .ok ([], [])
    else if line = abortMarker then .ok ([], [abortWarning])
    else if line = beginPatchMarker then parseLines (lineNum + 1) rest
    else do
      let payload := (collectPayload rest).1
      match ← parseOp lineNum line payload with
      | some op =>
        let (ops, warnings) ← parseLines (lineNum + 1 + payload.length) (collectPayload rest).2
        return ((lineNum, op) :: ops, warnings)
      | none =>
        if isPayloadTerminatorLine line || line.toList.head?.any (· ∈ ['-', '@', '¶']) then
          throw (.unrecognizedOp lineNum line)
        else throw (.noPrecedingOp lineNum line)
termination_by lines => lines.length
decreasing_by
  · simp
  · simp
  · simpa [collectPayload] using Nat.lt_succ_of_le (List.dropWhile_sublist _).length_le

def splitCrLf (text : String) : List String :=
  match (splitLines text).reverse with
  | [] => []
  | last :: initial =>
    (last :: initial.map fun line =>
      if line.toList.getLast? = some '\r' then String.ofList line.toList.dropLast else line).reverse

def parseHashlineWithWarnings (diff : String) : Except ParseError (List Edit × List String) := do
  let lines := splitCrLf diff
  let lines := if diff.toList.getLast? = some '\n' then lines.dropLast else lines
  let (ops, warnings) ← parseLines 1 lines
  return (pushOps 0 ops, warnings)

theorem notMem_of_mem_splitCrLf {text line : String} (h : line ∈ splitCrLf text) :
    '\n' ∉ line.toList := by
  unfold splitCrLf at h
  split at h
  · cases h
  · rename_i last initial heq
    have hlines : ∀ l ∈ last :: initial, '\n' ∉ l.toList := fun l hl =>
      notMem_of_mem_splitLines (List.mem_reverse.mp (heq ▸ hl))
    rw [List.mem_reverse, List.mem_cons] at h
    rcases h with rfl | h
    · exact hlines _ (by simp)
    · obtain ⟨l, hl, rfl⟩ := List.mem_map.mp h
      have hmem := hlines l (by simp [hl])
      split
      · rw [String.toList_ofList]
        exact fun hc => hmem (List.dropLast_subset _ hc)
      · exact hmem

def Edit.index : Edit → Nat
  | insert _ _ _ index | delete _ _ index => index

def diffLines (diff : String) : List String :=
  if diff.toList.getLast? = some '\n' then (splitCrLf diff).dropLast else splitCrLf diff

def isOpLine (line : String) : Bool :=
  line.toList.head?.any fun c => c ∈ [opInsertBefore, opInsertAfter, opReplace]

def IsInlineBody (header text : String) : Prop :=
  header.toList.head? ≠ some opReplace ∧
    ∃ target blanks, header.toList = target ++ '|' :: (text.toList ++ blanks) ∧
    blanks.all isSpace = true

theorem isPayloadTerminatorLine_of_isOpLine {line : String} (h : isOpLine line = true) :
    isPayloadTerminatorLine line = true := by
  unfold isOpLine at h
  rw [Option.any_eq_true] at h
  obtain ⟨c, hc, hop⟩ := h
  have hmem : c ∈ [filePrefix, opInsertBefore, opInsertAfter, opReplace] := by
    exact List.mem_cons_of_mem _ (of_decide_eq_true hop)
  rw [isPayloadTerminatorLine, hc, Option.any_some, decide_eq_true hmem, Bool.true_or]

structure ReadsHeader (header : String) (payload : List String) (op : Op) : Prop where
  head : isOpLine header = true
  payload : ∃ inline : Option String, op.payload = inline.toList ++ payload ∧
    ∀ text ∈ inline, IsInlineBody header text
  deletes : op.deleted = [] ↔ header.toList.head? ≠ some opReplace

def ReadAt (lineNum : Nat) (lines : List String) (p : Nat × Op) : Prop :=
  ∃ front header rest, lines = front ++ header :: rest ∧ p.1 = lineNum + front.length ∧
    ReadsHeader header (collectPayload rest).1 p.2

theorem ReadAt.behind {lineNum : Nat} {lines : List String} {p : Nat × Op} (front : List String)
    (h : ReadAt (lineNum + front.length) lines p) : ReadAt lineNum (front ++ lines) p := by
  obtain ⟨skipped, header, rest, rfl, hnum, hop⟩ := h
  refine ⟨front ++ skipped, header, rest, by simp, ?_, hop⟩
  rw [hnum, List.length_append, Nat.add_assoc]

end JevCode.Hashline
