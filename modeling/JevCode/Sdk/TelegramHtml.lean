import JevCode.Text.Utf16

/-! `html-format.ts`: the tokens of a finished Telegram message, and cutting the message to length
between them. Messages are lists of UTF-16 units, which is what their length counts. -/

namespace JevCode.Sdk.Telegram

open JevCode.Text

def allowedTags : List (List CodeUnit) :=
  [units "b", units "i", units "u", units "s", units "code", units "pre", units "a",
    units "blockquote", units "tg-spoiler"]

structure Token where
  value : List CodeUnit
  opens : Option (List CodeUnit) := none
  openTag : Option (List CodeUnit) := none
  closes : Option (List CodeUnit) := none
  deriving DecidableEq

def isNameUnit (u : CodeUnit) : Bool :=
  (code 'a' ≤ u && u ≤ code 'z') || (code 'A' ≤ u && u ≤ code 'Z') || u = code '-'

def toLowerUnit (u : CodeUnit) : CodeUnit := if code 'A' ≤ u && u ≤ code 'Z' then u + 32 else u

def closeMatch : List CodeUnit → Option (List CodeUnit)
  | lt :: slash :: rest =>
    let name := rest.takeWhile isNameUnit
    if lt = code '<' ∧ slash = code '/' ∧ name ≠ [] ∧
      rest.drop name.length = [code '>'] then some name else none
  | _ => none

def isTagEnd : List CodeUnit → Bool
  | [] => false
  | u :: attributes =>
    (u = code '>' && attributes.isEmpty) ||
      (isSpaceUnit u && attributes.getLast? = some (code '>') && code '>' ∉ attributes.dropLast)

def openMatch : List CodeUnit → Option (List CodeUnit)
  | lt :: rest =>
    let name := rest.takeWhile isNameUnit
    if lt = code '<' ∧ name ≠ [] ∧ isTagEnd (rest.drop name.length) then some name else none
  | _ => none

def allowedName (name : List CodeUnit) : Option (List CodeUnit) :=
  let name := name.map toLowerUnit
  if allowedTags.contains name then some name else none

def tagToken (raw : List CodeUnit) : Token :=
  match (closeMatch raw).bind allowedName with
  | some name => { value := raw, closes := some name }
  | none =>
    match (openMatch raw).bind allowedName with
    | some name => { value := raw, opens := some name, openTag := some raw }
    | none => { value := raw }

def breakAfter (stop : CodeUnit) : List CodeUnit → Option (List CodeUnit × List CodeUnit)
  | [] => none
  | u :: s => if u = stop then some ([u], s) else (breakAfter stop s).map fun p => (u :: p.1, p.2)

def nextToken (ch : CodeUnit) (rest : List CodeUnit) : Token × List CodeUnit :=
  match if ch = code '<' then breakAfter (code '>') rest else none with
  | some (raw, behind) => (tagToken (ch :: raw), behind)
  | none =>
    match if ch = code '&' then (breakAfter (code ';') rest).filter (·.1.length ≤ 10) else none with
    | some (raw, behind) => ({ value := ch :: raw }, behind)
    | none => ({ value := [ch] }, rest)

def tokenizeWithin : Nat → List CodeUnit → List Token
  | fuel + 1, ch :: rest =>
    let next := nextToken ch rest
    next.1 :: tokenizeWithin fuel next.2
  | _, _ => []

def tokenize (html : List CodeUnit) : List Token := tokenizeWithin html.length html

def closer (name : List CodeUnit) : List CodeUnit := [code '<', code '/'] ++ name ++ [code '>']

def closersFor (stack : List (List CodeUnit)) : List CodeUnit := stack.flatMap closer

def nextStack (stack : List (List CodeUnit)) (token : Token) : List (List CodeUnit) :=
  match token.opens, token.closes with
  | some name, _ => name :: stack
  | none, some name => stack.erase name
  | none, none => stack

def truncateLoop (max : Nat) (marker : List CodeUnit) :
    List Token → List (List CodeUnit) → List CodeUnit →
    List CodeUnit
  | [], stack, out => out ++ closersFor stack ++ marker
  | token :: tokens, stack, out =>
    let projected :=
      out.length + token.value.length + (closersFor (nextStack stack token)).length + marker.length
    if projected > max then out ++ closersFor stack ++ marker
    else truncateLoop max marker tokens (nextStack stack token) (out ++ token.value)

def truncatedMarker : List CodeUnit := units "… [truncated]"

def truncateTelegramHtml (message : List CodeUnit) (max : Nat) (marker : List CodeUnit) :
    List CodeUnit :=
  if message.length ≤ max then message
  else
    let effectiveMarker := if marker.length ≤ max then marker else []
    truncateLoop max effectiveMarker (tokenize message) [] []

structure OpenTag where
  name : List CodeUnit
  tag : List CodeUnit
  deriving DecidableEq

structure SplitState where
  chunks : List (List CodeUnit) := []
  stack : List OpenTag := []
  out : List CodeUnit := []
  chunkHasBody : Bool := false

def tagClosers (stack : List OpenTag) : List CodeUnit := closersFor (stack.map OpenTag.name)

def tagOpeners (stack : List OpenTag) : List CodeUnit := stack.reverse.flatMap OpenTag.tag

def minimumChunkLengthFor (stack : List OpenTag) : Nat :=
  (tagOpeners stack).length + (tagClosers stack).length + 1

namespace SplitState

def flush (st : SplitState) : SplitState :=
  if !st.chunkHasBody then st
  else
    { st with
      chunks := st.chunks ++ [st.out ++ tagClosers st.stack]
      out := tagOpeners st.stack
      chunkHasBody := false }

def overflows (st : SplitState) (max : Nat) (value : List CodeUnit) (stack : List OpenTag) : Bool :=
  st.out.length + value.length + (tagClosers stack).length > max

def flushFor (st : SplitState) (max : Nat) (value : List CodeUnit)
    (stack : List OpenTag) : SplitState :=
  if st.chunkHasBody && st.overflows max value stack then st.flush else st

def append (st : SplitState) (value : List CodeUnit) (stack : List OpenTag) : SplitState :=
  { st with out := st.out ++ value, chunkHasBody := true, stack }

def stepOpen (st : SplitState) (max : Nat) (value : List CodeUnit) (opened : OpenTag) : SplitState :=
  let nextStack := opened :: st.stack
  if minimumChunkLengthFor nextStack > max then st
  else
    let st := st.flushFor max value nextStack
    if st.overflows max value nextStack then st else st.append value nextStack

def stepClose (st : SplitState) (max : Nat) (value : List CodeUnit)
    (name : List CodeUnit) : SplitState :=
  if st.stack.any (·.name = name) then
    let nextStack := st.stack.eraseP (·.name = name)
    let st := st.flushFor max value nextStack
    if st.overflows max value nextStack then { st with
      stack := nextStack } else st.append value nextStack
  else st

def stepText (st : SplitState) (max : Nat) (value : List CodeUnit) : SplitState :=
  let st := st.flushFor max value st.stack
  st.append value st.stack

def step (max : Nat) (st : SplitState) (token : Token) : SplitState :=
  match token.opens, token.closes with
  | some name, _ => st.stepOpen max token.value ⟨name, token.openTag.getD token.value⟩
  | none, some name => st.stepClose max token.value name
  | none, none => st.stepText max token.value

def finish (st : SplitState) : List (List CodeUnit) :=
  if st.chunkHasBody then st.chunks ++ [st.out ++ tagClosers st.stack] else st.chunks

end SplitState

def splitTelegramHtml (message : List CodeUnit) (max : Nat) : List (List CodeUnit) :=
  if message.length ≤ max then [message]
    else ((tokenize message).foldl (SplitState.step max) {}).finish

end JevCode.Sdk.Telegram
