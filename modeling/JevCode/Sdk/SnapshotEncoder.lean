import JevCode.Data.BinarySearch
import JevCode.Data.InsertionMap
import JevCode.Text.JsonStringify

/-! How a snapshot is written (`sdk/host/query/revision-store.ts`): its JSON is appended to a
staging buffer that is
flushed into chunks of bounded size, with an index of where the items and fields of the value are.

A value is a JSON value, so the cases of `#encode` for what JSON leaves out (`undefined`, functions,
symbols,
`toJSON`) do not come up. -/

namespace JevCode.Sdk

open Data Text Text.JsonSyntax

def snapshotChunkBytes : Nat := 4 * 1024 * 1024

inductive EncodeFailure
  | typeError
  | diverges
  deriving DecidableEq

def sliceUnits (text : List CodeUnit) (start stop : Nat) : List CodeUnit :=
  (text.take stop).drop start

def utf8ChunkEnd (text : List CodeUnit) (start maxBytes : Nat) : Nat :=
  let low := lastTrue (fun middle => utf8Length (sliceUnits text start middle) ≤ maxBytes) start
    (min text.length (start + maxBytes))
  if start < low ∧ low < text.length ∧ text[low - 1]?.any isHigh ∧
    text[low]?.any isLow then low - 1 else low

/-- The chunks that were flushed, what is staged of the next one, and the number of bytes in all. -/
structure ChunkWriter where
  chunks : List (List UInt8)
  buffer : List UInt8
  bytes : Nat

namespace ChunkWriter

def empty : ChunkWriter := ⟨[], [], 0⟩

def flush (w : ChunkWriter) : ChunkWriter :=
  if w.buffer.length = 0 then w else { w with chunks := w.chunks ++ [w.buffer], buffer := [] }

def appendStep (chunkBytes : Nat) (text : List CodeUnit) (offset : Nat) (w : ChunkWriter) :
    ChunkWriter × Nat :=
  let (w, remaining) :=
    if chunkBytes - w.buffer.length = 0 then (w.flush, chunkBytes)
      else (w, chunkBytes - w.buffer.length)
  let stop := utf8ChunkEnd text offset remaining
  if stop = offset then (w.flush, offset)
  else
    let data := utf8Bytes (wellFormedChars (sliceUnits text offset stop))
    let w := { w with buffer := w.buffer ++ data, bytes := w.bytes + data.length }
    (if w.buffer.length = chunkBytes then w.flush else w, stop)

def appendLoop (chunkBytes : Nat) (text : List CodeUnit) :
    Nat → Nat → ChunkWriter → Except EncodeFailure ChunkWriter
  | 0, offset, w => if offset < text.length then .error .diverges else .ok w
  | fuel + 1, offset, w =>
    if offset < text.length then
      let (w, offset) := w.appendStep chunkBytes text offset
      appendLoop chunkBytes text fuel offset w
    else .ok w

end ChunkWriter

abbrev Encoding (α : Type) := StateT ChunkWriter (Except EncodeFailure) α

section

variable (chunkBytes : Nat)

def append (text : List CodeUnit) : Encoding Unit := fun w => do
  return ((), ← w.appendLoop chunkBytes text (2 * text.length) 0)

def position : Encoding Nat := return (← get).bytes

structure StringCheckpoint where
  decodedOffset : Nat
  serializedOffset : Nat
  deriving DecidableEq

structure EscapedStringIndex where
  byteLength : Nat
  checkpoints : List StringCheckpoint
  deriving DecidableEq

def stringIndexBytes : Nat := 64 * 1024

def EscapedStringIndex.lastOffset (index : EscapedStringIndex) : Nat :=
  (index.checkpoints.getLast?.map StringCheckpoint.decodedOffset).getD 0

def EscapedStringIndex.add (index : EscapedStringIndex) (decodedBytes serializedOffset : Nat) :
    EscapedStringIndex :=
  let byteLength := index.byteLength + decodedBytes
  if byteLength - index.lastOffset ≥ stringIndexBytes then
    ⟨byteLength, index.checkpoints ++ [⟨byteLength, serializedOffset⟩]⟩
  else ⟨byteLength, index.checkpoints⟩

def EscapedStringIndex.close (index : EscapedStringIndex) (serializedOffset : Nat) :
    EscapedStringIndex :=
  if index.lastOffset ≠ index.byteLength then
    ⟨index.byteLength, index.checkpoints ++ [⟨index.byteLength, serializedOffset⟩]⟩
  else index

def encodeUnit (u : CodeUnit) (next : Option CodeUnit) : List CodeUnit × List CodeUnit :=
  if u = 0x22 then ([0x5c, 0x22], [0x22])
  else if u = 0x5c then ([0x5c, 0x5c], [0x5c])
  else if u = 0x08 then ([0x5c, 0x62], [0x08])
  else if u = 0x0c then ([0x5c, 0x66], [0x0c])
  else if u = 0x0a then ([0x5c, 0x6e], [0x0a])
  else if u = 0x0d then ([0x5c, 0x72], [0x0d])
  else if u = 0x09 then ([0x5c, 0x74], [0x09])
  else if isHigh u && next.any isLow then (u :: next.toList, u :: next.toList)
  else if u < 0x20 || isHigh u || isLow u then (0x5c :: 0x75 :: hex4 u, [u])
  else ([u], [u])

def encodeUnits : List CodeUnit → List (List CodeUnit × List CodeUnit)
  | [] => []
  | [u] => [encodeUnit u none]
  | u :: v :: s =>
    if (encodeUnit u (some v)).2.length = 2 then encodeUnit u (some v) :: encodeUnits s
    else encodeUnit u (some v) :: encodeUnits (v :: s)

structure StringEncoder where
  output : List CodeUnit
  serializedOffset : Nat
  stringIndex : Option EscapedStringIndex

def encodeStringStep (st : StringEncoder) (unit : List CodeUnit × List CodeUnit) :
    Encoding StringEncoder := do
  let output := st.output ++ unit.1
  let serializedOffset :=
    if st.stringIndex.isSome then st.serializedOffset + utf8Length unit.1 else st.serializedOffset
  let stringIndex := st.stringIndex.map fun index => index.add (utf8Length unit.2) serializedOffset
  if output.length ≥ 64 * 1024 then
    append chunkBytes output
    return ⟨[], serializedOffset, stringIndex⟩
  return ⟨output, serializedOffset, stringIndex⟩

def encodeString (value : List CodeUnit) (indexEscapedString : Bool) :
    Encoding (Option EscapedStringIndex) := do
  append chunkBytes [quote]
  let stringIndex := if indexEscapedString then some ⟨0, [⟨0, 1⟩]⟩ else none
  let st ← (encodeUnits value).foldlM (encodeStringStep chunkBytes) ⟨[], 1, stringIndex⟩
  if st.output ≠ [] then append chunkBytes st.output
  append chunkBytes [quote]
  return st.stringIndex.map fun index => index.close st.serializedOffset

variable {ν : Type} (numberText : ν → Numeral)

mutual

def encode : JsonValue ν → Encoding Unit
  | .leaf .null => append chunkBytes (charsUnits ['n', 'u', 'l', 'l'])
  | .leaf (.boolean true) => append chunkBytes (charsUnits ['t', 'r', 'u', 'e'])
  | .leaf (.boolean false) => append chunkBytes (charsUnits ['f', 'a', 'l', 's', 'e'])
  | .leaf (.number n) => append chunkBytes (charsUnits (numberText n).chars)
  | .leaf (.string s) => do
    let _ ← encodeString chunkBytes s false
  | .arr items => do
    append chunkBytes (charsUnits ['['])
    encodeItems true items
    append chunkBytes (charsUnits [']'])
  | .obj fields => do
    append chunkBytes (charsUnits ['\x7b'])
    encodeFields true fields
    append chunkBytes (charsUnits ['\x7d'])

def encodeItems (first : Bool) : List (JsonValue ν) → Encoding Unit
  | [] => pure ()
  | item :: items => do
    if !first then append chunkBytes (charsUnits [','])
    encode item
    encodeItems false items

def encodeFields (first : Bool) : List (List CodeUnit × JsonValue ν) → Encoding Unit
  | [] => pure ()
  | (key, child) :: fields => do
    if !first then append chunkBytes (charsUnits [','])
    let _ ← encodeString chunkBytes key false
    append chunkBytes (charsUnits [':'])
    encode child
    encodeFields false fields

end

structure FieldInfo where
  plainStringBytes : Option Nat
  isString : Bool
  stringIndex : Option EscapedStringIndex
  deriving DecidableEq

structure IndexedField extends FieldInfo where
  start : Nat
  stop : Nat
  deriving DecidableEq

abbrev FieldIndex := InsertionMap (List CodeUnit) IndexedField

structure IndexedItem where
  start : Nat
  stop : Nat
  entryId : Option (List CodeUnit)
  fields : Option FieldIndex

structure RevisionIndex where
  items : Option (List IndexedItem)
  fields : Option FieldIndex

def isPlainJsonString (s : List CodeUnit) : Bool :=
  s.all fun u => !(u = 0x22 || u = 0x5c || u ≤ 0x1f || (0xd800 ≤ u && u ≤ 0xdfff))

def encodeIndexedValue : JsonValue ν → Encoding FieldInfo
  | .leaf (.string s) =>
    if isPlainJsonString s then do
      let _ ← encodeString chunkBytes s false
      return ⟨some (utf8Length s), true, none⟩
    else do
      let stringIndex ← encodeString chunkBytes s true
      return ⟨none, true, stringIndex⟩
  | value => do
    encode chunkBytes numberText value
    return ⟨none, false, none⟩

def protoKey : List CodeUnit := charsUnits ['_', '_', 'p', 'r', 'o', 't', 'o', '_', '_']

def assignField (key : List CodeUnit) (field : IndexedField) (fields : FieldIndex) : FieldIndex :=
  if key = protoKey then fields else fields.set key field

def isNull : JsonValue ν → Bool
  | .leaf .null => true
  | _ => false

mutual

/-- `String(value)`; an object with a field `toString` has no text, as no JSON value is a function.
-/
def toText : JsonValue ν → Except EncodeFailure (List CodeUnit)
  | .leaf .null => .ok (charsUnits ['n', 'u', 'l', 'l'])
  | .leaf (.boolean true) => .ok (charsUnits ['t', 'r', 'u', 'e'])
  | .leaf (.boolean false) => .ok (charsUnits ['f', 'a', 'l', 's', 'e'])
  | .leaf (.number n) => .ok (charsUnits (numberText n).chars)
  | .leaf (.string s) => .ok s
  | .arr items => joinTexts true items
  | .obj fields =>
    if charsUnits ['t', 'o', 'S', 't', 'r', 'i', 'n', 'g'] ∈ fields.map Prod.fst
      then .error .typeError
    else .ok (charsUnits ['[', 'o', 'b', 'j', 'e', 'c', 't', ' ', 'O', 'b', 'j', 'e', 'c', 't', ']'])

def joinTexts (first : Bool) : List (JsonValue ν) → Except EncodeFailure (List CodeUnit)
  | [] => .ok []
  | item :: items => do
    let text ← toText item
    let more ← joinTexts false items
    return (if first then [] else [comma]) ++ (if isNull item then [] else text) ++ more

end

def entryIdOf (child : JsonValue ν) : Except EncodeFailure (List CodeUnit) :=
  if isNull child then .ok [] else toText numberText child

def idKey : List CodeUnit := charsUnits ['i', 'd']

def assignEntryId (withId : Bool) (key : List CodeUnit) (child : JsonValue ν)
    (entryId : Option (List CodeUnit)) :
    Except EncodeFailure (Option (List CodeUnit)) :=
  if withId ∧ key = idKey then some <$> entryIdOf numberText child else .ok entryId

def encodeIndexedField (first : Bool) (key : List CodeUnit) (child : JsonValue ν) :
    Encoding IndexedField := do
  if !first then append chunkBytes (charsUnits [','])
  let _ ← encodeString chunkBytes key false
  append chunkBytes (charsUnits [':'])
  let start ← position
  let info ← encodeIndexedValue chunkBytes numberText child
  let stop ← position
  return ⟨info, start, stop⟩

/-- The loop over the fields of an object, in `#serialise` and, with the `id`, in
`#encodeIndexedItem`. -/
def encodeIndexedFields (withId first : Bool) (index : FieldIndex)
    (entryId : Option (List CodeUnit)) :
    List (List CodeUnit × JsonValue ν) → Encoding (FieldIndex × Option (List CodeUnit))
  | [] => return (index, entryId)
  | (key, child) :: fields => do
    let field ← encodeIndexedField chunkBytes numberText first key child
    let entryId ← assignEntryId numberText withId key child entryId
    encodeIndexedFields withId false (assignField key field index) entryId fields

def encodeIndexedItem : JsonValue ν → Encoding (Option (List CodeUnit) × Option FieldIndex)
  | .obj fields => do
    append chunkBytes (charsUnits ['\x7b'])
    let (index, entryId) ← encodeIndexedFields chunkBytes numberText true true .empty none fields
    append chunkBytes (charsUnits ['\x7d'])
    return (entryId, some index)
  | value => do
    encode chunkBytes numberText value
    return (none, none)

def encodePlacedItem (first : Bool) (item : JsonValue ν) : Encoding IndexedItem := do
  if !first then append chunkBytes (charsUnits [','])
  let start ← position
  let (entryId, fields) ← encodeIndexedItem chunkBytes numberText item
  let stop ← position
  return ⟨start, stop, entryId, fields⟩

def encodeIndexedItems (first : Bool) : List (JsonValue ν) → Encoding (List IndexedItem)
  | [] => return []
  | item :: items => do
    let indexed ← encodePlacedItem chunkBytes numberText first item
    return indexed :: (← encodeIndexedItems false items)

def encodeRoot : JsonValue ν → Encoding RevisionIndex
  | .arr items => do
    append chunkBytes (charsUnits ['['])
    let index ← encodeIndexedItems chunkBytes numberText true items
    append chunkBytes (charsUnits [']'])
    return ⟨some index, none⟩
  | .obj fields => do
    append chunkBytes (charsUnits ['\x7b'])
    let (index, _) ← encodeIndexedFields chunkBytes numberText false true .empty none fields
    append chunkBytes (charsUnits ['\x7d'])
    return ⟨none, some index⟩
  | root => do
    encode chunkBytes numberText root
    return ⟨none, none⟩

/-- The chunks by what they hold; each is a file under `objects` with the hash of its bytes as its
name. -/
structure SerializedRevision where
  chunks : List (List UInt8)
  bytes : Nat
  index : RevisionIndex

def serialise (value : JsonValue ν) : Except EncodeFailure SerializedRevision := do
  let (index, w) ← encodeRoot chunkBytes numberText value .empty
  return ⟨w.flush.chunks, w.flush.bytes, index⟩

end

end JevCode.Sdk
