import Mathlib.Data.List.Sort
import JevCode.Data.RefCounts
import JevCode.Data.Runs
import JevCode.Text.Utf8

/-! `sdk/host/query/revision-store.ts` as a transition system. Code between two `await`s runs to its
end; file operations take effect in between, in any order. Payloads are their canonical JSON text. -/

namespace JevCode.Sdk

open JevCode.Text JevCode.Data

def maxRevisionsPerResource : Nat := 8
def maxPinnedRevisions : Nat := 128
def maxMemoryBytes : Nat := 16 * 1024 * 1024
def snapshotTtlMs : Int := 15 * 60 * 1000
def chunkBytes : Nat := 4 * 1024 * 1024

def chunksOf : Chars → List Chars
  | [] => []
  | c :: t =>
    let chunk := fitPrefix (chunkBytes - c.utf8Size) t
    (c :: chunk) :: chunksOf (t.drop chunk.length)
termination_by t => t.length

/-- A file below the snapshot directory, named by the hash of what it is for. -/
inductive File (Hash : Type)
  | object (hash : Hash)
  | manifest (hash : Hash)
  deriving DecidableEq

inductive Content (Hash : Type)
  | data (text : Chars)
  | manifest (chunks : List (Hash × Nat))
  deriving DecidableEq

/-- `uid` is the identity of the object; ids start again when all revisions of a resource are gone.
-/
structure Revision (Hash : Type) where
  uid : Nat
  id : Nat
  hash : Hash
  bytes : Nat
  payload : Option Chars
  chunks : List Hash
  chunkLengths : List Nat
  pins : List String
  lastAccessed : Int
  deriving DecidableEq

def Revision.files {Hash : Type} (r : Revision Hash) : List (File Hash) :=
  .manifest r.hash :: r.chunks.map .object

structure Bucket (Hash : Type) where
  key : String
  array : Nat
  revisions : List (Revision Hash)

inductive Phase (Hash : Type)
  | writing (rest : List Chars)
  | reading (data : Chars) (rest : List (Hash × Nat))
  | serialised (payload : Option Chars)
  | discarding (id : Nat)
  | trimming (array id : Nat)
  | settled (result : Option Nat)
  deriving DecidableEq

structure Creation (Hash : Type) where
  key : String
  text : Chars
  chunks : List Hash
  chunkLengths : List Nat
  phase : Phase Hash
  deriving DecidableEq

inductive ReadState (Hash : Type)
  | reading (data : Chars) (rest : List (Hash × Nat))
  | done (text : Chars)
  | failed
  deriving DecidableEq

structure Reader (Hash : Type) where
  uid : Nat
  state : ReadState Hash
  deriving DecidableEq

/-- The store, the files it can see and the calls under way. -/
structure Store (Hash : Type) where
  resources : List (Bucket Hash)
  pinIndex : List (String × Nat)
  memoryBytes : Int
  /-- `#chunkRefs` and `#manifestRefs`; a file that is not in the map counts zero. -/
  refs : File Hash → Nat
  files : File Hash → Option (Content Hash)
  unlinks : List (File Hash)
  creations : List (Creation Hash)
  readers : List (Reader Hash)
  nextUid : Nat
  nextArray : Nat

variable {Hash : Type}

/-- A new store on a directory that may hold files already. -/
def Store.new (files : File Hash → Option (Content Hash)) : Store Hash :=
  ⟨[], [], 0, fun _ => 0, files, [], [], [], 0, 0⟩

def resourceKey (resourceKind resourceId : String) : String := resourceKind ++ ":" ++ resourceId

namespace Store

def listed (s : Store Hash) : List (Revision Hash) := s.resources.flatMap Bucket.revisions

def bucket? (s : Store Hash) (key : String) : Option (Bucket Hash) := s.resources.find? (·.key = key)

def revision? (s : Store Hash) (key : String) (id : Nat) : Option (Revision Hash) :=
  (s.bucket? key).bind fun b => b.revisions.find? (·.id = id)

def updateRevision (s : Store Hash) (uid : Nat) (f : Revision Hash → Revision Hash) : Store Hash :=
  { s with resources := s.resources.map fun b =>
    { b with revisions := b.revisions.map fun r => if r.uid = uid then f r else r } }

def evictsBefore (a b : Revision Hash) : Prop :=
  a.pins.length < b.pins.length ∨ a.pins.length = b.pins.length ∧ a.lastAccessed ≤ b.lastAccessed

instance : DecidableRel (@evictsBefore Hash) := fun _ _ =>
  inferInstanceAs (Decidable (_ ∨ _ ∧ _))

def evictionCandidate (s : Store Hash) : Option (Revision Hash) :=
  ((s.listed.filter (·.payload.isSome)).insertionSort evictsBefore).head?

def enforceMemoryLoop : Nat → Store Hash → Store Hash
  | 0, s => s
  | n + 1, s =>
    if s.memoryBytes > maxMemoryBytes then
      match s.evictionCandidate with
      | none => s
      | some candidate => enforceMemoryLoop n
        { s.updateRevision candidate.uid ({ · with payload := none }) with
          memoryBytes := s.memoryBytes - candidate.bytes }
    else s

def enforceMemory (s : Store Hash) : Store Hash := s.enforceMemoryLoop s.listed.length

section

variable [DecidableEq Hash]

def drop (s : Store Hash) (r : Revision Hash) : Store Hash :=
  let after := releaseAll s.refs r.files
  { s with
    memoryBytes := if r.payload.isSome then s.memoryBytes - r.bytes else s.memoryBytes
    pinIndex := s.pinIndex.filter (·.1 ∉ r.pins)
    refs := after.1
    unlinks := s.unlinks ++ after.2 }

def trimLoop : Nat → List (Revision Hash) → List (Revision Hash) × List (Revision Hash)
  | 0, revisions => (revisions, [])
  | n + 1, revisions =>
    match revisions.find? (·.pins = []) with
    | none => (revisions, [])
    | some candidate =>
      let after := trimLoop n (revisions.eraseP (·.pins = []))
      (after.1, candidate :: after.2)

def trimmed (revisions : List (Revision Hash)) : List (Revision Hash) × List (Revision Hash) :=
  trimLoop (revisions.length - maxRevisionsPerResource) revisions

def trimBuckets (array : Nat) : List (Bucket Hash) → List (Bucket Hash) × List (Revision Hash)
  | [] => ([], [])
  | b :: bs =>
    if b.array = array then ({ b with
      revisions := (trimmed b.revisions).1 } :: bs, (trimmed b.revisions).2)
    else (b :: (trimBuckets array bs).1, (trimBuckets array bs).2)

def expired (now : Int) (r : Revision Hash) : Bool :=
  r.pins.isEmpty && r.lastAccessed < now - snapshotTtlMs

def sweep (s : Store Hash) (now : Int) : Store Hash :=
  let resources := s.resources.map fun b =>
    { b with revisions := b.revisions.filter (!expired now ·) }
  (s.listed.filter (expired now)).foldl drop { s with
    resources := resources.filter (·.revisions ≠ []) }

end

section

variable [DecidableEq Hash] (sha : Chars → Hash)

def readsBack (c : Creation Hash) : Phase Hash :=
  if byteLength c.text ≤ maxMemoryBytes ∧
    c.chunks ≠ [] then .reading [] (c.chunks.zip c.chunkLengths)
  else .serialised none

def setCreation (s : Store Hash) (i : Nat) (c : Creation Hash) : Store Hash :=
  { s with creations := s.creations.set i c }

def write (s : Store Hash) (i : Nat) (c : Creation Hash) : Option (Store Hash) :=
  match c.phase with
  | .writing (chunk :: rest) => some <|
    { s with
    files := Function.update s.files (.object (sha chunk)) (some (.data chunk)) }.setCreation i
      { c with
        chunks := c.chunks ++ [sha chunk]
        chunkLengths := c.chunkLengths ++ [byteLength chunk]
        phase := .writing rest }
  | .writing [] => some <|
    { s with
      files := Function.update s.files (.manifest (sha c.text))
        (some (.manifest (c.chunks.zip c.chunkLengths))) }.setCreation i { c with
        phase := readsBack c }
  | _ => none

def readFile (s : Store Hash) (chunk : Hash × Nat) : Option Chars :=
  match s.files (.object chunk.1) with
  | some (.data text) => if byteLength text = chunk.2 ∧ sha text = chunk.1 then some text else none
  | _ => none

def readBack (s : Store Hash) (i : Nat) (c : Creation Hash) : Option (Store Hash) :=
  match c.phase with
  | .reading data [] => some (s.setCreation i { c with phase := .serialised (some data) })
  | .reading data (chunk :: rest) =>
    match s.readFile sha chunk with
    | some text => some (s.setCreation i { c with phase := .reading (data ++ text) rest })
    | none => some (s.setCreation i { c with phase := .settled none })
  | _ => none

def pushRevision (key : String) (array : Nat) (r : Revision Hash) :
    List (Bucket Hash) → List (Bucket Hash)
  | [] => [⟨key, array, [r]⟩]
  | b :: bs =>
    if b.key = key then { b with revisions := b.revisions ++ [r] } :: bs
    else b :: pushRevision key array r bs

def commit (s : Store Hash) (i : Nat) (c : Creation Hash) (now : Int) : Option (Store Hash) :=
  match c.phase with
  | .serialised payload =>
    let bucket := s.bucket? c.key
    let previous := bucket.bind (·.revisions.getLast?)
    match previous.filter (·.hash = sha c.text) with
    | some same => some <|
      { s with
        unlinks := s.unlinks ++ (c.chunks.map File.object).filter (s.refs · = 0) }.setCreation i
          { c with phase := .discarding same.id }
    | none =>
      let id := previous.elim 1 (·.id + 1)
      let array := bucket.elim s.nextArray Bucket.array
      let revision : Revision Hash :=
        { uid := s.nextUid
          id := id
          hash := sha c.text
          bytes := byteLength c.text
          payload := payload
          chunks := c.chunks
          chunkLengths := c.chunkLengths
          pins := []
          lastAccessed := now }
      some <| enforceMemory <|
        { s with
          resources := pushRevision c.key s.nextArray revision s.resources
          refs := retainAll s.refs revision.files
          memoryBytes := if payload.isSome then s.memoryBytes + byteLength c.text else s.memoryBytes
          nextUid := s.nextUid + 1
          nextArray := s.nextArray + 1 }.setCreation i { c with phase := .trimming array id }
  | _ => none

def trim (s : Store Hash) (i : Nat) (c : Creation Hash) : Option (Store Hash) :=
  match c.phase with
  | .trimming array id =>
    let after := trimBuckets array s.resources
    some (after.2.foldl drop
      ({ s with resources := after.1 }.setCreation i { c with phase := .settled (some id) }))
  | _ => none

def discardManifest (s : Store Hash) (i : Nat) (c : Creation Hash) : Option (Store Hash) :=
  match c.phase with
  | .discarding id => some <|
    { s with
      unlinks :=
        if s.refs (.manifest (sha c.text)) = 0 then s.unlinks ++ [File.manifest (sha c.text)]
        else s.unlinks }.setCreation i { c with phase := .settled (some id) }
  | _ => none

def reject (s : Store Hash) (i : Nat) (c : Creation Hash) : Option (Store Hash) :=
  match c.phase with
  | .writing _ | .reading _ _ => some (s.setCreation i { c with phase := .settled none })
  | _ => none

def pin (s : Store Hash) (cursorId key : String) (id : Nat) : Store Hash :=
  if (s.pinIndex.lookup cursorId).isSome ∨ maxPinnedRevisions ≤ s.pinIndex.length then s
  else
    match s.revision? key id with
    | none => s
    | some r => enforceMemory
      { s.updateRevision r.uid fun r => { r with pins := r.pins.insert cursorId } with
        pinIndex := s.pinIndex ++ [(cursorId, r.uid)] }

def transferPin (s : Store Hash) (sourceCursorId replacementCursorId : String) : Store Hash :=
  if sourceCursorId = replacementCursorId ∨ (s.pinIndex.lookup replacementCursorId).isSome then s
  else
    match s.pinIndex.lookup sourceCursorId with
    | none => s
    | some uid =>
      { s.updateRevision uid fun r =>
          { r with pins := (r.pins.erase sourceCursorId).insert replacementCursorId } with
        pinIndex := s.pinIndex.filter (·.1 ≠ sourceCursorId) ++ [(replacementCursorId, uid)] }

def unpin (s : Store Hash) (cursorId : String) : Store Hash :=
  match s.pinIndex.lookup cursorId with
  | none => s
  | some uid =>
    { s.updateRevision uid fun r => { r with pins := r.pins.erase cursorId } with
      pinIndex := s.pinIndex.filter (·.1 ≠ cursorId) }

def readRevision (s : Store Hash) (key : String) (id : Nat) (now : Int) : Store Hash :=
  match s.revision? key id with
  | none => s
  | some r =>
    let state := r.payload.elim (.reading [] (r.chunks.zip r.chunkLengths)) .done
    { s.updateRevision r.uid fun r => { r with lastAccessed := now } with
      readers := s.readers ++ [⟨r.uid, state⟩] }

def readChunk (s : Store Hash) (i : Nat) (reader : Reader Hash) : Option (Store Hash) :=
  match reader.state with
  | .reading data [] =>
    some { s with readers := s.readers.set i { reader with state := .done data } }
  | .reading data (chunk :: rest) =>
    let state := (s.readFile sha chunk).elim .failed fun text => .reading (data ++ text) rest
    some { s with readers := s.readers.set i { reader with state := state } }
  | _ => none

end

end Store

inductive Event (Hash : Type)
  | createRevision (resourceKind resourceId : String) (text : Chars)
  | write (creation : Nat)
  | readBack (creation : Nat)
  | commit (creation : Nat) (now : Int)
  | trim (creation : Nat)
  | discardManifest (creation : Nat)
  | reject (creation : Nat)
  | unlinked (file : File Hash)
  | unlinkFailed (file : File Hash)
  | pin (cursorId resourceKind resourceId : String) (id : Nat)
  | transferPin (sourceCursorId replacementCursorId : String)
  | unpin (cursorId : String)
  | sweep (now : Int)
  | readRevision (resourceKind resourceId : String) (id : Nat) (now : Int)
  | readChunk (reader : Nat)

variable [DecidableEq Hash] (sha : Chars → Hash)

def step (s : Store Hash) : Event Hash → Option (Store Hash)
  | .createRevision resourceKind resourceId text =>
    if text = [] then none
    else some { s with creations := s.creations ++
      [⟨resourceKey resourceKind resourceId, text, [], [], .writing (chunksOf text)⟩] }
  | .write i => s.creations[i]?.bind (s.write sha i)
  | .readBack i => s.creations[i]?.bind (s.readBack sha i)
  | .commit i now => s.creations[i]?.bind (s.commit sha i · now)
  | .trim i => s.creations[i]?.bind (s.trim i)
  | .discardManifest i => s.creations[i]?.bind (s.discardManifest sha i)
  | .reject i => s.creations[i]?.bind (s.reject i)
  | .unlinked file =>
    if file ∈ s.unlinks then
      some { s with files := Function.update s.files file none, unlinks := s.unlinks.erase file }
    else none
  | .unlinkFailed file =>
    if file ∈ s.unlinks then some { s with unlinks := s.unlinks.erase file } else none
  | .pin cursorId resourceKind resourceId id =>
    some (s.pin cursorId (resourceKey resourceKind resourceId) id)
  | .transferPin sourceCursorId replacementCursorId =>
    some (s.transferPin sourceCursorId replacementCursorId)
  | .unpin cursorId => some (s.unpin cursorId)
  | .sweep now => some (s.sweep now)
  | .readRevision resourceKind resourceId id now =>
    some (s.readRevision (resourceKey resourceKind resourceId) id now)
  | .readChunk i => s.readers[i]?.bind (s.readChunk sha i)

end JevCode.Sdk
