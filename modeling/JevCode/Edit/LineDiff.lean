import Mathlib.Data.List.Basic
import Mathlib.Logic.Function.Basic
import Mathlib.Order.Interval.Set.Defs

namespace JevCode.Edit.LineDiff

abbrev Bytes := List UInt8

def lineFeed : UInt8 := 0x0a
def carriageReturn : UInt8 := 0x0d

abbrev Range := Nat × Nat

def slice (value : Bytes) (range : Range) : Bytes := (value.drop range.1).take (range.2 - range.1)

def sepLen (bytes : Bytes) (i : Nat) : Nat :=
  if bytes[i]? = some lineFeed then 1
  else if bytes[i]? = some carriageReturn ∧ bytes[i + 1]? = some lineFeed then 2
  else 0

def splitFrom (bytes : Bytes) : Nat → Nat → Nat → List Range
  | rounds + 1, last, i =>
    if i < bytes.length then
      if 0 < sepLen bytes i then
        (last, i) :: (i, i + sepLen bytes i) ::
          splitFrom bytes rounds (i + sepLen bytes i) (i + sepLen bytes i)
      else splitFrom bytes rounds last (i + 1)
    else [(last, bytes.length)]
  | 0, last, _ => [(last, bytes.length)]

def popFinalEmpty (split : List Range) : List Range :=
  if split.getLast?.any (fun range => range.1 = range.2) then split.dropLast else split

def mergeRange (ret : List Range) (item : Range × Nat) : List Range :=
  if item.2 % 2 = 1 then
    match ret.getLast? with
    | some last => ret.dropLast ++ [(last.1, item.1.2)]
    | none => ret ++ [item.1]
  else ret ++ [item.1]

def tokenizeRanges (value : Bytes) : List Range :=
  let split := popFinalEmpty (splitFrom value value.length 0 0)
  (split.zipIdx.foldl mergeRange []).filter fun range => range.1 ≠ range.2

def tokens (value : Bytes) : List Bytes := (tokenizeRanges value).map (slice value)

structure PathNode where
  oldPos : Int
  last : Option Nat
  deriving DecidableEq

structure Comp where
  count : Nat
  added : Bool
  removed : Bool
  prev : Option Nat
  deriving DecidableEq

def addToPath (comps : Array Comp) (path : PathNode) (added removed : Bool) (oldPosInc : Int) :
    Array Comp × PathNode :=
  let comp : Comp :=
    match path.last.bind (comps[·]?) with
    | some last =>
      if last.added = added ∧ last.removed = removed then ⟨last.count + 1, added, removed, last.prev⟩
      else ⟨1, added, removed, path.last⟩
    | none => ⟨1, added, removed, path.last⟩
  (comps.push comp, ⟨path.oldPos + oldPosInc, some comps.size⟩)

section

variable (oldToks newToks : List Bytes)

def commonFrom : Nat → Int → Int → Nat
  | rounds + 1, oldPos, newPos =>
    if newPos + 1 < newToks.length ∧ oldPos + 1 < oldToks.length ∧
        oldToks[(oldPos + 1).toNat]? = newToks[(newPos + 1).toNat]? then
      commonFrom rounds (oldPos + 1) (newPos + 1) + 1
    else 0
  | 0, _, _ => 0

def extractCommon (comps : Array Comp) (path : PathNode) (diagonal : Int) :
    Array Comp × PathNode × Int :=
  let common := commonFrom oldToks newToks oldToks.length path.oldPos (path.oldPos - diagonal)
  let newPos := path.oldPos - diagonal + common
  if 0 < common then
    (comps.push ⟨common, false, false, path.last⟩, ⟨path.oldPos + common, some comps.size⟩, newPos)
  else (comps, ⟨path.oldPos + common, path.last⟩, newPos)

/-- The components from the first to the one at `last`; each has a smaller index than the one that
follows it. -/
def order (comps : Array Comp) : Nat → Option Nat → List Comp
  | rounds + 1, some ci =>
    match comps[ci]? with
    | some comp => order comps rounds comp.prev ++ [comp]
    | none => []
  | _, _ => []

structure LineDiffPart where
  added : Bool
  removed : Bool
  value : Bytes
  deriving DecidableEq

def buildParts : List Comp → Nat → Nat → List LineDiffPart
  | [], _, _ => []
  | c :: rest, newPos, oldPos =>
    if c.removed then
      ⟨c.added, c.removed, ((oldToks.drop oldPos).take c.count).flatten⟩ ::
        buildParts rest newPos (oldPos + c.count)
    else
      ⟨c.added, c.removed, ((newToks.drop newPos).take c.count).flatten⟩ ::
        buildParts rest (newPos + c.count) (if c.added then oldPos else oldPos + c.count)

def buildValues (last : Option Nat) (comps : Array Comp) : List LineDiffPart :=
  buildParts oldToks newToks (order comps comps.size last) 0 0

/-- The vector of the best paths is a function on the diagonals; `none` for a bound is `isize::MIN`
and `isize::MAX`. -/
structure Search where
  comps : Array Comp
  best : Int → Option PathNode
  minDiag : Option Int
  maxDiag : Option Int

abbrev Found := Array Comp × Option Nat

def chooseBase (diag : Int) (removePath addPath : Option PathNode) : Option (PathNode × Bool) :=
  let canAdd := addPath.filter fun ap =>
    0 ≤ ap.oldPos - diag ∧ ap.oldPos - diag < (newToks.length : Int)
  let canRemove := removePath.filter fun rp => rp.oldPos + 1 < (oldToks.length : Int)
  match canRemove, canAdd with
  | none, none => none
  | none, some ap => some (ap, true)
  | some rp, none => some (rp, false)
  | some rp, some ap => if rp.oldPos < ap.oldPos then some (ap, true) else some (rp, false)

def visit (s : Search) (diag : Int) : Except Found Search :=
  let removePath := s.best (diag - 1)
  let best := Function.update s.best (diag - 1) none
  let addPath := best (diag + 1)
  match chooseBase oldToks newToks diag removePath addPath with
  | none => .ok { s with best := Function.update best diag none }
  | some (path, fromAdd) =>
    let (comps, basePath) :=
      if fromAdd then addToPath s.comps path true false 0 else addToPath s.comps path false true 1
    let (comps, basePath, newPos) := extractCommon oldToks newToks comps basePath diag
    if oldToks.length ≤ basePath.oldPos + 1 ∧
      newToks.length ≤ newPos + 1 then .error (comps, basePath.last)
    else .ok {
      comps
      best := Function.update best diag (some basePath)
      maxDiag :=
        if oldToks.length ≤ basePath.oldPos + 1
          then some (s.maxDiag.elim (diag - 1) (min · (diag - 1))) else s.maxDiag
      minDiag :=
        if newToks.length ≤ newPos + 1 then some (s.minDiag.elim (diag + 1) (max · (diag + 1)))
          else s.minDiag }

def diagonals (lo hi : Int) : List Int := (List.range ((hi - lo) / 2 + 1).toNat).map fun (i : Nat) =>
  lo + 2 * (i : Int)

def round (s : Search) (editLength : Nat) : Except Found Search :=
  let lo := s.minDiag.elim (-(editLength : Int)) (max · (-(editLength : Int)))
  let hi := s.maxDiag.elim (editLength : Int) (min · (editLength : Int))
  (diagonals lo hi).foldlM (visit oldToks newToks) s

def rounds : Nat → Search → Nat → Except Found Search
  | n + 1, s, editLength => do
    let s ← round oldToks newToks s editLength
    rounds n s (editLength + 1)
  | 0, s, _ => .ok s

/-- How the search ends: with a path, or with the bound on the edits. -/
def search : Except Found Search :=
  let (comps, seed, newPos) := extractCommon oldToks newToks #[] ⟨-1, none⟩ 0
  if oldToks.length ≤ seed.oldPos + 1 ∧ newToks.length ≤ newPos + 1 then .error (comps, seed.last)
  else
    rounds oldToks newToks (newToks.length + oldToks.length) ⟨comps,
      Function.update (fun _ => none) 0 (some seed), none, none⟩ 1

def diffTokens : List LineDiffPart :=
  match search oldToks newToks with
  | .error (comps, last) => buildValues oldToks newToks last comps
  | .ok _ => []

end

def diffLines (oldStr newStr : Bytes) : List LineDiffPart :=
  diffTokens (tokens oldStr) (tokens newStr)

end JevCode.Edit.LineDiff
