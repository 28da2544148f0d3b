import JevCode.Hashline.Syntax

namespace JevCode.Hashline

structure ParsedRange where
  start : Anchor
  stop : Anchor
  le : start.line ≤ stop.line
  same : stop.line = start.line → stop.hash = start.hash

def expandRange (range : ParsedRange) : List Anchor :=
  (List.range' range.start.line (range.stop.line + 1 - range.start.line)).map fun line =>
    ⟨line, if line = range.start.line then range.start.hash
      else if line = range.stop.line then range.stop.hash else rangeInteriorHash⟩

/-- `«` and `»` need at least one payload line, `≔` without payload deletes its range. -/
inductive Op
  | insert (cursor : Cursor) (first : String) (rest : List String)
  | replace (range : ParsedRange) (payload : List String)

def Op.payload : Op → List String
  | .insert _ first rest => first :: rest
  | .replace _ payload => payload

def Op.cursor : Op → Cursor
  | .insert cursor _ _ => cursor
  | .replace range _ => .beforeAnchor range.start

def Op.deleted : Op → List Anchor
  | .insert _ _ _ => []
  | .replace range _ => expandRange range

/-- The edits of an op that starts at line `lineNum` of the diff. -/
def Op.edits (op : Op) (lineNum editIndex : Nat) : List Edit :=
  op.payload.mapIdx (fun k text => .insert op.cursor text lineNum (editIndex + k)) ++
    op.deleted.mapIdx fun k anchor => .delete anchor lineNum (editIndex + op.payload.length + k)

theorem expandRange_ne_nil (range : ParsedRange) : expandRange range ≠ [] := by
  have hle := range.le
  intro hnil
  have hlength := congrArg List.length hnil
  simp only [expandRange, List.length_map, List.length_range', List.length_nil] at hlength
  omega

theorem lineNum_of_mem_edits {op : Op} {lineNum index : Nat} {e : Edit}
    (h : e ∈ op.edits lineNum index) :
    e.lineNum = lineNum := by
  rcases List.mem_append.mp h with h | h
  · obtain ⟨k, hk, rfl⟩ := List.mem_mapIdx.mp h
    rfl
  · obtain ⟨k, hk, rfl⟩ := List.mem_mapIdx.mp h
    rfl

def pushOps (editIndex : Nat) : List (Nat × Op) → List Edit
  | [] => []
  | (lineNum, op) :: ops =>
    op.edits lineNum editIndex ++ pushOps (editIndex + op.payload.length + op.deleted.length) ops

def numberOps (lineNum : Nat) : List Op → List (Nat × Op)
  | [] => []
  | op :: ops => (lineNum, op) :: numberOps (lineNum + 1 + op.payload.length) ops

def opEdits (ops : List Op) : List Edit := pushOps 0 (numberOps 1 ops)

end JevCode.Hashline
