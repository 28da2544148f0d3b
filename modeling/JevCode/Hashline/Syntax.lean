import JevCode.Hashline.Hash

namespace JevCode.Hashline

structure Anchor where
  line : Nat
  hash : String
  deriving DecidableEq

inductive Cursor
  | bof
  | eof
  | beforeAnchor (anchor : Anchor)
  | afterAnchor (anchor : Anchor)
  deriving DecidableEq

inductive Edit
  | insert (cursor : Cursor) (text : String) (lineNum index : Nat)
  | delete (anchor : Anchor) (lineNum index : Nat)
  deriving DecidableEq

structure HashMismatch where
  line : Nat
  expected : String
  actual : String
  deriving DecidableEq

structure ApplyOptions where
  autoDropPureInsertDuplicates : Bool := false
  deriving DecidableEq

inductive ApplyError
  | lineDoesNotExist (line fileLength : Nat)
  | mismatch (mismatches : List HashMismatch) (fileLines : List String)
  deriving DecidableEq

def Cursor.anchor? : Cursor → Option Anchor
  | .beforeAnchor a => some a
  | .afterAnchor a => some a
  | .bof => none
  | .eof => none

def Edit.lineNum : Edit → Nat
  | .insert _ _ n _ => n
  | .delete _ n _ => n

def Edit.anchor? : Edit → Option Anchor
  | .insert c _ _ _ => c.anchor?
  | .delete a _ _ => some a

def Edit.targetLine? (e : Edit) : Option Nat := e.anchor?.map Anchor.line

def Edit.text? : Edit → Option String
  | .insert _ t _ _ => some t
  | .delete _ _ _ => none

def Edit.deletedLine? : Edit → Option Nat
  | .insert _ _ _ _ => none
  | .delete a _ _ => some a.line

end JevCode.Hashline
