import Mathlib.Data.List.Basic
import Mathlib.Data.List.DropRight

namespace JevCode.Text

abbrev CodeUnit := UInt16

def code (c : Char) : CodeUnit := .ofNat c.toNat

def charUnits (c : Char) : List CodeUnit :=
  if c.toNat < 0x10000 then [code c]
  else [.ofNat (0xd800 + (c.toNat - 0x10000) / 0x400), .ofNat (0xdc00 + (c.toNat - 0x10000) % 0x400)]

def units (s : String) : List CodeUnit := s.toList.flatMap charUnits

def isSpaceUnit (u : CodeUnit) : Bool :=
  u ∈ [0x09, 0x0b, 0x0c, 0xfeff] || u ∈ [0x20, 0xa0, 0x1680, 0x202f, 0x205f, 0x3000] ||
    (0x2000 ≤ u && u ≤ 0x200a) || u ∈ [0x0a, 0x0d, 0x2028, 0x2029]

def trimUnits (s : List CodeUnit) : List CodeUnit := (s.dropWhile isSpaceUnit).rdropWhile isSpaceUnit

end JevCode.Text
