import JevCode.Data.JsonTree
import JevCode.Text.CodePoints
import Mathlib.Data.List.TakeWhile

namespace JevCode.Text

open JevCode.Data

inductive JsonLeaf (ν : Type)
  | null
  | boolean (b : Bool)
  | number (n : ν)
  | string (s : List CodeUnit)
  deriving DecidableEq

abbrev JsonValue (ν : Type) := JsonTree (List CodeUnit) (JsonLeaf ν)

namespace JsonSyntax

def quote : CodeUnit := 0x22
def backslash : CodeUnit := 0x5c
def comma : CodeUnit := 0x2c
def colon : CodeUnit := 0x3a

def isHexDigit (u : CodeUnit) : Bool :=
  (0x30 ≤ u && u ≤ 0x39) || (0x41 ≤ u && u ≤ 0x46) || (0x61 ≤ u && u ≤ 0x66)

def hexValue (u : CodeUnit) : Nat :=
  if u ≤ 0x39 then u.toNat - 0x30 else if u ≤ 0x46 then u.toNat - 0x37 else u.toNat - 0x57

def parseHex (digits : List CodeUnit) : Nat := digits.foldl (fun n u => n * 16 + hexValue u) 0

def isLiteral (u : CodeUnit) : Bool := 0x20 ≤ u && u ≠ quote && u ≠ backslash

inductive Escape
  | quote
  | backslash
  | slash
  | b
  | f
  | n
  | r
  | t
  deriving DecidableEq

def Escape.letter : Escape → CodeUnit
  | quote => 0x22
  | backslash => 0x5c
  | slash => 0x2f
  | b => 0x62
  | f => 0x66
  | n => 0x6e
  | r => 0x72
  | t => 0x74

def Escape.value : Escape → CodeUnit
  | quote => 0x22
  | backslash => 0x5c
  | slash => 0x2f
  | b => 0x08
  | f => 0x0c
  | n => 0x0a
  | r => 0x0d
  | t => 0x09

structure HexDigits where
  digits : List CodeUnit
  length_digits : digits.length = 4
  isHexDigit_digits : ∀ u ∈ digits, isHexDigit u = true

inductive Piece
  | lit (u : CodeUnit) (isLiteral : isLiteral u = true)
  | esc (e : Escape)
  | hex (h : HexDigits)

def Piece.text : Piece → List CodeUnit
  | lit u _ => [u]
  | esc e => [backslash, e.letter]
  | hex h => backslash :: 0x75 :: h.digits

def Piece.value : Piece → CodeUnit
  | lit u _ => u
  | esc e => e.value
  | hex h => .ofNat (parseHex h.digits)

def stringText (pieces : List Piece) : List CodeUnit := quote :: pieces.flatMap Piece.text ++ [quote]

def stringValue (pieces : List Piece) : List CodeUnit := pieces.map Piece.value

def isDigit (u : CodeUnit) : Bool := 0x30 ≤ u && u ≤ 0x39

def isExponent (t : List CodeUnit) : Bool :=
  let digits := if t.head? = some 0x2b ∨ t.head? = some 0x2d then t.tail else t
  digits ≠ [] && digits.all isDigit

def isExponentPart : List CodeUnit → Bool
  | [] => true
  | u :: t => (u = 0x65 || u = 0x45) && isExponent t

def isFraction (t : List CodeUnit) : Bool :=
  if t.head? = some 0x2e then
    (t.tail.takeWhile isDigit ≠ []) && isExponentPart (t.tail.dropWhile isDigit)
  else isExponentPart t

def isNumber (t : List CodeUnit) : Bool :=
  let t := if t.head? = some 0x2d then t.tail else t
  match t with
  | [] => false
  | u :: t => if u = 0x30 then isFraction t else isDigit u && isFraction (t.dropWhile isDigit)

structure NumberText where
  text : List CodeUnit
  isNumber_text : isNumber text = true

def isWhite (u : CodeUnit) : Bool := u = 0x20 || u = 0x09 || u = 0x0a || u = 0x0d

structure White where
  text : List CodeUnit
  isWhite_text : ∀ u ∈ text, isWhite u = true

def White.none : White := ⟨[], fun _ h => (List.not_mem_nil h).elim⟩

mutual

inductive Doc
  | null
  | boolean (b : Bool)
  | number (n : NumberText)
  | string (pieces : List Piece)
  | emptyArray (space : White)
  | array (items : Items)
  | emptyObject (space : White)
  | object (members : Members)

inductive Items
  | one (before : White) (value : Doc) (after : White)
  | cons (before : White) (value : Doc) (after : White) (rest : Items)

inductive Members
  | one (before : White) (key : List Piece) (mid : White) (space : White) (value : Doc)
    (after : White)
  | cons (before : White) (key : List Piece) (mid : White) (space : White) (value : Doc)
    (after : White)
      (rest : Members)

end

mutual

def Doc.text : Doc → List CodeUnit
  | .null => [0x6e, 0x75, 0x6c, 0x6c]
  | .boolean true => [0x74, 0x72, 0x75, 0x65]
  | .boolean false => [0x66, 0x61, 0x6c, 0x73, 0x65]
  | .number n => n.text
  | .string pieces => stringText pieces
  | .emptyArray space => 0x5b :: space.text ++ [0x5d]
  | .array items => 0x5b :: items.text ++ [0x5d]
  | .emptyObject space => 0x7b :: space.text ++ [0x7d]
  | .object members => 0x7b :: members.text ++ [0x7d]

def Items.text : Items → List CodeUnit
  | .one before value after => before.text ++ value.text ++ after.text
  | .cons before value after rest => before.text ++ value.text ++ after.text ++ comma :: rest.text

def Members.text : Members → List CodeUnit
  | .one before key mid space value after =>
    before.text ++ stringText key ++ mid.text ++ colon :: space.text ++ value.text ++ after.text
  | .cons before key mid space value after rest =>
    before.text ++ stringText key ++ mid.text ++ colon :: space.text ++ value.text ++ after.text ++
      comma :: rest.text

end

section Value

variable {ν : Type} (number : List CodeUnit → ν)

def ofMembers (members : List (List CodeUnit × JsonValue ν)) : List (List CodeUnit × JsonValue ν) :=
  members.foldl (fun fields member => JsonTree.set member.1 member.2 fields) []

mutual

/-- What `JSON.parse` makes of the text, where `number` is the value of a numeral. -/
def Doc.value : Doc → JsonValue ν
  | .null => .leaf .null
  | .boolean b => .leaf (.boolean b)
  | .number n => .leaf (.number (number n.text))
  | .string pieces => .leaf (.string (stringValue pieces))
  | .emptyArray _ => .arr []
  | .array items => .arr items.values
  | .emptyObject _ => .obj []
  | .object members => .obj (ofMembers members.members)

def Items.values : Items → List (JsonValue ν)
  | .one _ value _ => [value.value]
  | .cons _ value _ rest => value.value :: rest.values

def Members.members : Members → List (List CodeUnit × JsonValue ν)
  | .one _ key _ _ value _ => [(stringValue key, value.value)]
  | .cons _ key _ _ value _ rest => (stringValue key, value.value) :: rest.members

end

end Value

def isNumberUnit (u : CodeUnit) : Bool :=
  isDigit u || u ∈ ([0x2b, 0x2d, 0x2e, 0x45, 0x65] : List CodeUnit)

theorem isNumberUnit_of_isDigit {u : CodeUnit} (h : isDigit u = true) : isNumberUnit u = true := by
  rw [isNumberUnit, h, Bool.true_or]

theorem isNumberUnit_of_isExponent {t : List CodeUnit} (h : isExponent t = true) :
    ∀ u ∈ t, isNumberUnit u = true := by
  simp only [isExponent, Bool.and_eq_true, List.all_eq_true] at h
  split at h
  case isTrue hsign =>
    cases t with
    | nil => simp
    | cons v t =>
      simp only [List.head?_cons, Option.some.injEq] at hsign
      refine List.forall_mem_cons.mpr ⟨?_, fun u hu => isNumberUnit_of_isDigit (h.2 u hu)⟩
      rcases hsign with rfl | rfl <;> decide
  case isFalse => exact fun u hu => isNumberUnit_of_isDigit (h.2 u hu)

theorem isNumberUnit_of_isExponentPart {t : List CodeUnit} (h : isExponentPart t = true) :
    ∀ u ∈ t, isNumberUnit u = true := by
  cases t with
  | nil => simp
  | cons v t =>
    simp only [isExponentPart, Bool.and_eq_true, Bool.or_eq_true, decide_eq_true_eq] at h
    refine List.forall_mem_cons.mpr ⟨?_, isNumberUnit_of_isExponent h.2⟩
    rcases h.1 with rfl | rfl <;> decide

theorem isNumberUnit_of_dropWhile {t : List CodeUnit}
    (h : ∀ u ∈ t.dropWhile isDigit, isNumberUnit u = true) :
    ∀ u ∈ t, isNumberUnit u = true := by
  intro u hu
  rw [← List.takeWhile_append_dropWhile (p := isDigit) (l := t), List.mem_append] at hu
  rcases hu with hu | hu
  · exact isNumberUnit_of_isDigit (List.mem_takeWhile_imp hu)
  · exact h u hu

theorem isNumberUnit_of_isFraction {t : List CodeUnit} (h : isFraction t = true) :
    ∀ u ∈ t, isNumberUnit u = true := by
  unfold isFraction at h
  split at h
  case isTrue hdot =>
    cases t with
    | nil => simp
    | cons v t =>
      cases hdot
      rw [Bool.and_eq_true] at h
      exact List.forall_mem_cons.mpr ⟨by decide,
        isNumberUnit_of_dropWhile (isNumberUnit_of_isExponentPart h.2)⟩
  case isFalse => exact isNumberUnit_of_isExponentPart h

theorem isNumber_cases {t : List CodeUnit} (h : isNumber t = true) :
    ∃ u t', t = u :: t' ∧ (isDigit u = true ∨ u = 0x2d) ∧ ∀ v ∈ t, isNumberUnit v = true := by
  have hunsigned : ∀ {t : List CodeUnit} {u : CodeUnit},
      (if u = 0x30 then isFraction t else isDigit u && isFraction (t.dropWhile isDigit)) = true →
        isDigit u = true ∧ ∀ v ∈ u :: t, isNumberUnit v = true := by
    intro t u h
    split at h
    case isTrue hzero =>
      subst hzero
      exact ⟨by decide, List.forall_mem_cons.mpr ⟨by decide, isNumberUnit_of_isFraction h⟩⟩
    case isFalse =>
      rw [Bool.and_eq_true] at h
      refine ⟨h.1, List.forall_mem_cons.mpr ⟨isNumberUnit_of_isDigit h.1, ?_⟩⟩
      exact isNumberUnit_of_dropWhile (isNumberUnit_of_isFraction h.2)
  cases t with
  | nil => cases h
  | cons u t =>
    simp only [isNumber, List.head?_cons, Option.some.injEq] at h
    refine ⟨u, t, rfl, ?_⟩
    by_cases hminus : u = 0x2d
    · rw [if_pos hminus] at h
      subst hminus
      refine ⟨.inr rfl, List.forall_mem_cons.mpr ⟨by decide, ?_⟩⟩
      cases t with
      | nil => simp
      | cons v t => exact (hunsigned h).2
    · rw [if_neg hminus] at h
      exact ⟨.inl (hunsigned h).1, (hunsigned h).2⟩

theorem Doc.text_eq_cons (d : Doc) :
    ∃ u t, d.text = u :: t ∧ 33 ≤ u.toNat ∧ u.toNat ≤ 126 ∧ u ≠ 0x5d := by
  cases d with
  | null => exact ⟨_, _, rfl, by decide, by decide, by decide⟩
  | boolean b => cases b <;> exact ⟨_, _, rfl, by decide, by decide, by decide⟩
  | number n =>
    obtain ⟨u, t, ht, hu, -⟩ := isNumber_cases n.isNumber_text
    refine ⟨u, t, ht, ?_⟩
    rcases hu with hu | rfl
    · simp only [isDigit, Bool.and_eq_true, decide_eq_true_eq, UInt16.le_iff_toNat_le,
        UInt16.reduceToNat] at hu
      refine ⟨by omega, by omega, ?_⟩
      rintro rfl
      exact absurd hu.2 (by decide)
    · decide
  | string pieces => exact ⟨_, _, rfl, by decide, by decide, by decide⟩
  | emptyArray space => exact ⟨_, _, rfl, by decide, by decide, by decide⟩
  | array items => exact ⟨_, _, rfl, by decide, by decide, by decide⟩
  | emptyObject space => exact ⟨_, _, rfl, by decide, by decide, by decide⟩
  | object members => exact ⟨_, _, rfl, by decide, by decide, by decide⟩

def Items.before : Items → White
  | .one before _ _ => before
  | .cons before _ _ _ => before

def Items.body : Items → List CodeUnit
  | .one _ value after => value.text ++ after.text
  | .cons _ value after rest => value.text ++ (after.text ++ comma :: rest.text)

theorem Items.text_eq (is : Items) : is.text = is.before.text ++ is.body := by
  cases is <;> simp [Items.text, Items.before, Items.body]

theorem Items.body_eq_cons (is : Items) :
    ∃ u t, is.body ++ [0x5d] = u :: t ∧ 33 ≤ u.toNat ∧ u.toNat ≤ 126 ∧ u ≠ 0x5d := by
  cases is with
  | one before value after =>
    obtain ⟨u, t, ht, hu⟩ := value.text_eq_cons
    exact ⟨u, _, by rw [Items.body, ht, List.cons_append, List.cons_append], hu⟩
  | cons before value after rest =>
    obtain ⟨u, t, ht, hu⟩ := value.text_eq_cons
    exact ⟨u, _, by rw [Items.body, ht, List.cons_append, List.cons_append], hu⟩

def Members.before : Members → White
  | .one before _ _ _ _ _ => before
  | .cons before _ _ _ _ _ _ => before

def Members.body : Members → List CodeUnit
  | .one _ key mid space value after =>
    stringText key ++ (mid.text ++ colon :: (space.text ++ value.text) ++ after.text)
  | .cons _ key mid space value after rest =>
    stringText key ++ (mid.text ++ colon :: (space.text ++ value.text) ++
      (after.text ++ comma :: rest.text))

theorem Members.text_eq (ms : Members) : ms.text = ms.before.text ++ ms.body := by
  cases ms <;> simp [Members.text, Members.before, Members.body]

theorem Members.body_eq_cons (ms : Members) : ∃ t, ms.body ++ [0x7d] = quote :: t := by
  cases ms <;> exact ⟨_, rfl⟩

end JsonSyntax

end JevCode.Text
