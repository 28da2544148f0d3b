import JevCode.Text.JsonSyntax

namespace JevCode.Text.JsonSyntax

open Data

def hexChar (n : Nat) : Char := if n < 10 then .ofNat (0x30 + n) else .ofNat (0x57 + n)

def hexDigit (n : Nat) : CodeUnit := if n < 10 then .ofNat (0x30 + n) else .ofNat (0x57 + n)

def hex4 (u : CodeUnit) : List CodeUnit :=
  [hexDigit (u.toNat / 0x1000), hexDigit (u.toNat / 0x100 % 0x10), hexDigit (u.toNat / 0x10 % 0x10),
    hexDigit (u.toNat % 0x10)]

def unicodeEscape (u : CodeUnit) : Chars :=
  ['\\', 'u', hexChar (u.toNat / 0x1000), hexChar (u.toNat / 0x100 % 0x10),
    hexChar (u.toNat / 0x10 % 0x10), hexChar (u.toNat % 0x10)]

def quoteChar (c : Char) : Chars :=
  if c = '\x08' then ['\\', 'b']
  else if c = '\t' then ['\\', 't']
  else if c = '\n' then ['\\', 'n']
  else if c = '\x0c' then ['\\', 'f']
  else if c = '\r' then ['\\', 'r']
  else if c = '"' then ['\\', '"']
  else if c = '\\' then ['\\', '\\']
  else if c.toNat < 0x20 then unicodeEscape (code c)
  else [c]

def quotePoint : CodePoint → Chars
  | .scalar c => quoteChar c
  | .lone u => unicodeEscape u

def quoteString (s : List CodeUnit) : Chars := '"' :: (codePoints s).flatMap quotePoint ++ ['"']

structure Numeral where
  chars : Chars
  isNumber_chars : isNumber (charsUnits chars) = true

section

variable {ν : Type} (numberText : ν → Numeral)

mutual

def stringify : JsonValue ν → Chars
  | .leaf .null => ['n', 'u', 'l', 'l']
  | .leaf (.boolean true) => ['t', 'r', 'u', 'e']
  | .leaf (.boolean false) => ['f', 'a', 'l', 's', 'e']
  | .leaf (.number n) => (numberText n).chars
  | .leaf (.string s) => quoteString s
  | .arr items => '[' :: stringifyItems true items ++ [']']
  | .obj fields => '\x7b' :: stringifyFields true fields ++ ['\x7d']

def stringifyItems (first : Bool) : List (JsonValue ν) → Chars
  | [] => []
  | item :: items => (if first then [] else [',']) ++ stringify item ++ stringifyItems false items

def stringifyFields (first : Bool) : List (List CodeUnit × JsonValue ν) → Chars
  | [] => []
  | (key, child) :: fields =>
    (if first then [] else [',']) ++ quoteString key ++ ':' :: stringify child ++
      stringifyFields false fields

end

end

def Parses {ν : Type} (number : List CodeUnit → ν) (text : List CodeUnit)
    (value : JsonValue ν) : Prop :=
  ∃ (before : White) (d : Doc) (after : White), text = before.text ++ d.text ++ after.text ∧
    value = d.value number

theorem charUnits_hexChar :
    ∀ n < 16, charUnits (hexChar n) = [hexDigit n] ∧ isHexDigit (hexDigit n) = true := by
  decide

theorem charsUnits_unicodeEscape (u : CodeUnit) :
    charsUnits (unicodeEscape u) = 0x5c :: 0x75 :: hex4 u := by
  have hlt := u.toNat_lt
  have h0 := (charUnits_hexChar (u.toNat / 0x1000) (by omega)).1
  have h1 := (charUnits_hexChar (u.toNat / 0x100 % 0x10) (Nat.mod_lt _ (by decide))).1
  have h2 := (charUnits_hexChar (u.toNat / 0x10 % 0x10) (Nat.mod_lt _ (by decide))).1
  have h3 := (charUnits_hexChar (u.toNat % 0x10) (Nat.mod_lt _ (by decide))).1
  simp only [unicodeEscape, charsUnits_cons, h0, h1, h2, h3]
  rfl

def hexDigitsOf (u : CodeUnit) : HexDigits where
  digits := hex4 u
  length_digits := rfl
  isHexDigit_digits := by
    have hlt := u.toNat_lt
    have h0 := (charUnits_hexChar (u.toNat / 0x1000) (by omega)).2
    have h1 := (charUnits_hexChar (u.toNat / 0x100 % 0x10) (Nat.mod_lt _ (by decide))).2
    have h2 := (charUnits_hexChar (u.toNat / 0x10 % 0x10) (Nat.mod_lt _ (by decide))).2
    have h3 := (charUnits_hexChar (u.toNat % 0x10) (Nat.mod_lt _ (by decide))).2
    simp [hex4, h0, h1, h2, h3]

theorem exists_pieces_unicodeEscape (u : CodeUnit) :
    ∃ pieces : List Piece, pieces.flatMap Piece.text = charsUnits (unicodeEscape u) :=
  ⟨[.hex (hexDigitsOf u)], by rw [charsUnits_unicodeEscape]; simp [Piece.text, hexDigitsOf, backslash]⟩

theorem exists_pieces_of_isLiteral {s : List CodeUnit} (h : ∀ u ∈ s, isLiteral u = true) :
    ∃ pieces : List Piece, pieces.flatMap Piece.text = s := by
  induction s with
  | nil => exact ⟨[], rfl⟩
  | cons u s ih =>
    obtain ⟨pieces, hpieces⟩ := ih fun v hv => h v (List.mem_cons_of_mem _ hv)
    exact ⟨.lit u (h u List.mem_cons_self) :: pieces, by rw [List.flatMap_cons, hpieces]; rfl⟩

theorem isLiteral_of_toNat {u : CodeUnit} (h : 0x20 ≤ u.toNat) (hquote : u.toNat ≠ 0x22)
    (hbackslash : u.toNat ≠ 0x5c) :
    isLiteral u = true := by
  have hle : (0x20 : CodeUnit) ≤ u := UInt16.le_iff_toNat_le.mpr h
  have hne : u ≠ quote := fun heq => hquote (by rw [heq]; rfl)
  have hne' : u ≠ backslash := fun heq => hbackslash (by rw [heq]; rfl)
  simp [isLiteral, hle, hne, hne']

theorem isLiteral_charUnits {c : Char} (hc : 0x20 ≤ c.toNat) (hquote : c ≠ '"')
    (hbackslash : c ≠ '\\') :
    ∀ u ∈ charUnits c, isLiteral u = true := by
  have hvalid : c.toNat < 0xd800 ∨ 0xdfff < c.toNat ∧ c.toNat < 0x110000 := c.valid
  have hq : c.toNat ≠ 0x22 := fun h => hquote (Char.toNat_inj.mp h)
  have hb : c.toNat ≠ 0x5c := fun h => hbackslash (Char.toNat_inj.mp h)
  unfold charUnits
  split
  next hplane =>
    have hcode : (code c).toNat = c.toNat := by
      rw [code, UInt16.toNat_ofNat']
      omega
    simp only [List.mem_singleton, forall_eq]
    exact isLiteral_of_toNat (by omega) (by omega) (by omega)
  next hplane =>
    simp only [List.mem_cons, List.not_mem_nil, or_false, forall_eq_or_imp, forall_eq]
    constructor
    · apply isLiteral_of_toNat <;> rw [UInt16.toNat_ofNat'] <;> omega
    · apply isLiteral_of_toNat <;> rw [UInt16.toNat_ofNat'] <;> omega

theorem quoteChar_cases (c : Char) :
    (∃ e : Escape, quoteChar c = ['\\', .ofNat e.letter.toNat] ∧ c = .ofNat e.value.toNat) ∨
      (c.toNat < 0x20 ∧ quoteChar c = unicodeEscape (code c)) ∨
      (0x20 ≤ c.toNat ∧ c ≠ '"' ∧ c ≠ '\\' ∧ quoteChar c = [c]) := by
  unfold quoteChar
  split; next h => exact .inl ⟨.b, rfl, h⟩
  split; next h => exact .inl ⟨.t, rfl, h⟩
  split; next h => exact .inl ⟨.n, rfl, h⟩
  split; next h => exact .inl ⟨.f, rfl, h⟩
  split; next h => exact .inl ⟨.r, rfl, h⟩
  split; next h => exact .inl ⟨.quote, rfl, h⟩
  split; next h => exact .inl ⟨.backslash, rfl, h⟩
  split
  next hcontrol => exact .inr (.inl ⟨hcontrol, rfl⟩)
  next hquote hbackslash hcontrol =>
    exact .inr (.inr ⟨Nat.not_lt.mp hcontrol, hquote, hbackslash, rfl⟩)

theorem exists_pieces_quotePoint (p : CodePoint) :
    ∃ pieces : List Piece, pieces.flatMap Piece.text = charsUnits (quotePoint p) := by
  cases p with
  | lone u => exact exists_pieces_unicodeEscape u
  | scalar c =>
    rw [quotePoint]
    obtain ⟨e, hquoted, -⟩ | ⟨-, hquoted⟩ | ⟨hcontrol, hquote, hbackslash, hquoted⟩ :=
      quoteChar_cases c
    · rw [hquoted]
      exact ⟨[.esc e], by cases e <;> rfl⟩
    · rw [hquoted]
      exact exists_pieces_unicodeEscape (code c)
    · rw [hquoted, charsUnits, List.flatMap_singleton]
      exact exists_pieces_of_isLiteral (isLiteral_charUnits hcontrol hquote hbackslash)

theorem exists_pieces (s : List CodeUnit) :
    ∃ pieces : List Piece, stringText pieces = charsUnits (quoteString s) := by
  have h : ∀ points : List CodePoint,
      ∃ pieces : List Piece, pieces.flatMap Piece.text = charsUnits (points.flatMap quotePoint) := by
    intro points
    induction points with
    | nil => exact ⟨[], rfl⟩
    | cons p points ih =>
      obtain ⟨pieces, hpieces⟩ := exists_pieces_quotePoint p
      obtain ⟨more, hmore⟩ := ih
      exact ⟨pieces ++ more, by rw [List.flatMap_append, hpieces, hmore, List.flatMap_cons, charsUnits_append]⟩
  obtain ⟨pieces, hpieces⟩ := h (codePoints s)
  refine ⟨pieces, ?_⟩
  rw [stringText, hpieces, quoteString, charsUnits_append, charsUnits_cons]
  rfl

section

variable {ν : Type} {numberText : ν → Numeral}

theorem charsUnits_comma (t : Chars) : charsUnits (',' :: t) = comma :: charsUnits t := rfl

theorem charsUnits_colon (t : Chars) : charsUnits (':' :: t) = colon :: charsUnits t := rfl

mutual

theorem exists_doc : (v : JsonValue ν) → ∃ d : Doc, d.text = charsUnits (stringify numberText v)
  | .leaf .null => ⟨.null, rfl⟩
  | .leaf (.boolean true) => ⟨.boolean true, rfl⟩
  | .leaf (.boolean false) => ⟨.boolean false, rfl⟩
  | .leaf (.number n) => ⟨.number ⟨_, (numberText n).isNumber_chars⟩, rfl⟩
  | .leaf (.string s) => by
    obtain ⟨pieces, hpieces⟩ := exists_pieces s
    exact ⟨.string pieces, hpieces⟩
  | .arr [] => ⟨.emptyArray .none, rfl⟩
  | .arr (item :: items) => by
    obtain ⟨is, his⟩ := exists_items (item :: items) (List.cons_ne_nil _ _)
    refine ⟨.array is, ?_⟩
    rw [Doc.text, his, stringify, charsUnits_append, charsUnits_cons]
    rfl
  | .obj [] => ⟨.emptyObject .none, rfl⟩
  | .obj (field :: fields) => by
    obtain ⟨ms, hms⟩ := exists_members (field :: fields) (List.cons_ne_nil _ _)
    refine ⟨.object ms, ?_⟩
    rw [Doc.text, hms, stringify, charsUnits_append, charsUnits_cons]
    rfl

theorem exists_items : (items : List (JsonValue ν)) → items ≠ [] →
    ∃ is : Items, is.text = charsUnits (stringifyItems numberText true items)
  | [], h => absurd rfl h
  | [item], _ => by
    obtain ⟨d, hd⟩ := exists_doc item
    refine ⟨.one .none d .none, ?_⟩
    simp [Items.text, White.none, hd, stringifyItems]
  | item :: item' :: items, _ => by
    obtain ⟨d, hd⟩ := exists_doc item
    obtain ⟨is, his⟩ := exists_items (item' :: items) (List.cons_ne_nil _ _)
    refine ⟨.cons .none d .none is, ?_⟩
    simp [Items.text, White.none, hd, his, stringifyItems, charsUnits_append, charsUnits_comma]

theorem exists_members : (fields : List (List CodeUnit × JsonValue ν)) → fields ≠ [] →
    ∃ ms : Members, ms.text = charsUnits (stringifyFields numberText true fields)
  | [], h => absurd rfl h
  | [(key, child)], _ => by
    obtain ⟨pieces, hpieces⟩ := exists_pieces key
    obtain ⟨d, hd⟩ := exists_doc child
    refine ⟨.one .none pieces .none .none d .none, ?_⟩
    simp [Members.text, White.none, hpieces, hd, stringifyFields, charsUnits_append,
      charsUnits_colon]
  | (key, child) :: field :: fields, _ => by
    obtain ⟨pieces, hpieces⟩ := exists_pieces key
    obtain ⟨d, hd⟩ := exists_doc child
    obtain ⟨ms, hms⟩ := exists_members (field :: fields) (List.cons_ne_nil _ _)
    refine ⟨.cons .none pieces .none .none d .none ms, ?_⟩
    simp [Members.text, White.none, hpieces, hd, hms, stringifyFields, charsUnits_append,
      charsUnits_colon, charsUnits_comma]

end

theorem exists_parses (number : List CodeUnit → ν) (v : JsonValue ν) :
    ∃ v', Parses number (charsUnits (stringify numberText v)) v' := by
  obtain ⟨d, hd⟩ : ∃ d : Doc, d.text = charsUnits (stringify numberText v) := exists_doc v
  exact ⟨d.value number, .none, d, .none, by simp [White.none, hd], rfl⟩

end

end JevCode.Text.JsonSyntax
