import JevCode.Session.AppendOnlyContext
import Mathlib.Algebra.GroupWithZero.Nat
import Mathlib.Algebra.Ring.Int.Defs

namespace JevCode.Session

def quoteChar (c : Char) : List Char :=
  if c = '\x08' then "\\b".toList
  else if c = '\t' then "\\t".toList
  else if c = '\n' then "\\n".toList
  else if c = '\x0c' then "\\f".toList
  else if c = '\r' then "\\r".toList
  else if c = '"' then "\\\"".toList
  else if c = '\\' then "\\\\".toList
  else if c.toNat < 0x20 then "\\u".toList ++ (Nat.toDigits 16 (0x10000 + c.toNat)).drop 1
  else [c]

def quoteJson (s : String) : List Char := ['"'] ++ s.toList.flatMap quoteChar ++ ['"']

section Text

variable (numberText : ℚ → List Char)

mutual

def Json.text : Json → List Char
  | .null => "null".toList
  | .bool b => if b then "true".toList else "false".toList
  | .num n => numberText n
  | .str s => quoteJson s
  | .arr items => ['['] ++ [','].intercalate (itemTexts items) ++ [']']
  | .obj fields => ['\x7b'] ++ [','].intercalate (fieldTexts fields) ++ ['\x7d']

def itemTexts : List Json → List (List Char)
  | [] => []
  | item :: items => item.text :: itemTexts items

def fieldTexts : List (String × Json) → List (List Char)
  | [] => []
  | (key, value) :: fields => (quoteJson key ++ [':'] ++ value.text) :: fieldTexts fields

end

def stringifyText (value : JsValue) : Option (List Char) :=
  (stringify value true).map (Json.text numberText)

/-- `cloneJson(value)`; a value without a clone is cloned to `undefined`. -/
def cloneJson (value : JsValue) : JsValue := (cloneJsonValue value true).getD .undefined

theorem stringify_cloneJson (value : JsValue) :
    stringify (cloneJson value) true = (stringify value true).map Json.dropProto := by
  rw [cloneJson, cloneJsonValue_eq]
  cases stringify value true with
  | none => rfl
  | some json => simp only [Option.map_some, Option.getD_some, stringify_toJs]

def joinedLength (texts : List (List Char)) : Nat := (texts.map fun t => t.length + 1).sum

theorem length_intercalate_comma (texts : List (List Char)) :
    ([','].intercalate texts).length = joinedLength texts - 1 := by
  induction texts with
  | nil => rfl
  | cons t texts ih =>
    cases texts with
    | nil => simp [joinedLength]
    | cons u texts =>
      rw [List.intercalate_cons_cons, List.length_append, List.length_append, ih]
      simp [joinedLength]
      omega

mutual

theorem Json.length_text_dropProto : ∀ json : Json,
    (json.dropProto.text numberText).length ≤ (json.text numberText).length ∧
      (json.hasProtoKey = true →
        (json.dropProto.text numberText).length < (json.text numberText).length)
  | .null | .bool _ | .num _ | .str _ => by simp [Json.dropProto, Json.hasProtoKey]
  | .arr items => by
    have h := joinedLength_dropProtoItems items
    simp only [Json.dropProto, Json.text, Json.hasProtoKey, List.length_append,
      length_intercalate_comma]
    constructor
    · omega
    · intro hp
      have := h.2 hp
      simp only [List.length_singleton]
      omega
  | .obj fields => by
    have h := joinedLength_dropProtoFields fields
    simp only [Json.dropProto, Json.text, Json.hasProtoKey, List.length_append,
      length_intercalate_comma]
    constructor
    · omega
    · intro hp
      have := h.2 hp
      simp only [List.length_singleton]
      omega

theorem joinedLength_dropProtoItems : ∀ items : List Json,
    joinedLength (itemTexts numberText (dropProtoItems items)) ≤
      joinedLength (itemTexts numberText items) ∧
      (hasProtoKeyItems items = true →
        joinedLength (itemTexts numberText (dropProtoItems items)) <
          joinedLength (itemTexts numberText items) ∧
          2 ≤ joinedLength (itemTexts numberText items))
  | [] => by simp [dropProtoItems, hasProtoKeyItems]
  | item :: items => by
    have hitem := item.length_text_dropProto
    have hitems := joinedLength_dropProtoItems items
    simp only [dropProtoItems, itemTexts, joinedLength, List.map_cons, List.sum_cons,
      hasProtoKeyItems, Bool.or_eq_true] at hitems ⊢
    grind

theorem joinedLength_dropProtoFields : ∀ fields : List (String × Json),
    joinedLength (fieldTexts numberText (dropProtoFields fields)) ≤
      joinedLength (fieldTexts numberText fields) ∧
      (hasProtoKeyFields fields = true →
        joinedLength (fieldTexts numberText (dropProtoFields fields)) <
          joinedLength (fieldTexts numberText fields) ∧
          2 ≤ joinedLength (fieldTexts numberText fields))
  | [] => by simp [dropProtoFields, hasProtoKeyFields]
  | (key, value) :: fields => by
    have hvalue := value.length_text_dropProto
    have hfields := joinedLength_dropProtoFields fields
    simp only [dropProtoFields, hasProtoKeyFields, Bool.or_eq_true, beq_iff_eq]
    split
    · simp only [fieldTexts, joinedLength, List.map_cons, List.sum_cons, List.length_append,
        List.length_singleton] at hfields ⊢
      grind
    · simp only [fieldTexts, joinedLength, List.map_cons, List.sum_cons, List.length_append,
        List.length_singleton] at hfields ⊢
      grind

end

theorem stringifyText_cloneJson_iff (value : JsValue) :
    stringifyText numberText (cloneJson value) = stringifyText numberText value ↔
      writesProtoKey value true = false := by
  rw [stringifyText, stringifyText, stringify_cloneJson, writesProtoKey_eq]
  cases stringify value true with
  | none => simp
  | some json =>
    simp only [Option.map_some, Option.some.injEq, Option.any_some]
    constructor
    · intro htext
      cases hp : json.hasProtoKey with
      | false => rfl
      | true =>
        have hlt := (json.length_text_dropProto numberText).2 hp
        rw [htext] at hlt
        exact absurd hlt (Nat.lt_irrefl _)
    · intro hp
      rw [json.dropProto_eq_self hp]

end Text

theorem cloneJson_loses_proto : ¬ ∀ (numberText : ℚ → List Char) (value : JsValue),
    stringifyText numberText (cloneJson value) = stringifyText numberText value := by
  intro h
  have := h (fun _ => []) (.obj [("__proto__", .obj [])])
  revert this
  decide

end JevCode.Session
