import JevCode.Text.JsonStringify

namespace JevCode.Text.JsonSyntax

abbrev PropertyKey := List CodeUnit

mutual

/-- A value, once its `toJSON` was asked. Arrays and objects have an identity; a hole of an array
reads as `undefined`. -/
inductive JsValue (ν : Type)
  | undefined
  | null
  | boolean (b : Bool)
  | number (n : ν)
  | string (s : List CodeUnit)
  | bigint
  | symbol
  | function
  | array (ref : Nat) (elements : List (JsInput ν))
  | object (ref : Nat) (members : List (PropertyKey × JsInput ν))

/-- A value as it stands in its holder. Of an object or a function with a `toJSON` that can be called
nothing else is read. -/
inductive JsInput (ν : Type)
  | plain (v : JsValue ν)
  | hasToJSON (call : PropertyKey → JsResult ν)

inductive JsResult (ν : Type)
  | throws
  | returns (v : JsValue ν)

end

def indexKey (index : Nat) : PropertyKey := units (toString index)

section

variable {ν : Type} (numberText : ν → Numeral)

mutual

/-- `SerializeJSONProperty` after `toJSON` was asked: it throws, or there is nothing to write, or
there is a text. -/
def serializeValue (stack : List Nat) : JsValue ν → Option (Option Chars)
  | .undefined => some none
  | .null => some (some ['n', 'u', 'l', 'l'])
  | .boolean true => some (some ['t', 'r', 'u', 'e'])
  | .boolean false => some (some ['f', 'a', 'l', 's', 'e'])
  | .number n => some (some (numberText n).chars)
  | .string s => some (some (quoteString s))
  | .bigint => none
  | .symbol => some none
  | .function => some none
  | .array ref elements =>
    if ref ∈ stack then none
    else (serializeElements (ref :: stack) 0 elements).map fun texts =>
      some ('[' :: [','].intercalate texts ++ [']'])
  | .object ref members =>
    if ref ∈ stack then none
    else (serializeMembers (ref :: stack) members).map fun texts =>
      some ('\x7b' :: [','].intercalate texts ++ ['\x7d'])

def serializeProperty (stack : List Nat) (key : PropertyKey) : JsInput ν → Option (Option Chars)
  | .plain v => serializeValue stack v
  | .hasToJSON call => serializeResult stack (call key)

def serializeResult (stack : List Nat) : JsResult ν → Option (Option Chars)
  | .throws => none
  | .returns v => serializeValue stack v

def serializeElements (stack : List Nat) (index : Nat) : List (JsInput ν) → Option (List Chars)
  | [] => some []
  | input :: rest => do
    let text ← serializeProperty stack (indexKey index) input
    let texts ← serializeElements stack (index + 1) rest
    some (text.getD ['n', 'u', 'l', 'l'] :: texts)

/-- `SerializeJSONObject`; what is not written is left out with its key. -/
def serializeMembers (stack : List Nat) : List (PropertyKey × JsInput ν) → Option (List Chars)
  | [] => some []
  | (key, input) :: rest => do
    let text ← serializeProperty stack key input
    let texts ← serializeMembers stack rest
    some (text.toList.map (fun text => quoteString key ++ ':' :: text) ++ texts)

end

def serialize (value : JsInput ν) : Option (Option Chars) := serializeProperty numberText [] [] value

end

section

variable {ν : Type}

mutual

/-- No object is met again inside of itself, no `toJSON` throws, and there is neither a bigint nor a
symbol. -/
def JsonLike (stack : List Nat) : JsValue ν → Prop
  | .undefined => True
  | .null => True
  | .boolean _ => True
  | .number _ => True
  | .string _ => True
  | .bigint => False
  | .symbol => False
  | .function => True
  | .array ref elements => ref ∉ stack ∧ JsonLikeElements (ref :: stack) 0 elements
  | .object ref members => ref ∉ stack ∧ JsonLikeMembers (ref :: stack) members

def JsonLikeInput (stack : List Nat) (key : PropertyKey) : JsInput ν → Prop
  | .plain v => JsonLike stack v
  | .hasToJSON call => JsonLikeResult stack (call key)

def JsonLikeResult (stack : List Nat) : JsResult ν → Prop
  | .throws => False
  | .returns v => JsonLike stack v

def JsonLikeElements (stack : List Nat) (index : Nat) : List (JsInput ν) → Prop
  | [] => True
  | input :: rest =>
    JsonLikeInput stack (indexKey index) input ∧ JsonLikeElements stack (index + 1) rest

def JsonLikeMembers (stack : List Nat) : List (PropertyKey × JsInput ν) → Prop
  | [] => True
  | (key, input) :: rest => JsonLikeInput stack key input ∧ JsonLikeMembers stack rest

end

end

end JevCode.Text.JsonSyntax
