import JevCode.Data.JsonTree
import JevCode.Text.Utf8
import Mathlib.Data.List.Nodup
import Mathlib.Data.List.Perm.Subperm
import Mathlib.Data.Rat.Init

namespace JevCode.Ai

open JevCode.Data JevCode.Text

inductive JsNumber
  | negativeZero
  | rational (q : Rat)
  deriving DecidableEq

def JsNumber.isInteger : JsNumber → Bool
  | negativeZero => true
  | rational q => q.den = 1

abbrev JsonData := JsonTree Chars (JsonScalar JsNumber)

structure JsonValue where
  data : JsonData
  distinctKeys : data.DistinctKeys

/-- What reading a property can give: a value, a function that objects inherit, or their prototype.
-/
inductive JsValue
  | json (data : JsonData)
  | function
  | objectPrototype

def protoKey : Chars := "__proto__".toList

def inheritedKeys : List Chars :=
  [protoKey, "constructor".toList, "__defineGetter__".toList, "__defineSetter__".toList,
    "hasOwnProperty".toList, "__lookupGetter__".toList, "__lookupSetter__".toList,
    "isPrototypeOf".toList, "propertyIsEnumerable".toList, "toString".toList, "valueOf".toList,
      "toLocaleString".toList]

namespace JsValue

def isJsonObject : JsValue → Bool
  | json (.obj _) => true
  | objectPrototype => true
  | _ => false

def get? (key : Chars) : JsValue → Option JsValue
  | json (.obj fields) =>
    match JsonTree.get? key fields with
    | some own => some (json own)
    | none =>
      if key = protoKey then some objectPrototype
      else if key ∈ inheritedKeys then some function
      else none
  | objectPrototype =>
    if key = protoKey then some (json (.leaf .null))
    else if key ∈ inheritedKeys then some function
    else none
  | _ => none

def ownFields : JsValue → List (Chars × JsonData)
  | json (.obj fields) => fields
  | _ => []

def isArray : JsValue → Bool
  | json (.arr _) => true
  | _ => false

def elements : JsValue → List JsonData
  | json (.arr items) => items
  | _ => []

end JsValue

mutual

def equalTo : JsonData → JsValue → Bool
  | .leaf a, .json (.leaf b) => a = b
  | .arr xs, .json (.arr ys) => xs.length = ys.length ∧ equalItems xs ys
  | .obj fields, right =>
    right.isJsonObject ∧ equalFields fields right ∧ fields.length = right.ownFields.length
  | _, _ => false

def equalItems : List JsonData → List JsonData → Bool
  | x :: xs, y :: ys => equalTo x (.json y) && equalItems xs ys
  | _, _ => true

def equalFields : List (Chars × JsonData) → JsValue → Bool
  | [], _ => true
  | (key, x) :: fields, right =>
    match right.get? key with
    | none => false
    | some y => equalTo x y && equalFields fields right

end

def areJsonValuesEqual : JsValue → JsValue → Bool
  | .json left, right => equalTo left right
  | .function, _ => false
  | .objectPrototype, right => right.isJsonObject ∧ right.ownFields = []

inductive JsonType
  | string
  | number
  | integer
  | boolean
  | object
  | array
  | null
  deriving DecidableEq

def JsonType.name : JsonType → String
  | string => "string"
  | number => "number"
  | integer => "integer"
  | boolean => "boolean"
  | object => "object"
  | array => "array"
  | null => "null"

def matchesJsonSchemaType : JsValue → JsonType → Bool
  | .json (.leaf (.string _)), .string => true
  | .json (.leaf (.number _)), .number => true
  | .json (.leaf (.number n)), .integer => n.isInteger
  | .json (.leaf (.boolean _)), .boolean => true
  | .json (.leaf .null), .null => true
  | .json (.arr _), .array => true
  | value, .object => value.isJsonObject
  | _, _ => false

def typeOfJsonValue : JsValue → String
  | .json (.leaf .null) => "null"
  | .json (.arr _) => "array"
  | .json (.leaf (.number n)) => if n.isInteger then "integer" else "number"
  | .json (.leaf (.boolean _)) => "boolean"
  | .json (.leaf (.string _)) => "string"
  | .json (.obj _) => "object"
  | .objectPrototype => "object"
  | .function => "function"

/-- A boolean schema or the keywords of an object.  An absent list of types, of required names, of
properties, of `allOf` branches or of prefix items is an empty one. -/
inductive Schema
  | bool (b : Bool)
  | object (types : List JsonType) (const : Option JsonValue) (enum : Option (List JsonValue))
      (anyOf oneOf : Option (List Schema)) (allOf : List Schema) (not : Option Schema)
      (required : List Chars) (properties : List (Chars × Schema))
        (additionalProperties : Option Schema)
      (prefixItems : List Schema) (items : Option Schema)
      (minItems maxItems minProperties maxProperties : Option Nat)

inductive PathKey
  | key (key : Chars)
  | index (i : Nat)
  deriving DecidableEq

inductive Keyword
  | false
  | type
  | const
  | enum
  | anyOf
  | oneOf
  | not
  | required
  | additionalProperties
  | minProperties
  | maxProperties
  | minItems
  | maxItems
  deriving DecidableEq

structure Issue where
  path : List PathKey
  message : String
  keyword : Keyword
  expectedTypes : List JsonType
  deriving DecidableEq

structure Outcome where
  valid : Bool
  issues : List Issue
  deriving DecidableEq

namespace Outcome

def ok : Outcome := ⟨true, []⟩

def reject (path : List PathKey) (message : String) (keyword : Keyword) : Outcome :=
  ⟨false, [⟨path, message, keyword, []⟩]⟩

def and (a b : Outcome) : Outcome := ⟨a.valid && b.valid, a.issues ++ b.issues⟩

def all (outcomes : List Outcome) : Outcome := outcomes.foldr and ok

def check (test : Bool) (path : List PathKey) (message : String) (keyword : Keyword) : Outcome :=
  if test then ok else reject path message keyword

end Outcome

open Outcome

def hasWrongType (types : List JsonType) (value : JsValue) : Bool :=
  types ≠ [] ∧ !types.any (matchesJsonSchemaType value)

def typeIssue (types : List JsonType) (value : JsValue) (path : List PathKey) : Issue :=
  let expected := " or ".intercalate (types.map JsonType.name)
  let received := typeOfJsonValue value
  ⟨path, s!"expected {expected}, received {received}", .type, types⟩

def validateConst (const : Option JsonValue) (value : JsValue) (path : List PathKey) : Outcome :=
  match const with
  | none => ok
  | some c => check (areJsonValuesEqual value (.json c.data)) path "must equal const value" .const

def validateEnum (enum : Option (List JsonValue)) (value : JsValue)
    (path : List PathKey) : Outcome :=
  match enum with
  | none => ok
  | some entries =>
    check (entries.any fun entry => areJsonValuesEqual (.json entry.data) value) path
      "must be one of the allowed enum values" .enum

def branchFailure (path : List PathKey) (message : String) (keyword : Keyword)
    (branches : List Outcome) :
    Outcome :=
  let firstIssues := ((branches.find? (!·.valid)).map Outcome.issues).getD []
  if branches.countP Outcome.valid = 0 ∧ firstIssues ≠ [] then ⟨false, firstIssues⟩
  else reject path message keyword

def combineAnyOf (path : List PathKey) : Option (List Outcome) → Outcome
  | none => ok
  | some branches =>
    if branches.countP Outcome.valid > 0 then ok
    else branchFailure path "must match at least one schema" .anyOf branches

def combineOneOf (path : List PathKey) : Option (List Outcome) → Outcome
  | none => ok
  | some branches =>
    if branches.countP Outcome.valid = 1 then ok
    else branchFailure path "must match exactly one schema" .oneOf branches

def combineNot (path : List PathKey) : Option Outcome → Outcome
  | none => ok
  | some excluded => check (!excluded.valid) path "must not match excluded schema" .not

def validateRequired (required : List Chars) (value : JsValue) (path : List PathKey) : Outcome :=
  all (required.map fun key => check (value.get? key).isSome (path ++ [.key key])
    "is required" .required)

def validateMinimum (minimum : Option Nat) (count : Nat) (path : List PathKey) (unit : String)
    (keyword : Keyword) : Outcome :=
  match minimum with
  | none => ok
  | some n => check (n ≤ count) path s!"must have at least {n} {unit}" keyword

def validateMaximum (maximum : Option Nat) (count : Nat) (path : List PathKey) (unit : String)
    (keyword : Keyword) : Outcome :=
  match maximum with
  | none => ok
  | some n => check (count ≤ n) path s!"must have at most {n} {unit}" keyword

def validateObjectKeywords (required known : List Chars) (properties : List Outcome)
    (additional : Chars × JsonData → Outcome) (minProperties maxProperties : Option Nat)
    (value : JsValue) (path : List PathKey) : Outcome :=
  if value.isJsonObject then
    all [validateRequired required value path, all properties,
      all ((value.ownFields.filter (·.1 ∉ known)).map additional),
      validateMinimum minProperties value.ownFields.length path "properties" .minProperties,
      validateMaximum maxProperties value.ownFields.length path "properties" .maxProperties]
  else ok

def validateArrayKeywords (prefixItems : List Outcome) (prefixLength : Nat)
    (item : JsonData × Nat → Outcome) (minItems maxItems : Option Nat) (value : JsValue)
    (path : List PathKey) : Outcome :=
  if value.isArray then
    all [validateMinimum minItems value.elements.length path "items" .minItems,
      validateMaximum maxItems value.elements.length path "items" .maxItems,
      all prefixItems, all ((value.elements.zipIdx.drop prefixLength).map item)]
  else ok

mutual

def validateSchemaNode : Schema → JsValue → List PathKey → Outcome
  | .bool b, _, path => check b path "must not match false schema" .false
  | .object types const enum anyOf oneOf allOf not required properties
    additionalProperties prefixItems
      items minItems maxItems minProperties maxProperties, value, path =>
    if hasWrongType types value then ⟨false, [typeIssue types value path]⟩
    else
      all [validateConst const value path, validateEnum enum value path,
        combineAnyOf path (validateSomeBranches anyOf value path),
        combineOneOf path (validateSomeBranches oneOf value path),
        all (validateBranches allOf value path), combineNot path (validateExcluded not value path),
        validateObjectKeywords required (properties.map Prod.fst)
          (validateProperties properties value path)
          (validateAdditional additionalProperties path) minProperties maxProperties value path,
        validateArrayKeywords (validatePrefixItems prefixItems value.elements path 0)
          prefixItems.length
          (validateItem items path) minItems maxItems value path]

def validateBranches : List Schema → JsValue → List PathKey → List Outcome
  | [], _, _ => []
  | branch :: branches, value, path =>
    validateSchemaNode branch value path :: validateBranches branches value path

def validateSomeBranches : Option (List Schema) → JsValue → List PathKey → Option (List Outcome)
  | none, _, _ => none
  | some branches, value, path => some (validateBranches branches value path)

def validateExcluded : Option Schema → JsValue → List PathKey → Option Outcome
  | none, _, _ => none
  | some schema, value, path => some (validateSchemaNode schema value path)

def validateProperties : List (Chars × Schema) → JsValue → List PathKey → List Outcome
  | [], _, _ => []
  | (key, schema) :: properties, value, path =>
    match value.get? key with
    | none => validateProperties properties value path
    | some x =>
      validateSchemaNode schema x (path ++ [.key key]) :: validateProperties properties value path

def validatePrefixItems : List Schema → List JsonData → List PathKey → Nat → List Outcome
  | schema :: prefixItems, x :: elements, path, i =>
    validateSchemaNode schema (.json x) (path ++ [.index i]) ::
      validatePrefixItems prefixItems elements path (i + 1)
  | _, _, _, _ => []

def validateAdditional : Option Schema → List PathKey → Chars × JsonData → Outcome
  | none, _, _ => ok
  | some (.bool b), path, field =>
    check b (path ++ [.key field.1]) "must not be present" .additionalProperties
  | some schema, path, field => validateSchemaNode schema (.json field.2) (path ++ [.key field.1])

def validateItem : Option Schema → List PathKey → JsonData × Nat → Outcome
  | none, _, _ => ok
  | some schema, path, element =>
    validateSchemaNode schema (.json element.1) (path ++ [.index element.2])

end

def validateJsonSchemaValue (schema : Schema) (value : JsonValue) : Outcome :=
  validateSchemaNode schema (.json value.data) []

namespace Outcome

def Consistent (o : Outcome) : Prop := o.valid = true ↔ o.issues = []

theorem consistent_ok : Consistent ok := by simp [Consistent, ok]

theorem consistent_reject (path : List PathKey) (message : String) (keyword : Keyword) :
    Consistent (reject path message keyword) := by
  simp [Consistent, reject]

theorem consistent_check (test : Bool) (path : List PathKey) (message : String) (keyword : Keyword) :
    Consistent (check test path message keyword) := by
  unfold check
  split
  · exact consistent_ok
  · exact consistent_reject path message keyword

theorem consistent_all {outcomes : List Outcome} (h : ∀ o ∈ outcomes, Consistent o) :
    Consistent (all outcomes) := by
  induction outcomes with
  | nil => exact consistent_ok
  | cons o outcomes ih =>
    have ho := h o List.mem_cons_self
    have hrest := ih fun o ho => h o (List.mem_cons_of_mem _ ho)
    unfold Consistent at ho hrest ⊢
    change (o.valid && (all outcomes).valid) = true ↔ o.issues ++ (all outcomes).issues = []
    rw [Bool.and_eq_true, List.append_eq_nil_iff, ho, hrest]

theorem valid_all {outcomes : List Outcome} :
    (all outcomes).valid = true ↔ ∀ o ∈ outcomes, o.valid = true := by
  induction outcomes with
  | nil => simp [all, ok]
  | cons o outcomes ih =>
    change (o.valid && (all outcomes).valid) = true ↔ _
    rw [Bool.and_eq_true, ih, List.forall_mem_cons]

theorem valid_check {test : Bool} {path : List PathKey} {message : String} {keyword : Keyword} :
    (check test path message keyword).valid = test := by
  cases test <;> rfl

end Outcome

open Outcome

theorem consistent_branchFailure (path : List PathKey) (message : String) (keyword : Keyword)
    (branches : List Outcome) : Consistent (branchFailure path message keyword branches) := by
  unfold branchFailure
  simp only
  split
  case isTrue h => simp [Consistent, h.2]
  case isFalse => exact consistent_reject path message keyword

theorem consistent_combineAnyOf (path : List PathKey) (branches : Option (List Outcome)) :
    Consistent (combineAnyOf path branches) := by
  unfold combineAnyOf
  split
  · exact consistent_ok
  · split
    · exact consistent_ok
    · exact consistent_branchFailure path _ _ _

theorem consistent_combineOneOf (path : List PathKey) (branches : Option (List Outcome)) :
    Consistent (combineOneOf path branches) := by
  unfold combineOneOf
  split
  · exact consistent_ok
  · split
    · exact consistent_ok
    · exact consistent_branchFailure path _ _ _

theorem consistent_combineNot (path : List PathKey) (excluded : Option Outcome) :
    Consistent (combineNot path excluded) := by
  cases excluded with
  | none => exact consistent_ok
  | some excluded => exact consistent_check _ _ _ _

theorem consistent_validateConst (const : Option JsonValue) (value : JsValue) (path : List PathKey) :
    Consistent (validateConst const value path) := by
  cases const with
  | none => exact consistent_ok
  | some c => exact consistent_check _ _ _ _

theorem consistent_validateEnum (enum : Option (List JsonValue)) (value : JsValue)
    (path : List PathKey) :
    Consistent (validateEnum enum value path) := by
  cases enum with
  | none => exact consistent_ok
  | some entries => exact consistent_check _ _ _ _

theorem consistent_validateMinimum (minimum : Option Nat) (count : Nat) (path : List PathKey)
    (unit : String) (keyword : Keyword) :
    Consistent (validateMinimum minimum count path unit keyword) := by
  cases minimum with
  | none => exact consistent_ok
  | some n => exact consistent_check _ _ _ _

theorem consistent_validateMaximum (maximum : Option Nat) (count : Nat) (path : List PathKey)
    (unit : String) (keyword : Keyword) :
    Consistent (validateMaximum maximum count path unit keyword) := by
  cases maximum with
  | none => exact consistent_ok
  | some n => exact consistent_check _ _ _ _

theorem consistent_validateObjectKeywords {required known : List Chars} {properties : List Outcome}
    {additional : Chars × JsonData → Outcome} (minProperties maxProperties : Option Nat)
    (value : JsValue) (path : List PathKey) (hproperties : ∀ o ∈ properties, Consistent o)
    (hadditional : ∀ field, Consistent (additional field)) :
    Consistent (validateObjectKeywords required known properties additional minProperties
      maxProperties value
      path) := by
  unfold validateObjectKeywords
  split
  case isTrue =>
    refine consistent_all ?_
    simp only [List.forall_mem_cons]
    refine ⟨?_, consistent_all hproperties, ?_, consistent_validateMinimum _ _ _ _ _,
      consistent_validateMaximum _ _ _ _ _, fun o ho => (List.not_mem_nil ho).elim⟩
    · exact consistent_all (List.forall_mem_map.mpr fun key _ => consistent_check _ _ _ _)
    · exact consistent_all (List.forall_mem_map.mpr fun field _ => hadditional field)
  case isFalse => exact consistent_ok

theorem consistent_validateArrayKeywords {prefixItems : List Outcome} (prefixLength : Nat)
    {item : JsonData × Nat → Outcome} (minItems maxItems : Option Nat) (value : JsValue)
    (path : List PathKey) (hfirst : ∀ o ∈ prefixItems, Consistent o)
    (hitem : ∀ element, Consistent (item element)) :
    Consistent (validateArrayKeywords prefixItems prefixLength item minItems maxItems
      value path) := by
  unfold validateArrayKeywords
  split
  case isTrue =>
    refine consistent_all ?_
    simp only [List.forall_mem_cons]
    exact ⟨consistent_validateMinimum _ _ _ _ _, consistent_validateMaximum _ _ _ _ _,
      consistent_all hfirst, consistent_all (List.forall_mem_map.mpr fun element _ => hitem element),
      fun o ho => (List.not_mem_nil ho).elim⟩
  case isFalse => exact consistent_ok

mutual

theorem consistent_validateSchemaNode : ∀ (schema : Schema) (value : JsValue) (path : List PathKey),
    Consistent (validateSchemaNode schema value path)
  | .bool b, _, path => by
    rw [validateSchemaNode]
    exact consistent_check b path _ _
  | .object types const enum anyOf oneOf allOf not required properties
    additionalProperties prefixItems
      items minItems maxItems minProperties maxProperties, value, path => by
    rw [validateSchemaNode]
    split
    case isTrue => simp [Consistent]
    case isFalse =>
      refine consistent_all ?_
      simp only [List.forall_mem_cons]
      refine ⟨consistent_validateConst _ _ _, consistent_validateEnum _ _ _,
        consistent_combineAnyOf _ _, consistent_combineOneOf _ _,
        consistent_all (consistent_validateBranches allOf value path), consistent_combineNot _ _, ?_,
          ?_, fun o ho => (List.not_mem_nil ho).elim⟩
      · exact consistent_validateObjectKeywords _ _ _ _
          (consistent_validateProperties properties value path)
          (consistent_validateAdditional additionalProperties path)
      · exact consistent_validateArrayKeywords _ _ _ _ _
          (consistent_validatePrefixItems prefixItems value.elements path 0)
          (consistent_validateItem items path)

theorem consistent_validateBranches :
    ∀ (branches : List Schema) (value : JsValue) (path : List PathKey),
    ∀ o ∈ validateBranches branches value path, Consistent o
  | [], _, _ => by simp [validateBranches]
  | branch :: branches, value, path => by
    rw [validateBranches, List.forall_mem_cons]
    exact ⟨consistent_validateSchemaNode branch value path,
      consistent_validateBranches branches value path⟩

theorem consistent_validateProperties : ∀ (properties : List (Chars × Schema)) (value : JsValue)
    (path : List PathKey), ∀ o ∈ validateProperties properties value path, Consistent o
  | [], _, _ => by simp [validateProperties]
  | (key, schema) :: properties, value, path => by
    rw [validateProperties]
    split
    · exact consistent_validateProperties properties value path
    case h_2 x _ =>
      rw [List.forall_mem_cons]
      exact ⟨consistent_validateSchemaNode schema x _,
        consistent_validateProperties properties value path⟩

theorem consistent_validatePrefixItems : ∀ (prefixItems : List Schema) (elements : List JsonData)
    (path : List PathKey)
    (i : Nat), ∀ o ∈ validatePrefixItems prefixItems elements path i, Consistent o
  | [], _, _, _ => by simp [validatePrefixItems]
  | _ :: _, [], _, _ => by simp [validatePrefixItems]
  | schema :: prefixItems, x :: elements, path, i => by
    rw [validatePrefixItems, List.forall_mem_cons]
    exact ⟨consistent_validateSchemaNode schema _ _,
      consistent_validatePrefixItems prefixItems elements path (i + 1)⟩

theorem consistent_validateAdditional : ∀ (schema : Option Schema) (path : List PathKey)
    (field : Chars × JsonData), Consistent (validateAdditional schema path field)
  | none, _, _ => by
    rw [validateAdditional]
    exact consistent_ok
  | some (.bool b), path, field => by
    rw [validateAdditional]
    exact consistent_check b _ _ _
  | some (.object _ _ _ _ _ _ _ _ _ _ _ _ _ _ _ _), path, field => by
    rw [validateAdditional]
    · exact consistent_validateSchemaNode _ _ _
    · simp

theorem consistent_validateItem : ∀ (schema : Option Schema) (path : List PathKey)
    (element : JsonData × Nat), Consistent (validateItem schema path element)
  | none, _, _ => by
    rw [validateItem]
    exact consistent_ok
  | some schema, path, element => by
    rw [validateItem]
    exact consistent_validateSchemaNode schema _ _

end

end JevCode.Ai
