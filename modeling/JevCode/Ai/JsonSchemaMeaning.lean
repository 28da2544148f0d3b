import JevCode.Ai.JsonSchema

namespace JevCode.Ai

open JevCode.Data JevCode.Text

def JsNumber.toRat : JsNumber → Rat
  | negativeZero => 0
  | rational q => q

def SameScalar : JsonScalar JsNumber → JsonScalar JsNumber → Prop
  | .number m, .number n => m.toRat = n.toRat
  | a, b => a = b

mutual

def SameValue : JsonData → JsonData → Prop
  | .leaf a, .leaf b => SameScalar a b
  | .arr xs, .arr ys => SameItems xs ys
  | .obj fields, .obj fields' =>
    SameFields fields fields' ∧ fields'.map Prod.fst ⊆ fields.map Prod.fst
  | _, _ => False

def SameItems : List JsonData → List JsonData → Prop
  | [], [] => True
  | x :: xs, y :: ys => SameValue x y ∧ SameItems xs ys
  | _, _ => False

def SameFields : List (Chars × JsonData) → List (Chars × JsonData) → Prop
  | [], _ => True
  | (key, x) :: fields, fields' =>
    (∃ y, JsonTree.get? key fields' = some y ∧ SameValue x y) ∧ SameFields fields fields'

end

def HasType : JsonData → JsonType → Prop
  | .leaf (.string _), .string => True
  | .leaf (.number _), .number => True
  | .leaf (.number n), .integer => n.toRat.den = 1
  | .leaf (.boolean _), .boolean => True
  | .leaf .null, .null => True
  | .arr _, .array => True
  | .obj _, .object => True
  | _, _ => False

def ExactlyOne : List Prop → Prop
  | [] => False
  | p :: ps => (p ∧ ∀ q ∈ ps, ¬q) ∨ (¬p ∧ ExactlyOne ps)

mutual

def Satisfies : Schema → JsonData → Prop
  | .bool b, _ => b = true
  | .object types const enum anyOf oneOf allOf not required properties
    additionalProperties prefixItems
      items minItems maxItems minProperties maxProperties, value =>
    (types = [] ∨ ∃ type ∈ types, HasType value type) ∧
    (∀ c, const = some c → SameValue value c.data) ∧
    (∀ entries, enum = some entries → ∃ entry ∈ entries, SameValue entry.data value) ∧
    SatisfiesAny anyOf value ∧ SatisfiesOne oneOf value ∧ (∀ p ∈ meanings allOf value, p) ∧
    FailsExcluded not value ∧
    (∀ fields, value = .obj fields →
      (∀ key ∈ required, key ∈ fields.map Prod.fst) ∧ SatisfiesProperties properties fields ∧
      (∀ field ∈ fields, field.1 ∉ properties.map Prod.fst →
        SatisfiesRest additionalProperties field.2) ∧
      (∀ n, minProperties = some n → n ≤ fields.length) ∧
        (∀ n, maxProperties = some n → fields.length ≤ n)) ∧
    (∀ elements, value = .arr elements →
      (∀ n, minItems = some n → n ≤ elements.length) ∧
      (∀ n, maxItems = some n → elements.length ≤ n) ∧
      SatisfiesPrefix prefixItems elements ∧
      ∀ x ∈ elements.drop prefixItems.length, SatisfiesRest items x)

def meanings : List Schema → JsonData → List Prop
  | [], _ => []
  | branch :: branches, value => Satisfies branch value :: meanings branches value

def SatisfiesAny : Option (List Schema) → JsonData → Prop
  | none, _ => True
  | some branches, value => ∃ p ∈ meanings branches value, p

def SatisfiesOne : Option (List Schema) → JsonData → Prop
  | none, _ => True
  | some branches, value => ExactlyOne (meanings branches value)

def FailsExcluded : Option Schema → JsonData → Prop
  | none, _ => True
  | some schema, value => ¬Satisfies schema value

def SatisfiesProperties : List (Chars × Schema) → List (Chars × JsonData) → Prop
  | [], _ => True
  | (key, schema) :: properties, fields =>
    (∀ x, JsonTree.get? key fields = some x → Satisfies schema x) ∧
      SatisfiesProperties properties fields

def SatisfiesRest : Option Schema → JsonData → Prop
  | none, _ => True
  | some schema, value => Satisfies schema value

def SatisfiesPrefix : List Schema → List JsonData → Prop
  | schema :: prefixItems, x :: elements => Satisfies schema x ∧ SatisfiesPrefix prefixItems elements
  | _, _ => True

end

mutual

/-- The comparison meets no zero with the other sign, and no key `__proto__` with an empty object
that the other side lacks. -/
def ComparesWell : JsonData → JsonData → Prop
  | .leaf a, .leaf b => SameScalar a b → a = b
  | .arr xs, .arr ys => xs.length = ys.length → ItemsCompareWell xs ys
  | .obj fields, .obj fields' => FieldsCompareWell fields fields'
  | _, _ => True

def ItemsCompareWell : List JsonData → List JsonData → Prop
  | x :: xs, y :: ys => ComparesWell x y ∧ (equalTo x (.json y) = true → ItemsCompareWell xs ys)
  | _, _ => True

def FieldsCompareWell : List (Chars × JsonData) → List (Chars × JsonData) → Prop
  | [], _ => True
  | (key, x) :: fields, fields' =>
    (JsonTree.get? key fields' = none → key = protoKey → x ≠ .obj []) ∧
    ∀ y, JsonTree.get? key fields' = some y →
      ComparesWell x y ∧ (equalTo x (.json y) = true → FieldsCompareWell fields fields')

end

def EntriesCompareWell : List JsonValue → JsonData → Prop
  | [], _ => True
  | entry :: entries, value =>
    ComparesWell entry.data value ∧
      (equalTo entry.data (.json value) = false → EntriesCompareWell entries value)

theorem get?_own {key : Chars} {fields : List (Chars × JsonData)} {x : JsonData}
    (h : JsonTree.get? key fields = some x) :
    JsValue.get? key (.json (.obj fields)) = some (.json x) := by
  simp [JsValue.get?, h]

theorem get?_missing {key : Chars} {fields : List (Chars × JsonData)}
    (h : JsonTree.get? key fields = none) (hkey : key ∉ inheritedKeys) :
    JsValue.get? key (.json (.obj fields)) = none := by
  have hproto : key ≠ protoKey := by
    rintro rfl
    exact hkey List.mem_cons_self
  simp [JsValue.get?, h, hkey, hproto]

theorem equalTo_function (x : JsonData) : equalTo x .function = false := by
  cases x <;> simp [equalTo, JsValue.isJsonObject]

theorem equalTo_objectPrototype {x : JsonData} (hx : x ≠ .obj []) :
    equalTo x .objectPrototype = false := by
  cases x with
  | leaf a => simp [equalTo]
  | arr items => simp [equalTo]
  | obj fields =>
    have hfields : fields ≠ [] := fun h => hx (congrArg _ h)
    simp [equalTo, JsValue.ownFields, hfields]

theorem equalFields_missing {key : Chars} {x : JsonData} {fields fields' : List (Chars × JsonData)}
    (h : JsonTree.get? key fields' = none) (hproto : key = protoKey → x ≠ .obj []) :
    equalFields ((key, x) :: fields) (.json (.obj fields')) = false := by
  rw [equalFields]
  simp only [JsValue.get?, h]
  by_cases hkey : key = protoKey
  · simp [if_pos hkey, equalTo_objectPrototype (hproto hkey)]
  · rw [if_neg hkey]
    by_cases hinherited : key ∈ inheritedKeys
    · simp [if_pos hinherited, equalTo_function]
    · simp [if_neg hinherited]

theorem sameFields_subset {fields fields' : List (Chars × JsonData)}
    (h : SameFields fields fields') :
    fields.map Prod.fst ⊆ fields'.map Prod.fst := by
  induction fields with
  | nil => simp
  | cons field fields ih =>
    rw [SameFields] at h
    obtain ⟨⟨y, hy, -⟩, hrest⟩ := h
    rw [List.map_cons, List.cons_subset]
    exact ⟨List.mem_map.mpr ⟨_, JsonTree.mem_of_get? hy, rfl⟩, ih hrest⟩

theorem sameItems_length {xs ys : List JsonData} (h : SameItems xs ys) : xs.length = ys.length := by
  induction xs generalizing ys with
  | nil =>
    cases ys with
    | nil => rfl
    | cons y ys => simp [SameItems] at h
  | cons x xs ih =>
    cases ys with
    | nil => simp [SameItems] at h
    | cons y ys =>
      rw [SameItems] at h
      exact congrArg (· + 1) (ih h.2)

theorem length_eq_iff_subset {keys keys' : List Chars} (hkeys : keys.Nodup) (hkeys' : keys'.Nodup)
    (hsub : keys ⊆ keys') : keys.length = keys'.length ↔ keys' ⊆ keys := by
  have hsubperm := hkeys.subperm hsub
  constructor
  · intro hlength
    exact (hsubperm.perm_of_length_le (Nat.le_of_eq hlength.symm)).symm.subset
  · intro hsub'
    exact Nat.le_antisymm hsubperm.length_le (hkeys'.subperm hsub').length_le

mutual

theorem equalTo_iff : ∀ x y : JsonData, x.DistinctKeys → y.DistinctKeys → ComparesWell x y →
    (equalTo x (.json y) = true ↔ SameValue x y)
  | .leaf a, .leaf b, _, _, hwell => by
    rw [ComparesWell] at hwell
    simp only [equalTo, SameValue, decide_eq_true_eq]
    constructor
    · rintro rfl
      cases a <;> simp [SameScalar]
    · exact hwell
  | .arr xs, .arr ys, hx, hy, hwell => by
    rw [ComparesWell] at hwell
    rw [JsonTree.DistinctKeys] at hx hy
    simp only [equalTo, SameValue, decide_eq_true_eq]
    exact equalItems_iff xs ys hx hy hwell
  | .obj fields, .obj fields', hx, hy, hwell => by
    rw [ComparesWell] at hwell
    rw [JsonTree.DistinctKeys] at hx hy
    have hfields := equalFields_iff fields fields' hx.2 hy.2 hwell
    simp only [equalTo, SameValue, decide_eq_true_eq]
    simp only [JsValue.isJsonObject, JsValue.ownFields, true_and, hfields]
    refine and_congr_right fun hsame => ?_
    rw [← length_eq_iff_subset hx.1 hy.1 (sameFields_subset hsame), List.length_map, List.length_map]
  | .leaf _, .arr _, _, _, _ => by simp [equalTo, SameValue]
  | .leaf _, .obj _, _, _, _ => by simp [equalTo, SameValue]
  | .arr _, .leaf _, _, _, _ => by simp [equalTo, SameValue]
  | .arr _, .obj _, _, _, _ => by simp [equalTo, SameValue]
  | .obj _, .leaf _, _, _, _ => by simp [equalTo, SameValue, JsValue.isJsonObject]
  | .obj _, .arr _, _, _, _ => by simp [equalTo, SameValue, JsValue.isJsonObject]

theorem equalItems_iff : ∀ xs ys : List JsonData, JsonTree.DistinctKeysItems xs →
    JsonTree.DistinctKeysItems ys → (xs.length = ys.length → ItemsCompareWell xs ys) →
    (xs.length = ys.length ∧ equalItems xs ys = true ↔ SameItems xs ys)
  | [], [], _, _, _ => by simp [equalItems, SameItems]
  | [], _ :: _, _, _, _ => by simp [SameItems]
  | _ :: _, [], _, _, _ => by simp [SameItems]
  | x :: xs, y :: ys, hx, hy, hwell => by
    rw [JsonTree.DistinctKeysItems] at hx hy
    simp only [ItemsCompareWell, List.length_cons, Nat.add_right_cancel_iff] at hwell
    simp only [equalItems, SameItems, List.length_cons, Nat.add_right_cancel_iff, Bool.and_eq_true]
    constructor
    · rintro ⟨hlength, hhead, htail⟩
      obtain ⟨hxy, hrest⟩ := hwell hlength
      exact ⟨(equalTo_iff x y hx.1 hy.1 hxy).mp hhead,
        (equalItems_iff xs ys hx.2 hy.2 fun _ => hrest hhead).mp ⟨hlength, htail⟩⟩
    · rintro ⟨hsame, hitems⟩
      have hlength := sameItems_length hitems
      obtain ⟨hxy, hrest⟩ := hwell hlength
      have hhead := (equalTo_iff x y hx.1 hy.1 hxy).mpr hsame
      exact ⟨hlength, hhead, ((equalItems_iff xs ys hx.2 hy.2 fun _ => hrest hhead).mpr hitems).2⟩

theorem equalFields_iff :
    ∀ fields fields' : List (Chars × JsonData), JsonTree.DistinctKeysFields fields →
    JsonTree.DistinctKeysFields fields' → FieldsCompareWell fields fields' →
    (equalFields fields (.json (.obj fields')) = true ↔ SameFields fields fields')
  | [], _, _, _, _ => by simp [equalFields, SameFields]
  | (key, x) :: fields, fields', hx, hy, hwell => by
    rw [JsonTree.DistinctKeysFields] at hx
    rw [FieldsCompareWell] at hwell
    cases hget : JsonTree.get? key fields' with
    | none =>
      rw [equalFields_missing hget (hwell.1 hget), SameFields]
      simp [hget]
    | some y =>
      obtain ⟨hxy, hrest⟩ := hwell.2 y hget
      have heq := equalTo_iff x y hx.1 (hy.mem _ (JsonTree.mem_of_get? hget)) hxy
      rw [equalFields, get?_own hget, SameFields]
      simp only [Bool.and_eq_true, hget, Option.some.injEq, exists_eq_left']
      rw [heq]
      refine and_congr_right fun hsame => ?_
      exact equalFields_iff fields fields' hx.2 hy (hrest (heq.mpr hsame))

end

mutual

def ReadsOwn : Schema → JsonData → Prop
  | .bool _, _ => True
  | .object types const enum anyOf oneOf allOf not required properties
    additionalProperties prefixItems
      items _ _ _ _, value =>
    hasWrongType types (.json value) = false →
      (∀ c, const = some c → ComparesWell value c.data) ∧
      (∀ entries, enum = some entries → EntriesCompareWell entries value) ∧
      BranchesReadOwn anyOf value ∧ BranchesReadOwn oneOf value ∧ AllReadOwn allOf value ∧
      RestReadsOwn not value ∧
      (∀ fields, value = .obj fields →
        (∀ key ∈ required, key ∈ inheritedKeys → key ∈ fields.map Prod.fst) ∧
        PropertiesReadOwn properties fields ∧
        ∀ field ∈ fields, field.1 ∉ properties.map Prod.fst →
          RestReadsOwn additionalProperties field.2) ∧
      (∀ elements, value = .arr elements →
        PrefixReadsOwn prefixItems elements ∧
        ∀ x ∈ elements.drop prefixItems.length, RestReadsOwn items x)

def AllReadOwn : List Schema → JsonData → Prop
  | [], _ => True
  | schema :: schemas, value => ReadsOwn schema value ∧ AllReadOwn schemas value

def BranchesReadOwn : Option (List Schema) → JsonData → Prop
  | none, _ => True
  | some branches, value => AllReadOwn branches value

def RestReadsOwn : Option Schema → JsonData → Prop
  | none, _ => True
  | some schema, value => ReadsOwn schema value

def PropertiesReadOwn : List (Chars × Schema) → List (Chars × JsonData) → Prop
  | [], _ => True
  | (key, schema) :: properties, fields =>
    (JsonTree.get? key fields = none → key ∉ inheritedKeys) ∧
    (∀ x, JsonTree.get? key fields = some x → ReadsOwn schema x) ∧
      PropertiesReadOwn properties fields

def PrefixReadsOwn : List Schema → List JsonData → Prop
  | schema :: prefixItems, x :: elements => ReadsOwn schema x ∧ PrefixReadsOwn prefixItems elements
  | _, _ => True

end

open Outcome

theorem matchesJsonSchemaType_iff (value : JsonData) (type : JsonType) :
    matchesJsonSchemaType (.json value) type = true ↔ HasType value type := by
  cases value with
  | leaf a =>
    cases a with
    | number n => cases n <;> cases type <;>
        simp [matchesJsonSchemaType, HasType, JsValue.isJsonObject, JsNumber.isInteger,
        JsNumber.toRat]
    | _ => cases type <;> simp [matchesJsonSchemaType, HasType, JsValue.isJsonObject]
  | arr items => cases type <;> simp [matchesJsonSchemaType, HasType, JsValue.isJsonObject]
  | obj fields => cases type <;> simp [matchesJsonSchemaType, HasType, JsValue.isJsonObject]

theorem hasWrongType_eq_false {types : List JsonType} {value : JsonData} :
    hasWrongType types (.json value) = false ↔ types = [] ∨ ∃ type ∈ types, HasType value type := by
  simp only [hasWrongType, decide_eq_false_iff_not, not_and_or, Bool.not_eq_true', Bool.not_eq_false,
    List.any_eq_true, matchesJsonSchemaType_iff, ne_eq, not_not]

theorem valid_validateConst {const : Option JsonValue} {value : JsonData} (path : List PathKey)
    (hvalue : value.DistinctKeys) (hwell : ∀ c, const = some c → ComparesWell value c.data) :
    (validateConst const (.json value)
      path).valid = true ↔ ∀ c, const = some c → SameValue value c.data := by
  cases const with
  | none => simp [validateConst, ok]
  | some c =>
    simp only [validateConst, valid_check, areJsonValuesEqual, Option.some.injEq, forall_eq']
    exact equalTo_iff value c.data hvalue c.distinctKeys (hwell c rfl)

theorem any_equalTo_iff {entries : List JsonValue} {value : JsonData} (hvalue : value.DistinctKeys)
    (hwell : EntriesCompareWell entries value) :
    (∃ entry ∈ entries, equalTo entry.data (.json value) = true) ↔
      ∃ entry ∈ entries, SameValue entry.data value := by
  induction entries with
  | nil => simp
  | cons entry entries ih =>
    rw [EntriesCompareWell] at hwell
    have hentry := equalTo_iff entry.data value entry.distinctKeys hvalue hwell.1
    rw [List.exists_mem_cons_iff, List.exists_mem_cons_iff]
    cases heq : equalTo entry.data (.json value) with
    | true => simp [hentry.mp heq]
    | false =>
      have hnot : ¬SameValue entry.data value := fun h => by simp [hentry.mpr h] at heq
      simp only [Bool.false_eq_true, hnot, false_or]
      exact ih (hwell.2 heq)

theorem valid_validateEnum {enum : Option (List JsonValue)} {value : JsonData} (path : List PathKey)
    (hvalue : value.DistinctKeys)
    (hwell : ∀ entries, enum = some entries → EntriesCompareWell entries value) :
    (validateEnum enum (.json value) path).valid = true ↔
      ∀ entries, enum = some entries → ∃ entry ∈ entries, SameValue entry.data value := by
  cases enum with
  | none => simp [validateEnum, ok]
  | some entries =>
    simp only [validateEnum, valid_check, areJsonValuesEqual, List.any_eq_true,
      Option.some.injEq, forall_eq']
    exact any_equalTo_iff hvalue (hwell entries rfl)

theorem valid_branchFailure (path : List PathKey) (message : String) (keyword : Keyword)
    (branches : List Outcome) : (branchFailure path message keyword branches).valid = false := by
  unfold branchFailure
  simp only
  split <;> rfl

theorem valid_combineAnyOf_some (path : List PathKey) (branches : List Outcome) :
    (combineAnyOf path (some branches)).valid = true ↔ 0 < branches.countP Outcome.valid := by
  simp only [combineAnyOf]
  split
  case isTrue h => simp [ok, h]
  case isFalse h => simp [valid_branchFailure, h]

theorem valid_combineOneOf_some (path : List PathKey) (branches : List Outcome) :
    (combineOneOf path (some branches)).valid = true ↔ branches.countP Outcome.valid = 1 := by
  simp only [combineOneOf]
  split
  case isTrue h => simp [ok, h]
  case isFalse h => simp [valid_branchFailure, h]

abbrev Agree : List Outcome → List Prop → Prop := List.Forall₂ fun o p => o.valid = true ↔ p

theorem Agree.all {outcomes : List Outcome} {ps : List Prop} (h : Agree outcomes ps) :
    (∀ o ∈ outcomes, o.valid = true) ↔ ∀ p ∈ ps, p := by
  induction h with
  | nil => simp
  | cons hop _ ih => rw [List.forall_mem_cons, List.forall_mem_cons, hop, ih]

theorem Agree.none {outcomes : List Outcome} {ps : List Prop} (h : Agree outcomes ps) :
    outcomes.countP Outcome.valid = 0 ↔ ∀ p ∈ ps, ¬p := by
  induction h with
  | nil => simp
  | @cons o p _ _ hop _ ih =>
    rw [List.forall_mem_cons, ← ih, ← hop, List.countP_cons]
    cases o.valid <;> simp

theorem Agree.any {outcomes : List Outcome} {ps : List Prop} (h : Agree outcomes ps) :
    0 < outcomes.countP Outcome.valid ↔ ∃ p ∈ ps, p := by
  rw [Nat.pos_iff_ne_zero, Ne, h.none]
  simp

theorem Agree.one {outcomes : List Outcome} {ps : List Prop} (h : Agree outcomes ps) :
    outcomes.countP Outcome.valid = 1 ↔ ExactlyOne ps := by
  induction h with
  | nil => simp [ExactlyOne]
  | @cons o p _ _ hop hrest ih =>
    rw [ExactlyOne, ← ih, ← Agree.none hrest, ← hop, List.countP_cons]
    cases o.valid <;> simp

theorem valid_validateRequired {required : List Chars} {fields : List (Chars × JsonData)}
    (path : List PathKey)
    (hown : ∀ key ∈ required, key ∈ inheritedKeys → key ∈ fields.map Prod.fst) :
    (validateRequired required (.json (.obj fields)) path).valid = true ↔
      ∀ key ∈ required, key ∈ fields.map Prod.fst := by
  unfold validateRequired
  rw [valid_all, List.forall_mem_map]
  refine forall₂_congr fun key hkey => ?_
  rw [valid_check]
  cases hget : JsonTree.get? key fields with
  | none =>
    have hmissing := JsonTree.get?_eq_none.mp hget
    rw [get?_missing hget fun hinherited => hmissing (hown key hkey hinherited)]
    simp [hmissing]
  | some x =>
    rw [get?_own hget]
    simp [List.mem_map.mpr ⟨_, JsonTree.mem_of_get? hget, rfl⟩]

theorem valid_validateMinimum (minimum : Option Nat) (count : Nat) (path : List PathKey)
    (unit : String) (keyword : Keyword) :
    (validateMinimum minimum count path unit keyword).valid = true ↔
      ∀ n, minimum = some n → n ≤ count := by
  cases minimum with
  | none => simp [validateMinimum, ok]
  | some n => simp [validateMinimum, valid_check]

theorem valid_validateMaximum (maximum : Option Nat) (count : Nat) (path : List PathKey)
    (unit : String) (keyword : Keyword) :
    (validateMaximum maximum count path unit keyword).valid = true ↔
      ∀ n, maximum = some n → count ≤ n := by
  cases maximum with
  | none => simp [validateMaximum, ok]
  | some n => simp [validateMaximum, valid_check]

theorem valid_validateObjectKeywords {required known : List Chars} {properties : List Outcome}
    {additional : Chars × JsonData → Outcome} {minProperties maxProperties : Option Nat}
    {value : JsonData} {path : List PathKey} :
    (validateObjectKeywords required known properties additional minProperties
      maxProperties (.json value)
        path).valid = true ↔
      ∀ fields, value = .obj fields →
        (validateRequired required (.json (.obj fields)) path).valid = true ∧
        (∀ o ∈ properties, o.valid = true) ∧
        (∀ field ∈ fields, field.1 ∉ known → (additional field).valid = true) ∧
        (∀ n, minProperties = some n → n ≤ fields.length) ∧
        (∀ n, maxProperties = some n → fields.length ≤ n) := by
  cases value with
  | leaf a => simp [validateObjectKeywords, JsValue.isJsonObject, ok]
  | arr items => simp [validateObjectKeywords, JsValue.isJsonObject, ok]
  | obj fields =>
    simp only [validateObjectKeywords, JsValue.isJsonObject, if_true, valid_all,
      List.forall_mem_cons, JsonTree.obj.injEq, forall_eq', JsValue.ownFields, valid_validateMinimum,
      valid_validateMaximum, List.forall_mem_map, List.mem_filter, decide_eq_true_eq, and_imp,
        List.not_mem_nil, false_implies,
      implies_true, and_true]

theorem valid_validateArrayKeywords {prefixItems : List Outcome} {prefixLength : Nat}
    {item : JsonData × Nat → Outcome} {minItems maxItems : Option Nat} {value : JsonData}
    {path : List PathKey} :
    (validateArrayKeywords prefixItems prefixLength item minItems maxItems (.json value)
      path).valid = true ↔
      ∀ elements, value = .arr elements →
        (∀ n, minItems = some n → n ≤ elements.length) ∧
        (∀ n, maxItems = some n → elements.length ≤ n) ∧
        (∀ o ∈ prefixItems, o.valid = true) ∧
        ∀ element ∈ elements.zipIdx.drop prefixLength, (item element).valid = true := by
  cases value with
  | leaf a => simp [validateArrayKeywords, JsValue.isArray, ok]
  | obj fields => simp [validateArrayKeywords, JsValue.isArray, ok]
  | arr elements =>
    simp only [validateArrayKeywords, JsValue.isArray, if_true, valid_all, List.forall_mem_cons,
      JsonTree.arr.injEq, forall_eq', JsValue.elements, valid_validateMinimum, valid_validateMaximum,
      List.forall_mem_map, List.not_mem_nil, false_implies, implies_true, and_true]

theorem forall_zipIdx_drop {p : JsonData → Prop} (elements : List JsonData) (k : Nat) :
    (∀ element ∈ elements.zipIdx.drop k, p element.1) ↔ ∀ x ∈ elements.drop k, p x := by
  rw [← List.forall_mem_map (f := Prod.fst) (P := p), List.map_drop, List.zipIdx_map_fst]

mutual

theorem valid_validateSchemaNode : ∀ (schema : Schema) (value : JsonData) (path : List PathKey),
    value.DistinctKeys → ReadsOwn schema value →
      ((validateSchemaNode schema (.json value) path).valid = true ↔ Satisfies schema value)
  | .bool b, _, _, _, _ => by
    rw [validateSchemaNode, Satisfies, valid_check]
  | .object types const enum anyOf oneOf allOf not required properties
    additionalProperties prefixItems
      items minItems maxItems minProperties maxProperties, value, path, hvalue, hown => by
    rw [validateSchemaNode, Satisfies, ← hasWrongType_eq_false]
    rw [ReadsOwn] at hown
    cases hwrong : hasWrongType types (.json value) with
    | true => simp
    | false =>
      obtain ⟨hconst, henum, hany, hone, hall, hnot, hobject, harray⟩ := hown hwrong
      simp only [Bool.false_eq_true, if_false, valid_all, List.forall_mem_cons, true_and,
        List.not_mem_nil, false_implies, implies_true, and_true]
      refine and_congr (valid_validateConst path hvalue hconst)
        (and_congr (valid_validateEnum path hvalue henum)
        (and_congr (valid_combineAnyOf anyOf value path hvalue hany)
        (and_congr (valid_combineOneOf oneOf value path hvalue hone)
        (and_congr (agree_validateBranches allOf value path hvalue hall).all
        (and_congr (valid_combineNot not value path hvalue hnot) (and_congr ?_ ?_))))))
      · rw [valid_validateObjectKeywords]
        refine forall₂_congr fun fields hfields => ?_
        subst hfields
        rw [JsonTree.DistinctKeys] at hvalue
        obtain ⟨hrequired, hproperties, hadditional⟩ := hobject fields rfl
        refine and_congr (valid_validateRequired path hrequired)
          (and_congr (valid_validateProperties properties fields path hvalue.2 hproperties)
          (and_congr ?_ Iff.rfl))
        exact forall₂_congr fun field hfield => forall_congr' fun hunknown =>
          valid_validateAdditional additionalProperties field path (hvalue.2.mem field hfield)
            (hadditional field hfield hunknown)
      · rw [valid_validateArrayKeywords]
        refine forall₂_congr fun elements helements => ?_
        subst helements
        rw [JsonTree.DistinctKeys] at hvalue
        obtain ⟨hfirst, hitems⟩ := harray elements rfl
        refine and_congr Iff.rfl (and_congr Iff.rfl
          (and_congr (valid_validatePrefixItems prefixItems elements path 0 hvalue hfirst) ?_))
        rw [← forall_zipIdx_drop]
        refine forall₂_congr fun element helement => ?_
        have hmem : element.1 ∈ elements.drop prefixItems.length := by
          rw [← List.zipIdx_map_fst 0 elements, ← List.map_drop]
          exact List.mem_map_of_mem helement
        exact valid_validateItem items element path (hvalue.mem _ (List.mem_of_mem_drop hmem))
          (hitems _ hmem)

theorem agree_validateBranches : ∀ (branches : List Schema) (value : JsonData) (path : List PathKey),
    value.DistinctKeys → AllReadOwn branches value →
      Agree (validateBranches branches (.json value) path) (meanings branches value)
  | [], _, _, _, _ => by
    rw [validateBranches, meanings]
    exact .nil
  | branch :: branches, value, path, hvalue, hown => by
    rw [AllReadOwn] at hown
    rw [validateBranches, meanings]
    exact .cons (valid_validateSchemaNode branch value path hvalue hown.1)
      (agree_validateBranches branches value path hvalue hown.2)

theorem valid_combineAnyOf :
    ∀ (anyOf : Option (List Schema)) (value : JsonData) (path : List PathKey),
    value.DistinctKeys → BranchesReadOwn anyOf value →
      ((combineAnyOf path (validateSomeBranches anyOf (.json value) path)).valid = true ↔
        SatisfiesAny anyOf value)
  | none, _, _, _, _ => by simp [validateSomeBranches, combineAnyOf, SatisfiesAny, ok]
  | some branches, value, path, hvalue, hown => by
    rw [BranchesReadOwn] at hown
    rw [validateSomeBranches, valid_combineAnyOf_some, SatisfiesAny]
    exact (agree_validateBranches branches value path hvalue hown).any

theorem valid_combineOneOf :
    ∀ (oneOf : Option (List Schema)) (value : JsonData) (path : List PathKey),
    value.DistinctKeys → BranchesReadOwn oneOf value →
      ((combineOneOf path (validateSomeBranches oneOf (.json value) path)).valid = true ↔
        SatisfiesOne oneOf value)
  | none, _, _, _, _ => by simp [validateSomeBranches, combineOneOf, SatisfiesOne, ok]
  | some branches, value, path, hvalue, hown => by
    rw [BranchesReadOwn] at hown
    rw [validateSomeBranches, valid_combineOneOf_some, SatisfiesOne]
    exact (agree_validateBranches branches value path hvalue hown).one

theorem valid_combineNot : ∀ (not : Option Schema) (value : JsonData) (path : List PathKey),
    value.DistinctKeys → RestReadsOwn not value →
      ((combineNot path (validateExcluded not (.json value) path)).valid = true ↔
        FailsExcluded not value)
  | none, _, _, _, _ => by simp [validateExcluded, combineNot, FailsExcluded, ok]
  | some schema, value, path, hvalue, hown => by
    rw [RestReadsOwn] at hown
    rw [validateExcluded, combineNot, valid_check, FailsExcluded,
      ← valid_validateSchemaNode schema value path hvalue hown]
    simp

theorem valid_validateProperties :
    ∀ (properties : List (Chars × Schema)) (fields : List (Chars × JsonData))
    (path : List PathKey), JsonTree.DistinctKeysFields fields → PropertiesReadOwn properties fields →
      ((∀ o ∈ validateProperties properties (.json (.obj fields)) path, o.valid = true) ↔
        SatisfiesProperties properties fields)
  | [], _, _, _, _ => by simp [validateProperties, SatisfiesProperties]
  | (key, schema) :: properties, fields, path, hfields, hown => by
    rw [PropertiesReadOwn] at hown
    obtain ⟨hmissing, hschema, hrest⟩ := hown
    have ih := valid_validateProperties properties fields path hfields hrest
    rw [validateProperties, SatisfiesProperties]
    cases hget : JsonTree.get? key fields with
    | none =>
      rw [get?_missing hget (hmissing hget)]
      simpa using ih
    | some x =>
      rw [get?_own hget]
      simp only [List.forall_mem_cons, Option.some.injEq, forall_eq']
      exact and_congr (valid_validateSchemaNode schema x _
        (hfields.mem _ (JsonTree.mem_of_get? hget))
        (hschema x hget)) ih

theorem valid_validatePrefixItems : ∀ (prefixItems : List Schema) (elements : List JsonData)
    (path : List PathKey)
    (i : Nat), JsonTree.DistinctKeysItems elements → PrefixReadsOwn prefixItems elements →
      ((∀ o ∈ validatePrefixItems prefixItems elements path i, o.valid = true) ↔
        SatisfiesPrefix prefixItems elements)
  | [], _, _, _, _, _ => by simp [validatePrefixItems, SatisfiesPrefix]
  | _ :: _, [], _, _, _, _ => by simp [validatePrefixItems, SatisfiesPrefix]
  | schema :: prefixItems, x :: elements, path, i, helements, hown => by
    rw [PrefixReadsOwn] at hown
    rw [JsonTree.DistinctKeysItems] at helements
    rw [validatePrefixItems, SatisfiesPrefix, List.forall_mem_cons]
    exact and_congr (valid_validateSchemaNode schema x _ helements.1 hown.1)
      (valid_validatePrefixItems prefixItems elements path (i + 1) helements.2 hown.2)

theorem valid_validateAdditional :
    ∀ (schema : Option Schema) (field : Chars × JsonData) (path : List PathKey),
    field.2.DistinctKeys → RestReadsOwn schema field.2 →
      ((validateAdditional schema path field).valid = true ↔ SatisfiesRest schema field.2)
  | none, _, _, _, _ => by simp [validateAdditional, SatisfiesRest, ok]
  | some (.bool b), _, _, _, _ => by
    rw [validateAdditional, SatisfiesRest, Satisfies, valid_check]
  | some (.object _ _ _ _ _ _ _ _ _ _ _ _ _ _ _ _), field, path, hfield, hown => by
    rw [RestReadsOwn] at hown
    rw [validateAdditional, SatisfiesRest]
    · exact valid_validateSchemaNode _ field.2 _ hfield hown
    · simp

theorem valid_validateItem :
    ∀ (schema : Option Schema) (element : JsonData × Nat) (path : List PathKey),
    element.1.DistinctKeys → RestReadsOwn schema element.1 →
      ((validateItem schema path element).valid = true ↔ SatisfiesRest schema element.1)
  | none, _, _, _, _ => by simp [validateItem, SatisfiesRest, ok]
  | some schema, element, path, helement, hown => by
    rw [RestReadsOwn] at hown
    rw [validateItem, SatisfiesRest]
    exact valid_validateSchemaNode schema element.1 _ helement hown

end

theorem validator_accepts_what_satisfies (schema : Schema) (value : JsonValue)
    (hown : ReadsOwn schema value.data) :
    ((validateJsonSchemaValue schema value).valid = true ↔ Satisfies schema value.data) ∧
    ((validateJsonSchemaValue schema value).valid = true ↔
      (validateJsonSchemaValue schema value).issues = []) :=
  ⟨valid_validateSchemaNode schema value.data [] value.distinctKeys hown,
    consistent_validateSchemaNode schema (.json value.data) []⟩

def requires (key : Chars) : Schema :=
  .object [] none none none none [] none [key] [] none [] none none none none none

def emptyObject : JsonValue := ⟨.obj [], List.nodup_nil, trivial⟩

def nullAt (key : Chars) : JsonValue :=
  ⟨.obj [(key, .leaf .null)], List.nodup_singleton key, trivial, trivial⟩

theorem readsOwn_requires (key : Chars) (fields : List (Chars × JsonData)) :
    ReadsOwn (requires key) (.obj fields) ↔ (key ∈ inheritedKeys → key ∈ fields.map Prod.fst) := by
  simp [requires, ReadsOwn, hasWrongType, BranchesReadOwn, AllReadOwn, RestReadsOwn,
    PropertiesReadOwn]

theorem satisfies_requires (key : Chars) (fields : List (Chars × JsonData)) :
    Satisfies (requires key) (.obj fields) ↔ key ∈ fields.map Prod.fst := by
  simp [requires, Satisfies, SatisfiesAny, SatisfiesOne, meanings, FailsExcluded,
    SatisfiesProperties, SatisfiesRest]

theorem requires_agrees_iff (key : Chars) (fields : List (Chars × JsonData)) (path : List PathKey) :
    ((validateSchemaNode (requires key) (.json (.obj fields)) path).valid = true ↔
      Satisfies (requires key) (.obj fields)) ↔ ReadsOwn (requires key) (.obj fields) := by
  have hvalid : (validateSchemaNode (requires key) (.json (.obj fields)) path).valid = true ↔
      (JsValue.get? key (.json (.obj fields))).isSome = true := by
    simp [requires, validateSchemaNode, hasWrongType, validateConst, validateEnum,
      validateSomeBranches, combineAnyOf, combineOneOf, validateBranches, validateExcluded,
      combineNot, validateProperties, validateAdditional, validateRequired, valid_all, valid_check,
        valid_validateObjectKeywords,
      valid_validateArrayKeywords, ok]
  rw [satisfies_requires, readsOwn_requires, hvalid]
  cases hget : JsonTree.get? key fields with
  | none =>
    have hmem := JsonTree.get?_eq_none.mp hget
    by_cases hkey : key ∈ inheritedKeys
    · have hsome : (JsValue.get? key (.json (.obj fields))).isSome = true := by
        simp only [JsValue.get?, hget, hkey, if_true]
        split <;> rfl
      simp only [hsome, hmem, hkey, true_iff, true_implies]
    · simp only [get?_missing hget hkey, hmem, hkey, false_implies, Option.isSome_none,
        Bool.false_eq_true]
  | some x =>
    have hmem : key ∈ fields.map Prod.fst := List.mem_map.mpr ⟨_, JsonTree.mem_of_get? hget, rfl⟩
    simp only [get?_own hget, hmem, implies_true, Option.isSome_some]

theorem own_name_is_accepted :
    Satisfies (requires "toString".toList) (nullAt "toString".toList).data ∧
    ((validateJsonSchemaValue (requires "toString".toList) (nullAt "toString".toList)).valid = true ↔
      Satisfies (requires "toString".toList) (nullAt "toString".toList).data) :=
  ⟨(satisfies_requires _ _).mpr List.mem_cons_self,
    (validator_accepts_what_satisfies _ (nullAt "toString".toList)
      ((readsOwn_requires _ _).mpr fun _ => List.mem_cons_self)).1⟩

theorem inherited_name_is_accepted :
    ¬((validateJsonSchemaValue (requires "toString".toList) emptyObject).valid = true ↔
      Satisfies (requires "toString".toList) emptyObject.data) := by
  have haccepted : (validateJsonSchemaValue (requires "toString".toList) emptyObject).valid =
      true := by decide
  intro h
  exact List.not_mem_nil ((satisfies_requires _ _).mp (h.mp haccepted))

end JevCode.Ai
