import JevCode.Session.Messages

namespace JevCode.Session

/-- A value as `JSON.stringify` meets it. `undefined` also stands for functions, symbols and holes; a
`toJSON` method is represented by what it returns. -/
inductive JsValue
  | null
  | undefined
  | bool (value : Bool)
  | num (value : ℚ)
  | nonFinite
  | str (value : String)
  | arr (items : List JsValue)
  | obj (fields : List (String × JsValue))
  | withToJson (replacement own : JsValue)

section Json

mutual

def stringify : JsValue → Bool → Option Json
  | .null, _ => some .null
  | .undefined, _ => none
  | .bool b, _ => some (.bool b)
  | .num n, _ => some (.num n)
  | .nonFinite, _ => some .null
  | .str s, _ => some (.str s)
  | .arr items, _ => some (.arr (stringifyItems items))
  | .obj fields, _ => some (.obj (stringifyFields fields))
  | .withToJson replacement _, true => stringify replacement false
  | .withToJson _ own, false => stringify own false

def stringifyItems : List JsValue → List Json
  | [] => []
  | item :: items => (stringify item true).getD .null :: stringifyItems items

def stringifyFields : List (String × JsValue) → List (String × Json)
  | [] => []
  | (key, value) :: fields =>
    match stringify value true with
    | some json => (key, json) :: stringifyFields fields
    | none => stringifyFields fields

end

def protoKey : String := "__proto__"

mutual

def cloneJsonValue : JsValue → Bool → Option JsValue
  | .null, _ => some .null
  | .num n, _ => some (.num n)
  | .nonFinite, _ => some .null
  | .undefined, _ => none
  | .bool b, _ => some (.bool b)
  | .str s, _ => some (.str s)
  | .withToJson replacement _, true => cloneJsonValue replacement false
  | .withToJson _ own, false => cloneJsonValue own false
  | .arr items, _ => some (.arr (cloneItems items))
  | .obj fields, _ => some (.obj (cloneFields fields))

def cloneItems : List JsValue → List JsValue
  | [] => []
  | item :: items => (cloneJsonValue item true).getD .null :: cloneItems items

def cloneFields : List (String × JsValue) → List (String × JsValue)
  | [] => []
  | (key, value) :: fields =>
    match cloneJsonValue value true with
    -- `cloned[key] = clonedValue` adds no own property under the key of the prototype
    | some cloned =>
      if key = protoKey then cloneFields fields else (key, cloned) :: cloneFields fields
    | none => cloneFields fields

end

mutual

def Json.toJs : Json → JsValue
  | .null => .null
  | .bool b => .bool b
  | .num n => .num n
  | .str s => .str s
  | .arr items => .arr (itemsToJs items)
  | .obj fields => .obj (fieldsToJs fields)

def itemsToJs : List Json → List JsValue
  | [] => []
  | item :: items => item.toJs :: itemsToJs items

def fieldsToJs : List (String × Json) → List (String × JsValue)
  | [] => []
  | (key, value) :: fields => (key, value.toJs) :: fieldsToJs fields

end

mutual

/-- `JSON.stringify` writes a key `__proto__` of an object in the value. -/
def writesProtoKey : JsValue → Bool → Bool
  | .arr items, _ => writesProtoKeyItems items
  | .obj fields, _ => writesProtoKeyFields fields
  | .withToJson replacement _, true => writesProtoKey replacement false
  | .withToJson _ own, false => writesProtoKey own false
  | .null, _ | .undefined, _ | .bool _, _ | .num _, _ | .nonFinite, _ | .str _, _ => false

def writesProtoKeyItems : List JsValue → Bool
  | [] => false
  | item :: items => writesProtoKey item true || writesProtoKeyItems items

def writesProtoKeyFields : List (String × JsValue) → Bool
  | [] => false
  | (key, value) :: fields =>
    (key == protoKey && (stringify value true).isSome) || writesProtoKey value true ||
      writesProtoKeyFields fields

end

mutual

def Json.dropProto : Json → Json
  | .arr items => .arr (dropProtoItems items)
  | .obj fields => .obj (dropProtoFields fields)
  | .null => .null
  | .bool b => .bool b
  | .num n => .num n
  | .str s => .str s

def dropProtoItems : List Json → List Json
  | [] => []
  | item :: items => item.dropProto :: dropProtoItems items

def dropProtoFields : List (String × Json) → List (String × Json)
  | [] => []
  | (key, value) :: fields =>
    if key = protoKey then dropProtoFields fields else (key, value.dropProto) ::
      dropProtoFields fields

end

mutual

theorem cloneJsonValue_eq : ∀ (value : JsValue) (applyToJson : Bool),
    cloneJsonValue value applyToJson = (stringify value applyToJson).map fun json =>
      json.dropProto.toJs
  | .null, _ | .undefined, _ | .bool _, _ | .num _, _ | .nonFinite, _ | .str _, _ => by
    simp [cloneJsonValue, stringify, Json.toJs, Json.dropProto]
  | .arr items, _ => by
    simp [cloneJsonValue, stringify, Json.toJs, Json.dropProto, cloneItems_eq items]
  | .obj fields, _ => by
    simp [cloneJsonValue, stringify, Json.toJs, Json.dropProto, cloneFields_eq fields]
  | .withToJson replacement _, true => by
    simp only [cloneJsonValue, stringify, cloneJsonValue_eq replacement false]
  | .withToJson _ own, false => by simp only [cloneJsonValue, stringify, cloneJsonValue_eq own false]

theorem cloneItems_eq :
    ∀ items : List JsValue, cloneItems items = itemsToJs (dropProtoItems (stringifyItems items))
  | [] => rfl
  | item :: items => by
    simp only [cloneItems, stringifyItems, dropProtoItems, itemsToJs, cloneItems_eq items,
      cloneJsonValue_eq item true]
    cases stringify item true <;> simp [Json.toJs, Json.dropProto]

theorem cloneFields_eq : ∀ fields : List (String × JsValue),
    cloneFields fields = fieldsToJs (dropProtoFields (stringifyFields fields))
  | [] => rfl
  | (key, value) :: fields => by
    simp only [cloneFields, stringifyFields, cloneFields_eq fields, cloneJsonValue_eq value true]
    cases stringify value true with
    | none => rfl
    | some json =>
      simp only [Option.map_some, dropProtoFields]
      split <;> simp [fieldsToJs]

end

mutual

def Json.hasProtoKey : Json → Bool
  | .arr items => hasProtoKeyItems items
  | .obj fields => hasProtoKeyFields fields
  | .null | .bool _ | .num _ | .str _ => false

def hasProtoKeyItems : List Json → Bool
  | [] => false
  | item :: items => item.hasProtoKey || hasProtoKeyItems items

def hasProtoKeyFields : List (String × Json) → Bool
  | [] => false
  | (key, value) :: fields => key == protoKey || value.hasProtoKey || hasProtoKeyFields fields

end

mutual

theorem Json.dropProto_eq_self : ∀ json : Json, json.hasProtoKey = false → json.dropProto = json
  | .null, _ | .bool _, _ | .num _, _ | .str _, _ => by simp [Json.dropProto]
  | .arr items, h => by rw [Json.dropProto, dropProtoItems_eq_self items h]
  | .obj fields, h => by rw [Json.dropProto, dropProtoFields_eq_self fields h]

theorem dropProtoItems_eq_self :
    ∀ items : List Json, hasProtoKeyItems items = false → dropProtoItems items = items
  | [], _ => rfl
  | item :: items, h => by
    rw [hasProtoKeyItems, Bool.or_eq_false_iff] at h
    rw [dropProtoItems, item.dropProto_eq_self h.1, dropProtoItems_eq_self items h.2]

theorem dropProtoFields_eq_self : ∀ fields : List (String × Json), hasProtoKeyFields fields = false →
    dropProtoFields fields = fields
  | [], _ => rfl
  | (key, value) :: fields, h => by
    rw [hasProtoKeyFields, Bool.or_eq_false_iff, Bool.or_eq_false_iff, beq_eq_false_iff_ne] at h
    rw [dropProtoFields, if_neg h.1.1, value.dropProto_eq_self h.1.2,
      dropProtoFields_eq_self fields h.2]

end

mutual

theorem writesProtoKey_eq : ∀ (value : JsValue) (applyToJson : Bool),
    writesProtoKey value applyToJson = (stringify value applyToJson).any Json.hasProtoKey
  | .null, _ | .undefined, _ | .bool _, _ | .num _, _ | .nonFinite, _ | .str _, _ => by
    simp [writesProtoKey, stringify, Json.hasProtoKey]
  | .arr items, _ => by
    simp [writesProtoKey, stringify, Json.hasProtoKey, writesProtoKeyItems_eq items]
  | .obj fields, _ => by
    simp [writesProtoKey, stringify, Json.hasProtoKey, writesProtoKeyFields_eq fields]
  | .withToJson replacement _, true => by
    simp only [writesProtoKey, stringify, writesProtoKey_eq replacement false]
  | .withToJson _ own, false => by simp only [writesProtoKey, stringify, writesProtoKey_eq own false]

theorem writesProtoKeyItems_eq : ∀ items : List JsValue,
    writesProtoKeyItems items = hasProtoKeyItems (stringifyItems items)
  | [] => rfl
  | item :: items => by
    rw [writesProtoKeyItems, stringifyItems, hasProtoKeyItems, writesProtoKey_eq item true,
      writesProtoKeyItems_eq items]
    cases stringify item true <;> simp [Json.hasProtoKey]

theorem writesProtoKeyFields_eq : ∀ fields : List (String × JsValue),
    writesProtoKeyFields fields = hasProtoKeyFields (stringifyFields fields)
  | [] => rfl
  | (key, value) :: fields => by
    rw [writesProtoKeyFields, stringifyFields, writesProtoKey_eq value true,
      writesProtoKeyFields_eq fields]
    cases stringify value true <;> simp [hasProtoKeyFields]

end

mutual

theorem stringify_toJs :
    ∀ (json : Json) (applyToJson : Bool), stringify json.toJs applyToJson = some json
  | .null, _ | .bool _, _ | .num _, _ | .str _, _ => by simp [Json.toJs, stringify]
  | .arr items, _ => by simp [Json.toJs, stringify, stringifyItems_itemsToJs items]
  | .obj fields, _ => by simp [Json.toJs, stringify, stringifyFields_fieldsToJs fields]

theorem stringifyItems_itemsToJs : ∀ items : List Json, stringifyItems (itemsToJs items) = items
  | [] => rfl
  | item :: items => by
    simp [itemsToJs, stringifyItems, stringify_toJs item true, stringifyItems_itemsToJs items]

theorem stringifyFields_fieldsToJs :
    ∀ fields : List (String × Json), stringifyFields (fieldsToJs fields) = fields
  | [] => rfl
  | (key, value) :: fields => by
    simp [fieldsToJs, stringifyFields, stringify_toJs value true, stringifyFields_fieldsToJs fields]

end

end Json

/-- A message is an object, so it has a JSON text. No member named `__proto__` is in it: a clone
loses such members. -/
structure Message where
  value : JsValue
  serializable : (stringify value true).isSome
  protoFree : writesProtoKey value true = false

namespace Message

def json (message : Message) : Json := (stringify message.value true).get message.serializable

theorem stringify_value (message : Message) : stringify message.value true = some message.json :=
  (Option.some_get _).symm

theorem hasProtoKey_json (message : Message) : message.json.hasProtoKey = false := by
  have h := message.protoFree
  rwa [writesProtoKey_eq, message.stringify_value, Option.any_some] at h

theorem cloneJsonValue_value (message : Message) :
    cloneJsonValue message.value true = some message.json.toJs := by
  rw [cloneJsonValue_eq, message.stringify_value, Option.map_some,
    message.json.dropProto_eq_self message.hasProtoKey_json]

def cloneJson (message : Message) : Message where
  value := (cloneJsonValue message.value true).getD .undefined
  serializable := by rw [message.cloneJsonValue_value, Option.getD_some, stringify_toJs]; rfl
  protoFree := by
    rw [message.cloneJsonValue_value, Option.getD_some, writesProtoKey_eq, stringify_toJs,
      Option.any_some]
    exact message.hasProtoKey_json

theorem cloneJson_value (message : Message) : message.cloneJson.value = message.json.toJs := by
  show (cloneJsonValue message.value true).getD .undefined = message.json.toJs
  rw [message.cloneJsonValue_value, Option.getD_some]

@[simp] theorem json_cloneJson (message : Message) : message.cloneJson.json = message.json := by
  simp [json, cloneJson_value, stringify_toJs]

theorem cloneJson_eq_iff {message message' : Message} :
    message.cloneJson = message'.cloneJson ↔ message.json = message'.json := by
  constructor
  · intro h
    rw [← json_cloneJson message, h, json_cloneJson]
  · intro h
    have hvalue : message.cloneJson.value = message'.cloneJson.value := by
      rw [cloneJson_value, cloneJson_value, h]
    cases hm : message.cloneJson with
    | mk value _ =>
      cases hm' : message'.cloneJson with
      | mk value' _ =>
        rw [hm, hm'] at hvalue
        cases hvalue
        rfl

@[simp] theorem cloneJson_cloneJson (message : Message) :
    message.cloneJson.cloneJson = message.cloneJson := by
  rw [cloneJson_eq_iff, json_cloneJson]

end Message

structure AppendOnlyLog where
  entries : List Message
  clears : Nat

def AppendOnlyLog.clear (log : AppendOnlyLog) : AppendOnlyLog := ⟨[], log.clears + 1⟩

def AppendOnlyLog.extend (log : AppendOnlyLog) (messages : List Message) : AppendOnlyLog :=
  { log with entries := log.entries ++ messages }

structure AppendOnlyContextManager (η : Type) where
  log : AppendOnlyLog
  lastSyncCount : Nat
  syncedHashes : List η
  seededPrefixCount : Nat

namespace AppendOnlyContextManager

variable {η : Type} [DecidableEq η] (hash : Json → η)

def new : AppendOnlyContextManager η := ⟨⟨[], 0⟩, 0, [], 0⟩

def hashMessage (message : Message) : η := hash message.json

def hashRange (messages : List Message) : List η := messages.map (hashMessage hash)

def hashAt (messages : List Message) (i : Nat) : η :=
  (messages[i]?.map (hashMessage hash)).getD (hash .null)

def rangeHashesEqual (a b : List Message) (count : Nat) : Bool :=
  (List.range count).all fun i => hashAt hash a i = hashAt hash b i

def prefixChanged (m : AppendOnlyContextManager η) (messages : List Message) (count : Nat) : Bool :=
  count ≤ m.syncedHashes.length &&
    (List.range count).any fun i => some (hashAt hash messages i) ≠ m.syncedHashes[i]?

def rebaseToBaseline (m : AppendOnlyContextManager η) (messages : List Message)
    (seededPrefixCount : Nat) :
    AppendOnlyContextManager η where
  log := m.log.clear.extend (messages.map Message.cloneJson)
  lastSyncCount := messages.length
  syncedHashes := hashRange hash messages
  seededPrefixCount := seededPrefixCount

def clearSynced (m : AppendOnlyContextManager η) : AppendOnlyContextManager η :=
  { m with log := m.log.clear, lastSyncCount := 0, syncedHashes := [] }

def appendNew (m : AppendOnlyContextManager η) (messagesToSync : List Message) :
    AppendOnlyContextManager η :=
  { m with
    log := m.log.extend ((messagesToSync.drop m.lastSyncCount).map Message.cloneJson)
    lastSyncCount := messagesToSync.length
    syncedHashes := hashRange hash messagesToSync }

def messagesToSync (m : AppendOnlyContextManager η) (normalizedMessages : List Message) :
    List Message :=
  let seededPrefixLength := m.seededPrefixCount
  let includesSeedPrefix := 0 < seededPrefixLength ∧ seededPrefixLength ≤ normalizedMessages.length ∧
    rangeHashesEqual hash normalizedMessages m.log.entries seededPrefixLength = true
  if 0 < seededPrefixLength ∧ ¬ includesSeedPrefix then m.log.entries.take seededPrefixLength ++
    normalizedMessages
  else normalizedMessages

def syncMessages (m : AppendOnlyContextManager η) (normalizedMessages : List Message) :
    AppendOnlyContextManager η :=
  let messages := m.messagesToSync hash normalizedMessages
  let rewritten := 0 < m.lastSyncCount ∧ m.lastSyncCount ≤ messages.length ∧
    m.prefixChanged hash messages m.lastSyncCount = true
  if rewritten ∧ 0 < m.seededPrefixCount then m.rebaseToBaseline hash messages m.seededPrefixCount
  else
    let m := if rewritten then m.clearSynced else m
    if messages.length < m.lastSyncCount then
      if 0 < m.seededPrefixCount then m.rebaseToBaseline hash messages m.seededPrefixCount
      else m.clearSynced.appendNew hash messages
    else m.appendNew hash messages

def cannotSeed : String :=
  "AppendOnlyContextManager.seedNormalizedMessages() cannot seed a non-empty log without reset"

def seedNormalizedMessages (m : AppendOnlyContextManager η) (messages : List Message)
    (reset : Bool) :
    Except String (AppendOnlyContextManager η) :=
  if 0 < m.log.entries.length ∧ reset ≠ true then .error cannotSeed
  else
    let clonedMessages := messages.map Message.cloneJson
    .ok {
      log := m.log.clear.extend clonedMessages
      lastSyncCount := clonedMessages.length
      syncedHashes := hashRange hash clonedMessages
      seededPrefixCount := clonedMessages.length }

def resetSyncCursor (m : AppendOnlyContextManager η) : AppendOnlyContextManager η :=
  { m.clearSynced with seededPrefixCount := 0 }

def releaseAfterHistoryRewrite (m : AppendOnlyContextManager η) (preserveSeededPrefix : Bool) :
    AppendOnlyContextManager η :=
  let seeded := if preserveSeededPrefix then m.seededPrefixCount else 0
  let kept := m.log.entries.take seeded
  { log := m.log.clear.extend kept
    lastSyncCount := kept.length
    syncedHashes := hashRange hash kept
    seededPrefixCount := kept.length }

inductive Call
  | syncMessages (normalizedMessages : List Message)
  | seedNormalizedMessages (messages : List Message) (reset : Bool)
  | releaseAfterHistoryRewrite (preserveSeededPrefix : Bool)
  | resetSyncCursor

def step (m : AppendOnlyContextManager η) : Call → AppendOnlyContextManager η
  | .syncMessages normalizedMessages => m.syncMessages hash normalizedMessages
  | .seedNormalizedMessages messages reset =>
    (m.seedNormalizedMessages hash messages reset).toOption.getD m
  | .releaseAfterHistoryRewrite preserveSeededPrefix =>
    m.releaseAfterHistoryRewrite hash preserveSeededPrefix
  | .resetSyncCursor => m.resetSyncCursor

def run (calls : List Call) : AppendOnlyContextManager η := calls.foldl (step hash) new

end AppendOnlyContextManager

/-- The log as it is meant: the seed, and the conversation as it was last synced. -/
structure Mirror where
  seed : List Message
  log : List Message
  synced : Option (List Message)

namespace Mirror

def clones (messages : List Message) : List Message := messages.map Message.cloneJson

def new : Mirror := ⟨[], [], none⟩

open Classical in
noncomputable def shown (seed messages : List Message) : List Message :=
  if seed <+: clones messages then clones messages else seed ++ clones messages

noncomputable def step (mirror : Mirror) : AppendOnlyContextManager.Call → Mirror
  | .syncMessages messages =>
    { mirror with log := shown mirror.seed messages, synced := some messages }
  | .seedNormalizedMessages messages reset =>
    if mirror.log ≠ [] ∧ reset ≠ true then mirror else ⟨clones messages, clones messages, none⟩
  | .releaseAfterHistoryRewrite preserveSeededPrefix =>
    if preserveSeededPrefix then ⟨mirror.seed, mirror.seed, none⟩ else new
  | .resetSyncCursor => new

noncomputable def run (calls : List AppendOnlyContextManager.Call) : Mirror := calls.foldl step new

end Mirror

open Mirror

section Clones

@[simp] theorem clones_append (xs ys : List Message) : clones (xs ++ ys) = clones xs ++ clones ys :=
  List.map_append

@[simp] theorem length_clones (xs : List Message) : (clones xs).length = xs.length :=
  List.length_map _

@[simp] theorem clones_clones (xs : List Message) : clones (clones xs) = clones xs := by
  simp [clones]

theorem take_clones (xs : List Message) (n : Nat) : (clones xs).take n = clones (xs.take n) :=
  (List.map_take).symm

variable {seed messages : List Message}

theorem prefix_shown (seed messages : List Message) : seed <+: shown seed messages := by
  unfold shown
  split
  · assumption
  · exact List.prefix_append _ _

theorem clones_shown (hseed : clones seed = seed) :
    clones (shown seed messages) = shown seed messages := by
  unfold shown
  split
  · exact clones_clones messages
  · rw [clones_append, hseed, clones_clones]

theorem shown_prefix_shown {longer : List Message} (h : clones messages <+: clones longer)
    (hseed : seed <+: clones longer → seed <+: clones messages) :
    shown seed messages <+: shown seed longer := by
  unfold shown
  by_cases hlonger : seed <+: clones longer
  · rw [if_pos hlonger, if_pos (hseed hlonger)]
    exact h
  · rw [if_neg hlonger, if_neg fun hshort => hlonger (hshort.trans h)]
    exact (List.prefix_append_right_inj seed).mpr h

end Clones

namespace AppendOnlyContextManager

variable {η : Type} {hash : Json → η} {m m' : AppendOnlyContextManager η} {mirror : Mirror}
  {messages xs ys : List Message} {n : Nat}

section Hashes

@[simp] theorem hashRange_clones (messages : List Message) :
    hashRange hash (clones messages) = hashRange hash messages := by
  simp [hashRange, clones, hashMessage, Function.comp_def]

theorem hashRange_eq_iff (hhash : Function.Injective hash) :
    hashRange hash xs = hashRange hash ys ↔ clones xs = clones ys := by
  have hone : ∀ x y : Message, hashMessage hash x = hashMessage hash y ↔
      x.cloneJson = y.cloneJson := by
    intro x y
    rw [hashMessage, hashMessage, hhash.eq_iff, Message.cloneJson_eq_iff]
  simp only [hashRange, clones]
  induction xs generalizing ys with
  | nil => cases ys <;> simp
  | cons x xs ih =>
    cases ys with
    | nil => simp
    | cons y ys => simp only [List.map_cons, List.cons.injEq, hone, ih]

theorem getElem?_hashRange (h : n < messages.length) :
    (hashRange hash messages)[n]? = some (hashAt hash messages n) := by
  simp [hashAt, hashRange, h]

theorem rangeHashesEqual_iff [DecidableEq η] (hx : n ≤ xs.length) (hy : n ≤ ys.length) :
    rangeHashesEqual hash xs ys n = true ↔
      hashRange hash (xs.take n) = hashRange hash (ys.take n) := by
  have hget : ∀ (zs : List Message) (i : Nat), n ≤ zs.length →
      (hashRange hash (zs.take n))[i]? = if i < n then some (hashAt hash zs i) else none := by
    intro zs i hz
    rw [hashRange, List.map_take, List.getElem?_take]
    split
    · exact getElem?_hashRange (by omega)
    · rfl
  simp only [rangeHashesEqual, List.all_eq_true, List.mem_range, decide_eq_true_eq]
  constructor
  · intro h
    apply List.ext_getElem?
    intro i
    rw [hget xs i hx, hget ys i hy]
    split
    · rename_i hi
      rw [h i hi]
    · rfl
  · intro h i hi
    have hi' := hget xs i hx
    rw [h, hget ys i hy, if_pos hi, if_pos hi] at hi'
    exact (Option.some.inj hi').symm

end Hashes

structure Mirrors (hash : Json → η) (m : AppendOnlyContextManager η) (mirror : Mirror) : Prop where
  log : m.log.entries = mirror.log
  lastSyncCount : m.lastSyncCount = mirror.log.length
  syncedHashes : m.syncedHashes = hashRange hash mirror.log
  seededPrefixCount : m.seededPrefixCount = mirror.seed.length
  seed_prefix : mirror.seed <+: mirror.log
  clones_seed : clones mirror.seed = mirror.seed
  clones_log : clones mirror.log = mirror.log
  log_eq : mirror.log = (mirror.synced.map (shown mirror.seed)).getD mirror.seed

theorem Mirrors.new : Mirrors hash new Mirror.new :=
  ⟨rfl, rfl, rfl, rfl, List.nil_prefix, rfl, rfl, rfl⟩

theorem Mirrors.take_log (h : Mirrors hash m mirror) :
    m.log.entries.take m.seededPrefixCount = mirror.seed := by
  rw [h.log, h.seededPrefixCount, ← List.prefix_iff_eq_take.mp h.seed_prefix]

variable [DecidableEq η]

theorem rangeHashesEqual_iff_isPrefix (hhash : Function.Injective hash) {seed log : List Message}
    (hseed : seed <+: log) (hclones : clones seed = seed) (hlen : seed.length ≤ messages.length) :
    rangeHashesEqual hash messages log seed.length = true ↔ seed <+: clones messages := by
  rw [rangeHashesEqual_iff hlen hseed.length_le, hashRange_eq_iff hhash,
    ← List.prefix_iff_eq_take.mp hseed, hclones, ← take_clones, List.prefix_iff_eq_take, eq_comm]

theorem Mirrors.clones_messagesToSync (hhash : Function.Injective hash) (h : Mirrors hash m mirror)
    (messages : List Message) :
    clones (m.messagesToSync hash messages) = shown mirror.seed messages := by
  have hincludes : (m.seededPrefixCount ≤ messages.length ∧
      rangeHashesEqual hash messages m.log.entries m.seededPrefixCount = true) ↔
      mirror.seed <+: clones messages := by
    rw [h.seededPrefixCount, h.log]
    constructor
    · rintro ⟨hlen, hequal⟩
      exact (rangeHashesEqual_iff_isPrefix hhash h.seed_prefix h.clones_seed hlen).mp hequal
    · intro hpre
      have hlen : mirror.seed.length ≤ messages.length := by simpa using hpre.length_le
      exact ⟨hlen, (rangeHashesEqual_iff_isPrefix hhash h.seed_prefix h.clones_seed hlen).mpr hpre⟩
  simp only [messagesToSync, h.take_log]
  unfold shown
  by_cases hpre : mirror.seed <+: clones messages
  · rw [if_neg fun hnot => hnot.2 ⟨hnot.1, hincludes.mpr hpre⟩, if_pos hpre]
  · have hpos : 0 < m.seededPrefixCount := by
      rw [h.seededPrefixCount, List.length_pos_iff]
      rintro hnil
      exact hpre (hnil ▸ List.nil_prefix)
    rw [if_pos ⟨hpos, fun hin => hpre (hincludes.mp hin.2)⟩, if_neg hpre, clones_append,
      h.clones_seed]

theorem Mirrors.prefixChanged_eq_false_iff (hhash : Function.Injective hash)
    (h : Mirrors hash m mirror) (hlen : m.lastSyncCount ≤ messages.length) :
    m.prefixChanged hash messages m.lastSyncCount = false ↔ mirror.log <+: clones messages := by
  have hlog : mirror.log.length ≤ messages.length := h.lastSyncCount ▸ hlen
  have hcount : m.lastSyncCount ≤ m.syncedHashes.length := by
    simp [h.lastSyncCount, h.syncedHashes, hashRange]
  rw [← rangeHashesEqual_iff_isPrefix hhash (List.prefix_refl _) h.clones_log hlog]
  unfold prefixChanged
  rw [decide_eq_true hcount, Bool.true_and]
  simp only [rangeHashesEqual, List.any_eq_false, List.all_eq_true, List.mem_range, h.lastSyncCount,
    h.syncedHashes, decide_eq_true_eq, ne_eq, not_not]
  constructor
  · intro hall i hi
    have := hall i hi
    rw [getElem?_hashRange hi] at this
    exact Option.some.inj this
  · intro hall i hi
    rw [getElem?_hashRange hi, hall i hi]

theorem Mirrors.syncMessages_cases (hhash : Function.Injective hash) (h : Mirrors hash m mirror)
    (messages : List Message) :
    (mirror.log <+: shown mirror.seed messages ∧
      m.syncMessages hash messages = m.appendNew hash (m.messagesToSync hash messages)) ∨
    (¬ mirror.log <+: shown mirror.seed messages ∧
      (m.syncMessages hash messages = m.rebaseToBaseline hash (m.messagesToSync hash messages)
        m.seededPrefixCount ∨
        m.syncMessages hash messages =
          m.clearSynced.appendNew hash (m.messagesToSync hash messages))) := by
  rw [← h.clones_messagesToSync hhash messages]
  unfold syncMessages
  generalize m.messagesToSync hash messages = toSync
  dsimp only
  by_cases hlen : m.lastSyncCount ≤ toSync.length
  · have hchanged := h.prefixChanged_eq_false_iff hhash hlen
    by_cases hpre : mirror.log <+: clones toSync
    · have hsame := hchanged.mpr hpre
      simp [hpre, hsame, Nat.not_lt.mpr hlen]
    · have hrewritten : 0 < m.lastSyncCount ∧ m.lastSyncCount ≤ toSync.length ∧
          m.prefixChanged hash toSync m.lastSyncCount = true := by
        refine ⟨?_, hlen, by simpa using mt hchanged.mp hpre⟩
        rw [h.lastSyncCount, List.length_pos_iff]
        intro hnil
        exact hpre (hnil ▸ List.nil_prefix)
      refine .inr ⟨hpre, ?_⟩
      by_cases hseeded : 0 < m.seededPrefixCount
      · exact .inl (if_pos ⟨hrewritten, hseeded⟩)
      · rw [if_neg fun hboth => hseeded hboth.2, if_pos hrewritten]
        exact .inr (if_neg (Nat.not_lt_zero _))
  · have hshrunk : toSync.length < m.lastSyncCount := Nat.lt_of_not_le hlen
    refine .inr ⟨fun hpre => hlen (by simpa [h.lastSyncCount] using hpre.length_le), ?_⟩
    simp only [hlen, false_and, and_false, if_false, if_pos hshrunk]
    split
    · exact .inl rfl
    · exact .inr rfl

theorem Mirrors.syncMessages (hhash : Function.Injective hash) (h : Mirrors hash m mirror)
    (messages : List Message) :
    Mirrors hash (m.syncMessages hash messages) (mirror.step (.syncMessages messages)) := by
  have hshown := h.clones_messagesToSync hhash messages
  have hcount : (m.messagesToSync hash messages).length = (shown mirror.seed messages).length := by
    rw [← hshown, length_clones]
  have hhashes : hashRange hash (m.messagesToSync hash messages) =
      hashRange hash (shown mirror.seed messages) := by
    rw [← hshown, hashRange_clones]
  have hmirrors : ∀ m' : AppendOnlyContextManager η, m'.log.entries =
      clones (m.messagesToSync hash messages) →
      m'.lastSyncCount = (m.messagesToSync hash messages).length →
      m'.syncedHashes = hashRange hash (m.messagesToSync hash messages) →
      m'.seededPrefixCount = m.seededPrefixCount →
        Mirrors hash m' (mirror.step (.syncMessages messages)) := by
    intro m' hlog hlast hsynced hseeded
    exact ⟨hlog.trans hshown, hlast.trans hcount, hsynced.trans hhashes,
      hseeded.trans h.seededPrefixCount, prefix_shown _ _, h.clones_seed,
      clones_shown h.clones_seed, rfl⟩
  rcases h.syncMessages_cases hhash messages with ⟨hpre, heq⟩ | ⟨-, heq | heq⟩
  · rw [heq]
    refine hmirrors _ ?_ rfl rfl rfl
    rw [← hshown] at hpre
    have htake : mirror.log = clones ((m.messagesToSync hash messages).take mirror.log.length) := by
      rw [← take_clones, ← List.prefix_iff_eq_take.mp hpre]
    simp only [appendNew, AppendOnlyLog.extend, h.log, h.lastSyncCount]
    calc mirror.log ++ clones ((m.messagesToSync hash messages).drop mirror.log.length)
        = clones ((m.messagesToSync hash messages).take mirror.log.length) ++
            clones ((m.messagesToSync hash messages).drop mirror.log.length) := by rw [← htake]
      _ = clones (m.messagesToSync hash messages) := by rw [← clones_append, List.take_append_drop]
  · rw [heq]
    exact hmirrors _ rfl rfl rfl rfl
  · rw [heq]
    exact hmirrors _ (by simp [appendNew, clearSynced, AppendOnlyLog.clear, AppendOnlyLog.extend, clones]) rfl rfl rfl

theorem Mirrors.step (hhash : Function.Injective hash) (h : Mirrors hash m mirror) (call : Call) :
    Mirrors hash (m.step hash call) (mirror.step call) := by
  cases call with
  | syncMessages messages => exact h.syncMessages hhash messages
  | seedNormalizedMessages messages reset =>
    simp only [AppendOnlyContextManager.step, seedNormalizedMessages, Mirror.step, h.log,
      List.length_pos_iff]
    split
    · exact h
    · exact ⟨rfl, rfl, rfl, rfl, List.prefix_refl _, clones_clones _, clones_clones _, rfl⟩
  | releaseAfterHistoryRewrite preserveSeededPrefix =>
    cases preserveSeededPrefix with
    | false => exact ⟨rfl, rfl, rfl, rfl, List.nil_prefix, rfl, rfl, rfl⟩
    | true =>
      simp only [AppendOnlyContextManager.step, releaseAfterHistoryRewrite, Mirror.step,
        if_true, h.take_log]
      exact ⟨rfl, rfl, rfl, rfl, List.prefix_refl _, h.clones_seed, h.clones_seed, rfl⟩
  | resetSyncCursor => exact ⟨rfl, rfl, rfl, rfl, List.nil_prefix, rfl, rfl, rfl⟩

theorem mirrors_run (hhash : Function.Injective hash) (calls : List Call) :
    Mirrors hash (run hash calls) (Mirror.run calls) := by
  have hfold : ∀ (calls : List Call) (m : AppendOnlyContextManager η) (mirror : Mirror),
      Mirrors hash m mirror →
      Mirrors hash (calls.foldl (AppendOnlyContextManager.step hash) m)
      (calls.foldl Mirror.step mirror) := by
    intro calls
    induction calls with
    | nil => exact fun _ _ h => h
    | cons call calls ih => exact fun _ _ h => ih _ _ (h.step hhash call)
  exact hfold calls _ _ Mirrors.new

def Untouched (m m' : AppendOnlyContextManager η) : Prop :=
  m'.log.clears = m.log.clears ∧ m.log.entries <+: m'.log.entries

/-- After every sync the log is the conversation, with the seed in front unless the conversation
repeats it. A conversation that grows leaves the log as it was, unless it repeats the seed only now.
-/
theorem syncMessages_mirrors (hhash : Function.Injective hash) (calls : List Call)
    (messages : List Message) :
    ((run hash calls).syncMessages hash messages).log.entries = shown
    (Mirror.run calls).seed messages ∧
      ((∀ previous ∈ (Mirror.run calls).synced, clones previous <+: clones messages ∧
          ((Mirror.run calls).seed <+: clones messages →
            (Mirror.run calls).seed <+: clones previous)) →
        Untouched (run hash calls) ((run hash calls).syncMessages hash messages)) := by
  have h := mirrors_run hhash calls
  refine ⟨(h.syncMessages hhash messages).log, fun hgrows => ?_⟩
  have hpre : (Mirror.run calls).log <+: shown (Mirror.run calls).seed messages := by
    rw [h.log_eq]
    cases hsynced : (Mirror.run calls).synced with
    | none => exact prefix_shown _ _
    | some previous =>
      exact shown_prefix_shown (hgrows previous hsynced).1 (hgrows previous hsynced).2
  rcases h.syncMessages_cases hhash messages with ⟨-, heq⟩ | ⟨hnot, -⟩
  · rw [heq]
    exact ⟨rfl, List.prefix_append _ _⟩
  · exact absurd hpre hnot

def textMessage (content : String) : Message :=
  ⟨.obj [("role", .str "user"), ("content", .str content)], rfl, rfl⟩

open Classical in
theorem growing_log_is_untouched :
    Function.Injective (id : Json → Json) ∧
      Untouched (run id [.seedNormalizedMessages [textMessage "s"] false,
        .syncMessages [textMessage "a"]])
        ((run id [.seedNormalizedMessages [textMessage "s"] false,
          .syncMessages [textMessage "a"]]).syncMessages id
          [textMessage "a", textMessage "b"]) := by
  refine ⟨Function.injective_id, (syncMessages_mirrors Function.injective_id _ _).2 ?_⟩
  intro previous hprevious
  obtain rfl : [textMessage "a"] = previous := Option.some.inj hprevious
  refine ⟨List.prefix_append _ [(textMessage "b").cloneJson], ?_⟩
  intro hseed
  have hhead : (textMessage "s").cloneJson = (textMessage "a").cloneJson :=
    (List.cons_prefix_cons.mp hseed).1
  rw [Message.cloneJson_eq_iff] at hhead
  simp [Message.json, textMessage, stringify, stringifyFields] at hhead

theorem repeated_seed_rewrites_log :
    ¬ ∀ (η : Type) [DecidableEq η] (hash : Json → η) (calls : List Call) (messages : List Message),
      Function.Injective hash →
      ((run hash calls).syncMessages hash messages).log.entries = shown
      (Mirror.run calls).seed messages ∧
        ((∀ previous ∈ (Mirror.run calls).synced, clones previous <+: clones messages) →
          Untouched (run hash calls) ((run hash calls).syncMessages hash messages)) := by
  intro h
  have := Classical.decEq Json
  let seed := [textMessage "a", textMessage "b"]
  let calls : List Call := [.seedNormalizedMessages seed false, .syncMessages [textMessage "a"]]
  obtain ⟨hafter, huntouched⟩ := h Json id calls seed Function.injective_id
  have hbefore : (run id calls).log.entries = shown (clones seed) [textMessage "a"] :=
    (mirrors_run Function.injective_id calls).log
  have hnot : ¬ clones seed <+: clones [textMessage "a"] := fun hpre => by
    simpa [seed] using hpre.length_le
  have hlong : (run id calls).log.entries.length = 3 := by
    rw [hbefore, shown, if_neg hnot]
    rfl
  have hshort : ((run id calls).syncMessages id seed).log.entries.length = 2 := by
    have hseed : (Mirror.run calls).seed = clones seed := rfl
    rw [hafter, hseed, shown, if_pos (List.prefix_refl _)]
    rfl
  have hpre := (huntouched fun previous hprevious => by
    obtain rfl : [textMessage "a"] = previous := Option.some.inj hprevious
    exact List.prefix_append _ [(textMessage "b").cloneJson]).2
  have := hpre.length_le
  omega

end AppendOnlyContextManager

end JevCode.Session
