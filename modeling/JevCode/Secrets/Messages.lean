import JevCode.Data.JsonTree
import JevCode.Secrets.Obfuscator

namespace JevCode.Secrets

open JevCode.Text JevCode.Data

abbrev Json := JsonTree Chars (JsonScalar Int)

def string? : JsonScalar Int → Option Chars
  | .string s => some s
  | _ => none

def transformString (f : Chars → Chars) : JsonScalar Int → JsonScalar Int
  | .string s => .string (f s)
  | a => a

def stringValues (j : Json) : List Chars := j.leaves.filterMap string?

def protoKey : Chars := "__proto__".toList

def isChanged (transform : Chars → Chars) (j : Json) : Bool := (stringValues j).any fun s =>
  transform s ≠ s

mutual

/-- What a walk leaves of a value: an object in which a string changes is made anew, and `result[key]
=` makes no member `__proto__`. -/
def keepMembers (transform : Chars → Chars) : Json → Json
  | .leaf a => .leaf a
  | .arr items => .arr (keepItems transform items)
  | .obj fields =>
    if isChanged transform (.obj fields)
      then .obj (JsonTree.erase protoKey (keepFields transform fields))
    else .obj fields

def keepItems (transform : Chars → Chars) : List Json → List Json
  | [] => []
  | item :: items => keepMembers transform item :: keepItems transform items

def keepFields (transform : Chars → Chars) : List (Chars × Json) → List (Chars × Json)
  | [] => []
  | (key, value) :: fields => (key, keepMembers transform value) :: keepFields transform fields

end

def deepWalkStrings (obj : Json) (transform : Chars → Chars) : Json :=
  (keepMembers transform obj).map (transformString transform)

def SecretObfuscator.deobfuscateObject (o : SecretObfuscator) (obj : Json) : Json :=
  if o.hasAny then deepWalkStrings obj o.deobfuscate else obj

structure SessionContext (Other : Type) where
  messages : List Json
  other : Other

def deobfuscateSessionContext {Other : Type} (sessionContext : SessionContext Other)
    (obfuscator : Option SecretObfuscator) : SessionContext Other :=
  match obfuscator with
  | none => sessionContext
  | some o =>
    if o.hasAny then { sessionContext with
      messages := sessionContext.messages.map o.deobfuscateObject }
    else sessionContext

def typeField : Chars := "type".toList
def textField : Chars := "text".toList
def contentField : Chars := "content".toList

def textType : Chars := "text".toList

abbrev Fields := List (Chars × Json)

def stringField (name : Chars) (fields : Fields) : Option Chars :=
  match JsonTree.get? name fields with
  | some (.leaf a) => string? a
  | _ => none

def arrayField (name : Chars) (fields : Fields) : Option (List Json) :=
  match JsonTree.get? name fields with
  | some (.arr items) => some items
  | _ => none

variable (key : ObfuscationKey)

def obfuscateBlock (o : SecretObfuscator) : Json → SecretObfuscator × Json
  | .obj fields =>
    match stringField typeField fields, stringField textField fields with
    | some type, some text =>
      if type = textType then
        let (o, obfuscated) := o.obfuscate key text
        (o, .obj (JsonTree.set textField (.leaf (.string obfuscated)) fields))
      else (o, .obj fields)
    | _, _ => (o, .obj fields)
  | block => (o, block)

def obfuscateMessage (o : SecretObfuscator) : Json → SecretObfuscator × Json
  | .obj fields =>
    match arrayField contentField fields with
    | some blocks =>
      let (o, blocks) := mapState (obfuscateBlock key) o blocks
      (o, .obj (JsonTree.set contentField (.arr blocks) fields))
    | none => (o, .obj fields)
  | msg => (o, msg)

def obfuscateMessages (o : SecretObfuscator) (messages : List Json) : SecretObfuscator × List Json :=
  mapState (obfuscateMessage key) o messages

def withoutText (restore : Chars → Chars) : Json → Json
  | .obj fields =>
    match stringField typeField fields, stringField textField fields with
    | some type, some _ =>
      if restore type = textType then .obj (JsonTree.erase textField fields) else .obj fields
    | _, _ => .obj fields
  | block => block

def withoutTexts (restore : Chars → Chars) : Json → Json
  | .obj fields =>
    match arrayField contentField fields with
    | some blocks =>
      .obj (JsonTree.set contentField (.arr (blocks.map (withoutText restore))) fields)
    | none => .obj fields
  | msg => msg

def Clean (secrets : List Chars) (s : Chars) : Prop := ∀ c ∈ secrets, ¬c <:+: s

instance (secrets : List Chars) (s : Chars) : Decidable (Clean secrets s) :=
  inferInstanceAs (Decidable (∀ c ∈ secrets, ¬c <:+: s))

section

variable (f : Chars → Chars)

theorem keepItems_eq (items : List Json) : keepItems f items = items.map (keepMembers f) := by
  induction items with
  | nil => rfl
  | cons item items ih => rw [keepItems, ih, List.map_cons]

theorem get?_keepFields (name : Chars) (fields : Fields) :
    JsonTree.get? name (keepFields f fields) = (JsonTree.get? name fields).map (keepMembers f) := by
  induction fields with
  | nil => rfl
  | cons field fields ih =>
    simp only [keepFields, JsonTree.get?, ih]
    split <;> rfl

theorem erase_keepFields (name : Chars) (fields : Fields) :
    JsonTree.erase name (keepFields f fields) = keepFields f (JsonTree.erase name fields) := by
  induction fields with
  | nil => rfl
  | cons field fields ih =>
    simp only [keepFields, JsonTree.erase]
    split
    · rfl
    · rw [keepFields, ih]

mutual

theorem leaves_keepMembers : ∀ j : Json, (keepMembers f j).leaves ⊆ j.leaves
  | .leaf _ => List.Subset.refl _
  | .arr items => leavesItems_keepItems items
  | .obj fields => by
    rw [keepMembers]
    split
    · exact List.Subset.trans (JsonTree.leavesFields_erase _ _) (leavesFields_keepFields fields)
    · exact List.Subset.refl _

theorem leavesItems_keepItems : ∀ items : List Json,
    JsonTree.leavesItems (keepItems f items) ⊆ JsonTree.leavesItems items
  | [] => List.Subset.refl _
  | item :: items =>
    JsonTree.append_subset_append (leaves_keepMembers item) (leavesItems_keepItems items)

theorem leavesFields_keepFields : ∀ fields : Fields,
    JsonTree.leavesFields (keepFields f fields) ⊆ JsonTree.leavesFields fields
  | [] => List.Subset.refl _
  | (_, value) :: fields =>
    JsonTree.append_subset_append (leaves_keepMembers value) (leavesFields_keepFields fields)

end

mutual

theorem keys_keepMembers : ∀ j : Json, (keepMembers f j).keys ⊆ j.keys
  | .leaf _ => List.Subset.refl _
  | .arr items => keysItems_keepItems items
  | .obj fields => by
    rw [keepMembers]
    split
    · exact List.Subset.trans (JsonTree.keysFields_erase _ _) (keysFields_keepFields fields)
    · exact List.Subset.refl _

theorem keysItems_keepItems : ∀ items : List Json,
    JsonTree.keysItems (keepItems f items) ⊆ JsonTree.keysItems items
  | [] => List.Subset.refl _
  | item :: items =>
    JsonTree.append_subset_append (keys_keepMembers item) (keysItems_keepItems items)

theorem keysFields_keepFields : ∀ fields : Fields,
    JsonTree.keysFields (keepFields f fields) ⊆ JsonTree.keysFields fields
  | [] => List.Subset.refl _
  | (key, value) :: fields =>
    List.cons_subset_cons key
      (JsonTree.append_subset_append (keys_keepMembers value) (keysFields_keepFields fields))

end

mutual

theorem keepMembers_of_notMem : ∀ j : Json, protoKey ∉ j.keys → keepMembers f j = j
  | .leaf _, _ => rfl
  | .arr items, h => congrArg JsonTree.arr (keepItems_of_notMem items h)
  | .obj fields, h => by
    rw [keepMembers, keepFields_of_notMem fields h, JsonTree.erase_of_notMem h, ite_self]

theorem keepItems_of_notMem : ∀ items : List Json,
    protoKey ∉ JsonTree.keysItems items → keepItems f items = items
  | [], _ => rfl
  | item :: items, h => by
    simp only [JsonTree.keysItems, List.mem_append, not_or] at h
    rw [keepItems, keepMembers_of_notMem item h.1, keepItems_of_notMem items h.2]

theorem keepFields_of_notMem : ∀ fields : Fields,
    protoKey ∉ JsonTree.keysFields fields → keepFields f fields = fields
  | [], _ => rfl
  | (key, value) :: fields, h => by
    simp only [JsonTree.keysFields, List.cons_append, List.mem_cons, List.mem_append, not_or] at h
    rw [keepFields, keepMembers_of_notMem value h.2.1, keepFields_of_notMem fields h.2.2]

end

theorem get?_kept {name : Chars} (hname : protoKey ≠ name) (fields : Fields) :
    JsonTree.get? name (JsonTree.erase protoKey (keepFields f fields)) =
      (JsonTree.get? name fields).map (keepMembers f) := by
  rw [JsonTree.get?_erase_of_ne hname, get?_keepFields]

theorem keepMembers_obj (fields : Fields) :
    ∃ fields', keepMembers f (.obj fields) = .obj fields' := by
  rw [keepMembers]
  split
  · exact ⟨_, rfl⟩
  · exact ⟨_, rfl⟩

theorem stringField_kept {name : Chars} (hname : protoKey ≠ name) (fields : Fields) :
    stringField name (JsonTree.erase protoKey (keepFields f fields)) = stringField name fields := by
  unfold stringField
  rw [get?_kept f hname]
  cases JsonTree.get? name fields with
  | none => rfl
  | some value =>
    cases value with
    | leaf a => rfl
    | arr items => rfl
    | obj fields =>
      obtain ⟨fields', h⟩ := keepMembers_obj f fields
      rw [Option.map_some, h]

theorem arrayField_kept {name : Chars} (hname : protoKey ≠ name) (fields : Fields) :
    arrayField name (JsonTree.erase protoKey (keepFields f fields)) =
      (arrayField name fields).map (keepItems f) := by
  unfold arrayField
  rw [get?_kept f hname]
  cases JsonTree.get? name fields with
  | none => rfl
  | some value =>
    cases value with
    | leaf a => rfl
    | arr items => rfl
    | obj fields =>
      obtain ⟨fields', h⟩ := keepMembers_obj f fields
      rw [Option.map_some, h]
      rfl

theorem leavesFields_kept (fields : Fields) :
    JsonTree.leavesFields (JsonTree.erase protoKey (keepFields f fields)) ⊆
      JsonTree.leavesFields fields :=
  List.Subset.trans (JsonTree.leavesFields_erase _ _) (leavesFields_keepFields f fields)

theorem leavesFields_erase_kept (name : Chars) (fields : Fields) :
    JsonTree.leavesFields (JsonTree.erase name (JsonTree.erase protoKey (keepFields f fields))) ⊆
      JsonTree.leavesFields (JsonTree.erase name fields) := by
  rw [JsonTree.erase_erase, erase_keepFields]
  exact leavesFields_kept f _

theorem withoutText_kept (block : Json) :
    (withoutText f (keepMembers f block)).leaves ⊆ (withoutText f block).leaves := by
  cases block with
  | leaf a => exact List.Subset.refl _
  | arr items => exact leavesItems_keepItems f items
  | obj fields =>
    rw [keepMembers]
    split
    case isFalse => exact List.Subset.refl _
    case isTrue =>
      simp only [withoutText, stringField_kept f (show protoKey ≠ typeField by decide),
        stringField_kept f (show protoKey ≠ textField by decide)]
      split
      case h_1 type _ _ _ =>
        split
        · exact leavesFields_erase_kept f textField fields
        · exact leavesFields_kept f fields
      case h_2 => exact leavesFields_kept f fields

theorem withoutTexts_kept (msg : Json) :
    (withoutTexts f (keepMembers f msg)).leaves ⊆ (withoutTexts f msg).leaves := by
  cases msg with
  | leaf a => exact List.Subset.refl _
  | arr items => exact leavesItems_keepItems f items
  | obj fields =>
    rw [keepMembers]
    split
    case isFalse => exact List.Subset.refl _
    case isTrue =>
      simp only [withoutTexts, arrayField_kept f (show protoKey ≠ contentField by decide)]
      cases arrayField contentField fields with
      | none => exact leavesFields_kept f fields
      | some blocks =>
        intro a ha
        simp only [Option.map_some, JsonTree.leaves, JsonTree.mem_leavesFields_set, keepItems_eq,
          List.map_map] at ha ⊢
        refine ha.imp (fun ha => ?_) (fun ha => leavesFields_erase_kept f contentField fields ha)
        exact JsonTree.leavesItems_map (withoutText_kept f) blocks ha

theorem stringValues_kept {msg : Json} {s : Chars}
    (hs : s ∈ stringValues (withoutTexts f (keepMembers f msg))) :
    s ∈ stringValues (withoutTexts f msg) :=
  List.filterMap_subset string? (withoutTexts_kept f msg) hs

end

section

variable (f : Chars → Chars)

theorem stringValues_map (j : Json) :
    stringValues (j.map (transformString f)) = (stringValues j).map f := by
  unfold stringValues
  rw [JsonTree.leaves_map, List.filterMap_map, List.map_filterMap]
  refine List.filterMap_congr fun a _ => ?_
  cases a <;> rfl

theorem stringField_mapFields (name : Chars) (fields : Fields) :
    stringField name (JsonTree.mapFields (transformString f) fields) =
      (stringField name fields).map f := by
  unfold stringField
  rw [JsonTree.get?_mapFields]
  cases JsonTree.get? name fields with
  | none => rfl
  | some value =>
    cases value with
    | leaf a => cases a <;> rfl
    | arr items => rfl
    | obj fields => rfl

theorem arrayField_mapFields (name : Chars) (fields : Fields) :
    arrayField name (JsonTree.mapFields (transformString f) fields) =
      (arrayField name fields).map (JsonTree.mapItems (transformString f)) := by
  unfold arrayField
  rw [JsonTree.get?_mapFields]
  cases JsonTree.get? name fields with
  | none => rfl
  | some value => cases value <;> rfl

theorem withoutText_map (block : Json) :
    withoutText id (block.map (transformString f)) =
      (withoutText f block).map (transformString f) := by
  cases block with
  | leaf a => rfl
  | arr items => rfl
  | obj fields =>
    simp only [JsonTree.map, withoutText, stringField_mapFields]
    cases stringField typeField fields with
    | none => rfl
    | some type =>
      cases stringField textField fields with
      | none => rfl
      | some text =>
        simp only [Option.map_some, id]
        split
        · rw [JsonTree.map, JsonTree.mapFields_erase]
        · rfl

theorem withoutTexts_map (msg : Json) :
    withoutTexts id (msg.map (transformString f)) =
      (withoutTexts f msg).map (transformString f) := by
  cases msg with
  | leaf a => rfl
  | arr items => rfl
  | obj fields =>
    simp only [JsonTree.map, withoutTexts, arrayField_mapFields]
    cases arrayField contentField fields with
    | none => rfl
    | some blocks =>
      simp only [Option.map_some, JsonTree.map, JsonTree.mapFields_set,
        JsonTree.mapItems_eq, List.map_map]
      congr 3
      refine List.map_congr_left fun block _ => ?_
      exact withoutText_map f block

end

theorem mem_stringValues {s : Chars} {j : Json} : s ∈ stringValues j ↔ .string s ∈ j.leaves := by
  unfold stringValues
  rw [List.mem_filterMap]
  constructor
  · rintro ⟨a, ha, hs⟩
    cases a <;> cases hs
    exact ha
  · intro h
    exact ⟨_, h, rfl⟩

structure Filtered (secrets : List Chars) (rest kept sent : Json) : Prop where
  keys : sent.keys = kept.keys
  clean : (∀ s ∈ stringValues sent, Clean secrets s) ↔ ∀ s ∈ stringValues rest, Clean secrets s

theorem Filtered.refl (secrets : List Chars) (j : Json) : Filtered secrets j j j := ⟨rfl, Iff.rfl⟩

theorem Filtered.arr {secrets : List Chars} {rest : Json → Json} {items sent : List Json}
    (h : List.Forall₂ (fun item => Filtered secrets (rest item) item) items sent) :
    Filtered secrets (.arr (items.map rest)) (.arr items) (.arr sent) := by
  induction h with
  | nil => exact .refl secrets _
  | @cons item sent items sents hitem _ ih =>
    refine ⟨?_, ?_⟩
    · have hkeys := ih.keys
      simp only [JsonTree.keys, JsonTree.keysItems] at hkeys ⊢
      rw [hitem.keys, hkeys]
    · have hclean := hitem.clean
      have ihclean := ih.clean
      simp only [mem_stringValues, JsonTree.leaves, List.map_cons, JsonTree.leavesItems,
        List.mem_append, or_imp, forall_and] at hclean ihclean ⊢
      rw [hclean, ihclean]

theorem Filtered.set {secrets : List Chars} {name : Chars} {fields : Fields} {rest kept sent : Json}
    (hkept : JsonTree.get? name fields = some kept) (h : Filtered secrets rest kept sent) :
    Filtered secrets (.obj (JsonTree.set name rest fields)) (.obj fields)
      (.obj (JsonTree.set name sent fields)) where
  keys := JsonTree.keysFields_set hkept h.keys
  clean := by
    have hclean := h.clean
    simp only [mem_stringValues, JsonTree.leaves, JsonTree.mem_leavesFields_set, or_imp,
      forall_and] at hclean ⊢
    rw [hclean]

theorem get?_of_stringField {name s : Chars} {fields : Fields}
    (h : stringField name fields = some s) :
    JsonTree.get? name fields = some (.leaf (.string s)) := by
  unfold stringField at h
  split at h
  case h_1 a ha =>
    cases a <;> cases h
    exact ha
  case h_2 => cases h

theorem get?_of_arrayField {name : Chars} {fields : Fields} {items : List Json}
    (h : arrayField name fields = some items) : JsonTree.get? name fields = some (.arr items) := by
  unfold arrayField at h
  split at h
  case h_1 items' hitems =>
    cases h
    exact hitems
  case h_2 => cases h

open SecretObfuscator

variable {key} {S : Set Chars} {secrets : List Chars} {o : SecretObfuscator}

theorem PlainOnly.obfuscateBlock (ho : PlainOnly key S {c | c ∈ secrets} o) (block : Json) :
    PlainOnly key S {c | c ∈ secrets} (obfuscateBlock key o block).1 ∧
      Filtered secrets (withoutText id block) block (obfuscateBlock key o block).2 := by
  cases block with
  | leaf a => exact ⟨ho, .refl secrets _⟩
  | arr items => exact ⟨ho, .refl secrets _⟩
  | obj fields =>
    simp only [Secrets.obfuscateBlock, withoutText]
    cases htype : stringField typeField fields with
    | none => exact ⟨ho, .refl secrets _⟩
    | some type =>
      cases htext : stringField textField fields with
      | none => exact ⟨ho, .refl secrets _⟩
      | some text =>
        simp only [id]
        split
        case isFalse => exact ⟨ho, .refl secrets _⟩
        case isTrue =>
          refine ⟨ho.obfuscate text, JsonTree.keysFields_set (get?_of_stringField htext) rfl, ?_⟩
          simp only [mem_stringValues, JsonTree.leaves, JsonTree.mem_leavesFields_set,
            or_imp, forall_and]
          refine and_iff_right fun s hs => ?_
          cases List.mem_singleton.mp hs
          exact fun c hc => ho.hides hc text

theorem PlainOnly.obfuscateMessage (ho : PlainOnly key S {c | c ∈ secrets} o) (msg : Json) :
    PlainOnly key S {c | c ∈ secrets} (obfuscateMessage key o msg).1 ∧
      Filtered secrets (withoutTexts id msg) msg (obfuscateMessage key o msg).2 := by
  cases msg with
  | leaf a => exact ⟨ho, .refl secrets _⟩
  | arr items => exact ⟨ho, .refl secrets _⟩
  | obj fields =>
    simp only [Secrets.obfuscateMessage, withoutTexts]
    cases hcontent : arrayField contentField fields with
    | none => exact ⟨ho, .refl secrets _⟩
    | some blocks =>
      obtain ⟨ho, hblocks⟩ := mapState_forall₂ (P := PlainOnly key S {c | c ∈ secrets})
        (fun _ block ho => PlainOnly.obfuscateBlock ho block) ho blocks
      exact ⟨ho, (Filtered.arr hblocks).set (get?_of_arrayField hcontent)⟩

def AllClean (secrets : List Chars) (j : Json) : Prop :=
  ∀ s ∈ j.keys ++ stringValues j, Clean secrets s

instance (secrets : List Chars) (j : Json) : Decidable (AllClean secrets j) :=
  inferInstanceAs (Decidable (∀ s ∈ j.keys ++ stringValues j, Clean secrets s))

theorem Filtered.allClean {rest kept sent : Json} (h : Filtered secrets rest kept sent) :
    AllClean secrets sent ↔
      (∀ k ∈ kept.keys, Clean secrets k) ∧ ∀ s ∈ stringValues rest, Clean secrets s := by
  unfold AllClean
  rw [List.forall_mem_append, h.keys, h.clean]

def SendsNone (secrets : List Chars) (restore : Chars → Chars) (messages : List Json) : Prop :=
  ∀ msg ∈ messages, (∀ k ∈ msg.keys, Clean secrets k) ∧
    ∀ s ∈ stringValues (withoutTexts restore msg), Clean secrets (restore s)

instance (secrets : List Chars) (restore : Chars → Chars) (messages : List Json) :
    Decidable (SendsNone secrets restore messages) :=
  inferInstanceAs (Decidable (∀ msg ∈ messages, (∀ k ∈ msg.keys, Clean secrets k) ∧
    ∀ s ∈ stringValues (withoutTexts restore msg), Clean secrets (restore s)))

theorem SendsNone.kept {f : Chars → Chars} {messages : List Json}
    (h : SendsNone secrets f messages) :
    SendsNone secrets f (messages.map (keepMembers f)) := by
  refine List.forall_mem_map.mpr fun msg hmsg => ?_
  obtain ⟨hkeys, hvalues⟩ := h msg hmsg
  exact ⟨fun k hk => hkeys k (keys_keepMembers f msg hk),
    fun s hs => hvalues s (stringValues_kept f hs)⟩

theorem PlainOnly.restored (ho : PlainOnly key S {c | c ∈ secrets} o) (messages : List Json)
    (f : Chars → Chars) :
    (∀ msg ∈ (obfuscateMessages key o (messages.map (JsonTree.map (transformString f)))).2,
        AllClean secrets msg) ↔ SendsNone secrets f messages := by
  unfold obfuscateMessages SendsNone
  obtain ⟨-, hmessages⟩ := mapState_forall₂ (P := PlainOnly key S {c | c ∈ secrets})
    (fun _ msg ho => PlainOnly.obfuscateMessage ho msg) ho
    (messages.map (JsonTree.map (transformString f)))
  revert hmessages
  generalize (mapState (Secrets.obfuscateMessage key) o
    (messages.map (JsonTree.map (transformString f)))).2 = sent
  intro hmessages
  rw [List.forall₂_map_left_iff] at hmessages
  induction hmessages with
  | nil => simp
  | @cons msg msg' messages sent hmsg _ ih =>
    rw [List.forall_mem_cons, List.forall_mem_cons, ih, hmsg.allClean, JsonTree.keys_map,
      withoutTexts_map, stringValues_map, List.forall_mem_map]

theorem resumed_session_sends_no_secret (key : ObfuscationKey) (entries : List SecretEntry)
    (hplain : ∀ e ∈ entries, ∃ content replacement, e = .plain content .obfuscate replacement)
    (hcontents : ∀ c ∈ plainContents entries, c ≠ [] ∧ '#' ∉ c ∧
      ∀ s ∈ plainContents entries, ¬c <:+: buildPlaceholder key s)
    (earlier : List Chars) {Other : Type} (sessionContext : SessionContext Other) :
    let o := (ofEntries key entries).obfuscateAll key earlier
    let sent :=
      (obfuscateMessages key o (deobfuscateSessionContext sessionContext (some o)).messages).2
    (SendsNone (plainContents entries) o.deobfuscate sessionContext.messages →
      ∀ msg ∈ sent, AllClean (plainContents entries) msg) ∧
    ((∀ msg ∈ sessionContext.messages, protoKey ∉ msg.keys) →
      (∀ msg ∈ sent, AllClean (plainContents entries) msg) →
      SendsNone (plainContents entries) o.deobfuscate sessionContext.messages) := by
  intro o
  cases hsecrets : plainContents entries with
  | nil => simp [AllClean, SendsNone, Clean]
  | cons c cs =>
    rw [← hsecrets]
    have hc : c ∈ plainContents entries := by
      rw [hsecrets]
      exact List.mem_cons_self
    have ho := (plainOnly_ofEntries hplain hcontents hc).obfuscateAll earlier
    have hmessages : (deobfuscateSessionContext sessionContext (some o)).messages =
        (sessionContext.messages.map (keepMembers o.deobfuscate)).map
          (JsonTree.map (transformString o.deobfuscate)) := by
      unfold deobfuscateSessionContext SecretObfuscator.deobfuscateObject
      simp only [show o.hasAny = true from ho.hasAny, if_true, List.map_map]
      rfl
    rw [hmessages]
    have hrestored := PlainOnly.restored ho (sessionContext.messages.map (keepMembers o.deobfuscate))
      o.deobfuscate
    refine ⟨fun hnone => hrestored.mpr hnone.kept, fun hproto hsent => ?_⟩
    have hkept : sessionContext.messages.map (keepMembers o.deobfuscate) = sessionContext.messages :=
      List.map_congr_left (fun msg hmsg => keepMembers_of_notMem _ msg (hproto msg hmsg)) |>.trans
        (List.map_id _)
    rw [← hkept]
    exact hrestored.mp hsent

def hunter2 : List SecretEntry := [.plain "hunter2".toList .obfuscate none]

def hunter2Placeholder : Chars := buildPlaceholder unaryKey "hunter2".toList

def string (s : Chars) : Json := .leaf (.string s)

def assistantMessage (thinking text : Chars) : Json :=
  .obj [("role".toList, string "assistant".toList),
    (contentField, .arr [
      .obj [(typeField, string "thinking".toList), ("thinking".toList, string thinking)],
      .obj [(typeField, string textType), (textField, string text)]])]

theorem restored_text_is_filtered :
    ¬Clean ["hunter2".toList] ((ofEntries unaryKey hunter2).deobfuscate hunter2Placeholder) ∧
    ∀ msg ∈ (obfuscateMessages unaryKey (ofEntries unaryKey hunter2) (deobfuscateSessionContext
        ⟨[assistantMessage "no secret".toList hunter2Placeholder], ()⟩
        (some (ofEntries unaryKey hunter2))).messages).2,
      AllClean ["hunter2".toList] msg :=
  ⟨by decide +kernel,
    (resumed_session_sends_no_secret unaryKey hunter2 (by simp [hunter2]) (by decide +kernel) []
      ⟨[assistantMessage "no secret".toList hunter2Placeholder], ()⟩).1 (by decide +kernel)⟩

theorem restored_thinking_is_sent :
    (∀ c ∈ plainContents hunter2, c ≠ [] ∧ '#' ∉ c ∧
      ∀ s ∈ plainContents hunter2, ¬c <:+: buildPlaceholder unaryKey s) ∧
    ¬∀ msg ∈ (obfuscateMessages unaryKey (ofEntries unaryKey hunter2) (deobfuscateSessionContext
          ⟨[assistantMessage hunter2Placeholder "no secret".toList], ()⟩
          (some (ofEntries unaryKey hunter2))).messages).2,
        AllClean (plainContents hunter2) msg := by
  constructor <;> decide +kernel

end JevCode.Secrets
