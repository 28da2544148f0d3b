import JevCode.Sdk.ChunkJsonParser
import JevCode.Sdk.SnapshotEncoderLaws

namespace JevCode.Sdk

open Data Text Text.JsonSyntax ChunkJsonParser

variable {ν : Type} (numberText : ν → Numeral)

def Delimits (bytes : List UInt8) (start stop : Nat) (t : Chars) : Prop :=
  ∃ pre post, bytes = pre ++ utf8Bytes t ++ post ∧ start = pre.length ∧
    stop = pre.length + byteLength t

def infoOf : JsonValue ν → FieldInfo
  | .leaf (.string s) =>
    if isPlainJsonString s then ⟨some (utf8Length s), true, none⟩
      else ⟨none, true, some (stringIndexOf s)⟩
  | _ => ⟨none, false, none⟩

structure FieldsDelimited (bytes : List UInt8) (fields : List (List CodeUnit × JsonValue ν))
    (index : FieldIndex) :
    Prop where
  delimits : ∀ key field, index.get? key = some field →
    ∃ child, (key, child) ∈ fields ∧
    Delimits bytes field.start field.stop (stringify numberText child)
  isSome : ∀ key ∈ fields.map Prod.fst, key ≠ protoKey → (index.get? key).isSome

def ItemFields (bytes : List UInt8) (index : Option FieldIndex) : JsonValue ν → Prop
  | .obj fields => ∃ indexed, index = some indexed ∧ FieldsDelimited numberText bytes fields indexed
  | _ => index = none

def ItemDelimited (bytes : List UInt8) (item : JsonValue ν) (indexed : IndexedItem) : Prop :=
  Delimits bytes indexed.start indexed.stop (stringify numberText item) ∧
    ItemFields numberText bytes indexed.fields item

def IndexDelimits (bytes : List UInt8) (index : RevisionIndex) : JsonValue ν → Prop
  | .arr items =>
    index.fields = none ∧ ∃ indexed, index.items = some indexed ∧
      List.Forall₂ (ItemDelimited numberText bytes) items indexed
  | .obj fields =>
    index.items = none ∧ ∃ indexed, index.fields = some indexed ∧
      FieldsDelimited numberText bytes fields indexed
  | .leaf _ => index.items = none ∧ index.fields = none

theorem Delimits.append {bytes : List UInt8} {start stop : Nat} {t : Chars}
    (h : Delimits bytes start stop t) (more : List UInt8) :
    Delimits (bytes ++ more) start stop t := by
  obtain ⟨pre, post, rfl, hstart, hstop⟩ := h
  exact ⟨pre, post ++ more, by rw [List.append_assoc], hstart, hstop⟩

variable {numberText} in
theorem FieldsDelimited.append {bytes : List UInt8} {fields : List (List CodeUnit × JsonValue ν)}
    {index : FieldIndex} (h : FieldsDelimited numberText bytes fields index) (more : List UInt8) :
    FieldsDelimited numberText (bytes ++ more) fields index := by
  refine ⟨fun key field hfield => ?_, h.isSome⟩
  obtain ⟨child, hmem, hplace⟩ := h.delimits key field hfield
  exact ⟨child, hmem, hplace.append more⟩

variable {numberText} in
theorem ItemDelimited.append {bytes : List UInt8} {item : JsonValue ν} {indexed : IndexedItem}
    (h : ItemDelimited numberText bytes item indexed) (more : List UInt8) :
    ItemDelimited numberText (bytes ++ more) item indexed := by
  refine ⟨h.1.append more, ?_⟩
  match item, h.2 with
  | .leaf _, hfields => exact hfields
  | .arr _, hfields => exact hfields
  | .obj _, ⟨index, hindex, hfields⟩ => exact ⟨index, hindex, hfields.append more⟩

variable {numberText} in
theorem FieldsDelimited.assign {bytes : List UInt8} {fields : List (List CodeUnit × JsonValue ν)}
    {index : FieldIndex} (h : FieldsDelimited numberText bytes fields index) {key : List CodeUnit}
    {child : JsonValue ν} {field : IndexedField}
    (hplace : Delimits bytes field.start field.stop (stringify numberText child)) :
    FieldsDelimited numberText bytes (fields ++ [(key, child)]) (assignField key field index) := by
  unfold assignField
  by_cases hproto : key = protoKey
  · rw [if_pos hproto]
    refine ⟨fun k f hf => ?_, fun k hk hne => ?_⟩
    · obtain ⟨child, hmem, hplace⟩ := h.delimits k f hf
      exact ⟨child, List.mem_append_left _ hmem, hplace⟩
    · rw [List.map_append, List.mem_append, List.map_singleton, List.mem_singleton] at hk
      obtain hk | hk := hk
      · exact h.isSome k hk hne
      · exact absurd (hk.trans hproto) hne
  · rw [if_neg hproto]
    refine ⟨fun k f hf => ?_, fun k hk hne => ?_⟩
    · rw [InsertionMap.get?_set] at hf
      split at hf
      next hk =>
        cases hf
        exact ⟨child, List.mem_append_right _ (by rw [hk]; exact List.mem_singleton_self _), hplace⟩
      next =>
        obtain ⟨child, hmem, hplace⟩ := h.delimits k f hf
        exact ⟨child, List.mem_append_left _ hmem, hplace⟩
    · rw [InsertionMap.get?_set]
      split
      next => rfl
      next hkey =>
        rw [List.map_append, List.mem_append, List.map_singleton, List.mem_singleton] at hk
        exact h.isSome k (hk.resolve_right hkey) hne

theorem fieldsDelimited_nil (bytes : List UInt8) : FieldsDelimited numberText bytes [] .empty :=
  ⟨fun key field h => by simp at h, fun key h => by simp at h⟩

def toStringKey : List CodeUnit := charsUnits ['t', 'o', 'S', 't', 'r', 'i', 'n', 'g']

mutual

def HasText : JsonValue ν → Prop
  | .leaf _ => True
  | .arr items => HaveText items
  | .obj fields => toStringKey ∉ fields.map Prod.fst

def HaveText : List (JsonValue ν) → Prop
  | [] => True
  | item :: items => HasText item ∧ HaveText items

end

/-- Every item of the value with an `id` has a text for it. -/
def IdsHaveText : JsonValue ν → Prop
  | .arr items => ∀ fields, .obj fields ∈ items → ∀ child, (idKey, child) ∈ fields → HasText child
  | _ => True

mutual

theorem toText_cases : (v : JsonValue ν) →
    HasText v ∧ (∃ text, toText numberText v = .ok text) ∨ ¬HasText v ∧
      toText numberText v = .error .typeError
  | .leaf .null => .inl ⟨trivial, _, rfl⟩
  | .leaf (.boolean true) => .inl ⟨trivial, _, rfl⟩
  | .leaf (.boolean false) => .inl ⟨trivial, _, rfl⟩
  | .leaf (.number n) => .inl ⟨trivial, _, rfl⟩
  | .leaf (.string s) => .inl ⟨trivial, _, rfl⟩
  | .arr items => by
    rw [HasText, toText]
    exact joinTexts_cases true items
  | .obj fields => by
    rw [HasText, toText]
    by_cases h : toStringKey ∈ fields.map Prod.fst
    · exact .inr ⟨not_not.mpr h, if_pos h⟩
    · exact .inl ⟨h, _, if_neg h⟩

theorem joinTexts_cases (first : Bool) : (items : List (JsonValue ν)) →
    HaveText items ∧ (∃ text, joinTexts numberText first items = .ok text) ∨
      ¬HaveText items ∧ joinTexts numberText first items = .error .typeError
  | [] => .inl ⟨trivial, _, rfl⟩
  | item :: items => by
    rw [HaveText, joinTexts]
    obtain ⟨hitem, text, htext⟩ | ⟨hitem, htext⟩ := toText_cases item
    · obtain ⟨hitems, more, hmore⟩ | ⟨hitems, hmore⟩ := joinTexts_cases false items
      · rw [htext, hmore]
        exact .inl ⟨⟨hitem, hitems⟩, _, rfl⟩
      · rw [htext, hmore]
        exact .inr ⟨fun h => hitems h.2, rfl⟩
    · rw [htext]
      exact .inr ⟨fun h => hitem h.1, rfl⟩

end

theorem entryIdOf_cases (v : JsonValue ν) :
    HasText v ∧ (∃ text, entryIdOf numberText v = .ok text) ∨ ¬HasText v ∧
      entryIdOf numberText v = .error .typeError := by
  unfold entryIdOf
  split
  next hnull =>
    match v, hnull with
    | .leaf .null, _ => exact .inl ⟨trivial, _, rfl⟩
  next => exact toText_cases numberText v

theorem position_writes {chunkBytes : Nat} :
    WritesText chunkBytes (fun _ => True) position [] (fun c start => start = c.length) :=
  fun w hw _ => ⟨w.bytes, w, rfl, hw, (List.append_nil _).symm, hw.bytes_eq⟩

theorem placed_writes {chunkBytes : Nat} {α γ : Type} {m : Encoding α} {t u : Chars}
    {post : List UInt8 → α → Prop} {k : Nat → α → Nat → Encoding γ} {r : List UInt8 → Prop}
    {final : List UInt8 → γ → Prop} (hm : WritesText chunkBytes (fun _ => True) m t post)
    (hr : ∀ c x, r c → r (c ++ x)) (hk : ∀ start a stop,
      WritesText chunkBytes (fun c => r c ∧ Delimits c start stop t ∧ post c a)
        (k start a stop) u final) :
    WritesText chunkBytes r
      (position >>= fun start => m >>= fun a => position >>= fun stop => k start a stop)
      (t ++ u) final := by
  intro w hw hrw
  obtain ⟨a, w₁, hm, hw₁, hcontent, hpost⟩ := hm w hw trivial
  have hplace : Delimits w₁.content w.bytes w₁.bytes t := by
    refine ⟨w.content, [], ?_, hw.bytes_eq, ?_⟩
    · rw [hcontent, List.append_nil]
    · rw [hw₁.bytes_eq, hcontent, List.length_append, length_utf8Bytes]
  obtain ⟨b, w₂, hk, hw₂, hmore, hfinal⟩ :=
    hk w.bytes a w₁.bytes w₁ hw₁ ⟨hcontent ▸ hr _ _ hrw, hplace, hpost⟩
  refine ⟨b, w₂, ?_, hw₂, by rw [hmore, hcontent, List.append_assoc, utf8Bytes_append], hfinal⟩
  change (m w >>= fun x => k w.bytes x.1 x.2.bytes x.2) = _
  rw [hm]
  exact hk

theorem assignEntryId_cases (withId : Bool) (key : List CodeUnit) (child : JsonValue ν)
    (entryId : Option (List CodeUnit)) :
    (withId = true → key = idKey → HasText child) ∧
    (∃ id, assignEntryId numberText withId key child entryId = .ok id) ∨
      (withId = true ∧ key = idKey ∧ ¬HasText child) ∧
        assignEntryId numberText withId key child entryId = .error .typeError := by
  unfold assignEntryId
  by_cases h : withId ∧ key = idKey
  · rw [if_pos h]
    obtain ⟨htext, text, hid⟩ | ⟨hnot, hid⟩ := entryIdOf_cases numberText child
    · rw [hid]
      exact .inl ⟨fun _ _ => htext, _, rfl⟩
    · rw [hid]
      exact .inr ⟨⟨h.1, h.2, hnot⟩, rfl⟩
  · rw [if_neg h]
    exact .inl ⟨fun h1 h2 => absurd ⟨h1, h2⟩ h, _, rfl⟩

section

variable {chunkBytes : Nat} (hchunk : 4 ≤ chunkBytes)
include hchunk

theorem encodeIndexedValue_writes (child : JsonValue ν) :
    WritesText chunkBytes (fun _ => True) (encodeIndexedValue chunkBytes numberText child)
      (stringify numberText child)
      (fun _ info => info = infoOf child) := by
  have hother (v : JsonValue ν) (hv : infoOf v = ⟨none, false, none⟩) : WritesText chunkBytes
      (fun _ => True)
      (encode chunkBytes numberText v >>= fun _ => pure ⟨none, false, none⟩) (stringify numberText v)
      (fun _ info => info = infoOf v) :=
    .last (encode_writes hchunk numberText v) fun _ => .pure _ fun _ _ => hv.symm
  match child with
  | .leaf .null => exact hother _ rfl
  | .leaf (.boolean b) => exact hother _ rfl
  | .leaf (.number n) => exact hother _ rfl
  | .arr items => exact hother _ rfl
  | .obj fields => exact hother _ rfl
  | .leaf (.string s) =>
    rw [encodeIndexedValue, infoOf]
    split
    · exact .last (encodeString_writes hchunk s false) fun _ => .pure _ fun _ _ => rfl
    · refine .last (encodeString_writes hchunk s true) fun index => .assume fun hindex => ?_
      exact .pure _ fun _ _ => by rw [hindex]; rfl

theorem encodeIndexedField_writes (first : Bool) (key : List CodeUnit) (child : JsonValue ν)
    {r : List UInt8 → Prop} (hr : ∀ c x, r c → r (c ++ x)) :
    WritesText chunkBytes r (encodeIndexedField chunkBytes numberText first key child)
      ((if first then [] else [',']) ++ quoteString key ++ ':' :: stringify numberText child)
      (fun c field => r c ∧ Delimits c field.start field.stop (stringify numberText child)) := by
  have htext : (if first then [] else [',']) ++ quoteString key ++ ':' ::
      stringify numberText child =
      (if first then [] else [',']) ++
      (quoteString key ++ ([':'] ++ (stringify numberText child ++ []))) := by simp
  rw [htext, encodeIndexedField]
  refine separator_writes hchunk first hr fun _ => ?_
  refine (encodeString_writes hchunk key false).keepText hr fun _ _ => ?_
  refine (append_writes hchunk [':']).keepText hr fun _ _ => ?_
  refine placed_writes (encodeIndexedValue_writes numberText hchunk child) hr fun start info stop =>
    ?_
  exact .pure _ fun _ hc => ⟨hc.1, hc.2.1⟩

theorem encodeIndexedFields_writes (withId : Bool) {fields : List (List CodeUnit × JsonValue ν)}
    (hids : withId = true → ∀ child, (idKey, child) ∈ fields → HasText child) (first : Bool)
    (done : List (List CodeUnit × JsonValue ν)) (index : FieldIndex)
    (entryId : Option (List CodeUnit)) :
    WritesText chunkBytes (fun c => FieldsDelimited numberText c done index)
      (encodeIndexedFields chunkBytes numberText withId first index entryId fields)
      (stringifyFields numberText first fields)
      (fun c result => FieldsDelimited numberText c (done ++ fields) result.1) := by
  induction fields generalizing first done index entryId with
  | nil => exact .pure _ fun c hc => by rwa [List.append_nil]
  | cons field fields ih =>
    obtain ⟨key, child⟩ := field
    have hrest := ih fun h child hchild => hids h child (List.mem_cons_of_mem _ hchild)
    rw [encodeIndexedFields, stringifyFields]
    refine WritesText.bind
      (encodeIndexedField_writes numberText hchunk first key child fun c x h => h.append x)
      fun field => ?_
    obtain ⟨-, id, hid⟩ | ⟨⟨hwith, rfl, hnot⟩, -⟩ :=
      assignEntryId_cases numberText withId key child entryId
    · rw [hid]
      have h := hrest false (done ++ [(key, child)]) (assignField key field index) id
      rw [List.append_assoc, List.singleton_append] at h
      exact h.weaken (fun c hc => hc.1.assign hc.2) fun _ _ hc => hc
    · exact absurd (hids hwith child List.mem_cons_self) hnot

theorem encodeIndexedFields_error {fields : List (List CodeUnit × JsonValue ν)} {child : JsonValue ν}
    (hchild : (idKey, child) ∈ fields) (hnot : ¬HasText child) (first : Bool) (index : FieldIndex)
    (entryId : Option (List CodeUnit)) {w : ChunkWriter} (hw : w.Valid chunkBytes) :
    encodeIndexedFields chunkBytes numberText true first index entryId fields w =
      .error .typeError := by
  induction fields generalizing first index entryId w with
  | nil => cases hchild
  | cons field fields ih =>
    obtain ⟨key, child'⟩ := field
    rw [encodeIndexedFields]
    refine (encodeIndexedField_writes numberText hchunk first key child' (r :=
      fun _ => True) fun _ _ h => h).bind_error
      (fun field w hw => ?_) hw trivial
    obtain ⟨htext, id, hid⟩ | ⟨-, hid⟩ := assignEntryId_cases numberText true key child' entryId
    · have hrest : (idKey, child) ∈ fields := by
        refine (List.mem_cons.mp hchild).resolve_left fun heq => ?_
        cases heq
        exact hnot (htext rfl rfl)
      rw [hid]
      exact ih hrest false _ id hw
    · rw [hid]
      rfl

theorem encodeIndexedItem_writes {item : JsonValue ν}
    (hids : ∀ fields, item = .obj fields → ∀ child, (idKey, child) ∈ fields → HasText child) :
    WritesText chunkBytes (fun _ => True) (encodeIndexedItem chunkBytes numberText item)
      (stringify numberText item)
      (fun c result => ItemFields numberText c result.2 item) := by
  match item with
  | .leaf a => exact .last (encode_writes hchunk numberText _) fun _ => .pure _ fun _ _ => rfl
  | .arr items => exact .last (encode_writes hchunk numberText _) fun _ => .pure _ fun _ _ => rfl
  | .obj fields =>
    rw [encodeIndexedItem, stringify, List.cons_append, ← List.singleton_append]
    refine WritesText.bind (append_writes hchunk ['\x7b']) fun _ => ?_
    have hfields :=
      encodeIndexedFields_writes numberText hchunk true (fun _ => hids fields rfl) true
        [] .empty none
    refine WritesText.bind (hfields.weaken (fun c _ => fieldsDelimited_nil numberText c) fun _ _ h =>
      h) fun result => ?_
    exact (append_writes hchunk ['\x7d']).keepText (u := []) (fun c x h => h.append x) fun _ _ =>
      .pure _ fun c h => ⟨_, rfl, h⟩

theorem encodePlacedItem_writes {item : JsonValue ν}
    (hids : ∀ fields, item = .obj fields → ∀ child, (idKey, child) ∈ fields → HasText child)
    (first : Bool) :
    WritesText chunkBytes (fun _ => True) (encodePlacedItem chunkBytes numberText first item)
      ((if first then [] else [',']) ++ stringify numberText item)
      (ItemDelimited numberText · item) := by
  have hitem := encodeIndexedItem_writes numberText hchunk hids
  rw [encodePlacedItem, ← List.append_nil (stringify numberText item)]
  refine separator_writes hchunk first (fun _ _ h => h) fun _ => ?_
  exact placed_writes hitem (fun _ _ h => h) fun start result stop => .pure _ fun _ h => h.2

theorem encodeIndexedItems_writes {items : List (JsonValue ν)}
    (hids : ∀ fields, .obj fields ∈ items → ∀ child, (idKey, child) ∈ fields → HasText child)
    (first : Bool) :
    WritesText chunkBytes (fun _ => True) (encodeIndexedItems chunkBytes numberText first items)
      (stringifyItems numberText first items)
      (fun c indexed => List.Forall₂ (ItemDelimited numberText c) items indexed) := by
  induction items generalizing first with
  | nil => exact .pure _ fun _ _ => .nil
  | cons item items ih =>
    have hrest := ih (fun fields hfields => hids fields (List.mem_cons_of_mem _ hfields)) false
    have hitem := encodePlacedItem_writes numberText hchunk
      (fun fields (h : item = .obj fields) => hids fields (by rw [h]; exact List.mem_cons_self))
      first
    rw [encodeIndexedItems, stringifyItems]
    refine WritesText.bind hitem fun indexed => ?_
    exact .last (hrest.frame fun c x h => h.append x) fun rest => .pure _ fun c h => .cons h.2 h.1

theorem encodePlacedItem_error {fields : List (List CodeUnit × JsonValue ν)} {child : JsonValue ν}
    (hchild : (idKey, child) ∈ fields) (hnot : ¬HasText child) (first : Bool) {w : ChunkWriter}
    (hw : w.Valid chunkBytes) :
    encodePlacedItem chunkBytes numberText first (.obj fields) w = .error .typeError := by
  have hitem {w : ChunkWriter} (hw : w.Valid chunkBytes) :
      encodeIndexedItem chunkBytes numberText (.obj fields) w = .error .typeError := by
    rw [encodeIndexedItem]
    refine (append_writes hchunk ['\x7b']).bind_error (fun _ w hw => ?_) hw trivial
    exact bind_of_error (encodeIndexedFields_error numberText hchunk hchild hnot true .empty none hw)
  rw [encodePlacedItem]
  cases first with
  | true => exact position_writes.bind_error (fun _ w hw => bind_of_error (hitem hw)) hw trivial
  | false =>
    refine (append_writes hchunk [',']).bind_error (fun _ w hw => ?_) hw trivial
    exact position_writes.bind_error (fun _ w hw => bind_of_error (hitem hw)) hw trivial

theorem encodeIndexedItems_error {items : List (JsonValue ν)}
    {fields : List (List CodeUnit × JsonValue ν)} (hfields : .obj fields ∈ items)
    {child : JsonValue ν} (hchild : (idKey, child) ∈ fields) (hnot : ¬HasText child) (first : Bool)
    {w : ChunkWriter} (hw : w.Valid chunkBytes) :
    encodeIndexedItems chunkBytes numberText first items w = .error .typeError := by
  induction items generalizing first w with
  | nil => cases hfields
  | cons item items ih =>
    rw [encodeIndexedItems]
    by_cases hids : ∀ fields, item = .obj fields → ∀ child, (idKey, child) ∈ fields → HasText child
    · have hrest : .obj fields ∈ items :=
        (List.mem_cons.mp hfields).resolve_left fun heq => hnot (hids fields heq.symm child hchild)
      refine (encodePlacedItem_writes numberText hchunk hids first).bind_error
        (fun _ w hw => ?_) hw trivial
      exact bind_of_error (ih hrest false hw)
    · push Not at hids
      obtain ⟨fields', rfl, child', hchild', hnot'⟩ := hids
      exact bind_of_error (encodePlacedItem_error numberText hchunk hchild' hnot' first hw)

theorem encodeRoot_writes {v : JsonValue ν} (hids : IdsHaveText v) :
    WritesText chunkBytes (fun _ => True) (encodeRoot chunkBytes numberText v)
      (stringify numberText v)
      (fun c index => IndexDelimits numberText c index v) := by
  match v with
  | .leaf a => exact .last (encode_writes hchunk numberText _) fun _ => .pure _ fun _ _ => ⟨rfl, rfl⟩
  | .arr items =>
    rw [encodeRoot, stringify, List.cons_append, ← List.singleton_append]
    refine WritesText.bind (append_writes hchunk ['[']) fun _ => ?_
    refine WritesText.bind (encodeIndexedItems_writes numberText hchunk hids true) fun indexed => ?_
    refine .last ((append_writes hchunk [']']).frame fun c x h => ?_) fun _ => .pure _ fun c h =>
      ⟨rfl, _, rfl, h.2⟩
    exact h.imp fun item indexed hitem => hitem.append x
  | .obj fields =>
    rw [encodeRoot, stringify, List.cons_append, ← List.singleton_append]
    refine WritesText.bind (append_writes hchunk ['\x7b']) fun _ => ?_
    have hids : false = true → ∀ child, (idKey, child) ∈ fields → HasText child := fun h => nomatch h
    have hfields := encodeIndexedFields_writes numberText hchunk false hids true [] .empty none
    refine WritesText.bind (hfields.weaken (fun c _ => fieldsDelimited_nil numberText c) fun _ _ h =>
      h) fun result => ?_
    exact .last ((append_writes hchunk ['\x7d']).frame fun c x h => h.append x) fun _ =>
      .pure _ fun c h => ⟨rfl, _, rfl, h.2⟩

theorem serialise_ok {v : JsonValue ν} (hids : IdsHaveText v) :
    ∃ revision, serialise chunkBytes numberText v = .ok revision ∧
      revision.chunks.flatten = utf8Bytes (stringify numberText v) ∧
      IndexDelimits numberText revision.chunks.flatten revision.index v := by
  have hempty : ChunkWriter.empty.Valid chunkBytes := ⟨Nat.zero_le _, rfl⟩
  obtain ⟨index, w, hroot, -, hcontent, hindex⟩ :=
    encodeRoot_writes numberText hchunk hids .empty hempty trivial
  have hflatten : w.flush.chunks.flatten = w.content := by
    rw [← w.content_flush, ChunkWriter.content, w.buffer_flush, List.append_nil]
  refine ⟨⟨w.flush.chunks, w.flush.bytes, index⟩, ?_, ?_, ?_⟩
  · rw [serialise, hroot]
    rfl
  · rw [hflatten, hcontent]
    rfl
  · rwa [hflatten]

theorem serialise_error {v : JsonValue ν} (hids : ¬IdsHaveText v) :
    serialise chunkBytes numberText v = .error .typeError := by
  match v with
  | .leaf a => exact absurd trivial hids
  | .obj fields => exact absurd trivial hids
  | .arr items =>
    simp only [IdsHaveText] at hids
    push Not at hids
    obtain ⟨fields, hfields, child, hchild, hnot⟩ := hids
    have hempty : ChunkWriter.empty.Valid chunkBytes := ⟨Nat.zero_le _, rfl⟩
    have hroot : encodeRoot chunkBytes numberText (.arr items) .empty = .error .typeError := by
      rw [encodeRoot]
      refine (append_writes hchunk ['[']).bind_error (fun _ w hw => ?_) hempty trivial
      exact bind_of_error (encodeIndexedItems_error numberText hchunk hfields hchild hnot true hw)
    rw [serialise, hroot]
    rfl

end

def chunkRef {Hash : Type} (objects : ObjectStore Hash) (part : List UInt8) : ChunkRef Hash :=
  ⟨objects.sha256 part, some part.length⟩

theorem stored_chunkRef {Hash : Type} [DecidableEq Hash] {objects : ObjectStore Hash}
    {parts : List (List UInt8)}
    (h : ∀ part ∈ parts, objects.readFile (objects.sha256 part) = some part) :
    Stored objects (parts.map (chunkRef objects)) parts := by
  induction parts with
  | nil => exact .nil
  | cons part parts ih =>
    refine .cons ?_ (ih fun p hp => h p (List.mem_cons_of_mem _ hp))
    simp [readChunk, chunkRef, h part List.mem_cons_self]

/-- The snapshot is the UTF-8 bytes of `JSON.stringify`, every place of its index is the JSON of that
item or field, and wherever its bytes are cut into chunks the parser returns what `JSON.parse` makes
of the text. -/
def RoundTrips (chunkBytes : Nat) (number : List CodeUnit → ν) (v : JsonValue ν) : Prop :=
  ∃ revision, serialise chunkBytes numberText v = .ok revision ∧
    revision.chunks.flatten = utf8Bytes (stringify numberText v) ∧
    IndexDelimits numberText revision.chunks.flatten revision.index v ∧
    (∃ parsed, Parses number (charsUnits (stringify numberText v)) parsed) ∧
    ∀ parsed, Parses number (charsUnits (stringify numberText v)) parsed →
      ∀ (Hash : Type) [DecidableEq Hash] (objects : ObjectStore Hash) (parts : List (List UInt8)),
        parts.flatten = revision.chunks.flatten →
        (∀ part ∈ parts, objects.readFile (objects.sha256 part) = some part) →
        ∃ n, ∀ fuel, n ≤ fuel →
          (parse objects number fuel).run' (.ofChunks (parts.map (chunkRef objects))) = .ok parsed

theorem snapshot_round_trips_iff {chunkBytes : Nat} (hchunk : 4 ≤ chunkBytes)
    (number : List CodeUnit → ν) (v : JsonValue ν) :
    RoundTrips numberText chunkBytes number v ↔ IdsHaveText v := by
  constructor
  · rintro ⟨revision, hok, -⟩
    by_contra hids
    rw [serialise_error numberText hchunk hids] at hok
    cases hok
  · intro hids
    obtain ⟨revision, hok, hbytes, hindex⟩ := serialise_ok numberText hchunk hids
    refine ⟨revision, hok, hbytes, hindex, exists_parses number v, ?_⟩
    rintro parsed ⟨before, d, after, htext, rfl⟩ Hash _ objects parts hparts hobjects
    exact parse_chunks (stored_chunkRef hobjects) (hparts.trans hbytes) htext

def zeroText : Unit → Numeral := fun _ => ⟨['0'], by decide⟩

def itemWithId (id : JsonValue Unit) : JsonValue Unit :=
  .arr [.obj [(idKey, id)], .leaf (.number ())]

theorem snapshot_round_trips_iff_lone_surrogate :
    4 ≤ snapshotChunkBytes ∧
      RoundTrips zeroText snapshotChunkBytes (fun _ => ())
        (itemWithId (.leaf (.string [0xd800]))) := by
  refine ⟨by decide, (snapshot_round_trips_iff zeroText (by decide) (fun _ => ()) _).mpr fun fields
    hfields child hchild => ?_⟩
  obtain rfl : fields = [(idKey, .leaf (.string [0xd800]))] := by simpa using hfields
  obtain rfl : child = .leaf (.string [0xd800]) := by simpa using hchild
  trivial

theorem id_without_text_is_not_written :
    ¬RoundTrips zeroText snapshotChunkBytes (fun _ => ())
      (itemWithId (.obj [(toStringKey, .leaf .null)])) := by
  rintro ⟨revision, hok, -⟩
  have hids : ¬IdsHaveText (itemWithId (.obj [(toStringKey, .leaf .null)])) := by
    intro h
    exact h _ List.mem_cons_self _ List.mem_cons_self List.mem_cons_self
  rw [serialise_error zeroText (by decide) hids] at hok
  cases hok

end JevCode.Sdk
