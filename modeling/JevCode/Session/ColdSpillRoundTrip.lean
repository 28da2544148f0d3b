import JevCode.Session.ColdSpill

namespace JevCode.Session.ColdSpill

open JevCode.Data JevCode.Text

variable {ν R : Type}

def spilledAt (codec : JsonCodec ν) (groups : List (Nat × ContentBlock ν R)) (p : Nat)
    (field : BlockField) :
    Option (ContentBlock ν R) :=
  ((groups.find? (·.1 = p)).map Prod.snd).filter fun block =>
    isSpilled codec block && (block.field = field)

variable (codec : JsonCodec ν) {groups : List (Nat × ContentBlock ν R)}

theorem spilledAt_eq_some (hsorted : groups.Pairwise (·.1 < ·.1)) {p : Nat} {field : BlockField}
    {block : ContentBlock ν R} : spilledAt codec groups p field = some block ↔
      (p, block) ∈ groups ∧ isSpilled codec block = true ∧ block.field = field := by
  unfold spilledAt
  simp only [Option.filter_eq_some_iff, Option.map_eq_some_iff, Bool.and_eq_true, decide_eq_true_eq]
  refine and_congr_left fun _ => ?_
  constructor
  · rintro ⟨g, hg, rfl⟩
    have hp : g.1 = p := by simpa using List.find?_some hg
    rw [← hp]
    exact List.mem_of_find?_eq_some hg
  · intro hmem
    have hsome : (groups.find? (·.1 = p)).isSome = true :=
      List.find?_isSome.mpr ⟨(p, block), hmem, by simp⟩
    obtain ⟨g, hg⟩ := Option.isSome_iff_exists.mp hsome
    have hp : g.1 = p := by simpa using List.find?_some hg
    have heq := eq_of_pairwise hsorted (List.mem_of_find?_eq_some hg) hmem hp
    exact ⟨g, hg, congrArg Prod.snd heq⟩

theorem mem_writes (hargs : ∀ g ∈ groups, HasObjectArguments g.2) {write : ColdSpillWrite} :
    write ∈ (spillGroups codec groups).2 ↔
      ∃ g ∈ groups, isSpilled codec g.2 = true ∧ write = writeOf codec g.1 g.2 := by
  simp only [spillGroups, List.mem_flatMap]
  refine exists_congr fun g => and_congr_right fun hg => ?_
  rw [coldSpillContentBlock_eq codec (hargs g hg)]
  cases isSpilled codec g.2 <;> simp

theorem mem_of_payload? {payloads : List ColdSpillWrite} {path : Chars} {write : ColdSpillWrite}
    (h : payload? payloads path = some (.recorded write)) :
    write ∈ payloads ∧ write.path = path := by
  unfold payload? at h
  split at h
  · rename_i found hfound
    cases h
    exact ⟨List.mem_reverse.mp
      (List.mem_of_find?_eq_some hfound), by simpa using List.find?_some hfound⟩
  · split at h <;> cases h

theorem payload?_of_mem {payloads : List ColdSpillWrite} {write : ColdSpillWrite}
    (h : write ∈ payloads) :
    ∃ last, payload? payloads write.path = some (.recorded last) := by
  have hfound : (payloads.reverse.find? (·.path = write.path)).isSome = true :=
    List.find?_isSome.mpr ⟨write, List.mem_reverse.mpr h, by simp⟩
  obtain ⟨last, hlast⟩ := Option.isSome_iff_exists.mp hfound
  exact ⟨last, by rw [payload?, hlast]⟩

theorem payload?_ne_inherited {payloads : List ColdSpillWrite} {path : Chars} (hdot : '.' ∈ path) :
    payload? payloads path ≠ some .inherited := by
  have hnames : ∀ name ∈ inheritedNames, '.' ∉ name := by decide +kernel
  intro h
  unfold payload? at h
  split at h
  · cases h
  · split at h
    · rename_i hinherited
      rw [Bool.and_eq_true, List.any_eq_true] at hinherited
      obtain ⟨name, hname, heq⟩ := hinherited.2
      obtain rfl : name = path := of_decide_eq_true heq
      exact hnames name hname hdot
    · cases h

theorem dot_mem_blockPath (p : Nat) (field : BlockField) : '.' ∈ blockPath p field :=
  List.mem_append_right _ List.mem_cons_self

theorem payload?_blockPath (hsorted : groups.Pairwise (·.1 < ·.1))
    (hargs : ∀ g ∈ groups, HasObjectArguments g.2) (p : Nat) (field : BlockField) :
    payload? (spillGroups codec groups).2 (blockPath p field) =
      (spilledAt codec groups p field).map fun block => .recorded (writeOf codec p block) := by
  have hfound : ∀ write, payload? (spillGroups codec groups).2 (blockPath p field) =
      some (.recorded write) →
      ∃ block, spilledAt codec groups p field = some block ∧ write = writeOf codec p block := by
    intro write hwrite
    obtain ⟨hmem, hpath⟩ := mem_of_payload? hwrite
    obtain ⟨g, hg, hspilled, rfl⟩ := (mem_writes codec hargs).mp hmem
    rw [path_writeOf] at hpath
    obtain ⟨rfl, hfield⟩ := blockPath_injective hpath
    exact ⟨g.2, (spilledAt_eq_some codec hsorted).mpr ⟨hg, hspilled, hfield⟩, rfl⟩
  cases hs : spilledAt codec groups p field with
  | none =>
    cases hp : payload? (spillGroups codec groups).2 (blockPath p field) with
    | none => rfl
    | some ref =>
      cases ref with
      | recorded write =>
        obtain ⟨block, hblock, -⟩ := hfound write hp
        rw [hs] at hblock
        cases hblock
      | inherited => exact absurd hp (payload?_ne_inherited (dot_mem_blockPath p field))
  | some block =>
    obtain ⟨hmem, hspilled, hfield⟩ := (spilledAt_eq_some codec hsorted).mp hs
    have hwritten := (mem_writes codec hargs).mpr ⟨(p, block), hmem, hspilled, rfl⟩
    obtain ⟨write, hwrite⟩ := payload?_of_mem hwritten
    rw [path_writeOf, hfield] at hwrite
    obtain ⟨block', hblock', rfl⟩ := hfound write hwrite
    rw [hs] at hblock'
    cases hblock'
    exact hwrite

def isRecorded (codec : JsonCodec ν) (groups : List (Nat × ContentBlock ν R))
    (path : Chars) : Bool :=
  (groups.any fun g => isSpilled codec g.2 && (blockPath g.1 g.2.field = path)) ||
    ((groups.any fun g => isSpilled codec g.2) && inheritedNames.any (· = path))

theorem isEmpty_writes (hargs : ∀ g ∈ groups, HasObjectArguments g.2) :
    (!(spillGroups codec groups).2.isEmpty) = groups.any fun g => isSpilled codec g.2 := by
  rw [Bool.eq_iff_iff, Bool.not_eq_true', List.isEmpty_eq_false_iff_exists_mem, List.any_eq_true]
  constructor
  · rintro ⟨write, hwrite⟩
    obtain ⟨g, hg, hspilled, -⟩ := (mem_writes codec hargs).mp hwrite
    exact ⟨g, hg, hspilled⟩
  · rintro ⟨g, hg, hspilled⟩
    exact ⟨_, (mem_writes codec hargs).mpr ⟨g, hg, hspilled, rfl⟩⟩

theorem isSome_payload? (hargs : ∀ g ∈ groups, HasObjectArguments g.2) (path : Chars) :
    (payload? (spillGroups codec groups).2 path).isSome = isRecorded codec groups path := by
  rw [isRecorded, ← isEmpty_writes codec hargs]
  have hrecorded : ((spillGroups codec groups).2.reverse.find? (·.path = path)).isSome =
      groups.any fun g => isSpilled codec g.2 && (blockPath g.1 g.2.field = path) := by
    rw [Bool.eq_iff_iff, List.find?_isSome, List.any_eq_true]
    constructor
    · rintro ⟨write, hwrite, hpath⟩
      obtain ⟨g, hg, hspilled, rfl⟩ := (mem_writes codec hargs).mp (List.mem_reverse.mp hwrite)
      rw [path_writeOf] at hpath
      exact ⟨g, hg, by rw [hspilled, hpath]; rfl⟩
    · rintro ⟨g, hg, hspilled⟩
      rw [Bool.and_eq_true] at hspilled
      have hwritten := (mem_writes codec hargs).mpr ⟨g, hg, hspilled.1, rfl⟩
      exact ⟨_, List.mem_reverse.mpr hwritten, by rw [path_writeOf]; exact hspilled.2⟩
  rw [← hrecorded, payload?]
  split
  case h_1 write hfound => simp [hfound]
  case h_2 hfound =>
    rw [hfound]
    cases !(spillGroups codec groups).2.isEmpty && inheritedNames.any (· = path) <;> rfl

mutual

def holdsReference (recorded : Chars → Bool) : Json ν → Bool
  | .leaf _ => false
  | .arr items => itemsHoldReference recorded items
  | .obj fields =>
    if isReference fields then (refPath? fields).any recorded
      else fieldsHoldReference recorded fields

def itemsHoldReference (recorded : Chars → Bool) : List (Json ν) → Bool
  | [] => false
  | item :: items => holdsReference recorded item || itemsHoldReference recorded items

def fieldsHoldReference (recorded : Chars → Bool) : List (Chars × Json ν) → Bool
  | [] => false
  | (key, value) :: fields =>
    (!(key = evictedContentKey) && holdsReference recorded value) ||
      fieldsHoldReference recorded fields

end

section

variable {codec} (sha256 : Chars → String) {payloads : List ColdSpillWrite}

def Unrecorded (payloads : List ColdSpillWrite) (path : Chars) : Prop :=
  payload? payloads path = none ∧ ∀ u, payload? payloads (path ++ '.' :: u) = none

theorem Unrecorded.below {path : Chars} (h : Unrecorded payloads path) (u : Chars) :
    Unrecorded payloads (path ++ '.' :: u) := by
  refine ⟨h.2 u, fun v => ?_⟩
  rw [List.append_assoc, List.cons_append]
  exact h.2 (u ++ '.' :: v)

def NoSentinel (codec : JsonCodec ν) (sha256 : Chars → String)
    (payloads : List ColdSpillWrite) : Prop :=
  ∀ path ref value, payload? payloads path = some ref →
    rehydrateColdSpillRef codec sha256 ref = some value →
    isColdSpillArgumentsSentinel value = false

theorem isSentinel_of_isReference {fields : List (Chars × Json ν)} (h : isReference fields = true) :
    isColdSpillArgumentsSentinel (.obj fields) = true := by
  unfold isReference at h
  rw [Bool.and_eq_true] at h
  exact h.1

variable {sha256}

mutual

theorem rehydrateColdSpillValue_eq_iff (hno : NoSentinel codec sha256 payloads) :
    ∀ (value : Json ν) (path : Chars), Unrecorded payloads path →
      (rehydrateColdSpillValue codec sha256 payloads path value = some value ↔
        holdsReference (fun path => (payload? payloads path).isSome) value = false)
  | .leaf a, path, hpath => by
    rw [rehydrateColdSpillValue, hpath.1, holdsReference]
    simp
  | .arr items, path, hpath => by
    rw [rehydrateColdSpillValue, hpath.1, holdsReference,
      ← rehydrateItems_eq_iff hno items path 0 hpath]
    simp [Option.map_eq_some_iff]
  | .obj fields, path, hpath => by
    rw [rehydrateColdSpillValue, hpath.1, holdsReference]
    simp only
    cases href : isReference fields with
    | false =>
      simp only [Bool.false_eq_true, if_false, Option.map_eq_some_iff, JsonTree.obj.injEq,
        exists_eq_right]
      exact rehydrateFields_eq_iff hno fields path hpath
    | true =>
      simp only [if_true]
      cases hrefPath : refPath? fields with
      | none => simp
      | some refPath =>
        simp only [Option.bind_some, Option.any_some]
        cases hpayload : payload? payloads refPath with
        | none => simp
        | some ref =>
          simp only [Option.isSome_some, Bool.true_eq_false, iff_false]
          intro heq
          have hsentinel := isSentinel_of_isReference href
          rw [hno refPath ref _ hpayload heq] at hsentinel
          cases hsentinel

theorem rehydrateItems_eq_iff (hno : NoSentinel codec sha256 payloads) :
    ∀ (items : List (Json ν)) (path : Chars) (index : Nat), Unrecorded payloads path →
      (rehydrateItems codec sha256 payloads path index items = some items ↔
        itemsHoldReference (fun path => (payload? payloads path).isSome) items = false)
  | [], _, _, _ => by simp [rehydrateItems, itemsHoldReference]
  | item :: items, path, index, hpath => by
    have hitem :=
      rehydrateColdSpillValue_eq_iff hno item (path ++ '.' :: Nat.toDigits 10 index) (hpath.below _)
    rw [rehydrateItems, itemsHoldReference, Bool.or_eq_false_iff, ← hitem,
      ← rehydrateItems_eq_iff hno items path (index + 1) hpath]
    simp [Option.bind_eq_some_iff]

theorem rehydrateFields_eq_iff (hno : NoSentinel codec sha256 payloads) :
    ∀ (fields : List (Chars × Json ν)) (path : Chars), Unrecorded payloads path →
      (rehydrateFields codec sha256 payloads path fields = some fields ↔
        fieldsHoldReference (fun path => (payload? payloads path).isSome) fields = false)
  | [], _, _ => by simp [rehydrateFields, fieldsHoldReference]
  | (key, value) :: fields, path, hpath => by
    rw [rehydrateFields, fieldsHoldReference, Bool.or_eq_false_iff,
      ← rehydrateFields_eq_iff hno fields path hpath]
    by_cases hkey : key = evictedContentKey
    · simp [hkey, Option.bind_eq_some_iff]
    · have hvalue := rehydrateColdSpillValue_eq_iff hno value (path ++ '.' :: key) (hpath.below _)
      simp [hkey, Option.bind_eq_some_iff, ← hvalue]

end

end

inductive FieldValue (ν : Type)
  | text (t : Chars)
  | json (value : Json ν)

def ContentBlock.value : ContentBlock ν R → FieldValue ν
  | .text t _ => .text t
  | .thinking t _ => .text t
  | .redactedThinking data _ => .text data
  | .image data _ => .text data
  | .toolCall args _ _ => .json args

def ContentBlock.holdsReference (recorded : Chars → Bool) : ContentBlock ν R → Bool
  | .toolCall args _ _ => ColdSpill.holdsReference recorded args
  | _ => false

/-- A block that stands at position `p` after the merging comes back: if the block that started at
index `p` was spilled in the same field, it has the same value; otherwise this block was not spilled,
or it is a tool call, which knows its path. If a tool call was not spilled, its arguments hold no
reference. -/
def ComesBack (codec : JsonCodec ν) (groups : List (Nat × ContentBlock ν R)) (p : Nat)
    (block : ContentBlock ν R) : Prop :=
  match spilledAt codec groups p block.field with
  | some other => other.value = block.value
  | none =>
    if isSpilled codec block then block.field = .arguments
    else block.holdsReference (isRecorded codec groups) = false

theorem value_eq_data {block : ContentBlock ν R} (h : block.field ≠ .arguments) (p : Nat) :
    block.value = .text (writeOf codec p block).data := by
  cases block with
  | toolCall args malformed rest => exact absurd rfl h
  | _ => rfl

def noticeIfLong (t : Chars) : Chars := if isLong t then coldSpillNotice else t

theorem isLong_coldSpillNotice : isLong coldSpillNotice = false := by decide

theorem noticeIfLong_eq_iff (t : Chars) : noticeIfLong t = t ↔ isLong t = false := by
  unfold noticeIfLong
  split
  case isTrue h =>
    refine ⟨fun heq => ?_, fun hshort => absurd h (Bool.eq_false_iff.mp hshort)⟩
    rw [← heq]
    exact isLong_coldSpillNotice
  case isFalse h => simp [Bool.eq_false_iff.mpr h]

theorem refPath?_argumentsSentinel (path : Chars) :
    refPath? [(sentinelKey, .leaf (.boolean true)), (refPathKey, string path),
      ("notice".toList, (string coldSpillNotice : Json ν))] = some path := by
  have hkey : sentinelKey ≠ refPathKey := by decide
  rw [refPath?, JsonTree.get?, if_neg hkey, JsonTree.get?, if_pos rfl]
  rfl

theorem isReference_argumentsSentinel (path : Chars) :
    isReference [(sentinelKey, .leaf (.boolean true)), (refPathKey, string path),
      ("notice".toList, (string coldSpillNotice : Json ν))] = true := by
  rw [isReference, refPath?_argumentsSentinel, JsonTree.get?, if_pos rfl]
  rfl

structure WellGrouped (codec : JsonCodec ν) (groups : List (Nat × ContentBlock ν R)) : Prop where
  sorted : groups.Pairwise (·.1 < ·.1)
  args : ∀ g ∈ groups, HasObjectArguments g.2
  json : ∀ g ∈ groups, ∀ args malformed rest, g.2 = .toolCall args malformed rest →
    codec.parse (codec.stringify args) = some args

section

variable {codec} {sha256 : Chars → String} (h : WellGrouped codec groups)

include h

theorem string_comesBack {field : BlockField} (hfield : field ≠ .arguments) (p : Nat) (s t : Chars) :
    rehydrateString (spillGroups codec groups).2 (blockPath p field) s = some t ↔
      match spilledAt codec groups p field with
      | some other => other.value = .text t
      | none => s = t := by
  unfold rehydrateString
  rw [payload?_blockPath codec h.sorted h.args]
  cases hs : spilledAt codec groups p field with
  | none => exact Option.some_inj
  | some other =>
    have hother := ((spilledAt_eq_some codec h.sorted).mp hs).2.2
    simp only [Option.map_some, value_eq_data codec (hother ▸ hfield) p, FieldValue.text.injEq,
      Option.some_inj]

theorem rehydrateColdSpillRef_writeOf {i : Nat} {args : Json ν} {malformed : Bool} {rest : R}
    (hmem : (i, .toolCall args malformed rest) ∈ groups) (p : Nat) :
    rehydrateColdSpillRef codec sha256
      (.recorded (writeOf codec p (.toolCall args malformed rest))) = some args := by
  change some ((codec.parse (codec.stringify args)).getD _) = some args
  rw [h.json _ hmem args malformed rest rfl]
  rfl

theorem noSentinel_writes : NoSentinel codec sha256 (spillGroups codec groups).2 := by
  intro path ref value href hvalue
  cases ref with
  | inherited => cases hvalue
  | recorded write =>
    obtain ⟨hmem, -⟩ := mem_of_payload? href
    obtain ⟨⟨i, block⟩, hg, hspilled, rfl⟩ := (mem_writes codec h.args).mp hmem
    cases block with
    | toolCall args malformed rest =>
      rw [rehydrateColdSpillRef_writeOf h hg, Option.some_inj] at hvalue
      simp only [isSpilled, Bool.and_eq_true, Bool.not_eq_true'] at hspilled
      rw [← hvalue]
      exact hspilled.1
    | _ =>
      cases hvalue
      rfl

theorem unrecorded_arguments {p : Nat} (hp : spilledAt codec groups p .arguments = none) :
    Unrecorded (spillGroups codec groups).2 (blockPath p .arguments) := by
  refine ⟨?_, fun u => ?_⟩
  · rw [payload?_blockPath codec h.sorted h.args, hp]
    rfl
  · cases hpayload : payload? (spillGroups codec groups).2 (blockPath p .arguments ++ '.' :: u) with
    | none => rfl
    | some ref =>
      cases ref with
      | inherited => exact absurd hpayload (payload?_ne_inherited (by simp))
      | recorded write =>
        obtain ⟨hmem, hpath⟩ := mem_of_payload? hpayload
        obtain ⟨g, -, -, rfl⟩ := (mem_writes codec h.args).mp hmem
        rw [path_writeOf] at hpath
        exact absurd hpath.symm (blockPath_ne_nested p g.1 g.2.field u)

theorem rehydrate_argumentsSentinel {i : Nat} {args : Json ν} {malformed : Bool} {rest : R}
    (hmem : (i, .toolCall args malformed rest) ∈ groups)
    (hspilled : isSpilled codec (.toolCall args malformed rest) = true) {path : Chars}
    (hpath : payload? (spillGroups codec groups).2 path = none) :
    rehydrateColdSpillValue codec sha256 (spillGroups codec groups).2 path
      (argumentsSentinel (blockPath i .arguments)) = some args := by
  have hown : spilledAt codec groups i .arguments = some (.toolCall args malformed rest) :=
    (spilledAt_eq_some codec h.sorted).mpr ⟨hmem, hspilled, rfl⟩
  have hpayload := payload?_blockPath codec h.sorted h.args i .arguments
  rw [hown, Option.map_some] at hpayload
  rw [argumentsSentinel, rehydrateColdSpillValue, hpath]
  simp only [isReference_argumentsSentinel, if_true, refPath?_argumentsSentinel,
    Option.bind_some, hpayload]
  exact rehydrateColdSpillRef_writeOf h hmem i

end

theorem rehydrateColdSpillValue_of_payload {sha256 : Chars → String} {payloads : List ColdSpillWrite}
    {path : Chars} {ref : PayloadRef} (href : payload? payloads path = some ref) (value : Json ν) :
    rehydrateColdSpillValue codec sha256 payloads path value =
      rehydrateColdSpillRef codec sha256 ref := by
  cases value <;> rw [rehydrateColdSpillValue, href]

theorem coldSpillArguments_eq {args : Json ν} (malformed : Bool) (rest : R)
    (hargs : HasObjectArguments (.toolCall args malformed rest)) (path : Chars) :
    (coldSpillArguments codec args path).1 =
      if isSpilled codec (.toolCall args malformed rest) then argumentsSentinel path else args := by
  obtain ⟨fields, rfl⟩ := hargs
  cases hs : isColdSpillArgumentsSentinel (.obj fields) <;>
    cases hl : isLong (codec.stringify (.obj fields)) <;>
    simp [coldSpillArguments, coldSpillSubtreeValue, coldSpillJson, isSpilled, hs, hl]

section

variable {codec} {sha256 : Chars → String} (h : WellGrouped codec groups)

include h

variable (sha256) in
theorem rehydrate_spilledAt {p : Nat} {other : ContentBlock ν R}
    (hs : spilledAt codec groups p .arguments = some other) :
    ∃ args malformed rest, (p, .toolCall args malformed rest) ∈ groups ∧
      other = .toolCall args malformed rest ∧
      ∀ value, rehydrateColdSpillValue codec sha256 (spillGroups codec groups).2
        (blockPath p .arguments) value =
        some args := by
  obtain ⟨hother, -, hfield⟩ := (spilledAt_eq_some codec h.sorted).mp hs
  have hpayload := payload?_blockPath codec h.sorted h.args p .arguments
  rw [hs, Option.map_some] at hpayload
  cases other with
  | toolCall args malformed rest =>
    refine ⟨args, malformed, rest, hother, rfl, fun value => ?_⟩
    rw [rehydrateColdSpillValue_of_payload codec hpayload, rehydrateColdSpillRef_writeOf h hother]
  | _ => cases hfield

theorem arguments_comeBack {i : Nat} {args : Json ν} {malformed : Bool} {rest : R}
    (hmem : (i, .toolCall args malformed rest) ∈ groups) (p : Nat) :
    rehydrateColdSpillValue codec sha256 (spillGroups codec groups).2 (blockPath p .arguments)
        (coldSpillArguments codec args (blockPath i .arguments)).1 = some args ↔
      ComesBack codec groups p (.toolCall args malformed rest) := by
  rw [ComesBack, ContentBlock.field, coldSpillArguments_eq codec malformed rest (h.args _ hmem)]
  cases hs : spilledAt codec groups p .arguments with
  | some other =>
    obtain ⟨args', malformed', rest', -, rfl, hback⟩ := rehydrate_spilledAt sha256 h hs
    rw [hback]
    simp only [ContentBlock.value, FieldValue.json.injEq, Option.some_inj]
  | none =>
    have hunrecorded := unrecorded_arguments h hs
    cases hspilled : isSpilled codec (.toolCall args malformed rest) with
    | true =>
      simp only [if_true, iff_true]
      exact rehydrate_argumentsSentinel h hmem hspilled hunrecorded.1
    | false =>
      simp only [Bool.false_eq_true, if_false, ContentBlock.holdsReference]
      rw [rehydrateColdSpillValue_eq_iff (noSentinel_writes h) args _ hunrecorded]
      simp only [isSome_payload? codec h.args]

variable (sha256) in
theorem rehydrated_isObject {i : Nat} {args : Json ν} {malformed : Bool} {rest : R}
    (hmem : (i, .toolCall args malformed rest) ∈ groups) {p : Nat} (value : Json ν)
    (hvalue : rehydrateColdSpillValue codec sha256 (spillGroups codec groups).2
      (blockPath p .arguments)
      (coldSpillArguments codec args (blockPath i .arguments)).1 = some value) :
    (∃ fields, value = .obj fields) ∨ isColdSpillArgumentsSentinel args = true := by
  obtain ⟨fields, rfl⟩ := h.args _ hmem
  rw [coldSpillArguments_eq codec malformed rest (h.args _ hmem)] at hvalue
  cases hs : spilledAt codec groups p .arguments with
  | some other =>
    obtain ⟨args', malformed', rest', hother, -, hback⟩ := rehydrate_spilledAt sha256 h hs
    rw [hback] at hvalue
    exact .inl (Option.some.inj hvalue ▸ h.args _ hother)
  | none =>
    have hunrecorded := unrecorded_arguments h hs
    cases hspilled : isSpilled codec (.toolCall (.obj fields) malformed rest) with
    | true =>
      rw [hspilled, if_pos rfl, rehydrate_argumentsSentinel h hmem hspilled hunrecorded.1] at hvalue
      exact .inl ⟨fields, (Option.some.inj hvalue).symm⟩
    | false =>
      cases href : isReference fields with
      | true => exact .inr (isSentinel_of_isReference href)
      | false =>
        rw [hspilled, if_neg Bool.false_ne_true, rehydrateColdSpillValue, hunrecorded.1] at hvalue
        simp only [href, Bool.false_eq_true, if_false] at hvalue
        obtain ⟨fields', -, rfl⟩ := Option.map_eq_some_iff.mp hvalue
        exact .inl ⟨fields', rfl⟩

end

theorem comesBack_iff_of_string {block : ContentBlock ν R}
    (hfield : block.field ≠ .arguments) (p : Nat) :
    ComesBack codec groups p block ↔
      match spilledAt codec groups p block.field with
      | some other => other.value = block.value
      | none => isSpilled codec block = false := by
  have href : block.holdsReference (isRecorded codec groups) = false := by
    cases block with
    | toolCall args malformed rest => exact absurd rfl hfield
    | _ => rfl
  unfold ComesBack
  cases spilledAt codec groups p block.field with
  | some other => exact Iff.rfl
  | none => cases isSpilled codec block <;> simp [hfield, href]

theorem coldSpillText_eq (t path : Chars) : (coldSpillText t path).1 = noticeIfLong t := by
  unfold coldSpillText noticeIfLong
  split <;> rfl

section

variable {codec} {sha256 : Chars → String} (h : WellGrouped codec groups)

include h

theorem block_comesBack {i : Nat} {block : ContentBlock ν R} (hmem : (i, block) ∈ groups) (p : Nat) :
    rehydrateBlock codec sha256 (spillGroups codec groups).2 p
      (coldSpillContentBlock codec i block).1 = some block ↔
      ComesBack codec groups p block := by
  cases block with
  | text t rest =>
    simp only [coldSpillContentBlock, coldSpillText_eq, rehydrateBlock, Option.map_eq_some_iff,
      ContentBlock.text.injEq, and_true, exists_eq_right]
    rw [string_comesBack h (by decide), comesBack_iff_of_string codec (by simp [ContentBlock.field])]
    simp only [noticeIfLong_eq_iff]
    rfl
  | thinking t rest =>
    simp only [coldSpillContentBlock, coldSpillText_eq, rehydrateBlock, Option.map_eq_some_iff,
      ContentBlock.thinking.injEq, and_true, exists_eq_right]
    rw [string_comesBack h (by decide), comesBack_iff_of_string codec (by simp [ContentBlock.field])]
    simp only [noticeIfLong_eq_iff]
    rfl
  | redactedThinking data rest =>
    simp only [coldSpillContentBlock, coldSpillText_eq, rehydrateBlock, Option.map_eq_some_iff,
      ContentBlock.redactedThinking.injEq, and_true, exists_eq_right]
    rw [string_comesBack h (by decide), comesBack_iff_of_string codec (by simp [ContentBlock.field])]
    simp only [noticeIfLong_eq_iff]
    rfl
  | image data rest =>
    simp only [coldSpillContentBlock, rehydrateBlock, Option.map_eq_some_iff,
      ContentBlock.image.injEq, and_true, exists_eq_right]
    rw [string_comesBack h (by decide), comesBack_iff_of_string codec (by simp [ContentBlock.field])]
    simp only [isSpilled]
    rfl
  | toolCall args malformed rest =>
    simp only [coldSpillContentBlock, rehydrateBlock, Option.map_eq_some_iff,
      ContentBlock.toolCall.injEq, and_true, exists_eq_right]
    exact arguments_comeBack h hmem p

end

section

theorem enforced_ne_sentinel {args args' : Json ν} {malformed malformed' : Bool} {rest : R}
    (hobject : ∀ fields, args ≠ .obj fields)
    (hsentinel : isColdSpillArgumentsSentinel args' = true) :
    enforceToolCallArgumentObject (.toolCall args malformed rest) ≠
      .toolCall args' malformed' rest := by
  intro heq
  have hargs' : args' = .obj [(recoveryNoticeKey, string (recoveryNotice args))] := by
    cases args with
    | obj fields => exact absurd rfl (hobject fields)
    | leaf a => exact (ContentBlock.toolCall.inj heq).1.symm
    | arr items => exact (ContentBlock.toolCall.inj heq).1.symm
  have hkey : recoveryNoticeKey ≠ sentinelKey := by decide
  rw [hargs', isColdSpillArgumentsSentinel, JsonTree.get?, if_neg hkey] at hsentinel
  cases hsentinel

variable {codec} {sha256 : Chars → String} (h : WellGrouped codec groups)

include h

theorem enforced_eq_iff {i : Nat} {block : ContentBlock ν R} (hmem : (i, block) ∈ groups) (p : Nat) :
    (rehydrateBlock codec sha256 (spillGroups codec groups).2 p
      (coldSpillContentBlock codec i block).1).map
        enforceToolCallArgumentObject = some block ↔
      rehydrateBlock codec sha256 (spillGroups codec groups).2 p
        (coldSpillContentBlock codec i block).1 =
        some block := by
  cases block with
  | toolCall args malformed rest =>
    simp only [coldSpillContentBlock, rehydrateBlock]
    obtain ⟨fields, hfields⟩ := h.args _ hmem
    have hrehydrated := rehydrated_isObject sha256 h hmem (p := p)
    revert hrehydrated
    generalize rehydrateColdSpillValue codec sha256 (spillGroups codec groups).2
      (blockPath p .arguments)
      (coldSpillArguments codec args (blockPath i .arguments)).1 = rehydrated
    intro hrehydrated
    cases rehydrated with
    | none => exact Iff.rfl
    | some value =>
      simp only [Option.map_some, Option.some_inj]
      by_cases hobject : ∃ fields, value = .obj fields
      · obtain ⟨fields', rfl⟩ := hobject
        exact Iff.rfl
      · have hne : ∀ fields, value ≠ .obj fields := fun fields heq => hobject ⟨fields, heq⟩
        have hsentinel := (hrehydrated value rfl).resolve_left hobject
        refine iff_of_false (enforced_ne_sentinel hne hsentinel) fun heq => ?_
        exact hne fields ((ContentBlock.toolCall.inj heq).1.trans hfields)
  | _ =>
    simp only [coldSpillContentBlock, rehydrateBlock, Option.map_map]
    exact Iff.rfl

end

end JevCode.Session.ColdSpill
