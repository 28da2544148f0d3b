import JevCode.Data.JsonTree
import JevCode.Text.Utf8
import Mathlib.Data.List.Count
import Mathlib.Data.List.Nodup
import Mathlib.Data.List.TakeWhile

/-! `session-manager.ts`: the long strings of a compacted message go to a blob store, each under the
path it was found at, and are put back where a path has a payload. There are no resident blobs here,
and the blob store returns what was stored. -/

namespace JevCode.Session.ColdSpill

open JevCode.Data JevCode.Text

variable {ν R : Type}

abbrev Json (ν : Type) := JsonTree Chars (JsonScalar ν)

/-- A block with the field that may be spilled, and the rest of it.  `malformed` stands for
`incompleteArguments` with the reason `"malformed"`. -/
inductive ContentBlock (ν R : Type)
  | text (text : Chars) (rest : R)
  | thinking (thinking : Chars) (rest : R)
  | redactedThinking (data : Chars) (rest : R)
  | image (data : Chars) (rest : R)
  | toolCall (arguments : Json ν) (malformed : Bool) (rest : R)

inductive BlockField
  | text
  | thinking
  | data
  | arguments
  deriving DecidableEq

def BlockField.name : BlockField → Chars
  | text => "text".toList
  | thinking => "thinking".toList
  | data => "data".toList
  | arguments => "arguments".toList

structure JsonCodec (ν : Type) where
  stringify : Json ν → Chars
  parse : Chars → Option (Json ν)

inductive Encoding
  | utf8
  | json
  deriving DecidableEq

structure ColdSpillWrite where
  path : Chars
  encoding : Encoding
  data : Chars
  originalChars : Nat
  deriving DecidableEq

def coldSpillNotice : Chars := "[Compacted history content evicted to durable cold storage]".toList

def sentinelKey : Chars := "__gjcColdSpillArguments".toList

def refPathKey : Chars := "refPath".toList

def coldSpillMinChars : Nat := 1024

def isLong (s : Chars) : Bool := coldSpillMinChars ≤ unitLength s

def blockPath (index : Nat) (field : BlockField) : Chars :=
  "message.content.".toList ++ Nat.toDigits 10 index ++ '.' :: field.name

def string (s : Chars) : Json ν := .leaf (.string s)

def isTrue : Option (Json ν) → Bool
  | some (.leaf (.boolean true)) => true
  | _ => false

def isColdSpillArgumentsSentinel : Json ν → Bool
  | .obj fields => isTrue (JsonTree.get? sentinelKey fields)
  | _ => false

def textWrite (value path : Chars) : ColdSpillWrite := ⟨path, .utf8, value, unitLength value⟩

def jsonWrite (json path : Chars) : ColdSpillWrite := ⟨path, .json, json, unitLength json⟩

def argumentsSentinel (path : Chars) : Json ν :=
  .obj [(sentinelKey, .leaf (.boolean true)), (refPathKey, string path),
    ("notice".toList, string coldSpillNotice)]

section

variable (codec : JsonCodec ν)

def coldSpillJson (value : Json ν) (path : Chars) : Json ν × List ColdSpillWrite :=
  let json := codec.stringify value
  if isLong json then (argumentsSentinel path, [jsonWrite json path]) else (value, [])

def coldSpillSubtreeValue (value : Json ν) (path : Chars) : Json ν × List ColdSpillWrite :=
  if isColdSpillArgumentsSentinel value then (value, [])
  else
    match value with
    | .leaf (.string s) =>
      if isLong s then (string coldSpillNotice, [textWrite s path]) else (value, [])
    | .leaf _ => (value, [])
    | .arr _ => coldSpillJson codec value path
    | .obj _ => coldSpillJson codec value path

def coldSpillText (value path : Chars) : Chars × List ColdSpillWrite :=
  if isLong value then (coldSpillNotice, [textWrite value path]) else (value, [])

def coldSpillArguments (args : Json ν) (path : Chars) : Json ν × List ColdSpillWrite :=
  if isColdSpillArgumentsSentinel args then (args, [])
  else if isLong (codec.stringify args) then coldSpillSubtreeValue codec args path
  else (args, [])

def coldSpillContentBlock (index : Nat) : ContentBlock ν R → ContentBlock ν R × List ColdSpillWrite
  | .text text rest =>
    let (text, writes) := coldSpillText text (blockPath index .text)
    (.text text rest, writes)
  | .thinking thinking rest =>
    let (thinking, writes) := coldSpillText thinking (blockPath index .thinking)
    (.thinking thinking rest, writes)
  | .redactedThinking data rest =>
    let (data, writes) := coldSpillText data (blockPath index .data)
    (.redactedThinking data rest, writes)
  | .image data rest => (.image data rest, [])
  | .toolCall args malformed rest =>
    let (args, writes) := coldSpillArguments codec args (blockPath index .arguments)
    (.toolCall args malformed rest, writes)

def ContentBlock.text? : ContentBlock ν R → Option Chars
  | .text t _ => some t
  | _ => none

def isText (block : ContentBlock ν R) : Bool := block.text?.isSome

def joinTexts (run : List (ContentBlock ν R)) : Chars := (run.filterMap ContentBlock.text?).flatten

def spillRuns (index : Nat) : List (ContentBlock ν R) → List (ContentBlock ν R) × List ColdSpillWrite
  | [] => ([], [])
  | .text first rest :: blocks =>
    let run := .text first rest :: blocks.takeWhile isText
    let (merged, writes) := spillRuns (index + run.length) (blocks.dropWhile isText)
    let text := joinTexts run
    if isLong text then
      (.text coldSpillNotice rest :: merged, textWrite text (blockPath index .text) :: writes)
    else (run ++ merged, writes)
  | block :: blocks =>
    let (replaced, written) := coldSpillContentBlock codec index block
    let (merged, writes) := spillRuns (index + 1) blocks
    (replaced :: merged, written ++ writes)
termination_by blocks => blocks.length
decreasing_by
  · have h := (List.dropWhile_suffix (l := blocks) isText).length_le
    simp only [List.length_cons]
    omega
  · simp

def spillEach (index : Nat) : List (ContentBlock ν R) → List (ContentBlock ν R) × List ColdSpillWrite
  | [] => ([], [])
  | block :: blocks =>
    let (replaced, written) := coldSpillContentBlock codec index block
    let (next, writes) := spillEach (index + 1) blocks
    (replaced :: next, written ++ writes)

/-- A block has changed exactly if something was written. -/
def coldSpillContentBlocks (content : List (ContentBlock ν R)) :
    List (ContentBlock ν R) × List ColdSpillWrite :=
  let runs := spillRuns codec 0 content
  if runs.2 ≠ [] then runs else spillEach codec 0 content

def inheritedNames : List Chars :=
  ["constructor".toList, "__defineGetter__".toList, "__defineSetter__".toList,
    "hasOwnProperty".toList, "__lookupGetter__".toList, "__lookupSetter__".toList,
    "isPrototypeOf".toList, "propertyIsEnumerable".toList, "toString".toList, "valueOf".toList,
      "__proto__".toList, "toLocaleString".toList]

/-- What `marker.payloads[path]` finds: a recorded payload, or something inherited, which has no
`ref`. -/
inductive PayloadRef
  | recorded (write : ColdSpillWrite)
  | inherited
  deriving DecidableEq

def payload? (payloads : List ColdSpillWrite) (path : Chars) : Option PayloadRef :=
  match payloads.reverse.find? (·.path = path) with
  | some write => some (.recorded write)
  | none => if !payloads.isEmpty && inheritedNames.any (· = path) then some .inherited else none

def coldSpillUnavailable (sha256 : Chars → String) (ref : ColdSpillWrite) : Chars :=
  let hash := sha256 ref.data
  let chars := toString ref.originalChars
  s!"[Cold-spill blob unavailable: blob:sha256:{hash}; original {chars} chars unavailable]".toList

variable (sha256 : Chars → String)

def rehydrateColdSpillRef : PayloadRef → Option (Json ν)
  | .recorded write =>
    match write.encoding with
    | .utf8 => some (string write.data)
    | .json => some ((codec.parse write.data).getD (string (coldSpillUnavailable sha256 write)))
  | .inherited => none

def refPath? (fields : List (Chars × Json ν)) : Option Chars :=
  match JsonTree.get? refPathKey fields with
  | some (.leaf (.string path)) => some path
  | _ => none

def isReference (fields : List (Chars × Json ν)) : Bool :=
  isTrue (JsonTree.get? sentinelKey fields) && (refPath? fields).isSome

def evictedContentKey : Chars := "evictedContent".toList

variable (payloads : List ColdSpillWrite)

mutual

def rehydrateColdSpillValue (path : Chars) : Json ν → Option (Json ν)
  | .leaf a =>
    match payload? payloads path with
    | some ref => rehydrateColdSpillRef codec sha256 ref
    | none => some (.leaf a)
  | .arr items =>
    match payload? payloads path with
    | some ref => rehydrateColdSpillRef codec sha256 ref
    | none => (rehydrateItems path 0 items).map .arr
  | .obj fields =>
    match payload? payloads path with
    | some ref => rehydrateColdSpillRef codec sha256 ref
    | none =>
      if isReference fields then
        match (refPath? fields).bind (payload? payloads) with
        | some ref => rehydrateColdSpillRef codec sha256 ref
        | none => some (.obj fields)
      else (rehydrateFields path fields).map .obj

def rehydrateItems (path : Chars) (index : Nat) : List (Json ν) → Option (List (Json ν))
  | [] => some []
  | item :: items => do
    let item ← rehydrateColdSpillValue (path ++ '.' :: Nat.toDigits 10 index) item
    let items ← rehydrateItems path (index + 1) items
    return item :: items

def rehydrateFields (path : Chars) : List (Chars × Json ν) → Option (List (Chars × Json ν))
  | [] => some []
  | (key, value) :: fields => do
    let value ← if key = evictedContentKey then some value
      else rehydrateColdSpillValue (path ++ '.' :: key) value
    let fields ← rehydrateFields path fields
    return (key, value) :: fields

end

def rehydrateString (path : Chars) (value : Chars) : Option Chars :=
  match payload? payloads path with
  | some (.recorded write) => some write.data
  | some .inherited => none
  | none => some value

def rehydrateBlock (index : Nat) : ContentBlock ν R → Option (ContentBlock ν R)
  | .text text rest => (rehydrateString payloads (blockPath index .text) text).map (.text · rest)
  | .thinking thinking rest =>
    (rehydrateString payloads (blockPath index .thinking) thinking).map (.thinking · rest)
  | .redactedThinking data rest =>
    (rehydrateString payloads (blockPath index .data) data).map (.redactedThinking · rest)
  | .image data rest => (rehydrateString payloads (blockPath index .data) data).map (.image · rest)
  | .toolCall args malformed rest =>
    (rehydrateColdSpillValue codec sha256 payloads (blockPath index .arguments) args).map
      (.toolCall · malformed rest)

def rehydrateBlocks (index : Nat) : List (ContentBlock ν R) → Option (List (ContentBlock ν R))
  | [] => some []
  | block :: blocks => do
    let block ← rehydrateBlock codec sha256 payloads index block
    let blocks ← rehydrateBlocks (index + 1) blocks
    return block :: blocks

end

def recoveryNoticeKey : Chars := "recoveryNotice".toList

def recoveryNotice : Json ν → Chars
  | .leaf (.string s) => s
  | .leaf .null => "[Cold-spill payload for this tool call rehydrated as null, not an object]".toList
  | .leaf (.boolean _) =>
    "[Cold-spill payload for this tool call rehydrated as boolean, not an object]".toList
  | .leaf (.number _) =>
    "[Cold-spill payload for this tool call rehydrated as number, not an object]".toList
  | _ => "[Cold-spill payload for this tool call rehydrated as object, not an object]".toList

def enforceToolCallArgumentObject : ContentBlock ν R → ContentBlock ν R
  | .toolCall (.obj fields) malformed rest => .toolCall (.obj fields) malformed rest
  | .toolCall args _ rest =>
    .toolCall (.obj [(recoveryNoticeKey, string (recoveryNotice args))]) true rest
  | block => block

/-- The content of a message that `rehydrateColdSpillEntry` gives, for an assistant or another role;
`none` if it throws. -/
def rehydrateContent (codec : JsonCodec ν) (sha256 : Chars → String) (isAssistant : Bool)
    (payloads : List ColdSpillWrite) (content : List (ContentBlock ν R)) :
    Option (List (ContentBlock ν R)) :=
  (rehydrateBlocks codec sha256 payloads 0 content).map fun rehydrated =>
    if isAssistant then rehydrated.map enforceToolCallArgumentObject else rehydrated

theorem dot_not_mem_toDigits (n : Nat) : '.' ∉ Nat.toDigits 10 n := by
  intro h
  exact absurd (Nat.isDigit_of_mem_toDigits (by decide) (by decide) h) (by decide)

theorem dot_not_mem_name (field : BlockField) : '.' ∉ field.name := by
  cases field <;> decide

theorem toDigits_injective {m n : Nat} (h : Nat.toDigits 10 m = Nat.toDigits 10 n) : m = n := by
  rw [← Nat.ofDigitChars_ten_toDigits (n := m), h, Nat.ofDigitChars_ten_toDigits]

theorem name_injective {field field' : BlockField} (h : field.name = field'.name) :
    field = field' := by
  cases field <;> cases field' <;> first | rfl | exact absurd h (by decide)

theorem blockPath_injective {i j : Nat} {field field' : BlockField}
    (h : blockPath i field = blockPath j field') : i = j ∧ field = field' := by
  unfold blockPath at h
  rw [List.append_assoc, List.append_assoc] at h
  have hrest := List.append_cancel_left h
  have hdigits : ∀ n, ∀ c ∈ Nat.toDigits 10 n, decide (c ≠ '.') = true := by
    intro n c hc
    exact decide_eq_true fun hdot => dot_not_mem_toDigits n (hdot ▸ hc)
  have hindex := congrArg (List.takeWhile (· ≠ '.')) hrest
  rw [List.takeWhile_append_of_pos (hdigits i), List.takeWhile_append_of_pos (hdigits j)] at hindex
  obtain rfl : i = j := toDigits_injective (by simpa using hindex)
  have hname := List.append_cancel_left hrest
  exact ⟨rfl, name_injective (List.cons.inj hname).2⟩

theorem blockPath_ne_nested (i j : Nat) (field : BlockField) (key : Chars) :
    blockPath i .arguments ++ '.' :: key ≠ blockPath j field := by
  intro h
  have hcount := congrArg (List.count '.') h
  unfold blockPath at hcount
  simp only [List.count_append, List.count_cons,
    List.count_eq_zero_of_not_mem (dot_not_mem_toDigits _),
    List.count_eq_zero_of_not_mem (dot_not_mem_name _)] at hcount
  simp at hcount

def ContentBlock.field : ContentBlock ν R → BlockField
  | .text _ _ => .text
  | .thinking _ _ => .thinking
  | .redactedThinking _ _ => .data
  | .image _ _ => .data
  | .toolCall _ _ _ => .arguments

def HasObjectArguments : ContentBlock ν R → Prop
  | .toolCall args _ _ => ∃ fields, args = .obj fields
  | _ => True

def isSpilled (codec : JsonCodec ν) : ContentBlock ν R → Bool
  | .text t _ => isLong t
  | .thinking t _ => isLong t
  | .redactedThinking data _ => isLong data
  | .image _ _ => false
  | .toolCall args _ _ => !isColdSpillArgumentsSentinel args && isLong (codec.stringify args)

def noticeOf (index : Nat) : ContentBlock ν R → ContentBlock ν R
  | .text _ rest => .text coldSpillNotice rest
  | .thinking _ rest => .thinking coldSpillNotice rest
  | .redactedThinking _ rest => .redactedThinking coldSpillNotice rest
  | .image data rest => .image data rest
  | .toolCall _ malformed rest =>
    .toolCall (argumentsSentinel (blockPath index .arguments)) malformed rest

def writeOf (codec : JsonCodec ν) (index : Nat) : ContentBlock ν R → ColdSpillWrite
  | .text t _ => textWrite t (blockPath index .text)
  | .thinking t _ => textWrite t (blockPath index .thinking)
  | .redactedThinking data _ => textWrite data (blockPath index .data)
  | .image data _ => textWrite data (blockPath index .data)
  | .toolCall args _ _ => jsonWrite (codec.stringify args) (blockPath index .arguments)

variable (codec : JsonCodec ν)

theorem path_writeOf (index : Nat) (block : ContentBlock ν R) :
    (writeOf codec index block).path = blockPath index block.field := by
  cases block <;> rfl

theorem coldSpillContentBlock_eq {block : ContentBlock ν R} (hargs : HasObjectArguments block)
    (index : Nat) :
    coldSpillContentBlock codec index block =
      if isSpilled codec block then (noticeOf index block, [writeOf codec index block])
        else (block, []) := by
  cases block with
  | text t rest =>
    cases h : isLong t <;>
      simp [coldSpillContentBlock, coldSpillText, isSpilled, h, noticeOf, writeOf]
  | thinking t rest =>
    cases h : isLong t <;>
      simp [coldSpillContentBlock, coldSpillText, isSpilled, h, noticeOf, writeOf]
  | redactedThinking data rest =>
    cases h : isLong data <;>
      simp [coldSpillContentBlock, coldSpillText, isSpilled, h, noticeOf, writeOf]
  | image data rest => rfl
  | toolCall args malformed rest =>
    obtain ⟨fields, rfl⟩ := hargs
    cases hs : isColdSpillArgumentsSentinel (.obj fields) <;>
      cases hl : isLong (codec.stringify (.obj fields)) <;>
      simp [coldSpillContentBlock, coldSpillArguments, coldSpillSubtreeValue, coldSpillJson,
      isSpilled, hs, hl, noticeOf, writeOf]

def numbered (index : Nat) : List (ContentBlock ν R) → List (Nat × ContentBlock ν R)
  | [] => []
  | block :: blocks => (index, block) :: numbered (index + 1) blocks

theorem numbered_append (index : Nat) (run blocks : List (ContentBlock ν R)) :
    numbered index (run ++ blocks) = numbered index run ++ numbered (index + run.length) blocks := by
  induction run generalizing index with
  | nil => rfl
  | cons block run ih =>
    rw [List.cons_append, numbered, ih, numbered, List.length_cons, List.cons_append]
    congr 3
    omega

/-- The blocks and the indices they start at, where the long runs of text blocks are merged. -/
def grouped (index : Nat) : List (ContentBlock ν R) → List (Nat × ContentBlock ν R)
  | [] => []
  | .text first rest :: blocks =>
    let run := .text first rest :: blocks.takeWhile isText
    let groups := grouped (index + run.length) (blocks.dropWhile isText)
    if isLong (joinTexts run) then (index, .text (joinTexts run) rest) :: groups
    else numbered index run ++ groups
  | block :: blocks => (index, block) :: grouped (index + 1) blocks
termination_by blocks => blocks.length
decreasing_by
  · have h := (List.dropWhile_suffix (l := blocks) isText).length_le
    simp only [List.length_cons]
    omega
  · simp

def spillGroups (codec : JsonCodec ν) (groups : List (Nat × ContentBlock ν R)) :
    List (ContentBlock ν R) × List ColdSpillWrite :=
  (groups.map fun g => (coldSpillContentBlock codec g.1 g.2).1,
    groups.flatMap fun g => (coldSpillContentBlock codec g.1 g.2).2)

theorem spillEach_eq (index : Nat) (content : List (ContentBlock ν R)) :
    spillEach codec index content = spillGroups codec (numbered index content) := by
  induction content generalizing index with
  | nil => rfl
  | cons block blocks ih =>
    simp only [spillEach, ih, numbered]
    rfl

theorem spillGroups_cons (g : Nat × ContentBlock ν R) (groups : List (Nat × ContentBlock ν R)) :
    spillGroups codec (g :: groups) =
      ((coldSpillContentBlock codec g.1 g.2).1 :: (spillGroups codec groups).1,
        (coldSpillContentBlock codec g.1 g.2).2 ++ (spillGroups codec groups).2) := rfl

theorem spillGroups_append (groups groups' : List (Nat × ContentBlock ν R)) :
    spillGroups codec (groups ++ groups') =
      ((spillGroups codec groups).1 ++ (spillGroups codec groups').1,
        (spillGroups codec groups).2 ++ (spillGroups codec groups').2) := by
  simp [spillGroups]

theorem unitLength_append (s t : Chars) : unitLength (s ++ t) = unitLength s + unitLength t := by
  simp [unitLength]

theorem joinTexts_cons (t : Chars) (rest : R) (run : List (ContentBlock ν R)) :
    joinTexts (.text t rest :: run) = t ++ joinTexts run := by
  simp [joinTexts, ContentBlock.text?]

theorem isLong_eq_false {s : Chars} : isLong s = false ↔ unitLength s < coldSpillMinChars := by
  simp [isLong]

theorem spillGroups_numbered_run {run : List (ContentBlock ν R)}
    (hrun : ∀ block ∈ run, isText block = true) (hshort : isLong (joinTexts run) = false)
    (index : Nat) :
    spillGroups codec (numbered index run) = (run, []) := by
  induction run generalizing index with
  | nil => rfl
  | cons block run ih =>
    cases block with
    | text t rest =>
      rw [joinTexts_cons, isLong_eq_false, unitLength_append] at hshort
      have hhead : isLong t = false := isLong_eq_false.mpr (by omega)
      have htail :=
        ih (fun b hb => hrun b (List.mem_cons_of_mem _ hb))
          (isLong_eq_false.mpr (by omega)) (index + 1)
      have hblock :=
        coldSpillContentBlock_eq codec (show HasObjectArguments (.text t rest) from trivial) index
      rw [isSpilled, hhead, if_neg Bool.false_ne_true] at hblock
      rw [numbered, spillGroups_cons, htail, hblock]
      rfl
    | thinking _ _ => exact absurd (hrun _ List.mem_cons_self) (by simp [isText, ContentBlock.text?])
    | redactedThinking _ _ =>
      exact absurd (hrun _ List.mem_cons_self) (by simp [isText, ContentBlock.text?])
    | image _ _ => exact absurd (hrun _ List.mem_cons_self) (by simp [isText, ContentBlock.text?])
    | toolCall _ _ _ =>
      exact absurd (hrun _ List.mem_cons_self) (by simp [isText, ContentBlock.text?])

theorem spillRuns_text (index : Nat) (first : Chars) (rest : R) (blocks : List (ContentBlock ν R)) :
    let run := .text first rest :: blocks.takeWhile isText
    let next := spillRuns codec (index + run.length) (blocks.dropWhile isText)
    spillRuns codec index (.text first rest :: blocks) =
      if isLong (joinTexts run) then
        (.text coldSpillNotice rest :: next.1,
          textWrite (joinTexts run) (blockPath index .text) :: next.2)
      else (run ++ next.1, next.2) := by
  intro run next
  rw [spillRuns]

theorem spillRuns_eq (index : Nat) (content : List (ContentBlock ν R)) :
    spillRuns codec index content = spillGroups codec (grouped index content) := by
  fun_induction grouped index content with
  | case1 => rw [spillRuns]; rfl
  | case2 index first rest blocks run groups hlong ih =>
    have hblock := coldSpillContentBlock_eq codec
      (show HasObjectArguments (.text (joinTexts run) rest) from trivial) index
    rw [isSpilled, if_pos hlong] at hblock
    rw [spillGroups_cons, hblock, spillRuns_text, ih]
    exact if_pos hlong
  | case3 index first rest blocks run groups hshort ih =>
    have hrun : ∀ block ∈ run, isText block = true :=
      List.forall_mem_cons.mpr ⟨rfl, fun block hblock => List.mem_takeWhile_imp hblock⟩
    rw [spillGroups_append, spillGroups_numbered_run codec hrun (Bool.eq_false_iff.mpr hshort),
      spillRuns_text, ih]
    exact if_neg hshort
  | case4 index block blocks hblock ih =>
    rw [spillRuns, ih, spillGroups_cons]
    exact hblock

theorem grouped_of_writes_nil {index : Nat} {content : List (ContentBlock ν R)}
    (hnil : (spillGroups codec (grouped index content)).2 = []) :
    grouped index content = numbered index content := by
  fun_induction grouped index content with
  | case1 => rfl
  | case2 index first rest blocks run groups hlong ih =>
    have hblock := coldSpillContentBlock_eq codec
      (show HasObjectArguments (.text (joinTexts run) rest) from trivial) index
    rw [isSpilled, if_pos hlong] at hblock
    rw [spillGroups_cons, hblock] at hnil
    cases hnil
  | case3 index first rest blocks run groups hshort ih =>
    rw [spillGroups_append] at hnil
    have htail := ih (List.append_eq_nil_iff.mp hnil).2
    have hcontent : ContentBlock.text first rest :: blocks = run ++ blocks.dropWhile isText := by
      rw [List.cons_append, List.takeWhile_append_dropWhile]
    rw [hcontent, numbered_append]
    exact congrArg (numbered index run ++ ·) htail
  | case4 index block blocks hblock ih =>
    rw [spillGroups_cons] at hnil
    rw [numbered, ih (List.append_eq_nil_iff.mp hnil).2]

theorem coldSpillContentBlocks_eq (content : List (ContentBlock ν R)) :
    coldSpillContentBlocks codec content = spillGroups codec (grouped 0 content) := by
  unfold coldSpillContentBlocks
  simp only [spillRuns_eq, spillEach_eq]
  split
  · rfl
  case isFalse h => rw [grouped_of_writes_nil codec (not_not.mp h)]

theorem le_of_mem_numbered {index : Nat} {blocks : List (ContentBlock ν R)}
    {g : Nat × ContentBlock ν R} (hg : g ∈ numbered index blocks) :
    index ≤ g.1 ∧ g.1 < index + blocks.length ∧ g.2 ∈ blocks := by
  induction blocks generalizing index with
  | nil => cases hg
  | cons block blocks ih =>
    rw [numbered, List.mem_cons] at hg
    cases hg with
    | inl hhead =>
      subst hhead
      exact ⟨Nat.le_refl _, by simp, List.mem_cons_self⟩
    | inr htail =>
      have ⟨hle, hlt, hmem⟩ := ih htail
      rw [List.length_cons]
      exact ⟨by omega, by omega, List.mem_cons_of_mem _ hmem⟩

theorem pairwise_numbered (index : Nat) (blocks : List (ContentBlock ν R)) :
    (numbered index blocks).Pairwise (·.1 < ·.1) := by
  induction blocks generalizing index with
  | nil => exact .nil
  | cons block blocks ih =>
    refine .cons (fun g hg => ?_) (ih (index + 1))
    exact (le_of_mem_numbered hg).1

theorem le_of_mem_grouped {index : Nat} {content : List (ContentBlock ν R)}
    {g : Nat × ContentBlock ν R} (hg : g ∈ grouped index content) :
    index ≤ g.1 ∧ (g.2 ∈ content ∨ isText g.2 = true) := by
  fun_induction grouped index content with
  | case1 => cases hg
  | case2 index first rest blocks run groups hlong ih =>
    rw [List.mem_cons] at hg
    cases hg with
    | inl hhead =>
      subst hhead
      exact ⟨Nat.le_refl _, .inr rfl⟩
    | inr htail =>
      have ⟨hle, hmem⟩ := ih htail
      refine ⟨by omega, hmem.imp_left fun h => ?_⟩
      exact List.mem_cons_of_mem _ ((List.dropWhile_suffix isText).subset h)
  | case3 index first rest blocks run groups hshort ih =>
    rw [List.mem_append] at hg
    cases hg with
    | inl hrun =>
      have ⟨hle, _, hmem⟩ := le_of_mem_numbered hrun
      refine ⟨hle, .inl ?_⟩
      exact (List.cons_subset_cons _ (List.takeWhile_prefix isText).subset) hmem
    | inr htail =>
      have ⟨hle, hmem⟩ := ih htail
      refine ⟨by omega, hmem.imp_left fun h => ?_⟩
      exact List.mem_cons_of_mem _ ((List.dropWhile_suffix isText).subset h)
  | case4 index block blocks hblock ih =>
    rw [List.mem_cons] at hg
    cases hg with
    | inl hhead =>
      subst hhead
      exact ⟨Nat.le_refl _, .inl List.mem_cons_self⟩
    | inr htail =>
      have ⟨hle, hmem⟩ := ih htail
      exact ⟨by omega, hmem.imp_left (List.mem_cons_of_mem _)⟩

theorem pairwise_grouped (index : Nat) (content : List (ContentBlock ν R)) :
    (grouped index content).Pairwise (·.1 < ·.1) := by
  fun_induction grouped index content with
  | case1 => exact .nil
  | case2 index first rest blocks run groups hlong ih =>
    refine .cons (fun g hg => ?_) ih
    have hle := (le_of_mem_grouped hg).1
    simp only [run, List.length_cons] at hle
    omega
  | case3 index first rest blocks run groups hshort ih =>
    refine List.pairwise_append.mpr ⟨pairwise_numbered index run, ih, fun g hg h hh => ?_⟩
    have hg := (le_of_mem_numbered hg).2.1
    have hh := (le_of_mem_grouped hh).1
    omega
  | case4 index block blocks hblock ih =>
    refine .cons (fun g hg => ?_) ih
    exact (le_of_mem_grouped hg).1

theorem eq_of_pairwise {groups : List (Nat × ContentBlock ν R)} (h : groups.Pairwise (·.1 < ·.1))
    {g g' : Nat × ContentBlock ν R} (hg : g ∈ groups) (hg' : g' ∈ groups)
    (heq : g.1 = g'.1) : g = g' := by
  induction groups with
  | nil => cases hg
  | cons first groups ih =>
    rw [List.pairwise_cons] at h
    rw [List.mem_cons] at hg hg'
    obtain rfl | hg := hg
    · obtain rfl | hg' := hg'
      · rfl
      · exact absurd heq (Nat.ne_of_lt (h.1 g' hg'))
    · obtain rfl | hg' := hg'
      · exact absurd heq.symm (Nat.ne_of_lt (h.1 g hg))
      · exact ih h.2 hg hg'

end JevCode.Session.ColdSpill
