import JevCode.Sdk.SnapshotRoundTrip

namespace JevCode.Sdk

open Data Text Text.JsonSyntax

def stringReadBytes : Nat := 512 * 1024

inductive StringRangeError
  | readFile
  | chunkMismatch
  | noCheckpoints
  | noStringIndex
  | expectedString
  | unexpectedEnd
  | unicodeEscape
  | stringEscape
  | controlCharacter
  | invalidUtf8
  | indexMismatch
  | outOfFuel
  deriving DecidableEq

def subarray (data : List UInt8) (start stop : Nat) : List UInt8 := (data.take stop).drop start

/-- What is kept of a revision: its bytes, as long as there is memory for them, and its chunks with
their lengths. -/
structure StoredRevision (Hash : Type) where
  payload : Option (List UInt8)
  chunks : List (Hash × Nat)

section

variable {Hash : Type} [DecidableEq Hash] (objects : ObjectStore Hash)

def readChunkRange (start stop position : Nat) (chunk : Hash × Nat) :
    Except StringRangeError (List UInt8) :=
  if position + chunk.2 > start ∧ position < stop then
    match objects.readFile chunk.1 with
    | none => .error .readFile
    | some data =>
      if data.length ≠ chunk.2 ∨ objects.sha256 data ≠ chunk.1 then .error .chunkMismatch
      else .ok (subarray data (start - position) (min chunk.2 (stop - position)))
  else .ok []

def readChunkRanges (start stop : Nat) :
    Nat → List (Hash × Nat) → Except StringRangeError (List UInt8)
  | _, [] => .ok []
  | position, chunk :: chunks => do
    let value ← readChunkRange objects start stop position chunk
    if position + chunk.2 ≥ stop then return value
    return value ++ (← readChunkRanges start stop (position + chunk.2) chunks)

def readBytes (revision : StoredRevision Hash) (start stop : Nat) :
    Except StringRangeError (List UInt8) :=
  match revision.payload with
  | some payload => .ok (subarray payload start stop)
  | none => readChunkRanges objects start stop 0 revision.chunks

end

structure StringPage where
  body : List CodeUnit
  complete : Bool
  offset : Nat
  deriving DecidableEq

def utf8ContinuationPrefixLength (bytes : List UInt8) : Nat :=
  (bytes.takeWhile isContinuation).length

def utf8BoundaryAtOrBefore (bytes : List UInt8) : Nat → Nat
  | 0 => 0
  | offset + 1 =>
    if bytes[offset + 1]?.any isContinuation then utf8BoundaryAtOrBefore bytes offset else offset + 1

def bufferText (bytes : List UInt8) : Chars :=
  let (state, items) := Utf8State.start.run bytes
  (items ++ state.close).map (·.getD replacement)

section

variable (read : Nat → Nat → Except StringRangeError (List UInt8))

def readPlainStringRange (start plainStringBytes offset length : Nat) :
    Except StringRangeError (Option StringPage) := do
  let requestedStart := min offset plainStringBytes
  let source ← read (start + 1 + requestedStart)
    (start + 1 + min plainStringBytes (requestedStart + length + 7))
  let skipped := utf8ContinuationPrefixLength source
  let first := requestedStart + skipped
  let body := source.drop skipped
  let last := utf8BoundaryAtOrBefore body (min body.length length)
  if last = 0 ∧ first < plainStringBytes then return none
  return some ⟨charsUnits (bufferText (body.take last)), first + last = plainStringBytes, first⟩

def stringCheckpointAtOrBefore (checkpoints : List StringCheckpoint) (offset : Nat) :
    Except StringRangeError StringCheckpoint :=
  match checkpoints with
  | [] => .error .noCheckpoints
  | first :: _ =>
    let low :=
      firstFalse (fun middle => checkpoints[middle]?.any (·.decodedOffset ≤ offset)) 0
        checkpoints.length
    .ok (checkpoints[low - 1]?.getD first)

structure ByteWindow where
  position : Nat
  sourceStart : Nat
  source : List UInt8

abbrev ByteReading (α : Type) := StateT ByteWindow (Except StringRangeError) α

variable (stop : Nat)

def ByteWindow.fill (needed : Nat) : ByteReading Bool := do
  let w ← get
  if w.position + needed > stop then return false
  if w.position ≥ w.sourceStart ∧ w.position + needed ≤ w.sourceStart + w.source.length
    then return true
  let source ← read w.position (min stop (w.position + max stringReadBytes needed))
  set { w with sourceStart := w.position, source := source }
  return source.length ≥ needed

def ByteWindow.byteAt (w : ByteWindow) (i : Nat) : UInt8 :=
  w.source[w.position - w.sourceStart + i]?.getD 0

def ByteWindow.advance (n : Nat) : ByteReading Unit := modify fun w =>
  { w with position := w.position + n }

def takeByte : ByteReading UInt8 := do
  if !(← ByteWindow.fill read stop 1) then throw .unexpectedEnd
  let first := (← get).byteAt 0
  ByteWindow.advance 1
  return first

def takeHexUnits : Nat → ByteReading (List CodeUnit)
  | 0 => return []
  | n + 1 => do
    let b ← takeByte read stop
    return b.toUInt16 :: (← takeHexUnits n)

def readUnicodeEscape : ByteReading CodeUnit := do
  let hex ← takeHexUnits read stop 4
  if !hex.all isHexDigit then throw .unicodeEscape
  return .ofNat (parseHex hex)

def hasEscapedLowSurrogate : ByteReading Bool := do
  if !(← ByteWindow.fill read stop 6) then return false
  let w ← get
  if w.byteAt 0 ≠ 0x5c ∨ w.byteAt 1 ≠ 0x75 then return false
  let hex := [w.byteAt 2, w.byteAt 3, w.byteAt 4, w.byteAt 5].map fun b => (b &&& 0x7f).toUInt16
  if !hex.all isHexDigit then return false
  return isLow (.ofNat (parseHex hex))

def readEscape : ByteReading (List CodeUnit) := do
  let escaped ← takeByte read stop
  if escaped = 0x75 then
    let u ← readUnicodeEscape read stop
    if isHigh u then
      if ← hasEscapedLowSurrogate read stop then
        ByteWindow.advance 2
        return [u, ← readUnicodeEscape read stop]
    return [u]
  match ChunkJsonParser.unescape escaped.toUInt16 with
  | none => throw .stringEscape
  | some u => return [u]

def utf8Width (first : UInt8) : Nat :=
  if 0xc2 ≤ first ∧ first ≤ 0xdf then 2
  else if 0xe0 ≤ first ∧ first ≤ 0xef then 3
  else if 0xf0 ≤ first ∧ first ≤ 0xf4 then 4
  else 0

def readMultibyte (first : UInt8) : ByteReading (List CodeUnit) := do
  let width := utf8Width first
  if width = 0 then throw .invalidUtf8
  if !(← ByteWindow.fill read stop width) then throw .invalidUtf8
  let w ← get
  let bytes := (List.range width).map w.byteAt
  if bytes.tail.any fun b => !isContinuation b then throw .invalidUtf8
  ByteWindow.advance width
  match TextDecoder.decodeFatal bytes with
  | none => throw .invalidUtf8
  | some t => return charsUnits t

def readUnit : ByteReading (Option (List CodeUnit)) := do
  if !(← ByteWindow.fill read stop 1) then throw .unexpectedEnd
  let first := (← get).byteAt 0
  if first = 0x22 then
    ByteWindow.advance 1
    return none
  if first = 0x5c then
    ByteWindow.advance 1
    return some (← readEscape read stop)
  if first < 0x20 then throw .controlCharacter
  if first < 0x80 then
    ByteWindow.advance 1
    return some [first.toUInt16]
  return some (← readMultibyte read stop first)

structure PageState where
  decodedOffset : Nat
  responseOffset : Option Nat
  bodyBytes : Nat
  body : ChunkJsonParser.StringOutput

def PageState.result (st : PageState) (requestedOffset : Nat) (complete : Bool) : StringPage :=
  ⟨st.body.result, complete, st.responseOffset.getD requestedOffset⟩

variable (byteLength requestedOffset length : Nat)

def pageUnit (st : PageState) (unit : List CodeUnit) :
    ByteReading (Option StringPage ⊕ PageState) := do
  let unitBytes := utf8Length unit
  if st.bodyBytes + unitBytes > length then
    return .inl (if st.bodyBytes = 0 then none else some (st.result requestedOffset false))
  let st := { st with
    body := st.body.append unit
    bodyBytes := st.bodyBytes + unitBytes
    decodedOffset := st.decodedOffset + unitBytes }
  if st.decodedOffset = byteLength then
    if (← readUnit read stop) ≠ none then throw .indexMismatch
    if (← get).position ≠ stop then throw .indexMismatch
    return .inl (some (st.result requestedOffset true))
  if st.bodyBytes = length then return .inl (some (st.result requestedOffset false))
  return .inr st

def pageTurn (st : PageState) : ByteReading (Option StringPage ⊕ PageState) := do
  match ← readUnit read stop with
  | none =>
    if (← get).position ≠ stop ∨ st.decodedOffset ≠ byteLength then throw .indexMismatch
    return .inl (some (st.result requestedOffset true))
  | some unit =>
    if st.responseOffset.isNone then
      if st.decodedOffset < requestedOffset then
        let decodedOffset := st.decodedOffset + utf8Length unit
        if decodedOffset ≤ requestedOffset then return .inr { st with
          decodedOffset := decodedOffset }
        return .inr { st with decodedOffset := decodedOffset, responseOffset := some decodedOffset }
      pageUnit read stop byteLength requestedOffset length { st with
        responseOffset := some st.decodedOffset } unit
    else pageUnit read stop byteLength requestedOffset length st unit

def pageLoop : Nat → PageState → ByteReading (Option StringPage)
  | 0, _ => throw .outOfFuel
  | fuel + 1, st => do
    match ← pageTurn read stop byteLength requestedOffset length st with
    | .inl result => return result
    | .inr st => pageLoop fuel st

end

section

variable {Hash : Type} [DecidableEq Hash] (objects : ObjectStore Hash)
    (revision : StoredRevision Hash)

def readEscapedStringRange (range : IndexedField) (stringIndex : EscapedStringIndex)
    (offset length : Nat) :
    Except StringRangeError (Option StringPage) := do
  let openingQuote ← readBytes objects revision range.start (range.start + 1)
  if openingQuote ≠ [0x22] then throw .expectedString
  let requestedOffset := min offset stringIndex.byteLength
  let checkpoint ← stringCheckpointAtOrBefore stringIndex.checkpoints requestedOffset
  let position := range.start + checkpoint.serializedOffset
  (pageLoop (readBytes objects revision) range.stop stringIndex.byteLength requestedOffset length
    (range.stop - position + 1) ⟨checkpoint.decodedOffset, none, 0, ⟨[], []⟩⟩).run'
    ⟨position, position, []⟩

def readStringRange (range : IndexedField) (offset length : Nat) :
    Except StringRangeError (Option StringPage) :=
  if length = 0 ∨ !range.isString then .ok none
  else
    match range.plainStringBytes with
    | some plainStringBytes =>
      readPlainStringRange (readBytes objects revision) range.start plainStringBytes offset length
    | none =>
      match range.stringIndex with
      | none => .error .noStringIndex
      | some stringIndex => readEscapedStringRange objects revision range stringIndex offset length

end

section

variable {Hash : Type} [DecidableEq Hash] {objects : ObjectStore Hash}

/-- The bytes of a revision, in memory or wherever they are cut into chunks. -/
def StoredRevision.Holds (objects : ObjectStore Hash) (revision : StoredRevision Hash)
    (bytes : List UInt8) : Prop :=
  match revision.payload with
  | some payload => payload = bytes
  | none => ∃ parts : List (List UInt8), parts.flatten = bytes ∧
    List.Forall₂ (fun chunk part => objects.readFile chunk.1 = some part ∧
    chunk = (objects.sha256 part, part.length))
      revision.chunks parts

theorem subarray_append (p q : List UInt8) (start stop : Nat) :
    subarray (p ++ q) start stop = subarray p start stop ++
      subarray q (start - p.length) (stop - p.length) := by
  rw [subarray, List.take_append, List.drop_append, List.length_take, subarray, subarray]
  obtain h | h := Nat.le_total stop p.length
  · rw [Nat.sub_eq_zero_of_le h, List.take_zero, List.drop_nil, List.drop_nil]
  · rw [Nat.min_eq_right h]

theorem subarray_eq_nil {p : List UInt8} {start stop : Nat} (h : p.length ≤ start ∨ stop ≤ start) :
    subarray p start stop = [] := by
  rw [subarray, List.drop_eq_nil_iff, List.length_take]
  omega

theorem readChunkRanges_eq {start stop position : Nat} {chunks : List (Hash × Nat)}
    {parts : List (List UInt8)}
    (h : List.Forall₂ (fun chunk part => objects.readFile chunk.1 = some part ∧
    chunk = (objects.sha256 part, part.length))
      chunks parts) :
    readChunkRanges objects start stop position chunks =
      .ok (subarray parts.flatten (start - position) (stop - position)) := by
  induction h generalizing position with
  | nil => rw [readChunkRanges, List.flatten_nil, subarray_eq_nil (.inl (Nat.zero_le _))]
  | @cons chunk part chunks parts hchunk hrest ih =>
    obtain ⟨hread, rfl⟩ := hchunk
    have hvalue : readChunkRange objects start stop position (objects.sha256 part, part.length) =
        .ok (subarray part (start - position) (stop - position)) := by
      unfold readChunkRange
      split
      case isTrue h =>
        rw [hread]
        simp only [ne_eq, not_true_eq_false, or_self, if_false, subarray]
        rw [Nat.min_comm, ← List.take_take, List.take_length]
      case isFalse h =>
        rw [subarray_eq_nil (by omega)]
    rw [readChunkRanges, hvalue, List.flatten_cons, subarray_append]
    change (if position + part.length ≥ stop then _ else _ : Except _ _) = _
    split
    case isTrue h =>
      have hrest : subarray parts.flatten (start - position - part.length)
          (stop - position - part.length) = [] := by
        rw [subarray, Nat.sub_eq_zero_of_le (by omega : stop - position ≤ part.length),
          List.take_zero, List.drop_nil]
      rw [hrest, List.append_nil]
      rfl
    case isFalse h =>
      rw [ih, Nat.sub_add_eq, Nat.sub_add_eq]
      rfl

theorem StoredRevision.Holds.readBytes {revision : StoredRevision Hash} {bytes : List UInt8}
    (h : revision.Holds objects bytes) (start stop : Nat) :
    readBytes objects revision start stop = .ok (subarray bytes start stop) := by
  obtain ⟨payload, chunks⟩ := revision
  cases payload with
  | some payload =>
    cases h
    rfl
  | none =>
    obtain ⟨parts, rfl, hparts⟩ := h
    exact readChunkRanges_eq hparts

end

theorem getElem?_subarray {p : List UInt8} {start stop i : Nat} (h : start + i < stop) :
    (subarray p start stop)[i]? = p[start + i]? := by
  rw [subarray, List.getElem?_drop, List.getElem?_take_of_lt h]

theorem length_subarray (p : List UInt8) (start stop : Nat) :
    (subarray p start stop).length = min stop p.length - start := by
  rw [subarray, List.length_drop, List.length_take]

namespace ByteWindow

/-- The window shows a part of the bytes, and `ahead` are those from its position to `stop`. -/
structure At (bytes : List UInt8) (stop : Nat) (w : ByteWindow) (ahead : List UInt8) : Prop where
  sourceStart_le : w.sourceStart ≤ w.position
  source_eq : ∃ n, w.source = subarray bytes w.sourceStart n
  ahead_eq : subarray bytes w.position stop = ahead
  stop_eq : w.position + ahead.length = stop

structure Shows (bytes : List UInt8) (stop n : Nat) (w : ByteWindow) (ahead : List UInt8) : Prop
    extends At bytes stop w ahead where
  byteAt_eq : ∀ i < n, w.byteAt i = ahead[i]?.getD 0

end ByteWindow

section

variable {bytes : List UInt8} {stop : Nat} {read : Nat → Nat → Except StringRangeError (List UInt8)}
  {t r : List UInt8} {α : Type}

open ByteWindow

theorem At.getElem? {w : ByteWindow} {ahead : List UInt8} (h : w.At bytes stop ahead) {i : Nat}
    (hi : i < ahead.length) :
    ahead[i]? = bytes[w.position + i]? := by
  have hstop := h.stop_eq
  rw [← h.ahead_eq, getElem?_subarray (by omega)]

theorem advance_reads {n : Nat} (hn : t.length = n) :
    Reads (At bytes stop) (At bytes stop) (fun _ => advance n) t r () := by
  refine .intro fun w hw => ⟨{ w with position := w.position + n }, rfl, ?_⟩
  have hstop := hw.stop_eq
  rw [List.length_append] at hstop
  refine ⟨Nat.le_add_right_of_le hw.sourceStart_le, hw.source_eq, ?_, ?_⟩
  · have hahead := congrArg (List.drop n) hw.ahead_eq
    rwa [subarray, List.drop_drop, ← hn, List.drop_left, hn] at hahead
  · change w.position + n + r.length = stop
    omega

theorem fill_reads (hread : ∀ start stop, read start stop = .ok (subarray bytes start stop))
    {needed : Nat} (hneeded : needed ≤ r.length) :
    Reads (At bytes stop) (Shows bytes stop needed) (fun _ => fill read stop needed) [] r true := by
  refine .intro fun w hw => ?_
  rw [List.nil_append] at hw
  have hstop := hw.stop_eq
  have hlength := congrArg List.length hw.ahead_eq
  rw [length_subarray] at hlength
  by_cases hshown : w.position ≥ w.sourceStart ∧
    w.position + needed ≤ w.sourceStart + w.source.length
  · refine ⟨w, ?_, hw, fun i hi => ?_⟩
    · change (if w.position + needed > stop then _ else _ : ByteReading Bool) w = _
      rw [if_neg (by omega), if_pos hshown]
      rfl
    · obtain ⟨n, hn⟩ := hw.source_eq
      have hsource := congrArg List.length hn
      rw [length_subarray] at hsource
      rw [byteAt, hn, getElem?_subarray (by omega), At.getElem? hw (by omega)]
      congr 2
      omega
  · refine ⟨⟨w.position, w.position,
      subarray bytes w.position (min stop (w.position + max stringReadBytes needed))⟩, ?_,
      ⟨Nat.le_refl _, ⟨_, rfl⟩, hw.ahead_eq, hw.stop_eq⟩, fun i hi => ?_⟩
    · change (if w.position + needed > stop then _ else _ : ByteReading Bool) w = _
      rw [if_neg (by omega), if_neg hshown, hread]
      change Except.ok (decide _, _) = _
      rw [decide_eq_true]
      rw [length_subarray]
      omega
    · rw [byteAt, Nat.sub_self, Nat.zero_add, getElem?_subarray (by omega),
        At.getElem? hw (by omega)]

theorem fill_short {needed : Nat} (hneeded : r.length < needed) :
    Reads (At bytes stop) (At bytes stop) (fun _ => fill read stop needed) [] r false := by
  refine .intro fun w hw => ⟨w, ?_, hw⟩
  have hstop := hw.stop_eq
  rw [List.nil_append] at hstop
  change (if w.position + needed > stop then _ else _ : ByteReading Bool) w = _
  rw [if_pos (by omega)]
  rfl

theorem shown_reads {n : Nat} {a : α} {k : ByteWindow → ByteReading α}
    (hk : ∀ w, (∀ i < n, w.byteAt i = (t ++ r)[i]?.getD 0) →
      Reads (At bytes stop) (At bytes stop) (fun _ => k w) t r a) :
    Reads (Shows bytes stop n) (At bytes stop) (fun _ => get >>= k) t r a :=
  .intro fun w hw => (hk w hw.byteAt_eq).run _ _ hw.toAt

theorem takeByte_reads
    (hread : ∀ start stop, read start stop = .ok (subarray bytes start stop)) (b : UInt8) :
    Reads (At bytes stop) (At bytes stop) (fun _ => takeByte read stop) [b] r b := by
  refine .look (fill_reads hread (by simp)) (shown_reads fun w hw => ?_)
  refine .last (advance_reads rfl) ?_
  rw [hw 0 Nat.one_pos]
  exact .pure r b

end

def hexByte (n : Nat) : UInt8 := (hexDigit n).toUInt8

def hexBytes (u : CodeUnit) : List UInt8 :=
  [hexByte (u.toNat / 0x1000), hexByte (u.toNat / 0x100 % 0x10), hexByte (u.toNat / 0x10 % 0x10),
    hexByte (u.toNat % 0x10)]

theorem hexByte_eq :
    ∀ n < 16, String.utf8EncodeChar (hexChar n) = [hexByte n] ∧ (hexByte n).toUInt16 = hexDigit n ∧
    hexByte n &&& 0x7f = hexByte n ∧ hexValue (hexDigit n) = n ∧ isHexDigit (hexDigit n) = true := by
  decide

section

variable (u : CodeUnit)

theorem hexByte_places {P : Nat → Prop} (h : ∀ n < 16, P n) :
    P (u.toNat / 0x1000) ∧ P (u.toNat / 0x100 % 0x10) ∧ P (u.toNat / 0x10 % 0x10) ∧
      P (u.toNat % 0x10) := by
  have hlt := u.toNat_lt
  exact ⟨h _ (by omega), h _ (by omega), h _ (by omega), h _ (by omega)⟩

theorem utf8Bytes_unicodeEscape : utf8Bytes (unicodeEscape u) = 0x5c :: 0x75 :: hexBytes u := by
  obtain ⟨h0, h1, h2, h3⟩ := hexByte_places u fun n hn => (hexByte_eq n hn).1
  simp only [unicodeEscape, utf8Bytes_cons, h0, h1, h2, h3]
  rfl

theorem map_hexBytes : (hexBytes u).map UInt8.toUInt16 = hex4 u := by
  obtain ⟨h0, h1, h2, h3⟩ := hexByte_places u fun n hn => (hexByte_eq n hn).2.1
  simp only [hexBytes, List.map_cons, List.map_nil, h0, h1, h2, h3, hex4]

theorem map_ascii_hexBytes : (hexBytes u).map (fun b => (b &&& 0x7f).toUInt16) = hex4 u := by
  obtain ⟨h0, h1, h2, h3⟩ := hexByte_places u fun n hn => (hexByte_eq n hn).2.2.1
  rw [← map_hexBytes]
  simp only [hexBytes, List.map_cons, List.map_nil, h0, h1, h2, h3]

theorem all_hex4 : (hex4 u).all isHexDigit = true := by
  obtain ⟨h0, h1, h2, h3⟩ := hexByte_places u fun n hn => (hexByte_eq n hn).2.2.2.2
  simp only [hex4, List.all_cons, List.all_nil, h0, h1, h2, h3, Bool.and_true]

theorem ofNat_parseHex_hex4 : UInt16.ofNat (parseHex (hex4 u)) = u := by
  obtain ⟨h0, h1, h2, h3⟩ := hexByte_places u fun n hn => (hexByte_eq n hn).2.2.2.1
  have hvalue : parseHex (hex4 u) = u.toNat := by
    simp only [parseHex, hex4, List.foldl_cons, List.foldl_nil, h0, h1, h2, h3]
    omega
  rw [hvalue]
  exact UInt16.ofNat_toNat

end

theorem toNat_code_of_lt {c : Char} (h : c.toNat < 0x20) : (code c).toNat = c.toNat := by
  rw [code, UInt16.toNat_ofNat']
  omega

theorem utf8Width_eq {b : UInt8} {n : Nat} (h : 0xc2 ≤ b.toNat ∧ b.toNat ≤ 0xdf ∧ n = 2 ∨
    0xe0 ≤ b.toNat ∧ b.toNat ≤ 0xef ∧ n = 3 ∨ 0xf0 ≤ b.toNat ∧ b.toNat ≤ 0xf4 ∧ n = 4) :
      utf8Width b = n := by
  unfold utf8Width
  simp only [UInt8.le_iff_toNat_le, UInt8.reduceToNat]
  split
  · omega
  split
  · omega
  split
  · omega
  · omega

theorem utf8EncodeChar_width (c : Char) :
    (c.toNat < 0x80 ∧ String.utf8EncodeChar c = [.ofNat c.toNat]) ∨
    ∃ b bs, String.utf8EncodeChar c = b :: bs ∧ 0x80 ≤ b.toNat ∧ utf8Width b = (b :: bs).length ∧
      ∀ x ∈ bs, isContinuation x = true := by
  obtain ⟨b, bs, henc, -, hbs⟩ := utf8EncodeChar_eq c
  have hvalid : c.val.toNat < 0xd800 ∨ 0xdfff < c.val.toNat ∧ c.val.toNat < 0x110000 := c.valid
  by_cases hascii : c.val.toNat ≤ 0x7f
  · refine .inl ⟨Nat.lt_succ_of_le hascii, ?_⟩
    unfold String.utf8EncodeChar
    simp only
    rw [if_pos hascii]
    rfl
  · refine .inr ⟨b, bs, henc, ?_⟩
    rw [and_iff_left hbs]
    unfold String.utf8EncodeChar at henc
    generalize c.val.toNat = v at hvalid henc hascii
    simp only at henc
    rw [if_neg hascii] at henc
    split at henc
    case isTrue h2 =>
      cases henc
      have hb : (UInt8.ofNat (v / 64 % 32 + 192)).toNat = v / 64 % 32 + 192 :=
        Utf8State.toNat_ofNat_of_lt (by omega)
      exact ⟨by omega, utf8Width_eq (.inl ⟨by omega, by omega, rfl⟩)⟩
    case isFalse h2 =>
    split at henc
    case isTrue h3 =>
      cases henc
      have hb : (UInt8.ofNat (v / 4096 % 16 + 224)).toNat = v / 4096 % 16 + 224 :=
        Utf8State.toNat_ofNat_of_lt (by omega)
      exact ⟨by omega, utf8Width_eq (.inr (.inl ⟨by omega, by omega, rfl⟩))⟩
    case isFalse h3 =>
      cases henc
      have hb : (UInt8.ofNat (v / 262144 % 8 + 240)).toNat = v / 262144 % 8 + 240 :=
        Utf8State.toNat_ofNat_of_lt (by omega)
      exact ⟨by omega, utf8Width_eq (.inr (.inr ⟨by omega, by omega, rfl⟩))⟩

theorem decodeFatal_utf8EncodeChar (c : Char) :
    TextDecoder.decodeFatal (String.utf8EncodeChar c) = some (TextDecoder.dropMark false [c]) := by
  rw [TextDecoder.decodeFatal, Utf8State.run_utf8EncodeChar]
  rfl

def readOf : CodePoint → List CodeUnit
  | .scalar c => charsUnits (TextDecoder.dropMark false [c])
  | .lone u => [u]

theorem readOf_eq {p : CodePoint} (h : p ≠ .scalar byteOrderMark) : readOf p = p.units := by
  cases p with
  | lone u => rfl
  | scalar c =>
    have hc : c ≠ byteOrderMark := fun hc => h (by rw [hc])
    rw [readOf, TextDecoder.dropMark, if_neg fun hmark => hc hmark.2, charsUnits,
      List.flatMap_singleton]
    rfl

section

variable {bytes : List UInt8} {stop : Nat} {read : Nat → Nat → Except StringRangeError (List UInt8)}
  {t r : List UInt8} (hread : ∀ start stop, read start stop = .ok (subarray bytes start stop))
include hread

open ByteWindow

theorem takeHexUnits_reads : (t : List UInt8) →
    Reads (At bytes stop) (At bytes stop) (fun _ => takeHexUnits read stop t.length) t r
      (t.map UInt8.toUInt16)
  | [] => .pure r _
  | b :: t => .bind (u := t) (takeByte_reads hread b) (takeHexUnits_reads t).map

theorem readUnicodeEscape_reads (u : CodeUnit) :
    Reads (At bytes stop) (At bytes stop) (fun _ => readUnicodeEscape read stop)
      (hexBytes u) r u := by
  refine .last (takeHexUnits_reads hread (hexBytes u)) ?_
  rw [map_hexBytes, all_hex4, ofNat_parseHex_hex4]
  exact .pure r u

theorem hasEscapedLowSurrogate_escape (u : CodeUnit) (t : List UInt8) :
    Reads (At bytes stop) (At bytes stop) (fun _ => hasEscapedLowSurrogate read stop) []
      (0x5c :: 0x75 :: hexBytes u ++ t)
      (isLow u) := by
  refine .look (fill_reads hread (by simp [hexBytes])) (shown_reads fun w hw => ?_)
  have hhex : [w.byteAt 2, w.byteAt 3, w.byteAt 4, w.byteAt 5] = hexBytes u := by
    rw [hw 2 (by decide), hw 3 (by decide), hw 4 (by decide), hw 5 (by decide)]
    rfl
  rw [hw 0 (by decide), hw 1 (by decide), hhex, map_ascii_hexBytes]
  simp only [all_hex4, ofNat_parseHex_hex4]
  exact .pure _ _

theorem hasEscapedLowSurrogate_other (h : r[0]? = some 0x5c → r[1]? ≠ some 0x75) :
    Reads (At bytes stop) (At bytes stop) (fun _ => hasEscapedLowSurrogate read stop)
      [] r false := by
  by_cases hshort : r.length < 6
  · exact .look (fill_short hshort) (.pure r false)
  · refine .look (fill_reads hread (Nat.not_lt.mp hshort)) (shown_reads fun w hw => ?_)
    have hfirst : w.byteAt 0 ≠ 0x5c ∨ w.byteAt 1 ≠ 0x75 := by
      match r, hshort, h, hw with
      | [], hshort, _, _ => exact absurd (by simp) hshort
      | [a], hshort, _, _ => exact absurd (by simp) hshort
      | a :: b :: r, _, h, hw =>
        rw [hw 0 (by decide), hw 1 (by decide)]
        simpa [imp_iff_not_or] using h
    rw [if_pos hfirst]
    exact .pure r false

theorem readEscape_letter {b : UInt8} {u : CodeUnit} (hb : b ≠ 0x75)
    (hu : ChunkJsonParser.unescape b.toUInt16 = some u) :
    Reads (At bytes stop) (At bytes stop) (fun _ => readEscape read stop) [b] r [u] := by
  refine .last (takeByte_reads hread b) ?_
  rw [if_neg hb, hu]
  exact .pure r [u]

theorem readEscape_hex {u : CodeUnit} (hu : isHigh u = true →
      Reads (At bytes stop) (At bytes stop) (fun _ => hasEscapedLowSurrogate read stop) [] r false) :
    Reads (At bytes stop) (At bytes stop) (fun _ => readEscape read stop)
      (0x75 :: hexBytes u) r [u] := by
  refine .bind (t := [0x75]) (takeByte_reads hread 0x75) ?_
  rw [if_pos rfl]
  refine .last (readUnicodeEscape_reads hread u) ?_
  by_cases hhigh : isHigh u = true
  · rw [if_pos hhigh]
    exact .look (t := []) (hu hhigh) (.pure r [u])
  · rw [if_neg hhigh]
    exact .pure r [u]

theorem readMultibyte_reads {c : Char} {b : UInt8} {bs : List UInt8}
    (henc : String.utf8EncodeChar c = b :: bs) (hwidth : utf8Width b = (b :: bs).length)
    (hbs : ∀ x ∈ bs, isContinuation x = true) :
    Reads (At bytes stop) (At bytes stop) (fun _ => readMultibyte read stop b) (b :: bs) r
      (charsUnits (TextDecoder.dropMark false [c])) := by
  unfold readMultibyte
  rw [hwidth]
  simp only
  rw [if_neg (by simp)]
  refine .look (fill_reads hread (by simp)) (shown_reads fun w hw => ?_)
  have hbytes : (List.range (b :: bs).length).map w.byteAt = b :: bs := by
    refine List.ext_getElem (by simp) fun i hi hi' => ?_
    rw [List.getElem_map, List.getElem_range, hw i hi', List.getElem?_append_left hi',
      List.getElem?_eq_getElem hi']
    rfl
  have hany : (bs.any fun x => !isContinuation x) = false := by
    rw [List.any_eq_false]
    intro x hx
    simp [hbs x hx]
  simp only [hbytes, List.tail_cons, hany]
  refine .last (advance_reads rfl) ?_
  rw [← henc, decodeFatal_utf8EncodeChar]
  exact .pure r _

theorem readUnit_quote :
    Reads (At bytes stop) (At bytes stop) (fun _ => readUnit read stop) [0x22] r none := by
  refine .look (fill_reads hread (by simp)) (shown_reads fun w hw => ?_)
  rw [hw 0 Nat.one_pos]
  exact .last (advance_reads rfl) (.pure r none)

theorem readUnit_escape {a : List CodeUnit}
    (h : Reads (At bytes stop) (At bytes stop) (fun _ => readEscape read stop) t r a) :
    Reads (At bytes stop) (At bytes stop) (fun _ => readUnit read stop) (0x5c :: t) r (some a) := by
  refine .look (fill_reads hread (by simp)) (shown_reads fun w hw => ?_)
  rw [hw 0 Nat.one_pos]
  exact .bind (t := [0x5c]) (advance_reads rfl) h.map

theorem readUnit_ascii {b : UInt8} (hquote : b ≠ 0x22) (hbackslash : b ≠ 0x5c)
    (hcontrol : 0x20 ≤ b.toNat) (hascii : b.toNat < 0x80) :
    Reads (At bytes stop) (At bytes stop) (fun _ => readUnit read stop) [b] r
      (some [b.toUInt16]) := by
  have hlow : ¬b < 0x20 := fun h => Nat.not_lt.mpr hcontrol (UInt8.lt_iff_toNat_lt.mp h)
  have hhigh : b < 0x80 := UInt8.lt_iff_toNat_lt.mpr hascii
  refine .look (fill_reads hread (by simp)) (shown_reads fun w hw => ?_)
  rw [hw 0 Nat.one_pos]
  simp only [List.cons_append, List.getElem?_cons_zero, Option.getD_some, if_neg hquote,
    if_neg hbackslash, if_neg hlow, if_pos hhigh]
  exact .last (advance_reads rfl) (.pure r _)

theorem readUnit_multibyte {c : Char} {b : UInt8} {bs : List UInt8}
    (henc : String.utf8EncodeChar c = b :: bs) (hb : 0x80 ≤ b.toNat)
    (hwidth : utf8Width b = (b :: bs).length) (hbs : ∀ x ∈ bs, isContinuation x = true) :
    Reads (At bytes stop) (At bytes stop) (fun _ => readUnit read stop) (b :: bs) r
      (some (charsUnits (TextDecoder.dropMark false [c]))) := by
  have hne {x : UInt8} (hx : x.toNat < 0x80) : b ≠ x := by
    rintro rfl
    omega
  have hlow : ¬b < 0x20 := fun h =>
    Nat.not_lt.mpr (Nat.le_trans (by decide) hb) (UInt8.lt_iff_toNat_lt.mp h)
  have hhigh : ¬b < 0x80 := fun h => Nat.not_lt.mpr hb (UInt8.lt_iff_toNat_lt.mp h)
  refine .look (fill_reads hread (by simp)) (shown_reads fun w hw => ?_)
  rw [hw 0 Nat.one_pos]
  simp only [List.cons_append, List.getElem?_cons_zero, Option.getD_some,
    if_neg (hne (x := 0x22) (by decide)), if_neg (hne (x := 0x5c) (by decide)),
    if_neg hlow, if_neg hhigh]
  exact (readMultibyte_reads hread henc hwidth hbs).map

theorem readUnit_literal {c : Char} (hcontrol : 0x20 ≤ c.toNat) (hquote : c ≠ '"')
    (hbackslash : c ≠ '\\') :
    Reads (At bytes stop) (At bytes stop) (fun _ => readUnit read stop) (utf8Bytes [c]) r
      (some (readOf (.scalar c))) := by
  rw [utf8Bytes, List.flatMap_singleton]
  obtain ⟨hascii, henc⟩ | ⟨b, bs, henc, hb, hwidth, hbs⟩ := utf8EncodeChar_width c
  · have hn : (UInt8.ofNat c.toNat).toNat = c.toNat := Utf8State.toNat_ofNat_of_lt (by omega)
    have hne {x : UInt8} {d : Char} (hx : x.toNat = d.toNat) (hd : c ≠ d) : UInt8.ofNat
        c.toNat ≠ x := by
      rintro rfl
      exact hd (Char.toNat_inj.mp (hn.symm.trans hx))
    have hread' :=
      @readUnit_ascii bytes stop read r hread _ (hne (by decide) hquote) (hne (by decide) hbackslash)
      (by omega) (by omega)
    have hmark : CodePoint.scalar c ≠ .scalar byteOrderMark := by
      rintro ⟨⟩
      exact absurd hascii (by decide)
    have hunits : charUnits c = [(UInt8.ofNat c.toNat).toUInt16] := by
      rw [charUnits, if_pos (by omega), code, ← UInt16.ofNat_toNat (x :=
        (UInt8.ofNat c.toNat).toUInt16), UInt8.toNat_toUInt16, hn]
    rw [henc, readOf_eq hmark, CodePoint.units, hunits]
    exact hread'
  · rw [henc]
    exact readUnit_multibyte hread henc hb hwidth hbs

theorem readUnit_scalar (c : Char) :
    Reads (At bytes stop) (At bytes stop) (fun _ => readUnit read stop) (utf8Bytes (quoteChar c)) r
      (some (readOf (.scalar c))) := by
  obtain ⟨e, hquoted, rfl⟩ | ⟨hcontrol, hquoted⟩ | ⟨hcontrol, hquote, hbackslash, hquoted⟩ :=
    quoteChar_cases c
  · have hletter : utf8Bytes ['\\', .ofNat e.letter.toNat] = [0x5c, e.letter.toUInt8] := by
      cases e <;> rfl
    have hvalue : readOf (.scalar (.ofNat e.value.toNat)) = [e.value] := by cases e <;> rfl
    rw [hquoted, hletter, hvalue]
    exact readUnit_escape hread
      (readEscape_letter hread (by cases e <;> decide) (by cases e <;> rfl))
  · have hmark : CodePoint.scalar c ≠ .scalar byteOrderMark := by
      rintro ⟨⟩
      exact absurd hcontrol (by decide)
    have hhigh : ¬isHigh (code c) = true := fun h => by
      have := isHigh_iff.mp h
      rw [toNat_code_of_lt hcontrol] at this
      omega
    rw [hquoted, utf8Bytes_unicodeEscape, readOf_eq hmark, CodePoint.units, charUnits,
      if_pos (by omega)]
    exact readUnit_escape hread (readEscape_hex hread fun h => absurd h hhigh)
  · rw [hquoted]
    exact readUnit_literal hread hcontrol hquote hbackslash

theorem hasEscapedLowSurrogate_scalar (c : Char) (t : List UInt8) :
    Reads (At bytes stop) (At bytes stop) (fun _ => hasEscapedLowSurrogate read stop) []
      (utf8Bytes (quoteChar c) ++ t)
      false := by
  obtain ⟨e, hquoted, -⟩ | ⟨hcontrol, hquoted⟩ | ⟨-, -, hbackslash, hquoted⟩ := quoteChar_cases c
  · have hletter : utf8Bytes ['\\', .ofNat e.letter.toNat] = [0x5c, e.letter.toUInt8] := by
      cases e <;> rfl
    have hne : e.letter.toUInt8 ≠ 0x75 := by cases e <;> decide
    rw [hquoted, hletter]
    exact hasEscapedLowSurrogate_other hread fun _ h => hne (Option.some.inj h)
  · have hlow : isLow (code c) = false := Bool.eq_false_iff.mpr fun h => by
      have := isLow_iff.mp h
      rw [toNat_code_of_lt hcontrol] at this
      omega
    rw [hquoted, utf8Bytes_unicodeEscape, ← hlow]
    exact hasEscapedLowSurrogate_escape hread (code c) t
  · refine hasEscapedLowSurrogate_other hread fun hfirst => ?_
    rw [hquoted, utf8Bytes, List.flatMap_singleton] at hfirst
    obtain ⟨hascii, henc⟩ | ⟨b, bs, henc, hb, -⟩ := utf8EncodeChar_width c
    · rw [henc] at hfirst
      have hn : (UInt8.ofNat c.toNat).toNat = c.toNat := Utf8State.toNat_ofNat_of_lt (by omega)
      rw [Option.some.inj hfirst] at hn
      exact absurd (Char.toNat_inj.mp hn.symm) hbackslash
    · rw [henc] at hfirst
      rw [Option.some.inj hfirst] at hb
      exact absurd hb (by decide)

end

def pointsBytes (points : List CodePoint) : Nat := byteLength (points.map CodePoint.toChar)

def quotedBytes (points : List CodePoint) : List UInt8 :=
  utf8Bytes (points.flatMap quotePoint) ++ [0x22]

@[simp] theorem pointsBytes_nil : pointsBytes [] = 0 := rfl

@[simp] theorem pointsBytes_cons (p : CodePoint) (points : List CodePoint) :
    pointsBytes (p :: points) = p.toChar.utf8Size + pointsBytes points := by
  rw [pointsBytes, List.map_cons, byteLength_cons]
  rfl

@[simp] theorem pointsBytes_append (a b : List CodePoint) :
    pointsBytes (a ++ b) = pointsBytes a + pointsBytes b := by
  rw [pointsBytes, List.map_append, byteLength_append]
  rfl

theorem pointsBytes_eq_zero {points : List CodePoint} : pointsBytes points = 0 ↔ points = [] := by
  rw [pointsBytes, byteLength_eq_zero, List.map_eq_nil_iff]

theorem quotedBytes_cons (p : CodePoint) (points : List CodePoint) :
    quotedBytes (p :: points) = utf8Bytes (quotePoint p) ++ quotedBytes points := by
  rw [quotedBytes, List.flatMap_cons, utf8Bytes_append, List.append_assoc]
  rfl

def IsString (points : List CodePoint) : Prop := codePoints (pointsUnits points) = points

theorem isString_codePoints (s : List CodeUnit) : IsString (codePoints s) := by
  rw [IsString, pointsUnits_codePoints]

theorem IsString.append {a b : List CodePoint} (h : IsString (a ++ b)) : IsString a ∧ IsString b :=
  codePoints_eq_append h

theorem IsString.utf8Length {points : List CodePoint} (h : IsString points) :
    utf8Length (pointsUnits points) = pointsBytes points := by
  rw [Text.utf8Length, wellFormedChars, h]
  rfl

theorem IsString.utf8Length_units {p : CodePoint} {points : List CodePoint}
    (h : IsString (p :: points)) :
    Text.utf8Length p.units = p.toChar.utf8Size := by
  have hp := (IsString.append (a := [p]) h).1.utf8Length
  rwa [pointsUnits, List.flatMap_singleton, pointsBytes_cons, pointsBytes_nil, Nat.add_zero] at hp

theorem IsString.isLow {u v : CodeUnit} {points : List CodePoint}
    (h : IsString (.lone u :: .lone v :: points)) (hu : isHigh u = true) : isLow v = false := by
  refine Bool.eq_false_iff.mpr fun hv => ?_
  rw [IsString, pointsUnits, List.flatMap_cons, List.flatMap_cons, CodePoint.units, CodePoint.units,
    List.singleton_append, List.singleton_append, codePoints, hu, hv] at h
  cases h

theorem mark_notMem_readOf {p : CodePoint} {points : List CodePoint} (h : IsString (p :: points)) :
    0xfeff ∉ readOf p := by
  cases p with
  | lone u =>
    have hu : (isHigh u || Text.isLow u) = true := isHigh_or_isLow_of_lone (h ▸ List.mem_cons_self)
    rw [readOf, List.mem_singleton]
    rintro rfl
    exact absurd hu (by decide)
  | scalar c =>
    by_cases hc : c = byteOrderMark
    · rw [hc]
      decide
    · rw [readOf_eq (fun hmark => hc (CodePoint.scalar.inj hmark)), CodePoint.units]
      obtain ⟨hunits, -, -, hn⟩ | ⟨hi, lo, hunits, hhigh, hlow, -⟩ := charUnits_cases c
      · rw [hunits, List.mem_singleton]
        intro hmark
        rw [← hmark] at hn
        exact hc (Char.toNat_inj.mp hn.symm)
      · rw [hunits, List.mem_cons, List.mem_singleton]
        rintro (rfl | rfl)
        · exact absurd hhigh (by decide)
        · exact absurd hlow (by decide)

theorem mark_mem_iff (s : List CodeUnit) : 0xfeff ∈ s ↔ .scalar byteOrderMark ∈ codePoints s := by
  constructor
  · intro h
    by_contra hmark
    rw [← pointsUnits_codePoints s, pointsUnits, List.mem_flatMap] at h
    obtain ⟨p, hp, hunit⟩ := h
    rw [← readOf_eq fun heq => hmark (heq ▸ hp)] at hunit
    obtain ⟨a, b, hsplit⟩ := List.append_of_mem hp
    have hstring := isString_codePoints s
    rw [hsplit] at hstring
    exact mark_notMem_readOf hstring.append.2 hunit
  · intro h
    rw [← pointsUnits_codePoints s]
    exact List.mem_flatMap.mpr ⟨_, h, by decide⟩

section

variable {bytes : List UInt8} {stop : Nat} {read : Nat → Nat → Except StringRangeError (List UInt8)}
  (hread : ∀ start stop, read start stop = .ok (subarray bytes start stop))
include hread

open ByteWindow

theorem readUnit_point {p : CodePoint} {points : List CodePoint} (h : IsString (p :: points)) :
    Reads (At bytes stop) (At bytes stop) (fun _ => readUnit read stop) (utf8Bytes (quotePoint p))
      (quotedBytes points)
      (some (readOf p)) := by
  cases p with
  | scalar c => exact readUnit_scalar hread c
  | lone u =>
    rw [quotePoint, utf8Bytes_unicodeEscape]
    refine readUnit_escape hread (readEscape_hex hread fun hu => ?_)
    cases points with
    | nil => exact hasEscapedLowSurrogate_other hread (by decide)
    | cons q points =>
      rw [quotedBytes_cons]
      cases q with
      | scalar c => exact hasEscapedLowSurrogate_scalar hread c _
      | lone v =>
        rw [quotePoint, utf8Bytes_unicodeEscape, ← h.isLow hu]
        exact hasEscapedLowSurrogate_escape hread v _

end

end JevCode.Sdk
