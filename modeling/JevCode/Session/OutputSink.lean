import JevCode.Text.Utf8
import Mathlib.Data.List.Induction

/-! `streaming-output.ts`: an `OutputSink` with head retention and no column cap.  A chunk is a
well-formed string, so a list of characters.  The sanitizer and the text of the elision marker are
parameters; artifacts and callbacks are left out. -/

namespace JevCode.Session

open JevCode.Text

def countNewlines (text : Chars) : Nat := text.count '\n'

def findUtf8BoundaryForward (buf : List UInt8) (pos : Nat) : Nat :=
  pos + ((buf.drop pos).takeWhile isContinuation).length

def retreat (buf : List UInt8) : Nat → Nat
  | 0 => 0
  | i + 1 => if (buf[i + 1]?.map isContinuation).getD false then retreat buf i else i + 1

def findUtf8BoundaryBackward (buf : List UInt8) (cut : Nat) : Nat :=
  let i := min buf.length cut
  if buf.length ≤ i then buf.length else retreat buf i

def truncateHeadBytes (data : Chars) (maxBytes : Nat) : Chars × Nat :=
  if maxBytes = 0 then ([], 0)
  else if unitLength data ≤ maxBytes ∧ byteLength data ≤ maxBytes then (data, byteLength data)
  else
    let buf := utf8Bytes (takeUnits (min (unitLength data) maxBytes) data)
    let endAt := findUtf8BoundaryBackward buf maxBytes
    if endAt = 0 then ([], 0)
    else
      let slice := buf.take endAt
      (ofUtf8Bytes slice, slice.length)

def truncateTailBytes (data : Chars) (maxBytes : Nat) : Chars × Nat :=
  if maxBytes = 0 then ([], 0)
  else if unitLength data ≤ maxBytes ∧ byteLength data ≤ maxBytes then (data, byteLength data)
  else
    let buf := utf8Bytes (dropUnits (unitLength data - maxBytes) data)
    let start := findUtf8BoundaryForward buf (buf.length - maxBytes)
    let slice := buf.drop start
    (ofUtf8Bytes slice, slice.length)

def coalesceFlushChars : Nat := 64 * 1024

structure OutputSinkOptions where
  spillThreshold : Nat
  headBytes : Nat
  coalesceSanitize : Bool

structure OutputSink where
  buffer : Chars
  bufferBytes : Nat
  head : Chars
  headBytes : Nat
  totalLines : Nat
  totalBytes : Nat
  processedBytes : Nat
  processedLines : Nat
  sawData : Bool
  truncated : Bool
  coalesceBuf : Chars
  deriving DecidableEq

structure OutputSummary where
  output : Chars
  truncated : Bool
  totalLines : Nat
  totalBytes : Nat
  outputLines : Nat
  outputBytes : Nat
  elidedBytes : Option Nat
  elidedLines : Option Nat
  deriving DecidableEq

namespace OutputSink

def init : OutputSink := ⟨[], 0, [], 0, 0, 0, 0, 0, false, false, []⟩

variable (options : OutputSinkOptions)

def appendTail (s : OutputSink) (text : Chars) (bytes : Nat) : OutputSink :=
  { s with buffer := s.buffer ++ text, bufferBytes := s.bufferBytes + bytes }

def appendHead (s : OutputSink) (text : Chars) (bytes : Nat) : OutputSink :=
  { s with head := s.head ++ text, headBytes := s.headBytes + bytes }

def setTail (s : OutputSink) (tail : Chars × Nat) : OutputSink :=
  { s with buffer := tail.1, bufferBytes := tail.2 }

def trimTailTo (s : OutputSink) (maxBytes : Nat) : OutputSink :=
  if s.bufferBytes ≤ maxBytes then s else s.setTail (truncateTailBytes s.buffer maxBytes)

def pushTail (s : OutputSink) (chunk : Chars) (dataBytes : Nat) : OutputSink :=
  if dataBytes = 0 then s
  else if s.bufferBytes + dataBytes ≤ options.spillThreshold then s.appendTail chunk dataBytes
  else
    let s := { s with truncated := true }
    if options.spillThreshold ≤ dataBytes then
      s.setTail (truncateTailBytes chunk options.spillThreshold)
    else (s.appendTail chunk dataBytes).trimTailTo options.spillThreshold

def retain (s : OutputSink) (visibleChunk : Chars) : OutputSink :=
  let visibleBytes := byteLength visibleChunk
  if 0 < options.headBytes ∧ s.headBytes < options.headBytes then
    let room := options.headBytes - s.headBytes
    if visibleBytes ≤ room then s.appendHead visibleChunk visibleBytes
    else
      let headSlice := truncateHeadBytes visibleChunk room
      if 0 < headSlice.2 then
        (s.appendHead headSlice.1 headSlice.2).pushTail options
          (dropUnits (unitLength headSlice.1) visibleChunk) (visibleBytes - headSlice.2)
      else s.pushTail options visibleChunk visibleBytes
  else s.pushTail options visibleChunk visibleBytes

variable (sanitize : Chars → Chars)

def ingest (s : OutputSink) (rawChunk : Chars) : OutputSink :=
  let rawBytes := byteLength rawChunk
  let s := { s with
    totalBytes := s.totalBytes + rawBytes
    sawData := s.sawData || !rawChunk.isEmpty
    totalLines := s.totalLines + countNewlines rawChunk }
  if rawBytes = 0 then s
  else
    let visibleChunk := sanitize rawChunk
    let s := { s with
      processedBytes := s.processedBytes + byteLength visibleChunk
      processedLines := s.processedLines + countNewlines visibleChunk }
    if byteLength visibleChunk = 0 then s else s.retain options visibleChunk

def flushCoalesced (s : OutputSink) : OutputSink :=
  if s.coalesceBuf = [] then s
  else { s with coalesceBuf := [] }.ingest options sanitize s.coalesceBuf

def push (s : OutputSink) (chunk : Chars) : OutputSink :=
  if options.coalesceSanitize then
    let s := { s with coalesceBuf := s.coalesceBuf ++ chunk }
    if coalesceFlushChars ≤ unitLength s.coalesceBuf then s.flushCoalesced options sanitize else s
  else s.ingest options sanitize chunk

variable (formatMiddleElisionMarker : Nat → Nat → Chars)

/-- The summary `dump` composes once it has flushed what was coalesced, without a notice. -/
def summary (s : OutputSink) : OutputSummary :=
  let totalLines := if s.sawData then s.totalLines + 1 else 0
  let processedTotalLines := if s.sawData then s.processedLines + 1 else 0
  let headBytes := byteLength s.head
  let headLines := countNewlines s.head +
    (if 0 < headBytes ∧ s.head.getLast? ≠ some '\n' then 1 else 0)
  let tailBytes := byteLength s.buffer
  let tailLines := if s.buffer = [] then 0 else countNewlines s.buffer + 1
  if 0 < headBytes ∧ headBytes + tailBytes < s.processedBytes then
    let elidedBytes := s.processedBytes - headBytes - tailBytes
    let elidedLines := processedTotalLines - headLines - tailLines
    let marker := formatMiddleElisionMarker elidedLines elidedBytes
    let headSep := if s.head.getLast? = some '\n' then [] else ['\n']
    let tailSep := if s.buffer.head? = some '\n' then [] else ['\n']
    { output := s.head ++ headSep ++ marker ++ tailSep ++ s.buffer
      truncated := true
      totalLines := totalLines
      totalBytes := s.totalBytes
      outputLines := headLines + 1 + tailLines
      outputBytes := headBytes + byteLength marker + tailBytes + headSep.length + tailSep.length
      elidedBytes := some elidedBytes
      elidedLines := some elidedLines }
  else if 0 < headBytes then
    let body := s.head ++ s.buffer
    { output := body
      truncated := s.truncated
      totalLines := totalLines
      totalBytes := s.totalBytes
      outputLines := if body = [] then 0 else countNewlines body + 1
      outputBytes := headBytes + tailBytes
      elidedBytes := none
      elidedLines := none }
  else
    { output := s.buffer
      truncated := s.truncated
      totalLines := totalLines
      totalBytes := s.totalBytes
      outputLines := tailLines
      outputBytes := tailBytes
      elidedBytes := none
      elidedLines := none }

/-- The sink after a list of chunks, as `dump` finds it. -/
def afterChunks (chunks : List Chars) : OutputSink :=
  (chunks.foldl (push options sanitize) init).flushCoalesced options sanitize

def dump (chunks : List Chars) : OutputSummary :=
  (afterChunks options sanitize chunks).summary formatMiddleElisionMarker

end OutputSink

theorem retreat_to_lead {A bs B : List UInt8} {b : UInt8} (hb : isContinuation b = false)
    (hbs : ∀ x ∈ bs, isContinuation x = true) {j : Nat} (hj : j ≤ bs.length) :
    retreat (A ++ b :: bs ++ B) (A.length + j) = A.length := by
  induction j with
  | zero =>
    cases h : A.length with
    | zero => rfl
    | succ n =>
      have hget : (A ++ b :: bs ++ B)[n + 1]? = some b := by
        rw [← h]
        simp
      rw [retreat, hget]
      simp [hb]
  | succ j ih =>
    have hget : (A ++ b :: bs ++ B)[A.length + j + 1]? = some bs[j] := by
      rw [List.append_assoc, List.getElem?_append_right (by omega)]
      simp [show A.length + j + 1 - A.length = j + 1 by omega, List.getElem?_append,
        show j < bs.length by omega]
    rw [← Nat.add_assoc, retreat, hget]
    simp only [Option.map_some, Option.getD_some, hbs _ (List.getElem_mem _), if_true]
    exact ih (by omega)

theorem findUtf8BoundaryBackward_eq (t : Chars) (n : Nat) :
    findUtf8BoundaryBackward (utf8Bytes t) n = byteLength (fitPrefix n t) := by
  simp only [findUtf8BoundaryBackward, length_utf8Bytes]
  split
  case isTrue h => rw [fitPrefix_of_le (by omega)]
  case isFalse h =>
    obtain ⟨c, u, heq, hlt⟩ := fitPrefix_next (show n < byteLength t by omega)
    obtain ⟨b, bs, henc, hb, hbs⟩ := utf8EncodeChar_eq c
    have hle := byteLength_fitPrefix_le n t
    have hsize : bs.length + 1 = c.utf8Size := by
      rw [← String.length_utf8EncodeChar, henc, List.length_cons]
    have hbytes : utf8Bytes t = utf8Bytes (fitPrefix n t) ++ b :: bs ++ utf8Bytes u := by
      conv => lhs; rw [heq]
      rw [utf8Bytes_append, utf8Bytes_cons, henc, List.append_assoc]
    have hj : n - byteLength (fitPrefix n t) ≤ bs.length := by omega
    have hr := retreat_to_lead (A := utf8Bytes (fitPrefix n t)) (B := utf8Bytes u) hb hbs hj
    rw [← hbytes, length_utf8Bytes] at hr
    rw [show min (byteLength t) n = byteLength (fitPrefix n t) + (n - byteLength (fitPrefix n t)) by
      omega, hr]

theorem takeUnits_of_le {n : Nat} {t : Chars} (h : unitLength t ≤ n) : takeUnits n t = t := by
  induction t generalizing n with
  | nil => rfl
  | cons c t ih =>
    simp only [unitLength_cons] at h
    rw [takeUnits, if_pos (by omega), ih (by omega)]

theorem fitPrefix_window (t : Chars) (n : Nat) :
    fitPrefix n (takeUnits (min (unitLength t) n) t) = fitPrefix n t := by
  by_cases h : unitLength t ≤ n
  · rw [takeUnits_of_le (by omega)]
  · exact fitPrefix_takeUnits (by omega) t

theorem truncateHeadBytes_eq (t : Chars) (n : Nat) :
    truncateHeadBytes t n = (fitPrefix n t, byteLength (fitPrefix n t)) := by
  unfold truncateHeadBytes
  split
  case isTrue h =>
    have := byteLength_fitPrefix_le n t
    rw [byteLength_eq_zero.mp (show byteLength (fitPrefix n t) = 0 by omega)]
    rfl
  case isFalse h =>
  split
  case isTrue h => rw [fitPrefix_of_le h.2]
  case isFalse =>
    simp only [findUtf8BoundaryBackward_eq, fitPrefix_window]
    split
    case isTrue h => rw [byteLength_eq_zero.mp h]; rfl
    case isFalse =>
      obtain ⟨u, hu⟩ := isPrefix_fitPrefix n (takeUnits (min (unitLength t) n) t)
      have htake : (utf8Bytes (takeUnits (min (unitLength t) n) t)).take
          (byteLength (fitPrefix n t)) = utf8Bytes (fitPrefix n t) := by
        rw [← hu, utf8Bytes_append, fitPrefix_window, ← length_utf8Bytes, List.take_left]
      rw [htake, ofUtf8Bytes_utf8Bytes, length_utf8Bytes]

theorem takeWhile_utf8Bytes (t : Chars) : (utf8Bytes t).takeWhile isContinuation = [] := by
  cases t with
  | nil => rfl
  | cons c t =>
    obtain ⟨b, bs, henc, hb, -⟩ := utf8EncodeChar_eq c
    simp [utf8Bytes_cons, henc, hb]

theorem findUtf8BoundaryForward_append (A B : List UInt8) (k : Nat) :
    findUtf8BoundaryForward (A ++ B) (A.length + k) = A.length + findUtf8BoundaryForward B k := by
  rw [findUtf8BoundaryForward, List.drop_append, List.drop_eq_nil_of_le (by omega),
    Nat.add_sub_cancel_left, findUtf8BoundaryForward, Nat.add_assoc]
  rfl

theorem findUtf8BoundaryForward_inside {b : UInt8} {bs : List UInt8}
    (hbs : ∀ x ∈ bs, isContinuation x = true) (t : Chars) {k : Nat} (hpos : 0 < k)
    (hk : k ≤ (b :: bs).length) :
    findUtf8BoundaryForward (b :: bs ++ utf8Bytes t) k = (b :: bs).length := by
  have hcont : ∀ x ∈ (b :: bs).drop k, isContinuation x = true := by
    intro x hx
    rw [show k = (k - 1) + 1 by omega, List.drop_succ_cons] at hx
    exact hbs x (List.mem_of_mem_drop hx)
  rw [findUtf8BoundaryForward, List.drop_append_of_le_length hk,
    List.takeWhile_append_of_pos hcont, takeWhile_utf8Bytes, List.append_nil, List.length_drop]
  omega

theorem drop_findUtf8BoundaryForward (t : Chars) (n : Nat) :
    (utf8Bytes t).drop (findUtf8BoundaryForward (utf8Bytes t) (byteLength t - n)) =
      utf8Bytes (fitSuffix n t) := by
  induction t with
  | nil => simp [utf8Bytes, fitSuffix]
  | cons c t ih =>
    simp only [fitSuffix]
    split
    case isTrue h =>
      rw [Nat.sub_eq_zero_of_le h, findUtf8BoundaryForward, List.drop_zero, takeWhile_utf8Bytes]
      rfl
    case isFalse h =>
      obtain ⟨b, bs, henc, -, hbs⟩ := utf8EncodeChar_eq c
      have hsize : (b :: bs).length = c.utf8Size := by
        rw [← String.length_utf8EncodeChar, henc]
      rw [byteLength_cons] at h ⊢
      rw [utf8Bytes_cons, henc]
      by_cases hn : n ≤ byteLength t
      · rw [show c.utf8Size + byteLength t - n = (b :: bs).length + (byteLength t - n) by omega,
          findUtf8BoundaryForward_append, List.drop_append, List.drop_eq_nil_of_le (by omega),
          Nat.add_sub_cancel_left, ih]
        rfl
      · rw [findUtf8BoundaryForward_inside hbs t (by omega) (by omega), List.drop_left,
          fitSuffix_of_le (by omega)]

theorem truncateTailBytes_eq (t : Chars) (n : Nat) :
    truncateTailBytes t n = (fitSuffix n t, byteLength (fitSuffix n t)) := by
  unfold truncateTailBytes
  split
  case isTrue h =>
    have := byteLength_fitSuffix_le n t
    rw [byteLength_eq_zero.mp (show byteLength (fitSuffix n t) = 0 by omega)]
    rfl
  case isFalse h =>
  split
  case isTrue h => rw [fitSuffix_of_le h.2]
  case isFalse =>
    simp only [length_utf8Bytes, drop_findUtf8BoundaryForward, ofUtf8Bytes_utf8Bytes,
      fitSuffix_dropUnits (Nat.le_refl n)]

namespace OutputSink

variable {options : OutputSinkOptions} {s : OutputSink} {text chunk : Chars}

structure Counted (s : OutputSink) : Prop where
  head : s.headBytes = byteLength s.head
  buffer : s.bufferBytes = byteLength s.buffer

theorem pushTail_spec (options : OutputSinkOptions) (h : Counted s) (chunk : Chars) :
    ∃ tail truncated, tail <:+ s.buffer ++ chunk ∧
      s.pushTail options chunk (byteLength chunk) =
        { s with buffer := tail, bufferBytes := byteLength tail, truncated := truncated } := by
  unfold pushTail
  split
  case isTrue hz =>
    have hnil := byteLength_eq_zero.mp hz
    exact ⟨s.buffer, s.truncated, by simp [hnil], by rw [← h.buffer]⟩
  case isFalse =>
  split
  case isTrue =>
    refine ⟨s.buffer ++ chunk, s.truncated, List.suffix_refl _, ?_⟩
    simp [appendTail, h.buffer]
  case isFalse =>
  split
  case isTrue =>
    refine ⟨fitSuffix options.spillThreshold chunk, true, ?_, ?_⟩
    · exact (fitSuffix_suffix _ _).trans (List.suffix_append _ _)
    · simp [setTail, truncateTailBytes_eq]
  case isFalse =>
    refine ⟨fitSuffix options.spillThreshold (s.buffer ++ chunk), true, fitSuffix_suffix _ _, ?_⟩
    simp only [appendTail, trimTailTo, h.buffer]
    split
    case isTrue hle =>
      rw [fitSuffix_of_le (by simpa using hle)]
      simp
    case isFalse => simp [setTail, truncateTailBytes_eq]

theorem dropUnits_append (t u : Chars) : dropUnits (unitLength t) (t ++ u) = u := by
  induction t with
  | nil =>
    cases u with
    | nil => rfl
    | cons c u => simp [dropUnits]
  | cons c t ih =>
    have := utf16Size_le c
    rw [List.cons_append, dropUnits, if_neg (by simp; omega), if_pos (by simp), unitLength_cons,
      Nat.add_sub_cancel_left, ih]

def room (options : OutputSinkOptions) (s : OutputSink) : Nat := options.headBytes - s.headBytes

theorem retain_eq (s : OutputSink) {kept rest : Chars}
    (hkept : kept = fitPrefix (room options s) chunk) (hrest : chunk = kept ++ rest) :
    s.retain options chunk = (s.appendHead kept (byteLength kept)).pushTail options rest
      (byteLength rest) := by
  have hsame : s.appendHead [] 0 = s := by simp [appendHead]
  simp only [retain]
  split
  case isTrue hroom =>
    split
    case isTrue hfits =>
      have hall : kept = chunk := hkept.trans (fitPrefix_of_le hfits)
      have hnil : rest = [] := by simpa [hall] using hrest
      simp [hall, hnil, pushTail]
    case isFalse =>
      simp only [truncateHeadBytes_eq]
      rw [← room, ← hkept]
      split
      case isTrue =>
        rw [hrest, dropUnits_append, byteLength_append, Nat.add_sub_cancel_left]
      case isFalse hzero =>
        have hnil : kept = [] := byteLength_eq_zero.mp (by omega)
        rw [hrest, hnil]
        simp [hsame]
  case isFalse hroom =>
    have hle := byteLength_fitPrefix_le (room options s) chunk
    have hnil : kept = [] := by
      apply byteLength_eq_zero.mp
      simp only [room] at hle hkept
      rw [hkept]
      omega
    rw [hrest, hnil]
    simp [hsame]

def account (s : OutputSink) (chunk : Chars) : OutputSink :=
  { s with
    totalBytes := s.totalBytes + byteLength chunk
    sawData := s.sawData || !chunk.isEmpty
    totalLines := s.totalLines + countNewlines chunk
    processedBytes := s.processedBytes + byteLength chunk
    processedLines := s.processedLines + countNewlines chunk }

theorem ingest_eq {sanitize : Chars → Chars} (hs : sanitize chunk = chunk) :
    s.ingest options sanitize chunk = (s.account chunk).retain options chunk := by
  simp only [ingest, hs]
  by_cases hz : byteLength chunk = 0
  · have hnil := byteLength_eq_zero.mp hz
    subst hnil
    simp [account, retain, appendHead, pushTail, countNewlines]
  · rw [if_neg hz, if_neg hz]
    rfl

structure Ingests (options : OutputSinkOptions) (s s' : OutputSink) (chunk : Chars) : Prop where
  counted : Counted s'
  processed : s'.processedBytes = s.processedBytes + byteLength chunk
  coalesced : s'.coalesceBuf = s.coalesceBuf
  head : s'.head = s.head ++ fitPrefix (room options s) chunk
  tail : ∃ rest, chunk = fitPrefix (room options s) chunk ++ rest ∧ s'.buffer <:+ s.buffer ++ rest

theorem ingest_spec (options : OutputSinkOptions) {sanitize : Chars → Chars} (h : Counted s)
    (hs : sanitize chunk = chunk) :
    Ingests options s (s.ingest options sanitize chunk) chunk := by
  obtain ⟨rest, hrest⟩ := isPrefix_fitPrefix (room options s) chunk
  have hcounted : Counted ((s.account chunk).appendHead (fitPrefix (room options s) chunk)
      (byteLength (fitPrefix (room options s) chunk))) :=
    ⟨by simp [appendHead, account, h.head], h.buffer⟩
  obtain ⟨tail, truncated, hsuffix, heq⟩ := pushTail_spec options hcounted rest
  have hretain := retain_eq (s.account chunk)
    (show fitPrefix (room options s) chunk =
    fitPrefix (room options (s.account chunk)) chunk from rfl)
    hrest.symm
  rw [ingest_eq hs, hretain, heq]
  exact ⟨⟨hcounted.head, rfl⟩, rfl, rfl, rfl, rest, hrest.symm, hsuffix⟩

structure InOrder (options : OutputSinkOptions) (s : OutputSink) (text : Chars) : Prop where
  counted : Counted s
  processed : s.processedBytes = byteLength text
  head : s.head = fitPrefix options.headBytes text
  middle : ∃ mid, text = s.head ++ mid ++ s.buffer

def Broken (s : OutputSink) (text : Chars) : Prop :=
  ∃ common c u d v, text = common ++ c :: u ∧ s.head = common ++ d :: v ∧ c ≠ d

/-- Once `text` has overflowed the head, a chunk behind it starts with a character for which the head
has no room left. -/
def LeavesHead (limit : Nat) (text chunk : Chars) : Prop :=
  limit < byteLength text → ∀ c ∈ chunk.head?, limit < byteLength (fitPrefix limit text) + c.utf8Size

theorem Broken.not_isPrefix (h : Broken s text) : ¬s.head <+: text := by
  obtain ⟨common, c, u, d, v, rfl, hhead, hne⟩ := h
  rw [hhead, List.prefix_append_right_inj]
  intro hp
  exact hne (List.cons_prefix_cons.mp hp).1.symm

theorem Broken.ingest {s' : OutputSink} (h : Broken s text) (hi : Ingests options s s' chunk) :
    Broken s' (text ++ chunk) := by
  obtain ⟨common, c, u, d, v, rfl, hhead, hne⟩ := h
  refine ⟨common, c, u ++ chunk, d, v ++ fitPrefix (room options s) chunk, by simp, ?_, hne⟩
  rw [hi.head, hhead]
  simp

theorem fitPrefix_eq_nil_of_lt {n : Nat} (h : ∀ c ∈ chunk.head?, n < c.utf8Size) :
    fitPrefix n chunk = [] := by
  cases chunk with
  | nil => rfl
  | cons c chunk =>
    have := h c rfl
    rw [fitPrefix, if_neg (by omega)]

theorem InOrder.ingest {s' : OutputSink} (h : InOrder options s text)
    (hi : Ingests options s s' chunk) (hl : LeavesHead options.headBytes text chunk) :
    InOrder options s' (text ++ chunk) := by
  obtain ⟨mid, hmid⟩ := h.middle
  obtain ⟨rest, hrest, before, hbefore⟩ := hi.tail
  have hroom : room options s = options.headBytes - byteLength s.head := by
    rw [room, h.counted.head]
  have hprocessed : s'.processedBytes = byteLength (text ++ chunk) := by
    rw [hi.processed, h.processed, byteLength_append]
  by_cases hfull : byteLength text ≤ options.headBytes
  · -- all of the text is in the head
    have hhead : s.head = text := h.head.trans (fitPrefix_of_le hfull)
    have hempty : mid = [] ∧ s.buffer = [] := by simpa [hhead] using hmid
    refine ⟨hi.counted, hprocessed, ?_, before, ?_⟩
    · rw [hi.head, fitPrefix_append_of_le hfull, hroom, hhead]
    · conv => lhs; rw [hrest]
      rw [hi.head, hhead, List.append_assoc, List.append_assoc, hbefore, hempty.2]
      simp
  · have hnil : fitPrefix (room options s) chunk = [] := by
      apply fitPrefix_eq_nil_of_lt
      intro c hc
      have := hl (by omega) c hc
      have := c.utf8Size_pos
      rw [hroom, h.head]
      omega
    rw [hnil] at hrest
    refine ⟨hi.counted, hprocessed, ?_, mid ++ before, ?_⟩
    · rw [hi.head, hnil, List.append_nil, fitPrefix_append_of_lt (by omega), h.head]
    · conv => lhs; rw [hmid, hrest]
      rw [hi.head, hnil]
      simp only [List.append_assoc, List.append_nil, List.nil_append] at hbefore ⊢
      rw [hbefore]

theorem InOrder.broken {s' : OutputSink} (h : InOrder options s text)
    (hi : Ingests options s s' chunk) (hl : ¬LeavesHead options.headBytes text chunk) :
    Broken s' (text ++ chunk) := by
  simp only [LeavesHead, not_forall] at hl
  obtain ⟨hlong, d, hd, hfits⟩ := hl
  obtain ⟨c, u, heq, hwide⟩ := fitPrefix_next hlong
  have hroom : room options s = options.headBytes -
      byteLength (fitPrefix options.headBytes text) := by
    rw [room, h.counted.head, h.head]
  obtain ⟨rest, hchunk⟩ : ∃ rest, chunk = d :: rest := by
    cases chunk with
    | nil => cases hd
    | cons c chunk =>
      cases hd
      exact ⟨_, rfl⟩
  refine ⟨fitPrefix options.headBytes text, c, u ++ chunk, d,
    fitPrefix (room options s - d.utf8Size) rest, ?_, ?_, ?_⟩
  · conv => lhs; rw [heq]
    simp
  · rw [hi.head, h.head, hchunk, fitPrefix, if_pos (by omega)]
  · rintro rfl
    omega

/-- Every chunk behind an overflow of the head leaves the head alone. -/
def KeepsOrder (limit : Nat) (chunks : List Chars) : Prop :=
  ∀ before chunk after, chunks = before ++ chunk :: after →
    LeavesHead limit before.flatten chunk

theorem keepsOrder_nil (limit : Nat) : KeepsOrder limit [] := by
  intro before chunk after heq
  simp at heq

theorem keepsOrder_concat {limit : Nat} {chunks : List Chars} {chunk : Chars} :
    KeepsOrder limit (chunks ++ [chunk]) ↔
      KeepsOrder limit chunks ∧ LeavesHead limit chunks.flatten chunk := by
  constructor
  · intro h
    exact ⟨fun before d after hd => h before d (after ++ [chunk]) (by simp [hd]),
      h chunks chunk [] rfl⟩
  · rintro ⟨h, hlast⟩ before d after heq
    obtain rfl | ⟨after, last, rfl⟩ := after.eq_nil_or_concat
    · obtain ⟨rfl, rfl⟩ : chunks = before ∧ chunk = d := by simpa using heq
      exact hlast
    · rw [List.concat_eq_append, ← List.cons_append, ← List.append_assoc] at heq
      exact h before d after (List.append_inj_left' heq rfl)

theorem inOrder_init (options : OutputSinkOptions) : InOrder options init [] :=
  ⟨⟨rfl, rfl⟩, rfl, by simp [init, fitPrefix], [], rfl⟩

theorem foldl_ingest (options : OutputSinkOptions) {sanitize : Chars → Chars} (chunks : List Chars)
    (hs : ∀ chunk ∈ chunks, sanitize chunk = chunk) :
    (KeepsOrder options.headBytes chunks →
      InOrder options (chunks.foldl (ingest options sanitize) init) chunks.flatten) ∧
    (¬KeepsOrder options.headBytes chunks →
      Broken (chunks.foldl (ingest options sanitize) init) chunks.flatten) ∧
    Counted (chunks.foldl (ingest options sanitize) init) := by
  induction chunks using List.reverseRecOn with
  | nil =>
    exact ⟨fun _ => inOrder_init options, fun h => absurd (keepsOrder_nil _) h, ⟨rfl, rfl⟩⟩
  | append_singleton chunks chunk ih =>
    obtain ⟨hgood, hbad, hcounted⟩ := ih fun c hc => hs c (by simp [hc])
    have hi := ingest_spec options hcounted (hs chunk (by simp))
    rw [List.foldl_append, List.flatten_append, keepsOrder_concat]
    simp only [List.foldl_cons, List.foldl_nil, List.flatten_cons, List.flatten_nil, List.append_nil]
    refine ⟨fun h => (hgood h.1).ingest hi h.2, fun h => ?_, hi.counted⟩
    by_cases hk : KeepsOrder options.headBytes chunks
    · exact (hgood hk).broken hi fun hl => h ⟨hk, hl⟩
    · exact (hbad hk).ingest hi

def coalesce (held : Chars) : List Chars → List Chars
  | [] => if held = [] then [] else [held]
  | chunk :: chunks =>
    if coalesceFlushChars ≤ unitLength (held ++ chunk) then (held ++ chunk) :: coalesce [] chunks
    else coalesce (held ++ chunk) chunks

/-- The texts that reach `#ingest` when `chunks` are pushed and the sink is dumped. -/
def batches (options : OutputSinkOptions) (chunks : List Chars) : List Chars :=
  if options.coalesceSanitize then coalesce [] chunks else chunks

theorem flatten_coalesce (held : Chars) (chunks : List Chars) :
    (coalesce held chunks).flatten = held ++ chunks.flatten := by
  induction chunks generalizing held with
  | nil =>
    simp only [coalesce]
    split <;> simp_all
  | cons chunk chunks ih =>
    simp only [coalesce]
    split <;> simp [ih]

theorem flatten_batches (options : OutputSinkOptions) (chunks : List Chars) :
    (batches options chunks).flatten = chunks.flatten := by
  unfold batches
  split <;> simp [flatten_coalesce]

theorem trimTailTo_coalesceBuf (s : OutputSink) (n : Nat) :
    (s.trimTailTo n).coalesceBuf = s.coalesceBuf := by
  unfold trimTailTo
  split <;> rfl

theorem pushTail_coalesceBuf (s : OutputSink) (chunk : Chars) (n : Nat) :
    (s.pushTail options chunk n).coalesceBuf = s.coalesceBuf := by
  simp only [pushTail]
  split_ifs
  · rfl
  · rfl
  · rfl
  · exact trimTailTo_coalesceBuf _ _

theorem ingest_coalesceBuf (sanitize : Chars → Chars) (s : OutputSink) (chunk : Chars) :
    (s.ingest options sanitize chunk).coalesceBuf = s.coalesceBuf := by
  simp only [ingest, retain, appendHead]
  split_ifs <;> simp [pushTail_coalesceBuf]

theorem uncoalesced (h : s.coalesceBuf = []) : { s with coalesceBuf := [] } = s := by
  cases s
  simp_all

theorem foldl_push_coalesce {sanitize : Chars → Chars} (hc : options.coalesceSanitize = true)
    (chunks : List Chars) (s : OutputSink) :
    (chunks.foldl (push options sanitize) s).flushCoalesced options sanitize =
      (coalesce s.coalesceBuf chunks).foldl (ingest options sanitize)
      { s with coalesceBuf := [] } := by
  induction chunks generalizing s with
  | nil =>
    simp only [List.foldl_nil, flushCoalesced, coalesce]
    by_cases h : s.coalesceBuf = []
    · simp [h, uncoalesced h]
    · simp [h]
  | cons chunk chunks ih =>
    simp only [List.foldl_cons, ih, coalesce, push, hc, if_true]
    by_cases h : coalesceFlushChars ≤ unitLength (s.coalesceBuf ++ chunk)
    · have hne : s.coalesceBuf ++ chunk ≠ [] := by
        intro hnil
        simp [hnil, coalesceFlushChars] at h
      simp only [h, if_true, flushCoalesced, hne, if_false, ingest_coalesceBuf, List.foldl_cons]
      rw [uncoalesced (ingest_coalesceBuf sanitize _ _)]
    · simp only [h, if_false]

theorem afterChunks_eq (options : OutputSinkOptions) (sanitize : Chars → Chars)
    (chunks : List Chars) :
    afterChunks options sanitize chunks =
      (batches options chunks).foldl (ingest options sanitize) init := by
  unfold afterChunks batches
  split
  case isTrue hc => exact foldl_push_coalesce hc chunks init
  case isFalse hc =>
    have hpush : push options sanitize = ingest options sanitize := by
      funext s chunk
      simp [push, hc]
    have hnil : ∀ s : OutputSink, s.coalesceBuf = [] →
        (chunks.foldl (ingest options sanitize) s).coalesceBuf = [] := by
      induction chunks with
      | nil => exact fun s h => h
      | cons chunk chunks ih => exact fun s h => ih _ ((ingest_coalesceBuf sanitize s chunk).trans h)
    rw [hpush, flushCoalesced, if_pos (hnil init rfl)]

theorem summary_output (marker : Nat → Nat → Chars) (s : OutputSink)
    (h : s.processedBytes ≤ byteLength s.head + byteLength s.buffer) :
    (s.summary marker).output = s.head ++ s.buffer := by
  unfold summary
  simp only
  rw [if_neg (by omega)]
  split
  · rfl
  case isFalse hz =>
    have hnil : s.head = [] := byteLength_eq_zero.mp (by omega)
    simp [hnil]

/-- The retained head is a prefix of what was pushed, the tail a suffix, and the body all of it when
nothing was elided, exactly if every batch behind an overflow of the head starts with a character
that the head has no room for. -/
theorem windows_in_order_iff (options : OutputSinkOptions) (sanitize : Chars → Chars)
    (marker : Nat → Nat → Chars) (chunks : List Chars)
    (hs : ∀ batch ∈ batches options chunks, sanitize batch = batch) :
    ((afterChunks options sanitize chunks).head <+: chunks.flatten ∧
      (afterChunks options sanitize chunks).buffer <:+ chunks.flatten ∧
      (byteLength chunks.flatten ≤ byteLength (afterChunks options sanitize chunks).head +
          byteLength (afterChunks options sanitize chunks).buffer →
        (dump options sanitize marker chunks).output = chunks.flatten)) ↔
      KeepsOrder options.headBytes (batches options chunks) := by
  obtain ⟨hgood, hbad, -⟩ := foldl_ingest options (batches options chunks) hs
  rw [← afterChunks_eq, flatten_batches] at hgood hbad
  constructor
  · intro h
    by_contra hk
    exact (hbad hk).not_isPrefix h.1
  · intro hk
    have ho := hgood hk
    obtain ⟨mid, hmid⟩ := ho.middle
    refine ⟨⟨mid ++ _, by rw [← List.append_assoc, ← hmid]⟩, ⟨_, hmid.symm⟩, fun hall => ?_⟩
    have hnil : mid = [] := by
      apply byteLength_eq_zero.mp
      rw [hmid] at hall
      simp only [byteLength_append] at hall
      omega
    rw [dump, summary_output _ _ (ho.processed ▸ hall)]
    conv => rhs; rw [hmid, hnil]
    simp

theorem wide_characters_go_to_tail :
    (∀ batch ∈ batches ⟨100, 2, false⟩ [['a'], ['é'], ['é']], id batch = batch) ∧
    (afterChunks ⟨100, 2, false⟩ id [['a'], ['é'], ['é']]).head <+: ['a', 'é', 'é'] ∧
    (afterChunks ⟨100, 2, false⟩ id [['a'], ['é'], ['é']]).buffer <:+ ['a', 'é', 'é'] ∧
    (byteLength ['a', 'é', 'é'] ≤
        byteLength (afterChunks ⟨100, 2, false⟩ id [['a'], ['é'], ['é']]).head +
          byteLength (afterChunks ⟨100, 2, false⟩ id [['a'], ['é'], ['é']]).buffer →
      (dump ⟨100, 2, false⟩ id (fun _ _ => []) [['a'], ['é'], ['é']]).output = ['a', 'é', 'é']) := by
  have hk : KeepsOrder 2 ((([] ++ [['a']]) ++ [['é']]) ++ [['é']]) := by
    refine keepsOrder_concat.mpr ⟨keepsOrder_concat.mpr ⟨keepsOrder_concat.mpr
      ⟨keepsOrder_nil 2, ?_⟩, ?_⟩, ?_⟩ <;> rintro h c ⟨⟩ <;> revert h <;> decide
  exact ⟨fun _ _ => rfl, (windows_in_order_iff ⟨100, 2, false⟩ id (fun _ _ => [])
    [['a'], ['é'], ['é']] fun _ _ => rfl).mpr hk⟩

theorem late_chunk_jumps_into_head :
    (dump ⟨100, 2, false⟩ id (fun _ _ => []) [['a'], ['é'], ['b']]).output = ['a', 'b', 'é'] ∧
    ¬((afterChunks ⟨100, 2, false⟩ id [['a'], ['é'], ['b']]).head <+: ['a', 'é', 'b'] ∧
      (afterChunks ⟨100, 2, false⟩ id [['a'], ['é'], ['b']]).buffer <:+ ['a', 'é', 'b'] ∧
      (byteLength ['a', 'é', 'b'] ≤
          byteLength (afterChunks ⟨100, 2, false⟩ id [['a'], ['é'], ['b']]).head +
            byteLength (afterChunks ⟨100, 2, false⟩ id [['a'], ['é'], ['b']]).buffer →
        (dump ⟨100, 2, false⟩ id (fun _ _ => []) [['a'], ['é'], ['b']]).output =
          ['a', 'é', 'b'])) := by
  decide +kernel

end OutputSink

end JevCode.Session
