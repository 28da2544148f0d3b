import Mathlib.Data.List.Basic
import Mathlib.Data.List.SplitBy
import Mathlib.Data.List.TakeDrop
import Mathlib.Data.List.TakeWhile

/-! `stream.ts`: the line buffer `ConcatSink` and the reader of server-sent events built on it.  The
UTF-8 decoder is a parameter, and so is what a fresh buffer holds. -/

namespace JevCode.Utils

abbrev Bytes := List UInt8

def lf : UInt8 := 0x0a
def cr : UInt8 := 0x0d
def colon : UInt8 := 0x3a

structure Allocator where
  allocUnsafe : Nat → Bytes
  length_allocUnsafe : ∀ n, (allocUnsafe n).length = n

/-- `space` is the reusable buffer, empty while it is undefined; `length` of its bytes are in use. -/
structure ConcatSink where
  space : Bytes
  length : Nat
  fits : length ≤ space.length

namespace ConcatSink

def empty : ConcatSink := ⟨[], 0, Nat.le_refl 0⟩

def isEmpty (sink : ConcatSink) : Bool := sink.length = 0

def clear (sink : ConcatSink) : ConcatSink := ⟨sink.space, 0, Nat.zero_le _⟩

def flush (sink : ConcatSink) : Option Bytes :=
  if sink.length = 0 then none else some (sink.space.take sink.length)

variable (A : Allocator)

def ensureCapacity (sink : ConcatSink) (size : Nat) : ConcatSink :=
  if size ≤ sink.space.length then sink
  else
    let nextSize := max size (sink.space.length * 2)
    let next := A.allocUnsafe nextSize
    { space := sink.space.take sink.length ++ next.drop sink.length
      length := sink.length
      fits := by
        have := sink.fits
        simp only [List.length_append, List.length_take, next]
        omega }

theorem length_ensureCapacity (sink : ConcatSink) (size : Nat) :
    (sink.ensureCapacity A size).length = sink.length ∧
      size ≤ (sink.ensureCapacity A size).space.length := by
  have := sink.fits
  unfold ensureCapacity
  split
  · exact ⟨rfl, by assumption⟩
  · simp only [List.length_append, List.length_take, List.length_drop, A.length_allocUnsafe]
    exact ⟨trivial, by omega⟩

def append (sink : ConcatSink) (chunk : Bytes) : ConcatSink :=
  if chunk = [] then sink
  else
    let grown := sink.ensureCapacity A (sink.length + chunk.length)
    { space := grown.space.take sink.length ++ chunk ++ grown.space.drop (sink.length + chunk.length)
      length := sink.length + chunk.length
      fits := by
        have := (length_ensureCapacity A sink (sink.length + chunk.length)).2
        simp only [List.length_append, List.length_take, grown]
        omega }

def exceeds (n : Nat) : Option Int → Bool
  | none => false
  | some limit => limit < n

/-- The loop `for (const line of sink.appendAndFlushLines(chunk, maxLineBytes)) body(line)`.  `s` is
what the body changes, and `maxLineBytes` is read anew for every line; `chunk` is what the generator
has not looked at.  The flag says whether it threw. -/
def appendAndFlushLines {σ : Type} (maxLineBytes : σ → Option Int) (body : σ → Bytes → σ)
    (sink : ConcatSink) (s : σ) (chunk : Bytes) : ConcatSink × σ × Bool :=
  if chunk = [] then (sink, s, false)
  else
    match chunk.idxOf? lf with
    | none =>
      if exceeds (sink.length + chunk.length) (maxLineBytes s) then (sink, s, true)
      else (sink.append A chunk, s, false)
    | some nl =>
      let suffix := chunk.take nl
      let rest := chunk.drop (nl + 1)
      if exceeds (sink.length + suffix.length + 1) (maxLineBytes s) then (sink, s, true)
      else if sink.isEmpty then appendAndFlushLines maxLineBytes body sink (body s suffix) rest
      else
        let sink := sink.append A suffix
        match sink.flush with
        | some payload => appendAndFlushLines maxLineBytes body sink.clear (body s payload) rest
        | none => appendAndFlushLines maxLineBytes body sink s rest
termination_by chunk.length
decreasing_by
  all_goals
    have := List.length_pos_iff.mpr ‹¬chunk = []›
    simp only [List.length_drop]
    omega

end ConcatSink

structure ServerSentEvent where
  event : Option String
  data : String
  raw : List String
  deriving DecidableEq

structure SseEventState where
  event : Option String
  data : Option String
  raw : List String
  deriving DecidableEq

def SseEventState.init : SseEventState := ⟨none, none, []⟩

def flushSseEvent (state : SseEventState) : SseEventState × Option ServerSentEvent :=
  if state.event = none ∧ state.data = none then ({ state with raw := [] }, none)
  else (.init, some ⟨state.event, state.data.getD "", state.raw⟩)

def sseField (text : String) : String × String :=
  match text.toList.span (· ≠ ':') with
  | (name, []) => (String.ofList name, "")
  | (name, _ :: ' ' :: value) => (String.ofList name, String.ofList value)
  | (name, _ :: value) => (String.ofList name, String.ofList value)

def pushField (state : SseEventState) (field : String × String) : SseEventState :=
  if field.1 = "event" then { state with event := some field.2 }
  else if field.1 = "data" then
    match state.data with
    | none => { state with data := some field.2 }
    | some data => { state with data := some (data ++ "\n" ++ field.2) }
  else state

section

variable (decode : Bytes → String)

def pushSseLine (line : Bytes) (state : SseEventState) : SseEventState × Option ServerSentEvent :=
  let stripped := if line.getLast? = some cr then line.dropLast else line
  if stripped = [] then flushSseEvent state
  else
    let text := decode stripped
    let state := { state with raw := state.raw ++ [text] }
    if line.head? = some colon then (state, none) else (pushField state (sseField text), none)

structure SseReadOptions where
  maxEventBytes : Option Int
  maxTotalBytes : Option Int

inductive SseError
  | event
  | stream
  deriving DecidableEq

def SseError.message : SseError → String
  | .event => "SSE event exceeds size limit"
  | .stream => "SSE stream exceeds size limit"

structure SseOutcome where
  events : List ServerSentEvent
  error : Option SseError
  deriving DecidableEq

structure SseReader where
  state : SseEventState
  eventBytes : Nat
  events : List ServerSentEvent
  deriving DecidableEq

namespace SseReader

def init : SseReader := ⟨.init, 0, []⟩

def maxLineBytes (maxEventBytes : Option Int) (r : SseReader) : Option Int :=
  maxEventBytes.map (· - r.eventBytes)

def isBlank (line : Bytes) : Bool := line = [] ∨ line = [cr]

def takeLine (r : SseReader) (line : Bytes) : SseReader :=
  let (state, event) := pushSseLine decode line r.state
  { state := state
    eventBytes := if isBlank line then 0 else r.eventBytes + (line.length + 1)
    events := r.events ++ event.toList }

/-- The end of the stream: a partial line counts as a line, and a pending event is yielded. -/
def finish (r : SseReader) (tail : Option Bytes) : SseOutcome :=
  let (state, event) := match tail with
    | some tail => pushSseLine decode tail r.state
    | none => (r.state, none)
  ⟨r.events ++ event.toList ++ (flushSseEvent state).2.toList, none⟩

end SseReader

open SseReader ConcatSink

def readChunks (A : Allocator) (options : SseReadOptions) (lineBuffer : ConcatSink) (r : SseReader)
    (totalBytes : Nat) : List Bytes → SseOutcome
  | [] => r.finish decode lineBuffer.flush
  | chunk :: chunks =>
    let totalBytes := totalBytes + chunk.length
    if exceeds totalBytes options.maxTotalBytes then ⟨r.events, some .stream⟩
    else
      match lineBuffer.appendAndFlushLines A (maxLineBytes options.maxEventBytes)
        (takeLine decode) r chunk with
      | (_, r, true) => ⟨r.events, some .event⟩
      | (lineBuffer, r, false) => readChunks A options lineBuffer r totalBytes chunks

def readSseEvents (A : Allocator) (options : SseReadOptions) (chunks : List Bytes) : SseOutcome :=
  readChunks decode A options .empty .init 0 chunks

def cutAfter {α : Type} (ends : α → Bool) (xs : List α) : List (List α) :=
  xs.splitBy fun x _ => !ends x

def withoutEnd (byte : UInt8) (line : Bytes) : Bytes :=
  if line.getLast? = some byte then line.dropLast else line

def content (line : Bytes) : Bytes := withoutEnd cr (withoutEnd lf line)

def streamEvents (bytes : Bytes) : List (List Bytes) :=
  cutAfter (fun line => content line = []) (cutAfter (· = lf) bytes)

def contents (group : List Bytes) : List Bytes := (group.map content).filter (· ≠ [])

def field? (name text : String) : Option String :=
  if text = name then some ""
  else if name.toList ++ [':', ' '] <+: text.toList
    then some (String.ofList (text.toList.drop (name.length + 2)))
  else if name.toList ++ [':'] <+: text.toList
    then some (String.ofList (text.toList.drop (name.length + 1)))
  else none

def fieldValues (name : String) (group : List Bytes) : List String :=
  ((contents group).filter fun line => line.head? ≠ some colon).filterMap fun line =>
    field? name (decode line)

def eventOf (group : List Bytes) : Option ServerSentEvent :=
  let names := fieldValues decode "event" group
  let data := fieldValues decode "data" group
  if names = [] ∧ data = [] then none
  else some ⟨names.getLast?, "\n".intercalate data, (contents group).map decode⟩

/-- The events of a whole stream, up to the first that is too long. -/
def referenceParse (maxEventBytes : Option Int) (bytes : Bytes) : SseOutcome :=
  let groups := streamEvents bytes
  let short := groups.takeWhile fun group => !exceeds group.flatten.length maxEventBytes
  ⟨short.filterMap (eventOf decode), if short.length = groups.length then none else some .event⟩

def cutLines : Bytes → List Bytes × Bytes
  | [] => ([], [])
  | b :: bytes =>
    match cutLines bytes with
    | (lines, tail) =>
      if b = lf then ([] :: lines, tail)
      else
        match lines with
        | [] => ([], b :: tail)
        | line :: lines => ((b :: line) :: lines, tail)

def lineByLine (maxEventBytes : Option Int) (tail : Bytes) (r : SseReader) :
    List Bytes → SseOutcome
  | [] =>
    if tail = [] then r.finish decode none
    else if exceeds tail.length (r.maxLineBytes maxEventBytes) then ⟨r.events, some .event⟩
    else r.finish decode (some tail)
  | line :: lines =>
    if exceeds (line.length + 1) (r.maxLineBytes maxEventBytes) then ⟨r.events, some .event⟩
    else lineByLine maxEventBytes tail (r.takeLine decode line) lines

end

namespace ConcatSink

variable (A : Allocator)

def contents (sink : ConcatSink) : Bytes := sink.space.take sink.length

@[simp] theorem contents_empty : empty.contents = [] := rfl

@[simp] theorem contents_clear (sink : ConcatSink) : sink.clear.contents = [] := by
  simp [contents, clear]

theorem length_contents (sink : ConcatSink) : sink.contents.length = sink.length := by
  simp [contents, sink.fits]

theorem isEmpty_iff (sink : ConcatSink) : sink.isEmpty = true ↔ sink.contents = [] := by
  rw [← List.length_eq_zero_iff, length_contents]
  simp [isEmpty]

theorem flush_eq (sink : ConcatSink) :
    sink.flush = if sink.contents = [] then none else some sink.contents := by
  simp only [flush, ← List.length_eq_zero_iff, length_contents]
  rfl

theorem contents_ensureCapacity (sink : ConcatSink) (size : Nat) :
    (sink.ensureCapacity A size).contents = sink.contents := by
  have := sink.fits
  unfold ensureCapacity
  split
  · rfl
  · simp [contents, this]

@[simp] theorem contents_append (sink : ConcatSink) (chunk : Bytes) :
    (sink.append A chunk).contents = sink.contents ++ chunk := by
  unfold append
  split
  case isTrue h => simp [h]
  case isFalse h =>
    have hlen := length_ensureCapacity A sink (sink.length + chunk.length)
    have hgrown := contents_ensureCapacity A sink (sink.length + chunk.length)
    rw [← hgrown]
    simp only [contents, hlen.1]
    rw [List.take_left']
    simp only [List.length_append, List.length_take]
    omega

end ConcatSink

theorem cutLines_of_not_mem {bytes : Bytes} (h : lf ∉ bytes) : cutLines bytes = ([], bytes) := by
  induction bytes with
  | nil => rfl
  | cons b bytes ih =>
    simp only [List.mem_cons, not_or] at h
    simp [cutLines, ih h.2, Ne.symm h.1]

theorem cutLines_line {line : Bytes} (h : lf ∉ line) (bytes : Bytes) :
    cutLines (line ++ lf :: bytes) = (line :: (cutLines bytes).1, (cutLines bytes).2) := by
  induction line with
  | nil => simp [cutLines]
  | cons b line ih =>
    simp only [List.mem_cons, not_or] at h
    simp [cutLines, ih h.2, Ne.symm h.1]

theorem split_at_lf {chunk : Bytes} {nl : Nat} (h : chunk.idxOf? lf = some nl) :
    chunk = chunk.take nl ++ lf :: chunk.drop (nl + 1) ∧ lf ∉ chunk.take nl := by
  obtain ⟨hlt, heq, hbefore⟩ := List.idxOf?_eq_some_iff.mp h
  refine ⟨?_, fun hmem => ?_⟩
  · rw [← heq, ← List.drop_eq_getElem_cons hlt, List.take_append_drop]
  · obtain ⟨i, hi, heq⟩ := List.mem_iff_getElem.mp hmem
    rw [List.getElem_take] at heq
    exact hbefore i (by simp at hi; omega) heq

section

variable (decode : Bytes → String) (maxEventBytes : Option Int)

def lineByLineFrom (r : SseReader) (bytes : Bytes) : SseOutcome :=
  lineByLine decode maxEventBytes (cutLines bytes).2 r (cutLines bytes).1

theorem lineByLineFrom_line {line : Bytes} (h : lf ∉ line) (bytes : Bytes) (r : SseReader) :
    lineByLineFrom decode maxEventBytes r (line ++ lf :: bytes) =
      if ConcatSink.exceeds (line.length + 1) (r.maxLineBytes maxEventBytes) then
        ⟨r.events, some .event⟩
      else lineByLineFrom decode maxEventBytes (r.takeLine decode line) bytes := by
  simp only [lineByLineFrom, cutLines_line h, lineByLine]

theorem lineByLineFrom_tail {tail : Bytes} (h : lf ∉ tail) (r : SseReader) :
    lineByLineFrom decode maxEventBytes r tail =
      if tail = [] then r.finish decode none
      else if ConcatSink.exceeds tail.length (r.maxLineBytes maxEventBytes) then
        ⟨r.events, some .event⟩
      else r.finish decode (some tail) := by
  simp only [lineByLineFrom, cutLines_of_not_mem h, lineByLine]

theorem exceeds_mono {m n : Nat} (h : m ≤ n) {limit : Option Int}
    (hm : ConcatSink.exceeds m limit = true) : ConcatSink.exceeds n limit = true := by
  cases limit with
  | none => simp [ConcatSink.exceeds] at hm
  | some limit =>
    simp only [ConcatSink.exceeds, decide_eq_true_eq] at hm ⊢
    omega

theorem lineByLineFrom_exceeds {part : Bytes} (h : lf ∉ part) (hne : part ≠ []) {r : SseReader}
    (hlong : ConcatSink.exceeds part.length (r.maxLineBytes maxEventBytes) = true) (bytes : Bytes) :
    lineByLineFrom decode maxEventBytes r (part ++ bytes) = ⟨r.events, some .event⟩ := by
  cases hi : bytes.idxOf? lf with
  | none =>
    have hfree : lf ∉ part ++ bytes := by simp [h, List.idxOf?_eq_none_iff.mp hi]
    rw [lineByLineFrom_tail _ _ hfree, if_neg (by simp [hne]), if_pos]
    exact exceeds_mono (by simp) hlong
  | some nl =>
    obtain ⟨hsplit, hfree⟩ := split_at_lf hi
    have hfree' : lf ∉ part ++ bytes.take nl := by simp [h, hfree]
    rw [hsplit, ← List.append_assoc, lineByLineFrom_line _ _ hfree', if_pos]
    exact exceeds_mono (by simp; omega) hlong

variable (A : Allocator)

structure Carries (sink : ConcatSink) (r : SseReader) : Prop where
  noLf : lf ∉ sink.contents
  fits : sink.contents ≠ [] →
    ConcatSink.exceeds sink.contents.length (r.maxLineBytes maxEventBytes) = false

theorem Carries.of_empty {sink : ConcatSink} (h : sink.contents = []) (r : SseReader) :
    Carries maxEventBytes sink r :=
  ⟨by simp [h], fun hne => absurd h hne⟩

theorem lineByLineFrom_completed {sink : ConcatSink} {chunk : Bytes} {nl : Nat} (r : SseReader)
    (hc : lf ∉ sink.contents) (hi : chunk.idxOf? lf = some nl) (bytes : Bytes) :
    lineByLineFrom decode maxEventBytes r (sink.contents ++ chunk ++ bytes) =
      if ConcatSink.exceeds (sink.length + (chunk.take nl).length + 1)
        (r.maxLineBytes maxEventBytes) then ⟨r.events, some .event⟩
      else lineByLineFrom decode maxEventBytes (r.takeLine decode (sink.contents ++ chunk.take nl))
        (chunk.drop (nl + 1) ++ bytes) := by
  obtain ⟨hsplit, hfree⟩ := split_at_lf hi
  have hfree' : lf ∉ sink.contents ++ chunk.take nl := by simp [hc, hfree]
  have hbytes : sink.contents ++ chunk ++ bytes =
      sink.contents ++ chunk.take nl ++ lf :: (chunk.drop (nl + 1) ++ bytes) := by
    conv => lhs; rw [hsplit]
    simp
  rw [hbytes, lineByLineFrom_line _ _ hfree', List.length_append, ConcatSink.length_contents]

/-- `outcome` is that of the reference which goes on with `bytes` from where a chunk has left the
sink and the reader. -/
def GoesOn (outcome : SseOutcome) (bytes : Bytes) : ConcatSink × SseReader × Bool → Prop
  | (_, r, true) => outcome = ⟨r.events, some .event⟩
  | (sink, r, false) => Carries maxEventBytes sink r ∧
    outcome = lineByLineFrom decode maxEventBytes r (sink.contents ++ bytes)

theorem appendAndFlushLines_lineByLine (sink : ConcatSink) (r : SseReader) (chunk bytes : Bytes)
    (hc : Carries maxEventBytes sink r) :
    GoesOn decode maxEventBytes
      (lineByLineFrom decode maxEventBytes r (sink.contents ++ chunk ++ bytes)) bytes
      (sink.appendAndFlushLines A (SseReader.maxLineBytes maxEventBytes)
        (SseReader.takeLine decode) r chunk) := by
  fun_induction ConcatSink.appendAndFlushLines with
  | case1 sink r => exact ⟨hc, by simp⟩
  | case2 sink r chunk hne hi hlong =>
    have hfree : lf ∉ sink.contents ++ chunk := by
      simp [hc.noLf, List.idxOf?_eq_none_iff.mp hi]
    refine lineByLineFrom_exceeds _ _ hfree (by simp [hne]) ?_ bytes
    rwa [List.length_append, ConcatSink.length_contents]
  | case3 sink r chunk hne hi hfits =>
    have hfree : lf ∉ sink.contents ++ chunk := by
      simp [hc.noLf, List.idxOf?_eq_none_iff.mp hi]
    refine ⟨⟨by simpa using hfree, fun _ => ?_⟩, by simp⟩
    simpa [ConcatSink.length_contents] using hfits
  | case4 sink r chunk hne nl hi suffix hlong =>
    rw [lineByLineFrom_completed _ _ r hc.noLf hi, if_pos hlong]
    rfl
  | case5 sink r chunk hne nl hi suffix rest hfits hempty ih =>
    rw [lineByLineFrom_completed _ _ r hc.noLf hi, if_neg hfits]
    have hnil := sink.isEmpty_iff.mp hempty
    have hgo := ih (.of_empty _ hnil _)
    rw [hnil] at hgo ⊢
    exact hgo
  | case6 sink r chunk hne nl hi suffix rest hfits hempty joined payload hflush ih =>
    rw [lineByLineFrom_completed _ _ r hc.noLf hi, if_neg hfits]
    have hpayload : payload = sink.contents ++ suffix := by
      rw [ConcatSink.flush_eq, ConcatSink.contents_append] at hflush
      split at hflush <;> simp_all
    have hgo := ih (.of_empty _ (ConcatSink.contents_clear _) _)
    rw [ConcatSink.contents_clear] at hgo
    rw [hpayload] at hgo ⊢
    exact hgo
  | case7 sink r chunk hne nl hi suffix rest hfits hempty joined hflush ih =>
    have hheld : sink.contents ≠ [] := fun h => hempty (sink.isEmpty_iff.mpr h)
    simp [ConcatSink.flush_eq, joined, hheld] at hflush

theorem readChunks_lineByLine (sink : ConcatSink) (r : SseReader) (totalBytes : Nat)
    (chunks : List Bytes) (hc : Carries maxEventBytes sink r) :
    readChunks decode A ⟨maxEventBytes, none⟩ sink r totalBytes chunks =
      lineByLineFrom decode maxEventBytes r (sink.contents ++ chunks.flatten) := by
  induction chunks generalizing sink r totalBytes with
  | nil =>
    simp only [readChunks, List.flatten_nil, List.append_nil, lineByLineFrom_tail _ _ hc.noLf,
      ConcatSink.flush_eq]
    split
    · rfl
    · rw [if_neg]
      simpa using hc.fits ‹_›
  | cons chunk chunks ih =>
    have hgo := appendAndFlushLines_lineByLine decode maxEventBytes A sink r chunk chunks.flatten hc
    simp only [readChunks, ConcatSink.exceeds, List.flatten_cons, ← List.append_assoc,
      Bool.false_eq_true, if_false]
    split <;> rename_i hout <;> rw [hout] at hgo
    · exact hgo.symm
    · rw [ih _ _ _ hgo.1]
      exact hgo.2.symm

end

section

variable {α : Type} {ends : α → Bool} {front rest : List α} {x : α}

theorem isChain_unended (h : ∀ y ∈ front, ends y = false) (x : α) :
    (front ++ [x]).IsChain fun y _ => (!ends y) = true := by
  induction front with
  | nil => exact .singleton x
  | cons y front ih =>
    have hy : (!ends y) = true := by simp [h y (by simp)]
    have hfront := ih fun z hz => h z (by simp [hz])
    cases front with
    | nil => exact hfront.cons_cons hy
    | cons z front => exact hfront.cons_cons hy

theorem cutAfter_unended (h : ∀ y ∈ front, ends y = false) :
    cutAfter ends front = if front = [] then [] else [front] := by
  split
  case isTrue hnil => rw [hnil, cutAfter, List.splitBy_nil]
  case isFalse hne =>
    obtain ⟨init, last, rfl⟩ := (List.eq_nil_or_concat' front).resolve_left hne
    exact List.splitBy_of_isChain hne (isChain_unended (fun y hy => h y (by simp [hy])) last)

theorem cutAfter_ended (h : ∀ y ∈ front, ends y = false) (hx : ends x = true) :
    cutAfter ends (front ++ x :: rest) = (front ++ [x]) :: cutAfter ends rest := by
  have hsplit : front ++ x :: rest = (front ++ [x]) ++ rest := by simp
  rw [cutAfter, hsplit, List.splitBy_append (by simp [hx]),
    List.splitBy_of_isChain (by simp) (isChain_unended h x)]
  rfl

variable (x rest) in
theorem cutAfter_head (h : ∀ y ∈ front, ends y = false) :
    ∃ more groups, cutAfter ends (front ++ x :: rest) = (front ++ x :: more) :: groups := by
  induction rest generalizing front x with
  | nil =>
    refine ⟨[], [], ?_⟩
    exact List.splitBy_of_isChain (by simp) (isChain_unended h x)
  | cons y rest ih =>
    cases hx : ends x with
    | true => exact ⟨[], _, cutAfter_ended h hx⟩
    | false =>
      have hfront : ∀ z ∈ front ++ [x], ends z = false := by
        intro z hz
        rcases List.mem_append.mp hz with hz | hz
        · exact h z hz
        · rw [List.mem_singleton.mp hz, hx]
      obtain ⟨more, groups, hcut⟩ := ih (x := y) hfront
      rw [List.append_assoc, List.append_assoc] at hcut
      exact ⟨y :: more, groups, hcut⟩

end

section

variable (decode : Bytes → String)

theorem sseField_of_notMem {text : String} (h : ':' ∉ text.toList) : sseField text = (text, "") := by
  have hfree : ∀ c ∈ text.toList, (fun c => decide (c ≠ ':')) c = true := by
    intro c hc
    simp only [ne_eq, decide_eq_true_eq]
    rintro rfl
    exact h hc
  rw [sseField, List.span_eq_takeWhile_dropWhile, List.takeWhile_eq_self_iff.mpr hfree,
    List.dropWhile_eq_nil_iff.mpr hfree]
  dsimp only
  rw [String.ofList_toList]

theorem sseField_of_colon {name : List Char} (h : ':' ∉ name) (value : List Char) :
    sseField (String.ofList (name ++ ':' :: value)) =
      (String.ofList name,
        String.ofList (if value.head? = some ' ' then value.tail else value)) := by
  have hfree : ∀ c ∈ name, (fun c => decide (c ≠ ':')) c = true := by
    intro c hc
    simp only [ne_eq, decide_eq_true_eq]
    rintro rfl
    exact h hc
  rw [sseField, List.span_eq_takeWhile_dropWhile, String.toList_ofList,
    List.takeWhile_append_of_pos hfree, List.dropWhile_append_of_pos hfree,
    List.takeWhile_cons_of_neg (by simp), List.dropWhile_cons_of_neg (by simp), List.append_nil]
  cases value with
  | nil => rfl
  | cons c value =>
    by_cases hc : c = ' '
    · subst hc
      rfl
    · simp [hc]

theorem field?_eq {name : String} (hname : ':' ∉ name.toList) (text : String) :
    field? name text = if (sseField text).1 = name then some (sseField text).2 else none := by
  by_cases hmem : ':' ∈ text.toList
  · obtain ⟨pre, value, htext, hpre⟩ := List.eq_append_cons_of_mem hmem
    have hne : text ≠ name := by
      rintro rfl
      exact hname hmem
    have hsplit : text = String.ofList (pre ++ ':' :: value) := by rw [← htext, String.ofList_toList]
    have hcolon : ∀ rest, name.toList ++ ':' :: rest <+: text.toList ↔ name.toList = pre ∧
        rest <+: value := by
      intro rest
      constructor
      · rintro ⟨more, hmore⟩
        rw [htext, List.append_assoc, List.cons_append] at hmore
        have hfirst := sseField_of_colon hpre value
        rw [← hmore, sseField_of_colon hname, Prod.mk.injEq, String.ofList_inj] at hfirst
        rw [hfirst.1] at hmore
        exact ⟨hfirst.1, more, (List.cons.inj (List.append_cancel_left hmore)).2⟩
      · rintro ⟨rfl, more, rfl⟩
        exact ⟨more, by rw [htext]; simp⟩
    have hspaced := hcolon [' ']
    have hplain := hcolon []
    rw [field?, if_neg hne, hsplit, sseField_of_colon hpre, ← hsplit]
    by_cases hsame : name.toList = pre
    · subst hsame
      have hlength : name.toList.length = name.length := String.length_toList
      rw [if_pos String.ofList_toList, htext]
      by_cases hspace : value.head? = some ' '
      · obtain ⟨more, rfl⟩ := List.head?_eq_some_iff.mp hspace
        have hdrop : (name.toList ++ ':' :: ' ' :: more).drop (name.length + 2) = more := by
          rw [← hlength, List.drop_append]
          simp
        rw [if_pos (htext ▸ hspaced.mpr ⟨rfl, by simp⟩), if_pos hspace, hdrop, List.tail_cons]
      · have hdrop : (name.toList ++ ':' :: value).drop (name.length + 1) = value := by
          rw [← hlength, List.drop_append]
          simp
        rw [if_neg ?_, if_pos (htext ▸ hplain.mpr ⟨rfl, List.nil_prefix⟩), if_neg hspace, hdrop]
        intro hstart
        obtain ⟨more, rfl⟩ := (hspaced.mp (htext ▸ hstart)).2
        exact hspace rfl
    · have hname : String.ofList pre ≠ name := by
        rintro rfl
        exact hsame String.toList_ofList
      rw [if_neg fun h => hsame (hspaced.mp h).1,
        if_neg fun h => hsame (hplain.mp h).1, if_neg hname]
  · rw [sseField_of_notMem hmem, field?]
    have hstart : ∀ rest, ¬ name.toList ++ ':' :: rest <+: text.toList := fun rest h =>
      hmem (h.subset (by simp))
    rw [if_neg (hstart [' ']), if_neg (hstart [])]

def stateOf (group : List Bytes) : SseEventState where
  event := (fieldValues decode "event" group).getLast?
  data := if fieldValues decode "data" group = [] then none
    else some ("\n".intercalate (fieldValues decode "data" group))
  raw := (contents group).map decode

theorem flushSseEvent_stateOf (group : List Bytes) :
    flushSseEvent (stateOf decode group) = (.init, eventOf decode group) := by
  unfold flushSseEvent eventOf stateOf
  by_cases hnames : fieldValues decode "event" group = []
  · by_cases hdata : fieldValues decode "data" group = []
    · simp [hnames, hdata, SseEventState.init]
    · simp [hnames, hdata]
  · by_cases hdata : fieldValues decode "data" group = []
    · simp [hnames, hdata, String.intercalate_nil]
    · simp [hnames, hdata]

theorem contents_append (group : List Bytes) (line : Bytes) :
    contents (group ++ [line]) = if content line = [] then contents group else contents group ++
      [content line] := by
  rw [contents, List.map_append, List.filter_append]
  split
  case isTrue h => simp [h, contents]
  case isFalse h => simp [h, contents]

theorem eventOf_ended {group : List Bytes} {line : Bytes} (h : content line = []) :
    eventOf decode (group ++ [line]) = eventOf decode group := by
  have hcontents : contents (group ++ [line]) = contents group := by rw [contents_append, if_pos h]
  unfold eventOf fieldValues
  rw [hcontents]

theorem pushSseLine_blank {line : Bytes} (h : withoutEnd cr line = []) (group : List Bytes) :
    pushSseLine decode line (stateOf decode group) = (.init, eventOf decode group) := by
  change (if withoutEnd cr line = [] then _ else _) = _
  rw [if_pos h, flushSseEvent_stateOf]

theorem head?_withoutEnd {byte : UInt8} {line : Bytes} (h : withoutEnd byte line ≠ []) :
    (withoutEnd byte line).head? = line.head? := by
  unfold withoutEnd at h ⊢
  split
  case isTrue hlast =>
    rw [if_pos hlast] at h
    obtain ⟨init, rfl⟩ := List.getLast?_eq_some_iff.mp hlast
    rw [List.dropLast_concat] at h ⊢
    rw [List.head?_append_of_ne_nil _ h]
  case isFalse => rfl

theorem fieldValues_comment {group : List Bytes} {line : Bytes}
    (hline : (content line).head? = some colon) (name : String) :
    fieldValues decode name (group ++ [line]) = fieldValues decode name group := by
  have hne : content line ≠ [] := by
    intro hnil
    rw [hnil] at hline
    cases hline
  rw [fieldValues, contents_append, if_neg hne, List.filter_append,
    List.filter_cons_of_neg (by simp [hline])]
  simp [fieldValues]

theorem fieldValues_field {group : List Bytes} {line : Bytes} (hne : content line ≠ [])
    (hline : (content line).head? ≠ some colon) (name : String) :
    fieldValues decode name (group ++ [line]) =
      fieldValues decode name group ++ (field? name (decode (content line))).toList := by
  rw [fieldValues, contents_append, if_neg hne, List.filter_append,
    List.filter_cons_of_pos (by simpa using hline)]
  cases hfield : field? name (decode (content line)) <;> simp [fieldValues, hfield]

theorem pushSseLine_content {line full : Bytes} (h : withoutEnd cr line ≠ [])
    (hfull : content full = withoutEnd cr line) (group : List Bytes) :
    pushSseLine decode line (stateOf decode group) = (stateOf decode (group ++ [full]), none) := by
  have hne : content full ≠ [] := hfull ▸ h
  have hhead : line.head? = (content full).head? := by rw [hfull, head?_withoutEnd h]
  have hpush : pushSseLine decode line (stateOf decode group) =
      if withoutEnd cr line = [] then flushSseEvent (stateOf decode group)
      else
        let state := { stateOf decode group with
          raw := (stateOf decode group).raw ++ [decode (withoutEnd cr line)] }
        if line.head? = some colon then (state, none)
        else (pushField state (sseField (decode (withoutEnd cr line))), none) := rfl
  rw [hpush, if_neg h, hhead, ← hfull]
  dsimp only
  split
  case isTrue hcomment =>
    rw [stateOf, stateOf, fieldValues_comment decode hcomment, fieldValues_comment decode hcomment,
      contents_append, if_neg hne, List.map_append]
    rfl
  case isFalse hcolon =>
    rw [stateOf, stateOf, fieldValues_field decode hne hcolon, fieldValues_field decode hne hcolon,
      contents_append, if_neg hne, List.map_append, field?_eq (by decide),
      field?_eq (by decide), pushField]
    generalize sseField (decode (content full)) = field
    obtain ⟨name, value⟩ := field
    by_cases hevent : name = "event"
    · simp [hevent]
    · by_cases hdata : name = "data"
      · by_cases hnone : fieldValues decode "data" group = []
        · simp [hdata, hnone]
        · simp [hdata, hnone, String.intercalate_append_of_ne_nil]
      · simp [hevent, hdata]

variable (maxEventBytes : Option Int)

def groupsOutcome (events : List ServerSentEvent) (groups : List (List Bytes)) : SseOutcome :=
  let short := groups.takeWhile fun group => !ConcatSink.exceeds group.flatten.length maxEventBytes
  ⟨events ++ short.filterMap (eventOf decode),
    if short.length = groups.length then none else some .event⟩

structure ReadsGroup (group : List Bytes) (r : SseReader) : Prop where
  unended : ∀ line ∈ group, decide (content line = []) = false
  state : r.state = stateOf decode group
  eventBytes : r.eventBytes = group.flatten.length
  fits : group ≠ [] → ConcatSink.exceeds group.flatten.length maxEventBytes = false

variable {maxEventBytes} {decode} {group : List Bytes} {r : SseReader} {line : Bytes}

theorem exceeds_maxLineBytes (h : ReadsGroup decode maxEventBytes group r) (full : Bytes) :
    ConcatSink.exceeds full.length (r.maxLineBytes maxEventBytes) =
      ConcatSink.exceeds (group ++ [full]).flatten.length maxEventBytes := by
  cases maxEventBytes with
  | none => rfl
  | some limit =>
    simp only [SseReader.maxLineBytes, Option.map_some, ConcatSink.exceeds, h.eventBytes,
      List.flatten_append, List.flatten_singleton, List.length_append, decide_eq_decide]
    omega

theorem groupsOutcome_long (events : List ServerSentEvent) {full : Bytes} {lines : List Bytes}
    (h : ReadsGroup decode maxEventBytes group r)
    (hlong : ConcatSink.exceeds (group ++ [full]).flatten.length maxEventBytes = true) :
    groupsOutcome decode maxEventBytes events
      (cutAfter (fun line => content line = []) (group ++ full :: lines)) =
      ⟨events, some .event⟩ := by
  obtain ⟨more, groups, hcut⟩ := cutAfter_head lines full h.unended
  have hfirst : ConcatSink.exceeds (group ++ full :: more).flatten.length maxEventBytes = true := by
    refine exceeds_mono ?_ hlong
    simp
  rw [hcut, groupsOutcome, List.takeWhile_cons_of_neg (by simp only [hfirst]; decide)]
  simp

theorem groupsOutcome_short (events : List ServerSentEvent) {full : Bytes} {lines : List Bytes}
    (h : ReadsGroup decode maxEventBytes group r) (hend : content full = [])
    (hshort : ConcatSink.exceeds (group ++ [full]).flatten.length maxEventBytes = false) :
    groupsOutcome decode maxEventBytes events
      (cutAfter (fun line => content line = []) (group ++ full :: lines)) =
      groupsOutcome decode maxEventBytes (events ++ (eventOf decode group).toList)
        (cutAfter (fun line => content line = []) lines) := by
  rw [cutAfter_ended h.unended (decide_eq_true hend), groupsOutcome, groupsOutcome,
    List.takeWhile_cons_of_pos (by simp only [hshort]; decide), List.filterMap_cons,
    eventOf_ended decode hend, List.length_cons, List.length_cons]
  cases eventOf decode group <;> simp

theorem groupsOutcome_last (events : List ServerSentEvent)
    (hunended : ∀ line ∈ group, decide (content line = []) = false)
    (hfits : group ≠ [] → ConcatSink.exceeds group.flatten.length maxEventBytes = false) :
    groupsOutcome decode maxEventBytes events (cutAfter (fun line => content line = []) group) =
      ⟨events ++ (eventOf decode group).toList, none⟩ := by
  rw [cutAfter_unended hunended]
  split
  case isTrue hnil =>
    subst hnil
    simp [groupsOutcome, eventOf, fieldValues, contents]
  case isFalse hne =>
    rw [groupsOutcome, List.takeWhile_cons_of_pos (by simp only [hfits hne]; decide)]
    cases hevent : eventOf decode group <;> simp [hevent]

theorem content_line (line : Bytes) : content (line ++ [lf]) = withoutEnd cr line := by
  simp [content, withoutEnd]

theorem content_tail (h : lf ∉ line) : content line = withoutEnd cr line := by
  have hlast : line.getLast? ≠ some lf := fun hlast => h (List.mem_of_getLast? hlast)
  have hkeep : withoutEnd lf line = line := by rw [withoutEnd, if_neg hlast]
  rw [content, hkeep]

theorem isBlank_eq (line : Bytes) : SseReader.isBlank line = decide (withoutEnd cr line = []) := by
  rw [SseReader.isBlank, decide_eq_decide, withoutEnd]
  split
  case isTrue hlast =>
    obtain ⟨init, rfl⟩ := List.getLast?_eq_some_iff.mp hlast
    rw [List.dropLast_concat]
    simp
  case isFalse hlast =>
    constructor
    · rintro (h | h)
      · exact h
      · exact absurd (by rw [h]; rfl) hlast
    · exact .inl

theorem ReadsGroup.empty (events : List ServerSentEvent) :
    ReadsGroup decode maxEventBytes [] ⟨.init, 0, events⟩ where
  unended := by simp
  state := rfl
  eventBytes := rfl
  fits h := absurd rfl h

theorem ReadsGroup.unended_append (h : ReadsGroup decode maxEventBytes group r)
    (hline : content line ≠ []) :
    ∀ l ∈ group ++ [line], decide (content l = []) = false := by
  intro l hl
  rcases List.mem_append.mp hl with hl | hl
  · exact h.unended l hl
  · rw [List.mem_singleton.mp hl]
    exact decide_eq_false hline

theorem ReadsGroup.push (h : ReadsGroup decode maxEventBytes group r) (hne : withoutEnd cr line ≠ [])
    (hshort : ConcatSink.exceeds (group ++ [line ++ [lf]]).flatten.length maxEventBytes = false) :
    ReadsGroup decode maxEventBytes (group ++ [line ++ [lf]]) (r.takeLine decode line) := by
  have hcontent := content_line line
  refine ⟨?_, ?_, ?_, fun _ => hshort⟩
  · exact h.unended_append (hcontent ▸ hne)
  · rw [SseReader.takeLine, h.state, pushSseLine_content decode hne hcontent]
  · rw [SseReader.takeLine, isBlank_eq, decide_eq_false hne, h.eventBytes]
    simp

theorem lineByLineFrom_last {tail : Bytes} (h : ReadsGroup decode maxEventBytes group r)
    (hfree : lf ∉ tail) :
    lineByLineFrom decode maxEventBytes r tail = groupsOutcome decode maxEventBytes r.events
      (cutAfter (fun line => content line = []) (group ++ cutAfter (· = lf) tail)) := by
  have hends : ∀ b ∈ tail, decide (b = lf) = false := by
    intro b hb
    rw [decide_eq_false_iff_not]
    rintro rfl
    exact hfree hb
  rw [lineByLineFrom_tail _ _ hfree, cutAfter_unended hends]
  by_cases hnil : tail = []
  · rw [if_pos hnil, if_pos hnil, List.append_nil, groupsOutcome_last _ h.unended h.fits,
      SseReader.finish, h.state]
    simp [flushSseEvent_stateOf]
  · rw [if_neg hnil, if_neg hnil, exceeds_maxLineBytes h]
    split
    case isTrue hlong => rw [groupsOutcome_long _ h hlong]
    case isFalse hlong =>
      have hshort := Bool.eq_false_iff.mpr hlong
      have hcontent := content_tail hfree
      rw [SseReader.finish, h.state]
      by_cases hend : withoutEnd cr tail = []
      · rw [pushSseLine_blank decode hend, groupsOutcome_short _ h (hcontent.trans hend) hshort]
        simp [groupsOutcome, cutAfter, flushSseEvent, SseEventState.init]
      · rw [pushSseLine_content decode hend hcontent,
          groupsOutcome_last _ (h.unended_append (hcontent ▸ hend)) fun _ => hshort]
        simp [flushSseEvent_stateOf]

theorem lineByLineFrom_groups (bytes : Bytes) (h : ReadsGroup decode maxEventBytes group r) :
    lineByLineFrom decode maxEventBytes r bytes = groupsOutcome decode maxEventBytes r.events
      (cutAfter (fun line => content line = []) (group ++ cutAfter (· = lf) bytes)) := by
  induction hn : bytes.length using Nat.strongRecOn generalizing bytes group r with
  | ind n ih =>
    subst hn
    cases hi : bytes.idxOf? lf with
    | none => exact lineByLineFrom_last h (List.idxOf?_eq_none_iff.mp hi)
    | some nl =>
      obtain ⟨hsplit, hfree⟩ := split_at_lf hi
      generalize bytes.take nl = line at hsplit hfree
      generalize bytes.drop (nl + 1) = rest at hsplit
      subst hsplit
      have hends : ∀ b ∈ line, decide (b = lf) = false := by
        intro b hb
        rw [decide_eq_false_iff_not]
        rintro rfl
        exact hfree hb
      have hlength : (line ++ [lf]).length = line.length + 1 := by simp
      rw [lineByLineFrom_line _ _ hfree, cutAfter_ended hends (by decide), ← hlength,
        exceeds_maxLineBytes h]
      split
      case isTrue hlong => rw [groupsOutcome_long _ h hlong]
      case isFalse hlong =>
        have hshort := Bool.eq_false_iff.mpr hlong
        by_cases hend : withoutEnd cr line = []
        · have htake : r.takeLine decode line =
              ⟨.init, 0, r.events ++ (eventOf decode group).toList⟩ := by
            rw [SseReader.takeLine, h.state, pushSseLine_blank decode hend, isBlank_eq,
              decide_eq_true hend]
            rfl
          rw [htake, groupsOutcome_short _ h ((content_line line).trans hend) hshort,
            ih rest.length (by simp; omega) rest (.empty _) rfl]
          rfl
        · have hevents : (r.takeLine decode line).events = r.events := by
            rw [SseReader.takeLine, h.state, pushSseLine_content decode hend (content_line line)]
            exact List.append_nil _
          rw [ih rest.length (by simp; omega) rest (h.push hend hshort) rfl, hevents,
            List.append_assoc]
          rfl

end

section

variable (decode : Bytes → String) (maxEventBytes : Option Int) (A : Allocator)

/-- Whatever the chunks a stream arrives in, the events (and the error, if one of them is too long)
are those of the reference parse of all its bytes. -/
theorem readSseEvents_eq_referenceParse (chunks : List Bytes) :
    readSseEvents decode A ⟨maxEventBytes, none⟩ chunks =
      referenceParse decode maxEventBytes chunks.flatten := by
  have hlines :=
    readChunks_lineByLine decode maxEventBytes A .empty .init 0 chunks (.of_empty _ rfl _)
  rw [ConcatSink.contents_empty, List.nil_append] at hlines
  exact hlines.trans (lineByLineFrom_groups chunks.flatten (.empty []))

end

def asciiDecode (bytes : Bytes) : String := String.ofList (bytes.map fun b => Char.ofNat b.toNat)

def asciiBytes (text : String) : Bytes := text.toList.map fun c => c.toNat.toUInt8

def zeroed : Allocator := ⟨fun n => List.replicate n 0, fun _ => List.length_replicate⟩

theorem readSseEvents_cut_in_crlf :
    readSseEvents asciiDecode zeroed ⟨some 50, none⟩
        (["event: ping\r", "\n: note\ndata: a\nda", "ta:b\n", "\ndata: c"].map asciiBytes) =
      ⟨[⟨some "ping", "a\nb", ["event: ping", ": note", "data: a", "data:b"]⟩,
        ⟨none, "c", ["data: c"]⟩], none⟩ := by
  rw [readSseEvents_eq_referenceParse]
  decide +kernel

end JevCode.Utils
