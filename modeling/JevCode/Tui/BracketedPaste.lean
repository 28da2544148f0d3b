import JevCode.Data.Search
import JevCode.Text.CodePoints

namespace JevCode.Tui.BracketedPaste

open JevCode.Data JevCode.Text

def pasteStart : List CodeUnit := units "\x1b[200~"

def pasteEnd : List CodeUnit := units "\x1b[201~"

def frameTimeoutMs : Int := 1000

def frameMaxBytes : Nat := 1024 * 1024

inductive PasteResult
  | unhandled
  | handled (leading : List CodeUnit) (pasteContent : Option (List CodeUnit))
    (remaining : List CodeUnit)
  deriving DecidableEq

def partialLoop (value : List CodeUnit) : Nat → Nat
  | 0 => 0
  | length + 1 =>
    if pasteStart.take (length + 1) <:+ value then length + 1 else partialLoop value length

def partialStartSuffixLength (value : List CodeUnit) : Nat :=
  partialLoop value (min value.length (pasteStart.length - 1))

structure Handler where
  buffer : List CodeUnit := []
  leading : List CodeUnit := []
  active : Bool := false
  pendingSince : Option Int := none
  deriving DecidableEq

namespace Handler

variable (h : Handler)

def hasPendingFrame : Bool := h.active || 0 < h.buffer.length || 0 < h.leading.length

def flushBuffered : List CodeUnit :=
  if h.active then h.leading ++ pasteStart ++ h.buffer else h.leading ++ h.buffer

def flushActive (remaining : List CodeUnit) : Handler × PasteResult :=
  ({}, .handled h.leading (some h.buffer) remaining)

def giveUp (data : List CodeUnit) : Handler × PasteResult :=
  if h.active then h.flushActive data else ({}, .handled (h.flushBuffered ++ data) none [])

def timedOut (now : Int) : Bool :=
  h.hasPendingFrame && h.pendingSince.any fun since => now - since ≥ frameTimeoutMs

def activeTooLarge : Bool :=
  utf8Length h.leading + utf8Length pasteStart + utf8Length h.buffer > frameMaxBytes

def processActive : Handler × PasteResult :=
  match indexOf pasteEnd h.buffer with
  | none => if h.activeTooLarge then h.flushActive [] else (h, .handled [] none [])
  | some endIndex =>
    ({}, .handled h.leading (some (h.buffer.take endIndex))
      (h.buffer.drop (endIndex + pasteEnd.length)))

def opened (combined : List CodeUnit) (startIndex : Nat) (now : Int) : Handler where
  leading := h.leading ++ combined.take startIndex
  buffer := combined.drop (startIndex + pasteStart.length)
  active := true
  pendingSince := some (h.pendingSince.getD now)

/-- The text with what may be the start of a marker kept back. -/
def held (combined : List CodeUnit) (now : Int) : Handler where
  leading := h.leading ++ combined.take (combined.length - partialStartSuffixLength combined)
  buffer := combined.drop (combined.length - partialStartSuffixLength combined)
  active := h.active
  pendingSince := some (h.pendingSince.getD now)

def heldTooLarge : Bool := utf8Length h.leading + utf8Length h.buffer > frameMaxBytes

def processPlain (data : List CodeUnit) (now : Int) : Handler × PasteResult :=
  let combined := h.buffer ++ data
  match indexOf pasteStart combined with
  | none =>
    if 0 < partialStartSuffixLength combined then
      let next := h.held combined now
      if next.heldTooLarge then ({}, .handled (next.leading ++ next.buffer) none [])
        else (next, .handled [] none [])
    else if h.hasPendingFrame ∨
      0 < h.leading.length then ({}, .handled (h.leading ++ combined) none [])
    else ({ h with buffer := [] }, .unhandled)
  | some startIndex => (h.opened combined startIndex now).processActive

def process (data : List CodeUnit) (now : Int) : Handler × PasteResult :=
  if h.timedOut now then h.giveUp data
  else if h.hasPendingFrame ∧ data = [code '\x1b'] then h.giveUp data
  else if h.active then processActive { h with buffer := h.buffer ++ data }
  else h.processPlain data now

def overflows (data : List CodeUnit) (now : Int) : Bool :=
  let unfinished (next : Handler) : Bool :=
    (indexOf pasteEnd next.buffer).isNone && next.activeTooLarge
  if h.active then unfinished { h with buffer := h.buffer ++ data }
  else
    match indexOf pasteStart (h.buffer ++ data) with
    | none =>
      0 < partialStartSuffixLength (h.buffer ++ data) && (h.held (h.buffer ++ data) now).heldTooLarge
    | some startIndex => unfinished (h.opened (h.buffer ++ data) startIndex now)

def quiet (data : List CodeUnit) (now : Int) : Bool := !h.timedOut now && !h.overflows data now

/-- The text that has come in and not gone out: what is in front of the paste, the marker and the
buffer. -/
def pending : List CodeUnit := h.leading ++ (if h.active then pasteStart else []) ++ h.buffer

end Handler

inductive Piece
  | plain (text : List CodeUnit)
  | leading (text : List CodeUnit)
  | paste (content : List CodeUnit)
  deriving DecidableEq

def Piece.written : Piece → List CodeUnit
  | .plain text => text
  | .leading text => text
  | .paste content => pasteStart ++ content ++ pasteEnd

def PasteResult.pieces (data : List CodeUnit) : PasteResult → List Piece
  | .unhandled => [.plain data]
  | .handled leading pasteContent _ => .leading leading :: (pasteContent.map Piece.paste).toList

def PasteResult.remaining : PasteResult → List CodeUnit
  | .unhandled => []
  | .handled _ _ remaining => remaining

structure Fed where
  pieces : List Piece
  handler : Handler
  calls : Nat
  deriving DecidableEq

def feed (clock : Nat → Int) : Nat → Nat → Handler → List CodeUnit → Option Fed
  | 0, _, _, _ => none
  | fuel + 1, calls, h, data =>
    let next := h.process data (clock calls)
    if next.2.remaining = [] then some ⟨next.2.pieces data, next.1, calls + 1⟩
    else (feed clock fuel (calls + 1) next.1 next.2.remaining).map fun fed =>
      { fed with pieces := next.2.pieces data ++ fed.pieces }

def feedFuel (h : Handler) (data : List CodeUnit) : Nat := h.pending.length + data.length + 1

def feedAll (clock : Nat → Int) : Nat → Handler → List (List CodeUnit) → Option Fed
  | calls, h, [] => some ⟨[], h, calls⟩
  | calls, h, chunk :: chunks =>
    (feed clock (feedFuel h chunk) calls h chunk).bind fun fed =>
      (feedAll clock fed.calls fed.handler chunks).map fun rest =>
        { rest with pieces := fed.pieces ++ rest.pieces }

def quietFeed (clock : Nat → Int) : Nat → Nat → Handler → List CodeUnit → Bool
  | 0, _, _, _ => true
  | fuel + 1, calls, h, data =>
    let next := h.process data (clock calls)
    h.quiet data (clock calls) &&
      (next.2.remaining = [] || quietFeed clock fuel (calls + 1) next.1 next.2.remaining)

def quietRun (clock : Nat → Int) : Nat → Handler → List (List CodeUnit) → Bool
  | _, _, [] => true
  | calls, h, chunk :: chunks =>
    quietFeed clock (feedFuel h chunk) calls h chunk &&
      match feed clock (feedFuel h chunk) calls h chunk with
      | some fed => quietRun clock fed.calls fed.handler chunks
      | none => true

variable {h : Handler} {data : List CodeUnit} {now : Int}

def writtenAll (pieces : List Piece) : List CodeUnit := pieces.flatMap Piece.written

@[simp] theorem writtenAll_append (xs ys : List Piece) :
    writtenAll (xs ++ ys) = writtenAll xs ++ writtenAll ys :=
  List.flatMap_append

structure Conserves (before data : List CodeUnit) (next : Handler × PasteResult) : Prop where
  eq : before ++ data = writtenAll (next.2.pieces data) ++ (next.1.pending ++ next.2.remaining)
  fresh : next.2.remaining ≠ [] → next.1 = {} ∧ next.2.remaining.length < (before ++ data).length

theorem processActive_conserves (hactive : h.active = true)
    (hquiet : ((indexOf pasteEnd h.buffer).isNone && h.activeTooLarge) = false)
    {before : List CodeUnit} (heq : before ++ data = h.pending) :
    Conserves before data h.processActive := by
  unfold Handler.processActive
  split
  case h_1 hnone =>
    have hsmall : h.activeTooLarge = false := by simpa [hnone] using hquiet
    rw [if_neg (by simp [hsmall])]
    refine ⟨?_, by simp [PasteResult.remaining]⟩
    simp [writtenAll, PasteResult.pieces, Piece.written, PasteResult.remaining, heq]
  case h_2 endIndex hsome =>
    have hsplit := (indexOf_eq_some (by decide) hsome).eq
    have hall : before ++ data = h.leading ++ (pasteStart ++ h.buffer.take endIndex ++ pasteEnd) ++
        h.buffer.drop (endIndex + pasteEnd.length) := by
      rw [heq, Handler.pending, if_pos hactive]
      nth_rewrite 1 [hsplit]
      simp
    constructor
    · rw [hall]
      simp [writtenAll, PasteResult.pieces, Piece.written, PasteResult.remaining, Handler.pending]
    · intro _
      refine ⟨rfl, ?_⟩
      have hlen : 0 < pasteEnd.length := by decide
      rw [hall]
      simp [PasteResult.remaining]
      omega

theorem conserves_released {before text : List CodeUnit} (heq : before ++ data = text) :
    Conserves before data ({}, .handled text none []) := by
  refine ⟨?_, by simp [PasteResult.remaining]⟩
  simp [writtenAll, PasteResult.pieces, Piece.written, PasteResult.remaining, Handler.pending, heq]

theorem pending_held (h : Handler) (combined : List CodeUnit) (now : Int)
    (hactive : h.active = false) :
    (h.held combined now).pending = h.leading ++ combined := by
  simp [Handler.pending, Handler.held, hactive]

theorem pending_opened (h : Handler) {combined : List CodeUnit} {startIndex : Nat}
    (hstart : indexOf pasteStart combined = some startIndex) (now : Int) :
    (h.opened combined startIndex now).pending = h.leading ++ combined := by
  have hsplit := (indexOf_eq_some (by decide) hstart).eq
  simp only [Handler.pending, Handler.opened, if_true]
  nth_rewrite 3 [hsplit]
  simp

theorem processPlain_conserves (hactive : h.active = false) (hquiet : h.overflows data now = false) :
    Conserves h.pending data (h.processPlain data now) := by
  have hpending : h.pending ++ data = h.leading ++ (h.buffer ++ data) := by
    simp [Handler.pending, hactive]
  simp only [Handler.overflows, hactive, Bool.false_eq_true, if_false] at hquiet
  simp only [Handler.processPlain]
  split
  case h_1 hnone =>
    rw [hnone] at hquiet
    split
    case isTrue hopen =>
      have hsmall : (h.held (h.buffer ++ data) now).heldTooLarge = false := by
        simpa [hopen] using hquiet
      rw [if_neg (by simp [hsmall])]
      refine ⟨?_, by simp [PasteResult.remaining]⟩
      simp [writtenAll, PasteResult.pieces, Piece.written, PasteResult.remaining, hpending,
        pending_held h _ now hactive]
    case isFalse =>
      split
      case isTrue => exact conserves_released hpending
      case isFalse hidle =>
        obtain ⟨hframe, -⟩ := not_or.mp hidle
        have hempty : h.buffer = [] ∧ h.leading = [] := by
          simpa [Handler.hasPendingFrame, hactive] using hframe
        refine ⟨?_, by simp [PasteResult.remaining]⟩
        simp [writtenAll, PasteResult.pieces, Piece.written, PasteResult.remaining, Handler.pending,
          hactive, hempty]
  case h_2 startIndex hsome =>
    rw [hsome] at hquiet
    exact processActive_conserves rfl hquiet (by rw [pending_opened h hsome, hpending])

theorem process_conserves (hquiet : h.quiet data now = true)
    (hesc : h.hasPendingFrame = true → data ≠ [code '\x1b']) :
    Conserves h.pending data (h.process data now) := by
  obtain ⟨hlate, hlarge⟩ : h.timedOut now = false ∧ h.overflows data now = false := by
    simpa [Handler.quiet] using hquiet
  have hnoEsc : ¬ (h.hasPendingFrame = true ∧ data = [code '\x1b']) := fun hboth =>
    hesc hboth.1 hboth.2
  rw [Handler.process, if_neg (by simp [hlate]), if_neg hnoEsc]
  split
  case isTrue hactive =>
    have hunfinished : ((indexOf pasteEnd (h.buffer ++ data)).isNone &&
        Handler.activeTooLarge { h with buffer := h.buffer ++ data }) = false := by
      simpa [Handler.overflows, hactive] using hlarge
    exact processActive_conserves (h := { h with buffer := h.buffer ++ data }) hactive hunfinished
      (by simp [Handler.pending])
  case isFalse hactive => exact processPlain_conserves (by simpa using hactive) hlarge

theorem feed_conserves (clock : Nat → Int) {fuel calls : Nat}
    (hfuel : h.pending.length + data.length < fuel)
    (hesc : h.hasPendingFrame = true → data ≠ [code '\x1b'])
    (hquiet : quietFeed clock fuel calls h data = true) :
    ∃ fed, feed clock fuel calls h data = some fed ∧
      h.pending ++ data = writtenAll fed.pieces ++ fed.handler.pending := by
  induction fuel generalizing calls h data with
  | zero => omega
  | succ fuel ih =>
    obtain ⟨hcall, hrest⟩ := (Bool.and_eq_true _ _).mp hquiet
    have hnext := process_conserves hcall hesc
    simp only [feed]
    split
    case isTrue hdone =>
      refine ⟨_, rfl, ?_⟩
      rw [hnext.eq, hdone, List.append_nil]
    case isFalse hmore =>
      obtain ⟨hreset, hshorter⟩ := hnext.fresh hmore
      have hidle : (h.process data (clock calls)).1.hasPendingFrame = false := by rw [hreset]; rfl
      have hnone : (h.process data (clock calls)).1.pending = [] := by rw [hreset]; rfl
      rw [List.length_append] at hshorter
      have hquiet' : quietFeed clock fuel (calls + 1) (h.process data (clock calls)).1
          (h.process data (clock calls)).2.remaining = true := by
        simpa [hmore] using hrest
      obtain ⟨fed, hfed, heq⟩ := ih (by rw [hnone, List.length_nil]; omega) (by simp [hidle]) hquiet'
      rw [hfed]
      refine ⟨_, rfl, ?_⟩
      rw [hnext.eq, heq]
      simp

theorem feedAll_conserves (clock : Nat → Int) {calls : Nat} (chunks : List (List CodeUnit))
    (hesc : ∀ chunk ∈ chunks, chunk ≠ [code '\x1b'])
    (hquiet : quietRun clock calls h chunks = true) :
    ∃ fed, feedAll clock calls h chunks = some fed ∧
      h.pending ++ chunks.flatten = writtenAll fed.pieces ++ fed.handler.pending := by
  induction chunks generalizing calls h with
  | nil => exact ⟨_, rfl, by simp [writtenAll]⟩
  | cons chunk chunks ih =>
    obtain ⟨hchunk, hrest⟩ := List.forall_mem_cons.mp hesc
    obtain ⟨hfirst, hlater⟩ := (Bool.and_eq_true _ _).mp hquiet
    obtain ⟨fed, hfed, heq⟩ := feed_conserves clock (Nat.lt_succ_self _) (fun _ => hchunk) hfirst
    rw [feedFuel, hfed] at hlater
    obtain ⟨rest, hrun, heq'⟩ := ih hrest hlater
    refine ⟨{ rest with pieces := fed.pieces ++ rest.pieces }, ?_, ?_⟩
    · simp only [feedAll]
      rw [feedFuel, hfed, Option.bind_some, hrun]
      rfl
    · rw [List.flatten_cons, ← List.append_assoc, heq, List.append_assoc, heq']
      simp

theorem pasting_conserves (clock : Nat → Int) (chunks : List (List CodeUnit))
    (hesc : ∀ chunk ∈ chunks, chunk ≠ [code '\x1b']) (hquiet : quietRun clock 0 {} chunks = true) :
    ∃ fed, feedAll clock 0 {} chunks = some fed ∧
      writtenAll fed.pieces ++ fed.handler.pending = chunks.flatten := by
  obtain ⟨fed, hfed, heq⟩ := feedAll_conserves clock chunks hesc hquiet
  exact ⟨fed, hfed, heq.symm⟩

theorem pasting_conserves_split_marker :
    ∃ fed, feedAll (fun _ => 0) 0 {} [units "a\x1b[20", units "0~hi\x1b[201~z\x1b"] = some fed ∧
      fed.handler.pending = units "z\x1b" ∧
      writtenAll fed.pieces ++ fed.handler.pending = units "a\x1b[200~hi\x1b[201~z\x1b" := by
  obtain ⟨fed, hfed, heq⟩ :=
    pasting_conserves (fun _ => 0) [units "a\x1b[20", units "0~hi\x1b[201~z\x1b"] (by decide)
    (by decide +kernel)
  have hlast : (feedAll (fun _ => 0) 0 {} [units "a\x1b[20", units "0~hi\x1b[201~z\x1b"]).map
      (fun fed => fed.handler.pending) = some (units "z\x1b") := by decide +kernel
  refine ⟨fed, hfed, ?_, heq⟩
  rw [hfed] at hlast
  exact Option.some.inj hlast

end JevCode.Tui.BracketedPaste
