import Mathlib.Data.Int.ConditionallyCompleteOrder
import Mathlib.Order.ConditionallyCompleteLattice.Basic
import JevCode.Data.LinePositions
import JevCode.Text.Lines
import JevCode.Text.Utf16

namespace JevCode.Vim

open JevCode.Data JevCode.Text

structure Position where
  line : Int
  col : Int
  deriving DecidableEq

structure VimBuffer where
  lines : List (List CodeUnit)
  cursor : Position

def newline : CodeUnit := code '\n'

def splitText (text : List CodeUnit) : List (List CodeUnit) :=
  if text.length = 0 then [[]] else text.splitOn newline

namespace VimBuffer

variable (b : VimBuffer)

def lastLineIndex : Int := max 0 (b.lines.length - 1)

def clampLine (line : Int) : Int := min (max line 0) b.lastLineIndex

def getLine (line : Int) : List CodeUnit := b.lines[(b.clampLine line).toNat]?.getD []

def clampCol (line col : Int) : Int := min (max col 0) (b.getLine line).length

def setCursor (position : Position) : VimBuffer :=
  { b with cursor := ⟨b.clampLine position.line, b.clampCol position.line position.col⟩ }

def clampCursor : VimBuffer := b.setCursor b.cursor

def getText : List CodeUnit := [newline].intercalate b.lines

def positionToOffset (position : Position) : Int :=
  let line := b.clampLine position.line
  let col := b.clampCol line position.col
  let offset := (b.lines.take line.toNat).foldl (fun offset l => offset + ((l.length : Int) + 1)) 0
  offset + col

def currentOffset : Int := b.positionToOffset b.cursor

def positionLoop : Nat → Nat → List (List CodeUnit) → Option Position
  | _, _, [] => none
  | line, remaining, current :: lines =>
    if remaining ≤ current.length then some ⟨line, remaining⟩
    else
      let remaining := remaining - current.length
      if lines ≠ [] then
        if remaining = 0 then some ⟨(line : Int) + 1, 0⟩
          else positionLoop (line + 1) (remaining - 1) lines
      else positionLoop (line + 1) remaining lines

def offsetToPosition (offset : Int) : Position :=
  let clamped := min (max offset 0) b.getText.length
  match positionLoop 0 clamped.toNat b.lines with
  | some position => position
  | none => ⟨b.lastLineIndex, (b.getLine b.lastLineIndex).length⟩

def setCursorFromOffset (offset : Int) : VimBuffer := { b with cursor := b.offsetToPosition offset }

/-- Without an offset for the cursor it goes behind the replacement. -/
def replaceOffsets (start stop : Int) (replacement : List CodeUnit)
    (cursorOffset : Option Int) : VimBuffer :=
  let text := b.getText
  let normalizedStart := min (max start 0) text.length
  let normalizedEnd := min (max stop normalizedStart) text.length
  let nextText := text.take normalizedStart.toNat ++ replacement ++ text.drop normalizedEnd.toNat
  (clampCursor { b with lines := splitText nextText }).setCursorFromOffset
    (cursorOffset.getD (start + replacement.length))

end VimBuffer

/-- A position that the buffer has: a line, and a column up to its end. -/
def VimBuffer.Valid (b : VimBuffer) (p : Position) : Prop :=
  ∃ n col : Nat, p = ⟨n, col⟩ ∧ ColumnOf b.lines n col

def Position.before (p q : Position) : Prop := p.line < q.line ∨ p.line = q.line ∧ p.col ≤ q.col

variable {b : VimBuffer}

theorem foldl_lineOffset {lines : List (List CodeUnit)} {n : Nat} (h : n < lines.length) (col : Nat)
    (start : Int) :
    (lines.take n).foldl (fun offset l => offset + ((l.length : Int) + 1)) start + col =
      start + lineOffset lines n col := by
  induction lines generalizing n start with
  | nil => exact absurd h (Nat.not_lt_zero _)
  | cons l lines ih =>
    cases n with
    | zero => simp
    | succ n =>
      rw [List.take_succ_cons, List.foldl_cons, ih (Nat.lt_of_succ_lt_succ h), lineOffset_succ]
      push_cast
      omega

theorem positionToOffset_eq {n col : Nat} (h : ColumnOf b.lines n col) :
    b.positionToOffset ⟨n, col⟩ = lineOffset b.lines n col := by
  obtain ⟨l, hl, hcol⟩ := id h
  have hlt := h.lt_length
  have hline : b.clampLine n = n := by
    simp only [VimBuffer.clampLine, VimBuffer.lastLineIndex]
    omega
  have hget : b.getLine n = l := by simp [VimBuffer.getLine, hline, hl]
  have hclamp : b.clampCol n col = col := by
    rw [VimBuffer.clampCol, hget]
    omega
  have hfold := foldl_lineOffset hlt col 0
  simp only [VimBuffer.positionToOffset, hline, hclamp, Int.toNat_natCast]
  rw [hfold, Int.zero_add]

theorem positionLoop_eq {lines : List (List CodeUnit)} {n col : Nat} (h : ColumnOf lines n col)
    (line : Nat) :
    VimBuffer.positionLoop line (lineOffset lines n col) lines =
      some ⟨((line + n : Nat) : Int), col⟩ := by
  induction lines generalizing n line with
  | nil => exact absurd h.lt_length (Nat.not_lt_zero _)
  | cons l lines ih =>
    cases n with
    | zero =>
      have hcol := columnOf_zero.mp h
      simp [VimBuffer.positionLoop, hcol]
    | succ n =>
      have hrest := columnOf_succ.mp h
      have hne : lines ≠ [] := List.ne_nil_of_length_pos (Nat.zero_lt_of_lt hrest.lt_length)
      have hlong : ¬ l.length + 1 + lineOffset lines n col ≤ l.length := by omega
      have hpos : ¬ l.length + 1 + lineOffset lines n col - l.length = 0 := by omega
      have hrem : l.length + 1 + lineOffset lines n col - l.length - 1 = lineOffset lines n col := by
        omega
      simp only [VimBuffer.positionLoop, lineOffset_succ, if_neg hlong, if_pos hne,
        if_neg hpos, hrem]
      rw [ih hrest (line + 1)]
      congr 2
      omega

theorem offsetToPosition_eq {n col : Nat} (h : ColumnOf b.lines n col) :
    b.offsetToPosition (lineOffset b.lines n col) = ⟨n, col⟩ := by
  have hle := h.offset_le newline
  have hclamp : (min (max ((lineOffset b.lines n col : Nat) : Int) 0)
      (b.getText.length : Int)).toNat =
      lineOffset b.lines n col := by
    simp only [VimBuffer.getText]
    omega
  simp only [VimBuffer.offsetToPosition, hclamp, positionLoop_eq h 0, Nat.zero_add]

theorem exists_position (hne : b.lines ≠ []) {offset : Int} (h : 0 ≤ offset)
    (h' : offset ≤ b.getText.length) :
    ∃ n col, ColumnOf b.lines n col ∧ offset = lineOffset b.lines n col := by
  obtain ⟨n, rfl⟩ := Int.eq_ofNat_of_zero_le h
  obtain ⟨line, col, hcol, heq⟩ := exists_columnOf newline hne (by exact_mod_cast h')
  exact ⟨line, col, hcol, by rw [heq]⟩

theorem positionToOffset_invOn (hne : b.lines ≠ []) :
    Set.InvOn b.offsetToPosition b.positionToOffset {p | b.Valid p}
      (Set.Icc 0 (b.getText.length : Int)) := by
  constructor
  · rintro _ ⟨n, col, rfl, hcol⟩
    rw [positionToOffset_eq hcol, offsetToPosition_eq hcol]
  · rintro offset ⟨h, h'⟩
    obtain ⟨n, col, hcol, rfl⟩ := exists_position hne h h'
    rw [offsetToPosition_eq hcol, positionToOffset_eq hcol]

theorem positionToOffset_mapsTo (b : VimBuffer) :
    Set.MapsTo b.positionToOffset {p | b.Valid p} (Set.Icc 0 (b.getText.length : Int)) := by
  rintro _ ⟨n, col, rfl, hcol⟩
  rw [positionToOffset_eq hcol]
  exact ⟨Int.natCast_nonneg _, by exact_mod_cast hcol.offset_le newline⟩

theorem offsetToPosition_mapsTo (hne : b.lines ≠ []) :
    Set.MapsTo b.offsetToPosition (Set.Icc 0 (b.getText.length : Int)) {p | b.Valid p} := by
  rintro offset ⟨h, h'⟩
  obtain ⟨n, col, hcol, rfl⟩ := exists_position hne h h'
  rw [offsetToPosition_eq hcol]
  exact ⟨n, col, rfl, hcol⟩

theorem before_iff {p q : Position} (hp : b.Valid p) (hq : b.Valid q) :
    p.before q ↔ b.positionToOffset p ≤ b.positionToOffset q := by
  obtain ⟨n, col, rfl, hcol⟩ := hp
  obtain ⟨m, col', rfl, hcol'⟩ := hq
  have horder := hcol.offset_le_iff hcol'
  rw [positionToOffset_eq hcol, positionToOffset_eq hcol', Position.before]
  dsimp only
  omega

theorem splitText_ne_nil (text : List CodeUnit) : splitText text ≠ [] := by
  unfold splitText
  split
  case isTrue => simp
  case isFalse => exact List.splitOn_ne_nil _ _

theorem intercalate_splitText (text : List CodeUnit) :
    [newline].intercalate (splitText text) = text := by
  unfold splitText
  split
  case isTrue h => rw [List.eq_nil_of_length_eq_zero h]; rfl
  case isFalse => exact List.intercalate_splitOn newline

theorem getText_replaceOffsets {start stop : Nat} (h : start ≤ stop) (h' : stop ≤ b.getText.length)
    (replacement : List CodeUnit) (cursorOffset : Option Int) :
    (b.replaceOffsets start stop replacement cursorOffset).getText =
      b.getText.take start ++ replacement ++ b.getText.drop stop := by
  have hstart : (min (max (start : Int) 0) (b.getText.length : Int)) = start := by omega
  have hstop : (min (max (stop : Int) start) (b.getText.length : Int)) = stop := by omega
  simp only [VimBuffer.replaceOffsets, VimBuffer.setCursorFromOffset, VimBuffer.clampCursor,
    VimBuffer.setCursor, hstart, hstop, Int.toNat_natCast]
  exact intercalate_splitText _

theorem currentOffset_setCursorFromOffset (hne : b.lines ≠ []) {offset : Int} (h : 0 ≤ offset)
    (h' : offset ≤ b.getText.length) : (b.setCursorFromOffset offset).currentOffset = offset :=
  (positionToOffset_invOn hne).2 ⟨h, h'⟩

theorem currentOffset_replaceOffsets {start stop : Nat} (h : start ≤ stop)
    (h' : stop ≤ b.getText.length) (replacement : List CodeUnit) :
    (b.replaceOffsets start stop replacement none).currentOffset = start + replacement.length := by
  have htext := getText_replaceOffsets h h' replacement none
  have hlen := congrArg List.length htext
  simp only [List.length_append, List.length_take, List.length_drop] at hlen
  refine currentOffset_setCursorFromOffset (splitText_ne_nil _) ?_ ?_
  · simp only [Option.getD_none]
    omega
  · show (start : Int) + replacement.length ≤
      ((b.replaceOffsets start stop replacement none).getText.length : Int)
    omega

/-- Offsets and positions are each other's inverse and have the same order, so a replacement leaves
the cursor behind what it put in. -/
theorem offsets_and_positions (b : VimBuffer) (hne : b.lines ≠ []) :
    Set.InvOn b.offsetToPosition b.positionToOffset {p | b.Valid p}
      (Set.Icc 0 (b.getText.length : Int)) ∧
      Set.BijOn b.positionToOffset {p | b.Valid p} (Set.Icc 0 (b.getText.length : Int)) ∧
      Set.BijOn b.offsetToPosition (Set.Icc 0 (b.getText.length : Int)) {p | b.Valid p} ∧
      (∀ p q, b.Valid p → b.Valid q → p.before q → b.positionToOffset p ≤ b.positionToOffset q) ∧
      (∀ offset offset' : Int, 0 ≤ offset → offset ≤ offset' → offset' ≤ b.getText.length →
        (b.offsetToPosition offset).before (b.offsetToPosition offset')) ∧
      ∀ (start stop : Int) (replacement : List CodeUnit), 0 ≤ start → start ≤ stop →
        stop ≤ b.getText.length →
        (b.replaceOffsets start stop replacement none).getText =
            b.getText.take start.toNat ++ replacement ++ b.getText.drop stop.toNat ∧
          (b.replaceOffsets start stop replacement
            none).currentOffset = start + replacement.length := by
  have hinv := positionToOffset_invOn hne
  have hto := positionToOffset_mapsTo b
  have hfrom := offsetToPosition_mapsTo hne
  refine ⟨hinv, hinv.bijOn hto hfrom, hinv.symm.bijOn hfrom hto, ?_, ?_, ?_⟩
  · exact fun p q hp hq h => (before_iff hp hq).mp h
  · intro offset offset' h hle h'
    have hin : offset ∈ Set.Icc 0 (b.getText.length : Int) := ⟨h, hle.trans h'⟩
    have hin' : offset' ∈ Set.Icc 0 (b.getText.length : Int) := ⟨h.trans hle, h'⟩
    rw [before_iff (hfrom hin) (hfrom hin'), hinv.2 hin, hinv.2 hin']
    exact hle
  · intro start stop replacement h hle h'
    obtain ⟨start, rfl⟩ := Int.eq_ofNat_of_zero_le h
    obtain ⟨stop, rfl⟩ := Int.eq_ofNat_of_zero_le (h.trans hle)
    have hle' : start ≤ stop := by exact_mod_cast hle
    have hstop : stop ≤ b.getText.length := by exact_mod_cast h'
    exact ⟨getText_replaceOffsets hle' hstop replacement none,
      currentOffset_replaceOffsets hle' hstop replacement⟩

theorem offsets_and_positions_three_lines :
    let b : VimBuffer := ⟨[units "ab", [], units "c"], ⟨0, 0⟩⟩
    b.positionToOffset ⟨2, 1⟩ = 5 ∧ b.offsetToPosition 3 = ⟨1, 0⟩ ∧
      (b.replaceOffsets 1 3 (units "x\ny") none).currentOffset = 4 := by
  intro b
  have hall := offsets_and_positions b (by decide)
  exact ⟨by decide, by decide,
    (hall.2.2.2.2.2 1 3 (units "x\ny") (by decide) (by decide) (by decide)).2⟩

end JevCode.Vim
