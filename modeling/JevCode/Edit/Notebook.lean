import JevCode.Session.Messages
import JevCode.Text.Trim
import Mathlib.Data.List.Forall2

namespace JevCode.Edit

open JevCode.Text
open JevCode.Session (Json)

inductive NotebookCellType
  | code
  | markdown
  | raw
  deriving DecidableEq

def NotebookCellType.text : NotebookCellType → String
  | .code => "code"
  | .markdown => "markdown"
  | .raw => "raw"

inductive CellSource
  | undefined
  | text (source : String)
  | lines (source : List String)

structure NotebookCell where
  cellType : NotebookCellType
  source : CellSource
  metadata : Option Json
  executionCount : Option Json
  outputs : Option Json
  other : List (String × Json)

structure NotebookDocument where
  cells : List NotebookCell
  other : List (String × Json)

def sourceToText : CellSource → String
  | .undefined => ""
  | .text source => source
  | .lines source => String.join source

def splitNotebookSource (content : String) : List String :=
  match splitLines content with
  | [] => []
  | line :: lines => go line lines
where
  go (line : String) : List String → List String
    | [] => if line = "" then [] else [line]
    | next :: lines => (line ++ "\n") :: go next lines

def orDefault (field : Option Json) (value : Json) : Option Json :=
  match field with
  | none | some .null => some value
  | some present => some present

def createNotebookCell (cellType : NotebookCellType) (source : String) : NotebookCell where
  cellType := cellType
  source := .lines (splitNotebookSource source)
  metadata := some (.obj [])
  executionCount := if cellType = .code then some .null else none
  outputs := if cellType = .code then some (.arr []) else none
  other := []

def markerText (cellType : NotebookCellType) (index : Nat) : String :=
  "# %% [" ++ cellType.text ++ "] cell:" ++ toString index

def cellText (index : Nat) (cell : NotebookCell) : String :=
  let source := sourceToText cell.source
  if source ≠ "" then markerText cell.cellType index ++ "\n" ++ source
    else markerText cell.cellType index

def notebookToEditableText (notebook : NotebookDocument) : String :=
  joinLines (notebook.cells.mapIdx cellText)

structure CellMarker where
  cellType : NotebookCellType
  cellIndex : Option Nat

def markerRest (cellType : NotebookCellType) (line : List Char) : Option (List Char) :=
  let opening := ("# %% [" ++ cellType.text ++ "]").toList
  if opening <+: line then some (line.drop opening.length) else none

def markerOf (cellType : NotebookCellType) (rest : List Char) : Option CellMarker :=
  let digits := rest.drop " cell:".toList.length
  if rest = [] then some ⟨cellType, none⟩
  else if " cell:".toList <+: rest ∧ digits ≠ [] ∧ digits.all isDigit then
    some ⟨cellType, some (Nat.ofDigitChars 10 digits 0)⟩
  else none

def parseVirtualCellMarker (line : String) : Option CellMarker :=
  [NotebookCellType.code, .markdown, .raw].findSome? fun cellType =>
    (markerRest cellType line.toList).bind (markerOf cellType)

structure ParsedVirtualCell where
  cellType : NotebookCellType
  cellIndex : Option Nat
  source : String

structure CurrentCell where
  marker : CellMarker
  lines : List String

def linesToSourceText (lines : List String) : String := if lines = [] then "" else joinLines lines

def flush : Option CurrentCell → List ParsedVirtualCell
  | none => []
  | some current =>
    [⟨current.marker.cellType, current.marker.cellIndex, linesToSourceText current.lines⟩]

def firstLineError (displayPath : String) : String :=
  "Invalid notebook editable representation for " ++ displayPath ++
    ": expected first line to be \"# %% [code] cell:0\", \"# %% [markdown] cell:0\", or \"# %% [raw] cell:0\"."

def parseLines (displayPath : String) :
    Option CurrentCell → List String → Except String (List ParsedVirtualCell)
  | current, [] => .ok (flush current)
  | current, line :: lines =>
    match parseVirtualCellMarker line with
    | some marker => (parseLines displayPath (some ⟨marker, []⟩) lines).map (flush current ++ ·)
    | none =>
      match current with
      | none => .error (firstLineError displayPath)
      | some current =>
        parseLines displayPath (some { current with lines := current.lines ++ [line] }) lines

def parseNotebookEditableText (text displayPath : String) : Except String (List ParsedVirtualCell) :=
  parseLines displayPath none (if text = "" then [] else splitLines text)

def updateCell (originalCell : NotebookCell) (parsedCell : ParsedVirtualCell) : NotebookCell :=
  { originalCell with
    cellType := parsedCell.cellType
    source := .lines (splitNotebookSource parsedCell.source)
    executionCount :=
      if parsedCell.cellType = .code then orDefault originalCell.executionCount .null else none
    outputs :=
      if parsedCell.cellType = .code then orDefault originalCell.outputs (.arr []) else none }

def applyCells (cells : List NotebookCell) : List Nat → List ParsedVirtualCell → List NotebookCell
  | _, [] => []
  | usedOriginalCells, parsedCell :: parsedCells =>
    match parsedCell.cellIndex.bind fun index => if index ∈ usedOriginalCells then none else
        (cells[index]?).map (index, ·) with
    | some (index, originalCell) =>
      updateCell originalCell parsedCell :: applyCells cells (index :: usedOriginalCells) parsedCells
    | none =>
      createNotebookCell parsedCell.cellType parsedCell.source ::
        applyCells cells usedOriginalCells parsedCells

def applyNotebookEditableText (notebook : NotebookDocument) (text displayPath : String) :
    Except String NotebookDocument :=
  (parseNotebookEditableText text displayPath).map fun parsedCells =>
    { notebook with cells := applyCells notebook.cells [] parsedCells }

attribute [local simp] parseLines applyCells

theorem join_splitNotebookSource_go (line : String) (lines : List String) :
    String.join (splitNotebookSource.go line lines) = joinLines (line :: lines) := by
  induction lines generalizing line with
  | nil =>
    rw [splitNotebookSource.go]
    split
    · next h =>
      rw [h]
      rfl
    · simp [String.join, joinLines]
  | cons next lines ih =>
    rw [splitNotebookSource.go, joinLines_cons (by simp), ← ih]
    simp

theorem sourceToText_splitNotebookSource (source : String) :
    sourceToText (.lines (splitNotebookSource source)) = source := by
  rw [sourceToText, splitNotebookSource]
  cases h : splitLines source with
  | nil => exact absurd h (splitLines_ne_nil source)
  | cons line lines => rw [join_splitNotebookSource_go, ← h, joinLines_splitLines]

theorem markerRest_markerText (cellType cellType' : NotebookCellType) (index : Nat) :
    markerRest cellType' (markerText cellType index).toList =
      if cellType' = cellType then some (" cell:".toList ++ Nat.toDigits 10 index) else none := by
  cases cellType <;> cases cellType' <;>
    simp [markerRest, markerText, NotebookCellType.text, Nat.toString_eq_repr,
    Nat.repr_eq_ofList_toDigits]

theorem markerOf_digits (cellType : NotebookCellType) (index : Nat) :
    markerOf cellType (" cell:".toList ++ Nat.toDigits 10 index) = some ⟨cellType, some index⟩ := by
  have hdigits : (Nat.toDigits 10 index).all isDigit = true :=
    List.all_eq_true.mpr fun c hc => isDigit_of_mem_toDigits hc
  rw [markerOf]
  simp only [List.drop_left]
  rw [if_neg (by simp), if_pos ⟨List.prefix_append _ _, Nat.toDigits_ne_nil, hdigits⟩,
    Nat.ofDigitChars_ten_toDigits]

theorem parseVirtualCellMarker_markerText (cellType : NotebookCellType) (index : Nat) :
    parseVirtualCellMarker (markerText cellType index) = some ⟨cellType, some index⟩ := by
  simp only [parseVirtualCellMarker, markerRest_markerText]
  cases cellType <;>
    simp only [List.findSome?_cons, reduceCtorEq, if_true, if_false, Option.bind_none,
    Option.bind_some, markerOf_digits]

theorem newline_notMem_markerText (cellType : NotebookCellType) (index : Nat) :
    '\n' ∉ (markerText cellType index).toList := by
  have hdigits : '\n' ∉ Nat.toDigits 10 index := fun h =>
    absurd (isDigit_of_mem_toDigits h) (by decide)
  cases cellType <;>
    simp [markerText, NotebookCellType.text, Nat.toString_eq_repr,
    Nat.repr_eq_ofList_toDigits, hdigits]

def NoMarkerLines (cell : NotebookCell) : Prop :=
  ∀ line ∈ splitLines (sourceToText cell.source), parseVirtualCellMarker line = none

def sourceLines (cell : NotebookCell) : List String :=
  if sourceToText cell.source = "" then [] else splitLines (sourceToText cell.source)

theorem splitLines_cellText (index : Nat) (cell : NotebookCell) :
    splitLines (cellText index cell) = markerText cell.cellType index :: sourceLines cell := by
  have hmarker := splitLines_of_notMem (newline_notMem_markerText cell.cellType index)
  unfold cellText sourceLines
  by_cases h : sourceToText cell.source = ""
  · simp [h, hmarker]
  · simp only [h, ne_eq, not_false_eq_true, if_true, if_false]
    rw [splitLines_append_newline, hmarker]
    rfl

theorem linesToSourceText_sourceLines (cell : NotebookCell) :
    linesToSourceText (sourceLines cell) = sourceToText cell.source := by
  unfold linesToSourceText sourceLines
  by_cases h : sourceToText cell.source = ""
  · simp [h]
  · rw [if_neg h, if_neg (splitLines_ne_nil _), joinLines_splitLines]

theorem parseLines_marker {displayPath : String} (current : Option CurrentCell) {line : String}
    {marker : CellMarker} (h : parseVirtualCellMarker line = some marker) (lines : List String) :
    parseLines displayPath current (line :: lines) =
      (parseLines displayPath (some ⟨marker, []⟩) lines).map (flush current ++ ·) := by
  cases current <;> simp [parseLines, h]

theorem parseLines_source {displayPath : String} {current : CurrentCell} {body : List String}
    (rest : List String) (h : ∀ line ∈ body, parseVirtualCellMarker line = none) :
    parseLines displayPath (some current) (body ++ rest) =
      parseLines displayPath (some { current with lines := current.lines ++ body }) rest := by
  induction body generalizing current with
  | nil => simp
  | cons line body ih =>
    rw [List.cons_append, parseLines, h line (by simp)]
    simp only
    rw [ih fun l hl => h l (by simp [hl])]
    simp

theorem noMarker_sourceLines {cell : NotebookCell} (h : NoMarkerLines cell) :
    ∀ line ∈ sourceLines cell, parseVirtualCellMarker line = none := by
  unfold sourceLines
  split
  · simp
  · exact h

def parsedCell (index : Nat) (cell : NotebookCell) : ParsedVirtualCell :=
  ⟨cell.cellType, some index, sourceToText cell.source⟩

theorem parseLines_cells (displayPath : String) (cells : List NotebookCell) (start : Nat)
    (current : Option CurrentCell) (h : ∀ cell ∈ cells, NoMarkerLines cell) :
    parseLines displayPath current
      ((cells.mapIdx fun i cell => cellText (start + i) cell).flatMap splitLines) =
      .ok (flush current ++ cells.mapIdx fun i cell => parsedCell (start + i) cell) := by
  induction cells generalizing start current with
  | nil => simp [parseLines]
  | cons cell cells ih =>
    have hshift : ∀ i, start + (i + 1) = start + 1 + i := fun i => by omega
    have htext : (fun i cell => cellText (start + (i + 1)) cell) = fun i cell =>
      cellText (start + 1 + i) cell := by
      funext i cell
      rw [hshift]
    have hparsed : (fun i cell => parsedCell (start + (i + 1)) cell) = fun i cell =>
      parsedCell (start + 1 + i) cell := by
      funext i cell
      rw [hshift]
    rw [List.mapIdx_cons, List.flatMap_cons, splitLines_cellText, List.cons_append, htext,
      parseLines_marker current (parseVirtualCellMarker_markerText ..),
      parseLines_source _ (noMarker_sourceLines (h cell (by simp))), ih _ _ fun c hc =>
        h c (by simp [hc]),
      List.mapIdx_cons, hparsed, Except.map]
    simp only [flush, List.nil_append, linesToSourceText_sourceLines, Nat.add_zero]
    rfl

def roundTripped (cell : NotebookCell) : NotebookCell := updateCell cell (parsedCell 0 cell)

theorem updateCell_parsedCell (index : Nat) (cell : NotebookCell) :
    updateCell cell (parsedCell index cell) = roundTripped cell := rfl

theorem applyCells_parsedCells (cells before rest : List NotebookCell) (used : List Nat)
    (h : cells = before ++ rest) (hused : ∀ i ∈ used, i < before.length) :
    applyCells cells used (rest.mapIdx fun i cell => parsedCell (before.length + i) cell) =
      rest.map roundTripped := by
  induction rest generalizing before used with
  | nil => rfl
  | cons cell rest ih =>
    have hshift : ∀ i, before.length + (i + 1) = (before ++ [cell]).length + i :=
      fun i => by simp; omega
    have hget : cells[before.length]? = some cell := by simp [h]
    have hnot : before.length ∉ used := fun hmem => absurd (hused _ hmem) (Nat.lt_irrefl _)
    rw [List.mapIdx_cons, List.map_cons, applyCells]
    simp only [parsedCell, Nat.add_zero, Option.bind_some, if_neg hnot, hget,
      Option.map_some, hshift]
    rw [← updateCell_parsedCell before.length cell]
    congr 1
    refine ih (before ++ [cell]) (before.length :: used) (by simp [h]) fun i hi => ?_
    rw [List.length_append, List.length_singleton]
    rcases List.mem_cons.mp hi with rfl | hi
    · exact Nat.lt_succ_self _
    · exact Nat.lt_succ_of_lt (hused i hi)

theorem splitLines_notebookToEditableText {notebook : NotebookDocument} (h : notebook.cells ≠ []) :
    splitLines (notebookToEditableText notebook) =
      (notebook.cells.mapIdx cellText).flatMap splitLines :=
  splitLines_joinLines (by simpa using h)

theorem notebookToEditableText_ne_empty {notebook : NotebookDocument} (h : notebook.cells ≠ []) :
    notebookToEditableText notebook ≠ "" := by
  intro hempty
  have hlines := splitLines_notebookToEditableText h
  cases hcells : notebook.cells with
  | nil => exact h hcells
  | cons cell cells =>
    rw [hempty, hcells, List.mapIdx_cons, List.flatMap_cons, splitLines_cellText] at hlines
    have hmarker := congrArg List.head? hlines
    simp [splitLines, markerText] at hmarker

theorem applyNotebookEditableText_text (notebook : NotebookDocument) (displayPath : String)
    (h : ∀ cell ∈ notebook.cells, NoMarkerLines cell) :
    applyNotebookEditableText notebook (notebookToEditableText notebook) displayPath =
      .ok { notebook with cells := notebook.cells.map roundTripped } := by
  rw [applyNotebookEditableText, parseNotebookEditableText]
  by_cases hcells : notebook.cells = []
  · simp [notebookToEditableText, hcells, joinLines, parseLines, flush, applyCells, Except.map]
  · rw [if_neg (notebookToEditableText_ne_empty hcells), splitLines_notebookToEditableText hcells]
    have hparse := parseLines_cells displayPath notebook.cells 0 none h
    have happly := applyCells_parsedCells notebook.cells [] notebook.cells [] rfl (by simp)
    simp only [Nat.zero_add, flush, List.nil_append, List.length_nil] at hparse happly
    rw [hparse, Except.map, happly]

/-- The same cell, where a missing count of a code cell reads as `null` and missing outputs as no
outputs. -/
structure SameCell (cell next : NotebookCell) : Prop where
  cellType : next.cellType = cell.cellType
  source : sourceToText next.source = sourceToText cell.source
  metadata : next.metadata = cell.metadata
  executionCount : cell.cellType = .code → next.executionCount = orDefault cell.executionCount .null
  outputs : cell.cellType = .code → next.outputs = orDefault cell.outputs (.arr [])

theorem sameCell_roundTripped (cell : NotebookCell) : SameCell cell (roundTripped cell) where
  cellType := rfl
  source := sourceToText_splitNotebookSource (sourceToText cell.source)
  metadata := rfl
  executionCount h := by simp [roundTripped, updateCell, parsedCell, h]
  outputs h := by simp [roundTripped, updateCell, parsedCell, h]

theorem notebook_round_trip (notebook : NotebookDocument) (displayPath : String)
    (h : ∀ cell ∈ notebook.cells, NoMarkerLines cell) :
    ∃ next, applyNotebookEditableText notebook (notebookToEditableText notebook)
      displayPath = .ok next ∧
      List.Forall₂ SameCell notebook.cells next.cells := by
  refine ⟨_, applyNotebookEditableText_text notebook displayPath h, ?_⟩
  simp only [List.forall₂_map_right_iff, List.forall₂_same]
  exact fun cell _ => sameCell_roundTripped cell

def twoCells : NotebookDocument where
  cells := [⟨.code, .lines ["x\n", "y"], some (.obj []), some .null, some (.arr []), []⟩,
    ⟨.markdown, .undefined, some (.obj []), none, none, []⟩]
  other := []

theorem notebook_round_trip_twoCells :
    (∀ cell ∈ twoCells.cells, NoMarkerLines cell) ∧
      ∃ next, applyNotebookEditableText twoCells (notebookToEditableText twoCells)
        "a.ipynb" = .ok next ∧
        List.Forall₂ SameCell twoCells.cells next.cells := by
  have hlines : ∀ cell ∈ twoCells.cells, NoMarkerLines cell := by
    simp only [twoCells, List.forall_mem_cons]
    unfold NoMarkerLines
    exact ⟨forall_mem_of_all (by decide), forall_mem_of_all (by decide), by simp⟩
  exact ⟨hlines, notebook_round_trip twoCells "a.ipynb" hlines⟩

theorem notebook_round_trip_adds_outputs :
    ¬ ∀ (notebook : NotebookDocument) (displayPath : String),
      (∀ cell ∈ notebook.cells, NoMarkerLines cell) →
      ∃ next, applyNotebookEditableText notebook (notebookToEditableText notebook)
        displayPath = .ok next ∧
        List.Forall₂ (fun cell next => cell.cellType = .code → next.outputs = cell.outputs)
          notebook.cells next.cells := by
  intro h
  let notebook : NotebookDocument := ⟨[⟨.code, .text "x", some (.obj []), none, none, []⟩], []⟩
  have hlines : ∀ cell ∈ notebook.cells, NoMarkerLines cell := by
    simp only [notebook, List.forall_mem_cons]
    unfold NoMarkerLines
    exact ⟨forall_mem_of_all (by decide), by simp⟩
  obtain ⟨next, happly, hcells⟩ := h notebook "a.ipynb" hlines
  rw [applyNotebookEditableText_text notebook "a.ipynb" hlines, Except.ok.injEq] at happly
  subst happly
  simp [notebook, roundTripped, updateCell, parsedCell, orDefault] at hcells

end JevCode.Edit
