import JevCode.Text.Lines

namespace JevCode.Edit

open JevCode.Text

inductive PartKind
  | unchanged
  | added
  | removed
  deriving DecidableEq

structure DiffLinePart where
  kind : PartKind
  value : String

def DiffLinePart.isChange (part : DiffLinePart) : Bool := part.kind ≠ .unchanged

def partLines (value : String) : List String :=
  let raw := splitLines value
  if raw.getLast? = some "" then raw.dropLast else raw

inductive RowKind
  | added
  | removed
  | context
  deriving DecidableEq

def RowKind.sigil : RowKind → String
  | .added => "+"
  | .removed => "-"
  | .context => " "

structure DiffRow where
  kind : RowKind
  lineNum : Nat
  content : String

def formatNumberedDiffLine (row : DiffRow) : String :=
  row.kind.sigil ++ toString row.lineNum ++ "|" ++ row.content

def numberedRows (kind : RowKind) (lineNum : Nat) : List String → List DiffRow
  | [] => []
  | line :: lines => ⟨kind, lineNum, line⟩ :: numberedRows kind (lineNum + 1) lines

structure DiffState where
  output : List DiffRow := []
  oldLineNum : Nat := 1
  newLineNum : Nat := 1
  lastWasChange : Bool := false
  firstChangedLine : Option Nat := none

namespace DiffState

variable (s : DiffState)

def markChange : DiffState :=
  { s with firstChangedLine := s.firstChangedLine.or (some s.newLineNum) }

def add (raw : List String) : DiffState := { s with
  output := s.output ++ numberedRows .added s.newLineNum raw
  newLineNum := s.newLineNum + raw.length }

def remove (raw : List String) : DiffState := { s with
  output := s.output ++ numberedRows .removed s.oldLineNum raw
  oldLineNum := s.oldLineNum + raw.length }

def advance (n : Nat) : DiffState :=
  { s with oldLineNum := s.oldLineNum + n, newLineNum := s.newLineNum + n }

def showLines (lines : List String) : DiffState :=
  advance { s with output := s.output ++ numberedRows .context s.oldLineNum lines } lines.length

def skip (n : Nat) : DiffState :=
  if 0 < n then advance { s with
    output := s.output ++ numberedRows .context s.oldLineNum ["..."] } n else s

/-- An unchanged part: the lines next to a change are shown, at most `contextLimit` on each side. -/
def context (contextLimit : Nat) (nextPartIsChange : Bool) (raw : List String) : DiffState :=
  match s.lastWasChange, nextPartIsChange with
  | true, true =>
    if contextLimit * 2 < raw.length then
      ((s.showLines (raw.take contextLimit)).skip
        (raw.length - contextLimit - contextLimit)).showLines
        (raw.drop (raw.length - contextLimit))
    else s.showLines raw
  | false, true =>
    (s.skip (raw.length - contextLimit)).showLines (raw.drop (raw.length - contextLimit))
  | true, false => (s.showLines (raw.take contextLimit)).skip (raw.length - contextLimit)
  | false, false => s.advance raw.length

def step (contextLimit : Nat) (nextPartIsChange : Bool) (part : DiffLinePart) : DiffState :=
  match part.kind with
  | .added => { s.markChange.add (partLines part.value) with lastWasChange := true }
  | .removed => { s.markChange.remove (partLines part.value) with lastWasChange := true }
  | .unchanged =>
    { s.context contextLimit nextPartIsChange (partLines part.value) with lastWasChange := false }

end DiffState

def diffParts (contextLimit : Nat) (s : DiffState) : List DiffLinePart → DiffState
  | [] => s
  | part :: parts =>
    diffParts contextLimit (s.step contextLimit (parts.head?.any (·.isChange)) part) parts

structure DiffResult where
  diff : String
  firstChangedLine : Option Nat

def generateDiffString (diffLines : String → String → List DiffLinePart)
    (oldContent newContent : String) (contextLines : Int := 4) : DiffResult :=
  let s := diffParts contextLines.toNat {} (diffLines oldContent newContent)
  ⟨joinLines (s.output.map formatNumberedDiffLine), s.firstChangedLine⟩

def oldValues (parts : List DiffLinePart) : List String :=
  (parts.filter (·.kind ≠ .added)).map (·.value)

def newValues (parts : List DiffLinePart) : List String :=
  (parts.filter (·.kind ≠ .removed)).map (·.value)

theorem oldValues_cons (part : DiffLinePart) (parts : List DiffLinePart) :
    oldValues (part :: parts) =
    if part.kind = .added then oldValues parts else part.value :: oldValues parts := by
  by_cases h : part.kind = .added <;> simp [oldValues, h]

theorem newValues_cons (part : DiffLinePart) (parts : List DiffLinePart) :
    newValues (part :: parts) =
    if part.kind = .removed then newValues parts else part.value :: newValues parts := by
  by_cases h : part.kind = .removed <;> simp [newValues, h]

def AtLineBoundaries : List String → Prop
  | [] => True
  | value :: values =>
    (value = "" ∨ value.toList.getLast? = some '\n' ∨ ∀ v ∈ values, v = "") ∧ AtLineBoundaries values

structure IsLineDiff (parts : List DiffLinePart) (oldContent newContent : String) : Prop where
  old_eq : String.join (oldValues parts) = oldContent
  new_eq : String.join (newValues parts) = newContent
  old_boundaries : AtLineBoundaries (oldValues parts)
  new_boundaries : AtLineBoundaries (newValues parts)

theorem partLines_prefix (value : String) : partLines value <+: splitLines value := by
  rw [partLines]
  split
  · exact List.dropLast_prefix _
  · exact List.prefix_refl _

theorem partLines_append_newline (line rest : String) :
    partLines (line ++ "\n" ++ rest) = splitLines line ++ partLines rest := by
  have hne := splitLines_ne_nil rest
  simp only [partLines, splitLines_append_newline, List.getLast?_append_of_ne_nil _ hne,
    List.dropLast_append_of_ne_nil hne]
  split <;> rfl

theorem partLines_append {value rest : String}
    (h : value = "" ∨ value.toList.getLast? = some '\n' ∨ rest = "") :
    partLines (value ++ rest) = partLines value ++ partLines rest := by
  rcases h with rfl | hlast | rfl
  · rw [String.empty_append]
    rfl
  · obtain ⟨cs, hcs⟩ := List.getLast?_eq_some_iff.mp hlast
    have hline : value = String.ofList cs ++ "\n" := by
      apply String.toList_inj.mp
      rw [hcs, String.toList_append, String.toList_ofList]
      rfl
    have hvalue : partLines value = splitLines (String.ofList cs) := by
      have happend := partLines_append_newline (String.ofList cs) ""
      rw [String.append_empty, ← hline] at happend
      rw [happend]
      exact List.append_nil _
    rw [hvalue, hline, partLines_append_newline]
  · rw [String.append_empty]
    exact (List.append_nil _).symm

theorem flatMap_partLines {values : List String} (h : AtLineBoundaries values) :
    values.flatMap partLines = partLines (String.join values) := by
  induction values with
  | nil => rfl
  | cons value values ih =>
    rw [List.flatMap_cons, ih h.2, String.join_cons, partLines_append]
    refine h.1.imp_right (Or.imp_right fun hempty => ?_)
    rw [← String.toList_eq_nil_iff, String.toList_join, List.flatMap_eq_nil_iff]
    intro v hv
    rw [hempty v hv]
    rfl

def NamesLine (lines : List String) (n : Nat) (text : String) : Prop :=
  1 ≤ n ∧ lines[n - 1]? = some text

theorem namesLine_append (done : List String) (line : String) (rest : List String) :
    NamesLine (done ++ line :: rest) (done.length + 1) line := by
  simp [NamesLine]

def countRows (kind : RowKind) (rows : List DiffRow) : Nat := rows.countP (·.kind = kind)

section

variable (old new : List String)

/-- What a row says after `added` added and `removed` removed rows. A context row has the number of
its line in the old file, from which the number in the new file is computed. -/
def RowNamed (added removed : Nat) (row : DiffRow) : Prop :=
  match row.kind with
  | .added => NamesLine new row.lineNum row.content
  | .removed => NamesLine old row.lineNum row.content
  | .context =>
    ∃ n, n + removed = row.lineNum + added ∧ 1 ≤ n ∧
      (row.content = "..." ∨ NamesLine new n row.content)

def RowsNamed (added removed : Nat) : List DiffRow → Prop
  | [] => True
  | row :: rows => RowNamed old new added removed row ∧
    RowsNamed (added + countRows .added [row]) (removed + countRows .removed [row]) rows

structure Tracks (s : DiffState) (oldRest newRest : List String) : Prop where
  old_pos : ∃ done, old = done ++ oldRest ∧ s.oldLineNum = done.length + 1
  new_pos : ∃ done, new = done ++ newRest ∧ s.newLineNum = done.length + 1
  balance : s.newLineNum + countRows .removed s.output = s.oldLineNum + countRows .added s.output
  named : RowsNamed old new 0 0 s.output

end

variable {old new : List String} {s : DiffState}

theorem countRows_append (kind : RowKind) (xs ys : List DiffRow) :
    countRows kind (xs ++ ys) = countRows kind xs + countRows kind ys := List.countP_append

@[simp] theorem countRows_singleton (kind : RowKind) (row : DiffRow) :
    countRows kind [row] = if row.kind = kind then 1 else 0 := by
  simp [countRows]

theorem countRows_numberedRows (kind shown : RowKind) (n : Nat) (lines : List String) :
    countRows kind (numberedRows shown n lines) = if shown = kind then lines.length else 0 := by
  induction lines generalizing n with
  | nil => simp [numberedRows, countRows]
  | cons line lines ih =>
    rw [numberedRows, countRows, List.countP_cons, ← countRows, ih]
    by_cases h : shown = kind <;> simp [h]

theorem rowsNamed_append {added removed : Nat} {xs ys : List DiffRow} :
    RowsNamed old new added removed (xs ++ ys) ↔ RowsNamed old new added removed xs ∧
      RowsNamed old new (added + countRows .added xs) (removed + countRows .removed xs) ys := by
  induction xs generalizing added removed with
  | nil => simp [RowsNamed, countRows]
  | cons row xs ih =>
    have hcons : ∀ kind, countRows kind (row :: xs) = countRows kind [row] + countRows kind xs :=
      fun kind => countRows_append kind [row] xs
    rw [List.cons_append, RowsNamed, RowsNamed, ih, hcons, hcons, and_assoc, Nat.add_assoc,
      Nat.add_assoc]

theorem rowsNamed_added (done lines rest : List String) (added removed : Nat) :
    RowsNamed old (done ++ (lines ++ rest)) added removed
      (numberedRows .added (done.length + 1) lines) := by
  induction lines generalizing done added with
  | nil => trivial
  | cons line lines ih =>
    refine ⟨namesLine_append _ _ _, ?_⟩
    simpa using ih (done ++ [line]) (added + 1)

theorem rowsNamed_removed (done lines rest : List String) (added removed : Nat) :
    RowsNamed (done ++ (lines ++ rest)) new added removed
      (numberedRows .removed (done.length + 1) lines) := by
  induction lines generalizing done removed with
  | nil => trivial
  | cons line lines ih =>
    refine ⟨namesLine_append _ _ _, ?_⟩
    simpa using ih (done ++ [line]) (removed + 1)

theorem rowsNamed_context (done lines rest : List String) {n added removed : Nat}
    (h : done.length + 1 + removed = n + added) :
    RowsNamed old (done ++ (lines ++ rest)) added removed (numberedRows .context n lines) := by
  induction lines generalizing done n with
  | nil => trivial
  | cons line lines ih =>
    refine ⟨⟨done.length + 1, h, Nat.le_add_left 1 _, .inr (namesLine_append _ _ _)⟩, ?_⟩
    have hnext : (done ++ [line]).length + 1 + removed = n + 1 + added := by
      rw [List.length_append, List.length_singleton]
      omega
    simpa using ih (done ++ [line]) hnext

namespace Tracks

variable {oldRest newRest : List String}

theorem add {lines : List String} (h : Tracks old new s oldRest (lines ++ newRest)) :
    Tracks old new (s.add lines) oldRest newRest := by
  obtain ⟨done, hnew, hpos⟩ := h.new_pos
  refine ⟨h.old_pos, ⟨done ++ lines, ?_, ?_⟩, ?_, rowsNamed_append.mpr ⟨h.named, ?_⟩⟩
  · rw [hnew, List.append_assoc]
  · simp only [DiffState.add, hpos, List.length_append]
    omega
  · have hbalance := h.balance
    simp only [DiffState.add, countRows_append, countRows_numberedRows]
    simp only [reduceCtorEq, if_false, if_true]
    omega
  · rw [hpos, hnew]
    exact rowsNamed_added done lines newRest _ _

theorem remove {lines : List String} (h : Tracks old new s (lines ++ oldRest) newRest) :
    Tracks old new (s.remove lines) oldRest newRest := by
  obtain ⟨done, hold, hpos⟩ := h.old_pos
  refine ⟨⟨done ++ lines, ?_, ?_⟩, h.new_pos, ?_, rowsNamed_append.mpr ⟨h.named, ?_⟩⟩
  · rw [hold, List.append_assoc]
  · simp only [DiffState.remove, hpos, List.length_append]
    omega
  · have hbalance := h.balance
    simp only [DiffState.remove, countRows_append, countRows_numberedRows]
    simp only [reduceCtorEq, if_false, if_true]
    omega
  · rw [hpos, hold]
    exact rowsNamed_removed done lines oldRest _ _

theorem showRows {rows : List DiffRow} (h : Tracks old new s oldRest newRest)
    (hadded : countRows .added rows = 0) (hremoved : countRows .removed rows = 0)
    (hrows : RowsNamed old new (countRows .added s.output) (countRows .removed s.output) rows) :
    Tracks old new { s with output := s.output ++ rows } oldRest newRest := by
  refine ⟨h.old_pos, h.new_pos, ?_, rowsNamed_append.mpr ⟨h.named, ?_⟩⟩
  · simpa only [countRows_append, hadded, hremoved, Nat.add_zero] using h.balance
  · simpa only [Nat.zero_add] using hrows

theorem advance {lines : List String} (h : Tracks old new s (lines ++ oldRest) (lines ++ newRest)) :
    Tracks old new (s.advance lines.length) oldRest newRest := by
  obtain ⟨oldDone, hold, holdPos⟩ := h.old_pos
  obtain ⟨newDone, hnew, hnewPos⟩ := h.new_pos
  refine ⟨⟨oldDone ++ lines, ?_, ?_⟩, ⟨newDone ++ lines, ?_, ?_⟩, ?_, h.named⟩
  · rw [hold, List.append_assoc]
  · simp only [DiffState.advance, holdPos, List.length_append]
    omega
  · rw [hnew, List.append_assoc]
  · simp only [DiffState.advance, hnewPos, List.length_append]
    omega
  · have hbalance := h.balance
    simp only [DiffState.advance]
    omega

theorem showLines {lines : List String}
    (h : Tracks old new s (lines ++ oldRest) (lines ++ newRest)) :
    Tracks old new (s.showLines lines) oldRest newRest := by
  obtain ⟨done, hnew, hpos⟩ := h.new_pos
  refine advance (h.showRows (by simp [countRows_numberedRows])
    (by simp [countRows_numberedRows]) ?_)
  rw [hnew]
  exact rowsNamed_context done lines newRest (hpos ▸ h.balance)

theorem skip {lines : List String} (h : Tracks old new s (lines ++ oldRest) (lines ++ newRest)) :
    Tracks old new (s.skip lines.length) oldRest newRest := by
  rw [DiffState.skip]
  split
  · refine advance (h.showRows (by simp [countRows_numberedRows])
      (by simp [countRows_numberedRows]) ?_)
    obtain ⟨done, -, hpos⟩ := h.new_pos
    exact ⟨⟨s.newLineNum, h.balance, by omega, .inl rfl⟩, trivial⟩
  · rename_i hempty
    obtain rfl : lines = [] := List.eq_nil_of_length_eq_zero (by omega)
    exact h

theorem cut {raw : List String} (n : Nat) (h : Tracks old new s (raw ++ oldRest) (raw ++ newRest)) :
    Tracks old new s (raw.take n ++ (raw.drop n ++ oldRest))
      (raw.take n ++ (raw.drop n ++ newRest)) := by
  rwa [← List.append_assoc, ← List.append_assoc, List.take_append_drop]

theorem skip_take {raw : List String} {n : Nat} (hn : n ≤ raw.length)
    (h : Tracks old new s (raw ++ oldRest) (raw ++ newRest)) :
    Tracks old new (s.skip n) (raw.drop n ++ oldRest) (raw.drop n ++ newRest) := by
  have hskip := (h.cut n).skip
  rwa [List.length_take, Nat.min_eq_left hn] at hskip

theorem context {raw : List String} (contextLimit : Nat) (nextPartIsChange : Bool)
    (h : Tracks old new s (raw ++ oldRest) (raw ++ newRest)) :
    Tracks old new (s.context contextLimit nextPartIsChange raw) oldRest newRest := by
  have hfront := (h.cut contextLimit).showLines
  unfold DiffState.context
  split
  · split
    · -- The elision row stands for the lines between the two ends.
      rename_i hlong
      have hmiddle := hfront.skip_take (n := raw.length - contextLimit - contextLimit)
        (by rw [List.length_drop]; omega)
      have hdrop : (raw.drop contextLimit).drop (raw.length - contextLimit - contextLimit) =
          raw.drop (raw.length - contextLimit) := by
        rw [List.drop_drop]
        congr 1
        omega
      rw [hdrop] at hmiddle
      exact hmiddle.showLines
    · exact h.showLines
  · exact (h.skip_take (Nat.sub_le _ _)).showLines
  · have hback := hfront.skip
    rwa [List.length_drop] at hback
  · exact h.advance

theorem withFlags (h : Tracks old new s oldRest newRest) (lastWasChange : Bool)
    (firstChangedLine : Option Nat) :
    Tracks old new { s with
      lastWasChange := lastWasChange, firstChangedLine := firstChangedLine } oldRest newRest :=
  ⟨h.old_pos, h.new_pos, h.balance, h.named⟩

theorem diffParts {contextLimit : Nat} {parts : List DiffLinePart}
    (h : Tracks old new s ((oldValues parts).flatMap partLines ++ oldRest)
      ((newValues parts).flatMap partLines ++ newRest)) :
    Tracks old new (diffParts contextLimit s parts) oldRest newRest := by
  induction parts generalizing s with
  | nil => exact h
  | cons part parts ih =>
    apply ih
    rw [oldValues_cons, newValues_cons] at h
    unfold DiffState.step
    split
    · rename_i hkind
      simp only [hkind, reduceCtorEq, if_true, if_false, List.flatMap_cons, List.append_assoc] at h
      exact withFlags (add (s := s.markChange) (h.withFlags _ _)) _ _
    · rename_i hkind
      simp only [hkind, reduceCtorEq, if_true, if_false, List.flatMap_cons, List.append_assoc] at h
      exact withFlags (remove (s := s.markChange) (h.withFlags _ _)) _ _
    · rename_i hkind
      simp only [hkind, reduceCtorEq, if_false, List.flatMap_cons, List.append_assoc] at h
      exact (h.context contextLimit _).withFlags _ _

end Tracks

theorem rowsNamed_diffParts {parts : List DiffLinePart} {oldContent newContent : String}
    (h : IsLineDiff parts oldContent newContent) (contextLimit : Nat) :
    RowsNamed (splitLines oldContent) (splitLines newContent) 0 0
      (diffParts contextLimit {} parts).output := by
  obtain ⟨oldRest, hold⟩ := partLines_prefix oldContent
  obtain ⟨newRest, hnew⟩ := partLines_prefix newContent
  have hstart : Tracks (splitLines oldContent) (splitLines newContent) {}
      ((oldValues parts).flatMap partLines ++ oldRest)
      ((newValues parts).flatMap partLines ++ newRest) := by
    rw [flatMap_partLines h.old_boundaries, flatMap_partLines h.new_boundaries, h.old_eq,
      h.new_eq, hold, hnew]
    exact ⟨⟨[], rfl, rfl⟩, ⟨[], rfl, rfl⟩, rfl, trivial⟩
  exact hstart.diffParts.named

end JevCode.Edit
