import Mathlib.Data.List.Basic
import Mathlib.Data.Set.Function

namespace JevCode.Data

variable {α : Type}

def lineOffset : List (List α) → Nat → Nat → Nat
  | [], _, col => col
  | _, 0, col => col
  | l :: lines, n + 1, col => l.length + 1 + lineOffset lines n col

def ColumnOf (lines : List (List α)) (n col : Nat) : Prop := ∃ l, lines[n]? = some l ∧ col ≤ l.length

@[simp] theorem lineOffset_zero (lines : List (List α)) (col : Nat) :
    lineOffset lines 0 col = col := by
  cases lines <;> rfl

@[simp] theorem lineOffset_succ (l : List α) (lines : List (List α)) (n col : Nat) :
    lineOffset (l :: lines) (n + 1) col = l.length + 1 + lineOffset lines n col := rfl

theorem columnOf_zero {l : List α} {lines : List (List α)} {col : Nat} :
    ColumnOf (l :: lines) 0 col ↔ col ≤ l.length := by
  simp [ColumnOf]

theorem columnOf_succ {l : List α} {lines : List (List α)} {n col : Nat} :
    ColumnOf (l :: lines) (n + 1) col ↔ ColumnOf lines n col := by
  simp [ColumnOf]

theorem ColumnOf.lt_length {lines : List (List α)} {n col : Nat} (h : ColumnOf lines n col) :
    n < lines.length := by
  obtain ⟨l, hl, -⟩ := h
  exact (List.getElem?_eq_some_iff.mp hl).1

theorem length_intercalate_cons (sep : α) (l : List α) {lines : List (List α)} (h : lines ≠ []) :
    ([sep].intercalate (l :: lines)).length = l.length + 1 + ([sep].intercalate lines).length := by
  rw [List.intercalate_cons_of_ne_nil h]
  simp
  omega

theorem ColumnOf.offset_le (sep : α) {lines : List (List α)} {n col : Nat}
    (h : ColumnOf lines n col) :
    lineOffset lines n col ≤ ([sep].intercalate lines).length := by
  induction lines generalizing n with
  | nil => exact absurd h.lt_length (Nat.not_lt_zero _)
  | cons l lines ih =>
    cases n with
    | zero =>
      have hcol := columnOf_zero.mp h
      cases lines with
      | nil => simpa using hcol
      | cons next lines => rw [length_intercalate_cons sep l (by simp)]; simp; omega
    | succ n =>
      have hrest := columnOf_succ.mp h
      have hne : lines ≠ [] := List.ne_nil_of_length_pos (Nat.zero_lt_of_lt hrest.lt_length)
      rw [length_intercalate_cons sep l hne, lineOffset_succ]
      exact Nat.add_le_add_left (ih hrest) _

theorem exists_columnOf (sep : α) {lines : List (List α)} (hne : lines ≠ []) {offset : Nat}
    (h : offset ≤ ([sep].intercalate lines).length) :
    ∃ n col, ColumnOf lines n col ∧ lineOffset lines n col = offset := by
  induction lines generalizing offset with
  | nil => exact absurd rfl hne
  | cons l lines ih =>
    rcases Nat.lt_or_ge l.length offset with hlt | hge
    · cases lines with
      | nil => simp at h; omega
      | cons next lines =>
        rw [length_intercalate_cons sep l (by simp)] at h
        have hrest : offset - (l.length + 1) ≤ ([sep].intercalate (next :: lines)).length := by omega
        obtain ⟨n, col, hcol, heq⟩ := ih (by simp) hrest
        exact ⟨n + 1, col, columnOf_succ.mpr hcol, by rw [lineOffset_succ, heq]; omega⟩
    · exact ⟨0, offset, columnOf_zero.mpr hge, lineOffset_zero _ _⟩

theorem ColumnOf.offset_lt {lines : List (List α)} {n m col col' : Nat} (h : ColumnOf lines n col)
    (h' : ColumnOf lines m col') (hlt : n < m) :
    lineOffset lines n col < lineOffset lines m col' := by
  induction lines generalizing n m with
  | nil => exact absurd h.lt_length (Nat.not_lt_zero _)
  | cons l lines ih =>
    obtain ⟨m, rfl⟩ := Nat.exists_eq_succ_of_ne_zero (Nat.ne_of_gt (Nat.zero_lt_of_lt hlt))
    cases n with
    | zero =>
      have hcol := columnOf_zero.mp h
      rw [lineOffset_zero, lineOffset_succ]
      omega
    | succ n =>
      have hrest := ih (columnOf_succ.mp h) (columnOf_succ.mp h') (Nat.lt_of_succ_lt_succ hlt)
      rw [lineOffset_succ, lineOffset_succ]
      omega

theorem lineOffset_add (lines : List (List α)) (n col : Nat) :
    lineOffset lines n col = lineOffset lines n 0 + col := by
  induction lines generalizing n with
  | nil => simp [lineOffset]
  | cons l lines ih =>
    cases n with
    | zero => simp
    | succ n =>
      rw [lineOffset_succ, lineOffset_succ, ih n]
      omega

theorem ColumnOf.offset_le_iff {lines : List (List α)} {n m col col' : Nat}
    (h : ColumnOf lines n col) (h' : ColumnOf lines m col') :
    lineOffset lines n col ≤ lineOffset lines m col' ↔ n < m ∨ n = m ∧ col ≤ col' := by
  rcases Nat.lt_trichotomy n m with hlt | rfl | hgt
  · have := h.offset_lt h' hlt
    omega
  · rw [lineOffset_add lines n col, lineOffset_add lines n col']
    omega
  · have := h'.offset_lt h hgt
    omega

end JevCode.Data
