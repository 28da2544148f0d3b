import Mathlib.Data.List.Basic

namespace JevCode.Data

variable {α : Type} [DecidableEq α]

def editCell (xs ys : List α) : Nat → Nat → Nat
  | 0, j => j
  | i + 1, 0 => i + 1
  | i + 1, j + 1 => min (min (editCell xs ys i (j + 1) + 1) (editCell xs ys (i + 1) j + 1))
      (editCell xs ys i j + if xs[i]? = ys[j]? then 0 else 1)
termination_by i j => i + j

variable (xs ys : List α)

@[simp] theorem editCell_zero_left (j : Nat) : editCell xs ys 0 j = j := by rw [editCell]

@[simp] theorem editCell_zero_right (i : Nat) : editCell xs ys i 0 = i := by
  cases i <;> rw [editCell]

theorem editCell_succ (i j : Nat) : editCell xs ys (i + 1) (j + 1) =
    min (min (editCell xs ys i (j + 1) + 1) (editCell xs ys (i + 1) j + 1))
      (editCell xs ys i j + if xs[i]? = ys[j]? then 0 else 1) := by
  rw [editCell]

theorem editCell_near (i j : Nat) :
    (editCell xs ys i j ≤ editCell xs ys (i + 1) j + 1 ∧
      editCell xs ys (i + 1) j ≤ editCell xs ys i j + 1) ∧
      editCell xs ys i j ≤ editCell xs ys i (j + 1) + 1 ∧
        editCell xs ys i (j + 1) ≤ editCell xs ys i j + 1 := by
  induction hn : i + j using Nat.strongRecOn generalizing i j with
  | ind n ih =>
    constructor
    · cases j with
      | zero => simp; omega
      | succ j =>
        have hleft := ih (i + j) (by omega) i j rfl
        rw [editCell_succ]
        split <;> omega
    · cases i with
      | zero => simp; omega
      | succ i =>
        have habove := ih (i + j) (by omega) i j rfl
        rw [editCell_succ]
        split <;> omega

theorem editCell_self (i : Nat) : editCell xs xs i i = 0 := by
  induction i with
  | zero => simp
  | succ i ih => rw [editCell_succ, ih]; simp

def Rises (i j : Nat) : Prop := editCell xs ys (i + 1) j = editCell xs ys i j + 1

def Falls (i j : Nat) : Prop := editCell xs ys i j = editCell xs ys (i + 1) j + 1

def Grows (i j : Nat) : Prop := editCell xs ys i (j + 1) = editCell xs ys i j + 1

def Shrinks (i j : Nat) : Prop := editCell xs ys i j = editCell xs ys i (j + 1) + 1

theorem rises_zero (i : Nat) : Rises xs ys i 0 := by simp [Rises]

theorem not_falls_zero (i : Nat) : ¬ Falls xs ys i 0 := by simp [Falls]; omega

theorem grows_zero (j : Nat) : Grows xs ys 0 j := by simp [Grows]

theorem not_shrinks_zero (j : Nat) : ¬ Shrinks xs ys 0 j := by simp [Shrinks]; omega

variable (i j : Nat)

theorem shrinks_succ :
    Shrinks xs ys (i + 1) j ↔ Rises xs ys i j ∧ (xs[i]? = ys[j]? ∨ Shrinks xs ys i j) := by
  have hnear := editCell_near xs ys i j
  unfold Shrinks Rises
  rw [editCell_succ]
  by_cases h : xs[i]? = ys[j]?
  · simp only [h, if_true, true_or, and_true]; omega
  · simp only [h, if_false, false_or]; omega

theorem grows_succ :
    Grows xs ys (i + 1) j ↔ Falls xs ys i j ∨
      ¬ ((xs[i]? = ys[j]? ∨ Shrinks xs ys i j) ∨ Rises xs ys i j) := by
  have hnear := editCell_near xs ys i j
  unfold Grows Falls Shrinks Rises
  rw [editCell_succ]
  by_cases h : xs[i]? = ys[j]?
  · simp only [h, if_true, true_or, not_true_eq_false, or_false]; omega
  · simp only [h, if_false, false_or]; omega

theorem rises_succ :
    Rises xs ys i (j + 1) ↔ Shrinks xs ys i j ∨
      ¬ ((xs[i]? = ys[j]? ∨ Falls xs ys i j) ∨ Grows xs ys i j) := by
  have hnear := editCell_near xs ys i j
  unfold Rises Shrinks Falls Grows
  rw [editCell_succ]
  by_cases h : xs[i]? = ys[j]?
  · simp only [h, if_true, true_or, not_true_eq_false, or_false]; omega
  · simp only [h, if_false, false_or]; omega

theorem falls_succ :
    Falls xs ys i (j + 1) ↔ Grows xs ys i j ∧ (xs[i]? = ys[j]? ∨ Falls xs ys i j) := by
  have hnear := editCell_near xs ys i j
  unfold Falls Grows
  rw [editCell_succ]
  by_cases h : xs[i]? = ys[j]?
  · simp only [h, if_true, true_or, and_true]; omega
  · simp only [h, if_false, false_or]; omega

theorem editCell_along {up down : Prop} [Decidable up] [Decidable down] (hup : up ↔ Grows xs ys i j)
    (hdown : down ↔ Shrinks xs ys i j) :
    (if up then editCell xs ys i j + 1 else if down then editCell xs ys i j - 1
      else editCell xs ys i j) =
      editCell xs ys i (j + 1) := by
  have hnear := editCell_near xs ys i j
  unfold Grows at hup
  unfold Shrinks at hdown
  split
  case isTrue h => exact (hup.mp h).symm
  case isFalse h =>
    have hnot := mt hup.mpr h
    split
    case isTrue h' =>
      have hless := hdown.mp h'
      omega
    case isFalse h' =>
      have hnot' := mt hdown.mpr h'
      omega

end JevCode.Data
