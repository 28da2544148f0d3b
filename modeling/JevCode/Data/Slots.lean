import Mathlib.Data.List.Basic

namespace JevCode.Data

abbrev Slots (α : Type) := List (Option α)

variable {α : Type}

def Slots.read (slots : Slots α) (i : Nat) : Option α := slots[i]?.join

theorem read_set_self {slots : Slots α} {i : Nat} (h : i < slots.length) (v : Option α) :
    Slots.read (slots.set i v) i = v := by
  simp [Slots.read, h]

theorem read_set_of_ne (slots : Slots α) {i j : Nat} (h : i ≠ j) (v : Option α) :
    Slots.read (slots.set i v) j = slots.read j := by
  simp [Slots.read, h]

variable {n head i j : Nat}

theorem mod_around (hhead : head < n) (hi : i < n) :
    (head + i) % n = if head + i < n then head + i else head + i - n := by
  split
  case isTrue h => exact Nat.mod_eq_of_lt h
  case isFalse h => rw [Nat.mod_eq_sub_mod (Nat.le_of_not_lt h), Nat.mod_eq_of_lt (by omega)]

theorem around_inj (hhead : head < n) (hi : i < n) (hj : j < n)
    (h : (head + i) % n = (head + j) % n) : i = j := by
  rw [mod_around hhead hi, mod_around hhead hj] at h
  split at h <;> split at h <;> omega

theorem around_succ (n head i : Nat) : ((head + 1) % n + i) % n = (head + (i + 1)) % n := by
  rw [Nat.mod_add_mod]
  congr 1
  omega

theorem around_pred (hn : 0 < n) (head i : Nat) :
    ((head + n - 1) % n + (i + 1)) % n = (head + i) % n := by
  rw [Nat.mod_add_mod]
  have hround : head + n - 1 + (i + 1) = head + i + n := by omega
  rw [hround, Nat.add_mod_right]

theorem around_full (hhead : head < n) : (head + n) % n = head := by
  rw [Nat.add_mod_right, Nat.mod_eq_of_lt hhead]

end JevCode.Data
