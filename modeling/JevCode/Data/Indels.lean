import Mathlib.Data.List.Basic
import Mathlib.Order.Basic

namespace JevCode.Data

variable {α : Type} [DecidableEq α]

def indels : List α → List α → Nat
  | [], ys => ys.length
  | xs, [] => xs.length
  | x :: xs, y :: ys =>
    if x = y then indels xs ys else 1 + min (indels xs (y :: ys)) (indels (x :: xs) ys)
termination_by xs ys => xs.length + ys.length

@[simp] theorem indels_nil_left (ys : List α) : indels [] ys = ys.length := by rw [indels]

@[simp] theorem indels_nil_right (xs : List α) : indels xs [] = xs.length := by
  cases xs with
  | nil => rw [indels]
  | cons x xs => rw [indels]; exact fun h => absurd h (List.cons_ne_nil _ _)

theorem indels_cons (x y : α) (xs ys : List α) : indels (x :: xs) (y :: ys) =
    if x = y then indels xs ys else 1 + min (indels xs (y :: ys)) (indels (x :: xs) ys) := by
  rw [indels]

theorem indels_near (xs ys : List α) :
    (∀ x, indels xs ys ≤ indels (x :: xs) ys + 1 ∧ indels (x :: xs) ys ≤ indels xs ys + 1) ∧
      ∀ y, indels xs ys ≤ indels xs (y :: ys) + 1 ∧ indels xs (y :: ys) ≤ indels xs ys + 1 := by
  induction hn : xs.length + ys.length using Nat.strongRecOn generalizing xs ys with
  | ind n ih =>
    constructor
    · intro x
      cases ys with
      | nil => simp; omega
      | cons y ys =>
        have hys := ih (xs.length + ys.length) (by simp at hn; omega) xs ys rfl
        rw [indels_cons]
        split
        · exact ⟨(hys.2 y).2, (hys.2 y).1⟩
        · have := (hys.1 x).2
          have := (hys.1 x).1
          have := (hys.2 y).2
          omega
    · intro y
      cases xs with
      | nil => simp; omega
      | cons x xs =>
        have hxs := ih (xs.length + ys.length) (by simp at hn; omega) xs ys rfl
        rw [indels_cons]
        split
        · exact ⟨(hxs.1 x).2, (hxs.1 x).1⟩
        · have := (hxs.2 y).2
          have := (hxs.2 y).1
          have := (hxs.1 x).2
          omega

theorem indels_tail_le (x y : α) (xs ys : List α) : indels xs ys ≤ indels (x :: xs) (y :: ys) := by
  rw [indels_cons]
  split
  · exact Nat.le_refl _
  · have := ((indels_near xs ys).2 y).1
    have := ((indels_near xs ys).1 x).1
    omega

theorem length_sub_le_indels (xs ys : List α) :
    xs.length - ys.length ≤ indels xs ys ∧ ys.length - xs.length ≤ indels xs ys := by
  induction xs, ys using indels.induct with
  | case1 ys => simp
  | case2 xs hxs => simp
  | case3 xs y ys ih =>
    rw [indels_cons, if_pos rfl]
    simpa using ih
  | case4 x xs y ys hne ihx ihy =>
    rw [indels_cons, if_neg hne]
    simp only [List.length_cons] at ihx ihy ⊢
    omega

theorem indels_step {xs ys : List α} {n : Nat} (hdiffer : ∀ x ∈ xs.head?, ∀ y ∈ ys.head?, x ≠ y)
    (h : indels xs ys ≤ n) (hne : xs ≠ [] ∨ ys ≠ []) :
    (∃ x xs', xs = x :: xs' ∧
      indels xs' ys + 1 ≤ n) ∨ ∃ y ys', ys = y :: ys' ∧ indels xs ys' + 1 ≤ n := by
  cases xs with
  | nil =>
    cases ys with
    | nil => simp at hne
    | cons y ys => exact .inr ⟨y, ys, rfl, by simpa using h⟩
  | cons x xs =>
    cases ys with
    | nil => exact .inl ⟨x, xs, rfl, by simpa using h⟩
    | cons y ys =>
      rw [indels_cons, if_neg (hdiffer x rfl y rfl)] at h
      obtain hle | hle := Nat.le_total (indels xs (y :: ys)) (indels (x :: xs) ys)
      · exact .inl ⟨x, xs, rfl, by omega⟩
      · exact .inr ⟨y, ys, rfl, by omega⟩

structure IsLongestCommon (common xs ys : List α) : Prop where
  left : common.Sublist xs
  right : common.Sublist ys
  longest : ∀ other : List α, other.Sublist xs → other.Sublist ys → other.length ≤ common.length

theorem indels_le_of_common {common xs ys : List α} (hleft : common.Sublist xs)
    (hright : common.Sublist ys) :
    indels xs ys + 2 * common.length ≤ xs.length + ys.length := by
  induction xs, ys using indels.induct generalizing common with
  | case1 ys =>
    cases hleft
    simp
  | case2 xs hxs =>
    cases hright
    simp
  | case3 xs y ys ih =>
    rw [indels_cons, if_pos rfl]
    have htail := ih hleft.tail hright.tail
    cases common with
    | nil => simp at htail ⊢; omega
    | cons c common => simp at htail ⊢; omega
  | case4 x xs y ys hne ihx ihy =>
    rw [indels_cons, if_neg hne]
    cases hleft with
    | cons _ hleft =>
      have := ihx hleft hright
      simp at this ⊢
      omega
    | cons_cons _ hleft' =>
      cases hright with
      | cons _ hright =>
        have := ihy (hleft'.cons_cons x) hright
        simp at this ⊢
        omega
      | cons_cons _ _ => exact absurd rfl hne

theorem exists_common (xs ys : List α) :
    ∃ common : List α, common.Sublist xs ∧ common.Sublist ys ∧
      indels xs ys + 2 * common.length = xs.length + ys.length := by
  induction xs, ys using indels.induct with
  | case1 ys => exact ⟨[], List.Sublist.refl _, List.nil_sublist _, by simp⟩
  | case2 xs hxs => exact ⟨[], List.nil_sublist _, List.Sublist.refl _, by simp⟩
  | case3 xs y ys ih =>
    obtain ⟨common, hleft, hright, hlength⟩ := ih
    refine ⟨y :: common, hleft.cons_cons y, hright.cons_cons y, ?_⟩
    rw [indels_cons, if_pos rfl]
    simp
    omega
  | case4 x xs y ys hne ihx ihy =>
    rw [indels_cons, if_neg hne]
    obtain hle | hle := Nat.le_total (indels xs (y :: ys)) (indels (x :: xs) ys)
    · obtain ⟨common, hleft, hright, hlength⟩ := ihx
      refine ⟨common, hleft.cons x, hright, ?_⟩
      simp at hlength ⊢
      omega
    · obtain ⟨common, hleft, hright, hlength⟩ := ihy
      refine ⟨common, hleft, hright.cons y, ?_⟩
      simp at hlength ⊢
      omega

end JevCode.Data
