import JevCode.Data.EditTable
import Mathlib.Order.Bounds.Basic
import Mathlib.Order.MinMax

namespace JevCode.Data

variable {α : Type}

inductive SingleEdit : List α → List α → Prop
  | insert (l : List α) (x : α) (r : List α) : SingleEdit (l ++ r) (l ++ x :: r)
  | delete (l : List α) (x : α) (r : List α) : SingleEdit (l ++ x :: r) (l ++ r)
  | substitute (l : List α) (x y : α) (r : List α) : SingleEdit (l ++ x :: r) (l ++ y :: r)

inductive EditsIn : Nat → List α → List α → Prop
  | refl (xs : List α) : EditsIn 0 xs xs
  | step {n : Nat} {xs ys zs : List α} (h : EditsIn n xs ys) (edit : SingleEdit ys zs) :
    EditsIn (n + 1) xs zs

theorem SingleEdit.symm {xs ys : List α} (h : SingleEdit xs ys) : SingleEdit ys xs := by
  cases h with
  | insert l x r => exact .delete l x r
  | delete l x r => exact .insert l x r
  | substitute l x y r => exact .substitute l y x r

theorem SingleEdit.cons {xs ys : List α} (w : α) (h : SingleEdit xs ys) :
    SingleEdit (w :: xs) (w :: ys) := by
  cases h with
  | insert l x r => exact .insert (w :: l) x r
  | delete l x r => exact .delete (w :: l) x r
  | substitute l x y r => exact .substitute (w :: l) x y r

theorem SingleEdit.reverse {xs ys : List α} (h : SingleEdit xs ys) :
    SingleEdit xs.reverse ys.reverse := by
  cases h with
  | insert l x r => simpa using SingleEdit.insert r.reverse x l.reverse
  | delete l x r => simpa using SingleEdit.delete r.reverse x l.reverse
  | substitute l x y r => simpa using SingleEdit.substitute r.reverse x y l.reverse

theorem EditsIn.trans {n m : Nat} {xs ys zs : List α} (h : EditsIn n xs ys) (h' : EditsIn m ys zs) :
    EditsIn (n + m) xs zs := by
  induction h' with
  | refl => exact h
  | step _ edit ih => exact (ih h).step edit

theorem SingleEdit.once {xs ys : List α} (h : SingleEdit xs ys) : EditsIn 1 xs ys :=
  (EditsIn.refl xs).step h

theorem EditsIn.symm {n : Nat} {xs ys : List α} (h : EditsIn n xs ys) : EditsIn n ys xs := by
  induction h with
  | refl xs => exact .refl xs
  | step _ edit ih => simpa [Nat.add_comm] using edit.symm.once.trans ih

theorem EditsIn.cons {n : Nat} {xs ys : List α} (w : α) (h : EditsIn n xs ys) :
    EditsIn n (w :: xs) (w :: ys) := by
  induction h with
  | refl xs => exact .refl (w :: xs)
  | step _ edit ih => exact ih.step (edit.cons w)

theorem EditsIn.reverse {n : Nat} {xs ys : List α} (h : EditsIn n xs ys) :
    EditsIn n xs.reverse ys.reverse := by
  induction h with
  | refl xs => exact .refl xs.reverse
  | step _ edit ih => exact ih.step edit.reverse

theorem editsIn_nil (ys : List α) : EditsIn ys.length [] ys := by
  induction ys with
  | nil => exact .refl []
  | cons y ys ih => exact ih.step (.insert [] y ys)

variable [DecidableEq α]

def levenshtein : List α → List α → Nat
  | [], ys => ys.length
  | x :: xs, [] => xs.length + 1
  | x :: xs, y :: ys => min (min (levenshtein xs (y :: ys) + 1) (levenshtein (x :: xs) ys + 1))
      (levenshtein xs ys + if x = y then 0 else 1)
termination_by xs ys => xs.length + ys.length

@[simp] theorem levenshtein_nil_left (ys : List α) : levenshtein [] ys = ys.length := by
  rw [levenshtein]

@[simp] theorem levenshtein_nil_right (xs : List α) : levenshtein xs [] = xs.length := by
  cases xs <;> simp [levenshtein]

theorem levenshtein_cons (x y : α) (xs ys : List α) : levenshtein (x :: xs) (y :: ys) =
    min (min (levenshtein xs (y :: ys) + 1) (levenshtein (x :: xs) ys + 1))
      (levenshtein xs ys + if x = y then 0 else 1) := by
  rw [levenshtein]

theorem editsIn_levenshtein (xs ys : List α) : EditsIn (levenshtein xs ys) xs ys := by
  induction xs generalizing ys with
  | nil => simpa using editsIn_nil ys
  | cons x xs ih =>
    induction ys with
    | nil => simpa using (editsIn_nil (x :: xs)).symm
    | cons y ys ihy =>
      have hdelete : EditsIn (levenshtein xs (y :: ys) + 1) (x :: xs) (y :: ys) := by
        simpa [Nat.add_comm] using (SingleEdit.delete [] x xs).once.trans (ih (y :: ys))
      have hinsert : EditsIn (levenshtein (x :: xs) ys + 1) (x :: xs) (y :: ys) :=
        ihy.step (.insert [] y ys)
      have hfirst : EditsIn (levenshtein xs ys + if x = y then 0 else 1) (x :: xs) (y :: ys) := by
        split
        case isTrue h => exact h ▸ (ih ys).cons x
        case isFalse h => exact ((ih ys).cons x).step (.substitute [] x y ys)
      rw [levenshtein_cons]
      exact min_rec' (EditsIn · (x :: xs) (y :: ys))
        (min_rec' (EditsIn · (x :: xs) (y :: ys)) hdelete hinsert) hfirst

theorem levenshtein_insert_le (xs : List α) (y : α) (ys : List α) :
    levenshtein xs (y :: ys) ≤ levenshtein xs ys + 1 := by
  cases xs with
  | nil => simp
  | cons x xs => rw [levenshtein_cons]; omega

theorem levenshtein_delete_le (xs : List α) (y : α) (ys : List α) :
    levenshtein xs ys ≤ levenshtein xs (y :: ys) + 1 := by
  induction xs with
  | nil => simp; omega
  | cons x xs ih =>
    have hleft : levenshtein (x :: xs) ys ≤ levenshtein xs ys + 1 := by
      cases ys with
      | nil => simp
      | cons z ys => rw [levenshtein_cons]; omega
    rw [levenshtein_cons]
    omega

theorem levenshtein_substitute_le (xs : List α) (x y : α) (ys : List α) :
    levenshtein xs (y :: ys) ≤ levenshtein xs (x :: ys) + 1 := by
  induction xs with
  | nil => simp
  | cons z xs ih =>
    rw [levenshtein_cons, levenshtein_cons z x]
    split <;> split <;> omega

theorem levenshtein_cons_le {ys zs : List α}
    (h : ∀ xs, levenshtein xs zs ≤ levenshtein xs ys + 1) (w : α) (xs : List α) :
    levenshtein xs (w :: zs) ≤ levenshtein xs (w :: ys) + 1 := by
  induction xs with
  | nil => simpa using h []
  | cons x xs ih =>
    have hall := h (x :: xs)
    have hrest := h xs
    rw [levenshtein_cons, levenshtein_cons x w xs ys]
    omega

theorem levenshtein_append_le {ys zs : List α} (h : ∀ xs, levenshtein xs zs ≤ levenshtein xs ys + 1)
    (l xs : List α) : levenshtein xs (l ++ zs) ≤ levenshtein xs (l ++ ys) + 1 := by
  induction l generalizing xs with
  | nil => exact h xs
  | cons w l ih => exact levenshtein_cons_le ih w xs

theorem SingleEdit.levenshtein_le {ys zs : List α} (h : SingleEdit ys zs) (xs : List α) :
    levenshtein xs zs ≤ levenshtein xs ys + 1 := by
  cases h with
  | insert l x r => exact levenshtein_append_le (fun xs => levenshtein_insert_le xs x r) l xs
  | delete l x r => exact levenshtein_append_le (fun xs => levenshtein_delete_le xs x r) l xs
  | substitute l x y r =>
    exact levenshtein_append_le (fun xs => levenshtein_substitute_le xs x y r) l xs

theorem levenshtein_self (xs : List α) : levenshtein xs xs = 0 := by
  induction xs with
  | nil => simp
  | cons x xs ih => simp [levenshtein_cons, ih]

theorem EditsIn.levenshtein_le {n : Nat} {xs ys : List α} (h : EditsIn n xs ys) :
    levenshtein xs ys ≤ n := by
  induction h with
  | refl xs => simp [levenshtein_self]
  | step _ edit ih => exact (edit.levenshtein_le _).trans (by omega)

theorem levenshtein_isLeast (xs ys : List α) : IsLeast {n | EditsIn n xs ys} (levenshtein xs ys) :=
  ⟨editsIn_levenshtein xs ys, fun _ h => EditsIn.levenshtein_le h⟩

theorem levenshtein_comm (xs ys : List α) : levenshtein xs ys = levenshtein ys xs :=
  Nat.le_antisymm (editsIn_levenshtein ys xs).symm.levenshtein_le
    (editsIn_levenshtein xs ys).symm.levenshtein_le

theorem levenshtein_triangle (xs ys zs : List α) :
    levenshtein xs zs ≤ levenshtein xs ys + levenshtein ys zs :=
  ((editsIn_levenshtein xs ys).trans (editsIn_levenshtein ys zs)).levenshtein_le

theorem levenshtein_le_max (xs ys : List α) : levenshtein xs ys ≤ max xs.length ys.length := by
  induction xs generalizing ys with
  | nil => simp
  | cons x xs ih =>
    cases ys with
    | nil => simp
    | cons y ys =>
      have hrest := ih ys
      rw [levenshtein_cons]
      simp only [List.length_cons]
      split <;> omega

theorem levenshtein_reverse (xs ys : List α) :
    levenshtein xs.reverse ys.reverse = levenshtein xs ys := by
  apply Nat.le_antisymm
  · exact (editsIn_levenshtein xs ys).reverse.levenshtein_le
  · simpa using (editsIn_levenshtein xs.reverse ys.reverse).reverse.levenshtein_le

theorem editCell_eq_levenshtein (xs ys : List α) {i j : Nat} (hi : i ≤ xs.length)
    (hj : j ≤ ys.length) :
    editCell xs ys i j = levenshtein (xs.take i).reverse (ys.take j).reverse := by
  induction hn : i + j using Nat.strongRecOn generalizing i j with
  | ind n ih =>
    cases i with
    | zero => simp; omega
    | succ i =>
      cases j with
      | zero => simp; omega
      | succ j =>
        have hx : (xs.take (i + 1)).reverse = xs[i] :: (xs.take i).reverse := by
          rw [List.take_succ_eq_append_getElem hi]
          simp
        have hy : (ys.take (j + 1)).reverse = ys[j] :: (ys.take j).reverse := by
          rw [List.take_succ_eq_append_getElem hj]
          simp
        rw [editCell_succ, ih (i + (j + 1)) (by omega) (by omega) hj rfl,
          ih (i + 1 + j) (by omega) hi (by omega) rfl,
          ih (i + j) (by omega) (by omega) (by omega) rfl, hx, hy, levenshtein_cons]
        simp [List.getElem?_eq_getElem hi, List.getElem?_eq_getElem hj]

theorem editCell_length (xs ys : List α) :
    editCell xs ys xs.length ys.length = levenshtein xs ys := by
  rw [editCell_eq_levenshtein xs ys (Nat.le_refl _) (Nat.le_refl _)]
  simpa using levenshtein_reverse xs ys

end JevCode.Data
