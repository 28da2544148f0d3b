import JevCode.Text.Utf16
import Mathlib.Algebra.Order.Floor.Semiring
import Mathlib.Data.Rat.Floor
import Mathlib.Algebra.BigOperators.Group.List.Basic
import Mathlib.Tactic.Linarith
import Mathlib.Tactic.Ring

namespace JevCode.Session

open JevCode.Text (CodeUnit units)

def heuristicBytesPerToken : ℚ := 4

def isTokenDense (c : CodeUnit) : Bool :=
  (0x1100 ≤ c && c ≤ 0x11ff) || (0x3000 ≤ c && c ≤ 0x303f) || (0x3040 ≤ c && c ≤ 0x30ff) ||
    (0x3130 ≤ c && c ≤ 0x318f) ||
    (0x3400 ≤ c && c ≤ 0x4dbf) || (0x4e00 ≤ c && c ≤ 0x9fff) || (0xac00 ≤ c && c ≤ 0xd7af) ||
    (0xf900 ≤ c && c ≤ 0xfaff) || (0xff00 ≤ c && c ≤ 0xffef)

def isSurrogate (c : CodeUnit) : Bool := 0xd800 ≤ c && c ≤ 0xdfff

structure DenseWeight where
  weight : ℚ
  units : Nat

def DenseWeight.add (counts : DenseWeight) (c : CodeUnit) : DenseWeight :=
  if isTokenDense c then ⟨counts.weight + 1, counts.units + 1⟩
  else if isSurrogate c then ⟨counts.weight + 1 / 2, counts.units + 1⟩
  else counts

def tokenDenseCharWeight (text : List CodeUnit) : DenseWeight := text.foldl DenseWeight.add ⟨0, 0⟩

structure FragmentTokens where
  dense : ℚ
  otherChars : ℤ

def estimateFragmentTokensHeuristic (fragment : List CodeUnit) : FragmentTokens :=
  let counts := tokenDenseCharWeight fragment
  ⟨counts.weight, fragment.length - counts.units⟩

def FragmentTokens.add (total : FragmentTokens) (fragment : List CodeUnit) : FragmentTokens :=
  let counts := estimateFragmentTokensHeuristic fragment
  ⟨total.dense + counts.dense, total.otherChars + counts.otherChars⟩

def estimateTextTokensHeuristic (fragments : List (List CodeUnit)) : ℕ :=
  let total := fragments.foldl FragmentTokens.add ⟨0, 0⟩
  ⌈total.dense + (max 0 total.otherChars : ℤ) / heuristicBytesPerToken⌉₊

def quarterTokens (c : CodeUnit) : Nat :=
  if isTokenDense c then 4 else if isSurrogate c then 2 else 1

def quarters (text : List CodeUnit) : Nat := (text.map quarterTokens).sum

@[simp] theorem quarters_nil : quarters [] = 0 := rfl

@[simp] theorem quarters_cons (c : CodeUnit) (text : List CodeUnit) :
    quarters (c :: text) = quarterTokens c + quarters text := by
  simp [quarters]

theorem foldl_denseWeight (text : List CodeUnit) (counts : DenseWeight) :
    (text.foldl DenseWeight.add counts).units ≤ counts.units + text.length ∧
      4 * (text.foldl DenseWeight.add counts).weight + text.length + counts.units =
        4 * counts.weight + quarters text + (text.foldl DenseWeight.add counts).units := by
  induction text generalizing counts with
  | nil => simp
  | cons c text ih =>
    obtain ⟨hle, heq⟩ := ih (counts.add c)
    rw [List.foldl_cons, List.length_cons, quarters_cons]
    rw [DenseWeight.add, quarterTokens] at *
    split at hle
    · next h =>
      dsimp only at hle
      simp only [h, if_true] at heq ⊢
      push_cast at heq ⊢
      exact ⟨by omega, by linarith⟩
    · next h =>
      split at hle
      · next h' =>
        dsimp only at hle
        simp only [h, h', if_true, Bool.false_eq_true, if_false] at heq ⊢
        push_cast at heq ⊢
        exact ⟨by omega, by linarith⟩
      · next h' =>
        simp only [h, h', Bool.false_eq_true, if_false] at heq ⊢
        push_cast at heq ⊢
        exact ⟨by omega, by linarith⟩

theorem estimateFragmentTokensHeuristic_eq (fragment : List CodeUnit) :
    0 ≤ (estimateFragmentTokensHeuristic fragment).otherChars ∧
      4 * (estimateFragmentTokensHeuristic fragment).dense +
        (estimateFragmentTokensHeuristic fragment).otherChars =
        quarters fragment := by
  obtain ⟨hle, heq⟩ := foldl_denseWeight fragment ⟨0, 0⟩
  dsimp only at hle
  simp only [estimateFragmentTokensHeuristic, tokenDenseCharWeight]
  push_cast at heq ⊢
  exact ⟨by omega, by linarith⟩

theorem foldl_fragmentTokens (fragments : List (List CodeUnit)) (total : FragmentTokens)
    (h : 0 ≤ total.otherChars) :
    0 ≤ (fragments.foldl FragmentTokens.add total).otherChars ∧
      4 * (fragments.foldl FragmentTokens.add total).dense +
        (fragments.foldl FragmentTokens.add total).otherChars =
        4 * total.dense + total.otherChars + (fragments.map quarters).sum := by
  induction fragments generalizing total with
  | nil => simpa using h
  | cons fragment fragments ih =>
    obtain ⟨hother, heq⟩ := estimateFragmentTokensHeuristic_eq fragment
    obtain ⟨hge, hsum⟩ := ih (total.add fragment) (by simp only [FragmentTokens.add]; omega)
    refine ⟨hge, ?_⟩
    rw [List.foldl_cons, hsum, List.map_cons, List.sum_cons]
    simp only [FragmentTokens.add]
    push_cast
    linarith

theorem estimateTextTokensHeuristic_eq (fragments : List (List CodeUnit)) :
    estimateTextTokensHeuristic fragments = ((fragments.map quarters).sum + 3) / 4 := by
  obtain ⟨hge, heq⟩ := foldl_fragmentTokens fragments ⟨0, 0⟩ (Int.le_refl 0)
  rw [estimateTextTokensHeuristic]
  simp only [max_eq_right hge, heuristicBytesPerToken]
  apply eq_of_forall_ge_iff
  intro n
  have hround : ((fragments.map quarters).sum + 3) / 4 ≤ n ↔
      (fragments.map quarters).sum ≤ 4 * n := by omega
  have hcast : (fragments.map quarters).sum ≤ 4 * n ↔
      ((fragments.map quarters).sum : ℚ) ≤ 4 * n := by
    exact_mod_cast Iff.rfl
  rw [Nat.ceil_le, hround, hcast]
  push_cast at heq ⊢
  constructor <;> intro h <;> linarith

end JevCode.Session
