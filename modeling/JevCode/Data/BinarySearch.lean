import Mathlib.Data.Nat.Basic

namespace JevCode.Data

variable (p : Nat → Bool)

def lastTrue (low high : Nat) : Nat :=
  if h : low < high then
    let middle := low + (high - low + 1) / 2
    if p middle then lastTrue middle high else lastTrue low (middle - 1)
  else low
termination_by high - low

def firstFalse (low high : Nat) : Nat :=
  if h : low < high then
    let middle := low + (high - low) / 2
    if p middle then firstFalse (middle + 1) high else firstFalse low middle
  else low
termination_by high - low

variable {p} {low high : Nat}

theorem lastTrue_spec (h : low ≤ high) :
    low ≤ lastTrue p low high ∧ lastTrue p low high ≤ high ∧
      (low < lastTrue p low high → p (lastTrue p low high) = true) ∧
      (lastTrue p low high < high → p (lastTrue p low high + 1) = false) := by
  fun_induction lastTrue p low high with
  | case1 low high hlt middle hp ih =>
    obtain ⟨hlow, hhigh, htrue, hfalse⟩ := ih (by omega)
    refine ⟨by omega, hhigh, fun _ => ?_, hfalse⟩
    obtain heq | hlt := Nat.eq_or_lt_of_le hlow
    · rwa [← heq]
    · exact htrue hlt
  | case2 low high hlt middle hp ih =>
    obtain ⟨hlow, hhigh, htrue, hfalse⟩ := ih (by omega)
    refine ⟨hlow, by omega, htrue, fun _ => ?_⟩
    obtain heq | hlt := Nat.eq_or_lt_of_le hhigh
    · have hmiddle : lastTrue p low (middle - 1) + 1 = middle := by omega
      rw [hmiddle, Bool.eq_false_iff]
      exact hp
    · exact hfalse hlt
  | case3 low high hlt =>
    exact ⟨Nat.le_refl _, h, fun hlt => absurd hlt (Nat.lt_irrefl _), fun h => absurd h hlt⟩

theorem firstFalse_spec (h : low ≤ high) :
    low ≤ firstFalse p low high ∧ firstFalse p low high ≤ high ∧
      (low < firstFalse p low high → p (firstFalse p low high - 1) = true) ∧
      (firstFalse p low high < high → p (firstFalse p low high) = false) := by
  fun_induction firstFalse p low high with
  | case1 low high hlt middle hp ih =>
    obtain ⟨hlow, hhigh, htrue, hfalse⟩ := ih (by omega)
    refine ⟨by omega, hhigh, fun _ => ?_, hfalse⟩
    obtain heq | hlt := Nat.eq_or_lt_of_le hlow
    · rwa [← heq, Nat.add_sub_cancel]
    · exact htrue hlt
  | case2 low high hlt middle hp ih =>
    obtain ⟨hlow, hhigh, htrue, hfalse⟩ := ih (by omega)
    refine ⟨hlow, by omega, htrue, fun _ => ?_⟩
    obtain heq | hlt := Nat.eq_or_lt_of_le hhigh
    · rw [heq, Bool.eq_false_iff]
      exact hp
    · exact hfalse hlt
  | case3 low high hlt =>
    exact ⟨Nat.le_refl _, h, fun hlt => absurd hlt (Nat.lt_irrefl _), fun h => absurd h hlt⟩

end JevCode.Data
