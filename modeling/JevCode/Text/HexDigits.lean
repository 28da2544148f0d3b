import Mathlib.Tactic.Ring
import JevCode.Text.JsonStringify

namespace JevCode.Text.JsonSyntax

def hexDigits : Nat → Nat → List CodeUnit
  | 0, _ => []
  | k + 1, n => hexDigit (n / 16 ^ k % 16) :: hexDigits k n

theorem hexValue_hexDigit : ∀ d < 16, hexValue (hexDigit d) = d := by decide

theorem hexDigit_lt_iff :
    ∀ a < 16, ∀ b < 16, (hexDigit a < hexDigit b ↔ a < b) ∧ (hexDigit a = hexDigit b ↔ a = b) := by
  decide

theorem length_hexDigits (k n : Nat) : (hexDigits k n).length = k := by
  induction k with
  | zero => rfl
  | succ k ih => rw [hexDigits, List.length_cons, ih]

theorem exists_digit_of_mem_hexDigits {k n : Nat} {u : CodeUnit} (h : u ∈ hexDigits k n) :
    ∃ d < 16, u = hexDigit d := by
  induction k with
  | zero => cases h
  | succ k ih =>
    obtain rfl | h := List.mem_cons.mp h
    · exact ⟨_, Nat.mod_lt _ (by decide), rfl⟩
    · exact ih h

theorem hexDigits_mod (k n : Nat) {j : Nat} (h : k ≤ j) :
    hexDigits k (n % 16 ^ j) = hexDigits k n := by
  induction k with
  | zero => rfl
  | succ k ih =>
    have hdigit : n % 16 ^ j / 16 ^ k % 16 = n / 16 ^ k % 16 := by
      obtain ⟨i, rfl⟩ := Nat.exists_eq_add_of_le h
      rw [Nat.add_assoc, Nat.pow_add, Nat.mod_mul_right_div_self, Nat.pow_add, Nat.pow_one,
        Nat.mod_mul_right_mod]
    rw [hexDigits, hexDigits, hdigit, ih (Nat.le_of_succ_le h)]

theorem exists_eq_hexDigits {us : List CodeUnit} (h : ∀ u ∈ us, ∃ d < 16, u = hexDigit d) :
    ∃ n < 16 ^ us.length, us = hexDigits us.length n := by
  induction us with
  | nil => exact ⟨0, by decide, rfl⟩
  | cons u us ih =>
    obtain ⟨⟨d, hd, rfl⟩, hmore⟩ := List.forall_mem_cons.mp h
    obtain ⟨n, hn, hus⟩ := ih hmore
    have hdigit : (16 ^ us.length * d + n) / 16 ^ us.length = d := by
      rw [Nat.mul_add_div (Nat.pow_pos (by decide)), Nat.div_eq_of_lt hn, Nat.add_zero]
    have hrest : hexDigits us.length (16 ^ us.length * d + n) = us := by
      rw [← hexDigits_mod _ _ (Nat.le_refl _), Nat.mul_add_mod,
        hexDigits_mod _ _ (Nat.le_refl _), ← hus]
    refine ⟨16 ^ us.length * d + n, ?_, ?_⟩
    · calc 16 ^ us.length * d + n < 16 ^ us.length * (d + 1) := Nat.add_lt_add_left hn _
        _ ≤ 16 ^ us.length * 16 := Nat.mul_le_mul_left _ hd
    · rw [List.length_cons, hexDigits, hdigit, Nat.mod_eq_of_lt hd, hrest]

theorem hexDigits_add (j k n : Nat) :
    hexDigits (j + k) n = hexDigits j (n / 16 ^ k) ++ hexDigits k n := by
  induction j with
  | zero => rw [Nat.zero_add]; rfl
  | succ j ih =>
    rw [Nat.succ_add, hexDigits, ih, hexDigits, Nat.div_div_eq_div_mul, ← Nat.pow_add,
      Nat.add_comm k j]; rfl

theorem mod_pow_succ_eq (n k : Nat) : n % 16 ^ (k + 1) = n / 16 ^ k % 16 * 16 ^ k + n % 16 ^ k := by
  rw [Nat.pow_succ, Nat.mod_mul, Nat.mul_comm, Nat.add_comm]

theorem foldl_hexDigits (k n acc : Nat) :
    (hexDigits k n).foldl (fun m u => m * 16 + hexValue u) acc = acc * 16 ^ k + n % 16 ^ k := by
  induction k generalizing acc with
  | zero => simp [hexDigits, Nat.mod_one]
  | succ k ih =>
    rw [hexDigits, List.foldl_cons, ih, hexValue_hexDigit _ (Nat.mod_lt _ (by decide)),
      mod_pow_succ_eq, Nat.pow_succ]
    ring

theorem parseHex_hexDigits (k n : Nat) : parseHex (hexDigits k n) = n % 16 ^ k := by
  rw [parseHex, foldl_hexDigits, Nat.zero_mul, Nat.zero_add]

theorem hexDigits_lt_iff (k m n : Nat) :
    hexDigits k m < hexDigits k n ↔ m % 16 ^ k < n % 16 ^ k := by
  induction k with
  | zero => simp [hexDigits, Nat.mod_one]
  | succ k ih =>
    obtain ⟨hlt, heq⟩ :=
      hexDigit_lt_iff _ (Nat.mod_lt (m / 16 ^ k) (by decide)) _ (Nat.mod_lt (n / 16 ^ k) (by decide))
    have hm := Nat.mod_lt m (Nat.pow_pos (n := k) (by decide : 0 < 16))
    have hn := Nat.mod_lt n (Nat.pow_pos (n := k) (by decide : 0 < 16))
    rw [hexDigits, hexDigits, List.cons_lt_cons_iff, hlt, heq, ih, mod_pow_succ_eq m,
      mod_pow_succ_eq n]
    generalize m / 16 ^ k % 16 = a
    generalize n / 16 ^ k % 16 = b
    constructor
    · rintro (hab | ⟨rfl, hrest⟩)
      · have := Nat.mul_le_mul_right (16 ^ k) (Nat.succ_le_of_lt hab)
        rw [Nat.succ_mul] at this
        omega
      · omega
    · intro h
      obtain hab | rfl | hba := Nat.lt_trichotomy a b
      · exact .inl hab
      · exact .inr ⟨rfl, by omega⟩
      · have := Nat.mul_le_mul_right (16 ^ k) (Nat.succ_le_of_lt hba)
        rw [Nat.succ_mul] at this
        omega

theorem hex4_eq_hexDigits (u : CodeUnit) : hex4 u = hexDigits 4 u.toNat := by
  have hlt := u.toNat_lt
  have hfirst : u.toNat / 16 ^ 3 % 16 = u.toNat / 0x1000 := by omega
  rw [hexDigits, hfirst]
  simp [hexDigits, hex4]

end JevCode.Text.JsonSyntax
