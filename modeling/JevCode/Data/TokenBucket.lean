import Mathlib.Algebra.Order.Field.Basic
import Mathlib.Algebra.BigOperators.Group.List.Basic
import Mathlib.Tactic.Linarith

namespace JevCode.Data

variable {K : Type} [LinearOrder K]

structure TokenBucket (K : Type) where
  capacity : K
  rate : K
  tokens : K
  last : K

namespace TokenBucket

def takenBetween (t₁ t₂ : K) (uses : List (K × Nat)) : Nat :=
  ((uses.filter fun use => t₁ ≤ use.1 ∧ use.1 ≤ t₂).map Prod.snd).sum

section

variable {t₁ t₂ now : K} {n : Nat} {uses : List (K × Nat)}

@[simp] theorem takenBetween_nil : takenBetween t₁ t₂ [] = 0 := rfl

theorem takenBetween_cons : takenBetween t₁ t₂ ((now, n) :: uses) =
    (if t₁ ≤ now ∧ now ≤ t₂ then n else 0) + takenBetween t₁ t₂ uses := by
  by_cases h : t₁ ≤ now ∧ now ≤ t₂
  · simp [takenBetween, h]
  · simp [takenBetween, h]

theorem takenBetween_eq_zero (h : ∀ use ∈ uses, t₂ < use.1) : takenBetween t₁ t₂ uses = 0 := by
  have hnone : (uses.filter fun use => decide (t₁ ≤ use.1 ∧ use.1 ≤ t₂)) = [] := by
    refine List.filter_eq_nil_iff.mpr fun use huse hin => ?_
    exact not_le_of_gt (h use huse) (of_decide_eq_true hin).2
  rw [takenBetween, hnone]
  rfl

theorem takenBetween_cons_eq_zero (hsorted : (now :: uses.map Prod.fst).Pairwise (· ≤ ·))
    (h : t₂ < now) :
    takenBetween t₁ t₂ ((now, n) :: uses) = 0 := by
  refine takenBetween_eq_zero fun use huse => lt_of_lt_of_le h ?_
  cases huse with
  | head => exact le_rfl
  | tail _ huse => exact (List.pairwise_cons.mp hsorted).1 use.1 (List.mem_map_of_mem huse)

end

variable [Field K]

def refill (b : TokenBucket K) (now : K) : TokenBucket K :=
  if now ≤ b.last then b
  else { b with tokens := min b.capacity (b.tokens + (now - b.last) * b.rate), last := now }

def take (b : TokenBucket K) (n : Nat) : TokenBucket K := { b with tokens := b.tokens - n }

inductive Uses : TokenBucket K → List (K × Nat) → TokenBucket K → Prop
  | nil {b : TokenBucket K} : Uses b [] b
  | cons {b b' : TokenBucket K} {now : K} {n : Nat} {uses : List (K × Nat)}
      (hcovered : (n : K) ≤ (b.refill now).tokens) (h : Uses ((b.refill now).take n) uses b') :
      Uses b ((now, n) :: uses) b'

structure Wf (b : TokenBucket K) : Prop where
  rate_nonneg : 0 ≤ b.rate
  tokens_le : b.tokens ≤ b.capacity

variable {b b' : TokenBucket K} {now t₁ t₂ : K} {n : Nat} {uses : List (K × Nat)}

@[simp] theorem refill_capacity : (b.refill now).capacity = b.capacity := by
  rw [refill]
  split <;> rfl

@[simp] theorem refill_rate : (b.refill now).rate = b.rate := by
  rw [refill]
  split <;> rfl

theorem refill_last (h : b.last ≤ now) : (b.refill now).last = now := by
  rw [refill]
  split
  next hle => exact le_antisymm h hle
  next => rfl

theorem refill_tokens_le (h : b.last ≤ now) :
    (b.refill now).tokens ≤ b.tokens + (now - b.last) * b.rate := by
  rw [refill]
  split
  next hle => simp [le_antisymm h hle]
  next => exact min_le_right _ _

theorem Uses.append {b₁ b₂ b₃ : TokenBucket K} {uses uses' : List (K × Nat)} (h : Uses b₁ uses b₂)
    (h' : Uses b₂ uses' b₃) : Uses b₁ (uses ++ uses') b₃ := by
  induction h with
  | nil => exact h'
  | cons hcovered _ ih => exact .cons hcovered (ih h')

theorem Wf.refill (hb : b.Wf) (now : K) : (b.refill now).Wf := by
  refine ⟨by simpa using hb.rate_nonneg, ?_⟩
  rw [TokenBucket.refill]
  split
  next => exact hb.tokens_le
  next => exact min_le_left _ _

variable [IsStrictOrderedRing K]

theorem Wf.take (hb : b.Wf) (n : Nat) : (b.take n).Wf :=
  ⟨hb.rate_nonneg, le_trans (sub_le_self _ n.cast_nonneg) hb.tokens_le⟩

theorem Uses.taken_le (t₁ : K) (h : Uses b uses b') (hrate : 0 ≤ b.rate) (htokens : 0 ≤ b.tokens)
    (hsorted : (b.last :: uses.map Prod.fst).Pairwise (· ≤ ·)) (hlast : b.last ≤ t₂) :
    (takenBetween t₁ t₂ uses : K) ≤ b.tokens + (t₂ - b.last) * b.rate := by
  induction h with
  | nil =>
    have hrefill := mul_nonneg (sub_nonneg.mpr hlast) hrate
    simp only [takenBetween_nil, Nat.cast_zero]
    linarith
  | @cons b b' now n uses hcovered h ih =>
    rw [List.map_cons, List.pairwise_cons] at hsorted
    obtain ⟨hfirst, hsorted⟩ := hsorted
    have hnow : b.last ≤ now := hfirst now List.mem_cons_self
    have hafter : ((b.refill now).take n).last = now := refill_last hnow
    by_cases hin : now ≤ t₂
    · have hrest :=
        ih (by simpa [take] using hrate) (sub_nonneg.mpr hcovered) (hafter.symm ▸ hsorted)
        (hafter.symm ▸ hin)
      rw [hafter] at hrest
      simp only [take, refill_rate] at hrest
      have hrefill := refill_tokens_le hnow
      have hhead : ((if t₁ ≤ now ∧ now ≤ t₂ then n else 0 : Nat) : K) ≤ n := by
        split
        · exact le_rfl
        · simp
      rw [takenBetween_cons, Nat.cast_add]
      linarith
    · rw [takenBetween_cons_eq_zero hsorted (not_le.mp hin), Nat.cast_zero]
      linarith [mul_nonneg (sub_nonneg.mpr hlast) hrate]

theorem Uses.takenBetween_le (h : Uses b uses b') (hb : b.Wf) (hcapacity : 0 ≤ b.capacity)
    (hsorted : (b.last :: uses.map Prod.fst).Pairwise (· ≤ ·)) (ht : t₁ ≤ t₂) :
    (takenBetween t₁ t₂ uses : K) ≤ b.capacity + (t₂ - t₁) * b.rate := by
  have hwindow := mul_nonneg (sub_nonneg.mpr ht) hb.rate_nonneg
  induction h with
  | nil =>
    simp only [takenBetween_nil, Nat.cast_zero]
    linarith
  | @cons b b' now n uses hcovered h ih =>
    rw [List.map_cons, List.pairwise_cons] at hsorted
    obtain ⟨hfirst, hsorted⟩ := hsorted
    have hnow : b.last ≤ now := hfirst now List.mem_cons_self
    have hafter : ((b.refill now).take n).last = now := refill_last hnow
    have hwf := hb.refill now
    by_cases hbegun : t₁ ≤ now
    · by_cases hin : now ≤ t₂
      · -- the window has begun: the bucket holds at most its capacity
        have hrest := Uses.taken_le t₁ h (hwf.take n).rate_nonneg (sub_nonneg.mpr hcovered)
          (hafter.symm ▸ hsorted) (hafter.symm ▸ hin)
        rw [hafter] at hrest
        simp only [take, refill_rate] at hrest
        have hfull := hwf.tokens_le
        rw [refill_capacity] at hfull
        have hlate : (t₂ - now) * b.rate ≤ (t₂ - t₁) * b.rate :=
          mul_le_mul_of_nonneg_right (sub_le_sub_left hbegun t₂) hb.rate_nonneg
        rw [takenBetween_cons, if_pos ⟨hbegun, hin⟩, Nat.cast_add]
        linarith
      · rw [takenBetween_cons_eq_zero hsorted (not_le.mp hin), Nat.cast_zero]
        linarith
    · rw [takenBetween_cons, if_neg fun hin => hbegun hin.1, Nat.zero_add]
      have hrest := ih (hwf.take n) (by simpa [take] using hcapacity) (hafter.symm ▸ hsorted)
        (by simpa [take] using hwindow)
      simpa [take] using hrest

end TokenBucket

end JevCode.Data
