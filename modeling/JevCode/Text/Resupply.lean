import Mathlib.Data.List.Sort
import Mathlib.Data.List.Range

namespace JevCode.Text

theorem sublist_of_subset_of_pairwise_lt {xs ys : List Nat} (hx : xs.Pairwise (· < ·))
    (hy : ys.Pairwise (· < ·)) (h : xs ⊆ ys) : xs.Sublist ys :=
  List.sublist_of_subperm_of_pairwise (r := (· ≤ ·))
    (List.subperm_of_subset (hx.imp Nat.ne_of_lt) h) (hx.imp Nat.le_of_lt) (hy.imp Nat.le_of_lt)

theorem range'_pairwise_lt (s n : Nat) : (List.range' s n).Pairwise (· < ·) :=
  List.pairwise_lt_range'

section

variable (L : Nat → α) (T : Nat → Bool)

def block (start count : Nat) : List α := (List.range' start count).map L

def untouchedFrom (start count : Nat) : List α := ((List.range' start count).filter (!T ·)).map L

def untouched (n : Nat) : List α := untouchedFrom L T 1 n

variable {L T}

theorem untouched_split {f f' : Nat} (h : f ≤ f') :
    untouched L T f' = untouched L T f ++ untouchedFrom L T (f + 1) (f' - f) := by
  have hr := @List.range'_append 1 f (f' - f) 1
  have hlen : f + (f' - f) = f' := by omega
  have hstart : 1 + 1 * f = f + 1 := by omega
  rw [hlen, hstart] at hr
  simp only [untouched, untouchedFrom, ← hr, List.filter_append, List.map_append]

theorem untouchedFrom_sublist_block {s c s' c' : Nat}
    (h : ∀ i, s ≤ i → i < s + c → T i = false → s' ≤ i ∧ i < s' + c') :
    (untouchedFrom L T s c).Sublist (block L s' c') := by
  apply List.Sublist.map
  apply sublist_of_subset_of_pairwise_lt ((range'_pairwise_lt s c).filter _)
    (range'_pairwise_lt s' c')
  intro i hi
  simp only [List.mem_filter, List.mem_range'_1, Bool.not_eq_true'] at hi ⊢
  exact h i hi.1.1 hi.1.2 hi.2

theorem untouched_extend {f f' s c : Nat} {out : List α}
    (hout : (untouched L T f).Sublist out) (hf : f ≤ f')
    (h : ∀ i, f < i → i ≤ f' → T i = false → s ≤ i ∧ i < s + c) :
    (untouched L T f').Sublist (out ++ block L s c) := by
  rw [untouched_split hf]
  exact hout.append (untouchedFrom_sublist_block fun i h1 h2 => h i (by omega) (by omega))

end

/-- Item `l` is preceded in the output by a copy of the `above l` items before it and a copy of the
`below l` items after `last l`. -/
structure Resupplied (L : Nat → α) (T absorbed : Nat → Bool) (n : Nat) (out : Nat → List α)
    (above last below : Nat → Nat) : Prop where
  output : ∀ l, 1 ≤ l → l ≤ n →
    (block L (l - above l) (above l) ++ block L (last l + 1) (below l) ++
      if T l || absorbed l then [] else [L l]).Sublist (out l)
  above_untouched : ∀ l i, l - above l ≤ i → i < l → T i = false
  last_touched : ∀ l, 0 < below l → l ≤ last l ∧ ∀ i, l ≤ i → i ≤ last l → T i = true
  below_le : ∀ l, 1 ≤ l → 0 < below l → last l + below l ≤ n
  absorbed_cases : ∀ l, 1 ≤ l → l ≤ n → absorbed l = true →
    (∃ b, b ≤ n ∧ b - above b ≤ l ∧ l < b) ∨ ∃ s, 1 ≤ s ∧ 0 < below s ∧ last s < l ∧
    l ≤ last s + below s

namespace Resupplied

variable {L : Nat → α} {T absorbed : Nat → Bool} {n : Nat} {out : Nat → List α}
    {above last below : Nat → Nat}

/-- `f` is how far the untouched items are found after `k` outputs: at least to `k`, or up to the
start of a block that a later item copies. -/
def Frontier (L : Nat → α) (T : Nat → Bool) (n : Nat) (out : Nat → List α)
    (above last below : Nat → Nat) (k f : Nat) : Prop :=
  (untouched L T f).Sublist ((List.range' 1 k).flatMap out) ∧ f ≤ n ∧
    (∀ s, 1 ≤ s → s ≤ k → 0 < below s → last s + below s ≤ f) ∧
    (k ≤ f ∨ ∃ b, k < b ∧ b ≤ n ∧ b - above b ≤ f + 1)

theorem flatMap_range'_succ (out : Nat → List α) (k : Nat) :
    (List.range' 1 (k + 1)).flatMap out = (List.range' 1 k).flatMap out ++ out (k + 1) := by
  rw [List.range'_concat, List.flatMap_append]
  simp [Nat.add_comm]

theorem untouched_succ (k : Nat) :
    untouched L T (k + 1) = untouched L T k ++ if T (k + 1) then [] else [L (k + 1)] := by
  rw [untouched_split (Nat.le_succ k)]
  cases hT : T (k + 1) <;> simp [untouchedFrom, hT]

theorem copies_extend (h : Resupplied L T absorbed n out above last below) {k f : Nat}
    {pre : List α} (hk : k < n) (hfn : f ≤ n) (hsub : (untouched L T f).Sublist pre)
    (hpend : k ≤ f ∨ k + 1 - above (k + 1) ≤ f + 1) :
    ∃ f', f' ≤ n ∧ max f k ≤ f' ∧ (0 < below (k + 1) → last (k + 1) + below (k + 1) ≤ f') ∧
      (untouched L T f').Sublist (pre ++ block L (k + 1 - above (k + 1)) (above (k + 1)) ++
        block L (last (k + 1) + 1) (below (k + 1))) := by
  have habove : (untouched L T (max f k)).Sublist
      (pre ++ block L (k + 1 - above (k + 1)) (above (k + 1))) := by
    apply untouched_extend hsub (by omega)
    intro i h1 h2 _
    rcases hpend with hpend | hpend <;> omega
  by_cases hb : 0 < below (k + 1)
  · obtain ⟨hlast, htouched⟩ := h.last_touched (k + 1) hb
    have hle := h.below_le (k + 1) (by omega) hb
    refine ⟨max (max f k) (last (k + 1) + below (k + 1)), by omega, by omega, by omega, ?_⟩
    apply untouched_extend habove (by omega)
    intro i h1 h2 hi
    have : ¬ i ≤ last (k + 1) := fun hle => by simp [htouched i (by omega) hle] at hi
    omega
  · refine ⟨max f k, by omega, by omega, fun h => absurd h hb, ?_⟩
    exact habove.trans (List.sublist_append_left _ _)

theorem step_item (h : Resupplied L T absorbed n out above last below) {k : Nat} (hk : k < n)
    (hpre : (untouched L T k ++ if T (k + 1) || absorbed (k + 1) then [] else [L (k + 1)]).Sublist
      ((List.range' 1 (k + 1)).flatMap out))
    (hold : ∀ s, 1 ≤ s → s ≤ k + 1 → 0 < below s → last s + below s ≤ k) :
    ∃ f, Frontier L T n out above last below (k + 1) f := by
  have hold' : ∀ s, 1 ≤ s → s ≤ k + 1 → 0 < below s → last s + below s ≤ k + 1 :=
    fun s h1 h2 h3 => Nat.le_succ_of_le (hold s h1 h2 h3)
  by_cases hT : T (k + 1)
  · refine ⟨k + 1, ?_, hk, hold', .inl le_rfl⟩
    simpa [untouched_succ, hT] using hpre
  by_cases habs : absorbed (k + 1)
  · refine ⟨k, (List.sublist_append_left _ _).trans hpre, hk.le, hold, .inr ?_⟩
    rcases h.absorbed_cases (k + 1) (by omega) hk habs with ⟨b, h1, h2, h3⟩ | ⟨s, h1, h2, h3, h4⟩
    · exact ⟨b, h3, h1, h2⟩
    · have := (h.last_touched s h2).1
      have := hold s h1 (by omega) h2
      omega
  · refine ⟨k + 1, ?_, hk, hold', .inl le_rfl⟩
    simpa [untouched_succ, hT, habs] using hpre

theorem step_waits (h : Resupplied L T absorbed n out above last below) {k f b : Nat}
    (hf : Frontier L T n out above last below k f) (hfk : f < k) (hb : k + 1 < b) (hbn : b ≤ n)
    (hab : b - above b ≤ f + 1) : Frontier L T n out above last below (k + 1) f := by
  obtain ⟨hsub, hfn, hbelow, -⟩ := hf
  refine ⟨?_, hfn, ?_, .inr ⟨b, hb, hbn, hab⟩⟩
  · rw [flatMap_range'_succ]
    exact hsub.trans (List.sublist_append_left _ _)
  · intro s h1 h2 h3
    by_cases hs : s = k + 1
    · -- `k + 1` lies in the awaited block, so it is untouched and no range starts there
      subst hs
      have hT := (h.last_touched (k + 1) h3).2 (k + 1) le_rfl (h.last_touched (k + 1) h3).1
      rw [h.above_untouched b (k + 1) (by omega) hb] at hT
      cases hT
    · exact hbelow s h1 (by omega) h3

theorem step (h : Resupplied L T absorbed n out above last below) {k f : Nat} (hk : k < n)
    (hf : Frontier L T n out above last below k f) :
    ∃ f', Frontier L T n out above last below (k + 1) f' := by
  obtain ⟨hsub, hfn, hbelow, hcase⟩ := hf
  have hout := h.output (k + 1) (by omega) (by omega)
  by_cases hpend : k ≤ f ∨ k + 1 - above (k + 1) ≤ f + 1
  · obtain ⟨f2, hf2, hle2, hge2, hsub2⟩ := h.copies_extend hk hfn hsub hpend
    have hold : ∀ s, 1 ≤ s → s ≤ k + 1 → 0 < below s → last s + below s ≤ f2 := by
      intro s h1 h2 h3
      by_cases hs : s = k + 1
      · subst hs
        exact hge2 h3
      · have := hbelow s h1 (by omega) h3
        omega
    by_cases hdone : k + 1 ≤ f2
    · refine ⟨f2, ?_, hf2, hold, .inl hdone⟩
      rw [flatMap_range'_succ]
      refine hsub2.trans ?_
      rw [List.append_assoc]
      exact List.Sublist.append (.refl _) ((List.sublist_append_left _ _).trans hout)
    · have hf2k : f2 = k := by omega
      subst hf2k
      refine h.step_item hk ?_ hold
      rw [flatMap_range'_succ]
      refine (hsub2.append (.refl _)).trans ?_
      rw [List.append_assoc, List.append_assoc, ← List.append_assoc (block _ _ _)]
      exact List.Sublist.append (.refl _) hout
  · rcases hcase with hcase | ⟨b, hb1, hb2, hb3⟩
    · exact absurd (Or.inl hcase) hpend
    have hb : k + 1 ≠ b := by
      rintro rfl
      exact hpend (.inr hb3)
    exact ⟨f, h.step_waits ⟨hsub, hfn, hbelow, .inr ⟨b, hb1, hb2, hb3⟩⟩ (by omega)
      (by omega) hb2 hb3⟩

theorem untouched_sublist (h : Resupplied L T absorbed n out above last below) :
    (untouched L T n).Sublist ((List.range' 1 n).flatMap out) := by
  have hrun : ∀ k, k ≤ n → ∃ f, Frontier L T n out above last below k f := by
    intro k
    induction k with
    | zero => exact fun _ => ⟨0, by simp [Frontier, untouched, untouchedFrom]; omega⟩
    | succ k ih =>
      intro hk
      obtain ⟨f, hf⟩ := ih (by omega)
      exact h.step (by omega) hf
  obtain ⟨f, hsub, hfn, -, hcase⟩ := hrun n le_rfl
  rcases hcase with hcase | ⟨b, h1, h2, -⟩
  · rwa [show f = n by omega] at hsub
  · omega

end Resupplied

end JevCode.Text
