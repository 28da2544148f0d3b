import Mathlib.Data.List.Basic

namespace JevCode.Data

variable {γ : Type} {start stop : γ → Nat} {good : γ → Prop} {blank : Nat → Prop}

inductive Tiled (start stop : γ → Nat) (good : γ → Prop) (blank : Nat → Prop) : List γ → Nat → Prop
  | nil : Tiled start stop good blank [] 0
  | skip {cs : List γ} {a b : Nat} (h : Tiled start stop good blank cs a) (hab : a ≤ b)
      (hblank : ∀ i, a ≤ i → i < b → blank i) : Tiled start stop good blank cs b
  | push {cs : List γ} {c : γ} (h : Tiled start stop good blank cs (start c))
    (hlt : start c < stop c)
      (hgood : good c) : Tiled start stop good blank (cs ++ [c]) (stop c)

namespace Tiled

variable {cs : List γ} {n : Nat}

theorem forall_good (h : Tiled start stop good blank cs n) : ∀ c ∈ cs, good c := by
  induction h with
  | nil => simp
  | skip _ _ _ ih => exact ih
  | push _ _ hgood ih => exact List.forall_mem_append.mpr ⟨ih, List.forall_mem_singleton.mpr hgood⟩

theorem range_le (h : Tiled start stop good blank cs n) :
    ∀ c ∈ cs, start c < stop c ∧ stop c ≤ n := by
  induction h with
  | nil => simp
  | skip _ hab _ ih => exact fun c hc => ⟨(ih c hc).1, Nat.le_trans (ih c hc).2 hab⟩
  | push _ hlt _ ih =>
    refine List.forall_mem_append.mpr ⟨fun c hc => ?_,
      List.forall_mem_singleton.mpr ⟨hlt, Nat.le_refl _⟩⟩
    have hprev := ih c hc
    exact ⟨hprev.1, by omega⟩

theorem pairwise (h : Tiled start stop good blank cs n) :
    cs.Pairwise fun a b => start a < start b ∧ stop a ≤ start b := by
  induction h with
  | nil => exact .nil
  | skip _ _ _ ih => exact ih
  | push h _ _ ih =>
    refine List.pairwise_append.mpr ⟨ih, List.pairwise_singleton _ _, fun a ha b hb => ?_⟩
    obtain rfl := List.mem_singleton.mp hb
    have hrange := h.range_le a ha
    omega

theorem blank_of_outside (h : Tiled start stop good blank cs n) {i : Nat} (hi : i < n)
    (houtside : ∀ c ∈ cs, ¬ (start c ≤ i ∧ i < stop c)) : blank i := by
  induction h with
  | nil => omega
  | @skip _ a b _ _ hblank ih =>
    by_cases hia : i < a
    · exact ih hia houtside
    · exact hblank i (by omega) hi
  | @push cs c _ _ _ ih =>
    have hlast := houtside c (by simp)
    exact ih (by omega) fun c' hc' => houtside c' (List.mem_append_left _ hc')

end Tiled

end JevCode.Data
