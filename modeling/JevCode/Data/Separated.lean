import Mathlib.Data.List.DropRight

namespace JevCode.Data

variable {α : Type} {sep : α} {p t u line : List α}

theorem line_induction (sep : α) {P : List α → Prop} (hline : ∀ p, sep ∉ p → P p)
    (hcons : ∀ p t, sep ∉ p → P t → P (p ++ sep :: t)) (t : List α) : P t := by
  induction h : t.length using Nat.strong_induction_on generalizing t with
  | _ n ih =>
    by_cases hsep : sep ∈ t
    · obtain ⟨p, u, rfl, hp⟩ := List.eq_append_cons_of_mem hsep
      refine hcons p u hp (ih u.length ?_ u rfl)
      simp only [List.length_append, List.length_cons] at h
      omega
    · exact hline t hsep

theorem infix_append_cons (h : line <:+: t ++ sep :: u) (hsep : sep ∉ line) :
    line <:+: t ∨ line <:+: u := by
  obtain ⟨a, b, hab⟩ := h
  rw [List.append_assoc] at hab
  obtain ⟨c, rfl, hc⟩ | ⟨c, rfl, hc⟩ := List.append_eq_append_iff.mp hab
  · -- the left side begins with what stands before the line
    obtain ⟨d, rfl, hd⟩ | ⟨d, rfl, hd⟩ := List.append_eq_append_iff.mp hc
    · exact .inl ⟨a, d, by rw [List.append_assoc]⟩
    · cases d with
      | nil => exact .inl ⟨a, [], by simp⟩
      | cons x d =>
        cases hd
        exact absurd (by simp) hsep
  · cases c with
    | nil =>
      cases line with
      | nil => exact .inl List.nil_infix
      | cons x line =>
        cases hc
        exact absurd (by simp) hsep
    | cons x c =>
      obtain ⟨rfl, rfl⟩ := List.cons.inj hc
      exact .inr ⟨c, b, List.append_assoc c line b⟩

section

variable [DecidableEq α]

def firstLine (sep : α) (t : List α) : List α := t.takeWhile (· ≠ sep)

def lastLine (sep : α) (t : List α) : List α := t.rtakeWhile (· ≠ sep)

theorem all_ne (hp : sep ∉ p) : ∀ a ∈ p, decide (a ≠ sep) = true :=
  fun _ ha => decide_eq_true fun heq => hp (heq ▸ ha)

theorem firstLine_append (hp : sep ∉ p) (t : List α) :
    firstLine sep (p ++ t) = p ++ firstLine sep t :=
  List.takeWhile_append_of_pos (all_ne hp)

@[simp] theorem firstLine_cons (sep : α) (t : List α) : firstLine sep (sep :: t) = [] := by
  simp [firstLine]

theorem firstLine_of_notMem (hp : sep ∉ p) : firstLine sep p = p := by
  simpa [firstLine] using firstLine_append hp []

theorem firstLine_append_cons (hp : sep ∉ p) (t : List α) : firstLine sep (p ++ sep :: t) = p := by
  rw [firstLine_append hp, firstLine_cons, List.append_nil]

theorem dropWhile_of_notMem (hp : sep ∉ p) : p.dropWhile (· ≠ sep) = [] :=
  List.dropWhile_eq_nil_iff.mpr (all_ne hp)

theorem dropWhile_append_cons (hp : sep ∉ p) (t : List α) :
    (p ++ sep :: t).dropWhile (· ≠ sep) = sep :: t := by
  rw [List.dropWhile_append_of_pos (all_ne hp)]
  simp

theorem lastLine_of_notMem (hp : sep ∉ p) : lastLine sep p = p :=
  List.rtakeWhile_eq_self_iff.mpr (all_ne hp)

theorem lastLine_append (t : List α) (hp : sep ∉ p) :
    lastLine sep (t ++ p) = lastLine sep t ++ p := by
  induction p using List.reverseRecOn with
  | nil => simp
  | append_singleton p x ih =>
    rw [List.mem_append, not_or, List.mem_singleton] at hp
    rw [← List.append_assoc, lastLine, List.rtakeWhile_concat,
      if_pos (decide_eq_true (Ne.symm hp.2))]
    rw [lastLine] at ih
    rw [ih hp.1, List.append_assoc]

theorem lastLine_append_cons (t u : List α) : lastLine sep (t ++ sep :: u) = lastLine sep u := by
  induction u using List.reverseRecOn with
  | nil => exact List.rtakeWhile_concat_neg _ _ _ (by simp)
  | append_singleton u x ih =>
    rw [← List.cons_append, ← List.append_assoc, lastLine, List.rtakeWhile_concat, lastLine,
      List.rtakeWhile_concat]
    rw [lastLine, lastLine] at ih
    rw [ih]

theorem append_cons_inj {q : List α} (hp : sep ∉ p) (hq : sep ∉ q)
    (h : t ++ sep :: p = u ++ sep :: q) :
    t = u ∧ p = q := by
  have hlast := congrArg (lastLine sep) h
  rw [lastLine_append_cons, lastLine_append_cons, lastLine_of_notMem hp,
    lastLine_of_notMem hq] at hlast
  subst hlast
  exact ⟨List.append_cancel_right h, rfl⟩

theorem notMem_lastLine (t : List α) : sep ∉ lastLine sep t := by
  intro hmem
  simpa using List.mem_rtakeWhile_imp hmem

end

end JevCode.Data
