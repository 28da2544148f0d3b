import Mathlib.Data.List.Basic
import Mathlib.Data.List.Pairwise
import Mathlib.Data.List.Perm.Basic

namespace JevCode.Data

variable {α β : Type*}

theorem flatMap_eq_of_perm {f : α → List β} {xs ys : List α} (h : xs.Perm ys)
    (hcomm : ∀ x ∈ xs, ∀ y ∈ xs, f x ++ f y = f y ++ f x) : xs.flatMap f = ys.flatMap f := by
  induction h with
  | nil => rfl
  | cons x _ ih =>
    rw [List.flatMap_cons, List.flatMap_cons,
      ih fun y hy z hz => hcomm y (by simp [hy]) z (by simp [hz])]
  | swap x y zs =>
    have hxy := hcomm y (by simp) x (by simp)
    simp only [List.flatMap_cons, ← List.append_assoc, hxy]
  | trans h _ ih ih' =>
    exact (ih hcomm).trans (ih' fun x hx y hy => hcomm x (h.mem_iff.mpr hx) y (h.mem_iff.mpr hy))

theorem eq_of_pairwise_unshared {P : α → β → Prop} {xs : List α}
    (h : xs.Pairwise fun x y => ∀ k, P x k → ¬ P y k) {x y : α} (hx : x ∈ xs) (hy : y ∈ xs) {k : β}
    (hxk : P x k) (hyk : P y k) : x = y := by
  have hsymm : Std.Symm fun x y => ∀ k, P x k → ¬ P y k := ⟨fun _ _ h k hy hx => h k hx hy⟩
  by_contra hne
  exact h.forall hx hy hne k hxk hyk

theorem flatMap_range'_shift (a f : Nat → List α) (n : Nat) :
    a 0 ++ (List.range' 1 n).flatMap (fun l => f l ++ a l) =
      (List.range' 1 n).flatMap (fun l => a (l - 1) ++ f l) ++ a n := by
  induction n with
  | zero => simp
  | succ n ih =>
    simp only [List.range'_concat, List.flatMap_append, ← List.append_assoc, ih,
      List.flatMap_singleton]
    simp [Nat.add_comm]

theorem append_singleton_eq_cons_iff {a : α} {xs : List α} :
    xs ++ [a] = a :: xs ↔ ∀ x ∈ xs, x = a := by
  induction xs with
  | nil => simp
  | cons x xs ih =>
    simp only [List.cons_append, List.cons.injEq, List.mem_cons, forall_eq_or_imp]
    constructor
    · rintro ⟨rfl, h⟩
      exact ⟨rfl, ih.mp h⟩
    · rintro ⟨rfl, h⟩
      exact ⟨rfl, ih.mpr h⟩

theorem getLast?_of_forall_eq {a : α} {xs : List α} (hne : xs ≠ []) (h : ∀ x ∈ xs, x = a) :
    xs.getLast? = some a := by
  rw [List.getLast?_eq_some_getLast hne, h _ (List.getLast_mem hne)]

theorem getLast?_of_letter_moves {z : α} {p q e : List α} (hp : p ≠ [])
    (h : q ++ z :: (p ++ e) = p ++ (q ++ (e ++ [z]))) : p.getLast? = some z := by
  rcases List.append_eq_append_iff.mp h with ⟨s, hs, hrest⟩ | ⟨s, hs, hrest⟩
  · cases s with
    | nil =>
      have hall : (q ++ e) ++ [z] = z :: (q ++ e) := by
        rw [hs, List.append_nil] at hrest
        simpa using hrest.symm
      refine getLast?_of_forall_eq hp fun x hx => append_singleton_eq_cons_iff.mp hall x ?_
      rw [hs, List.append_nil] at hx
      exact List.mem_append_left _ hx
    | cons c s =>
      rw [List.cons_append, List.cons.injEq] at hrest
      obtain ⟨rfl, hrest⟩ := hrest
      rw [hs]
      by_cases hsnil : s = []
      · simp [hsnil]
      · have ih := getLast?_of_letter_moves (z := z) (p := s) (q := q) (e :=
          e) hsnil (by simpa [hs] using hrest)
        rw [List.getLast?_append, List.getLast?_cons, ih]
        rfl
  · exact getLast?_of_letter_moves hp (by simpa [hs] using hrest.symm)
termination_by p.length + q.length
decreasing_by
  · simp only [hs, List.length_append, List.length_cons]
    omega
  · have := List.length_pos_of_ne_nil hp
    simp only [hs, List.length_append]
    omega

theorem append_cons_inj_of_nodup {x : α} {as bs cs ds : List α} (hnodup : (as ++ x :: bs).Nodup)
    (h : as ++ x :: bs = cs ++ x :: ds) : as = cs ∧ bs = ds := by
  have hnodup' := h ▸ hnodup
  rw [List.nodup_append] at hnodup hnodup'
  rcases List.append_eq_append_iff.mp h with ⟨e, hcs, hbs⟩ | ⟨e, has, hds⟩
  · cases e with
    | nil => simp_all
    | cons y e =>
      rw [List.cons_append, List.cons.injEq] at hbs
      exact absurd rfl (hnodup'.2.2 x (by simp [hcs, hbs.1]) x (by simp))
  · cases e with
    | nil => simp_all
    | cons y e =>
      rw [List.cons_append, List.cons.injEq] at hds
      exact absurd rfl (hnodup.2.2 x (by simp [has, hds.1]) x (by simp))

theorem eq_nil_of_next {x y : α} {word as gap bs : List α} (hnodup : word.Nodup)
    (hword : word = as ++ x :: (gap ++ bs)) (hnext : [x, y] <:+: word) (hy : y ∉ gap) :
    gap = [] := by
  obtain ⟨cs, ds, hds⟩ := hnext
  have hsplit : as ++ x :: (gap ++ bs) = cs ++ x :: (y :: ds) := by
    rw [← hword, ← hds]
    simp
  have htail := (append_cons_inj_of_nodup (hword ▸ hnodup) hsplit).2
  cases gap with
  | nil => rfl
  | cons g gap =>
    rw [List.cons_append, List.cons.injEq] at htail
    exact absurd (by simp [htail.1]) hy

theorem infix_move_last_iff {word block es : List α} {z : α} (hnodup : (word ++ z :: es).Nodup)
    (hes : es ≠ []) (hmix : block ⊆ word ++ z :: es → ∀ x ∈ block, x ∈ es → z ∈ block ∧
      ∀ y ∈ block.getLast?, y ∈ es) :
    block <:+: word ++ es ++ [z] ↔ block <:+: word ++ z :: es ∧ (z ∉ block ∨ block.length = 1) := by
  have hz : z ∉ word ∧ z ∉ es := by
    rw [List.nodup_append, List.nodup_cons] at hnodup
    exact ⟨fun h => hnodup.2.2 z h z (by simp) rfl, hnodup.2.1.1⟩
  have hmem : ∀ x, x ∈ word ++ es ++ [z] ↔ x ∈ word ++ z :: es := by
    intro x
    simp only [List.mem_append, List.mem_cons, List.not_mem_nil, or_false]
    tauto
  constructor
  · intro h
    have hmix := hmix fun x hx => (hmem x).mp (h.subset hx)
    rcases List.infix_concat_iff.mp h with h | h
    · rcases List.suffix_concat_iff.mp h with rfl | ⟨b, rfl, hb⟩
      · simp
      · rcases b.eq_nil_or_concat' with rfl | ⟨c, x, rfl⟩
        · exact ⟨⟨word, es, by simp⟩, .inr rfl⟩
        · -- the letter before the moved one would be the last of those it jumped over
          obtain ⟨e, y, rfl⟩ := es.eq_nil_or_concat'.resolve_left hes
          rw [← List.append_assoc] at hb
          obtain ⟨t, ht⟩ := hb
          rw [← List.append_assoc] at ht
          have hxy : x = y := by simpa using congrArg List.getLast? ht
          exact absurd ((hmix x (by simp) (by simp [hxy])).2 z (by simp)) hz.2
    · rcases List.infix_append_iff_ne_nil.mp h with h | h | ⟨b, c, hb, hc, rfl, hword, hes'⟩
      · exact ⟨h.trans (List.infix_append_left), .inl fun hzb => hz.1 (h.subset hzb)⟩
      · cases block with
        | nil => simp
        | cons x block => exact absurd (h.subset (hmix x (by simp) (h.subset (by simp))).1) hz.2
      · obtain ⟨x, c, rfl⟩ := List.exists_cons_of_ne_nil hc
        rcases List.mem_append.mp (hmix x (by simp) (hes'.subset (by simp))).1 with hzb | hzb
        · exact absurd (hword.subset hzb) hz.1
        · exact absurd (hes'.subset hzb) hz.2
  · rintro ⟨h, hzb | hone⟩
    · rcases List.infix_append_iff_ne_nil.mp h with h | h | ⟨b, c, hb, hc, rfl, hword, hes'⟩
      · exact h.trans ⟨[], es ++ [z], by simp⟩
      · rcases List.infix_cons_iff.mp h with h | h
        · rcases List.prefix_cons_iff.mp h with rfl | ⟨t, rfl, -⟩
          · exact List.nil_infix
          · simp at hzb
        · exact h.trans ⟨word, [z], by simp⟩
      · rcases List.prefix_cons_iff.mp hes' with rfl | ⟨t, rfl, -⟩
        · exact absurd rfl hc
        · simp at hzb
    · obtain ⟨x, rfl⟩ := List.length_eq_one_iff.mp hone
      obtain ⟨as, bs, hsplit⟩ := List.append_of_mem ((hmem x).mpr (h.subset (by simp)))
      exact ⟨as, bs, by simp [hsplit]⟩

end JevCode.Data
