import Mathlib.Data.List.Infix

namespace JevCode.Data

variable {α : Type}

structure FirstAt (word text before after : List α) : Prop where
  eq : text = before ++ (word ++ after)
  first : ¬ word <:+: before ++ word.dropLast

theorem not_infix_dropLast {word : List α} (hword : word ≠ []) : ¬ word <:+: word.dropLast := by
  intro h
  have hlength := h.length_le
  have := List.length_pos_iff.mpr hword
  rw [List.length_dropLast] at hlength
  omega

namespace FirstAt

variable {word text before after : List α}

theorem infix_of_overlap {gap after' : List α} (hgap : gap ≠ [])
    (h : word ++ after = gap ++ (word ++ after')) :
    word <+: gap ++ word.dropLast := by
  have hleft : word <+: gap ++ (word ++ after') := h ▸ List.prefix_append word after
  have hright : gap ++ word.dropLast <+: gap ++ (word ++ after') :=
    (List.prefix_append_right_inj gap).mpr
      ((List.dropLast_prefix word).trans (List.prefix_append word after'))
  refine List.prefix_of_prefix_length_le hleft hright ?_
  have := List.length_pos_iff.mpr hgap
  rw [List.length_append, List.length_dropLast]
  omega

theorem eq_of_length_le {before' after' : List α} (h : FirstAt word text before after)
    (h' : FirstAt word text before' after') (hle : before.length ≤ before'.length) :
    before = before' ∧ after = after' := by
  have heq : before ++ (word ++ after) = before' ++ (word ++ after') := h.eq.symm.trans h'.eq
  obtain ⟨gap, rfl⟩ : before <+: before' := by
    refine List.prefix_of_prefix_length_le ?_ (List.prefix_append before' (word ++ after')) hle
    exact heq ▸ List.prefix_append before (word ++ after)
  rw [List.append_assoc, List.append_right_inj] at heq
  obtain rfl | hgap := eq_or_ne gap []
  · rw [List.nil_append, List.append_right_inj] at heq
    exact ⟨(List.append_nil before).symm, heq⟩
  · refine absurd ?_ h'.first
    rw [List.append_assoc]
    exact (infix_of_overlap hgap heq).isInfix.trans (List.suffix_append before _).isInfix

theorem unique {before' after' : List α} (h : FirstAt word text before after)
    (h' : FirstAt word text before' after') :
    before = before' ∧ after = after' := by
  obtain hle | hle := Nat.le_total before.length before'.length
  · exact h.eq_of_length_le h' hle
  · obtain ⟨hbefore, hafter⟩ := h'.eq_of_length_le h hle
    exact ⟨hbefore.symm, hafter.symm⟩

theorem append (h : FirstAt word text before after) (more : List α) :
    FirstAt word (text ++ more) before (after ++ more) := by
  refine ⟨?_, h.first⟩
  rw [h.eq, List.append_assoc, List.append_assoc]

theorem dropFront {front : List α} (h : FirstAt word (front ++ text) (front ++ before) after) :
    FirstAt word text before after := by
  refine ⟨?_, fun hoccurs => h.first ?_⟩
  · have := h.eq
    rwa [List.append_assoc, List.append_right_inj] at this
  · rw [List.append_assoc]
    exact hoccurs.trans (List.suffix_append _ _).isInfix

theorem cases_append {left right : List α} (hleft : ¬ word <:+: left)
    (h : FirstAt word (left ++ right) before after) :
    (∃ middle, before = left ++ middle ∧ right = middle ++ (word ++ after)) ∨
    ∃ front back, front ≠ [] ∧ back ≠ [] ∧ word = front ++ back ∧ left = before ++ front ∧
      right = back ++ after := by
  obtain ⟨middle, hbefore, hright⟩ | ⟨front, rfl, hword⟩ := List.append_eq_append_iff.mp h.eq
  · exact .inl ⟨middle, hbefore, hright⟩
  · obtain ⟨rest, rfl, -⟩ | ⟨back, rfl, rfl⟩ := List.append_eq_append_iff.mp hword
    · exact absurd ⟨before, rest, by simp⟩ hleft
    · obtain rfl | hfront := eq_or_ne front []
      · exact .inl ⟨[], by simp, by simp⟩
      · obtain rfl | hback := eq_or_ne back []
        · exact absurd ⟨before, [], by simp⟩ hleft
        · exact .inr ⟨front, back, hfront, hback, rfl, rfl, rfl⟩

end FirstAt

section

variable [DecidableEq α] {word : List α}

def indexOf (word : List α) : List α → Option Nat
  | [] => if word = [] then some 0 else none
  | x :: xs => if word <+: x :: xs then some 0 else (indexOf word xs).map (· + 1)

theorem indexOf_eq_none (hword : word ≠ []) {text : List α} :
    indexOf word text = none ↔ ¬ word <:+: text := by
  induction text with
  | nil => simp [indexOf, hword]
  | cons x xs ih =>
    rw [indexOf, List.infix_cons_iff]
    split
    next h => simp [h]
    next h => simp [h, ih]

theorem indexOf_eq_some (hword : word ≠ []) {text : List α} {i : Nat}
    (h : indexOf word text = some i) :
    FirstAt word text (text.take i) (text.drop (i + word.length)) := by
  induction text generalizing i with
  | nil => simp [indexOf, hword] at h
  | cons x xs ih =>
    rw [indexOf] at h
    split at h
    next hfirst =>
      cases h
      obtain ⟨after, hafter⟩ := hfirst
      rw [← hafter]
      exact ⟨by simp, by simpa using not_infix_dropLast hword⟩
    next hfirst =>
      obtain ⟨j, hj, rfl⟩ := Option.map_eq_some_iff.mp h
      have hlater := ih hj
      rw [List.take_succ_cons, Nat.add_right_comm, List.drop_succ_cons]
      refine ⟨congrArg (x :: ·) hlater.eq, fun hoccurs => ?_⟩
      obtain hstarts | hoccurs := List.infix_cons_iff.mp hoccurs
      · refine hfirst (hstarts.trans ?_)
        have hfront : xs.take j ++ word.dropLast <+: xs.take j ++
            (word ++ xs.drop (j + word.length)) :=
          (List.prefix_append_right_inj _).mpr
            ((List.dropLast_prefix word).trans (List.prefix_append word _))
        rw [← hlater.eq] at hfront
        exact List.cons_prefix_cons.mpr ⟨rfl, hfront⟩
      · exact hlater.first hoccurs

theorem exists_firstAt (hword : word ≠ []) {text : List α} (h : word <:+: text) :
    ∃ before after, FirstAt word text before after := by
  cases hindex : indexOf word text with
  | none => exact absurd h ((indexOf_eq_none hword).mp hindex)
  | some i => exact ⟨_, _, indexOf_eq_some hword hindex⟩

theorem indexOf_of_firstAt {text before after : List α} (hword : word ≠ [])
    (h : FirstAt word text before after) :
    indexOf word text = some before.length := by
  cases hindex : indexOf word text with
  | none =>
    exact absurd ⟨before, after, by rw [h.eq, List.append_assoc]⟩ ((indexOf_eq_none hword).mp hindex)
  | some i =>
    have hfirst := indexOf_eq_some hword hindex
    have hlength := congrArg List.length hfirst.eq
    have := List.length_pos_iff.mpr hword
    simp only [List.length_append, List.length_take, List.length_drop] at hlength
    rw [(h.unique hfirst).1, List.length_take, Nat.min_eq_left (by omega)]

/-- The pieces between the occurrences of a word, scanned from the left; the first `skip` letters are
part of an occurrence. -/
def piecesFrom (word : List α) : Nat → List α → List (List α)
  | _, [] => [[]]
  | skip + 1, _ :: xs => piecesFrom word skip xs
  | 0, x :: xs =>
    if word <+: x :: xs then [] :: piecesFrom word (word.length - 1) xs
    else (piecesFrom word 0 xs).modifyHead (x :: ·)

def pieces (word text : List α) : List (List α) := piecesFrom word 0 text

theorem piecesFrom_append (word left right : List α) :
    piecesFrom word left.length (left ++ right) = piecesFrom word 0 right := by
  induction left with
  | nil => rfl
  | cons x left ih => exact ih

theorem pieces_of_not_infix {text : List α} (h : ¬ word <:+: text) : pieces word text = [text] := by
  induction text with
  | nil => rfl
  | cons x xs ih =>
    rw [List.infix_cons_iff, not_or] at h
    have hrest : piecesFrom word 0 xs = [xs] := ih h.2
    rw [pieces, piecesFrom, if_neg h.1, hrest]
    rfl

theorem pieces_of_firstAt (hword : word ≠ []) {text before after : List α}
    (h : FirstAt word text before after) :
    pieces word text = before :: pieces word after := by
  obtain ⟨y, ys, hcons⟩ := List.exists_cons_of_ne_nil hword
  induction before generalizing text with
  | nil =>
    have htext := h.eq
    rw [List.nil_append] at htext
    have hprefix : word <+: text := ⟨after, htext.symm⟩
    rw [htext, hcons, List.cons_append] at hprefix ⊢
    rw [pieces, piecesFrom, if_pos hprefix, List.length_cons, Nat.add_sub_cancel, piecesFrom_append]
    rfl
  | cons x before ih =>
    have hrest : FirstAt word (before ++ (word ++ after)) before after :=
      ⟨rfl, fun hoccurs => h.first (List.infix_cons hoccurs)⟩
    have hfirst : ¬ word <+: x :: (before ++ (word ++ after)) := by
      intro hprefix
      refine h.first (List.IsPrefix.isInfix ?_)
      refine List.prefix_of_prefix_length_le hprefix ?_ ?_
      · refine List.cons_prefix_cons.mpr ⟨rfl, (List.prefix_append_right_inj before).mpr ?_⟩
        exact (List.dropLast_prefix word).trans (List.prefix_append word after)
      · simp only [List.length_append, List.length_cons, List.length_dropLast]
        omega
    have ih := ih hrest
    rw [pieces] at ih
    rw [h.eq, List.cons_append, pieces, piecesFrom, if_neg hfirst, ih]
    rfl

theorem length_pieces_pos (word text : List α) : 0 < (pieces word text).length := by
  induction text with
  | nil => exact Nat.one_pos
  | cons x xs ih =>
    rw [pieces, piecesFrom]
    split
    · exact Nat.succ_pos _
    · rw [List.length_modifyHead]
      exact ih

end

def OccursAt (word text : List α) (i : Nat) : Prop := word <+: text.drop i

/-- There are several starts, and all of them lie in the first occurrence. -/
def OverlapsOnly (word text : List α) : Prop :=
  ∃ i j, OccursAt word text i ∧ OccursAt word text j ∧ i < j ∧ ∀ k, OccursAt word text k → i ≤ k ∧
    k < i + word.length

instance [DecidableEq α] (word text : List α) (i : Nat) : Decidable (OccursAt word text i) :=
  inferInstanceAs (Decidable (word <+: text.drop i))

theorem infix_of_occursAt {word text : List α} {i : Nat} (h : OccursAt word text i) :
    word <:+: text :=
  h.isInfix.trans (List.drop_suffix i text).isInfix

theorem length_le_of_occursAt {word text : List α} {i : Nat} (hword : word ≠ [])
    (h : OccursAt word text i) :
    i + word.length ≤ text.length := by
  have hle := h.length_le
  have hpos := List.length_pos_iff.mpr hword
  rw [List.length_drop] at hle
  omega

theorem eq_append_of_occursAt {word text : List α} {i : Nat} (h : OccursAt word text i) :
    text = text.take i ++ word ++ text.drop (i + word.length) := by
  obtain ⟨rest, hrest⟩ := h
  rw [← List.drop_drop, ← hrest, List.drop_left, List.append_assoc, hrest, List.take_append_drop]

theorem exists_occursAt {word text : List α} (h : word <:+: text) : ∃ i, OccursAt word text i := by
  obtain ⟨before, after, rfl⟩ := h
  exact ⟨before.length, after, by simp⟩

namespace FirstAt

variable {word text before after : List α} (h : FirstAt word text before after)

include h

theorem occursAt : OccursAt word text before.length := by
  rw [OccursAt, h.eq, List.drop_left]
  exact List.prefix_append word after

theorem le_of_occursAt (hword : word ≠ []) {k : Nat} (hk : OccursAt word text k) :
    before.length ≤ k := by
  by_contra hlt
  rw [Nat.not_le] at hlt
  refine h.first (List.IsInfix.trans ?_ (List.drop_suffix k _).isInfix)
  refine (List.prefix_of_prefix_length_le hk ?_ ?_).isInfix
  · rw [h.eq, List.drop_append_of_le_length hlt.le, List.drop_append_of_le_length hlt.le]
    exact (List.prefix_append_right_inj _).mpr
      ((List.dropLast_prefix word).trans (List.prefix_append word after))
  · have := List.length_pos_iff.mpr hword
    simp only [List.length_drop, List.length_append, List.length_dropLast]
    omega

theorem infix_after_iff :
    word <:+: after ↔ ∃ k, before.length + word.length ≤ k ∧ OccursAt word text k := by
  have hdrop : ∀ k, text.drop (before.length + word.length + k) = after.drop k := by
    intro k
    rw [h.eq, ← List.drop_drop, ← List.append_assoc, ← List.length_append, List.drop_left]
  constructor
  · intro hinfix
    obtain ⟨k, hk⟩ := exists_occursAt hinfix
    exact ⟨before.length + word.length + k, Nat.le_add_right _ _, by rw [OccursAt, hdrop]; exact hk⟩
  · rintro ⟨k, hle, hk⟩
    obtain ⟨d, rfl⟩ := Nat.exists_eq_add_of_le hle
    rw [OccursAt, hdrop] at hk
    exact infix_of_occursAt hk

theorem unique_iff (hword : word ≠ []) (hafter : ¬ word <:+: after) :
    (∀ k, OccursAt word text k ↔ k = before.length) ↔ ¬ OverlapsOnly word text := by
  constructor
  · rintro honly ⟨i, j, hi, hj, hlt, -⟩
    rw [(honly i).mp hi, (honly j).mp hj] at hlt
    exact Nat.lt_irrefl _ hlt
  · intro hoverlaps k
    refine ⟨fun hk => ?_, fun hk => hk ▸ h.occursAt⟩
    by_contra hne
    have hlt : before.length < k := lt_of_le_of_ne (h.le_of_occursAt hword hk) (Ne.symm hne)
    refine hoverlaps ⟨before.length, k, h.occursAt, hk, hlt,
      fun l hl => ⟨h.le_of_occursAt hword hl, ?_⟩⟩
    by_contra hge
    exact hafter (h.infix_after_iff.mpr ⟨l, Nat.not_lt.mp hge, hl⟩)

theorem not_overlapsOnly (hafter : word <:+: after) : ¬ OverlapsOnly word text := by
  rintro ⟨i, j, hi, -, -, hall⟩
  obtain ⟨k, hle, hk⟩ := h.infix_after_iff.mp hafter
  have hfirst := (hall before.length h.occursAt).1
  have := (hall k hk).2
  omega

end FirstAt

theorem firstAt_of_unique [DecidableEq α] {word text before after : List α} (hword : word ≠ [])
    (h : text = before ++ (word ++ after)) (honly : ∀ i, OccursAt word text i → i = before.length) :
    FirstAt word text before after ∧ ¬ word <:+: after := by
  have hinfix : word <:+: text := ⟨before, after, by rw [h, List.append_assoc]⟩
  obtain ⟨before', after', hfirst⟩ := exists_firstAt hword hinfix
  have hlength := honly before'.length hfirst.occursAt
  obtain ⟨rfl, hrest⟩ := List.append_inj (h.symm.trans hfirst.eq) hlength.symm
  obtain rfl := List.append_cancel_left hrest
  refine ⟨hfirst, fun hmore => ?_⟩
  obtain ⟨k, hle, hk⟩ := hfirst.infix_after_iff.mp hmore
  rw [honly k hk] at hle
  have := List.length_pos_iff.mpr hword
  omega

end JevCode.Data
