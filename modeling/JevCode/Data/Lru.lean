import JevCode.Data.InsertionMap
import Mathlib.Data.List.Perm.Basic

namespace JevCode.Data

variable {α β : Type} {max : Nat}

structure Lru (α β : Type) (max : Nat) where
  entries : List (α × β)
  nodup : (entries.map Prod.fst).Nodup
  length_le : entries.length ≤ max

namespace Lru

def empty : Lru α β max := ⟨[], List.nodup_nil, Nat.zero_le max⟩

section

variable [DecidableEq α]

def peek (c : Lru α β max) (k : α) : Option β := c.entries.lookup k

def without (k : α) (es : List (α × β)) : List (α × β) := es.filter fun e => e.1 ≠ k

theorem nodup_cons_without {es : List (α × β)} (h : (es.map Prod.fst).Nodup) (k : α) (v : β) :
    (((k, v) :: without k es).map Prod.fst).Nodup := by
  rw [List.map_cons, List.nodup_cons]
  refine ⟨?_, h.sublist (List.filter_sublist.map _)⟩
  simp only [without, List.mem_map, List.mem_filter, decide_eq_true_eq, not_exists, not_and]
  rintro e ⟨-, hne⟩
  exact hne

theorem lookup_without (k k' : α) (es : List (α × β)) :
    (without k es).lookup k' = if k' = k then none else es.lookup k' := by
  induction es with
  | nil => simp [without]
  | cons e es ih =>
    simp only [without] at ih
    by_cases h : e.1 = k
    · have hdrop : without k (e :: es) = es.filter fun e => e.1 ≠ k :=
        List.filter_cons_of_neg (by simp [h])
      rw [hdrop, ih, lookup_cons_ite, h]
      split <;> rfl
    · have hkeep : without k (e :: es) = e :: es.filter fun e => e.1 ≠ k :=
        List.filter_cons_of_pos (by simp [h])
      rw [hkeep, lookup_cons_ite, lookup_cons_ite, ih]
      by_cases hk : k' = k
      · have hne : ¬ k' = e.1 := fun h' => h (h' ▸ hk)
        simp only [if_pos hk, if_neg hne]
      · simp only [hk, if_false]

def set (c : Lru α β max) (k : α) (v : β) : Lru α β max where
  entries := ((k, v) :: without k c.entries).take max
  nodup := (nodup_cons_without c.nodup k v).sublist ((List.take_sublist _ _).map _)
  length_le := List.length_take_le _ _

def get (c : Lru α β max) (k : α) : Option β × Lru α β max :=
  match c.peek k with
  | none => (none, c)
  | some v => (some v, c.set k v)

def delete (c : Lru α β max) (k : α) : Lru α β max where
  entries := without k c.entries
  nodup := c.nodup.sublist (List.filter_sublist.map _)
  length_le := Nat.le_trans List.filter_sublist.length_le c.length_le

@[simp] theorem peek_empty (k : α) : (empty : Lru α β max).peek k = none := rfl

theorem lookup_take {es : List (α × β)} {n : Nat} {k : α} {v : β}
    (h : (es.take n).lookup k = some v) :
    es.lookup k = some v := by
  induction es generalizing n with
  | nil => simp at h
  | cons e es ih =>
    cases n with
    | zero => simp at h
    | succ n =>
      simp only [List.take_succ_cons, lookup_cons_ite] at h ⊢
      by_cases hk : k = e.1
      · simpa only [hk, if_true] using h
      · simp only [hk, if_false] at h ⊢
        exact ih h

theorem peek_of_peek_set {c : Lru α β max} {k k' : α} {v w : β} (h : (c.set k v).peek k' = some w) :
    (k' = k ∧ w = v) ∨ (k' ≠ k ∧ c.peek k' = some w) := by
  have h := lookup_take h
  rw [lookup_cons_ite, lookup_without] at h
  by_cases hk : k' = k
  · simp only [hk, if_true, Option.some.injEq] at h
    exact .inl ⟨hk, h.symm⟩
  · simp only [hk, if_false] at h
    exact .inr ⟨hk, h⟩

theorem peek_set_self (c : Lru α β (max + 1)) (k : α) (v : β) : (c.set k v).peek k = some v := by
  simp [peek, set]

@[simp] theorem get_fst (c : Lru α β max) (k : α) : (c.get k).1 = c.peek k := by
  unfold get
  split <;> simp [*]

theorem peek_of_peek_get {c : Lru α β max} {k k' : α} {w : β} (h : (c.get k).2.peek k' = some w) :
    c.peek k' = some w := by
  unfold get at h
  split at h
  · exact h
  · rcases peek_of_peek_set h with ⟨rfl, rfl⟩ | ⟨-, h⟩
    · assumption
    · exact h

theorem peek_of_peek_delete {c : Lru α β max} {k k' : α} {w : β}
    (h : (c.delete k).peek k' = some w) :
    c.peek k' = some w := by
  simp only [peek, delete, lookup_without] at h ⊢
  split at h
  · cases h
  · exact h

def RecentWithin (K : List α) (c : Lru α β max) (k : α) (v : β) : Prop :=
  ∃ newer older, c.entries = newer ++ (k, v) :: older ∧ ∀ e ∈ newer, e.1 ∈ K ∧ e.1 ≠ k

theorem RecentWithin.peek {K : List α} {c : Lru α β max} {k : α} {v : β} (h : RecentWithin K c k v) :
    c.peek k = some v := by
  obtain ⟨newer, older, hentries, hnewer⟩ := h
  rw [Lru.peek, hentries]
  clear hentries
  induction newer with
  | nil => rw [List.nil_append, lookup_cons_ite, if_pos rfl]
  | cons e newer ih =>
    rw [List.cons_append, lookup_cons_ite, if_neg (hnewer e (by simp)).2.symm]
    exact ih fun e' he' => hnewer e' (by simp [he'])

theorem recentWithin_get (K : List α) {c : Lru α β (max + 1)} {k : α} {v : β}
    (h : c.peek k = some v) :
    RecentWithin K (c.get k).2 k v := by
  refine ⟨[], (without k c.entries).take max, ?_, by simp⟩
  simp [get, h, set]

theorem RecentWithin.set {K : List α} {c : Lru α β max} {k : α} {v : β}
    (h : RecentWithin K c k v) (hk : k ∈ K) (hroom : K.length ≤ max) {k' : α} (hk' : k' ∈ K)
    (hne : k' ≠ k) (w : β) : RecentWithin K (c.set k' w) k v := by
  obtain ⟨newer, older, hentries, hnewer⟩ := h
  have hsplit : without k' c.entries = without k' newer ++ (k, v) :: without k' older := by
    simp [without, hentries, hne.symm]
  have hmem : ∀ e ∈ (k', w) :: without k' newer, e.1 ∈ K ∧ e.1 ≠ k := by
    intro e he
    rcases List.mem_cons.mp he with rfl | he
    · exact ⟨hk', hne⟩
    · exact hnewer e (List.mem_of_mem_filter he)
  have hlen : ((k', w) :: without k' newer).length < max := by
    have hnodup : (k :: ((k', w) :: without k' newer).map Prod.fst).Nodup := by
      refine List.nodup_cons.mpr ⟨?_, ?_⟩
      · intro hin
        obtain ⟨e, he, hek⟩ := List.mem_map.mp hin
        exact (hmem e he).2 hek
      · refine nodup_cons_without ?_ k' w
        refine c.nodup.sublist (List.Sublist.map _ ?_)
        rw [hentries]
        exact List.sublist_append_left _ _
    have hsub : k :: ((k', w) :: without k' newer).map Prod.fst ⊆ K := by
      intro a ha
      rcases List.mem_cons.mp ha with rfl | ha
      · exact hk
      · obtain ⟨e, he, rfl⟩ := List.mem_map.mp ha
        exact (hmem e he).1
    have hle := (List.subperm_of_subset hnodup hsub).length_le
    simp only [List.length_cons, List.length_map] at hle ⊢
    omega
  refine ⟨(k', w) :: without k' newer,
    (without k' older).take (max - ((k', w) :: without k' newer).length - 1), ?_, hmem⟩
  simp only [Lru.set, hsplit]
  rw [← List.cons_append, List.take_append, List.take_of_length_le (by omega)]
  obtain ⟨m, hm⟩ : ∃ m, max - ((k', w) :: without k' newer).length = m + 1 :=
    ⟨_, (Nat.succ_pred_eq_of_pos (by omega)).symm⟩
  rw [hm, List.take_succ_cons, Nat.add_sub_cancel]

theorem RecentWithin.get {K : List α} {c : Lru α β max} {k : α} {v : β}
    (h : RecentWithin K c k v) (hk : k ∈ K) (hroom : K.length ≤ max) {k' : α} (hk' : k' ∈ K)
    (hne : k' ≠ k) : RecentWithin K (c.get k').2 k v := by
  unfold Lru.get
  split
  · exact h
  · exact h.set hk hroom hk' hne _

end

end Lru

end JevCode.Data
