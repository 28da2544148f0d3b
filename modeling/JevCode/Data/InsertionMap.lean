import Mathlib.Data.List.Forall2

namespace JevCode.Data

variable {α β : Type}

theorem lookup_cons_ite [DecidableEq α] (k : α) (e : α × β) (es : List (α × β)) :
    (e :: es).lookup k = if k = e.1 then some e.2 else es.lookup k := by
  obtain ⟨a, b⟩ := e
  rw [List.lookup_cons]
  by_cases h : k = a
  · simp [h]
  · simp [h, beq_eq_false_iff_ne.mpr h]

theorem mem_map_fst_iff [DecidableEq α] {k : α} {es : List (α × β)} :
    k ∈ es.map Prod.fst ↔ (es.lookup k).isSome := by
  induction es with
  | nil => simp
  | cons e es ih =>
    rw [List.map_cons, List.mem_cons, lookup_cons_ite, ih]
    by_cases hk : k = e.1 <;> simp [hk]

structure InsertionMap (α β : Type) where
  entries : List (α × β)
  nodup : (entries.map Prod.fst).Nodup

namespace InsertionMap

def empty : InsertionMap α β := ⟨[], by simp⟩

def keys (m : InsertionMap α β) : List α := m.entries.map Prod.fst

section

variable [DecidableEq α]

def get? (m : InsertionMap α β) (k : α) : Option β := m.entries.lookup k

def setEntries (k : α) (v : β) : List (α × β) → List (α × β)
  | [] => [(k, v)]
  | e :: es => if e.1 = k then (k, v) :: es else e :: setEntries k v es

theorem map_fst_setEntries (k : α) (v : β) (es : List (α × β)) :
    (setEntries k v es).map Prod.fst = if k ∈ es.map Prod.fst then es.map Prod.fst
      else es.map Prod.fst ++ [k] := by
  induction es with
  | nil => rfl
  | cons e es ih =>
    by_cases h : e.1 = k
    · simp [setEntries, h]
    · have h' : ¬ k = e.1 := fun hk => h hk.symm
      simp only [setEntries, h, if_false, List.map_cons, ih, List.mem_cons, h', false_or]
      split <;> rfl

theorem lookup_setEntries (k k' : α) (v : β) (es : List (α × β)) :
    (setEntries k v es).lookup k' = if k' = k then some v else es.lookup k' := by
  induction es with
  | nil => simp only [setEntries, lookup_cons_ite, List.lookup_nil]
  | cons e es ih =>
    by_cases h : e.1 = k
    · simp only [setEntries, h, if_true, lookup_cons_ite]
      split <;> rfl
    · simp only [setEntries, h, if_false, lookup_cons_ite, ih]
      by_cases hk : k' = k
      · have hne : ¬ k' = e.1 := fun h' => h (h' ▸ hk)
        simp only [if_pos hk, if_neg hne]
      · simp only [hk, if_false]

theorem setEntries_of_notMem {k : α} {es : List (α × β)} (h : k ∉ es.map Prod.fst) (v : β) :
    setEntries k v es = es ++ [(k, v)] := by
  induction es with
  | nil => rfl
  | cons e es ih =>
    rw [List.map_cons, List.mem_cons, not_or] at h
    rw [setEntries, if_neg (Ne.symm h.1), ih h.2, List.cons_append]

def set (m : InsertionMap α β) (k : α) (v : β) : InsertionMap α β where
  entries := setEntries k v m.entries
  nodup := by
    rw [map_fst_setEntries]
    split
    · exact m.nodup
    · rename_i h
      refine List.nodup_append.mpr ⟨m.nodup, by simp, ?_⟩
      rintro a ha b hb rfl
      exact h (List.mem_singleton.mp hb ▸ ha)

def filter (p : α × β → Bool) (m : InsertionMap α β) : InsertionMap α β where
  entries := m.entries.filter p
  nodup := m.nodup.sublist (List.filter_sublist.map Prod.fst)

def erase (m : InsertionMap α β) (k : α) : InsertionMap α β := m.filter fun e => e.1 ≠ k

def mapValues (f : β → β) (m : InsertionMap α β) : InsertionMap α β where
  entries := m.entries.map fun e => (e.1, f e.2)
  nodup := by
    rw [List.map_map]
    exact m.nodup

def setAll (m : InsertionMap α β) (es : List (α × β)) : InsertionMap α β :=
  es.foldl (fun m e => m.set e.1 e.2) m

def ofList (es : List (α × β)) : InsertionMap α β := empty.setAll es

@[simp] theorem get?_empty (k : α) : (empty : InsertionMap α β).get? k = none := rfl

@[simp] theorem get?_set (m : InsertionMap α β) (k k' : α) (v : β) :
    (m.set k v).get? k' = if k' = k then some v else m.get? k' :=
  lookup_setEntries k k' v m.entries

theorem get?_filter_key (p : α → Bool) (m : InsertionMap α β) (k : α) :
    (m.filter fun e => p e.1).get? k = if p k then m.get? k else none := by
  simp only [filter, get?]
  induction m.entries with
  | nil => simp
  | cons e es ih =>
    rw [lookup_cons_ite]
    by_cases he : p e.1 = true
    · rw [List.filter_cons_of_pos (by simpa using he), lookup_cons_ite, ih]
      by_cases hk : k = e.1
      · simp only [hk, he, if_true]
      · simp only [if_neg hk]
    · rw [List.filter_cons_of_neg (by simpa using he), ih]
      by_cases hk : k = e.1
      · simp only [hk, he, if_false, Bool.false_eq_true]
      · simp only [if_neg hk]

theorem get?_erase (m : InsertionMap α β) (k k' : α) :
    (m.erase k).get? k' = if k' = k then none else m.get? k' := by
  rw [erase, get?_filter_key (fun a => a ≠ k)]
  by_cases h : k' = k <;> simp [h]

theorem get?_mapValues (f : β → β) (m : InsertionMap α β) (k : α) :
    (m.mapValues f).get? k = (m.get? k).map f := by
  simp only [mapValues, get?]
  induction m.entries with
  | nil => rfl
  | cons e es ih =>
    rw [List.map_cons, lookup_cons_ite, lookup_cons_ite, ih]
    split <;> rfl

theorem mem_keys {m : InsertionMap α β} {k : α} : k ∈ m.keys ↔ (m.get? k).isSome :=
  mem_map_fst_iff

theorem mem_entries {m : InsertionMap α β} {k : α} {v : β} :
    (k, v) ∈ m.entries ↔ m.get? k = some v := by
  obtain ⟨es, hnodup⟩ := m
  simp only [get?]
  induction es with
  | nil => simp
  | cons e es ih =>
    rw [List.map_cons, List.nodup_cons] at hnodup
    rw [List.mem_cons, lookup_cons_ite, ih hnodup.2]
    by_cases hk : k = e.1
    · have hnone : es.lookup k ≠ some v := fun h =>
        hnodup.1 (hk ▸ List.mem_map_of_mem (f := Prod.fst) ((ih hnodup.2).mpr h))
      simp [hk, hk ▸ hnone, Prod.ext_iff, eq_comm]
    · simp [hk, Prod.ext_iff]

theorem get?_setAll {f : α → Option β} (m : InsertionMap α β) {es : List (α × β)}
    (h : ∀ e ∈ es, f e.1 = some e.2) (k : α) :
    (m.setAll es).get? k = if k ∈ es.map Prod.fst then f k else m.get? k := by
  induction es generalizing m with
  | nil => simp [setAll]
  | cons e es ih =>
    have hrest := ih (m.set e.1 e.2) fun e' he' => h e' (by simp [he'])
    simp only [setAll, List.foldl_cons] at hrest ⊢
    rw [hrest, get?_set, List.map_cons]
    by_cases hk : k = e.1
    · simp [hk, h e (by simp)]
    · simp only [hk, if_false, List.mem_cons, false_or]

theorem mem_of_get?_setAll {m : InsertionMap α β} {es : List (α × β)} {k : α} {v : β}
    (h : (m.setAll es).get? k = some v) : (k, v) ∈ es ∨ m.get? k = some v := by
  induction es generalizing m with
  | nil => exact .inr h
  | cons e es ih =>
    rcases ih h with hmem | hget
    · exact .inl (List.mem_cons_of_mem _ hmem)
    · rw [get?_set] at hget
      split at hget
      · rename_i hk
        obtain rfl := Option.some.inj hget
        exact .inl (hk ▸ List.mem_cons_self)
      · exact .inr hget

theorem mem_of_get?_ofList {es : List (α × β)} {k : α} {v : β} (h : (ofList es).get? k = some v) :
    (k, v) ∈ es := by
  rcases mem_of_get?_setAll h with hmem | hget
  · exact hmem
  · cases hget

theorem get?_ofList_of_mem {es : List (α × β)} {k : α} {v : β} (hnodup : (es.map Prod.fst).Nodup)
    (h : (k, v) ∈ es) :
    (ofList es).get? k = some v := by
  have hself : ∀ e ∈ es, es.lookup e.1 = some e.2 := fun e he =>
    mem_entries (m := ⟨es, hnodup⟩).mp he
  rw [ofList, get?_setAll (f :=
    fun k => es.lookup k) _ hself, if_pos (List.mem_map_of_mem (f := Prod.fst) h)]
  exact hself _ h

theorem get?_setAll_rel {γ : Type} {r : β → γ → Prop} {es : List (α × β)} {es' : List (α × γ)}
    (h : List.Forall₂ (fun e e' => e.1 = e'.1 ∧ r e.2 e'.2) es es') {m : InsertionMap α β}
    {m' : InsertionMap α γ} (hm : ∀ k, Option.Rel r (m.get? k) (m'.get? k)) (k : α) :
    Option.Rel r ((m.setAll es).get? k) ((m'.setAll es').get? k) := by
  induction h generalizing m m' with
  | nil => exact hm k
  | cons he _ ih =>
    refine ih fun k => ?_
    rw [get?_set, get?_set, he.1]
    split
    · exact .some he.2
    · exact hm k

theorem get?_ofList_rel {γ : Type} {r : β → γ → Prop} {es : List (α × β)} {es' : List (α × γ)}
    (h : List.Forall₂ (fun e e' => e.1 = e'.1 ∧ r e.2 e'.2) es es') (k : α) :
    Option.Rel r ((ofList es).get? k) ((ofList es').get? k) :=
  get?_setAll_rel h (fun _ => .none) k

end

end InsertionMap

end JevCode.Data
