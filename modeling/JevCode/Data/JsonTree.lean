import Mathlib.Data.List.Basic

namespace JevCode.Data

inductive JsonTree (κ α : Type)
  | leaf (a : α)
  | arr (items : List (JsonTree κ α))
  | obj (fields : List (κ × JsonTree κ α))

inductive JsonScalar (ν : Type)
  | null
  | boolean (b : Bool)
  | number (n : ν)
  | string (s : List Char)
  deriving DecidableEq

namespace JsonTree

variable {κ α β : Type}

mutual

def map (f : α → β) : JsonTree κ α → JsonTree κ β
  | leaf a => leaf (f a)
  | arr items => arr (mapItems f items)
  | obj fields => obj (mapFields f fields)

def mapItems (f : α → β) : List (JsonTree κ α) → List (JsonTree κ β)
  | [] => []
  | item :: items => item.map f :: mapItems f items

def mapFields (f : α → β) : List (κ × JsonTree κ α) → List (κ × JsonTree κ β)
  | [] => []
  | (key, value) :: fields => (key, value.map f) :: mapFields f fields

end

mutual

def leaves : JsonTree κ α → List α
  | leaf a => [a]
  | arr items => leavesItems items
  | obj fields => leavesFields fields

def leavesItems : List (JsonTree κ α) → List α
  | [] => []
  | item :: items => item.leaves ++ leavesItems items

def leavesFields : List (κ × JsonTree κ α) → List α
  | [] => []
  | (_, value) :: fields => value.leaves ++ leavesFields fields

end

mutual

def keys : JsonTree κ α → List κ
  | leaf _ => []
  | arr items => keysItems items
  | obj fields => keysFields fields

def keysItems : List (JsonTree κ α) → List κ
  | [] => []
  | item :: items => item.keys ++ keysItems items

def keysFields : List (κ × JsonTree κ α) → List κ
  | [] => []
  | (key, value) :: fields => key :: value.keys ++ keysFields fields

end

mutual

def DistinctKeys : JsonTree κ α → Prop
  | leaf _ => True
  | arr items => DistinctKeysItems items
  | obj fields => (fields.map Prod.fst).Nodup ∧ DistinctKeysFields fields

def DistinctKeysItems : List (JsonTree κ α) → Prop
  | [] => True
  | item :: items => item.DistinctKeys ∧ DistinctKeysItems items

def DistinctKeysFields : List (κ × JsonTree κ α) → Prop
  | [] => True
  | (_, value) :: fields => value.DistinctKeys ∧ DistinctKeysFields fields

end

mutual

theorem leaves_map (f : α → β) : ∀ t : JsonTree κ α, (t.map f).leaves = t.leaves.map f
  | leaf _ => rfl
  | arr items => leavesItems_mapItems f items
  | obj fields => leavesFields_mapFields f fields

theorem leavesItems_mapItems (f : α → β) :
    ∀ items : List (JsonTree κ α), leavesItems (mapItems f items) = (leavesItems items).map f
  | [] => rfl
  | item :: items => by
    simp only [mapItems, leavesItems, List.map_append, leaves_map f item,
      leavesItems_mapItems f items]

theorem leavesFields_mapFields (f : α → β) :
    ∀ fields : List (κ × JsonTree κ α), leavesFields (mapFields f fields) =
      (leavesFields fields).map f
  | [] => rfl
  | (key, value) :: fields => by
    simp only [mapFields, leavesFields, List.map_append, leaves_map f value,
      leavesFields_mapFields f fields]

end

mutual

theorem keys_map (f : α → β) : ∀ t : JsonTree κ α, (t.map f).keys = t.keys
  | leaf _ => rfl
  | arr items => keysItems_mapItems f items
  | obj fields => keysFields_mapFields f fields

theorem keysItems_mapItems (f : α → β) :
    ∀ items : List (JsonTree κ α), keysItems (mapItems f items) = keysItems items
  | [] => rfl
  | item :: items => by
    simp only [mapItems, keysItems, keys_map f item, keysItems_mapItems f items]

theorem keysFields_mapFields (f : α → β) :
    ∀ fields : List (κ × JsonTree κ α), keysFields (mapFields f fields) = keysFields fields
  | [] => rfl
  | (key, value) :: fields => by
    simp only [mapFields, keysFields, keys_map f value, keysFields_mapFields f fields]

end

theorem mapItems_eq (f : α → β) (items : List (JsonTree κ α)) :
    mapItems f items = items.map (map f) := by
  induction items with
  | nil => rfl
  | cons item items ih => rw [mapItems, ih, List.map_cons]

theorem append_subset_append {γ : Type} {l₁ l₂ m₁ m₂ : List γ} (hl : l₁ ⊆ l₂) (hm : m₁ ⊆ m₂) :
    l₁ ++ m₁ ⊆ l₂ ++ m₂ :=
  List.append_subset.mpr
    ⟨List.subset_append_of_subset_left _ hl, List.subset_append_of_subset_right _ hm⟩

theorem leavesItems_map {f g : JsonTree κ α → JsonTree κ α}
    (h : ∀ item, (f item).leaves ⊆ (g item).leaves) (items : List (JsonTree κ α)) :
    leavesItems (items.map f) ⊆ leavesItems (items.map g) := by
  induction items with
  | nil => exact List.Subset.refl _
  | cons item items ih => exact append_subset_append (h item) ih

theorem DistinctKeysItems.mem {items : List (JsonTree κ α)} (h : DistinctKeysItems items) :
    ∀ item ∈ items, item.DistinctKeys := by
  induction items with
  | nil => exact fun item hitem => (List.not_mem_nil hitem).elim
  | cons item items ih =>
    rw [DistinctKeysItems] at h
    exact List.forall_mem_cons.mpr ⟨h.1, ih h.2⟩

theorem DistinctKeysFields.mem {fields : List (κ × JsonTree κ α)} (h : DistinctKeysFields fields) :
    ∀ field ∈ fields, field.2.DistinctKeys := by
  induction fields with
  | nil => exact fun field hfield => (List.not_mem_nil hfield).elim
  | cons field fields ih =>
    rw [DistinctKeysFields] at h
    exact List.forall_mem_cons.mpr ⟨h.1, ih h.2⟩

variable [DecidableEq κ]

def get? (key : κ) : List (κ × JsonTree κ α) → Option (JsonTree κ α)
  | [] => none
  | (k, value) :: fields => if k = key then some value else get? key fields

theorem mem_of_get? {key : κ} {value : JsonTree κ α} {fields : List (κ × JsonTree κ α)}
    (h : get? key fields = some value) : (key, value) ∈ fields := by
  induction fields with
  | nil => cases h
  | cons field fields ih =>
    simp only [get?] at h
    split at h
    case isTrue hkey =>
      cases h
      rw [← hkey]
      exact List.mem_cons_self
    case isFalse => exact List.mem_cons_of_mem _ (ih h)

theorem get?_eq_none {key : κ} {fields : List (κ × JsonTree κ α)} :
    get? key fields = none ↔ key ∉ fields.map Prod.fst := by
  induction fields with
  | nil => simp [get?]
  | cons field fields ih =>
    simp only [get?, List.map_cons, List.mem_cons, not_or]
    split
    case isTrue hkey => simp [hkey]
    case isFalse hkey => simp [ih, Ne.symm hkey]

def set (key : κ) (value : JsonTree κ α) : List (κ × JsonTree κ α) → List (κ × JsonTree κ α)
  | [] => [(key, value)]
  | (k, old) :: fields => if k = key then (k, value) :: fields else (k, old) :: set key value fields

def erase (key : κ) : List (κ × JsonTree κ α) → List (κ × JsonTree κ α)
  | [] => []
  | (k, value) :: fields => if k = key then fields else (k, value) :: erase key fields

attribute [local simp] get? set erase mapFields leavesFields keysFields

theorem get?_mapFields (f : α → β) (key : κ) (fields : List (κ × JsonTree κ α)) :
    get? key (mapFields f fields) = (get? key fields).map (map f) := by
  induction fields with
  | nil => rfl
  | cons field fields ih =>
    simp only [mapFields, get?, ih]
    split <;> rfl

theorem get?_erase_of_ne {key name : κ} (hne : key ≠ name) (fields : List (κ × JsonTree κ α)) :
    get? name (erase key fields) = get? name fields := by
  induction fields with
  | nil => rfl
  | cons field fields ih =>
    simp only [erase]
    split
    case isTrue hkey => rw [get?, if_neg (hkey ▸ hne)]
    case isFalse => simp only [get?, ih]

theorem erase_erase (key name : κ) (fields : List (κ × JsonTree κ α)) :
    erase name (erase key fields) = erase key (erase name fields) := by
  induction fields with
  | nil => rfl
  | cons field fields ih =>
    by_cases hkey : field.1 = key <;> by_cases hname : field.1 = name
    · rw [← hkey, ← hname]
    · simp [erase, hkey, hkey ▸ hname]
    · simp [erase, hname, hname ▸ hkey]
    · simp [erase, hkey, hname, ih]

theorem leavesFields_erase (key : κ) (fields : List (κ × JsonTree κ α)) :
    leavesFields (erase key fields) ⊆ leavesFields fields := by
  induction fields with
  | nil => exact List.Subset.refl _
  | cons field fields ih =>
    simp only [erase]
    split
    · exact List.subset_append_right _ _
    · exact append_subset_append (List.Subset.refl _) ih

theorem keysFields_erase (key : κ) (fields : List (κ × JsonTree κ α)) :
    keysFields (erase key fields) ⊆ keysFields fields := by
  induction fields with
  | nil => exact List.Subset.refl _
  | cons field fields ih =>
    simp only [erase]
    split
    · exact List.subset_append_right _ _
    · exact append_subset_append (List.Subset.refl _) ih

theorem erase_of_notMem {key : κ} {fields : List (κ × JsonTree κ α)} (h : key ∉ keysFields fields) :
    erase key fields = fields := by
  induction fields with
  | nil => rfl
  | cons field fields ih =>
    simp only [keysFields, List.cons_append, List.mem_cons, List.mem_append, not_or] at h
    rw [erase, if_neg (Ne.symm h.1), ih h.2.2]

theorem mapFields_set (f : α → β) (key : κ) (value : JsonTree κ α)
    (fields : List (κ × JsonTree κ α)) :
    mapFields f (set key value fields) = set key (value.map f) (mapFields f fields) := by
  induction fields with
  | nil => rfl
  | cons field fields ih =>
    simp only [mapFields, set]
    split
    · rfl
    · rw [mapFields, ih]

theorem mapFields_erase (f : α → β) (key : κ) (fields : List (κ × JsonTree κ α)) :
    mapFields f (erase key fields) = erase key (mapFields f fields) := by
  induction fields with
  | nil => rfl
  | cons field fields ih =>
    simp only [mapFields, erase]
    split
    · rfl
    · rw [mapFields, ih]

theorem mem_leavesFields_set (key : κ) (value : JsonTree κ α)
    (fields : List (κ × JsonTree κ α)) (a : α) :
    a ∈ leavesFields (set key value fields) ↔ a ∈ value.leaves ∨
      a ∈ leavesFields (erase key fields) := by
  induction fields with
  | nil => simp [set, erase, leavesFields]
  | cons field fields ih =>
    simp only [set, erase]
    split
    · rw [leavesFields, List.mem_append]
    · rw [leavesFields, leavesFields, List.mem_append, List.mem_append, ih, or_left_comm]

theorem keysFields_set {key : κ} {value old : JsonTree κ α} {fields : List (κ × JsonTree κ α)}
    (hold : get? key fields = some old) (hkeys : value.keys = old.keys) :
    keysFields (set key value fields) = keysFields fields := by
  induction fields with
  | nil => cases hold
  | cons field fields ih =>
    simp only [get?] at hold
    simp only [set]
    split at hold
    case isTrue h =>
      rw [if_pos h, keysFields, keysFields, hkeys, Option.some.inj hold]
    case isFalse h =>
      rw [if_neg h, keysFields, keysFields, ih hold]

end JsonTree

section

variable {σ α β : Type}

def mapState (f : σ → α → σ × β) : σ → List α → σ × List β
  | s, [] => (s, [])
  | s, a :: as =>
    let (s, b) := f s a
    let (s, bs) := mapState f s as
    (s, b :: bs)

theorem mapState_forall₂ {f : σ → α → σ × β} {P : σ → Prop} {R : α → β → Prop}
    (hstep : ∀ s a, P s → P (f s a).1 ∧ R a (f s a).2) {s : σ} (hs : P s) (as : List α) :
    P (mapState f s as).1 ∧ List.Forall₂ R as (mapState f s as).2 := by
  induction as generalizing s with
  | nil => exact ⟨hs, .nil⟩
  | cons a as ih =>
    obtain ⟨hs, ha⟩ := hstep s a hs
    obtain ⟨hs, has⟩ := ih hs
    exact ⟨hs, .cons ha has⟩

end

end JevCode.Data
