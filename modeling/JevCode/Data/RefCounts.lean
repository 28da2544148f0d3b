import Mathlib.Data.List.Count
import Mathlib.Logic.Function.Basic

namespace JevCode.Data

variable {κ : Type} [DecidableEq κ]

def retain (refs : κ → Nat) (k : κ) : κ → Nat := Function.update refs k (refs k + 1)

def retainAll (refs : κ → Nat) (ks : List κ) : κ → Nat := ks.foldl retain refs

def release (refs : κ → Nat) (k : κ) : κ → Nat := Function.update refs k (refs k - 1)

def releaseAll (refs : κ → Nat) : List κ → (κ → Nat) × List κ
  | [] => (refs, [])
  | k :: ks =>
    let after := releaseAll (release refs k) ks
    (after.1, if release refs k k = 0 then k :: after.2 else after.2)

theorem releaseAll_append (refs : κ → Nat) (ks ks' : List κ) : releaseAll refs (ks ++ ks') =
    ((releaseAll (releaseAll refs ks).1 ks').1,
      (releaseAll refs ks).2 ++ (releaseAll (releaseAll refs ks).1 ks').2) := by
  induction ks generalizing refs with
  | nil => rfl
  | cons k ks ih =>
    simp only [List.cons_append, releaseAll, ih]
    split <;> rfl

def Counts (refs : κ → Nat) (held : List κ) : Prop := ∀ k, refs k = held.count k

theorem Counts.pos_iff {refs : κ → Nat} {held : List κ} (h : Counts refs held) {k : κ} :
    0 < refs k ↔ k ∈ held := by
  rw [h k, List.count_pos_iff]

theorem Counts.perm {refs : κ → Nat} {held held' : List κ} (h : Counts refs held)
    (hperm : held.Perm held') : Counts refs held' :=
  fun k => (h k).trans (hperm.count_eq k)

theorem counts_retain {refs : κ → Nat} {held : List κ} (h : Counts refs held) (k : κ) :
    Counts (retain refs k) (k :: held) := by
  intro k'
  by_cases hk : k' = k
  · simp [hk, retain, h k]
  · simp [retain, hk, h k', List.count_cons_of_ne (Ne.symm hk)]

theorem counts_retainAll {refs : κ → Nat} {held : List κ} (h : Counts refs held) (ks : List κ) :
    Counts (retainAll refs ks) (ks ++ held) := by
  induction ks generalizing refs held with
  | nil => exact h
  | cons k ks ih => exact (ih (counts_retain h k)).perm List.perm_middle

theorem counts_release {refs : κ → Nat} {held : List κ} {k : κ} (h : Counts refs (k :: held)) :
    Counts (release refs k) held := by
  intro k'
  by_cases hk : k' = k
  · simp [hk, release, h k]
  · simp [release, hk, h k', List.count_cons_of_ne (Ne.symm hk)]

theorem counts_releaseAll {refs : κ → Nat} {held ks : List κ} (h : Counts refs (ks ++ held)) :
    Counts (releaseAll refs ks).1 held := by
  induction ks generalizing refs with
  | nil => exact h
  | cons k ks ih => exact ih (counts_release h)

theorem not_held_of_gone {refs : κ → Nat} {held ks : List κ} (h : Counts refs (ks ++ held)) {k : κ}
    (hk : k ∈ (releaseAll refs ks).2) : k ∈ ks ∧ k ∉ held := by
  induction ks generalizing refs with
  | nil => cases hk
  | cons k' ks ih =>
    have ih := ih (counts_release h)
    simp only [releaseAll] at hk
    split at hk
    case isFalse => exact ⟨List.mem_cons_of_mem k' (ih hk).1, (ih hk).2⟩
    case isTrue hzero =>
      cases hk with
      | tail _ hk => exact ⟨List.mem_cons_of_mem k' (ih hk).1, (ih hk).2⟩
      | head =>
        refine ⟨List.mem_cons_self, fun hheld => ?_⟩
        rw [counts_release h k, List.count_eq_zero] at hzero
        exact hzero (List.mem_append_right ks hheld)

end JevCode.Data
