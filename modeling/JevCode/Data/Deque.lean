import Mathlib.Data.List.Basic

namespace JevCode.Data

structure Deque (α : Type) where
  items : List (Option α)
  head : Nat
  head_le : head ≤ items.length
  live : ∀ x ∈ items.drop head, x.isSome = true

namespace Deque

variable {α : Type}

theorem empty_head_le : 0 ≤ ([] : List (Option α)).length := Nat.le_refl 0

def empty : Deque α := ⟨[], 0, empty_head_le, by simp⟩

def length (q : Deque α) : Nat := q.items.length - q.head

def toList (q : Deque α) : List α := (q.items.drop q.head).filterMap id

def enqueue (q : Deque α) (a : α) : Deque α where
  items := q.items ++ [some a]
  head := q.head
  head_le := by
    rw [List.length_append]
    exact Nat.le_add_right_of_le q.head_le
  live := by
    rw [List.drop_append_of_le_length q.head_le]
    intro x hx
    rcases List.mem_append.mp hx with h | h
    · exact q.live x h
    · rw [List.mem_singleton.mp h]
      rfl

/-- The holes are cut off when there are more than `limit` of them and they are at least half of the
array. -/
def compact (limit : Nat) (q : Deque α) : Deque α :=
  if limit < q.head ∧ q.items.length ≤ q.head * 2
    then ⟨q.items.drop q.head, 0, Nat.zero_le _, q.live⟩ else q

theorem drop_set_succ (l : List (Option α)) (i : Nat) (x : Option α) :
    (l.set i x).drop (i + 1) = l.drop (i + 1) := by
  rw [List.drop_set_of_lt (Nat.lt_succ_self i)]

def advance (q : Deque α) (h : q.head < q.items.length) : Deque α where
  items := q.items.set q.head none
  head := q.head + 1
  head_le := by
    rw [List.length_set]
    exact h
  live x hx := by
    rw [drop_set_succ] at hx
    exact q.live x (List.drop_subset_drop_left _ (Nat.le_succ _) hx)

def dequeue (limit : Nat) (q : Deque α) : Option (α × Deque α) :=
  if h : q.head < q.items.length then (q.items.get ⟨q.head, h⟩).map fun a =>
    (a, (q.advance h).compact limit) else none

@[simp] theorem toList_empty : (empty : Deque α).toList = [] := rfl

@[simp] theorem toList_enqueue (q : Deque α) (a : α) : (q.enqueue a).toList = q.toList ++ [a] := by
  rw [toList, enqueue, List.drop_append_of_le_length q.head_le, List.filterMap_append]
  rfl

@[simp] theorem toList_compact (limit : Nat) (q : Deque α) :
    (q.compact limit).toList = q.toList := by
  unfold compact
  split <;> rfl

theorem length_filterMap_id {l : List (Option α)} (h : ∀ x ∈ l, x.isSome = true) :
    (l.filterMap id).length = l.length := by
  induction l with
  | nil => rfl
  | cons x l ih =>
    obtain ⟨a, rfl⟩ := Option.isSome_iff_exists.mp (h x List.mem_cons_self)
    have ih := ih fun y hy => h y (List.mem_cons_of_mem _ hy)
    simpa using ih

theorem length_eq (q : Deque α) : q.length = q.toList.length := by
  rw [toList, length_filterMap_id q.live, List.length_drop]
  rfl

theorem dequeue_spec (limit : Nat) (q : Deque α) :
    (q.toList = [] ∧ q.dequeue limit = none) ∨
      ∃ a rest, q.toList = a :: rest.toList ∧ q.dequeue limit = some (a, rest) := by
  unfold dequeue
  by_cases h : q.head < q.items.length
  · have hdrop : q.items.drop q.head = q.items.get ⟨q.head, h⟩ :: q.items.drop (q.head + 1) :=
      List.drop_eq_getElem_cons h
    obtain ⟨a, ha⟩ :=
      Option.isSome_iff_exists.mp
        (q.live (q.items.get ⟨q.head, h⟩) (by rw [hdrop]; exact List.mem_cons_self))
    refine .inr ⟨a, (q.advance h).compact limit, ?_, ?_⟩
    · rw [toList_compact, toList, hdrop, ha]
      exact congrArg (fun l => a :: l.filterMap id) (drop_set_succ q.items q.head none).symm
    · rw [dif_pos h, ha, Option.map_some]
  · refine .inl ⟨?_, dif_neg h⟩
    rw [toList, List.drop_of_length_le (Nat.not_lt.mp h)]
    rfl

end Deque

end JevCode.Data
