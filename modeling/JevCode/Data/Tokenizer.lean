import Mathlib.Data.List.Basic

namespace JevCode.Data

variable {α : Type}

/-- Takes one token off the front of the input. The answer `none` means that the input may be the
beginning of a longer token; a token that was found stays the same however the input goes on. -/
structure Tokenizer (α : Type) where
  next : List α → Option (List α × List α)
  split : ∀ {xs token rest}, next xs = some (token, rest) → token ≠ [] ∧ xs = token ++ rest
  stable : ∀ {xs token rest}, next xs = some (token, rest) →
    ∀ ys, next (xs ++ ys) = some (token, rest ++ ys)

namespace Tokenizer

variable (T : Tokenizer α)

theorem length_rest_lt {xs token rest : List α} (h : T.next xs = some (token, rest)) :
    rest.length < xs.length := by
  obtain ⟨hne, rfl⟩ := T.split h
  rw [List.length_append]
  have := List.length_pos_iff.mpr hne
  omega

def run (xs : List α) : List (List α) × List α :=
  match _h : T.next xs with
  | none => ([], xs)
  | some (token, rest) => (token :: (run rest).1, (run rest).2)
termination_by xs.length
decreasing_by all_goals exact T.length_rest_lt (by assumption)

theorem run_of_none {xs : List α} (h : T.next xs = none) : T.run xs = ([], xs) := by
  rw [run]
  split
  next => rfl
  next h' => cases h.symm.trans h'

theorem run_of_some {xs token rest : List α} (h : T.next xs = some (token, rest)) :
    T.run xs = (token :: (T.run rest).1, (T.run rest).2) := by
  rw [run]
  split
  next h' => cases h.symm.trans h'
  next h' =>
    cases h.symm.trans h'
    rfl

theorem induction {P : List α → Prop} (none : ∀ xs, T.next xs = none → P xs)
    (some : ∀ xs token rest, T.next xs = some (token, rest) → P rest → P xs)
    (xs : List α) : P xs := by
  induction hn : xs.length using Nat.strongRecOn generalizing xs with
  | ind n ih =>
    cases h : T.next xs with
    | none => exact none xs h
    | some found => exact some xs found.1 found.2 h (ih _ (hn ▸ T.length_rest_lt h) _ rfl)

theorem next_run (xs : List α) : T.next (T.run xs).2 = none := by
  induction xs using T.induction with
  | none xs h => rwa [T.run_of_none h]
  | some xs token rest h ih => rwa [T.run_of_some h]

theorem flatten_run (xs : List α) : (T.run xs).1.flatten ++ (T.run xs).2 = xs := by
  induction xs using T.induction with
  | none xs h => rw [T.run_of_none h, List.flatten_nil, List.nil_append]
  | some xs token rest h ih =>
    rw [T.run_of_some h, List.flatten_cons, List.append_assoc, ih, (T.split h).2]

theorem run_append (xs ys : List α) :
    T.run (xs ++ ys) = ((T.run xs).1 ++ (T.run ((T.run xs).2 ++ ys)).1,
      (T.run ((T.run xs).2 ++ ys)).2) := by
  induction xs using T.induction with
  | none xs h => rw [T.run_of_none h, List.nil_append]
  | some xs token rest h ih =>
    rw [T.run_of_some h, T.run_of_some (T.stable h ys), ih, List.cons_append]

theorem exists_next_of_mem_run {xs token : List α} (h : token ∈ (T.run xs).1) :
    ∃ ys rest, T.next ys = some (token, rest) := by
  induction xs using T.induction with
  | none xs hnext =>
    rw [T.run_of_none hnext] at h
    cases h
  | some xs token' rest hnext ih =>
    rw [T.run_of_some hnext] at h
    obtain rfl | h := List.mem_cons.mp h
    · exact ⟨xs, rest, hnext⟩
    · exact ih h

end Tokenizer

end JevCode.Data
