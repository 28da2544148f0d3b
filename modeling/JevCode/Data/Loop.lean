import Mathlib.Data.Option.Basic
import Mathlib.Order.WellFounded

namespace JevCode.Data

variable {σ τ : Type}

/-- The state a loop breaks in, by a round that gives `none`; `none` if it has not after `fuel`
rounds. -/
def runLoop (step : σ → Option σ) : Nat → σ → Option σ
  | 0, _ => none
  | fuel + 1, s =>
    match step s with
    | none => some s
    | some s' => runLoop step fuel s'

inductive LoopReaches (step : σ → Option σ) (init : σ) : σ → Prop
  | refl : LoopReaches step init init
  | tail {s s' : σ} : LoopReaches step init s → step s = some s' → LoopReaches step init s'

section

variable {step : σ → Option σ} {s : σ}

theorem runLoop_of_some {s' : σ} (h : step s = some s') (fuel : Nat) :
    runLoop step (fuel + 1) s = runLoop step fuel s' := by
  rw [runLoop, h]

theorem runLoop_of_none (h : step s = none) (fuel : Nat) : runLoop step (fuel + 1) s = some s := by
  rw [runLoop, h]

theorem LoopReaches.head {s' t : σ} (hstep : step s = some s') (h : LoopReaches step s' t) :
    LoopReaches step s t := by
  induction h with
  | refl => exact .tail .refl hstep
  | tail _ hnext ih => exact .tail ih hnext

theorem exists_runLoop {r : σ → σ → Prop} (wf : WellFounded r)
    (h : ∀ t t', LoopReaches step s t → step t = some t' → r t' t) :
    ∃ fuel final, runLoop step fuel s = some final := by
  induction s using wf.induction with
  | _ s ih =>
    cases hstep : step s with
    | none => exact ⟨1, s, runLoop_of_none hstep 0⟩
    | some s' =>
      obtain ⟨fuel, final, hrun⟩ := ih s' (h s s' .refl hstep) fun t t' ht => h t t' (ht.head hstep)
      exact ⟨fuel + 1, final, by rw [runLoop_of_some hstep, hrun]⟩

theorem runLoop_of_period {s' : σ} (h : step s = some s') (h' : step s' = some s) (fuel : Nat) :
    runLoop step fuel s = none ∧ runLoop step fuel s' = none := by
  induction fuel with
  | zero => exact ⟨rfl, rfl⟩
  | succ fuel ih => rw [runLoop_of_some h, runLoop_of_some h']; exact ih.symm

theorem runLoop_map {step' : τ → Option τ} (f : τ → σ) (h : ∀ t, step (f t) = (step' t).map f)
    (fuel : Nat) (t : τ) :
    runLoop step fuel (f t) = (runLoop step' fuel t).map f := by
  induction fuel generalizing t with
  | zero => rfl
  | succ fuel ih =>
    cases hstep : step' t with
    | none =>
      have hbreak : step (f t) = none := by rw [h, hstep]; rfl
      rw [runLoop_of_none hbreak, runLoop_of_none hstep]
      rfl
    | some t' =>
      have hnext : step (f t) = some (f t') := by rw [h, hstep]; rfl
      rw [runLoop_of_some hnext, runLoop_of_some hstep, ih]

end

section Items

variable {α : Type} {f : σ → α × Nat → σ} {P : Nat → σ → Prop}

theorem foldl_zipIdx_from {items rest : List α} {n : Nat} {s : σ}
    (hrest : ∀ k, items[n + k]? = rest[k]?)
    (hstep : ∀ n a s, items[n]? = some a → P n s → P (n + 1) (f s (a, n))) (h : P n s) :
    P (n + rest.length) ((rest.zipIdx n).foldl f s) := by
  induction rest generalizing n s with
  | nil => exact h
  | cons a rest ih =>
    have hnext := ih (fun k => by
      have := hrest (k + 1)
      rwa [List.getElem?_cons_succ, show n + (k + 1) = n + 1 + k by omega] at this)
        (hstep n a s (hrest 0) h)
    rwa [List.length_cons, show n + (rest.length + 1) = n + 1 + rest.length by omega]

theorem foldl_zipIdx {items : List α} {s : σ} (hstart : P 0 s)
    (hstep : ∀ n a s, items[n]? = some a → P n s → P (n + 1) (f s (a, n))) :
    P items.length (items.zipIdx.foldl f s) := by
  have h := foldl_zipIdx_from (fun k => congrArg (items[·]?) (Nat.zero_add k)) hstep hstart
  rwa [Nat.zero_add] at h

end Items

end JevCode.Data
