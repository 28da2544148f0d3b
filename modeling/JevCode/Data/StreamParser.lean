import Mathlib.Data.List.Basic

namespace JevCode.Data

section

variable {σ τ ε α β : Type}

/-- With enough fuel, from every state where `pre` holds of `t` and of `r` behind it, `p` returns `a`
and leaves a state where `post` holds of `r`. -/
def Reads (pre post : σ → List τ → Prop) (p : Nat → StateT σ (Except ε) α) (t r : List τ)
    (a : α) : Prop :=
  ∃ n, ∀ fuel, n ≤ fuel → ∀ s, pre s (t ++ r) → ∃ s', p fuel s = .ok (a, s') ∧ post s' r

variable {pre mid post : σ → List τ → Prop} {p : Nat → StateT σ (Except ε) α} {t u r : List τ}
    {a : α} {b : β}

theorem Reads.intro {m : StateT σ (Except ε) α}
    (h : ∀ s, pre s (t ++ r) → ∃ s', m s = .ok (a, s') ∧ post s' r) :
    Reads pre post (fun _ => m) t r a :=
  ⟨0, fun _ _ s hs => h s hs⟩

theorem Reads.run (pre post : σ → List τ → Prop) {m : StateT σ (Except ε) α}
    (h : Reads pre post (fun _ => m) t r a) {s : σ} (hs : pre s (t ++ r)) :
    ∃ s', m s = .ok (a, s') ∧ post s' r := by
  obtain ⟨n, h⟩ := h
  exact h n (Nat.le_refl n) s hs

theorem Reads.pure (r : List τ) (a : α) :
    Reads pre pre (fun _ => (Pure.pure a : StateT σ (Except ε) α)) [] r a :=
  .intro fun s hs => ⟨s, rfl, hs⟩

theorem Reads.bind {q : Nat → α → StateT σ (Except ε) β} (hp : Reads pre mid p t (u ++ r) a)
    (hq : Reads mid post (fun fuel => q fuel a) u r b) :
    Reads pre post (fun fuel => p fuel >>= q fuel) (t ++ u) r b := by
  obtain ⟨n, hp⟩ := hp
  obtain ⟨n', hq⟩ := hq
  refine ⟨max n n', fun fuel hfuel s hs => ?_⟩
  rw [List.append_assoc] at hs
  obtain ⟨s₁, hp, hs⟩ := hp fuel (by omega) s hs
  obtain ⟨s₂, hq, hs⟩ := hq fuel (by omega) s₁ hs
  refine ⟨s₂, ?_, hs⟩
  change (p fuel s >>= fun x => q fuel x.1 x.2) = _
  rw [hp]
  exact hq

theorem Reads.look {q : Nat → α → StateT σ (Except ε) β} (hp : Reads pre mid p [] (t ++ r) a)
    (hq : Reads mid post (fun fuel => q fuel a) t r b) :
    Reads pre post (fun fuel => p fuel >>= q fuel) t r b :=
  hp.bind hq

theorem Reads.last {q : Nat → α → StateT σ (Except ε) β} (hp : Reads pre mid p t r a)
    (hq : Reads mid post (fun fuel => q fuel a) [] r b) :
    Reads pre post (fun fuel => p fuel >>= q fuel) t r b := by
  rw [← List.append_nil t]
  exact .bind hp hq

theorem Reads.map {f : α → β} (hp : Reads pre post p t r a) :
    Reads pre post (fun fuel => p fuel >>= fun a => Pure.pure (f a)) t r (f a) :=
  hp.last (.pure r (f a))

theorem Reads.succ {q : Nat → StateT σ (Except ε) α} (heq : ∀ fuel, p (fuel + 1) = q fuel)
    (hq : Reads pre post q t r a) : Reads pre post p t r a := by
  obtain ⟨n, hq⟩ := hq
  refine ⟨n + 1, fun fuel hfuel s hs => ?_⟩
  cases fuel with
  | zero => exact absurd hfuel (Nat.not_succ_le_zero n)
  | succ fuel => exact heq fuel ▸ hq fuel (Nat.le_of_succ_le_succ hfuel) s hs

end

end JevCode.Data
