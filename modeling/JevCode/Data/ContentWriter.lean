import Mathlib.Data.List.Basic

namespace JevCode.Data

section

variable {σ β ε α γ : Type} (valid : σ → Prop) (content : σ → List β)

/-- From every valid state whose content has `pre`, `m` returns, leaves a valid state, has appended
`t` to the content, and `post` holds of the content and what was returned. -/
def Writes (pre : List β → Prop) (m : StateT σ (Except ε) α) (t : List β)
    (post : List β → α → Prop) : Prop :=
  ∀ s, valid s → pre (content s) →
    ∃ a s', m s = .ok (a, s') ∧ valid s' ∧ content s' = content s ++ t ∧ post (content s') a

variable {valid content} {pre : List β → Prop} {post : List β → α → Prop} {m : StateT σ (Except ε) α}
    {t u : List β}

theorem Writes.pure (a : α) (h : ∀ c, pre c → post c a) :
    Writes valid content pre (Pure.pure a : StateT σ (Except ε) α) [] post :=
  fun s hs hpre => ⟨a, s, rfl, hs, (List.append_nil _).symm, h _ hpre⟩

theorem Writes.bind {k : α → StateT σ (Except ε) γ} {final : List β → γ → Prop}
    (hm : Writes valid content pre m t post)
    (hk : ∀ a, Writes valid content (fun c => post c a) (k a) u final) :
    Writes valid content pre (m >>= k) (t ++ u) final := by
  intro s hs hpre
  obtain ⟨a, s₁, hm, hs, hcontent, hpost⟩ := hm s hs hpre
  obtain ⟨b, s₂, hk, hs, hmore, hfinal⟩ := hk a s₁ hs hpost
  refine ⟨b, s₂, ?_, hs, by rw [hmore, hcontent, List.append_assoc], hfinal⟩
  change (m s >>= fun x => k x.1 x.2) = _
  rw [hm]
  exact hk

theorem Writes.last {k : α → StateT σ (Except ε) γ} {final : List β → γ → Prop}
    (hm : Writes valid content pre m t post)
    (hk : ∀ a, Writes valid content (fun c => post c a) (k a) [] final) :
    Writes valid content pre (m >>= k) t final := by
  rw [← List.append_nil t]
  exact hm.bind hk

theorem Writes.assume {p : Prop} (h : p → Writes valid content (fun _ => True) m t post) :
    Writes valid content (fun _ => p) m t post :=
  fun s hs hp => h hp s hs trivial

theorem Writes.frame {r : List β → Prop} (hm : Writes valid content (fun _ => True) m t post)
    (hr : ∀ c x, r c → r (c ++ x)) : Writes valid content r m t (fun c a => post c a ∧ r c) := by
  intro s hs h
  obtain ⟨a, s', hm, hs, hcontent, hpost⟩ := hm s hs trivial
  exact ⟨a, s', hm, hs, hcontent, hpost, hcontent ▸ hr _ t h⟩

theorem Writes.keep {k : α → StateT σ (Except ε) γ} {p : α → Prop} {r : List β → Prop}
    {final : List β → γ → Prop} (hm : Writes valid content (fun _ => True) m t (fun _ a => p a))
    (hr : ∀ c x, r c → r (c ++ x)) (hk : ∀ a, p a → Writes valid content r (k a) u final) :
    Writes valid content r (m >>= k) (t ++ u) final :=
  (hm.frame hr).bind fun a s hs h => hk a h.1 s hs h.2

theorem Writes.weaken {pre' : List β → Prop} {post' : List β → α → Prop}
    (hm : Writes valid content pre m t post) (hpre : ∀ c, pre' c → pre c)
    (hpost : ∀ c a, post c a → post' c a) : Writes valid content pre' m t post' := by
  intro s hs h
  obtain ⟨a, s', hm, hs, hcontent, h⟩ := hm s hs (hpre _ h)
  exact ⟨a, s', hm, hs, hcontent, hpost _ a h⟩

theorem Writes.bind_error {k : α → StateT σ (Except ε) γ} {e : ε}
    (hm : Writes valid content pre m t post) (hk : ∀ a s, valid s → k a s = .error e) {s : σ}
    (hs : valid s) (hpre : pre (content s)) :
    (m >>= k) s = .error e := by
  obtain ⟨a, s', hm, hs, -⟩ := hm s hs hpre
  change (m s >>= fun x => k x.1 x.2) = _
  rw [hm]
  exact hk a s' hs

theorem bind_of_error {k : α → StateT σ (Except ε) γ} {e : ε} {s : σ} (h : m s = .error e) :
    (m >>= k) s = .error e := by
  change (m s >>= fun x => k x.1 x.2) = _
  rw [h]
  rfl

end

end JevCode.Data
