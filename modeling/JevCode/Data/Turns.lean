import Mathlib.Data.List.Basic
import Mathlib.Data.List.Nodup

namespace JevCode.Data

variable {σ α : Type}

structure Turn (σ α : Type) where
  granted : Option α
  after : σ

/-- Whoever waits from one grant of a client to the client's next one is served in between. -/
def Fair (queued : σ → α → Prop) (turns : List (Turn σ α)) : Prop :=
  ∀ before first between second later, turns = before ++ first :: (between ++ second :: later) →
    ∀ a, first.granted = some a → second.granted = some a → (∀ t ∈ between, t.granted ≠ some a) →
      ∀ b, b ≠ a → (∀ t ∈ first :: between, queued t.after b) → ∃ t ∈ between, t.granted = some b

def Linked (R : σ → Turn σ α → Prop) : σ → List (Turn σ α) → Prop
  | _, [] => True
  | s, t :: turns => R s t ∧ Linked R t.after turns

structure Advances (queued : σ → α → Prop) (waits : σ → α → α → Prop) (s : σ)
    (t : Turn σ α) : Prop where
  kept : ∀ b a, waits s b a → queued t.after b → t.granted ≠ some b → waits t.after b a
  behind : ∀ a b, t.granted = some a → queued t.after b → b ≠ a → waits t.after b a
  first : ∀ a b, t.granted = some a → ¬waits s b a

theorem Linked.append {R : σ → Turn σ α → Prop} {s s' : σ} {xs ys : List (Turn σ α)}
    (hxs : Linked R s xs) (hlast : (xs.getLast?.map Turn.after).getD s = s') (hys : Linked R s' ys) :
    Linked R s (xs ++ ys) := by
  induction xs generalizing s with
  | nil =>
    cases hlast
    exact hys
  | cons x xs ih =>
    refine ⟨hxs.1, ih hxs.2 ?_⟩
    rw [← hlast, List.getLast?_cons]
    cases xs.getLast? <;> rfl

theorem Linked.of_append {R : σ → Turn σ α → Prop} {s : σ} {xs ys : List (Turn σ α)}
    (h : Linked R s (xs ++ ys)) :
    ∃ s', Linked R s' ys := by
  induction xs generalizing s with
  | nil => exact ⟨s, h⟩
  | cons x xs ih => exact ih h.2

section

variable {queued : σ → α → Prop} {waits : σ → α → α → Prop}

theorem granted_of_waits {s : σ} {a b : α} {between later : List (Turn σ α)} {second : Turn σ α}
    (h : Linked (Advances queued waits) s (between ++ second :: later)) (hwaits : waits s b a)
    (hsecond : second.granted = some a) (hqueued : ∀ t ∈ between, queued t.after b) :
    ∃ t ∈ between, t.granted = some b := by
  induction between generalizing s with
  | nil => exact absurd hwaits (h.1.first a b hsecond)
  | cons t between ih =>
    by_cases hb : t.granted = some b
    · exact ⟨t, List.mem_cons_self, hb⟩
    · have hkept := h.1.kept b a hwaits (hqueued t List.mem_cons_self) hb
      obtain ⟨t', ht', hgranted⟩ := ih h.2 hkept fun t ht => hqueued t (List.mem_cons_of_mem _ ht)
      exact ⟨t', List.mem_cons_of_mem _ ht', hgranted⟩

theorem fair_of_linked {s : σ} {turns : List (Turn σ α)}
    (h : Linked (Advances queued waits) s turns) :
    Fair queued turns := by
  rintro before first between second later rfl a hfirst hsecond - b hne hqueued
  obtain ⟨s', hadvances, hrest⟩ := h.of_append
  refine granted_of_waits hrest ?_ hsecond fun t ht => hqueued t (List.mem_cons_of_mem _ ht)
  exact hadvances.behind a b hfirst (hqueued first List.mem_cons_self) hne

theorem not_fair_of_twice {turns : List (Turn σ α)} {a b : α} (i : Nat) (hi : i + 1 < turns.length)
    (hfirst : turns[i].granted = some a) (hsecond : turns[i + 1].granted = some a) (hne : b ≠ a)
    (hqueued : queued turns[i].after b) : ¬Fair queued turns := by
  intro h
  have hsplit : turns = turns.take i ++ turns[i] :: ([] ++ turns[i + 1] :: turns.drop (i + 2)) := by
    rw [List.nil_append, ← List.drop_eq_getElem_cons hi, ← List.drop_eq_getElem_cons,
      List.take_append_drop]
  obtain ⟨t, ht, _⟩ := h _ _ _ _ _ hsplit a hfirst hsecond (by simp) b hne (by simpa using hqueued)
  cases ht

end

/-- The turn of `b` comes before that of `a` in a round in which the clients of `had` had theirs,
those of `left` wait for it, and clients that are on neither list come last. -/
def TurnBefore (had left : List α) (b a : α) : Prop :=
  (b ∈ left ∧ (a ∈ left → [b, a].Sublist left)) ∨ [b, a].Sublist had

section

variable {had left left' : List α} {a b c : α}

theorem sublist_of_cons_of_ne (h : [b, a].Sublist (c :: left)) (hne : b ≠ c) :
    [b, a].Sublist left := by
  cases h with
  | cons _ h => exact h
  | cons_cons _ h => exact absurd rfl hne

theorem sublist_of_sublist (hnodup : left.Nodup) (hsub : left'.Sublist left) (hb : b ∈ left')
    (ha : a ∈ left') (h : [b, a].Sublist left) : [b, a].Sublist left' := by
  have hne : b ≠ a := by
    have := h.nodup hnodup
    simpa using this
  induction hsub with
  | slnil => exact h
  | cons c hsub ih =>
    have hbc : b ≠ c := by
      rintro rfl
      exact (List.nodup_cons.mp hnodup).1 (hsub.subset hb)
    exact ih (List.nodup_cons.mp hnodup).2 hb ha (sublist_of_cons_of_ne h hbc)
  | cons_cons c hsub ih =>
    obtain ⟨hc, hnodup⟩ := List.nodup_cons.mp hnodup
    by_cases hbc : b = c
    · subst hbc
      have ha := (List.mem_cons.mp ha).resolve_left hne.symm
      exact (List.singleton_sublist.mpr ha).cons_cons b
    · replace h := sublist_of_cons_of_ne h hbc
      have hac : a ≠ c := by
        rintro rfl
        have ha : a ∈ [b, a] := by simp
        exact hc (h.subset ha)
      exact (ih hnodup ((List.mem_cons.mp hb).resolve_left hbc)
        ((List.mem_cons.mp ha).resolve_left hac) h).cons c

theorem TurnBefore.wrap (h : TurnBefore had [] b a) : TurnBefore [] had b a := by
  obtain ⟨hb, _⟩ | h := h
  · cases hb
  · exact .inl ⟨h.subset (by simp), fun _ => h⟩

theorem TurnBefore.join (h : TurnBefore had left b a) : TurnBefore had (left ++ [c]) b a := by
  obtain ⟨hb, ha⟩ | h := h
  · refine .inl ⟨List.mem_append_left _ hb, fun hmem => ?_⟩
    by_cases hleft : a ∈ left
    · exact (ha hleft).trans (List.sublist_append_left ..)
    · have hac : a = c := by simpa [hleft] using hmem
      subst hac
      exact (List.singleton_sublist.mpr hb).append (.refl [a])
  · exact .inr h

theorem TurnBefore.leave (h : TurnBefore had left b a) (hnodup : (had ++ left).Nodup)
    (hsub : left'.Sublist left) (hb : b ∈ had ++ left') : TurnBefore had left' b a := by
  obtain ⟨hleft, ha⟩ | h := h
  · have hhad : b ∉ had := fun hhad => (List.disjoint_of_nodup_append hnodup) hhad hleft
    have hb := (List.mem_append.mp hb).resolve_left hhad
    exact .inl ⟨hb, fun ha' => sublist_of_sublist hnodup.of_append_right hsub hb ha'
      (ha (hsub.subset ha'))⟩
  · exact .inr h

theorem TurnBefore.serve (h : TurnBefore had (c :: left) b a) (hne : b ≠ c) :
    TurnBefore (had ++ [c]) left b a := by
  obtain ⟨hb, ha⟩ | h := h
  · refine .inl ⟨(List.mem_cons.mp hb).resolve_left hne, fun hleft => ?_⟩
    exact sublist_of_cons_of_ne (ha (List.mem_cons_of_mem c hleft)) hne
  · exact .inr (h.trans (List.sublist_append_left ..))

theorem turnBefore_served (hc : c ∉ left) (hb : b ∈ had ++ left) :
    TurnBefore (had ++ [c]) left b c := by
  obtain hb | hb := List.mem_append.mp hb
  · exact .inr ((List.singleton_sublist.mpr hb).append (.refl [c]))
  · exact .inl ⟨hb, fun hmem => absurd hmem hc⟩

theorem not_turnBefore_next (hnodup : (had ++ c :: left).Nodup) :
    ¬TurnBefore had (c :: left) b c := by
  have hc := (List.nodup_cons.mp hnodup.of_append_right).1
  rintro (⟨_, h⟩ | h)
  · have hbc := h List.mem_cons_self
    by_cases hne : b = c
    · subst hne
      have := hbc.nodup hnodup.of_append_right
      simp at this
    · exact hc ((sublist_of_cons_of_ne hbc hne).subset (by simp))
  · exact List.disjoint_of_nodup_append hnodup (h.subset (by simp)) List.mem_cons_self

end

/-- The clients `xs` take turns, and a cursor has come to the place `k`: the turn of `b` comes before
that of `a`. -/
def WaitsAt (xs : List α) (k : Nat) (b a : α) : Prop :=
  k ≤ xs.length ∧ TurnBefore (xs.take k) (xs.drop k) b a

section

variable {xs ys : List α} {k : Nat} {a b c : α}

theorem WaitsAt.join (h : WaitsAt xs k b a) : WaitsAt (xs ++ [c]) k b a := by
  refine ⟨Nat.le_trans h.1 (by simp), ?_⟩
  rw [List.take_append_of_le_length h.1, List.drop_append_of_le_length h.1]
  exact h.2.join

theorem WaitsAt.leave (h : WaitsAt xs k b a) (hnodup : xs.Nodup) (hkept : xs.take k <+: ys)
    (hsub : (ys.drop k).Sublist (xs.drop k)) (hb : b ∈ ys) : WaitsAt ys k b a := by
  have hlength : (xs.take k).length = k := List.length_take_of_le h.1
  have htake : ys.take k = xs.take k := by
    have := List.prefix_iff_eq_take.mp hkept
    rw [hlength] at this
    exact this.symm
  refine ⟨hlength ▸ hkept.length_le, ?_⟩
  rw [htake]
  refine h.2.leave (by rwa [List.take_append_drop]) hsub ?_
  rwa [← htake, List.take_append_drop]

theorem WaitsAt.turnBefore (h : WaitsAt xs k b a) :
    TurnBefore (xs.take (k % xs.length)) (xs.drop (k % xs.length)) b a := by
  obtain ⟨hle, h⟩ := h
  obtain hlt | rfl := Nat.lt_or_eq_of_le hle
  · rwa [Nat.mod_eq_of_lt hlt]
  · rw [Nat.mod_self]
    rw [List.take_length, List.drop_length] at h
    exact h.wrap

variable {c : Nat} {served : α}

theorem not_waitsAt_next (hnodup : xs.Nodup) (hnext : xs[k % xs.length]? = some served) :
    ¬WaitsAt xs k b served := by
  intro h
  obtain ⟨hlt, rfl⟩ := List.getElem?_eq_some_iff.mp hnext
  have := h.turnBefore
  rw [List.drop_eq_getElem_cons hlt] at this
  refine not_turnBefore_next ?_ this
  rwa [← List.drop_eq_getElem_cons hlt, List.take_append_drop]

theorem succ_mod_of_lt (hc : k % xs.length + 1 < xs.length) :
    (k + 1) % xs.length = k % xs.length + 1 := by
  rw [Nat.add_mod, Nat.mod_eq_of_lt (by omega : 1 < xs.length), Nat.mod_eq_of_lt hc]

theorem succ_mod_of_eq (hc : k % xs.length + 1 = xs.length) : (k + 1) % xs.length = 0 := by
  rw [← Nat.mod_add_mod, hc, Nat.mod_self]

def ServesInTurn (xs : List α) (k : Nat) (ys : List α) : Prop :=
  (k % xs.length + 1 < xs.length ∧ ys = xs) ∨ (k % xs.length + 1 = xs.length ∧ ys.Sublist xs)

theorem turnBefore_of_served (hnext : xs[k % xs.length]? = some served) (hnodup : xs.Nodup)
    (h : a = served ∨ WaitsAt xs k b a) (hb : b ∈ xs) (hne : b ≠ served) :
    TurnBefore (xs.take (k % xs.length) ++ [served]) (xs.drop (k % xs.length + 1)) b a := by
  obtain ⟨hlt, rfl⟩ := List.getElem?_eq_some_iff.mp hnext
  obtain rfl | h := h
  · refine turnBefore_served ?_ ?_
    · have := hnodup.sublist (List.drop_sublist (k % xs.length) xs)
      rw [List.drop_eq_getElem_cons hlt] at this
      exact (List.nodup_cons.mp this).1
    · have hmem := hb
      rw [← List.take_append_drop (k % xs.length) xs, List.drop_eq_getElem_cons hlt, List.mem_append,
        List.mem_cons] at hmem
      rw [List.mem_append]
      exact hmem.imp_right fun h => h.resolve_left hne
  · have := h.turnBefore
    rw [List.drop_eq_getElem_cons hlt] at this
    exact this.serve hne

theorem waitsAt_of_served {ys : List α} (hserves : ServesInTurn xs k ys)
    (hnext : xs[k % xs.length]? = some served) (hnodup : xs.Nodup)
    (h : a = served ∨ WaitsAt xs k b a) (hb : b ∈ ys) (hne : b ≠ served) :
    WaitsAt ys ((k + 1) % xs.length) b a := by
  obtain ⟨hlt, rfl⟩ | ⟨hlast, hsub⟩ := hserves
  · rw [succ_mod_of_lt hlt]
    refine ⟨Nat.le_of_lt hlt, ?_⟩
    have := turnBefore_of_served hnext hnodup h hb hne
    rwa [List.take_add_one, hnext]
  · rw [succ_mod_of_eq hlast]
    have := turnBefore_of_served hnext hnodup h (hsub.subset hb) hne
    rw [hlast, List.drop_length] at this
    have hall : xs.take (k % xs.length) ++ [served] = xs := by
      have := List.take_add_one (i := k % xs.length) (l := xs)
      rw [hnext, hlast, List.take_length] at this
      exact this.symm
    rw [hall] at this
    exact ⟨Nat.zero_le _, this.wrap.leave (by simpa using hnodup) hsub (by simpa using hb)⟩

end

section

variable [DecidableEq α] {xs ys : List α} {x : α}

theorem foldl_firsts (xs seen : List α) :
    xs.foldl (fun seen x => if x ∈ seen then seen else seen ++ [x]) seen = seen ++
      (xs.removeAll seen).eraseDups := by
  induction xs generalizing seen with
  | nil => simp
  | cons x xs ih =>
    rw [List.foldl_cons, ih]
    by_cases hx : x ∈ seen
    · simp [hx, List.cons_removeAll]
    · rw [if_neg hx, List.cons_removeAll, if_pos (by simpa using hx), List.eraseDups_cons]
      simp only [List.append_assoc, List.singleton_append]
      congr 3
      simp [List.removeAll, List.filter_filter, Bool.and_comm, beq_eq_decide]

theorem nodup_eraseDups (xs : List α) : xs.eraseDups.Nodup := by
  induction h : xs.length using Nat.strongRecOn generalizing xs with
  | ind n ih =>
    cases xs with
    | nil => simp
    | cons x xs =>
      rw [List.eraseDups_cons]
      refine List.nodup_cons.mpr ⟨by simp [List.mem_eraseDups], ih _ ?_ _ rfl⟩
      have := List.length_filter_le (fun b => !b == x) xs
      simp only [List.length_cons] at h
      omega

variable {before after : List α} {next : α}

theorem eraseDups_append_cons (hx : x ∉ before) :
    (before ++ x :: after).eraseDups = before.eraseDups ++ x ::
    ((after.removeAll before).removeAll [x]).eraseDups := by
  rw [List.eraseDups_append, List.cons_removeAll, if_pos (by simpa using hx), List.eraseDups_cons]
  congr 3
  simp [List.removeAll, beq_eq_decide]

theorem eraseDups_erase_last (hx : x ∉ before)
    (hlast : ((after.removeAll before).removeAll [x]).eraseDups = []) :
    (before ++ after).eraseDups.Sublist (before ++ x :: after).eraseDups := by
  rw [eraseDups_append_cons hx, hlast, List.eraseDups_append]
  refine List.Sublist.append_left ?_ _
  have hall : ∀ y ∈ (after.removeAll before), y = x := by
    intro y hy
    by_contra hne
    have : y ∈ ((after.removeAll before).removeAll [x]).eraseDups := by
      rw [List.mem_eraseDups, List.removeAll, List.mem_filter]
      simp [hy, hne]
    simp [hlast] at this
  cases hafter : after.removeAll before with
  | nil => simp
  | cons y ys =>
    obtain rfl : y = x := hall y (by simp [hafter])
    rw [List.eraseDups_cons, List.filter_eq_nil_iff.mpr]
    · simp
    · intro z hz
      have := hall z (by simp [hafter, hz])
      simp [this]

theorem eraseDups_erase_kept {rest : List α} (hx : x ∉ before)
    (hnext : ((after.removeAll before).removeAll [x]).eraseDups = next :: rest)
    (hagain : 2 ≤ ((before ++ x :: after).takeWhile (· ≠ next)).count x) :
    (before ++ after).eraseDups = (before ++ x :: after).eraseDups := by
  rw [eraseDups_append_cons hx, List.eraseDups_append]
  congr 1
  cases hafter : after.removeAll before with
  | nil => simp [hafter] at hnext
  | cons y ys =>
    by_cases hyx : y = x
    · subst hyx
      simp [List.eraseDups_cons, List.removeAll, beq_eq_decide]
    · -- then the next client comes first behind the request, with none of `x` before it
      exfalso
      have hy : y = next := by
        rw [hafter, List.cons_removeAll, if_pos (by simpa using hyx), List.eraseDups_cons] at hnext
        exact (List.cons.inj hnext).1
      subst hy
      obtain ⟨seen, later, rfl, hseen, hy, _⟩ := List.filter_eq_cons_iff.mp hafter
      have hybefore : y ∉ before := by simpa using hy
      have hsub : ∀ z ∈ seen, z ∈ before := fun z hz => by simpa using hseen z hz
      have hahead : ∀ z ∈ before ++ x :: seen, decide (z ≠ y) = true := by
        intro z hz
        rw [decide_eq_true_iff]
        rintro rfl
        obtain hz | hz := List.mem_append.mp hz
        · exact hybefore hz
        · obtain rfl | hz := List.mem_cons.mp hz
          · exact hyx rfl
          · exact hybefore (hsub z hz)
      have hcount : (before ++ x :: seen).count x = 1 := by
        rw [List.count_append, List.count_cons_self, List.count_eq_zero.mpr hx,
          List.count_eq_zero.mpr fun hmem => hx (hsub x hmem)]
      rw [show before ++ x :: (seen ++ y :: later) = (before ++ x :: seen) ++ y :: later by simp,
        List.takeWhile_append_of_pos hahead, List.takeWhile_cons_of_neg (by simp), List.append_nil,
        hcount] at hagain
      omega

end

end JevCode.Data
