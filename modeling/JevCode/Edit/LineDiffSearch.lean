import JevCode.Edit.LineDiffPaths

namespace JevCode.Edit.LineDiff

open JevCode.Data

variable {oldToks newToks : List Bytes}

theorem drop_succ_of_lt {toks : List Bytes} {x : Nat} (h : x < toks.length) :
    ∃ a, toks.drop x = a :: toks.drop (x + 1) :=
  ⟨_, List.drop_eq_getElem_cons h⟩

theorem indels_drop_le {x y : Nat} (n : Nat) (hx : x + n ≤ oldToks.length)
    (hy : y + n ≤ newToks.length) :
    indels (oldToks.drop (x + n)) (newToks.drop (y + n)) ≤
      indels (oldToks.drop x) (newToks.drop y) := by
  induction n with
  | zero => exact Nat.le_refl _
  | succ n ih =>
    obtain ⟨a, ha⟩ := drop_succ_of_lt (show x + n < oldToks.length by omega)
    obtain ⟨b, hb⟩ := drop_succ_of_lt (show y + n < newToks.length by omega)
    have htail := indels_tail_le a b (oldToks.drop (x + n + 1)) (newToks.drop (y + n + 1))
    rw [← ha, ← hb] at htail
    exact Nat.le_trans htail (ih (by omega) (by omega))

theorem diagonal_le_indels {x y : Nat} (hx : x ≤ oldToks.length) (hy : y ≤ newToks.length) :
    (x : Int) - y - ((oldToks.length : Int) - newToks.length) ≤ indels (oldToks.drop x)
    (newToks.drop y) ∧
      ((oldToks.length : Int) - newToks.length) - ((x : Int) - y) ≤ indels (oldToks.drop x)
      (newToks.drop y) := by
  have h := length_sub_le_indels (oldToks.drop x) (newToks.drop y)
  rw [List.length_drop, List.length_drop] at h
  omega

theorem Reaches.indels_le {cs : List Comp} {x y e : Nat} (h : Reaches oldToks newToks cs x y e) :
    indels oldToks newToks ≤ e + indels (oldToks.drop x) (newToks.drop y) := by
  have hold (xs ys : List Bytes) (n : Nat) : indels xs ys ≤ n + indels (xs.drop n) ys := by
    induction n generalizing xs with
    | zero => simp
    | succ n ih =>
      cases xs with
      | nil => simp
      | cons x xs =>
        have := ((indels_near xs ys).1 x).2
        have := ih xs
        rw [List.drop_succ_cons]
        omega
  have hnew (xs ys : List Bytes) (n : Nat) : indels xs ys ≤ n + indels xs (ys.drop n) := by
    induction n generalizing ys with
    | zero => simp
    | succ n ih =>
      cases ys with
      | nil => simp
      | cons y ys =>
        have := ((indels_near xs ys).2 y).2
        have := ih ys
        rw [List.drop_succ_cons]
        omega
  have hcommon (toks xs ys : List Bytes) : indels (toks ++ xs) (toks ++ ys) = indels xs ys := by
    induction toks with
    | nil => rfl
    | cons a toks ih => rw [List.cons_append, List.cons_append, indels_cons, if_pos rfl, ih]
  induction h with
  | start => simp
  | @added cs x y e c _ _ _ _ ih =>
    have := hnew (oldToks.drop x) (newToks.drop y) c.count
    rw [List.drop_drop] at this
    omega
  | @removed cs x y e c _ _ _ _ ih =>
    have := hold (oldToks.drop x) (newToks.drop y) c.count
    rw [List.drop_drop] at this
    omega
  | @common cs x y e c _ _ _ _ _ hsame ih =>
    rw [← List.take_append_drop c.count (oldToks.drop x),
      ← List.take_append_drop c.count (newToks.drop y), hsame, hcommon, List.drop_drop,
      List.drop_drop] at ih
    exact ih

def Kept (oldToks newToks : List Bytes) (comps : Array Comp) (e : Nat) (k : Int)
    (p : PathNode) : Prop :=
  ∃ x y e', e' ≤ e ∧ NodeAt oldToks newToks comps p x y e' ∧ k = (x : Int) - y ∧
    Stuck oldToks newToks x y ∧
    (x < oldToks.length ∨ y < newToks.length)

def Sound (oldToks newToks : List Bytes) (s : Search) (e : Nat) : Prop :=
  ∀ k p, s.best k = some p → Kept oldToks newToks s.comps e k p

theorem Kept.mono {comps comps' : Array Comp} {e e' : Nat} {k : Int} {p : PathNode}
    (h : Kept oldToks newToks comps e k p) (hext : Extends comps comps') (he : e ≤ e') :
    Kept oldToks newToks comps' e' k p := by
  obtain ⟨x, y, n, hn, hnode, hrest⟩ := h
  exact ⟨x, y, n, Nat.le_trans hn he, hnode.extend hext, hrest⟩

structure Visited (oldToks newToks : List Bytes) (s : Search) (e : Nat) (diag : Int)
    (comps : Array Comp) (p : PathNode) (x y : Nat) : Prop where
  ext : Extends s.comps comps
  node : ∃ e', e' ≤ e + 1 ∧ NodeAt oldToks newToks comps p x y e'
  diag_eq : diag = (x : Int) - y
  stuck : Stuck oldToks newToks x y
  removed : ∀ rp, s.best (diag - 1) = some rp → rp.oldPos + 1 < oldToks.length → rp.oldPos + 1 < x
  added : ∀ ap, s.best (diag + 1) = some ap → 0 ≤ ap.oldPos - diag →
    ap.oldPos - diag < newToks.length → ap.oldPos < x

theorem chooseBase_spec (diag : Int) (removePath addPath : Option PathNode) :
    (chooseBase oldToks newToks diag removePath addPath = none ∧
      (∀ rp, removePath = some rp → ¬ rp.oldPos + 1 < oldToks.length) ∧
      ∀ ap, addPath = some ap → ¬ (0 ≤ ap.oldPos - diag ∧ ap.oldPos - diag < newToks.length)) ∨
    (∃ ap, chooseBase oldToks newToks diag removePath addPath = some (ap, true) ∧ addPath = some ap ∧
      0 ≤ ap.oldPos - diag ∧ ap.oldPos - diag < newToks.length ∧
      ∀ rp, removePath = some rp → rp.oldPos + 1 < oldToks.length → rp.oldPos < ap.oldPos) ∨
    ∃ rp, chooseBase oldToks newToks diag removePath addPath = some (rp, false) ∧
      removePath = some rp ∧
      rp.oldPos + 1 < oldToks.length ∧
      ∀ ap, addPath = some ap → 0 ≤ ap.oldPos - diag → ap.oldPos - diag < newToks.length →
        ap.oldPos ≤ rp.oldPos := by
  have hremove (path : Option PathNode) :
      (∃ rp, path = some rp ∧ rp.oldPos + 1 < oldToks.length ∧
          path.filter (fun rp => rp.oldPos + 1 < (oldToks.length : Int)) = some rp) ∨
        (∀ rp, path = some rp → ¬ rp.oldPos + 1 < oldToks.length) ∧
          path.filter (fun rp => rp.oldPos + 1 < (oldToks.length : Int)) = none := by
    cases path with
    | none => exact .inr ⟨fun rp h => (by cases h), rfl⟩
    | some rp =>
      by_cases h : rp.oldPos + 1 < oldToks.length
      · exact .inl ⟨rp, rfl, h, by simp [Option.filter, h]⟩
      · exact .inr ⟨fun rp' h' => by cases h'; exact h, by simpa [Option.filter] using h⟩
  have hadd (path : Option PathNode) :
      (∃ ap, path = some ap ∧ (0 ≤ ap.oldPos - diag ∧ ap.oldPos - diag < newToks.length) ∧
          path.filter (fun ap => 0 ≤ ap.oldPos - diag ∧ ap.oldPos - diag < (newToks.length : Int)) =
          some ap) ∨
        (∀ ap, path = some ap → ¬ (0 ≤ ap.oldPos - diag ∧ ap.oldPos - diag < newToks.length)) ∧
          path.filter (fun ap => 0 ≤ ap.oldPos - diag ∧ ap.oldPos - diag < (newToks.length : Int)) =
          none := by
    cases path with
    | none => exact .inr ⟨fun ap h => (by cases h), rfl⟩
    | some ap =>
      by_cases h : 0 ≤ ap.oldPos - diag ∧ ap.oldPos - diag < newToks.length
      · exact .inl ⟨ap, rfl, h, by rw [Option.filter, if_pos (decide_eq_true h)]⟩
      · exact .inr ⟨fun ap'
          h' => by cases h'; exact h, by rw [Option.filter, if_neg (by simpa using h)]⟩
  unfold chooseBase
  obtain ⟨rp, rfl, hrp, hrfilter⟩ | ⟨hrp, hrfilter⟩ := hremove removePath
  · obtain ⟨ap, rfl, hap, hafilter⟩ | ⟨hap, hafilter⟩ := hadd addPath
    · simp only [hrfilter, hafilter]
      split
      next hlt =>
        exact .inr (.inl ⟨ap, rfl, rfl, hap.1, hap.2, fun rp' h _ => by cases h; exact hlt⟩)
      next hle => exact .inr (.inr ⟨rp, rfl, rfl, hrp, fun ap' h _ _ => by cases h; omega⟩)
    · simp only [hrfilter, hafilter]
      exact .inr (.inr ⟨rp, rfl, rfl, hrp, fun ap h h0 h1 => absurd ⟨h0, h1⟩ (hap ap h)⟩)
  · obtain ⟨ap, rfl, hap, hafilter⟩ | ⟨hap, hafilter⟩ := hadd addPath
    · simp only [hrfilter, hafilter]
      exact .inr (.inl ⟨ap, rfl, rfl, hap.1, hap.2, fun rp h h0 => absurd h0 (hrp rp h)⟩)
    · simp only [hrfilter, hafilter]
      exact .inl ⟨trivial, hrp, hap⟩

theorem visit_of_base {s : Search} {diag : Int} {path : PathNode} {fromAdd : Bool}
    {comps : Array Comp} {base : PathNode} {x y e : Nat}
    (hchoose : chooseBase oldToks newToks diag (s.best (diag - 1)) (s.best (diag + 1)) =
      some (path, fromAdd))
    (hbase : (if fromAdd then addToPath s.comps path true false 0
      else addToPath s.comps path false true 1) = (comps, base))
    (hext : Extends s.comps comps) (hnode : NodeAt oldToks newToks comps base x y e)
    (hdiag : diag = (x : Int) - y) :
    ∃ comps' p n, Extends s.comps comps' ∧ NodeAt oldToks newToks comps' p (x + n) (y + n) e ∧
      Stuck oldToks newToks (x + n) (y + n) ∧
      ((x + n = oldToks.length ∧ y + n = newToks.length ∧
        visit oldToks newToks s diag = .error (comps', p.last)) ∨
        ((x + n < oldToks.length ∨ y + n < newToks.length) ∧ visit oldToks newToks s diag = .ok {
          comps := comps'
          best := Function.update (Function.update s.best (diag - 1) none) diag (some p)
          maxDiag :=
            if x + n = oldToks.length then some (s.maxDiag.elim (diag - 1) (min · (diag - 1)))
              else s.maxDiag
          minDiag :=
            if y + n = newToks.length then some (s.minDiag.elim (diag + 1) (max · (diag + 1)))
              else s.minDiag })) := by
  have hpeek : Function.update s.best (diag - 1) none (diag + 1) = s.best (diag + 1) :=
    Function.update_of_ne (by omega) _ _
  obtain ⟨comps', p, n, hextract, hext', hnode', hstuck⟩ := extractCommon_spec hnode hdiag
  refine ⟨comps', p, n, hext.trans hext', hnode', hstuck, ?_⟩
  obtain ⟨hx, hy⟩ := hnode'.le
  have hold : (oldToks.length : Int) ≤ p.oldPos + 1 ↔ x + n = oldToks.length := by
    rw [hnode'.oldPos]
    omega
  have hnew : (newToks.length : Int) ≤ ((y + n : Nat) : Int) - 1 + 1 ↔ y + n = newToks.length := by
    omega
  have hvisit : visit oldToks newToks s diag =
      if x + n = oldToks.length ∧ y + n = newToks.length then .error (comps', p.last)
      else .ok {
        comps := comps'
        best := Function.update (Function.update s.best (diag - 1) none) diag (some p)
        maxDiag := if x + n = oldToks.length then some (s.maxDiag.elim (diag - 1) (min · (diag - 1)))
          else s.maxDiag
        minDiag := if y + n = newToks.length then some (s.minDiag.elim (diag + 1) (max · (diag + 1)))
          else s.minDiag } := by
    rw [visit]
    simp only [hpeek, hchoose, hbase, hextract, hold, hnew]
  rw [hvisit]
  by_cases hend : x + n = oldToks.length ∧ y + n = newToks.length
  · exact .inl ⟨hend.1, hend.2, if_pos hend⟩
  · exact .inr ⟨by omega, if_neg hend⟩

theorem visit_spec {s : Search} {e : Nat} {diag : Int}
    (hremove : ∀ rp, s.best (diag - 1) = some rp → Kept oldToks newToks s.comps e (diag - 1) rp)
    (hadd : ∀ ap, s.best (diag + 1) = some ap → Kept oldToks newToks s.comps e (diag + 1) ap) :
    (visit oldToks newToks s diag =
        .ok { s with best := Function.update (Function.update s.best (diag - 1) none) diag none } ∧
      (∀ rp, s.best (diag - 1) = some rp → ¬ rp.oldPos + 1 < oldToks.length) ∧
      ∀ ap, s.best (diag + 1) = some ap →
        ¬ (0 ≤ ap.oldPos - diag ∧ ap.oldPos - diag < newToks.length)) ∨
    ∃ comps p x y, Visited oldToks newToks s e diag comps p x y ∧
      ((x = oldToks.length ∧ y = newToks.length ∧
      visit oldToks newToks s diag = .error (comps, p.last)) ∨
        ((x < oldToks.length ∨ y < newToks.length) ∧ visit oldToks newToks s diag = .ok {
          comps
          best := Function.update (Function.update s.best (diag - 1) none) diag (some p)
          maxDiag := if x = oldToks.length then some (s.maxDiag.elim (diag - 1) (min · (diag - 1)))
            else s.maxDiag
          minDiag := if y = newToks.length then some (s.minDiag.elim (diag + 1) (max · (diag + 1)))
            else s.minDiag })) := by
  have hpeek : Function.update s.best (diag - 1) none (diag + 1) = s.best (diag + 1) :=
    Function.update_of_ne (by omega) _ _
  obtain ⟨hchoose, hrp, hap⟩ | ⟨ap, hchoose, hpath, hlow, hhigh, hfurther⟩ |
      ⟨rp, hchoose, hpath, hroom, hfurther⟩ :=
    chooseBase_spec diag (s.best (diag - 1)) (s.best (diag + 1))
  · refine .inl ⟨?_, hrp, hap⟩
    rw [visit]
    simp only [hpeek, hchoose]
  · obtain ⟨x, y, e', he', hnode, hdiag, -, -⟩ := hadd ap hpath
    have hpos := hnode.oldPos
    obtain ⟨hext, hbase⟩ := addToPath_added hnode (by omega)
    obtain ⟨comps, p, n, hext', hnode', hstuck, hvisit⟩ :=
      visit_of_base hchoose (if_pos rfl) hext hbase (by omega)
    refine .inr ⟨comps, p, _, _,
      ⟨hext', ⟨_, by omega, hnode'⟩, by omega, hstuck, fun rp hrp hroom => ?_,
      fun ap' hap' _ _ => ?_⟩, hvisit⟩
    · have := hfurther rp hrp hroom
      omega
    · cases hpath.symm.trans hap'
      omega
  · obtain ⟨x, y, e', he', hnode, hdiag, -, -⟩ := hremove rp hpath
    have hpos := hnode.oldPos
    obtain ⟨hext, hbase⟩ := addToPath_removed hnode (by omega)
    obtain ⟨comps, p, n, hext', hnode', hstuck, hvisit⟩ :=
      visit_of_base hchoose (if_neg (by decide)) hext hbase (by omega)
    refine .inr ⟨comps, p, _, _,
      ⟨hext', ⟨_, by omega, hnode'⟩, by omega, hstuck, fun rp' hrp' _ => ?_,
      fun ap hap hlow hhigh => ?_⟩, hvisit⟩
    · cases hpath.symm.trans hrp'
      omega
    · have := hfurther ap hap hlow hhigh
      omega

def AtOldEnd (oldToks : List Bytes) (s : Search) (k : Int) : Prop :=
  ∃ p, s.best k = some p ∧ (oldToks.length : Int) ≤ p.oldPos + 1

def AtNewEnd (newToks : List Bytes) (s : Search) (k : Int) : Prop :=
  ∃ p, s.best k = some p ∧ (newToks.length : Int) ≤ p.oldPos - k + 1

/-- After the diagonals in `done`, with the search at the start of the round: paths ahead are as they
were, those on the diagonals that were visited go as far as they can, and the bounds are next to
paths at an end. -/
structure InRound (oldToks newToks : List Bytes) (start s : Search) (e : Nat)
    (done : List Int) : Prop where
  ext : Extends start.comps s.comps
  sound : Sound oldToks newToks s (e + 1)
  ahead : ∀ k, (∀ d ∈ done, d + 1 ≤ k) → s.best k = start.best k
  removed : ∀ d ∈ done, ∀ rp, start.best (d - 1) = some rp → rp.oldPos + 1 < oldToks.length →
    ∃ q, s.best d = some q ∧ rp.oldPos + 1 ≤ q.oldPos
  added : ∀ d ∈ done, ∀ ap, start.best (d + 1) = some ap → 0 ≤ ap.oldPos - d →
    ap.oldPos - d < newToks.length →
    ∃ q, s.best d = some q ∧ ap.oldPos ≤ q.oldPos
  maxDiag : s.maxDiag = start.maxDiag ∨ ∃ d ∈ done, s.maxDiag = some (d - 1) ∧ AtOldEnd oldToks s d
  maxDiag_le : ∀ d ∈ done, AtOldEnd oldToks s d → ∃ m, s.maxDiag = some m ∧ m ≤ d - 1
  minDiag : s.minDiag = start.minDiag ∨ ∃ d ∈ done, s.minDiag = some (d + 1) ∧ AtNewEnd newToks s d
  minDiag_ge : ∀ d ∈ done, AtNewEnd newToks s d → ∃ m, s.minDiag = some m ∧ d + 1 ≤ m

theorem InRound.start {s : Search} {e : Nat} (h : Sound oldToks newToks s e) :
    InRound oldToks newToks s s e [] where
  ext := Extends.refl _
  sound k p hp := (h k p hp).mono (Extends.refl _) (Nat.le_succ e)
  ahead _ _ := rfl
  removed _ hd := by cases hd
  added _ hd := by cases hd
  maxDiag := .inl rfl
  maxDiag_le _ hd := by cases hd
  minDiag := .inl rfl
  minDiag_ge _ hd := by cases hd

section Step

variable {start s : Search} {e : Nat} {done : List Int} {diag : Int}

theorem update_behind (best : Int → Option PathNode) (p : Option PathNode) {d : Int}
    (hd : d + 2 ≤ diag) :
    Function.update (Function.update best (diag - 1) none) diag p d = best d := by
  rw [Function.update_of_ne (by omega), Function.update_of_ne (by omega)]

theorem update_ahead (best : Int → Option PathNode) (p : Option PathNode) {k : Int}
    (hk : diag + 1 ≤ k) :
    Function.update (Function.update best (diag - 1) none) diag p k = best k := by
  rw [Function.update_of_ne (by omega), Function.update_of_ne (by omega)]

theorem of_update {best : Int → Option PathNode} {p : Option PathNode} {k : Int} {q : PathNode}
    (h : Function.update (Function.update best (diag - 1) none) diag p k = some q) :
    best k = some q ∨ k = diag ∧ p = some q := by
  by_cases hk : k = diag
  · subst hk
    rw [Function.update_self] at h
    exact .inr ⟨rfl, h⟩
  · rw [Function.update_of_ne hk] at h
    by_cases hk' : k = diag - 1
    · rw [hk', Function.update_self] at h
      cases h
    · rw [Function.update_of_ne hk'] at h
      exact .inl h

theorem AtOldEnd.congr {s' : Search} {k : Int} (h : s'.best k = s.best k) :
    AtOldEnd oldToks s' k ↔ AtOldEnd oldToks s k := by
  rw [AtOldEnd, h, AtOldEnd]

theorem AtNewEnd.congr {s' : Search} {k : Int} (h : s'.best k = s.best k) :
    AtNewEnd newToks s' k ↔ AtNewEnd newToks s k := by
  rw [AtNewEnd, h, AtNewEnd]

theorem InRound.maxDiag_step (h : InRound oldToks newToks start s e done)
    {s' : Search} (hbehind : ∀ d ∈ done, s'.best d = s.best d)
    (hmax : ¬ AtOldEnd oldToks s' diag ∧ s'.maxDiag = s.maxDiag ∨
      AtOldEnd oldToks s' diag ∧ s'.maxDiag = some (s.maxDiag.elim (diag - 1) (min · (diag - 1)))) :
    s'.maxDiag = start.maxDiag ∨ ∃ d ∈ done ++ [diag], s'.maxDiag = some (d - 1) ∧
      AtOldEnd oldToks s' d := by
  have hbefore : s.maxDiag = start.maxDiag ∨ ∃ d ∈ done ++ [diag], s.maxDiag = some (d - 1) ∧
      AtOldEnd oldToks s' d := by
    obtain hsame | ⟨d, hd, hd', hend⟩ := h.maxDiag
    · exact .inl hsame
    · exact .inr ⟨d, List.mem_append_left _ hd, hd', (AtOldEnd.congr (hbehind d hd)).mpr hend⟩
  obtain ⟨-, hsame⟩ | ⟨hend, hnew⟩ := hmax
  · rwa [hsame]
  · cases hs : s.maxDiag with
    | none => exact .inr ⟨diag, by simp, by rw [hnew, hs]; rfl, hend⟩
    | some m =>
      rw [hs, Option.elim_some] at hnew
      obtain hle | hle := Int.le_total m (diag - 1)
      · rwa [hnew, Int.min_eq_left hle, ← hs]
      · exact .inr ⟨diag, by simp, by rw [hnew, Int.min_eq_right hle], hend⟩

theorem InRound.maxDiag_le_step (h : InRound oldToks newToks start s e done)
    {s' : Search} (hbehind : ∀ d ∈ done, s'.best d = s.best d)
    (hmax : ¬ AtOldEnd oldToks s' diag ∧ s'.maxDiag = s.maxDiag ∨
      AtOldEnd oldToks s' diag ∧ s'.maxDiag = some (s.maxDiag.elim (diag - 1) (min · (diag - 1))))
    (d : Int) (hd : d ∈ done ∨ d = diag) (hend : AtOldEnd oldToks s' d) :
    ∃ m, s'.maxDiag = some m ∧ m ≤ d - 1 := by
  obtain ⟨hnot, hsame⟩ | ⟨-, hnew⟩ := hmax
  · obtain hd | rfl := hd
    · rw [hsame]
      exact h.maxDiag_le d hd ((AtOldEnd.congr (hbehind d hd)).mp hend)
    · exact absurd hend hnot
  · refine ⟨_, hnew, ?_⟩
    obtain hd | rfl := hd
    · obtain ⟨m, hm, hle⟩ := h.maxDiag_le d hd ((AtOldEnd.congr (hbehind d hd)).mp hend)
      rw [hm, Option.elim_some]
      exact Int.le_trans (Int.min_le_left _ _) hle
    · cases s.maxDiag with
      | none => exact Int.le_refl _
      | some m => exact Int.min_le_right _ _

theorem InRound.minDiag_step (h : InRound oldToks newToks start s e done)
    {s' : Search} (hbehind : ∀ d ∈ done, s'.best d = s.best d)
    (hmin : ¬ AtNewEnd newToks s' diag ∧ s'.minDiag = s.minDiag ∨
      AtNewEnd newToks s' diag ∧ s'.minDiag = some (s.minDiag.elim (diag + 1) (max · (diag + 1)))) :
    s'.minDiag = start.minDiag ∨ ∃ d ∈ done ++ [diag], s'.minDiag = some (d + 1) ∧
      AtNewEnd newToks s' d := by
  have hbefore : s.minDiag = start.minDiag ∨ ∃ d ∈ done ++ [diag], s.minDiag = some (d + 1) ∧
      AtNewEnd newToks s' d := by
    obtain hsame | ⟨d, hd, hd', hend⟩ := h.minDiag
    · exact .inl hsame
    · exact .inr ⟨d, List.mem_append_left _ hd, hd', (AtNewEnd.congr (hbehind d hd)).mpr hend⟩
  obtain ⟨-, hsame⟩ | ⟨hend, hnew⟩ := hmin
  · rwa [hsame]
  · cases hs : s.minDiag with
    | none => exact .inr ⟨diag, by simp, by rw [hnew, hs]; rfl, hend⟩
    | some m =>
      rw [hs, Option.elim_some] at hnew
      obtain hle | hle := Int.le_total (diag + 1) m
      · rwa [hnew, Int.max_eq_left hle, ← hs]
      · exact .inr ⟨diag, by simp, by rw [hnew, Int.max_eq_right hle], hend⟩

theorem InRound.minDiag_ge_step (h : InRound oldToks newToks start s e done)
    {s' : Search} (hbehind : ∀ d ∈ done, s'.best d = s.best d)
    (hmin : ¬ AtNewEnd newToks s' diag ∧ s'.minDiag = s.minDiag ∨
      AtNewEnd newToks s' diag ∧ s'.minDiag = some (s.minDiag.elim (diag + 1) (max · (diag + 1))))
    (d : Int) (hd : d ∈ done ∨ d = diag) (hend : AtNewEnd newToks s' d) :
    ∃ m, s'.minDiag = some m ∧ d + 1 ≤ m := by
  obtain ⟨hnot, hsame⟩ | ⟨-, hnew⟩ := hmin
  · obtain hd | rfl := hd
    · rw [hsame]
      exact h.minDiag_ge d hd ((AtNewEnd.congr (hbehind d hd)).mp hend)
    · exact absurd hend hnot
  · refine ⟨_, hnew, ?_⟩
    obtain hd | rfl := hd
    · obtain ⟨m, hm, hle⟩ := h.minDiag_ge d hd ((AtNewEnd.congr (hbehind d hd)).mp hend)
      rw [hm, Option.elim_some]
      exact Int.le_trans hle (Int.le_max_left _ _)
    · cases s.minDiag with
      | none => exact Int.le_refl _
      | some m => exact Int.le_max_right _ _

theorem InRound.step (h : InRound oldToks newToks start s e done)
    (hdone : ∀ d ∈ done, d + 2 ≤ diag) {s' : Search} {q : Option PathNode}
    (hbest : s'.best = Function.update (Function.update s.best (diag - 1) none) diag q)
    (hext : Extends s.comps s'.comps)
    (hkept : ∀ p, q = some p → Kept oldToks newToks s'.comps (e + 1) diag p)
    (hremoved : ∀ rp, s.best (diag - 1) = some rp → rp.oldPos + 1 < oldToks.length → ∃ p,
    q = some p ∧ rp.oldPos + 1 ≤ p.oldPos)
    (hadded : ∀ ap, s.best (diag + 1) = some ap → 0 ≤ ap.oldPos - diag →
      ap.oldPos - diag < newToks.length →
      ∃ p, q = some p ∧ ap.oldPos ≤ p.oldPos)
    (hmax : ¬ AtOldEnd oldToks s' diag ∧ s'.maxDiag = s.maxDiag ∨
      AtOldEnd oldToks s' diag ∧ s'.maxDiag = some (s.maxDiag.elim (diag - 1) (min · (diag - 1))))
    (hmin : ¬ AtNewEnd newToks s' diag ∧ s'.minDiag = s.minDiag ∨
      AtNewEnd newToks s' diag ∧ s'.minDiag = some (s.minDiag.elim (diag + 1) (max · (diag + 1)))) :
    InRound oldToks newToks start s' e (done ++ [diag]) := by
  have hbehind (d : Int) (hd : d ∈ done) : s'.best d = s.best d := by
    rw [hbest, update_behind _ _ (hdone d hd)]
  have hdiag : s'.best diag = q := by rw [hbest, Function.update_self]
  have hprev : s.best (diag - 1) = start.best (diag - 1) := h.ahead _ fun d hd => by
    have := hdone d hd; omega
  have hnext : s.best (diag + 1) = start.best (diag + 1) := h.ahead _ fun d hd => by
    have := hdone d hd; omega
  have hmem {d : Int} (hd : d ∈ done ++ [diag]) : d ∈ done ∨ d = diag := by simpa using hd
  refine ⟨h.ext.trans hext, fun k p hp => ?_, fun k hk => ?_, fun d hd => ?_, fun d hd => ?_,
    h.maxDiag_step hbehind hmax, fun d hd => h.maxDiag_le_step hbehind hmax d (hmem hd),
    h.minDiag_step hbehind hmin, fun d hd => h.minDiag_ge_step hbehind hmin d (hmem hd)⟩
  · rw [hbest] at hp
    obtain hp | ⟨rfl, hq⟩ := of_update hp
    · exact (h.sound k p hp).mono hext (Nat.le_refl _)
    · exact hkept p hq
  · rw [← h.ahead k fun d hd => hk d (List.mem_append_left _ hd), hbest]
    exact update_ahead _ _ (hk diag (List.mem_append_right _ List.mem_cons_self))
  · obtain hd | rfl := hmem hd
    · rw [hbehind d hd]
      exact h.removed d hd
    · rw [hdiag, ← hprev]
      exact hremoved
  · obtain hd | rfl := hmem hd
    · rw [hbehind d hd]
      exact h.added d hd
    · rw [hdiag, ← hnext]
      exact hadded

theorem InRound.visit (h : InRound oldToks newToks start s e done)
    (hstart : Sound oldToks newToks start e) (hdone : ∀ d ∈ done, d + 2 ≤ diag) :
    (∃ comps p e', visit oldToks newToks s diag = .error (comps, p.last) ∧ e' ≤ e + 1 ∧
      NodeAt oldToks newToks comps p oldToks.length newToks.length e') ∨
    ∃ s', visit oldToks newToks s diag = .ok s' ∧
      InRound oldToks newToks start s' e (done ++ [diag]) := by
  have hkept (k : Int) (hk : diag - 1 ≤ k) (p : PathNode) (hp : s.best k = some p) : Kept oldToks
      newToks s.comps e k p := by
    rw [h.ahead k fun d hd => by have := hdone d hd; omega] at hp
    exact (hstart k p hp).mono h.ext (Nat.le_refl _)
  obtain ⟨hvisit, hrp, hap⟩ | ⟨comps, p, x, y, hvisited, ⟨rfl, rfl, hvisit⟩ | ⟨hopen, hvisit⟩⟩ :=
    visit_spec (hkept (diag - 1) (Int.le_refl _)) (hkept (diag + 1) (by omega))
  · refine .inr ⟨_, hvisit,
      h.step hdone rfl (Extends.refl _) (fun p hp => (by cases hp))
      (fun rp h h' => absurd h' (hrp rp h))
      (fun ap h h' h'' => absurd ⟨h', h''⟩ (hap ap h)) (.inl ⟨?_, rfl⟩) (.inl ⟨?_, rfl⟩)⟩
    all_goals
      rintro ⟨p, hp, -⟩
      dsimp only at hp
      rw [Function.update_self] at hp
      cases hp
  · obtain ⟨e', he', hnode⟩ := hvisited.node
    exact .inl ⟨comps, p, e', hvisit, he', hnode⟩
  · obtain ⟨e', he', hnode⟩ := hvisited.node
    have hpos := hnode.oldPos
    have hdiag := hvisited.diag_eq
    have hle := hnode.le
    refine .inr ⟨_, hvisit, h.step hdone rfl hvisited.ext ?_ ?_ ?_ ?_ ?_⟩
    · intro q hq
      cases hq
      exact ⟨x, y, e', he', hnode, hdiag, hvisited.stuck, hopen⟩
    · intro rp hrp hroom
      have := hvisited.removed rp hrp hroom
      exact ⟨p, rfl, by omega⟩
    · intro ap hap hlow hhigh
      have := hvisited.added ap hap hlow hhigh
      exact ⟨p, rfl, by omega⟩
    · have hend : AtOldEnd oldToks ⟨comps,
          Function.update (Function.update s.best (diag - 1) none) diag (some p), s.minDiag,
          s.maxDiag⟩ diag ↔ x = oldToks.length := by
        simp only [AtOldEnd, Function.update_self, Option.some.injEq, exists_eq_left']
        omega
      by_cases hx : x = oldToks.length
      · exact .inr ⟨hend.mpr hx, if_pos hx⟩
      · exact .inl ⟨hend.not.mpr hx, if_neg hx⟩
    · have hend : AtNewEnd newToks ⟨comps,
          Function.update (Function.update s.best (diag - 1) none) diag (some p), s.minDiag,
          s.maxDiag⟩ diag ↔ y = newToks.length := by
        simp only [AtNewEnd, Function.update_self, Option.some.injEq, exists_eq_left']
        omega
      by_cases hy : y = newToks.length
      · exact .inr ⟨hend.mpr hy, if_pos hy⟩
      · exact .inl ⟨hend.not.mpr hy, if_neg hy⟩

def Finds (oldToks newToks : List Bytes) (result : Except Found Search) (e : Nat) : Prop :=
  ∃ comps p e', result = .error (comps, p.last) ∧ e' ≤ e ∧
    NodeAt oldToks newToks comps p oldToks.length newToks.length e'

theorem InRound.foldlM {rest : List Int} (h : InRound oldToks newToks start s e done)
    (hstart : Sound oldToks newToks start e)
    (hsorted : (done ++ rest).Pairwise fun a b => a + 2 ≤ b) :
    Finds oldToks newToks (rest.foldlM (LineDiff.visit oldToks newToks) s) (e + 1) ∨
      ∃ s', rest.foldlM (LineDiff.visit oldToks newToks) s = .ok s' ∧
        InRound oldToks newToks start s' e (done ++ rest) := by
  induction rest generalizing s done with
  | nil => exact .inr ⟨s, rfl, by rwa [List.append_nil]⟩
  | cons diag rest ih =>
    have hdone : ∀ d ∈ done, d + 2 ≤ diag := fun d hd =>
      (List.pairwise_append.mp hsorted).2.2 d hd diag List.mem_cons_self
    rw [List.foldlM_cons]
    obtain ⟨comps, p, e', hvisit, he', hnode⟩ | ⟨s', hvisit, hs'⟩ := h.visit hstart hdone
    · exact .inl ⟨comps, p, e', by rw [hvisit]; rfl, he', hnode⟩
    · rw [List.append_cons] at hsorted ⊢
      rw [hvisit]
      exact ih hs' hsorted

end Step

theorem mem_diagonals {lo hi k : Int} :
    k ∈ diagonals lo hi ↔ lo ≤ k ∧ k ≤ hi ∧ (k - lo) % 2 = 0 := by
  simp only [diagonals, List.mem_map, List.mem_range]
  constructor
  · rintro ⟨i, hi, rfl⟩
    omega
  · rintro ⟨hlo, hhi, hparity⟩
    exact ⟨((k - lo) / 2).toNat, by omega, by omega⟩

theorem pairwise_diagonals (lo hi : Int) : (diagonals lo hi).Pairwise fun a b => a + 2 ≤ b := by
  rw [diagonals, List.pairwise_map]
  exact (List.pairwise_lt_range).imp fun h => by omega

def Fresh (e : Nat) (k : Int) : Prop := -(e : Int) ≤ k ∧ k ≤ e ∧ (k + e) % 2 = 0

/-- After round `e`: some path can be completed with the edits that are left, and a bound is next to
a path of this round that is at an end. -/
structure Frontier (oldToks newToks : List Bytes) (s : Search) (e : Nat) : Prop where
  sound : Sound oldToks newToks s e
  live : ∃ (k : Int) (p : PathNode) (x y : Nat), Fresh e k ∧ s.best k = some p ∧
    p.oldPos = (x : Int) - 1 ∧ k = (x : Int) - y ∧
    indels (oldToks.drop x) (newToks.drop y) + e ≤ indels oldToks newToks
  maxDiag : ∀ m, s.maxDiag = some m → Fresh e (m + 1) ∧ AtOldEnd oldToks s (m + 1)
  minDiag : ∀ m, s.minDiag = some m → Fresh e (m - 1) ∧ AtNewEnd newToks s (m - 1)

section Frontier

variable {s : Search} {e : Nat}

theorem Frontier.max_spec (h : Frontier oldToks newToks s e) {m : Int} (hm : s.maxDiag = some m) :
    ∃ p, s.best (m + 1) = some p ∧ p.oldPos = (oldToks.length : Int) - 1 ∧
      (oldToks.length : Int) - newToks.length ≤ m ∧
      m + 1 ≤ oldToks.length := by
  obtain ⟨-, p, hp, hend⟩ := h.maxDiag m hm
  obtain ⟨x, y, e', -, hnode, hk, -, hopen⟩ := h.sound _ _ hp
  have hle := hnode.le
  have hpos := hnode.oldPos
  exact ⟨p, hp, by omega, by omega, by omega⟩

theorem Frontier.min_spec (h : Frontier oldToks newToks s e) {m : Int} (hm : s.minDiag = some m) :
    ∃ p, s.best (m - 1) = some p ∧ p.oldPos = (newToks.length : Int) + m - 2 ∧
      m ≤ (oldToks.length : Int) - newToks.length ∧ 0 ≤ (newToks.length : Int) + m - 1 := by
  obtain ⟨-, p, hp, hend⟩ := h.minDiag m hm
  obtain ⟨x, y, e', -, hnode, hk, -, hopen⟩ := h.sound _ _ hp
  have hle := hnode.le
  have hpos := hnode.oldPos
  exact ⟨p, hp, by omega, by omega, by omega⟩

def Offers (oldToks newToks : List Bytes) (s : Search) (diag : Int) (x : Nat) : Prop :=
  (∃ rp, s.best (diag - 1) = some rp ∧ rp.oldPos + 1 < oldToks.length ∧
    rp.oldPos + 1 = (x : Int) - 1) ∨
    ∃ ap, s.best (diag + 1) = some ap ∧ 0 ≤ ap.oldPos - diag ∧ ap.oldPos - diag < newToks.length ∧
    ap.oldPos = (x : Int) - 1

theorem InRound.offered {start : Search} {done : List Int}
    (h : InRound oldToks newToks start s e done) {diag : Int} (hdiag : diag ∈ done) {x : Nat}
    (hoffers : Offers oldToks newToks start diag x) :
    ∃ q, s.best diag = some q ∧ (x : Int) - 1 ≤ q.oldPos := by
  obtain ⟨rp, hrp, hroom, hpos⟩ | ⟨ap, hap, hlow, hhigh, hpos⟩ := hoffers
  · obtain ⟨q, hq, hle⟩ := h.removed diag hdiag rp hrp hroom
    exact ⟨q, hq, by omega⟩
  · obtain ⟨q, hq, hle⟩ := h.added diag hdiag ap hap hlow hhigh
    exact ⟨q, hq, by omega⟩

def nextDiagonals (s : Search) (e : Nat) : List Int :=
  diagonals (s.minDiag.elim (-((e + 1 : Nat) : Int)) (max · (-((e + 1 : Nat) : Int))))
    (s.maxDiag.elim ((e + 1 : Nat) : Int) (min · ((e + 1 : Nat) : Int)))

theorem Frontier.mem_nextDiagonals (h : Frontier oldToks newToks s e) {k : Int} :
    k ∈ nextDiagonals s e ↔
      Fresh (e + 1) k ∧ (∀ m, s.minDiag = some m → m ≤ k) ∧ ∀ m, s.maxDiag = some m → k ≤ m := by
  have hmin : ∀ m, s.minDiag = some m → -(e : Int) ≤ m - 1 ∧ (m - 1 + e) % 2 = 0 := fun m hm => by
    obtain ⟨⟨hlow, -, hparity⟩, -⟩ := h.minDiag m hm
    exact ⟨hlow, hparity⟩
  have hmax : ∀ m, s.maxDiag = some m → m + 1 ≤ e := fun m hm => by
    obtain ⟨⟨-, hhigh, -⟩, -⟩ := h.maxDiag m hm
    exact hhigh
  rw [nextDiagonals, mem_diagonals, Fresh]
  cases hs : s.minDiag with
  | none =>
    cases hs' : s.maxDiag with
    | none =>
      simp only [Option.elim_none, reduceCtorEq, false_implies, implies_true, and_true]
      omega
    | some n =>
      have := hmax n hs'
      simp only [Option.elim_none, Option.elim_some, reduceCtorEq, false_implies, implies_true,
        Option.some.injEq, forall_eq', true_and]
      omega
  | some m =>
    obtain ⟨hlow, hparity⟩ := hmin m hs
    cases hs' : s.maxDiag with
    | none =>
      simp only [Option.elim_none, Option.elim_some, reduceCtorEq, false_implies, implies_true,
        Option.some.injEq, forall_eq', and_true]
      omega
    | some n =>
      have := hmax n hs'
      simp only [Option.elim_some, Option.some.injEq, forall_eq']
      omega

theorem Kept.next {comps : Array Comp} {k : Int} {p : PathNode} {x y n : Nat}
    (h : Kept oldToks newToks comps e k p) (hpos : p.oldPos = (x : Int) - 1) (hk : k = (x : Int) - y)
    (hn : indels (oldToks.drop x) (newToks.drop y) ≤ n) :
    x ≤ oldToks.length ∧ y ≤ newToks.length ∧
      (x < oldToks.length ∧ indels (oldToks.drop (x + 1)) (newToks.drop y) + 1 ≤ n ∨
        y < newToks.length ∧ indels (oldToks.drop x) (newToks.drop (y + 1)) + 1 ≤ n) := by
  obtain ⟨x', y', e', -, hnode, hk', hstuck, hopen⟩ := h
  have hpos' := hnode.oldPos
  obtain rfl : x' = x := by omega
  obtain rfl : y' = y := by omega
  obtain ⟨hx, hy⟩ := hnode.le
  refine ⟨hx, hy, ?_⟩
  have hdiffer : ∀ a ∈ (oldToks.drop x').head?, ∀ b ∈ (newToks.drop y').head?, a ≠ b := by
    rw [List.head?_drop, List.head?_drop]
    exact hstuck
  have hne : oldToks.drop x' ≠ [] ∨ newToks.drop y' ≠ [] := by
    rw [Ne, Ne, List.drop_eq_nil_iff, List.drop_eq_nil_iff]
    omega
  obtain ⟨a, rest, hcons, hle⟩ | ⟨b, rest, hcons, hle⟩ := indels_step hdiffer hn hne
  · have hlt : x' < oldToks.length := by
      by_contra hend
      rw [List.drop_eq_nil_iff.mpr (by omega)] at hcons
      cases hcons
    rw [List.drop_eq_getElem_cons hlt] at hcons
    cases hcons
    exact .inl ⟨hlt, hle⟩
  · have hlt : y' < newToks.length := by
      by_contra hend
      rw [List.drop_eq_nil_iff.mpr (by omega)] at hcons
      cases hcons
    rw [List.drop_eq_getElem_cons hlt] at hcons
    cases hcons
    exact .inr ⟨hlt, hle⟩

theorem Frontier.max_mem (h : Frontier oldToks newToks s e) {m : Int} (hm : s.maxDiag = some m) :
    m ∈ nextDiagonals s e ∧ Offers oldToks newToks s m oldToks.length := by
  obtain ⟨p, hp, hpos, hle, hhigh⟩ := h.max_spec hm
  obtain ⟨⟨hlow', hhigh', hparity⟩, -⟩ := h.maxDiag m hm
  refine ⟨h.mem_nextDiagonals.mpr ⟨⟨by omega, by omega, by omega⟩, fun n hn => ?_, fun n hn => ?_⟩,
    .inr ⟨p, hp, by omega, by omega, hpos⟩⟩
  · obtain ⟨-, -, -, hle', -⟩ := h.min_spec hn
    omega
  · cases hm.symm.trans hn
    exact Int.le_refl _

theorem Frontier.min_mem (h : Frontier oldToks newToks s e) {m : Int} (hm : s.minDiag = some m) :
    m ∈ nextDiagonals s e ∧ Offers oldToks newToks s m (newToks.length + m).toNat := by
  obtain ⟨p, hp, hpos, hle, hlow⟩ := h.min_spec hm
  obtain ⟨⟨hlow', hhigh', hparity⟩, -⟩ := h.minDiag m hm
  refine ⟨h.mem_nextDiagonals.mpr ⟨⟨by omega, by omega, by omega⟩, fun n hn => ?_, fun n hn => ?_⟩,
    .inl ⟨p, hp, by omega, by omega⟩⟩
  · cases hm.symm.trans hn
    exact Int.le_refl _
  · obtain ⟨-, -, -, hle', -⟩ := h.max_spec hn
    omega

theorem Frontier.offers_max (h : Frontier oldToks newToks s e) {m : Int}
    (hm : s.maxDiag = some m) {x y : Nat} (hx : x ≤ oldToks.length) (hy : y ≤ newToks.length)
    (hbeyond : m < (x : Int) - y)
    (hn : indels (oldToks.drop x) (newToks.drop y) + (e + 1) ≤ indels oldToks newToks) :
    ∃ diag ∈ nextDiagonals s e, ∃ x y : Nat, diag = (x : Int) - y ∧ x ≤ oldToks.length ∧
      y ≤ newToks.length ∧
      Offers oldToks newToks s diag x ∧ indels (oldToks.drop x) (newToks.drop y) + (e + 1) ≤
        indels oldToks newToks := by
  obtain ⟨p, hp, hpos, hle, hhigh⟩ := h.max_spec hm
  obtain ⟨hmem, hoffers⟩ := h.max_mem hm
  have hleft := (diagonal_le_indels hx hy).1
  refine ⟨m, hmem, oldToks.length, (oldToks.length - m).toNat, by omega,
    Nat.le_refl _, by omega, hoffers, ?_⟩
  rw [List.drop_length, indels_nil_left, List.length_drop]
  omega

theorem Frontier.offers_min (h : Frontier oldToks newToks s e) {m : Int}
    (hm : s.minDiag = some m) {x y : Nat} (hx : x ≤ oldToks.length) (hy : y ≤ newToks.length)
    (hbeyond : (x : Int) - y < m)
    (hn : indels (oldToks.drop x) (newToks.drop y) + (e + 1) ≤ indels oldToks newToks) :
    ∃ diag ∈ nextDiagonals s e, ∃ x y : Nat, diag = (x : Int) - y ∧ x ≤ oldToks.length ∧
      y ≤ newToks.length ∧
      Offers oldToks newToks s diag x ∧ indels (oldToks.drop x) (newToks.drop y) + (e + 1) ≤
        indels oldToks newToks := by
  obtain ⟨p, hp, hpos, hle, hlow⟩ := h.min_spec hm
  obtain ⟨hmem, hoffers⟩ := h.min_mem hm
  have hleft := (diagonal_le_indels hx hy).2
  refine ⟨m, hmem, (newToks.length + m).toNat, newToks.length, by omega, by omega,
    Nat.le_refl _, hoffers, ?_⟩
  rw [List.drop_length, indels_nil_right, List.length_drop]
  omega

theorem Frontier.offers (h : Frontier oldToks newToks s e) :
    ∃ diag ∈ nextDiagonals s e, ∃ x y : Nat, diag = (x : Int) - y ∧ x ≤ oldToks.length ∧
      y ≤ newToks.length ∧
      Offers oldToks newToks s diag x ∧ indels (oldToks.drop x) (newToks.drop y) + (e + 1) ≤
        indels oldToks newToks := by
  obtain ⟨k, p, x, y, ⟨hlow, hhigh, hparity⟩, hp, hpos, hk, hleft⟩ := h.live
  have hcandidate : ∃ diag, Fresh (e + 1) diag ∧ ∃ x y : Nat, diag = (x : Int) - y ∧
      x ≤ oldToks.length ∧
      y ≤ newToks.length ∧ Offers oldToks newToks s diag x ∧
      indels (oldToks.drop x) (newToks.drop y) + (e + 1) ≤ indels oldToks newToks := by
    obtain ⟨hx, hy, ⟨hlt, hnext⟩ | ⟨hlt, hnext⟩⟩ := (h.sound k p hp).next hpos hk (Nat.le_refl _)
    · refine ⟨k + 1, ⟨by omega, by omega, by omega⟩, x + 1, y, by omega, hlt, hy,
        .inl ⟨p, ?_, by omega, by omega⟩, by omega⟩
      rwa [Int.add_sub_cancel]
    · refine ⟨k - 1, ⟨by omega, by omega, by omega⟩, x, y + 1, by omega, hx, hlt,
        .inr ⟨p, ?_, by omega, by omega, hpos⟩, by omega⟩
      rwa [Int.sub_add_cancel]
  obtain ⟨diag, hfresh, x, y, hdiag, hx, hy, hoffers, hleft⟩ := hcandidate
  by_cases hmin : ∀ m, s.minDiag = some m → m ≤ diag
  · by_cases hmax : ∀ m, s.maxDiag = some m → diag ≤ m
    · exact ⟨diag, h.mem_nextDiagonals.mpr ⟨hfresh, hmin, hmax⟩, x, y, hdiag, hx, hy, hoffers, hleft⟩
    · push Not at hmax
      obtain ⟨m, hm, hlt⟩ := hmax
      exact h.offers_max hm hx hy (by omega) hleft
  · push Not at hmin
    obtain ⟨m, hm, hlt⟩ := hmin
    exact h.offers_min hm hx hy (by omega) hleft

theorem Frontier.round (h : Frontier oldToks newToks s e) :
    Finds oldToks newToks (round oldToks newToks s (e + 1)) (e + 1) ∨
      ∃ s', LineDiff.round oldToks newToks s (e + 1) = .ok s' ∧
        Frontier oldToks newToks s' (e + 1) := by
  have hround : LineDiff.round oldToks newToks s (e + 1) =
      (nextDiagonals s e).foldlM (visit oldToks newToks) s := rfl
  have hsorted : ([] ++ nextDiagonals s e).Pairwise fun a b => a + 2 ≤ b := pairwise_diagonals _ _
  rw [hround]
  obtain hfound | ⟨s', hs', hin⟩ := (InRound.start h.sound).foldlM h.sound hsorted
  · exact .inl hfound
  refine .inr ⟨s', hs', hin.sound, ?_, fun m hm => ?_, fun m hm => ?_⟩
  · obtain ⟨diag, hmem, x, y, hdiag, hx, hy, hoffers, hleft⟩ := h.offers
    obtain ⟨q, hq, hle⟩ := hin.offered hmem hoffers
    obtain ⟨x', y', e', -, hnode, hdiag', -, -⟩ := hin.sound _ _ hq
    have hpos := hnode.oldPos
    obtain ⟨n, rfl⟩ : ∃ n, x' = x + n := ⟨x' - x, by omega⟩
    obtain rfl : y' = y + n := by omega
    have hless := indels_drop_le n hnode.le.1 hnode.le.2
    exact ⟨diag, q, x + n, y + n, (h.mem_nextDiagonals.mp hmem).1, hq, hpos, hdiag', by omega⟩
  · obtain hsame | ⟨d, hd, hd', hend⟩ := hin.maxDiag
    · -- the path at the bound has been gone on from, which has lowered the bound
      rw [hsame] at hm
      obtain ⟨hmem, hoffers⟩ := h.max_mem hm
      obtain ⟨q, hq, hle⟩ := hin.offered hmem hoffers
      obtain ⟨m', hm', hlt⟩ := hin.maxDiag_le m hmem ⟨q, hq, by omega⟩
      cases (hsame.trans hm).symm.trans hm'
      omega
    · cases hm.symm.trans hd'
      rw [Int.sub_add_cancel]
      exact ⟨(h.mem_nextDiagonals.mp hd).1, hend⟩
  · obtain hsame | ⟨d, hd, hd', hend⟩ := hin.minDiag
    · rw [hsame] at hm
      obtain ⟨-, -, -, -, hlow⟩ := h.min_spec hm
      obtain ⟨hmem, hoffers⟩ := h.min_mem hm
      obtain ⟨q, hq, hle⟩ := hin.offered hmem hoffers
      obtain ⟨m', hm', hlt⟩ := hin.minDiag_ge m hmem ⟨q, hq, by omega⟩
      cases (hsame.trans hm).symm.trans hm'
      omega
    · cases hm.symm.trans hd'
      rw [Int.add_sub_cancel]
      exact ⟨(h.mem_nextDiagonals.mp hd).1, hend⟩

theorem Frontier.lt (h : Frontier oldToks newToks s e) : e < indels oldToks newToks := by
  obtain ⟨k, p, x, y, -, hp, hpos, hk, hleft⟩ := h.live
  obtain ⟨-, -, ⟨-, hnext⟩ | ⟨-, hnext⟩⟩ := (h.sound k p hp).next hpos hk (Nat.le_refl _) <;> omega

theorem Frontier.rounds (h : Frontier oldToks newToks s e) {n : Nat}
    (hn : indels oldToks newToks ≤ e + n) :
    Finds oldToks newToks (rounds oldToks newToks n s (e + 1)) (indels oldToks newToks) := by
  induction n generalizing s e with
  | zero => exact absurd hn (by have := h.lt; omega)
  | succ n ih =>
    rw [LineDiff.rounds]
    obtain ⟨comps, p, e', hfound, he', hnode⟩ | ⟨s', hs', hfrontier⟩ := h.round
    · exact ⟨comps, p, e', by rw [hfound]; rfl, Nat.le_trans he' h.lt, hnode⟩
    · rw [hs']
      exact ih hfrontier (by omega)

end Frontier

theorem frontier_seed {comps : Array Comp} {p : PathNode} {n : Nat}
    (h : NodeAt oldToks newToks comps p n n 0) (hstuck : Stuck oldToks newToks n n)
    (hopen : ¬ (n = oldToks.length ∧ n = newToks.length)) :
    Frontier oldToks newToks ⟨comps, Function.update (fun _ => none) 0 (some p), none, none⟩ 0 where
  sound := by
    intro k q hq
    by_cases hk : k = 0
    · subst hk
      simp only [Function.update_self, Option.some.injEq] at hq
      subst hq
      have := h.le
      exact ⟨n, n, 0, Nat.le_refl _, h, by omega, hstuck, by omega⟩
    · simp only [Function.update_of_ne hk] at hq
      cases hq
  live := by
    obtain ⟨hold, hnew⟩ := h.le
    have hleft : indels (oldToks.drop (0 + n)) (newToks.drop (0 + n)) ≤
        indels (oldToks.drop 0) (newToks.drop 0) :=
      indels_drop_le n (by omega) (by omega)
    rw [Nat.zero_add, List.drop_zero, List.drop_zero] at hleft
    exact ⟨0, p, n, n, ⟨by omega, by omega, by omega⟩, by simp only [Function.update_self],
      h.oldPos, by omega, hleft⟩
  maxDiag m hm := by cases hm
  minDiag m hm := by cases hm

theorem search_finds (oldToks newToks : List Bytes) :
    ∃ comps p, search oldToks newToks = .error (comps, p.last) ∧
      NodeAt oldToks newToks comps p oldToks.length newToks.length (indels oldToks newToks) := by
  have hnode : NodeAt oldToks newToks #[] ⟨-1, none⟩ 0 0 0 := ⟨⟨[], .nil, .start⟩, rfl⟩
  have hzero : (0 : Int) = ((0 : Nat) : Int) - ((0 : Nat) : Int) := rfl
  obtain ⟨comps, p, n, hextract, -, hseed, hstuck⟩ := extractCommon_spec hnode hzero
  rw [Nat.zero_add] at hextract hseed hstuck
  have hpos := hseed.oldPos
  have hle := hseed.le
  have hfinds : Finds oldToks newToks (search oldToks newToks) (indels oldToks newToks) := by
    have hsearch : search oldToks newToks =
        if n = oldToks.length ∧ n = newToks.length then .error (comps, p.last)
        else rounds oldToks newToks (newToks.length + oldToks.length)
          ⟨comps, Function.update (fun _ => none) 0 (some p), none, none⟩ 1 := by
      have hold : (oldToks.length : Int) ≤ p.oldPos + 1 ↔ n = oldToks.length := by omega
      have hnew : (newToks.length : Int) ≤ (n : Int) - 1 + 1 ↔ n = newToks.length := by omega
      rw [search]
      simp only [hextract, hold, hnew]
    rw [hsearch]
    by_cases hend : n = oldToks.length ∧ n = newToks.length
    · rw [if_pos hend]
      refine ⟨comps, p, 0, rfl, Nat.zero_le _, ?_⟩
      rwa [← hend.1, ← hend.2]
    · rw [if_neg hend]
      have hbound := indels_le_of_common (List.nil_sublist oldToks) (List.nil_sublist newToks)
      rw [List.length_nil] at hbound
      exact (frontier_seed hseed hstuck hend).rounds (by omega)
  obtain ⟨comps, p, e, hfound, he, hnode⟩ := hfinds
  obtain ⟨cs, hchain, hreaches⟩ := hnode.path
  have hle := hreaches.indels_le
  rw [List.drop_length, List.drop_length, indels_nil_left, List.length_nil, Nat.add_zero] at hle
  obtain rfl := Nat.le_antisymm he hle
  exact ⟨comps, p, hfound, hnode⟩

end JevCode.Edit.LineDiff
