import Mathlib.Data.List.Basic
import Mathlib.Data.List.Infix

namespace JevCode.Data

variable {α : Type}

/-- Every match that `find` reports at the position reached is replaced; an empty match is replaced
in front of the element there. -/
def replaceMatches (find : List α → Option (List α)) (f : List α → List α) : List α → List α
  | [] => (find []).elim [] f
  | c :: t =>
    match find (c :: t) with
    | none => c :: replaceMatches find f t
    | some [] => f [] ++ c :: replaceMatches find f t
    | some (x :: xs) => f (x :: xs) ++ replaceMatches find f (t.drop xs.length)
termination_by t => t.length

section

variable [DecidableEq α]

def alternation (vs : List (List α)) (t : List α) : Option (List α) := vs.find? (· <+: t)

theorem alternation_eq_some {vs : List (List α)} {t v : List α} (h : alternation vs t = some v) :
    v ∈ vs ∧ v <+: t :=
  ⟨List.mem_of_find?_eq_some h, by simpa using List.find?_some h⟩

theorem alternation_eq_none {vs : List (List α)} {t : List α} :
    alternation vs t = none ↔ ∀ v ∈ vs, ¬v <+: t := by
  simp [alternation]

theorem alternation_congr {vs : List (List α)} {t u : List α}
    (h : ∀ v ∈ vs, v <+: t ↔ v <+: u) : alternation vs t = alternation vs u := by
  unfold alternation
  induction vs with
  | nil => rfl
  | cons v vs ih =>
    simp only [List.find?_cons, h v List.mem_cons_self]
    rw [ih fun w hw => h w (List.mem_cons_of_mem v hw)]

end

section Delimiter

theorem prefix_append_cons_iff {d : α} {v : List α} (hd : d ∉ v) (a b : List α) :
    v <+: a ++ d :: b ↔ v <+: a := by
  refine ⟨fun h => ?_, fun h => h.trans (List.prefix_append a _)⟩
  cases List.prefix_or_prefix_of_prefix h (List.prefix_append a _) with
  | inl h => exact h
  | inr ha =>
    obtain ⟨w, rfl⟩ := ha
    cases w with
    | nil => simp
    | cons c w =>
      obtain ⟨rfl, -⟩ := List.cons_prefix_cons.mp ((List.prefix_append_right_inj a).mp h)
      exact absurd (List.mem_append_right a List.mem_cons_self) hd

variable [DecidableEq α] {d : α} {vs : List (List α)} {f : List α → List α}

theorem replaceMatches_append_cons (hd : ∀ v ∈ vs, d ∉ v) (hvs : [] ∉ vs) (a b : List α) :
    replaceMatches (alternation vs) f (a ++ d :: b) =
      replaceMatches (alternation vs) f a ++ d :: replaceMatches (alternation vs) f b := by
  have hcongr : ∀ a : List α, alternation vs (a ++ d :: b) = alternation vs a := fun a =>
    alternation_congr fun v hv => prefix_append_cons_iff (hd v hv) a b
  have hnil : alternation vs ([] : List α) = none :=
    alternation_eq_none.mpr fun v hv hp => hvs (List.prefix_nil.mp hp ▸ hv)
  fun_induction replaceMatches (alternation vs) f a with
  | case1 =>
    have hnone := (hcongr []).trans hnil
    rw [List.nil_append] at hnone ⊢
    rw [replaceMatches, hnone, hnil]
    rfl
  | case2 c t h ih =>
    have hnone := (hcongr (c :: t)).trans h
    rw [List.cons_append] at hnone ⊢
    rw [replaceMatches, hnone]
    simp only
    rw [ih, List.cons_append]
  | case3 c t h ih => exact absurd (alternation_eq_some h).1 hvs
  | case4 c t x xs h ih =>
    have hsome := (hcongr (c :: t)).trans h
    have hlen : xs.length ≤ t.length := Nat.le_of_succ_le_succ (alternation_eq_some h).2.length_le
    rw [List.cons_append] at hsome ⊢
    rw [replaceMatches, hsome]
    simp only
    rw [List.drop_append_of_le_length hlen, ih, List.append_assoc]

theorem count_replaceMatches (hd : ∀ v ∈ vs, d ∉ v) (hvs : [] ∉ vs)
    (hf : ∀ v ∈ vs, (f v).count d % 2 = 0) (t : List α) :
    (replaceMatches (alternation vs) f t).count d % 2 = t.count d % 2 := by
  fun_induction replaceMatches (alternation vs) f t with
  | case1 =>
    have hnil : alternation vs ([] : List α) = none :=
      alternation_eq_none.mpr fun v hv hp => hvs (List.prefix_nil.mp hp ▸ hv)
    rw [hnil]
    rfl
  | case2 c t h ih =>
    rw [List.count_cons, List.count_cons]
    omega
  | case3 c t h ih => exact absurd (alternation_eq_some h).1 hvs
  | case4 c t x xs h ih =>
    obtain ⟨hmem, u, hu⟩ := alternation_eq_some h
    have ht : t.drop xs.length = u := by
      rw [List.cons_append] at hu
      rw [← (List.cons.inj hu).2, List.drop_left]
    have hcount : (c :: t).count d = u.count d := by
      rw [← hu, List.count_append, List.count_eq_zero_of_not_mem (hd _ hmem), Nat.zero_add]
    rw [ht] at ih ⊢
    rw [List.count_append, hcount]
    have := hf _ hmem
    omega

theorem replaceMatches_of_infix {v : List α} (hv : v ≠ []) {t : List α} (h : v <:+: t) :
    ∃ a r, replaceMatches (alternation [v]) f t = a ++ f v ++ r ∧ a ⊆ t ∧ a.length < t.length := by
  induction t with
  | nil => exact absurd (List.infix_nil.mp h) hv
  | cons c t ih =>
    by_cases hp : v <+: c :: t
    · obtain ⟨x, xs, rfl⟩ := List.exists_cons_of_ne_nil hv
      have hfound : alternation [x :: xs] (c :: t) = some (x :: xs) := by simp [alternation, hp]
      refine ⟨[], replaceMatches (alternation [x :: xs]) f (t.drop xs.length), ?_, by simp, by simp⟩
      rw [replaceMatches, hfound, List.nil_append]
    · have hnone : alternation [v] (c :: t) = none := by simp [alternation, hp]
      obtain ⟨a, r, heq, hsub, hlen⟩ := ih ((List.infix_cons_iff.mp h).resolve_left hp)
      refine ⟨c :: a, r, ?_, List.cons_subset_cons c hsub, by simpa using hlen⟩
      rw [replaceMatches, hnone]
      simp only
      rw [heq]
      rfl

end Delimiter

structure Apart (p v : List α) : Prop where
  not_infix : ¬v <:+: p
  not_holds : ¬p <:+: v
  not_ends : ∀ x, x ≠ [] → x <:+ p → ¬x <+: v
  not_starts : ∀ x, x ≠ [] → x <+: p → ¬x <:+ v

theorem Apart.ne_nil {p v : List α} (h : Apart p v) : v ≠ [] := by
  intro hv
  exact h.not_infix (hv ▸ List.nil_infix)

theorem Apart.not_prefix_append {p v : List α} (h : Apart p v) {x : List α} (hx : x <:+ p)
    (hne : x ≠ []) (u : List α) : ¬v <+: x ++ u := by
  intro hv
  cases List.prefix_or_prefix_of_prefix hv (List.prefix_append x u) with
  | inl hvx => exact h.not_infix (hvx.isInfix.trans hx.isInfix)
  | inr hxv => exact h.not_ends x hne hx hxv

theorem apart_of_not_mem {d : α} {body v : List α} (hd : d ∉ v)
    (hv : ¬v <:+: d :: body ++ [d]) : Apart (d :: body ++ [d]) v where
  not_infix := hv
  not_holds h := hd (h.subset (by simp))
  not_ends x hne hx hxv := by
    obtain ⟨y, c, rfl⟩ := (List.eq_nil_or_concat' x).resolve_left hne
    have hc : c = d := by
      obtain ⟨z, hz⟩ := hx
      rw [← List.append_assoc] at hz
      exact (List.append_inj' hz rfl).2 |> List.singleton_inj.mp
    exact hd (hxv.subset (by simp [hc]))
  not_starts x hne hx hxv := by
    obtain ⟨c, y, rfl⟩ := List.exists_cons_of_ne_nil hne
    obtain ⟨rfl, -⟩ := List.cons_prefix_cons.mp hx
    exact hd (hxv.subset List.mem_cons_self)

inductive Token (α : Type)
  | plain (c : α)
  | mark (s : List α)
  deriving DecidableEq

namespace Token

def render (ph : List α → List α) : List (Token α) → List α
  | [] => []
  | .plain c :: ts => c :: render ph ts
  | .mark s :: ts => ph s ++ render ph ts

def source : List (Token α) → List α
  | [] => []
  | .plain c :: ts => c :: source ts
  | .mark s :: ts => s ++ source ts

def leading : List (Token α) → List α
  | .plain c :: ts => c :: leading ts
  | _ => []

def marks : List (Token α) → List (List α)
  | [] => []
  | .plain _ :: ts => marks ts
  | .mark s :: ts => s :: marks ts

attribute [local simp] render source leading marks

theorem leading_prefix_source (ts : List (Token α)) : leading ts <+: source ts := by
  induction ts with
  | nil => exact List.nil_prefix
  | cons t ts ih =>
    cases t with
    | plain c => exact List.cons_prefix_cons.mpr ⟨rfl, ih⟩
    | mark s => exact List.nil_prefix

theorem source_suffix {ts us : List (Token α)} (h : us <:+ ts) : source us <:+ source ts := by
  obtain ⟨ws, rfl⟩ := h
  induction ws with
  | nil => exact List.suffix_refl _
  | cons w ws ih =>
    cases w with
    | plain c => exact ih.trans (List.suffix_cons c _)
    | mark s => exact ih.trans (List.suffix_append s _)

theorem marks_suffix {ts us : List (Token α)} (h : us <:+ ts) : marks us <:+ marks ts := by
  obtain ⟨ws, rfl⟩ := h
  induction ws with
  | nil => exact List.suffix_refl _
  | cons w ws ih =>
    cases w with
    | plain c => exact ih
    | mark s => exact ih.trans (List.suffix_cons s _)

def Clear (ph : List α → List α) (ts : List (Token α)) (v : List α) : Prop :=
  v ≠ [] ∧ ∀ s ∈ marks ts, Apart (ph s) v

theorem prefix_render_iff {ph : List α → List α} {w : List α} {ts : List (Token α)}
    (hw : ∀ s ∈ marks ts, Apart (ph s) w) {v : List α} (hv : v <:+ w) :
    v <+: render ph ts ↔ v <+: leading ts := by
  induction ts generalizing v with
  | nil => rfl
  | cons t ts ih =>
    cases t with
    | plain c =>
      cases v with
      | nil => simp
      | cons a v =>
        have ih := ih hw ((List.suffix_cons a v).trans hv)
        simp only [render, leading, List.cons_prefix_cons, ih]
    | mark s =>
      have hs := hw s List.mem_cons_self
      cases v with
      | nil => simp
      | cons a v =>
        refine iff_of_false (fun h => ?_) (by simp [leading])
        cases List.prefix_or_prefix_of_prefix h (List.prefix_append (ph s) _) with
        | inl h => exact hs.not_starts _ (by simp) h hv
        | inr h => exact hs.not_holds (h.isInfix.trans hv.isInfix)

theorem not_infix_render {ph : List α → List α} {v : List α} {ts : List (Token α)}
    (hv : Clear ph ts v) (hfree : ∀ us, us <:+ ts → ¬v <+: leading us) : ¬v <:+: render ph ts := by
  induction ts with
  | nil =>
    intro h
    exact hv.1 (List.infix_nil.mp h)
  | cons t ts ih =>
    have hfree' : ∀ us, us <:+ ts → ¬v <+: leading us :=
      fun us hus => hfree us (hus.trans (List.suffix_cons t ts))
    intro h
    cases t with
    | plain c =>
      cases List.infix_cons_iff.mp h with
      | inl h =>
        have hlead : v <+: leading (.plain c :: ts) :=
          (prefix_render_iff hv.2 (List.suffix_refl v)).mp h
        exact hfree _ (List.suffix_refl _) hlead
      | inr h => exact ih hv hfree' h
    | mark s =>
      have hs := hv.2 s List.mem_cons_self
      have ih := ih ⟨hv.1, fun w hw => hv.2 w (List.mem_cons_of_mem s hw)⟩ hfree'
      obtain h | h | ⟨x, y, hne, -, rfl, hx, -⟩ := List.infix_append_iff_ne_nil.mp h
      · exact hs.not_infix h
      · exact ih h
      · exact hs.not_ends x hne hx (List.prefix_append x y)

theorem leading_eq_append {v : List α} {ts : List (Token α)} (h : v <+: leading ts) :
    ts = v.map .plain ++ ts.drop v.length := by
  induction v generalizing ts with
  | nil => rfl
  | cons a v ih =>
    cases ts with
    | nil => simp [leading] at h
    | cons t ts =>
      cases t with
      | plain c =>
        obtain ⟨rfl, h'⟩ := List.cons_prefix_cons.mp h
        simpa using ih h'
      | mark s => simp [leading] at h

theorem source_map_plain (v : List α) (ts : List (Token α)) :
    source (v.map .plain ++ ts) = v ++ source ts := by
  induction v with
  | nil => rfl
  | cons c v ih => simp [source, ih]

theorem render_map_plain (ph : List α → List α) (v : List α) (ts : List (Token α)) :
    render ph (v.map .plain ++ ts) = v ++ render ph ts := by
  induction v with
  | nil => rfl
  | cons c v ih => simp [render, ih]

theorem marks_map_plain (v : List α) (ts : List (Token α)) :
    marks (v.map .plain ++ ts) = marks ts := by
  induction v with
  | nil => rfl
  | cons c v ih => simp [marks, ih]

@[simp] theorem source_plain (t : List α) : source (t.map .plain) = t := by
  simpa [source] using source_map_plain t []

@[simp] theorem render_plain (ph : List α → List α) (t : List α) : render ph (t.map .plain) = t := by
  simpa [render] using render_map_plain ph t []

@[simp] theorem marks_plain (t : List α) : marks (t.map .plain) = [] := by
  simpa [marks] using marks_map_plain t []

section

variable [DecidableEq α]

def markWords (vs : List (List α)) : List (Token α) → List (Token α)
  | [] => []
  | .mark s :: ts => .mark s :: markWords vs ts
  | .plain c :: ts =>
    match alternation vs (c :: leading ts) with
    | some (x :: xs) => .mark (x :: xs) :: markWords vs (ts.drop xs.length)
    | _ => .plain c :: markWords vs ts
termination_by ts => ts.length

theorem split_found {vs : List (List α)} {c x : α} {xs : List α} {ts : List (Token α)}
    (h : alternation vs (c :: leading ts) = some (x :: xs)) :
    .plain c :: ts = (x :: xs).map .plain ++ ts.drop xs.length := by
  have hp : x :: xs <+: leading (.plain c :: ts) := (alternation_eq_some h).2
  exact leading_eq_append hp

theorem source_markWords (vs : List (List α)) (ts : List (Token α)) :
    source (markWords vs ts) = source ts := by
  fun_induction markWords with
  | case1 => rfl
  | case2 s ts ih => simp [source, ih]
  | case3 c ts x xs h ih =>
    rw [split_found h, source_map_plain, source, ih]
  | case4 c ts h ih => simp [source, ih]

theorem marks_markWords {vs : List (List α)} {ts : List (Token α)} :
    ∀ s ∈ marks (markWords vs ts), s ∈ marks ts ∨ s ∈ vs := by
  fun_induction markWords with
  | case1 => simp [marks]
  | case2 s ts ih =>
    intro w hw
    cases hw with
    | head => exact .inl List.mem_cons_self
    | tail _ hw => exact (ih w hw).imp (List.mem_cons_of_mem s) id
  | case3 c ts x xs h ih =>
    intro w hw
    rw [split_found h, marks_map_plain]
    cases hw with
    | head => exact .inr (alternation_eq_some h).1
    | tail _ hw => exact ih w hw
  | case4 c ts h ih => exact ih

theorem leading_markWords_prefix (vs : List (List α)) (ts : List (Token α)) :
    leading (markWords vs ts) <+: leading ts := by
  fun_induction markWords with
  | case1 => exact List.nil_prefix
  | case2 s ts ih => exact List.nil_prefix
  | case3 c ts x xs h ih => exact List.nil_prefix
  | case4 c ts h ih => exact List.cons_prefix_cons.mpr ⟨rfl, ih⟩

theorem leading_markWords {vs : List (List α)} (hvs : [] ∉ vs) (ts : List (Token α)) :
    ∀ us, us <:+ markWords vs ts → leading us = [] ∨ ∃ ws, ws <:+ ts ∧
      leading us <+: leading ws ∧ alternation vs (leading ws) = none := by
  fun_induction markWords with
  | case1 =>
    intro us hus
    rw [List.suffix_nil.mp hus]
    exact .inl rfl
  | case2 s ts ih =>
    intro us hus
    cases List.suffix_cons_iff.mp hus with
    | inl heq => exact .inl (by rw [heq]; rfl)
    | inr hus =>
      refine (ih us hus).imp id fun ⟨ws, hws, h⟩ => ⟨ws, hws.trans (List.suffix_cons _ _), h⟩
  | case3 c ts x xs h ih =>
    intro us hus
    cases List.suffix_cons_iff.mp hus with
    | inl heq => exact .inl (by rw [heq]; rfl)
    | inr hus =>
      refine (ih us hus).imp id fun ⟨ws, hws, h⟩ => ⟨ws, hws.trans ?_, h⟩
      exact (List.drop_suffix _ _).trans (List.suffix_cons _ _)
  | case4 c ts h ih =>
    intro us hus
    cases List.suffix_cons_iff.mp hus with
    | inl heq =>
      refine .inr ⟨.plain c :: ts, List.suffix_refl _, ?_, ?_⟩
      · rw [heq]
        exact List.cons_prefix_cons.mpr ⟨rfl, leading_markWords_prefix vs ts⟩
      · cases hfound : alternation vs (leading (.plain c :: ts)) with
        | none => rfl
        | some v =>
          cases v with
          | nil => exact absurd (alternation_eq_some hfound).1 hvs
          | cons x xs => exact absurd hfound (h x xs)
    | inr hus =>
      refine (ih us hus).imp id fun ⟨ws, hws, h⟩ => ⟨ws, hws.trans (List.suffix_cons _ _), h⟩

theorem free_markWords_self {vs : List (List α)} (hvs : [] ∉ vs) {v : List α} (hv : v ∈ vs)
    (ts us : List (Token α)) (hus : us <:+ markWords vs ts) : ¬v <+: leading us := by
  intro hp
  obtain hnil | ⟨ws, -, hlead, hnone⟩ := leading_markWords hvs ts us hus
  · rw [hnil, List.prefix_nil] at hp
    exact hvs (hp ▸ hv)
  · exact alternation_eq_none.mp hnone v hv (hp.trans hlead)

theorem free_markWords {vs : List (List α)} (hvs : [] ∉ vs) {v : List α} (hne : v ≠ [])
    {ts : List (Token α)} (hfree : ∀ us, us <:+ ts → ¬v <+: leading us) (us : List (Token α))
    (hus : us <:+ markWords vs ts) : ¬v <+: leading us := by
  intro hp
  obtain hnil | ⟨ws, hws, hlead, -⟩ := leading_markWords hvs ts us hus
  · rw [hnil, List.prefix_nil] at hp
    exact hne hp
  · exact hfree ws hws (hp.trans hlead)

end

def keep (p : List α → Bool) : List (Token α) → List (Token α)
  | [] => []
  | .plain c :: ts => .plain c :: keep p ts
  | .mark s :: ts => if p s then .mark s :: keep p ts else s.map .plain ++ keep p ts

attribute [local simp] keep

section

variable {p : List α → Bool}

theorem mem_marks_keep {ts : List (Token α)} {s : List α} :
    s ∈ marks (keep p ts) ↔ s ∈ marks ts ∧ p s = true := by
  induction ts with
  | nil => simp [keep, marks]
  | cons t ts ih =>
    cases t with
    | plain c => rw [keep, marks, marks, ih]
    | mark w =>
      rw [keep]
      split
      next hw =>
        simp only [marks, List.mem_cons, ih]
        constructor
        · rintro (rfl | h)
          · exact ⟨.inl rfl, hw⟩
          · exact ⟨.inr h.1, h.2⟩
        · rintro ⟨rfl | h, hp⟩
          · exact .inl rfl
          · exact .inr ⟨h, hp⟩
      next hw =>
        rw [marks_map_plain, ih, marks, List.mem_cons]
        constructor
        · exact fun h => ⟨.inr h.1, h.2⟩
        · rintro ⟨rfl | h, hp⟩
          · exact absurd hp hw
          · exact ⟨h, hp⟩

end

section

variable [DecidableEq α] {ph : List α → List α}

theorem replaceMatches_placeholder {vs : List (List α)} {f : List α → List α} {p : List α}
    (hvs : ∀ v ∈ vs, Apart p v) (u x : List α) (hx : x <:+ p) :
    replaceMatches (alternation vs) f (x ++ u) = x ++ replaceMatches (alternation vs) f u := by
  induction x with
  | nil => rfl
  | cons c x ih =>
    have hnone : alternation vs (c :: x ++ u) = none :=
      alternation_eq_none.mpr fun v hv => (hvs v hv).not_prefix_append hx (by simp) u
    rw [List.cons_append] at hnone ⊢
    rw [replaceMatches]
    simp only [hnone]
    rw [ih ((List.suffix_cons c x).trans hx)]
    rfl

theorem replaceMatches_render {vs : List (List α)} {f : List α → List α} (hf : ∀ v ∈ vs, f v = ph v)
    (ts : List (Token α)) (hvs : ∀ v ∈ vs, Clear ph ts v) :
    replaceMatches (alternation vs) f (render ph ts) = render ph (markWords vs ts) := by
  have hcongr : ∀ {us : List (Token α)}, (∀ v ∈ vs, Clear ph us v) →
      alternation vs (render ph us) = alternation vs (leading us) :=
    fun h => alternation_congr fun v hv => prefix_render_iff (h v hv).2 (List.suffix_refl v)
  fun_induction markWords with
  | case1 =>
    have hnone : alternation vs ([] : List α) = none :=
      alternation_eq_none.mpr fun v hv hp => (hvs v hv).1 (List.prefix_nil.mp hp)
    rw [render, replaceMatches, hnone]
    rfl
  | case2 s ts ih =>
    have hs : ∀ v ∈ vs, Apart (ph s) v := fun v hv => (hvs v hv).2 s List.mem_cons_self
    rw [render, render, replaceMatches_placeholder hs _ _ (List.suffix_refl _), ih]
    exact fun v hv => ⟨(hvs v hv).1, fun w hw => (hvs v hv).2 w (List.mem_cons_of_mem s hw)⟩
  | case3 c ts x xs h ih =>
    have hsplit := split_found h
    have hmarks : marks (.plain c :: ts) = marks (ts.drop xs.length) := by
      rw [hsplit, marks_map_plain]
    have ih := ih fun v hv => ⟨(hvs v hv).1, hmarks ▸ (hvs v hv).2⟩
    have hdrop : (render ph ts).drop xs.length = render ph (ts.drop xs.length) := by
      have := congrArg (render ph) hsplit
      rw [render_map_plain, render, List.cons_append] at this
      rw [(List.cons.inj this).2, List.drop_left]
    have hfound : alternation vs (c :: render ph ts) = some (x :: xs) := (hcongr hvs).trans h
    rw [render, replaceMatches, hfound]
    simp only
    rw [hf _ (alternation_eq_some h).1, hdrop, ih]
    rfl
  | case4 c ts h ih =>
    have hnone : alternation vs (c :: render ph ts) = none := by
      rw [show alternation vs (c :: render ph ts) = _ from hcongr hvs]
      cases hfound : alternation vs (leading (.plain c :: ts)) with
      | none => rfl
      | some v =>
        cases v with
        | nil => exact absurd rfl (hvs _ (alternation_eq_some hfound).1).1
        | cons x xs => exact absurd hfound (h x xs)
    rw [render, replaceMatches, hnone]
    simp only
    rw [ih hvs]
    rfl

end

theorem infix_render (ph : List α → List α) {s : List α} {ts : List (Token α)} (h : s ∈ marks ts) :
    ph s <:+: render ph ts := by
  induction ts with
  | nil => cases h
  | cons t ts ih =>
    cases t with
    | plain c => exact (ih h).trans (List.suffix_cons c _).isInfix
    | mark w =>
      cases h with
      | head => exact (List.prefix_append _ _).isInfix
      | tail _ h => exact (ih h).trans (List.suffix_append _ _).isInfix

theorem render_of_marks_eq_nil (ph : List α → List α) {ts : List (Token α)} (h : marks ts = []) :
    render ph ts = source ts := by
  induction ts with
  | nil => rfl
  | cons t ts ih =>
    cases t with
    | plain c => rw [render, source, ih h]
    | mark s => cases h

theorem prefix_render_cases {ph : List α → List α} {d : α} {m : List α} {ts : List (Token α)}
    (hph : ∀ s, ∃ body, ph s = d :: body) (hd : d ∉ m) (h : m ++ [d] <+: render ph ts) :
    m ++ [d] <+: leading ts ∨ ∃ s us, ts = m.map .plain ++ .mark s :: us := by
  induction m generalizing ts with
  | nil =>
    cases ts with
    | nil => simp [render] at h
    | cons t ts =>
      cases t with
      | plain c =>
        exact .inl (List.cons_prefix_cons.mpr ⟨(List.cons_prefix_cons.mp h).1, List.nil_prefix⟩)
      | mark s => exact .inr ⟨s, ts, rfl⟩
  | cons a m ih =>
    cases ts with
    | nil => simp [render] at h
    | cons t ts =>
      cases t with
      | plain c =>
        obtain ⟨rfl, hrest⟩ := List.cons_prefix_cons.mp h
        have ih := ih (fun hm => hd (List.mem_cons_of_mem a hm)) hrest
        refine ih.imp (fun hlead => ?_) fun ⟨s, us, heq⟩ => ?_
        · exact List.cons_prefix_cons.mpr ⟨rfl, hlead⟩
        · exact ⟨s, us, by rw [heq]; rfl⟩
      | mark s =>
        obtain ⟨body, hbody⟩ := hph s
        rw [render, hbody] at h
        exact absurd (List.cons_prefix_cons.mp h).1 fun ha => hd (ha ▸ List.mem_cons_self)

theorem replaceMatches_source {ph : List α → List α} {find : List α → Option (List α)}
    {g : List α → List α} (hnil : find [] = none) (ts : List (Token α))
    (hmark : ∀ s ∈ marks ts, ph s ≠ [] ∧ (∀ u, find (ph s ++ u) = some (ph s)) ∧ g (ph s) = s)
    (hplain : ∀ c us, .plain c :: us <:+ ts → find (c :: render ph us) = none) :
    replaceMatches find g (render ph ts) = source ts := by
  induction ts with
  | nil =>
    rw [render, replaceMatches, hnil]
    rfl
  | cons t ts ih =>
    have hplain' : ∀ c us, .plain c :: us <:+ ts → find (c :: render ph us) = none :=
      fun c us hus => hplain c us (hus.trans (List.suffix_cons t ts))
    cases t with
    | plain c =>
      rw [render, replaceMatches, hplain c ts (List.suffix_refl _)]
      simp only
      rw [ih hmark hplain', source]
    | mark s =>
      obtain ⟨hne, hfind, hg⟩ := hmark s List.mem_cons_self
      have ih := ih (fun w hw => hmark w (List.mem_cons_of_mem s hw)) hplain'
      rw [render, source]
      cases hs : ph s with
      | nil => exact absurd hs hne
      | cons x xs =>
        have hfound := hfind (render ph ts)
        rw [hs, List.cons_append] at hfound
        rw [List.cons_append, replaceMatches, hfound]
        simp only
        rw [List.drop_left, ih, ← hs, hg]

end Token

end JevCode.Data
