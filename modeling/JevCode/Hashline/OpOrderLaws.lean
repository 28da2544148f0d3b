import JevCode.Hashline.OpOrder

namespace JevCode.Hashline

open JevCode.Text JevCode.Data

section

variable {xs ys bof es p r : List String} {last : String}

theorem concat_ne_blank (h : xs ≠ [] ∨ last ≠ "") : xs ++ [last] ≠ [""] := by
  intro heq
  rw [List.append_eq_singleton_iff] at heq
  rcases heq with ⟨rfl, heq⟩ | ⟨-, heq⟩
  · simp_all
  · simp at heq

theorem insertAtStart_of_ne (h : xs ≠ [""]) : insertAtStart xs bof = bof ++ xs := by
  unfold insertAtStart
  split
  · rename_i hnil
    rw [hnil, List.nil_append]
  · rfl

theorem insertAtEnd_concat (h : xs ≠ [] ∨ last ≠ "") :
    (insertAtEnd (xs ++ [last]) es).1 = if last = "" then xs ++ es ++ [last] else xs ++
    [last] ++ es := by
  unfold insertAtEnd
  split
  · rename_i hnil
    simp [hnil]
  · rw [if_neg (concat_ne_blank h)]
    by_cases hlast : last = ""
    · simp [hlast]
    · have htake : (xs ++ [last]).take (xs.length + 1) = xs ++ [last] :=
        List.take_of_length_le (by simp)
      simp [hlast, htake]

theorem edges_of_last_ne (h : last ≠ "") :
    (insertAtEnd (insertAtStart (xs ++ [last]) bof) es).1 = bof ++ (xs ++ [last]) ++ es := by
  rw [insertAtStart_of_ne (concat_ne_blank (.inr h)), ← List.append_assoc,
    insertAtEnd_concat (.inr h), if_neg h]

theorem edges_of_last_blank (h : xs ≠ []) :
    (insertAtEnd (insertAtStart (xs ++ [""]) bof) es).1 = bof ++ xs ++ es ++ [""] := by
  rw [insertAtStart_of_ne (concat_ne_blank (.inl h)), ← List.append_assoc,
    insertAtEnd_concat (.inl (by simp [h])), if_pos rfl]

theorem length_edges_blank (h : es ≠ []) :
    (insertAtEnd (insertAtStart [""] bof) es).1.length ≤ bof.length + es.length := by
  by_cases hbof : bof = []
  · simp [insertAtStart, insertAtEnd, h, hbof]
  · have hstart : insertAtStart [""] bof = bof := by simp [insertAtStart, hbof]
    rw [hstart]
    by_cases hblank : bof = [""]
    · simp [insertAtEnd, h, hblank]
    · simp only [insertAtEnd, h, hblank, if_false, List.length_append, List.length_take,
        List.length_drop]
      omega

theorem insertAtEnd_inj {es' : List String} (hes : es ≠ []) (hes' : es' ≠ [])
    (h : (insertAtEnd xs es).1 = (insertAtEnd xs es').1) : es = es' := by
  unfold insertAtEnd at h
  rw [if_neg hes, if_neg hes'] at h
  split at h
  · exact h
  · simpa using h

theorem commute_of_insertAtEnd_eq (hxs : xs ≠ []) (hp : p ≠ []) (hr : r ≠ [])
    (h : (insertAtEnd (xs ++ (r ++ p)) es).1 = (insertAtEnd (xs ++ (p ++ r)) es).1) :
    p ++ r = r ++ p := by
  obtain ⟨q, u, rfl⟩ := p.eq_nil_or_concat'.resolve_left hp
  obtain ⟨s, v, rfl⟩ := r.eq_nil_or_concat'.resolve_left hr
  have hl : xs ++ ((s ++ [v]) ++ (q ++ [u])) = xs ++ (s ++ [v]) ++ q ++ [u] := by simp
  have hr' : xs ++ ((q ++ [u]) ++ (s ++ [v])) = xs ++ (q ++ [u]) ++ s ++ [v] := by simp
  rw [hl, hr', insertAtEnd_concat (.inl (by simp [hxs])),
    insertAtEnd_concat (.inl (by simp [hxs]))] at h
  by_cases hu : u = "" <;> by_cases hv : v = ""
  · subst hu hv
    have hcat : s ++ [""] ++ q ++ (es ++ [""]) = q ++ [""] ++ s ++ (es ++ [""]) := by simpa using h
    have hwords := congrArg (· ++ [""]) (List.append_cancel_right hcat)
    simpa using hwords.symm
  · -- the blank end of the first payload would have to move behind the EOF inserts
    have hlast :=
      getLast?_of_letter_moves (z := u) (p := s ++ [v]) (q := q) (e := es) (by simp) (by simp_all)
    simp_all
  · have hlast :=
      getLast?_of_letter_moves (z := v) (p := q ++ [u]) (q := s) (e := es) (by simp) (by simp_all)
    simp_all
  · have hcat : s ++ [v] ++ (q ++ [u]) ++ es = q ++ [u] ++ (s ++ [v]) ++ es := by
      rw [if_neg hu, if_neg hv] at h
      simpa using h
    exact (List.append_cancel_right hcat).symm

theorem commute_of_edges_eq (hxs : xs ≠ []) (hp : p ≠ [])
    (h : (insertAtEnd (insertAtStart (xs ++ (r ++ p ++ ys)) bof) es).1 =
      (insertAtEnd (insertAtStart (xs ++ (p ++ r ++ ys)) bof) es).1) : p ++ r = r ++ p := by
  by_cases hr : r = []
  · simp [hr]
  have hne : ∀ zs : List String, zs ≠ [] → xs ++ zs ≠ [""] := by
    intro zs hzs heq
    rw [List.append_eq_singleton_iff] at heq
    simp_all
  have hassoc : ∀ zs : List String, bof ++ (xs ++ zs) = bof ++ xs ++ zs := fun zs =>
    (List.append_assoc ..).symm
  rw [insertAtStart_of_ne (hne _ (by simp [hp])), insertAtStart_of_ne (hne _ (by simp [hp])),
    hassoc, hassoc] at h
  rcases ys.eq_nil_or_concat' with rfl | ⟨ys, y, rfl⟩
  · rw [List.append_nil, List.append_nil] at h
    exact commute_of_insertAtEnd_eq (by simp [hxs]) hp hr h
  · have hconcat : ∀ zs : List String, bof ++ xs ++ (zs ++ (ys ++ [y])) = bof ++ xs ++ zs ++ ys ++
        [y] := by simp
    rw [hconcat, hconcat, insertAtEnd_concat (.inl (by simp [hxs])),
      insertAtEnd_concat (.inl (by simp [hxs]))] at h
    have hcat : r ++ p ++ (ys ++ if y = "" then es ++ [y] else [y] ++ es) =
        p ++ r ++ (ys ++ if y = "" then es ++ [y] else [y] ++ es) := by
      by_cases hy : y = "" <;> simpa [hy] using h
    exact (List.append_cancel_right hcat).symm

end

section

variable {ops ops' : List Op} {fileLines : List String} {options : ApplyOptions}

theorem afterText_zero (hvalid : validateHashlineAnchors (opEdits ops) fileLines = .ok []) :
    afterText ops 0 = [] := by
  rw [afterText, payloadsAt, List.flatMap_eq_nil_iff]
  intro op hop
  have hne : op.cursor.afterLine? ≠ some 0 := fun h => by
    have := afterLine?_inRange hvalid hop h
    omega
  simp [hne]

theorem placedBody_eq (hvalid : validateHashlineAnchors (opEdits ops) fileLines = .ok []) :
    placedBody ops fileLines = splicedLines (afterFirst ops) fileLines ++
      afterText ops fileLines.length := by
  have hshift :=
    flatMap_range'_shift (afterText ops) (fun l => beforeText ops l ++ keptLine ops fileLines l)
    fileLines.length
  rw [afterText_zero hvalid, List.nil_append] at hshift
  rw [placedBody, hshift, splicedLines]
  congr 1
  apply List.flatMap_congr
  intro l hl
  rw [List.mem_range'_1] at hl
  rw [landingText_afterFirst hl.1 (by omega), keptLine_perm (afterFirst_perm ops), List.append_assoc]

theorem bofText_perm (hind : Independent ops) (h : ops'.Perm ops) : bofText ops' = bofText ops :=
  payloadsAt_perm h fun _ ha _ hb hpa hpb => by
    rw [hind.eq_of_bof ha hb (of_decide_eq_true hpa) (of_decide_eq_true hpb)]

theorem splicedLines_perm (hind : Independent ops) (hcomm : PayloadsCommute ops fileLines)
    (h : ops'.Perm ops) :
    splicedLines ops' fileLines = splicedLines ops fileLines := by
  apply List.flatMap_congr
  intro l _
  have hland : landingText ops' fileLines l = landingText ops fileLines l :=
    payloadsAt_perm h fun _ ha _ hb hpa hpb =>
    hcomm.landing hind ha hb (of_decide_eq_true hpa) (of_decide_eq_true hpb)
  rw [hland, keptLine_perm h]

theorem endText_perm (hvalid : validateHashlineAnchors (opEdits ops) fileLines = .ok [])
    (hind : Independent ops) (hcomm : PayloadsCommute ops fileLines) (h : ops'.Perm ops) :
    endText ops' fileLines = endText ops fileLines :=
  payloadsAt_perm h fun _ ha _ hb hpa hpb =>
    hcomm.atEnd hind ha hb hvalid (of_decide_eq_true hpa) (of_decide_eq_true hpb)

theorem validate_perm (h : ops'.Perm ops)
    (hvalid : validateHashlineAnchors (opEdits ops) fileLines = .ok []) :
    validateHashlineAnchors (opEdits ops') fileLines = .ok [] :=
  validate_opEdits_iff.mpr fun op hop => validate_opEdits_iff.mp hvalid op (h.mem_iff.mp hop)

def afterFirstLines (ops : List Op) (fileLines : List String) : List String :=
  (insertAtEnd (insertAtStart (splicedLines (afterFirst ops) fileLines) (bofText ops))
    (afterText ops fileLines.length ++ eofText ops)).1

theorem resultLines_afterFirst (hvalid : validateHashlineAnchors (opEdits ops) fileLines = .ok [])
    (hind : Independent ops) (hnone : triggersNoAbsorption (opEdits ops) fileLines options = true) :
    resultLines (opEdits (afterFirst ops)) fileLines options = afterFirstLines ops fileLines := by
  have hperm := afterFirst_perm ops
  rw [resultLines_opEdits (validate_perm hperm hvalid) (by rwa [triggersNoAbsorption_perm hperm]),
    bofText_perm hind hperm, endText_afterFirst fun op hop l hl =>
    (afterLine?_inRange hvalid hop hl).2, afterFirstLines]

theorem resultLines_of_perm (hvalid : validateHashlineAnchors (opEdits ops) fileLines = .ok [])
    (hind : Independent ops) (hnone : triggersNoAbsorption (opEdits ops) fileLines options = true)
    (hcomm : PayloadsCommute ops fileLines) (h : ops'.Perm ops) :
    resultLines (opEdits ops') fileLines options = afterFirstLines ops fileLines := by
  rw [← resultLines_afterFirst hvalid hind hnone]
  have key : ∀ ops', ops'.Perm ops → resultLines (opEdits ops') fileLines options =
      (insertAtEnd (insertAtStart (splicedLines ops fileLines) (bofText ops))
      (endText ops fileLines)).1 := by
    intro ops' h
    rw [resultLines_opEdits (validate_perm h hvalid) (by rwa [triggersNoAbsorption_perm h]),
      bofText_perm hind h, splicedLines_perm hind hcomm h, endText_perm hvalid hind hcomm h]
  rw [key ops' h, key _ (afterFirst_perm ops)]

theorem payloadsAt_of_unique {p : Cursor → Bool} {a : Op} (ha : a ∈ ops) (hpa : p a.cursor = true)
    (hunique : ops.Pairwise fun b c => p b.cursor = true → ¬ p c.cursor = true) :
    payloadsAt p ops = a.payload := by
  obtain ⟨s, t, rfl⟩ := List.append_of_mem ha
  have hs : payloadsAt p s = [] := by
    rw [payloadsAt, List.flatMap_eq_nil_iff]
    intro b hb
    have hpb : ¬ p b.cursor = true := fun hpb =>
      (List.pairwise_append.mp hunique).2.2 b hb a (by simp) hpb hpa
    simp [hpb]
  have ht : payloadsAt p t = [] := by
    rw [payloadsAt, List.flatMap_eq_nil_iff]
    intro b hb
    have hpb := List.rel_of_pairwise_cons (List.pairwise_append.mp hunique).2.1 hb hpa
    simp [hpb]
  have hcons : payloadsAt p (a :: t) = a.payload ++ payloadsAt p t := by simp [payloadsAt, hpa]
  rw [payloadsAt_append, hs, hcons, ht, List.nil_append, List.append_nil]

theorem afterText_eq (hind : Independent ops) {a : Op} (ha : a ∈ ops) {l : Nat}
    (hl : a.cursor.afterLine? = some l) :
    afterText ops l = a.payload :=
  payloadsAt_of_unique ha (decide_eq_true hl) (hind.disjoint.imp fun h hb hc =>
    h l (Op.after_spec (of_decide_eq_true hb)).1 (Op.after_spec (of_decide_eq_true hc)).1)

theorem beforeText_eq (hind : Independent ops) {a : Op} (ha : a ∈ ops) {l : Nat}
    (hl : a.cursor.beforeLine? = some l) :
    beforeText ops l = a.payload :=
  payloadsAt_of_unique ha (decide_eq_true hl) (hind.disjoint.imp fun h hb hc =>
    h l (Op.before_spec (of_decide_eq_true hb)).1 (Op.before_spec (of_decide_eq_true hc)).1)

theorem eofText_eq (hind : Independent ops) {a : Op} (ha : a ∈ ops) (hl : a.cursor = .eof) :
    eofText ops = a.payload :=
  payloadsAt_of_unique ha (decide_eq_true hl) (hind.eof.imp fun h hb hc =>
    h (of_decide_eq_true hb) (of_decide_eq_true hc))

theorem Op.targets_of_mem_deletedLines {op : Op} {l : Nat} (h : l ∈ op.deletedLines) :
    l ∈ op.targets := by
  cases op with
  | insert cursor first rest => simp [Op.deletedLines, Op.deleted] at h
  | replace range payload => exact h

theorem keptLine_of_after (hind : Independent ops) {a : Op} (ha : a ∈ ops) {l : Nat}
    (hl : a.cursor.afterLine? = some l) : keptLine ops fileLines l = [lineAt fileLines l] := by
  have hnone : (ops.any fun op => op.deletedLines.contains l) = false := by
    rw [List.any_eq_false]
    intro b hb hdel
    have hmem : l ∈ b.deletedLines := by simpa using hdel
    rw [← hind.eq_of_target ha hb (Op.after_spec hl).1 (Op.targets_of_mem_deletedLines hmem),
      (Op.after_spec hl).2.2.2] at hmem
    cases hmem
  rw [keptLine, hnone]
  rfl

def leadLines (ops : List Op) (fileLines : List String) : List String :=
  (List.range' 1 (fileLines.length - 1)).flatMap
    (fun l => landingText ops fileLines l ++ keptLine ops fileLines l) ++
    landingText ops fileLines fileLines.length

theorem splicedLines_eq_leadLines (hind : Independent ops) {a : Op} (ha : a ∈ ops)
    (hlast : a.cursor.afterLine? = some fileLines.length) (h : ops'.Perm ops)
    (hpos : 1 ≤ fileLines.length) :
    splicedLines ops' fileLines = leadLines ops' fileLines ++
      [lineAt fileLines fileLines.length] := by
  rw [splicedLines, range'_split hpos le_rfl, Nat.sub_self, List.range'_zero,
    List.flatMap_append, leadLines]
  simp [keptLine_perm h, keptLine_of_after hind ha hlast]

theorem landingText_ne_nil_iff {l : Nat} :
    landingText ops fileLines l ≠ [] ↔ ∃ op ∈ ops, op.payload ≠ [] ∧
      op.cursor.landing? fileLines = some l := by
  rw [landingText, payloadsAt, ne_eq, List.flatMap_eq_nil_iff]
  constructor
  · intro h
    push Not at h
    obtain ⟨op, hop, hne⟩ := h
    split at hne
    · rename_i hl
      exact ⟨op, hop, hne, of_decide_eq_true hl⟩
    · exact absurd rfl hne
  · rintro ⟨op, hop, hne, hl⟩ hall
    exact hne (by simpa [hl] using hall op hop)

theorem keptLine_ne_nil_iff {l : Nat} :
    keptLine ops fileLines l ≠ [] ↔ ∀ op ∈ ops, l ∉ op.deletedLines := by
  rw [keptLine]
  split
  · rename_i h
    simpa using h
  · rename_i h
    simpa using h

theorem leadLines_ne_nil_iff (hvalid : validateHashlineAnchors (opEdits ops) fileLines = .ok [])
    (h : ops'.Perm ops) :
    leadLines ops' fileLines ≠ [] ↔ LeavesMore ops fileLines := by
  have hland : ∀ l, landingText ops' fileLines l ≠ [] ↔
      ∃ op ∈ ops, op.payload ≠ [] ∧ op.cursor.landing? fileLines = some l := by
    intro l
    simp only [landingText_ne_nil_iff, h.mem_iff]
  have hkept : ∀ l, keptLine ops' fileLines l ≠ [] ↔ ∀ op ∈ ops, l ∉ op.deletedLines := by
    intro l
    simp only [keptLine_ne_nil_iff, h.mem_iff]
  simp only [leadLines, ne_eq, List.append_eq_nil_iff, List.flatMap_eq_nil_iff,
    not_and_or, not_forall, List.mem_range'_1]
  constructor
  · rintro (⟨l, hl, hne | hne⟩ | hne)
    · obtain ⟨op, hop, hp, hlanding⟩ := (hland l).mp hne
      exact .inr ⟨op, hop, hp, by simp [hlanding]⟩
    · exact .inl ⟨l, hl.1, by omega, (hkept l).mp hne⟩
    · obtain ⟨op, hop, hp, hlanding⟩ := (hland _).mp hne
      exact .inr ⟨op, hop, hp, by simp [hlanding]⟩
  · rintro (⟨l, h1, h2, hne⟩ | ⟨op, hop, hp, hsome⟩)
    · exact .inl ⟨l, by omega, .inr ((hkept l).mpr hne)⟩
    · obtain ⟨l, hl⟩ := Option.isSome_iff_exists.mp hsome
      have hrange := landing?_inRange (fun a => cursor_inRange hvalid hop) hl
      by_cases hlast : l = fileLines.length
      · subst hlast
        exact .inr ((hland _).mpr ⟨op, hop, hp, hl⟩)
      · exact .inl ⟨l, by omega, .inl ((hland l).mpr ⟨op, hop, hp, hl⟩)⟩

theorem afterFirstLines_eq_placed_iff
    (hvalid : validateHashlineAnchors (opEdits ops) fileLines = .ok []) (hind : Independent ops) :
    afterFirstLines ops fileLines = placed ops fileLines ↔
      ∀ a ∈ ops, a.cursor.afterLine? = some fileLines.length →
        lineAt fileLines fileLines.length = "" →
        (∀ t ∈ a.payload ++ eofText ops, t = "") ∧ LeavesMore ops fileLines := by
  by_cases hex : ∃ a ∈ ops, a.cursor.afterLine? = some fileLines.length
  · obtain ⟨a, ha, hlast⟩ := hex
    have hunique : ∀ b ∈ ops, b.cursor.afterLine? = some fileLines.length → b = a := fun b hb hbl =>
      hind.eq_of_target hb ha (Op.after_spec hbl).1 (Op.after_spec hlast).1
    have hpos := (afterLine?_inRange hvalid ha hlast).1
    have hpayload := (Op.after_spec hlast).2.2.1
    have hspliced := splicedLines_eq_leadLines hind ha hlast (afterFirst_perm ops) hpos
    have hlead := leadLines_ne_nil_iff hvalid (afterFirst_perm ops)
    rw [afterFirstLines, placed, placedBody_eq hvalid, hspliced, afterText_eq hind ha hlast,
      if_neg hpayload]
    have hgoal : (∀ b ∈ ops, b.cursor.afterLine? = some fileLines.length →
        lineAt fileLines fileLines.length = "" →
          (∀ t ∈ b.payload ++ eofText ops, t = "") ∧ LeavesMore ops fileLines) ↔
        (lineAt fileLines fileLines.length = "" →
          (∀ t ∈ a.payload ++ eofText ops, t = "") ∧ LeavesMore ops fileLines) :=
      ⟨fun h => h a ha hlast, fun h b hb hbl => by rwa [hunique b hb hbl]⟩
    rw [hgoal, ← hlead]
    by_cases hblank : lineAt fileLines fileLines.length = ""
    · simp only [hblank, true_implies]
      by_cases hnil : leadLines (afterFirst ops) fileLines = []
      · simp only [hnil, List.nil_append, ne_eq, not_true_eq_false, and_false, iff_false]
        intro heq
        have hlen : (insertAtEnd (insertAtStart [""] (bofText ops))
            (a.payload ++ eofText ops)).1.length ≤
            (bofText ops).length + (a.payload ++ eofText ops).length :=
            length_edges_blank (by simp [hpayload])
        rw [heq] at hlen
        simp only [List.length_append, List.length_cons] at hlen
        omega
      · simp only [edges_of_last_blank hnil, hnil, ne_eq, not_false_eq_true, and_true]
        rw [← append_singleton_eq_cons_iff]
        simp
    · simp only [hblank, false_implies, iff_true]
      rw [edges_of_last_ne hblank]
      simp
  · have hnil : afterText ops fileLines.length = [] := by
      rw [afterText, payloadsAt, List.flatMap_eq_nil_iff]
      intro op hop
      have hne : op.cursor.afterLine? ≠ some fileLines.length := fun h => hex ⟨op, hop, h⟩
      simp [hne]
    rw [afterFirstLines, placed, placedBody_eq hvalid, hnil, List.nil_append,
      List.append_nil, if_pos rfl]
    simp only [true_iff]
    exact fun a ha hlast => absurd ⟨a, ha, hlast⟩ hex

def afterLast (a : Op) (rest : List Op) : List Op := afterFirst rest ++ [a]

section

variable {s t : List Op} {a : Op}

theorem afterLast_perm : (afterLast a (s ++ t)).Perm (s ++ a :: t) := by
  have hlast : (s ++ t ++ [a]).Perm (a :: (s ++ t)) := List.perm_append_singleton ..
  exact ((afterFirst_perm (s ++ t)).append_right [a]).trans (hlast.trans List.perm_middle.symm)

theorem payloadsAt_remove {p : Cursor → Bool} (hp : p a.cursor = false) :
    payloadsAt p (s ++ a :: t) = payloadsAt p (s ++ t) := by
  simp [payloadsAt, hp]

theorem payloadsAt_afterLast (p : Cursor → Bool) :
    payloadsAt p (afterLast a (s ++ t)) =
      payloadsAt p (afterFirst (s ++ t)) ++ if p a.cursor then a.payload else [] := by
  rw [afterLast, payloadsAt_append]
  simp [payloadsAt]

theorem Cursor.landing?_of_after {c : Cursor} {k l : Nat} (h2 : l ≤ fileLines.length)
    (hc : c.afterLine? = some k) :
    c.landing? fileLines = some l ↔ k + 1 = l := by
  cases c with
  | afterAnchor a =>
    cases hc
    simp only [Cursor.landing?, Cursor.normalize]
    split
    · simp only [Cursor.beforeLine?, reduceCtorEq, false_iff]
      omega
    · simp [Cursor.beforeLine?]
  | _ => cases hc

theorem Cursor.normalize_eq_eof_of_after {c : Cursor} {k : Nat} (hc : c.afterLine? = some k) :
    c.normalize fileLines = .eof ↔ fileLines.length ≤ k := by
  cases c with
  | afterAnchor a =>
    cases hc
    simp only [Cursor.normalize]
    split <;> simp_all
  | _ => cases hc

theorem Cursor.ne_of_after {c : Cursor} {k : Nat} (hc : c.afterLine? = some k) :
    c.beforeLine? = none ∧ c ≠ .eof := by
  cases c <;> simp_all [Cursor.afterLine?, Cursor.beforeLine?]

theorem afterText_others (hind : Independent (s ++ a :: t)) {k : Nat}
    (hk : a.cursor.afterLine? = some k) :
    afterText (s ++ t) k = [] := by
  have hall := afterText_eq hind (by simp) hk
  have hcons : afterText (s ++ a :: t) k = afterText s k ++ (a.payload ++ afterText t k) := by
    simp [afterText, payloadsAt, hk]
  have hlen := congrArg List.length (hcons.symm.trans hall)
  simp only [List.length_append] at hlen
  rw [afterText, payloadsAt_append, ← afterText, ← afterText, List.append_eq_nil_iff]
  exact ⟨List.eq_nil_of_length_eq_zero (by omega), List.eq_nil_of_length_eq_zero (by omega)⟩

theorem afterText_of_ne {k l : Nat} (hk : a.cursor.afterLine? = some k) (hne : k ≠ l) :
    afterText (s ++ a :: t) l = afterText (s ++ t) l :=
  payloadsAt_remove (by simp [hk, hne])

theorem landingText_afterLast {k l : Nat} (h1 : 1 ≤ l) (h2 : l ≤ fileLines.length)
    (hk : a.cursor.afterLine? = some k) :
    landingText (afterLast a (s ++ t)) fileLines l =
      afterText (s ++ t) (l - 1) ++ beforeText (s ++ a :: t) l ++ if k + 1 = l
        then a.payload else [] := by
  have hbefore : beforeText (s ++ a :: t) l = beforeText (s ++ t) l :=
    payloadsAt_remove (by simp [(Cursor.ne_of_after hk).1])
  have hfirst : landingText (afterFirst (s ++ t)) fileLines l = afterText (s ++ t) (l - 1) ++
      beforeText (s ++ t) l :=
    landingText_afterFirst h1 h2
  rw [hbefore, ← hfirst, landingText, payloadsAt_afterLast]
  simp only [Cursor.landing?_of_after h2 hk, decide_eq_true_eq]
  rfl

theorem endText_afterLast
    (hvalid : validateHashlineAnchors (opEdits (s ++ a :: t)) fileLines = .ok []) {k : Nat}
    (hk : a.cursor.afterLine? = some k) :
    endText (afterLast a (s ++ t)) fileLines =
      afterText (s ++ t) fileLines.length ++ eofText (s ++ a :: t) ++ if fileLines.length ≤ k
        then a.payload else [] := by
  have heof : eofText (s ++ a :: t) = eofText (s ++ t) :=
    payloadsAt_remove (by simp [(Cursor.ne_of_after hk).2])
  have hfirst : endText (afterFirst (s ++ t)) fileLines = afterText (s ++ t) fileLines.length ++
      eofText (s ++ t) := by
    apply endText_afterFirst
    intro op hop l hl
    have hmem : op ∈ s ++ a :: t := by
      rcases List.mem_append.mp hop with h | h <;> simp [h]
    exact (afterLine?_inRange hvalid hmem hl).2
  rw [heof, ← hfirst, endText, payloadsAt_afterLast]
  simp only [Cursor.normalize_eq_eof_of_after hk, decide_eq_true_eq]
  rfl

theorem splicedLines_split {out : Nat → List String} {m : Nat} (h1 : 1 ≤ m)
    (h2 : m ≤ fileLines.length) (hout : ∀ l, 1 ≤ l → l ≤ fileLines.length → l ≠ m →
      landingText ops fileLines l ++ keptLine ops fileLines l = out l) :
    splicedLines ops fileLines = (List.range' 1 (m - 1)).flatMap out ++
      (landingText ops fileLines m ++ (keptLine ops fileLines m ++
        (List.range' (m + 1) (fileLines.length - m)).flatMap out)) := by
  rw [splicedLines, range'_split h1 h2, List.flatMap_append, List.flatMap_cons, List.append_assoc]
  congr 1
  · apply List.flatMap_congr
    intro l hl
    rw [List.mem_range'_1] at hl
    exact hout l (by omega) (by omega) (by omega)
  · congr 2
    apply List.flatMap_congr
    intro l hl
    rw [List.mem_range'_1] at hl
    exact hout l (by omega) (by omega) (by omega)

section

variable (hvalid : validateHashlineAnchors (opEdits (s ++ a :: t)) fileLines = .ok [])
    (hind : Independent (s ++ a :: t))
  (hnone : triggersNoAbsorption (opEdits (s ++ a :: t)) fileLines options = true)
  (h : resultLines (opEdits (afterLast a (s ++ t))) fileLines options =
    afterFirstLines (s ++ a :: t) fileLines)
include hvalid hind hnone h

theorem edges_eq_of_resultLines_eq :
    (insertAtEnd (insertAtStart (splicedLines (afterLast a (s ++ t)) fileLines)
      (bofText (s ++ a :: t)))
        (endText (afterLast a (s ++ t)) fileLines)).1 = afterFirstLines (s ++ a :: t) fileLines := by
  have hperm : (afterLast a (s ++ t)).Perm (s ++ a :: t) := afterLast_perm
  rw [← h, resultLines_opEdits (validate_perm hperm hvalid)
    (by rwa [triggersNoAbsorption_perm hperm]), bofText_perm hind hperm]

theorem commute_below {m : Nat} (hm : m ≤ fileLines.length)
    (ha : a.cursor.afterLine? = some (m - 1)) :
    a.payload ++ beforeText (s ++ a :: t) m = beforeText (s ++ a :: t) m ++ a.payload := by
  have hm1 := (afterLine?_inRange hvalid (by simp) ha).1
  have hedges := edges_eq_of_resultLines_eq hvalid hind hnone h
  let out : Nat → List String := fun l =>
    afterText (s ++ a :: t) (l - 1) ++ beforeText (s ++ a :: t) l ++
      keptLine (s ++ a :: t) fileLines l
  have hlast :=
    @splicedLines_split (afterLast a (s ++ t)) fileLines out m (by omega) hm fun l h1 h2 hne => by
      rw [landingText_afterLast h1 h2 ha, if_neg (by omega), List.append_nil,
        keptLine_perm afterLast_perm, ← afterText_of_ne (t := t) ha (show m - 1 ≠ l - 1 by omega)]
  have hfirst :=
    @splicedLines_split (afterFirst (s ++ a :: t)) fileLines out m (by omega) hm fun l h1 h2 _ => by
      rw [landingText_afterFirst h1 h2, keptLine_perm (afterFirst_perm _)]
  rw [landingText_afterLast (by omega) hm ha, if_pos (by omega), afterText_others hind ha,
    List.nil_append, keptLine_perm afterLast_perm] at hlast
  rw [landingText_afterFirst (by omega) hm, keptLine_perm (afterFirst_perm _),
    afterText_eq hind (by simp) ha] at hfirst
  rw [endText_afterLast hvalid ha, if_neg (by omega), List.append_nil, afterFirstLines,
    afterText_of_ne (l := fileLines.length) ha (by omega), hlast, hfirst] at hedges
  have habove : (List.range' 1 (m - 1)).flatMap out ≠ [] := by
    rw [ne_eq, List.flatMap_eq_nil_iff]
    intro hall
    have hout := hall (m - 1) (by rw [List.mem_range'_1]; omega)
    simp [out, keptLine_of_after hind (show a ∈ s ++ a :: t by simp) ha] at hout
  exact commute_of_edges_eq habove (Op.after_spec ha).2.2.1 hedges

theorem commute_eof (ha : a.cursor.afterLine? = some fileLines.length) :
    a.payload ++ eofText (s ++ a :: t) = eofText (s ++ a :: t) ++ a.payload := by
  have hne := (Op.after_spec ha).2.2.1
  have hedges := edges_eq_of_resultLines_eq hvalid hind hnone h
  have hspliced : splicedLines (afterLast a (s ++ t)) fileLines =
      splicedLines (afterFirst (s ++ a :: t)) fileLines := by
    apply List.flatMap_congr
    intro l hl
    rw [List.mem_range'_1] at hl
    rw [landingText_afterLast hl.1 (by omega) ha, if_neg (by omega), List.append_nil,
      landingText_afterFirst hl.1 (by omega), keptLine_perm afterLast_perm,
      keptLine_perm (afterFirst_perm _), afterText_of_ne (l := l - 1) ha (by omega)]
  rw [hspliced, endText_afterLast hvalid ha, if_pos le_rfl, afterText_others hind ha,
    List.nil_append, afterFirstLines, afterText_eq hind (by simp) ha] at hedges
  exact (insertAtEnd_inj (by simp [hne]) (by simp [hne]) hedges).symm

end

end

theorem mem_insertAtEnd {xs es : List String} {t : String} (h : t ∈ (insertAtEnd xs es).1) :
    t ∈ xs ∨ t ∈ es := by
  unfold insertAtEnd at h
  split at h
  · exact .inl h
  · split at h
    · exact .inr h
    · simp only [List.mem_append] at h
      rcases h with (h | h) | h
      · exact .inl (List.mem_of_mem_take h)
      · exact .inr h
      · exact .inl (List.mem_of_mem_drop h)

theorem mem_insertAtStart {xs es : List String} {t : String} (h : t ∈ insertAtStart xs es) :
    t ∈ es ∨ t ∈ xs := by
  unfold insertAtStart at h
  split at h
  · exact .inr h
  · split at h
    · exact .inl h
    · exact List.mem_append.mp h

theorem mem_payloadsAt {p : Cursor → Bool} {t : String} (h : t ∈ payloadsAt p ops) :
    ∃ op ∈ ops, t ∈ op.payload := by
  obtain ⟨op, hop, ht⟩ := List.mem_flatMap.mp h
  split at ht
  · exact ⟨op, hop, ht⟩
  · cases ht

theorem mem_keptLine {l : Nat} (h1 : 1 ≤ l) (h2 : l ≤ fileLines.length) {t : String}
    (h : t ∈ keptLine ops fileLines l) :
    t ∈ fileLines := by
  rw [keptLine] at h
  split at h
  · cases h
  · rw [List.mem_singleton.mp h, lineAt, List.getD_eq_getElem?_getD,
      List.getElem?_eq_getElem (by omega)]
    exact List.getElem_mem _

theorem mem_resultLines_opEdits (hvalid : validateHashlineAnchors (opEdits ops) fileLines = .ok [])
    (hnone : triggersNoAbsorption (opEdits ops) fileLines options = true) {t : String}
    (h : t ∈ resultLines (opEdits ops) fileLines options) :
    t ∈ fileLines ∨ ∃ op ∈ ops, t ∈ op.payload := by
  rw [resultLines_opEdits hvalid hnone] at h
  rcases mem_insertAtEnd h with h | h
  · rcases mem_insertAtStart h with h | h
    · exact .inr (mem_payloadsAt h)
    · obtain ⟨l, hl, ht⟩ := List.mem_flatMap.mp h
      rw [List.mem_range'_1] at hl
      rcases List.mem_append.mp ht with ht | ht
      · exact .inr (mem_payloadsAt ht)
      · exact .inl (mem_keptLine hl.1 (by omega) ht)
  · exact .inr (mem_payloadsAt h)

theorem mem_placed {t : String} (h : t ∈ placed ops fileLines) :
    t ∈ fileLines ∨ ∃ op ∈ ops, t ∈ op.payload := by
  have hbody : t ∈ placedBody ops fileLines → t ∈ fileLines ∨ ∃ op ∈ ops, t ∈ op.payload := by
    intro h
    obtain ⟨l, hl, ht⟩ := List.mem_flatMap.mp h
    rw [List.mem_range'_1] at hl
    rcases List.mem_append.mp ht with ht | ht
    · rcases List.mem_append.mp ht with ht | ht
      · exact .inr (mem_payloadsAt ht)
      · exact .inl (mem_keptLine hl.1 (by omega) ht)
    · exact .inr (mem_payloadsAt ht)
  unfold placed at h
  split at h
  · rcases mem_insertAtEnd h with h | h
    · rcases mem_insertAtStart h with h | h
      · exact .inr (mem_payloadsAt h)
      · exact hbody h
    · exact .inr (mem_payloadsAt h)
  · rcases List.mem_append.mp h with h | h
    · rcases List.mem_append.mp h with h | h
      · exact .inr (mem_payloadsAt h)
      · exact hbody h
    · exact .inr (mem_payloadsAt h)

theorem edges_ne_nil {xs bof es : List String} (h : xs ≠ []) :
    (insertAtEnd (insertAtStart xs bof) es).1 ≠ [] := by
  have hstart : insertAtStart xs bof ≠ [] := by
    unfold insertAtStart
    split
    · exact h
    · split <;> simp_all
  unfold insertAtEnd
  split
  · exact hstart
  · split <;> simp_all

theorem splicedLines_ne_nil (hvalid : validateHashlineAnchors (opEdits ops) fileLines = .ok [])
    (hind : Independent ops) {a : Op} (ha : a ∈ ops) {k : Nat} (hk : a.cursor.afterLine? = some k)
    (h : ops'.Perm ops) :
    splicedLines ops' fileLines ≠ [] := by
  have hrange := afterLine?_inRange hvalid ha hk
  intro hnil
  have hout := List.flatMap_eq_nil_iff.mp hnil k (by rw [List.mem_range'_1]; omega)
  simp [keptLine_perm h, keptLine_of_after hind ha hk] at hout

theorem joinLines_inj {xs ys : List String} (hxs : xs ≠ []) (hys : ys ≠ [])
    (hx : ∀ t ∈ xs, '\n' ∉ t.toList) (hy : ∀ t ∈ ys, '\n' ∉ t.toList)
    (h : joinLines xs = joinLines ys) : xs = ys := by
  have hsplit := congrArg splitLines h
  rwa [splitLines_joinLines hxs, splitLines_joinLines hys, flatMap_splitLines_of_notMem hx,
    flatMap_splitLines_of_notMem hy] at hsplit

end

def appliedText (text : String) (ops : List Op) (options : ApplyOptions) :
    Except ApplyError String :=
  (applyHashlineEdits text (opEdits ops) options).map ApplyResult.lines

theorem appliedText_eq {text : String} {ops : List Op} (options : ApplyOptions)
    (hvalid : validateHashlineAnchors (opEdits ops) (splitLines text) = .ok []) :
    appliedText text ops options =
      .ok (joinLines (resultLines (opEdits ops) (splitLines text) options)) := by
  obtain ⟨r, hr, hlines⟩ := applyHashlineEdits_ok hvalid options
  rw [appliedText, hr, ← hlines]
  rfl

section

variable {text : String} {ops : List Op} {options : ApplyOptions}
  (hvalid : validateHashlineAnchors (opEdits ops) (splitLines text) = .ok [])
  (hind : Independent ops)
  (hnone : triggersNoAbsorption (opEdits ops) (splitLines text) options = true)
include hvalid hind hnone

theorem unordered_of_payloadsCommute (hcomm : PayloadsCommute ops (splitLines text)) :
    (∀ ops', ops'.Perm ops → appliedText text ops' options = appliedText text ops options) ∧
      appliedText text ops options = .ok (joinLines (placed ops (splitLines text))) := by
  have hlines : ∀ ops', ops'.Perm ops →
      appliedText text ops' options = .ok (joinLines (afterFirstLines ops (splitLines text))) := by
    intro ops' h
    rw [appliedText_eq options (validate_perm h hvalid),
      resultLines_of_perm hvalid hind hnone hcomm h]
  refine ⟨fun ops' h => (hlines ops' h).trans (hlines ops (.refl _)).symm, ?_⟩
  rw [hlines ops (.refl _), (afterFirstLines_eq_placed_iff hvalid hind).mpr hcomm.blank]

theorem payloadsCommute_of_unordered (hpayload : ∀ op ∈ ops, ∀ t ∈ op.payload, '\n' ∉ t.toList)
    (hperm : ∀ ops', ops'.Perm ops → appliedText text ops' options = appliedText text ops options)
    (hplaced : appliedText text ops options = .ok (joinLines (placed ops (splitLines text)))) :
    PayloadsCommute ops (splitLines text) := by
  have hfree : ∀ t, (t ∈ splitLines text ∨ ∃ op ∈ ops, t ∈ op.payload) → '\n' ∉ t.toList := by
    rintro t (ht | ⟨op, hop, ht⟩)
    · exact notMem_of_mem_splitLines ht
    · exact hpayload op hop t ht
  have hline : ∀ ops', ops'.Perm ops → ∀ t ∈ resultLines (opEdits ops') (splitLines text) options,
      '\n' ∉ t.toList := by
    intro ops' h t ht
    have hmem :=
      mem_resultLines_opEdits (validate_perm h hvalid) (by rwa [triggersNoAbsorption_perm h]) ht
    simp only [h.mem_iff] at hmem
    exact hfree t hmem
  have hne : ∀ a ∈ ops, ∀ k, a.cursor.afterLine? = some k → ∀ ops', ops'.Perm ops →
      resultLines (opEdits ops') (splitLines text) options ≠ [] := by
    intro a ha k hk ops' h
    rw [resultLines_opEdits (validate_perm h hvalid) (by rwa [triggersNoAbsorption_perm h])]
    exact edges_ne_nil (splicedLines_ne_nil hvalid hind ha hk h)
  have hsame : ∀ a ∈ ops, ∀ k, a.cursor.afterLine? = some k → ∀ ops', ops'.Perm ops →
      resultLines (opEdits ops') (splitLines text) options =
      afterFirstLines ops (splitLines text) := by
    intro a ha k hk ops' h
    have hfirst := afterFirst_perm ops
    have htext := (hperm ops' h).trans (hperm _ hfirst).symm
    rw [appliedText_eq options (validate_perm h hvalid),
      appliedText_eq options (validate_perm hfirst hvalid), Except.ok.injEq] at htext
    rw [← resultLines_afterFirst hvalid hind hnone]
    exact joinLines_inj (hne a ha k hk ops' h) (hne a ha k hk _ hfirst) (hline ops' h)
      (hline _ hfirst) htext
  refine ⟨?_, ?_, ?_⟩
  · intro a ha range payload hb hk
    obtain ⟨s, t, rfl⟩ := List.append_of_mem ha
    have hrange := cursor_inRange hvalid hb (a := range.start) rfl
    have hcomm := commute_below hvalid hind hnone (hsame a ha _ hk _ afterLast_perm) hrange.2 hk
    rwa [beforeText_eq hind hb (l := range.start.line) rfl] at hcomm
  · intro a ha b hb hk heof
    obtain ⟨s, t, rfl⟩ := List.append_of_mem ha
    have hcomm := commute_eof hvalid hind hnone (hsame a ha _ hk _ afterLast_perm) hk
    rwa [eofText_eq hind hb heof] at hcomm
  · intro a ha hk
    refine (afterFirstLines_eq_placed_iff hvalid hind).mp ?_ a ha hk
    have hafter : afterText ops (splitLines text).length ≠ [] := by
      rw [afterText_eq hind ha hk]
      exact (Op.after_spec hk).2.2.1
    have hplacedNe : placed ops (splitLines text) ≠ [] := by
      rw [placed, if_neg hafter, placedBody_eq hvalid]
      simp [hafter]
    rw [appliedText_eq options hvalid, Except.ok.injEq] at hplaced
    rw [← hsame a ha _ hk ops (.refl _)]
    exact joinLines_inj (hne a ha _ hk ops (.refl _)) hplacedNe (hline ops (.refl _))
      (fun t ht => hfree t (mem_placed ht)) hplaced

end

/-- Independent ops give the same text in every order, with each insert after a line directly after
it and before the replacement of the next line, exactly if the payloads that share a bucket commute.
-/
theorem appliedText_unordered_iff (text : String) (ops : List Op) (options : ApplyOptions)
    (hvalid : validateHashlineAnchors (opEdits ops) (splitLines text) = .ok [])
    (hind : Independent ops)
    (hnone : triggersNoAbsorption (opEdits ops) (splitLines text) options = true)
    (hpayload : ∀ op ∈ ops, ∀ t ∈ op.payload, '\n' ∉ t.toList) :
    ((∀ ops', ops'.Perm ops → appliedText text ops' options = appliedText text ops options) ∧
      appliedText text ops options = .ok (joinLines (placed ops (splitLines text)))) ↔
      PayloadsCommute ops (splitLines text) :=
  ⟨fun h => payloadsCommute_of_unordered hvalid hind hnone hpayload h.1 h.2,
    unordered_of_payloadsCommute hvalid hind hnone⟩

def insertAfterFirst : Op := .insert (.afterAnchor ⟨1, "hs"⟩) "x" []

def replaceThird : Op := .replace ⟨⟨3, "ni"⟩, ⟨3, "ni"⟩, le_rfl, fun _ => rfl⟩ ["y"]

def replaceSecond : Op := .replace ⟨⟨2, "yo"⟩, ⟨2, "yo"⟩, le_rfl, fun _ => rfl⟩ ["y"]

theorem appliedText_unordered_of_distant_lines :
    appliedText "a\nb\nc" [replaceThird, insertAfterFirst] {} =
      appliedText "a\nb\nc" [insertAfterFirst, replaceThird] {} := by
  have hcomm : PayloadsCommute [insertAfterFirst, replaceThird] (splitLines "a\nb\nc") := by
    refine ⟨?_, by decide +kernel, fun _ _ _ hblank => absurd hblank (by decide +kernel)⟩
    intro a ha range payload hb hk
    simp only [insertAfterFirst, replaceThird, List.mem_cons, List.not_mem_nil, or_false,
      Op.replace.injEq, reduceCtorEq, false_or] at ha hb
    obtain ⟨rfl, rfl⟩ := hb
    rcases ha with rfl | rfl <;> simp [Op.cursor, Cursor.afterLine?] at hk
  exact ((appliedText_unordered_iff "a\nb\nc" [insertAfterFirst, replaceThird] {} (by decide +kernel)
    ⟨by decide +kernel, by decide +kernel, by decide +kernel, by decide +kernel⟩ (by decide +kernel)
    (by decide +kernel)).mpr hcomm).1 _ (.swap _ _ _)

theorem order_decides_between_payloads :
    validateHashlineAnchors (opEdits [insertAfterFirst, replaceSecond])
      (splitLines "a\nb\nc") = .ok [] ∧
      Independent [insertAfterFirst, replaceSecond] ∧
      triggersNoAbsorption (opEdits [insertAfterFirst, replaceSecond])
        (splitLines "a\nb\nc") {} = true ∧
      ¬ ∀ ops, ops.Perm [insertAfterFirst, replaceSecond] →
        appliedText "a\nb\nc" ops {} =
          appliedText "a\nb\nc" [insertAfterFirst, replaceSecond] {} := by
  refine ⟨by decide +kernel,
    ⟨by decide +kernel, by decide +kernel, by decide +kernel, by decide +kernel⟩, by
    decide +kernel, fun h => ?_⟩
  have hfirst : appliedText "a\nb\nc" [insertAfterFirst, replaceSecond] {} = .ok "a\nx\ny\nc" := by
    decide +kernel
  have hlast : appliedText "a\nb\nc" [replaceSecond, insertAfterFirst] {} = .ok "a\ny\nx\nc" := by
    decide +kernel
  have hsame := h [replaceSecond, insertAfterFirst] (.swap _ _ _)
  rw [hfirst, hlast] at hsame
  exact absurd hsame (by decide +kernel)

end JevCode.Hashline
