import JevCode.Data.Separated
import JevCode.Session.OutputSink

/-! `streaming-output.ts`: the column cap of an `OutputSink`, whose state is carried from chunk to
chunk. The room for the ellipsis is made only in the chunk in which a line becomes too wide. -/

namespace JevCode.Session

open JevCode.Text JevCode.Data

def ellipsis : Char := '…'

structure ColumnCap where
  currentLineBytes : Nat
  columnEllipsisAdded : Bool
  columnDroppedBytes : Nat
  columnTruncatedLines : Nat
  deriving DecidableEq

namespace ColumnCap

def init : ColumnCap := ⟨0, false, 0, 0⟩

variable (maxColumns : Nat)

def capSegment (s : ColumnCap) (segment : Chars) : Chars × ColumnCap :=
  let segBytes := byteLength segment
  if segment = [] then ([], s)
  else if s.columnEllipsisAdded then ([], { s with
    columnDroppedBytes := s.columnDroppedBytes + segBytes })
  else
    let remaining := maxColumns - s.currentLineBytes
    if segBytes ≤ remaining then (segment, { s with
      currentLineBytes := s.currentLineBytes + segBytes })
    else
      let ellipsisBytes := 3
      let headRoom := remaining - ellipsisBytes
      let sliced := if 0 < headRoom then truncateHeadBytes segment headRoom else ([], 0)
      (sliced.1 ++ [ellipsis],
        { currentLineBytes := s.currentLineBytes + (sliced.2 + ellipsisBytes)
          columnEllipsisAdded := true
          columnDroppedBytes := s.columnDroppedBytes + (segBytes - sliced.2)
          columnTruncatedLines := s.columnTruncatedLines + 1 })

def newline (s : ColumnCap) : ColumnCap :=
  { s with currentLineBytes := 0, columnEllipsisAdded := false }

def applyColumnCap (s : ColumnCap) (chunk : Chars) : Chars × ColumnCap :=
  let segment := capSegment maxColumns s (firstLine '\n' chunk)
  match _h : chunk.dropWhile (· ≠ '\n') with
  | [] => segment
  | _ :: rest =>
    let shown := applyColumnCap segment.2.newline rest
    (segment.1 ++ '\n' :: shown.1, shown.2)
termination_by chunk.length
decreasing_by
  have := (List.dropWhile_suffix (l := chunk) (· ≠ '\n')).length_le
  rw [_h, List.length_cons] at this
  omega

def visibleText (s : ColumnCap) : List Chars → Chars
  | [] => []
  | chunk :: chunks =>
    let shown := applyColumnCap maxColumns s chunk
    shown.1 ++ visibleText shown.2 chunks

/-- A line that becomes too wide was cut by a chunk boundary where the ellipsis has no room any more.
-/
def Straddles (before after : Chars) : Prop :=
  let line := lastLine '\n' before
  maxColumns < byteLength line + 3 ∧ byteLength line ≤ maxColumns ∧
    maxColumns < byteLength (line ++ firstLine '\n' after)

instance (before after : Chars) : Decidable (Straddles maxColumns before after) :=
  inferInstanceAs (Decidable (_ ∧ _))

variable {maxColumns} {s : ColumnCap} {p q t u : Chars}

theorem applyColumnCap_of_notMem (hp : '\n' ∉ p) :
    applyColumnCap maxColumns s p = capSegment maxColumns s p := by
  have hdrop := dropWhile_of_notMem hp
  rw [applyColumnCap]
  split
  · rw [firstLine_of_notMem hp]
  next heq => cases hdrop.symm.trans heq

theorem applyColumnCap_append_cons (hp : '\n' ∉ p) (t : Chars) :
    applyColumnCap maxColumns s (p ++ '\n' :: t) =
      ((capSegment maxColumns s p).1 ++ '\n' ::
        (applyColumnCap maxColumns (capSegment maxColumns s p).2.newline t).1,
        (applyColumnCap maxColumns (capSegment maxColumns s p).2.newline t).2) := by
  have hdrop := dropWhile_append_cons hp t
  rw [applyColumnCap]
  split
  next heq => cases hdrop.symm.trans heq
  next heq =>
    cases hdrop.symm.trans heq
    rw [firstLine_append_cons hp]

theorem sliced_eq (segment : Chars) (headRoom : Nat) :
    (if 0 < headRoom then truncateHeadBytes segment headRoom else ([], 0)) =
      (fitPrefix headRoom segment, byteLength (fitPrefix headRoom segment)) := by
  split
  · exact truncateHeadBytes_eq segment headRoom
  next hroom =>
    have hle := byteLength_fitPrefix_le headRoom segment
    have hnil : fitPrefix headRoom segment = [] := byteLength_eq_zero.mp (by omega)
    rw [hnil, byteLength_nil]

def Fresh (s : ColumnCap) : Prop := s.currentLineBytes = 0 ∧ s.columnEllipsisAdded = false

theorem fresh_newline (s : ColumnCap) : s.newline.Fresh := ⟨rfl, rfl⟩

theorem byteLength_pos (hp : p ≠ []) : 0 < byteLength p :=
  Nat.pos_of_ne_zero fun h => hp (byteLength_eq_zero.mp h)

theorem capSegment_fresh (hs : s.Fresh) (p : Chars) : capSegment maxColumns s p =
    if byteLength p ≤ maxColumns then (p, { s with currentLineBytes := byteLength p })
    else (fitPrefix (maxColumns - 3) p ++ [ellipsis],
      { currentLineBytes := byteLength (fitPrefix (maxColumns - 3) p) + 3
        columnEllipsisAdded := true
        columnDroppedBytes :=
          s.columnDroppedBytes + (byteLength p - byteLength (fitPrefix (maxColumns - 3) p))
        columnTruncatedLines := s.columnTruncatedLines + 1 }) := by
  obtain ⟨lineBytes, added, dropped, lines⟩ := s
  obtain ⟨rfl, rfl⟩ := hs
  unfold capSegment
  by_cases hp : p = []
  · simp [hp]
  · simp only [if_neg hp, sliced_eq, Nat.sub_zero, Nat.zero_add, Bool.false_eq_true, if_false]

theorem capSegment_append (hs : s.Fresh)
    (hfits : maxColumns < byteLength p + 3 → byteLength p ≤ maxColumns →
      byteLength (p ++ q) ≤ maxColumns) :
    capSegment maxColumns s (p ++ q) =
      ((capSegment maxColumns s p).1 ++ (capSegment maxColumns (capSegment maxColumns s p).2 q).1,
        (capSegment maxColumns (capSegment maxColumns s p).2 q).2) := by
  rw [capSegment_fresh hs, capSegment_fresh hs]
  rw [byteLength_append] at *
  by_cases hq : q = []
  · subst hq
    simp [capSegment]
  have hpos := byteLength_pos hq
  obtain ⟨lineBytes, added, dropped, lines⟩ := s
  obtain ⟨rfl, rfl⟩ := hs
  by_cases hp : byteLength p ≤ maxColumns
  · simp only [if_pos hp, capSegment, if_neg hq, Bool.false_eq_true, if_false, sliced_eq]
    by_cases hpq : byteLength p + byteLength q ≤ maxColumns
    · rw [if_pos hpq, if_pos (by omega)]
    · have hroom : byteLength p ≤ maxColumns - 3 := by omega
      rw [if_neg hpq, if_neg (by omega), fitPrefix_append_of_le hroom, byteLength_append,
        show maxColumns - byteLength p - 3 = maxColumns - 3 - byteLength p by omega]
      have hle := byteLength_fitPrefix_le (maxColumns - 3 - byteLength p) q
      simp only [List.append_assoc, Prod.mk.injEq, mk.injEq, true_and, and_true]
      omega
  · have hlong : maxColumns - 3 < byteLength p := by omega
    have hle := byteLength_fitPrefix_le (maxColumns - 3) p
    rw [if_neg hp, if_neg (by omega), fitPrefix_append_of_lt hlong]
    simp only [capSegment, if_neg hq, if_true, List.append_nil, Prod.mk.injEq, mk.injEq,
      true_and, and_true]
    omega

theorem applyColumnCap_append (hs : s.Fresh) (h : ¬Straddles maxColumns t u) :
    applyColumnCap maxColumns s (t ++ u) =
      ((applyColumnCap maxColumns s t).1 ++
        (applyColumnCap maxColumns (applyColumnCap maxColumns s t).2 u).1,
        (applyColumnCap maxColumns (applyColumnCap maxColumns s t).2 u).2) := by
  induction t using line_induction '\n' generalizing s with
  | hline p hp =>
    rw [Straddles, lastLine_of_notMem hp] at h
    have hfits : maxColumns < byteLength p + 3 → byteLength p ≤ maxColumns →
        byteLength (p ++ firstLine '\n' u) ≤ maxColumns := fun h₁ h₂ => Nat.not_lt.mp fun h₃ =>
        h ⟨h₁, h₂, h₃⟩
    rw [applyColumnCap_of_notMem hp]
    induction u using line_induction '\n' with
    | hline q hq =>
      rw [firstLine_of_notMem hq] at hfits
      rw [applyColumnCap_of_notMem (by simp [hp, hq]), applyColumnCap_of_notMem hq,
        capSegment_append hs hfits]
    | hcons q u hq _ =>
      rw [firstLine_append_cons hq] at hfits
      rw [← List.append_assoc, applyColumnCap_append_cons (by simp [hp, hq]),
        applyColumnCap_append_cons hq, capSegment_append hs hfits, List.append_assoc]
  | hcons p t hp ih =>
    rw [Straddles, lastLine_append_cons] at h
    rw [List.append_assoc, List.cons_append, applyColumnCap_append_cons hp,
      applyColumnCap_append_cons hp, ih (fresh_newline _) h, List.append_assoc, List.cons_append]

theorem applyColumnCap_fits (hs : s.Fresh) (h : byteLength (lastLine '\n' t) ≤ maxColumns) :
    (applyColumnCap maxColumns s t).2.columnEllipsisAdded = false ∧
      (applyColumnCap maxColumns s t).2.currentLineBytes = byteLength (lastLine '\n' t) ∧
      lastLine '\n' t <:+ (applyColumnCap maxColumns s t).1 := by
  induction t using line_induction '\n' generalizing s with
  | hline p hp =>
    rw [lastLine_of_notMem hp] at h ⊢
    rw [applyColumnCap_of_notMem hp, capSegment_fresh hs, if_pos h]
    exact ⟨hs.2, rfl, List.suffix_refl p⟩
  | hcons p t hp ih =>
    rw [lastLine_append_cons] at h ⊢
    rw [applyColumnCap_append_cons hp]
    obtain ⟨hadded, hbytes, hsuffix⟩ := ih (fresh_newline _) h
    exact ⟨hadded, hbytes, hsuffix.trans ⟨(capSegment maxColumns s p).1 ++ ['\n'], by simp⟩⟩

theorem byteLength_line_le (hmax : 3 ≤ maxColumns) (hs : s.Fresh) {line : Chars}
    (h : line <:+: (applyColumnCap maxColumns s t).1) (hline : '\n' ∉ line) :
    byteLength line ≤ maxColumns := by
  have hsegment : ∀ {s : ColumnCap} {p : Chars}, s.Fresh →
      byteLength (capSegment maxColumns s p).1 ≤ maxColumns := by
    intro s p hs
    rw [capSegment_fresh hs]
    split
    · assumption
    · have hle := byteLength_fitPrefix_le (maxColumns - 3) p
      have hsize : ellipsis.utf8Size = 3 := by decide
      simp only [byteLength_append, byteLength_cons, byteLength_nil, hsize]
      omega
  have hinside : ∀ {t : Chars}, line <:+: t → byteLength line ≤ byteLength t := by
    rintro t ⟨a, b, rfl⟩
    simp only [byteLength_append]
    omega
  induction t using line_induction '\n' generalizing s with
  | hline p hp =>
    rw [applyColumnCap_of_notMem hp] at h
    exact (hinside h).trans (hsegment hs)
  | hcons p t hp ih =>
    rw [applyColumnCap_append_cons hp] at h
    obtain h | h := infix_append_cons h hline
    · exact (hinside h).trans (hsegment hs)
    · exact ih (fresh_newline _) h

theorem applyColumnCap_straddles (hadded : s.columnEllipsisAdded = false)
    (hroom : maxColumns < s.currentLineBytes + 3) (hbytes : s.currentLineBytes ≤ maxColumns)
    (hwide : maxColumns < s.currentLineBytes + byteLength (firstLine '\n' u)) :
    ∃ rest, (applyColumnCap maxColumns s u).1 = ellipsis :: rest := by
  have hsegment : (capSegment maxColumns s (firstLine '\n' u)).1 = [ellipsis] := by
    have hne : firstLine '\n' u ≠ [] := by
      intro hnil
      rw [hnil, byteLength_nil] at hwide
      omega
    unfold capSegment
    dsimp only
    rw [if_neg hne, if_neg (by simp [hadded]), if_neg (by omega), if_neg (by omega), List.nil_append]
  induction u using line_induction '\n' with
  | hline q hq =>
    rw [firstLine_of_notMem hq] at hsegment
    rw [applyColumnCap_of_notMem hq, hsegment]
    exact ⟨[], rfl⟩
  | hcons q u hq _ =>
    rw [firstLine_append_cons hq] at hsegment
    rw [applyColumnCap_append_cons hq, hsegment]
    exact ⟨_, rfl⟩

theorem Straddles.append (h : Straddles maxColumns t u) (v : Chars) :
    Straddles maxColumns t (u ++ v) := by
  refine ⟨h.1, h.2.1, Nat.lt_of_lt_of_le h.2.2 ?_⟩
  induction u using line_induction '\n' with
  | hline q hq =>
    rw [firstLine_append hq, firstLine_of_notMem hq]
    simp only [byteLength_append]
    omega
  | hcons q u hq _ =>
    rw [List.append_assoc, List.cons_append, firstLine_append_cons hq, firstLine_append_cons hq]

theorem Straddles.next {v : Chars} (h : Straddles maxColumns t (u ++ v))
    (hu : ¬Straddles maxColumns t u) :
    Straddles maxColumns (t ++ u) v := by
  obtain ⟨hroom, hbytes, hwide⟩ := h
  by_cases hmem : '\n' ∈ u
  · obtain ⟨q, u, rfl, hq⟩ := List.eq_append_cons_of_mem hmem
    refine absurd ⟨hroom, hbytes, ?_⟩ hu
    rwa [List.append_assoc, List.cons_append, firstLine_append_cons hq,
      ← firstLine_append_cons hq u] at hwide
  · have hfits : byteLength (lastLine '\n' t ++ u) ≤ maxColumns := by
      refine Nat.not_lt.mp fun hlt => hu ⟨hroom, hbytes, ?_⟩
      rwa [firstLine_of_notMem hmem]
    rw [firstLine_append hmem, ← List.append_assoc] at hwide
    rw [byteLength_append] at hfits
    rw [Straddles, lastLine_append t hmem, byteLength_append]
    exact ⟨by omega, hfits, hwide⟩

theorem visibleText_of_not_straddles {chunks : List Chars}
    (h : ∀ a b, chunks = a ++ b → ¬Straddles maxColumns (t ++ a.flatten) b.flatten) :
    (applyColumnCap maxColumns init t).1 ++ visibleText maxColumns
    (applyColumnCap maxColumns init t).2 chunks =
      (applyColumnCap maxColumns init (t ++ chunks.flatten)).1 := by
  induction chunks generalizing t with
  | nil => simp [visibleText]
  | cons chunk chunks ih =>
    have hchunk : ¬Straddles maxColumns t chunk := fun hst =>
      h [] (chunk :: chunks) rfl (by simpa using hst.append chunks.flatten)
    have hstep := applyColumnCap_append (s := init) ⟨rfl, rfl⟩ hchunk
    have hrest := ih (t := t ++ chunk) fun a b heq => by
      simpa using h (chunk :: a) b (by rw [heq]; rfl)
    rw [hstep] at hrest
    rw [visibleText, ← List.append_assoc, hrest, List.flatten_cons, List.append_assoc]

theorem exists_wide_line {chunks a b : List Chars} (hab : chunks = a ++ b)
    (h : Straddles maxColumns (t ++ a.flatten) b.flatten) :
    ∃ line, line <:+: (applyColumnCap maxColumns init t).1 ++
        visibleText maxColumns (applyColumnCap maxColumns init t).2 chunks ∧
      '\n' ∉ line ∧ maxColumns < byteLength line := by
  induction chunks generalizing t a b with
  | nil =>
    obtain ⟨rfl, rfl⟩ := List.nil_eq_append_iff.mp hab
    obtain ⟨-, hbytes, hwide⟩ := h
    simp [firstLine] at hbytes hwide
    omega
  | cons chunk chunks ih =>
    by_cases hchunk : Straddles maxColumns t chunk
    · obtain ⟨hroom, hbytes, hwide⟩ := hchunk
      obtain ⟨hadded, hcount, shown, hshown⟩ := applyColumnCap_fits (s := init) ⟨rfl, rfl⟩ hbytes
      rw [byteLength_append] at hwide
      obtain ⟨rest, hrest⟩ :=
        applyColumnCap_straddles hadded (hcount ▸ hroom) (hcount ▸ hbytes) (hcount ▸ hwide)
      refine ⟨lastLine '\n' t ++ [ellipsis], ⟨shown, rest ++
        visibleText maxColumns
        (applyColumnCap maxColumns (applyColumnCap maxColumns init t).2 chunk).2 chunks, ?_⟩, ?_, ?_⟩
      · rw [visibleText, hrest, ← hshown]
        simp
      · rw [List.mem_append, not_or, List.mem_singleton]
        exact ⟨notMem_lastLine t, by decide⟩
      · have hsize : ellipsis.utf8Size = 3 := by decide
        simp only [byteLength_append, byteLength_cons, byteLength_nil, hsize]
        omega
    · have hstep := applyColumnCap_append (s := init) ⟨rfl, rfl⟩ hchunk
      have hrest : ∃ a' b', chunks = a' ++ b' ∧
          Straddles maxColumns (t ++ chunk ++ a'.flatten) b'.flatten := by
        cases a with
        | nil =>
          rw [List.nil_append] at hab
          subst hab
          refine ⟨[], chunks, rfl, ?_⟩
          simp only [List.flatten_nil, List.append_nil, List.flatten_cons] at h ⊢
          exact h.next hchunk
        | cons c a =>
          obtain ⟨rfl, rfl⟩ := List.cons.inj hab
          exact ⟨a, b, rfl, by simpa using h⟩
      obtain ⟨a', b', heq, hst⟩ := hrest
      have hwide := ih heq hst
      rw [hstep] at hwide
      rwa [visibleText, ← List.append_assoc]

end ColumnCap

open ColumnCap

/-- Successive chunks show what their text shows as one chunk, and no line wider than the cap,
exactly if no chunk boundary lies in a line wider than the cap where less than the width of the
ellipsis is left of the cap. -/
theorem columnCap_chunks_iff {maxColumns : Nat} (hmax : 3 ≤ maxColumns) (chunks : List Chars) :
    (visibleText maxColumns init chunks = visibleText maxColumns init [chunks.flatten] ∧
      ∀ line, line <:+: visibleText maxColumns init chunks → '\n' ∉ line →
        byteLength line ≤ maxColumns) ↔
    ∀ a b, chunks = a ++ b → ¬Straddles maxColumns a.flatten b.flatten := by
  have hempty : applyColumnCap maxColumns init [] = ([], init) := applyColumnCap_of_notMem (by simp)
  constructor
  · rintro ⟨-, hlines⟩ a b hab hst
    obtain ⟨line, hinside, hline, hwide⟩ := exists_wide_line (t := []) hab hst
    rw [hempty] at hinside
    exact Nat.not_le.mpr hwide (hlines line hinside hline)
  · intro h
    have hone := visibleText_of_not_straddles (t := []) h
    rw [hempty, List.nil_append, List.nil_append] at hone
    refine ⟨by simp [hone, visibleText], fun line hinside hline => ?_⟩
    rw [hone] at hinside
    exact byteLength_line_le hmax ⟨rfl, rfl⟩ hinside hline

theorem columnCap_chunks_iff_early :
    3 ≤ 5 ∧ ∀ line, line <:+: visibleText 5 init [['a', 'b'], ['c', 'd', 'e', 'f']] →
    '\n' ∉ line → byteLength line ≤ 5 := by
  refine ⟨by decide, ((columnCap_chunks_iff (by decide) _).mpr fun a b hab => ?_).2⟩
  obtain _ | ⟨c, _ | ⟨d, _ | ⟨e, a⟩⟩⟩ := a
  · cases hab
    decide
  · cases hab
    decide
  · cases hab
    decide
  · cases hab

theorem column_cap_depends_on_chunks :
    visibleText 5 init [['a', 'b', 'c', 'd', 'e'], ['f']] ≠
      visibleText 5 init [['a', 'b', 'c', 'd', 'e', 'f']] ∧
      ¬∀ line, line <:+: visibleText 5 init [['a', 'b', 'c', 'd', 'e'], ['f']] → '\n' ∉ line →
        byteLength line ≤ 5 := by
  have htwo : visibleText 5 init [['a', 'b', 'c', 'd', 'e'], ['f']] =
      ['a', 'b', 'c', 'd', 'e', '…'] := by
    simp only [visibleText]
    rw [applyColumnCap_of_notMem (by decide), applyColumnCap_of_notMem (by decide),
      capSegment_fresh ⟨rfl, rfl⟩]
    decide
  have hone : visibleText 5 init [['a', 'b', 'c', 'd', 'e', 'f']] = ['a', 'b', '…'] := by
    simp only [visibleText]
    rw [applyColumnCap_of_notMem (by decide), capSegment_fresh ⟨rfl, rfl⟩]
    decide
  rw [htwo, hone]
  refine ⟨by decide, fun h => ?_⟩
  have hline := h _ List.infix_rfl (by decide)
  revert hline
  decide

end JevCode.Session
