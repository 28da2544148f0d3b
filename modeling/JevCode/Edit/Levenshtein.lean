import JevCode.Data.EditDistance
import JevCode.Data.Slots
import JevCode.Text.Utf16
import Mathlib.Algebra.Order.Field.Basic
import Mathlib.Algebra.Order.Field.Rat

namespace JevCode.Edit.Levenshtein

open JevCode.Data JevCode.Text

abbrev Row := Slots Nat

def fillRow (aCode : CodeUnit) (prev : Row) : Nat → List CodeUnit → Row → Row
  | _, [], curr => curr
  | j, bCode :: codes, curr =>
    let cost := if aCode = bCode then 0 else 1
    let cell := do
      let deletion := (← prev.read j) + 1
      let insertion := (← curr.read (j - 1)) + 1
      let substitution := (← prev.read (j - 1)) + cost
      return min (min deletion insertion) substitution
    fillRow aCode prev (j + 1) codes (curr.set j cell)

def fillRows (b : List CodeUnit) : Nat → List CodeUnit → Row → Row → Row
  | _, [], prev, _ => prev
  | i, aCode :: codes, prev, curr =>
    fillRows b (i + 1) codes (fillRow aCode prev 1 b (curr.set 0 (some i))) prev

def levenshteinDistance (a b : List CodeUnit) : Option Nat :=
  if a = b then some 0
  else if a.length = 0 then some b.length
  else if b.length = 0 then some a.length
  else
    let prev : Row := (List.range (b.length + 1)).map some
    let curr : Row := List.replicate (b.length + 1) none
    (fillRows b 1 a prev curr).read b.length

def similarity (a b : List CodeUnit) : Option ℚ :=
  if a.length = 0 ∧ b.length = 0 then some 1
  else
    let maxLen := max a.length b.length
    if maxLen = 0 then some 1
    else (levenshteinDistance a b).map fun distance => 1 - (distance : ℚ) / maxLen

structure RowAt (a b : List CodeUnit) (i n : Nat) (row : Row) : Prop where
  length_eq : row.length = b.length + 1
  cell : ∀ j < n, row.read j = some (editCell a b i j)

variable {a b : List CodeUnit}

theorem RowAt.set {i n : Nat} {row : Row} (h : RowAt a b i n row) (hn : n ≤ b.length)
    {v : Option Nat} (hv : v = some (editCell a b i n)) : RowAt a b i (n + 1) (row.set n v) := by
  refine ⟨by simpa using h.length_eq, fun j hj => ?_⟩
  rcases Nat.lt_succ_iff_lt_or_eq.mp hj with hj | rfl
  · rw [read_set_of_ne row (by omega)]
    exact h.cell j hj
  · rw [read_set_self (by have := h.length_eq; omega)]
    exact hv

theorem rowAt_fillRow {i : Nat} {aCode : CodeUnit} (ha : a[i]? = some aCode) {prev : Row}
    (hprev : RowAt a b i (b.length + 1) prev) {codes : List CodeUnit} {j : Nat}
    (hcodes : b.drop j = codes) (hj : j ≤ b.length) {curr : Row}
    (hcurr : RowAt a b (i + 1) (j + 1) curr) :
    RowAt a b (i + 1) (b.length + 1) (fillRow aCode prev (j + 1) codes curr) := by
  induction codes generalizing j curr with
  | nil =>
    have hend : j = b.length := Nat.le_antisymm hj (List.drop_eq_nil_iff.mp hcodes)
    exact hend ▸ hcurr
  | cons bCode codes ih =>
    have hlt : j < b.length := by
      by_contra hge
      simp [List.drop_eq_nil_of_le (Nat.le_of_not_lt hge)] at hcodes
    have hb : b[j]? = some bCode := by rw [← List.head?_drop, hcodes]; rfl
    have hrest : b.drop (j + 1) = codes := by rw [← List.tail_drop, hcodes]; rfl
    refine ih hrest hlt (hcurr.set hlt ?_)
    rw [Nat.add_sub_cancel, hprev.cell (j + 1) (by omega), hcurr.cell j (by omega),
      hprev.cell j (by omega), editCell_succ, ha, hb]
    simp

theorem rowAt_fillRows {codes : List CodeUnit} {i : Nat} (hcodes : a.drop i = codes)
    (hi : i ≤ a.length) {prev curr : Row} (hprev : RowAt a b i (b.length + 1) prev)
    (hcurr : curr.length = b.length + 1) :
    RowAt a b a.length (b.length + 1) (fillRows b (i + 1) codes prev curr) := by
  induction codes generalizing i prev curr with
  | nil =>
    have hend : i = a.length := Nat.le_antisymm hi (List.drop_eq_nil_iff.mp hcodes)
    exact hend ▸ hprev
  | cons aCode codes ih =>
    have hlt : i < a.length := by
      by_contra hge
      simp [List.drop_eq_nil_of_le (Nat.le_of_not_lt hge)] at hcodes
    have ha : a[i]? = some aCode := by rw [← List.head?_drop, hcodes]; rfl
    have hrest : a.drop (i + 1) = codes := by rw [← List.tail_drop, hcodes]; rfl
    -- what the swapped row still holds from two rows above is never read
    have hstale : RowAt a b (i + 1) 0 curr := ⟨hcurr, fun _ h => absurd h (Nat.not_lt_zero _)⟩
    have hstart : RowAt a b (i + 1) 1 (curr.set 0 (some (i + 1))) :=
      hstale.set (Nat.zero_le _) (by simp)
    exact ih hrest hlt (rowAt_fillRow ha hprev List.drop_zero (Nat.zero_le _) hstart) hprev.length_eq

theorem levenshteinDistance_spec (a b : List CodeUnit) :
    levenshteinDistance a b = some (levenshtein a b) := by
  unfold levenshteinDistance
  split
  case isTrue h => rw [h, levenshtein_self]
  case isFalse h =>
    split
    case isTrue ha => simp [List.length_eq_zero_iff.mp ha]
    case isFalse ha =>
      split
      case isTrue hb => simp [List.length_eq_zero_iff.mp hb]
      case isFalse hb =>
        have hfirst : RowAt a b 0 (b.length + 1) ((List.range (b.length + 1)).map some) :=
          ⟨by simp, fun j hj => by simp [Slots.read, hj]⟩
        have hlast := rowAt_fillRows List.drop_zero (Nat.zero_le _) hfirst
          (List.length_replicate (a := (none : Option Nat)))
        rw [← editCell_length]
        exact hlast.cell b.length (Nat.lt_succ_self _)

/-- The rows give the least number of edits, and so a distance on texts that the longer text bounds.
-/
theorem levenshteinDistance_isDistance : ∃ distance : List CodeUnit → List CodeUnit → Nat,
    (∀ a b, levenshteinDistance a b = some (distance a b)) ∧
    (∀ a b, distance a b = levenshtein a b) ∧
      (∀ a b, IsLeast {n | EditsIn n a b} (distance a b)) ∧ (∀ a b, distance a b = distance b a) ∧
      (∀ a b c, distance a c ≤ distance a b +
        distance b c) ∧ ∀ a b, distance a b ≤ max a.length b.length :=
  ⟨levenshtein, levenshteinDistance_spec, fun _ _ => rfl, levenshtein_isLeast, levenshtein_comm,
    levenshtein_triangle, levenshtein_le_max⟩

example : levenshteinDistance (units "kitten") (units "sitting") = some 3 := by decide +kernel

theorem similarity_mem_unit (a b : List CodeUnit) :
    ∃ q : ℚ, similarity a b = some q ∧ 0 ≤ q ∧ q ≤ 1 := by
  unfold similarity
  split
  case isTrue h => exact ⟨1, rfl, by decide, le_refl 1⟩
  case isFalse h =>
    have hmax : max a.length b.length ≠ 0 := by omega
    have hpos : (0 : ℚ) < (max a.length b.length : Nat) := by exact_mod_cast Nat.pos_of_ne_zero hmax
    have hle : (levenshtein a b : ℚ) ≤ (max a.length b.length : Nat) := by
      exact_mod_cast levenshtein_le_max a b
    refine ⟨1 - (levenshtein a b : ℚ) / (max a.length b.length : Nat), ?_, ?_, ?_⟩
    · simp [levenshteinDistance_spec, hmax]
    · exact sub_nonneg.mpr ((div_le_one hpos).mpr hle)
    · exact sub_le_self 1 (div_nonneg (Nat.cast_nonneg _) hpos.le)

end JevCode.Edit.Levenshtein
