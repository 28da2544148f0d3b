import JevCode.Data.EditTable
import JevCode.Data.InsertionMap
import JevCode.Text.Utf16
import Mathlib.Algebra.Order.Field.Rat

namespace JevCode.Edit

open JevCode.Data JevCode.Text

def levenshteinRow (aCode : CodeUnit) : Nat → List CodeUnit → List Nat → List Nat
  | left, bCode :: codes, diagonal :: above :: prev =>
    let cost := if aCode ≠ bCode then 1 else 0
    let cell := min (min (above + 1) (left + 1)) (diagonal + cost)
    cell :: levenshteinRow aCode cell codes (above :: prev)
  | _, _, _ => []

def levenshteinTable (b : List CodeUnit) : Nat → List CodeUnit → List Nat → List Nat
  | _, [], prev => prev
  | i, aCode :: a, prev => levenshteinTable b (i + 1) a (i :: levenshteinRow aCode i b prev)

def levenshteinDp (a b : List CodeUnit) : Nat :=
  if a = b then 0
  else if a.length = 0 then b.length
  else if b.length = 0 then a.length
  else (levenshteinTable b 1 a (List.range (b.length + 1)))[b.length]?.getD 0

structure MyersPattern where
  units : List CodeUnit
  masks : InsertionMap CodeUnit (BitVec 128)
  highBit : BitVec 128
  activeBits : BitVec 128

def addMasks : Nat → List CodeUnit → InsertionMap CodeUnit (BitVec 128) →
    InsertionMap CodeUnit (BitVec 128)
  | _, [], masks => masks
  | idx, unit :: units, masks =>
    addMasks (idx + 1) units (masks.set unit ((masks.get? unit).getD 0 ||| 1#128 <<< idx))

def MyersPattern.new (units : List CodeUnit) : MyersPattern :=
  let masks := addMasks 0 units .empty
  let len := units.length
  if len = 0 then ⟨[], masks, 0, 0⟩
  else ⟨units, masks, 1#128 <<< (len - 1),
    if len = 128 then BitVec.allOnes 128 else (1#128 <<< len) - 1⟩

structure MyersColumn where
  score : Nat
  pv : BitVec 128
  mv : BitVec 128

def MyersPattern.step (p : MyersPattern) (c : MyersColumn) (unit : CodeUnit) : MyersColumn :=
  let eq := (p.masks.get? unit).getD 0
  let xv := eq ||| c.mv
  let xh := (((eq &&& c.pv) + c.pv) ^^^ c.pv) ||| eq
  let ph := c.mv ||| ~~~(xh ||| c.pv)
  let mh := c.pv &&& xh
  let score :=
    if ph &&& p.highBit ≠ 0 then c.score + 1
    else if mh &&& p.highBit ≠ 0 then c.score - 1
    else c.score
  let ph := ((ph <<< 1) ||| 1#128) &&& p.activeBits
  let mh := (mh <<< 1) &&& p.activeBits
  { score
    pv := (mh ||| ~~~(xv ||| ph)) &&& p.activeBits
    mv := (ph &&& xv) &&& p.activeBits }

def MyersPattern.distance (p : MyersPattern) (text : List CodeUnit) : Nat :=
  if p.units = text then 0
  else
    let patternLen := p.units.length
    if patternLen = 0 then text.length
    else if text = [] then patternLen
    else if patternLen > 128 then levenshteinDp p.units text
    else (text.foldl p.step ⟨patternLen, p.activeBits, 0⟩).score

inductive FuzzyPattern where
  | myers (p : MyersPattern)
  | dp (units : List CodeUnit)

def FuzzyPattern.new (units : List CodeUnit) : FuzzyPattern :=
  if units = [] ∨ units.length > 128 then .dp units else .myers (.new units)

def similarityBy (distance : Nat) (a b : List CodeUnit) : ℚ :=
  if a = [] ∧ b = [] then 1
  else
    let maxLen := max a.length b.length
    if maxLen = 0 then 1 else 1 - (distance : ℚ) / maxLen

def similarityDp (a b : List CodeUnit) : ℚ := similarityBy (levenshteinDp a b) a b

def MyersPattern.similarity (p : MyersPattern) (text : List CodeUnit) : ℚ :=
  similarityBy (p.distance text) p.units text

def FuzzyPattern.similarity : FuzzyPattern → List CodeUnit → ℚ
  | .myers p, text => p.similarity text
  | .dp units, text => similarityDp units text

def tableRow (a b : List CodeUnit) (i : Nat) : List Nat :=
  (List.range (b.length + 1)).map (editCell a b i)

theorem levenshteinRow_spec (a b : List CodeUnit) {i : Nat} {aCode : CodeUnit}
    (ha : a[i]? = some aCode) {j : Nat} {codes : List CodeUnit} (hb : b.drop j = codes) :
    levenshteinRow aCode (editCell a b (i + 1) j) codes
      ((List.range' j (codes.length + 1)).map (editCell a b i)) =
      (List.range' (j + 1) codes.length).map (editCell a b (i + 1)) := by
  induction codes generalizing j with
  | nil => simp [levenshteinRow]
  | cons bCode codes ih =>
    have hcode : b[j]? = some bCode := by
      rw [← List.head?_drop, hb, List.head?_cons]
    have hrest : b.drop (j + 1) = codes := by
      rw [← List.tail_drop, hb, List.tail_cons]
    have hcell : min (min (editCell a b i (j + 1) + 1) (editCell a b (i + 1) j + 1))
        (editCell a b i j + if aCode ≠ bCode then 1 else 0) = editCell a b (i + 1) (j + 1) := by
      rw [editCell_succ, ha, hcode]
      simp only [ne_eq, ite_not, Option.some.injEq]
    rw [List.length_cons, List.range'_succ, List.range'_succ, List.map_cons, List.map_cons,
      levenshteinRow, hcell]
    have hih := ih hrest
    rw [List.range'_succ, List.map_cons] at hih
    rw [hih, List.map_cons]

theorem levenshteinTable_spec (a b : List CodeUnit) {i : Nat} {rest : List CodeUnit}
    (ha : a.drop i = rest) (hi : i ≤ a.length) :
    levenshteinTable b (i + 1) rest (tableRow a b i) = tableRow a b a.length := by
  induction rest generalizing i with
  | nil =>
    have hlen := List.drop_eq_nil_iff.mp ha
    rw [levenshteinTable, Nat.le_antisymm hi hlen]
  | cons aCode rest ih =>
    have hcode : a[i]? = some aCode := by
      rw [← List.head?_drop, ha, List.head?_cons]
    have hrest : a.drop (i + 1) = rest := by
      rw [← List.tail_drop, ha, List.tail_cons]
    have hlt : i < a.length := (List.getElem?_eq_some_iff.mp hcode).1
    have hrow := levenshteinRow_spec a b hcode (j := 0) (List.drop_zero (l := b))
    have hnext : (i + 1) :: levenshteinRow aCode (i + 1) b (tableRow a b i) =
        tableRow a b (i + 1) := by
      rw [editCell_zero_right, ← List.range_eq_range'] at hrow
      rw [tableRow, tableRow, hrow, List.range_eq_range' (n :=
        b.length + 1), List.range'_succ, List.map_cons, editCell_zero_right]
    rw [levenshteinTable, hnext]
    exact ih hrest hlt

theorem levenshteinDp_spec (a b : List CodeUnit) :
    levenshteinDp a b = editCell a b a.length b.length := by
  unfold levenshteinDp
  split
  case isTrue h => rw [h, editCell_self]
  case isFalse =>
    split
    case isTrue ha => rw [ha, editCell_zero_left]
    case isFalse =>
      split
      case isTrue hb => rw [hb, editCell_zero_right]
      case isFalse =>
        have hstart : List.range (b.length + 1) = tableRow a b 0 := by
          rw [tableRow, show editCell a b 0 = id from funext (editCell_zero_left a b), List.map_id]
        rw [hstart, levenshteinTable_spec a b List.drop_zero (Nat.zero_le _)]
        simp [tableRow]

theorem getD_addMasks (u : CodeUnit) {i : Nat} (hi : i < 128) (units : List CodeUnit) (idx : Nat)
    (masks : InsertionMap CodeUnit (BitVec 128)) :
    (((addMasks idx units masks).get? u).getD 0).getLsbD i = true ↔
      ((masks.get? u).getD 0).getLsbD i = true ∨ idx ≤ i ∧ units[i - idx]? = some u := by
  induction units generalizing idx masks with
  | nil => simp [addMasks]
  | cons unit units ih =>
    rw [addMasks, ih, InsertionMap.get?_set]
    have hhead : i = idx → ((unit :: units)[i - idx]? = some u ↔ unit = u) := by
      rintro rfl
      simp
    have htail : idx + 1 ≤ i → (unit :: units)[i - idx]? = units[i - (idx + 1)]? := by
      intro h
      rw [show i - idx = (i - (idx + 1)) + 1 by omega, List.getElem?_cons_succ]
    by_cases hu : u = unit
    · subst hu
      have hbit : (1#128 <<< idx).getLsbD i = true ↔ i = idx := by
        simp; omega
      rw [if_pos rfl, Option.getD_some, BitVec.getLsbD_or, Bool.or_eq_true, hbit]
      by_cases hi' : i = idx
      · simp [hi']
      · by_cases hle : idx ≤ i
        · rw [htail (by omega)]
          simp only [hi', or_false, show idx + 1 ≤ i by omega, hle, true_and]
        · simp only [hi', or_false, show ¬ idx + 1 ≤ i by omega, hle, false_and]
    · rw [if_neg hu]
      by_cases hi' : i = idx
      · have hne : ¬ unit = u := fun h => hu h.symm
        simp only [hhead hi', hne, and_false, or_false, show ¬ idx + 1 ≤ i by omega, false_and]
      · by_cases hle : idx ≤ i
        · rw [htail (by omega)]
          simp only [show idx + 1 ≤ i by omega, hle, true_and]
        · simp only [show ¬ idx + 1 ≤ i by omega, hle, false_and]

variable {pattern text : List CodeUnit} {i j : Nat}

theorem masks_new (u : CodeUnit) (hi : i < 128) :
    (((MyersPattern.new pattern).masks.get? u).getD 0).getLsbD i = true ↔ pattern[i]? = some u := by
  have hmasks : (MyersPattern.new pattern).masks = addMasks 0 pattern .empty := by
    simp only [MyersPattern.new]
    split <;> rfl
  rw [hmasks, getD_addMasks u hi]
  simp

theorem units_new (pattern : List CodeUnit) : (MyersPattern.new pattern).units = pattern := by
  simp only [MyersPattern.new]
  split
  case isTrue h => exact (List.length_eq_zero_iff.mp h).symm
  case isFalse => rfl

theorem and_highBit (hlen : pattern ≠ []) (hmax : pattern.length ≤ 128) (x : BitVec 128) :
    x &&& (MyersPattern.new pattern).highBit ≠ 0 ↔ x.getLsbD (pattern.length - 1) = true := by
  have hpos : pattern.length ≠ 0 := fun h => hlen (List.length_eq_zero_iff.mp h)
  have hlt : pattern.length - 1 < 128 := by omega
  have hbit : (MyersPattern.new pattern).highBit = BitVec.twoPow 128 (pattern.length - 1) := by
    simp only [MyersPattern.new, hpos, if_false, BitVec.twoPow_eq]
  have hne : BitVec.twoPow 128 (pattern.length - 1) ≠ 0 := by
    intro h
    have hzero := congrArg (fun v => v.getLsbD (pattern.length - 1)) h
    simp [hlt] at hzero
  rw [hbit, BitVec.and_twoPow]
  cases x.getLsbD (pattern.length - 1) with
  | false => simp
  | true => simpa using hne

theorem activeBits_new (hi : i < pattern.length) (hmax : pattern.length ≤ 128) :
    (MyersPattern.new pattern).activeBits.getLsbD i = true := by
  have hpos : pattern.length ≠ 0 := by omega
  simp only [MyersPattern.new, hpos, if_false]
  split
  case isTrue => exact BitVec.getLsbD_allOnes.trans (decide_eq_true (by omega))
  case isFalse h =>
    have hlt : pattern.length < 128 := by omega
    have hpow : (1#128 <<< pattern.length).toNat = 2 ^ pattern.length := by
      rw [← BitVec.twoPow_eq, BitVec.toNat_twoPow_of_lt hlt]
    have hle : (1 : BitVec 128) ≤ 1#128 <<< pattern.length := by
      rw [BitVec.le_def, hpow]
      exact Nat.one_le_two_pow
    rw [BitVec.getLsbD, BitVec.toNat_sub_of_le hle, hpow]
    exact (Nat.testBit_two_pow_sub_one _ _).trans (decide_eq_true hi)

structure ColumnAt (pattern text : List CodeUnit) (j : Nat) (c : MyersColumn) : Prop where
  score : c.score = editCell pattern text pattern.length j
  pv : ∀ i < pattern.length, (c.pv.getLsbD i = true ↔ Rises pattern text i j)
  mv : ∀ i < pattern.length, (c.mv.getLsbD i = true ↔ Falls pattern text i j)

theorem columnAt_zero (hmax : pattern.length ≤ 128) :
    ColumnAt pattern text 0 ⟨pattern.length, (MyersPattern.new pattern).activeBits, 0⟩ where
  score := (editCell_zero_right pattern text _).symm
  pv i hi := iff_of_true (activeBits_new hi hmax) (rises_zero pattern text i)
  mv i _ := iff_of_false (by simp) (not_falls_zero pattern text i)

theorem carry_iff_shrinks {eq : BitVec 128} {c : MyersColumn} (hc : ColumnAt pattern text j c)
    (heq : ∀ i < pattern.length, (eq.getLsbD i = true ↔ pattern[i]? = text[j]?))
    (hi : i ≤ pattern.length) :
    BitVec.carry i (eq &&& c.pv) c.pv false = true ↔ Shrinks pattern text i j := by
  induction i with
  | zero => simpa using not_shrinks_zero pattern text j
  | succ i ih =>
    rw [shrinks_succ, ← hc.pv i hi, ← heq i hi, ← ih (by omega), BitVec.carry_succ,
      BitVec.getLsbD_and]
    cases eq.getLsbD i <;> cases c.pv.getLsbD i <;> simp [Bool.atLeastTwo]

theorem xh_iff {eq : BitVec 128} {c : MyersColumn} (hc : ColumnAt pattern text j c)
    (heq : ∀ i < pattern.length, (eq.getLsbD i = true ↔ pattern[i]? = text[j]?))
    (hmax : pattern.length ≤ 128) (hi : i < pattern.length) :
    (((eq &&& c.pv) + c.pv ^^^ c.pv) ||| eq).getLsbD i = true ↔
      pattern[i]? = text[j]? ∨ Shrinks pattern text i j := by
  rw [← heq i hi, ← carry_iff_shrinks hc heq hi.le, BitVec.getLsbD_or, BitVec.getLsbD_xor,
    BitVec.getLsbD_add (by omega), BitVec.getLsbD_and]
  cases eq.getLsbD i <;> cases c.pv.getLsbD i <;> simp

section

variable {x active : BitVec 128} {P : Nat → Prop} {n : Nat}

theorem shifted_iff (hn : n ≤ 128) (hactive : ∀ i < n, active.getLsbD i = true)
    (hx : ∀ i < n, (x.getLsbD i = true ↔ P (i + 1))) (hzero : ¬ P 0) (hi : i < n) :
    ((x <<< 1) &&& active).getLsbD i = true ↔ P i := by
  have hi' : i < 128 := by omega
  rw [BitVec.getLsbD_and, hactive i hi, Bool.and_true, BitVec.getLsbD_shiftLeft]
  cases i with
  | zero => simpa using hzero
  | succ i => simpa [hi'] using hx i (by omega)

theorem shifted_one_iff (hn : n ≤ 128) (hactive : ∀ i < n, active.getLsbD i = true)
    (hx : ∀ i < n, (x.getLsbD i = true ↔ P (i + 1))) (hzero : P 0) (hi : i < n) :
    ((x <<< 1 ||| 1#128) &&& active).getLsbD i = true ↔ P i := by
  have hi' : i < 128 := by omega
  rw [BitVec.getLsbD_and, hactive i hi, Bool.and_true, BitVec.getLsbD_or, BitVec.getLsbD_shiftLeft]
  cases i with
  | zero => simpa using hzero
  | succ i => simpa [hi'] using hx i (by omega)

end

theorem ColumnAt.step {c : MyersColumn} (hc : ColumnAt pattern text j c) (hlen : pattern ≠ [])
    (hmax : pattern.length ≤ 128) {unit : CodeUnit} (hunit : text[j]? = some unit) :
    ColumnAt pattern text (j + 1) ((MyersPattern.new pattern).step c unit) := by
  have hpos : 0 < pattern.length := List.length_pos_iff.mpr hlen
  have hactive : ∀ i < pattern.length, (MyersPattern.new pattern).activeBits.getLsbD i = true :=
    fun i hi => activeBits_new hi hmax
  let eq := ((MyersPattern.new pattern).masks.get? unit).getD 0
  let xh := ((eq &&& c.pv) + c.pv ^^^ c.pv) ||| eq
  let ph := c.mv ||| ~~~(xh ||| c.pv)
  let mh := c.pv &&& xh
  have heq : ∀ i < pattern.length, (eq.getLsbD i = true ↔ pattern[i]? = text[j]?) := by
    intro i hi
    rw [hunit]
    exact masks_new unit (by omega)
  have hph : ∀ i < pattern.length, (ph.getLsbD i = true ↔ Grows pattern text (i + 1) j) := by
    intro i hi
    have hi' : i < 128 := by omega
    rw [grows_succ, ← hc.pv i hi, ← hc.mv i hi, ← xh_iff hc heq hmax hi]
    simp [ph, xh, hi']
  have hmh : ∀ i < pattern.length, (mh.getLsbD i = true ↔ Shrinks pattern text (i + 1) j) := by
    intro i hi
    rw [shrinks_succ, ← hc.pv i hi, ← xh_iff hc heq hmax hi]
    simp [mh, xh]
  have hlast : pattern.length - 1 + 1 = pattern.length := by omega
  constructor
  · have hup := (and_highBit hlen hmax ph).trans (hph _ (by omega))
    have hdown := (and_highBit hlen hmax mh).trans (hmh _ (by omega))
    rw [hlast] at hup hdown
    show (if ph &&& _ ≠ 0 then _ else if mh &&& _ ≠ 0 then _ else _) = _
    rw [hc.score]
    exact editCell_along pattern text pattern.length j hup hdown
  · intro i hi
    have hi' : i < 128 := by omega
    have hmh' :=
      shifted_iff (P :=
        fun i => Shrinks pattern text i j) hmax hactive hmh (not_shrinks_zero pattern text j) hi
    have hph' := shifted_one_iff (P :=
      fun i => Grows pattern text i j) hmax hactive hph (grows_zero pattern text j) hi
    rw [rises_succ, ← hmh', ← heq i hi, ← hc.mv i hi, ← hph']
    show ((_ ||| ~~~((eq ||| c.mv) ||| _)) &&& _).getLsbD i = true ↔ _
    rw [BitVec.getLsbD_and, hactive i hi, Bool.and_true, BitVec.getLsbD_or, BitVec.getLsbD_not,
      BitVec.getLsbD_or, BitVec.getLsbD_or]
    simp only [hi', decide_true, Bool.true_and, Bool.or_eq_true, Bool.not_eq_true',
      ← Bool.not_eq_true]
    rfl
  · intro i hi
    have hph' := shifted_one_iff (P :=
      fun i => Grows pattern text i j) hmax hactive hph (grows_zero pattern text j) hi
    rw [falls_succ, ← hph', ← heq i hi, ← hc.mv i hi]
    show ((_ &&& (eq ||| c.mv)) &&& _).getLsbD i = true ↔ _
    rw [BitVec.getLsbD_and, hactive i hi, Bool.and_true, BitVec.getLsbD_and, BitVec.getLsbD_or,
      Bool.and_eq_true, Bool.or_eq_true]

theorem columnAt_foldl (hlen : pattern ≠ []) (hmax : pattern.length ≤ 128) {rest : List CodeUnit}
    {c : MyersColumn} (hrest : text.drop j = rest) (hc : ColumnAt pattern text j c)
    (hj : j ≤ text.length) :
    ColumnAt pattern text text.length (rest.foldl (MyersPattern.new pattern).step c) := by
  induction rest generalizing j c with
  | nil =>
    have hle := List.drop_eq_nil_iff.mp hrest
    rw [Nat.le_antisymm hj hle] at hc
    exact hc
  | cons unit rest ih =>
    have hunit : text[j]? = some unit := by
      rw [← List.head?_drop, hrest, List.head?_cons]
    have hnext : text.drop (j + 1) = rest := by
      rw [← List.tail_drop, hrest, List.tail_cons]
    have hlt : j < text.length := (List.getElem?_eq_some_iff.mp hunit).1
    exact ih hnext (hc.step hlen hmax hunit) hlt

theorem distance_spec (hmax : pattern.length ≤ 128) (text : List CodeUnit) :
    (MyersPattern.new pattern).distance text = editCell pattern text pattern.length text.length := by
  unfold MyersPattern.distance
  rw [units_new]
  by_cases hsame : pattern = text
  · rw [if_pos hsame, hsame, editCell_self]
  · rw [if_neg hsame]
    by_cases hlen : pattern = []
    · simp [hlen]
    · have hpos : pattern.length ≠ 0 := fun h => hlen (List.length_eq_zero_iff.mp h)
      by_cases htext : text = []
      · simp [htext, hpos]
      · simp only [hpos, htext, if_false, Nat.not_lt.mpr hmax]
        exact (columnAt_foldl hlen hmax List.drop_zero (columnAt_zero hmax) (Nat.zero_le _)).score

theorem myers_distance_eq_levenshteinDp (hmax : pattern.length ≤ 128) (text : List CodeUnit) :
    (MyersPattern.new pattern).distance text = levenshteinDp pattern text := by
  rw [distance_spec hmax, levenshteinDp_spec]

theorem kitten_distance : (MyersPattern.new (units "kitten")).distance (units "sitting") =
    levenshteinDp (units "kitten") (units "sitting") :=
  myers_distance_eq_levenshteinDp (by decide) (units "sitting")

theorem similarity_new (pattern text : List CodeUnit) :
    (FuzzyPattern.new pattern).similarity text = similarityDp pattern text := by
  unfold FuzzyPattern.new
  split
  case isTrue => rfl
  case isFalse h =>
    have hmax : pattern.length ≤ 128 := Nat.le_of_not_lt fun hlt => h (Or.inr hlt)
    show similarityBy _ _ text = similarityBy _ pattern text
    rw [units_new, distance_spec hmax, levenshteinDp_spec]

end JevCode.Edit
