import JevCode.Text.Utf8
import JevCode.Text.Utf16

namespace JevCode.Text

def isHigh (u : CodeUnit) : Bool := 0xd800 ≤ u && u ≤ 0xdbff

def isLow (u : CodeUnit) : Bool := 0xdc00 ≤ u && u ≤ 0xdfff

inductive CodePoint
  | scalar (c : Char)
  | lone (u : CodeUnit)
  deriving DecidableEq

def pairChar (u v : CodeUnit) : Char :=
  .ofNat (0x10000 + (u.toNat - 0xd800) * 0x400 + (v.toNat - 0xdc00))

def unitPoint (u : CodeUnit) : CodePoint :=
  if isHigh u || isLow u then .lone u else .scalar (.ofNat u.toNat)

def codePoints : List CodeUnit → List CodePoint
  | [] => []
  | [u] => [unitPoint u]
  | u :: v :: s =>
    if isHigh u && isLow v then .scalar (pairChar u v) :: codePoints s else unitPoint u ::
      codePoints (v :: s)

namespace CodePoint

def units : CodePoint → List CodeUnit
  | scalar c => charUnits c
  | lone u => [u]

def toChar : CodePoint → Char
  | scalar c => c
  | lone _ => replacement

def IsScalar : CodePoint → Prop
  | scalar _ => True
  | lone _ => False

instance (p : CodePoint) : Decidable p.IsScalar :=
  match p with
  | scalar _ => isTrue trivial
  | lone _ => isFalse id

end CodePoint

def wellFormedChars (s : List CodeUnit) : Chars := (codePoints s).map CodePoint.toChar

def utf8Length (s : List CodeUnit) : Nat := byteLength (wellFormedChars s)

def charsUnits (t : Chars) : List CodeUnit := t.flatMap charUnits

def pointsUnits (points : List CodePoint) : List CodeUnit := points.flatMap CodePoint.units

theorem isHigh_iff {u : CodeUnit} : isHigh u = true ↔ 0xd800 ≤ u.toNat ∧ u.toNat ≤ 0xdbff := by
  simp [isHigh, UInt16.le_iff_toNat_le]

theorem isLow_iff {u : CodeUnit} : isLow u = true ↔ 0xdc00 ≤ u.toNat ∧ u.toNat ≤ 0xdfff := by
  simp [isLow, UInt16.le_iff_toNat_le]

theorem toNat_charOfNat {n : Nat} (h : n < 0xd800 ∨ 0xdfff < n ∧ n < 0x110000) :
    (Char.ofNat n).toNat = n := by
  rw [Char.ofNat, dif_pos h]
  rfl

theorem charUnits_pairChar {u v : CodeUnit} (hu : isHigh u = true) (hv : isLow v = true) :
    charUnits (pairChar u v) = [u, v] := by
  rw [isHigh_iff] at hu
  rw [isLow_iff] at hv
  have hn : (pairChar u v).toNat = 0x10000 + (u.toNat - 0xd800) * 0x400 + (v.toNat - 0xdc00) :=
    toNat_charOfNat (by omega)
  rw [charUnits, hn, if_neg (by omega)]
  simp only [List.cons.injEq, and_true]
  constructor
  · rw [← UInt16.toNat_inj, UInt16.toNat_ofNat']
    omega
  · rw [← UInt16.toNat_inj, UInt16.toNat_ofNat']
    omega

theorem charUnits_ofNat {u : CodeUnit} (hu : isHigh u = false) (hv : isLow u = false) :
    charUnits (.ofNat u.toNat) = [u] := by
  have hhigh : ¬(0xd800 ≤ u.toNat ∧ u.toNat ≤ 0xdbff) := fun h => by simp [isHigh_iff.mpr h] at hu
  have hlow : ¬(0xdc00 ≤ u.toNat ∧ u.toNat ≤ 0xdfff) := fun h => by simp [isLow_iff.mpr h] at hv
  have hlt := u.toNat_lt
  have hn : (Char.ofNat u.toNat).toNat = u.toNat := toNat_charOfNat (by omega)
  rw [charUnits, hn, if_pos (by omega), code, hn]
  simp

theorem units_unitPoint (u : CodeUnit) : (unitPoint u).units = [u] := by
  unfold unitPoint
  split
  · rfl
  next h =>
    rw [Bool.or_eq_true, not_or, Bool.not_eq_true, Bool.not_eq_true] at h
    exact charUnits_ofNat h.1 h.2

@[simp] theorem pointsUnits_codePoints (s : List CodeUnit) : pointsUnits (codePoints s) = s := by
  unfold pointsUnits
  fun_induction codePoints s with
  | case1 => rfl
  | case2 u => simp [units_unitPoint]
  | case3 u v s h ih =>
    rw [Bool.and_eq_true] at h
    rw [List.flatMap_cons, ih, CodePoint.units, charUnits_pairChar h.1 h.2]
    rfl
  | case4 u v s h ih => rw [List.flatMap_cons, ih, units_unitPoint, List.singleton_append]

theorem codePoints_cons_of_not_isHigh {u : CodeUnit} (hu : isHigh u = false) (s : List CodeUnit) :
    codePoints (u :: s) = unitPoint u :: codePoints s := by
  cases s with
  | nil => rfl
  | cons v s => simp [codePoints, hu]

theorem charUnits_cases (c : Char) :
    (charUnits c = [code c] ∧ isHigh (code c) = false ∧ isLow (code c) = false ∧
      (code c).toNat = c.toNat) ∨
      ∃ hi lo, charUnits c = [hi, lo] ∧ isHigh hi = true ∧ isLow lo = true ∧ pairChar hi lo = c := by
  have hvalid : c.toNat < 0xd800 ∨ 0xdfff < c.toNat ∧ c.toNat < 0x110000 := c.valid
  unfold charUnits
  split
  next hplane =>
    have hn : (code c).toNat = c.toNat := by
      rw [code, UInt16.toNat_ofNat']
      omega
    refine .inl ⟨rfl, Bool.eq_false_iff.mpr fun h => ?_, Bool.eq_false_iff.mpr fun h => ?_, hn⟩
    · have := isHigh_iff.mp h
      omega
    · have := isLow_iff.mp h
      omega
  next hplane =>
    generalize hhi : UInt16.ofNat (0xd800 + (c.toNat - 0x10000) / 0x400) = hi
    generalize hlo : UInt16.ofNat (0xdc00 + (c.toNat - 0x10000) % 0x400) = lo
    have hhiNat : hi.toNat = 0xd800 + (c.toNat - 0x10000) / 0x400 := by
      rw [← hhi, UInt16.toNat_ofNat']
      omega
    have hloNat : lo.toNat = 0xdc00 + (c.toNat - 0x10000) % 0x400 := by
      rw [← hlo, UInt16.toNat_ofNat']
      omega
    have hval : 0x10000 + (hi.toNat - 0xd800) * 0x400 + (lo.toNat - 0xdc00) = c.toNat := by omega
    refine .inr ⟨hi, lo, rfl, isHigh_iff.mpr (by omega), isLow_iff.mpr (by omega), ?_⟩
    rw [pairChar, hval, Char.ofNat_toNat]

theorem codePoints_charUnits_append (c : Char) (s : List CodeUnit) :
    codePoints (charUnits c ++ s) = .scalar c :: codePoints s := by
  obtain ⟨hunits, hhigh, hlow, hn⟩ | ⟨hi, lo, hunits, hhigh, hlow, hpair⟩ := charUnits_cases c
  · rw [hunits, List.singleton_append, codePoints_cons_of_not_isHigh hhigh, unitPoint, hhigh, hlow,
      hn, Char.ofNat_toNat]
    rfl
  · rw [hunits, List.cons_append, List.singleton_append, codePoints, hhigh, hlow, hpair]
    rfl

theorem charsUnits_append (t u : Chars) : charsUnits (t ++ u) = charsUnits t ++ charsUnits u :=
  List.flatMap_append

theorem charsUnits_cons (c : Char) (t : Chars) : charsUnits (c :: t) = charUnits c ++ charsUnits t :=
  List.flatMap_cons

theorem codePoints_charsUnits_append (t : Chars) (s : List CodeUnit) :
    codePoints (charsUnits t ++ s) = t.map .scalar ++ codePoints s := by
  induction t with
  | nil => rfl
  | cons c t ih =>
    rw [charsUnits_cons, List.append_assoc, codePoints_charUnits_append, ih, List.map_cons,
      List.cons_append]

theorem wellFormedChars_charsUnits_append (t : Chars) (s : List CodeUnit) :
    wellFormedChars (charsUnits t ++ s) = t ++ wellFormedChars s := by
  have hid : (t.map CodePoint.scalar).map CodePoint.toChar = t := by
    rw [List.map_map]
    exact List.map_id t
  rw [wellFormedChars, codePoints_charsUnits_append, List.map_append, hid]
  rfl

theorem codePoints_charsUnits (t : Chars) : codePoints (charsUnits t) = t.map .scalar := by
  have h := codePoints_charsUnits_append t []
  rwa [List.append_nil, codePoints, List.append_nil] at h

@[simp] theorem wellFormedChars_charsUnits (t : Chars) : wellFormedChars (charsUnits t) = t := by
  rw [wellFormedChars, codePoints_charsUnits, List.map_map]
  exact List.map_id t

theorem charsUnits_cons_ne_nil (c : Char) (t : Chars) : charsUnits (c :: t) ≠ [] := by
  intro h
  have hpoints := codePoints_charsUnits (c :: t)
  rw [h] at hpoints
  cases hpoints

def CutsNoPair (a b : List CodeUnit) : Prop :=
  ∀ u ∈ a.getLast?, ∀ v ∈ b.head?, isHigh u = true → isLow v = false

theorem codePoints_append {a b : List CodeUnit} (h : CutsNoPair a b) :
    codePoints (a ++ b) = codePoints a ++ codePoints b := by
  fun_induction codePoints a with
  | case1 => rfl
  | case2 u =>
    cases b with
    | nil => simp [codePoints]
    | cons v b =>
      have hpair : ¬(isHigh u && isLow v) = true := by
        rw [Bool.and_eq_true]
        rintro ⟨hu, hv⟩
        simp [h u rfl v rfl hu] at hv
      rw [List.singleton_append, codePoints, if_neg hpair]
      rfl
  | case3 u v s hpair ih =>
    rw [List.cons_append, List.cons_append, codePoints, if_pos hpair, ih]
    · rfl
    · intro x hx
      refine h x ?_
      cases s with
      | nil => cases hx
      | cons w s => simpa [List.getLast?_cons_cons] using hx
  | case4 u v s hpair ih =>
    rw [List.cons_append, List.cons_append, codePoints, if_neg hpair, ← List.cons_append, ih]
    · rfl
    · intro x hx
      exact h x (by simpa [List.getLast?_cons_cons] using hx)

theorem wellFormedChars_append {a b : List CodeUnit} (h : CutsNoPair a b) :
    wellFormedChars (a ++ b) = wellFormedChars a ++ wellFormedChars b := by
  rw [wellFormedChars, codePoints_append h, List.map_append]
  rfl

theorem utf8Length_append {a b : List CodeUnit} (h : CutsNoPair a b) :
    utf8Length (a ++ b) = utf8Length a + utf8Length b := by
  rw [utf8Length, wellFormedChars_append h, byteLength_append]
  rfl

theorem utf8Length_append_cons {u : CodeUnit} (hhigh : isHigh u = false) (hlow : isLow u = false)
    (a b : List CodeUnit) :
    utf8Length (a ++ u :: b) = utf8Length a + utf8Length [u] + utf8Length b := by
  have hbefore : CutsNoPair a (u :: b) := by
    rintro x - v ⟨⟩ -
    exact hlow
  have hafter : CutsNoPair [u] b := by
    rintro x ⟨⟩ v - hx
    simp [hhigh] at hx
  rw [utf8Length_append hbefore, ← List.singleton_append, utf8Length_append hafter, Nat.add_assoc]

theorem codePoints_cons_unit {u : CodeUnit} {s : List CodeUnit}
    (h : ∀ v ∈ s.head?, isHigh u = true → isLow v = false) :
    codePoints (u :: s) = unitPoint u :: codePoints s := by
  rw [← List.singleton_append, codePoints_append]
  · rfl
  · rintro x ⟨⟩
    exact h

theorem codePoints_eq_cons {s : List CodeUnit} {p : CodePoint} {rest : List CodePoint}
    (h : codePoints s = p :: rest) :
    ∃ t, s = p.units ++ t ∧ codePoints t = rest ∧
      ∀ t', t' = [] ∨ t'.head? = t.head? → codePoints (p.units ++ t') = p :: codePoints t' := by
  match s with
  | [] => cases h
  | [u] =>
    cases h
    rw [units_unitPoint]
    refine ⟨[], rfl, rfl, fun t' ht' => codePoints_cons_unit fun v hv => ?_⟩
    change v ∈ t'.head? at hv
    obtain rfl | ht' := ht'
    · cases hv
    · rw [ht'] at hv
      cases hv
  | u :: v :: s =>
    rw [codePoints] at h
    split at h
    case isTrue hpair =>
      rw [Bool.and_eq_true] at hpair
      cases h
      exact ⟨s, by rw [CodePoint.units, charUnits_pairChar hpair.1 hpair.2]; rfl, rfl,
        fun t' _ => codePoints_charUnits_append _ t'⟩
    case isFalse hpair =>
      cases h
      rw [units_unitPoint]
      refine ⟨v :: s, rfl, rfl, fun t' ht' => codePoints_cons_unit fun w hw hu => ?_⟩
      change w ∈ t'.head? at hw
      obtain rfl | ht' := ht'
      · cases hw
      · rw [ht'] at hw
        cases hw
        rw [hu, Bool.true_and, Bool.not_eq_true] at hpair
        exact hpair

theorem codePoints_eq_append {s : List CodeUnit} {a b : List CodePoint} (h : codePoints s = a ++ b) :
    codePoints (pointsUnits a) = a ∧ codePoints (pointsUnits b) = b := by
  induction a generalizing s with
  | nil =>
    refine ⟨rfl, ?_⟩
    rw [List.nil_append] at h
    rw [← h, pointsUnits_codePoints]
  | cons p a ih =>
    obtain ⟨t, -, ht, hfirst⟩ := codePoints_eq_cons h
    change codePoints t = a ++ b at ht
    obtain ⟨ha, hb⟩ := ih ht
    refine ⟨?_, hb⟩
    have hhead : pointsUnits a = [] ∨ (pointsUnits a).head? = t.head? := by
      rw [← pointsUnits_codePoints t, ht, pointsUnits, pointsUnits, List.flatMap_append]
      cases a.flatMap CodePoint.units with
      | nil => exact .inl rfl
      | cons u units => exact .inr rfl
    have hp := hfirst _ hhead
    rw [ha] at hp
    exact hp

theorem isHigh_or_isLow_of_lone {s : List CodeUnit} {u : CodeUnit} (h : .lone u ∈ codePoints s) :
    (isHigh u || isLow u) = true := by
  have hunit {v : CodeUnit} (hv : .lone u = unitPoint v) : (isHigh u || isLow u) = true := by
    rw [unitPoint] at hv
    split at hv
    next hsurrogate =>
      cases hv
      exact hsurrogate
    next => cases hv
  fun_induction codePoints s with
  | case1 => cases h
  | case2 v => exact hunit (List.mem_singleton.mp h)
  | case3 v w s hpair ih =>
    obtain h | h := List.mem_cons.mp h
    · cases h
    · exact ih h
  | case4 v w s hpair ih =>
    obtain h | h := List.mem_cons.mp h
    · exact hunit h
    · exact ih h

theorem length_charUnits (c : Char) : (charUnits c).length = utf16Size c := by
  have hfour : c.utf8Size = 4 ↔ ¬c.toNat < 0x10000 := by
    rw [Char.utf8Size_eq_four_iff, UInt32.lt_iff_toNat_lt]
    change 65535 < c.toNat ↔ _
    omega
  unfold charUnits utf16Size
  by_cases h : c.toNat < 0x10000
  · rw [if_pos h, if_neg (fun h4 => hfour.mp h4 h)]
    rfl
  · rw [if_neg h, if_pos (hfour.mpr h)]
    rfl

theorem isLow_head_charsUnits (t : Chars) : ∀ u ∈ (charsUnits t).head?, isLow u = false := by
  cases t with
  | nil => exact fun u hu => nomatch hu
  | cons c t =>
    rw [charsUnits_cons]
    obtain ⟨hunits, -, hlow, -⟩ | ⟨hi, lo, hunits, hhigh, -, -⟩ := charUnits_cases c
    · rw [hunits]
      rintro u ⟨⟩
      exact hlow
    · rw [hunits]
      rintro u ⟨⟩
      have := isHigh_iff.mp hhigh
      refine Bool.eq_false_iff.mpr fun h => ?_
      have := isLow_iff.mp h
      omega

theorem charUnits_of_four {c : Char} (h : c.utf8Size = 4) :
    ∃ hi lo, charUnits c = [hi, lo] ∧ isHigh hi = true ∧ isLow lo = true := by
  obtain ⟨hunits, -⟩ | ⟨hi, lo, hunits, hhigh, hlow, -⟩ := charUnits_cases c
  · have hlength := length_charUnits c
    rw [hunits, utf16Size, if_pos h] at hlength
    cases hlength
  · exact ⟨hi, lo, hunits, hhigh, hlow⟩

theorem cut_charsUnits {t : Chars} {k : Nat} (hk : k ≤ (charsUnits t).length) :
    (∃ a b, t = a ++ b ∧ (charsUnits a).length = k) ∨
      ∃ a c b, t = a ++ c :: b ∧ c.utf8Size = 4 ∧ (charsUnits a).length + 1 = k := by
  induction t generalizing k with
  | nil => exact .inl ⟨[], [], rfl, (Nat.le_zero.mp hk).symm⟩
  | cons c t ih =>
    have hsize := utf16Size_le c
    rw [charsUnits_cons, List.length_append, length_charUnits] at hk
    by_cases hzero : k = 0
    · exact .inl ⟨[], c :: t, rfl, hzero.symm⟩
    by_cases hinside : k < utf16Size c
    · have hone : k = 1 := by omega
      refine .inr ⟨[], c, t, rfl, ?_, hone.symm⟩
      by_contra hfour
      rw [utf16Size, if_neg hfour] at hinside
      omega
    · obtain ⟨a, b, rfl, ha⟩ | ⟨a, d, b, rfl, hd, ha⟩ := ih (k := k - utf16Size c) (by omega)
      · refine .inl ⟨c :: a, b, rfl, ?_⟩
        rw [charsUnits_cons, List.length_append, length_charUnits]
        omega
      · refine .inr ⟨c :: a, d, b, rfl, hd, ?_⟩
        rw [charsUnits_cons, List.length_append, length_charUnits]
        omega

theorem CodePoint.length_units_le (p : CodePoint) : p.units.length ≤ p.toChar.utf8Size := by
  cases p with
  | scalar c => exact (length_charUnits c).trans_le (utf16Size_le c).2.2
  | lone u =>
    change 1 ≤ replacement.utf8Size
    decide

theorem length_pointsUnits_le (points : List CodePoint) :
    (pointsUnits points).length ≤ byteLength (points.map CodePoint.toChar) := by
  induction points with
  | nil => exact Nat.le_refl 0
  | cons p points ih =>
    have := p.length_units_le
    simp only [pointsUnits, List.flatMap_cons, List.length_append, List.map_cons,
      byteLength_cons] at ih ⊢
    omega

theorem codePoints_drop (s : List CodeUnit) (k : Nat) :
    (∃ a, codePoints s = a ++ codePoints (s.drop k) ∧ (k ≤ s.length → (pointsUnits a).length = k)) ∨
      ∃ a c v b, codePoints s = a ++ .scalar c :: b ∧ codePoints (s.drop k) = .lone v :: b ∧
        c.utf8Size = 4 := by
  fun_induction codePoints s generalizing k with
  | case1 =>
    refine .inl ⟨[], by simp [codePoints], fun hk => ?_⟩
    exact (Nat.le_zero.mp hk).symm
  | case2 u =>
    cases k with
    | zero => exact .inl ⟨[], by simp [codePoints], by simp [pointsUnits]⟩
    | succ k =>
      exact .inl ⟨[unitPoint u], by simp [codePoints], by simp [pointsUnits, units_unitPoint]⟩
  | case3 u v s hpair ih =>
    rw [Bool.and_eq_true] at hpair
    match k with
    | 0 => exact .inl ⟨[], by simp [codePoints, hpair], by simp [pointsUnits]⟩
    | 1 =>
      have hv : isHigh v = false := by
        have hlow := isLow_iff.mp hpair.2
        refine Bool.eq_false_iff.mpr fun hhigh => ?_
        have := isHigh_iff.mp hhigh
        omega
      refine .inr ⟨[], pairChar u v, v, codePoints s, rfl, ?_, ?_⟩
      · rw [List.drop_one, List.tail_cons, codePoints_cons_of_not_isHigh hv, unitPoint, hpair.2]
        simp
      · have hlen := length_charUnits (pairChar u v)
        rw [charUnits_pairChar hpair.1 hpair.2] at hlen
        by_contra hsize
        simp [utf16Size, hsize] at hlen
    | k + 2 =>
      obtain ⟨a, ha, hlen⟩ | ⟨a, c, w, b, hs, hb, hc⟩ := ih k
      · refine .inl ⟨.scalar (pairChar u v) :: a, by simpa using ha, fun hk => ?_⟩
        simp only [List.length_cons] at hk
        have := hlen (by omega)
        simp only [pointsUnits, List.flatMap_cons, List.length_append, CodePoint.units,
          charUnits_pairChar hpair.1 hpair.2, List.length_cons, List.length_nil] at this ⊢
        omega
      · exact .inr ⟨.scalar (pairChar u v) :: a, c, w, b, by simpa using hs, by simpa using hb, hc⟩
  | case4 u v s hpair ih =>
    cases k with
    | zero => exact .inl ⟨[], by simp [codePoints, hpair], by simp [pointsUnits]⟩
    | succ k =>
      obtain ⟨a, ha, hlen⟩ | ⟨a, c, w, b, hs, hb, hc⟩ := ih k
      · refine .inl ⟨unitPoint u :: a, by simpa using ha, fun hk => ?_⟩
        have := hlen (by simpa using hk)
        simp only [pointsUnits, List.flatMap_cons, List.length_append, units_unitPoint,
          List.length_singleton] at this ⊢
        omega
      · exact .inr ⟨unitPoint u :: a, c, w, b, by simpa using hs, by simpa using hb, hc⟩

theorem length_le_utf8Length (s : List CodeUnit) : s.length ≤ utf8Length s := by
  have h := length_pointsUnits_le (codePoints s)
  rwa [pointsUnits_codePoints] at h

theorem fitSuffix_wellFormedChars_drop {m n : Nat} (h : m ≤ n) (s : List CodeUnit) :
    fitSuffix m (wellFormedChars (s.drop (s.length - n))) = fitSuffix m (wellFormedChars s) := by
  by_cases hall : s.length ≤ n
  · rw [Nat.sub_eq_zero_of_le hall, List.drop_zero]
  have hlen : (s.drop (s.length - n)).length = n := by
    rw [List.length_drop]
    omega
  obtain ⟨a, ha, -⟩ | ⟨a, c, v, b, hs, hb, hc⟩ := codePoints_drop s (s.length - n)
  · -- cut at a code point: the window has at least `n` bytes
    have hbytes := length_le_utf8Length (s.drop (s.length - n))
    rw [hlen, utf8Length] at hbytes
    have hsplit : wellFormedChars s = a.map CodePoint.toChar ++
        wellFormedChars (s.drop (s.length - n)) := by
      rw [wellFormedChars, ha, List.map_append]
      rfl
    rw [hsplit]
    obtain hlt | heq := Nat.lt_or_eq_of_le (Nat.le_trans h hbytes)
    · rw [fitSuffix_append_of_lt hlt]
    · rw [fitSuffix_append_of_le (Nat.le_of_eq heq.symm), ← heq, Nat.sub_self, fitSuffix_zero,
        List.nil_append, fitSuffix_of_le (Nat.le_of_eq heq.symm)]
  · -- cut inside of a pair: the code points behind it have all but one of the units
    have hbytes : n ≤ byteLength (b.map CodePoint.toChar) + 1 := by
      have hpoints := length_pointsUnits_le b
      have hunits := pointsUnits_codePoints (s.drop (s.length - n))
      rw [hb] at hunits
      rw [← hlen, ← hunits]
      simp only [pointsUnits, List.flatMap_cons, List.length_append, CodePoint.units,
        List.length_singleton] at hpoints ⊢
      omega
    rw [wellFormedChars, hb, wellFormedChars, hs, List.map_cons, List.map_append, List.map_cons]
    have hpair : m < byteLength (CodePoint.toChar (.scalar c) :: b.map CodePoint.toChar) := by
      rw [byteLength_cons, CodePoint.toChar, hc]
      omega
    have hlone : m < byteLength (CodePoint.toChar (.lone v) :: b.map CodePoint.toChar) := by
      rw [byteLength_cons, CodePoint.toChar, utf8Size_replacement]
      omega
    rw [fitSuffix_append_of_lt hpair, fitSuffix_cons_of_lt hlone, fitSuffix_cons_of_lt hpair]

theorem charsUnits_map_toChar {points : List CodePoint} (h : ∀ p ∈ points, p.IsScalar) :
    charsUnits (points.map CodePoint.toChar) = pointsUnits points := by
  induction points with
  | nil => rfl
  | cons p points ih =>
    have hp := h p List.mem_cons_self
    simp only [charsUnits, pointsUnits, List.map_cons, List.flatMap_cons] at ih ⊢
    rw [ih fun q hq => h q (List.mem_cons_of_mem _ hq)]
    cases p with
    | scalar c => rfl
    | lone u => cases hp

theorem isScalar_of_byteLength_le {points : List CodePoint}
    (h : byteLength (points.map CodePoint.toChar) ≤ (pointsUnits points).length) :
    ∀ p ∈ points, p.IsScalar := by
  induction points with
  | nil => simp
  | cons p points ih =>
    have hrest := length_pointsUnits_le points
    have hp := p.length_units_le
    simp only [pointsUnits, List.flatMap_cons, List.length_append, List.map_cons,
      byteLength_cons] at h hrest ih
    refine List.forall_mem_cons.mpr ⟨?_, ih (by omega)⟩
    cases p with
    | scalar c => trivial
    | lone u =>
      rw [CodePoint.toChar, utf8Size_replacement, CodePoint.units, List.length_singleton] at h
      omega

end JevCode.Text
