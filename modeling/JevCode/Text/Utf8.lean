import Mathlib.Data.List.Basic
import Mathlib.Algebra.BigOperators.Group.List.Basic
import Mathlib.Algebra.GroupWithZero.Nat

namespace JevCode.Text

abbrev Chars := List Char

def byteLength (t : Chars) : Nat := (t.map Char.utf8Size).sum

@[simp] theorem byteLength_nil : byteLength [] = 0 := rfl

@[simp] theorem byteLength_cons (c : Char) (t : Chars) :
    byteLength (c :: t) = c.utf8Size + byteLength t := by
  simp [byteLength]

@[simp] theorem byteLength_append (t u : Chars) :
    byteLength (t ++ u) = byteLength t + byteLength u := by
  simp [byteLength]

theorem byteLength_eq_zero {t : Chars} : byteLength t = 0 ↔ t = [] := by
  cases t with
  | nil => simp
  | cons c t =>
    have := c.utf8Size_pos
    simp only [byteLength_cons, reduceCtorEq, iff_false]
    omega

def fitPrefix : Nat → Chars → Chars
  | _, [] => []
  | n, c :: t => if c.utf8Size ≤ n then c :: fitPrefix (n - c.utf8Size) t else []

def fitSuffix (n : Nat) : Chars → Chars
  | [] => []
  | c :: t => if byteLength (c :: t) ≤ n then c :: t else fitSuffix n t

attribute [local simp] fitPrefix fitSuffix

theorem isPrefix_fitPrefix (n : Nat) (t : Chars) : fitPrefix n t <+: t := by
  induction t generalizing n with
  | nil => simp [fitPrefix]
  | cons c t ih =>
    simp only [fitPrefix]
    split
    · exact List.cons_prefix_cons.mpr ⟨rfl, ih _⟩
    · exact List.nil_prefix

theorem byteLength_fitPrefix_le (n : Nat) (t : Chars) : byteLength (fitPrefix n t) ≤ n := by
  induction t generalizing n with
  | nil => simp [fitPrefix]
  | cons c t ih =>
    simp only [fitPrefix]
    split
    · have := ih (n - c.utf8Size)
      simp only [byteLength_cons]
      omega
    · simp

theorem fitPrefix_of_le {n : Nat} {t : Chars} (h : byteLength t ≤ n) : fitPrefix n t = t := by
  induction t generalizing n with
  | nil => rfl
  | cons c t ih =>
    simp only [byteLength_cons] at h
    rw [fitPrefix, if_pos (by omega), ih (by omega)]

theorem fitPrefix_append_of_le {n : Nat} {t : Chars} (h : byteLength t ≤ n) (u : Chars) :
    fitPrefix n (t ++ u) = t ++ fitPrefix (n - byteLength t) u := by
  induction t generalizing n with
  | nil => simp
  | cons c t ih =>
    simp only [byteLength_cons] at h
    rw [List.cons_append, fitPrefix, if_pos (by omega), ih (by omega), byteLength_cons,
      Nat.sub_add_eq, List.cons_append]

theorem fitPrefix_append_of_lt {n : Nat} {t : Chars} (h : n < byteLength t) (u : Chars) :
    fitPrefix n (t ++ u) = fitPrefix n t := by
  induction t generalizing n with
  | nil => simp at h
  | cons c t ih =>
    simp only [byteLength_cons] at h
    simp only [List.cons_append, fitPrefix]
    split
    · rw [ih (by omega)]
    · rfl

theorem fitPrefix_next {n : Nat} {t : Chars} (h : n < byteLength t) :
    ∃ c u, t = fitPrefix n t ++ c :: u ∧ n < byteLength (fitPrefix n t) + c.utf8Size := by
  induction t generalizing n with
  | nil => simp at h
  | cons c t ih =>
    simp only [byteLength_cons] at h
    simp only [fitPrefix]
    split
    · obtain ⟨d, u, heq, hlt⟩ := ih (n := n - c.utf8Size) (by omega)
      refine ⟨d, u, by rw [List.cons_append, ← heq], ?_⟩
      simp only [byteLength_cons]
      omega
    · exact ⟨c, t, rfl, by simp; omega⟩

theorem fitSuffix_suffix (n : Nat) (t : Chars) : fitSuffix n t <:+ t := by
  induction t with
  | nil => simp [fitSuffix]
  | cons c t ih =>
    simp only [fitSuffix]
    split
    · exact List.suffix_refl _
    · exact ih.trans (List.suffix_cons c t)

theorem byteLength_fitSuffix_le (n : Nat) (t : Chars) : byteLength (fitSuffix n t) ≤ n := by
  induction t with
  | nil => simp [fitSuffix]
  | cons c t ih =>
    simp only [fitSuffix]
    split
    · assumption
    · exact ih

theorem fitSuffix_of_le {n : Nat} {t : Chars} (h : byteLength t ≤ n) : fitSuffix n t = t := by
  cases t with
  | nil => rfl
  | cons c t => rw [fitSuffix, if_pos h]

theorem fitSuffix_cons_of_lt {n : Nat} {c : Char} {t : Chars} (h : n < byteLength (c :: t)) :
    fitSuffix n (c :: t) = fitSuffix n t := by
  rw [fitSuffix, if_neg (Nat.not_le.mpr h)]

theorem fitSuffix_append_of_le {n : Nat} {u : Chars} (h : byteLength u ≤ n) (t : Chars) :
    fitSuffix n (t ++ u) = fitSuffix (n - byteLength u) t ++ u := by
  induction t with
  | nil => rw [List.nil_append, fitSuffix_of_le h, fitSuffix, List.nil_append]
  | cons c t ih =>
    rw [List.cons_append, fitSuffix, fitSuffix, ← List.cons_append, byteLength_append]
    by_cases hfits : byteLength (c :: t) ≤ n - byteLength u
    · rw [if_pos hfits, if_pos (by omega)]
    · rw [if_neg hfits, if_neg (by omega), ih]

theorem fitSuffix_append_of_lt {n : Nat} {u : Chars} (h : n < byteLength u) (t : Chars) :
    fitSuffix n (t ++ u) = fitSuffix n u := by
  induction t with
  | nil => rfl
  | cons c t ih =>
    rw [List.cons_append, fitSuffix_cons_of_lt, ih]
    simp only [byteLength_cons, byteLength_append]
    omega

theorem fitSuffix_fitSuffix {m n : Nat} (h : m ≤ n) (t : Chars) :
    fitSuffix m (fitSuffix n t) = fitSuffix m t := by
  induction t with
  | nil => rfl
  | cons c t ih =>
    by_cases hfits : byteLength (c :: t) ≤ n
    · rw [fitSuffix_of_le hfits]
    · rw [fitSuffix_cons_of_lt (by omega), fitSuffix_cons_of_lt (by omega), ih]

theorem fitSuffix_append_congr {n : Nat} {t t' : Chars}
    (h : fitSuffix n t = fitSuffix n t') (u : Chars) :
    fitSuffix n (t ++ u) = fitSuffix n (t' ++ u) := by
  by_cases hfits : byteLength u ≤ n
  · rw [fitSuffix_append_of_le hfits, fitSuffix_append_of_le hfits,
      ← fitSuffix_fitSuffix (Nat.sub_le n _) t, ← fitSuffix_fitSuffix (Nat.sub_le n _) t', h]
  · rw [fitSuffix_append_of_lt (by omega), fitSuffix_append_of_lt (by omega)]

theorem suffix_fitSuffix {n : Nat} {t u : Chars} (h : u <:+ t) (hfits : byteLength u ≤ n) :
    u <:+ fitSuffix n t := by
  induction t with
  | nil => exact h
  | cons c t ih =>
    by_cases hall : byteLength (c :: t) ≤ n
    · rwa [fitSuffix_of_le hall]
    · rw [fitSuffix_cons_of_lt (Nat.not_le.mp hall)]
      obtain rfl | h := List.suffix_cons_iff.mp h
      · exact absurd hfits hall
      · exact ih h

theorem fitSuffix_zero (t : Chars) : fitSuffix 0 t = [] :=
  byteLength_eq_zero.mp (Nat.le_zero.mp (byteLength_fitSuffix_le 0 t))

def utf16Size (c : Char) : Nat := if c.utf8Size = 4 then 2 else 1

def unitLength (t : Chars) : Nat := (t.map utf16Size).sum

def replacement : Char := '\uFFFD'

def takeUnits : Nat → Chars → Chars
  | _, [] => []
  | n, c :: t =>
    if utf16Size c ≤ n then c :: takeUnits (n - utf16Size c) t
    else if n = 0 then [] else [replacement]

def dropUnits : Nat → Chars → Chars
  | _, [] => []
  | n, c :: t =>
    if n = 0 then c :: t
    else if utf16Size c ≤ n then dropUnits (n - utf16Size c) t else replacement :: t

@[simp] theorem unitLength_nil : unitLength [] = 0 := rfl

@[simp] theorem unitLength_cons (c : Char) (t : Chars) :
    unitLength (c :: t) = utf16Size c + unitLength t := by
  simp [unitLength]

theorem utf16Size_le (c : Char) : 0 < utf16Size c ∧ utf16Size c ≤ 2 ∧ utf16Size c ≤ c.utf8Size := by
  have := c.utf8Size_pos
  unfold utf16Size
  split <;> omega

theorem unitLength_le (t : Chars) : unitLength t ≤ byteLength t := by
  induction t with
  | nil => simp
  | cons c t ih =>
    have := utf16Size_le c
    simp only [unitLength_cons, byteLength_cons]
    omega

theorem utf8Size_replacement : replacement.utf8Size = 3 := by decide

theorem fitPrefix_takeUnits {m n : Nat} (h : m ≤ n) (t : Chars) :
    fitPrefix m (takeUnits n t) = fitPrefix m t := by
  induction t generalizing m n with
  | nil => rfl
  | cons c t ih =>
    have hsize := utf16Size_le c
    simp only [takeUnits]
    split
    case isTrue hc =>
      simp only [fitPrefix]
      split
      · rw [ih (by omega)]
      · rfl
    case isFalse hc =>
      have hnone : fitPrefix m (c :: t) = [] := by rw [fitPrefix, if_neg (by omega)]
      rw [hnone]
      split
      · rfl
      · rw [fitPrefix, if_neg]
        rw [utf8Size_replacement]
        omega

theorem fitSuffix_dropUnits {m n : Nat} (h : m ≤ n) (t : Chars) :
    fitSuffix m (dropUnits (unitLength t - n) t) = fitSuffix m t := by
  induction t with
  | nil => rfl
  | cons c t ih =>
    have hsize := utf16Size_le c
    have hunits := unitLength_le t
    simp only [dropUnits, unitLength_cons]
    split
    case isTrue hk => rfl
    case isFalse hk =>
      have hlong : fitSuffix m (c :: t) = fitSuffix m t := by
        rw [fitSuffix, if_neg]
        simp only [byteLength_cons]
        omega
      rw [hlong]
      split
      case isTrue hc =>
        rw [← ih]
        congr 2
        omega
      case isFalse hc =>
        rw [fitSuffix, if_neg]
        simp only [byteLength_cons, utf8Size_replacement]
        omega

def utf8Bytes (t : Chars) : List UInt8 := t.flatMap String.utf8EncodeChar

def ofUtf8Bytes (bytes : List UInt8) : Chars :=
  (bytes.toByteArray.utf8Decode?.getD #[]).toList

@[simp] theorem ofUtf8Bytes_utf8Bytes (t : Chars) : ofUtf8Bytes (utf8Bytes t) = t := by
  have h := List.utf8Decode?_utf8Encode (l := t)
  rw [List.utf8Encode] at h
  simp [ofUtf8Bytes, utf8Bytes, h]

@[simp] theorem length_utf8Bytes (t : Chars) : (utf8Bytes t).length = byteLength t := by
  simp [utf8Bytes, byteLength, List.length_flatMap]

theorem utf8Bytes_append (t u : Chars) : utf8Bytes (t ++ u) = utf8Bytes t ++ utf8Bytes u := by
  simp [utf8Bytes]

theorem utf8Bytes_cons (c : Char) (t : Chars) :
    utf8Bytes (c :: t) = String.utf8EncodeChar c ++ utf8Bytes t := by
  simp [utf8Bytes]

def isContinuation (b : UInt8) : Bool := b &&& 0xc0 = 0x80

theorem isContinuation_tail (b : UInt8) : isContinuation (b &&& 0x3f ||| 0x80) = true := by
  have h : ∀ b : Fin 256, isContinuation (UInt8.ofFin b &&& 0x3f ||| 0x80) = true := by
    decide +kernel
  exact h b.toFin

theorem not_isContinuation_lead (b : UInt8) :
    isContinuation (b &&& 0x1f ||| 0xc0) = false ∧ isContinuation (b &&& 0x0f ||| 0xe0) = false ∧
      isContinuation (b &&& 0x07 ||| 0xf0) = false := by
  have h : ∀ b : Fin 256, isContinuation (UInt8.ofFin b &&& 0x1f ||| 0xc0) = false ∧
      isContinuation (UInt8.ofFin b &&& 0x0f ||| 0xe0) = false ∧
      isContinuation (UInt8.ofFin b &&& 0x07 ||| 0xf0) = false := by
    decide +kernel
  exact h b.toFin

theorem not_isContinuation_of_lt {b : UInt8} (hb : b < 128) : isContinuation b = false := by
  have h : ∀ b : Fin 256, UInt8.ofFin b < 128 → isContinuation (UInt8.ofFin b) = false := by
    decide +kernel
  exact h b.toFin hb

theorem utf8EncodeChar_eq (c : Char) : ∃ b bs, String.utf8EncodeChar c = b :: bs ∧
    isContinuation b = false ∧ ∀ x ∈ bs, isContinuation x = true := by
  obtain h | h | h | h := c.utf8Size_eq
  · refine ⟨_, _, String.utf8EncodeChar_eq_singleton h, not_isContinuation_of_lt ?_, by simp⟩
    have hval := UInt32.le_iff_toNat_le.mp (Char.utf8Size_eq_one_iff.mp h)
    rw [UInt8.lt_iff_toNat_lt, UInt32.toNat_toUInt8]
    change c.val.toNat ≤ 127 at hval
    change c.val.toNat % 256 < 128
    omega
  · refine ⟨_, _, String.utf8EncodeChar_eq_cons_cons h, (not_isContinuation_lead _).1, ?_⟩
    simp [isContinuation_tail]
  · refine ⟨_, _, String.utf8EncodeChar_eq_cons_cons_cons h, (not_isContinuation_lead _).2.1, ?_⟩
    simp [isContinuation_tail]
  · refine ⟨_, _, String.utf8EncodeChar_eq_cons_cons_cons_cons h,
      (not_isContinuation_lead _).2.2, ?_⟩
    simp [isContinuation_tail]

end JevCode.Text
