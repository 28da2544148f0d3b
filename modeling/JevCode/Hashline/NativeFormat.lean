import JevCode.Hashline.Hash
import JevCode.Text.CodePoints
import JevCode.Text.Trim

namespace JevCode.Hashline

open JevCode.Text

section

variable (xxh32 : List UInt8 → BitVec 32)

def computeLineHashBy (_idx : Nat) (line : String) : String :=
  let line := trimEnd (line.toList.filter (· ≠ '\r'))
  bigrams.getD ((xxh32 (utf8Bytes line)).toNat % bigrams.length) ""

def formatHashLine (lineNumber : Nat) (line : String) : String :=
  toString lineNumber ++ computeLineHashBy xxh32 lineNumber line ++ "|" ++ line

def formatHashLines (text : String) (startLine : Option Nat) : String :=
  joinLines ((splitLines text).mapIdx fun i line => formatHashLine xxh32 (startLine.getD 1 + i) line)

def lf : CodeUnit := code '\n'
def cr : CodeUnit := code '\r'

def isJsTrimEndWhitespace (u : CodeUnit) : Bool :=
  u ∈ [0x0009, 0x000a, 0x000b, 0x000c, 0x000d, 0x0020, 0x00a0, 0x1680] ||
    (0x2000 ≤ u && u ≤ 0x200a) ||
    u ∈ [0x2028, 0x2029, 0x202f, 0x205f, 0x3000, 0xfeff]

def orByte (marker bits : CodeUnit) : UInt8 := (marker ||| bits).toUInt8

def orByte32 (marker bits : UInt32) : UInt8 := (marker ||| bits).toUInt8

def utf8CodeUnit (u : CodeUnit) : List UInt8 :=
  if u < 0x80 then [u.toUInt8]
  else if u < 0x800 then [orByte 0xc0 (u >>> 6), orByte 0x80 (u &&& 0x3f)]
  else
    [orByte 0xe0 (u >>> 12), orByte 0x80 ((u >>> 6) &&& 0x3f),
      orByte 0x80 (u &&& 0x3f)]

def pairScalar (u next : CodeUnit) : UInt32 :=
  (0x10000 : UInt32) + (UInt16.toUInt32 (u - 0xd800) <<< 10 ||| UInt16.toUInt32 (next - 0xdc00))

def utf8Scalar (scalar : UInt32) : List UInt8 :=
  [orByte32 0xf0 (scalar >>> 18), orByte32 0x80 ((scalar >>> 12) &&& 0x3f),
    orByte32 0x80 ((scalar >>> 6) &&& 0x3f), orByte32 0x80 (scalar &&& 0x3f)]

def utf8Unit (u : CodeUnit) : List UInt8 :=
  if 0xd800 ≤ u ∧ u ≤ 0xdfff then [0xef, 0xbf, 0xbd] else utf8CodeUnit u

def jsUtf8WithoutCr : List CodeUnit → List UInt8
  | [] => []
  | [u] => if u = cr then [] else utf8Unit u
  | u :: next :: line =>
    if u = cr then jsUtf8WithoutCr (next :: line)
    else if isHigh u ∧ isLow next then utf8Scalar (pairScalar u next) ++ jsUtf8WithoutCr line
    else utf8Unit u ++ jsUtf8WithoutCr (next :: line)

def trimEndBound (s : List CodeUnit) : Nat → Nat
  | 0 => 0
  | stop + 1 => if s[stop]?.any isJsTrimEndWhitespace then trimEndBound s stop else stop + 1

def hashLine (line : List CodeUnit) : String :=
  bigrams.getD ((xxh32 (jsUtf8WithoutCr (line.take (trimEndBound line line.length)))).toNat %
    bigrams.length) ""

def decimalBuffer (value : Nat) : List CodeUnit :=
  (code '0' + .ofNat (value % 10)) :: if h : value / 10 = 0 then [] else decimalBuffer (value / 10)
termination_by value
decreasing_by omega

def pushDecimal (out : List CodeUnit) (value : Nat) : List CodeUnit :=
  out ++ (decimalBuffer value).reverse

def pushHashline (out : List CodeUnit) (lineNumber : Nat) (line : List CodeUnit) : List CodeUnit :=
  let hash := utf8Bytes (hashLine xxh32 line).toList
  pushDecimal out lineNumber ++ [(hash.getD 0 0).toUInt16, (hash.getD 1 0).toUInt16] ++
    [code '|'] ++ line

structure FormatState where
  out : List CodeUnit
  lineNumber : Nat
  lineStart : Nat

/-- One unit of the scan over `text`; the line number saturates. -/
def FormatState.step (text : List CodeUnit) (st : FormatState) (index : Nat) (u : CodeUnit) :
    FormatState :=
  if u = lf then
    { out := pushHashline xxh32 st.out st.lineNumber ((text.take index).drop st.lineStart) ++ [lf]
      lineNumber := min (st.lineNumber + 1) (2 ^ 32 - 1)
      lineStart := index + 1 }
  else st

def formatScan (text : List CodeUnit) : Nat → List CodeUnit → FormatState → FormatState
  | _, [], st => st
  | index, u :: rest, st => formatScan text (index + 1) rest (st.step xxh32 text index u)

def intoUtf16 (text : List CodeUnit) : List CodeUnit := text ++ [0]

def h06FormatHashLines (text : List CodeUnit) (startLine : Option UInt32) : List CodeUnit :=
  let text := intoUtf16 text
  let text := if text.getLast? = some 0 then text.take (text.length - 1) else text
  let st := formatScan xxh32 text 0 text ⟨[], (startLine.getD 1).toNat, 0⟩
  pushHashline xxh32 st.out st.lineNumber (text.drop st.lineStart)

end

theorem byte_and_low {x : Nat} (k : Nat) (hx : x < 2 ^ k) : x % 256 &&& (2 ^ k - 1) = x % 256 := by
  rw [Nat.and_two_pow_sub_one_eq_mod, Nat.mod_eq_of_lt (Nat.lt_of_le_of_lt (Nat.mod_le x 256) hx)]

theorem toNat_toUInt8 (c : Char) : c.toUInt8.toNat = c.toNat % 256 := UInt32.toNat_toUInt8 c.val

theorem utf8CodeUnit_eq {u : CodeUnit} {c : Char} (h : u.toNat = c.toNat) :
    utf8CodeUnit u = String.utf8EncodeChar c := by
  have hu := u.toNat_lt
  have hsize1 := Char.utf8Size_eq_one_iff (c := c)
  have hsize2 := Char.utf8Size_eq_two_iff (c := c)
  have hsize3 := Char.utf8Size_eq_three_iff (c := c)
  simp only [UInt32.lt_iff_toNat_lt, UInt32.le_iff_toNat_le, UInt32.reduceToNat, Char.toNat_val, ← h]
    at hsize1 hsize2 hsize3
  simp only [utf8CodeUnit, UInt16.lt_iff_toNat_lt, UInt16.reduceToNat]
  by_cases h1 : u.toNat < 128
  · rw [if_pos h1, String.utf8EncodeChar_eq_singleton (hsize1.mpr (by omega))]
    simp [← UInt8.toNat_inj, toNat_toUInt8, h]
  · rw [if_neg h1]
    by_cases h2 : u.toNat < 2048
    · have hlead : c.toNat >>> 6 % 256 &&& 31 = c.toNat >>> 6 % 256 :=
        byte_and_low 5 (by rw [Nat.shiftRight_eq_div_pow]; omega)
      rw [if_pos h2, String.utf8EncodeChar_eq_cons_cons (hsize2.mpr (by omega))]
      simp [← UInt8.toNat_inj, orByte, toNat_toUInt8, h, hlead, Nat.or_comm]
    · have hlead : c.toNat >>> 12 % 256 &&& 15 = c.toNat >>> 12 % 256 :=
        byte_and_low 4 (by rw [Nat.shiftRight_eq_div_pow]; omega)
      rw [if_neg h2, String.utf8EncodeChar_eq_cons_cons_cons (hsize3.mpr (by omega))]
      simp [← UInt8.toNat_inj, orByte, toNat_toUInt8, h, hlead, Nat.or_comm]

theorem utf8Scalar_eq {c : Char} (hc : 0x10000 ≤ c.toNat) :
    utf8Scalar c.val = String.utf8EncodeChar c := by
  have hmax : c.toNat < 0x110000 := by
    have := c.valid
    rcases this with hlow | hhigh
    · exact Nat.lt_trans hlow (by decide)
    · exact hhigh.2
  have hsize := Char.utf8Size_eq_four_iff (c := c)
  simp only [UInt32.lt_iff_toNat_lt, UInt32.reduceToNat, Char.toNat_val] at hsize
  have hlead : c.toNat >>> 18 % 256 &&& 7 = c.toNat >>> 18 % 256 :=
    byte_and_low 3 (by rw [Nat.shiftRight_eq_div_pow]; omega)
  rw [String.utf8EncodeChar_eq_cons_cons_cons_cons (hsize.mpr (by omega))]
  simp [utf8Scalar, ← UInt8.toNat_inj, orByte32, toNat_toUInt8, hlead, Nat.or_comm]

theorem pairScalar_eq {c : Char} {hi lo : CodeUnit} (hhi : isHigh hi = true) (hlo : isLow lo = true)
    (hc : pairChar hi lo = c) : pairScalar hi lo = c.val ∧ 0x10000 ≤ c.toNat := by
  have hhi' := isHigh_iff.mp hhi
  have hlo' := isLow_iff.mp hlo
  have hval : c.toNat = 0x10000 + (hi.toNat - 0xd800) * 0x400 + (lo.toNat - 0xdc00) := by
    rw [← hc, pairChar, toNat_charOfNat (by omega)]
  have hhiSub : (hi - 0xd800).toNat = hi.toNat - 0xd800 :=
    UInt16.toNat_sub_of_le _ _ (UInt16.le_iff_toNat_le.mpr hhi'.1)
  have hloSub : (lo - 0xdc00).toNat = lo.toNat - 0xdc00 :=
    UInt16.toNat_sub_of_le _ _ (UInt16.le_iff_toNat_le.mpr hlo'.1)
  have hor : (hi.toNat - 0xd800) <<< 10 ||| (lo.toNat - 0xdc00) =
      (hi.toNat - 0xd800) * 0x400 + (lo.toNat - 0xdc00) := by
    rw [← Nat.shiftLeft_add_eq_or_of_lt (by omega), Nat.shiftLeft_eq]
  have hshift : (hi.toNat - 0xd800) <<< 10 % 2 ^ 32 = (hi.toNat - 0xd800) <<< 10 :=
    Nat.mod_eq_of_lt (by rw [Nat.shiftLeft_eq]; omega)
  refine ⟨UInt32.toNat_inj.mp ?_, by omega⟩
  rw [Char.toNat_val, hval, pairScalar, UInt32.toNat_add, UInt32.toNat_or, UInt32.toNat_shiftLeft,
    UInt16.toNat_toUInt32, UInt16.toNat_toUInt32, hhiSub, hloSub]
  show (65536 + ((hi.toNat - 0xd800) <<< 10 % 2 ^ 32 ||| (lo.toNat - 0xdc00))) % 2 ^ 32 = _
  rw [hshift, hor]
  omega

theorem jsUtf8WithoutCr_cons {u : CodeUnit} (h : isHigh u = false) (line : List CodeUnit) :
    jsUtf8WithoutCr (u :: line) = (if u = cr then [] else utf8Unit u) ++ jsUtf8WithoutCr line := by
  cases line with
  | nil => simp [jsUtf8WithoutCr]
  | cons next line =>
    rw [jsUtf8WithoutCr]
    split
    case isTrue => rfl
    case isFalse => simp [h]

theorem code_eq_cr {c : Char} (h : (code c).toNat = c.toNat) : code c = cr ↔ c = '\r' := by
  constructor
  · intro hcr
    apply Char.toNat_inj.mp
    rw [← h, hcr]
    rfl
  · rintro rfl
    rfl

theorem jsUtf8WithoutCr_charsUnits (t : Chars) :
    jsUtf8WithoutCr (charsUnits t) = utf8Bytes (t.filter (· ≠ '\r')) := by
  induction t with
  | nil => rfl
  | cons c t ih =>
    rw [charsUnits_cons]
    obtain ⟨hunits, hhigh, hlow, hn⟩ | ⟨hi, lo, hunits, hhigh, hlow, hpair⟩ := charUnits_cases c
    · have hcr := code_eq_cr hn
      rw [hunits, List.singleton_append, jsUtf8WithoutCr_cons hhigh, ih]
      by_cases hc : c = '\r'
      · rw [if_pos (hcr.mpr hc), List.nil_append, List.filter_cons_of_neg (by simp [hc])]
      · have hsurrogate : ¬ (0xd800 ≤ code c ∧ code c ≤ 0xdfff) := by
          have hhigh' := mt isHigh_iff.mpr (Bool.eq_false_iff.mp hhigh)
          have hlow' := mt isLow_iff.mpr (Bool.eq_false_iff.mp hlow)
          simp only [UInt16.le_iff_toNat_le, UInt16.reduceToNat]
          omega
        rw [if_neg (mt hcr.mp hc), List.filter_cons_of_pos (by simp [hc]), utf8Bytes_cons, utf8Unit,
          if_neg hsurrogate, utf8CodeUnit_eq hn]
    · obtain ⟨hscalar, hplane⟩ := pairScalar_eq hhigh hlow hpair
      have hcr : hi ≠ cr := by
        rintro rfl
        exact absurd hhigh (by decide)
      have hc : c ≠ '\r' := by
        rintro rfl
        exact absurd hplane (by decide)
      rw [hunits, List.cons_append, List.singleton_append, jsUtf8WithoutCr, if_neg hcr,
        if_pos ⟨hhigh, hlow⟩, hscalar, utf8Scalar_eq hplane, ih,
        List.filter_cons_of_pos (by simp [hc]), utf8Bytes_cons]

theorem isSpace_iff {c : Char} :
    isSpace c = true ↔ c.toNat ∈ [9, 10, 11, 12, 13, 32, 160, 5760, 8232, 8233, 8239, 8287, 12288,
      65279] ∨ 8192 ≤ c.toNat ∧ c.toNat ≤ 8202 := by
  simp only [isSpace, Bool.or_eq_true, Bool.and_eq_true, decide_eq_true_eq, List.mem_cons,
    List.not_mem_nil, or_false, ← Char.toNat_inj, Char.le_def, UInt32.le_iff_toNat_le,
    Char.reduceToNat, Char.reduceVal, UInt32.reduceToNat, Char.toNat_val]

theorem isSpace_of_astral {c : Char} (h : 0x10000 ≤ c.toNat) : isSpace c = false := by
  rw [Bool.eq_false_iff, ne_eq, isSpace_iff]
  simp only [List.mem_cons, List.not_mem_nil, or_false]
  omega

theorem isJsTrimEndWhitespace_code {c : Char} (h : (code c).toNat = c.toNat) :
    isJsTrimEndWhitespace (code c) = isSpace c := by
  rw [Bool.eq_iff_iff, isSpace_iff]
  simp only [isJsTrimEndWhitespace, Bool.or_eq_true, Bool.and_eq_true, decide_eq_true_eq,
    List.mem_cons, List.not_mem_nil, or_false, ← UInt16.toNat_inj, UInt16.le_iff_toNat_le, h,
    UInt16.reduceToNat]
  omega

theorem not_isJsTrimEndWhitespace_of_isLow {u : CodeUnit} (h : isLow u = true) :
    isJsTrimEndWhitespace u = false := by
  have hlow := isLow_iff.mp h
  rw [Bool.eq_false_iff]
  simp only [isJsTrimEndWhitespace, ne_eq, Bool.or_eq_true, Bool.and_eq_true, decide_eq_true_eq,
    List.mem_cons, List.not_mem_nil, or_false, ← UInt16.toNat_inj, UInt16.le_iff_toNat_le,
    UInt16.reduceToNat]
  omega

theorem take_trimEndBound (s : List CodeUnit) {stop : Nat} (h : stop ≤ s.length) :
    s.take (trimEndBound s stop) = (s.take stop).rdropWhile isJsTrimEndWhitespace := by
  induction stop with
  | zero => simp [trimEndBound]
  | succ stop ih =>
    have hlt : stop < s.length := h
    rw [trimEndBound, List.getElem?_eq_getElem hlt, Option.any_some]
    have hcut : s.take (stop + 1) = s.take stop ++ [s[stop]] := by
      rw [List.take_add_one, List.getElem?_eq_getElem hlt, Option.toList_some]
    by_cases hspace : isJsTrimEndWhitespace s[stop] = true
    · rw [if_pos hspace, ih (by omega), hcut, List.rdropWhile_concat_pos _ _ _ hspace]
    · rw [if_neg hspace, hcut, List.rdropWhile_concat_neg _ _ _ hspace]

theorem rdropWhile_charsUnits (t : Chars) :
    (charsUnits t).rdropWhile isJsTrimEndWhitespace = charsUnits (trimEnd t) := by
  induction t using List.reverseRecOn with
  | nil => rfl
  | append_singleton t c ih =>
    have hlast : charsUnits [c] = charUnits c := List.append_nil _
    rw [charsUnits_append, hlast]
    obtain ⟨hunits, -, -, hn⟩ | ⟨hi, lo, hunits, hhigh, hlow, hpair⟩ := charUnits_cases c
    · have hcode := isJsTrimEndWhitespace_code hn
      cases hspace : isSpace c with
      | true =>
        rw [hunits, List.rdropWhile_concat_pos _ _ _ (hcode.trans hspace),
          trimEnd_append_space t hspace, ih]
      | false =>
        rw [hunits, List.rdropWhile_concat_neg _ _ _ (by simp [hcode, hspace]),
          trimEnd_concat hspace, charsUnits_append, hlast, hunits]
    · have hspace := isSpace_of_astral (pairScalar_eq hhigh hlow hpair).2
      have hbare := not_isJsTrimEndWhitespace_of_isLow hlow
      rw [hunits, ← List.singleton_append, ← List.append_assoc,
        List.rdropWhile_concat_neg _ _ _ (by simp [hbare]), trimEnd_concat hspace, charsUnits_append,
        hlast, hunits, List.append_assoc, List.singleton_append]

theorem trimEnd_filter_cr (t : Chars) :
    trimEnd (t.filter (· ≠ '\r')) = (trimEnd t).filter (· ≠ '\r') := by
  induction t using List.reverseRecOn with
  | nil => rfl
  | append_singleton t c ih =>
    simp only [trimEnd] at ih ⊢
    rw [List.filter_append]
    by_cases hspace : isSpace c = true
    · rw [List.rdropWhile_concat_pos _ _ _ hspace, ← ih]
      by_cases hc : c = '\r'
      · rw [List.filter_cons_of_neg (by simp [hc]), List.filter_nil, List.append_nil]
      · rw [List.filter_cons_of_pos (by simp [hc]), List.filter_nil,
          List.rdropWhile_concat_pos _ _ _ hspace]
    · have hc : c ≠ '\r' := by
        rintro rfl
        exact hspace (by decide)
      rw [List.rdropWhile_concat_neg _ _ _ hspace, List.filter_append,
        List.filter_cons_of_pos (by simp [hc]), List.filter_nil,
        List.rdropWhile_concat_neg _ _ _ hspace]

theorem hashLine_units (xxh32 : List UInt8 → BitVec 32) (idx : Nat) (line : String) :
    hashLine xxh32 (units line) = computeLineHashBy xxh32 idx line := by
  have htrim : (units line).rdropWhile isJsTrimEndWhitespace = charsUnits (trimEnd line.toList) :=
    rdropWhile_charsUnits line.toList
  rw [hashLine, take_trimEndBound _ (Nat.le_refl _), List.take_length, htrim,
    jsUtf8WithoutCr_charsUnits, ← trimEnd_filter_cr]
  rfl

theorem code_digitChar {k : Nat} (h : k < 10) : charUnits k.digitChar = [code '0' + .ofNat k] := by
  revert k
  decide

theorem reverse_decimalBuffer (n : Nat) : (decimalBuffer n).reverse = units (toString n) := by
  have hdigits : units (toString n) = charsUnits (Nat.toDigits 10 n) := by
    rw [units, Nat.toString_eq_ofList_toDigits, String.toList_ofList, charsUnits]
  rw [hdigits]
  clear hdigits
  induction n using Nat.strongRecOn with
  | ind n ih =>
    rw [decimalBuffer]
    by_cases hn : n / 10 = 0
    · rw [dif_pos hn, Nat.toDigits_of_lt_base (by omega), Nat.mod_eq_of_lt (by omega)]
      exact (code_digitChar (by omega)).symm.trans (List.append_nil _).symm
    · rw [dif_neg hn, List.reverse_cons, ih (n / 10) (by omega),
        Nat.toDigits_of_base_le (n := n) (by decide) (by omega), charsUnits_append,
        ← code_digitChar (Nat.mod_lt n (by decide))]
      exact congrArg _ (List.append_nil _).symm

variable (xxh32 : List UInt8 → BitVec 32)

theorem units_append (s t : String) : units (s ++ t) = units s ++ units t := by
  simp [units, List.flatMap_append]

theorem computeLineHashBy_mem (idx : Nat) (line : String) :
    computeLineHashBy xxh32 idx line ∈ bigrams := by
  have hlt : ∀ n, n % bigrams.length < bigrams.length := fun n => Nat.mod_lt n (by decide +kernel)
  rw [computeLineHashBy, List.getD_eq_getElem?_getD, List.getElem?_eq_getElem (hlt _)]
  exact List.getElem_mem (hlt _)

theorem utf8EncodeChar_letter : ∀ a ∈ letters, String.utf8EncodeChar a = [UInt8.ofNat a.toNat] ∧
    charUnits a = [(UInt8.ofNat a.toNat).toUInt16] :=
  forall_mem_of_all (by decide +kernel)

theorem hash_units {hash : String} (h : hash ∈ bigrams) :
    [((utf8Bytes hash.toList).getD 0 0).toUInt16,
      ((utf8Bytes hash.toList).getD 1 0).toUInt16] = units hash := by
  obtain ⟨a, ha, b, hb, rfl⟩ := mem_bigrams h
  have ha' := utf8EncodeChar_letter a ha
  have hb' := utf8EncodeChar_letter b hb
  rw [String.toList_ofList, utf8Bytes_cons, utf8Bytes_cons, units, String.toList_ofList,
    List.flatMap_cons, List.flatMap_cons, ha'.1, hb'.1, ha'.2, hb'.2]
  rfl

theorem pushHashline_units (out : List CodeUnit) (lineNumber : Nat) (line : String) :
    pushHashline xxh32 out lineNumber (units line) = out ++
      units (formatHashLine xxh32 lineNumber line) := by
  rw [pushHashline, hashLine_units xxh32 lineNumber line,
    hash_units (computeLineHashBy_mem xxh32 lineNumber line), pushDecimal, reverse_decimalBuffer,
    formatHashLine]
  simp only [units_append, List.append_assoc]
  rfl

theorem lf_notMem_units {line : String} (h : '\n' ∉ line.toList) : lf ∉ units line := by
  intro hmem
  obtain ⟨c, hc, hu⟩ := List.mem_flatMap.mp hmem
  obtain ⟨hunits, -, -, hn⟩ | ⟨hi, lo, hunits, hhigh, hlow, -⟩ :=
    charUnits_cases c <;> rw [hunits] at hu
  · have heq : c = '\n' := by
      apply Char.toNat_inj.mp
      rw [← hn, ← List.mem_singleton.mp hu]
      rfl
    exact h (heq ▸ hc)
  · rcases List.mem_pair.mp hu with rfl | rfl
    · exact absurd hhigh (by decide)
    · exact absurd hlow (by decide)

theorem formatScan_stretch (text : List CodeUnit) {stretch : List CodeUnit}
    (h : lf ∉ stretch) (index : Nat) (rest : List CodeUnit) (st : FormatState) :
    formatScan xxh32 text index (stretch ++ rest) st =
      formatScan xxh32 text (index + stretch.length) rest st := by
  induction stretch generalizing index with
  | nil => rfl
  | cons u stretch ih =>
    have hu : u ≠ lf := fun heq => h (heq ▸ List.mem_cons_self)
    rw [List.cons_append, formatScan, FormatState.step, if_neg hu,
      ih fun hmem => h (List.mem_cons_of_mem _ hmem),
      List.length_cons, Nat.add_assoc, Nat.add_comm 1]

def finish (text : List CodeUnit) (st : FormatState) : List CodeUnit :=
  pushHashline xxh32 st.out st.lineNumber (text.drop st.lineStart)

theorem formatScan_lines {text : List CodeUnit} {lines : List String} (hne : lines ≠ [])
    (hlines : ∀ line ∈ lines, '\n' ∉ line.toList) (out : List CodeUnit) {lineNumber lineStart : Nat}
    (htext : text.drop lineStart = units (joinLines lines))
    (hmax : lineNumber + lines.length < 2 ^ 32) :
    finish xxh32 text (formatScan xxh32 text lineStart (units (joinLines lines)) ⟨out,
      lineNumber, lineStart⟩) =
      out ++ units (joinLines
        (lines.mapIdx fun i line => formatHashLine xxh32 (lineNumber + i) line)) := by
  induction lines generalizing out lineNumber lineStart with
  | nil => exact absurd rfl hne
  | cons line lines ih =>
    have hline := lf_notMem_units (hlines line List.mem_cons_self)
    have hscan := formatScan_stretch xxh32 text hline lineStart
    by_cases hlast : lines = []
    · subst hlast
      have hjoin : ∀ s : String, joinLines [s] = s := fun s => by simp [joinLines]
      have hend := hscan [] ⟨out, lineNumber, lineStart⟩
      rw [List.append_nil] at hend
      rw [hjoin] at htext ⊢
      rw [hend, formatScan, finish, htext, pushHashline_units, List.mapIdx_cons,
        List.mapIdx_nil, hjoin]
      rfl
    · have hjoin : units (joinLines (line :: lines)) = units line ++ lf ::
          units (joinLines lines) := by
        rw [joinLines_cons hlast, units_append, units_append, List.append_assoc]
        rfl
      have hslice : (text.take (lineStart + (units line).length)).drop lineStart = units line := by
        rw [List.drop_take, htext, hjoin, Nat.add_sub_cancel_left, List.take_left]
      have hrest : text.drop (lineStart + (units line).length + 1) = units (joinLines lines) := by
        rw [Nat.add_assoc, ← List.drop_drop, htext, hjoin, List.drop_length_add_append]
        rfl
      have hnumber : min (lineNumber + 1) (2 ^ 32 - 1) = lineNumber + 1 := by
        rw [List.length_cons] at hmax
        omega
      have hmax' : lineNumber + 1 + lines.length < 2 ^ 32 := by
        rw [List.length_cons] at hmax
        omega
      have hlines' := fun l hl => hlines l (List.mem_cons_of_mem _ hl)
      have hrendered : lines.mapIdx
          (fun i line => formatHashLine xxh32 (lineNumber + (i + 1)) line) ≠ [] := by
        simpa using hlast
      have hnext : ∀ i, lineNumber + 1 + i = lineNumber + (i + 1) := fun i => by omega
      rw [hjoin, hscan, formatScan, FormatState.step, if_pos rfl, hslice, hnumber,
        ih hlast hlines' _ hrest hmax', pushHashline_units, List.mapIdx_cons,
        joinLines_cons hrendered, units_append, units_append]
      simp only [hnext, Nat.add_zero, List.append_assoc]
      rfl

/-- Any text of characters, with its lines numbered from any start as long as the numbers fit. -/
theorem h06FormatHashLines_eq_formatHashLines (text : String) (startLine : Option UInt32)
    (hmax : (startLine.getD 1).toNat + (splitLines text).length < 2 ^ 32) :
    h06FormatHashLines xxh32 (units text) startLine =
      units (formatHashLines xxh32 text (startLine.map UInt32.toNat)) := by
  have hstrip : (if (intoUtf16 (units text)).getLast? = some 0
      then (intoUtf16 (units text)).take ((intoUtf16 (units text)).length - 1)
      else intoUtf16 (units text)) = units text := by
    simp [intoUtf16]
  have hjoin : joinLines (splitLines text) = text := joinLines_splitLines text
  have hstart : (startLine.map UInt32.toNat).getD 1 = (startLine.getD 1).toNat := by
    cases startLine <;> rfl
  have htext : (units text).drop 0 = units (joinLines (splitLines text)) := by
    rw [List.drop_zero, hjoin]
  have hscan :=
    formatScan_lines xxh32 (splitLines_ne_nil text)
      (fun line h => notMem_of_mem_splitLines h) [] htext hmax
  rw [hjoin, List.nil_append, finish] at hscan
  rw [h06FormatHashLines, formatHashLines, hstart, ← hscan]
  simp only [hstrip]

theorem h06FormatHashLines_two_lines :
    h06FormatHashLines (xxHash32 · 0) (units "a\r\nb ") none =
      units (formatHashLines (xxHash32 · 0) "a\r\nb " none) :=
  h06FormatHashLines_eq_formatHashLines (xxHash32 · 0) "a\r\nb " none (by decide +kernel)

end JevCode.Hashline
