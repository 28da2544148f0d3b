import JevCode.Text.Utf8

namespace JevCode.Text

structure Utf8State where
  needed : Nat
  lower : Nat
  upper : Nat
  codePoint : Nat
  deriving DecidableEq

namespace Utf8State

def start : Utf8State := ⟨0, 0x80, 0xbf, 0⟩

def lead (b : Nat) : Utf8State × List (Option Char) :=
  if b ≤ 0x7f then (start, [some (.ofNat b)])
  else if 0xc2 ≤ b ∧ b ≤ 0xdf then (⟨1, 0x80, 0xbf, b % 0x20⟩, [])
  else if 0xe0 ≤ b ∧ b ≤ 0xef then
    (⟨2, if b = 0xe0 then 0xa0 else 0x80, if b = 0xed then 0x9f else 0xbf, b % 0x10⟩, [])
  else if 0xf0 ≤ b ∧ b ≤ 0xf4 then
    (⟨3, if b = 0xf0 then 0x90 else 0x80, if b = 0xf4 then 0x8f else 0xbf, b % 0x08⟩, [])
  else (start, [none])

def next (s : Utf8State) (b : Nat) : Utf8State × List (Option Char) :=
  if s.needed = 0 then lead b
  else if s.lower ≤ b ∧ b ≤ s.upper then
    let codePoint := s.codePoint * 0x40 + b % 0x40
    if s.needed = 1 then (start, [some (.ofNat codePoint)])
      else (⟨s.needed - 1, 0x80, 0xbf, codePoint⟩, [])
  else
    -- the byte is given back and read anew
    let (s, items) := lead b
    (s, none :: items)

def run (s : Utf8State) : List UInt8 → Utf8State × List (Option Char)
  | [] => (s, [])
  | b :: bytes =>
    let (s, items) := s.next b.toNat
    let (s, more) := s.run bytes
    (s, items ++ more)

def close (s : Utf8State) : List (Option Char) := if s.needed = 0 then [] else [none]

theorem run_append (s : Utf8State) (a b : List UInt8) :
    s.run (a ++ b) = (((s.run a).1.run b).1, (s.run a).2 ++ ((s.run a).1.run b).2) := by
  induction a generalizing s with
  | nil => rfl
  | cons x a ih => simp only [List.cons_append, run, ih, List.append_assoc]

theorem start_next (b : Nat) : start.next b = lead b := rfl

theorem lead_of_two {b : Nat} (h : 0xc2 ≤ b ∧ b ≤ 0xdf) :
    lead b = (⟨1, 0x80, 0xbf, b % 0x20⟩, []) := by
  rw [lead, if_neg (by omega), if_pos h]

theorem lead_of_three {b : Nat} (h : 0xe0 ≤ b ∧ b ≤ 0xef) :
    lead b = (⟨2, if b = 0xe0 then 0xa0 else 0x80, if b = 0xed then 0x9f else 0xbf, b % 0x10⟩,
      []) := by
  rw [lead, if_neg (by omega), if_neg (by omega), if_pos h]

theorem lead_of_four {b : Nat} (h : 0xf0 ≤ b ∧ b ≤ 0xf4) :
    lead b = (⟨3, if b = 0xf0 then 0x90 else 0x80, if b = 0xf4 then 0x8f else 0xbf, b % 0x08⟩,
      []) := by
  rw [lead, if_neg (by omega), if_neg (by omega), if_neg (by omega), if_pos h]

theorem next_last {lower upper codePoint b : Nat} (hlower : lower ≤ b) (hupper : b ≤ upper) :
    next ⟨1, lower, upper, codePoint⟩ b =
      (start, [some (.ofNat (codePoint * 0x40 + b % 0x40))]) := by
  rw [next, if_neg Nat.one_ne_zero, if_pos ⟨hlower, hupper⟩, if_pos rfl]

theorem next_more {needed lower upper codePoint b : Nat} (hlower : lower ≤ b) (hupper : b ≤ upper) :
    next ⟨needed + 2, lower, upper, codePoint⟩ b =
      (⟨needed + 1, 0x80, 0xbf, codePoint * 0x40 + b % 0x40⟩, []) := by
  rw [next, if_neg (Nat.succ_ne_zero _), if_pos ⟨hlower, hupper⟩, if_neg (by simp)]
  rfl

theorem toNat_ofNat_of_lt {n : Nat} (h : n < 256) : (UInt8.ofNat n).toNat = n := by
  rw [UInt8.toNat_ofNat', Nat.mod_eq_of_lt h]

theorem run_utf8EncodeChar (c : Char) : start.run (String.utf8EncodeChar c) = (start, [some c]) := by
  have hvalid : c.val.toNat < 0xd800 ∨ 0xdfff < c.val.toNat ∧ c.val.toNat < 0x110000 := c.valid
  have hc : Char.ofNat c.val.toNat = c := Char.ofNat_toNat c
  unfold String.utf8EncodeChar
  generalize c.val.toNat = v at hvalid hc
  simp only
  split
  case isTrue h1 =>
    rw [run, toNat_ofNat_of_lt (by omega), start_next, lead, if_pos h1, hc]
    rfl
  case isFalse h1 =>
  split
  case isTrue h2 =>
    simp only [run]
    rw [toNat_ofNat_of_lt (by omega), toNat_ofNat_of_lt (by omega), start_next,
      lead_of_two (by omega)]
    simp only
    rw [next_last (by omega) (by omega), show (v / 64 % 32 + 192) % 32 * 64 + (v % 64 + 128) % 64 =
      v by omega, hc]
    rfl
  case isFalse h2 =>
  split
  case isTrue h3 =>
    simp only [run]
    rw [toNat_ofNat_of_lt (by omega), toNat_ofNat_of_lt (by omega),
      toNat_ofNat_of_lt (by omega), start_next, lead_of_three (by omega)]
    simp only
    -- `0xe0` is followed by no overlong form and `0xed` by no surrogate
    rw [next_more (by split <;> omega) (by split <;> omega)]
    simp only
    rw [next_last (by omega) (by omega),
      show ((v / 4096 % 16 + 224) % 16 * 64 + (v / 64 % 64 + 128) % 64) * 64 + (v % 64 + 128) % 64 =
      v by omega, hc]
    rfl
  case isFalse h3 =>
    simp only [run]
    rw [toNat_ofNat_of_lt (by omega), toNat_ofNat_of_lt (by omega), toNat_ofNat_of_lt (by omega),
      toNat_ofNat_of_lt (by omega), start_next, lead_of_four (by omega)]
    simp only
    rw [next_more (by split <;> omega) (by split <;> omega)]
    simp only
    rw [next_more (by omega) (by omega)]
    simp only
    rw [next_last (by omega) (by omega),
      show (((v / 262144 % 8 + 240) % 8 * 64 + (v / 4096 % 64 + 128) % 64) * 64 +
      (v / 64 % 64 + 128) % 64) * 64 +
        (v % 64 + 128) % 64 = v by omega, hc]
    rfl

theorem run_utf8Bytes (t : Chars) : start.run (utf8Bytes t) = (start, t.map some) := by
  induction t with
  | nil => rfl
  | cons c t ih =>
    rw [utf8Bytes_cons, run_append, run_utf8EncodeChar, ih, List.map_cons, List.singleton_append]

end Utf8State

structure TextDecoder where
  state : Utf8State
  bomSeen : Bool
  deriving DecidableEq

def byteOrderMark : Char := '\uFEFF'

namespace TextDecoder

def fresh : TextDecoder := ⟨.start, false⟩

def dropMark (bomSeen : Bool) : Chars → Chars
  | [] => []
  | c :: t => if bomSeen = false ∧ c = byteOrderMark then t else c :: t

def decode (d : TextDecoder) (data : List UInt8) (stream : Bool) : Chars × TextDecoder :=
  let (state, items) := d.state.run data
  let t := (if stream then items else items ++ state.close).map (·.getD replacement)
  (dropMark d.bomSeen t, if stream then ⟨state, d.bomSeen || !t.isEmpty⟩ else fresh)

def decodeFatal (data : List UInt8) : Option Chars :=
  let (state, items) := Utf8State.start.run data
  (items ++ state.close).mapM id |>.map (dropMark false)

def decodeParts (d : TextDecoder) : List (List UInt8) → Chars
  | [] => []
  | data :: parts =>
    (d.decode data (!parts.isEmpty)).1 ++ decodeParts (d.decode data (!parts.isEmpty)).2 parts

theorem dropMark_append (bomSeen : Bool) (t u : Chars) :
    dropMark bomSeen (t ++ u) = dropMark bomSeen t ++ dropMark (bomSeen || !t.isEmpty) u := by
  cases t with
  | nil => simp [dropMark]
  | cons c t =>
    have hseen : dropMark true u = u := by cases u <;> simp [dropMark]
    rw [List.isEmpty_cons, Bool.not_false, Bool.or_true, hseen, List.cons_append, dropMark, dropMark]
    split <;> rfl

theorem decodeParts_eq (d : TextDecoder) {parts : List (List UInt8)} (h : parts ≠ []) :
    d.decodeParts parts = (d.decode parts.flatten false).1 := by
  induction parts generalizing d with
  | nil => exact absurd rfl h
  | cons data parts ih =>
    cases parts with
    | nil => simp [decodeParts]
    | cons data' parts =>
      rw [decodeParts, ih _ (List.cons_ne_nil _ _)]
      simp only [decode, List.isEmpty_cons, Bool.not_false, if_true, List.flatten_cons,
        Utf8State.run_append, Bool.false_eq_true, if_false, List.append_assoc, List.map_append,
        dropMark_append]

theorem decodeParts_utf8Bytes {t : Chars} {parts : List (List UInt8)}
    (hparts : parts.flatten = utf8Bytes t) (ht : t.head? ≠ some byteOrderMark) :
    fresh.decodeParts parts = t := by
  cases parts with
  | nil =>
    have hlength := length_utf8Bytes t
    rw [← hparts, List.flatten_nil, List.length_nil] at hlength
    exact (byteLength_eq_zero.mp hlength.symm).symm
  | cons data parts =>
    rw [decodeParts_eq _ (List.cons_ne_nil _ _), hparts]
    simp only [decode, fresh, Utf8State.run_utf8Bytes]
    cases t with
    | nil => rfl
    | cons c t =>
      have hc : c ≠ byteOrderMark := fun hc => ht (by rw [hc, List.head?_cons])
      have hsome : (t.map some).map (·.getD replacement) = t := by
        rw [List.map_map]
        exact List.map_id t
      simp only [Bool.false_eq_true, if_false, Utf8State.close, Utf8State.start, if_true,
        List.append_nil, List.map_cons, hsome, Option.getD_some, dropMark, hc, and_false]

end TextDecoder

end JevCode.Text
