import JevCode.Text.HexDigits

namespace JevCode.Utils

open Text Text.JsonSyntax

def snowflakeEpoch : Int := 1420070400000

def maxSeq : Nat := 0x3fffff

structure Snowflake where
  units : List CodeUnit
  length_units : units.length = 16
  isDigit_units : ∀ u ∈ units, ∃ d < 16, u = hexDigit d

namespace Snowflake

instance : LT Snowflake := ⟨fun a b => a.units < b.units⟩

theorem lt_iff {a b : Snowflake} : a < b ↔ a.units < b.units := Iff.rfl

def words (dt seq : Int) : BitVec 32 × BitVec 32 :=
  let dtLo := dt.tmod 1024
  (BitVec.ofInt 32 ((dt - dtLo) / 1024), BitVec.ofInt 32 dtLo <<< 22 ||| BitVec.ofInt 32 seq)

def wordUnits (word : BitVec 32) : List CodeUnit :=
  hex4 (.ofNat (word >>> 16 &&& 0xffff#32).toNat) ++ hex4 (.ofNat (word &&& 0xffff#32).toNat)

theorem wordUnits_eq (word : BitVec 32) : wordUnits word = hexDigits 8 word.toNat := by
  have hlt := word.isLt
  have hhigh : (word >>> 16 &&& 0xffff#32).toNat = word.toNat / 16 ^ 4 := by
    rw [BitVec.toNat_and, BitVec.toNat_ushiftRight, Nat.shiftRight_eq_div_pow]
    change word.toNat / 2 ^ 16 &&& 2 ^ 16 - 1 = _
    rw [Nat.and_two_pow_sub_one_eq_mod]
    omega
  have hlow : (word &&& 0xffff#32).toNat = word.toNat % 16 ^ 4 := by
    rw [BitVec.toNat_and]
    change word.toNat &&& 2 ^ 16 - 1 = _
    rw [Nat.and_two_pow_sub_one_eq_mod]
    rfl
  have hhigh' : (UInt16.ofNat (word.toNat / 16 ^ 4)).toNat = word.toNat / 16 ^ 4 := by
    rw [UInt16.toNat_ofNat']
    omega
  have hlow' : (UInt16.ofNat (word.toNat % 16 ^ 4)).toNat = word.toNat % 16 ^ 4 := by
    rw [UInt16.toNat_ofNat']
    omega
  rw [wordUnits, hhigh, hlow, hex4_eq_hexDigits, hex4_eq_hexDigits, hhigh', hlow', hexDigits_add 4 4,
    hexDigits_mod 4 _ (Nat.le_refl 4)]

def formatParts (dt seq : Int) : Snowflake where
  units := wordUnits (words dt seq).1 ++ wordUnits (words dt seq).2
  length_units := by
    rw [wordUnits_eq, wordUnits_eq, List.length_append, length_hexDigits, length_hexDigits]
  isDigit_units := by
    intro u hu
    rw [wordUnits_eq, wordUnits_eq, List.mem_append] at hu
    exact hu.elim exists_digit_of_mem_hexDigits exists_digit_of_mem_hexDigits

def high (value : Snowflake) : Nat := parseHex (value.units.take 8)

def low (value : Snowflake) : Nat := parseHex ((value.units.take 16).drop 8)

def toBigInt (value : Snowflake) : Nat := value.high <<< 32 ||| value.low

def getSequence (value : Snowflake) : Nat :=
  (BitVec.ofNat 32 value.low &&& BitVec.ofNat 32 maxSeq).toNat

/-- The result is below 2^53, so that `Number` keeps it. -/
def getTimestamp (value : Snowflake) : Int := (value.toBigInt >>> 22 : Nat) + snowflakeEpoch

/-- The generator, with the sequence number of the last id. -/
structure Source where
  seq : Nat
  seq_le : seq ≤ maxSeq

def Source.new (sequence : Nat) : Source := ⟨sequence &&& maxSeq, Nat.and_le_right⟩

def Source.generate (source : Source) (timestamp : Int) : Snowflake × Source :=
  let seq := (source.seq + 1) &&& maxSeq
  let dt := timestamp - snowflakeEpoch
  (formatParts dt seq, ⟨seq, Nat.and_le_right⟩)

/-- The ids of one generator for one timestamp after the other. -/
def Source.generateAll (source : Source) : List Int → List Snowflake
  | [] => []
  | timestamp :: timestamps =>
    (source.generate timestamp).1 :: (source.generate timestamp).2.generateAll timestamps

def idBits (dt seq : Nat) : Nat := dt * 2 ^ 22 + seq

theorem formatParts_units {dt seq : Nat} (hdt : dt < 2 ^ 42) (hseq : seq < 2 ^ 22) :
    (formatParts dt seq).units = hexDigits 16 (idBits dt seq) := by
  have hlo : (dt : Int).tmod 1024 = (dt % 1024 : Nat) := rfl
  have hhi : ((dt : Int) - (dt % 1024 : Nat)) / 1024 = (dt / 1024 : Nat) := by omega
  have hfirst : (words dt seq).1.toNat = idBits dt seq / 16 ^ 8 := by
    simp only [words, hlo, hhi, idBits, BitVec.ofInt_natCast, BitVec.toNat_ofNat]
    omega
  have hsecond : (words dt seq).2.toNat = idBits dt seq % 16 ^ 8 := by
    have hshift : (dt % 1024 % 2 ^ 32) <<< 22 % 2 ^ 32 = (dt % 1024) <<< 22 := by
      rw [Nat.shiftLeft_eq, Nat.shiftLeft_eq]
      omega
    have hmod : seq % 2 ^ 32 = seq := by omega
    simp only [words, hlo, idBits, BitVec.ofInt_natCast, BitVec.toNat_or, BitVec.toNat_shiftLeft,
      BitVec.toNat_ofNat]
    rw [hshift, hmod, ← Nat.shiftLeft_add_eq_or_of_lt hseq, Nat.shiftLeft_eq]
    omega
  change wordUnits (words dt seq).1 ++ wordUnits (words dt seq).2 = _
  rw [wordUnits_eq, wordUnits_eq, hfirst, hsecond, hexDigits_mod 8 _ (Nat.le_refl 8),
    ← hexDigits_add]

section

variable {dt seq : Nat} (hdt : dt < 2 ^ 42) (hseq : seq < 2 ^ 22)
include hdt hseq

theorem high_formatParts : (formatParts dt seq).high = dt / 1024 := by
  rw [high, formatParts_units hdt hseq, hexDigits_add 8 8, List.take_left' (length_hexDigits 8 _),
    parseHex_hexDigits, idBits]
  omega

theorem low_formatParts : (formatParts dt seq).low = dt % 1024 * 2 ^ 22 + seq := by
  rw [low, formatParts_units hdt hseq, List.take_of_length_le (Nat.le_of_eq (length_hexDigits 16 _)),
    hexDigits_add 8 8, List.drop_left' (length_hexDigits 8 _), parseHex_hexDigits, idBits]
  omega

theorem getSequence_formatParts : (formatParts dt seq).getSequence = seq := by
  rw [getSequence, low_formatParts hdt hseq, BitVec.toNat_and, BitVec.toNat_ofNat,
    BitVec.toNat_ofNat]
  change _ &&& 2 ^ 22 - 1 = seq
  rw [Nat.and_two_pow_sub_one_eq_mod]
  omega

theorem getTimestamp_formatParts : (formatParts dt seq).getTimestamp = dt + snowflakeEpoch := by
  have hlow : dt % 1024 * 2 ^ 22 + seq < 2 ^ 32 := by omega
  rw [getTimestamp, toBigInt, high_formatParts hdt hseq, low_formatParts hdt hseq,
    ← Nat.shiftLeft_add_eq_or_of_lt hlow, Nat.shiftLeft_eq, Nat.shiftRight_eq_div_pow]
  congr 2
  omega

theorem formatParts_lt_iff {dt' seq' : Nat} (hdt' : dt' < 2 ^ 42) (hseq' : seq' < 2 ^ 22) :
    formatParts dt seq < formatParts dt' seq' ↔ dt < dt' ∨ dt = dt' ∧ seq < seq' := by
  rw [lt_iff, formatParts_units hdt hseq, formatParts_units hdt' hseq', hexDigits_lt_iff,
    idBits, idBits]
  omega

end

theorem seq_generate (source : Source) (timestamp : Int) :
    (source.generate timestamp).2.seq = (source.seq + 1) % 2 ^ 22 := by
  change (source.seq + 1) &&& 2 ^ 22 - 1 = _
  rw [Nat.and_two_pow_sub_one_eq_mod]

def InRange (timestamp : Int) : Prop :=
  snowflakeEpoch ≤ timestamp ∧ timestamp < snowflakeEpoch + 2 ^ 42

theorem generate_eq (source : Source) {timestamp : Int} (h : InRange timestamp) :
    ∃ dt : Nat, dt < 2 ^ 42 ∧ timestamp = snowflakeEpoch + dt ∧
      (source.generate timestamp).1 = formatParts dt ((source.seq + 1) % 2 ^ 22 : Nat) := by
  obtain ⟨hle, hlt⟩ := h
  obtain ⟨dt, hdt⟩ := Int.eq_ofNat_of_zero_le (Int.sub_nonneg_of_le hle)
  have hseq : (source.seq + 1) &&& maxSeq = (source.seq + 1) % 2 ^ 22 :=
    seq_generate source timestamp
  refine ⟨dt, by omega, by omega, ?_⟩
  simp only [Source.generate, hdt, hseq]

theorem generate_lt_iff (source : Source) {t t' : Int} (ht : InRange t) (ht' : InRange t')
    (hle : t ≤ t') :
    (source.generate t).1 < ((source.generate t).2.generate t').1 ↔
    ((source.seq + 1) % 2 ^ 22 = maxSeq → t < t') := by
  obtain ⟨dt, hdt, rfl, heq⟩ := generate_eq source ht
  obtain ⟨dt', hdt', rfl, heq'⟩ := generate_eq (source.generate (snowflakeEpoch + dt)).2 ht'
  rw [heq, heq', seq_generate,
    formatParts_lt_iff hdt (Nat.mod_lt _ (by decide)) hdt' (Nat.mod_lt _ (by decide)), maxSeq]
  omega

instance : Trans (fun a b : Snowflake => a < b) (fun a b : Snowflake => a < b)
    (fun a b : Snowflake => a < b) :=
  ⟨fun h h' => List.lt_trans h h'⟩

theorem generateAll_increasing_iff (source : Source) {timestamps : List Int}
    (hrange : ∀ t ∈ timestamps, InRange t) (hsorted : timestamps.Pairwise (· ≤ ·)) :
    (source.generateAll timestamps).Pairwise (· < ·) ↔
      ∀ i t t', timestamps[i]? = some t → timestamps[i + 1]? = some t' →
        (source.seq + 1 + i) % 2 ^ 22 = maxSeq → t < t' := by
  rw [← List.isChain_iff_pairwise]
  induction timestamps generalizing source with
  | nil => simp [Source.generateAll]
  | cons t timestamps ih =>
    cases timestamps with
    | nil => simp [Source.generateAll]
    | cons t' timestamps =>
      have hrest :=
        ih (source.generate t).2 (fun x hx => hrange x (List.mem_cons_of_mem _ hx)) hsorted.tail
      rw [Source.generateAll] at hrest
      rw [Source.generateAll, Source.generateAll, List.isChain_cons_cons, hrest,
        generate_lt_iff source (hrange t List.mem_cons_self)
        (hrange t' (List.mem_cons_of_mem _ List.mem_cons_self))
          (List.rel_of_pairwise_cons hsorted List.mem_cons_self)]
      constructor
      · rintro ⟨hfirst, hmore⟩ i x y hx hy hwrap
        cases i with
        | zero =>
          cases hx
          cases hy
          exact hfirst hwrap
        | succ i =>
          refine hmore i x y hx hy ?_
          rw [seq_generate]
          omega
      · intro h
        refine ⟨fun hwrap => h 0 t t' rfl rfl hwrap, fun i x y hx hy hwrap => h (i + 1) x y hx hy ?_⟩
        rw [seq_generate] at hwrap
        omega

/-- The time and the sequence of an id can be read back, the order of ids is that of the pairs of
both, and the ids of a generator increase just if the time does wherever the sequence starts anew
between two of them. -/
theorem ids_encode_and_order :
    (∀ dt seq : Nat, dt < 2 ^ 42 → seq < 2 ^ 22 →
      (formatParts dt seq).getTimestamp = dt + snowflakeEpoch ∧
      (formatParts dt seq).getSequence = seq) ∧
    (∀ dt seq dt' seq' : Nat, dt < 2 ^ 42 → seq < 2 ^ 22 → dt' < 2 ^ 42 → seq' < 2 ^ 22 →
      (formatParts dt seq < formatParts dt' seq' ↔ dt < dt' ∨ dt = dt' ∧ seq < seq')) ∧
    ∀ (source : Source) (timestamps : List Int), (∀ t ∈ timestamps, InRange t) →
      timestamps.Pairwise (· ≤ ·) →
      ((source.generateAll timestamps).Pairwise (· < ·) ↔
        ∀ i t t', timestamps[i]? = some t → timestamps[i + 1]? = some t' →
          (source.seq + 1 + i) % 2 ^ 22 = maxSeq → t < t') :=
  ⟨fun _ _ hdt hseq => ⟨getTimestamp_formatParts hdt hseq, getSequence_formatParts hdt hseq⟩,
    fun _ _ _ _ hdt hseq hdt' hseq' => formatParts_lt_iff hdt hseq hdt' hseq',
    fun source _ hrange hsorted => generateAll_increasing_iff source hrange hsorted⟩

theorem ids_encode_and_order_first_second :
    (formatParts (1000 : Nat) (0x3fffff : Nat)).getTimestamp = 1000 + snowflakeEpoch ∧
      formatParts (1000 : Nat) (0x3fffff : Nat) < formatParts (1001 : Nat) (0 : Nat) ∧
      ((Source.new 7).generateAll [snowflakeEpoch, snowflakeEpoch, snowflakeEpoch + 1]).Pairwise
      (· < ·) := by
  refine ⟨(ids_encode_and_order.1 1000 0x3fffff (by decide) (by decide)).1,
    (ids_encode_and_order.2.1 1000 0x3fffff 1001 0 (by decide) (by decide) (by decide)
    (by decide)).mpr (.inl (by decide)),
      (ids_encode_and_order.2.2 (Source.new 7) _ ?_ (by decide)).mpr fun i t t' ht ht' hwrap => ?_⟩
  · simp [InRange, snowflakeEpoch]
  · match i, ht, ht', hwrap with
    | 0, _, _, hwrap => exact absurd hwrap (by decide)
    | 1, _, _, hwrap => exact absurd hwrap (by decide)
    | 2, _, ht', _ => cases ht'
    | i + 3, ht, _, _ => cases ht

theorem id_of_new_sequence_is_smaller :
    ¬((Source.new 0x3ffffe).generateAll [snowflakeEpoch, snowflakeEpoch]).Pairwise (· < ·) := by
  have hrange : ∀ t ∈ [snowflakeEpoch, snowflakeEpoch], InRange t := by
    simp [InRange, snowflakeEpoch]
  intro h
  have hlt := (generateAll_increasing_iff _ hrange (by decide)).mp h 0 _ _ rfl rfl (by decide)
  exact absurd hlt (by decide)

theorem eq_of_units {a b : Snowflake} (h : a.units = b.units) : a = b := by
  cases a
  cases b
  cases h
  rfl

theorem exists_parts (value : Snowflake) :
    ∃ dt seq : Nat, dt < 2 ^ 42 ∧ seq < 2 ^ 22 ∧ value = formatParts dt seq := by
  obtain ⟨n, hn, hunits⟩ := exists_eq_hexDigits value.isDigit_units
  rw [value.length_units] at hn hunits
  have hdt : n / 2 ^ 22 < 2 ^ 42 := by omega
  have hseq : n % 2 ^ 22 < 2 ^ 22 := by omega
  refine ⟨_, _, hdt, hseq, eq_of_units ?_⟩
  rw [hunits, formatParts_units hdt hseq, idBits, Nat.div_add_mod']

inductive Timelike
  | date (time : Int)
  | number (time : Int)
  | snowflake (value : Snowflake)

def lowerbound : Timelike → Snowflake
  | .date time | .number time => formatParts (time - snowflakeEpoch) 0
  | .snowflake value => value

def upperbound : Timelike → Snowflake
  | .date time | .number time => formatParts (time - snowflakeEpoch) maxSeq
  | .snowflake value => value

/-- Every id is made of the time and the sequence that are read from it, and the ids of a moment are
just those between its bounds. -/
theorem id_between_bounds_iff (value : Snowflake) {t : Int} (ht : InRange t) :
    formatParts (value.getTimestamp - snowflakeEpoch) value.getSequence = value ∧
    (¬value < lowerbound (.number t) ∧ ¬upperbound (.number t) < value ↔
      value.getTimestamp = t) := by
  obtain ⟨dt, seq, hdt, hseq, rfl⟩ := exists_parts value
  obtain ⟨dt', hdt'⟩ : ∃ dt' : Nat, t = dt' + snowflakeEpoch :=
    ⟨(t - snowflakeEpoch).toNat, by have := ht.1; omega⟩
  have hlt : dt' < 2 ^ 42 := by have := ht.2; omega
  have hlower : formatParts dt seq < formatParts dt' (0 : Nat) ↔ _ :=
    formatParts_lt_iff hdt hseq hlt (by decide)
  have hupper : formatParts dt' maxSeq < formatParts dt seq ↔ _ :=
    formatParts_lt_iff hlt (by decide) hdt hseq
  rw [getTimestamp_formatParts hdt hseq, getSequence_formatParts hdt hseq, lowerbound,
    upperbound, hdt', Int.add_sub_cancel, Int.add_sub_cancel]
  refine ⟨rfl, (and_congr (not_congr hlower) (not_congr hupper)).trans ?_⟩
  have : maxSeq = 2 ^ 22 - 1 := rfl
  omega

theorem id_between_bounds_epoch :
    ¬formatParts 0 5 < lowerbound (.number snowflakeEpoch) ∧
      ¬upperbound (.number snowflakeEpoch) < formatParts 0 5 :=
  (id_between_bounds_iff _ ⟨by decide, by decide⟩).2.mpr (by decide)

end Snowflake

end JevCode.Utils
