import JevCode.Data.HashChain
import JevCode.Data.Runs
import JevCode.Text.HexDigits

namespace JevCode.Session.TailChain

open JevCode.Data JevCode.Text JevCode.Text.JsonSyntax

structure BaseAnchor where
  baseDigest : List CodeUnit
  baseEndOffset : Int

inductive TailRecordKind
  | user
  | assistant
  | tool
  | modelChange
  | ttsrInjection
  | internal
  | other
  deriving DecidableEq

def TailRecordKind.name : TailRecordKind → List CodeUnit
  | .user => units "user"
  | .assistant => units "assistant"
  | .tool => units "tool"
  | .modelChange => units "model_change"
  | .ttsrInjection => units "ttsr_injection"
  | .internal => units "internal"
  | .other => units "other"

@[ext] structure TailRecordInput where
  gen : Option Int
  seq : Int
  kind : TailRecordKind
  ordinal : Int
  id : List CodeUnit
  parentId : Option (List CodeUnit)
  type : List CodeUnit
  byteOffset : Int
  byteLength : Int
  recordDigest : List CodeUnit
  deriving DecidableEq

@[ext] structure TailRecord where
  gen : Int
  seq : Int
  kind : TailRecordKind
  ordinal : Int
  id : List CodeUnit
  parentId : Option (List CodeUnit)
  type : List CodeUnit
  byteOffset : Int
  byteLength : Int
  recordDigest : List CodeUnit
  checksum : List CodeUnit
  deriving DecidableEq

def TailRecord.toInput (r : TailRecord) : TailRecordInput :=
  { r with gen := some r.gen }

def numberText (n : Int) : Chars :=
  if n < 0 then '-' :: Nat.toDigits 10 n.natAbs else Nat.toDigits 10 n.natAbs

def utf8Of (s : List CodeUnit) : List UInt8 := utf8Bytes (wellFormedChars s)

inductive Part
  | text (s : List CodeUnit)
  | number (n : Int)
  | raw (bytes : List UInt8)

def Part.bytes : Part → List UInt8
  | .text s => utf8Of s
  | .number n => utf8Bytes (numberText n)
  | .raw bytes => bytes

def hexText (bytes : List UInt8) : List CodeUnit := bytes.flatMap fun b => hexDigits 2 b.toNat

inductive TailError
  | lengthOutOfRange
  | seqDiscontinuity
  | offsetDiscontinuity
  deriving DecidableEq

section

variable (sha256 : List UInt8 → List UInt8)

def hashChain (parts : List Part) : Except TailError (List CodeUnit) :=
  match framed (parts.map Part.bytes) with
  | some bytes => .ok (hexText (sha256 bytes))
  | none => .error .lengthOutOfRange

def tailFields (record : TailRecordInput) : List Part :=
  [.number (record.gen.getD 0), .number record.seq, .text record.kind.name, .number record.ordinal,
    .text record.id, .text (record.parentId.getD (units "<null>")), .text record.type,
    .number record.byteOffset, .number record.byteLength, .text record.recordDigest]

def computeTailRecordChecksum (base : BaseAnchor) (previousChecksum : Option (List CodeUnit))
    (record : TailRecordInput) : Except TailError (List CodeUnit) :=
  match previousChecksum with
  | none =>
    hashChain sha256 (.text base.baseDigest :: .number base.baseEndOffset :: tailFields record)
  | some previous => hashChain sha256 (.text previous :: tailFields record)

def residentStringBytes (value : List CodeUnit) : Nat := 2 * value.length + 16

def recordObjectOverheadBytes : Nat := 48

def residentRecordBytes (childBytes : Nat) : Nat := recordObjectOverheadBytes + childBytes

def tailRecordResidentBytes (record : TailRecordInput) (checksumChars : Nat) : Nat :=
  residentRecordBytes (residentStringBytes record.id +
    (match record.parentId with
      | none => 0
      | some parentId => residentStringBytes parentId) +
    residentStringBytes record.type + residentStringBytes record.kind.name +
      residentStringBytes record.recordDigest +
    (2 * checksumChars + 16))

inductive InvalidReason
  | seqDiscontinuity
  | offsetDiscontinuity
  | checksumMismatch
  deriving DecidableEq

inductive TailValidationResult
  | valid
  | invalid (firstInvalidSeq : Int) (reason : InvalidReason)
  deriving DecidableEq

def validateLoop (base : BaseAnchor) : Int → Int → Option (List CodeUnit) → List TailRecord →
    Except TailError TailValidationResult
  | _, _, _, [] => .ok .valid
  | expectedSeq, expectedOffset, previousChecksum, record :: records =>
    if record.seq ≠ expectedSeq then .ok (.invalid record.seq .seqDiscontinuity)
    else if record.byteOffset ≠ expectedOffset then .ok (.invalid record.seq .offsetDiscontinuity)
    else
      match computeTailRecordChecksum sha256 base previousChecksum record.toInput with
      | .error e => .error e
      | .ok expectedChecksum =>
        if record.checksum ≠ expectedChecksum then .ok (.invalid record.seq .checksumMismatch)
        else
          validateLoop base (expectedSeq + 1) (record.byteOffset + record.byteLength)
            (some expectedChecksum) records

def validateTailChain (base : BaseAnchor) (records : List TailRecord) :
    Except TailError TailValidationResult :=
  validateLoop sha256 base 0 base.baseEndOffset none records

def tailBufferBudgetBytes : Nat := 4 * 1024 * 1024

structure RollingTailChainBuilder where
  records : List TailRecord := []
  base : BaseAnchor
  lastChecksum : Option (List CodeUnit) := none
  lastSeq : Int := -1
  lastEndOffset : Int
  remainingTailBytes : Nat

def RollingTailChainBuilder.new (base : BaseAnchor) (tailBufferBytes : Option Nat) :
    RollingTailChainBuilder where
  base := base
  lastEndOffset := base.baseEndOffset
  remainingTailBytes := tailBufferBytes.getD tailBufferBudgetBytes

def RollingTailChainBuilder.append (b : RollingTailChainBuilder) (input : TailRecordInput) :
    RollingTailChainBuilder × Except TailError (Option TailRecord) :=
  let expectedSeq := b.lastSeq + 1
  if input.seq ≠ expectedSeq then (b, .error .seqDiscontinuity)
  else if input.byteOffset ≠ b.lastEndOffset then (b, .error .offsetDiscontinuity)
  else
    match computeTailRecordChecksum sha256 b.base b.lastChecksum input with
    | .error e => (b, .error e)
    | .ok checksum =>
      let residentBytes := tailRecordResidentBytes input checksum.length
      if residentBytes > b.remainingTailBytes then (b, .ok none)
      else
        let record : TailRecord := { input with gen := input.gen.getD 0, checksum := checksum }
        ({ b with
            records := b.records ++ [record]
            remainingTailBytes := b.remainingTailBytes - residentBytes
            lastSeq := input.seq
            lastEndOffset := input.byteOffset + input.byteLength
            lastChecksum := some checksum }, .ok (some record))

end

def WellFormed (s : List CodeUnit) : Prop := ∀ p ∈ codePoints s, p.IsScalar

instance (s : List CodeUnit) : Decidable (WellFormed s) :=
  inferInstanceAs (Decidable (∀ p ∈ codePoints s, p.IsScalar))

theorem utf8Bytes_inj {s t : Chars} (h : utf8Bytes s = utf8Bytes t) : s = t := by
  rw [← ofUtf8Bytes_utf8Bytes s, h, ofUtf8Bytes_utf8Bytes]

theorem charsUnits_wellFormedChars {s : List CodeUnit} (h : WellFormed s) :
    charsUnits (wellFormedChars s) = s := by
  rw [wellFormedChars, charsUnits_map_toChar h, pointsUnits_codePoints]

theorem utf8Of_inj {s t : List CodeUnit} (hs : WellFormed s) (ht : WellFormed t)
    (h : utf8Of s = utf8Of t) : s = t := by
  rw [← charsUnits_wellFormedChars hs, utf8Bytes_inj h, charsUnits_wellFormedChars ht]

theorem numberText_inj {m n : Int} (h : numberText m = numberText n) : m = n := by
  have hdigits (k : Nat) : Nat.ofDigitChars 10 (Nat.toDigits 10 k) 0 = k :=
    Nat.ofDigitChars_ten_toDigits
  have hminus (k : Nat) (rest : Chars) : Nat.toDigits 10 k ≠ '-' :: rest := fun heq =>
    absurd (Nat.isDigit_of_mem_toDigits (b := 10) (n :=
      k) (by decide) (by decide) (heq ▸ List.mem_cons_self))
      (by decide)
  have hinj {j k : Nat} (heq : Nat.toDigits 10 j = Nat.toDigits 10 k) : j = k := by
    rw [← hdigits j, heq, hdigits]
  unfold numberText at h
  split at h <;> split at h
  case isTrue.isTrue => have := hinj (List.cons.inj h).2; omega
  case isTrue.isFalse => exact absurd h.symm (hminus _ _)
  case isFalse.isTrue => exact absurd h (hminus _ _)
  case isFalse.isFalse => have := hinj h; omega

theorem name_inj {k l : TailRecordKind} (h : utf8Of k.name = utf8Of l.name) : k = l := by
  have hall : ∀ k : TailRecordKind, WellFormed k.name := fun k => by cases k <;> decide
  have hname := utf8Of_inj (hall k) (hall l) h
  revert hname
  cases k <;> cases l <;> decide

theorem hexText_inj {x y : List UInt8} (h : hexText x = hexText y) : x = y := by
  induction x generalizing y with
  | nil =>
    cases y with
    | nil => rfl
    | cons b y => cases h
  | cons a x ih =>
    cases y with
    | nil => cases h
    | cons b y =>
      rw [hexText, hexText, List.flatMap_cons, List.flatMap_cons] at h
      obtain ⟨hfirst, hrest⟩ := List.append_inj h (by rw [length_hexDigits, length_hexDigits])
      have hab : a.toNat = b.toNat := by
        have hvalue := congrArg parseHex hfirst
        have ha := a.toNat_lt
        have hb := b.toNat_lt
        rw [parseHex_hexDigits, parseHex_hexDigits] at hvalue
        omega
      rw [UInt8.toNat_inj.mp hab, ih hrest]

theorem wellFormed_hexText (bytes : List UInt8) : WellFormed (hexText bytes) := by
  have hdigit : ∀ d < 16, isHigh (hexDigit d) = false ∧ isLow (hexDigit d) = false := by decide
  have hall : ∀ u ∈ hexText bytes, isHigh u = false ∧ isLow u = false := by
    intro u hu
    obtain ⟨b, -, hb⟩ := List.mem_flatMap.mp hu
    obtain ⟨d, hd, rfl⟩ := exists_digit_of_mem_hexDigits hb
    exact hdigit d hd
  intro p hp
  cases p with
  | scalar c => trivial
  | lone u =>
    have hmem : u ∈ hexText bytes := by
      rw [← pointsUnits_codePoints (hexText bytes)]
      exact List.mem_flatMap.mpr ⟨_, hp, List.mem_singleton.mpr rfl⟩
    have hlone := isHigh_or_isLow_of_lone hp
    rw [(hall u hmem).1, (hall u hmem).2] at hlone
    cases hlone

section

variable {sha256 : List UInt8 → List UInt8} {base : BaseAnchor}

theorem hashChain_eq_ok {parts : List Part} {checksum : List CodeUnit}
    (h : hashChain sha256 parts = .ok checksum) :
    ∃ bytes, framed (parts.map Part.bytes) = some bytes ∧ checksum = hexText (sha256 bytes) := by
  unfold hashChain at h
  split at h
  case h_1 bytes hbytes =>
    cases h
    exact ⟨bytes, hbytes, rfl⟩
  case h_2 => cases h

theorem hashChain_inj (hsha : Function.Injective sha256) {ps qs : List Part}
    {checksum : List CodeUnit} (hp : hashChain sha256 ps = .ok checksum)
    (hq : hashChain sha256 qs = .ok checksum) :
    ps.map Part.bytes = qs.map Part.bytes := by
  obtain ⟨x, hx, rfl⟩ := hashChain_eq_ok hp
  obtain ⟨y, hy, heq⟩ := hashChain_eq_ok hq
  rw [hsha (hexText_inj heq)] at hx
  exact framed_inj hx hy

theorem wellFormed_of_hashChain {parts : List Part} {checksum : List CodeUnit}
    (h : hashChain sha256 parts = .ok checksum) : WellFormed checksum := by
  obtain ⟨bytes, -, rfl⟩ := hashChain_eq_ok h
  exact wellFormed_hexText _

/-- A record that its checksum tells: well formed strings, and no parent that is called as none is.
-/
structure Plain (r : TailRecordInput) : Prop where
  gen : r.gen.isSome
  id : WellFormed r.id
  parentId : ∀ p ∈ r.parentId, WellFormed p ∧ p ≠ units "<null>"
  type : WellFormed r.type
  recordDigest : WellFormed r.recordDigest

theorem parentId_inj {p q : Option (List CodeUnit)} (hp : ∀ s ∈ p, WellFormed s ∧ s ≠ units "<null>")
    (hq : ∀ s ∈ q, WellFormed s ∧ s ≠ units "<null>")
    (h : utf8Of (p.getD (units "<null>")) = utf8Of (q.getD (units "<null>"))) : p = q := by
  have hnull : WellFormed (units "<null>") := by decide
  cases p with
  | none =>
    cases q with
    | none => rfl
    | some t =>
      obtain ⟨ht, hne⟩ := hq t rfl
      exact absurd (utf8Of_inj hnull ht h).symm hne
  | some s =>
    obtain ⟨hs, hne⟩ := hp s rfl
    cases q with
    | none => exact absurd (utf8Of_inj hs hnull h) hne
    | some t =>
      obtain ⟨ht, -⟩ := hq t rfl
      exact congrArg some (utf8Of_inj hs ht h)

theorem tailFields_inj {r r' : TailRecordInput} (hr : Plain r) (hr' : Plain r')
    (h : (tailFields r).map Part.bytes = (tailFields r').map Part.bytes) : r = r' := by
  simp only [tailFields, List.map_cons, List.map_nil, Part.bytes, List.cons.injEq, and_true] at h
  obtain ⟨hgen, hseq, hkind, hordinal, hid, hparent, htype, hoffset, hlength, hdigest⟩ := h
  have hnumber {m n : Int} (heq : utf8Bytes (numberText m) = utf8Bytes (numberText n)) : m = n :=
    numberText_inj (utf8Bytes_inj heq)
  obtain ⟨g, hg⟩ := Option.isSome_iff_exists.mp hr.gen
  obtain ⟨g', hg'⟩ := Option.isSome_iff_exists.mp hr'.gen
  have hgen' : r.gen = r'.gen := by
    have heq := hnumber hgen
    rw [hg, hg', Option.getD_some, Option.getD_some] at heq
    rw [hg, hg', heq]
  exact TailRecordInput.ext hgen' (hnumber hseq) (name_inj hkind) (hnumber hordinal)
    (utf8Of_inj hr.id hr'.id hid)
    (parentId_inj hr.parentId hr'.parentId hparent) (utf8Of_inj hr.type hr'.type htype)
    (hnumber hoffset)
    (hnumber hlength) (utf8Of_inj hr.recordDigest hr'.recordDigest hdigest)

def link (sha256 : List UInt8 → List UInt8) (base : BaseAnchor) (previous : Option (List CodeUnit))
    (record : TailRecordInput) : Option (List CodeUnit) :=
  (computeTailRecordChecksum sha256 base previous record).toOption

theorem link_eq_some {previous : Option (List CodeUnit)} {record : TailRecordInput}
    {checksum : List CodeUnit} :
    link sha256 base previous record = some checksum ↔
      computeTailRecordChecksum sha256 base previous record = .ok checksum := by
  rw [link]
  cases computeTailRecordChecksum sha256 base previous record <;> simp [Except.toOption]

theorem wellFormed_of_link {previous : Option (List CodeUnit)} {record : TailRecordInput}
    {checksum : List CodeUnit} (h : link sha256 base previous record = some checksum) :
    WellFormed checksum := by
  have hok := link_eq_some.mp h
  cases previous with
  | none => exact wellFormed_of_hashChain hok
  | some previous => exact wellFormed_of_hashChain hok

theorem link_inj (hsha : Function.Injective sha256) {p q : Option (List CodeUnit)}
    {a b : TailRecordInput} {checksum : List CodeUnit} (hp : ∀ d ∈ p, WellFormed d)
    (hq : ∀ d ∈ q, WellFormed d) (ha : Plain a) (hb : Plain b) (hnone : p = none ↔ q = none)
    (hpa : link sha256 base p a = some checksum) (hqb : link sha256 base q b = some checksum) :
    p = q ∧ a = b := by
  have hpa' := link_eq_some.mp hpa
  have hqb' := link_eq_some.mp hqb
  cases p with
  | none =>
    obtain rfl : q = none := hnone.mp rfl
    have hparts := hashChain_inj hsha hpa' hqb'
    simp only [List.map_cons, List.cons.injEq, true_and] at hparts
    exact ⟨rfl, tailFields_inj ha hb hparts⟩
  | some d =>
    cases q with
    | none => exact absurd (hnone.mpr rfl) (by simp)
    | some e =>
      have hparts := hashChain_inj hsha hpa' hqb'
      simp only [List.map_cons, List.cons.injEq] at hparts
      exact ⟨congrArg some (utf8Of_inj (hp d rfl) (hq e rfl) hparts.1),
        tailFields_inj ha hb hparts.2⟩

def endOffset (start : Int) (records : List TailRecord) : Int :=
  (records.getLast?.map fun r => r.byteOffset + r.byteLength).getD start

def endChecksum (previous : Option (List CodeUnit)) (records : List TailRecord) :
    Option (List CodeUnit) :=
  (records.getLast?.map TailRecord.checksum).or previous

def ValidFrom (sha256 : List UInt8 → List UInt8) (base : BaseAnchor) :
    Int → Int → Option (List CodeUnit) →
    List TailRecord → Prop
  | _, _, _, [] => True
  | seq, offset, previous, r :: records =>
    r.seq = seq ∧ r.byteOffset = offset ∧ link sha256 base previous r.toInput = some r.checksum ∧
      ValidFrom sha256 base (seq + 1) (r.byteOffset + r.byteLength) (some r.checksum) records

theorem validateLoop_eq_valid_iff {seq offset : Int} {previous : Option (List CodeUnit)}
    {records : List TailRecord} :
    validateLoop sha256 base seq offset previous records = .ok .valid ↔
      ValidFrom sha256 base seq offset previous records := by
  induction records generalizing seq offset previous with
  | nil => simp [validateLoop, ValidFrom]
  | cons r records ih =>
    simp only [validateLoop, ValidFrom, link_eq_some]
    by_cases hseq : r.seq = seq
    · by_cases hoffset : r.byteOffset = offset
      · simp only [hseq, hoffset, ne_eq, not_true_eq_false, if_false, true_and]
        cases computeTailRecordChecksum sha256 base previous r.toInput with
        | error e => simp
        | ok checksum =>
          by_cases hsum : r.checksum = checksum
          · subst hsum
            simpa using ih
          · simp [hsum, Ne.symm hsum]
      · simp [hseq, hoffset]
    · simp [hseq]

theorem endOffset_cons (start : Int) (r : TailRecord) (records : List TailRecord) :
    endOffset start (r :: records) = endOffset (r.byteOffset + r.byteLength) records := by
  cases records with
  | nil => rfl
  | cons r' rs => simp [endOffset, List.getLast?_cons]

theorem endChecksum_cons (previous : Option (List CodeUnit)) (r : TailRecord)
    (records : List TailRecord) :
    endChecksum previous (r :: records) = endChecksum (some r.checksum) records := by
  cases records with
  | nil => rfl
  | cons r' rs => simp [endChecksum, List.getLast?_cons]

theorem validFrom_concat {seq offset : Int} {previous : Option (List CodeUnit)}
    {records : List TailRecord} {r : TailRecord} :
    ValidFrom sha256 base seq offset previous (records ++ [r]) ↔
      ValidFrom sha256 base seq offset previous records ∧ r.seq = seq + records.length ∧
        r.byteOffset = endOffset offset records ∧
        link sha256 base (endChecksum previous records) r.toInput = some r.checksum := by
  induction records generalizing seq offset previous with
  | nil => simp [ValidFrom, endOffset, endChecksum]
  | cons first records ih =>
    have hcount : seq + 1 + records.length = seq + (records.length + 1 : Nat) := by omega
    rw [List.cons_append, ValidFrom, ih, ValidFrom, endOffset_cons, endChecksum_cons,
      List.length_cons, hcount]
    simp only [and_assoc]

theorem chained_of_validFrom {seq offset : Int} {previous : Option (List CodeUnit)}
    {records : List TailRecord} (h : ValidFrom sha256 base seq offset previous records) :
    Chained (link sha256 base) previous (records.map fun r => (r.toInput, r.checksum)) := by
  induction records generalizing seq offset previous with
  | nil => trivial
  | cons r records ih =>
    obtain ⟨-, -, hlink, hrest⟩ := h
    exact ⟨hlink, ih hrest⟩

/-- The builder is where the validation of its records ends. -/
structure Holds (sha256 : List UInt8 → List UInt8) (b : RollingTailChainBuilder) : Prop where
  valid : ValidFrom sha256 b.base 0 b.base.baseEndOffset none b.records
  lastSeq : b.lastSeq = (b.records.length : Int) - 1
  lastEndOffset : b.lastEndOffset = endOffset b.base.baseEndOffset b.records
  lastChecksum : b.lastChecksum = endChecksum none b.records

theorem holds_new (base : BaseAnchor) (tailBufferBytes : Option Nat) :
    Holds sha256 (.new base tailBufferBytes) := ⟨trivial, rfl, rfl, rfl⟩

theorem checksum_gen (sha256 : List UInt8 → List UInt8) (base : BaseAnchor)
    (previous : Option (List CodeUnit)) (input : TailRecordInput) :
    computeTailRecordChecksum sha256 base previous { input with gen := some (input.gen.getD 0) } =
      computeTailRecordChecksum sha256 base previous input := by
  cases previous <;> rfl

theorem Holds.append {b : RollingTailChainBuilder} (h : Holds sha256 b) (input : TailRecordInput) :
    Holds sha256 (b.append sha256 input).1 ∧ (b.append sha256 input).1.base = b.base := by
  simp only [RollingTailChainBuilder.append]
  split
  case isTrue => exact ⟨h, rfl⟩
  case isFalse hseq =>
    split
    case isTrue => exact ⟨h, rfl⟩
    case isFalse hoffset =>
      split
      case h_1 => exact ⟨h, rfl⟩
      case h_2 checksum hchecksum =>
        split
        case isTrue => exact ⟨h, rfl⟩
        case isFalse =>
          have hseq' : input.seq = b.lastSeq + 1 := Decidable.not_not.mp hseq
          have hoffset' : input.byteOffset = b.lastEndOffset := Decidable.not_not.mp hoffset
          have hlast := h.lastSeq
          refine ⟨⟨validFrom_concat.mpr ⟨h.valid, ?_, ?_, ?_⟩, ?_, ?_, ?_⟩, rfl⟩
          · show input.seq = 0 + (b.records.length : Int)
            omega
          · exact hoffset'.trans h.lastEndOffset
          · refine link_eq_some.mpr ?_
            rw [← h.lastChecksum]
            exact (checksum_gen sha256 b.base b.lastChecksum input).trans hchecksum
          · show input.seq = ((b.records ++ [_]).length : Int) - 1
            rw [List.length_append, List.length_singleton]
            omega
          · simp [endOffset]
          · simp [endChecksum]

def appendAll (sha256 : List UInt8 → List UInt8) (b : RollingTailChainBuilder)
    (inputs : List TailRecordInput) :
    RollingTailChainBuilder :=
  inputs.foldl (fun b input => (b.append sha256 input).1) b

theorem Holds.appendAll {b : RollingTailChainBuilder} (h : Holds sha256 b)
    (inputs : List TailRecordInput) :
    Holds sha256 (appendAll sha256 b inputs) ∧ (appendAll sha256 b inputs).base = b.base := by
  induction inputs generalizing b with
  | nil => exact ⟨h, rfl⟩
  | cons input inputs ih =>
    obtain ⟨hnext, hbase⟩ := h.append input
    obtain ⟨hrest, hbase'⟩ := ih hnext
    exact ⟨hrest, hbase'.trans hbase⟩

theorem validateTailChain_appendAll (sha256 : List UInt8 → List UInt8) (base : BaseAnchor)
    (tailBufferBytes : Option Nat) (inputs : List TailRecordInput) :
    validateTailChain sha256 base (appendAll sha256 (.new base tailBufferBytes) inputs).records =
      .ok .valid := by
  have hstart : Holds sha256 (.new base tailBufferBytes) := holds_new base tailBufferBytes
  obtain ⟨hrun, hbase⟩ := hstart.appendAll inputs
  have hvalid := hrun.valid
  rw [hbase] at hvalid
  exact validateLoop_eq_valid_iff.mpr hvalid

/-- Records with well formed strings, and no parent that is called as none is. -/
def PlainRecords (records : List TailRecord) : Prop := ∀ r ∈ records, Plain r.toInput

theorem toInput_checksum_inj {r r' : TailRecord}
    (h : (r.toInput, r.checksum) = (r'.toInput, r'.checksum)) :
    r = r' := by
  obtain ⟨hinput, hchecksum⟩ := Prod.mk.inj h
  simp only [TailRecord.toInput, TailRecordInput.mk.injEq, Option.some.injEq] at hinput
  obtain ⟨hgen, hseq, hkind, hordinal, hid, hparent, htype, hoffset, hlength, hdigest⟩ := hinput
  exact TailRecord.ext hgen hseq hkind hordinal hid hparent htype hoffset hlength hdigest hchecksum

theorem eq_of_last_checksum (hsha : Function.Injective sha256) {records records' : List TailRecord}
    (hlen : records.length = records'.length)
    (hvalid : validateTailChain sha256 base records = .ok .valid)
    (hvalid' : validateTailChain sha256 base records' = .ok .valid) (hplain : PlainRecords records)
    (hplain' : PlainRecords records')
    (hlast : records.getLast?.map TailRecord.checksum = records'.getLast?.map TailRecord.checksum) :
    records = records' := by
  have hmap : Function.Injective fun r : TailRecord => (r.toInput, r.checksum) := fun _ _ =>
    toInput_checksum_inj
  refine (List.map_injective_iff.mpr hmap) ?_
  have hlink := chained_of_validFrom (validateLoop_eq_valid_iff.mp hvalid)
  have hlink' := chained_of_validFrom (validateLoop_eq_valid_iff.mp hvalid')
  refine Chained.eq_of_lastLink (P := Plain) (Q := WellFormed) (fun _ _ _ => wellFormed_of_link)
    (fun _ _ _ _ _ => link_inj hsha) (by simp) (by simpa using hlen) hlink hlink' ?_ ?_ ?_
  · intro p hp
    obtain ⟨r, hr, rfl⟩ := List.mem_map.mp hp
    exact hplain r hr
  · intro p hp
    obtain ⟨r, hr, rfl⟩ := List.mem_map.mp hp
    exact hplain' r hr
  · simpa [lastLink, List.getLast?_map, Function.comp_def] using hlast

/-- What is appended validates, and no other list of as many records validates with the same last
checksum. -/
theorem tailChain_tamperEvident (base : BaseAnchor) :
    (∀ (sha256 : List UInt8 → List UInt8) (tailBufferBytes : Option Nat)
      (inputs : List TailRecordInput), validateTailChain sha256 base
      (appendAll sha256 (.new base tailBufferBytes) inputs).records = .ok .valid) ∧
    ∀ sha256 : List UInt8 → List UInt8, Function.Injective sha256 →
      ∀ records records' : List TailRecord,
      records.length = records'.length → validateTailChain sha256 base records = .ok .valid →
      validateTailChain sha256 base records' = .ok .valid → PlainRecords records →
        PlainRecords records' →
      records.getLast?.map TailRecord.checksum = records'.getLast?.map TailRecord.checksum →
        records = records' :=
  ⟨fun sha256 tailBufferBytes inputs =>
    validateTailChain_appendAll sha256 base tailBufferBytes inputs,
    fun _ hsha _ _ hlen hvalid hvalid' hplain hplain' hlast =>
      eq_of_last_checksum hsha hlen hvalid hvalid' hplain hplain' hlast⟩

def messageInput (seq : Int) (id : String) : TailRecordInput where
  gen := some 0
  seq := seq
  kind := .user
  ordinal := 0
  id := units id
  parentId := none
  type := units "message"
  byteOffset := 7 + 2 * seq
  byteLength := 2
  recordDigest := units "d0"

theorem tailChain_tamperEvident_ids :
    let built (id : String) := (appendAll (fun bytes => bytes) (.new ⟨units "c0", 7⟩ none)
      [messageInput 0 id, messageInput 1 "c"]).records
    validateTailChain (fun bytes => bytes) ⟨units "c0", 7⟩ (built "a") = .ok .valid ∧
      (built "a").getLast?.map TailRecord.checksum ≠
      (built "b").getLast?.map TailRecord.checksum := by
  intro built
  obtain ⟨happend, hfixed⟩ := tailChain_tamperEvident ⟨units "c0", 7⟩
  have hvalid (id : String) :=
    happend (fun bytes => bytes) none [messageInput 0 id, messageInput 1 "c"]
  have htype : WellFormed (units "message") := by decide
  have hdigest : WellFormed (units "d0") := by decide
  have hplain (id : String) (hid : WellFormed (units id))
      (h : (built id).map TailRecord.toInput = [messageInput 0 id, messageInput 1 "c"]) :
      PlainRecords (built id) := by
    intro r hr
    have hmem : r.toInput ∈ [messageInput 0 id, messageInput 1 "c"] := h ▸ List.mem_map_of_mem hr
    obtain hfirst | hsecond := List.mem_pair.mp hmem
    · rw [hfirst]
      exact ⟨rfl, hid, by simp [messageInput], htype, hdigest⟩
    · rw [hsecond]
      exact ⟨rfl, by decide, by simp [messageInput], htype, hdigest⟩
  refine ⟨hvalid "a", fun hlast => ?_⟩
  have hsame :=
    hfixed (fun bytes => bytes) (fun _ _ h => h) (built "a") (built "b") (by decide +kernel)
    (hvalid "a") (hvalid "b") (hplain "a" (by decide) (by decide +kernel))
    (hplain "b" (by decide) (by decide +kernel)) hlast
  exact absurd (congrArg (List.map TailRecord.id) hsame) (by decide +kernel)

end

end JevCode.Session.TailChain
