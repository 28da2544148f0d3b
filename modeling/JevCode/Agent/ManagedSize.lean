import JevCode.Text.JsonSerialize

namespace JevCode.Agent.ManagedSize

open JevCode.Text JevCode.Text.JsonSyntax

/-- A number of bytes; `none` is `Number.POSITIVE_INFINITY`. -/
abbrev Limit := Option Int

def Limit.passed (limit : Limit) (seen : Nat) : Bool := limit.any (· < (seen : Int))

inductive Stop
  | sentinel
  | failed
  deriving DecidableEq

abbrev Charging := StateT Nat (Except Stop)

section

variable {ν : Type} (numberText : ν → Numeral) (limit : Limit)

def add (bytes : Nat) : Charging Unit := fun seen =>
  if limit.passed (seen + bytes) then .error .sentinel else .ok ((), seen + bytes)

def isPlainAscii (u : CodeUnit) : Bool :=
  0x20 ≤ u && u ≤ 0x21 || 0x23 ≤ u && u ≤ 0x5b || 0x5d ≤ u && u ≤ 0x7e

def pointValue : CodePoint → Nat
  | .scalar c => c.toNat
  | .lone u => u.toNat

def codePointBytes (codePoint : Nat) : Nat :=
  if codePoint = 0x22 ∨ codePoint = 0x5c then 2
  else if codePoint = 0x08 ∨ codePoint = 0x09 ∨ codePoint = 0x0a ∨ codePoint = 0x0c ∨
    codePoint = 0x0d then 2
  else if codePoint ≤ 0x1f then 6
  else if 0xd800 ≤ codePoint ∧ codePoint ≤ 0xdfff then 6
  else if codePoint ≤ 0x7f then 1
  else if codePoint ≤ 0x7ff then 2
  else if codePoint ≤ 0xffff then 3
  else 4

def managedChargeStringBytes (text : List CodeUnit) : Charging Unit := do
  add limit 1
  if text.all isPlainAscii then add limit text.length
  else (codePoints text).forM fun p => add limit (codePointBytes (pointValue p))
  add limit 1

def addSeparator (count : Nat) : Charging Unit := if 0 < count then add limit 1 else pure ()

structure Prepared (ν : Type) where
  omitted : Bool
  value : JsValue ν

def isOmitted : JsValue ν → Bool
  | .undefined => true
  | .function => true
  | .symbol => true
  | _ => false

def prepare (key : PropertyKey) : JsInput ν → Charging (Prepared ν)
  | .plain .function => pure ⟨true, .function⟩
  | .plain v => pure ⟨false, v⟩
  | .hasToJSON call =>
    match call key with
    | .throws => throw .failed
    | .returns v => pure ⟨isOmitted v, v⟩

def isUndefined : JsValue ν → Bool
  | .undefined => true
  | _ => false

mutual

def walkPrepared (seenObjects : List Nat) (inArray : Bool) : JsValue ν → Charging Unit
  | .null => add limit 4
  | .undefined => if inArray then add limit 4 else pure ()
  | .function => if inArray then add limit 4 else pure ()
  | .symbol => if inArray then add limit 4 else pure ()
  | .string text => managedChargeStringBytes limit text
  | .boolean b => add limit (if b then 4 else 5)
  | .number n => add limit (byteLength (numberText n).chars)
  | .bigint => throw .failed
  | .array ref elements => do
    if ref ∈ seenObjects then throw .failed
    add limit 1
    walkElements (ref :: seenObjects) 0 elements
    add limit 1
  | .object ref members => do
    if ref ∈ seenObjects then throw .failed
    add limit 1
    walkMembers (ref :: seenObjects) 0 members
    add limit 1

def walkInput (seenObjects : List Nat) (inArray : Bool) (key : PropertyKey) :
    JsInput ν → Charging Unit
  | .plain v => walkPrepared seenObjects inArray v
  | .hasToJSON call => walkResult seenObjects inArray (call key)

def walkResult (seenObjects : List Nat) (inArray : Bool) : JsResult ν → Charging Unit
  | .throws => throw .failed
  | .returns v => walkPrepared seenObjects inArray v

def walkElements (seenObjects : List Nat) (index : Nat) : List (JsInput ν) → Charging Unit
  | [] => pure ()
  | input :: rest => do
    addSeparator limit index
    let prepared ← prepare (indexKey index) input
    (if prepared.omitted then add limit 4 else walkInput seenObjects true (indexKey index) input)
    walkElements seenObjects (index + 1) rest

def walkMembers (seenObjects : List Nat) (emitted : Nat) :
    List (PropertyKey × JsInput ν) → Charging Unit
  | [] => pure ()
  | (property, input) :: rest => do
    let prepared ← prepare property input
    if prepared.omitted || isUndefined prepared.value then walkMembers seenObjects emitted rest
    else do
      addSeparator limit emitted
      managedChargeStringBytes limit property
      add limit 1
      walkInput seenObjects false property input
      walkMembers seenObjects (emitted + 1) rest

end

def managedJsonByteLengthWithin (value : JsInput ν) : Except Stop (Option Nat) :=
  let walk : Charging Bool := do
    let prepared ← prepare [] value
    if prepared.omitted then pure false
    else do
      walkInput numberText limit [] false [] value
      pure true
  match walk 0 with
  | .ok (true, seen) => .ok (some seen)
  | .ok (false, _) => .ok none
  | .error .sentinel => .error .sentinel
  | .error .failed => .ok none

inductive Verdict
  | over
  | under
  | unknown
  deriving DecidableEq

def managedSnapshotExceedsBytes (value : JsInput ν) : Verdict :=
  match managedJsonByteLengthWithin numberText limit value with
  | .ok (some _) => .under
  | .ok none => .unknown
  | .error .sentinel => .over
  | .error .failed => .unknown

end

def managedSnapshotJsonByteLength {ν : Type} (numberText : ν → Numeral) (value : JsInput ν) :
    Except Stop (Option Nat) :=
  managedJsonByteLengthWithin numberText none value

section Adds

variable {limit : Limit}

def Adds (limit : Limit) (m : Charging Unit) (n : Nat) : Prop :=
  ∀ seen, m seen = if 0 < n ∧ limit.passed (seen + n) = true then .error .sentinel
    else .ok ((), seen + n)

theorem passed_mono {a b : Nat} (hab : a ≤ b) (h : limit.passed a = true) :
    limit.passed b = true := by
  cases limit with
  | none => cases h
  | some n =>
    simp only [Limit.passed, Option.any_some, decide_eq_true_eq] at h ⊢
    omega

theorem adds_add {n : Nat} (hn : 0 < n) : Adds limit (add limit n) n := by
  intro seen
  simp only [add, hn, true_and]

theorem adds_pure : Adds limit (pure ()) 0 := fun _ => rfl

theorem Adds.bind {m m' : Charging Unit} {a b : Nat} (h : Adds limit m a) (h' : Adds limit m' b) :
    Adds limit (m >>= fun _ => m') (a + b) := by
  intro seen
  have hbind : (m >>= fun _ => m') seen = m seen >>= fun r => m' r.2 := rfl
  rw [hbind, h seen]
  split
  next hpassed =>
    rw [if_pos ⟨by omega, passed_mono (by omega) hpassed.2⟩]
    rfl
  next hkept =>
    have hstep : (Except.ok ((), seen + a) >>= fun r : Unit × Nat => m' r.2) = m' (seen + a) := rfl
    rw [hstep, h' (seen + a), Nat.add_assoc]
    by_cases hb : 0 < b
    · simp only [hb, Nat.add_pos_right a hb, true_and]
    · rw [if_neg (fun hand => hb hand.1), if_neg]
      obtain rfl : b = 0 := by omega
      exact hkept

end Adds

section Strings

variable {limit : Limit}

theorem utf8Size_of_toNat {c : Char} :
    c.utf8Size = if c.toNat ≤ 0x7f then 1 else if c.toNat ≤ 0x7ff then 2 else if c.toNat ≤ 0xffff
      then 3 else 4 := by
  simp only [Char.utf8Size, UInt32.le_iff_toNat_le]
  rfl

theorem byteLength_unicodeEscape (u : CodeUnit) : byteLength (unicodeEscape u) = 6 := by
  have hlt := u.toNat_lt
  have hdigit : ∀ n < 16, (hexChar n).utf8Size = 1 := by decide
  simp only [unicodeEscape, byteLength_cons, byteLength_nil,
    hdigit _ (show u.toNat / 0x1000 < 16 by omega),
    hdigit _ (show u.toNat / 0x100 % 0x10 < 16 by omega),
    hdigit _ (show u.toNat / 0x10 % 0x10 < 16 by omega),
      hdigit _ (show u.toNat % 0x10 < 16 by omega)]
  rfl

theorem codePointBytes_eq {p : CodePoint} (h : ∀ u, p = .lone u → (isHigh u || isLow u) = true) :
    codePointBytes (pointValue p) = byteLength (quotePoint p) := by
  cases p with
  | lone u =>
    have hu : 0xd800 ≤ u.toNat ∧ u.toNat ≤ 0xdfff := by
      have := h u rfl
      rw [Bool.or_eq_true, isHigh_iff, isLow_iff] at this
      omega
    rw [quotePoint, byteLength_unicodeEscape, pointValue, codePointBytes, if_neg (by omega),
      if_neg (by omega), if_neg (by omega), if_pos hu]
  | scalar c =>
    have hvalid : c.toNat < 0xd800 ∨ 0xdfff < c.toNat ∧ c.toNat < 0x110000 := c.valid
    rw [quotePoint, pointValue]
    by_cases hascii : c.toNat < 0x80
    · have h : ∀ n < 0x80, codePointBytes n = byteLength (quoteChar (.ofNat n)) := by decide
      rw [h _ hascii, Char.ofNat_toNat]
    · have hne {d : Char} (hd : d.toNat < 0x80) : c ≠ d := fun heq => hascii (heq ▸ hd)
      have hquoted : quoteChar c = [c] := by
        rw [quoteChar, if_neg (hne (by decide)), if_neg (hne (by decide)), if_neg (hne (by decide)),
          if_neg (hne (by decide)), if_neg (hne (by decide)), if_neg (hne (by decide)),
          if_neg (hne (by decide)), if_neg (by omega)]
      rw [hquoted, byteLength_cons, byteLength_nil, Nat.add_zero, utf8Size_of_toNat, codePointBytes,
        if_neg (by omega), if_neg (by omega), if_neg (by omega), if_neg (by omega)]

theorem byteLength_quotePoints_of_plain {text : List CodeUnit} (h : text.all isPlainAscii = true) :
    byteLength ((codePoints text).flatMap quotePoint) = text.length := by
  induction text with
  | nil => rfl
  | cons u text ih =>
    obtain ⟨hu, htext⟩ := Bool.and_eq_true_iff.mp ((List.all_cons ..).symm.trans h)
    have hrange : 0x20 ≤ u.toNat ∧ u.toNat ≤ 0x7e ∧ u.toNat ≠ 0x22 ∧ u.toNat ≠ 0x5c := by
      simp only [isPlainAscii, Bool.or_eq_true, Bool.and_eq_true, decide_eq_true_eq,
        UInt16.le_iff_toNat_le] at hu
      simp only [UInt16.reduceToNat] at hu
      omega
    have hhigh : isHigh u = false := Bool.eq_false_iff.mpr fun hhigh => by
      have := isHigh_iff.mp hhigh
      omega
    have hlow : isLow u = false := Bool.eq_false_iff.mpr fun hlow => by
      have := isLow_iff.mp hlow
      omega
    have hpoint : unitPoint u = .scalar (.ofNat u.toNat) := by rw [unitPoint, hhigh, hlow]; rfl
    have hvalue : pointValue (unitPoint u) = u.toNat := by
      rw [hpoint, pointValue, toNat_charOfNat (by omega)]
    have hbytes : byteLength (quotePoint (unitPoint u)) = 1 := by
      rw [← codePointBytes_eq (fun v hv => by cases hpoint.symm.trans hv), hvalue, codePointBytes,
        if_neg (by omega), if_neg (by omega), if_neg (by omega), if_neg (by omega),
        if_pos (by omega)]
    rw [codePoints_cons_of_not_isHigh hhigh, List.flatMap_cons, byteLength_append, hbytes, ih htext,
      List.length_cons, Nat.add_comm]

theorem adds_before_quote (n : Nat) : Adds limit (add limit n >>= fun _ => add limit 1) (n + 1) := by
  obtain rfl | hn := Nat.eq_zero_or_pos n
  · intro seen
    have hbind : (add limit 0 >>= fun _ => add limit 1) seen = add limit 0 seen >>= fun r =>
      add limit 1 r.2 := rfl
    rw [hbind, add, Nat.add_zero]
    split
    next hpassed =>
      rw [if_pos ⟨Nat.one_pos, passed_mono (by omega) hpassed⟩]
      rfl
    next => exact adds_add Nat.one_pos seen
  · exact (adds_add hn).bind (adds_add Nat.one_pos)

theorem adds_forM {points : List CodePoint}
    (h : ∀ u, .lone u ∈ points → (isHigh u || isLow u) = true) :
    Adds limit (points.forM fun p => add limit (codePointBytes (pointValue p)))
      (byteLength (points.flatMap quotePoint)) := by
  induction points with
  | nil => exact adds_pure
  | cons p points ih =>
    have hp := codePointBytes_eq (p := p) fun u hu => h u (hu ▸ List.mem_cons_self)
    have hpos : 0 < codePointBytes (pointValue p) := by
      unfold codePointBytes
      (repeat' split) <;> decide
    rw [List.flatMap_cons, byteLength_append, ← hp]
    exact (adds_add hpos).bind (ih fun u hu => h u (List.mem_cons_of_mem _ hu))

theorem adds_string (text : List CodeUnit) :
    Adds limit (managedChargeStringBytes limit text) (byteLength (quoteString text)) := by
  have hlength : byteLength (quoteString text) = 1 +
      (byteLength ((codePoints text).flatMap quotePoint) + 1) := by
    rw [quoteString, byteLength_append, byteLength_cons]
    rw [show byteLength ['"'] = 1 from rfl, show ('"' : Char).utf8Size = 1 from rfl, Nat.add_assoc]
  rw [hlength, managedChargeStringBytes]
  refine (adds_add Nat.one_pos).bind ?_
  split
  next hplain =>
    rw [byteLength_quotePoints_of_plain hplain]
    exact adds_before_quote text.length
  next hplain =>
    exact (adds_forM fun u hu => isHigh_or_isLow_of_lone hu).bind (adds_add Nat.one_pos)

end Strings

section Walk

variable {ν : Type} {numberText : ν → Numeral} {limit : Limit}

/-- The bytes of what stands for a value: in an array there is always something. -/
def written (inArray : Bool) : Option Chars → Nat
  | some text => byteLength text
  | none => if inArray then 4 else 0

theorem numeral_pos (n : Numeral) : 0 < byteLength n.chars := by
  obtain ⟨chars, hchars⟩ := n
  cases chars with
  | nil => cases hchars
  | cons c chars =>
    rw [byteLength_cons]
    exact Nat.add_pos_left c.utf8Size_pos _

def separated (inside : Bool) (texts : List Chars) : Nat :=
  (texts.map byteLength).sum + if inside then texts.length else texts.length - 1

theorem separated_nil (inside : Bool) : separated inside [] = 0 := by cases inside <;> rfl

theorem separated_cons (inside : Bool) (text : Chars) (texts : List Chars) :
    separated inside (text :: texts) = (if inside then 1 else 0) +
      (byteLength text + separated true texts) := by
  simp only [separated, List.map_cons, List.sum_cons, List.length_cons, if_true]
  cases inside <;> simp <;> omega

theorem byteLength_intercalate (texts : List Chars) :
    byteLength ([','].intercalate texts) = separated false texts := by
  have hcons (text : Chars) (texts : List Chars) :
      byteLength ([','].intercalate (text :: texts)) = byteLength text + separated true texts := by
    induction texts generalizing text with
    | nil => simp [separated]
    | cons text' texts ih =>
      rw [List.intercalate_cons_cons, byteLength_append, byteLength_append, ih, separated_cons,
        Nat.add_assoc]
      rfl
  cases texts with
  | nil => rfl
  | cons text texts =>
    rw [hcons, separated_cons]
    exact (Nat.zero_add _).symm

theorem written_enclosed {opening closing : Char} (hopening : opening.utf8Size = 1)
    (hclosing : closing.utf8Size = 1) (inArray : Bool) (texts : List Chars) :
    written inArray (some (opening :: [','].intercalate texts ++ [closing])) = 1 +
      (separated false texts + 1) := by
  simp only [written, byteLength_append, byteLength_cons, byteLength_intercalate, byteLength_nil,
    hopening, hclosing]
  omega

theorem adds_separator (count : Nat) :
    Adds limit (addSeparator limit count) (if decide (0 < count) = true then 1 else 0) := by
  simp only [addSeparator, decide_eq_true_eq]
  split
  · exact adds_add Nat.one_pos
  · exact adds_pure

theorem isOmitted_eq {stack : List Nat} {v : JsValue ν} {text : Option Chars}
    (h : serializeValue numberText stack v = some text) : isOmitted v = text.isNone := by
  cases v with
  | boolean b => cases b <;> cases h <;> rfl
  | array ref elements =>
    rw [serializeValue] at h
    split at h
    next => cases h
    next =>
      obtain ⟨texts, -, rfl⟩ := Option.map_eq_some_iff.mp h
      rfl
  | object ref members =>
    rw [serializeValue] at h
    split at h
    next => cases h
    next =>
      obtain ⟨texts, -, rfl⟩ := Option.map_eq_some_iff.mp h
      rfl
  | _ => cases h <;> rfl

theorem prepare_eq {stack : List Nat} {key : PropertyKey} {input : JsInput ν} {text : Option Chars}
    (hlike : JsonLikeInput stack key input)
    (h : serializeProperty numberText stack key input = some text) :
    ∃ prepared, prepare key input = pure prepared ∧ (prepared.omitted = true → text = none) ∧
      (prepared.omitted || isUndefined prepared.value) = text.isNone ∧
      (input ≠ .plain .undefined → prepared.omitted = text.isNone) := by
  cases input with
  | plain v =>
    rw [serializeProperty] at h
    have homitted := isOmitted_eq h
    have hkept : false = true → text = none := fun h => absurd h Bool.false_ne_true
    cases v with
    | function =>
      exact ⟨⟨true, .function⟩, rfl, fun _ => Option.isNone_iff_eq_none.mp homitted.symm, homitted,
      fun _ => homitted⟩
    | symbol => cases hlike
    | bigint => cases hlike
    | undefined => exact ⟨⟨false, .undefined⟩, rfl, hkept, homitted, fun hne => absurd rfl hne⟩
    | null => exact ⟨⟨false, .null⟩, rfl, hkept, homitted, fun _ => homitted⟩
    | boolean b => exact ⟨⟨false, .boolean b⟩, rfl, hkept, homitted, fun _ => homitted⟩
    | number n => exact ⟨⟨false, .number n⟩, rfl, hkept, homitted, fun _ => homitted⟩
    | string s => exact ⟨⟨false, .string s⟩, rfl, hkept, homitted, fun _ => homitted⟩
    | array ref elements =>
      exact ⟨⟨false, .array ref elements⟩, rfl, hkept, homitted, fun _ => homitted⟩
    | object ref members =>
      exact ⟨⟨false, .object ref members⟩, rfl, hkept, homitted, fun _ => homitted⟩
  | hasToJSON call =>
    rw [JsonLikeInput] at hlike
    rw [serializeProperty] at h
    simp only [prepare]
    cases hcall : call key with
    | throws =>
      rw [hcall] at hlike
      cases hlike
    | returns v =>
      rw [hcall, serializeResult] at h
      have homitted := isOmitted_eq h
      refine ⟨⟨isOmitted v, v⟩, rfl, fun hv => ?_, ?_, fun _ => homitted⟩
      · exact Option.isNone_iff_eq_none.mp (homitted.symm.trans hv)
      · rw [← homitted]
        cases v <;> rfl

mutual

theorem walkPrepared_adds :
    (v : JsValue ν) → (stack : List Nat) → (inArray : Bool) → JsonLike stack v →
    ∃ text, serializeValue numberText stack v = some text ∧
      Adds limit (walkPrepared numberText limit stack inArray v) (written inArray text)
  | .undefined, _, true, _ => ⟨none, rfl, adds_add (by decide)⟩
  | .undefined, _, false, _ => ⟨none, rfl, adds_pure⟩
  | .function, _, true, _ => ⟨none, rfl, adds_add (by decide)⟩
  | .function, _, false, _ => ⟨none, rfl, adds_pure⟩
  | .null, _, _, _ => ⟨_, rfl, adds_add (by decide)⟩
  | .boolean true, _, _, _ => ⟨_, rfl, adds_add (by decide)⟩
  | .boolean false, _, _, _ => ⟨_, rfl, adds_add (by decide)⟩
  | .number n, _, _, _ => ⟨_, rfl, adds_add (numeral_pos _)⟩
  | .string s, _, _, _ => ⟨_, rfl, adds_string s⟩
  | .array ref elements, stack, inArray, hlike => by
    obtain ⟨texts, htexts, hadds⟩ := walkElements_adds elements (ref :: stack) 0 hlike.2
    refine ⟨_, by rw [serializeValue, if_neg hlike.1, htexts, Option.map_some], ?_⟩
    rw [walkPrepared, if_neg hlike.1]
    rw [written_enclosed rfl rfl]
    exact (adds_add Nat.one_pos).bind (hadds.bind (adds_add Nat.one_pos))
  | .object ref members, stack, inArray, hlike => by
    obtain ⟨texts, htexts, hadds⟩ := walkMembers_adds members (ref :: stack) 0 hlike.2
    refine ⟨_, by rw [serializeValue, if_neg hlike.1, htexts, Option.map_some], ?_⟩
    rw [walkPrepared, if_neg hlike.1]
    rw [written_enclosed rfl rfl]
    exact (adds_add Nat.one_pos).bind (hadds.bind (adds_add Nat.one_pos))

theorem walkInput_adds :
    (input : JsInput ν) → (stack : List Nat) → (inArray : Bool) → (key : PropertyKey) →
    JsonLikeInput stack key input →
    ∃ text, serializeProperty numberText stack key input = some text ∧
      Adds limit (walkInput numberText limit stack inArray key input) (written inArray text)
  | .plain v, stack, inArray, _, hlike => walkPrepared_adds v stack inArray hlike
  | .hasToJSON call, stack, inArray, key, hlike => walkResult_adds (call key) stack inArray hlike

theorem walkResult_adds :
    (result : JsResult ν) → (stack : List Nat) → (inArray : Bool) → JsonLikeResult stack result →
    ∃ text, serializeResult numberText stack result = some text ∧
      Adds limit (walkResult numberText limit stack inArray result) (written inArray text)
  | .returns v, stack, inArray, hlike => walkPrepared_adds v stack inArray hlike

theorem walkElements_adds : (elements : List (JsInput ν)) → (stack : List Nat) → (index : Nat) →
    JsonLikeElements stack index elements →
    ∃ texts, serializeElements numberText stack index elements = some texts ∧
      Adds limit (walkElements numberText limit stack index elements) (separated (0 < index) texts)
  | [], _, index, _ => ⟨[], rfl, by rw [separated_nil, walkElements]; exact adds_pure⟩
  | input :: rest, stack, index, hlike => by
    obtain ⟨text, htext, hinput⟩ := walkInput_adds input stack true (indexKey index) hlike.1
    obtain ⟨texts, htexts, hrest⟩ := walkElements_adds rest stack (index + 1) hlike.2
    obtain ⟨prepared, hprepared, homitted, -, -⟩ := prepare_eq hlike.1 htext
    refine ⟨_, by rw [serializeElements, htext, Option.bind_eq_bind, Option.bind_some, htexts]; rfl,
      ?_⟩
    have helement : Adds limit (if prepared.omitted = true then add limit 4
        else walkInput numberText limit stack true (indexKey index) input) (written true text) := by
      split
      next h =>
        rw [homitted h]
        exact adds_add (by decide)
      next => exact hinput
    have htextLength : byteLength (text.getD ['n', 'u', 'l', 'l']) = written true text := by
      cases text <;> rfl
    rw [decide_eq_true (Nat.succ_pos index)] at hrest
    rw [walkElements, separated_cons, htextLength, hprepared]
    simp only [pure_bind]
    exact (adds_separator _).bind (helement.bind hrest)

theorem walkMembers_adds :
    (members : List (PropertyKey × JsInput ν)) → (stack : List Nat) → (emitted : Nat) →
    JsonLikeMembers stack members →
    ∃ texts, serializeMembers numberText stack members = some texts ∧
      Adds limit (walkMembers numberText limit stack emitted members) (separated (0 < emitted) texts)
  | [], _, emitted, _ => ⟨[], rfl, by rw [separated_nil, walkMembers]; exact adds_pure⟩
  | (key, input) :: rest, stack, emitted, hlike => by
    obtain ⟨text, htext, hinput⟩ := walkInput_adds input stack false key hlike.1
    obtain ⟨prepared, hprepared, -, homitted, -⟩ := prepare_eq hlike.1 htext
    rw [walkMembers, hprepared, serializeMembers, htext, Option.bind_eq_bind, Option.bind_some]
    cases text with
    | none =>
      obtain ⟨texts, htexts, hrest⟩ := walkMembers_adds rest stack emitted hlike.2
      refine ⟨texts, by rw [htexts]; rfl, ?_⟩
      rw [pure_bind, homitted]
      exact hrest
    | some text =>
      obtain ⟨texts, htexts, hrest⟩ := walkMembers_adds rest stack (emitted + 1) hlike.2
      refine ⟨(quoteString key ++ ':' :: text) :: texts, by rw [htexts]; rfl, ?_⟩
      have hmember : byteLength (quoteString key ++ ':' :: text) + separated true texts =
          byteLength (quoteString key) +
          (1 + (written false (some text) + separated true texts)) := by
        rw [byteLength_append, byteLength_cons, written, show (':' : Char).utf8Size = 1 from rfl]
        omega
      rw [decide_eq_true (Nat.succ_pos emitted)] at hrest
      rw [pure_bind, homitted, separated_cons, hmember]
      exact (adds_separator _).bind
        ((adds_string key).bind ((adds_add Nat.one_pos).bind (hinput.bind hrest)))

end

theorem byteLength_pos {stack : List Nat} {v : JsValue ν} {t : Chars}
    (h : serializeValue numberText stack v = some (some t)) : 0 < byteLength t := by
  have hcons (c : Char) (t : Chars) : 0 < byteLength (c :: t) := by
    rw [byteLength_cons]
    exact Nat.add_pos_left c.utf8Size_pos _
  cases v with
  | boolean b => cases b <;> cases h <;> exact hcons _ _
  | null => cases h; exact hcons _ _
  | string s => cases h; exact hcons _ _
  | number n => cases h; exact numeral_pos _
  | array ref elements =>
    rw [serializeValue] at h
    split at h
    next => cases h
    next =>
      obtain ⟨texts, -, htexts⟩ := Option.map_eq_some_iff.mp h
      cases htexts
      exact hcons _ _
  | object ref members =>
    rw [serializeValue] at h
    split at h
    next => cases h
    next =>
      obtain ⟨texts, -, htexts⟩ := Option.map_eq_some_iff.mp h
      cases htexts
      exact hcons _ _
  | _ => cases h

theorem serialize_pos {value : JsInput ν} {t : Chars}
    (h : serialize numberText value = some (some t)) :
    0 < byteLength t := by
  rw [serialize] at h
  cases value with
  | plain v => exact byteLength_pos h
  | hasToJSON call =>
    rw [serializeProperty] at h
    cases hcall : call [] with
    | throws => rw [hcall] at h; cases h
    | returns v => rw [hcall] at h; exact byteLength_pos h

theorem managedJsonByteLengthWithin_eq (numberText : ν → Numeral) (limit : Limit) {value : JsInput ν}
    (hlike : JsonLikeInput [] [] value) (hvalue : value ≠ .plain .undefined) :
    ∃ text, serialize numberText value = some text ∧
      managedJsonByteLengthWithin numberText limit value =
        if text.any (fun t => limit.passed (byteLength t)) then .error .sentinel
          else .ok (text.map byteLength) := by
  obtain ⟨text, htext, hadds⟩ : ∃ text, serialize numberText value = some text ∧
      Adds limit (walkInput numberText limit [] false [] value) (written false text) :=
    walkInput_adds value [] false [] hlike
  obtain ⟨prepared, hprepared, -, -, homitted⟩ := prepare_eq hlike htext
  refine ⟨text, htext, ?_⟩
  have hwalk := hadds 0
  simp only [managedJsonByteLengthWithin, hprepared, pure_bind, homitted hvalue]
  cases text with
  | none => rfl
  | some t =>
    rw [Nat.zero_add, written] at hwalk
    simp only [serialize_pos htext, true_and] at hwalk
    have hbind : (walkInput numberText limit [] false [] value >>= fun _ =>
      pure true : Charging Bool) 0 =
        walkInput numberText limit [] false [] value 0 >>= fun r => Except.ok (true, r.2) := rfl
    simp only [Option.isNone_some, Bool.false_eq_true, if_false, hbind, hwalk, Option.any_some,
      Option.map_some]
    cases limit.passed (byteLength t) <;> rfl

end Walk

variable {ν : Type} {numberText : ν → Numeral}

/-- The oracle says the length of the text that `JSON.stringify` writes, and whether it is above a
limit. -/
theorem managedSnapshot_size_exact {value : JsInput ν} (hlike : JsonLikeInput [] [] value)
    (hvalue : value ≠ .plain .undefined) :
    ∃ text, serialize numberText value = some text ∧
      managedSnapshotJsonByteLength numberText value = .ok (text.map byteLength) ∧
      ∀ limit, managedSnapshotExceedsBytes numberText limit value = .over ↔
        ∃ t ∈ text, Limit.passed limit (byteLength t) = true := by
  obtain ⟨text, htext, hwithin⟩ := managedJsonByteLengthWithin_eq numberText none hlike hvalue
  refine ⟨text, htext, ?_, fun limit => ?_⟩
  · have hnever : text.any (fun t => Limit.passed none (byteLength t)) = false := by
      cases text <;> rfl
    rw [managedSnapshotJsonByteLength, hwithin, hnever]
    rfl
  · obtain ⟨text', htext', hwithin⟩ := managedJsonByteLengthWithin_eq numberText limit hlike hvalue
    cases htext.symm.trans htext'
    rw [managedSnapshotExceedsBytes, hwithin]
    cases text with
    | none => simp
    | some t => cases hpassed : limit.passed (byteLength t) <;> simp [hpassed]

/-- A hole, members that are left out, a `toJSON` with a lone surrogate and a control character, a
character of two units. -/
def sampleValue : JsInput Empty :=
  .plain (.array 0 [.plain .undefined, .plain .function,
    .hasToJSON fun _ => .returns (.string [0xd800, 0x22, 0x01, 0xd83d, 0xde00]),
    .plain (.object 1 [([0x61], .plain .undefined), ([0x62], .plain (.boolean true)),
      ([0x63], .plain .function)])])

theorem sampleValue_size : ∃ text, serialize Empty.elim sampleValue = some text ∧
    managedSnapshotJsonByteLength Empty.elim sampleValue = .ok (text.map byteLength) ∧
    ∀ limit, managedSnapshotExceedsBytes Empty.elim limit sampleValue = .over ↔
      ∃ t ∈ text, Limit.passed limit (byteLength t) = true :=
  managedSnapshot_size_exact
    (by simp [sampleValue, JsonLikeInput, JsonLike, JsonLikeElements, JsonLikeMembers, JsonLikeResult])
    (by simp [sampleValue])

end JevCode.Agent.ManagedSize
