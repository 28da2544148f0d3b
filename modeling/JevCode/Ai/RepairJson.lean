import JevCode.Text.Trim
import JevCode.Text.Utf16
import Mathlib.Data.List.TakeWhile
import Mathlib.Tactic.IntervalCases

/-! `ai/src/utils/json-parse.ts`: `repairJson` escapes what a JSON string may not hold. Texts are
lists of UTF-16 code units. The loop keeps an index, the index up to which text was emitted and the
parts emitted so far; `repairUnits` is the same scan read off the rest of the text. -/

namespace JevCode.Ai.RepairJson

open JevCode.Text (CodeUnit code units)

def quote : CodeUnit := 0x22
def backslash : CodeUnit := 0x5c
def letterU : CodeUnit := 0x75

def isValidEscapeChar (cp : CodeUnit) : Bool := cp ∈ units "\"\\/bfnrtu"

def padStart (n : Nat) (c : CodeUnit) (s : List CodeUnit) : List CodeUnit :=
  List.replicate (n - s.length) c ++ s

def controlEscape (cp : CodeUnit) : List CodeUnit :=
  if cp = 0x08 then units "\\b"
  else if cp = 0x09 then units "\\t"
  else if cp = 0x0a then units "\\n"
  else if cp = 0x0c then units "\\f"
  else if cp = 0x0d then units "\\r"
  else units "\\u" ++ padStart 4 (code '0') ((Nat.toDigits 16 cp.toNat).map code)

def isHexDigit (cp : CodeUnit) : Bool :=
  (0x30 ≤ cp && cp ≤ 0x39) || (0x61 ≤ cp ||| 0x20 && cp ||| 0x20 ≤ 0x66)

def slice (json : List CodeUnit) (a b : Nat) : List CodeUnit := (json.take b).drop a

def charCodeAt (json : List CodeUnit) (i : Nat) : CodeUnit := json.getD i 0

structure Scan where
  i : Nat
  lastEmit : Nat
  inString : Bool
  parts : List (List CodeUnit)

def Scan.start : Scan := ⟨0, 0, false, []⟩

def skipTo (stop : CodeUnit → Bool) (json : List CodeUnit) (i : Nat) : Nat :=
  i + ((json.drop i).takeWhile fun c => !stop c).length

def needsHandling (cp : CodeUnit) : Bool := cp < 0x20 || cp == quote || cp == backslash

def Scan.emit (s : Scan) (json : List CodeUnit) (i : Nat) (text : List CodeUnit) : Scan :=
  { s with parts := s.parts ++ [slice json s.lastEmit i, text], lastEmit := i + 1, i := i + 1 }

def Scan.round (json : List CodeUnit) (s : Scan) : Scan :=
  if !s.inString then
    let i := skipTo (· == quote) json s.i
    if json.length ≤ i then { s with i := i } else { s with i := i + 1, inString := true }
  else
    let i := skipTo needsHandling json s.i
    if json.length ≤ i then { s with i := i }
    else
      let cp := charCodeAt json i
      if cp == quote then { s with i := i + 1, inString := false }
      else if cp == backslash then
        if json.length ≤ i + 1 then s.emit json i [backslash, backslash]
        else
          let nextCp := charCodeAt json (i + 1)
          if nextCp == letterU then
            if i + 5 < json.length && isHexDigit (charCodeAt json (i + 2)) &&
              isHexDigit (charCodeAt json (i + 3)) &&
                isHexDigit (charCodeAt json (i + 4)) && isHexDigit (charCodeAt json (i + 5)) then
              { s with i := i + 6 }
            -- a truncated escape: the backslash is escaped and the rest is scanned again
            else s.emit json i [backslash, backslash]
          else if nextCp < 128 && isValidEscapeChar nextCp then { s with i := i + 2 }
          else s.emit json i [backslash, backslash]
      else s.emit json i (controlEscape cp)

theorem le_skipTo (stop : CodeUnit → Bool) (json : List CodeUnit) (i : Nat) :
    i ≤ skipTo stop json i :=
  Nat.le_add_right _ _

theorem Scan.lt_round {json : List CodeUnit} {s : Scan} (h : s.i < json.length) :
    s.i < (s.round json).i := by
  have hq := le_skipTo (· == quote) json s.i
  have hn := le_skipTo needsHandling json s.i
  unfold round
  repeat' (first | split | simp only [emit] | omega)

def Scan.run (json : List CodeUnit) (s : Scan) : Scan :=
  if s.i < json.length then Scan.run json (s.round json) else s
termination_by json.length - s.i
decreasing_by
  rename_i h
  have := Scan.lt_round h
  omega

def repairJson (json : List CodeUnit) : List CodeUnit :=
  let s := Scan.start.run json
  if s.parts.isEmpty then json
  else if s.lastEmit < json.length then (s.parts ++ [json.drop s.lastEmit]).flatten
  else s.parts.flatten

def fourHexDigits : List CodeUnit → Bool
  | a :: b :: c :: d :: _ => isHexDigit a && isHexDigit b && isHexDigit c && isHexDigit d
  | _ => false

def escapeLength : List CodeUnit → Nat
  | [] => 0
  | c :: t =>
    if c == letterU then if fourHexDigits t then 5 else 0
    else if isValidEscapeChar c then 1 else 0

def repairUnits : Bool → List CodeUnit → List CodeUnit
  | _, [] => []
  | false, c :: t => c :: repairUnits (c == quote) t
  | true, c :: t =>
    if c == quote then c :: repairUnits false t
    else if c == backslash then
      if escapeLength t = 0 then backslash :: backslash :: repairUnits true t
      else c :: (t.take (escapeLength t) ++ repairUnits true (t.drop (escapeLength t)))
    else if c < 0x20 then controlEscape c ++ repairUnits true t
    else c :: repairUnits true t
termination_by _ t => t.length
decreasing_by all_goals simp only [List.length_cons, List.length_drop]; omega

open JevCode.Text (CodeUnit code units forall_mem_of_all)

theorem drop_eq_cons {json : List CodeUnit} {i : Nat} (h : i < json.length) :
    json.drop i = charCodeAt json i :: json.drop (i + 1) := by
  rw [List.drop_eq_getElem_cons h, charCodeAt, List.getD_eq_getElem?_getD,
    List.getElem?_eq_getElem h, Option.getD_some]

theorem slice_append_take {json : List CodeUnit} {a i : Nat} (h : a ≤ i) (n : Nat) :
    slice json a i ++ (json.drop i).take n = slice json a (i + n) := by
  rw [slice, slice, List.take_add, List.drop_append, List.length_take]
  rcases Nat.le_total i json.length with hi | hi
  · rw [Nat.min_eq_left hi, Nat.sub_eq_zero_of_le h, List.drop_zero]
  · rw [List.drop_eq_nil_of_le hi, List.take_nil, List.drop_nil]

theorem slice_self {json : List CodeUnit} (i : Nat) : slice json i i = [] := by
  rw [slice, List.drop_eq_nil_iff, List.length_take]
  exact Nat.min_le_left ..

theorem drop_skipTo (stop : CodeUnit → Bool) (json : List CodeUnit) (i : Nat) :
    json.drop (skipTo stop json i) = (json.drop i).dropWhile fun c => !stop c := by
  rw [skipTo, ← List.drop_drop]
  calc (json.drop i).drop ((json.drop i).takeWhile fun c => !stop c).length
      = ((json.drop i).takeWhile (fun c => !stop c) ++ (json.drop i).dropWhile fun c => !stop c).drop
          ((json.drop i).takeWhile fun c => !stop c).length := by
          rw [List.takeWhile_append_dropWhile]
    _ = (json.drop i).dropWhile fun c => !stop c := List.drop_left

theorem slice_skipTo {json : List CodeUnit} {a i : Nat} (h : a ≤ i) (stop : CodeUnit → Bool) :
    slice json a (skipTo stop json i) = slice json a i ++ (json.drop i).takeWhile fun c =>
      !stop c := by
  rw [skipTo, ← slice_append_take h, ← List.prefix_iff_eq_take.mp (List.takeWhile_prefix _)]

theorem skipTo_le {json : List CodeUnit} {i : Nat} (h : i ≤ json.length) (stop : CodeUnit → Bool) :
    skipTo stop json i ≤ json.length := by
  have := (List.takeWhile_prefix (l := json.drop i) fun c => !stop c).length_le
  rw [List.length_drop] at this
  rw [skipTo]
  omega

theorem stop_charCodeAt_skipTo {stop : CodeUnit → Bool} {json : List CodeUnit} {i : Nat}
    (h : skipTo stop json i < json.length) : stop (charCodeAt json (skipTo stop json i)) = true := by
  have hd := drop_skipTo stop json i
  rw [drop_eq_cons h] at hd
  have := List.head?_dropWhile_not (fun c => !stop c) (json.drop i)
  rw [← hd] at this
  simpa using this

theorem repairUnits_false_skip (t : List CodeUnit) :
    repairUnits false t =
      (t.takeWhile fun c => !(c == quote)) ++ repairUnits false
      (t.dropWhile fun c => !(c == quote)) := by
  induction t with
  | nil => rfl
  | cons c t ih =>
    by_cases hc : c == quote
    · simp [hc]
    · rw [List.takeWhile_cons, List.dropWhile_cons]
      simp only [hc, Bool.not_false, if_true, List.cons_append]
      rw [← ih, repairUnits]
      simp [hc]

theorem repairUnits_true_cons {c : CodeUnit} (h : needsHandling c = false) (t : List CodeUnit) :
    repairUnits true (c :: t) = c :: repairUnits true t := by
  simp only [needsHandling, Bool.or_eq_false_iff, decide_eq_false_iff_not] at h
  obtain ⟨⟨hc, hq⟩, hb⟩ := h
  rw [repairUnits]
  simp [hc, hq, hb]

theorem repairUnits_true_skip (t : List CodeUnit) :
    repairUnits true t =
      (t.takeWhile fun c => !needsHandling c) ++ repairUnits true
      (t.dropWhile fun c => !needsHandling c) := by
  induction t with
  | nil => rfl
  | cons c t ih =>
    cases hc : needsHandling c with
    | true => simp [hc]
    | false =>
      rw [List.takeWhile_cons, List.dropWhile_cons]
      simp only [hc, Bool.not_false, if_true, List.cons_append]
      rw [← ih, repairUnits_true_cons hc]

def Scan.total (json : List CodeUnit) (s : Scan) : List CodeUnit :=
  s.parts.flatten ++ (slice json s.lastEmit s.i ++ repairUnits s.inString (json.drop s.i))

structure Scan.WellFormed (json : List CodeUnit) (s : Scan) : Prop where
  emitted : s.lastEmit ≤ s.i
  inText : s.i ≤ json.length

theorem isValidEscapeChar_lt {c : CodeUnit} (h : isValidEscapeChar c = true) : c < 128 := by
  have hall : ∀ c ∈ units "\"\\/bfnrtu", c < 128 := forall_mem_of_all (by decide)
  exact hall c (by simpa [isValidEscapeChar] using h)

theorem fourHexDigits_drop (json : List CodeUnit) (i : Nat) :
    fourHexDigits (json.drop i) =
      (i + 3 < json.length && isHexDigit (charCodeAt json i) &&
        isHexDigit (charCodeAt json (i + 1)) &&
        isHexDigit (charCodeAt json (i + 2)) && isHexDigit (charCodeAt json (i + 3))) := by
  by_cases h3 : i + 3 < json.length
  · rw [drop_eq_cons (show i < json.length by omega),
      drop_eq_cons (show i + 1 < json.length by omega),
      drop_eq_cons (show i + 2 < json.length by omega), drop_eq_cons h3]
    simp [fourHexDigits, h3]
  · have hlen : (json.drop i).length < 4 := by
      rw [List.length_drop]
      omega
    simp only [h3, decide_false, Bool.false_and]
    match json.drop i, hlen with
    | [], _ => rfl
    | [_], _ => rfl
    | [_, _], _ => rfl
    | [_, _, _], _ => rfl

theorem escapeLength_drop {json : List CodeUnit} {i : Nat} (h : i + 1 < json.length) :
    escapeLength (json.drop (i + 1)) =
      if charCodeAt json (i + 1) == letterU then
        if i + 5 < json.length && isHexDigit (charCodeAt json (i + 2)) &&
          isHexDigit (charCodeAt json (i + 3)) &&
            isHexDigit (charCodeAt json (i + 4)) && isHexDigit (charCodeAt json (i + 5)) then 5
        else 0
      else if charCodeAt json (i + 1) < 128 && isValidEscapeChar (charCodeAt json (i + 1)) then 1
      else 0 := by
  rw [drop_eq_cons h, escapeLength]
  split
  · rw [fourHexDigits_drop]
  · cases hv : isValidEscapeChar (charCodeAt json (i + 1)) with
    | true => simp [isValidEscapeChar_lt hv]
    | false => simp

theorem Scan.total_emit {json : List CodeUnit} {s : Scan} {i : Nat} (text : List CodeUnit) :
    (s.emit json i text).total json =
      s.parts.flatten ++ (slice json s.lastEmit i ++
        (text ++ repairUnits s.inString (json.drop (i + 1)))) := by
  simp [Scan.total, Scan.emit, slice_self]

theorem Scan.total_advance {json : List CodeUnit} {s : Scan} {i : Nat} (h : s.lastEmit ≤ i)
    (n : Nat) (b : Bool) :
    Scan.total json { s with i := i + n, inString := b } =
      s.parts.flatten ++ (slice json s.lastEmit i ++
      ((json.drop i).take n ++ repairUnits b (json.drop (i + n)))) := by
  simp only [Scan.total]
  rw [← slice_append_take h, List.append_assoc]

theorem Scan.total_skip_false {json : List CodeUnit} {s : Scan} (h : s.lastEmit ≤ s.i)
    (hs : s.inString = false) :
    s.total json = Scan.total json { s with i := skipTo (· == quote) json s.i } := by
  simp only [Scan.total, hs]
  rw [slice_skipTo h, drop_skipTo, repairUnits_false_skip, List.append_assoc]

theorem Scan.total_skip_true {json : List CodeUnit} {s : Scan} (h : s.lastEmit ≤ s.i)
    (hs : s.inString = true) :
    s.total json = Scan.total json { s with i := skipTo needsHandling json s.i } := by
  simp only [Scan.total, hs]
  rw [slice_skipTo h, drop_skipTo, repairUnits_true_skip, List.append_assoc]

theorem Scan.wellFormed_round {json : List CodeUnit} {s : Scan} (h : s.WellFormed json) :
    (s.round json).WellFormed json := by
  obtain ⟨he, hi⟩ := h
  have hq := skipTo_le hi (· == quote)
  have hq' := le_skipTo (· == quote) json s.i
  have hn := skipTo_le hi needsHandling
  have hn' := le_skipTo needsHandling json s.i
  unfold round
  simp only
  split_ifs with _ _ _ _ _ _ _ h5 <;> try simp only [Bool.and_eq_true, decide_eq_true_eq] at h5
  all_goals constructor <;> simp only [emit] <;> omega

theorem repairUnits_quote (b : Bool) (t : List CodeUnit) :
    repairUnits b (quote :: t) = quote :: repairUnits (!b) t := by
  cases b <;> simp [repairUnits]

theorem repairUnits_invalid_escape {t : List CodeUnit} (h : escapeLength t = 0) :
    repairUnits true (backslash :: t) = [backslash, backslash] ++ repairUnits true t := by
  rw [repairUnits]
  simp [h, show ¬ backslash = quote by decide]

theorem repairUnits_escape {t : List CodeUnit} {n : Nat} (h : escapeLength t = n + 1) :
    repairUnits true (backslash :: t) = (backslash :: t).take (n + 2) ++
      repairUnits true (t.drop (n + 1)) := by
  rw [repairUnits]
  simp [h, show ¬ backslash = quote by decide]

theorem repairUnits_control {c : CodeUnit} (h : c < 0x20) (t : List CodeUnit) :
    repairUnits true (c :: t) = controlEscape c ++ repairUnits true t := by
  have hq : ¬ c = quote := by rintro rfl; revert h; decide
  have hb : ¬ c = backslash := by rintro rfl; revert h; decide
  rw [repairUnits]
  simp [h, hq, hb]

theorem Scan.total_round_outside {json : List CodeUnit} {s : Scan} (h : s.WellFormed json)
    (hs : s.inString = false) :
    (s.round json).total json = s.total json := by
  have hle := h.emitted.trans (le_skipTo (· == quote) json s.i)
  have hstop := @stop_charCodeAt_skipTo (· == quote) json s.i
  rw [total_skip_false h.emitted hs, round]
  generalize skipTo (· == quote) json s.i = i at *
  simp only [hs, Bool.not_false, if_true]
  split
  · rfl
  next hlt =>
  have hilt : i < json.length := by omega
  have hc := beq_iff_eq.mp (hstop hilt)
  rw [total_advance hle, drop_eq_cons hilt, hc]
  simp only [Scan.total]
  rw [drop_eq_cons hilt, hc, repairUnits_quote]
  rfl

theorem Scan.total_round_inside {json : List CodeUnit} {s : Scan} (h : s.WellFormed json)
    (hs : s.inString = true) :
    (s.round json).total json = s.total json := by
  have hle := h.emitted.trans (le_skipTo needsHandling json s.i)
  have hstop := @stop_charCodeAt_skipTo needsHandling json s.i
  rw [total_skip_true h.emitted hs, round]
  generalize skipTo needsHandling json s.i = i at *
  simp only [hs, Bool.not_true, Bool.false_eq_true, if_false]
  split
  · rfl
  next hlt =>
  have hilt : i < json.length := by omega
  have hc := hstop hilt
  have htotal : Scan.total json { s with i := i, inString := true } = s.parts.flatten ++
    (slice json s.lastEmit i ++
      repairUnits true (charCodeAt json i :: json.drop (i + 1))) := by
    rw [← drop_eq_cons hilt]
    rfl
  rw [htotal]
  split
  · next hq =>
    rw [beq_iff_eq] at hq
    rw [total_advance hle, drop_eq_cons hilt, hq, repairUnits_quote]
    rfl
  next hq =>
  split
  · next hb =>
    rw [beq_iff_eq] at hb
    rw [hb]
    split
    · next hend =>
      rw [total_emit, hs, repairUnits_invalid_escape (by rw [List.drop_eq_nil_of_le hend]; rfl)]
    next hnext =>
    have hlen := escapeLength_drop (show i + 1 < json.length by omega)
    split
    · next hu =>
      rw [if_pos hu] at hlen
      split
      · next hhex =>
        rw [if_pos hhex] at hlen
        rw [total_advance hle, drop_eq_cons hilt, hb, repairUnits_escape hlen, List.drop_drop]
      · next hhex =>
        rw [if_neg hhex] at hlen
        rw [total_emit, hs, repairUnits_invalid_escape hlen]
    · next hu =>
      rw [if_neg hu] at hlen
      split
      · next hv =>
        rw [if_pos hv] at hlen
        rw [total_advance hle, drop_eq_cons hilt, hb, repairUnits_escape hlen, List.drop_drop]
      · next hv =>
        rw [if_neg hv] at hlen
        rw [total_emit, hs, repairUnits_invalid_escape hlen]
  · next hb =>
    have hcontrol : charCodeAt json i < 0x20 := by simpa [needsHandling, hq, hb] using hc
    rw [total_emit, hs, repairUnits_control hcontrol]

theorem Scan.total_round {json : List CodeUnit} {s : Scan} (h : s.WellFormed json) :
    (s.round json).total json = s.total json := by
  cases hs : s.inString with
  | false => exact total_round_outside h hs
  | true => exact total_round_inside h hs

theorem Scan.lastEmit_round {json : List CodeUnit} {s : Scan} (h : s.parts = [] → s.lastEmit = 0) :
    (s.round json).parts = [] → (s.round json).lastEmit = 0 := by
  unfold round
  simp only
  split_ifs <;> first | exact h | simp [emit]

theorem Scan.total_run {json : List CodeUnit} {s : Scan} (h : s.WellFormed json)
    (hp : s.parts = [] → s.lastEmit = 0) :
    (s.run json).total json = s.total json ∧ (s.run json).i = json.length ∧
      ((s.run json).parts = [] → (s.run json).lastEmit = 0) := by
  fun_induction Scan.run json s with
  | case1 s hlt ih =>
    rw [← total_round h]
    exact ih (wellFormed_round h) (lastEmit_round hp)
  | case2 s hge => exact ⟨rfl, Nat.le_antisymm h.inText (Nat.not_lt.mp hge), hp⟩

theorem repairJson_eq (json : List CodeUnit) : repairJson json = repairUnits false json := by
  have hstart : Scan.start.WellFormed json := ⟨Nat.le_refl _, Nat.zero_le _⟩
  obtain ⟨htotal, hi, hp⟩ := Scan.total_run hstart fun _ => rfl
  have hstart' : Scan.start.total json = repairUnits false json := by
    simp [Scan.total, Scan.start, slice]
  have hend : (Scan.start.run json).parts.flatten ++ json.drop (Scan.start.run json).lastEmit =
      repairUnits false json := by
    rw [← hstart', ← htotal, Scan.total, hi, slice, List.take_length, List.drop_length]
    simp [repairUnits]
  unfold repairJson
  generalize Scan.start.run json = s at hend hp
  simp only
  split
  · next hempty =>
    rw [List.isEmpty_iff] at hempty
    rw [hempty, hp hempty] at hend
    simpa using hend
  · split
    · simpa using hend
    · next hge =>
      rw [List.drop_eq_nil_of_le (Nat.not_lt.mp hge), List.append_nil] at hend
      exact hend

def Kept (b b' : Bool) (t : List CodeUnit) : Prop :=
  ∀ r, repairUnits b (t ++ r) = t ++ repairUnits b' r

theorem Kept.nil (b : Bool) : Kept b b [] := fun _ => rfl

theorem Kept.append {a b c : Bool} {t u : List CodeUnit} (ht : Kept a b t) (hu : Kept b c u) :
    Kept a c (t ++ u) := by
  intro r
  rw [List.append_assoc, ht, hu, List.append_assoc]

theorem Kept.cons {a b c : Bool} {x : CodeUnit} {u : List CodeUnit} (hx : Kept a b [x])
    (hu : Kept b c u) :
    Kept a c (x :: u) :=
  hx.append hu

theorem Kept.eq {b b' : Bool} {t : List CodeUnit} (h : Kept b b' t) : repairUnits b t = t := by
  have := h []
  rwa [List.append_nil, repairUnits, List.append_nil] at this

theorem kept_quote (b : Bool) : Kept b (!b) [quote] := repairUnits_quote b

theorem kept_outside {c : CodeUnit} (h : c ≠ quote) : Kept false false [c] := by
  intro r
  rw [List.singleton_append, repairUnits, beq_eq_false_iff_ne.mpr h]
  rfl

theorem kept_outside_of_notMem {t : List CodeUnit} (h : quote ∉ t) : Kept false false t := by
  induction t with
  | nil => exact Kept.nil _
  | cons c t ih =>
    rw [List.mem_cons, not_or] at h
    exact (kept_outside (Ne.symm h.1)).cons (ih h.2)

theorem kept_inside {c : CodeUnit} (h : needsHandling c = false) : Kept true true [c] :=
  repairUnits_true_cons h

theorem kept_simple_escape {c : CodeUnit} (h : isValidEscapeChar c = true) (hu : c ≠ letterU) :
    Kept true true [backslash, c] := by
  intro r
  have hlen : escapeLength (c :: r) = 0 + 1 := by simp [escapeLength, h, hu]
  exact repairUnits_escape hlen

theorem kept_unicode_escape {a b c d : CodeUnit} (h : fourHexDigits [a, b, c, d] = true) :
    Kept true true [backslash, letterU, a, b, c, d] := by
  intro r
  have hhex : fourHexDigits (a :: b :: c :: d :: r) = true := h
  have hlen : escapeLength (letterU :: a :: b :: c :: d :: r) = 4 + 1 := by simp [escapeLength, hhex]
  exact repairUnits_escape hlen

theorem kept_escape {t : List CodeUnit} {n : Nat} (h : escapeLength t = n + 1) :
    Kept true true (backslash :: t.take (n + 1)) := by
  match t with
  | [] => simp [escapeLength] at h
  | c :: t =>
    rw [escapeLength] at h
    split at h
    · next hu =>
      split at h
      · next hhex =>
        match t with
        | a :: b :: c :: d :: _ =>
          obtain rfl : n = 4 := by omega
          rw [beq_iff_eq.mp hu]
          exact kept_unicode_escape hhex
      · omega
    · next hu =>
      split at h
      · next hv =>
        obtain rfl : n = 0 := by omega
        exact kept_simple_escape hv (by simpa using hu)
      · omega

theorem kept_controlEscape {c : CodeUnit} (h : c < 0x20) : Kept true true (controlEscape c) := by
  have htable : ∀ n : Fin 32, controlEscape (.ofNat n) = [backslash, letterU] ++
      (controlEscape (.ofNat n)).drop 2 ∧
      (controlEscape (.ofNat n)).length = 6 ∧
      fourHexDigits ((controlEscape (.ofNat n)).drop 2) = true ∨
      ∃ x ∈ units "bfnrt", controlEscape (.ofNat n) = [backslash, x] := by decide
  have hvalid : ∀ x ∈ units "bfnrt", isValidEscapeChar x = true ∧ x ≠ letterU :=
    forall_mem_of_all (by decide)
  have hc : c.toNat < 32 := h
  have hof : (UInt16.ofNat c.toNat) = c := UInt16.ofNat_toNat
  rcases htable ⟨c.toNat, hc⟩ with ⟨heq, hlen, hhex⟩ | ⟨x, hx, heq⟩
  · simp only [hof] at heq hlen hhex
    match hd : (controlEscape c).drop 2 with
    | [a, b, c', d] =>
      rw [heq, hd]
      exact kept_unicode_escape (hd ▸ hhex)
    | [] | [_] | [_, _] | [_, _, _] | _ :: _ :: _ :: _ :: _ :: _ =>
      have := congrArg List.length hd
      rw [List.length_drop, hlen] at this
      simp at this
  · simp only [hof] at heq
    rw [heq]
    exact kept_simple_escape (hvalid x hx).1 (hvalid x hx).2

theorem exists_kept_repairUnits (b : Bool) (t : List CodeUnit) :
    ∃ b', Kept b b' (repairUnits b t) := by
  fun_induction repairUnits b t with
  | case1 b => exact ⟨b, Kept.nil b⟩
  | case2 c t ih =>
    obtain ⟨b', ih⟩ := ih
    by_cases hc : c = quote
    · subst hc
      exact ⟨b', (kept_quote false).cons ih⟩
    · rw [beq_eq_false_iff_ne.mpr hc] at ih ⊢
      exact ⟨b', (kept_outside hc).cons ih⟩
  | case3 c t hq ih =>
    obtain ⟨b', ih⟩ := ih
    rw [beq_iff_eq.mp hq]
    exact ⟨b', (kept_quote true).cons ih⟩
  | case4 c t hq hb hlen ih =>
    obtain ⟨b', ih⟩ := ih
    exact ⟨b', (kept_simple_escape (c := backslash) (by decide) (by decide)).append ih⟩
  | case5 c t hq hb hlen ih =>
    obtain ⟨b', ih⟩ := ih
    obtain ⟨n, hn⟩ := Nat.exists_eq_succ_of_ne_zero hlen
    rw [beq_iff_eq.mp hb, hn, ← List.cons_append]
    rw [hn] at ih
    exact ⟨b', (kept_escape hn).append ih⟩
  | case6 c t hq hb hc ih =>
    obtain ⟨b', ih⟩ := ih
    exact ⟨b', (kept_controlEscape hc).append ih⟩
  | case7 c t hq hb hc ih =>
    obtain ⟨b', ih⟩ := ih
    exact ⟨b', (kept_inside (by simp [needsHandling, hq, hb, hc])).cons ih⟩

inductive StringChars : List CodeUnit → Prop
  | nil : StringChars []
  | char {c t} : 0x20 ≤ c → c ≠ code '"' → c ≠ code '\\' → StringChars t → StringChars (c :: t)
  | escape {c t} : c ∈ units "\"\\/bfnrt" → StringChars t → StringChars (code '\\' :: c :: t)
  | unicode {a b c d t} : (∀ x ∈ [a, b, c, d], x ∈ units "0123456789abcdefABCDEF") → StringChars t →
      StringChars (code '\\' :: code 'u' :: a :: b :: c :: d :: t)

def Whitespace (t : List CodeUnit) : Prop := ∀ c ∈ t, c ∈ units " \n\r\t"

def Digits (t : List CodeUnit) : Prop := t ≠ [] ∧ ∀ c ∈ t, c ∈ units "0123456789"

def Number (t : List CodeUnit) : Prop :=
  ∃ sign int frac exp, t = sign ++ int ++ frac ++ exp ∧ sign ∈ [[], units "-"] ∧
    Digits int ∧ (int.head? = some (code '0') → int = units "0") ∧
    (frac = [] ∨ ∃ d, frac = units "." ++ d ∧ Digits d) ∧
    (exp = [] ∨ ∃ e ∈ [units "e", units "E"], ∃ s ∈ [[], units "+", units "-"], ∃ d,
      exp = e ++ s ++ d ∧ Digits d)

inductive Symbol
  | value | element | elements | member | members

inductive Derives : Symbol → List CodeUnit → Prop
  | literal {t} : t ∈ [units "true", units "false", units "null"] → Derives .value t
  | number {t} : Number t → Derives .value t
  | string {t} : StringChars t → Derives .value ([code '"'] ++ t ++ [code '"'])
  | emptyArray {w} : Whitespace w → Derives .value (units "[" ++ w ++ units "]")
  | array {t} : Derives .elements t → Derives .value (units "[" ++ t ++ units "]")
  | emptyObject {w} : Whitespace w → Derives .value (units "\x7b" ++ w ++ units "\x7d")
  | object {t} : Derives .members t → Derives .value (units "\x7b" ++ t ++ units "\x7d")
  | element {w t w'} : Whitespace w → Derives .value t → Whitespace w' →
    Derives .element (w ++ t ++ w')
  | lastElement {t} : Derives .element t → Derives .elements t
  | elements {t u} : Derives .element t → Derives .elements u →
    Derives .elements (t ++ units "," ++ u)
  | member {w k w' t} : Whitespace w → StringChars k → Whitespace w' → Derives .element t →
      Derives .member (w ++ ([code '"'] ++ k ++ [code '"']) ++ w' ++ units ":" ++ t)
  | lastMember {t} : Derives .member t → Derives .members t
  | members {t u} : Derives .member t → Derives .members u → Derives .members (t ++ units "," ++ u)

def ValidJson (t : List CodeUnit) : Prop := Derives .element t

theorem kept_stringChars {t : List CodeUnit} (h : StringChars t) : Kept true true t := by
  induction h with
  | nil => exact Kept.nil _
  | @char c t hc hq hb _ ih =>
    have hn : needsHandling c = false := by
      simp only [needsHandling, Bool.or_eq_false_iff, decide_eq_false_iff_not, UInt16.not_lt,
        beq_eq_false_iff_ne]
      exact ⟨⟨hc, hq⟩, hb⟩
    exact (kept_inside hn).cons ih
  | @escape c t hc _ ih =>
    have hvalid : ∀ x ∈ units "\"\\/bfnrt", isValidEscapeChar x = true ∧ x ≠ letterU :=
      forall_mem_of_all (by decide)
    exact (kept_simple_escape (hvalid c hc).1 (hvalid c hc).2).append ih
  | @unicode a b c d t hx _ ih =>
    have hhex : ∀ x ∈ units "0123456789abcdefABCDEF", isHexDigit x = true :=
      forall_mem_of_all (by decide)
    have h4 : fourHexDigits [a, b, c, d] = true := by
      simp [fourHexDigits, hhex a (hx a (by simp)), hhex b (hx b (by simp)), hhex c (hx c (by simp)),
        hhex d (hx d (by simp))]
    exact (kept_unicode_escape h4).append ih

theorem kept_string {t : List CodeUnit} (h : StringChars t) :
    Kept false false ([code '"'] ++ t ++ [code '"']) :=
  ((kept_quote false).append (kept_stringChars h)).append (kept_quote true)

theorem kept_of_subset {t : List CodeUnit} {s : String} (hs : quote ∉ units s)
    (h : ∀ c ∈ t, c ∈ units s) :
    Kept false false t :=
  kept_outside_of_notMem fun hq => hs (h _ hq)

theorem Whitespace.kept {t : List CodeUnit} (h : Whitespace t) : Kept false false t :=
  kept_of_subset (by decide) h

theorem Digits.kept {t : List CodeUnit} (h : Digits t) : Kept false false t :=
  kept_of_subset (by decide) h.2

theorem Number.kept {t : List CodeUnit} (h : Number t) : Kept false false t := by
  obtain ⟨sign, int, frac, exp, rfl, hsign, hint, -, hfrac, hexp⟩ := h
  have hs : ∀ s ∈ [[], units "+", units "-"], Kept false false s := by
    intro s hs
    apply kept_outside_of_notMem
    revert s
    decide
  have hsign' : sign ∈ [[], units "+", units "-"] := by
    simp only [List.mem_cons] at hsign ⊢
    tauto
  have hfrac' : Kept false false frac := by
    rcases hfrac with rfl | ⟨d, rfl, hd⟩
    · exact Kept.nil _
    · exact (kept_outside (by decide)).append hd.kept
  have hexp' : Kept false false exp := by
    rcases hexp with rfl | ⟨e, he, s, hs', d, rfl, hd⟩
    · exact Kept.nil _
    · have hletter : ∀ e ∈ [units "e", units "E"], quote ∉ e := by decide
      exact ((kept_outside_of_notMem (hletter e he)).append (hs s hs')).append hd.kept
  exact (((hs sign hsign').append hint.kept).append hfrac').append hexp'

theorem Derives.kept {s : Symbol} {t : List CodeUnit} (h : Derives s t) : Kept false false t := by
  induction h with
  | @literal t ht =>
    apply kept_outside_of_notMem
    revert t
    decide
  | number h => exact h.kept
  | string h => exact kept_string h
  | emptyArray h =>
    exact ((kept_outside (by decide)).append h.kept).append (kept_outside (by decide))
  | array _ ih => exact ((kept_outside (by decide)).append ih).append (kept_outside (by decide))
  | emptyObject h =>
    exact ((kept_outside (by decide)).append h.kept).append (kept_outside (by decide))
  | object _ ih => exact ((kept_outside (by decide)).append ih).append (kept_outside (by decide))
  | element hw _ hw' ih => exact (hw.kept.append ih).append hw'.kept
  | lastElement _ ih => exact ih
  | elements _ _ ih ih' => exact (ih.append (kept_outside (by decide))).append ih'
  | member hw hk hw' _ ih =>
    exact (((hw.kept.append (kept_string hk)).append hw'.kept).append
      (kept_outside (by decide))).append ih
  | lastMember _ ih => exact ih
  | members _ _ ih ih' => exact (ih.append (kept_outside (by decide))).append ih'

theorem repairJson_stable (s : List CodeUnit) :
    (ValidJson s → repairJson s = s) ∧ repairJson (repairJson s) = repairJson s := by
  constructor
  · intro h
    rw [repairJson_eq]
    exact h.kept.eq
  · obtain ⟨b, h⟩ := exists_kept_repairUnits false s
    rw [repairJson_eq, repairJson_eq]
    exact h.eq

theorem repairJson_stable_member :
    ValidJson (units "\x7b\"\\n\":1\x7d") ∧
      repairJson (units "\x7b\"\\n\":1\x7d") = units "\x7b\"\\n\":1\x7d" := by
  have hws : Whitespace [] := by simp [Whitespace]
  have hone : Derives .element (units "1") := by
    have hdigits : Digits (units "1") := ⟨by decide, forall_mem_of_all (by decide)⟩
    have hnum : Number (units "1") :=
      ⟨[], units "1", [], [], rfl, by simp, hdigits, by decide, .inl rfl, .inl rfl⟩
    simpa using Derives.element hws (.number hnum) hws
  have hkey : StringChars (units "\\n") := .escape (by decide) .nil
  have hvalid := Derives.element hws (.object (.lastMember (.member hws hkey hws hone))) hws
  have htext : [] ++ (units "\x7b" ++
      ([] ++ ([code '"'] ++ units "\\n" ++ [code '"']) ++ [] ++ units ":" ++ units "1") ++
      units "\x7d") ++ [] = units "\x7b\"\\n\":1\x7d" := by decide
  rw [htext] at hvalid
  exact ⟨hvalid, (repairJson_stable _).1 hvalid⟩

end JevCode.Ai.RepairJson
