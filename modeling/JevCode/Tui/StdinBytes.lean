import JevCode.Text.CodePoints
import JevCode.Text.TextDecoder
import JevCode.Tui.StdinConservation

namespace JevCode.Tui

open JevCode.Text (Utf8State charUnits replacement)

def isUtf8LeadByte (byte : UInt8) : Bool := 0xc2 ≤ byte.toNat && byte.toNat ≤ 0xf4

def isUtf8ContinuationByte (byte : UInt8) : Bool := 0x80 ≤ byte.toNat && byte.toNat ≤ 0xbf

def expectedLength (lead : UInt8) : Nat :=
  if 0xc2 ≤ lead.toNat ∧ lead.toNat ≤ 0xdf then 2
  else if 0xe0 ≤ lead.toNat ∧ lead.toNat ≤ 0xef then 3
  else if 0xf0 ≤ lead.toNat ∧ lead.toNat ≤ 0xf4 then 4
  else 0

def endsWithIncompleteUtf8Sequence (data : List UInt8) : Bool :=
  let continuationCount := (data.reverse.takeWhile isUtf8ContinuationByte).length
  match data.reverse.dropWhile isUtf8ContinuationByte with
  | [] => 0 < continuationCount
  | lead :: _ => 0 < expectedLength lead && continuationCount + 1 < expectedLength lead

def legacyMetaSequence (byte : UInt8) : List CodeUnit := [esc, .ofNat (byte.toNat - 128)]

/-- `decoder.write(bytes)` of a `StringDecoder` for UTF-8, which keeps the beginning of a character.
-/
def StringDecoder.write (decoder : Utf8State) (bytes : List UInt8) : Utf8State × List CodeUnit :=
  ((decoder.run bytes).1,
    (decoder.run bytes).2.flatMap fun item => charUnits (item.getD replacement))

structure RawStdinBuffer extends StdinBuffer where
  decoder : Utf8State
  decoderHasPendingUtf8 : Bool
  pendingSingleUtf8LeadByte : Option UInt8
  deriving DecidableEq

namespace RawStdinBuffer

def new : RawStdinBuffer where
  toStdinBuffer := .new
  decoder := .start
  decoderHasPendingUtf8 := false
  pendingSingleUtf8LeadByte := none

variable (s : RawStdinBuffer)

def emitPendingSingleUtf8LeadAsMeta : RawStdinBuffer :=
  match s.pendingSingleUtf8LeadByte with
  | some byte =>
    { s with
      toStdinBuffer := s.emitDataSequence (legacyMetaSequence byte)
      decoderHasPendingUtf8 := false
      pendingSingleUtf8LeadByte := none }
  | none => s

def joinPending (data : List UInt8) : RawStdinBuffer × List UInt8 :=
  match s.pendingSingleUtf8LeadByte with
  | some lead =>
    if data.head?.any isUtf8ContinuationByte then ({ s with
      pendingSingleUtf8LeadByte := none }, lead :: data)
    else (s.emitPendingSingleUtf8LeadAsMeta, data)
  | none => (s, data)

def decode (hadPendingUtf8 : Bool) (bytes : List UInt8) : RawStdinBuffer × List CodeUnit :=
  let (decoder, str) := StringDecoder.write s.decoder bytes
  let allContinuationBytes := bytes.all isUtf8ContinuationByte
  ({ s with
      decoder
      decoderHasPendingUtf8 :=
        endsWithIncompleteUtf8Sequence bytes &&
          !(hadPendingUtf8 && !str.isEmpty && allContinuationBytes) },
    str)

def read (data : List UInt8) : RawStdinBuffer × Option (List CodeUnit) :=
  let hadPendingUtf8 := s.decoderHasPendingUtf8 || s.pendingSingleUtf8LeadByte.isSome
  let (s, bytes) := s.joinPending data
  let decoded := s.decode hadPendingUtf8 bytes
  match bytes with
  | [byte] =>
    if 127 < byte.toNat && !s.decoderHasPendingUtf8 then
      if isUtf8LeadByte byte then
        ({ s with pendingSingleUtf8LeadByte := some byte, decoderHasPendingUtf8 := true }, none)
      else (s, some (legacyMetaSequence byte))
    else (decoded.1, some decoded.2)
  | _ => (decoded.1, some decoded.2)

/-- `process` on a chunk of bytes. Only what was decoded can be empty, and then there is no event. -/
def process (data : List UInt8) : RawStdinBuffer :=
  match s.read data with
  | (s, none) => s
  | (s, some str) =>
    if str.isEmpty && s.buffer.isEmpty then s else { s with
      toStdinBuffer := s.toStdinBuffer.process str }

end RawStdinBuffer

/-- The events of bytes that come in chunks, with no timer in between. -/
def eventsOfBytes (chunks : List (List UInt8)) : List Event :=
  (chunks.foldl RawStdinBuffer.process .new).emitted

open JevCode.Text

section Decoder

variable {decoder : Utf8State} {bytes more : List UInt8} {b : UInt8}

def Clean (decoder : Utf8State) (bytes : List UInt8) : Prop := none ∉ (decoder.run bytes).2

theorem clean_append :
    Clean decoder (bytes ++ more) ↔ Clean decoder bytes ∧ Clean (decoder.run bytes).1 more := by
  simp only [Clean, Utf8State.run_append, List.mem_append, not_or]

theorem clean_cons : Clean decoder (b :: bytes) ↔ none ∉ (decoder.next b.toNat).2 ∧
    Clean (decoder.next b.toNat).1 bytes := by
  simp only [Clean, Utf8State.run, List.mem_append, not_or]

structure Narrow (decoder : Utf8State) : Prop where
  lower : 0x80 ≤ decoder.lower
  upper : decoder.upper ≤ 0xbf

theorem narrow_lead (n : Nat) : Narrow (Utf8State.lead n).1 := by
  unfold Utf8State.lead
  (repeat' split) <;> constructor <;> simp [Utf8State.start]

theorem narrow_next (decoder : Utf8State) (n : Nat) : Narrow (decoder.next n).1 := by
  unfold Utf8State.next
  split
  next => exact narrow_lead n
  next =>
    split
    next =>
      dsimp only
      split
      all_goals exact ⟨Nat.le_refl 0x80, Nat.le_refl 0xbf⟩
    next => exact narrow_lead n

theorem Narrow.run (h : Narrow decoder) (bytes : List UInt8) : Narrow (decoder.run bytes).1 := by
  induction bytes generalizing decoder with
  | nil => exact h
  | cons b bytes ih => exact ih (narrow_next _ _)

theorem isUtf8ContinuationByte_iff :
    isUtf8ContinuationByte b = true ↔ 0x80 ≤ b.toNat ∧ b.toNat ≤ 0xbf := by
  simp [isUtf8ContinuationByte]

theorem next_inside (hnarrow : Narrow decoder) (hneeded : decoder.needed ≠ 0)
    (h : none ∉ (decoder.next b.toNat).2) :
    isUtf8ContinuationByte b = true ∧ (decoder.next b.toNat).1.needed = decoder.needed - 1 ∧
      ((decoder.next b.toNat).2 = [] ↔ 1 < decoder.needed) := by
  rw [Utf8State.next, if_neg hneeded] at h ⊢
  split at h
  next hbounds =>
    rw [if_pos hbounds]
    refine ⟨isUtf8ContinuationByte_iff.mpr ⟨hnarrow.lower.trans hbounds.1,
      hbounds.2.trans hnarrow.upper⟩, ?_⟩
    dsimp only
    split
    next hone => simp [hone, Utf8State.start]
    next hmore => simp; omega
  next hbounds => exact absurd List.mem_cons_self h

theorem lead_cases (h : none ∉ (Utf8State.lead b.toNat).2) :
    isUtf8ContinuationByte b = false ∧ (Utf8State.lead b.toNat).1.needed = expectedLength b - 1 ∧
      (b.toNat ≤ 127 ∧ expectedLength b = 0 ∨ isUtf8LeadByte b = true ∧ 2 ≤ expectedLength b) := by
  have hwidth : b.toNat ≤ 0x7f ∨ 0xc2 ≤ b.toNat ∧ b.toNat ≤ 0xdf ∨ 0xe0 ≤ b.toNat ∧ b.toNat ≤ 0xef ∨
      0xf0 ≤ b.toNat ∧ b.toNat ≤ 0xf4 := by
    by_contra hnone
    rw [Utf8State.lead, if_neg (by omega), if_neg (by omega), if_neg (by omega),
      if_neg (by omega)] at h
    exact h List.mem_cons_self
  have hcontinuation : isUtf8ContinuationByte b = false :=
    Bool.eq_false_iff.mpr (isUtf8ContinuationByte_iff.not.mpr (by omega))
  refine ⟨hcontinuation, ?_⟩
  have hlead : 0xc2 ≤ b.toNat ∧ b.toNat ≤ 0xf4 → isUtf8LeadByte b = true := fun hb => by
    simp [isUtf8LeadByte, hb]
  obtain hone | htwo | hthree | hfour := hwidth
  · have hlength : expectedLength b = 0 := by
      rw [expectedLength, if_neg (by omega), if_neg (by omega), if_neg (by omega)]
    rw [Utf8State.lead, if_pos hone, hlength]
    exact ⟨rfl, .inl ⟨hone, rfl⟩⟩
  · have hlength : expectedLength b = 2 := by rw [expectedLength, if_pos htwo]
    rw [Utf8State.lead_of_two htwo, hlength]
    exact ⟨rfl, .inr ⟨hlead (by omega), by omega⟩⟩
  · have hlength : expectedLength b = 3 := by rw [expectedLength, if_neg (by omega), if_pos hthree]
    rw [Utf8State.lead_of_three hthree, hlength]
    exact ⟨rfl, .inr ⟨hlead (by omega), by omega⟩⟩
  · have hlength : expectedLength b = 4 := by
      rw [expectedLength, if_neg (by omega), if_neg (by omega), if_pos hfour]
    rw [Utf8State.lead_of_four hfour, hlength]
    exact ⟨rfl, .inr ⟨hlead (by omega), by omega⟩⟩

theorem run_continuations (hnarrow : Narrow decoder)
    (hbytes : ∀ b ∈ bytes, isUtf8ContinuationByte b = true) (h : Clean decoder bytes) :
    bytes.length ≤ decoder.needed ∧ (decoder.run bytes).1.needed = decoder.needed - bytes.length ∧
      (bytes ≠ [] → ((decoder.run bytes).2 = [] ↔ bytes.length < decoder.needed)) := by
  induction bytes generalizing decoder with
  | nil => exact ⟨Nat.zero_le _, rfl, fun hne => absurd rfl hne⟩
  | cons b bytes ih =>
    obtain ⟨hb, h⟩ := clean_cons.mp h
    have hneeded : decoder.needed ≠ 0 := by
      intro hzero
      rw [Utf8State.next, if_pos hzero] at hb
      have := (lead_cases hb).1
      rw [hbytes b List.mem_cons_self] at this
      cases this
    obtain ⟨-, hnext, hitems⟩ := next_inside hnarrow hneeded hb
    obtain ⟨hle, hrun, hmore⟩ :=
      ih (narrow_next _ _) (fun c hc => hbytes c (List.mem_cons_of_mem _ hc)) h
    rw [hnext] at hle hrun hmore
    simp only [Utf8State.run, List.length_cons, List.append_eq_nil_iff, hitems]
    refine ⟨by omega, by omega, fun _ => ?_⟩
    by_cases hbytes : bytes = []
    · subst hbytes
      simp only [Utf8State.run, and_true, List.length_nil]
    · rw [hmore hbytes]
      omega

theorem run_lead (hnarrow : Narrow decoder) (hb : isUtf8ContinuationByte b = false)
    (hmore : ∀ c ∈ more, isUtf8ContinuationByte c = true) (h : Clean decoder (bytes ++ b :: more)) :
    (decoder.run (bytes ++ b :: more)).1.needed = expectedLength b - 1 - more.length ∧
      more.length ≤ expectedLength b - 1 := by
  obtain ⟨-, h⟩ := clean_append.mp h
  obtain ⟨hlead, h⟩ := clean_cons.mp h
  have hnarrow := hnarrow.run bytes
  rw [Utf8State.run_append, Utf8State.run]
  dsimp only
  generalize (decoder.run bytes).1 = before at *
  have hzero : before.needed = 0 := by
    by_contra hneeded
    have := (next_inside hnarrow hneeded hlead).1
    rw [hb] at this
    cases this
  obtain ⟨hle, hrun, -⟩ := run_continuations (narrow_next _ _) hmore h
  rw [Utf8State.next, if_pos hzero] at hlead hle hrun ⊢
  rw [(lead_cases hlead).2.1] at hle hrun
  exact ⟨hrun, hle⟩

theorem charUnits_ne_nil (c : Char) : charUnits c ≠ [] := by
  unfold charUnits
  split <;> exact List.cons_ne_nil _ _

theorem write_isEmpty (decoder : Utf8State) (bytes : List UInt8) :
    (StringDecoder.write decoder bytes).2.isEmpty = decide ((decoder.run bytes).2 = []) := by
  unfold StringDecoder.write
  cases (decoder.run bytes).2 with
  | nil => rfl
  | cons item items => simp [charUnits_ne_nil]

theorem split_continuations (bytes : List UInt8) :
    (∀ b ∈ bytes, isUtf8ContinuationByte b = true) ∨
      ∃ before lead more, bytes = before ++ lead :: more ∧ isUtf8ContinuationByte lead = false ∧
        ∀ b ∈ more, isUtf8ContinuationByte b = true := by
  induction bytes with
  | nil => exact .inl (by simp)
  | cons b bytes ih =>
    obtain hall | ⟨before, lead, more, rfl, hlead, hmore⟩ := ih
    · cases hb : isUtf8ContinuationByte b with
      | true => exact .inl (List.forall_mem_cons.mpr ⟨hb, hall⟩)
      | false => exact .inr ⟨[], b, bytes, rfl, hb, hall⟩
    · exact .inr ⟨b :: before, lead, more, rfl, hlead, hmore⟩

theorem endsWithIncomplete_of_all (h : ∀ b ∈ bytes, isUtf8ContinuationByte b = true)
    (hne : bytes ≠ []) :
    endsWithIncompleteUtf8Sequence bytes = true := by
  have hall : ∀ b ∈ bytes.reverse, isUtf8ContinuationByte b = true := fun b hb =>
    h b (List.mem_reverse.mp hb)
  have htake := List.takeWhile_eq_self_iff.mpr hall
  have hdrop := List.dropWhile_eq_nil_iff.mpr hall
  simp only [endsWithIncompleteUtf8Sequence, htake, hdrop, List.length_reverse]
  exact decide_eq_true (List.length_pos_iff.mpr hne)

theorem endsWithIncomplete_of_lead {before : List UInt8} (hb : isUtf8ContinuationByte b = false)
    (hmore : ∀ c ∈ more, isUtf8ContinuationByte c = true) :
    endsWithIncompleteUtf8Sequence (before ++ b :: more) =
      (0 < expectedLength b && more.length + 1 < expectedLength b : Bool) := by
  have hreverse : (before ++ b :: more).reverse = more.reverse ++ b :: before.reverse := by simp
  have hall : ∀ c ∈ more.reverse, isUtf8ContinuationByte c = true := fun c hc =>
    hmore c (List.mem_reverse.mp hc)
  simp only [endsWithIncompleteUtf8Sequence, hreverse, List.takeWhile_append_of_pos hall,
    List.dropWhile_append_of_pos hall, List.takeWhile_cons, List.dropWhile_cons, hb,
    Bool.false_eq_true, if_false, List.append_nil, List.length_reverse]

theorem pending_eq (hnarrow : Narrow decoder) (hne : bytes ≠ []) (h : Clean decoder bytes)
    {hadPendingUtf8 : Bool} (hpending : decoder.needed ≠ 0 → hadPendingUtf8 = true) :
    (endsWithIncompleteUtf8Sequence bytes &&
        !(hadPendingUtf8 && !(StringDecoder.write decoder bytes).2.isEmpty &&
          bytes.all isUtf8ContinuationByte)) =
      decide ((decoder.run bytes).1.needed ≠ 0) := by
  obtain hall | ⟨before, lead, more, rfl, hlead, hmore⟩ := split_continuations bytes
  · obtain ⟨hle, hrun, hitems⟩ := run_continuations hnarrow hall h
    have hpos : 0 < bytes.length := List.length_pos_iff.mpr hne
    have hempty : (StringDecoder.write decoder bytes).2.isEmpty =
        decide (bytes.length < decoder.needed) :=
      (write_isEmpty decoder bytes).trans (decide_eq_decide.mpr (hitems hne))
    rw [endsWithIncomplete_of_all hall hne, hpending (by omega),
      List.all_eq_true.mpr hall, hrun, hempty]
    simp only [Bool.true_and, Bool.and_true, Bool.not_not]
    exact decide_eq_decide.mpr (by omega)
  · obtain ⟨hrun, hle⟩ := run_lead hnarrow hlead hmore h
    have hall : (before ++ lead :: more).all isUtf8ContinuationByte = false := by simp [hlead]
    rw [endsWithIncomplete_of_lead hlead hmore, hall, hrun, Bool.and_false, Bool.not_false,
      Bool.and_true, ← Bool.decide_and]
    exact decide_eq_decide.mpr (by omega)

end Decoder

section Characters

variable {t : Chars} {emitted : List Event}

theorem esc_notMem_charUnits {c : Char} (hc : c ≠ '\x1b') : esc ∉ charUnits c := by
  obtain ⟨hunits, -, -, hn⟩ | ⟨hi, lo, hunits, hhigh, hlow, -⟩ := charUnits_cases c
  · rw [hunits, List.mem_singleton]
    intro hesc
    rw [← hesc] at hn
    exact hc (Char.toNat_inj.mp hn.symm)
  · rw [hunits, List.mem_pair]
    rintro (rfl | rfl)
    · exact absurd hhigh (by decide)
    · exact absurd hlow (by decide)

theorem plain_of_notMem {text : List CodeUnit} (h : esc ∉ text) : Plain text := by
  refine ⟨fun hmouse => h (hmouse.mem List.mem_cons_self), fun sequence hsequence => ?_⟩
  rw [parseUnmodifiedKittyPrintableCodepoint, if_pos]
  exact fun hstart => h (hsequence.mem (hstart.mem List.mem_cons_self))

theorem run_charsUnits (h : '\x1b' ∉ t) : sequences.run (charsUnits t) = (t.map charUnits, []) := by
  induction t with
  | nil => exact sequences.run_of_none next_nil
  | cons c t ih =>
    obtain ⟨hc, ht⟩ := not_or.mp (List.mem_cons.not.mp h)
    have hesc := esc_notMem_charUnits (Ne.symm hc)
    have hnext : nextSequence (charUnits c ++ charsUnits t) = some (charUnits c, charsUnits t) := by
      obtain ⟨hunits, hhigh, -, -⟩ | ⟨hi, lo, hunits, hhigh, hlow, -⟩ := charUnits_cases c
      · rw [hunits, List.mem_singleton] at hesc
        have hhigh : isHighSurrogate (JevCode.Text.code c) = false := hhigh
        rw [hunits, List.singleton_append]
        rw [nextSequence, if_neg (Ne.symm hesc)]
        cases charsUnits t <;> simp [nextCharacter, hhigh]
      · rw [hunits, List.mem_pair, not_or] at hesc
        have hhigh : isHighSurrogate hi = true := hhigh
        have hlow : isLowSurrogate lo = true := hlow
        rw [hunits, List.cons_append, List.singleton_append]
        rw [nextSequence, if_neg (Ne.symm hesc.1), nextCharacter, hhigh, hlow]
        rfl
    rw [charsUnits_cons, sequences.run_of_some hnext, ih ht, List.map_cons]

theorem process_chars (hne : t ≠ []) (h : '\x1b' ∉ t) :
    (buffering (none, emitted) []).process (charsUnits t) =
      buffering (none, emitted ++ t.map fun c => .data (charUnits c)) [] := by
  have hesc : ∀ token ∈ t.map charUnits, esc ∉ token := by
    intro token htoken
    obtain ⟨c, hc, rfl⟩ := List.mem_map.mp htoken
    exact esc_notMem_charUnits fun heq => h (heq ▸ hc)
  have hplain : ∀ token ∈ t.map charUnits, Plain token := fun token htoken =>
    plain_of_notMem (hesc token htoken)
  have hpaste : ¬ pasteStart <:+: charsUnits t := by
    intro hpaste
    obtain ⟨c, hc, hmem⟩ := List.mem_flatMap.mp (hpaste.mem List.mem_cons_self)
    exact hesc _ (List.mem_map_of_mem hc) hmem
  have hunits : charsUnits t ≠ [] := by
    obtain ⟨c, t, rfl⟩ := List.exists_cons_of_ne_nil hne
    rw [charsUnits_cons]
    exact List.append_ne_nil_of_left_ne_nil (charUnits_ne_nil c) _
  rw [process_plain next_nil hunits (by rwa [List.nil_append]), List.nil_append, run_charsUnits h,
    wanted_of_plain hplain, foldl_emit_of_plain hplain, List.map_map]
  rfl

end Characters

def decodedChars (bytes : List UInt8) : Chars :=
  (Utf8State.start.run bytes).2.map (·.getD replacement)

structure Tracks (bytes : List UInt8) (s : RawStdinBuffer) : Prop where
  split : ∃ decoded, bytes = decoded ++ s.pendingSingleUtf8LeadByte.toList ∧
    s.decoder = (Utf8State.start.run decoded).1 ∧
    s.toStdinBuffer = buffering (none, (decodedChars decoded).map fun c => .data (charUnits c)) []
  flag : s.decoderHasPendingUtf8 =
    (decide (s.decoder.needed ≠ 0) || s.pendingSingleUtf8LeadByte.isSome)
  alone : ∀ lead, s.pendingSingleUtf8LeadByte = some lead → s.decoder.needed = 0 ∧
    isUtf8LeadByte lead = true

theorem tracks_new : Tracks [] .new := ⟨⟨[], rfl, rfl, rfl⟩, rfl, fun lead h => by cases h⟩

section Step

variable {s : RawStdinBuffer} {before decoded bytes data : List UInt8}

theorem narrow_start : Narrow .start := ⟨Nat.le_refl 0x80, Nat.le_refl 0xbf⟩

theorem decodedChars_append (a b : List UInt8) :
    decodedChars (a ++ b) = decodedChars a ++
      ((Utf8State.start.run a).1.run b).2.map (·.getD replacement) := by
  rw [decodedChars, Utf8State.run_append, List.map_append, decodedChars]

theorem tracks_decode (s' : RawStdinBuffer) (hadPendingUtf8 : Bool) (hread : s.read data =
      ((s'.decode hadPendingUtf8 bytes).1, some (s'.decode hadPendingUtf8 bytes).2))
    (hnone : s'.pendingSingleUtf8LeadByte = none)
    (hdecoder : s'.decoder = (Utf8State.start.run decoded).1) (hbuffer : s'.toStdinBuffer =
    buffering (none, (decodedChars decoded).map fun c => .data (charUnits c)) [])
    (hpending : s'.decoder.needed ≠ 0 → hadPendingUtf8 = true) (hne : bytes ≠ [])
    (hclean : Clean .start (decoded ++ bytes)) (hesc : '\x1b' ∉ decodedChars (decoded ++ bytes)) :
    Tracks (decoded ++ bytes) (s.process data) := by
  have hflag :=
    pending_eq (hdecoder ▸ narrow_start.run decoded) hne
      (hdecoder ▸ (clean_append.mp hclean).2) hpending
  have hrun : (s'.decoder.run bytes).1 = (Utf8State.start.run (decoded ++ bytes)).1 := by
    rw [hdecoder, Utf8State.run_append]
  have hstr : (s'.decode hadPendingUtf8 bytes).2 =
      charsUnits ((s'.decoder.run bytes).2.map (·.getD replacement)) := by
    rw [charsUnits, List.flatMap_map]
    rfl
  rw [decodedChars_append, ← hdecoder] at hesc
  have hchars : decodedChars (decoded ++ bytes) =
      decodedChars decoded ++ (s'.decoder.run bytes).2.map (·.getD replacement) := by
    rw [decodedChars_append, ← hdecoder]
  generalize (s'.decoder.run bytes).2.map (·.getD replacement) = chars at hstr hesc hchars
  have hprocess : s.process data =
      { (s'.decode hadPendingUtf8 bytes).1 with
        toStdinBuffer :=
          buffering (none, (decodedChars (decoded ++ bytes)).map fun c =>
            .data (charUnits c)) [] } := by
    have hdecode : (s'.decode hadPendingUtf8 bytes).1.toStdinBuffer = s'.toStdinBuffer := rfl
    rw [RawStdinBuffer.process, hread]
    dsimp only
    rw [hdecode, hbuffer, hstr, hchars]
    cases chars with
    | nil =>
      have hidle : s'.buffer = [] := congrArg StdinBuffer.buffer hbuffer
      rw [List.append_nil, ← hbuffer, hidle]
      rfl
    | cons c chars =>
      rw [process_chars (List.cons_ne_nil c chars) fun hmem => hesc (List.mem_append_right _ hmem),
        List.map_append, if_neg]
      simp [charsUnits_cons, charUnits_ne_nil]
  rw [hprocess]
  refine ⟨⟨decoded ++ bytes, ?_, hrun, rfl⟩, ?_, fun lead hlead => ?_⟩
  · show _ = _ ++ s'.pendingSingleUtf8LeadByte.toList
    rw [hnone, Option.toList_none, List.append_nil]
  · show _ = (decide ((s'.decoder.run bytes).1.needed ≠ 0) || s'.pendingSingleUtf8LeadByte.isSome)
    rw [hnone, Option.isSome_none, Bool.or_false]
    exact hflag
  · cases hnone.symm.trans hlead

theorem continuation_follows {lead b : UInt8} {rest : List UInt8}
    (hlead : isUtf8LeadByte lead = true) (hneeded : (Utf8State.start.run decoded).1.needed = 0)
    (hclean : Clean .start (decoded ++ lead :: b :: rest)) :
    isUtf8ContinuationByte b = true := by
  obtain ⟨-, hclean⟩ := clean_append.mp hclean
  obtain ⟨hfirst, hclean⟩ := clean_cons.mp hclean
  obtain ⟨hsecond, -⟩ := clean_cons.mp hclean
  have hopen : ((Utf8State.start.run decoded).1.next lead.toNat).1.needed ≠ 0 := by
    rw [Utf8State.next, if_pos hneeded] at hfirst ⊢
    obtain ⟨-, hneeds, ⟨hone, -⟩ | ⟨-, hlong⟩⟩ := lead_cases hfirst
    · simp only [isUtf8LeadByte, Bool.and_eq_true, decide_eq_true_eq] at hlead
      omega
    · omega
  exact (next_inside (narrow_next _ _) hopen hsecond).1

theorem Tracks.process (h : Tracks before s) (hne : data ≠ [])
    (hclean : Clean .start (before ++ data)) (hesc : '\x1b' ∉ decodedChars (before ++ data)) :
    Tracks (before ++ data) (s.process data) := by
  obtain ⟨⟨decoded, hbefore, hdecoder, hbuffer⟩, hflag, halone⟩ := h
  obtain ⟨b, rest, rfl⟩ := List.exists_cons_of_ne_nil hne
  cases hpending : s.pendingSingleUtf8LeadByte with
  | some lead =>
    obtain ⟨hneeded, hlead⟩ := halone lead hpending
    rw [hpending, Option.toList_some] at hbefore
    rw [hbefore, List.append_assoc, List.singleton_append] at hclean hesc ⊢
    have hb := continuation_follows hlead (hdecoder ▸ hneeded) hclean
    refine tracks_decode { s with pendingSingleUtf8LeadByte := none } true ?_ rfl hdecoder
      hbuffer (fun _ => rfl) (List.cons_ne_nil _ _) hclean hesc
    simp only [RawStdinBuffer.read, RawStdinBuffer.joinPending, hpending, List.head?_cons,
      Option.any_some, hb, if_true, Option.isSome_some, Bool.or_true]
  | none =>
    rw [hpending, Option.toList_none, List.append_nil] at hbefore
    subst hbefore
    rw [hpending, Option.isSome_none, Bool.or_false] at hflag
    have hjoin : s.joinPending (b :: rest) = (s, b :: rest) := by
      rw [RawStdinBuffer.joinPending, hpending]
    by_cases hsingle : rest = [] ∧ 127 < b.toNat ∧ s.decoder.needed = 0
    · obtain ⟨rfl, hbyte, hneeded⟩ := hsingle
      have hfirst := (clean_cons.mp (clean_append.mp hclean).2).1
      rw [← hdecoder, Utf8State.next, if_pos hneeded] at hfirst
      have hlead : isUtf8LeadByte b = true := by
        obtain ⟨-, -, ⟨hone, -⟩ | ⟨hlead, -⟩⟩ := lead_cases hfirst
        · omega
        · exact hlead
      have hprocess : s.process [b] =
          { s with pendingSingleUtf8LeadByte := some b, decoderHasPendingUtf8 := true } := by
        simp only [RawStdinBuffer.process, RawStdinBuffer.read, hjoin, hflag, hneeded, hbyte,
          hlead, decide_true, ne_eq, not_true_eq_false, decide_false, Bool.not_false,
          Bool.and_true, if_true]
      rw [hprocess]
      refine ⟨⟨before, rfl, hdecoder, hbuffer⟩, (Bool.or_true _).symm, fun lead heq => ?_⟩
      cases heq
      exact ⟨hneeded, hlead⟩
    · refine tracks_decode s s.decoderHasPendingUtf8 ?_ hpending hdecoder hbuffer
        (fun hopen => by rw [hflag]; exact decide_eq_true hopen) (List.cons_ne_nil _ _) hclean hesc
      simp only [RawStdinBuffer.read, hjoin, hpending, Option.isSome_none, Bool.or_false]
      cases rest with
      | nil =>
        dsimp only
        rw [if_neg]
        rw [hflag]
        simpa using hsingle
      | cons c rest => rfl

theorem Tracks.foldl {chunks : List (List UInt8)} (h : Tracks before s)
    (hchunks : ∀ chunk ∈ chunks, chunk ≠ []) (hclean : Clean .start (before ++ chunks.flatten))
    (hesc : '\x1b' ∉ decodedChars (before ++ chunks.flatten)) :
    Tracks (before ++ chunks.flatten) (chunks.foldl RawStdinBuffer.process s) := by
  induction chunks generalizing before s with
  | nil => rwa [List.flatten_nil, List.append_nil]
  | cons chunk chunks ih =>
    obtain ⟨hchunk, hchunks⟩ := List.forall_mem_cons.mp hchunks
    rw [List.flatten_cons, ← List.append_assoc] at hclean hesc ⊢
    refine ih (h.process hchunk (clean_append.mp hclean).1 fun hmem => hesc ?_) hchunks hclean hesc
    rw [decodedChars_append]
    exact List.mem_append_left _ hmem

end Step

theorem decodedChars_utf8Bytes (t : Chars) : decodedChars (utf8Bytes t) = t := by
  rw [decodedChars, Utf8State.run_utf8Bytes, List.map_map]
  exact List.map_id t

/-- The bytes of a text without ESC give one event for each of its characters, wherever the bytes are
cut. -/
theorem characters_survive_any_split {t : Chars} {chunks : List (List UInt8)} (ht : '\x1b' ∉ t)
    (hbytes : chunks.flatten = utf8Bytes t) (hchunks : ∀ chunk ∈ chunks, chunk ≠ []) :
    eventsOfBytes chunks = t.map (fun c => .data (charUnits c)) ∧
      ∀ byte, .data (legacyMetaSequence byte) ∉ eventsOfBytes chunks := by
  have hclean : Clean .start (utf8Bytes t) := by
    rw [Clean, Utf8State.run_utf8Bytes]
    simp
  have htracks := tracks_new.foldl hchunks (by rwa [List.nil_append, hbytes])
    (by rwa [List.nil_append, hbytes, decodedChars_utf8Bytes])
  rw [List.nil_append, hbytes] at htracks
  obtain ⟨⟨decoded, hsplit, hdecoder, hbuffer⟩, -, halone⟩ := htracks
  have hevents : eventsOfBytes chunks = t.map fun c => .data (charUnits c) := by
    cases hpending : (chunks.foldl RawStdinBuffer.process .new).pendingSingleUtf8LeadByte with
    | none =>
      rw [hpending, Option.toList_none, List.append_nil] at hsplit
      rw [eventsOfBytes, hbuffer, ← hsplit, decodedChars_utf8Bytes]
      rfl
    | some lead =>
      obtain ⟨hneeded, hlead⟩ := halone lead hpending
      rw [hpending, Option.toList_some] at hsplit
      rw [hsplit] at hclean
      have hfirst := (clean_cons.mp (clean_append.mp hclean).2).1
      have hend := congrArg (·.1.needed) (Utf8State.run_utf8Bytes t)
      rw [hsplit, Utf8State.run_append, ← hdecoder] at hend
      rw [← hdecoder, Utf8State.next, if_pos hneeded] at hfirst
      simp only [Utf8State.run, Utf8State.next, hneeded, if_true, Utf8State.start] at hend
      obtain ⟨-, hneeds, ⟨hone, -⟩ | ⟨-, hlong⟩⟩ := lead_cases hfirst
      · simp only [isUtf8LeadByte, Bool.and_eq_true, decide_eq_true_eq] at hlead
        omega
      · omega
  refine ⟨hevents, fun byte hmem => ?_⟩
  rw [hevents] at hmem
  obtain ⟨c, hc, heq⟩ := List.mem_map.mp hmem
  have hmeta : charUnits c = legacyMetaSequence byte := Event.data.inj heq
  exact esc_notMem_charUnits (fun h => ht (h ▸ hc)) (hmeta ▸ List.mem_cons_self)

theorem cut_characters_survive :
    eventsOfBytes [[0x61, 0xe2], [0x82], [0xac], [0xf0], [0x9f, 0x98], [0x80]] =
    [.data [0x61], .data [0x20ac], .data [0xd83d, 0xde00]] ∧
      ∀ byte, .data (legacyMetaSequence byte) ∉ eventsOfBytes [[0x61, 0xe2], [0x82], [0xac], [0xf0],
        [0x9f, 0x98], [0x80]] :=
  characters_survive_any_split (t := ['a', '€', '😀']) (by decide) (by decide) (by decide)

end JevCode.Tui
