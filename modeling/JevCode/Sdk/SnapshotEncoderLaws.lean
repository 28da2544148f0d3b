import JevCode.Data.ContentWriter
import JevCode.Sdk.SnapshotEncoder

namespace JevCode.Sdk

open Data Text Text.JsonSyntax

theorem sliceUnits_eq (text : List CodeUnit) (start k : Nat) :
    sliceUnits text start (start + k) = (text.drop start).take k := by
  rw [sliceUnits, List.drop_take, Nat.add_sub_cancel_left]

theorem utf8Length_charsUnits (t : Chars) : utf8Length (charsUnits t) = byteLength t := by
  rw [utf8Length, wellFormedChars_charsUnits]

theorem utf8Length_charsUnits_high (t : Chars) {u : CodeUnit} (hu : isHigh u = true) :
    utf8Length (charsUnits t ++ [u]) = byteLength t + 3 := by
  have hlone : wellFormedChars [u] = [replacement] := by
    simp [wellFormedChars, codePoints, unitPoint, hu, CodePoint.toChar]
  rw [utf8Length, wellFormedChars_charsUnits_append, hlone, byteLength_append, byteLength_cons,
    utf8Size_replacement, byteLength_nil]

theorem fitPrefix_of_cut {maxBytes : Nat} {a b : Chars} (hfits : byteLength a ≤ maxBytes)
    (hnext : (charsUnits a).length < min (charsUnits (a ++ b)).length maxBytes →
      maxBytes < utf8Length ((charsUnits (a ++ b)).take ((charsUnits a).length + 1))) :
    fitPrefix maxBytes (a ++ b) = a := by
  have hnone : fitPrefix (maxBytes - byteLength a) b = [] := by
    cases b with
    | nil => rfl
    | cons c b =>
      have hunits : (charsUnits a).length ≤ byteLength a := by
        have := length_le_utf8Length (charsUnits a)
        rwa [utf8Length_charsUnits] at this
      have hsize := utf16Size_le c
      have hlength : (charsUnits (a ++ c :: b)).length = (charsUnits a).length +
          (utf16Size c + (charsUnits b).length) := by
        rw [charsUnits_append, charsUnits_cons, List.length_append, List.length_append,
          length_charUnits]
      rw [fitPrefix, if_neg]
      intro hc
      have hlt : (charsUnits a).length < min (charsUnits (a ++ c :: b)).length maxBytes := by
        have := c.utf8Size_pos
        omega
      have hnext := hnext hlt
      rw [charsUnits_append, List.take_length_add_append, charsUnits_cons] at hnext
      obtain ⟨hone, -⟩ | ⟨hi, lo, hpair, hhigh, -, -⟩ := charUnits_cases c
      · have htake : charsUnits a ++ (charUnits c ++ charsUnits b).take 1 =
            charsUnits (a ++ [c]) := by
          rw [charsUnits_append, charsUnits_cons, hone]
          rfl
        rw [htake, utf8Length_charsUnits, byteLength_append, byteLength_cons,
          byteLength_nil] at hnext
        omega
      · have htake : (charUnits c ++ charsUnits b).take 1 = [hi] := by
          rw [hpair]
          rfl
        have hfour := length_charUnits c
        rw [hpair, utf16Size] at hfour
        split at hfour
        case isFalse => cases hfour
        case isTrue hfour =>
          rw [htake, utf8Length_charsUnits_high a hhigh] at hnext
          omega
  rw [fitPrefix_append_of_le hfits, hnone, List.append_nil]

theorem utf8ChunkEnd_eq {text : List CodeUnit} {start : Nat} {t : Chars}
    (ht : text.drop start = charsUnits t) (hstart : start ≤ text.length) (maxBytes : Nat) :
    utf8ChunkEnd text start maxBytes = start + (charsUnits (fitPrefix maxBytes t)).length := by
  have hlength : text.length = start + (charsUnits t).length := by
    rw [← ht, List.length_drop]
    omega
  unfold utf8ChunkEnd
  generalize hlow : lastTrue _ _ _ = low
  obtain ⟨hge, hle, htrue, hfalse⟩ : start ≤ low ∧ low ≤ min text.length (start + maxBytes) ∧
      (start < low → utf8Length ((charsUnits t).take (low - start)) ≤ maxBytes) ∧
      (low < min text.length (start + maxBytes) →
        maxBytes < utf8Length ((charsUnits t).take (low - start + 1))) := by
    have hspec :=
      lastTrue_spec (p := fun middle => utf8Length (sliceUnits text start middle) ≤ maxBytes)
      (show start ≤ min text.length (start + maxBytes) by omega)
    rw [hlow] at hspec
    obtain ⟨hge, hle, htrue, hfalse⟩ := hspec
    obtain ⟨k, rfl⟩ := Nat.exists_eq_add_of_le hge
    rw [Nat.add_sub_cancel_left]
    refine ⟨hge, hle, fun h => ?_, fun h => ?_⟩
    · have h := htrue h
      rw [sliceUnits_eq, ht] at h
      simpa using h
    · have h := hfalse h
      rw [Nat.add_assoc, sliceUnits_eq, ht] at h
      simpa using h
  obtain ⟨k, rfl⟩ := Nat.exists_eq_add_of_le hge
  rw [Nat.add_sub_cancel_left] at htrue hfalse
  obtain ⟨a, b, rfl, ha⟩ | ⟨a, c, b, rfl, hc, ha⟩ := cut_charsUnits (t := t) (k := k) (by omega)
  · have htake : (charsUnits (a ++ b)).take k = charsUnits a := by
      rw [charsUnits_append, ← ha, List.take_left]
    have hfits : byteLength a ≤ maxBytes := by
      rw [← utf8Length_charsUnits, ← htake]
      obtain rfl | hpos := Nat.eq_zero_or_pos k
      · rw [List.take_zero]
        exact Nat.zero_le maxBytes
      · exact htrue (by omega)
    have hhead : text[start + k]? = (charsUnits b).head? := by
      rw [← List.getElem?_drop, ht, charsUnits_append, List.getElem?_append_right (by omega),
        ← ha, Nat.sub_self, List.head?_eq_getElem?]
    rw [fitPrefix_of_cut hfits (fun h => by rw [ha]; exact hfalse (by omega)), ha, if_neg]
    rintro ⟨-, -, -, h⟩
    rw [hhead] at h
    obtain ⟨u, hu, hlow⟩ := (Option.any_eq_true _ _).mp h
    rw [isLow_head_charsUnits b u hu] at hlow
    cases hlow
  · obtain ⟨hi, lo, hpair, hhigh, hlow⟩ := charUnits_of_four hc
    have hunits : charsUnits (a ++ c :: b) = charsUnits a ++ hi :: lo :: charsUnits b := by
      rw [charsUnits_append, charsUnits_cons, hpair]
      rfl
    have hcut : (charsUnits (a ++ c :: b)).length = k + 1 + (charsUnits b).length := by
      rw [hunits, List.length_append, List.length_cons, List.length_cons]
      omega
    have hget {i : Nat} : text[start + ((charsUnits a).length + i)]? =
        (hi :: lo :: charsUnits b)[i]? := by
      rw [← List.getElem?_drop, ht, hunits, List.getElem?_append_right (by omega),
        Nat.add_sub_cancel_left]
    have hhalf : byteLength a + 3 ≤ maxBytes := by
      have h := htrue (by omega)
      rw [hunits, ← ha, List.take_length_add_append] at h
      rwa [← utf8Length_charsUnits_high a hhigh]
    have hwhole : maxBytes < byteLength a + 4 := by
      have hunits_le := length_le_utf8Length (charsUnits a)
      rw [utf8Length_charsUnits] at hunits_le
      have h := hfalse (by omega)
      have htake : (charsUnits (a ++ c :: b)).take (k + 1) = charsUnits (a ++ [c]) := by
        rw [hunits, ← ha, Nat.add_assoc, List.take_length_add_append, charsUnits_append,
          charsUnits_cons, hpair]
        rfl
      rw [htake, utf8Length_charsUnits, byteLength_append, byteLength_cons, hc, byteLength_nil] at h
      exact h
    have hfit : fitPrefix maxBytes (a ++ c :: b) = a := by
      rw [fitPrefix_append_of_le (by omega), fitPrefix, if_neg (by omega), List.append_nil]
    rw [hfit, if_pos]
    · omega
    · have hhi := hget (i := 0)
      have hlo := hget (i := 1)
      have h0 : start + k - 1 = start + ((charsUnits a).length + 0) := by omega
      have h1 : start + k = start + ((charsUnits a).length + 1) := by omega
      rw [h0, hhi, h1, hlo]
      exact ⟨by omega, by omega, hhigh, hlow⟩

namespace ChunkWriter

def content (w : ChunkWriter) : List UInt8 := w.chunks.flatten ++ w.buffer

/-- The buffer holds no more than a chunk, and the bytes are counted. -/
structure Valid (chunkBytes : Nat) (w : ChunkWriter) : Prop where
  buffer_le : w.buffer.length ≤ chunkBytes
  bytes_eq : w.bytes = w.content.length

variable {chunkBytes : Nat}

@[simp] theorem content_flush (w : ChunkWriter) : w.flush.content = w.content := by
  unfold flush
  split <;> simp [content]

@[simp] theorem buffer_flush (w : ChunkWriter) : w.flush.buffer = [] := by
  unfold flush
  split
  next h => exact List.length_eq_zero_iff.mp h
  next => rfl

@[simp] theorem bytes_flush (w : ChunkWriter) : w.flush.bytes = w.bytes := by
  unfold flush
  split <;> rfl

theorem Valid.flush {w : ChunkWriter} (h : w.Valid chunkBytes) : w.flush.Valid chunkBytes :=
  ⟨by simp, by rw [bytes_flush, content_flush, h.bytes_eq]⟩

theorem appendStep_eq {text : List CodeUnit} {offset : Nat} {t : Chars}
    (ht : text.drop offset = charsUnits t) (hoffset : offset ≤ text.length) {w : ChunkWriter}
    (hw : w.Valid chunkBytes) (hchunk : 4 ≤ chunkBytes) (hne : t ≠ []) :
    ∃ a b, t = a ++ b ∧ (w.appendStep chunkBytes text offset).2 = offset + (charsUnits a).length ∧
      (w.appendStep chunkBytes text offset).1.content = w.content ++ utf8Bytes a ∧
      (w.appendStep chunkBytes text offset).1.Valid chunkBytes ∧
      (a = [] → w.buffer ≠ [] ∧ (w.appendStep chunkBytes text offset).1.buffer = []) := by
  have hbuffer := hw.buffer_le
  obtain ⟨w', remaining, hstart, hw', hcontent, hremaining, hempty⟩ : ∃ (w' : ChunkWriter)
      (remaining : Nat), (if chunkBytes - w.buffer.length = 0 then (w.flush, chunkBytes)
      else (w, chunkBytes - w.buffer.length)) =
        (w', remaining) ∧ w'.Valid chunkBytes ∧ w'.content = w.content ∧
        remaining = chunkBytes - w'.buffer.length ∧
      (w.buffer = [] → w'.buffer = []) := by
    split
    · exact ⟨_, _, rfl, hw.flush, content_flush w, by simp, fun _ => buffer_flush w⟩
    · exact ⟨_, _, rfl, hw, rfl, rfl, id⟩
  obtain ⟨b, hb⟩ := isPrefix_fitPrefix remaining t
  have hbytes := byteLength_fitPrefix_le remaining t
  have hstop := utf8ChunkEnd_eq ht hoffset remaining
  have hnext : w'.buffer = [] → fitPrefix remaining t ≠ [] := by
    intro hbuffer
    obtain ⟨c, t, rfl⟩ := List.exists_cons_of_ne_nil hne
    have hsize : c.utf8Size ≤ 4 := c.utf8Size_le_four
    rw [hbuffer, List.length_nil, Nat.sub_zero] at hremaining
    rw [fitPrefix, if_pos (by omega)]
    exact List.cons_ne_nil _ _
  generalize fitPrefix remaining t = a at hb hbytes hstop hnext
  unfold appendStep
  rw [hstart]
  simp only [hstop]
  refine ⟨a, b, hb.symm, ?_⟩
  by_cases ha : a = []
  · subst ha
    rw [if_pos (show offset + (charsUnits []).length = offset from rfl)]
    refine ⟨rfl, ?_, hw'.flush, fun _ => ⟨fun h => hnext (hempty h) rfl, buffer_flush w'⟩⟩
    rw [content_flush, hcontent]
    exact (List.append_nil _).symm
  · have hslice : sliceUnits text offset (offset + (charsUnits a).length) = charsUnits a := by
      rw [sliceUnits_eq, ht, ← hb, charsUnits_append, List.take_left]
    have hpos : ¬offset + (charsUnits a).length = offset := by
      obtain ⟨c, a, rfl⟩ := List.exists_cons_of_ne_nil ha
      have := List.length_pos_iff.mpr (charsUnits_cons_ne_nil c a)
      omega
    rw [if_neg hpos, hslice, wellFormedChars_charsUnits]
    generalize hstaged : ({ w' with
      buffer := w'.buffer ++ utf8Bytes a, bytes := w'.bytes + (utf8Bytes a).length } :
      ChunkWriter) = staged
    have hcontent' : staged.content = w.content ++ utf8Bytes a := by
      rw [← hstaged, ← hcontent]
      simp [content]
    have hvalid : staged.Valid chunkBytes := by
      refine ⟨?_, ?_⟩
      · have := hw'.buffer_le
        rw [← hstaged, List.length_append, length_utf8Bytes]
        omega
      · rw [hcontent', ← hcontent, List.length_append, ← hw'.bytes_eq, ← hstaged]
    refine ⟨rfl, ?_, ?_, fun h => absurd h ha⟩
    · split
      · exact (content_flush staged).trans hcontent'
      · exact hcontent'
    · split
      · exact hvalid.flush
      · exact hvalid

theorem lt_length_iff {text : List CodeUnit} {offset : Nat} {t : Chars}
    (ht : text.drop offset = charsUnits t) :
    offset < text.length ↔ t ≠ [] := by
  have hlength := congrArg List.length ht
  rw [List.length_drop] at hlength
  cases t with
  | nil =>
    rw [charsUnits, List.flatMap_nil, List.length_nil] at hlength
    simp only [ne_eq, not_true_eq_false, iff_false]
    omega
  | cons c t =>
    have := List.length_pos_iff.mpr (charsUnits_cons_ne_nil c t)
    simp only [ne_eq, reduceCtorEq, not_false_eq_true, iff_true]
    omega

theorem appendLoop_eq {text : List CodeUnit} (hchunk : 4 ≤ chunkBytes)
    {fuel offset : Nat} {t : Chars} (ht : text.drop offset = charsUnits t)
    (hoffset : offset ≤ text.length) {w : ChunkWriter} (hw : w.Valid chunkBytes)
    (hfuel : 2 * (charsUnits t).length ≤ fuel ∨ w.buffer = [] ∧
    2 * (charsUnits t).length ≤ fuel + 1) :
    ∃ w' : ChunkWriter, w.appendLoop chunkBytes text fuel offset = .ok w' ∧ w'.Valid chunkBytes ∧
      w'.content = w.content ++ utf8Bytes t := by
  induction fuel generalizing offset t w with
  | zero =>
    have hnil : t = [] := by
      by_contra hne
      obtain ⟨c, t, rfl⟩ := List.exists_cons_of_ne_nil hne
      have := List.length_pos_iff.mpr (charsUnits_cons_ne_nil c t)
      omega
    rw [appendLoop, if_neg (fun h => (lt_length_iff ht).mp h hnil), hnil]
    exact ⟨w, rfl, hw, (List.append_nil _).symm⟩
  | succ fuel ih =>
    rw [appendLoop]
    by_cases hne : t = []
    · rw [if_neg (fun h => (lt_length_iff ht).mp h hne), hne]
      exact ⟨w, rfl, hw, (List.append_nil _).symm⟩
    · rw [if_pos ((lt_length_iff ht).mpr hne)]
      obtain ⟨a, b, rfl, hstop, hcontent, hvalid, hempty⟩ := appendStep_eq ht hoffset hw hchunk hne
      generalize w.appendStep chunkBytes text offset = step at hstop hcontent hvalid hempty
      obtain ⟨w₁, stop⟩ := step
      simp only at hstop hcontent hvalid hempty
      have hlength : (charsUnits (a ++ b)).length = (charsUnits a).length +
          (charsUnits b).length := by
        rw [charsUnits_append, List.length_append]
      have hrest : text.drop stop = charsUnits b := by
        rw [hstop, ← List.drop_drop, ht, charsUnits_append, List.drop_left]
      have hstop' : stop ≤ text.length := by
        have htext := congrArg List.length ht
        rw [List.length_drop] at htext
        omega
      have hfuel' : 2 * (charsUnits b).length ≤ fuel ∨ w₁.buffer = [] ∧
          2 * (charsUnits b).length ≤ fuel + 1 := by
        cases a with
        | nil =>
          obtain ⟨hfull, hflushed⟩ := hempty rfl
          obtain hfuel | ⟨hnil, -⟩ := hfuel
          · exact .inr ⟨hflushed, hfuel⟩
          · exact absurd hnil hfull
        | cons c a =>
          have := List.length_pos_iff.mpr (charsUnits_cons_ne_nil c a)
          exact .inl (by omega)
      obtain ⟨w', hloop, hw', hcontent'⟩ := ih hrest hstop' hvalid hfuel'
      exact ⟨w', hloop, hw', by rw [hcontent', hcontent, List.append_assoc, ← utf8Bytes_append]⟩

end ChunkWriter

section

variable {chunkBytes : Nat} {α : Type}

abbrev WritesText (chunkBytes : Nat) (pre : List UInt8 → Prop) (m : Encoding α) (t : Chars)
    (post : List UInt8 → α → Prop) : Prop :=
  Writes (ChunkWriter.Valid chunkBytes) ChunkWriter.content pre m (utf8Bytes t) post

theorem WritesText.bind {γ : Type} {pre : List UInt8 → Prop} {m : Encoding α} {t u : Chars}
    {post : List UInt8 → α → Prop} {k : α → Encoding γ} {final : List UInt8 → γ → Prop}
    (hm : WritesText chunkBytes pre m t post)
    (hk : ∀ a, WritesText chunkBytes (fun c => post c a) (k a) u final) :
    WritesText chunkBytes pre (m >>= k) (t ++ u) final := by
  rw [WritesText, utf8Bytes_append]
  exact Writes.bind hm hk

theorem WritesText.keepText {γ : Type} {m : Encoding α} {t u : Chars} {p : α → Prop}
    {k : α → Encoding γ} {r : List UInt8 → Prop} {final : List UInt8 → γ → Prop}
    (hm : WritesText chunkBytes (fun _ => True) m t (fun _ a => p a)) (hr : ∀ c x, r c → r (c ++ x))
    (hk : ∀ a, p a → WritesText chunkBytes r (k a) u final) :
    WritesText chunkBytes r (m >>= k) (t ++ u) final := by
  rw [WritesText, utf8Bytes_append]
  exact hm.keep hr hk

theorem append_writes (hchunk : 4 ≤ chunkBytes) (t : Chars) :
    WritesText chunkBytes (fun _ => True) (append chunkBytes (charsUnits t)) t
      (fun _ _ => True) := by
  intro w hw _
  have ht : (charsUnits t).drop 0 = charsUnits t := rfl
  obtain ⟨w', hloop, hw', hcontent⟩ :=
    ChunkWriter.appendLoop_eq hchunk ht (Nat.zero_le _) hw (.inl (Nat.le_refl _))
  refine ⟨(), w', ?_, hw', hcontent, trivial⟩
  rw [append, hloop]
  rfl

end

theorem encodeUnit_surrogate {u : CodeUnit} (hu : 0x5d ≤ u.toNat) (next : Option CodeUnit) :
    encodeUnit u next =
      if isHigh u && next.any isLow then (u :: next.toList, u :: next.toList)
      else if u < 0x20 || isHigh u || isLow u then (0x5c :: 0x75 :: hex4 u, [u])
      else ([u], [u]) := by
  have hne {v : CodeUnit} (hv : v.toNat < 0x5d) : u ≠ v := by
    rintro rfl
    omega
  rw [encodeUnit, if_neg (hne (by decide)), if_neg (hne (by decide)), if_neg (hne (by decide)),
    if_neg (hne (by decide)), if_neg (hne (by decide)), if_neg (hne (by decide)),
    if_neg (hne (by decide))]

theorem quoteChar_of_le {c : Char} (hc : 0x5d ≤ c.toNat) : quoteChar c = [c] := by
  have hne {d : Char} (hd : d.toNat < 0x5d) : c ≠ d := by
    rintro rfl
    omega
  rw [quoteChar, if_neg (hne (by decide)), if_neg (hne (by decide)), if_neg (hne (by decide)),
    if_neg (hne (by decide)), if_neg (hne (by decide)), if_neg (hne (by decide)),
    if_neg (hne (by decide)), if_neg (by omega)]

theorem encodeUnit_single {u : CodeUnit} {next : Option CodeUnit}
    (h : ¬(isHigh u && next.any isLow) = true) :
    encodeUnit u next = (charsUnits (quotePoint (unitPoint u)), [u]) := by
  by_cases hsurrogate : (isHigh u || isLow u) = true
  · have hlarge : 0x5d ≤ u.toNat := by
      rw [Bool.or_eq_true, isHigh_iff, isLow_iff] at hsurrogate
      omega
    have hescape : (decide (u < 0x20) || isHigh u || isLow u) = true := by
      rw [Bool.or_assoc, hsurrogate, Bool.or_true]
    rw [unitPoint, if_pos hsurrogate, quotePoint, charsUnits_unicodeEscape,
      encodeUnit_surrogate hlarge, if_neg h, if_pos hescape]
  · rw [unitPoint, if_neg hsurrogate, quotePoint]
    have hhigh : isHigh u = false := by
      rw [Bool.or_eq_true, not_or, Bool.not_eq_true] at hsurrogate
      exact hsurrogate.1
    have hlow : isLow u = false := by
      rw [Bool.or_eq_true, not_or, Bool.not_eq_true, Bool.not_eq_true] at hsurrogate
      exact hsurrogate.2
    by_cases h22 : u = 0x22; · subst h22; rfl
    by_cases h5c : u = 0x5c; · subst h5c; rfl
    by_cases h08 : u = 0x08; · subst h08; rfl
    by_cases h0c : u = 0x0c; · subst h0c; rfl
    by_cases h0a : u = 0x0a; · subst h0a; rfl
    by_cases h0d : u = 0x0d; · subst h0d; rfl
    by_cases h09 : u = 0x09; · subst h09; rfl
    have hn : (Char.ofNat u.toNat).toNat = u.toNat := by
      have hhigh := mt isHigh_iff.mpr (Bool.eq_false_iff.mp hhigh)
      have hlow := mt isLow_iff.mpr (Bool.eq_false_iff.mp hlow)
      have := u.toNat_lt
      exact toNat_charOfNat (by omega)
    have hne {c : Char} {v : CodeUnit} (hv : u ≠ v) (hc : c.toNat = v.toNat) : Char.ofNat
        u.toNat ≠ c := by
      rintro rfl
      exact hv (UInt16.toNat_inj.mp (hn.symm.trans hc))
    have hplain : encodeUnit u next = if u < 0x20 then (0x5c :: 0x75 :: hex4 u, [u])
        else ([u], [u]) := by
      rw [encodeUnit, if_neg h22, if_neg h5c, if_neg h08, if_neg h0c, if_neg h0a, if_neg h0d,
        if_neg h09, if_neg h, hhigh, hlow]
      simp
    rw [hplain, quoteChar, if_neg (hne h08 rfl), if_neg (hne h09 rfl), if_neg (hne h0a rfl),
      if_neg (hne h0c rfl), if_neg (hne h0d rfl), if_neg (hne h22 rfl), if_neg (hne h5c rfl), hn]
    by_cases hcontrol : u.toNat < 0x20
    · rw [if_pos (UInt16.lt_iff_toNat_lt.mpr hcontrol), if_pos hcontrol,
        charsUnits_unicodeEscape, code, hn, UInt16.ofNat_toNat]
    · rw [if_neg (fun hlt => hcontrol (UInt16.lt_iff_toNat_lt.mp hlt)), if_neg hcontrol, charsUnits,
        List.flatMap_singleton, charUnits_ofNat hhigh hlow]

theorem encodeUnit_pair {u v : CodeUnit} (hu : isHigh u = true) (hv : isLow v = true) :
    encodeUnit u (some v) = (charsUnits (quotePoint (.scalar (pairChar u v))), [u, v]) := by
  have hhigh := isHigh_iff.mp hu
  have hlow := isLow_iff.mp hv
  have hn : (pairChar u v).toNat = 0x10000 + (u.toNat - 0xd800) * 0x400 + (v.toNat - 0xdc00) :=
    toNat_charOfNat (by omega)
  have hpair : (isHigh u && (some v).any isLow) = true := by
    rw [hu, Option.any_some, hv]
    rfl
  rw [encodeUnit_surrogate (by omega), if_pos hpair, quotePoint,
    quoteChar_of_le (by omega), charsUnits, List.flatMap_singleton, charUnits_pairChar hu hv]
  rfl

theorem encodeUnits_eq (s : List CodeUnit) :
    encodeUnits s = (codePoints s).map fun p => (charsUnits (quotePoint p), p.units) := by
  fun_induction codePoints s with
  | case1 => rfl
  | case2 u =>
    rw [encodeUnits, encodeUnit_single (by simp), List.map_singleton, units_unitPoint]
  | case3 u v s hpair ih =>
    rw [Bool.and_eq_true] at hpair
    rw [encodeUnits, encodeUnit_pair hpair.1 hpair.2, if_pos (by rfl), ih, List.map_cons,
      CodePoint.units, charUnits_pairChar hpair.1 hpair.2]
  | case4 u v s hpair ih =>
    rw [encodeUnits, encodeUnit_single (by simpa using hpair), if_neg (by simp), ih, List.map_cons,
      units_unitPoint]

def indexStep (acc : Nat × EscapedStringIndex) (p : CodePoint) : Nat × EscapedStringIndex :=
  let offset := acc.1 + utf8Length (charsUnits (quotePoint p))
  (offset, acc.2.add (utf8Length p.units) offset)

def stringIndexOf (s : List CodeUnit) : EscapedStringIndex :=
  let (offset, index) := (codePoints s).foldl indexStep (1, ⟨0, [⟨0, 1⟩]⟩)
  index.close offset

def StringEncoder.index (st : StringEncoder) : Option (Nat × EscapedStringIndex) :=
  st.stringIndex.map (st.serializedOffset, ·)

section

variable {chunkBytes : Nat} (hchunk : 4 ≤ chunkBytes)
include hchunk

theorem encodeStringStep_writes (p : CodePoint) (o : Chars) :
    ∃ t o', o ++ quotePoint p = t ++ o' ∧ ∀ st : StringEncoder, st.output = charsUnits o →
      WritesText chunkBytes (fun _ => True)
        (encodeStringStep chunkBytes st (charsUnits (quotePoint p), p.units)) t
        (fun _ st' => st'.output = charsUnits o' ∧ st'.index = st.index.map (indexStep · p)) := by
  have hindex : ∀ (st : StringEncoder) (output : List CodeUnit), StringEncoder.index ⟨output,
      if st.stringIndex.isSome then st.serializedOffset + utf8Length (charsUnits (quotePoint p))
      else st.serializedOffset, st.stringIndex.map fun index => index.add (utf8Length p.units)
        (if st.stringIndex.isSome then st.serializedOffset + utf8Length (charsUnits (quotePoint p))
          else st.serializedOffset)⟩ = st.index.map (indexStep · p) := by
    rintro ⟨_, _, stringIndex⟩ output
    cases stringIndex <;> rfl
  by_cases hfull : (charsUnits (o ++ quotePoint p)).length ≥ 64 * 1024
  · refine ⟨o ++ quotePoint p, [], (List.append_nil _).symm, fun st ho => ?_⟩
    unfold encodeStringStep
    simp only [ho, ← charsUnits_append]
    rw [if_pos hfull]
    exact .last (append_writes hchunk (o ++ quotePoint p)) fun _ => .pure _ fun _ _ =>
      ⟨rfl, hindex st []⟩
  · refine ⟨[], o ++ quotePoint p, rfl, fun st ho => ?_⟩
    unfold encodeStringStep
    simp only [ho, ← charsUnits_append]
    rw [if_neg hfull]
    exact .pure _ fun _ _ => ⟨rfl, hindex st _⟩

theorem encodeStringLoop_writes (points : List CodePoint) (o : Chars) :
    ∃ t o', o ++ points.flatMap quotePoint = t ++ o' ∧
      ∀ st : StringEncoder, st.output = charsUnits o →
      WritesText chunkBytes (fun _ => True)
        ((points.map fun p => (charsUnits (quotePoint p), p.units)).foldlM
          (encodeStringStep chunkBytes) st) t
        (fun _ st' => st'.output = charsUnits o' ∧
          st'.index = st.index.map (points.foldl indexStep ·)) := by
  induction points generalizing o with
  | nil =>
    exact ⟨[], o, List.append_nil o, fun st ho => .pure st fun _ _ => ⟨ho, Option.map_id'.symm⟩⟩
  | cons p points ih =>
    obtain ⟨t, o₁, ht, hstep⟩ := encodeStringStep_writes hchunk p o
    obtain ⟨u, o₂, hu, hloop⟩ := ih o₁
    refine ⟨t ++ u, o₂, ?_, fun st ho => ?_⟩
    · rw [List.flatMap_cons, ← List.append_assoc, ht, List.append_assoc, hu, List.append_assoc]
    · rw [List.map_cons, List.foldlM_cons]
      refine WritesText.bind (hstep st ho) fun st' => .assume fun hst => ?_
      refine (hloop st' hst.1).weaken (fun _ h => h) fun _ st'' h => ⟨h.1, ?_⟩
      rw [h.2, hst.2, Option.map_map]
      rfl

theorem encodeString_writes (s : List CodeUnit) (indexEscapedString : Bool) :
    WritesText chunkBytes (fun _ => True) (encodeString chunkBytes s indexEscapedString)
      (quoteString s)
      (fun _ result => result = if indexEscapedString then some (stringIndexOf s) else none) := by
  obtain ⟨t, o, ht, hloop⟩ := encodeStringLoop_writes hchunk (codePoints s) []
  have hquote : quoteString s = ['"'] ++ (t ++ (o ++ ['"'])) := by
    rw [quoteString, ← List.append_assoc t, ← ht]
    rfl
  rw [hquote, encodeString, encodeUnits_eq]
  refine WritesText.bind (append_writes hchunk ['"']) fun _ =>
    WritesText.bind (hloop _ rfl) fun st => .assume fun hst => ?_
  have hresult : (st.stringIndex.map fun index => index.close st.serializedOffset) =
      if indexEscapedString then some (stringIndexOf s) else none := by
    have hmap : (st.stringIndex.map fun index => index.close st.serializedOffset) =
        st.index.map fun x => x.2.close x.1 := by
      rw [StringEncoder.index, Option.map_map]
      rfl
    rw [hmap, hst.2]
    cases indexEscapedString <;> rfl
  have hend : WritesText chunkBytes (fun _ => True)
      (append chunkBytes [quote] >>= fun _ =>
      pure (st.stringIndex.map fun index => index.close st.serializedOffset))
      ['"'] (fun _ result => result = if indexEscapedString then some (stringIndexOf s) else none) :=
    .last (append_writes hchunk ['"']) fun _ => .pure _ fun _ _ => hresult
  rw [hst.1]
  cases o with
  | nil => exact hend
  | cons c o =>
    rw [if_pos (charsUnits_cons_ne_nil c o)]
    exact WritesText.bind (append_writes hchunk (c :: o)) fun _ => hend

theorem separator_writes (first : Bool) {α : Type} {k : Unit → Encoding α} {t : Chars}
    {r : List UInt8 → Prop} {post : List UInt8 → α → Prop} (hr : ∀ c x, r c → r (c ++ x))
    (hk : ∀ x, WritesText chunkBytes r (k x) t post) :
    WritesText chunkBytes r
      (if !first then append chunkBytes (charsUnits [',']) >>= k else k ())
      ((if first then [] else [',']) ++ t) post := by
  cases first with
  | true => exact hk ()
  | false => exact (append_writes hchunk [',']).keepText hr fun x _ => hk x

variable {ν : Type} (numberText : ν → Numeral)

mutual

theorem encode_writes : (v : JsonValue ν) →
    WritesText chunkBytes (fun _ => True) (encode chunkBytes numberText v) (stringify numberText v)
      (fun _ _ => True)
  | .leaf .null => append_writes hchunk _
  | .leaf (.boolean true) => append_writes hchunk _
  | .leaf (.boolean false) => append_writes hchunk _
  | .leaf (.number n) => append_writes hchunk _
  | .leaf (.string s) => .last (encodeString_writes hchunk s false) fun _ =>
    .pure _ fun _ _ => trivial
  | .arr items => by
    rw [encode, stringify, List.cons_append, ← List.singleton_append]
    refine WritesText.bind (append_writes hchunk ['[']) fun _ => ?_
    exact WritesText.bind (encodeItems_writes true items) fun _ => append_writes hchunk [']']
  | .obj fields => by
    rw [encode, stringify, List.cons_append, ← List.singleton_append]
    refine WritesText.bind (append_writes hchunk ['\x7b']) fun _ => ?_
    exact WritesText.bind (encodeFields_writes true fields) fun _ => append_writes hchunk ['\x7d']

theorem encodeItems_writes (first : Bool) : (items : List (JsonValue ν)) →
    WritesText chunkBytes (fun _ => True) (encodeItems chunkBytes numberText first items)
      (stringifyItems numberText first items) (fun _ _ => True)
  | [] => .pure _ fun _ _ => trivial
  | item :: items => by
    rw [encodeItems, stringifyItems, List.append_assoc]
    refine separator_writes hchunk first (fun _ _ h => h) fun _ => ?_
    exact WritesText.bind (encode_writes item) fun _ => encodeItems_writes false items

theorem encodeFields_writes (first : Bool) : (fields : List (List CodeUnit × JsonValue ν)) →
    WritesText chunkBytes (fun _ => True) (encodeFields chunkBytes numberText first fields)
      (stringifyFields numberText first fields) (fun _ _ => True)
  | [] => .pure _ fun _ _ => trivial
  | (key, child) :: fields => by
    rw [encodeFields, stringifyFields, List.append_assoc, List.append_assoc, List.cons_append,
      ← List.singleton_append]
    refine separator_writes hchunk first (fun _ _ h => h) fun _ => ?_
    refine WritesText.bind (encodeString_writes hchunk key false) fun _ => .assume fun _ => ?_
    refine WritesText.bind (append_writes hchunk [':']) fun _ => ?_
    exact WritesText.bind (encode_writes child) fun _ => encodeFields_writes false fields

end

end

end JevCode.Sdk
