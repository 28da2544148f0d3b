import JevCode.Sdk.StringPages
import JevCode.Session.OutputSink

namespace JevCode.Sdk

open Data Text Text.JsonSyntax

section

variable {bytes : List UInt8} {stop : Nat} {read : Nat → Nat → Except StringRangeError (List UInt8)}
  {byteLength requestedOffset length : Nat}

def PageState.push (st : PageState) (unit : List CodeUnit) : PageState :=
  { st with
    body := st.body.append unit
    bodyBytes := st.bodyBytes + utf8Length unit
    decodedOffset := st.decodedOffset + utf8Length unit }

theorem pageTurn_none {st : PageState} {w w' : ByteWindow}
    (hunit : readUnit read stop w = .ok (none, w')) (hstop : w'.position = stop)
    (hlength : st.decodedOffset = byteLength) :
    pageTurn read stop byteLength requestedOffset length st w =
      .ok (.inl (some (st.result requestedOffset true)), w') := by
  change (readUnit read stop w >>= fun x => _) = _
  rw [hunit]
  change (if w'.position ≠ stop ∨ st.decodedOffset ≠ byteLength then _ else _ : ByteReading _) w' = _
  rw [if_neg (by simp [hstop, hlength])]
  rfl

theorem pageTurn_skip {st : PageState} {w w' : ByteWindow} {unit : List CodeUnit}
    (hunit : readUnit read stop w = .ok (some unit, w')) (hnone : st.responseOffset = none)
    (hle : st.decodedOffset + utf8Length unit ≤ requestedOffset)
    (hlt : st.decodedOffset < requestedOffset) :
    pageTurn read stop byteLength requestedOffset length st w =
      .ok (.inr { st with decodedOffset := st.decodedOffset + utf8Length unit }, w') := by
  change (readUnit read stop w >>= fun x => _) = _
  rw [hunit]
  change (if st.responseOffset.isNone then _ else _ : ByteReading _) w' = _
  rw [hnone, if_pos Option.isNone_none, if_pos hlt]
  change (if _ then _ else _ : ByteReading _) w' = _
  rw [if_pos hle]
  rfl

theorem pageTurn_unit {st : PageState} {w w' : ByteWindow} {unit : List CodeUnit} {offset : Nat}
    (hunit : readUnit read stop w = .ok (some unit, w')) (hsome : st.responseOffset = some offset) :
    pageTurn read stop byteLength requestedOffset length st w =
      pageUnit read stop byteLength requestedOffset length st unit w' := by
  change (readUnit read stop w >>= fun x => _) = _
  rw [hunit]
  change (if st.responseOffset.isNone then _ else _ : ByteReading _) w' = _
  rw [hsome]
  rfl

theorem pageTurn_start {st : PageState} (hnone : st.responseOffset = none)
    (heq : st.decodedOffset = requestedOffset) (w : ByteWindow) :
    pageTurn read stop byteLength requestedOffset length st w =
      pageTurn read stop byteLength requestedOffset length { st with
        responseOffset := some requestedOffset } w := by
  change (readUnit read stop w >>= fun x => _) = (readUnit read stop w >>= fun x => _)
  cases readUnit read stop w with
  | error e => rfl
  | ok x =>
    obtain ⟨unit, w'⟩ := x
    cases unit with
    | none =>
      obtain ⟨decodedOffset, responseOffset, bodyBytes, body⟩ := st
      cases hnone
      rfl
    | some unit =>
      change (if st.responseOffset.isNone then _ else _ : ByteReading _) w' = _
      rw [hnone, if_pos Option.isNone_none, if_neg (by omega), heq]
      rfl

theorem pageUnit_full {st : PageState} {unit : List CodeUnit}
    (hfull : length < st.bodyBytes + utf8Length unit) (hbody : st.bodyBytes ≠ 0) (w : ByteWindow) :
    pageUnit read stop byteLength requestedOffset length st unit w =
      .ok (.inl (some (st.result requestedOffset false)), w) := by
  unfold pageUnit
  simp only
  rw [if_pos hfull, if_neg hbody]
  rfl

theorem pageUnit_last {st : PageState} {unit : List CodeUnit} {w w' : ByteWindow}
    (hfits : st.bodyBytes + utf8Length unit ≤ length)
    (hend : st.decodedOffset + utf8Length unit = byteLength)
    (hunit : readUnit read stop w = .ok (none, w')) (hstop : w'.position = stop) :
    pageUnit read stop byteLength requestedOffset length st unit w =
      .ok (.inl (some ((st.push unit).result requestedOffset true)), w') := by
  unfold pageUnit
  simp only
  rw [if_neg (Nat.not_lt.mpr hfits), if_pos hend]
  change (readUnit read stop w >>= fun x => _) = _
  rw [hunit]
  change (if w'.position ≠ stop then _ else _ : ByteReading _) w' = _
  rw [if_neg (not_not.mpr hstop)]
  rfl

theorem pageUnit_more {st : PageState} {unit : List CodeUnit}
    (hfits : st.bodyBytes + utf8Length unit ≤ length)
    (hend : st.decodedOffset + utf8Length unit ≠ byteLength) (w : ByteWindow) :
    pageUnit read stop byteLength requestedOffset length st unit w =
      .ok (if st.bodyBytes + utf8Length unit = length
        then .inl (some ((st.push unit).result requestedOffset false))
        else .inr (st.push unit), w) := by
  unfold pageUnit
  simp only
  rw [if_neg (Nat.not_lt.mpr hfits), if_neg hend]
  split
  · rfl
  · rfl

theorem pageLoop_inl {st : PageState} {w w' : ByteWindow} {page : Option StringPage}
    (h : pageTurn read stop byteLength requestedOffset length st w = .ok (.inl page, w'))
    (fuel : Nat) :
    pageLoop read stop byteLength requestedOffset length (fuel + 1) st w = .ok (page, w') := by
  change (pageTurn read stop byteLength requestedOffset length st w >>= fun x => _) = _
  rw [h]
  rfl

theorem pageLoop_inr {st st' : PageState} {w w' : ByteWindow}
    (h : pageTurn read stop byteLength requestedOffset length st w = .ok (.inr st', w'))
    (fuel : Nat) :
    pageLoop read stop byteLength requestedOffset length (fuel + 1) st w =
      pageLoop read stop byteLength requestedOffset length fuel st' w' := by
  change (pageTurn read stop byteLength requestedOffset length st w >>= fun x => _) = _
  rw [h]
  rfl

theorem readUnit_end (hread : ∀ start stop, read start stop = .ok (subarray bytes start stop))
    {w : ByteWindow} (hw : w.At bytes stop (quotedBytes [])) :
    ∃ w', readUnit read stop w = .ok (none, w') ∧ w'.position = stop := by
  obtain ⟨w', hunit, hw'⟩ := (readUnit_quote (r := []) hread).run _ _ hw
  exact ⟨w', hunit, hw'.stop_eq⟩

theorem pageLoop_fill (hread : ∀ start stop, read start stop = .ok (subarray bytes start stop))
    (hlength : 4 ≤ length) {points : List CodePoint} (hstring : IsString points)
    (hmark : .scalar byteOrderMark ∉ points) {offset fuel : Nat} (hfuel : points.length < fuel)
    {st : PageState} (hstart : st.responseOffset = some offset)
    (hbytes : st.decodedOffset + pointsBytes points = byteLength) (hbody : st.bodyBytes ≤ length)
    {w : ByteWindow} (hw : w.At bytes stop (quotedBytes points)) :
    ∃ c d w', points = c ++ d ∧ pageLoop read stop byteLength requestedOffset length fuel st w =
        .ok (some ⟨st.body.result ++ pointsUnits c, d = [], offset⟩, w') ∧
      st.bodyBytes + pointsBytes c ≤ length ∧ (st.bodyBytes = 0 → c = [] → points = []) := by
  induction points generalizing fuel st w with
  | nil =>
    obtain ⟨fuel, rfl⟩ := Nat.exists_eq_succ_of_ne_zero (Nat.ne_zero_of_lt hfuel)
    obtain ⟨w', hunit, hstop⟩ := readUnit_end hread hw
    refine ⟨[], [], w', rfl, ?_, hbody, fun _ _ => rfl⟩
    rw [pageLoop_inl (pageTurn_none hunit hstop hbytes), PageState.result, hstart, pointsUnits,
      List.flatMap_nil, List.append_nil]
    rfl
  | cons p points ih =>
    obtain ⟨fuel, rfl⟩ := Nat.exists_eq_succ_of_ne_zero (Nat.ne_zero_of_lt hfuel)
    have hrest : IsString points := (IsString.append (a := [p]) hstring).2
    have hsize := hstring.utf8Length_units
    have hpos := p.toChar.utf8Size_pos
    have hfour := p.toChar.utf8Size_le_four
    have hp : readOf p = p.units := readOf_eq fun h => hmark (h ▸ List.mem_cons_self)
    rw [quotedBytes_cons] at hw
    obtain ⟨w₁, hunit, hw₁⟩ := (readUnit_point hread hstring).run _ _ hw
    rw [hp] at hunit
    have hturn := @pageTurn_unit stop read byteLength requestedOffset length _ _ _ _ _ hunit hstart
    rw [pointsBytes_cons] at hbytes
    have hresult : (st.push p.units).body.result = st.body.result ++ p.units :=
      ChunkJsonParser.StringOutput.result_append _ _
    by_cases hfits : st.bodyBytes + utf8Length p.units ≤ length
    · by_cases hend : points = []
      · subst hend
        obtain ⟨w₂, hunit₂, hstop⟩ := readUnit_end hread hw₁
        rw [pageUnit_last hfits (by rw [hsize]; simpa using hbytes) hunit₂ hstop] at hturn
        refine ⟨[p], [], w₂, rfl, ?_, ?_, fun _ h => absurd h (List.cons_ne_nil _ _)⟩
        · rw [pageLoop_inl hturn, PageState.result, hresult, pointsUnits, List.flatMap_singleton]
          simp [PageState.push, hstart]
        · rw [pointsBytes_cons, pointsBytes_nil, ← hsize]
          exact hfits
      · have hne : st.decodedOffset + utf8Length p.units ≠ byteLength := by
          have := mt pointsBytes_eq_zero.mp hend
          omega
        rw [pageUnit_more hfits hne] at hturn
        by_cases hexact : st.bodyBytes + utf8Length p.units = length
        · rw [if_pos hexact] at hturn
          refine ⟨[p], points, w₁, rfl, ?_, ?_, fun _ h => absurd h (List.cons_ne_nil _ _)⟩
          · rw [pageLoop_inl hturn, PageState.result, hresult, pointsUnits, List.flatMap_singleton]
            simp [PageState.push, hstart, hend]
          · rw [pointsBytes_cons, pointsBytes_nil, ← hsize]
            exact hfits
        · rw [if_neg hexact] at hturn
          have hbytes' : (st.push p.units).decodedOffset + pointsBytes points = byteLength := by
            change st.decodedOffset + utf8Length p.units + pointsBytes points = byteLength
            omega
          have hstart' : (st.push p.units).responseOffset = some offset := hstart
          obtain ⟨c, d, w₂, hcd, hloop, hle, -⟩ := ih hrest
            (fun h => hmark (List.mem_cons_of_mem _ h)) (Nat.lt_of_succ_lt_succ hfuel) hstart'
            hbytes' hfits hw₁
          refine ⟨p :: c, d, w₂, by rw [hcd]; rfl, ?_, ?_,
            fun _ h => absurd h (List.cons_ne_nil _ _)⟩
          · rw [pageLoop_inr hturn, hloop, hresult, pointsUnits, pointsUnits, List.flatMap_cons,
              List.append_assoc]
          · change st.bodyBytes + utf8Length p.units + pointsBytes c ≤ length at hle
            rw [pointsBytes_cons]
            omega
    · have hbody' : st.bodyBytes ≠ 0 := by omega
      rw [pageUnit_full (Nat.not_le.mp hfits) hbody'] at hturn
      refine ⟨[], p :: points, w₁, rfl, ?_, hbody, fun h => absurd h hbody'⟩
      rw [pageLoop_inl hturn, PageState.result, hstart, pointsUnits, List.flatMap_nil,
        List.append_nil]
      rfl

theorem pageLoop_start {st : PageState} (hnone : st.responseOffset = none)
    (heq : st.decodedOffset = requestedOffset) (fuel : Nat) (w : ByteWindow) :
    pageLoop read stop byteLength requestedOffset length fuel st w =
      pageLoop read stop byteLength requestedOffset length fuel { st with
        responseOffset := some requestedOffset } w := by
  cases fuel with
  | zero => rfl
  | succ fuel =>
    change (pageTurn read stop byteLength requestedOffset length st w >>= fun x => _) =
      (pageTurn read stop byteLength requestedOffset length _ w >>= fun x => _)
    rw [pageTurn_start hnone heq]

theorem pageLoop_eq (hread : ∀ start stop, read start stop = .ok (subarray bytes start stop))
    (hlength : 4 ≤ length) {a b : List CodePoint} (hstring : IsString (a ++ b))
    (hmark : .scalar byteOrderMark ∉ a ++ b) {fuel : Nat} (hfuel : (a ++ b).length < fuel)
    {st : PageState} (hnone : st.responseOffset = none) (hbody : st.bodyBytes = 0)
    (hskip : st.decodedOffset + pointsBytes a = requestedOffset)
    (hbytes : requestedOffset + pointsBytes b = byteLength) {w : ByteWindow}
    (hw : w.At bytes stop (quotedBytes (a ++ b))) :
    ∃ c d w', b = c ++ d ∧ pageLoop read stop byteLength requestedOffset length fuel st w =
        .ok (some ⟨st.body.result ++ pointsUnits c, d = [], requestedOffset⟩, w') ∧
      pointsBytes c ≤ length ∧ (c = [] → b = []) := by
  induction a generalizing fuel st w with
  | nil =>
    have heq : st.decodedOffset = requestedOffset := hskip
    have hstart : ({ st with responseOffset := some requestedOffset } : PageState).responseOffset =
      some requestedOffset := rfl
    obtain ⟨c, d, w', hcd, hloop, hle, hne⟩ :=
      pageLoop_fill hread hlength hstring hmark hfuel hstart (heq ▸ hbytes)
      (Nat.le_of_eq hbody |>.trans (Nat.zero_le _)) hw
    refine ⟨c, d, w', hcd, (pageLoop_start hnone heq fuel w).trans hloop, ?_, hne hbody⟩
    exact Nat.le_trans (Nat.le_add_left _ _) hle
  | cons p a ih =>
    obtain ⟨fuel, rfl⟩ := Nat.exists_eq_succ_of_ne_zero (Nat.ne_zero_of_lt hfuel)
    have hrest : IsString (a ++ b) := (IsString.append (a := [p]) hstring).2
    have hsize := hstring.utf8Length_units
    have hpos := p.toChar.utf8Size_pos
    have hp : readOf p = p.units := readOf_eq fun h => hmark (h ▸ List.mem_cons_self)
    rw [List.cons_append, quotedBytes_cons] at hw
    obtain ⟨w₁, hunit, hw₁⟩ := (readUnit_point hread hstring).run _ _ hw
    rw [hp] at hunit
    rw [pointsBytes_cons] at hskip
    rw [pageLoop_inr (pageTurn_skip hunit hnone (by omega) (by omega))]
    have hnone' : ({ st with
        decodedOffset := st.decodedOffset + utf8Length p.units } : PageState).responseOffset =
      none := hnone
    refine ih hrest
      (fun h => hmark (List.mem_cons_of_mem _ h)) (Nat.lt_of_succ_lt_succ hfuel) hnone' hbody ?_ hw₁
    change st.decodedOffset + utf8Length p.units + pointsBytes a = requestedOffset
    omega

end

def checkpointAt (a : List CodePoint) : StringCheckpoint :=
  ⟨pointsBytes a, 1 + byteLength (a.flatMap quotePoint)⟩

structure Indexes (points : List CodePoint) (offset : Nat) (index : EscapedStringIndex) : Prop where
  offset_eq : offset = 1 + byteLength (points.flatMap quotePoint)
  byteLength_eq : index.byteLength = pointsBytes points
  head_eq : index.checkpoints.head? = some ⟨0, 1⟩
  eq_checkpointAt : ∀ checkpoint ∈ index.checkpoints, ∃ a, a <+: points ∧ checkpoint = checkpointAt a

theorem Indexes.push {points : List CodePoint} {offset : Nat} {index : EscapedStringIndex}
    (h : Indexes points offset index) :
    Indexes points offset ⟨index.byteLength, index.checkpoints ++ [⟨index.byteLength, offset⟩]⟩ := by
  refine ⟨h.offset_eq, h.byteLength_eq, ?_, fun checkpoint hmem => ?_⟩
  · rw [List.head?_append, h.head_eq]
    rfl
  · obtain hmem | hmem := List.mem_append.mp hmem
    · exact h.eq_checkpointAt checkpoint hmem
    · rw [List.mem_singleton] at hmem
      exact ⟨points, List.prefix_refl _, by rw [hmem, h.offset_eq, h.byteLength_eq, checkpointAt]⟩

theorem Indexes.step {points : List CodePoint} {offset : Nat} {index : EscapedStringIndex}
    {p : CodePoint} (h : Indexes points offset index) (hp : utf8Length p.units = p.toChar.utf8Size) :
    Indexes (points ++ [p]) (indexStep (offset, index) p).1 (indexStep (offset, index) p).2 := by
  have hoffset : offset + utf8Length (charsUnits (quotePoint p)) = 1 +
      byteLength ((points ++ [p]).flatMap quotePoint) := by
    rw [utf8Length_charsUnits, List.flatMap_append, List.flatMap_singleton, byteLength_append,
      h.offset_eq, Nat.add_assoc]
  have hnext : Indexes (points ++ [p]) (offset + utf8Length (charsUnits (quotePoint p)))
      ⟨index.byteLength + utf8Length p.units, index.checkpoints⟩ := by
    refine ⟨hoffset, ?_, h.head_eq, fun checkpoint hmem => ?_⟩
    · change index.byteLength + utf8Length p.units = _
      rw [h.byteLength_eq, hp, pointsBytes_append, pointsBytes_cons, pointsBytes_nil, Nat.add_zero]
    · obtain ⟨a, ha, rfl⟩ := h.eq_checkpointAt checkpoint hmem
      exact ⟨a, ha.trans (List.prefix_append _ _), rfl⟩
  simp only [indexStep, EscapedStringIndex.add]
  split
  · exact hnext.push
  · exact hnext

theorem Indexes.foldl {done points : List CodePoint} {offset : Nat} {index : EscapedStringIndex}
    (h : Indexes done offset index)
    (hpoints : ∀ p ∈ points, utf8Length p.units = p.toChar.utf8Size) :
    Indexes (done ++ points) (points.foldl indexStep (offset, index)).1
      (points.foldl indexStep (offset, index)).2 := by
  induction points generalizing done offset index with
  | nil => rwa [List.append_nil]
  | cons p points ih =>
    have hrest := ih (h.step (hpoints p List.mem_cons_self)) fun q hq =>
      hpoints q (List.mem_cons_of_mem _ hq)
    rwa [List.append_assoc, List.singleton_append] at hrest

theorem indexes_stringIndexOf (s : List CodeUnit) :
    ∃ offset, Indexes (codePoints s) offset (stringIndexOf s) := by
  have hempty : Indexes [] 1 ⟨0, [⟨0, 1⟩]⟩ := by
    refine ⟨rfl, rfl, rfl, fun checkpoint hmem => ⟨[], List.prefix_refl _, ?_⟩⟩
    exact List.mem_singleton.mp hmem
  have hall := hempty.foldl fun p (hp : p ∈ codePoints s) => by
    obtain ⟨a, b, hsplit⟩ := List.append_of_mem hp
    exact IsString.utf8Length_units (IsString.append (hsplit ▸ isString_codePoints s)).2
  rw [List.nil_append] at hall
  rw [stringIndexOf]
  generalize (codePoints s).foldl indexStep (1, ⟨0, [⟨0, 1⟩]⟩) = acc at hall ⊢
  refine ⟨acc.1, ?_⟩
  simp only [EscapedStringIndex.close]
  split
  · exact hall.push
  · exact hall

theorem stringCheckpointAtOrBefore_eq {points : List CodePoint} {offset : Nat}
    {index : EscapedStringIndex} (h : Indexes points offset index) (requestedOffset : Nat) :
    ∃ a b, points = a ++ b ∧ pointsBytes a ≤ requestedOffset ∧
      stringCheckpointAtOrBefore index.checkpoints requestedOffset = .ok (checkpointAt a) := by
  obtain ⟨first, rest, hcheckpoints⟩ :=
    List.exists_cons_of_ne_nil (l := index.checkpoints) fun hnil => by
    have hhead := h.head_eq
    rw [hnil] at hhead
    cases hhead
  have hfirst : first = ⟨0, 1⟩ := by
    have hhead := h.head_eq
    rw [hcheckpoints] at hhead
    exact Option.some.inj hhead
  generalize hlow : firstFalse
    (fun middle => index.checkpoints[middle]?.any (·.decodedOffset ≤ requestedOffset)) 0
    index.checkpoints.length = low
  obtain ⟨-, hle, htrue, hfalse⟩ := firstFalse_spec
    (p := fun middle => index.checkpoints[middle]?.any (·.decodedOffset ≤ requestedOffset))
    (Nat.zero_le index.checkpoints.length)
  rw [hlow] at hle htrue hfalse
  have hpos : 0 < low := by
    by_contra hzero
    obtain rfl : low = 0 := Nat.eq_zero_of_not_pos hzero
    have hfails := hfalse (by rw [hcheckpoints]; exact Nat.succ_pos _)
    rw [hcheckpoints, hfirst] at hfails
    simp at hfails
  obtain ⟨checkpoint, hget, hbefore⟩ := (Option.any_eq_true _ _).mp (htrue hpos)
  obtain ⟨a, ⟨b, rfl⟩, rfl⟩ := h.eq_checkpointAt checkpoint (List.mem_of_getElem? hget)
  refine ⟨a, b, rfl, of_decide_eq_true hbefore, ?_⟩
  unfold stringCheckpointAtOrBefore
  rw [hlow]
  rw [hcheckpoints] at hget ⊢
  simp only [hget, Option.getD_some]

theorem subarray_eq_middle (x y z : List UInt8) :
    subarray (x ++ y ++ z) x.length (x.length + y.length) = y := by
  rw [subarray, ← List.length_append, List.take_left, List.drop_left]

theorem utf8Bytes_quoteString {s : List CodeUnit} {a b : List CodePoint}
    (h : codePoints s = a ++ b) :
    utf8Bytes (quoteString s) = 0x22 :: utf8Bytes (a.flatMap quotePoint) ++ quotedBytes b := by
  rw [quoteString, h, List.flatMap_append, List.cons_append, utf8Bytes_cons, utf8Bytes_append,
    utf8Bytes_append, List.append_assoc]
  rfl

theorem length_lt_quotedBytes (points : List CodePoint) :
    points.length < (quotedBytes points).length := by
  induction points with
  | nil => exact Nat.one_pos
  | cons p points ih =>
    have hne : quotePoint p ≠ [] := by
      cases p with
      | lone u => exact List.cons_ne_nil _ _
      | scalar c =>
        rw [quotePoint]
        obtain ⟨e, hquoted, -⟩ | ⟨-, hquoted⟩ | ⟨-, -, -, hquoted⟩ :=
          quoteChar_cases c <;> rw [hquoted] <;>
          exact List.cons_ne_nil _ _
    have hpos := mt byteLength_eq_zero.mp hne
    rw [quotedBytes_cons, List.length_append, length_utf8Bytes, List.length_cons]
    omega

section

variable {bytes : List UInt8} {start stop : Nat} {s : List CodeUnit}

theorem Delimits.at_checkpoint (h : Delimits bytes start stop (quoteString s)) {a b : List CodePoint}
    (hsplit : codePoints s = a ++ b) :
    ByteWindow.At bytes stop ⟨start + (checkpointAt a).serializedOffset,
      start + (checkpointAt a).serializedOffset, []⟩
      (quotedBytes b) := by
  obtain ⟨pre, post, hbytes, rfl, rfl⟩ := h
  have hstop := congrArg List.length (utf8Bytes_quoteString hsplit)
  rw [length_utf8Bytes, List.length_append, List.length_cons, length_utf8Bytes] at hstop
  have hoffset : (checkpointAt a).serializedOffset = 1 + byteLength (a.flatMap quotePoint) := rfl
  have hposition : pre.length + (checkpointAt a).serializedOffset =
      (pre ++ 0x22 :: utf8Bytes (a.flatMap quotePoint)).length := by
    rw [List.length_append, List.length_cons, length_utf8Bytes, hoffset]
    omega
  refine ⟨Nat.le_refl _, ⟨0, (subarray_eq_nil (.inr (Nat.zero_le _))).symm⟩, ?_, ?_⟩
  · have hcut :=
      subarray_eq_middle (pre ++ 0x22 :: utf8Bytes (a.flatMap quotePoint)) (quotedBytes b) post
    rw [← hposition, List.append_assoc pre, ← utf8Bytes_quoteString hsplit, ← hbytes] at hcut
    refine Eq.trans ?_ hcut
    congr 1
    rw [hstop, hoffset]
    omega
  · change pre.length + (checkpointAt a).serializedOffset + (quotedBytes b).length = pre.length +
      byteLength (quoteString s)
    rw [hstop, hoffset]
    omega

variable {Hash : Type} [DecidableEq Hash] {objects : ObjectStore Hash}
    {revision : StoredRevision Hash} {info : FieldInfo}

theorem readEscapedStringRange_eq (hbytes : revision.Holds objects bytes)
    (h : Delimits bytes start stop (quoteString s)) (offset length : Nat) :
    ∃ a b w, codePoints s = a ++ b ∧ pointsBytes a ≤ min offset (pointsBytes (codePoints s)) ∧
      ByteWindow.At bytes stop w (quotedBytes b) ∧ ∃ fuel, b.length < fuel ∧
        readEscapedStringRange objects revision ⟨info, start, stop⟩ (stringIndexOf s) offset length =
          (pageLoop (readBytes objects revision) stop (pointsBytes (codePoints s))
            (min offset (pointsBytes (codePoints s))) length fuel ⟨pointsBytes a, none, 0,
              ⟨[], []⟩⟩).run' w := by
  obtain ⟨end', hindex⟩ := indexes_stringIndexOf s
  obtain ⟨a, b, hsplit, hle, hcheckpoint⟩ :=
    stringCheckpointAtOrBefore_eq hindex (min offset (stringIndexOf s).byteLength)
  have hw := h.at_checkpoint hsplit
  have hquote : subarray bytes start (start + 1) = [0x22] := by
    obtain ⟨pre, post, hbytes, rfl, -⟩ := h
    rw [utf8Bytes_quoteString (List.nil_append _).symm, List.flatMap_nil] at hbytes
    have hcut := subarray_eq_middle pre [0x22] (quotedBytes (codePoints s) ++ post)
    rw [hbytes]
    simpa [utf8Bytes] using hcut
  rw [hindex.byteLength_eq] at hle hcheckpoint
  refine ⟨a, b, _, hsplit, hle, hw, stop - (start + (checkpointAt a).serializedOffset) + 1, ?_, ?_⟩
  · have hstop := hw.stop_eq
    have := length_lt_quotedBytes b
    simp only at hstop
    omega
  · unfold readEscapedStringRange
    simp only
    rw [hbytes.readBytes, hquote, hindex.byteLength_eq, hcheckpoint]
    rfl

theorem prefix_of_pointsBytes_le {a b c d : List CodePoint} (h : a ++ b = c ++ d)
    (hle : pointsBytes a ≤ pointsBytes c) :
    a <+: c := by
  obtain ⟨e, rfl, -⟩ | ⟨e, rfl, -⟩ := List.append_eq_append_iff.mp h
  · exact List.prefix_append _ _
  · have hempty : pointsBytes e = 0 := by
      rw [pointsBytes_append] at hle
      omega
    obtain rfl := pointsBytes_eq_zero.mp hempty
    exact ⟨[], by simp⟩

theorem readEscapedStringRange_page (hbytes : revision.Holds objects bytes)
    (h : Delimits bytes start stop (quoteString s)) (hmark : .scalar byteOrderMark ∉ codePoints s)
    {length : Nat} (hlength : 4 ≤ length) {a b : List CodePoint} (hsplit : codePoints s = a ++ b) :
    ∃ c d, b = c ++ d ∧ readEscapedStringRange objects revision ⟨info, start, stop⟩ (stringIndexOf s)
      (pointsBytes a)
        length = .ok (some ⟨pointsUnits c, d = [], pointsBytes a⟩) ∧
      pointsBytes c ≤ length ∧ (c = [] → b = []) := by
  obtain ⟨a₁, rest, w, hsplit₁, hle, hw, fuel, hfuel, heq⟩ :=
    readEscapedStringRange_eq hbytes h (pointsBytes a) length
  have hmin : min (pointsBytes a) (pointsBytes (codePoints s)) = pointsBytes a := by
    rw [hsplit, pointsBytes_append]
    omega
  rw [hmin] at hle heq
  obtain ⟨a₂, rfl⟩ := prefix_of_pointsBytes_le (hsplit₁.symm.trans hsplit) hle
  obtain rfl : rest = a₂ ++ b := by
    rw [hsplit, List.append_assoc] at hsplit₁
    exact (List.append_cancel_left hsplit₁).symm
  have hrest : IsString (a₂ ++ b) := (IsString.append (hsplit₁ ▸ isString_codePoints s)).2
  have hmark' : .scalar byteOrderMark ∉ a₂ ++ b := fun hmem =>
    hmark (hsplit₁ ▸ List.mem_append_right _ hmem)
  have htotal : pointsBytes (a₁ ++ a₂) + pointsBytes b = pointsBytes (codePoints s) := by
    rw [hsplit, pointsBytes_append _ b]
  have hfresh : (⟨pointsBytes a₁, none, 0, ⟨[], []⟩⟩ : PageState).responseOffset = none := rfl
  obtain ⟨c, d, w', hcd, hloop, hfits, hne⟩ := pageLoop_eq hbytes.readBytes
    hlength hrest hmark' hfuel hfresh rfl (pointsBytes_append a₁ a₂).symm htotal hw
  refine ⟨c, d, hcd, ?_, hfits, hne⟩
  rw [heq]
  change (fun x : Option StringPage × ByteWindow => x.1) <$> pageLoop _ _ _ _ _ _ _ w = _
  rw [hloop]
  rfl

def TurnKeeps (body unit : List CodeUnit) (w : ByteWindow) :
    (Option StringPage ⊕ PageState) × ByteWindow → Prop
  | (.inl page, _) => ∀ p ∈ page, p.body = body ∨ p.body = body ++ unit
  | (.inr st, w') => w' = w ∧ (st.body.result = body ∨ st.body.result = body ++ unit)

variable {read : Nat → Nat → Except StringRangeError (List UInt8)}
    {byteLength requestedOffset length : Nat}

theorem pageUnit_keeps {st : PageState} {unit : List CodeUnit} {w : ByteWindow}
    {result : (Option StringPage ⊕ PageState) × ByteWindow}
    (h : pageUnit read stop byteLength requestedOffset length st unit w = .ok result) :
    TurnKeeps st.body.result unit w result := by
  have hpush : (st.push unit).body.result = st.body.result ++ unit :=
    ChunkJsonParser.StringOutput.result_append _ _
  unfold pageUnit at h
  simp only at h
  split at h
  · cases h
    split
    · rintro p ⟨⟩
    · rintro p ⟨⟩
      exact .inl rfl
  split at h
  · change (readUnit read stop w >>= fun x => _) = _ at h
    cases hunit : readUnit read stop w with
    | error e =>
      rw [hunit] at h
      cases h
    | ok x =>
      obtain ⟨unit', w₁⟩ := x
      rw [hunit] at h
      change (if unit' ≠ none then _ else _ : ByteReading _) w₁ = _ at h
      split at h
      · cases h
      · change (if w₁.position ≠ stop then _ else _ : ByteReading _) w₁ = _ at h
        split at h
        · cases h
        · cases h
          rintro p ⟨⟩
          exact .inr hpush
  · split at h
    · cases h
      rintro p ⟨⟩
      exact .inr hpush
    · cases h
      exact ⟨rfl, .inr hpush⟩

theorem pageTurn_keeps {st : PageState} {unit : List CodeUnit} {w w₁ : ByteWindow}
    {result : (Option StringPage ⊕ PageState) × ByteWindow}
    (hunit : readUnit read stop w = .ok (some unit, w₁))
    (h : pageTurn read stop byteLength requestedOffset length st w = .ok result) :
    TurnKeeps st.body.result unit w₁ result := by
  change (readUnit read stop w >>= fun x => _) = _ at h
  rw [hunit] at h
  change (if st.responseOffset.isNone then _ else _ : ByteReading _) w₁ = _ at h
  split at h
  · split at h
    · change (if _ then _ else _ : ByteReading _) w₁ = _ at h
      split at h
      · cases h
        exact ⟨rfl, .inl rfl⟩
      · cases h
        exact ⟨rfl, .inl rfl⟩
    · have hunit' : pageUnit read stop byteLength requestedOffset length
          { st with responseOffset := some st.decodedOffset } unit w₁ = .ok result := h
      have hkeeps := pageUnit_keeps hunit'
      exact hkeeps
  · exact pageUnit_keeps h

theorem mark_notMem_pageLoop
    (hread : ∀ start stop, read start stop = .ok (subarray bytes start stop))
    {points : List CodePoint} (hstring : IsString points) {fuel : Nat} {st : PageState}
    (hbody : 0xfeff ∉ st.body.result) {w w' : ByteWindow} (hw : w.At bytes stop (quotedBytes points))
    {page : StringPage} (h : pageLoop read stop byteLength requestedOffset length fuel st w =
      .ok (some page, w')) : 0xfeff ∉ page.body := by
  induction fuel generalizing points st w with
  | zero => cases h
  | succ fuel ih =>
    change (pageTurn read stop byteLength requestedOffset length st w >>= fun x => _) = _ at h
    cases hturn : pageTurn read stop byteLength requestedOffset length st w with
    | error e =>
      rw [hturn] at h
      cases h
    | ok x =>
      obtain ⟨result, w₂⟩ := x
      rw [hturn] at h
      cases points with
      | nil =>
        obtain ⟨w₁, hunit, hstop⟩ := readUnit_end hread hw
        change (readUnit read stop w >>= fun x => _) = _ at hturn
        rw [hunit] at hturn
        change (if w₁.position ≠ stop ∨ st.decodedOffset ≠ byteLength then _ else _ : ByteReading _)
          w₁ = _ at hturn
        split at hturn
        · cases hturn
        · cases hturn
          cases h
          exact hbody
      | cons p points =>
        rw [quotedBytes_cons] at hw
        obtain ⟨w₁, hunit, hw₁⟩ := (readUnit_point hread hstring).run _ _ hw
        have hp := mark_notMem_readOf hstring
        have hboth : 0xfeff ∉ st.body.result ++ readOf p := fun hmem =>
          (List.mem_append.mp hmem).elim hbody hp
        have hkeeps := pageTurn_keeps hunit hturn
        cases result with
        | inl page' =>
          cases h
          obtain hpage | hpage := hkeeps page rfl
          · rwa [hpage]
          · rwa [hpage]
        | inr st' =>
          obtain ⟨rfl, hst⟩ := hkeeps
          refine ih (IsString.append (a := [p]) hstring).2 ?_ hw₁ h
          obtain hst | hst := hst
          · rwa [hst]
          · rwa [hst]

theorem mark_notMem_readEscapedStringRange (hbytes : revision.Holds objects bytes)
    (h : Delimits bytes start stop (quoteString s)) {offset : Nat} {page : StringPage}
    (hpage : readEscapedStringRange objects revision ⟨info, start, stop⟩ (stringIndexOf s)
      offset length =
      .ok (some page)) : 0xfeff ∉ page.body := by
  obtain ⟨a, b, w, hsplit, -, hw, fuel, -, heq⟩ := readEscapedStringRange_eq hbytes h offset length
  rw [heq] at hpage
  change (fun x : Option StringPage × ByteWindow => x.1) <$> pageLoop _ _ _ _ _ _ _ w = _ at hpage
  cases hloop : pageLoop (readBytes objects revision) stop (pointsBytes (codePoints s))
      (min offset (pointsBytes (codePoints s))) length fuel ⟨pointsBytes a, none, 0, ⟨[], []⟩⟩ w with
  | error e =>
    rw [hloop] at hpage
    cases hpage
  | ok x =>
    rw [hloop] at hpage
    obtain ⟨page', w'⟩ := x
    cases hpage
    exact mark_notMem_pageLoop hbytes.readBytes (IsString.append (hsplit ▸ isString_codePoints s)).2
      List.not_mem_nil hw hloop

end

theorem bufferText_utf8Bytes (t : Chars) : bufferText (utf8Bytes t) = t := by
  rw [bufferText, Utf8State.run_utf8Bytes]
  change (t.map some ++ []).map (fun c : Option Char => c.getD replacement) = t
  rw [List.append_nil, List.map_map]
  exact List.map_id t

theorem utf8BoundaryAtOrBefore_eq_retreat (bytes : List UInt8) (offset : Nat) :
    utf8BoundaryAtOrBefore bytes offset = Session.retreat bytes offset := by
  induction offset with
  | zero => rfl
  | succ offset ih =>
    rw [utf8BoundaryAtOrBefore, Session.retreat, ih]
    cases bytes[offset + 1]? <;> rfl

theorem utf8BoundaryAtOrBefore_window (t : Chars) (length : Nat) :
    utf8BoundaryAtOrBefore ((utf8Bytes t).take (length + 7))
      (min ((utf8Bytes t).take (length + 7)).length length) =
      byteLength (fitPrefix length t) := by
  rw [utf8BoundaryAtOrBefore_eq_retreat, List.length_take, length_utf8Bytes]
  by_cases hall : byteLength t ≤ length
  · have hmin : min (min (length + 7) (byteLength t)) length = byteLength t := by omega
    have hend : (utf8Bytes t)[byteLength t]? = none := by
      rw [List.getElem?_eq_none_iff, length_utf8Bytes]
    rw [fitPrefix_of_le hall, hmin, List.take_of_length_le (by rw [length_utf8Bytes]; omega)]
    cases hzero : byteLength t with
    | zero => rfl
    | succ n =>
      rw [hzero] at hend
      rw [Session.retreat, hend]
      rfl
  · obtain ⟨c, u, hsplit, hlt⟩ := fitPrefix_next (Nat.not_le.mp hall)
    obtain ⟨b, bs, henc, hb, hbs⟩ := utf8EncodeChar_eq c
    have hle := byteLength_fitPrefix_le length t
    have hfour := c.utf8Size_le_four
    have hsize : (b :: bs).length = c.utf8Size := by rw [← henc, String.length_utf8EncodeChar]
    have hbytes : utf8Bytes t = utf8Bytes (fitPrefix length t) ++ b :: bs ++ utf8Bytes u := by
      conv => lhs; rw [hsplit]
      rw [utf8Bytes_append, utf8Bytes_cons, henc, List.append_assoc]
    have hlength : (utf8Bytes (fitPrefix length t) ++ b :: bs).length =
        byteLength (fitPrefix length t) + c.utf8Size := by
      rw [List.length_append, length_utf8Bytes, hsize]
    have hmin : min (min (length + 7) (byteLength t)) length =
        (utf8Bytes (fitPrefix length t)).length + (length - byteLength (fitPrefix length t)) := by
      rw [length_utf8Bytes]
      omega
    rw [hbytes, List.take_append, List.take_of_length_le (by rw [hlength]; omega), hmin,
      Session.retreat_to_lead hb hbs (by rw [List.length_cons] at hsize; omega), length_utf8Bytes]

theorem exists_chars_of_plain {s : List CodeUnit} (h : isPlainJsonString s = true) :
    ∃ t : Chars, s = charsUnits t ∧ ∀ c ∈ t, quoteChar c = [c] := by
  induction s with
  | nil => exact ⟨[], rfl, fun c hc => nomatch hc⟩
  | cons u s ih =>
    rw [isPlainJsonString, List.all_cons, Bool.and_eq_true] at h
    obtain ⟨t, rfl, ht⟩ := ih h.2
    have hu : u.toNat ≠ 0x22 ∧ u.toNat ≠ 0x5c ∧ 0x1f < u.toNat ∧
        ¬(0xd800 ≤ u.toNat ∧ u.toNat ≤ 0xdfff) := by
      have hplain := h.1
      simp only [Bool.not_eq_true', Bool.or_eq_false_iff, decide_eq_false_iff_not,
        Bool.and_eq_false_iff, UInt16.le_iff_toNat_le, ← UInt16.toNat_inj] at hplain
      simp only [UInt16.reduceToNat] at hplain
      omega
    have hhigh : isHigh u = false := Bool.eq_false_iff.mpr fun hhigh => by
      have := isHigh_iff.mp hhigh
      omega
    have hlow : isLow u = false := Bool.eq_false_iff.mpr fun hlow => by
      have := isLow_iff.mp hlow
      omega
    have hn : (Char.ofNat u.toNat).toNat = u.toNat := toNat_charOfNat (by have := u.toNat_lt; omega)
    refine ⟨.ofNat u.toNat :: t, ?_, List.forall_mem_cons.mpr ⟨?_, ht⟩⟩
    · rw [charsUnits_cons, charUnits_ofNat hhigh hlow, List.singleton_append]
    · obtain ⟨e, hquoted, hc⟩ | ⟨hcontrol, -⟩ | ⟨-, -, -, hquoted⟩ :=
        quoteChar_cases (.ofNat u.toNat)
      · have hvalue : (Char.ofNat e.value.toNat).toNat ≤ 0x1f ∨
            (Char.ofNat e.value.toNat).toNat = 0x22 ∨
            (Char.ofNat e.value.toNat).toNat = 0x5c ∨ e = .slash := by
          cases e <;> decide
        rw [hc] at hn hquoted
        obtain hvalue | hvalue | hvalue | rfl := hvalue
        · omega
        · omega
        · omega
        · cases hquoted
      · omega
      · exact hquoted

section

variable {bytes : List UInt8} {start stop : Nat} {t : Chars}

theorem quoteString_plain (ht : ∀ c ∈ t, quoteChar c = [c]) :
    quoteString (charsUnits t) = '"' :: t ++ ['"'] := by
  have hquoted : (t.map CodePoint.scalar).flatMap quotePoint = t := by
    rw [List.flatMap_map]
    induction t with
    | nil => rfl
    | cons c t ih =>
      rw [List.flatMap_cons, ih fun d hd => ht d (List.mem_cons_of_mem _ hd), quotePoint,
        ht c List.mem_cons_self]
      rfl
  rw [quoteString, codePoints_charsUnits, hquoted]

variable {read : Nat → Nat → Except StringRangeError (List UInt8)}

theorem readPlainStringRange_page
    (hread : ∀ start stop, read start stop = .ok (subarray bytes start stop))
    (h : Delimits bytes start stop ('"' :: t ++ ['"'])) {length : Nat}
    (hlength : 4 ≤ length) {a b : Chars} (hsplit : t = a ++ b) :
    ∃ c d, b = c ++ d ∧ readPlainStringRange read start (byteLength t) (byteLength a) length =
        .ok (some ⟨charsUnits c, d = [], byteLength a⟩) ∧ byteLength c ≤ length ∧
          (c = [] → b = []) := by
  obtain ⟨pre, post, hbytes, rfl, -⟩ := h
  have htotal : byteLength t = byteLength a + byteLength b := by rw [hsplit, byteLength_append]
  have hsource : subarray bytes (pre.length + 1 + byteLength a)
      (pre.length + 1 + min (byteLength t) (byteLength a + length + 7)) =
      (utf8Bytes b).take (length + 7) := by
    have hcut : bytes = pre ++ 0x22 :: utf8Bytes a ++ (utf8Bytes b ++ (0x22 :: post)) := by
      rw [hbytes, hsplit, List.cons_append, utf8Bytes_cons, utf8Bytes_append, utf8Bytes_append]
      simp [utf8Bytes, String.utf8EncodeChar]
    have hlength' : (pre ++ 0x22 :: utf8Bytes a).length = pre.length + 1 + byteLength a := by
      rw [List.length_append, List.length_cons, length_utf8Bytes]
      omega
    have hstop : pre.length + 1 + min (byteLength t) (byteLength a + length + 7) =
        (pre ++ 0x22 :: utf8Bytes a).length + min (length + 7) (utf8Bytes b).length := by
      rw [hlength', length_utf8Bytes]
      omega
    rw [subarray, hstop, hcut, List.take_length_add_append, ← hlength', List.drop_left,
      List.take_append_of_le_length (Nat.min_le_right _ _), ← List.take_eq_take_min]
  have hskipped : utf8ContinuationPrefixLength ((utf8Bytes b).take (length + 7)) = 0 := by
    cases b with
    | nil => rfl
    | cons c b =>
      obtain ⟨x, xs, henc, hx, -⟩ := utf8EncodeChar_eq c
      rw [utf8Bytes_cons, henc, List.cons_append, List.take_succ_cons, utf8ContinuationPrefixLength,
        List.takeWhile_cons_of_neg (by simp [hx])]
      rfl
  obtain ⟨d, hd⟩ := isPrefix_fitPrefix length b
  have hfit : byteLength (fitPrefix length b) + byteLength d = byteLength b := by
    rw [← byteLength_append, hd]
  have hempty : fitPrefix length b = [] → b = [] := by
    intro hnil
    cases b with
    | nil => rfl
    | cons c b =>
      rw [fitPrefix, if_pos (Nat.le_trans c.utf8Size_le_four hlength)] at hnil
      cases hnil
  refine ⟨fitPrefix length b, d, hd.symm, ?_, byteLength_fitPrefix_le length b, hempty⟩
  have hbody : ((utf8Bytes b).take (length + 7)).take (byteLength (fitPrefix length b)) =
      utf8Bytes (fitPrefix length b) := by
    have hle := byteLength_fitPrefix_le length b
    have hprefix : utf8Bytes b = utf8Bytes (fitPrefix length b) ++ utf8Bytes d := by
      rw [← utf8Bytes_append, hd]
    rw [List.take_take, Nat.min_eq_left (by omega), hprefix, ← length_utf8Bytes, List.take_left]
  have hmin : min (byteLength a) (byteLength t) = byteLength a := by omega
  unfold readPlainStringRange
  simp only [hmin, hread, hsource]
  change (if utf8BoundaryAtOrBefore _ _ = 0 ∧ _ then _ else _ : Except _ _) = _
  rw [hskipped, List.drop_zero, Nat.add_zero, utf8BoundaryAtOrBefore_window, if_neg]
  · rw [hbody, bufferText_utf8Bytes]
    have hcomplete : (byteLength a + byteLength (fitPrefix length b) = byteLength t) ↔ d = [] := by
      rw [← byteLength_eq_zero]
      omega
    simp only [Nat.add_zero, hcomplete]
    rfl
  · rintro ⟨hzero, hlt⟩
    rw [hempty (byteLength_eq_zero.mp hzero), byteLength_nil] at htotal
    omega

end

/-- From an offset on, every page starts where it was asked for and has `length` bytes at most, the
next one is asked for behind it, there is a last one, and together they are the string. -/
inductive Pages (read : Nat → Except StringRangeError (Option StringPage)) (length : Nat) :
    Nat → List CodeUnit → Prop
  | last {offset : Nat} {body : List CodeUnit}
    (hread : read offset = .ok (some ⟨body, true, offset⟩))
      (hbody : utf8Length body ≤ length) : Pages read length offset body
  | next {offset : Nat} {body rest : List CodeUnit}
    (hread : read offset = .ok (some ⟨body, false, offset⟩))
      (hbody : utf8Length body ≤ length)
      (hrest : Pages read length (offset + utf8Length body) rest) :
      Pages read length offset (body ++ rest)

section

variable {read : Nat → Except StringRangeError (Option StringPage)} {length : Nat}
    {s : List CodeUnit}

theorem Pages.exists_page {offset : Nat} {u : CodeUnit} (h : Pages read length offset s)
    (hu : u ∈ s) :
    ∃ offset page, read offset = .ok (some page) ∧ u ∈ page.body := by
  induction h with
  | last hread _ => exact ⟨_, _, hread, hu⟩
  | next hread _ _ ih =>
    obtain hu | hu := List.mem_append.mp hu
    · exact ⟨_, _, hread, hu⟩
    · exact ih hu

theorem pages_of_page (hpage : ∀ a b, codePoints s = a ++ b → ∃ c d, b = c ++ d ∧
      read (pointsBytes a) = .ok (some ⟨pointsUnits c, d = [], pointsBytes a⟩) ∧
        pointsBytes c ≤ length ∧ (c = [] → b = [])) :
    Pages read length 0 s := by
  have hall : ∀ n a b, b.length = n → codePoints s = a ++ b →
      Pages read length (pointsBytes a) (pointsUnits b) := by
    intro n
    induction n using Nat.strongRecOn with
    | ind n ih =>
      intro a b hn hsplit
      obtain ⟨c, d, rfl, hread, hle, hempty⟩ := hpage a b hsplit
      have hbytes : utf8Length (pointsUnits c) = pointsBytes c :=
        (IsString.append (IsString.append (hsplit ▸ isString_codePoints s)).2).1.utf8Length
      have hbody : utf8Length (pointsUnits c) ≤ length := hbytes.trans_le hle
      by_cases hd : d = []
      · subst hd
        rw [List.append_nil]
        exact .last (by simpa using hread) hbody
      · have hlt : d.length < n := by
          have hc : c ≠ [] := fun hc => hd (List.append_eq_nil_iff.mp (hempty hc)).2
          have := List.length_pos_iff.mpr hc
          rw [List.length_append] at hn
          omega
        have hrest := ih d.length hlt (a ++ c) d rfl (by rw [hsplit, List.append_assoc])
        rw [pointsBytes_append, ← hbytes] at hrest
        have hunits : pointsUnits (c ++ d) = pointsUnits c ++ pointsUnits d := List.flatMap_append
        rw [hunits]
        exact .next (by simpa [hd] using hread) hbody hrest
  have hs := hall _ [] (codePoints s) rfl rfl
  rwa [pointsUnits_codePoints] at hs

end

section

variable {ν : Type} (numberText : ν → Numeral) {Hash : Type} [DecidableEq Hash]
    {objects : ObjectStore Hash}
  {revision : StoredRevision Hash} {bytes : List UInt8} {start stop : Nat} {s : List CodeUnit}
  {length : Nat}

theorem pages_plain (hbytes : revision.Holds objects bytes)
    (h : Delimits bytes start stop (quoteString s)) (hlength : 4 ≤ length)
    (hplain : isPlainJsonString s = true) :
    Pages (readStringRange objects revision ⟨⟨some (utf8Length s), true, none⟩, start, stop⟩
      · length) length 0 s := by
  obtain ⟨t, rfl, ht⟩ := exists_chars_of_plain hplain
  rw [quoteString_plain ht] at h
  refine pages_of_page fun a b hsplit => ?_
  rw [codePoints_charsUnits] at hsplit
  obtain ⟨a, b, rfl, rfl, rfl⟩ := List.map_eq_append_iff.mp hsplit
  obtain ⟨c, d, rfl, hpage, hle, hempty⟩ := readPlainStringRange_page hbytes.readBytes h hlength rfl
  have hbytes' (x : Chars) : pointsBytes (x.map .scalar) = byteLength x := by
    rw [pointsBytes, List.map_map]
    exact congrArg byteLength (List.map_id x)
  have hunits (x : Chars) : pointsUnits (x.map .scalar) = charsUnits x := by
    rw [pointsUnits, List.flatMap_map]
    rfl
  refine ⟨c.map .scalar, d.map .scalar, List.map_append, ?_, (hbytes' c).trans_le hle, fun hc => ?_⟩
  · rw [hbytes', hunits, utf8Length_charsUnits]
    simp only [List.map_eq_nil_iff]
    rw [readStringRange, if_neg (by simp; omega)]
    exact hpage
  · rw [hempty (List.map_eq_nil_iff.mp hc), List.map_nil]

theorem pages_escaped_iff (hbytes : revision.Holds objects bytes)
    (h : Delimits bytes start stop (quoteString s)) (hlength : 4 ≤ length) :
    Pages (readStringRange objects revision ⟨⟨none, true, some (stringIndexOf s)⟩, start, stop⟩
      · length) length 0 s ↔
      0xfeff ∉ s := by
  have hread (offset : Nat) :
      readStringRange objects revision ⟨⟨none, true, some (stringIndexOf s)⟩, start, stop⟩
      offset length =
        readEscapedStringRange objects revision ⟨⟨none, true, some (stringIndexOf s)⟩, start, stop⟩
        (stringIndexOf s) offset
          length := by
    rw [readStringRange, if_neg (by simp; omega)]
  constructor
  · intro hpages hmark
    obtain ⟨offset, page, hpage, hmem⟩ := hpages.exists_page hmark
    exact mark_notMem_readEscapedStringRange hbytes h ((hread offset).symm.trans hpage) hmem
  · intro hmark
    rw [mark_mem_iff] at hmark
    refine pages_of_page fun a b hsplit => ?_
    simp only [hread]
    exact readEscapedStringRange_page hbytes h hmark hlength hsplit

/-- Wherever a string is written as a field and wherever the bytes are cut into chunks, its pages
give it back just if it is plain or has no byte order mark. -/
theorem string_pages_iff {chunkBytes : Nat} (hchunk : 4 ≤ chunkBytes) {w : ChunkWriter}
    (hw : w.Valid chunkBytes) (s : List CodeUnit) :
    ∃ info w', encodeIndexedValue chunkBytes numberText (.leaf (.string s)) w = .ok (info, w') ∧
      ∀ (more : List UInt8) (Hash : Type) [DecidableEq Hash] (objects : ObjectStore Hash)
        (revision : StoredRevision Hash), revision.Holds objects
        (w'.content ++ more) → ∀ length, 4 ≤ length →
          (Pages (readStringRange objects revision ⟨info, w.bytes, w'.bytes⟩ · length) length 0 s ↔
            isPlainJsonString s = true ∨ 0xfeff ∉ s) := by
  obtain ⟨info, w', hok, hw', hcontent, hinfo⟩ :=
    encodeIndexedValue_writes numberText hchunk (.leaf (.string s)) w hw trivial
  refine ⟨info, w', hok, fun more Hash _ objects revision hholds length hlength => ?_⟩
  have hplace : Delimits (w'.content ++ more) w.bytes w'.bytes (quoteString s) := by
    refine ⟨w.content, more, by rw [hcontent]; rfl, hw.bytes_eq, ?_⟩
    rw [hw'.bytes_eq, hcontent, List.length_append, length_utf8Bytes]
    rfl
  rw [hinfo, infoOf]
  by_cases hplain : isPlainJsonString s = true
  · rw [if_pos hplain]
    exact iff_of_true (pages_plain hholds hplace hlength hplain) (.inl hplain)
  · rw [if_neg hplain, pages_escaped_iff hholds hplace hlength]
    exact (or_iff_right hplain).symm

end

def noObjects : ObjectStore Unit := ⟨fun _ => (), fun _ => none⟩

theorem valid_empty (chunkBytes : Nat) : ChunkWriter.empty.Valid chunkBytes := ⟨Nat.zero_le _, rfl⟩

theorem string_pages_iff_lone_surrogate :
    4 ≤ snapshotChunkBytes ∧ ChunkWriter.empty.Valid snapshotChunkBytes ∧
    ∃ info w', encodeIndexedValue snapshotChunkBytes zeroText (.leaf (.string [0x0a, 0xd800]))
      .empty = .ok (info, w') ∧
      Pages (readStringRange noObjects ⟨some w'.content, []⟩ ⟨info, 0, w'.bytes⟩ · 4) 4 0
        [0x0a, 0xd800] := by
  obtain ⟨info, w', hok, hpages⟩ :=
    string_pages_iff zeroText (by decide) (valid_empty snapshotChunkBytes) [0x0a, 0xd800]
  refine ⟨by decide, valid_empty _, info, w', hok, ?_⟩
  exact (hpages [] Unit noObjects ⟨some w'.content, []⟩ (List.append_nil _).symm 4
    (Nat.le_refl 4)).mpr (.inr (by decide))

theorem escaped_byte_order_mark_is_lost :
    ∃ info w', encodeIndexedValue snapshotChunkBytes zeroText (.leaf (.string [0x0a, 0xfeff]))
      .empty = .ok (info, w') ∧
      ¬Pages (readStringRange noObjects ⟨some w'.content, []⟩ ⟨info, 0, w'.bytes⟩ · 4) 4 0
        [0x0a, 0xfeff] := by
  obtain ⟨info, w', hok, hw', hcontent, hinfo⟩ := encodeIndexedValue_writes zeroText
    (show 4 ≤ snapshotChunkBytes by decide) (.leaf (.string [0x0a, 0xfeff])) .empty
    (valid_empty _) trivial
  refine ⟨info, w', hok, fun hpages => ?_⟩
  have hplace : Delimits w'.content 0 w'.bytes (quoteString [0x0a, 0xfeff]) :=
    ⟨[], [], hcontent.trans (List.append_nil _).symm, rfl, by rw [hw'.bytes_eq, hcontent]; rfl⟩
  rw [hinfo] at hpages
  have hholds : (⟨some w'.content, []⟩ : StoredRevision Unit).Holds noObjects w'.content := rfl
  exact (pages_escaped_iff hholds hplace (Nat.le_refl 4)).mp hpages (by decide)

end JevCode.Sdk
