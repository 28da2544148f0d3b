import JevCode.Data.Words
import JevCode.Hashline.Boundary

namespace JevCode.Hashline

open JevCode.Text JevCode.Data

inductive Origin
  | file (line : Nat)
  | payload (segment k : Nat)
  deriving DecidableEq

abbrev OriginLine := Origin × String

inductive Place
  | start
  | line (l : Nat)
  | stop
  deriving DecidableEq

def Cursor.place (fileLines : List String) : Cursor → Place
  | .bof => .start
  | .eof => .stop
  | .beforeAnchor a => .line a.line
  | .afterAnchor a => if fileLines.length ≤ a.line then .stop else .line (a.line + 1)

def originInserts (fileLines : List String) (options : ApplyOptions) (i : Nat) :
    List Segment → List (Cursor × OriginLine)
  | [] => []
  | seg :: segs =>
    (seg.inserted fileLines options).mapIdx (fun k p => (p.1, .payload i k, p.2)) ++
      originInserts fileLines options (i + 1) segs

def batchInserts (edits : List Edit) (fileLines : List String) (options : ApplyOptions) :
    List (Cursor × OriginLine) :=
  originInserts fileLines options 0 (segments edits)

def atPlace (fileLines : List String) (inserts : List (Cursor × OriginLine)) (q : Place) :
    List OriginLine :=
  (inserts.filter fun p => p.1.place fileLines = q).map Prod.snd

def fileLine (edits : List Edit) (fileLines : List String) (l : Nat) : List OriginLine :=
  if isDeleted edits l || isAbsorbed edits fileLines l then [] else [(.file l, lineAt fileLines l)]

def splicedOrigins (edits : List Edit) (fileLines : List String) (options : ApplyOptions) :
    List OriginLine :=
  (List.range' 1 fileLines.length).flatMap fun l =>
    atPlace fileLines (batchInserts edits fileLines options) (.line l) ++ fileLine edits fileLines l

def insertOriginsAtStart (lines inserts : List OriginLine) : List OriginLine :=
  if inserts = [] then lines
  else if lines.map Prod.snd = [""] then inserts
  else inserts ++ lines

def insertOriginsAtEnd (lines inserts : List OriginLine) : List OriginLine :=
  if inserts = [] then lines
  else if lines.map Prod.snd = [""] then inserts
  else
    let insertIndex :=
      if (lines.map Prod.snd).getLast? = some "" then lines.length - 1 else lines.length
    lines.take insertIndex ++ inserts ++ lines.drop insertIndex

def resultOrigins (edits : List Edit) (fileLines : List String) (options : ApplyOptions) :
    List OriginLine :=
  let inserts := batchInserts edits fileLines options
  insertOriginsAtEnd
    (insertOriginsAtStart (splicedOrigins edits fileLines options)
    (atPlace fileLines inserts .start))
    (atPlace fileLines inserts .stop)

theorem map_insertOriginsAtStart (lines inserts : List OriginLine) :
    (insertOriginsAtStart lines inserts).map Prod.snd =
      insertAtStart (lines.map Prod.snd) (inserts.map Prod.snd) := by
  unfold insertOriginsAtStart insertAtStart
  simp only [List.map_eq_nil_iff]
  split
  · rfl
  · split
    · rfl
    · rw [List.map_append]

theorem map_insertOriginsAtEnd (lines inserts : List OriginLine) :
    (insertOriginsAtEnd lines inserts).map Prod.snd =
      (insertAtEnd (lines.map Prod.snd) (inserts.map Prod.snd)).1 := by
  unfold insertOriginsAtEnd insertAtEnd
  simp only [List.map_eq_nil_iff, List.length_map]
  split
  · rfl
  · split
    · rfl
    · simp only [List.map_append, List.map_take, List.map_drop]

theorem place_eq_line {fileLines : List String} {c : Cursor} {l : Nat} :
    c.place fileLines = .line l ↔ c.landing? fileLines = some l := by
  cases c with
  | afterAnchor a =>
    simp only [Cursor.place, Cursor.landing?, Cursor.normalize]
    split <;> simp [Cursor.beforeLine?]
  | _ => simp [Cursor.place, Cursor.landing?, Cursor.normalize, Cursor.beforeLine?]

theorem place_eq_start {fileLines : List String} {c : Cursor} :
    c.place fileLines = .start ↔ c = .bof := by
  cases c with
  | afterAnchor a =>
    simp only [Cursor.place]
    split <;> simp
  | _ => simp [Cursor.place]

theorem place_eq_stop {fileLines : List String} {c : Cursor} :
    c.place fileLines = .stop ↔ c.normalize fileLines = .eof := by
  cases c with
  | afterAnchor a =>
    simp only [Cursor.place, Cursor.normalize]
    split <;> simp
  | _ => simp [Cursor.place, Cursor.normalize]

theorem map_originInserts (fileLines : List String) (options : ApplyOptions) (i : Nat)
    (segs : List Segment) :
    (originInserts fileLines options i segs).map (fun p => (p.1, p.2.2)) =
      segs.flatMap (Segment.inserted fileLines options) := by
  induction segs generalizing i with
  | nil => rfl
  | cons seg segs ih =>
    have hseg : ((seg.inserted fileLines options).mapIdx fun k p =>
        ((p.1, .payload i k, p.2) : Cursor × OriginLine)).map (fun p =>
          (p.1, p.2.2)) = seg.inserted fileLines options := by
      apply List.ext_getElem <;> simp
    rw [originInserts, List.map_append, ih, hseg, List.flatMap_cons]

section

variable {edits : List Edit} {fileLines : List String} {options : ApplyOptions}

theorem map_atPlace (q : Place) :
    (atPlace fileLines (batchInserts edits fileLines options) q).map Prod.snd =
      (((segments edits).flatMap (Segment.inserted fileLines options)).filter fun p =>
        p.1.place fileLines = q).map
        Prod.snd := by
  rw [atPlace, ← map_originInserts fileLines options 0, List.filter_map, List.map_map, List.map_map]
  rfl

theorem map_fileLine (options : ApplyOptions) (l : Nat) :
    (fileLine edits fileLines l).map Prod.snd =
      if isDeleted (absorbedEdits edits fileLines options) l then [] else [lineAt fileLines l] := by
  rw [isDeleted_absorbedEdits, fileLine]
  split <;> rfl

theorem map_splicedOrigins :
    (splicedOrigins edits fileLines options).map Prod.snd =
      simultaneous (absorbedEdits edits fileLines options) fileLines := by
  rw [splicedOrigins, simultaneous, List.map_flatMap]
  congr 1
  funext l
  rw [List.map_append, map_atPlace, map_fileLine options, lineOutput, absorbedEdits,
    insertsAt_normalize, inserted_absorb]
  simp only [place_eq_line]

theorem map_resultOrigins (hrange : AnchorsInRange edits fileLines) :
    (resultOrigins edits fileLines options).map Prod.snd = resultLines edits fileLines options := by
  rw [resultOrigins, map_insertOriginsAtEnd, map_insertOriginsAtStart, map_splicedOrigins,
    map_atPlace, map_atPlace, resultLines_eq hrange]
  simp only [absorbedEdits, bofTexts_normalize, eofTexts_normalize, inserted_absorb, place_eq_start,
    place_eq_stop]

theorem origin_of_mem_originInserts {i : Nat} {segs : List Segment} {p : Cursor × OriginLine}
    (h : p ∈ originInserts fileLines options i segs) :
    ∃ s k, p.2.1 = .payload s k ∧ i ≤ s ∧ s < i + segs.length := by
  induction segs generalizing i with
  | nil => cases h
  | cons seg segs ih =>
    rcases List.mem_append.mp h with h | h
    · obtain ⟨k, hk, rfl⟩ := List.mem_mapIdx.mp h
      exact ⟨i, k, rfl, le_rfl, by simp⟩
    · obtain ⟨s, k, hs, h1, h2⟩ := ih h
      exact ⟨s, k, hs, by omega, by simp; omega⟩

theorem nodup_originInserts (i : Nat) (segs : List Segment) :
    ((originInserts fileLines options i segs).map fun p => p.2.1).Nodup := by
  induction segs generalizing i with
  | nil => simp [originInserts]
  | cons seg segs ih =>
    rw [originInserts, List.map_append, List.nodup_append]
    refine ⟨?_, ih (i + 1), ?_⟩
    · rw [List.nodup_iff_pairwise_ne, List.pairwise_iff_getElem]
      intro k l hk hl hkl
      simp
      omega
    · intro x hx y hy
      obtain ⟨p, hp, rfl⟩ := List.mem_map.mp hx
      obtain ⟨q, hq, rfl⟩ := List.mem_map.mp hy
      obtain ⟨k, hk, rfl⟩ := List.mem_mapIdx.mp hp
      obtain ⟨s, k', hs, hle, -⟩ := origin_of_mem_originInserts hq
      rw [hs]
      simp only [ne_eq, Origin.payload.injEq, not_and]
      omega

theorem mem_atPlace {inserts : List (Cursor × OriginLine)} {q : Place} {x : OriginLine} :
    x ∈ atPlace fileLines inserts q ↔ ∃ c, (c, x) ∈ inserts ∧ c.place fileLines = q := by
  simp [atPlace]

theorem payload_of_mem_atPlace {q : Place} {x : OriginLine}
    (h : x ∈ atPlace fileLines (batchInserts edits fileLines options) q) :
    ∃ s k, x.1 = .payload s k := by
  obtain ⟨c, hc, -⟩ := mem_atPlace.mp h
  obtain ⟨s, k, hs, -⟩ := origin_of_mem_originInserts hc
  exact ⟨s, k, hs⟩

theorem place_unique {q q' : Place} {x : OriginLine}
    (h : x ∈ atPlace fileLines (batchInserts edits fileLines options) q)
    (h' : x ∈ atPlace fileLines (batchInserts edits fileLines options) q') : q = q' := by
  obtain ⟨c, hc, rfl⟩ := mem_atPlace.mp h
  obtain ⟨c', hc', rfl⟩ := mem_atPlace.mp h'
  have := List.inj_on_of_nodup_map (nodup_originInserts 0 (segments edits)) hc hc' rfl
  simp_all

theorem nodup_atPlace (q : Place) :
    (atPlace fileLines (batchInserts edits fileLines options) q).Nodup := by
  have h : ((atPlace fileLines (batchInserts edits fileLines options) q).map Prod.fst).Nodup := by
    rw [atPlace, List.map_map]
    exact (nodup_originInserts 0 (segments edits)).sublist ((List.filter_sublist).map _)
  exact h.of_map _

theorem mem_fileLine {l : Nat} {x : OriginLine} :
    x ∈ fileLine edits fileLines l ↔
      x = (.file l, lineAt fileLines l) ∧ isDeleted edits l = false ∧
        isAbsorbed edits fileLines l = false := by
  unfold fileLine
  cases isDeleted edits l <;> cases isAbsorbed edits fileLines l <;> simp

theorem nodup_splicedOrigins : (splicedOrigins edits fileLines options).Nodup := by
  rw [splicedOrigins, List.nodup_flatMap]
  constructor
  · intro l _
    rw [List.nodup_append]
    refine ⟨nodup_atPlace _, ?_, ?_⟩
    · unfold fileLine
      split <;> simp
    · intro x hx y hy hxy
      obtain ⟨s, k, hs⟩ := payload_of_mem_atPlace hx
      rw [hxy, (mem_fileLine.mp hy).1] at hs
      cases hs
  · refine (List.pairwise_lt_range' ..).imp fun {l m} hlm x hx hx' => ?_
    rcases List.mem_append.mp hx with hx | hx <;> rcases List.mem_append.mp hx' with hx' | hx'
    · have := place_unique hx hx'
      simp at this
      omega
    · obtain ⟨s, k, hs⟩ := payload_of_mem_atPlace hx
      rw [(mem_fileLine.mp hx').1] at hs
      cases hs
    · obtain ⟨s, k, hs⟩ := payload_of_mem_atPlace hx'
      rw [(mem_fileLine.mp hx).1] at hs
      cases hs
    · have := (mem_fileLine.mp hx).1.symm.trans (mem_fileLine.mp hx').1
      simp at this
      omega

def orderedOrigins (edits : List Edit) (fileLines : List String) (options : ApplyOptions) :
    List OriginLine :=
  atPlace fileLines (batchInserts edits fileLines options) .start ++
    splicedOrigins edits fileLines options ++
    atPlace fileLines (batchInserts edits fileLines options) .stop

theorem nodup_orderedOrigins : (orderedOrigins edits fileLines options).Nodup := by
  have hplace : ∀ q, (∀ l, q ≠ .line l) →
      ∀ x ∈ atPlace fileLines (batchInserts edits fileLines options) q,
      x ∉ splicedOrigins edits fileLines options := by
    intro q hq x hx hmem
    obtain ⟨l, -, hmem⟩ := List.mem_flatMap.mp hmem
    rcases List.mem_append.mp hmem with hmem | hmem
    · exact hq l (place_unique hx hmem)
    · obtain ⟨s, k, hs⟩ := payload_of_mem_atPlace hx
      rw [(mem_fileLine.mp hmem).1] at hs
      cases hs
  rw [orderedOrigins, List.nodup_append, List.nodup_append]
  refine ⟨⟨nodup_atPlace _, nodup_splicedOrigins, ?_⟩, nodup_atPlace _, ?_⟩
  · rintro x hx _ hy rfl
    exact hplace .start (by simp) x hx hy
  · rintro x hx _ hy rfl
    rcases List.mem_append.mp hx with hx | hx
    · cases place_unique hx hy
    · exact hplace .stop (by simp) x hy hx

end

theorem insertOriginsAtStart_of_ne {lines inserts : List OriginLine}
    (h : inserts ≠ [] → lines.map Prod.snd ≠ [""]) :
    insertOriginsAtStart lines inserts = inserts ++ lines := by
  unfold insertOriginsAtStart
  split
  · rename_i hnil
    rw [hnil, List.nil_append]
  · rename_i hne
    rw [if_neg (h hne)]

theorem insertOriginsAtEnd_concat {lines inserts : List OriginLine} {z : OriginLine}
    (h : (lines ++ [z]).map Prod.snd ≠ [""]) :
    insertOriginsAtEnd (lines ++ [z]) inserts =
      if z.2 = "" then lines ++ inserts ++ [z] else lines ++ [z] ++ inserts := by
  unfold insertOriginsAtEnd
  split
  · rename_i hnil
    simp [hnil]
  · dsimp only
    by_cases hz : z.2 = ""
    · simp [hz]
    · have htake : (lines ++ [z]).take (lines.length + 1) = lines ++ [z] :=
        List.take_of_length_le (by simp)
      simp [hz, htake]

theorem mem_of_mem_insertOrigins {lines bof eof : List OriginLine} {x : OriginLine}
    (h : x ∈ insertOriginsAtEnd (insertOriginsAtStart lines bof) eof) :
    x ∈ bof ∨ x ∈ lines ∨ x ∈ eof := by
  have hstart : ∀ y ∈ insertOriginsAtStart lines bof, y ∈ bof ∨ y ∈ lines := by
    intro y hy
    unfold insertOriginsAtStart at hy
    split at hy
    · exact .inr hy
    · split at hy
      · exact .inl hy
      · exact List.mem_append.mp hy
  unfold insertOriginsAtEnd at h
  split at h
  · rcases hstart x h with h | h <;> simp [h]
  · split at h
    · simp [h]
    · simp only [List.mem_append] at h
      rcases h with (h | h) | h
      · rcases hstart x (List.mem_of_mem_take h) with h | h <;> simp [h]
      · simp [h]
      · rcases hstart x (List.mem_of_mem_drop h) with h | h <;> simp [h]

theorem insertOrigins_of_blank {lines bof eof : List OriginLine} (hblank : lines.map Prod.snd = [""])
    (h : bof ≠ [] ∨ eof ≠ []) {x : OriginLine}
    (hx : x ∈ insertOriginsAtEnd (insertOriginsAtStart lines bof) eof) :
    x ∈ bof ∨ x ∈ eof := by
  by_cases hbof : bof = []
  · have heof : eof ≠ [] := h.resolve_left (absurd hbof)
    simp only [insertOriginsAtStart, insertOriginsAtEnd, hbof, heof, hblank, if_true, if_false] at hx
    exact .inr hx
  · have hstart : insertOriginsAtStart lines bof = insertOriginsAtStart [] bof := by
      simp [insertOriginsAtStart, hbof, hblank]
    rw [hstart] at hx
    rcases mem_of_mem_insertOrigins hx with hx | hx | hx
    · exact .inl hx
    · cases hx
    · exact .inr hx

theorem infix_insertOrigins_iff {block lines bof eof : List OriginLine}
    (hnodup : (bof ++ lines ++ eof).Nodup) (hfile : ∃ x ∈ block, x ∉ bof ∧ x ∉ eof)
    (hmix : ∀ z, lines.getLast? = some z → block ⊆ bof ++ lines ++ eof → ∀ x ∈ block, x ∈ eof →
      z ∈ block ∧ ∀ y ∈ block.getLast?, y ∈ eof) :
    block <:+: insertOriginsAtEnd (insertOriginsAtStart lines bof) eof ↔
      block <:+: bof ++ lines ++ eof ∧ (bof ≠ [] ∨ eof ≠ [] → lines.map Prod.snd ≠ [""]) ∧
        (eof ≠ [] → ∀ z, lines.getLast? = some z → z.2 = "" → z ∉ block ∨ block.length = 1) := by
  obtain ⟨x, hx, hxbof, hxeof⟩ := hfile
  by_cases hblank : lines.map Prod.snd = [""] ∧ (bof ≠ [] ∨ eof ≠ [])
  · constructor
    · intro h
      rcases insertOrigins_of_blank hblank.1 hblank.2 (h.subset hx) with h | h
      · exact absurd h hxbof
      · exact absurd h hxeof
    · rintro ⟨-, h, -⟩
      exact absurd hblank.1 (h hblank.2)
  have hedges : bof ≠ [] ∨ eof ≠ [] → lines.map Prod.snd ≠ [""] := fun h h' => hblank ⟨h', h⟩
  rw [insertOriginsAtStart_of_ne fun h => hedges (.inl h)]
  by_cases heof : eof = []
  · simp [heof, insertOriginsAtEnd] at hedges ⊢
    exact fun _ => hedges
  rcases lines.eq_nil_or_concat' with rfl | ⟨lines, z, rfl⟩
  · -- no line of the file is left
    constructor
    · intro h
      have hmem : x ∈ insertOriginsAtEnd (insertOriginsAtStart [] bof) eof := by
        rw [insertOriginsAtStart_of_ne (by simp)]
        exact h.subset hx
      rcases mem_of_mem_insertOrigins hmem with h | h | h
      · exact absurd h hxbof
      · cases h
      · exact absurd h hxeof
    · rintro ⟨h, -⟩
      have hmem := h.subset hx
      simp [hxbof, hxeof] at hmem
  · have hne : (bof ++ lines ++ [z]).map Prod.snd ≠ [""] := by
      intro h
      have hlen := congrArg List.length h
      simp only [List.length_map, List.length_append, List.length_cons, List.length_nil] at hlen
      have hbof : bof = [] := List.eq_nil_of_length_eq_zero (by omega)
      have hlines : lines = [] := List.eq_nil_of_length_eq_zero (by omega)
      subst hbof hlines
      exact hedges (.inr heof) h
    have hlast : (lines ++ [z]).getLast? = some z := by simp
    rw [← List.append_assoc, insertOriginsAtEnd_concat hne]
    by_cases hz : z.2 = ""
    · have hassoc : bof ++ lines ++ [z] ++ eof = bof ++ lines ++ z :: eof := by simp
      rw [← List.append_assoc bof, hassoc] at hnodup hmix
      rw [if_pos hz, hassoc, infix_move_last_iff hnodup heof (hmix z hlast)]
      constructor
      · rintro ⟨h, hzb⟩
        refine ⟨h, hedges, fun _ y hy _ => ?_⟩
        rwa [← Option.some.inj (hlast.symm.trans hy)]
      · rintro ⟨h, -, hzb⟩
        exact ⟨h, hzb heof z hlast hz⟩
    · rw [if_neg hz]
      constructor
      · intro h
        refine ⟨h, hedges, fun _ y hy hyblank => ?_⟩
        rw [← Option.some.inj (hlast.symm.trans hy)] at hyblank
        exact absurd hyblank hz
      · exact fun h => h.1

end JevCode.Hashline
