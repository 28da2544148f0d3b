import JevCode.Hashline.Absorb
import Mathlib.Data.List.Sort

namespace JevCode.Hashline

open JevCode.Text

def lineAt (fileLines : List String) (line : Nat) : String := fileLines.getD (line - 1) ""

def checkAnchor (fileLines : List String) (a : Anchor) : Except ApplyError (List HashMismatch) :=
  if a.line < 1 ∨ fileLines.length < a.line then .error (.lineDoesNotExist a.line fileLines.length)
  else if a.hash = rangeInteriorHash then .ok []
  else
    let actual := computeLineHash a.line (lineAt fileLines a.line)
    if actual = a.hash then .ok [] else .ok [⟨a.line, a.hash, actual⟩]

def validateHashlineAnchors (edits : List Edit) (fileLines : List String) :
    Except ApplyError (List HashMismatch) :=
  match edits with
  | [] => .ok []
  | e :: es =>
    match e.anchor? with
    | none => validateHashlineAnchors es fileLines
    | some a => do
      let here ← checkAnchor fileLines a
      let rest ← validateHashlineAnchors es fileLines
      return here ++ rest

def Cursor.normalize (fileLines : List String) : Cursor → Cursor
  | .afterAnchor a =>
    if fileLines.length ≤ a.line then .eof
    else .beforeAnchor ⟨a.line + 1, computeLineHash (a.line + 1) (lineAt fileLines (a.line + 1))⟩
  | c => c

def Edit.normalize (fileLines : List String) : Edit → Edit
  | .insert c t n i => .insert (c.normalize fileLines) t n i
  | .delete a n i => .delete a n i

def Edit.bofText? : Edit → Option String
  | .insert .bof t _ _ => some t
  | _ => none

def Edit.eofText? : Edit → Option String
  | .insert .eof t _ _ => some t
  | _ => none

structure IndexedEdit where
  edit : Edit
  idx : Nat
  deriving DecidableEq

def Edit.isAnchorEdit (e : Edit) : Bool := e.bofText?.isNone && e.eofText?.isNone

def anchorEdits (edits : List Edit) : List IndexedEdit :=
  (edits.mapIdx fun idx edit => ⟨edit, idx⟩).filter fun e => e.edit.isAnchorEdit

def Edit.bucketLine : Edit → Nat
  | .delete a _ _ => a.line
  | .insert (.beforeAnchor a) _ _ _ => a.line
  | .insert _ _ _ _ => 0

abbrev Buckets := List (Nat × List IndexedEdit)

def Buckets.push (line : Nat) (entry : IndexedEdit) : Buckets → Buckets
  | [] => [(line, [entry])]
  | (l, bucket) :: rest =>
    if l = line then (l, bucket ++ [entry]) :: rest else (l, bucket) :: Buckets.push line entry rest

def bucketAnchorEditsByLine (edits : List IndexedEdit) : Buckets :=
  edits.foldl (fun byLine entry => byLine.push entry.edit.bucketLine entry) []

def spliceBucket (fileLines : List String) (line : Nat) (bucket : List IndexedEdit) : List String :=
  let bucket := bucket.insertionSort fun a b => a.idx ≤ b.idx
  let beforeLines := bucket.filterMap fun e => e.edit.text?
  let deleteLine := bucket.any fun e => e.edit.deletedLine?.isSome
  if beforeLines.isEmpty && !deleteLine then fileLines
  else
    let replacement := if deleteLine then beforeLines else beforeLines ++ [lineAt fileLines line]
    fileLines.take (line - 1) ++ replacement ++ fileLines.drop line

def touchesBucket (bucket : List IndexedEdit) : Bool :=
  bucket.any fun e => e.edit.text?.isSome || e.edit.deletedLine?.isSome

def sortedLines (byLine : Buckets) : List Nat := (byLine.map Prod.fst).insertionSort (· ≥ ·)

def spliceBuckets (byLine : Buckets) : List Nat → List String → List String
  | [], fileLines => fileLines
  | line :: lines, fileLines =>
    match byLine.lookup line with
    | none => spliceBuckets byLine lines fileLines
    | some bucket => spliceBuckets byLine lines (spliceBucket fileLines line bucket)

def insertAtStart (fileLines lines : List String) : List String :=
  if lines = [] then fileLines
  else if fileLines = [""] then lines
  else lines ++ fileLines

def insertAtEnd (fileLines lines : List String) : List String × Option Nat :=
  if lines = [] then (fileLines, none)
  else if fileLines = [""] then (lines, some 1)
  else
    let insertIndex :=
      if fileLines.getLast? = some "" then fileLines.length - 1 else fileLines.length
    (fileLines.take insertIndex ++ lines ++ fileLines.drop insertIndex, some (insertIndex + 1))

structure ApplyResult where
  lines : String
  firstChangedLine : Option Nat
  warnings : List String
  deriving DecidableEq

def applyNormalized (edits : List Edit) (fileLines : List String) : List String × Option Nat :=
  let edits := edits.map (Edit.normalize fileLines)
  let bofLines := edits.filterMap Edit.bofText?
  let eofLines := edits.filterMap Edit.eofText?
  let byLine := bucketAnchorEditsByLine (anchorEdits edits)
  let spliced := spliceBuckets byLine (sortedLines byLine) fileLines
  let started := insertAtStart spliced bofLines
  let (ended, eofChangedLine) := insertAtEnd started eofLines
  let changed := (byLine.filter fun b => touchesBucket b.2).map Prod.fst ++
    (if bofLines = [] then [] else [1]) ++ eofChangedLine.toList
  (ended, changed.min?)

def applyHashlineEdits (text : String) (edits : List Edit) (options : ApplyOptions) :
    Except ApplyError ApplyResult :=
  if edits = [] then .ok ⟨text, none, []⟩
  else do
    let fileLines := splitLines text
    let mismatches ← validateHashlineAnchors edits fileLines
    if mismatches ≠ [] then throw (.mismatch mismatches fileLines)
    let (absorbed, warnings) := absorbReplacementBoundaryDuplicates edits fileLines options
    let (lines, firstChangedLine) := applyNormalized absorbed fileLines
    return ⟨joinLines lines, firstChangedLine, warnings⟩

def Edit.textBefore? (line : Nat) : Edit → Option String
  | .insert (.beforeAnchor a) t _ _ => if a.line = line then some t else none
  | _ => none

def insertsAt (edits : List Edit) (line : Nat) : List String :=
  edits.filterMap (Edit.textBefore? line)

def isDeleted (edits : List Edit) (line : Nat) : Bool := edits.any fun e =>
  e.deletedLine? == some line

def lineOutput (edits : List Edit) (fileLines : List String) (line : Nat) : List String :=
  insertsAt edits line ++ if isDeleted edits line then [] else [lineAt fileLines line]

def simultaneous (edits : List Edit) (fileLines : List String) : List String :=
  (List.range' 1 fileLines.length).flatMap (lineOutput edits fileLines)

theorem Buckets.lookup_push (byLine : Buckets) (line : Nat) (entry : IndexedEdit) (l : Nat) :
    (byLine.push line entry).lookup l =
      if l = line then some ((byLine.lookup l).getD [] ++ [entry]) else byLine.lookup l := by
  induction byLine with
  | nil =>
    by_cases h : l = line
    · simp [Buckets.push, h]
    · simp [Buckets.push, List.lookup_cons, beq_eq_false_iff_ne.mpr h, h]
  | cons b rest ih =>
    obtain ⟨k, bucket⟩ := b
    by_cases hk : k = line
    · subst hk
      by_cases hl : l = k
      · simp [Buckets.push, hl]
      · simp [Buckets.push, List.lookup_cons, beq_eq_false_iff_ne.mpr hl, hl]
    · by_cases hl : l = k
      · subst hl
        simp [Buckets.push, hk]
      · simp [Buckets.push, hk, List.lookup_cons, beq_eq_false_iff_ne.mpr hl, ih]

theorem Buckets.keys_push (byLine : Buckets) (line : Nat) (entry : IndexedEdit) :
    (byLine.push line entry).map Prod.fst =
      if line ∈ byLine.map Prod.fst then byLine.map Prod.fst else byLine.map Prod.fst ++ [line] := by
  induction byLine with
  | nil => rfl
  | cons b rest ih =>
    obtain ⟨k, bucket⟩ := b
    by_cases hk : k = line
    · simp [Buckets.push, hk]
    · simp only [Buckets.push, hk, if_false, List.map_cons, ih, List.mem_cons]
      have hk' : ¬ line = k := fun h => hk h.symm
      simp only [hk', false_or]
      split <;> rfl

theorem lookup_bucketAnchorEditsByLine (edits : List IndexedEdit) (l : Nat) :
    ((bucketAnchorEditsByLine edits).lookup l).getD [] = edits.filter (·.edit.bucketLine = l) := by
  induction edits using List.reverseRecOn with
  | nil => rfl
  | append_singleton es e ih =>
    simp only [bucketAnchorEditsByLine, List.foldl_append, List.foldl_cons, List.foldl_nil] at ih ⊢
    rw [Buckets.lookup_push, List.filter_append]
    by_cases h : l = e.edit.bucketLine
    · subst h
      simp [ih]
    · have h' : ¬ e.edit.bucketLine = l := fun hl => h hl.symm
      simp [h, h', ih]

theorem mem_keys_bucketAnchorEditsByLine (edits : List IndexedEdit) (l : Nat) :
    l ∈ (bucketAnchorEditsByLine edits).map Prod.fst ↔ ∃ e ∈ edits, e.edit.bucketLine = l := by
  induction edits using List.reverseRecOn with
  | nil => simp [bucketAnchorEditsByLine]
  | append_singleton es e ih =>
    simp only [bucketAnchorEditsByLine, List.foldl_append, List.foldl_cons, List.foldl_nil] at ih ⊢
    rw [Buckets.keys_push]
    split <;> grind

theorem lookup_isSome_iff (byLine : Buckets) (l : Nat) :
    (byLine.lookup l).isSome ↔ l ∈ byLine.map Prod.fst := by
  induction byLine with
  | nil => simp
  | cons b rest ih =>
    obtain ⟨k, bucket⟩ := b
    by_cases h : l = k
    · simp [h]
    · simp [List.lookup_cons, beq_eq_false_iff_ne.mpr h, h, ih]

theorem nodup_keys_bucketAnchorEditsByLine (edits : List IndexedEdit) :
    ((bucketAnchorEditsByLine edits).map Prod.fst).Nodup := by
  induction edits using List.reverseRecOn with
  | nil => simp [bucketAnchorEditsByLine]
  | append_singleton es e ih =>
    simp only [bucketAnchorEditsByLine, List.foldl_append, List.foldl_cons, List.foldl_nil] at ih ⊢
    rw [Buckets.keys_push]
    split
    · exact ih
    · rename_i h
      exact List.nodup_append.mpr ⟨ih, List.nodup_singleton _, by grind⟩

theorem sortedLines_pairwise (edits : List IndexedEdit) :
    (sortedLines (bucketAnchorEditsByLine edits)).Pairwise (· > ·) := by
  have hsorted : (sortedLines (bucketAnchorEditsByLine edits)).Pairwise (· ≥ ·) :=
    List.pairwise_insertionSort _ _
  have hnodup : (sortedLines (bucketAnchorEditsByLine edits)).Nodup :=
    (List.perm_insertionSort _ _).nodup_iff.mpr (nodup_keys_bucketAnchorEditsByLine edits)
  exact (hsorted.and hnodup).imp fun ⟨hle, hne⟩ => by omega

theorem mem_sortedLines (edits : List IndexedEdit) (l : Nat) :
    l ∈ sortedLines (bucketAnchorEditsByLine edits) ↔ ∃ e ∈ edits, e.edit.bucketLine = l := by
  rw [sortedLines, List.mem_insertionSort, mem_keys_bucketAnchorEditsByLine]

theorem filter_bucketLine_pairwise (edits : List Edit) (l : Nat) :
    ((anchorEdits edits).filter (·.edit.bucketLine = l)).Pairwise fun a b => a.idx ≤ b.idx := by
  have h : (edits.mapIdx fun idx edit => (⟨edit, idx⟩ : IndexedEdit)).Pairwise fun a b =>
    a.idx ≤ b.idx := by
    rw [List.pairwise_iff_getElem]
    intro i j hi hj hij
    simp only [List.getElem_mapIdx]
    omega
  exact (h.filter _).filter _

def bucketOutput (byLine : Buckets) (fileLines : List String) (line : Nat) : List String :=
  match byLine.lookup line with
  | none => [lineAt fileLines line]
  | some bucket =>
    let bucket := bucket.insertionSort fun a b => a.idx ≤ b.idx
    bucket.filterMap (fun e => e.edit.text?) ++
      if bucket.any fun e => e.edit.deletedLine?.isSome then [] else [lineAt fileLines line]

theorem lineAt_append_left {pre : List String} (suf : List String) {line : Nat} (h1 : 1 ≤ line)
    (h2 : line ≤ pre.length) : lineAt (pre ++ suf) line = lineAt pre line := by
  have h : line - 1 < pre.length := by omega
  simp [lineAt, List.getD_eq_getElem?_getD, List.getElem?_append_left h]

theorem take_append_lineAt_append_drop {xs : List String} {line : Nat} (h1 : 1 ≤ line)
    (h2 : line ≤ xs.length) :
    xs.take (line - 1) ++ lineAt xs line :: xs.drop line = xs := by
  obtain ⟨k, rfl⟩ : ∃ k, line = k + 1 := ⟨line - 1, by omega⟩
  have hk : k < xs.length := by omega
  have hline : lineAt xs (k + 1) = xs[k] := by simp [lineAt, List.getD_eq_getElem?_getD, hk]
  rw [hline, Nat.add_sub_cancel, List.getElem_cons_drop, List.take_append_drop]

theorem spliceBucket_eq (byLine : Buckets) {fileLines : List String} {line : Nat}
    {bucket : List IndexedEdit} (hbucket : byLine.lookup line = some bucket) (h1 : 1 ≤ line)
    (h2 : line ≤ fileLines.length) :
    spliceBucket fileLines line bucket =
      fileLines.take (line - 1) ++ bucketOutput byLine fileLines line ++ fileLines.drop line := by
  simp only [spliceBucket, bucketOutput, hbucket]
  split
  · rename_i h
    simp only [Bool.and_eq_true, List.isEmpty_iff, Bool.not_eq_true'] at h
    rw [h.1, h.2]
    simp [take_append_lineAt_append_drop h1 h2]
  · split <;> simp

theorem map_lineAt (xs : List String) : (List.range' 1 xs.length).map (lineAt xs) = xs := by
  apply List.ext_getElem
  · simp
  · intro i h1 h2
    simp [lineAt, List.getD_eq_getElem?_getD, h2, Nat.add_comm]

theorem range'_split {n line : Nat} (h1 : 1 ≤ line) (h2 : line ≤ n) :
    List.range' 1 n = List.range' 1 (line - 1) ++ line :: List.range' (line + 1) (n - line) := by
  have h := @List.range'_append 1 (line - 1) (n - line + 1) 1
  have hlen : line - 1 + (n - line + 1) = n := by omega
  have hstart : 1 + 1 * (line - 1) = line := by omega
  rw [hlen, hstart, List.range'_succ] at h
  exact h.symm

theorem bucketOutput_congr (byLine : Buckets) {xs ys : List String} {line : Nat}
    (h : lineAt xs line = lineAt ys line) :
    bucketOutput byLine xs line = bucketOutput byLine ys line := by
  simp only [bucketOutput, h]

theorem lineAt_take {xs : List String} {n l : Nat} (h1 : 1 ≤ l) (hn : l ≤ n) (hlen : n ≤ xs.length) :
    lineAt (xs.take n) l = lineAt xs l := by
  conv_rhs => rw [← List.take_append_drop n xs]
  rw [lineAt_append_left _ h1 (by simp; omega)]

theorem map_lineAt_drop (xs : List String) (n : Nat) :
    (List.range' (n + 1) (xs.length - n)).map (lineAt xs) = xs.drop n := by
  apply List.ext_getElem
  · simp
  · intro i hi1 hi2
    have hi : n + i < xs.length := by simp at hi2; omega
    have hidx : n + 1 + i - 1 = n + i := by omega
    simp [lineAt, List.getD_eq_getElem?_getD, hidx, hi]

theorem flatMap_bucketOutput_take (byLine : Buckets) {lines : List Nat}
    {pre : List String} {line : Nat} (h : line ≤ pre.length) :
    (List.range' 1 (line - 1)).flatMap (fun l => if l ∈ lines then
        bucketOutput byLine (pre.take (line - 1)) l else [lineAt (pre.take (line - 1)) l]) =
      (List.range' 1 (line - 1)).flatMap (fun l => if l ∈ line :: lines then
        bucketOutput byLine pre l else [lineAt pre l]) := by
  apply List.flatMap_congr
  intro l hl
  rw [List.mem_range'_1] at hl
  have hne : l ≠ line := by omega
  have hline : lineAt (pre.take (line - 1)) l = lineAt pre l :=
    lineAt_take hl.1 (by omega) (by omega)
  simp only [List.mem_cons, hne, false_or, hline, bucketOutput_congr byLine hline]

theorem flatMap_bucketOutput_drop (byLine : Buckets) {lines : List Nat}
    (pre : List String) {line : Nat} (hbelow : ∀ l ∈ lines, l < line) :
    (List.range' (line + 1) (pre.length - line)).flatMap (fun l => if l ∈ line :: lines then
      bucketOutput byLine pre l else [lineAt pre l]) = pre.drop line := by
  rw [← map_lineAt_drop pre line, List.map_eq_flatMap]
  apply List.flatMap_congr
  intro l hl
  rw [List.mem_range'_1] at hl
  have hnot : l ∉ line :: lines := by
    intro hmem
    rcases List.mem_cons.mp hmem with rfl | hmem
    · omega
    · have := hbelow l hmem
      omega
  simp [hnot]

theorem spliceBuckets_eq (byLine : Buckets) {lines : List Nat} (hdesc : lines.Pairwise (· > ·)) :
    ∀ (pre suf : List String), (∀ l ∈ lines, 1 ≤ l ∧ l ≤ pre.length) →
      (∀ l ∈ lines, (byLine.lookup l).isSome) →
      spliceBuckets byLine lines (pre ++ suf) =
        (List.range' 1 pre.length).flatMap
          (fun l => if l ∈ lines then bucketOutput byLine pre l else [lineAt pre l]) ++ suf := by
  induction lines with
  | nil =>
    intro pre suf _ _
    simp [spliceBuckets, ← List.map_eq_flatMap, map_lineAt]
  | cons line lines ih =>
    intro pre suf hrange hsome
    obtain ⟨h1, h2⟩ := hrange line (by simp)
    obtain ⟨bucket, hbucket⟩ := Option.isSome_iff_exists.mp (hsome line (by simp))
    have hbelow : ∀ l ∈ lines, l < line := fun l hl => List.rel_of_pairwise_cons hdesc hl
    have htake : (pre ++ suf).take (line - 1) = pre.take (line - 1) :=
      List.take_append_of_le_length (by omega)
    have hdrop : (pre ++ suf).drop line = pre.drop line ++ suf := List.drop_append_of_le_length h2
    have hsplice : spliceBucket (pre ++ suf) line bucket =
        pre.take (line - 1) ++ (bucketOutput byLine pre line ++ (pre.drop line ++ suf)) := by
      rw [spliceBucket_eq byLine hbucket h1 (by simp; omega), htake, hdrop,
        bucketOutput_congr byLine (lineAt_append_left suf h1 h2), List.append_assoc]
    have hpre : (pre.take (line - 1)).length = line - 1 := by simp; omega
    simp only [spliceBuckets, hbucket, hsplice]
    rw [ih (List.Pairwise.of_cons hdesc) _ _ (fun l hl => ?_) (fun l hl => hsome l (by simp [hl])),
      hpre, range'_split h1 h2, List.flatMap_append, List.flatMap_cons]
    · rw [flatMap_bucketOutput_take byLine h2, flatMap_bucketOutput_drop byLine pre hbelow]
      simp [List.append_assoc]
    · have := hbelow l hl
      have := (hrange l (by simp [hl])).1
      omega

theorem map_edit_bucket (edits : List Edit) (l : Nat) :
    ((anchorEdits edits).filter (·.edit.bucketLine = l)).map IndexedEdit.edit =
      (edits.filter Edit.isAnchorEdit).filter (·.bucketLine = l) := by
  have hmap : (edits.mapIdx fun idx edit => (⟨edit, idx⟩ : IndexedEdit)).map
      IndexedEdit.edit = edits := by
    apply List.ext_getElem <;> simp
  conv_rhs => rw [← hmap]
  simp only [anchorEdits, List.filter_map, Function.comp_def]

theorem insertsAt_eq (edits : List Edit) {l : Nat} (hl : 1 ≤ l) :
    ((edits.filter Edit.isAnchorEdit).filter
      (·.bucketLine = l)).filterMap Edit.text? = insertsAt edits l := by
  simp only [insertsAt, List.filterMap_filter]
  apply List.filterMap_congr
  intro e _
  cases e with
  | delete a n i => simp [Edit.text?, Edit.textBefore?]
  | insert c t n i =>
    have h0 : ¬ 0 = l := by omega
    cases c with
    | beforeAnchor a =>
      by_cases h : a.line = l <;>
        simp [Edit.isAnchorEdit, Edit.bofText?, Edit.eofText?, Edit.bucketLine, Edit.textBefore?,
        Edit.text?, h]
    | _ =>
      simp [Edit.isAnchorEdit, Edit.bofText?, Edit.eofText?, Edit.bucketLine, Edit.textBefore?, h0]

theorem isDeleted_eq (edits : List Edit) (l : Nat) :
    (((edits.filter Edit.isAnchorEdit).filter (·.bucketLine = l)).any fun e =>
      e.deletedLine?.isSome) =
      isDeleted edits l := by
  simp only [isDeleted, List.any_filter]
  congr 1
  funext e
  cases e with
  | delete a n i =>
    by_cases h : a.line = l <;>
      simp [Edit.isAnchorEdit, Edit.bofText?, Edit.eofText?, Edit.bucketLine, Edit.deletedLine?, h]
  | insert c t n i => simp [Edit.deletedLine?]

theorem bucketOutput_eq_lineOutput (edits : List Edit) (fileLines : List String) {l : Nat}
    (hl : 1 ≤ l) :
    bucketOutput (bucketAnchorEditsByLine (anchorEdits edits)) fileLines l =
      lineOutput edits fileLines l := by
  have hlookup := lookup_bucketAnchorEditsByLine (anchorEdits edits) l
  have hsort : ((anchorEdits edits).filter (·.edit.bucketLine = l)).insertionSort
      (fun a b => a.idx ≤ b.idx) =
      (anchorEdits edits).filter (·.edit.bucketLine = l) :=
    (filter_bucketLine_pairwise edits l).insertionSort_eq
  have hinserts := insertsAt_eq edits hl
  have hdeleted := isDeleted_eq edits l
  rw [← map_edit_bucket, List.filterMap_map] at hinserts
  rw [← map_edit_bucket, List.any_map] at hdeleted
  unfold bucketOutput lineOutput
  cases h : (bucketAnchorEditsByLine (anchorEdits edits)).lookup l with
  | none =>
    rw [h, Option.getD_none] at hlookup
    rw [← hlookup] at hinserts hdeleted
    simp [← hinserts, ← hdeleted]
  | some bucket =>
    rw [h, Option.getD_some] at hlookup
    subst hlookup
    simp only [hsort]
    rw [← hinserts, ← hdeleted]
    rfl

def BucketsInRange (edits : List Edit) (fileLines : List String) : Prop :=
  ∀ e ∈ edits, e.isAnchorEdit → 1 ≤ e.bucketLine ∧ e.bucketLine ≤ fileLines.length

theorem spliceBuckets_eq_simultaneous {edits : List Edit} {fileLines : List String}
    (h : BucketsInRange edits fileLines) :
    spliceBuckets (bucketAnchorEditsByLine (anchorEdits edits))
      (sortedLines (bucketAnchorEditsByLine
        (anchorEdits edits))) fileLines = simultaneous edits fileLines := by
  have hmem : ∀ l, l ∈ sortedLines (bucketAnchorEditsByLine (anchorEdits edits)) ↔
      ∃ e ∈ anchorEdits edits, e.edit.bucketLine = l := fun l => mem_sortedLines _ l
  have hedit : ∀ e ∈ anchorEdits edits, e.edit ∈ edits ∧ e.edit.isAnchorEdit := by
    intro e he
    obtain ⟨he, hanchor⟩ := List.mem_filter.mp he
    obtain ⟨i, hi, rfl⟩ := List.mem_mapIdx.mp he
    exact ⟨List.getElem_mem hi, hanchor⟩
  have hsplice := spliceBuckets_eq (bucketAnchorEditsByLine (anchorEdits edits))
    (sortedLines_pairwise (anchorEdits edits)) fileLines []
  rw [List.append_nil, List.append_nil] at hsplice
  rw [hsplice, simultaneous]
  · apply List.flatMap_congr
    intro l hl
    rw [List.mem_range'_1] at hl
    split
    · exact bucketOutput_eq_lineOutput edits fileLines hl.1
    · rename_i hnot
      have hnone : (bucketAnchorEditsByLine (anchorEdits edits)).lookup l = none := by
        rw [← Option.not_isSome_iff_eq_none, lookup_isSome_iff,
          mem_keys_bucketAnchorEditsByLine, ← hmem]
        exact hnot
      rw [← bucketOutput_eq_lineOutput edits fileLines hl.1, bucketOutput, hnone]
  · intro l hl
    obtain ⟨e, he, rfl⟩ := (hmem l).mp hl
    exact h e.edit (hedit e he).1 (hedit e he).2
  · intro l hl
    rw [lookup_isSome_iff, mem_keys_bucketAnchorEditsByLine]
    exact (hmem l).mp hl

theorem applyNormalized_lines {edits : List Edit} {fileLines : List String}
    (h : BucketsInRange (edits.map (Edit.normalize fileLines)) fileLines) :
    (applyNormalized edits fileLines).1 =
      (insertAtEnd (insertAtStart (simultaneous (edits.map (Edit.normalize fileLines)) fileLines)
          ((edits.map (Edit.normalize fileLines)).filterMap Edit.bofText?))
        ((edits.map (Edit.normalize fileLines)).filterMap Edit.eofText?)).1 := by
  simp only [applyNormalized, spliceBuckets_eq_simultaneous h]

end JevCode.Hashline
