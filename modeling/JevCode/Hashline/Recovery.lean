import JevCode.Hashline.AbsorbLaws
import JevCode.Hashline.Ops
import JevCode.Edit.FileReadCache

namespace JevCode.Hashline

open JevCode.Data JevCode.Edit JevCode.Text

structure DiffTools where
  /-- `applyPatch` of the patch from the first text to the second, onto the third, at fuzz factor 0.
  -/
  mergePatch : String → String → String → Option String
  firstChangedLine : String → String → Option Nat

structure HashlineRecoveryResult where
  lines : String
  firstChangedLine : Option Nat
  warnings : List String

def hashlineRecoveryWarning : String :=
  "Recovered from stale anchors using a previous read snapshot (file changed externally between read and edit)."

def collectEditAnchors (edits : List Edit) : List Anchor := edits.filterMap Edit.anchor?

/-- The precondition of recovery: the snapshot has each anchored line, with the anchor's hash. -/
def anchorsVouchedFor (lines : InsertionMap Nat String) (edits : List Edit) : Bool :=
  (collectEditAnchors edits).all fun anchor =>
    match lines.get? anchor.line with
    | none => false
    | some cachedLine => computeLineHash anchor.line cachedLine == anchor.hash

def padTo (n : Nat) (lines : List String) : List String :=
  lines ++ List.replicate (n - lines.length) ""

def setLine (lines : List String) (lineNum : Nat) (content : String) : List String :=
  if lineNum = 0 then lines else lines.set (lineNum - 1) content

def overlay (lines : InsertionMap Nat String) (currentText : String) : List String :=
  lines.entries.foldl (fun overlaid e => setLine overlaid e.1 e.2)
    (padTo (lines.keys.foldl max 0) (splitLines currentText))

def mergeOnto (tools : DiffTools) (currentText previousText : String) (applied : ApplyResult) :
    Option HashlineRecoveryResult :=
  if applied.lines = previousText then none
  else
    match tools.mergePatch previousText applied.lines currentText with
    | none => none
    | some merged =>
      if merged = currentText then none
      else
        let changed := tools.firstChangedLine currentText merged
        some ⟨merged, changed.or applied.firstChangedLine,
          if changed.isSome then hashlineRecoveryWarning :: applied.warnings else applied.warnings⟩

def recoverFromSnapshot (tools : DiffTools) (lines : InsertionMap Nat String) (currentText : String)
    (edits : List Edit) (options : ApplyOptions) :
    Except ApplyError (Option HashlineRecoveryResult) :=
  if lines.entries = [] then .ok none
  else if !anchorsVouchedFor lines edits then .ok none
  else
    let previousText := joinLines (overlay lines currentText)
    if previousText = currentText then .ok none
    else
      match applyHashlineEdits previousText edits options with
      | .error (.mismatch _ _) => .ok none
      | .error err => .error err
      | .ok applied => .ok (mergeOnto tools currentText previousText applied)

def tryRecoverHashlineWithCache (tools : DiffTools) (cache : FileReadCache)
    (absolutePath currentText : String) (edits : List Edit) (options : ApplyOptions) :
    Except ApplyError (Option HashlineRecoveryResult) × FileReadCache :=
  let (snapshot, cache) := cache.get absolutePath
  match snapshot with
  | none => (.ok none, cache)
  | some snapshot => (recoverFromSnapshot tools snapshot.lines currentText edits options, cache)

section

variable {lines : InsertionMap Nat String} {edits : List Edit}

theorem mem_collectEditAnchors {a : Anchor} :
    a ∈ collectEditAnchors edits ↔ ∃ e ∈ edits, e.anchor? = some a :=
  List.mem_filterMap

theorem length_foldl_setLine (es : List (Nat × String)) (xs : List String) :
    (es.foldl (fun xs e => setLine xs e.1 e.2) xs).length = xs.length := by
  induction es generalizing xs with
  | nil => rfl
  | cons e es ih =>
    rw [List.foldl_cons, ih, setLine]
    split <;> simp

theorem getElem?_foldl_setLine_of_notMem {es : List (Nat × String)} {n : Nat} (hn : 1 ≤ n)
    (h : n ∉ es.map Prod.fst) (xs : List String) :
    (es.foldl (fun xs e => setLine xs e.1 e.2) xs)[n - 1]? = xs[n - 1]? := by
  induction es generalizing xs with
  | nil => rfl
  | cons e es ih =>
    rw [List.map_cons, List.mem_cons, not_or] at h
    rw [List.foldl_cons, ih h.2, setLine]
    split
    · rfl
    · exact List.getElem?_set_ne (by omega)

theorem getElem?_foldl_setLine {es : List (Nat × String)}
    (hnodup : (es.map Prod.fst).Nodup) {n : Nat} {line : String} (hn : 1 ≤ n) (hmem : (n, line) ∈ es)
    {xs : List String} (hlen : n ≤ xs.length) :
    (es.foldl (fun xs e => setLine xs e.1 e.2) xs)[n - 1]? = some line := by
  induction es generalizing xs with
  | nil => cases hmem
  | cons e es ih =>
    rw [List.map_cons, List.nodup_cons] at hnodup
    rw [List.foldl_cons]
    rcases List.mem_cons.mp hmem with rfl | hmem
    · rw [getElem?_foldl_setLine_of_notMem hn hnodup.1, setLine, if_neg (by omega),
        List.getElem?_set_self (by omega)]
    · refine ih hnodup.2 hmem ?_
      rw [setLine]
      split <;> simpa using hlen

theorem le_foldl_max (ns : List Nat) (b : Nat) :
    b ≤ ns.foldl max b ∧ ∀ n ∈ ns, n ≤ ns.foldl max b := by
  induction ns generalizing b with
  | nil => simp
  | cons m ns ih =>
    obtain ⟨h1, h2⟩ := ih (max b m)
    rw [List.foldl_cons]
    refine ⟨by omega, fun n hn => ?_⟩
    rcases List.mem_cons.mp hn with rfl | hn
    · omega
    · exact h2 n hn

theorem lineAt_overlay {n : Nat} {line : String} (hn : 1 ≤ n) (h : lines.get? n = some line)
    (currentText : String) :
    n ≤ (overlay lines currentText).length ∧ lineAt (overlay lines currentText) n = line := by
  have hkey : n ∈ lines.keys := InsertionMap.mem_keys.mpr (by simp [h])
  have hmax := (le_foldl_max lines.keys 0).2 n hkey
  have hlen : n ≤ (padTo (lines.keys.foldl max 0) (splitLines currentText)).length := by
    simp only [padTo, List.length_append, List.length_replicate]
    omega
  constructor
  · rwa [overlay, length_foldl_setLine]
  · rw [lineAt, List.getD_eq_getElem?_getD, overlay,
      getElem?_foldl_setLine lines.nodup hn (InsertionMap.mem_entries.mpr h) hlen, Option.getD_some]

/-- On edits that the snapshot covers and normal validation accepts against it, the precondition
of recovery is exactly that no anchor is the interior of a range. -/
theorem anchorsVouchedFor_iff (lines : InsertionMap Nat String) (currentText : String)
    (edits : List Edit) (hin : ∀ a ∈ collectEditAnchors edits, (lines.get? a.line).isSome)
    (hvalid : validateHashlineAnchors edits (overlay lines currentText) = .ok []) :
    anchorsVouchedFor lines edits = true ↔
      ∀ a ∈ collectEditAnchors edits, a.hash ≠ rangeInteriorHash := by
  rw [anchorsVouchedFor, List.all_eq_true]
  apply forall₂_congr
  intro a ha
  obtain ⟨e, he, hea⟩ := mem_collectEditAnchors.mp ha
  obtain ⟨hpos, -, hhash⟩ :=
    checkAnchor_eq_ok_nil.mp (validateHashlineAnchors_eq_ok_nil.mp hvalid e he a hea)
  obtain ⟨line, hline⟩ := Option.isSome_iff_exists.mp (hin a ha)
  rw [(lineAt_overlay hpos hline currentText).2] at hhash
  simp only [hline, beq_iff_eq]
  constructor
  · intro hvouched hinterior
    exact computeLineHash_ne_rangeInteriorHash _ _ (hvouched.trans hinterior)
  · intro hne
    exact hhash.resolve_left hne

theorem anchorsVouchedFor_two_lines :
    anchorsVouchedFor (.ofList [(1, "a"), (2, "b")])
      (opEdits [.replace ⟨⟨1, "hs"⟩, ⟨2, "yo"⟩, by decide, by decide⟩ ["x"]]) = true :=
  (anchorsVouchedFor_iff _ "z\na\nb" _ (by decide +kernel) (by decide +kernel)).mpr
    (by decide +kernel)

theorem anchorsVouchedFor_fails_on_three_lines :
    (∀ a ∈ collectEditAnchors
      (opEdits [.replace ⟨⟨1, "hs"⟩, ⟨3, "ni"⟩, by decide, by decide⟩ ["x"]]),
      ((InsertionMap.ofList [(1, "a"), (2, "b"), (3, "c")]).get? a.line).isSome) ∧
      validateHashlineAnchors (opEdits [.replace ⟨⟨1, "hs"⟩, ⟨3, "ni"⟩, by decide, by decide⟩ ["x"]])
        (overlay (.ofList [(1, "a"), (2, "b"), (3, "c")]) "z\na\nb\nc") = .ok [] ∧
      anchorsVouchedFor (.ofList [(1, "a"), (2, "b"), (3, "c")])
        (opEdits [.replace ⟨⟨1, "hs"⟩, ⟨3, "ni"⟩, by decide, by decide⟩ ["x"]]) = false := by
  decide +kernel

end

end JevCode.Hashline
