import JevCode.Data.Words
import JevCode.Hashline.Boundary
import JevCode.Hashline.OpLaws

namespace JevCode.Hashline

open JevCode.Text JevCode.Data

def Op.targets : Op → List Nat
  | .insert cursor _ _ => (cursor.anchor?.map Anchor.line).toList
  | .replace range _ => (expandRange range).map Anchor.line

def Op.gap? : Op → Option Nat
  | .insert (.beforeAnchor a) _ _ => some (a.line - 1)
  | .insert (.afterAnchor a) _ _ => some a.line
  | _ => none

structure Independent (ops : List Op) : Prop where
  disjoint : ops.Pairwise fun a b => ∀ l ∈ a.targets, l ∉ b.targets
  gaps : ops.Pairwise fun a b => ∀ g ∈ a.gap?, g ∉ b.gap?
  bof : ops.Pairwise fun a b => a.cursor = .bof → b.cursor ≠ .bof
  eof : ops.Pairwise fun a b => a.cursor = .eof → b.cursor ≠ .eof

def Cursor.afterLine? : Cursor → Option Nat
  | .afterAnchor a => some a.line
  | _ => none

def payloadsAt (p : Cursor → Bool) (ops : List Op) : List String :=
  ops.flatMap fun op => if p op.cursor then op.payload else []

def afterText (ops : List Op) (l : Nat) : List String := payloadsAt (·.afterLine? = some l) ops

def beforeText (ops : List Op) (l : Nat) : List String := payloadsAt (·.beforeLine? = some l) ops

def bofText (ops : List Op) : List String := payloadsAt (· = .bof) ops

def eofText (ops : List Op) : List String := payloadsAt (· = .eof) ops

def keptLine (ops : List Op) (fileLines : List String) (l : Nat) : List String :=
  if ops.any fun op => op.deletedLines.contains l then [] else [lineAt fileLines l]

def placedBody (ops : List Op) (fileLines : List String) : List String :=
  (List.range' 1 fileLines.length).flatMap fun l =>
    beforeText ops l ++ keptLine ops fileLines l ++ afterText ops l

/-- The result that does not depend on the order of the ops. BOF and EOF inserts go where the code
puts them; an insert after the last line stands between that line and the EOF insert. -/
def placed (ops : List Op) (fileLines : List String) : List String :=
  if afterText ops fileLines.length = [] then
    (insertAtEnd (insertAtStart (placedBody ops fileLines) (bofText ops)) (eofText ops)).1
  else bofText ops ++ placedBody ops fileLines ++ eofText ops

def LeavesMore (ops : List Op) (fileLines : List String) : Prop :=
  (∃ l, 1 ≤ l ∧ l < fileLines.length ∧ ∀ op ∈ ops, l ∉ op.deletedLines) ∨
    ∃ op ∈ ops, op.payload ≠ [] ∧ (op.cursor.landing? fileLines).isSome

/-- The payloads that share a bucket read the same in both orders, and an insert after a blank last
line reads the same before that line. -/
structure PayloadsCommute (ops : List Op) (fileLines : List String) : Prop where
  below : ∀ a ∈ ops, ∀ range payload, .replace range payload ∈ ops →
    a.cursor.afterLine? = some (range.start.line - 1) → a.payload ++ payload = payload ++ a.payload
  eof : ∀ a ∈ ops, ∀ b ∈ ops, a.cursor.afterLine? = some fileLines.length → b.cursor = .eof →
    a.payload ++ b.payload = b.payload ++ a.payload
  blank : ∀ a ∈ ops, a.cursor.afterLine? = some fileLines.length →
    lineAt fileLines fileLines.length = "" →
    (∀ t ∈ a.payload ++ eofText ops, t = "") ∧ LeavesMore ops fileLines

def landingText (ops : List Op) (fileLines : List String) (l : Nat) : List String :=
  payloadsAt (·.landing? fileLines = some l) ops

def endText (ops : List Op) (fileLines : List String) : List String :=
  payloadsAt (·.normalize fileLines = .eof) ops

def splicedLines (ops : List Op) (fileLines : List String) : List String :=
  (List.range' 1 fileLines.length).flatMap fun l =>
    landingText ops fileLines l ++ keptLine ops fileLines l

theorem map_snd_filter_inserted? (p : Cursor → Bool) (ops : List Op) :
    (((opEdits ops).filterMap Edit.inserted?).filter fun q =>
      p q.1).map Prod.snd = payloadsAt p ops := by
  rw [inserted?_opEdits, List.filter_flatMap, List.map_flatMap, payloadsAt]
  congr 1
  funext op
  rw [List.filter_map, List.map_map]
  by_cases h : p op.cursor <;> simp [Function.comp_def, h]

section

variable {ops : List Op} {fileLines : List String} {options : ApplyOptions}

theorem keptLine_eq (l : Nat) :
    keptLine ops fileLines l = if isDeleted (opEdits ops) l then [] else [lineAt fileLines l] := by
  have h : (ops.any fun op => op.deletedLines.contains l) = isDeleted (opEdits ops) l := by
    rw [Bool.eq_iff_iff, isDeleted_opEdits]
    simp
  rw [keptLine, h]

theorem resultLines_opEdits (hvalid : validateHashlineAnchors (opEdits ops) fileLines = .ok [])
    (hnone : triggersNoAbsorption (opEdits ops) fileLines options = true) :
    resultLines (opEdits ops) fileLines options =
      (insertAtEnd (insertAtStart (splicedLines ops fileLines) (bofText ops))
        (endText ops fileLines)).1 := by
  have habsorbed : absorbedEdits (opEdits ops) fileLines options =
      (opEdits ops).map (Edit.normalize fileLines) := by
    rw [absorbedEdits, absorb_eq_self hnone]
  have hbody : simultaneous ((opEdits ops).map (Edit.normalize fileLines)) fileLines =
      splicedLines ops fileLines := by
    rw [simultaneous, splicedLines]
    congr 1
    funext l
    rw [lineOutput, isDeleted_map_normalize, keptLine_eq, insertsAt_normalize, landingText,
      ← map_snd_filter_inserted?]
  rw [resultLines_eq (anchorsInRange_of_validate hvalid), habsorbed, bofTexts_normalize,
    eofTexts_normalize, hbody, map_snd_filter_inserted? (· = .bof),
    map_snd_filter_inserted? (·.normalize fileLines = .eof), bofText, endText]

end

theorem payloadsAt_append (p : Cursor → Bool) (xs ys : List Op) :
    payloadsAt p (xs ++ ys) = payloadsAt p xs ++ payloadsAt p ys := List.flatMap_append

theorem payloadsAt_congr {p q : Cursor → Bool} {ops : List Op}
    (h : ∀ op ∈ ops, p op.cursor = q op.cursor) :
    payloadsAt p ops = payloadsAt q ops := by
  apply List.flatMap_congr
  intro op hop
  rw [h op hop]

theorem payloadsAt_filter (p q : Cursor → Bool) (ops : List Op) :
    payloadsAt p (ops.filter fun op => q op.cursor) = payloadsAt (fun c => q c && p c) ops := by
  induction ops with
  | nil => rfl
  | cons op ops ih =>
    simp only [payloadsAt] at ih
    by_cases h : q op.cursor <;> simp [payloadsAt, h, ih]

theorem payloadsAt_perm {p : Cursor → Bool} {ops ops' : List Op} (h : ops'.Perm ops)
    (hcomm : ∀ a ∈ ops, ∀ b ∈ ops, p a.cursor = true → p b.cursor = true →
      a.payload ++ b.payload = b.payload ++ a.payload) : payloadsAt p ops' = payloadsAt p ops := by
  refine flatMap_eq_of_perm h fun a ha b hb => ?_
  by_cases hpa : p a.cursor = true <;> by_cases hpb : p b.cursor = true <;> simp [hpa, hpb]
  exact hcomm a (h.mem_iff.mp ha) b (h.mem_iff.mp hb) hpa hpb

def afterFirst (ops : List Op) : List Op :=
  ops.filter (fun op => op.cursor.isAfterAnchor) ++ ops.filter fun op => !op.cursor.isAfterAnchor

theorem afterFirst_perm (ops : List Op) : (afterFirst ops).Perm ops := List.filter_append_perm ..

theorem payloadsAt_afterFirst (p : Cursor → Bool) (ops : List Op) :
    payloadsAt p (afterFirst ops) =
      payloadsAt (fun c => c.isAfterAnchor && p c) ops ++
        payloadsAt (fun c => !c.isAfterAnchor && p c) ops := by
  rw [afterFirst, payloadsAt_append, payloadsAt_filter (q := Cursor.isAfterAnchor),
    payloadsAt_filter (q := fun c => !c.isAfterAnchor)]

section

variable {ops : List Op} {fileLines : List String}

theorem landingText_afterFirst {l : Nat} (h1 : 1 ≤ l) (h2 : l ≤ fileLines.length) :
    landingText (afterFirst ops) fileLines l = afterText ops (l - 1) ++ beforeText ops l := by
  rw [landingText, payloadsAt_afterFirst, afterText, beforeText]
  congr 1 <;> apply payloadsAt_congr <;> intro op _ <;> cases op.cursor with
  | afterAnchor a =>
    simp only [Cursor.isAfterAnchor, Cursor.landing?, Cursor.normalize, Cursor.afterLine?,
      Cursor.beforeLine?]
    by_cases hlast : fileLines.length ≤ a.line
    · have : a.line ≠ l - 1 := by omega
      simp [hlast, this]
    · simp only [hlast, if_false, Option.some.injEq]
      have : a.line + 1 = l ↔ a.line = l - 1 := by omega
      simp [this]
  | _ =>
    simp [Cursor.isAfterAnchor, Cursor.landing?, Cursor.normalize, Cursor.afterLine?,
      Cursor.beforeLine?]

theorem endText_afterFirst
    (hrange : ∀ op ∈ ops, ∀ l, op.cursor.afterLine? = some l → l ≤ fileLines.length) :
    endText (afterFirst ops) fileLines = afterText ops fileLines.length ++ eofText ops := by
  rw [endText, payloadsAt_afterFirst, afterText, eofText]
  congr 1 <;> apply payloadsAt_congr <;> intro op hop <;> have hop :=
    hrange op hop <;> cases hc : op.cursor with
  | afterAnchor a =>
    have hle := hop a.line (by rw [hc]; rfl)
    simp only [Cursor.isAfterAnchor, Cursor.normalize, Cursor.afterLine?]
    by_cases hlast : fileLines.length ≤ a.line
    · have : a.line = fileLines.length := by omega
      simp [this]
    · have : a.line ≠ fileLines.length := by omega
      simp [hlast, this]
  | _ => simp [Cursor.isAfterAnchor, Cursor.normalize, Cursor.afterLine?]

theorem keptLine_perm {ops' : List Op} (h : ops'.Perm ops) (l : Nat) :
    keptLine ops' fileLines l = keptLine ops fileLines l := by
  have hany : (ops'.any fun op => op.deletedLines.contains l) = ops.any fun op =>
    op.deletedLines.contains l := by
    rw [Bool.eq_iff_iff]
    simp only [List.any_eq_true, h.mem_iff]
  rw [keptLine, keptLine, hany]

theorem cursor_inRange (hvalid : validateHashlineAnchors (opEdits ops) fileLines = .ok []) {op : Op}
    (hop : op ∈ ops) {a : Anchor} (ha : op.cursor.anchor? = some a) :
    1 ≤ a.line ∧ a.line ≤ fileLines.length := by
  have hcheck : ∀ b ∈ op.anchors, 1 ≤ b.line ∧ b.line ≤ fileLines.length := fun b hb =>
    have h := checkAnchor_eq_ok_nil.mp (validate_opEdits_iff.mp hvalid op hop b hb)
    ⟨h.1, h.2.1⟩
  cases op with
  | insert cursor first rest =>
    exact hcheck a (by simpa [Op.anchors, Op.payload, Op.deleted, Op.cursor] using ha)
  | replace range payload =>
    cases ha
    have hstart : range.start.line ∈ (expandRange range).map Anchor.line := by
      have := range.le
      rw [expandRange_lines, List.mem_range'_1]
      omega
    obtain ⟨b, hb, hline⟩ := List.mem_map.mp hstart
    rw [← hline]
    exact hcheck b (List.mem_append_right _ hb)

theorem afterLine?_inRange (hvalid : validateHashlineAnchors (opEdits ops) fileLines = .ok [])
    {op : Op} (hop : op ∈ ops) {l : Nat} (h : op.cursor.afterLine? = some l) :
    1 ≤ l ∧ l ≤ fileLines.length := by
  cases hc : op.cursor with
  | afterAnchor a =>
    rw [hc] at h
    cases h
    exact cursor_inRange hvalid hop (by rw [hc]; rfl)
  | _ => rw [hc] at h; cases h

theorem Op.after_spec {op : Op} {l : Nat} (h : op.cursor.afterLine? = some l) :
    l ∈ op.targets ∧ op.gap? = some l ∧ op.payload ≠ [] ∧ op.deletedLines = [] := by
  cases op with
  | replace range payload => cases h
  | insert cursor first rest =>
    cases cursor with
    | afterAnchor a =>
      cases h
      simp [Op.targets, Op.gap?, Op.payload, Op.deletedLines, Op.deleted, Cursor.anchor?]
    | _ => cases h

theorem Op.before_spec {op : Op} {l : Nat} (h : op.cursor.beforeLine? = some l) :
    l ∈ op.targets ∧
      (op.gap? = some (l - 1) ∨ ∃ range payload, op = .replace range payload ∧
        range.start.line = l) := by
  cases op with
  | replace range payload =>
    cases h
    refine ⟨?_, .inr ⟨range, payload, rfl, rfl⟩⟩
    have := range.le
    rw [Op.targets, expandRange_lines, List.mem_range'_1]
    omega
  | insert cursor first rest =>
    cases cursor with
    | beforeAnchor a =>
      cases h
      simp [Op.targets, Op.gap?, Cursor.anchor?]
    | _ => cases h

theorem landing?_eq_some {c : Cursor} {l : Nat} (h : c.landing? fileLines = some l) :
    c.beforeLine? = some l ∨ (1 ≤ l ∧ l ≤ fileLines.length ∧ c.afterLine? = some (l - 1)) := by
  cases c with
  | afterAnchor a =>
    simp only [Cursor.landing?, Cursor.normalize] at h
    split at h
    · cases h
    · cases h
      exact .inr ⟨by simp, by dsimp only; omega, rfl⟩
  | beforeAnchor a => exact .inl h
  | _ => cases h

theorem normalize_eq_eof {c : Cursor} (h : c.normalize fileLines = .eof) :
    c = .eof ∨ ∃ l, fileLines.length ≤ l ∧ c.afterLine? = some l := by
  cases c with
  | afterAnchor a =>
    simp only [Cursor.normalize] at h
    split at h
    · exact .inr ⟨a.line, by assumption, rfl⟩
    · cases h
  | eof => exact .inl rfl
  | _ => cases h

section

variable (hind : Independent ops) {a b : Op} (ha : a ∈ ops) (hb : b ∈ ops)
include hind ha hb

theorem Independent.eq_of_target {l : Nat} (hal : l ∈ a.targets) (hbl : l ∈ b.targets) : a = b :=
  eq_of_pairwise_unshared hind.disjoint ha hb hal hbl

theorem Independent.eq_of_gap {g : Nat} (hag : a.gap? = some g) (hbg : b.gap? = some g) : a = b :=
  eq_of_pairwise_unshared hind.gaps ha hb hag hbg

theorem Independent.eq_of_bof (hab : a.cursor = .bof) (hbb : b.cursor = .bof) : a = b :=
  eq_of_pairwise_unshared (P :=
    fun op (_ : Unit) => op.cursor = .bof) (hind.bof.imp fun h _ => h) ha hb (k := ()) hab hbb

theorem Independent.eq_of_eof (hab : a.cursor = .eof) (hbb : b.cursor = .eof) : a = b :=
  eq_of_pairwise_unshared (P :=
    fun op (_ : Unit) => op.cursor = .eof) (hind.eof.imp fun h _ => h) ha hb (k := ()) hab hbb

theorem PayloadsCommute.landing (h : PayloadsCommute ops fileLines) {l : Nat}
    (hal : a.cursor.landing? fileLines = some l) (hbl : b.cursor.landing? fileLines = some l) :
    a.payload ++ b.payload = b.payload ++ a.payload := by
  rcases landing?_eq_some hal with hal | ⟨-, -, hal⟩ <;>
    rcases landing?_eq_some hbl with hbl | ⟨-, -, hbl⟩
  · rw [hind.eq_of_target ha hb (Op.before_spec hal).1 (Op.before_spec hbl).1]
  · rcases (Op.before_spec hal).2 with hgap | ⟨range, payload, rfl, rfl⟩
    · rw [hind.eq_of_gap ha hb hgap (Op.after_spec hbl).2.1]
    · exact (h.below b hb range payload ha hbl).symm
  · rcases (Op.before_spec hbl).2 with hgap | ⟨range, payload, rfl, rfl⟩
    · rw [hind.eq_of_gap ha hb (Op.after_spec hal).2.1 hgap]
    · exact h.below a ha range payload hb hal
  · rw [hind.eq_of_target ha hb (Op.after_spec hal).1 (Op.after_spec hbl).1]

theorem PayloadsCommute.atEnd (h : PayloadsCommute ops fileLines)
    (hvalid : validateHashlineAnchors (opEdits ops) fileLines = .ok [])
    (hae : a.cursor.normalize fileLines = .eof) (hbe : b.cursor.normalize fileLines = .eof) :
    a.payload ++ b.payload = b.payload ++ a.payload := by
  have hlast : ∀ op ∈ ops, ∀ l, fileLines.length ≤ l → op.cursor.afterLine? = some l →
      op.cursor.afterLine? = some fileLines.length := by
    intro op hop l hl hop'
    have := (afterLine?_inRange hvalid hop hop').2
    rw [hop', Nat.le_antisymm this hl]
  rcases normalize_eq_eof hae with hae | ⟨l, hl, hae⟩ <;>
    rcases normalize_eq_eof hbe with hbe | ⟨l', hl', hbe⟩
  · rw [hind.eq_of_eof ha hb hae hbe]
  · exact (h.eof b hb a ha (hlast b hb l' hl' hbe) hae).symm
  · exact h.eof a ha b hb (hlast a ha l hl hae) hbe
  · rw [hind.eq_of_target ha hb (Op.after_spec (hlast a ha l hl hae)).1
      (Op.after_spec (hlast b hb l' hl' hbe)).1]

end

end

end JevCode.Hashline
