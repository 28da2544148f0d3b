import JevCode.Text.Utf16
import JevCode.Tui.StdinBuffer

namespace JevCode.Tui.WordWrap

open JevCode.Text

def blanks (n : Nat) : List CodeUnit := List.replicate n 0x20

@[simp] theorem blanks_zero : blanks 0 = [] := rfl

theorem blanks_succ (n : Nat) : blanks (n + 1) = 0x20 :: blanks n := rfl

theorem blanks_add (m n : Nat) : blanks (m + n) = blanks m ++ blanks n :=
  (List.replicate_append_replicate).symm

@[simp] theorem length_blanks (n : Nat) : (blanks n).length = n := List.length_replicate

abbrev Spaced := Nat × List CodeUnit

/-- The words of a text, each with the blanks before it; blanks at the end belong to no word. -/
def wordsOf : List CodeUnit → List Spaced
  | [] => []
  | u :: text =>
    match wordsOf text with
    | [] => if u = 0x20 then [] else [(0, [u])]
    | (gap, word) :: more =>
      if u = 0x20 then (gap + 1, word) :: more
      else if gap = 0 then (0, u :: word) :: more
      else (0, [u]) :: (gap, word) :: more

def unspaced (items : List Spaced) : List CodeUnit := items.flatMap fun item =>
  blanks item.1 ++ item.2

@[simp] theorem unspaced_nil : unspaced [] = [] := rfl

@[simp] theorem unspaced_cons (gap : Nat) (word : List CodeUnit) (items : List Spaced) :
    unspaced ((gap, word) :: items) = blanks gap ++ word ++ unspaced items := rfl

structure IsWord (word : List CodeUnit) : Prop where
  ne_nil : word ≠ []
  no_blank : ∀ u ∈ word, u ≠ 0x20

def Apart (items : List Spaced) : Prop := ∀ item ∈ items, 0 < item.1 ∧ IsWord item.2

theorem wordsOf_apart (text : List CodeUnit) :
    (∀ item ∈ wordsOf text, IsWord item.2) ∧ Apart (wordsOf text).tail := by
  induction text with
  | nil => simp [wordsOf, Apart]
  | cons u text ih =>
    obtain ⟨hwords, hrest⟩ := ih
    unfold wordsOf
    split
    case h_1 =>
      split
      case isTrue => simp [Apart]
      case isFalse hu => exact ⟨by simpa using ⟨by simp, by simpa using hu⟩, by simp [Apart]⟩
    case h_2 gap word more heq =>
      rw [heq] at hwords hrest
      have hword : IsWord word := hwords _ List.mem_cons_self
      have hmore : ∀ item ∈ more, IsWord item.2 := fun item h =>
        hwords item (List.mem_cons_of_mem _ h)
      have hnew (hu : u ≠ 0x20) : IsWord [u] := ⟨by simp, by simpa using hu⟩
      split
      case isTrue => exact ⟨List.forall_mem_cons.mpr ⟨hword, hmore⟩, hrest⟩
      case isFalse hu =>
        split
        case isTrue =>
          have hlonger : IsWord (u :: word) :=
            ⟨by simp, List.forall_mem_cons.mpr ⟨hu, hword.no_blank⟩⟩
          exact ⟨List.forall_mem_cons.mpr ⟨hlonger, hmore⟩, hrest⟩
        case isFalse hgap =>
          refine ⟨List.forall_mem_cons.mpr ⟨hnew hu, hwords⟩, ?_⟩
          exact List.forall_mem_cons.mpr ⟨⟨Nat.pos_of_ne_zero hgap, hword⟩, hrest⟩

theorem unspaced_wordsOf {text : List CodeUnit} (h : text.getLast? ≠ some 0x20) :
    unspaced (wordsOf text) = text := by
  induction text with
  | nil => rfl
  | cons u text ih =>
    by_cases hnil : text = []
    · subst hnil
      have hu : u ≠ 0x20 := by simpa using h
      simp [wordsOf, hu, blanks]
    · have hrest := ih (by rwa [List.getLast?_cons_of_ne_nil hnil] at h)
      unfold wordsOf
      split
      case h_1 heq =>
        rw [heq] at hrest
        exact absurd hrest.symm hnil
      case h_2 gap word more heq =>
        rw [heq] at hrest
        split
        case isTrue hu => rw [hu, ← hrest]; rfl
        case isFalse =>
          split
          case isTrue hgap => rw [← hrest, hgap]; rfl
          case isFalse => rw [← hrest]; rfl

theorem wordsOf_head {u : CodeUnit} (hu : u ≠ 0x20) (text : List CodeUnit) :
    ∃ word more, wordsOf (u :: text) = (0, word) :: more := by
  unfold wordsOf
  split
  case h_1 => exact ⟨[u], [], if_neg hu⟩
  case h_2 gap word more heq =>
    rw [if_neg hu]
    split
    case isTrue => exact ⟨_, _, rfl⟩
    case isFalse => exact ⟨_, _, rfl⟩

/-- The rows from a row on that ends in column `column`, by the rule of the tokens: a word goes on
the row when it fits with its blanks. Of blanks wider than a row, those over the end of the row make
rows of their own, and what is left of them starts the next. -/
def tokenRows (maxWidth : Nat) : Nat → List CodeUnit → List Spaced → List (List CodeUnit)
  | _, row, [] => [row]
  | column, row, (gap, word) :: rest =>
    if gap > maxWidth then
      let beyond := column + gap - maxWidth
      let shift := (beyond - 1) % maxWidth + 1
      row :: (List.replicate ((beyond - 1) / maxWidth) [] ++
        if shift + word.length ≤ maxWidth then tokenRows maxWidth (shift + word.length) word rest
        else tokenRows maxWidth word.length word rest)
    else if column + gap + word.length ≤ maxWidth then
      tokenRows maxWidth (column + gap + word.length) (row ++ blanks gap ++ word) rest
    else row :: tokenRows maxWidth word.length word rest

def windowRows (maxWidth : Nat) : List CodeUnit → List Spaced → List (List CodeUnit)
  | row, [] => [row]
  | row, (gap, word) :: rest =>
    let stop := row.length + gap + word.length
    if stop < maxWidth ∨
      (rest = [] ∧ stop ≤ maxWidth) then windowRows maxWidth (row ++ blanks gap ++ word) rest
    else row :: windowRows maxWidth word rest

/-- How the words have to lie for both rules to break at the same blanks. The row ends in column
`column` and its first `shift` columns are left over from blanks wider than a row. -/
def BreaksAlike (maxWidth : Nat) : Nat → Nat → List Spaced → Prop
  | _, _, [] => True
  | column, shift, (gap, word) :: rest =>
    if gap > maxWidth then
      let beyond := column + gap - maxWidth
      beyond ≤ maxWidth ∧
        if beyond + word.length ≤ maxWidth
        then BreaksAlike maxWidth (beyond + word.length) beyond rest
        else BreaksAlike maxWidth word.length 0 rest
    else if column + gap + word.length ≤ maxWidth then
      (rest = [] ∨ column + gap + word.length < maxWidth + shift) ∧
        BreaksAlike maxWidth (column + gap + word.length) shift rest
    else
      (maxWidth + shift < column + gap + word.length ∨
        (rest ≠ [] ∧ maxWidth + shift = column + gap + word.length)) ∧
        BreaksAlike maxWidth word.length 0 rest

variable {maxWidth : Nat}

theorem tokenRows_head (maxWidth column : Nat) (row : List CodeUnit) (items : List Spaced) :
    ∃ more rows, tokenRows maxWidth column row items = (row ++ more) :: rows := by
  induction items generalizing column row with
  | nil => exact ⟨[], [], by simp [tokenRows]⟩
  | cons item rest ih =>
    obtain ⟨gap, word⟩ := item
    unfold tokenRows
    split
    case isTrue => exact ⟨[], _, by rw [List.append_nil]⟩
    case isFalse =>
      split
      case isTrue =>
        obtain ⟨more, rows, h⟩ := ih (column + gap + word.length) (row ++ blanks gap ++ word)
        exact ⟨blanks gap ++ word ++ more, rows, by rw [h]; simp⟩
      case isFalse => exact ⟨[], _, by rw [List.append_nil]⟩

theorem windowRows_head (maxWidth : Nat) (row : List CodeUnit) (items : List Spaced) :
    ∃ more rows, windowRows maxWidth row items = (row ++ more) :: rows := by
  induction items generalizing row with
  | nil => exact ⟨[], [], by simp [windowRows]⟩
  | cons item rest ih =>
    obtain ⟨gap, word⟩ := item
    simp only [windowRows]
    split
    case isTrue =>
      obtain ⟨more, rows, h⟩ := ih (row ++ blanks gap ++ word)
      exact ⟨blanks gap ++ word ++ more, rows, by rw [h]; simp⟩
    case isFalse => exact ⟨[], _, by rw [List.append_nil]⟩

theorem head_ne {row more : List CodeUnit} {gap : Nat} {word : List CodeUnit} (hgap : 0 < gap)
    (rows rows' : List (List CodeUnit)) :
    (row ++ blanks gap ++ word ++ more) :: rows ≠ row :: rows' := by
  intro heq
  have hlen := congrArg List.length (List.cons.inj heq).1
  simp at hlen
  omega

theorem breaksAlike_iff (hmax : 0 < maxWidth) {items : List Spaced} (hitems : Apart items)
    {column shift : Nat} {row : List CodeUnit} (hcolumn : column = row.length + shift)
    (hrow : row ≠ []) :
    tokenRows maxWidth column row items = windowRows maxWidth row items ↔
      BreaksAlike maxWidth column shift items := by
  induction items generalizing column shift row with
  | nil => simp [tokenRows, windowRows, BreaksAlike]
  | cons item rest ih =>
    obtain ⟨gap, word⟩ := item
    obtain ⟨⟨hgap, hword⟩, hrest⟩ := List.forall_mem_cons.mp hitems
    have hnew (s : Nat) : tokenRows maxWidth (s + word.length) word rest =
        windowRows maxWidth word rest ↔
        BreaksAlike maxWidth (s + word.length) s rest := ih hrest (Nat.add_comm _ _) hword.ne_nil
    have hzero := hnew 0
    rw [Nat.zero_add] at hzero
    simp only [tokenRows, windowRows, BreaksAlike]
    by_cases hwide : gap > maxWidth
    · have hout : ¬ (row.length + gap + word.length < maxWidth ∨
          rest = [] ∧ row.length + gap + word.length ≤ maxWidth) := by omega
      simp only [if_pos hwide, if_neg hout, List.cons.injEq, true_and]
      by_cases hover : column + gap - maxWidth ≤ maxWidth
      · have hrows : (column + gap - maxWidth - 1) / maxWidth = 0 := Nat.div_eq_of_lt (by omega)
        have hshift : (column + gap - maxWidth - 1) % maxWidth + 1 = column + gap - maxWidth := by
          rw [Nat.mod_eq_of_lt (by omega)]
          omega
        simp only [hrows, hshift, hover, true_and, List.replicate_zero, List.nil_append]
        split
        case isTrue => exact hnew _
        case isFalse => exact hzero
      · -- the blanks make a row of their own, which the window never does
        simp only [hover, false_and, iff_false]
        intro heq
        obtain ⟨n, hn⟩ :=
          Nat.exists_eq_succ_of_ne_zero (Nat.div_pos (Nat.le_sub_one_of_lt (Nat.lt_of_not_le hover))
          hmax).ne'
        obtain ⟨more, rows, hhead⟩ := windowRows_head maxWidth word rest
        rw [hn, hhead, List.replicate_succ, List.cons_append] at heq
        have hempty := (List.cons.inj heq).1.symm
        exact hword.ne_nil (List.append_eq_nil_iff.mp hempty).1
    · by_cases hfits : column + gap + word.length ≤ maxWidth
      · simp only [if_neg hwide, if_pos hfits]
        by_cases hin : row.length + gap + word.length < maxWidth ∨
            rest = [] ∧ row.length + gap + word.length ≤ maxWidth
        · have hroom : rest = [] ∨ column + gap + word.length < maxWidth + shift := by grind
          simp only [if_pos hin, hroom, true_and]
          refine ih hrest ?_ (by simp [hrow])
          simp
          omega
        · have hroom : ¬ (rest = [] ∨ column + gap + word.length < maxWidth + shift) := by grind
          simp only [if_neg hin, hroom, false_and, iff_false]
          obtain ⟨more, rows, hhead⟩ :=
            tokenRows_head maxWidth (column + gap + word.length) (row ++ blanks gap ++ word) rest
          rw [hhead]
          exact head_ne hgap _ _
      · simp only [if_neg hwide, if_neg hfits]
        by_cases hin : row.length + gap + word.length < maxWidth ∨
            rest = [] ∧ row.length + gap + word.length ≤ maxWidth
        · have hnot : ¬ (maxWidth + shift < column + gap + word.length ∨
              rest ≠ [] ∧ maxWidth + shift = column + gap + word.length) := by grind
          simp only [if_pos hin, hnot, false_and, iff_false]
          obtain ⟨more, rows, hhead⟩ := windowRows_head maxWidth (row ++ blanks gap ++ word) rest
          rw [hhead]
          exact (head_ne hgap _ _).symm
        · have hout : maxWidth + shift < column + gap + word.length ∨
              rest ≠ [] ∧ maxWidth + shift = column + gap + word.length := by grind
          simp only [if_neg hin, hout, true_and, List.cons.injEq]
          exact hzero

end JevCode.Tui.WordWrap
