import JevCode.Text.Lines

namespace JevCode.Text

theorem isSpace_of_printable {c : Char} (h1 : 33 ≤ c.toNat) (h2 : c.toNat ≤ 126) :
    isSpace c = false := by
  rw [Bool.eq_false_iff]
  intro hspace
  simp only [isSpace, Bool.or_eq_true, decide_eq_true_eq, List.mem_cons, List.not_mem_nil, or_false,
    Bool.and_eq_true] at hspace
  rcases hspace with hmem | ⟨hle, -⟩
  · rcases hmem with rfl | rfl | rfl | rfl | rfl | rfl | rfl | rfl | rfl | rfl | rfl |
      rfl | rfl | rfl <;>
      revert h1 h2 <;> decide
  · have : '\u2000'.toNat ≤ c.toNat := hle
    have : '\u2000'.toNat = 8192 := rfl
    omega

theorem forall_mem_of_all {α : Type} {p : α → Prop} [DecidablePred p] {xs : List α}
    (h : (xs.all fun x => decide (p x)) = true) : ∀ x ∈ xs, p x := by
  simpa using h

theorem isDigit_iff {c : Char} : isDigit c = true ↔ 48 ≤ c.toNat ∧ c.toNat ≤ 57 := by
  simp only [isDigit, Bool.and_eq_true, decide_eq_true_eq]
  exact Iff.rfl

theorem isDigit_of_mem_toDigits {n : Nat} {c : Char} (h : c ∈ Nat.toDigits 10 n) :
    isDigit c = true := by
  have hdigit := Nat.isDigit_of_mem_toDigits (by decide) (by decide) h
  simpa [Char.isDigit, isDigit, Char.le_def] using hdigit

theorem trimStart_cons {c : Char} (h : isSpace c = false) (cs : List Char) :
    trimStart (c :: cs) = c :: cs :=
  List.dropWhile_cons_of_neg (by simp [h])

theorem trimEnd_cons {c : Char} (h : isSpace c = false) (cs : List Char) :
    trimEnd (c :: cs) = c :: trimEnd cs := by
  induction cs using List.reverseRecOn with
  | nil => simp [trimEnd, List.rdropWhile_singleton, h]
  | append_singleton cs d ih =>
    simp only [trimEnd, ← List.cons_append, List.rdropWhile_concat] at ih ⊢
    split
    · exact ih
    · rfl

theorem trim_cons {c : Char} (h : isSpace c = false) (cs : List Char) :
    trim (c :: cs) = c :: trimEnd cs := by
  rw [trim, trimStart_cons h, trimEnd_cons h]

theorem trimEnd_append_space (cs : List Char) {c : Char} (h : isSpace c = true) :
    trimEnd (cs ++ [c]) = trimEnd cs := by
  simp [trimEnd, h]

theorem trimEnd_append (xs ys : List Char) :
    trimEnd (xs ++ ys) = if trimEnd ys = [] then trimEnd xs else xs ++ trimEnd ys := by
  simp only [trimEnd, List.rdropWhile, List.reverse_append, List.dropWhile_append,
    List.reverse_eq_nil_iff, List.isEmpty_iff]
  split <;> simp

theorem trimEnd_concat {c : Char} (h : isSpace c = false) (cs : List Char) :
    trimEnd (cs ++ [c]) = cs ++ [c] := by
  simp [trimEnd, List.rdropWhile_concat_neg, h]

theorem trimStart_append {cs : List Char} (h : trimStart cs ≠ []) (ds : List Char) :
    trimStart (cs ++ ds) = trimStart cs ++ ds := by
  rw [trimStart, List.dropWhile_append, if_neg (by simpa [trimStart] using h)]
  rfl

theorem trimEnd_eq_nil_iff {cs : List Char} : trimEnd cs = [] ↔ ∀ c ∈ cs, isSpace c = true :=
  List.rdropWhile_eq_nil_iff

theorem trim_eq_nil_iff {cs : List Char} : trim cs = [] ↔ ∀ c ∈ cs, isSpace c = true := by
  rw [trim, trimEnd, List.rdropWhile_eq_nil_iff]
  constructor
  · intro h c hc
    rw [← List.takeWhile_append_dropWhile (p := isSpace) (l := cs), List.mem_append] at hc
    rcases hc with hc | hc
    · exact List.mem_takeWhile_imp hc
    · exact h c hc
  · exact fun h c hc => h c (List.dropWhile_subset _ hc)

end JevCode.Text
