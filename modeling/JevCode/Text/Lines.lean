import Mathlib.Data.List.DropRight
import Mathlib.Data.String.Basic

namespace JevCode.Text

def splitLines (text : String) : List String :=
  (text.toList.splitOn '\n').map String.ofList

def joinLines (lines : List String) : String :=
  String.ofList (['\n'].intercalate (lines.map String.toList))

theorem splitLines_ne_nil (text : String) : splitLines text ≠ [] := by
  simp [splitLines, List.splitOn_ne_nil]

@[simp] theorem joinLines_splitLines (text : String) : joinLines (splitLines text) = text := by
  simp [joinLines, splitLines, Function.comp_def, List.intercalate_splitOn]

theorem splitLines_of_notMem {line : String} (h : '\n' ∉ line.toList) :
    splitLines line = [line] := by
  simp [splitLines, List.splitOn_eq_singleton h]

theorem joinLines_cons {line : String} {lines : List String} (h : lines ≠ []) :
    joinLines (line :: lines) = line ++ "\n" ++ joinLines lines := by
  apply String.toList_inj.mp
  simp [joinLines, List.intercalate_cons_of_ne_nil, h]

theorem splitLines_append_newline (line rest : String) :
    splitLines (line ++ "\n" ++ rest) = splitLines line ++ splitLines rest := by
  have h := List.splitOn_append_cons_self (a := '\n') line.toList rest.toList
  simp [splitLines, h]

theorem splitLines_joinLines {lines : List String} (h : lines ≠ []) :
    splitLines (joinLines lines) = lines.flatMap splitLines := by
  induction lines with
  | nil => contradiction
  | cons line lines ih =>
    cases lines with
    | nil => simp [joinLines]
    | cons next rest =>
      rw [joinLines_cons (by simp), splitLines_append_newline, ih (by simp)]
      rfl

theorem joinLines_append {xs ys : List String} (hxs : xs ≠ []) (hys : ys ≠ []) :
    joinLines (xs ++ ys) = joinLines xs ++ "\n" ++ joinLines ys := by
  induction xs with
  | nil => exact absurd rfl hxs
  | cons x xs ih =>
    rw [List.cons_append, joinLines_cons (by simp [hys])]
    by_cases h : xs = []
    · simp [h, joinLines]
    · rw [ih h, joinLines_cons h]
      simp only [String.append_assoc]

theorem notMem_of_mem_splitOn [BEq α] [LawfulBEq α] {x : α} {xs ys : List α}
    (h : ys ∈ xs.splitOn x) : x ∉ ys := by
  induction xs generalizing ys with
  | nil => simp_all
  | cons c xs ih =>
    rw [List.splitOn_cons_eq_if_modifyHead] at h
    split at h
    · rcases List.mem_cons.mp h with rfl | h
      · simp
      · exact ih h
    · rename_i hc
      cases hs : xs.splitOn x with
      | nil => exact absurd hs (List.splitOn_ne_nil _ _)
      | cons d ds =>
        rw [hs] at h ih
        simp only [List.modifyHead_cons, List.mem_cons] at h
        rcases h with rfl | h
        · intro hx
          rcases List.mem_cons.mp hx with rfl | hx
          · simp at hc
          · exact ih List.mem_cons_self hx
        · exact ih (List.mem_cons_of_mem _ h)

theorem notMem_of_mem_splitLines {text line : String} (h : line ∈ splitLines text) :
    '\n' ∉ line.toList := by
  obtain ⟨cs, hcs, rfl⟩ := List.mem_map.mp h
  simpa using notMem_of_mem_splitOn hcs

theorem flatMap_splitLines_of_notMem {lines : List String} (h : ∀ l ∈ lines, '\n' ∉ l.toList) :
    lines.flatMap splitLines = lines := by
  induction lines with
  | nil => rfl
  | cons line lines ih =>
    simp only [List.flatMap_cons, splitLines_of_notMem (h line (by simp)),
      ih fun l hl => h l (by simp [hl])]
    rfl

theorem splitLines_joinLines_of_notMem {lines : List String} (hne : lines ≠ [])
    (h : ∀ l ∈ lines, '\n' ∉ l.toList) :
    splitLines (joinLines lines) = lines := by
  rw [splitLines_joinLines hne, flatMap_splitLines_of_notMem h]

def isSpace (c : Char) : Bool :=
  c ∈ ['\t', '\n', '\x0b', '\x0c', '\r', ' ', '\u00a0', '\u1680', '\u2028', '\u2029', '\u202f',
    '\u205f', '\u3000', '\ufeff'] || ('\u2000' ≤ c && c ≤ '\u200a')

def trimStart (s : List Char) : List Char := s.dropWhile isSpace

def trimEnd (s : List Char) : List Char := s.rdropWhile isSpace

def trim (s : List Char) : List Char := trimEnd (trimStart s)

def isDot (c : Char) : Bool := c ∉ ['\n', '\r', '\u2028', '\u2029']

def isDigit (c : Char) : Bool := '0' ≤ c && c ≤ '9'

end JevCode.Text
