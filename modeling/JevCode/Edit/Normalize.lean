import JevCode.Text.Lines

namespace JevCode.Edit

inductive LineEnding
  | lf
  | crlf
  deriving DecidableEq

def detectLineEnding (content : String) : LineEnding :=
  let firstLine := content.toList.takeWhile (· ≠ '\n')
  if '\n' ∈ content.toList ∧ firstLine.getLast? = some '\r' then .crlf else .lf

def normalizeChars : List Char → List Char
  | '\r' :: '\n' :: rest => '\n' :: normalizeChars rest
  | '\r' :: rest => '\n' :: normalizeChars rest
  | c :: rest => c :: normalizeChars rest
  | [] => []

def normalizeToLF (text : String) : String := String.ofList (normalizeChars text.toList)

theorem normalizeChars_of_notMem {cs : List Char} (h : '\r' ∉ cs) : normalizeChars cs = cs := by
  induction cs with
  | nil => rfl
  | cons c cs ih =>
    rw [List.mem_cons, not_or] at h
    rw [normalizeChars, ih h.2]
    · rintro rest rfl
      exact absurd rfl h.1
    · rintro rfl
      exact absurd rfl h.1

theorem normalizeToLF_of_notMem {text : String} (h : '\r' ∉ text.toList) :
    normalizeToLF text = text := by
  rw [normalizeToLF, normalizeChars_of_notMem h, String.ofList_toList]

theorem normalizeToLF_ne_empty {text : String} (h : text ≠ "") :
    (normalizeToLF text).toList ≠ [] := by
  rw [normalizeToLF, String.toList_ofList]
  have hne : text.toList ≠ [] := by simpa using h
  generalize text.toList = cs at hne
  unfold normalizeChars
  split
  · simp
  · simp
  · simp
  · exact absurd rfl hne

def restoreLineEndings (text : String) (ending : LineEnding) : String :=
  match ending with
  | .crlf => String.ofList (text.toList.flatMap fun c => if c = '\n' then ['\r', '\n'] else [c])
  | .lf => text

def stripBom (content : String) : String × String :=
  match content.toList with
  | '\ufeff' :: rest => ("\ufeff", String.ofList rest)
  | _ => ("", content)

end JevCode.Edit
