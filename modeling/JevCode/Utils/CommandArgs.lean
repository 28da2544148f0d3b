import JevCode.Text.Utf16

namespace JevCode.Utils.CommandArgs

open JevCode.Text

structure ArgScan where
  args : List (List CodeUnit) := []
  current : List CodeUnit := []
  inQuote : Option CodeUnit := none

def ArgScan.push (s : ArgScan) : ArgScan :=
  if s.current ≠ [] then { s with args := s.args ++ [s.current], current := [] } else s

def ArgScan.step (s : ArgScan) (char : CodeUnit) : ArgScan :=
  match s.inQuote with
  | some quote =>
    if char = quote then { s with inQuote := none }
    else { s with current := s.current ++ [char] }
  | none =>
    if char = code '"' ∨ char = code '\'' then { s with inQuote := some char }
    else if char = code ' ' ∨ char = code '\t' then s.push
    else { s with current := s.current ++ [char] }

def parseCommandArgs (argsString : List CodeUnit) : List (List CodeUnit) :=
  (argsString.foldl ArgScan.step {}).push.args

def quoted (quote : CodeUnit) (text : List CodeUnit) : List CodeUnit := quote :: text ++ [quote]

/-- The quoted texts with a space between one and the next. -/
def commandLine (quote : CodeUnit) (texts : List (List CodeUnit)) : List CodeUnit :=
  [code ' '].intercalate (texts.map (quoted quote))

variable {quote : CodeUnit} {s : ArgScan}

theorem scan_inside (hs : s.inQuote = some quote) {text : List CodeUnit} (h : quote ∉ text) :
    text.foldl ArgScan.step s = { s with current := s.current ++ text } := by
  induction text generalizing s with
  | nil => simp
  | cons char text ih =>
    have hchar : char ≠ quote := fun heq => h (heq ▸ List.mem_cons_self)
    have hstep : s.step char = { s with current := s.current ++ [char] } := by
      simp [ArgScan.step, hs, hchar]
    have hrest : quote ∉ text := fun hmem => h (List.mem_cons_of_mem _ hmem)
    rw [List.foldl_cons, ih (by rw [hstep]; exact hs) hrest, hstep]
    simp

theorem scan_quoted (hquote : quote = code '"' ∨ quote = code '\'') (hs : s.inQuote = none)
    {text : List CodeUnit} (h : quote ∉ text) :
    (quoted quote text).foldl ArgScan.step s = { s with current := s.current ++ text } := by
  have hopen : s.step quote = { s with inQuote := some quote } := by simp [ArgScan.step, hs, hquote]
  rw [quoted, List.cons_append, List.foldl_cons, List.foldl_append, hopen, scan_inside rfl h]
  simp [ArgScan.step, ← hs]

theorem push_quoted (args : List (List CodeUnit)) (text : List CodeUnit) :
    ({ args := args, current := text } : ArgScan).push =
    { args := args ++ [text].filter (· ≠ []) } := by
  by_cases h : text = [] <;> simp [ArgScan.push, h]

theorem step_space (hs : s.inQuote = none) : s.step (code ' ') = s.push := by
  have hquote : ¬ (code ' ' = code '"' ∨ code ' ' = code '\'') := by decide
  simp [ArgScan.step, hs, hquote]

theorem scan_commandLine (hquote : quote = code '"' ∨ quote = code '\'')
    (args texts : List (List CodeUnit)) (h : ∀ text ∈ texts, quote ∉ text) :
    ((commandLine quote texts).foldl ArgScan.step { args := args }).push.args = args ++ texts.filter
    (· ≠ []) := by
  induction texts generalizing args with
  | nil => simp [commandLine, ArgScan.push]
  | cons text texts ih =>
    have htext : quote ∉ text := h text List.mem_cons_self
    have hfirst : (quoted quote text).foldl ArgScan.step { args := args } =
      { args := args, current := text } :=
      scan_quoted hquote rfl htext
    cases texts with
    | nil => simpa [commandLine, hfirst] using congrArg ArgScan.args (push_quoted args text)
    | cons next texts =>
      have hrest := ih (args ++ [text].filter (· ≠ [])) fun t ht => h t (List.mem_cons_of_mem _ ht)
      have hline : commandLine quote (text :: next :: texts) =
          quoted quote text ++ code ' ' :: commandLine quote (next :: texts) := by
        simp [commandLine, List.intercalate_cons_cons]
      rw [hline, List.foldl_append, List.foldl_cons, hfirst, step_space rfl, push_quoted, hrest,
        List.append_assoc, ← List.filter_append]
      rfl

theorem parseCommandArgs_single_quoted (texts : List (List CodeUnit))
    (h : ∀ text ∈ texts, code '\'' ∉ text) :
    parseCommandArgs (commandLine (code '\'') texts) = texts.filter (· ≠ []) := by
  simpa only [parseCommandArgs, List.nil_append] using scan_commandLine (Or.inr rfl) [] texts h

theorem parseCommandArgs_blank_and_quote :
    parseCommandArgs (commandLine (code '\'') [units "a \"b", [], units " "]) =
      [units "a \"b", units " "] :=
  parseCommandArgs_single_quoted _ (by decide)

theorem parseCommandArgs_drops_empty :
    ¬ ∀ texts : List (List CodeUnit), (∀ text ∈ texts, code '\'' ∉ text) →
      parseCommandArgs (commandLine (code '\'') texts) = texts :=
  fun h => absurd (h [[]] (by decide)) (by decide)

end JevCode.Utils.CommandArgs
