import JevCode.Hashline.Execute

namespace JevCode.Hashline

open JevCode.Text

/-- The functions of `node:path` that header paths go through. -/
structure PathTools where
  isAbsolute : String → Bool
  resolve : String → String
  relative : String → String → String

structure SplitHashlineOptions where
  cwd : Option String := none
  path : Option String := none

inductive InputError
  | emptyHeader
  | noHeader (firstLine : String)
  deriving DecidableEq

def trimText (text : String) : String := String.ofList (trim text.toList)

def trimEndText (text : String) : String := String.ofList (trimEnd text.toList)

def unquoteHashlinePath (pathText : String) : String :=
  let cs := pathText.toList
  if cs.length < 2 then pathText
  else if (cs.head? = some '\x22' ∨ cs.head? = some '\x27') ∧
    cs.head? = cs.getLast? then String.ofList cs.tail.dropLast
  else pathText

def startsWithDots (path : String) : Bool := ['.', '.'].isPrefixOf path.toList

def normalizeHashlinePath (tools : PathTools) (rawPath : String) (cwd : Option String) : String :=
  let unquoted := unquoteHashlinePath (trimText rawPath)
  match cwd with
  | none => unquoted
  | some cwd =>
    if cwd = "" || !tools.isAbsolute unquoted then unquoted
    else
      let relative := tools.relative (tools.resolve cwd) (tools.resolve unquoted)
      let isWithinCwd := relative = "" || (!startsWithDots relative && !tools.isAbsolute relative)
      if isWithinCwd then (if relative = "" then "." else relative) else unquoted

def parseHashlineHeaderLine (tools : PathTools) (line : String) (cwd : Option String) :
    Except InputError (Option String) :=
  let trimmed := trimEnd line.toList
  if trimmed.head? ≠ some filePrefix then .ok none
  else
    let rest := trimmed.dropWhile (· = filePrefix)
    if trim rest = [] then .error .emptyHeader
    else
      let parsedPath := normalizeHashlinePath tools (String.ofList rest) cwd
      if parsedPath = "" then .error .emptyHeader else .ok (some parsedPath)

def isPatchEnvelopeMarker (line : String) : Bool :=
  trimEndText line ∈ [beginPatchMarker, endPatchMarker]

def stripCr (line : String) : String :=
  if line.toList.getLast? = some '\r' then String.ofList line.toList.dropLast else line

def dropBom (input : String) : String :=
  if input.toList.head? = some '\ufeff' then String.ofList input.toList.tail else input

def stripLeadingBlankLines (input : String) : String :=
  joinLines ((splitLines (dropBom input)).dropWhile fun line =>
    trim (stripCr line).toList = [] || trimEndText (stripCr line) = beginPatchMarker)

def containsRecognizableHashlineOperations (input : String) : Bool := (splitCrLf input).any isOpLine

def hasExplicitHeader (tools : PathTools) (cwd : Option String) :
    List String → Except InputError Bool
  | [] => .ok false
  | line :: lines => do
    match ← parseHashlineHeaderLine tools line cwd with
    | some _ => return true
    | none => hasExplicitHeader tools cwd lines

def normalizeFallbackInput (tools : PathTools) (input : String) (options : SplitHashlineOptions) :
    Except InputError String := do
  if ← hasExplicitHeader tools options.cwd (splitCrLf (dropBom input)) then return input
  match options.path with
  | none => return input
  | some path =>
    if path = "" || !containsRecognizableHashlineOperations input then return input
    let fallbackPath := normalizeHashlinePath tools path options.cwd
    if fallbackPath = "" then return input
    return String.singleton filePrefix ++ fallbackPath ++ "\n" ++ input

def flush (currentPath : String) (currentLines : List String) : List HashlineInputSection :=
  if currentPath = "" then []
  else if currentLines.any fun line =>
    trim line.toList ≠ [] then [⟨currentPath, joinLines currentLines⟩]
  else []

def collectSections (tools : PathTools) (cwd : Option String) (currentPath : String)
    (currentLines : List String) :
    List String → Except InputError (List HashlineInputSection)
  | [] => .ok (flush currentPath currentLines)
  | line :: lines =>
    if trimEndText line ∈ [endPatchMarker, abortMarker] then .ok (flush currentPath currentLines)
    else if isPatchEnvelopeMarker line then collectSections tools cwd currentPath currentLines lines
    else do
      match ← parseHashlineHeaderLine tools line cwd with
      | some path =>
        let sections ← collectSections tools cwd path [] lines
        return flush currentPath currentLines ++ sections
      | none => collectSections tools cwd currentPath (currentLines ++ [line]) lines

def splitHashlineInputs (tools : PathTools) (input : String) (options : SplitHashlineOptions) :
    Except InputError (List HashlineInputSection) := do
  let stripped := stripLeadingBlankLines (← normalizeFallbackInput tools input options)
  let lines := splitCrLf stripped
  let firstLine := lines.headD ""
  match ← parseHashlineHeaderLine tools firstLine options.cwd with
  | none => throw (.noHeader firstLine)
  | some _ => collectSections tools options.cwd "" [] lines

def IsSectionLine (line : String) : Prop :=
  '\n' ∉ line.toList ∧ isPayloadTerminatorLine line = isOpLine line

structure SectionLines (lines : List String) : Prop where
  mem : ∀ line ∈ lines, IsSectionLine line
  nonblank : ∃ line ∈ lines, trim line.toList ≠ []

theorem parseHashlineHeaderLine_none {tools : PathTools} {line : String} {cwd : Option String}
    (h : parseHashlineHeaderLine tools line cwd = .ok none) :
    line.toList.head? ≠ some filePrefix := by
  intro hhead
  obtain ⟨cs, hline⟩ := List.head?_eq_some_iff.mp hhead
  have htrimmed : (trimEnd line.toList).head? = some filePrefix := by
    rw [hline, trimEnd_cons (by decide), List.head?_cons]
  unfold parseHashlineHeaderLine at h
  rw [if_neg (by simpa using htrimmed)] at h
  dsimp only at h
  split at h
  · cases h
  · split at h <;> cases h

theorem isSectionLine_of_collected {tools : PathTools} {line : String} {cwd : Option String}
    (hnewline : '\n' ∉ line.toList) (hstop : trimEndText line ∉ [endPatchMarker, abortMarker])
    (hmarker : isPatchEnvelopeMarker line = false)
    (hheader : parseHashlineHeaderLine tools line cwd = .ok none) :
    IsSectionLine line := by
  refine ⟨hnewline, ?_⟩
  have hhead := parseHashlineHeaderLine_none hheader
  have henvelope : isEnvelopeOrAbortMarkerLine line = false := by
    simp only [isPatchEnvelopeMarker, decide_eq_false_iff_not] at hmarker
    rw [isEnvelopeOrAbortMarkerLine, decide_eq_false_iff_not]
    intro hmem
    simp only [trimEndText, List.mem_cons, List.not_mem_nil, or_false, not_or] at hmem hstop hmarker
    rcases hmem with hbegin | hend | habort
    · exact hmarker.1 hbegin
    · exact hmarker.2 hend
    · exact hstop.2 habort
  rw [isPayloadTerminatorLine, henvelope, Bool.or_false, isOpLine]
  cases hc : line.toList.head? with
  | none => rfl
  | some c =>
    have hne : c ≠ filePrefix := fun h => hhead (by rw [hc, h])
    simp [hne]

theorem sectionLines_of_mem_flush {path : String} {lines : List String} {s : HashlineInputSection}
    (h : s ∈ flush path lines) (hlines : ∀ line ∈ lines, IsSectionLine line) :
    ∃ ls, SectionLines ls ∧ s.diff = joinLines ls := by
  unfold flush at h
  split at h
  · cases h
  split at h
  · rename_i hany
    rw [List.mem_singleton] at h
    obtain ⟨line, hmem, hblank⟩ := List.any_eq_true.mp hany
    exact ⟨lines, ⟨hlines, line, hmem, by simpa using hblank⟩, by rw [h]⟩
  · cases h

theorem sectionLines_of_collectSections {tools : PathTools} {cwd : Option String}
    {lines : List String} :
    ∀ {path : String} {current : List String} {sections : List HashlineInputSection},
      collectSections tools cwd path current lines = .ok sections →
        (∀ line ∈ current, IsSectionLine line) →
      (∀ line ∈ lines, '\n' ∉ line.toList) →
      ∀ s ∈ sections, ∃ ls, SectionLines ls ∧ s.diff = joinLines ls := by
  induction lines with
  | nil =>
    intro path current sections h hcurrent _ s hs
    cases h
    exact sectionLines_of_mem_flush hs hcurrent
  | cons line lines ih =>
    intro path current sections h hcurrent hlines s hs
    have hrest : ∀ l ∈ lines, '\n' ∉ l.toList := fun l hl => hlines l (by simp [hl])
    rw [collectSections] at h
    split at h
    · cases h
      exact sectionLines_of_mem_flush hs hcurrent
    rename_i hstop
    split at h
    · exact ih h hcurrent hrest s hs
    rename_i hmarker
    cases hheader : parseHashlineHeaderLine tools line cwd with
    | error err => simp [hheader, bind, Except.bind] at h
    | ok header =>
      simp only [hheader, bind, Except.bind] at h
      cases header with
      | none =>
        refine ih h (fun l hl => ?_) hrest s hs
        rcases List.mem_append.mp hl with hl | hl
        · exact hcurrent l hl
        · rw [List.mem_singleton.mp hl]
          exact isSectionLine_of_collected (hlines line (by simp)) hstop
            (by simpa using hmarker) hheader
      | some next =>
        dsimp only at h
        cases hmore : collectSections tools cwd next [] lines with
        | error err => simp [hmore] at h
        | ok more =>
          simp only [hmore, pure, Except.pure, Except.ok.injEq] at h
          rw [← h] at hs
          rcases List.mem_append.mp hs with hs | hs
          · exact sectionLines_of_mem_flush hs hcurrent
          · exact ih hmore (by simp) hrest s hs

theorem sectionLines_of_split {tools : PathTools} {input : String} {options : SplitHashlineOptions}
    {sections : List HashlineInputSection}
    (h : splitHashlineInputs tools input options = .ok sections) :
    ∀ s ∈ sections, ∃ ls, SectionLines ls ∧ s.diff = joinLines ls := by
  unfold splitHashlineInputs at h
  cases hnorm : normalizeFallbackInput tools input options with
  | error err => simp [hnorm, bind, Except.bind] at h
  | ok text =>
    simp only [hnorm, bind, Except.bind] at h
    split at h
    · cases h
    split at h
    · cases h
    · exact sectionLines_of_collectSections h (by simp) fun line hline =>
        notMem_of_mem_splitCrLf hline

end JevCode.Hashline
