import JevCode.Edit.Patch

namespace JevCode.Edit

open JevCode.Text

inductive Operation
  | create
  | delete
  | update
  deriving DecidableEq

structure PatchInput where
  path : String
  op : Operation
  rename : Option String := none
  diff : Option String := none
  deriving DecidableEq

def beginPatchMarker : String := "*** Begin Patch"
def endPatchMarker : String := "*** End Patch"
def addFileMarker : String := "*** Add File: "
def deleteFileMarker : String := "*** Delete File: "
def updateFileMarker : String := "*** Update File: "
def moveToMarker : String := "*** Move to: "

inductive EnvelopeError
  | noBeginMarker
  | noEndMarker
  | emptyUpdate (path : String) (lineNumber : Nat)
  | invalidHeader (firstLine : String) (lineNumber : Nat)
  deriving DecidableEq

def EnvelopeError.message : EnvelopeError → String
  | .noBeginMarker => "The first line of the patch must be '*** Begin Patch'"
  | .noEndMarker => "The last line of the patch must be '*** End Patch'"
  | .emptyUpdate path lineNumber =>
    s!"Line {lineNumber}: Update file hunk for path '{path}' is empty"
  | .invalidHeader firstLine lineNumber =>
    s!"Line {lineNumber}: '{firstLine}' is not a valid hunk header. Valid hunk headers: " ++
      "'*** Add File: \x7bpath\x7d', '*** Delete File: \x7bpath\x7d', '*** Update File: \x7bpath\x7d'"

def stripHeredoc (lines : List String) : List String :=
  if 2 ≤ lines.length && lines.headD "" ∈ ["<<EOF", "<<'EOF'", "<<\"EOF\""] &&
    trimmed (lines.getLastD "") = "EOF" then
    lines.tail.dropLast
  else lines

def isFileMarker (line : String) : Bool :=
  startsWith line "*** Add File:" || startsWith line "*** Delete File:" ||
    startsWith line "*** Update File:"

def splitMoveTo : List String → Option String × List String
  | [] => (none, [])
  | line :: lines =>
    if startsWith line moveToMarker then (some (slice line moveToMarker.length), lines)
      else (none, line :: lines)

theorem length_splitMoveTo (lines : List String) : (splitMoveTo lines).2.length ≤ lines.length := by
  cases lines with
  | nil => exact Nat.le_refl 0
  | cons line lines =>
    rw [splitMoveTo]
    split
    · exact Nat.le_succ _
    · exact Nat.le_refl _

def closedLines (lines : List String) : String :=
  String.ofList (lines.flatMap fun line => line.toList ++ ['\n'])

def parseFileOps (streaming : Bool) (lineNumber : Nat) :
    List String → Except EnvelopeError (List PatchInput)
  | [] => .ok []
  | line :: rest =>
    let firstLine := trimmed line
    if firstLine = "" then parseFileOps streaming (lineNumber + 1) rest
    else if startsWith firstLine addFileMarker then do
      let added := rest.takeWhile fun line => startsWith line "+"
      let hunks ← parseFileOps streaming (lineNumber + 1 + added.length)
        (rest.dropWhile fun line => startsWith line "+")
      return {
        path := slice firstLine addFileMarker.length
        op := .create
        diff := some (closedLines (added.map fun line => slice line 1)) } :: hunks
    else if startsWith firstLine deleteFileMarker then do
      let hunks ← parseFileOps streaming (lineNumber + 1) rest
      return { path := slice firstLine deleteFileMarker.length, op := .delete } :: hunks
    else if startsWith firstLine updateFileMarker then do
      let path := slice firstLine updateFileMarker.length
      let body := splitMoveTo rest
      let diffLines := body.2.takeWhile fun line => !isFileMarker line
      let next := lineNumber + 1 + body.1.toList.length + diffLines.length
      if diffLines = [] && !streaming then throw (.emptyUpdate path next)
      let hunks ← parseFileOps streaming next (body.2.dropWhile fun line => !isFileMarker line)
      return { path := path, op := .update, rename := body.1, diff := some (joinLines diffLines) } ::
        hunks
    else if streaming then .ok []
    else .error (.invalidHeader firstLine lineNumber)
  termination_by lines => lines.length
  decreasing_by
  · simp
  · exact Nat.lt_succ_of_le (List.length_dropWhile_le _ _)
  · simp
  · exact Nat.lt_succ_of_le ((List.length_dropWhile_le _ _).trans (length_splitMoveTo rest))

def parseApplyPatchWithOptions (patchText : String) (streaming : Bool) :
    Except EnvelopeError (List PatchInput) :=
  let lines := stripHeredoc (splitLines (trimmed patchText))
  if lines.head?.all fun first => trimmed first ≠ beginPatchMarker then
    if streaming then .ok [] else .error .noBeginMarker
  else
    let hasEndMarker := trimmed (lines.getLastD "") = endPatchMarker
    if !hasEndMarker && !streaming then .error .noEndMarker
    else parseFileOps streaming 2 (if hasEndMarker then lines.tail.dropLast else lines.tail)

def parseApplyPatch (patchText : String) : Except EnvelopeError (List PatchInput) :=
  parseApplyPatchWithOptions patchText false

def stripAddition (line : String) : String :=
  if startsWith line "+ " then slice line 2 else if startsWith line "+" then slice line 1 else line

def looksAdded (lines : List String) : Bool :=
  let nonEmptyLines := lines.filter (· ≠ "")
  nonEmptyLines ≠ [] && nonEmptyLines.all fun line => startsWith line "+ " || startsWith line "+"

def normalizeCreateContent (content : String) : String :=
  if looksAdded (splitLines content)
    then joinLines ((splitLines content).map stripAddition) else content

/-- The contents of files by absolute path. Directories are not modelled: `mkdir` changes no content.
-/
abbrev Disk := String → Option String

def Disk.write (disk : Disk) (path content : String) : Disk := fun p =>
  if p = path then some content else disk p

def Disk.delete (disk : Disk) (path : String) : Disk := fun p => if p = path then none else disk p

/-- What `applyPatch` runs in: path resolution, which throws for the internal schemes, whether a
stored file starts with a byte order mark that reading drops, and what other writers do between the
read and the commit. -/
structure PatchHost where
  resolvePath : String → Except String String
  hasBom : String → Bool
  interference : Disk → Disk

structure ApplyPatchOptions where
  dryRun : Bool := false
  fuzzyThreshold : ℚ := defaultFuzzyThreshold
  allowFuzzy : Bool := true

structure FileChange where
  type : Operation
  path : String
  newPath : Option String := none
  oldContent : Option String := none
  newContent : Option String := none

structure ApplyPatchResult where
  change : FileChange
  warnings : List String := []

inductive ApplyError
  | resolve (message : String)
  | patch (error : PatchError)

def readExistingPatchFile (disk : Disk) (absolutePath path : String) : Except PatchError String :=
  match disk absolutePath with
  | some content => .ok content
  | none => .error (.apply s!"File not found: {path}")

def nonEmpty? (text : Option String) : Option String := text.filter (· ≠ "")

section

variable (tools : MatchTools) (host : PatchHost) (options : ApplyPatchOptions)

def applyCreate (absolutePath : String) (input : PatchInput) (disk : Disk) :
    Except PatchError (ApplyPatchResult × Disk) :=
  match nonEmpty? input.diff with
  | none => .error (.apply "Create operation requires diff (file content)")
  | some diff =>
    let normalizedContent := normalizeCreateContent diff
    let content :=
      if endsWithNewline normalizedContent then normalizedContent else normalizedContent ++ "\n"
    .ok (⟨{ type := .create, path := absolutePath, newContent := some content }, []⟩,
      if options.dryRun then disk else disk.write absolutePath content)

def applyDelete (absolutePath : String) (input : PatchInput) (disk : Disk) :
    Except PatchError (ApplyPatchResult × Disk) := do
  let oldContent ← readExistingPatchFile disk absolutePath input.path
  return (⟨{ type := .delete, path := absolutePath, oldContent := some oldContent }, []⟩,
    if options.dryRun then disk else disk.delete absolutePath)

def updatedContent (absolutePath path diff originalContent : String) :
    Except PatchError PatchedContent := do
  let (bomFromText, strippedContent) := stripBom originalContent
  let bom := if bomFromText = "" && host.hasBom absolutePath then "\ufeff" else bomFromText
  let hunks ← parseDiffHunks diff
  if hunks = [] then throw (.apply "Diff contains no hunks")
  let patched ← applyHunksToContent tools (normalizeToLF strippedContent) path hunks
    options.fuzzyThreshold
    options.allowFuzzy
  return { patched with
    content := bom ++ restoreLineEndings patched.content (detectLineEnding strippedContent) }

def applyUpdate (absolutePath : String) (newPath : Option String) (input : PatchInput)
    (disk : Disk) :
    Except PatchError (ApplyPatchResult × Disk) := do
  match nonEmpty? input.diff with
  | none => throw (.apply "Update operation requires diff (hunks)")
  | some diff =>
    let originalContent ← readExistingPatchFile disk absolutePath input.path
    let patched ← updatedContent tools host options absolutePath input.path diff originalContent
    let result : ApplyPatchResult := {
      change := {
        type := .update
        path := absolutePath
        newPath := newPath
        oldContent := some originalContent
        newContent := some patched.content }
      warnings := patched.warnings }
    if options.dryRun then return (result, disk)
    let commitDisk := host.interference disk
    let commitContent ← readExistingPatchFile commitDisk absolutePath input.path
    if commitContent ≠ originalContent then
      throw (.apply s!"concurrent edit conflict: file changed since read: {input.path}")
    match newPath with
    | some destPath =>
      return (result, (commitDisk.write destPath patched.content).delete absolutePath)
    | none => return (result, commitDisk.write absolutePath patched.content)

def applyNormalizedPatch (input : PatchInput) (disk : Disk) :
    Except ApplyError (ApplyPatchResult × Disk) := do
  let absolutePath ← (host.resolvePath input.path).mapError .resolve
  let destPath ← ((nonEmpty? input.rename).mapM host.resolvePath).mapError .resolve
  if destPath = some absolutePath
    then throw (.patch (.apply "rename path is the same as source path"))
  Except.mapError .patch <| match input.op with
    | .create => applyCreate options absolutePath input disk
    | .delete => applyDelete options absolutePath input disk
    | .update => applyUpdate tools host options absolutePath destPath input disk

/-- The public entry: it holds the locks of its paths while `applyNormalizedPatch` runs. -/
def applyPatch (input : PatchInput) (disk : Disk) : Except ApplyError (ApplyPatchResult × Disk) :=
  applyNormalizedPatch tools host options input disk

end

def envelope (body : List String) : String :=
  joinLines ("*** Begin Patch" :: (body ++ ["*** End Patch"]))

/-- The envelope that adds the file `p` with the given lines. -/
def createEnvelope (p : String) (lines : List String) : String :=
  envelope (("*** Add File: " ++ p) :: lines.map ("+" ++ ·))

theorem trimmed_of_ends {text : String} {c d : Char} {cs ds : List Char} (hc : isSpace c = false)
    (hd : isSpace d = false) (hstart : text.toList = c :: cs) (hend : text.toList = ds ++ [d]) :
    trimmed text = text := by
  rw [trimmed, trim, hstart, trimStart_cons hc, ← hstart, hend, trimEnd_concat hd, ← hend,
    String.ofList_toList]

theorem trimmed_envelope (body : List String) : trimmed (envelope body) = envelope body := by
  have hstart : envelope body = "*** Begin Patch" ++ "\n" ++ joinLines (body ++ ["*** End Patch"]) :=
    joinLines_cons (by simp)
  have hend : envelope body = joinLines ("*** Begin Patch" :: body) ++ "\n" ++ "*** End Patch" := by
    rw [envelope, ← List.cons_append, joinLines_append (by simp) (by simp)]
    rfl
  apply trimmed_of_ends (c := '*') (d := 'h') (by decide) (by decide)
  · rw [hstart, String.append_assoc, String.toList_append]
    exact List.cons_append
  · rw [hend, String.toList_append, show "*** End Patch".toList = "*** End Patc".toList ++
      ['h'] from rfl, ← List.append_assoc]

theorem splitLines_envelope {body : List String} (h : ∀ line ∈ body, '\n' ∉ line.toList) :
    splitLines (envelope body) = "*** Begin Patch" :: (body ++ ["*** End Patch"]) := by
  apply splitLines_joinLines_of_notMem (by simp)
  intro line hline
  simp only [List.mem_append, List.mem_cons, List.not_mem_nil, or_false] at hline
  rcases hline with rfl | hline | rfl
  · decide
  · exact h line hline
  · decide

theorem parseApplyPatch_envelope {body : List String} (h : ∀ line ∈ body, '\n' ∉ line.toList) :
    parseApplyPatch (envelope body) = parseFileOps false 2 body := by
  have hlast : ("*** Begin Patch" :: (body ++ ["*** End Patch"])).getLastD "" = "*** End Patch" := by
    rw [List.getLastD_eq_getLast?, List.getLast?_cons, List.getLast?_concat]
    rfl
  have hstrip : stripHeredoc ("*** Begin Patch" :: (body ++ ["*** End Patch"])) =
      "*** Begin Patch" :: (body ++ ["*** End Patch"]) := if_neg (by simp)
  rw [parseApplyPatch, parseApplyPatchWithOptions, trimmed_envelope, splitLines_envelope h, hstrip]
  simp only [hlast, List.head?_cons, Option.all_some, List.tail_cons, List.dropLast_concat]
  rw [if_neg (by decide), if_neg (by decide), if_pos (by decide)]

theorem trimmed_addFile (p : String) :
    trimmed ("*** Add File: " ++ p) = if trimmed p = "" then "*** Add File:" else "*** Add File: " ++
      trimmedEnd p := by
  have hblank : trimEnd p.toList = [] ↔ trimmed p = "" := by
    rw [trimEnd_eq_nil_iff, ← trim_eq_nil_iff, trimmed, String.ofList_eq_empty_iff]
  have hstart : trim ("*** Add File: " ++ p).toList =
      trimEnd ("*** Add File: ".toList ++ p.toList) := by
    rw [String.toList_append, trim]
    rfl
  rw [trimmed, hstart, trimEnd_append]
  simp only [hblank]
  split
  · rfl
  · apply String.toList_inj.mp
    simp [trimmedEnd]

theorem startsWith_append (start line : String) : startsWith (start ++ line) start = true := by
  simp [startsWith]

theorem slice_append (start line : String) : slice (start ++ line) start.length = line := by
  simp [slice, ← String.length_toList]

theorem parseFileOps_addFile_of_blank {p : String} (h : trimmed p = "") (rest : List String) :
    parseFileOps false 2 (("*** Add File: " ++ p) :: rest) =
      .error (.invalidHeader "*** Add File:" 2) := by
  rw [parseFileOps]
  simp only [trimmed_addFile, h, if_true]
  rfl

theorem parseFileOps_addFile {p : String} (h : trimmed p ≠ "") (lines : List String) :
    parseFileOps false 2 (("*** Add File: " ++ p) :: lines.map ("+" ++ ·)) =
      .ok [{ path := trimmedEnd p, op := .create, diff := some (closedLines lines) }] := by
  have hadded : ∀ line ∈ lines.map ("+" ++ ·), startsWith line "+" = true := by
    intro line hline
    obtain ⟨line, -, rfl⟩ := List.mem_map.mp hline
    exact startsWith_append "+" line
  have hlines : (lines.map ("+" ++ ·)).map (slice · 1) = lines := by
    rw [List.map_map]
    exact List.map_id'' (slice_append "+") lines
  rw [parseFileOps]
  simp only [trimmed_addFile, h, if_false]
  rw [if_neg (by simp), addFileMarker, if_pos (startsWith_append _ _),
    List.takeWhile_eq_self_iff.mpr hadded, List.dropWhile_eq_nil_iff.mpr hadded, hlines,
    parseFileOps, slice_append]
  rfl

def createdLines (lines : List String) : List String :=
  if looksAdded lines then lines.map stripAddition else lines

theorem closedLines_eq_joinLines (lines : List String) :
    closedLines lines = joinLines (lines ++ [""]) := by
  induction lines with
  | nil => rfl
  | cons line lines ih =>
    rw [List.cons_append, joinLines_cons (by simp), ← ih]
    apply String.toList_inj.mp
    simp [closedLines]

theorem splitLines_closedLines {lines : List String} (h : ∀ line ∈ lines, '\n' ∉ line.toList) :
    splitLines (closedLines lines) = lines ++ [""] := by
  rw [closedLines_eq_joinLines]
  apply splitLines_joinLines_of_notMem (by simp)
  intro line hline
  rcases List.mem_append.mp hline with hline | hline
  · exact h line hline
  · simp [List.mem_singleton.mp hline]

theorem closedLines_injOn {xs ys : List String} (hxs : ∀ line ∈ xs, '\n' ∉ line.toList)
    (hys : ∀ line ∈ ys, '\n' ∉ line.toList) (h : closedLines xs = closedLines ys) : xs = ys := by
  have := congrArg splitLines h
  rw [splitLines_closedLines hxs, splitLines_closedLines hys] at this
  exact List.append_cancel_right this

theorem closedLines_ne_empty {lines : List String} (h : lines ≠ []) : closedLines lines ≠ "" := by
  cases lines with
  | nil => exact absurd rfl h
  | cons line lines => simp [closedLines]

theorem endsWithNewline_closedLines {lines : List String} (h : lines ≠ []) :
    endsWithNewline (closedLines lines) = true := by
  have hlines := List.dropLast_append_getLast h
  rw [← hlines]
  simp [endsWithNewline, closedLines]

theorem looksAdded_append_empty (lines : List String) :
    looksAdded (lines ++ [""]) = looksAdded lines := by
  simp [looksAdded]

theorem normalizeCreateContent_closedLines {lines : List String}
    (h : ∀ line ∈ lines, '\n' ∉ line.toList) :
    normalizeCreateContent (closedLines lines) = closedLines (createdLines lines) := by
  rw [normalizeCreateContent, splitLines_closedLines h, looksAdded_append_empty, createdLines]
  split
  · rw [List.map_append, closedLines_eq_joinLines]
    rfl
  · rfl

theorem createdLines_ne_nil {lines : List String} (h : lines ≠ []) : createdLines lines ≠ [] := by
  rw [createdLines]
  split
  · simpa using h
  · exact h

theorem startsWith_plus_of_plus_space {line : String} (h : startsWith line "+ " = true) :
    startsWith line "+" = true := by
  rw [startsWith, List.isPrefixOf_iff_prefix] at h ⊢
  exact (List.prefix_append "+".toList [' ']).trans h

theorem looksAdded_iff {lines : List String} :
    looksAdded lines = true ↔ (∃ line ∈ lines, line ≠ "") ∧ ∀ line ∈ lines, line ≠ "" →
      startsWith line "+" = true := by
  have hplus : ∀ line, (startsWith line "+ " || startsWith line "+") = startsWith line "+" := by
    intro line
    rw [Bool.or_eq_right_iff_imp]
    exact startsWith_plus_of_plus_space
  simp [looksAdded, hplus, or_iff_not_imp_left]

theorem looksAdded_eq_false_iff {lines : List String} :
    looksAdded lines = false ↔
      (∀ line ∈ lines, line = "") ∨ ∃ line ∈ lines, line ≠ "" ∧ startsWith line "+" = false := by
  rw [← Bool.not_eq_true, looksAdded_iff, not_and_or]
  push Not
  simp

theorem stripAddition_ne {line : String} (h : startsWith line "+" = true) :
    stripAddition line ≠ line := by
  obtain ⟨rest, hrest⟩ := List.isPrefixOf_iff_prefix.mp h
  have hlength : ∀ n, 0 < n → slice line n ≠ line := by
    intro n hn heq
    have := congrArg (fun text => text.toList.length) heq
    simp only [slice, String.toList_ofList, List.length_drop, ← hrest, List.length_append] at this
    simp at this
    omega
  rw [stripAddition]
  split
  · exact hlength 2 (by decide)
  · exact hlength 1 (by decide)

theorem createdLines_eq_self_iff {lines : List String} :
    createdLines lines = lines ↔ looksAdded lines = false := by
  rw [createdLines]
  split
  case isTrue h =>
    obtain ⟨⟨line, hline, hne⟩, hall⟩ := looksAdded_iff.mp h
    simp only [h, Bool.true_eq_false, iff_false]
    intro heq
    have hself : ∀ line ∈ lines, stripAddition line = id line :=
      List.map_inj_left.mp (heq.trans (List.map_id lines).symm)
    exact stripAddition_ne (hall line hline hne) (hself line hline)
  case isFalse h => simpa using h

theorem notMem_createdLines {lines : List String} (h : ∀ line ∈ lines, '\n' ∉ line.toList) :
    ∀ line ∈ createdLines lines, '\n' ∉ line.toList := by
  have hslice : ∀ (line : String) n, '\n' ∉ line.toList → '\n' ∉ (slice line n).toList := by
    intro line n hline hmem
    rw [slice, String.toList_ofList] at hmem
    exact hline (List.mem_of_mem_drop hmem)
  intro line hline
  rw [createdLines] at hline
  split at hline
  · obtain ⟨marked, hmarked, rfl⟩ := List.mem_map.mp hline
    rw [stripAddition]
    split
    · exact hslice marked 2 (h marked hmarked)
    · split
      · exact hslice marked 1 (h marked hmarked)
      · exact h marked hmarked
  · exact h line hline

theorem applyPatch_create (tools : MatchTools) (host : PatchHost)
    {options : ApplyPatchOptions} (disk : Disk) {p absolutePath : String} {lines : List String}
    (hdry : options.dryRun = false) (hpath : host.resolvePath p = .ok absolutePath)
    (hne : lines ≠ []) (hlines : ∀ line ∈ lines, '\n' ∉ line.toList) :
    ∃ result, applyPatch tools host options
      { path := p, op := .create, diff := some (closedLines lines) } disk =
      .ok (result, disk.write absolutePath (closedLines (createdLines lines))) := by
  have hdiff : nonEmpty? (some (closedLines lines)) = some (closedLines lines) :=
    Option.filter_some_pos (by simpa using closedLines_ne_empty hne)
  simp only [applyPatch, applyNormalizedPatch, hpath, applyCreate, hdiff,
    normalizeCreateContent_closedLines hlines,
    endsWithNewline_closedLines (createdLines_ne_nil hne), hdry]
  exact ⟨_, rfl⟩

/-- The envelope writes exactly the lines it carries, unless they are all marked as additions
themselves: then `normalizeCreateContent` takes off the marks a second time. -/
theorem create_writes_lines_iff (tools : MatchTools) (host : PatchHost)
    {options : ApplyPatchOptions} (disk : Disk) {p absolutePath : String} {lines : List String}
    (hdry : options.dryRun = false) (hp : '\n' ∉ p.toList)
    (hpath : host.resolvePath (trimmedEnd p) = .ok absolutePath) (hne : lines ≠ [])
    (hlines : ∀ line ∈ lines, '\n' ∉ line.toList) :
    (∃ input result, parseApplyPatch (createEnvelope p lines) = .ok [input] ∧ input.op = .create ∧
        applyPatch tools host options input disk =
          .ok (result, disk.write absolutePath (closedLines lines))) ↔
      trimmed p ≠ "" ∧
        ((∀ line ∈ lines, line = "") ∨ ∃ line ∈ lines, line ≠ "" ∧ startsWith line "+" = false) := by
  have hbody : ∀ line ∈ ("*** Add File: " ++ p) :: lines.map ("+" ++ ·), '\n' ∉ line.toList := by
    simp only [List.mem_cons, List.mem_map, forall_eq_or_imp, forall_exists_index, and_imp,
      forall_apply_eq_imp_iff₂, String.toList_append, List.mem_append, not_or]
    exact ⟨⟨by decide, hp⟩, fun line hline => ⟨by decide, hlines line hline⟩⟩
  rw [createEnvelope, parseApplyPatch_envelope hbody, ← looksAdded_eq_false_iff,
    ← createdLines_eq_self_iff]
  by_cases hblank : trimmed p = ""
  · simp [parseFileOps_addFile_of_blank hblank, hblank]
  · obtain ⟨result, hresult⟩ := applyPatch_create tools host disk hdry hpath hne hlines
    rw [parseFileOps_addFile hblank]
    constructor
    · rintro ⟨input, result', hinput, -, happly⟩
      obtain rfl : _ = input := by simpa using hinput
      rw [hresult] at happly
      have hdisk := congrFun (Prod.mk.inj (Except.ok.inj happly)).2 absolutePath
      have hcontent : closedLines (createdLines lines) = closedLines lines := by
        simpa [Disk.write] using hdisk
      exact ⟨hblank, closedLines_injOn (notMem_createdLines hlines) hlines hcontent⟩
    · rintro ⟨-, hself⟩
      rw [hself] at hresult
      exact ⟨_, result, rfl, rfl, hresult⟩

def plainHost : PatchHost := ⟨.ok, fun _ => false, id⟩

def emptyDisk : Disk := fun _ => none

theorem create_writes_lines :
    ∃ input result, parseApplyPatch (createEnvelope "a.txt" ["x", "", "+y"]) = .ok [input] ∧
      input.op = .create ∧
      applyPatch ⟨none, none, id⟩ plainHost {} input emptyDisk =
        .ok (result, emptyDisk.write "a.txt" (closedLines ["x", "", "+y"])) :=
  (create_writes_lines_iff ⟨none, none, id⟩ plainHost emptyDisk rfl (by decide) rfl (by decide)
    (forall_mem_of_all (by decide))).mpr ⟨by decide, .inr ⟨"x", by decide, by decide, by decide⟩⟩

theorem create_strips_marks :
    parseApplyPatch (createEnvelope "a.txt" ["+x"]) =
        .ok [{ path := "a.txt", op := .create, diff := some "+x\n" }] ∧
      (∃ result, applyPatch ⟨none, none, id⟩ plainHost {}
          { path := "a.txt", op := .create, diff := some "+x\n" } emptyDisk =
        .ok (result, emptyDisk.write "a.txt" "x\n")) ∧
      emptyDisk.write "a.txt" "x\n" "a.txt" ≠ some (closedLines ["+x"]) := by
  refine ⟨?_, ⟨_, rfl⟩, by decide⟩
  rw [createEnvelope, parseApplyPatch_envelope (forall_mem_of_all (by decide)),
    parseFileOps_addFile (by decide)]
  rfl

end JevCode.Edit
