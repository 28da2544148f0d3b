import JevCode.Edit.Normalize
import JevCode.Hashline.Parser
import JevCode.Hashline.Recovery

namespace JevCode.Hashline

open JevCode.Data JevCode.Edit JevCode.Text

structure HashlineInputSection where
  path : String
  diff : String
  deriving DecidableEq

/-- What a session provides: path resolution, the plan-mode guard, how a stored file is read and
written as text (a notebook is converted), the guard for generated files, the diff tools. -/
structure HashlineHost where
  resolvePlanPath : String → String
  enforcePlanModeWrite : String → Except String Unit
  readEditFileText : String → String → String → Except String String
  serializeEditFileText : String → Option String → String → Except String String
  assertEditableFileContent : String → String → Except String Unit
  tools : DiffTools
  applyOptions : ApplyOptions

inductive HashlineError
  | parse (error : ParseError)
  | planMode (message : String)
  | unreadable (message : String)
  | fileNotFound (path : String)
  | notEditable (message : String)
  | apply (error : ApplyError)
  | noChange (path : String)
  | serialize (message : String)

/-- The section's ops do not parse, or its anchors or edits do not apply to the file. -/
def HashlineError.isEditFailure : HashlineError → Bool
  | .parse _ | .fileNotFound _ | .apply _ | .noChange _ => true
  | .planMode _ | .unreadable _ | .notEditable _ | .serialize _ => false

structure ExecuteState where
  files : String → Option String
  cache : FileReadCache
  written : List String

def hasAnchorScopedEdit (edits : List Edit) : Bool := edits.any fun e => e.anchor?.isSome

def applyHashlineEditsWithRecovery (host : HashlineHost) (cache : FileReadCache)
    (absolutePath text : String) (edits : List Edit) :
    Except ApplyError ApplyResult × FileReadCache :=
  match applyHashlineEdits text edits host.applyOptions with
  | .ok result => (.ok result, cache)
  | .error (.mismatch mismatches fileLines) =>
    match tryRecoverHashlineWithCache host.tools cache absolutePath text edits host.applyOptions with
    | (.error err, cache) => (.error err, cache)
    | (.ok none, cache) => (.error (.mismatch mismatches fileLines), cache)
    | (.ok (some r), cache) => (.ok ⟨r.lines, r.firstChangedLine, r.warnings⟩, cache)
  | .error err => (.error err, cache)

structure LoadedSection where
  edits : List Edit
  warnings : List String
  bom : String
  ending : LineEnding
  text : String

def loadSection (host : HashlineHost) (stored : Option String) (s : HashlineInputSection) :
    Except HashlineError LoadedSection := do
  let (edits, warnings) ← (parseHashlineWithWarnings s.diff).mapError .parse
  (host.enforcePlanModeWrite s.path).mapError .planMode
  let rawContent ←
    match stored with
    | none => if hasAnchorScopedEdit edits then throw (.fileNotFound s.path) else pure ""
    | some bytes => do
      let rawContent ← (host.readEditFileText (host.resolvePlanPath s.path) s.path bytes).mapError
        HashlineError.unreadable
      (host.assertEditableFileContent rawContent s.path).mapError .notEditable
      pure rawContent
  let (bom, text) := stripBom rawContent
  return ⟨edits, warnings, bom, detectLineEnding text, normalizeToLF text⟩

structure ComputedSection extends LoadedSection where
  result : ApplyResult

def computeSection (host : HashlineHost) (state : ExecuteState) (s : HashlineInputSection) :
    Except HashlineError ComputedSection × FileReadCache :=
  let absolutePath := host.resolvePlanPath s.path
  match loadSection host (state.files absolutePath) s with
  | .error err => (.error err, state.cache)
  | .ok loaded =>
    match applyHashlineEditsWithRecovery host state.cache absolutePath loaded.text loaded.edits with
    | (.error err, cache) => (.error (.apply err), cache)
    | (.ok result, cache) => (.ok ⟨loaded, result⟩, cache)

def preflightHashlineSection (host : HashlineHost) (state : ExecuteState)
    (s : HashlineInputSection) :
    Except HashlineError Unit × ExecuteState :=
  match computeSection host state s with
  | (.error err, cache) => (.error err, { state with cache })
  | (.ok computed, cache) =>
    (if computed.text = computed.result.lines then .error (.noChange s.path) else .ok (),
      { state with cache })

inductive SectionOp
  | noChange
  | update
  | create
  deriving DecidableEq

structure SectionResult where
  op : SectionOp
  firstChangedLine : Option Nat
  warnings : List String
  deriving DecidableEq

def executeHashlineSection (host : HashlineHost) (state : ExecuteState) (s : HashlineInputSection) :
    Except HashlineError SectionResult × ExecuteState :=
  let absolutePath := host.resolvePlanPath s.path
  match computeSection host state s with
  | (.error err, cache) => (.error err, { state with cache })
  | (.ok computed, cache) =>
    if computed.text = computed.result.lines then (.ok ⟨.noChange, none, []⟩, { state with cache })
    else
      match host.serializeEditFileText absolutePath (state.files absolutePath)
          (computed.bom ++ restoreLineEndings computed.result.lines computed.ending) with
      | .error message => (.error (.serialize message), { state with cache })
      | .ok finalContent =>
        (.ok ⟨if (state.files absolutePath).isSome then .update else .create,
            computed.result.firstChangedLine.or
            (host.tools.firstChangedLine computed.text computed.result.lines), computed.warnings ++
              computed.result.warnings⟩,
          ⟨Function.update state.files absolutePath (some finalContent),
            cache.recordContiguous absolutePath 1 (splitLines computed.result.lines),
            state.written ++ [absolutePath]⟩)

/-- Diffs of one path text are joined; paths keep the order of their first section. -/
def mergeSamePathSections (sections : List HashlineInputSection) : List HashlineInputSection :=
  let byPath := sections.foldl (fun (byPath : InsertionMap String (List String)) s =>
    byPath.set s.path ((byPath.get? s.path).getD [] ++ [s.diff])) .empty
  byPath.entries.map fun e => ⟨e.1, joinLines e.2⟩

def preflightAll (host : HashlineHost) (state : ExecuteState) :
    List HashlineInputSection → Except HashlineError Unit × ExecuteState
  | [] => (.ok (), state)
  | s :: sections =>
    match preflightHashlineSection host state s with
    | (.error err, state) => (.error err, state)
    | (.ok (), state) => preflightAll host state sections

def executeAll (host : HashlineHost) (state : ExecuteState) :
    List HashlineInputSection → Except HashlineError (List SectionResult) × ExecuteState
  | [] => (.ok [], state)
  | s :: sections =>
    match executeHashlineSection host state s with
    | (.error err, state) => (.error err, state)
    | (.ok result, state) =>
      match executeAll host state sections with
      | (.error err, state) => (.error err, state)
      | (.ok results, state) => (.ok (result :: results), state)

/-- `executeHashlineSingle`, from the sections of its input on. -/
def executeHashlineSingle (host : HashlineHost) (state : ExecuteState)
    (sections : List HashlineInputSection) :
    Except HashlineError (List SectionResult) × ExecuteState :=
  match mergeSamePathSections sections with
  | [s] =>
    match executeHashlineSection host state s with
    | (.error err, state) => (.error err, state)
    | (.ok result, state) => (.ok [result], state)
  | merged =>
    match preflightAll host state merged with
    | (.error err, state) => (.error err, state)
    | (.ok (), state) => executeAll host state merged

variable {host : HashlineHost} {K : List String} {state state' : ExecuteState}
    {s t : HashlineInputSection}

def needsRecovery (host : HashlineHost) (stored : Option String) (s : HashlineInputSection) : Bool :=
  match loadSection host stored s with
  | .error _ => false
  | .ok loaded =>
    match applyHashlineEdits loaded.text loaded.edits host.applyOptions with
    | .error (.mismatch _ _) => true
    | _ => false

def recoverWith (host : HashlineHost) (snapshot : Option FileReadSnapshot) (text : String)
    (edits : List Edit) :
    Except ApplyError (Option HashlineRecoveryResult) :=
  match snapshot with
  | none => .ok none
  | some snapshot => recoverFromSnapshot host.tools snapshot.lines text edits host.applyOptions

def computeWith (host : HashlineHost) (snapshot : Option FileReadSnapshot) (stored : Option String)
    (s : HashlineInputSection) : Except HashlineError ComputedSection :=
  match loadSection host stored s with
  | .error err => .error err
  | .ok loaded =>
    match applyHashlineEdits loaded.text loaded.edits host.applyOptions with
    | .ok result => .ok ⟨loaded, result⟩
    | .error (.mismatch mismatches fileLines) =>
      match recoverWith host snapshot loaded.text loaded.edits with
      | .error err => .error (.apply err)
      | .ok none => .error (.apply (.mismatch mismatches fileLines))
      | .ok (some r) => .ok ⟨loaded, ⟨r.lines, r.firstChangedLine, r.warnings⟩⟩
    | .error err => .error (.apply err)

theorem tryRecover_eq (cache : FileReadCache) (absolutePath text : String) (edits : List Edit) :
    tryRecoverHashlineWithCache host.tools cache absolutePath text edits host.applyOptions =
      (recoverWith host (cache.snapshots.peek absolutePath) text edits,
        (cache.get absolutePath).2) := by
  have hfst := cache.get_fst absolutePath
  unfold tryRecoverHashlineWithCache recoverWith
  cases hget : cache.get absolutePath with
  | mk snapshot cache' =>
    rw [hget] at hfst
    rw [← hfst]
    cases snapshot <;> rfl

theorem computeSection_eq (host : HashlineHost) (state : ExecuteState) (s : HashlineInputSection) :
    computeSection host state s =
      (computeWith host (state.cache.snapshots.peek (host.resolvePlanPath s.path))
          (state.files (host.resolvePlanPath s.path)) s,
        if needsRecovery host (state.files (host.resolvePlanPath s.path)) s then
          (state.cache.get (host.resolvePlanPath s.path)).2
        else state.cache) := by
  cases hload : loadSection host (state.files (host.resolvePlanPath s.path)) s with
  | error err => simp [computeSection, computeWith, needsRecovery, hload]
  | ok loaded =>
    cases happly : applyHashlineEdits loaded.text loaded.edits host.applyOptions with
    | ok result =>
      simp [computeSection, computeWith, needsRecovery, hload,
        applyHashlineEditsWithRecovery, happly]
    | error err =>
      cases err with
      | lineDoesNotExist line fileLength =>
        simp [computeSection, computeWith, needsRecovery, hload,
          applyHashlineEditsWithRecovery, happly]
      | mismatch mismatches fileLines =>
        simp only [computeSection, computeWith, needsRecovery, hload,
          applyHashlineEditsWithRecovery, happly, tryRecover_eq, if_true]
        cases recoverWith host (state.cache.snapshots.peek (host.resolvePlanPath s.path)) loaded.text
          loaded.edits with
        | error err => rfl
        | ok recovered => cases recovered <;> rfl

theorem computeWith_of_not_needsRecovery {stored : Option String}
    (h : needsRecovery host stored s = false) (snapshot snapshot' : Option FileReadSnapshot) :
    computeWith host snapshot stored s = computeWith host snapshot' stored s := by
  cases hload : loadSection host stored s with
  | error err => simp [computeWith, hload]
  | ok loaded =>
    cases happly : applyHashlineEdits loaded.text loaded.edits host.applyOptions with
    | ok result => simp [computeWith, hload, happly]
    | error err =>
      cases err with
      | lineDoesNotExist line fileLength => simp [computeWith, hload, happly]
      | mismatch mismatches fileLines => simp [needsRecovery, hload, happly] at h

theorem isSome_snapshot_of_computeWith {snapshot : Option FileReadSnapshot} {stored : Option String}
    {computed : ComputedSection} (h : needsRecovery host stored s = true)
    (hok : computeWith host snapshot stored s = .ok computed) : ∃ v, snapshot = some v := by
  cases snapshot with
  | some v => exact ⟨v, rfl⟩
  | none =>
    unfold needsRecovery at h
    unfold computeWith at hok
    cases hload : loadSection host stored s with
    | error err => simp [hload] at h
    | ok loaded =>
      simp only [hload] at h hok
      cases happly : applyHashlineEdits loaded.text loaded.edits host.applyOptions with
      | ok result => simp [happly] at h
      | error err =>
        cases err with
        | lineDoesNotExist line fileLength => simp [happly] at h
        | mismatch mismatches fileLines => simp [happly, recoverWith] at hok

/-- The section applies and changes its file, and if it does so by recovery, the snapshot it needs is
younger than everything outside `K`. -/
structure Ready (host : HashlineHost) (K : List String) (state : ExecuteState)
    (s : HashlineInputSection) : Prop where
  applies : ∃ computed, computeWith host (state.cache.snapshots.peek (host.resolvePlanPath s.path))
    (state.files (host.resolvePlanPath s.path)) s = .ok computed ∧
    computed.text ≠ computed.result.lines
  recent : needsRecovery host (state.files (host.resolvePlanPath s.path)) s = true →
    ∃ v, Lru.RecentWithin K state.cache.snapshots (host.resolvePlanPath s.path) v

theorem Ready.of_untouched (h : Ready host K state s)
    (hfiles : state'.files (host.resolvePlanPath s.path) = state.files (host.resolvePlanPath s.path))
    (hrecent : needsRecovery host (state.files (host.resolvePlanPath s.path)) s = true →
      ∀ v, Lru.RecentWithin K state.cache.snapshots (host.resolvePlanPath s.path) v →
        Lru.RecentWithin K state'.cache.snapshots (host.resolvePlanPath s.path) v) : Ready host K
          state' s := by
  obtain ⟨⟨computed, hok, hne⟩, hv⟩ := h
  cases hneeds : needsRecovery host (state.files (host.resolvePlanPath s.path)) s with
  | false =>
    refine ⟨⟨computed, ?_, hne⟩, fun hneeds' => ?_⟩
    · rw [hfiles, computeWith_of_not_needsRecovery hneeds _
        (state.cache.snapshots.peek (host.resolvePlanPath s.path)), hok]
    · rw [hfiles, hneeds] at hneeds'
      cases hneeds'
  | true =>
    obtain ⟨v, hrecentv⟩ := hv hneeds
    have hrecentv' := hrecent hneeds v hrecentv
    refine ⟨⟨computed, ?_, hne⟩, fun _ => ⟨v, hrecentv'⟩⟩
    rw [hfiles, hrecentv'.peek, ← hrecentv.peek, hok]

def HasRoom (host : HashlineHost) (K : List String) (files : String → Option String)
    (s : HashlineInputSection) : Prop :=
  needsRecovery host (files (host.resolvePlanPath s.path)) s = true → K.length ≤ maxPathsPerSession

section

variable (hs : host.resolvePlanPath s.path ∈ K)
  (hne : host.resolvePlanPath t.path ≠ host.resolvePlanPath s.path)
  (hroom : HasRoom host K state.files s)

include hs hne hroom

theorem recentWithin_computeSection {v : FileReadSnapshot}
    (ht : needsRecovery host (state.files (host.resolvePlanPath t.path)) t = true →
      host.resolvePlanPath t.path ∈ K)
    (hneeds : needsRecovery host (state.files (host.resolvePlanPath s.path)) s = true)
    (h : Lru.RecentWithin K state.cache.snapshots (host.resolvePlanPath s.path) v) :
    Lru.RecentWithin K (computeSection host state t).2.snapshots
      (host.resolvePlanPath s.path) v := by
  rw [computeSection_eq]
  dsimp only
  split
  case isTrue hother => exact h.get hs (hroom hneeds) (ht hother) hne
  case isFalse => exact h

theorem Ready.preflight_other (h : Ready host K state s)
    (ht : needsRecovery host (state.files (host.resolvePlanPath t.path)) t = true →
      host.resolvePlanPath t.path ∈ K) :
    Ready host K (preflightHashlineSection host state t).2 s := by
  have hcache : (preflightHashlineSection host state t).2.cache = (computeSection host state t).2 ∧
      (preflightHashlineSection host state t).2.files = state.files := by
    unfold preflightHashlineSection
    split <;> simp [*]
  refine h.of_untouched (by rw [hcache.2]) fun hneeds v hv => ?_
  rw [hcache.1]
  exact recentWithin_computeSection hs hne hroom ht hneeds hv

theorem Ready.execute_other (h : Ready host K state s) (ht : host.resolvePlanPath t.path ∈ K) :
    Ready host K (executeHashlineSection host state t).2 s := by
  unfold executeHashlineSection
  have hcompute : ∀ v, needsRecovery host (state.files (host.resolvePlanPath s.path)) s = true →
      Lru.RecentWithin K state.cache.snapshots (host.resolvePlanPath s.path) v →
      Lru.RecentWithin K (computeSection host state t).2.snapshots (host.resolvePlanPath s.path) v :=
    fun v hneeds hv => recentWithin_computeSection hs hne hroom (fun _ => ht) hneeds hv
  cases hresult : computeSection host state t with
  | mk outcome cache =>
    rw [hresult] at hcompute
    cases outcome with
    | error err => exact h.of_untouched rfl fun hneeds v hv => hcompute v hneeds hv
    | ok computed =>
      dsimp only
      split
      · exact h.of_untouched rfl fun hneeds v hv => hcompute v hneeds hv
      · split
        · exact h.of_untouched rfl fun hneeds v hv => hcompute v hneeds hv
        · refine h.of_untouched ?_ fun hneeds v hv => ?_
          · exact Function.update_of_ne hne.symm _ _
          · have hv := (hcompute v hneeds hv).get hs (hroom hneeds) ht hne
            simp only [FileReadCache.recordContiguous, splitLines_ne_nil, if_false,
              FileReadCache.record_eq]
            exact hv.set hs (hroom hneeds) ht hne _

end

theorem ready_of_preflight (h : (preflightHashlineSection host state s).1 = .ok ()) :
    Ready host K (preflightHashlineSection host state s).2 s := by
  unfold preflightHashlineSection at h ⊢
  rw [computeSection_eq] at h ⊢
  cases hok : computeWith host (state.cache.snapshots.peek (host.resolvePlanPath s.path))
      (state.files (host.resolvePlanPath s.path)) s with
  | error err => simp [hok] at h
  | ok computed =>
    simp only [hok] at h
    have hchanged : computed.text ≠ computed.result.lines := by
      intro heq
      simp [heq] at h
    dsimp only
    cases hneeds : needsRecovery host (state.files (host.resolvePlanPath s.path)) s with
    | false =>
      refine ⟨⟨computed, ?_, hchanged⟩, fun hneeds' => by simp [hneeds] at hneeds'⟩
      simpa using hok
    | true =>
      obtain ⟨v, hv⟩ := isSome_snapshot_of_computeWith hneeds hok
      have hrecent : Lru.RecentWithin K (state.cache.get (host.resolvePlanPath s.path)).2.snapshots
          (host.resolvePlanPath s.path) v := Lru.recentWithin_get K hv
      refine ⟨⟨computed, ?_, hchanged⟩, fun _ => ⟨v, hrecent⟩⟩
      rw [← hok, hv]
      exact congrArg (fun snapshot => computeWith host snapshot _ s) hrecent.peek

theorem preflightHashlineSection_files (host : HashlineHost) (state : ExecuteState)
    (s : HashlineInputSection) :
    (preflightHashlineSection host state s).2.files = state.files ∧
      (preflightHashlineSection host state s).2.written = state.written := by
  unfold preflightHashlineSection
  split <;> exact ⟨rfl, rfl⟩

theorem preflightAll_files (host : HashlineHost) (state : ExecuteState)
    (sections : List HashlineInputSection) :
    (preflightAll host state sections).2.files = state.files ∧
      (preflightAll host state sections).2.written = state.written := by
  induction sections generalizing state with
  | nil => exact ⟨rfl, rfl⟩
  | cons s sections ih =>
    have hs := preflightHashlineSection_files host state s
    unfold preflightAll
    split
    · rename_i err state' heq
      rw [heq] at hs
      exact hs
    · rename_i state' heq
      rw [heq] at hs
      have hrest := ih state'
      exact ⟨hrest.1.trans hs.1, hrest.2.trans hs.2⟩

def absolutePaths (host : HashlineHost) (sections : List HashlineInputSection) : List String :=
  sections.map fun s => host.resolvePlanPath s.path

theorem resolve_ne {before after : List HashlineInputSection}
    (hnodup : (absolutePaths host (before ++ t :: after)).Nodup) (hs : s ∈ before ∨ s ∈ after) :
    host.resolvePlanPath t.path ≠ host.resolvePlanPath s.path := by
  simp only [absolutePaths, List.map_append, List.map_cons, List.nodup_append, List.nodup_cons,
    List.mem_cons, List.mem_map] at hnodup
  obtain ⟨-, ⟨hafter, -⟩, hcross⟩ := hnodup
  rcases hs with hs | hs
  · exact fun heq => hcross _ ⟨s, hs, rfl⟩ _ (.inl rfl) heq.symm
  · exact fun heq => hafter ⟨s, hs, heq.symm⟩

structure KeepsSnapshots (host : HashlineHost) (files : String → Option String)
    (K : HashlineInputSection → List String) (sections : List HashlineInputSection) : Prop where
  own : ∀ s ∈ sections, host.resolvePlanPath s.path ∈ K s
  others : sections.Pairwise fun s t => host.resolvePlanPath s.path ∈ K t ∧
    (needsRecovery host (files (host.resolvePlanPath t.path)) t = true →
    host.resolvePlanPath t.path ∈ K s)
  room : ∀ s ∈ sections, HasRoom host (K s) files s

theorem ready_of_preflightAll {K : HashlineInputSection → List String}
    {checked sections : List HashlineInputSection}
    (hkeeps : KeepsSnapshots host state.files K (checked ++ sections))
    (hnodup : (absolutePaths host (checked ++ sections)).Nodup)
    (hready : ∀ s ∈ checked, Ready host (K s) state s)
    (hok : (preflightAll host state sections).1 = .ok ()) :
    ∀ s ∈ checked ++ sections, Ready host (K s) (preflightAll host state sections).2 s := by
  induction sections generalizing state checked with
  | nil => simpa [preflightAll] using hready
  | cons t sections ih =>
    have hfiles := (preflightHashlineSection_files host state t).1
    have hself : (preflightHashlineSection host state t).1 = .ok () →
        Ready host (K t) (preflightHashlineSection host state t).2 t := ready_of_preflight
    have hother : ∀ s ∈ checked, Ready host (K s) (preflightHashlineSection host state t).2 s := by
      intro s hs
      have hlater := (List.pairwise_append.mp hkeeps.others).2.2 s hs t List.mem_cons_self
      exact (hready s hs).preflight_other (hkeeps.own s (by simp [hs])) (resolve_ne hnodup (.inl hs))
        (hkeeps.room s (by simp [hs])) hlater.2
    unfold preflightAll at hok ⊢
    cases hpre : preflightHashlineSection host state t with
    | mk outcome state' =>
      simp only [hpre] at hok hfiles hself hother ⊢
      cases outcome with
      | error err => cases hok
      | ok u =>
        have hassoc : checked ++ t :: sections = (checked ++ [t]) ++ sections := by simp
        rw [hassoc] at hkeeps hnodup ⊢
        rw [← hfiles] at hkeeps
        refine ih hkeeps hnodup ?_ hok
        intro s hs
        rcases List.mem_append.mp hs with hs | hs
        · exact hother s hs
        · rw [List.mem_singleton.mp hs]
          exact hself rfl

theorem KeepsSnapshots.tail {K : HashlineInputSection → List String}
    {files files' : String → Option String} {sections : List HashlineInputSection}
    (h : KeepsSnapshots host files K (t :: sections)) (hfiles : ∀ s ∈ sections,
    files' (host.resolvePlanPath s.path) = files (host.resolvePlanPath s.path)) :
    KeepsSnapshots host files' K sections where
  own s hs := h.own s (by simp [hs])
  others := by
    refine (List.pairwise_cons.mp h.others).2.imp_of_mem fun {s u} hs hu hpair => ?_
    rw [hfiles u hu]
    exact hpair
  room s hs := by
    rw [HasRoom, hfiles s hs]
    exact h.room s (by simp [hs])

theorem executeAll_of_ready {K : HashlineInputSection → List String}
    {sections : List HashlineInputSection} {err : HashlineError}
    (hkeeps : KeepsSnapshots host state.files K sections)
    (hnodup : (absolutePaths host sections).Nodup)
    (hready : ∀ s ∈ sections, Ready host (K s) state s)
    (herr : (executeAll host state sections).1 = .error err) : err.isEditFailure = false := by
  induction sections generalizing state with
  | nil => cases herr
  | cons t sections ih =>
    have hne : ∀ s ∈ sections, host.resolvePlanPath t.path ≠ host.resolvePlanPath s.path :=
      fun s hs =>
      resolve_ne (show (absolutePaths host ([] ++ t :: sections)).Nodup from hnodup) (.inr hs)
    have hother : ∀ s ∈ sections, Ready host (K s) (executeHashlineSection host state t).2 s := by
      intro s hs
      have hearlier := (List.pairwise_cons.mp hkeeps.others).1 s hs
      exact (hready s (by simp [hs])).execute_other (hkeeps.own s (by simp [hs])) (hne s hs)
        (hkeeps.room s (by simp [hs])) hearlier.1
    obtain ⟨computed, hcompute, hchanged⟩ := (hready t (by simp)).applies
    unfold executeAll at herr
    unfold executeHashlineSection at herr hother
    rw [computeSection_eq, hcompute] at herr hother
    simp only [hchanged, if_false] at herr hother
    split at herr
    · rename_i state' heq
      split at heq
      · cases heq
        cases herr
        rfl
      · cases heq
    · rename_i result state' heq
      split at heq
      · cases heq
      · rename_i finalContent hserialize
        simp only [hserialize] at hother
        cases heq
        split at herr
        · rename_i heq'
          cases herr
          refine ih (hkeeps.tail fun s hs => ?_) (List.nodup_cons.mp hnodup).2 hother (by rw [heq'])
          exact Function.update_of_ne (hne s hs).symm _ _
        · cases herr

theorem executeHashlineSection_error {err : HashlineError}
    (h : (executeHashlineSection host state s).1 = .error err) :
    (executeHashlineSection host state s).2.files = state.files ∧
      (executeHashlineSection host state s).2.written = state.written := by
  unfold executeHashlineSection at h ⊢
  split
  · exact ⟨rfl, rfl⟩
  · rename_i computed cache heq
    simp only [heq] at h ⊢
    split
    · exact ⟨rfl, rfl⟩
    · rename_i hne
      simp only [hne, if_false] at h
      split
      · exact ⟨rfl, rfl⟩
      · rename_i hok
        simp [hok] at h

/-- The paths that are touched between the preflight of the `k`-th section and its execution, and its
own. -/
def touchedPaths (host : HashlineHost) (files : String → Option String)
    (merged : List HashlineInputSection) (k : Nat) :
    List String :=
  absolutePaths host (merged.take (k + 1)) ++
    absolutePaths host ((merged.drop (k + 1)).filter fun t =>
    needsRecovery host (files (host.resolvePlanPath t.path)) t)

/-- If all sections pass preflight, they go to different files, and no snapshot that recovery needs
can be evicted before its section is executed. -/
structure SeparateFiles (host : HashlineHost) (state : ExecuteState)
    (merged : List HashlineInputSection) : Prop where
  distinct : (preflightAll host state merged).1 = .ok () → (absolutePaths host merged).Nodup
  room : (preflightAll host state merged).1 = .ok () → ∀ k s, merged[k]? = some s →
    needsRecovery host (state.files (host.resolvePlanPath s.path)) s = true →
    k + ((merged.drop (k + 1)).countP fun t =>
      needsRecovery host (state.files (host.resolvePlanPath t.path)) t) <
      maxPathsPerSession

theorem SeparateFiles.keepsSnapshots {merged : List HashlineInputSection}
    (h : SeparateFiles host state merged) (hok : (preflightAll host state merged).1 = .ok ()) :
    KeepsSnapshots host state.files
      (fun s => touchedPaths host state.files merged (merged.idxOf s)) merged := by
  have hnodup : merged.Nodup := (h.distinct hok).of_map _
  have hindex : ∀ k (hk : k < merged.length), merged.idxOf merged[k] = k := fun k hk =>
    hnodup.idxOf_getElem k hk
  have hown : ∀ i j, i ≤ j → ∀ hi : i < merged.length,
      host.resolvePlanPath merged[i].path ∈ touchedPaths host state.files merged j := by
    intro i j hle hi
    refine List.mem_append_left _ (List.mem_map.mpr ⟨merged[i], ?_, rfl⟩)
    exact List.mem_take_iff_getElem.mpr ⟨i, by omega, rfl⟩
  refine ⟨fun s hs => ?_, ?_, fun s hs hneeds => ?_⟩
  · obtain ⟨k, hk, rfl⟩ := List.mem_iff_getElem.mp hs
    rw [hindex k hk]
    exact hown k k (Nat.le_refl k) hk
  · rw [List.pairwise_iff_getElem]
    intro i j hi hj hlt
    rw [hindex i hi, hindex j hj]
    refine ⟨hown i j (Nat.le_of_lt hlt) hi, fun hneeds => ?_⟩
    refine List.mem_append_right _ (List.mem_map.mpr ⟨merged[j], ?_, rfl⟩)
    refine List.mem_filter.mpr ⟨List.mem_drop_iff_getElem.mpr ⟨j - (i + 1), by omega, ?_⟩, hneeds⟩
    congr 1
    omega
  · obtain ⟨k, hk, rfl⟩ := List.mem_iff_getElem.mp hs
    have hroom := h.room hok k merged[k] (List.getElem?_eq_getElem hk) hneeds
    rw [hindex k hk, touchedPaths, absolutePaths, absolutePaths, List.length_append, List.length_map,
      List.length_map, List.length_take, ← List.countP_eq_length_filter]
    omega

theorem SeparateFiles.of_few {merged : List HashlineInputSection}
    (hdistinct : (absolutePaths host merged).Nodup) (hfew : merged.length ≤ maxPathsPerSession) :
    SeparateFiles host state merged where
  distinct _ := hdistinct
  room _ k s hk _ := by
    have hlt := (List.getElem?_eq_some_iff.mp hk).1
    have hcount := List.countP_le_length (l := merged.drop (k + 1))
      (p := fun t => needsRecovery host (state.files (host.resolvePlanPath t.path)) t)
    rw [List.length_drop] at hcount
    omega

/-- A call whose sections go to different files writes nothing when an edit does not apply. -/
theorem executeHashlineSingle_all_or_nothing (host : HashlineHost) (state : ExecuteState)
    (sections : List HashlineInputSection)
    (hsep : SeparateFiles host state (mergeSamePathSections sections)) {err : HashlineError}
    (herr : (executeHashlineSingle host state sections).1 = .error err)
    (hedit : err.isEditFailure = true) :
    (executeHashlineSingle host state sections).2.files = state.files ∧
      (executeHashlineSingle host state sections).2.written = state.written := by
  unfold executeHashlineSingle at herr ⊢
  split
  · rename_i s hmerged
    simp only [hmerged] at herr
    have hfail : ∀ err', (executeHashlineSection host state s).1 = .error err' → _ :=
      fun _ h => executeHashlineSection_error h
    cases hexec : executeHashlineSection host state s with
    | mk outcome state' =>
      simp only [hexec] at herr hfail ⊢
      cases outcome with
      | error err' => exact hfail err' rfl
      | ok result => cases herr
  · rename_i hmany
    revert hsep herr hmany
    generalize mergeSamePathSections sections = merged
    intro hsep herr hmany
    have hfiles := preflightAll_files host state merged
    have hready : (preflightAll host state merged).1 = .ok () → ∀ s ∈ [] ++ merged,
        Ready host (touchedPaths host state.files merged (merged.idxOf s))
        (preflightAll host state merged).2 s :=
      fun hok => ready_of_preflightAll (hsep.keepsSnapshots hok) (hsep.distinct hok) (by simp) hok
    have hkeeps := hsep.keepsSnapshots
    have hdistinct := hsep.distinct
    rw [List.nil_append] at hready
    cases hpre : preflightAll host state merged with
    | mk outcome state' =>
      simp only [hpre] at herr hready hfiles hkeeps hdistinct ⊢
      cases outcome with
      | error err' => exact hfiles
      | ok u =>
        have hkept := hkeeps rfl
        rw [← hfiles.1] at hkept hready
        have hstorage := executeAll_of_ready hkept (hdistinct rfl) (hready rfl) herr
        rw [hstorage] at hedit
        cases hedit

def failedEdit {α : Type} : Except HashlineError α → Bool
  | .error err => err.isEditFailure
  | .ok _ => false

theorem exists_of_failedEdit {α : Type} {r : Except HashlineError α} (h : failedEdit r = true) :
    ∃ err, r = .error err ∧ err.isEditFailure = true := by
  cases r with
  | error err => exact ⟨err, rfl, h⟩
  | ok value => cases h

def plainHost : HashlineHost where
  resolvePlanPath path := if path = "./a.ts" then "/w/a.ts" else "/w/" ++ path
  enforcePlanModeWrite _ := .ok ()
  readEditFileText _ _ bytes := .ok bytes
  serializeEditFileText _ _ content := .ok content
  assertEditableFileContent _ _ := .ok ()
  tools := ⟨fun _ _ _ => none, fun _ _ => none⟩
  applyOptions := {}

def plainState : ExecuteState where
  files path := if path = "/w/a.ts" then some "a" else if path = "/w/b.ts" then some "b" else none
  cache := .empty
  written := []

theorem all_or_nothing_of_wrong_anchor :
    (executeHashlineSingle plainHost plainState [⟨"a.ts", "≔1hs\nx"⟩,
      ⟨"b.ts", "≔1hs\nx"⟩]).2.written = [] := by
  have hfail : failedEdit
      (executeHashlineSingle plainHost plainState [⟨"a.ts", "≔1hs\nx"⟩, ⟨"b.ts", "≔1hs\nx"⟩]).1 =
      true := by
    decide +kernel
  obtain ⟨err, herr, hedit⟩ := exists_of_failedEdit hfail
  exact (executeHashlineSingle_all_or_nothing plainHost plainState _
    (.of_few (by decide +kernel) (by decide +kernel))
    herr hedit).2

theorem two_spellings_write_before_failure :
    (∃ err, (executeHashlineSingle plainHost plainState [⟨"a.ts", "≔1hs\nx"⟩,
      ⟨"./a.ts", "≔1hs\ny"⟩]).1 = .error err ∧
        err.isEditFailure = true) ∧
      (executeHashlineSingle plainHost plainState [⟨"a.ts", "≔1hs\nx"⟩,
        ⟨"./a.ts", "≔1hs\ny"⟩]).2.written =
        ["/w/a.ts"] :=
  ⟨exists_of_failedEdit (by decide +kernel), by decide +kernel⟩

end JevCode.Hashline
