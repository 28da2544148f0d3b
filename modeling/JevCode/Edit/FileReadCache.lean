import JevCode.Data.Lru
import JevCode.Text.Lines

namespace JevCode.Edit

open JevCode.Data

structure FileReadSnapshot where
  lines : InsertionMap Nat String

def maxPathsPerSession : Nat := 30

structure FileReadCache where
  snapshots : Lru String FileReadSnapshot maxPathsPerSession

namespace FileReadCache

def empty : FileReadCache := ⟨Lru.empty⟩

def get (cache : FileReadCache) (absPath : String) : Option FileReadSnapshot × FileReadCache :=
  let (snapshot, snapshots) := cache.snapshots.get absPath
  (snapshot, ⟨snapshots⟩)

def hasConflict (existing : InsertionMap Nat String) (incoming : List (Nat × String)) : Bool :=
  incoming.any fun e =>
    match existing.get? e.1 with
    | none => false
    | some prior => prior != e.2

def record (cache : FileReadCache) (absPath : String) (entries : List (Nat × String)) :
    FileReadCache :=
  let (existing, snapshots) := cache.snapshots.get absPath
  match existing with
  | none => ⟨snapshots.set absPath ⟨.ofList entries⟩⟩
  | some snapshot =>
    if hasConflict snapshot.lines entries then ⟨snapshots.set absPath ⟨.ofList entries⟩⟩
    else ⟨snapshots.set absPath ⟨snapshot.lines.setAll entries⟩⟩

def contiguousEntries (startLine : Nat) (lines : List String) : List (Nat × String) :=
  lines.mapIdx fun idx line => (startLine + idx, line)

def recordContiguous (cache : FileReadCache) (absPath : String) (startLine : Nat)
    (lines : List String) :
    FileReadCache :=
  if lines = [] then cache else cache.record absPath (contiguousEntries startLine lines)

def recordSparse (cache : FileReadCache) (absPath : String) (entries : List (Nat × String)) :
    FileReadCache :=
  if entries = [] then cache else cache.record absPath entries

def invalidate (cache : FileReadCache) (absPath : String) : FileReadCache :=
  ⟨cache.snapshots.delete absPath⟩

def clear (_cache : FileReadCache) : FileReadCache := empty

end FileReadCache

open JevCode.Text

def versionLine (version : List String) (n : Nat) : Option String :=
  if n = 0 then none else version[n - 1]?

def FileReadSnapshot.RestrictionOf (snapshot : FileReadSnapshot) (version : List String) : Prop :=
  ∀ n line, snapshot.lines.get? n = some line → versionLine version n = some line

theorem FileReadSnapshot.restrictionOf_iff {snapshot : FileReadSnapshot} {version : List String} :
    snapshot.RestrictionOf version ↔
      ∀ e ∈ snapshot.lines.entries, versionLine version e.1 = some e.2 :=
  ⟨fun h e he => h e.1 e.2 (InsertionMap.mem_entries.mp he),
    fun h n line hget => h (n, line) (InsertionMap.mem_entries.mpr hget)⟩

instance (snapshot : FileReadSnapshot) (version : List String) :
    Decidable (snapshot.RestrictionOf version) :=
  decidable_of_iff' _ FileReadSnapshot.restrictionOf_iff

/-- What the tools of a session do with its cache.  An observation names the version of the file
it was taken from. -/
inductive CacheEvent
  | readLines (absPath : String) (version : List String) (offset count : Nat)
  | searchLines (absPath : String) (version : List String) (lineNums : List Nat)
  | get (absPath : String)
  | invalidate (absPath : String)
  | clear

namespace CacheEvent

def observation? : CacheEvent → Option (String × List String × List (Nat × String))
  | readLines absPath version offset count =>
    some (absPath, version,
      FileReadCache.contiguousEntries (offset + 1) ((version.drop offset).take count))
  | searchLines absPath version lineNums =>
    some (absPath, version,
      lineNums.filterMap fun n => (versionLine version n).map fun line => (n, line))
  | _ => none

def step (cache : FileReadCache) : CacheEvent → FileReadCache
  | readLines absPath version offset count =>
    cache.recordContiguous absPath (offset + 1) ((version.drop offset).take count)
  | searchLines absPath version lineNums =>
    cache.recordSparse absPath
      (lineNums.filterMap fun n => (versionLine version n).map fun line => (n, line))
  | get absPath => (cache.get absPath).2
  | invalidate absPath => cache.invalidate absPath
  | clear => cache.clear

def run (cache : FileReadCache) (events : List CacheEvent) : FileReadCache := events.foldl step cache

def versions (absPath : String) (events : List CacheEvent) : List (List String) :=
  events.filterMap fun e =>
    match e.observation? with
    | some (p, version, _) => if p = absPath then some version else none
    | none => none

end CacheEvent

def Consistent (cache : FileReadCache) (e : CacheEvent) : Prop :=
  ∀ o ∈ e.observation?, ∀ snapshot ∈ (cache.get o.1).1,
    FileReadCache.hasConflict snapshot.lines o.2.2 = true ∨ snapshot.RestrictionOf o.2.1

instance (cache : FileReadCache) (e : CacheEvent) : Decidable (Consistent cache e) :=
  inferInstanceAs (Decidable (∀ o ∈ e.observation?, ∀ snapshot ∈ (cache.get o.1).1, _))

/-- Every step of a run meets `Consistent` in the state before it. -/
def ConsistentRun (cache : FileReadCache) : List CacheEvent → Prop
  | [] => True
  | e :: es => Consistent cache e ∧ ConsistentRun (e.step cache) es

instance ConsistentRun.decidable : (cache : FileReadCache) → (events : List CacheEvent) →
    Decidable (ConsistentRun cache events)
  | _, [] => inferInstanceAs (Decidable True)
  | cache, e :: es =>
    have := ConsistentRun.decidable (e.step cache) es
    inferInstanceAs (Decidable (Consistent cache e ∧ ConsistentRun (e.step cache) es))

def TakenFrom (version : List String) (entries : List (Nat × String)) : Prop :=
  ∀ e ∈ entries, versionLine version e.1 = some e.2

theorem takenFrom_contiguousEntries (version : List String) (offset count : Nat) :
    TakenFrom version (FileReadCache.contiguousEntries (offset + 1)
      ((version.drop offset).take count)) := by
  intro e he
  obtain ⟨i, hi, rfl⟩ := List.mem_mapIdx.mp he
  have hidx : offset + 1 + i - 1 = offset + i := by omega
  simp only [List.length_take, List.length_drop] at hi
  simp [versionLine, hidx, show offset + i < version.length by omega]

theorem takenFrom_searchEntries (version : List String) (lineNums : List Nat) :
    TakenFrom version (lineNums.filterMap fun n => (versionLine version n).map fun line =>
      (n, line)) := by
  intro e he
  obtain ⟨n, -, hn⟩ := List.mem_filterMap.mp he
  obtain ⟨line, hline, rfl⟩ := Option.map_eq_some_iff.mp hn
  exact hline

theorem CacheEvent.takenFrom {e : CacheEvent} {absPath : String} {version : List String}
    {entries : List (Nat × String)} (h : e.observation? = some (absPath, version, entries)) :
    TakenFrom version entries := by
  cases e with
  | readLines p v offset count =>
    cases h
    exact takenFrom_contiguousEntries version offset count
  | searchLines p v lineNums =>
    cases h
    exact takenFrom_searchEntries version lineNums
  | _ => cases h

theorem restrictionOf_ofList {version : List String} {entries : List (Nat × String)}
    (h : TakenFrom version entries) :
    (⟨.ofList entries⟩ : FileReadSnapshot).RestrictionOf version := by
  intro n line hget
  rw [InsertionMap.ofList, InsertionMap.get?_setAll _ h] at hget
  split at hget
  · exact hget
  · cases hget

theorem restrictionOf_setAll {version : List String} {entries : List (Nat × String)}
    {snapshot : FileReadSnapshot} (h : TakenFrom version entries)
    (hold : snapshot.RestrictionOf version) :
    (⟨snapshot.lines.setAll entries⟩ : FileReadSnapshot).RestrictionOf version := by
  intro n line hget
  rw [InsertionMap.get?_setAll _ h] at hget
  split at hget
  · exact hget
  · exact hold n line hget

namespace FileReadCache

@[simp] theorem get_fst (cache : FileReadCache) (absPath : String) :
    (cache.get absPath).1 = cache.snapshots.peek absPath :=
  Lru.get_fst _ _

def recorded (cache : FileReadCache) (absPath : String) (entries : List (Nat × String)) :
    FileReadSnapshot :=
  match cache.snapshots.peek absPath with
  | none => ⟨.ofList entries⟩
  | some snapshot =>
    if hasConflict snapshot.lines entries then ⟨.ofList entries⟩ else ⟨snapshot.lines.setAll entries⟩

theorem record_eq (cache : FileReadCache) (absPath : String) (entries : List (Nat × String)) :
    cache.record absPath entries =
      ⟨(cache.snapshots.get absPath).2.set absPath (cache.recorded absPath entries)⟩ := by
  have hfst := Lru.get_fst cache.snapshots absPath
  simp only [record, recorded]
  cases hget : cache.snapshots.get absPath with
  | mk existing snapshots =>
    simp only [hget] at hfst
    rw [← hfst]
    cases existing with
    | none => rfl
    | some snapshot =>
      dsimp only
      split <;> rfl

theorem peek_record_self (cache : FileReadCache) (absPath : String) (entries : List (Nat × String)) :
    (cache.record absPath entries).snapshots.peek absPath = some
    (cache.recorded absPath entries) := by
  rw [record_eq]
  exact Lru.peek_set_self _ _ _

theorem peek_of_peek_record {cache : FileReadCache} {absPath path : String}
    {entries : List (Nat × String)} {snapshot : FileReadSnapshot}
    (h : (cache.record absPath entries).snapshots.peek path = some snapshot) :
    (path = absPath ∧ snapshot =
      cache.recorded absPath entries) ∨ cache.snapshots.peek path = some snapshot := by
  rw [record_eq] at h
  rcases Lru.peek_of_peek_set h with h | ⟨-, h⟩
  · exact .inl h
  · exact .inr (Lru.peek_of_peek_get h)

end FileReadCache

namespace CacheEvent

theorem step_of_observation {e : CacheEvent} {absPath : String} {version : List String}
    {entries : List (Nat × String)} (h : e.observation? = some (absPath, version, entries))
    (cache : FileReadCache) :
    e.step cache = if entries = [] then cache else cache.record absPath entries := by
  cases e with
  | readLines p v offset count =>
    cases h
    simp [step, FileReadCache.recordContiguous, FileReadCache.contiguousEntries]
  | searchLines p v lineNums =>
    cases h
    rfl
  | _ => cases h

theorem peek_of_peek_step {e : CacheEvent} (h : e.observation? = none) {cache : FileReadCache}
    {path : String} {snapshot : FileReadSnapshot}
    (hpeek : (e.step cache).snapshots.peek path = some snapshot) :
    cache.snapshots.peek path = some snapshot := by
  cases e with
  | get p => exact Lru.peek_of_peek_get hpeek
  | invalidate p => exact Lru.peek_of_peek_delete hpeek
  | clear => simp [step, FileReadCache.clear, FileReadCache.empty] at hpeek
  | _ => cases h

end CacheEvent

def SingleVersion (seen : String → List (List String)) (cache : FileReadCache) : Prop :=
  ∀ absPath snapshot, cache.snapshots.peek absPath = some snapshot →
    ∃ version ∈ seen absPath, snapshot.RestrictionOf version

theorem recorded_restrictionOf {cache : FileReadCache} {e : CacheEvent} {absPath : String}
    {version : List String} {entries : List (Nat × String)}
    (hobs : e.observation? = some (absPath, version, entries)) (h : Consistent cache e) :
    (cache.recorded absPath entries).RestrictionOf version := by
  have htaken := e.takenFrom hobs
  unfold FileReadCache.recorded
  split
  · exact restrictionOf_ofList htaken
  · rename_i snapshot hpeek
    split
    · exact restrictionOf_ofList htaken
    · rename_i hconflict
      have hold := h _ hobs snapshot (by simpa using hpeek)
      exact restrictionOf_setAll htaken (hold.resolve_left hconflict)

theorem SingleVersion.step {seen : String → List (List String)} {cache : FileReadCache}
    (hinv : SingleVersion seen cache) {e : CacheEvent} (h : Consistent cache e) :
    SingleVersion (fun p => seen p ++ CacheEvent.versions p [e]) (e.step cache) := by
  have hweaken : ∀ absPath snapshot, cache.snapshots.peek absPath = some snapshot →
      ∃ version ∈ seen absPath ++ CacheEvent.versions absPath [e],
      snapshot.RestrictionOf version := by
    intro absPath snapshot hpeek
    obtain ⟨version, hmem, hres⟩ := hinv absPath snapshot hpeek
    exact ⟨version, List.mem_append_left _ hmem, hres⟩
  intro path snapshot hpeek
  cases hobs : e.observation? with
  | none => exact hweaken path snapshot (e.peek_of_peek_step hobs hpeek)
  | some obs =>
    obtain ⟨absPath, version, entries⟩ := obs
    rw [CacheEvent.step_of_observation hobs] at hpeek
    split at hpeek
    · exact hweaken path snapshot hpeek
    · rcases FileReadCache.peek_of_peek_record hpeek with ⟨rfl, rfl⟩ | hpeek
      · exact ⟨version, by simp [CacheEvent.versions, hobs], recorded_restrictionOf hobs h⟩
      · exact hweaken path snapshot hpeek

theorem SingleVersion.run {seen : String → List (List String)} {cache : FileReadCache}
    {events : List CacheEvent} (hinv : SingleVersion seen cache) (h : ConsistentRun cache events) :
    SingleVersion (fun p => seen p ++ CacheEvent.versions p events)
      (CacheEvent.run cache events) := by
  induction events generalizing seen cache with
  | nil => simpa [CacheEvent.versions, CacheEvent.run] using hinv
  | cons e es ih =>
    have hrest := ih (hinv.step h.1) h.2
    have hseen : ∀ p, seen p ++ CacheEvent.versions p (e :: es) =
        seen p ++ CacheEvent.versions p [e] ++ CacheEvent.versions p es := by
      intro p
      rw [List.append_assoc]
      exact congrArg _ (List.filterMap_append (l := [e]))
    simpa only [hseen, CacheEvent.run, List.foldl_cons] using hrest

theorem mem_contiguousEntries_one {lines : List String} {n : Nat} :
    n ∈ (FileReadCache.contiguousEntries 1 lines).map Prod.fst ↔ 1 ≤ n ∧ n ≤ lines.length := by
  simp only [FileReadCache.contiguousEntries, List.mem_map, List.mem_mapIdx]
  constructor
  · rintro ⟨_, ⟨i, hi, rfl⟩, rfl⟩
    dsimp only
    omega
  · intro hn
    exact ⟨_, ⟨n - 1, by omega, rfl⟩, by dsimp only; omega⟩

theorem versionLine_isSome {version : List String} {n : Nat} :
    (versionLine version n).isSome ↔ 1 ≤ n ∧ n ≤ version.length := by
  unfold versionLine
  split
  · simp_all
  · simp only [isSome_getElem?]
    omega

theorem get?_setAll_contiguousEntries (m : InsertionMap Nat String) (lines : List String) (n : Nat) :
    (m.setAll (FileReadCache.contiguousEntries 1 lines)).get? n =
      if 1 ≤ n ∧ n ≤ lines.length then versionLine lines n else m.get? n := by
  have htaken := takenFrom_contiguousEntries lines 0 lines.length
  rw [List.drop_zero, List.take_length, Nat.zero_add] at htaken
  simp only [InsertionMap.get?_setAll m htaken, mem_contiguousEntries_one]

theorem versionLine_eq_none {version : List String} {n : Nat} (h : ¬ (1 ≤ n ∧ n ≤ version.length)) :
    versionLine version n = none := by
  rwa [← versionLine_isSome, Option.not_isSome_iff_eq_none] at h

theorem get?_recorded_iff (cache : FileReadCache) (absPath : String) (lines : List String) :
    (∀ n, (cache.recorded absPath (FileReadCache.contiguousEntries 1 lines)).lines.get? n =
      versionLine lines n) ↔
      ∀ snapshot, cache.snapshots.peek absPath = some snapshot →
        FileReadCache.hasConflict snapshot.lines (FileReadCache.contiguousEntries 1 lines) = true ∨
          ∀ n ∈ snapshot.lines.keys, 1 ≤ n ∧ n ≤ lines.length := by
  have hfresh : ∀ n, (InsertionMap.ofList (FileReadCache.contiguousEntries 1 lines)).get? n =
      versionLine lines n := by
    intro n
    rw [InsertionMap.ofList, get?_setAll_contiguousEntries]
    split
    · rfl
    · exact (versionLine_eq_none (by assumption)).symm
  unfold FileReadCache.recorded
  cases hpeek : cache.snapshots.peek absPath with
  | none => simp [hfresh]
  | some snapshot =>
    simp only [Option.some.injEq, forall_eq']
    split
    · rename_i hconflict
      simp [hfresh, hconflict]
    · rename_i hconflict
      rw [or_iff_right hconflict]
      simp only [get?_setAll_contiguousEntries]
      constructor
      · intro h n hn
        by_contra hout
        have hnone := h n
        rw [if_neg hout, versionLine_eq_none hout] at hnone
        simp [InsertionMap.mem_keys, hnone] at hn
      · intro h n
        split
        · rfl
        · rename_i hout
          rw [versionLine_eq_none hout, ← Option.not_isSome_iff_eq_none, ← InsertionMap.mem_keys]
          exact fun hn => hout (h n hn)

/-- Along a consistent run no snapshot mixes versions; and what an edit leaves behind when it
records its whole result is exactly that result as long as no cached line outlives it. -/
theorem snapshots_of_consistentRun (events : List CacheEvent) (h : ConsistentRun .empty events) :
    (∀ absPath snapshot, ((CacheEvent.run .empty events).get absPath).1 = some snapshot →
      ∃ version ∈ CacheEvent.versions absPath events, snapshot.RestrictionOf version) ∧
    ∀ absPath content,
      (∃ snapshot, (((CacheEvent.run .empty events).recordContiguous absPath 1
        (splitLines content)).get absPath).1 =
          some snapshot ∧ ∀ n, snapshot.lines.get? n = versionLine (splitLines content) n) ↔
        ∀ snapshot, ((CacheEvent.run .empty events).get absPath).1 = some snapshot →
          FileReadCache.hasConflict snapshot.lines
            (FileReadCache.contiguousEntries 1 (splitLines content)) = true ∨
            ∀ n ∈ snapshot.lines.keys, 1 ≤ n ∧ n ≤ (splitLines content).length := by
  constructor
  · have hinit : SingleVersion (fun _ => []) .empty := by
      intro absPath snapshot hpeek
      cases hpeek
    simpa only [FileReadCache.get_fst, List.nil_append, SingleVersion] using hinit.run h
  · intro absPath content
    simp only [FileReadCache.get_fst, FileReadCache.recordContiguous, splitLines_ne_nil, if_false,
      FileReadCache.peek_record_self, Option.some.injEq, exists_eq_left']
    exact get?_recorded_iff _ absPath (splitLines content)

theorem snapshots_after_changed_line :
    ∃ version ∈ [["a", "b"], ["a", "b"], ["x", "b"]],
      (⟨.ofList [(1, "x"), (2, "b")]⟩ : FileReadSnapshot).RestrictionOf version :=
  (snapshots_of_consistentRun
    [.readLines "f" ["a", "b"] 0 1, .searchLines "f" ["a", "b"] [2], .readLines "f" ["x", "b"] 0 2]
    (by decide +kernel)).1 "f" _ (by rfl)

theorem shortened_file_mixes_versions :
    ∃ snapshot, ((CacheEvent.run .empty [.readLines "f" ["a", "b", "c"] 2 1,
      .readLines "f" ["x", "b"] 0 2]).get "f").1 =
        some snapshot ∧
      (¬ ∃ version ∈ [["a", "b", "c"], ["x", "b"]], snapshot.RestrictionOf version) ∧
      snapshot.lines.get? 3 = some "c" ∧ versionLine ["x", "b"] 3 = none :=
  ⟨_, rfl, by decide +kernel, rfl, rfl⟩

end JevCode.Edit
