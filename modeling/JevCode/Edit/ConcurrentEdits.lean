import JevCode.Edit.PathMutationLock

namespace JevCode.Edit

inductive EditMode
  | replace
  | patch
  | hashline
  deriving DecidableEq

/-- `compute` is `none` when the edit does not apply or changes nothing, so that nothing is written.
`late` is what is written once more, at any later time and without the lock: `runLspWritethrough`
stops waiting after five seconds and its formatter goes on, and the flush of a batch repeats its
earlier writes. -/
structure EditCall where
  mode : EditMode
  compute : String → Option String
  late : Option (String → String)

inductive Stage
  | ready
  | read (original : String)
  | checked (original : String)
  | failed
  | written (original : String)
  | unverified
  | succeeded
  deriving DecidableEq

structure EditState where
  lock : LockState String
  file : String
  stages : CallId → Stage
  preEdits : CallId → Option String
  late : CallId → Option String
  order : List CallId

inductive EditAction
  | preRead (call : CallId)
  | lockStart (call : CallId)
  | lockAdvance (call : CallId)
  | read (call : CallId)
  | recheck (call : CallId)
  | write (call : CallId)
  | finish (call : CallId)
  | report (call : CallId)
  | lateWrite (call : CallId)

namespace EditState

def init (file : String) : EditState :=
  ⟨.init, file, fun _ => .ready, fun _ => none, fun _ => none, []⟩

def setStage (s : EditState) (i : CallId) (stage : Stage) : EditState :=
  { s with stages := Function.update s.stages i stage }

def inBody (mode : EditMode) (phase : Phase String) : Bool :=
  match mode, phase with
  | .hashline, _ => true
  | _, .running _ => true
  | _, _ => false

def pending? (mode : EditMode) (stage : Stage) : Option String :=
  match mode, stage with
  | .patch, .checked original => some original
  | .replace, .read original | .hashline, .read original => some original
  | _, _ => none

def writeFile (s : EditState) (i : CallId) (e : EditCall) (original : String) : EditState :=
  match e.compute original with
  | none => s.setStage i .failed
  | some output =>
    { s.setStage i (.written original) with
      file := output
      late := Function.update s.late i (e.late.map (· output))
      order := s.order ++ [i] }

def verified (s : EditState) (i : CallId) (e : EditCall) (original : String) : Bool :=
  match e.mode, s.preEdits i with
  | .patch, some preEdit => e.compute original = some original || s.file ≠ preEdit
  | _, _ => true

def hasReturned (mode : EditMode) (phase : Phase String) : Bool :=
  match mode, phase with
  | .hashline, _ => true
  | _, .done _ => true
  | _, _ => false

def stepCall (path : String) (e : EditCall) (s : EditState) : EditAction → Option EditState
  | .preRead i =>
    if e.mode = .patch ∧ s.stages i = .ready ∧ s.preEdits i = none then
      some { s with preEdits := Function.update s.preEdits i (some s.file) }
    else none
  | .lockStart i =>
    if e.mode ≠ .hashline ∧ (e.mode = .patch → (s.preEdits i).isSome) then
      (s.lock.step (.start i [path])).map fun lock => { s with lock }
    else none
  | .lockAdvance i =>
    if e.mode ≠ .hashline then (s.lock.step (.advance i)).map fun lock => { s with lock } else none
  | .read i =>
    if s.stages i = .ready ∧
      inBody e.mode (s.lock.calls i) = true then some (s.setStage i (.read s.file)) else none
  | .recheck i =>
    match e.mode, s.stages i with
    | .patch, .read original =>
      if inBody e.mode (s.lock.calls i) then
        some (s.setStage i (if s.file = original then .checked original else .failed))
      else none
    | _, _ => none
  | .write i =>
    match pending? e.mode (s.stages i) with
    | some original =>
      if inBody e.mode (s.lock.calls i) then some (s.writeFile i e original) else none
    | none => none
  | .finish i =>
    match s.stages i with
    | .failed => (s.lock.step (.finish i true)).map fun lock => { s with lock }
    | .written _ => (s.lock.step (.finish i false)).map fun lock => { s with lock }
    | _ => none
  | .report i =>
    match s.stages i with
    | .written original =>
      if hasReturned e.mode (s.lock.calls i) then
        some (s.setStage i (if s.verified i e original then .succeeded else .unverified))
      else none
    | _ => none
  | .lateWrite i =>
    match s.late i with
    | some content => some { s with file := content, late := Function.update s.late i none }
    | none => none

end EditState

def EditAction.call : EditAction → CallId
  | .preRead i | .lockStart i | .lockAdvance i | .read i | .recheck i | .write i |
    .finish i | .report i
  | .lateWrite i => i

namespace EditState

def step (path : String) (edits : CallId → Option EditCall) (s : EditState) (a : EditAction) :
    Option EditState :=
  (edits a.call).bind fun e => stepCall path e s a

def run (path : String) (edits : CallId → Option EditCall) (s : EditState) :
    List EditAction → Option EditState
  | [] => some s
  | a :: as => (s.step path edits a).bind fun s' => s'.run path edits as

def pair (first second : EditCall) : CallId → Option EditCall
  | 0 => some first
  | 1 => some second
  | _ => none

def ReflectsBoth (first second : EditCall) (initial final : String) : Prop :=
  ∃ mid, (first.compute initial = some mid ∧ second.compute mid = some final) ∨
    (second.compute initial = some mid ∧ first.compute mid = some final)

/-- Whatever two calls of these modes compute, however they interleave and whatever those that write
late write, no update is lost. -/
def NoLostUpdate (firstMode secondMode : EditMode) (firstLate secondLate : Bool) : Prop :=
  ∀ path initial (first second : EditCall), first.mode = firstMode → second.mode = secondMode →
    first.late.isSome = firstLate → second.late.isSome = secondLate →
    ∀ actions s, (init initial).run path (pair first second) actions = some s →
      s.stages 0 = .succeeded → s.stages 1 = .succeeded → ReflectsBoth first second initial s.file

end EditState

def Phase.OnPath {π : Type} (p : π) : Phase π → Prop
  | .acquiring held rest => held.reverse ++ rest = [p]
  | .waiting held target rest | .granted held target rest => held.reverse ++ target :: rest = [p]
  | .running held => held = [p]
  | .idle | .settled _ _ | .done _ => True

def Stage.hasWritten : Stage → Bool
  | .written _ | .unverified | .succeeded => true
  | .ready | .read _ | .checked _ | .failed => false

namespace LockState

variable {π : Type} {s s' : LockState π} {i j : CallId} {p q : π}

theorem calls_wake (s : LockState π) (i j : CallId) :
    (s.wake j).calls i = s.calls i ∨ ∃ held target rest, s.calls i = .waiting held target rest ∧
      (s.wake j).calls i = .granted held target rest := by
  unfold wake
  split
  · rename_i held target rest hj
    rw [setCall_calls]
    split
    · rename_i hij
      exact .inr ⟨held, target, rest, hij ▸ hj, rfl⟩
    · exact .inl rfl
  · exact .inl rfl

theorem onPath_setCall {phase : Phase π} (h : ∀ i, (s.calls i).OnPath q) (hphase : phase.OnPath q) :
    ∀ j, ((s.setCall i phase).calls j).OnPath q := by
  intro j
  rw [setCall_calls]
  split
  · exact hphase
  · exact h j

variable [LinearOrder π]

theorem calls_release (s : LockState π) (i : CallId) (p : π) :
    (s.release p).calls i = s.calls i ∨ ∃ held target rest, s.calls i = .waiting held target rest ∧
      (s.release p).calls i = .granted held target rest := by
  unfold release
  split
  · exact calls_wake _ i _
  · exact .inl rfl

theorem onPath_of_release (h : (s.calls i).OnPath q) (p : π) : ((s.release p).calls i).OnPath q := by
  rcases calls_release s i p with hsame | ⟨held, target, rest, hi, hnew⟩
  · rwa [hsame]
  · rw [hi] at h
    rw [hnew]
    exact h

theorem onPath_advance (h : ∀ i, (s.calls i).OnPath q) (hstep : s.step (.advance i) = some s') :
    ∀ j, (s'.calls j).OnPath q := by
  have hi := h i
  simp only [step, advance] at hstep
  split at hstep
  · rename_i held hphase
    cases hstep
    rw [hphase] at hi
    refine onPath_setCall h ?_
    simpa [Phase.OnPath] using congrArg List.reverse hi
  · rename_i held p rest hphase
    cases hstep
    rw [hphase] at hi
    unfold acquire
    split
    · exact onPath_setCall h hi
    · exact onPath_setCall h hi
  · rename_i held p rest hphase
    cases hstep
    rw [hphase] at hi
    refine onPath_setCall h ?_
    simpa [Phase.OnPath] using hi
  · cases hstep
    exact onPath_setCall (fun j => onPath_of_release (h j) _) trivial
  · cases hstep
    exact onPath_setCall h trivial
  · cases hstep

theorem running_advance {held : List π} (hi : s.calls i = .running held)
    (hstep : s.step (.advance j) = some s') :
    s'.calls i = .running held := by
  have hother : ∀ {t : LockState π} {phase : Phase π}, i ≠ j → t.calls i = .running held →
      (t.setCall j phase).calls i = .running held := by
    intro t phase hne ht
    rw [setCall_calls, if_neg hne, ht]
  have hne : i ≠ j := by
    rintro rfl
    simp [step, advance, hi] at hstep
  simp only [step, advance] at hstep
  split at hstep
  · cases hstep
    exact hother hne hi
  · cases hstep
    unfold acquire
    split
    · exact hother hne hi
    · exact hother hne hi
  · cases hstep
    exact hother hne hi
  · cases hstep
    refine hother hne ?_
    rcases calls_release s i _ with hsame | ⟨_, _, _, hwait, -⟩
    · rw [hsame, hi]
    · rw [hi] at hwait
      cases hwait
  · cases hstep
    exact hother hne hi
  · cases hstep

end LockState

namespace EditState

variable {path initial : String} {edits : CallId → Option EditCall} {s s' : EditState} {i : CallId}
    {e : EditCall}

theorem setStage_stages (s : EditState) (i j : CallId) (stage : Stage) :
    (s.setStage i stage).stages j = if j = i then stage else s.stages j :=
  Function.update_apply _ _ _ _

def LockMove (path : String) (s : EditState) (a : LockAction String) : Prop :=
  ∃ i, a = .start i [path] ∨ a = .advance i ∨
    ∃ threw, a = .finish i threw ∧
    (s.stages i = .failed ∨ ∃ original, s.stages i = .written original)

inductive CallStep (path : String) (e : EditCall) (s : EditState) (i : CallId) : EditState → Prop
  | preEdits (preEdits : CallId → Option String) : CallStep path e s i { s with preEdits }
  | lock {move : LockAction String} {lock : LockState String} (hmove : LockMove path s move)
      (hlock : s.lock.step move = some lock) : CallStep path e s i { s with lock }
  | read {held : List String} (hrun : s.lock.calls i = .running held)
    (hready : s.stages i = .ready) :
      CallStep path e s i (s.setStage i (.read s.file))
  | recheck {held : List String} {original : String} {stage : Stage}
    (hrun : s.lock.calls i = .running held)
      (hread : s.stages i = .read original) (hstage : stage = .checked original ∨ stage = .failed) :
      CallStep path e s i (s.setStage i stage)
  | write {held : List String} {original : String} (hrun : s.lock.calls i = .running held)
      (hstage : s.stages i = .read original ∨ s.stages i = .checked original) :
      CallStep path e s i (s.writeFile i e original)
  | report {original : String} {stage : Stage} (hwritten : s.stages i = .written original)
      (hstage : stage = .succeeded ∨ stage = .unverified) : CallStep path e s i (s.setStage i stage)
  | late {content : String} (hlate : s.late i = some content) (s' : EditState) :
    CallStep path e s i s'

theorem running_of_inBody (hmode : e.mode ≠ .hashline)
    (hin : inBody e.mode (s.lock.calls i) = true) :
    ∃ held, s.lock.calls i = .running held := by
  unfold inBody at hin
  split at hin
  · rename_i hm
    exact absurd hm hmode
  · exact ⟨_, by assumption⟩
  · cases hin

theorem callStep_recheck (hmode : e.mode ≠ .hashline)
    (h : stepCall path e s (.recheck i) = some s') :
    CallStep path e s i s' := by
  simp only [stepCall] at h
  split at h
  · rename_i original _ hstage
    rw [Option.ite_none_right_eq_some] at h
    obtain ⟨held, hrun⟩ := running_of_inBody hmode h.1
    rw [← Option.some.inj h.2]
    split
    · exact .recheck hrun hstage (.inl rfl)
    · exact .recheck hrun hstage (.inr rfl)
  · cases h

theorem callStep_write (hmode : e.mode ≠ .hashline) (h : stepCall path e s (.write i) = some s') :
    CallStep path e s i s' := by
  simp only [stepCall] at h
  split at h
  · rename_i original hpending
    rw [Option.ite_none_right_eq_some] at h
    obtain ⟨held, hrun⟩ := running_of_inBody hmode h.1
    rw [← Option.some.inj h.2]
    refine .write hrun ?_
    unfold pending? at hpending
    split at hpending <;> simp_all
  · cases h

theorem callStep_finish (h : stepCall path e s (.finish i) = some s') : CallStep path e s i s' := by
  simp only [stepCall] at h
  split at h
  · rename_i hstage
    obtain ⟨lock, hlock, rfl⟩ := Option.map_eq_some_iff.mp h
    exact .lock ⟨i, .inr (.inr ⟨true, rfl, .inl hstage⟩)⟩ hlock
  · rename_i original hstage
    obtain ⟨lock, hlock, rfl⟩ := Option.map_eq_some_iff.mp h
    exact .lock ⟨i, .inr (.inr ⟨false, rfl, .inr ⟨original, hstage⟩⟩)⟩ hlock
  · cases h

theorem callStep_report (h : stepCall path e s (.report i) = some s') : CallStep path e s i s' := by
  simp only [stepCall] at h
  split at h
  · rename_i original hstage
    rw [Option.ite_none_right_eq_some] at h
    rw [← Option.some.inj h.2]
    split
    · exact .report hstage (.inl rfl)
    · exact .report hstage (.inr rfl)
  · cases h

theorem stepCall_cases {a : EditAction} (hmode : e.mode ≠ .hashline)
    (h : stepCall path e s a = some s') :
    CallStep path e s a.call s' := by
  cases a with
  | preRead i =>
    simp only [stepCall, Option.ite_none_right_eq_some] at h
    cases h.2
    exact .preEdits _
  | lockStart i =>
    simp only [stepCall, Option.ite_none_right_eq_some, Option.map_eq_some_iff] at h
    obtain ⟨-, lock, hlock, rfl⟩ := h
    exact .lock ⟨i, .inl rfl⟩ hlock
  | lockAdvance i =>
    simp only [stepCall, Option.ite_none_right_eq_some, Option.map_eq_some_iff] at h
    obtain ⟨-, lock, hlock, rfl⟩ := h
    exact .lock ⟨i, .inr (.inl rfl)⟩ hlock
  | read i =>
    simp only [stepCall, Option.ite_none_right_eq_some] at h
    obtain ⟨⟨hready, hin⟩, h⟩ := h
    obtain ⟨held, hrun⟩ := running_of_inBody hmode hin
    cases h
    exact .read hrun hready
  | recheck i => exact callStep_recheck hmode h
  | write i => exact callStep_write hmode h
  | finish i => exact callStep_finish h
  | report i => exact callStep_report h
  | lateWrite i =>
    simp only [stepCall] at h
    split at h
    next content hlate => exact .late hlate s'
    next => cases h

def Applied (edits : CallId → Option EditCall) : String → List CallId → String → Prop
  | initial, [], final => final = initial
  | initial, i :: is, final =>
    ∃ e mid, edits i = some e ∧ e.compute initial = some mid ∧ Applied edits mid is final

theorem Applied.append {order : List CallId} {mid final : String}
    (h : Applied edits initial order mid) (he : edits i = some e)
    (hcompute : e.compute mid = some final) : Applied edits initial (order ++ [i]) final := by
  induction order generalizing initial with
  | nil =>
    cases h
    exact ⟨e, final, he, hcompute, rfl⟩
  | cons j order ih =>
    obtain ⟨e', mid', he', hcompute', hrest⟩ := h
    exact ⟨e', mid', he', hcompute', ih hrest⟩

structure Inv (path initial : String) (edits : CallId → Option EditCall) (s : EditState) : Prop where
  lock : s.lock.Reachable
  onPath : ∀ i, (s.lock.calls i).OnPath path
  reading : ∀ i original, s.stages i = .read original ∨ s.stages i = .checked original →
    (∃ held, s.lock.calls i = .running held) ∧ s.file = original
  applied : Applied edits initial s.order s.file
  nodup : s.order.Nodup
  mem_order : ∀ i, i ∈ s.order ↔ (s.stages i).hasWritten = true
  noLate : ∀ i, s.late i = none

theorem Inv.init (path initial : String) (edits : CallId → Option EditCall) :
    Inv path initial edits (EditState.init initial) where
  lock := .init
  onPath _ := trivial
  reading i original h := by simp [EditState.init] at h
  applied := rfl
  nodup := List.nodup_nil
  mem_order i := by simp [EditState.init, Stage.hasWritten]
  noLate _ := rfl

theorem Inv.lockMove {move : LockAction String} {lock : LockState String}
    (h : Inv path initial edits s) (hmove : LockMove path s move)
    (hlock : s.lock.step move = some lock) :
    Inv path initial edits { s with lock } := by
  have hrunning : ∀ j held original, s.stages j = .read original ∨ s.stages j = .checked original →
      s.lock.calls j = .running held → lock.calls j = .running held := by
    intro j held original hstage hj
    obtain ⟨i, rfl | rfl | ⟨threw, rfl, hdone⟩⟩ := hmove
    · simp only [LockState.step] at hlock
      split at hlock
      · rename_i hidle
        cases hlock
        have hne : j ≠ i := by
          rintro rfl
          rw [hj] at hidle
          cases hidle
        rw [LockState.setCall_calls, if_neg hne, hj]
      · cases hlock
    · exact LockState.running_advance hj hlock
    · simp only [LockState.step] at hlock
      split at hlock
      · cases hlock
        have hne : j ≠ i := by
          rintro rfl
          rcases hdone with hdone | ⟨_, hdone⟩ <;> rw [hdone] at hstage <;> simp at hstage
        rw [LockState.setCall_calls, if_neg hne, hj]
      · cases hlock
  refine ⟨.step move h.lock hlock, ?_, fun j original hstage => ?_, h.applied, h.nodup,
    h.mem_order, h.noLate⟩
  · obtain ⟨i, rfl | rfl | ⟨threw, rfl, -⟩⟩ := hmove
    · simp only [LockState.step] at hlock
      split at hlock
      · cases hlock
        exact LockState.onPath_setCall h.onPath rfl
      · cases hlock
    · exact LockState.onPath_advance h.onPath hlock
    · simp only [LockState.step] at hlock
      split at hlock
      · cases hlock
        exact LockState.onPath_setCall h.onPath trivial
      · cases hlock
  · obtain ⟨⟨held, hj⟩, hfile⟩ := h.reading j original hstage
    exact ⟨⟨held, hrunning j held original hstage hj⟩, hfile⟩

theorem Inv.eq_of_running {j : CallId} {held held' : List String} (h : Inv path initial edits s)
    (hi : s.lock.calls i = .running held) (hj : s.lock.calls j = .running held') : i = j := by
  have hholds : ∀ {k held}, s.lock.calls k = .running held → path ∈ (s.lock.calls k).holds := by
    intro k held hk
    have hon := h.onPath k
    rw [hk] at hon ⊢
    simp [Phase.holds, show held = [path] from hon]
  exact h.lock.inv.exclusive i j path (hholds hi) (hholds hj)

theorem Inv.setStage {stage : Stage} (h : Inv path initial edits s)
    (hwritten : stage.hasWritten = (s.stages i).hasWritten)
    (hreading : ∀ original, stage = .read original ∨ stage = .checked original →
      (∃ held, s.lock.calls i = .running held) ∧ s.file = original) : Inv path initial edits
        (s.setStage i stage) := by
  refine ⟨h.lock, h.onPath, fun j original hj => ?_, h.applied, h.nodup, fun j => ?_, h.noLate⟩
  · rw [setStage_stages] at hj
    split at hj
    · rename_i hji
      subst hji
      exact hreading original hj
    · exact h.reading j original hj
  · rw [setStage_stages]
    split
    · rename_i hji
      rw [hwritten, ← hji]
      exact h.mem_order j
    · exact h.mem_order j

theorem Inv.writeFile {held : List String} {original : String} (h : Inv path initial edits s)
    (he : edits i = some e) (hlate : e.late = none) (hrun : s.lock.calls i = .running held)
    (hstage : s.stages i = .read original ∨ s.stages i = .checked original) :
    Inv path initial edits (s.writeFile i e original) := by
  obtain ⟨-, hfile⟩ := h.reading i original hstage
  have hnotWritten : (s.stages i).hasWritten = false := by
    rcases hstage with hs | hs <;> simp [hs, Stage.hasWritten]
  unfold EditState.writeFile
  cases hcompute : e.compute original with
  | none =>
    refine h.setStage (by rw [hnotWritten]; rfl) ?_
    rintro o (ho | ho) <;> cases ho
  | some output =>
    refine ⟨h.lock, h.onPath, fun j o hj => ?_, h.applied.append he (hfile ▸ hcompute), ?_,
      fun j => ?_, fun j => ?_⟩
    · dsimp only at hj
      rw [setStage_stages] at hj
      split at hj
      · rcases hj with hj | hj <;> cases hj
      · rename_i hne
        obtain ⟨⟨held', hj'⟩, -⟩ := h.reading j o hj
        exact absurd (h.eq_of_running hj' hrun) hne
    · refine List.nodup_append.mpr ⟨h.nodup, by simp, ?_⟩
      rintro a ha b hb rfl
      have := (h.mem_order a).mp ha
      rw [List.mem_singleton.mp hb, hnotWritten] at this
      cases this
    · dsimp only
      rw [setStage_stages, List.mem_append, List.mem_singleton, h.mem_order]
      split
      · simp [*, Stage.hasWritten]
      · simp [*]
    · dsimp only
      rw [hlate, Option.map_none, Function.update_apply]
      split
      · rfl
      · exact h.noLate j

theorem Inv.step {a : EditAction} (h : Inv path initial edits s)
    (hlocking : ∀ i e, edits i = some e → e.mode ≠ .hashline ∧ e.late = none)
    (hstep : s.step path edits a = some s') :
    Inv path initial edits s' := by
  obtain ⟨e, he, hcall⟩ := Option.bind_eq_some_iff.mp hstep
  cases stepCall_cases (hlocking _ e he).1 hcall with
  | preEdits => exact ⟨h.lock, h.onPath, h.reading, h.applied, h.nodup, h.mem_order, h.noLate⟩
  | lock hmove hlock => exact h.lockMove hmove hlock
  | read hrun hready =>
    refine h.setStage (by simp [hready, Stage.hasWritten]) ?_
    rintro original (ho | ho) <;> cases ho
    exact ⟨⟨_, hrun⟩, rfl⟩
  | recheck hrun hread hstage =>
    obtain ⟨-, hfile⟩ := h.reading _ _ (.inl hread)
    rcases hstage with rfl | rfl
    · refine h.setStage (by simp [hread, Stage.hasWritten]) ?_
      rintro o (ho | ho) <;> cases ho
      exact ⟨⟨_, hrun⟩, hfile⟩
    · refine h.setStage (by simp [hread, Stage.hasWritten]) ?_
      rintro o (ho | ho) <;> cases ho
  | write hrun hstage => exact h.writeFile he (hlocking _ e he).2 hrun hstage
  | report hwritten hstage =>
    rcases hstage with rfl | rfl
    · refine h.setStage (by simp [hwritten, Stage.hasWritten]) ?_
      rintro o (ho | ho) <;> cases ho
    · refine h.setStage (by simp [hwritten, Stage.hasWritten]) ?_
      rintro o (ho | ho) <;> cases ho
  | late hlate =>
    rw [h.noLate] at hlate
    cases hlate

theorem Inv.run {actions : List EditAction} (h : Inv path initial edits s)
    (hlocking : ∀ i e, edits i = some e → e.mode ≠ .hashline ∧ e.late = none)
    (hrun : s.run path edits actions = some s') :
    Inv path initial edits s' := by
  induction actions generalizing s with
  | nil =>
    cases hrun
    exact h
  | cons a actions ih =>
    obtain ⟨s₁, hstep, hrest⟩ := Option.bind_eq_some_iff.mp hrun
    exact ih (h.step hlocking hstep) hrest

theorem pair_locking {first second : EditCall} (h0 : first.mode ≠ .hashline ∧ first.late = none)
    (h1 : second.mode ≠ .hashline ∧ second.late = none) :
    ∀ i e, pair first second i = some e → e.mode ≠ .hashline ∧ e.late = none := by
  intro i e he
  match i with
  | 0 => exact Option.some.inj he ▸ h0
  | 1 => exact Option.some.inj he ▸ h1
  | _ + 2 => cases he

theorem lt_two_of_applied {first second : EditCall} {order : List CallId} {mid final : String}
    (h : Applied (pair first second) mid order final) : ∀ i ∈ order, i < 2 := by
  induction order generalizing mid with
  | nil => simp
  | cons j order ih =>
    obtain ⟨e, mid', he, -, hrest⟩ := h
    intro i hi
    rcases List.mem_cons.mp hi with rfl | hi
    · match i with
      | 0 => exact Nat.two_pos
      | 1 => exact Nat.one_lt_two
      | _ + 2 => cases he
    · exact ih hrest i hi

theorem order_eq {order : List Nat} (hnodup : order.Nodup) (hlt : ∀ i ∈ order, i < 2)
    (h0 : 0 ∈ order) (h1 : 1 ∈ order) : order = [0, 1] ∨ order = [1, 0] := by
  match order with
  | [] => cases h0
  | [a] =>
    rw [List.mem_singleton] at h0 h1
    omega
  | [a, b] =>
    simp only [List.mem_cons, List.not_mem_nil, or_false] at h0 h1
    simp only [List.cons.injEq, and_true]
    omega
  | a :: b :: c :: order =>
    have ha := hlt a (by simp)
    have hb := hlt b (by simp)
    have hc := hlt c (by simp)
    simp only [List.nodup_cons, List.mem_cons, not_or] at hnodup
    omega

theorem noLostUpdate_of_locking {firstMode secondMode : EditMode} (h0 : firstMode ≠ .hashline)
    (h1 : secondMode ≠ .hashline) : NoLostUpdate firstMode secondMode false false := by
  intro path initial first second hfirst hsecond hlate0 hlate1 actions s hrun hs0 hs1
  have hinv := (Inv.init path initial (pair first second)).run (pair_locking
    ⟨hfirst ▸ h0, Option.isSome_eq_false_iff.mp hlate0 |> Option.isNone_iff_eq_none.mp⟩
    ⟨hsecond ▸ h1, Option.isSome_eq_false_iff.mp hlate1 |> Option.isNone_iff_eq_none.mp⟩) hrun
  have happlied := hinv.applied
  have hmem0 := (hinv.mem_order 0).mpr (by simp [hs0, Stage.hasWritten])
  have hmem1 := (hinv.mem_order 1).mpr (by simp [hs1, Stage.hasWritten])
  rcases order_eq hinv.nodup (lt_two_of_applied happlied) hmem0 hmem1 with horder | horder
  · rw [horder] at happlied
    obtain ⟨e0, mid, he0, hc0, e1, final, he1, hc1, hfile⟩ := happlied
    cases he0
    cases he1
    exact ⟨mid, .inl ⟨hc0, hfile ▸ hc1⟩⟩
  · rw [horder] at happlied
    obtain ⟨e1, mid, he1, hc1, e0, final, he0, hc0, hfile⟩ := happlied
    cases he0
    cases he1
    exact ⟨mid, .inr ⟨hc1, hfile ▸ hc0⟩⟩

def appends (mode : EditMode) (text : String) (late : Option (String → String)) : EditCall :=
  ⟨mode, fun content => some (content ++ text), late⟩

def wholeCall (mode : EditMode) (i : CallId) : List EditAction :=
  match mode with
  | .replace =>
    [.lockStart i, .lockAdvance i, .lockAdvance i, .lockAdvance i, .read i, .write i, .finish i,
    .lockAdvance i, .lockAdvance i, .report i]
  | .patch =>
    [.preRead i, .lockStart i, .lockAdvance i, .lockAdvance i, .lockAdvance i, .read i,
      .recheck i, .write i, .finish i, .lockAdvance i, .lockAdvance i, .report i]
  | .hashline => [.read i, .write i, .report i]

def raceActions (mode : EditMode) (hashline other : CallId) : List EditAction :=
  .read hashline :: (wholeCall mode other ++ [.write hashline, .report hashline])

def lateActions (lateMode otherMode : EditMode) (late other : CallId) : List EditAction :=
  wholeCall lateMode late ++ wholeCall otherMode other ++ [.lateWrite late]

theorem not_reflectsBoth {firstMode secondMode : EditMode}
    {firstLate secondLate : Option (String → String)} {final : String}
    (h : final = "a" ∨ final = "b") :
    ¬ ReflectsBoth (appends firstMode "a" firstLate) (appends secondMode "b" secondLate)
      "" final := by
  rintro ⟨mid, ⟨h0, h1⟩ | ⟨h0, h1⟩⟩ <;> cases h0 <;> cases h1 <;> revert h <;> decide +kernel

def Loses (firstMode secondMode : EditMode) (firstLate secondLate : Option (String → String))
    (actions : List EditAction) : Prop :=
  ∃ s, (init "").run "f" (pair (appends firstMode "a" firstLate) (appends secondMode "b" secondLate))
    actions = some s ∧
    s.stages 0 = .succeeded ∧ s.stages 1 = .succeeded ∧ (s.file = "a" ∨ s.file = "b")

theorem Loses.not_noLostUpdate {firstMode secondMode : EditMode}
    {firstLate secondLate : Option (String → String)} {actions : List EditAction}
    (h : Loses firstMode secondMode firstLate secondLate actions) :
    ¬ NoLostUpdate firstMode secondMode firstLate.isSome secondLate.isSome := by
  intro hno
  obtain ⟨s, hrun, h0, h1, hfile⟩ := h
  exact not_reflectsBoth hfile (hno "f" "" _ _ rfl rfl rfl rfl _ s hrun h0 h1)

theorem loses_hashline_first (mode : EditMode) (firstLate secondLate : Option (String → String)) :
    Loses .hashline mode firstLate secondLate (raceActions mode 0 1) := by
  cases mode <;> exact ⟨_, rfl, rfl, rfl, .inl rfl⟩

theorem loses_hashline_second (mode : EditMode) (firstLate secondLate : Option (String → String)) :
    Loses mode .hashline firstLate secondLate (raceActions mode 1 0) := by
  cases mode <;> exact ⟨_, rfl, rfl, rfl, .inr rfl⟩

theorem loses_late_first (firstMode secondMode : EditMode) (secondLate : Option (String → String)) :
    Loses firstMode secondMode (some id) secondLate (lateActions firstMode secondMode 0 1) := by
  cases firstMode <;> cases secondMode <;> exact ⟨_, rfl, rfl, rfl, .inl rfl⟩

theorem loses_late_second (firstMode secondMode : EditMode) (firstLate : Option (String → String)) :
    Loses firstMode secondMode firstLate (some id) (lateActions secondMode firstMode 1 0) := by
  cases firstMode <;> cases secondMode <;> exact ⟨_, rfl, rfl, rfl, .inr rfl⟩

theorem exists_late (late : Bool) : ∃ f : Option (String → String), f.isSome = late := by
  cases late with
  | false => exact ⟨none, rfl⟩
  | true => exact ⟨some id, rfl⟩

/-- Two calls keep each other's updates exactly when both take the lock and neither writes again
after it has returned. -/
theorem noLostUpdate_iff (firstMode secondMode : EditMode) (firstLate secondLate : Bool) :
    NoLostUpdate firstMode secondMode firstLate secondLate ↔
      (firstMode ≠ .hashline ∧ secondMode ≠ .hashline) ∧ firstLate = false ∧ secondLate = false := by
  constructor
  · intro h
    obtain ⟨f, rfl⟩ := exists_late firstLate
    obtain ⟨g, rfl⟩ := exists_late secondLate
    refine ⟨⟨?_, ?_⟩, ?_, ?_⟩
    · rintro rfl
      exact (loses_hashline_first secondMode f g).not_noLostUpdate h
    · rintro rfl
      exact (loses_hashline_second firstMode f g).not_noLostUpdate h
    · rw [Bool.eq_false_iff]
      intro hf
      rw [hf] at h
      exact (loses_late_first firstMode secondMode g).not_noLostUpdate h
    · rw [Bool.eq_false_iff]
      intro hg
      rw [hg] at h
      exact (loses_late_second firstMode secondMode f).not_noLostUpdate h
  · rintro ⟨⟨h0, h1⟩, rfl, rfl⟩
    exact noLostUpdate_of_locking h0 h1

theorem hashline_loses_replace :
    ∃ s, (init "").run "f" (pair (appends .hashline "a" none) (appends .replace "b" none))
      (raceActions .replace 0 1) =
        some s ∧
      s.stages 0 = .succeeded ∧ s.stages 1 = .succeeded ∧
      ¬ ReflectsBoth (appends .hashline "a" none) (appends .replace "b" none) "" s.file :=
  ⟨_, rfl, by decide +kernel, by decide +kernel, not_reflectsBoth (.inl (by decide +kernel))⟩

end EditState

end JevCode.Edit
