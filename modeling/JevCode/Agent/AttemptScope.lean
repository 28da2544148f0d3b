import JevCode.Data.InsertionMap
import JevCode.Data.Separated

namespace JevCode.Agent

open JevCode.Data

@[ext] structure Uuid where
  text : String
  noColon : text.toList.contains ':' = false
  deriving DecidableEq

inductive AttemptLineage
  | main
  | side (id : Uuid)
  deriving DecidableEq

def AttemptLineage.text : AttemptLineage → String
  | main => "main"
  | side id => "side:" ++ id.text

@[ext] structure AttemptScope where
  attemptId : Uuid
  generation : Nat
  lineage : AttemptLineage
  deriving DecidableEq

structure LineageCurrentness where
  lineage : AttemptLineage
  current : Nat
  currentAttemptId : Option Uuid

def createLineageCurrentness (lineage : AttemptLineage) : LineageCurrentness := ⟨lineage, 0, none⟩

namespace LineageCurrentness

def isCurrent (auth : LineageCurrentness) (scope : AttemptScope) : Bool :=
  scope.lineage = auth.lineage ∧ scope.generation = auth.current ∧
    some scope.attemptId = auth.currentAttemptId

def advance (auth : LineageCurrentness) (attemptId : Uuid) : LineageCurrentness :=
  { auth with currentAttemptId := some attemptId, current := auth.current + 1 }

end LineageCurrentness

def sideLruCap : Nat := 1024

/-- The authorities of the side lineages are objects: `created` of them have been made, and each has
its number. -/
structure AttemptScopeAuthority where
  mainAuth : LineageCurrentness
  sideAuths : InsertionMap AttemptLineage (Nat × LineageCurrentness)
  sideOrder : List AttemptLineage
  retiredSet : List AttemptLineage
  created : Nat

def createAttemptScopeAuthority : AttemptScopeAuthority :=
  ⟨createLineageCurrentness .main, .empty, [], [], 0⟩

def mintFor (lineage : AttemptLineage) (auth : LineageCurrentness) (attemptId : Uuid) :
    AttemptScope × LineageCurrentness :=
  let auth := auth.advance attemptId
  (⟨attemptId, auth.current, lineage⟩, auth)

namespace AttemptScopeAuthority

def evictRounds : Nat → AttemptScopeAuthority → AttemptScopeAuthority
  | 0, a => a
  | n + 1, a =>
    if sideLruCap < a.sideOrder.length then
      match a.sideOrder.find? (· ∈ a.retiredSet) with
      | none => a
      | some removed =>
        evictRounds n
          { a with
            sideOrder := a.sideOrder.erase removed
            sideAuths := a.sideAuths.erase removed
            retiredSet := a.retiredSet.filter (· ≠ removed) }
    else a

def evictRetiredIfNeeded (a : AttemptScopeAuthority) : AttemptScopeAuthority :=
  a.evictRounds a.sideOrder.length

def registerSide (a : AttemptScopeAuthority) (lineage : AttemptLineage)
    (auth : Nat × LineageCurrentness) :
    AttemptScopeAuthority :=
  let order := if (a.sideAuths.get? lineage).isSome then a.sideOrder.erase lineage else a.sideOrder
  evictRetiredIfNeeded { a with
    sideAuths := a.sideAuths.set lineage auth, sideOrder := order ++ [lineage] }

def unregister (a : AttemptScopeAuthority) (lineage : AttemptLineage) (number : Nat) :
    AttemptScopeAuthority :=
  if (a.sideAuths.get? lineage).map Prod.fst = some number then
    evictRetiredIfNeeded { a with retiredSet := a.retiredSet.insert lineage }
  else a

def isCurrent (a : AttemptScopeAuthority) (scope : AttemptScope) : Bool :=
  if scope.lineage = .main then a.mainAuth.isCurrent scope
  else if scope.lineage ∈ a.retiredSet then false
  else (a.sideAuths.get? scope.lineage).elim false fun auth => auth.2.isCurrent scope

def advanceMain (a : AttemptScopeAuthority) (attemptId : Uuid) : Nat × AttemptScopeAuthority :=
  let auth := a.mainAuth.advance attemptId
  (auth.current, { a with mainAuth := auth })

def mintMain (a : AttemptScopeAuthority) (attemptId : Uuid) : AttemptScope × AttemptScopeAuthority :=
  let (scope, auth) := mintFor .main a.mainAuth attemptId
  (scope, { a with mainAuth := auth })

/-- `mintFor` advances the authority that was registered just before. -/
def mintSide (a : AttemptScopeAuthority) (id attemptId : Uuid) :
    AttemptScope × AttemptScopeAuthority :=
  let auth := createLineageCurrentness (.side id)
  let registered := { a with created := a.created + 1 }.registerSide (.side id) (a.created, auth)
  let (scope, auth) := mintFor (.side id) auth attemptId
  (scope, { registered with
    sideAuths := registered.sideAuths.mapValues fun e =>
      if e.1 = a.created then (e.1, auth) else e })

end AttemptScopeAuthority

inductive AttemptExecutionState
  | unknown | clean | executed
  deriving DecidableEq

structure AttemptRecord where
  scope : AttemptScope
  state : AttemptExecutionState

def recordLruCap : Nat := 1024

def scopeKey (scope : AttemptScope) : String :=
  scope.lineage.text ++ ":" ++ scope.attemptId.text ++ ":" ++ toString scope.generation

structure AttemptRecordStore where
  authority : AttemptScopeAuthority
  records : InsertionMap String AttemptRecord

namespace AttemptRecordStore

def new : AttemptRecordStore := ⟨createAttemptScopeAuthority, .empty⟩

def touch (s : AttemptRecordStore) (key : String) (record : AttemptRecord) : AttemptRecordStore :=
  { s with records := (s.records.erase key).set key record }

def evictRecords (isCurrent : AttemptScope → Bool) :
    Nat → InsertionMap String AttemptRecord → InsertionMap String AttemptRecord
  | 0, records => records
  | n + 1, records =>
    if recordLruCap < records.entries.length then
      match records.entries.head? with
      | none => records
      | some (oldest, record) =>
        if isCurrent record.scope then records else evictRecords isCurrent n (records.erase oldest)
    else records

def evictIfNeeded (s : AttemptRecordStore) : AttemptRecordStore :=
  { s with records := evictRecords s.authority.isCurrent s.records.entries.length s.records }

def register (s : AttemptRecordStore) (scope : AttemptScope) : Bool × AttemptRecordStore :=
  if s.authority.isCurrent scope then
    match s.records.get? (scopeKey scope) with
    | some existing => (true, s.touch (scopeKey scope) existing)
    | none =>
      (true, evictIfNeeded { s with records := s.records.set (scopeKey scope) ⟨scope, .unknown⟩ })
  else (false, s)

def establishClean (s : AttemptRecordStore) (scope : AttemptScope) : Bool × AttemptRecordStore :=
  if s.authority.isCurrent scope then
    match s.records.get? (scopeKey scope) with
    | none => (false, s)
    | some record =>
      if record.state = .executed then (false, s)
      else (true, s.touch (scopeKey scope) { record with state := .clean })
  else (false, s)

def markExecuted (s : AttemptRecordStore) (scope : AttemptScope) : Bool × AttemptRecordStore :=
  if s.authority.isCurrent scope then
    match s.records.get? (scopeKey scope) with
    | none => (false, s)
    | some record =>
      if record.state = .unknown then (false, s)
      else (true, s.touch (scopeKey scope) { record with state := .executed })
  else (false, s)

def isClean (s : AttemptRecordStore) (scope : AttemptScope) : Bool :=
  s.authority.isCurrent scope && (s.records.get? (scopeKey scope)).any (·.state = .clean)

def retire (s : AttemptRecordStore) (scope : AttemptScope) : Bool × AttemptRecordStore :=
  ((s.records.get? (scopeKey scope)).isSome, { s with records := s.records.erase (scopeKey scope) })

end AttemptRecordStore

/-- The calls that change the authority or the store; `dispose` is the function that the `mintSide`
call with this number returned. -/
inductive AttemptCall
  | mintMain (attemptId : Uuid)
  | advanceMain (attemptId : Uuid)
  | mintSide (id attemptId : Uuid)
  | dispose (lineage : AttemptLineage) (number : Nat)
  | register (scope : AttemptScope)
  | establishClean (scope : AttemptScope)
  | markExecuted (scope : AttemptScope)
  | retire (scope : AttemptScope)
  deriving DecidableEq

namespace AttemptRecordStore

def step (s : AttemptRecordStore) : AttemptCall → AttemptRecordStore
  | .mintMain attemptId => { s with authority := (s.authority.mintMain attemptId).2 }
  | .advanceMain attemptId => { s with authority := (s.authority.advanceMain attemptId).2 }
  | .mintSide id attemptId => { s with authority := (s.authority.mintSide id attemptId).2 }
  | .dispose lineage number => { s with authority := s.authority.unregister lineage number }
  | .register scope => (s.register scope).2
  | .establishClean scope => (s.establishClean scope).2
  | .markExecuted scope => (s.markExecuted scope).2
  | .retire scope => (s.retire scope).2

def run (s : AttemptRecordStore) (calls : List AttemptCall) : AttemptRecordStore :=
  calls.foldl step s

end AttemptRecordStore

namespace AttemptScopeAuthority

variable {a a' : AttemptScopeAuthority} {used : List Uuid} {lineage : AttemptLineage}
    {id attemptId : Uuid}

def live (a : AttemptScopeAuthority) (lineage : AttemptLineage) :
    Option (Nat × LineageCurrentness) :=
  if lineage ∈ a.retiredSet then none else a.sideAuths.get? lineage

theorem isCurrent_eq (a : AttemptScopeAuthority) (scope : AttemptScope) :
    a.isCurrent scope = if scope.lineage = .main then a.mainAuth.isCurrent scope
      else (a.live scope.lineage).elim false fun auth => auth.2.isCurrent scope := by
  unfold isCurrent live
  split
  · rfl
  · split <;> rfl

structure Evicted (a a' : AttemptScopeAuthority) : Prop where
  mainAuth : a'.mainAuth = a.mainAuth
  created : a'.created = a.created
  live : a'.live = a.live
  retired : ∀ l ∈ a'.retiredSet, l ∈ a.retiredSet
  auths : ∀ l e, a'.sideAuths.get? l = some e → a.sideAuths.get? l = some e

theorem evicted_rounds (n : Nat) (a : AttemptScopeAuthority) : Evicted a (a.evictRounds n) := by
  induction n generalizing a with
  | zero => exact ⟨rfl, rfl, rfl, fun _ => id, fun _ _ => id⟩
  | succ n ih =>
    rw [evictRounds]
    split
    case isFalse => exact ⟨rfl, rfl, rfl, fun _ => id, fun _ _ => id⟩
    split
    case h_1 => exact ⟨rfl, rfl, rfl, fun _ => id, fun _ _ => id⟩
    case h_2 removed hfind =>
      have hretired : removed ∈ a.retiredSet := by simpa using List.find?_some hfind
      refine ⟨(ih _).mainAuth, (ih _).created, (ih _).live.trans ?_, fun l hl => ?_,
        fun l e he => ?_⟩
      · funext l
        by_cases hl : l = removed
        · simp [live, InsertionMap.get?_erase, hl, hretired]
        · simp [live, InsertionMap.get?_erase, hl]
      · exact List.mem_of_mem_filter ((ih _).retired l hl)
      · have hget := (ih _).auths l e he
        rw [InsertionMap.get?_erase] at hget
        split at hget
        · cases hget
        · exact hget

theorem evicted_ifNeeded (a : AttemptScopeAuthority) : Evicted a a.evictRetiredIfNeeded :=
  evicted_rounds _ a

theorem live_unregister (a : AttemptScopeAuthority) (lineage : AttemptLineage) (number : Nat)
    (l : AttemptLineage) :
    (a.unregister lineage number).live l =
      if l = lineage ∧ (a.sideAuths.get? lineage).map Prod.fst = some number then none
        else a.live l := by
  unfold unregister
  split
  case isTrue h =>
    rw [(evicted_ifNeeded _).live]
    by_cases hl : l = lineage <;> simp [live, hl, h]
  case isFalse h => simp [h]

structure Inv (a : AttemptScopeAuthority) (used : List Uuid) : Prop where
  main : a.mainAuth.lineage = .main
  retired : ∀ l ∈ a.retiredSet, ∃ id ∈ used, l = .side id
  auths : ∀ l e, a.sideAuths.get? l = some e → (∃ id ∈ used, l = .side id) ∧ e.1 < a.created

theorem Inv.evicted (h : a.Inv used) (he : Evicted a a') : a'.Inv used where
  main := he.mainAuth ▸ h.main
  retired l hl := h.retired l (he.retired l hl)
  auths l e hget := he.created ▸ h.auths l e (he.auths l e hget)

theorem Inv.evictRetiredIfNeeded (h : a.Inv used) : a.evictRetiredIfNeeded.Inv used :=
  h.evicted (evicted_ifNeeded a)

theorem Inv.unregister (h : a.Inv used) (lineage : AttemptLineage) (number : Nat) :
    (a.unregister lineage number).Inv used := by
  unfold AttemptScopeAuthority.unregister
  split
  case isTrue hnumber =>
    obtain ⟨e, he, -⟩ := Option.map_eq_some_iff.mp hnumber
    refine Inv.evictRetiredIfNeeded ⟨h.main, fun l hl => ?_, h.auths⟩
    obtain rfl | hl := List.mem_insert_iff.mp hl
    · exact (h.auths l e he).1
    · exact h.retired l hl
  case isFalse => exact h

theorem Inv.fresh (h : a.Inv used) (hid : id ∉ used) : .side id ∉ a.retiredSet := by
  intro hmem
  obtain ⟨id', hid', heq⟩ := h.retired _ hmem
  cases heq
  exact hid hid'

theorem Inv.mintSide (h : a.Inv used) : (a.mintSide id attemptId).2.Inv (used ++ [id]) := by
  have hset : Inv
      { a with
        created := a.created + 1
        sideAuths := a.sideAuths.set (.side id) (a.created, createLineageCurrentness (.side id)) }
          (used ++ [id]) := by
    refine ⟨h.main, fun l hl => ?_, fun l e hget => ?_⟩
    · obtain ⟨id', hid', rfl⟩ := h.retired l hl
      exact ⟨id', List.mem_append_left _ hid', rfl⟩
    · rw [InsertionMap.get?_set] at hget
      split at hget
      case isTrue hl =>
        cases hget
        exact ⟨⟨id, by simp, hl⟩, Nat.lt_succ_self _⟩
      case isFalse =>
        obtain ⟨⟨id', hid', rfl⟩, hlt⟩ := h.auths l e hget
        exact ⟨⟨id', List.mem_append_left _ hid', rfl⟩, Nat.lt_succ_of_lt hlt⟩
  have hinv : Inv ({ a with created := a.created + 1 }.registerSide (.side id)
      (a.created, createLineageCurrentness (.side id))) (used ++ [id]) :=
    Inv.evictRetiredIfNeeded ⟨hset.main, hset.retired, hset.auths⟩
  refine ⟨hinv.main, hinv.retired, fun l e hget => ?_⟩
  simp only [AttemptScopeAuthority.mintSide, mintFor, InsertionMap.get?_mapValues] at hget
  obtain ⟨e', hget', rfl⟩ := Option.map_eq_some_iff.mp hget
  obtain ⟨hl, hlt⟩ := hinv.auths l e' hget'
  refine ⟨hl, ?_⟩
  split <;> exact hlt

theorem live_mintSide (h : a.Inv used) (hid : id ∉ used) (attemptId : Uuid) (l : AttemptLineage) :
    (a.mintSide id attemptId).2.live l =
      if l = .side id then some (a.created, (createLineageCurrentness (.side id)).advance attemptId)
        else a.live l := by
  have hmap : ∀ (b : AttemptScopeAuthority) f,
      live { b with sideAuths := b.sideAuths.mapValues f } l = (b.live l).map f := by
    intro b f
    simp only [live, InsertionMap.get?_mapValues]
    split <;> rfl
  simp only [mintSide, mintFor, registerSide, hmap, (evicted_ifNeeded _).live]
  by_cases hl : l = .side id
  · simp [live, hl, h.fresh hid]
  · cases hlive : a.live l with
    | none => simpa [live, hl] using hlive
    | some e =>
      have hlt : e.1 < a.created := by
        unfold live at hlive
        split at hlive
        · cases hlive
        · exact (h.auths l e hlive).2
      have hsame : (if l ∈ a.retiredSet then none else a.sideAuths.get? l) = some e := hlive
      simp [live, hl, hsame, Nat.ne_of_lt hlt]

end AttemptScopeAuthority

namespace AttemptCall

def sideIds : AttemptCall → List Uuid
  | mintSide id _ => [id]
  | _ => []

def advancesMain : AttemptCall → Bool
  | mintMain _ | advanceMain _ => true
  | _ => false

end AttemptCall

open AttemptCall

theorem fresh_of_nodup {used ids : List Uuid} (h : (used ++ ids).Nodup) : ∀ id ∈ ids, id ∉ used :=
  fun id hid hused => (List.nodup_append.mp h).2.2 id hused id hid rfl

namespace AttemptScopeAuthority

variable {a : AttemptScopeAuthority} {used : List Uuid} {id : Uuid} {scope : AttemptScope}
    {c : AttemptCall}
  {calls : List AttemptCall}

def step (a : AttemptScopeAuthority) : AttemptCall → AttemptScopeAuthority
  | .mintMain attemptId => (a.mintMain attemptId).2
  | .advanceMain attemptId => (a.advanceMain attemptId).2
  | .mintSide id attemptId => (a.mintSide id attemptId).2
  | .dispose lineage number => a.unregister lineage number
  | _ => a

theorem Inv.step (h : a.Inv used) (c : AttemptCall) : (a.step c).Inv (used ++ c.sideIds) := by
  cases c
  case mintSide => exact h.mintSide
  case dispose lineage number => exact (List.append_nil used).symm ▸ h.unregister lineage number
  all_goals exact (List.append_nil used).symm ▸ Inv.mk h.main h.retired h.auths

theorem live_step (h : a.Inv used) (hfresh : ∀ i ∈ c.sideIds, i ∉ used) (hid : id ∈ used) :
    (a.step c).live (.side id) = (a.live (.side id)).filter fun e => c ≠ .dispose
    (.side id) e.1 := by
  cases c
  case mintSide new attemptId =>
    have hne : id ≠ new := fun heq => hfresh new (by simp [sideIds]) (heq ▸ hid)
    rw [step, live_mintSide h (hfresh new (by simp [sideIds]))]
    cases a.live (.side id) <;> simp [hne, Option.filter]
  case dispose lineage number =>
    rw [step, live_unregister]
    by_cases hl : lineage = .side id
    · subst hl
      by_cases hretired : .side id ∈ a.retiredSet
      · simp [live, hretired]
      · cases hget : a.sideAuths.get? (.side id) with
        | none => simp [live, hget]
        | some e =>
          by_cases hn : number = e.1 <;> simp [live, hretired, hget, Option.filter, hn, Ne.symm]
    · cases a.live (.side id) <;> simp [Ne.symm hl, hl, Option.filter]
  all_goals
    show a.live (.side id) = _
    cases a.live (.side id) <;> simp [Option.filter]

theorem live_run (h : a.Inv used) (hnodup : (used ++ calls.flatMap sideIds).Nodup)
    (hid : id ∈ used) :
    (calls.foldl step a).live (.side id) =
      (a.live (.side id)).filter fun e => .dispose (.side id) e.1 ∉ calls := by
  induction calls generalizing a used with
  | nil =>
    show a.live (.side id) = _
    cases a.live (.side id) <;> simp [Option.filter]
  | cons c calls ih =>
    rw [List.flatMap_cons, ← List.append_assoc] at hnodup
    have hfresh := fresh_of_nodup (List.nodup_append.mp hnodup).1
    rw [List.foldl_cons, ih (h.step c) hnodup (List.mem_append_left _ hid), live_step h hfresh hid,
      Option.filter_filter]
    congr 1
    funext e
    simp [eq_comm]

theorem mainAuth_step (a : AttemptScopeAuthority) (c : AttemptCall) :
    (a.step c).mainAuth = a.mainAuth ∧ c.advancesMain = false ∨
      (∃ i, (a.step c).mainAuth = a.mainAuth.advance i) ∧ c.advancesMain = true := by
  cases c
  case mintMain attemptId => exact .inr ⟨⟨attemptId, rfl⟩, rfl⟩
  case advanceMain attemptId => exact .inr ⟨⟨attemptId, rfl⟩, rfl⟩
  case mintSide =>
    exact .inl ⟨by simp only [step, mintSide, registerSide, (evicted_ifNeeded _).mainAuth], rfl⟩
  case dispose =>
    refine .inl ⟨?_, rfl⟩
    rw [step, unregister]
    split
    · rw [(evicted_ifNeeded _).mainAuth]
    · rfl
  all_goals exact .inl ⟨rfl, rfl⟩

theorem current_le_step (a : AttemptScopeAuthority) (c : AttemptCall) :
    a.mainAuth.current ≤ (a.step c).mainAuth.current := by
  obtain ⟨h, -⟩ | ⟨⟨i, h⟩, -⟩ := mainAuth_step a c <;> simp [h, LineageCurrentness.advance]

theorem main_step (hle : scope.generation ≤ a.mainAuth.current) (c : AttemptCall) :
    (a.step c).mainAuth.isCurrent scope = (a.mainAuth.isCurrent scope && !c.advancesMain) := by
  obtain ⟨h, hc⟩ | ⟨⟨i, h⟩, hc⟩ := mainAuth_step a c
  · simp [h, hc]
  · have hne : scope.generation ≠ a.mainAuth.current + 1 := by omega
    simp [h, hc, LineageCurrentness.isCurrent, LineageCurrentness.advance, hne]

theorem main_run (hle : scope.generation ≤ a.mainAuth.current) (calls : List AttemptCall) :
    (calls.foldl step a).mainAuth.isCurrent scope =
    (a.mainAuth.isCurrent scope && !calls.any advancesMain) := by
  induction calls generalizing a with
  | nil => simp
  | cons c calls ih =>
    rw [List.foldl_cons, ih (hle.trans (current_le_step a c)), main_step hle]
    simp [Bool.and_assoc]

def Known (used : List Uuid) (a : AttemptScopeAuthority) (scope : AttemptScope) : Prop :=
  match scope.lineage with
  | .main => scope.generation ≤ a.mainAuth.current
  | .side id => id ∈ used

theorem Known.step (h : Known used a scope) (c : AttemptCall) :
    Known (used ++ c.sideIds) (a.step c) scope := by
  unfold Known at *
  split at h
  · exact h.trans (current_le_step a c)
  · exact List.mem_append_left _ h

theorem known_of_isCurrent (h : a.Inv used) (hcur : a.isCurrent scope = true) :
    Known used a scope := by
  rw [isCurrent_eq] at hcur
  unfold Known
  split
  case h_1 hmain =>
    rw [if_pos hmain] at hcur
    simp only [LineageCurrentness.isCurrent, decide_eq_true_eq] at hcur
    exact hcur.2.1.le
  case h_2 id hside =>
    rw [if_neg (by simp [hside])] at hcur
    cases hlive : a.live scope.lineage with
    | none => simp [hlive] at hcur
    | some e =>
      unfold live at hlive
      split at hlive
      · cases hlive
      · obtain ⟨⟨id', hid', heq⟩, -⟩ := h.auths _ _ hlive
        rw [hside] at heq
        cases heq
        exact hid'

theorem isCurrent_of_step (h : a.Inv used) (hfresh : ∀ i ∈ c.sideIds, i ∉ used)
    (hknown : Known used a scope) (hcur : (a.step c).isCurrent scope = true) :
    a.isCurrent scope = true := by
  rw [isCurrent_eq] at hcur ⊢
  unfold Known at hknown
  split at hknown
  case h_1 hmain =>
    rw [if_pos hmain, main_step hknown, Bool.and_eq_true] at hcur
    rw [if_pos hmain]
    exact hcur.1
  case h_2 id hside =>
    rw [if_neg (by simp [hside]), hside, live_step h hfresh hknown] at hcur
    rw [if_neg (by simp [hside]), hside]
    cases hlive : a.live (.side id) with
    | none => simp [hlive] at hcur
    | some e =>
      rw [hlive, Option.filter_some] at hcur
      split at hcur
      · exact hcur
      · cases hcur

end AttemptScopeAuthority

theorem AttemptLineage.text_injective : Function.Injective AttemptLineage.text := by
  intro l l' h
  have hlist := congrArg String.toList h
  cases l <;> cases l' <;> simp [AttemptLineage.text] at hlist ⊢
  exact Uuid.ext (String.toList_inj.mp hlist)

theorem Uuid.colon_notMem (id : Uuid) : ':' ∉ id.text.toList := by
  simpa using id.noColon

theorem scopeKey_injective : Function.Injective scopeKey := by
  intro x y h
  have hlist := congrArg String.toList h
  simp only [scopeKey, String.toList_append, List.append_assoc] at hlist
  have hdigits : ∀ n : Nat, ':' ∉ (toString n).toList := fun n hn => by
    rw [Nat.toString_eq_repr, Nat.toList_repr] at hn
    exact absurd (Nat.isDigit_of_mem_toDigits (by decide) (by decide) hn) (by decide)
  have hkey : ∀ z : AttemptScope, z.lineage.text.toList ++ (":".toList ++ (z.attemptId.text.toList ++
      (":".toList ++ (toString z.generation).toList))) =
        (z.lineage.text.toList ++ ':' :: z.attemptId.text.toList) ++ ':' ::
        (toString z.generation).toList := by simp
  rw [hkey, hkey] at hlist
  obtain ⟨hleft, hgen⟩ := append_cons_inj (hdigits _) (hdigits _) hlist
  obtain ⟨htext, hid⟩ := append_cons_inj x.attemptId.colon_notMem y.attemptId.colon_notMem hleft
  refine AttemptScope.ext ?_ ?_ ?_
  · exact Uuid.ext (String.toList_inj.mp hid)
  · rw [Nat.toString_eq_repr, Nat.toList_repr, Nat.toString_eq_repr, Nat.toList_repr] at hgen
    rw [← Nat.ofDigitChars_ten_toDigits (n := x.generation), hgen, Nat.ofDigitChars_ten_toDigits]
  · exact AttemptLineage.text_injective (String.toList_inj.mp htext)

def AttemptExecutionState.rank : AttemptExecutionState → Nat
  | unknown => 0
  | clean => 1
  | executed => 2

namespace AttemptRecordStore

variable {s : AttemptRecordStore} {used : List Uuid} {scope : AttemptScope} {c : AttemptCall}
  {calls : List AttemptCall} {m : InsertionMap String AttemptRecord} {r : AttemptRecord} {n : Nat}

theorem get?_evictRecords (isCurrent : AttemptScope → Bool) (n : Nat)
    (m : InsertionMap String AttemptRecord) (key : String) :
    (evictRecords isCurrent n m).get? key = m.get? key ∨
      (evictRecords isCurrent n
        m).get? key = none ∧ ∃ r, m.get? key = some r ∧ ¬isCurrent r.scope := by
  induction n generalizing m with
  | zero => exact .inl rfl
  | succ n ih =>
    rw [evictRecords]
    split
    case isFalse => exact .inl rfl
    split
    case h_1 => exact .inl rfl
    case h_2 oldest record hhead =>
      split
      case isTrue => exact .inl rfl
      case isFalse hnot =>
        have hrest := ih (m.erase oldest)
        rw [InsertionMap.get?_erase] at hrest
        split at hrest
        case isTrue heq =>
          have hmem := InsertionMap.mem_entries.mp (List.mem_of_mem_head? hhead)
          exact .inr ⟨hrest.elim id And.left, record, heq ▸ hmem, hnot⟩
        case isFalse => exact hrest

theorem get?_touch (s : AttemptRecordStore) (key key' : String) (r : AttemptRecord) :
    (s.touch key r).records.get? key' = if key' = key then some r else s.records.get? key' := by
  by_cases h : key' = key <;> simp [touch, InsertionMap.get?_erase, h]

def Keyed (m : InsertionMap String AttemptRecord) : Prop :=
  ∀ key r, m.get? key = some r → scopeKey r.scope = key

theorem Keyed.scope_eq (h : Keyed m) (hget : m.get? (scopeKey scope) = some r) : r.scope = scope :=
  scopeKey_injective (h _ _ hget)

theorem step_cases (s : AttemptRecordStore) (c : AttemptCall) :
    (s.step c).authority = s.authority.step c ∧
    ((s.step c).records = s.records ∨
      (∃ scope n, s.records.get? (scopeKey scope) = none ∧
        (s.step c).records = evictRecords s.authority.isCurrent n
        (s.records.set (scopeKey scope) ⟨scope, .unknown⟩)) ∨
      (∃ scope r state, s.records.get? (scopeKey scope) = some r ∧ r.state.rank ≤ state.rank ∧
        (s.step c).records = (s.touch (scopeKey scope) { r with state }).records) ∨
      ∃ scope, c = .retire scope ∧ (s.step c).records = s.records.erase (scopeKey scope)) := by
  cases c
  case register scope =>
    simp only [step, register, AttemptScopeAuthority.step]
    split
    · split
      case h_1 r hget => exact ⟨rfl, .inr (.inr (.inl ⟨scope, r, r.state, hget, le_rfl, rfl⟩))⟩
      case h_2 hget =>
        exact ⟨rfl, .inr (.inl ⟨scope, _, hget, rfl⟩)⟩
    · exact ⟨rfl, .inl rfl⟩
  case establishClean scope =>
    simp only [step, establishClean, AttemptScopeAuthority.step]
    split
    · split
      case h_1 => exact ⟨rfl, .inl rfl⟩
      case h_2 r hget =>
        split
        case isTrue => exact ⟨rfl, .inl rfl⟩
        case isFalse hstate =>
          refine ⟨rfl, .inr (.inr (.inl ⟨scope, r, .clean, hget, ?_, rfl⟩))⟩
          cases h : r.state <;> simp_all [AttemptExecutionState.rank]
    · exact ⟨rfl, .inl rfl⟩
  case markExecuted scope =>
    simp only [step, markExecuted, AttemptScopeAuthority.step]
    split
    · split
      case h_1 => exact ⟨rfl, .inl rfl⟩
      case h_2 r hget =>
        split
        case isTrue => exact ⟨rfl, .inl rfl⟩
        case isFalse =>
          refine ⟨rfl, .inr (.inr (.inl ⟨scope, r, .executed, hget, ?_, rfl⟩))⟩
          cases r.state <;> decide
    · exact ⟨rfl, .inl rfl⟩
  case retire scope => exact ⟨rfl, .inr (.inr (.inr ⟨scope, rfl, rfl⟩))⟩
  all_goals exact ⟨rfl, .inl rfl⟩

theorem Keyed.step (h : Keyed s.records) (c : AttemptCall) : Keyed (s.step c).records := by
  intro key r hget
  obtain ⟨-, heq | ⟨scope, n, -, heq⟩ | ⟨scope, r', state, hold, -, heq⟩ | ⟨scope, -, heq⟩⟩ :=
    step_cases s c <;>
    rw [heq] at hget
  · exact h key r hget
  · obtain heq | ⟨hnone, -⟩ := get?_evictRecords s.authority.isCurrent n
      (s.records.set (scopeKey scope) ⟨scope, .unknown⟩) key
    · rw [heq, InsertionMap.get?_set] at hget
      split at hget
      case isTrue hkey =>
        cases hget
        exact hkey.symm
      case isFalse => exact h key r hget
    · rw [hnone] at hget
      cases hget
  · rw [get?_touch] at hget
    split at hget
    case isTrue hkey =>
      cases hget
      exact hkey ▸ h _ r' hold
    case isFalse => exact h key r hget
  · rw [InsertionMap.get?_erase] at hget
    split at hget
    · cases hget
    · exact h key r hget

theorem record_step (h : Keyed s.records) (hc : c ≠ .retire scope)
    (hcur : s.authority.isCurrent scope = true) (hget : s.records.get? (scopeKey scope) = some r) :
    ∃ r', (s.step c).records.get? (scopeKey scope) = some r' ∧ r.state.rank ≤ r'.state.rank := by
  obtain ⟨-, heq | ⟨scope', n, hnone, heq⟩ | ⟨scope', r', state, hold, hrank, heq⟩ |
      ⟨scope', rfl, heq⟩⟩ :=
    step_cases s c <;> rw [heq]
  · exact ⟨r, hget, le_rfl⟩
  · have hne : scopeKey scope ≠ scopeKey scope' := fun hkey => by simp [← hkey, hget] at hnone
    have hset : (s.records.set (scopeKey scope') ⟨scope', .unknown⟩).get?
        (scopeKey scope) = some r := by
      rw [InsertionMap.get?_set, if_neg hne, hget]
    obtain hkept | ⟨-, r', hr', hover⟩ := get?_evictRecords s.authority.isCurrent n
      (s.records.set (scopeKey scope') ⟨scope', .unknown⟩) (scopeKey scope)
    · exact ⟨r, hkept.trans hset, le_rfl⟩
    · cases hset.symm.trans hr'
      exact absurd (h.scope_eq hget ▸ hcur) hover
  · rw [get?_touch]
    split
    case isTrue hkey =>
      rw [← hkey, hget] at hold
      cases hold
      exact ⟨_, rfl, hrank⟩
    case isFalse => exact ⟨r, hget, le_rfl⟩
  · have hne : scopeKey scope ≠ scopeKey scope' := fun hkey => hc (by rw [scopeKey_injective hkey])
    exact ⟨r, by rw [InsertionMap.get?_erase, if_neg hne, hget], le_rfl⟩

structure Inv (s : AttemptRecordStore) (used : List Uuid) : Prop where
  authority : s.authority.Inv used
  keyed : Keyed s.records

theorem inv_new : new.Inv [] :=
  ⟨⟨rfl, fun _ h => absurd h List.not_mem_nil, fun _ _ h => nomatch h⟩, fun _ _ h => nomatch h⟩

theorem Inv.step (h : s.Inv used) (c : AttemptCall) : (s.step c).Inv (used ++ c.sideIds) :=
  ⟨(step_cases s c).1 ▸ h.authority.step c, h.keyed.step c⟩

theorem run_cons (s : AttemptRecordStore) (c : AttemptCall) (calls : List AttemptCall) :
    s.run (c :: calls) = (s.step c).run calls := rfl

theorem run_append (s : AttemptRecordStore) (before after : List AttemptCall) :
    s.run (before ++ after) = (s.run before).run after := List.foldl_append

theorem Inv.run (h : s.Inv used) (calls : List AttemptCall) :
    (s.run calls).Inv (used ++ calls.flatMap sideIds) := by
  induction calls generalizing s used with
  | nil => exact (List.append_nil used).symm ▸ h
  | cons c calls ih =>
    rw [List.flatMap_cons, ← List.append_assoc]
    exact ih (h.step c)

theorem authority_run (s : AttemptRecordStore) (calls : List AttemptCall) :
    (s.run calls).authority = calls.foldl AttemptScopeAuthority.step s.authority := by
  induction calls generalizing s with
  | nil => rfl
  | cons c calls ih => exact (ih (s.step c)).trans (by rw [(step_cases s c).1, List.foldl_cons])

/-- While the scope is current, its record is there and has come this far. -/
def Holds (s : AttemptRecordStore) (scope : AttemptScope) (rank : Nat) : Prop :=
  s.authority.isCurrent scope = true → ∃ r, s.records.get? (scopeKey scope) = some r ∧
    rank ≤ r.state.rank

theorem Holds.step (h : s.Inv used) (hfresh : ∀ i ∈ c.sideIds, i ∉ used)
    (hknown : s.authority.Known used scope) (hc : c ≠ .retire scope) (hold : s.Holds scope n) :
    (s.step c).Holds scope n := by
  intro hcur
  rw [(step_cases s c).1] at hcur
  have hcur := AttemptScopeAuthority.isCurrent_of_step h.authority hfresh hknown hcur
  obtain ⟨r, hget, hrank⟩ := hold hcur
  obtain ⟨r', hget', hle⟩ := record_step h.keyed hc hcur hget
  exact ⟨r', hget', hrank.trans hle⟩

theorem Holds.run (h : s.Inv used) (hnodup : (used ++ calls.flatMap sideIds).Nodup)
    (hknown : s.authority.Known used scope) (hc : .retire scope ∉ calls) (hold : s.Holds scope n) :
    (s.run calls).Holds scope n := by
  induction calls generalizing s used with
  | nil => exact hold
  | cons c calls ih =>
    rw [List.mem_cons, not_or] at hc
    rw [List.flatMap_cons, ← List.append_assoc] at hnodup
    have hfresh := fresh_of_nodup (List.nodup_append.mp hnodup).1
    refine ih (h.step c) hnodup ?_ hc.2 (hold.step h hfresh hknown (Ne.symm hc.1))
    exact (step_cases s c).1 ▸ hknown.step c

theorem markExecuted_executed (h : (s.markExecuted scope).1 = true) :
    s.authority.isCurrent scope = true ∧
    ∃ r, (s.step (.markExecuted scope)).records.get? (scopeKey scope) = some r ∧
      r.state = .executed := by
  simp only [step, markExecuted] at h ⊢
  split at h
  case isFalse => cases h
  case isTrue hcur =>
    cases hget : s.records.get? (scopeKey scope) with
    | none => simp [hget] at h
    | some r =>
      by_cases hstate : r.state = .unknown
      · simp [hget, hstate] at h
      · refine ⟨hcur, { r with state := .executed }, ?_, rfl⟩
        simp only [if_pos hcur, if_neg hstate, get?_touch, if_true]

open AttemptScopeAuthority

section

variable (before after : List AttemptCall) (id attemptId : Uuid) (scope : AttemptScope)

/-- A minted attempt is current until the main lineage advances or its own dispose function is
called, whatever else is minted, disposed of or evicted in between. -/
theorem attempt_current_iff
    (hnodup : ((before ++ .mintSide id attemptId :: after).flatMap sideIds).Nodup) :
    let s := new.run before
    ((s.run (.mintMain attemptId :: after)).authority.isCurrent (s.authority.mintMain attemptId).1 =
      true ↔
      ∀ c ∈ after, c.advancesMain = false) ∧
    ((s.run (.mintSide id attemptId :: after)).authority.isCurrent
      (s.authority.mintSide id attemptId).1 = true ↔
      .dispose (.side id) s.authority.created ∉ after) := by
  intro s
  have hinv : s.authority.Inv (before.flatMap sideIds) := (inv_new.run before).authority
  constructor
  · have hle : (s.authority.mintMain attemptId).1.generation ≤
        (s.authority.step (.mintMain attemptId)).mainAuth.current := le_rfl
    rw [authority_run, List.foldl_cons, isCurrent_eq, if_pos (by rfl), main_run hle]
    simp [AttemptScopeAuthority.step, AttemptScopeAuthority.mintMain, mintFor,
      LineageCurrentness.isCurrent, LineageCurrentness.advance, hinv.main]
  · rw [List.flatMap_append, List.flatMap_cons, ← List.append_assoc] at hnodup
    have hid := fresh_of_nodup (List.nodup_append.mp hnodup).1 id (by simp [sideIds])
    have hmem : id ∈ before.flatMap sideIds ++ sideIds (.mintSide id attemptId) := by simp [sideIds]
    have hrun := live_run (hinv.step (.mintSide id attemptId)) hnodup hmem
    have hlive := live_mintSide hinv hid attemptId (.side id)
    rw [if_pos rfl] at hlive
    rw [AttemptScopeAuthority.step, hlive] at hrun
    rw [authority_run, List.foldl_cons, isCurrent_eq, if_neg nofun]
    show (Option.elim (live _ (.side id)) _ _) = _ ↔ _
    rw [AttemptScopeAuthority.step, hrun]
    by_cases hdispose : .dispose (.side id) s.authority.created ∈ after <;>
      simp [Option.filter, hdispose, AttemptScopeAuthority.mintSide, mintFor,
      LineageCurrentness.isCurrent, LineageCurrentness.advance, createLineageCurrentness]

theorem attempt_current_iff_other :
    let s := new.run [.mintSide ⟨"a", rfl⟩ ⟨"b", rfl⟩]
    (s.run [.mintSide ⟨"c", rfl⟩ ⟨"d", rfl⟩, .dispose (.side ⟨"a", rfl⟩) 0]).authority.isCurrent
      (s.authority.mintSide ⟨"c", rfl⟩ ⟨"d", rfl⟩).1 = true :=
  (attempt_current_iff [.mintSide ⟨"a", rfl⟩ ⟨"b", rfl⟩] [.dispose (.side ⟨"a", rfl⟩) 0] ⟨"c",
    rfl⟩ ⟨"d", rfl⟩
    (by decide)).2.mpr (by decide)

/-- The record of an attempt outlives every other one: as long as the attempt is current and not
retired, it is neither evicted nor set back. -/
theorem record_outlives (r : AttemptRecord) (hnodup : ((before ++ after).flatMap sideIds).Nodup)
    (hcur : (new.run before).authority.isCurrent scope = true)
    (hget : (new.run before).records.get? (scopeKey scope) = some r)
    (hretire : .retire scope ∉ after)
    (hlater : (new.run (before ++ after)).authority.isCurrent scope = true) :
    ∃ r', (new.run (before ++ after)).records.get? (scopeKey scope) = some r' ∧ r'.scope = scope ∧
      r.state.rank ≤ r'.state.rank := by
  have hinv : (new.run before).Inv (before.flatMap sideIds) := inv_new.run before
  rw [List.flatMap_append] at hnodup
  have hold := Holds.run hinv hnodup (known_of_isCurrent hinv.authority hcur) hretire fun _ =>
    ⟨r, hget, le_rfl⟩
  rw [run_append] at hlater ⊢
  obtain ⟨r', hget', hle⟩ := hold hlater
  exact ⟨r', hget', ((hinv.run after).keyed.scope_eq hget'), hle⟩

theorem record_outlives_mint :
    let scope : AttemptScope := ⟨⟨"b", rfl⟩, 1, .side ⟨"a", rfl⟩⟩
    ∃ r', (new.run ([.mintSide ⟨"a", rfl⟩ ⟨"b", rfl⟩, .register scope, .establishClean scope] ++
        [.mintMain ⟨"c", rfl⟩])).records.get? (scopeKey scope) = some r' ∧ r'.scope = scope ∧
      AttemptExecutionState.clean.rank ≤ r'.state.rank :=
  record_outlives [.mintSide ⟨"a", rfl⟩ ⟨"b", rfl⟩, .register _, .establishClean _]
    [.mintMain ⟨"c", rfl⟩] _ ⟨_, .clean⟩
    (by decide) (by decide) (by rfl) (by decide) (by decide)

theorem executed_never_clean (hnodup : ((before ++ after).flatMap sideIds).Nodup)
    (hexecuted : ((new.run before).markExecuted scope).1 = true) (hretire : .retire scope ∉ after) :
    (new.run (before ++ .markExecuted scope :: after)).isClean scope = false := by
  have hinv : (new.run before).Inv (before.flatMap sideIds) := inv_new.run before
  obtain ⟨hcur, r, hget, hstate⟩ := markExecuted_executed hexecuted
  have hauthority := (step_cases (new.run before) (.markExecuted scope)).1
  have hknown : ((new.run before).step (.markExecuted scope)).authority.Known _ scope :=
    known_of_isCurrent (hinv.step _).authority (hauthority ▸ hcur)
  have hold := Holds.run (n :=
    2) (hinv.step (.markExecuted scope)) (by simpa [sideIds] using hnodup) hknown hretire
    fun _ => ⟨r, hget, by rw [hstate]; rfl⟩
  rw [run_append, run_cons, Bool.eq_false_iff, ne_eq, isClean, Bool.and_eq_true]
  rintro ⟨hlater, hclean⟩
  obtain ⟨r', hget', hrank⟩ := hold hlater
  rw [hget', Option.any_some, decide_eq_true_eq] at hclean
  rw [hclean] at hrank
  exact absurd hrank (by decide)

theorem executed_never_clean_again :
    let scope : AttemptScope := ⟨⟨"b", rfl⟩, 1, .main⟩
    (new.run ([.mintMain ⟨"b", rfl⟩, .register scope, .establishClean scope] ++
      .markExecuted scope :: [.register scope, .establishClean scope])).isClean scope = false :=
  executed_never_clean _ _ _ (by decide) (by decide) (by decide)

end

end AttemptRecordStore

end JevCode.Agent
