import Mathlib.Algebra.BigOperators.Group.List.Basic
import Mathlib.Algebra.GroupWithZero.Nat
import Mathlib.Data.List.Induction
import Mathlib.Data.List.Perm.Basic

namespace JevCode.Agent

inductive AssistantEventType
  | start
  | textStart
  | textDelta
  | textEnd
  | thinkingStart
  | thinkingDelta
  | thinkingEnd
  | reasoningSummaryStart
  | reasoningSummaryDelta
  | reasoningSummaryEnd
  | toolcallStart
  | toolcallDelta
  | toolcallEnd
  | done
  | error
  | toolChoiceIncapability
  deriving DecidableEq

inductive AgentEventType
  | agentStart
  | agentFailed
  | agentEnd
  | turnStart
  | turnEnd
  | messageStart
  | messageUpdate (assistantMessageEvent : AssistantEventType)
  | messageEnd
  | toolExecutionStart
  | toolExecutionUpdate
  | toolExecutionEnd
  deriving DecidableEq

structure Frame (τ P : Type) where
  type : τ
  contentLength : Option Nat
  payload : P
  deriving DecidableEq

abbrev AgentEvent := Frame AgentEventType

abbrev AssistantPair := Frame AssistantEventType

inductive BatchItem (P : Type)
  | event (event : AgentEvent P) (bytes : Option Nat)
  | assistantEvent (pair : AssistantPair P) (bytes : Option Nat)
  deriving DecidableEq

inductive Delivery (P : Type)
  | stream (event : AgentEvent P)
  | callback (pair : AssistantPair P)
  deriving DecidableEq

variable {P : Type}

def BatchItem.bytes : BatchItem P → Option Nat
  | event _ bytes => bytes
  | assistantEvent _ bytes => bytes

def BatchItem.contentLength : BatchItem P → Option Nat
  | event e _ => e.contentLength
  | assistantEvent pair _ => pair.contentLength

def BatchItem.deliver : BatchItem P → Delivery P
  | event e _ => .stream e
  | assistantEvent pair _ => .callback pair

def managedSupersededDeltaEventTypes : List AssistantEventType :=
  [.textDelta, .thinkingDelta, .reasoningSummaryDelta, .toolcallDelta]

def isSupersededStreamingDelta : BatchItem P → Bool
  | .assistantEvent pair _ => pair.type ∈ managedSupersededDeltaEventTypes
  | .event e _ =>
    match e.type with
    | .messageUpdate type => type ∈ managedSupersededDeltaEventTypes
    | _ => false

def AgentEvent.isEnd (e : AgentEvent P) : Bool := e.type = .messageEnd ∨ e.type = .turnEnd

inductive ManagedLocalFailureStage
  | shellRole
  | shellContent
  | eventSnapshot
  | eventContentIndex
  | eventDelta
  | eventContent
  | eventToolcall
  | eventDoneReason
  | eventErrorReason
  | eventUnknownType
  | stagingMeasure
  | stagingSanitize
  | overflowPreMeasure
  | overflowStaged
  deriving DecidableEq

inductive ExceededCap
  | events
  | bytes
  | both
  deriving DecidableEq

structure StagedShape where
  stagedEventCount : Int
  stagedBytes : Int
  contentBlockCount : Nat
  deriving DecidableEq

structure Overflow where
  stage : ManagedLocalFailureStage
  exceeded : ExceededCap
  stagedEventCount : Int
  stagedBytes : Int
  incomingEventBytes : Int
  maxStagedEvents : Nat
  maxStagedBytes : Nat
  deriving DecidableEq

inductive AttemptError
  | bufferOverflow (overflow : Overflow)
  | snapshot (stage : ManagedLocalFailureStage)
  | thrown
  deriving DecidableEq

/-- What `managedJsonByteLengthWithin` returns or throws: a length, nothing, the sentinel of a value
that is too long, another error. -/
inductive Measurement
  | bytes (n : Nat)
  | undefined
  | sentinel
  | failed

inductive CloneSurface
  | over
  | under
  | degrade
  deriving DecidableEq

structure Measures (P : Type) where
  eventByteLengthWithin : AgentEvent P → Option Int → Measurement
  pairByteLengthWithin : AssistantPair P → Option Int → Measurement
  managedCloneSurfaceExceedsBudget : AgentEvent P → Int → CloneSurface
  structuredClone : AgentEvent P → Option (AgentEvent P)
  sanitizedDetachedClone : AgentEvent P → AgentEvent P
  repairAssistantEvent : AgentEvent P → Except ManagedLocalFailureStage (AgentEvent P)
  assistantSnapshot : AssistantPair P → Except ManagedLocalFailureStage (AssistantPair P)

def Measurement.isOver : Measurement → Bool
  | sentinel => true
  | _ => false

def Measurement.length? : Measurement → Option (Option Nat)
  | bytes n => some (some n)
  | undefined => some none
  | _ => none

def Measures.managedAttemptSnapshotDetailed (m : Measures P) (value : AgentEvent P)
    (byteLimit : Int) :
    Option (AgentEvent P × Option Nat) :=
  let sanitized (value : AgentEvent P) :=
    let bounded := m.sanitizedDetachedClone value
    (m.eventByteLengthWithin bounded none).length?.map fun jsonBytes => (bounded, jsonBytes)
  if m.managedCloneSurfaceExceedsBudget value byteLimit ≠ .under then sanitized value
  else
    match m.structuredClone value with
    | none => sanitized value
    | some snapshot =>
      match (m.eventByteLengthWithin snapshot none).length? with
      | none => sanitized value
      | some (some jsonBytes) => some (snapshot, some jsonBytes)
      -- a clone that cannot be measured is sanitized; the catch clause takes the live value
      | some none => sanitized snapshot <|> sanitized value

/-- `delivered`, `staged` and `reclaimed` are not fields of the source: all that the stream and the
callback have got, the frames held back since the last flush or discard, and those of them that a
compaction has dropped. -/
structure ManagedAttemptTransaction (P : Type) where
  batch : List (BatchItem P)
  stagedEventCount : Int
  stagedBytes : Int
  maxStagedEvents : Nat
  maxStagedBytes : Nat
  lastStagedShape : Option StagedShape
  discarded : Bool
  committed : Bool
  delivered : List (Delivery P)
  staged : List (BatchItem P)
  reclaimed : List (BatchItem P)

namespace ManagedAttemptTransaction

def start (maxStagedEvents maxStagedBytes : Nat) : ManagedAttemptTransaction P where
  batch := []
  stagedEventCount := 0
  stagedBytes := 0
  maxStagedEvents := maxStagedEvents
  maxStagedBytes := maxStagedBytes
  lastStagedShape := none
  discarded := false
  committed := false
  delivered := []
  staged := []
  reclaimed := []

def stagedContentBlockCount (s : ManagedAttemptTransaction P) : Nat :=
  (s.batch.reverse.findSome? BatchItem.contentLength).getD 0

def liveShape (s : ManagedAttemptTransaction P) : StagedShape :=
  ⟨s.stagedEventCount, s.stagedBytes, s.stagedContentBlockCount⟩

def stagedShape (s : ManagedAttemptTransaction P) : StagedShape := s.lastStagedShape.getD s.liveShape

def discard (s : ManagedAttemptTransaction P) : ManagedAttemptTransaction P :=
  { s with
    lastStagedShape := if s.discarded then s.lastStagedShape else some s.liveShape
    batch := []
    stagedBytes := 0
    stagedEventCount := 0
    discarded := true
    staged := []
    reclaimed := [] }

def flush (s : ManagedAttemptTransaction P) : ManagedAttemptTransaction P :=
  if s.discarded then s
  else
    { s with
      delivered := s.delivered ++ s.batch.map BatchItem.deliver
      batch := []
      stagedBytes := 0
      stagedEventCount := 0
      committed := true
      staged := []
      reclaimed := [] }

def remaining (s : ManagedAttemptTransaction P) : Int := s.maxStagedBytes - s.stagedBytes

def wouldOverflow (s : ManagedAttemptTransaction P) (bytes : Nat) : Bool :=
  s.stagedEventCount + 1 > s.maxStagedEvents ∨ s.stagedBytes + bytes > s.maxStagedBytes

def overflowShape (s : ManagedAttemptTransaction P) (stage : ManagedLocalFailureStage)
    (incomingEventBytes : Int) : Overflow :=
  let staged := s.stagedShape
  let eventsExceeded := staged.stagedEventCount + 1 > s.maxStagedEvents
  let bytesExceeded := staged.stagedBytes + incomingEventBytes > s.maxStagedBytes
  { stage := stage
    exceeded :=
    if eventsExceeded ∧ bytesExceeded then .both else if eventsExceeded then .events else .bytes
    stagedEventCount := staged.stagedEventCount
    stagedBytes := staged.stagedBytes
    incomingEventBytes := incomingEventBytes
    maxStagedEvents := s.maxStagedEvents
    maxStagedBytes := s.maxStagedBytes }

def compactSupersededFrames (s : ManagedAttemptTransaction P) : ManagedAttemptTransaction P :=
  let retained := s.batch.filter (!isSupersededStreamingDelta ·)
  let reclaimed := s.batch.filter isSupersededStreamingDelta
  if retained.length = s.batch.length then s
  else
    { s with
      batch := retained
      stagedBytes := s.stagedBytes - (reclaimed.map (·.bytes.getD 0)).sum
      stagedEventCount := s.stagedEventCount - reclaimed.length
      reclaimed := s.reclaimed ++ reclaimed }

def retain (s : ManagedAttemptTransaction P) (item : BatchItem P) (bytes : Nat) :
    ManagedAttemptTransaction P :=
  { s with
    batch := s.batch ++ [item]
    stagedEventCount := s.stagedEventCount + 1
    stagedBytes := s.stagedBytes + bytes
    staged := s.staged ++ [item] }

abbrev Result (P : Type) := ManagedAttemptTransaction P × Option AttemptError

/-- Where there is no room, superseded frames are compacted; where there is still none, the attempt
is discarded and `error` is thrown. It is given the state before and after the discard. -/
def withRoom (s : ManagedAttemptTransaction P) (isOver : ManagedAttemptTransaction P → Bool)
    (error : ManagedAttemptTransaction P → ManagedAttemptTransaction P → Overflow)
    (next : ManagedAttemptTransaction P → Result P) : Result P :=
  let s := if isOver s then s.compactSupersededFrames else s
  if isOver s then (s.discard, some (.bufferOverflow (error s s.discard))) else next s

variable (m : Measures P)

def preflightOver (event : AgentEvent P) (s : ManagedAttemptTransaction P) : Bool :=
  (m.eventByteLengthWithin event (some s.remaining)).isOver ∨
    m.managedCloneSurfaceExceedsBudget event s.remaining = .over

def incomingBytes (event : AgentEvent P) (s : ManagedAttemptTransaction P) : Int :=
  match m.eventByteLengthWithin event (some (s.maxStagedBytes * 2)) with
  | .bytes n => max n (s.remaining + 1)
  | .undefined => max 0 (s.remaining + 1)
  | _ => s.remaining + 1

def stage (s : ManagedAttemptTransaction P) (event : AgentEvent P) : Result P :=
  s.withRoom (preflightOver m event)
    (fun s discarded => discarded.overflowShape .overflowPreMeasure (incomingBytes m event s))
    fun s =>
  match m.repairAssistantEvent event with
  | .error stage => (s, some (.snapshot stage))
  | .ok repaired =>
    match m.managedAttemptSnapshotDetailed repaired s.remaining with
    | none => (s, some .thrown)
    | some (_, none) => (s.discard, some (.snapshot .stagingSanitize))
    | some (snapshot, some bytes) =>
      s.withRoom (·.wouldOverflow bytes)
        (fun _ discarded => discarded.overflowShape .overflowStaged bytes)
        fun s => (s.retain (.event snapshot (some bytes)) bytes, none)

def push (s : ManagedAttemptTransaction P) (event : AgentEvent P) : Result P :=
  if s.committed then
    if event.isEnd then
      ({ s with
        batch := s.batch ++ [.event event none]
        staged := s.staged ++ [.event event none] }, none)
    else ({ s with delivered := s.delivered ++ [.stream event] }, none)
  else s.stage m event

def stageAssistantMessageEvent (s : ManagedAttemptTransaction P)
    (pair : AssistantPair P) : Result P :=
  if s.committed then
    match m.assistantSnapshot pair with
    | .error stage => (s, some (.snapshot stage))
    | .ok snapshot => ({ s with delivered := s.delivered ++ [.callback snapshot] }, none)
  else
    s.withRoom (fun s => (m.pairByteLengthWithin pair (some s.remaining)).isOver)
      -- the remaining budget is read after the discard has put the counters to zero
      (fun _ discarded => discarded.overflowShape .overflowStaged (discarded.remaining + 1)) fun s =>
    match m.assistantSnapshot pair with
    | .error stage => (s, some (.snapshot stage))
    | .ok snapshot =>
      match (m.pairByteLengthWithin snapshot none).length? with
      | none => (s, some .thrown)
      | some none => (s.discard, some (.snapshot .stagingMeasure))
      | some (some bytes) =>
        s.withRoom (·.wouldOverflow bytes)
          (fun _ discarded => discarded.overflowShape .overflowStaged bytes)
          fun s => (s.retain (.assistantEvent snapshot (some bytes)) bytes, none)

inductive Call (P : Type)
  | push (event : AgentEvent P)
  | stageAssistantMessageEvent (pair : AssistantPair P)
  | flush
  | discard
  deriving DecidableEq

def step (s : ManagedAttemptTransaction P) : Call P → Result P
  | .push event => s.push m event
  | .stageAssistantMessageEvent pair => s.stageAssistantMessageEvent m pair
  | .flush => (s.flush, none)
  | .discard => (s.discard, none)

/-- The state after some calls, whether or not they throw. -/
def run (s : ManagedAttemptTransaction P) (calls : List (Call P)) : ManagedAttemptTransaction P :=
  calls.foldl (fun s call => (s.step m call).1) s

end ManagedAttemptTransaction

namespace ManagedAttemptTransaction

variable {s : ManagedAttemptTransaction P}

def byteTotal (items : List (BatchItem P)) : Nat := (items.map (·.bytes.getD 0)).sum

def chargedCount (items : List (BatchItem P)) : Nat := items.countP (·.bytes.isSome)

structure WithinCaps (s : ManagedAttemptTransaction P) : Prop where
  bytes : s.stagedBytes = byteTotal s.batch
  events : s.stagedEventCount = chargedCount s.batch
  charged : s.committed = false → ∀ item ∈ s.batch, item.bytes.isSome = true
  bytes_le : s.stagedBytes ≤ s.maxStagedBytes
  events_le : s.stagedEventCount ≤ s.maxStagedEvents

structure KeepsFrames (s : ManagedAttemptTransaction P) : Prop where
  order : s.batch.Sublist s.staged
  complete : s.staged.Perm (s.batch ++ s.reclaimed)
  superseded : ∀ item ∈ s.reclaimed, isSupersededStreamingDelta item = true

structure Inv (s : ManagedAttemptTransaction P) : Prop where
  caps : WithinCaps s
  frames : KeepsFrames s
  silent : s.committed = false → s.delivered = []

theorem inv_start (maxStagedEvents maxStagedBytes : Nat) :
    Inv (start maxStagedEvents maxStagedBytes : ManagedAttemptTransaction P) where
  caps :=
    ⟨rfl, rfl, fun _ _ h => (List.not_mem_nil h).elim, Int.natCast_nonneg _, Int.natCast_nonneg _⟩
  frames := ⟨.slnil, .nil, fun _ h => (List.not_mem_nil h).elim⟩
  silent _ := rfl

theorem Inv.discard (h : Inv s) : Inv s.discard where
  caps :=
    ⟨rfl, rfl, fun _ _ h => (List.not_mem_nil h).elim, Int.natCast_nonneg _, Int.natCast_nonneg _⟩
  frames := ⟨.slnil, .nil, fun _ h => (List.not_mem_nil h).elim⟩
  silent hc := h.silent hc

theorem Inv.flush (h : Inv s) : Inv s.flush := by
  unfold ManagedAttemptTransaction.flush
  split
  · exact h
  · exact {
      caps :=
      ⟨rfl, rfl, fun _ _ h => (List.not_mem_nil h).elim, Int.natCast_nonneg _, Int.natCast_nonneg _⟩
      frames := ⟨.slnil, .nil, fun _ h => (List.not_mem_nil h).elim⟩
      silent := fun hc => absurd hc (by simp) }

theorem byteTotal_filter (p : BatchItem P → Bool) (items : List (BatchItem P)) :
    byteTotal items = byteTotal (items.filter (!p ·)) + byteTotal (items.filter p) := by
  unfold byteTotal
  induction items with
  | nil => rfl
  | cons item items ih =>
    cases hp : p item <;> simp [hp, ih] <;> omega

theorem length_filter (p : BatchItem P → Bool) (items : List (BatchItem P)) :
    items.length = (items.filter (!p ·)).length + (items.filter p).length := by
  rw [← (List.filter_append_perm p items).length_eq, List.length_append, Nat.add_comm]

theorem chargedCount_of_charged {items : List (BatchItem P)}
    (h : ∀ item ∈ items, item.bytes.isSome = true) :
    chargedCount items = items.length :=
  List.countP_eq_length.mpr h

theorem Inv.compact (h : Inv s) (hopen : s.committed = false) : Inv s.compactSupersededFrames := by
  unfold compactSupersededFrames
  simp only
  split
  case isTrue => exact h
  case isFalse =>
    have hcharged := h.caps.charged hopen
    have hretained : ∀ item ∈ s.batch.filter (!isSupersededStreamingDelta ·),
        item.bytes.isSome = true :=
      fun item hitem => hcharged item (List.mem_of_mem_filter hitem)
    have hbytes := h.caps.bytes
    have hevents := h.caps.events
    have hbytes_le := h.caps.bytes_le
    have hevents_le := h.caps.events_le
    rw [byteTotal_filter isSupersededStreamingDelta s.batch] at hbytes
    rw [chargedCount_of_charged hcharged,
      length_filter isSupersededStreamingDelta s.batch] at hevents
    refine ⟨⟨?_, ?_, fun _ => hretained, ?_, ?_⟩, ⟨?_, ?_, ?_⟩, h.silent⟩
    · simp only [byteTotal] at hbytes ⊢
      omega
    · simp only [chargedCount_of_charged hretained]
      omega
    · simp only
      omega
    · simp only
      omega
    · exact (List.filter_sublist).trans h.frames.order
    · have hsplit := (List.filter_append_perm isSupersededStreamingDelta s.batch).symm
      have hswap := hsplit.trans List.perm_append_comm
      refine h.frames.complete.trans ((hswap.append_right s.reclaimed).trans ?_)
      rw [List.append_assoc]
      exact List.perm_append_comm.append_left _
    · intro item hitem
      cases List.mem_append.mp hitem with
      | inl hold => exact h.frames.superseded item hold
      | inr hnew => exact (List.mem_filter.mp hnew).2

theorem KeepsFrames.snoc {s' : ManagedAttemptTransaction P} (h : KeepsFrames s) {item : BatchItem P}
    (hbatch : s'.batch = s.batch ++ [item]) (hstaged : s'.staged = s.staged ++ [item])
    (hreclaimed : s'.reclaimed = s.reclaimed) : KeepsFrames s' := by
  refine ⟨?_, ?_, ?_⟩
  · rw [hbatch, hstaged]
    exact h.order.append (List.Sublist.refl _)
  · rw [hbatch, hstaged, hreclaimed]
    refine (h.complete.append_right [item]).trans ?_
    rw [List.append_assoc, List.append_assoc]
    exact List.perm_append_comm.append_left _
  · rw [hreclaimed]
    exact h.superseded

theorem Inv.retain (h : Inv s) {item : BatchItem P} {bytes : Nat} (hitem : item.bytes = some bytes)
    (hroom : s.wouldOverflow bytes = false) : Inv (s.retain item bytes) := by
  have hbytes := h.caps.bytes
  have hevents := h.caps.events
  simp only [wouldOverflow, decide_eq_false_iff_not, not_or, gt_iff_lt, Int.not_lt] at hroom
  refine ⟨⟨?_, ?_, ?_, hroom.2, hroom.1⟩, h.frames.snoc rfl rfl rfl, h.silent⟩
  · simp only [ManagedAttemptTransaction.retain, byteTotal, List.map_append, List.sum_append, hbytes]
    simp [hitem]
  · simp only [ManagedAttemptTransaction.retain, chargedCount, List.countP_append, hevents]
    simp [hitem]
  · intro hopen i hi
    cases List.mem_append.mp hi with
    | inl hold => exact h.caps.charged hopen i hold
    | inr hnew =>
      cases List.mem_singleton.mp hnew
      rw [hitem]
      rfl

structure Staging (s s' : ManagedAttemptTransaction P) : Prop where
  inv : Inv s'
  committed : s'.committed = false
  discarded : s.discarded = true → s'.discarded = true

theorem Staging.discard {s' : ManagedAttemptTransaction P} (h : Staging s s') :
    Staging s s'.discard :=
  ⟨h.inv.discard, h.committed, fun _ => rfl⟩

theorem Staging.compact {s' : ManagedAttemptTransaction P} (h : Staging s s') :
    Staging s s'.compactSupersededFrames ∧ s'.compactSupersededFrames.staged = s'.staged := by
  have hinv := h.inv.compact h.committed
  revert hinv
  unfold compactSupersededFrames
  simp only
  split
  · exact fun _ => ⟨h, rfl⟩
  · exact fun hinv => ⟨⟨hinv, h.committed, h.discarded⟩, rfl⟩

structure Stages (s : ManagedAttemptTransaction P) (isFrame : BatchItem P → Prop)
    (r : Result P) : Prop where
  staging : Staging s r.1
  frame : r.2 = none → ∃ item, isFrame item ∧ r.1.staged = s.staged ++ [item]

theorem Staging.throws {s' : ManagedAttemptTransaction P} (h : Staging s s')
    (isFrame : BatchItem P → Prop) (error : AttemptError) : Stages s isFrame (s', some error) :=
  ⟨h, fun hnone => by cases hnone⟩

theorem Staging.withRoom {s' : ManagedAttemptTransaction P} {isFrame : BatchItem P → Prop}
    (h : Staging s s') (hstaged : s'.staged = s.staged) {isOver : ManagedAttemptTransaction P → Bool}
    (error : ManagedAttemptTransaction P → ManagedAttemptTransaction P → Overflow)
    {next : ManagedAttemptTransaction P → Result P}
    (hnext : ∀ t, Staging s t → t.staged = s.staged → isOver t = false → Stages s isFrame (next t)) :
    Stages s isFrame (s'.withRoom isOver error next) := by
  unfold ManagedAttemptTransaction.withRoom
  have hmade : ∃ t, (if isOver s' then s'.compactSupersededFrames else s') = t ∧ Staging s t ∧
      t.staged = s.staged := by
    split
    · exact ⟨_, rfl, h.compact.1, h.compact.2.trans hstaged⟩
    · exact ⟨_, rfl, h, hstaged⟩
  obtain ⟨t, ht, hstaging, hframes⟩ := hmade
  simp only [ht]
  split
  · exact hstaging.discard.throws isFrame _
  case isFalse hover => exact hnext t hstaging hframes (Bool.eq_false_iff.mpr hover)

theorem Staging.charge {s' : ManagedAttemptTransaction P} {isFrame : BatchItem P → Prop}
    (h : Staging s s') (hstaged : s'.staged = s.staged) {item : BatchItem P} {bytes : Nat}
    (hbytes : item.bytes = some bytes) (hitem : isFrame item) :
    Stages s isFrame (s'.withRoom (·.wouldOverflow bytes)
      (fun _ discarded => discarded.overflowShape .overflowStaged bytes)
      fun s => (s.retain item bytes, none)) := by
  refine h.withRoom hstaged _ fun t ht hframes hroom => ?_
  refine ⟨⟨ht.inv.retain hbytes hroom, ht.committed, ht.discarded⟩, fun _ => ⟨item, hitem, ?_⟩⟩
  exact congrArg (· ++ [item]) hframes

variable {m : Measures P}

def IsSnapshotOf (m : Measures P) : Call P → BatchItem P → Prop
  | .push event, item =>
    ∃ repaired limit snapshot bytes, m.repairAssistantEvent event = .ok repaired ∧
      m.managedAttemptSnapshotDetailed repaired limit = some (snapshot, some bytes) ∧
      item = .event snapshot (some bytes)
  | .stageAssistantMessageEvent pair, item =>
    ∃ snapshot bytes, m.assistantSnapshot pair = .ok snapshot ∧
      (m.pairByteLengthWithin snapshot none).length? = some (some bytes) ∧
      item = .assistantEvent snapshot (some bytes)
  | _, _ => False

theorem stages_push (h : Inv s) (hopen : s.committed = false) (event : AgentEvent P) :
    Stages s (IsSnapshotOf m (.push event)) (s.push m event) := by
  unfold push stage
  rw [if_neg (Bool.eq_false_iff.mp hopen)]
  refine Staging.withRoom ⟨h, hopen, id⟩ rfl _ fun t ht hframes _ => ?_
  split
  · exact ht.throws _ _
  case h_2 repaired hrepaired =>
    split
    · exact ht.throws _ _
    · exact ht.discard.throws _ _
    case h_3 snapshot bytes hsnapshot =>
      exact ht.charge hframes rfl ⟨repaired, _, snapshot, bytes, hrepaired, hsnapshot, rfl⟩

theorem stages_assistantMessageEvent (h : Inv s) (hopen : s.committed = false)
    (pair : AssistantPair P) :
    Stages s (IsSnapshotOf m (.stageAssistantMessageEvent pair))
      (s.stageAssistantMessageEvent m pair) := by
  unfold stageAssistantMessageEvent
  rw [if_neg (Bool.eq_false_iff.mp hopen)]
  refine Staging.withRoom ⟨h, hopen, id⟩ rfl _ fun t ht hframes _ => ?_
  split
  · exact ht.throws _ _
  case h_2 snapshot hsnapshot =>
    split
    · exact ht.throws _ _
    · exact ht.discard.throws _ _
    case h_3 bytes hbytes => exact ht.charge hframes rfl ⟨snapshot, bytes, hsnapshot, hbytes, rfl⟩

def forwarded (m : Measures P) : Call P → List (Delivery P)
  | .push event => if event.isEnd then [] else [.stream event]
  | .stageAssistantMessageEvent pair =>
    match m.assistantSnapshot pair with
    | .ok snapshot => [.callback snapshot]
    | .error _ => []
  | _ => []

structure Forwards (s s' : ManagedAttemptTransaction P) (deliveries : List (Delivery P)) : Prop where
  inv : Inv s'
  committed : s'.committed = true
  discarded : s'.discarded = s.discarded
  delivered : s'.delivered = s.delivered ++ deliveries

theorem Inv.retainEnd (h : Inv s) (hc : s.committed = true) (event : AgentEvent P) :
    Inv { s with
      batch := s.batch ++ [.event event none]
      staged := s.staged ++ [.event event none] } := by
  have hbytes := h.caps.bytes
  have hevents := h.caps.events
  refine ⟨⟨?_, ?_, ?_, h.caps.bytes_le, h.caps.events_le⟩, h.frames.snoc rfl rfl rfl, ?_⟩
  · simp only [byteTotal, List.map_append, List.sum_append] at hbytes ⊢
    simp [hbytes, BatchItem.bytes]
  · simp only [chargedCount, List.countP_append] at hevents ⊢
    simp [hevents, BatchItem.bytes]
  · intro hopen
    exact absurd hc (Bool.eq_false_iff.mp hopen)
  · intro hopen
    exact absurd hc (Bool.eq_false_iff.mp hopen)

theorem Inv.deliver (h : Inv s) (hc : s.committed = true) (deliveries : List (Delivery P)) :
    Inv { s with delivered := s.delivered ++ deliveries } where
  caps := ⟨h.caps.bytes, h.caps.events, h.caps.charged, h.caps.bytes_le, h.caps.events_le⟩
  frames := ⟨h.frames.order, h.frames.complete, h.frames.superseded⟩
  silent hopen := absurd hc (Bool.eq_false_iff.mp hopen)

theorem forwards_push (h : Inv s) (hc : s.committed = true) (event : AgentEvent P) :
    Forwards s (s.push m event).1 (forwarded m (.push event)) := by
  unfold push
  simp only [forwarded, if_pos hc]
  cases event.isEnd with
  | true => exact ⟨h.retainEnd hc event, hc, rfl, (List.append_nil _).symm⟩
  | false => exact ⟨h.deliver hc _, hc, rfl, rfl⟩

theorem forwards_assistantMessageEvent (h : Inv s) (hc : s.committed = true)
    (pair : AssistantPair P) :
    Forwards s (s.stageAssistantMessageEvent m pair).1
      (forwarded m (.stageAssistantMessageEvent pair)) := by
  unfold stageAssistantMessageEvent
  simp only [forwarded, if_pos hc]
  cases m.assistantSnapshot pair with
  | error stage => exact ⟨h, hc, rfl, (List.append_nil _).symm⟩
  | ok snapshot => exact ⟨h.deliver hc _, hc, rfl, rfl⟩

theorem step_cases (h : Inv s) (call : Call P) :
    call = .flush ∨ call = .discard ∨
    s.committed = false ∧ Stages s (IsSnapshotOf m call) (s.step m call) ∨
    s.committed = true ∧ Forwards s (s.step m call).1 (forwarded m call) := by
  cases call with
  | push event =>
    cases hc : s.committed with
    | false => exact .inr (.inr (.inl ⟨rfl, stages_push h hc event⟩))
    | true => exact .inr (.inr (.inr ⟨rfl, forwards_push h hc event⟩))
  | stageAssistantMessageEvent pair =>
    cases hc : s.committed with
    | false => exact .inr (.inr (.inl ⟨rfl, stages_assistantMessageEvent h hc pair⟩))
    | true => exact .inr (.inr (.inr ⟨rfl, forwards_assistantMessageEvent h hc pair⟩))
  | flush => exact .inl rfl
  | discard => exact .inr (.inl rfl)

theorem Inv.step (h : Inv s) (call : Call P) : Inv (s.step m call).1 := by
  obtain rfl | rfl | ⟨-, hstages⟩ | ⟨-, hforwards⟩ := step_cases (m := m) h call
  · exact h.flush
  · exact h.discard
  · exact hstages.staging.inv
  · exact hforwards.inv

theorem Inv.run (h : Inv s) (calls : List (Call P)) : Inv (s.run m calls) := by
  induction calls generalizing s with
  | nil => exact h
  | cons call calls ih => exact ih (h.step call)

theorem run_append (s : ManagedAttemptTransaction P) (calls later : List (Call P)) :
    s.run m (calls ++ later) = (s.run m calls).run m later :=
  List.foldl_append

theorem committed_step (h : Inv s) (call : Call P) :
    (s.step m call).1.committed = true ↔ s.committed = true ∨ call = .flush ∧ s.discarded = false := by
  obtain rfl | rfl | ⟨hc, hstages⟩ | ⟨hc, hforwards⟩ := step_cases (m := m) h call
  · cases hd : s.discarded <;>
      simp [ManagedAttemptTransaction.step, ManagedAttemptTransaction.flush, hd]
  · simp [ManagedAttemptTransaction.step, ManagedAttemptTransaction.discard]
  · have hnot : call ≠ .flush := by
      rintro rfl
      obtain ⟨item, hitem, -⟩ := hstages.frame rfl
      exact hitem
    simp [hstages.staging.committed, hc, hnot]
  · simp [hforwards.committed, hc]

theorem committed_run (h : Inv s) (hopen : s.committed = false) (calls : List (Call P)) :
    (s.run m calls).committed = true ↔
      ∃ earlier later, calls = earlier ++ .flush :: later ∧ (s.run m earlier).discarded = false := by
  induction calls using List.reverseRecOn with
  | nil => simp [run, hopen]
  | append_singleton calls call ih =>
    rw [run_append]
    change ((s.run m calls).step m call).1.committed = true ↔ _
    rw [committed_step (h.run calls), ih]
    constructor
    · rintro (⟨earlier, later, rfl, hd⟩ | ⟨rfl, hd⟩)
      · exact ⟨earlier, later ++ [call], by simp, hd⟩
      · exact ⟨calls, [], rfl, hd⟩
    · rintro ⟨earlier, later, hcalls, hd⟩
      cases later using List.reverseRecOn with
      | nil =>
        obtain ⟨rfl, hcall⟩ := List.append_inj' hcalls rfl
        exact .inr ⟨by simpa using hcall, hd⟩
      | append_singleton later last =>
        rw [← List.cons_append, ← List.append_assoc] at hcalls
        obtain ⟨rfl, -⟩ := List.append_inj' hcalls rfl
        exact .inl ⟨earlier, later, rfl, hd⟩

theorem discarded_step (h : Inv s) (hd : s.discarded = true) (call : Call P) :
    (s.step m call).1.discarded = true ∧ (s.step m call).1.committed = s.committed ∧
      (s.step m call).1.delivered = s.delivered ++ if s.committed then forwarded m call else [] := by
  obtain rfl | rfl | ⟨hc, hstages⟩ | ⟨hc, hforwards⟩ := step_cases (m := m) h call
  · simp [ManagedAttemptTransaction.step, ManagedAttemptTransaction.flush, hd, forwarded]
  · simp [ManagedAttemptTransaction.step, ManagedAttemptTransaction.discard, forwarded]
  · have hs' := hstages.staging
    refine ⟨hs'.discarded hd, hs'.committed.trans hc.symm, ?_⟩
    rw [hs'.inv.silent hs'.committed, h.silent hc, hc]
    rfl
  · refine ⟨hforwards.discarded.trans hd, hforwards.committed.trans hc.symm, ?_⟩
    rw [if_pos hc]
    exact hforwards.delivered

theorem discarded_run (h : Inv s) (hd : s.discarded = true) (calls : List (Call P)) :
    (s.run m calls).delivered = s.delivered ++ if s.committed then calls.flatMap
    (forwarded m) else [] := by
  induction calls generalizing s with
  | nil => simp [run]
  | cons call calls ih =>
    obtain ⟨hd', hc, hdelivered⟩ := discarded_step (m := m) h hd call
    change ((s.step m call).1.run m calls).delivered = _
    rw [ih (h.step call) hd', hdelivered, hc, List.flatMap_cons]
    split
    · rw [List.append_assoc]
    · rw [List.append_assoc, List.append_nil]

theorem managed_attempt_is_atomic (m : Measures P) (maxStagedEvents maxStagedBytes : Nat)
    (calls : List (Call P)) :
    let s := (start maxStagedEvents maxStagedBytes).run m calls
    WithinCaps s ∧ KeepsFrames s ∧
    (s.committed = true ↔ ∃ earlier later, calls = earlier ++ .flush :: later ∧
      ((start maxStagedEvents maxStagedBytes).run m earlier).discarded = false) ∧
    (s.committed = false → s.delivered = []) ∧
    (s.discarded = true → ∀ later, (s.run m later).delivered =
      s.delivered ++ if s.committed then later.flatMap (forwarded m) else []) ∧
    (s.flush.delivered = s.delivered ++ if s.discarded then [] else s.batch.map BatchItem.deliver) ∧
    (s.committed = false → ∀ call, call ≠ .flush → call ≠ .discard → (s.step m call).2 = none →
      ∃ item, IsSnapshotOf m call item ∧ (s.step m call).1.staged = s.staged ++ [item]) := by
  intro s
  have hs : Inv s := (inv_start maxStagedEvents maxStagedBytes).run calls
  refine ⟨hs.caps, hs.frames, ?_, hs.silent, fun hd later => discarded_run hs hd later, ?_, ?_⟩
  · exact committed_run (inv_start maxStagedEvents maxStagedBytes) rfl calls
  · unfold ManagedAttemptTransaction.flush
    cases s.discarded with
    | true => exact (List.append_nil _).symm
    | false => rfl
  · intro hc call hflush hdiscard hok
    obtain rfl | rfl | ⟨-, hstages⟩ | ⟨hcommitted, -⟩ := step_cases (m := m) hs call
    · exact absurd rfl hflush
    · exact absurd rfl hdiscard
    · exact hstages.frame hok
    · exact absurd hcommitted (Bool.eq_false_iff.mp hc)

def oneByte : Measures Unit where
  eventByteLengthWithin _ _ := .bytes 1
  pairByteLengthWithin _ _ := .bytes 1
  managedCloneSurfaceExceedsBudget _ _ := .under
  structuredClone event := some event
  sanitizedDetachedClone event := event
  repairAssistantEvent event := .ok event
  assistantSnapshot pair := .ok pair

def turnStart : AgentEvent Unit := ⟨.turnStart, none, ()⟩

def turnEnd : AgentEvent Unit := ⟨.turnEnd, none, ()⟩

theorem flushed_attempt_passes_on :
    ((start 10 10).run oneByte [.flush, .discard]).discarded = true ∧
    ((start 10 10).run oneByte [.flush, .discard, .push turnStart]).delivered = [.stream turnStart] ∧
    ((start 10 10).run oneByte [.flush, .push turnEnd]).batch = [.event turnEnd none] ∧
    ((start 10 10).run oneByte [.flush, .push turnEnd]).stagedEventCount = 0 := by
  decide

end ManagedAttemptTransaction

end JevCode.Agent
