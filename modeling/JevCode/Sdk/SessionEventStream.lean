import JevCode.Data.InsertionMap
import Mathlib.Data.List.Range

namespace JevCode.Sdk

open JevCode.Data

inductive FieldValue (Json : Type)
  | integer (n : Int)
  | string (s : String)
  | other (value : Json)

abbrev SdkFrame (Json : Type) := InsertionMap String (FieldValue Json)

structure EventFrame (Json : Type) where
  fields : SdkFrame Json
  generation : Int
  seq : Nat

inductive EventReplayGap
  | generationReset (fromGeneration toGeneration : Int) (resyncQueries : List String)
  | sequenceGap (fromSeq toSeq : Nat) (resyncQueries : List String)
  deriving DecidableEq

structure EventReplay (Json : Type) where
  events : List (EventFrame Json)
  gap : Option EventReplayGap

structure StreamOptions where
  generation : Option Int
  ringSize : Option Int
  resyncQueryIds : Option (List String)

structure SessionEventStream (Json : Type) where
  generation : Int
  seq : Nat
  frames : List (EventFrame Json)
  ringSize : Int
  resyncQueries : List String

variable {Json : Type}

def FieldValue.revision? : FieldValue Json → Option (FieldValue Json)
  | .integer n => if 0 ≤ n then some (.integer n) else none
  | _ => none

namespace SessionEventStream

def new (options : StreamOptions) : SessionEventStream Json where
  generation := options.generation.getD 0
  seq := 0
  frames := []
  ringSize := options.ringSize.getD 256
  resyncQueries := options.resyncQueryIds.getD ["Q01", "Q02", "Q03"]

def restart (s : SessionEventStream Json) : SessionEventStream Json :=
  { s with generation := s.generation + 1, seq := 0, frames := [] }

/-- The event of a frame; `provided` is what the revision provider answers. -/
def event (s : SessionEventStream Json) (frame : SdkFrame Json)
    (provided : Option (FieldValue Json)) :
    EventFrame Json where
  fields :=
    let frame' := frame.set "type" (.string "event")
    match ((frame.get? "revision").bind FieldValue.revision?).or
      (provided.bind FieldValue.revision?) with
    | none => frame'
    | some revision => frame'.set "revision" revision
  generation := s.generation
  seq := s.seq + 1

def pushFrame (ringSize : Int) (frames : List (EventFrame Json)) (event : EventFrame Json) :
    List (EventFrame Json) :=
  let pushed := frames ++ [event]
  if ringSize < pushed.length then pushed.tail else pushed

def emit (s : SessionEventStream Json) (frame : SdkFrame Json)
    (provided : Option (FieldValue Json)) :
    SessionEventStream Json :=
  { s with seq := s.seq + 1, frames := pushFrame s.ringSize s.frames (s.event frame provided) }

def oldest (s : SessionEventStream Json) : Nat :=
  (s.frames.head?.map EventFrame.seq).getD (s.seq + 1)

def replay (s : SessionEventStream Json) (lastSeq : Nat) (generation : Int) : EventReplay Json :=
  if generation ≠ s.generation then
    { events := s.frames, gap := some (.generationReset generation s.generation s.resyncQueries) }
  else if lastSeq + 1 < s.oldest then
    { events := s.frames.filter fun frame => s.oldest ≤ frame.seq
      gap := some (.sequenceGap (lastSeq + 1) (s.oldest - 1) s.resyncQueries) }
  else
    { events := s.frames.filter fun frame => lastSeq < frame.seq, gap := none }

end SessionEventStream

inductive StreamCall (Json : Type)
  | emit (frame : SdkFrame Json) (provided : Option (FieldValue Json))
  | restart

structure StreamHistory (Json : Type) where
  stream : SessionEventStream Json
  emitted : List (EventFrame Json)

namespace StreamHistory

def step (h : StreamHistory Json) : StreamCall Json → StreamHistory Json
  | .emit frame provided =>
    { stream := h.stream.emit frame provided, emitted := h.emitted ++ [h.stream.event frame provided] }
  | .restart => { h with stream := h.stream.restart }

def run (options : StreamOptions) (calls : List (StreamCall Json)) : StreamHistory Json :=
  calls.foldl step { stream := .new options, emitted := [] }

structure Inv (h : StreamHistory Json) (older lost : List (EventFrame Json)) : Prop where
  emitted : h.emitted = older ++ (lost ++ h.stream.frames)
  older : ∀ e ∈ older, e.generation < h.stream.generation
  current : ∀ e ∈ lost ++ h.stream.frames, e.generation = h.stream.generation
  numbers : (lost ++ h.stream.frames).map EventFrame.seq = List.range' 1 h.stream.seq
  retained : h.stream.frames.length = min h.stream.seq h.stream.ringSize.toNat

end StreamHistory

theorem SessionEventStream.pushFrame_cases (ringSize : Int) (frames : List (EventFrame Json))
    (event : EventFrame Json) :
    ∃ shifted, frames ++ [event] = shifted ++ pushFrame ringSize frames event ∧
      (pushFrame ringSize frames event).length = min (frames.length + 1)
      (max ringSize.toNat frames.length) := by
  unfold pushFrame
  simp only [List.length_append, List.length_singleton]
  split
  · obtain ⟨first, rest, heq⟩ : ∃ first rest, frames ++ [event] = first :: rest :=
      List.exists_cons_of_ne_nil (by simp)
    have hlength := congrArg List.length heq
    simp only [List.length_append, List.length_cons, List.length_nil] at hlength
    exact ⟨[first], by simp [heq], by simp only [heq, List.tail_cons]; omega⟩
  · exact ⟨[], rfl, by simp only [List.length_append, List.length_singleton]; omega⟩

namespace StreamHistory

variable {h : StreamHistory Json} {older lost : List (EventFrame Json)}

theorem Inv.emit (hinv : h.Inv older lost) (frame : SdkFrame Json)
    (provided : Option (FieldValue Json)) :
    ∃ lost', (h.step (.emit frame provided)).Inv older lost' := by
  obtain ⟨shifted, happend, hlength⟩ :=
    SessionEventStream.pushFrame_cases h.stream.ringSize h.stream.frames
      (h.stream.event frame provided)
  have hall : (lost ++ shifted) ++ (h.stream.emit frame provided).frames =
      (lost ++ h.stream.frames) ++ [h.stream.event frame provided] := by
    rw [List.append_assoc, List.append_assoc, happend]
    rfl
  refine ⟨lost ++ shifted, ?_, hinv.older, ?_, ?_, ?_⟩
  · show h.emitted ++ _ = older ++ ((lost ++ shifted) ++ (h.stream.emit frame provided).frames)
    rw [hall, hinv.emitted, List.append_assoc]
  · intro e he
    change e ∈ (lost ++ shifted) ++ (h.stream.emit frame provided).frames at he
    rw [hall, List.mem_append, List.mem_singleton] at he
    obtain he | rfl := he
    · exact hinv.current e he
    · rfl
  · show ((lost ++ shifted) ++ (h.stream.emit frame provided).frames).map EventFrame.seq =
      List.range' 1 (h.stream.seq + 1)
    rw [hall, List.map_append, hinv.numbers, List.range'_1_concat, Nat.add_comm 1]
    rfl
  · show (SessionEventStream.pushFrame _ _ _).length = min (h.stream.seq + 1) h.stream.ringSize.toNat
    rw [hlength, hinv.retained]
    omega

theorem Inv.restart (hinv : h.Inv older lost) :
    (h.step .restart).Inv (older ++ (lost ++ h.stream.frames)) [] := by
  refine ⟨?_, ?_, nofun, rfl, (Nat.zero_min _).symm⟩
  · simpa [step, SessionEventStream.restart] using hinv.emitted
  · intro e he
    show e.generation < h.stream.generation + 1
    obtain he | he := List.mem_append.mp he
    · have hlt := hinv.older e he
      omega
    · have heq := hinv.current e he
      omega

theorem run_inv (options : StreamOptions) (calls : List (StreamCall Json)) :
    ∃ older lost, (run options calls).Inv older lost := by
  have hstep : ∀ h : StreamHistory Json, (∃ older lost, h.Inv older lost) →
      ∃ older lost, (calls.foldl step h).Inv older lost := by
    induction calls with
    | nil => exact fun _ => id
    | cons call calls ih =>
      rintro h ⟨older, lost, hinv⟩
      refine ih _ ?_
      cases call with
      | emit frame provided => exact ⟨older, hinv.emit frame provided⟩
      | restart => exact ⟨_, _, hinv.restart⟩
  exact hstep _ ⟨[], [], rfl, nofun, nofun, rfl, by simp [SessionEventStream.new]⟩

theorem Inv.head_frames (hinv : h.Inv older lost) : h.stream.oldest = lost.length + 1 := by
  have hnumbers := congrArg (·[lost.length]?) hinv.numbers
  have hlength := congrArg List.length hinv.numbers
  simp only [List.length_map, List.length_append, List.length_range'] at hlength
  unfold SessionEventStream.oldest
  cases hframes : h.stream.frames with
  | nil =>
    rw [hframes, List.length_nil, Nat.add_zero] at hlength
    rw [← hlength]
    rfl
  | cons first frames =>
    rw [hframes, List.length_cons] at hlength
    have hlt : lost.length < h.stream.seq := by omega
    simpa [hframes, hlt, Nat.add_comm 1] using hnumbers

theorem Inv.numbers_split (hinv : h.Inv older lost) :
    lost.map EventFrame.seq = List.range' 1 lost.length ∧
    h.stream.frames.map EventFrame.seq = List.range' (1 + lost.length) h.stream.frames.length := by
  have hlength := congrArg List.length hinv.numbers
  simp only [List.length_map, List.length_append, List.length_range'] at hlength
  refine List.append_inj ?_ (by simp)
  rw [← List.map_append, hinv.numbers, List.range'_append_1, hlength]

theorem Inv.lt_of_mem_frames (hinv : h.Inv older lost) {e : EventFrame Json}
    (he : e ∈ h.stream.frames) :
    lost.length < e.seq := by
  have hmem := List.mem_map_of_mem (f := EventFrame.seq) he
  rw [hinv.numbers_split.2, List.mem_range'_1] at hmem
  omega

theorem Inv.le_of_mem_lost (hinv : h.Inv older lost) {e : EventFrame Json} (he : e ∈ lost) :
    e.seq ≤ lost.length := by
  have hmem := List.mem_map_of_mem (f := EventFrame.seq) he
  rw [hinv.numbers_split.1, List.mem_range'_1] at hmem
  omega

def current (h : StreamHistory Json) : List (EventFrame Json) :=
  h.emitted.filter fun e => e.generation = h.stream.generation

theorem Inv.current_eq (hinv : h.Inv older lost) : h.current = lost ++ h.stream.frames := by
  unfold StreamHistory.current
  rw [hinv.emitted, List.filter_append]
  have holder : older.filter (fun e => e.generation = h.stream.generation) = [] := by
    rw [List.filter_eq_nil_iff]
    intro e he heq
    exact absurd (of_decide_eq_true heq) (Int.ne_of_lt (hinv.older e he))
  rw [holder, List.nil_append, List.filter_eq_self]
  exact fun e he => decide_eq_true (hinv.current e he)

theorem Inv.filter_current (hinv : h.Inv older lost) {p : EventFrame Json → Prop} [DecidablePred p]
    (hlost : ∀ e ∈ lost, ¬p e) : h.current.filter p = h.stream.frames.filter p := by
  have hnil : lost.filter p = [] :=
    List.filter_eq_nil_iff.mpr fun e he hp => hlost e he (of_decide_eq_true hp)
  rw [hinv.current_eq, List.filter_append, hnil, List.nil_append]

theorem frames_newest (options : StreamOptions) (calls : List (StreamCall Json)) :
    let h := run options calls
    h.stream.frames <:+ h.current ∧
    h.stream.frames.length = min h.current.length h.stream.ringSize.toNat := by
  obtain ⟨older, lost, hinv⟩ := run_inv options calls
  refine ⟨⟨lost, hinv.current_eq.symm⟩, ?_⟩
  have hlength := congrArg List.length hinv.numbers
  rw [List.length_map, List.length_range'] at hlength
  rw [hinv.current_eq, hlength]
  exact hinv.retained

end StreamHistory

def EventReplayGap.Covers : Option EventReplayGap → Nat → Prop
  | some (.sequenceGap fromSeq toSeq _), n => fromSeq ≤ n ∧ n ≤ toSeq
  | _, _ => False

instance : ∀ (gap : Option EventReplayGap) (n : Nat), Decidable (EventReplayGap.Covers gap n)
  | some (.sequenceGap fromSeq toSeq _), n => inferInstanceAs (Decidable (fromSeq ≤ n ∧ n ≤ toSeq))
  | some (.generationReset ..), _ => isFalse id
  | none, _ => isFalse id

structure ExactReplay (h : StreamHistory Json) (lastSeq : Nat)
    (replay : EventReplay Json) : Prop where
  events : replay.events =
    h.current.filter fun e => lastSeq < e.seq ∧ ¬EventReplayGap.Covers replay.gap e.seq
  covers : ∀ n, EventReplayGap.Covers replay.gap n ↔
    lastSeq < n ∧ ∃ e ∈ h.current, e.seq = n ∧ e ∉ h.stream.frames
  gap : replay.gap = none ↔ ∀ e ∈ h.current, lastSeq < e.seq → e ∈ h.stream.frames

theorem StreamHistory.Inv.missing_iff {h : StreamHistory Json} {older lost : List (EventFrame Json)}
    (hinv : h.Inv older lost) (n : Nat) :
    (∃ e ∈ h.current, e.seq = n ∧ e ∉ h.stream.frames) ↔ 1 ≤ n ∧ n ≤ lost.length := by
  rw [hinv.current_eq]
  constructor
  · rintro ⟨e, he, rfl, hnot⟩
    have hlost : e ∈ lost := (List.mem_append.mp he).resolve_right hnot
    have hmem := List.mem_map_of_mem (f := EventFrame.seq) hlost
    rw [hinv.numbers_split.1, List.mem_range'_1] at hmem
    omega
  · intro hn
    have hmem : n ∈ lost.map EventFrame.seq := by
      rw [hinv.numbers_split.1, List.mem_range'_1]
      omega
    obtain ⟨e, he, rfl⟩ := List.mem_map.mp hmem
    refine ⟨e, List.mem_append_left _ he, rfl, fun hframe => ?_⟩
    exact absurd (hinv.lt_of_mem_frames hframe) (by omega)

theorem StreamHistory.Inv.replay {h : StreamHistory Json} {older lost : List (EventFrame Json)}
    (hinv : h.Inv older lost) (lastSeq : Nat) :
    ExactReplay h lastSeq (h.stream.replay lastSeq h.stream.generation) := by
  unfold SessionEventStream.replay
  rw [if_neg (not_not.mpr rfl), hinv.head_frames]
  split
  next hlt =>
    refine ⟨?_, fun n => ?_, ?_⟩
    · rw [hinv.filter_current]
      · refine List.filter_congr fun e he => decide_eq_decide.mpr ?_
        have hgt := hinv.lt_of_mem_frames he
        simp only [EventReplayGap.Covers]
        omega
      · intro e he hcond
        have hle := hinv.le_of_mem_lost he
        simp only [EventReplayGap.Covers] at hcond
        omega
    · rw [hinv.missing_iff]
      simp only [EventReplayGap.Covers]
      omega
    · refine iff_of_false (by simp) fun hall => ?_
      obtain ⟨e, he, hseq, hnot⟩ := (hinv.missing_iff (lastSeq + 1)).mpr (by omega)
      exact hnot (hall e he (by omega))
  next hge =>
    refine ⟨?_, fun n => ?_, iff_of_true rfl fun e he hlast => ?_⟩
    · rw [hinv.filter_current]
      · exact List.filter_congr fun e he => by simp [EventReplayGap.Covers]
      · intro e he hcond
        have hle := hinv.le_of_mem_lost he
        omega
    · rw [hinv.missing_iff]
      simp only [EventReplayGap.Covers, false_iff]
      omega
    · rw [hinv.current_eq] at he
      refine (List.mem_append.mp he).resolve_left fun hlost => ?_
      have hle := hinv.le_of_mem_lost hlost
      omega

/-- A client of the current generation is sent all events after its last one, except those of the
gap, which is reported when there are such and names just them; any other client is told to start
over. -/
theorem replay_loses_nothing_silently (options : StreamOptions) (calls : List (StreamCall Json))
    (lastSeq : Nat) :
    let h := StreamHistory.run options calls
    ExactReplay h lastSeq (h.stream.replay lastSeq h.stream.generation) ∧
    ∀ generation, generation ≠ h.stream.generation →
      (h.stream.replay lastSeq generation).gap =
        some (.generationReset generation h.stream.generation h.stream.resyncQueries) := by
  obtain ⟨older, lost, hinv⟩ := StreamHistory.run_inv options calls
  refine ⟨hinv.replay lastSeq, fun generation hne => ?_⟩
  rw [SessionEventStream.replay, if_pos hne]

end JevCode.Sdk
