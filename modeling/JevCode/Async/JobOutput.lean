import JevCode.Text.Utf8
import Mathlib.Algebra.Order.Floor.Ring
import Mathlib.Data.Rat.Floor
import Mathlib.Logic.Function.Basic

/-! `async/job-manager.ts`: the captured output of background jobs. Chunks carry the bytes they stand
for in the whole stream, and the oldest are dropped when a job's output grows over the cap. -/

namespace JevCode.Async

open JevCode.Text

inductive JobStatus
  | running
  | completed
  | failed
  | cancelled
  | paused
  deriving DecidableEq

structure OutputJob where
  status : JobStatus
  ownerId : Option String
  deriving DecidableEq

structure OutputChunk where
  startByte : Nat
  endByte : Nat
  text : Chars
  deriving DecidableEq

structure OutputState where
  chunks : List OutputChunk := []
  startOffset : Nat := 0
  nextOffset : Nat := 0
  retainedBytes : Nat := 0
  deriving DecidableEq

structure OutputSlice where
  jobId : String
  status : JobStatus
  text : Chars
  startOffset : Nat
  nextOffset : Nat
  truncated : Bool
  deriving DecidableEq

/-- The part of the manager that the output functions use. -/
structure JobOutputs where
  disposed : Bool
  outputRetentionBytes : Nat
  jobs : String → Option OutputJob
  outputState : String → Option OutputState

/-- The loop of `sliceTextFromUtf8ByteOffset`: whole characters before the offset are skipped. -/
def skipWhile (offsetBytes consumedBytes : Nat) : Chars → Chars
  | [] => []
  | c :: text =>
    if offsetBytes < consumedBytes + c.utf8Size then c :: text
    else skipWhile offsetBytes (consumedBytes + c.utf8Size) text

def sliceTextFromUtf8ByteOffset (text : Chars) (offsetBytes : Nat) : Chars :=
  if offsetBytes = 0 then text else skipWhile offsetBytes 0 text

/-- The loop of `sliceTextAfterUtf8ByteOffset`: the character that reaches the offset is skipped too.
-/
def skipUntil (offsetBytes consumedBytes : Nat) : Chars → Chars
  | [] => []
  | c :: text =>
    if offsetBytes ≤ consumedBytes + c.utf8Size then text
    else skipUntil offsetBytes (consumedBytes + c.utf8Size) text

def sliceTextAfterUtf8ByteOffset (text : Chars) (offsetBytes : Nat) : Chars :=
  if offsetBytes = 0 then text else skipUntil offsetBytes 0 text

def evict (outputRetentionBytes : Nat) : List OutputChunk → Nat → Nat → OutputState → OutputState
  | [], startOffset, retainedBytes, state =>
    { state with chunks := [], startOffset := startOffset, retainedBytes := retainedBytes }
  | dropped :: chunks, startOffset, retainedBytes, state =>
    if outputRetentionBytes < retainedBytes then
      evict outputRetentionBytes chunks (max startOffset dropped.endByte)
        (retainedBytes - (dropped.endByte - dropped.startByte)) state
    else { state with
      chunks := dropped :: chunks, startOffset := startOffset, retainedBytes := retainedBytes }

def OutputState.append (state : OutputState) (outputRetentionBytes : Nat) (chunk : Chars) :
    OutputState :=
  let bytes := byteLength chunk
  let retainedChunk :=
    if outputRetentionBytes < bytes
      then sliceTextAfterUtf8ByteOffset chunk (bytes - outputRetentionBytes) else chunk
  let retainedByteLength := byteLength retainedChunk
  let skippedBytes := bytes - retainedByteLength
  let startByte := state.nextOffset + skippedBytes
  let endByte := startByte + retainedByteLength
  evict outputRetentionBytes (state.chunks ++ [⟨startByte, endByte, retainedChunk⟩])
    (if 0 < skippedBytes then max state.startOffset startByte else state.startOffset)
    (state.retainedBytes + retainedByteLength) { state with nextOffset := endByte }

def JobOutputs.appendOutput (manager : JobOutputs) (jobId : String) (chunk : Chars) : JobOutputs :=
  if manager.disposed then manager
  else if chunk = [] then manager
  else if manager.jobs jobId = none then manager
  else
    let state := (manager.outputState jobId).getD {}
    { manager with
      outputState := Function.update manager.outputState jobId
        (some (state.append manager.outputRetentionBytes chunk)) }

def OutputChunk.since (effectiveOffset : Nat) (chunk : OutputChunk) : Chars :=
  if chunk.endByte ≤ effectiveOffset then []
  else if chunk.startByte < effectiveOffset then
    sliceTextFromUtf8ByteOffset chunk.text (effectiveOffset - chunk.startByte)
  else chunk.text

/-- An owner filter hides what belongs to other owners; the empty owner is no filter. -/
def hiddenFrom (filter ownerId : Option String) : Bool :=
  filter.elim false fun wanted => wanted ≠ "" && ownerId ≠ some wanted

def JobOutputs.readOutputSince (manager : JobOutputs) (jobId : String) (offset : ℚ)
    (filter : Option String) :
    Option OutputSlice :=
  match manager.jobs jobId with
  | none => none
  | some job =>
    if hiddenFrom filter job.ownerId then none
    else
      match manager.outputState jobId with
      | none => some ⟨jobId, job.status, [], 0, 0, false⟩
      | some state =>
        let requestedOffset := ⌊offset⌋.toNat
        if state.nextOffset ≤ requestedOffset then
          some ⟨jobId, job.status, [], state.startOffset, state.nextOffset, false⟩
        else
          let truncated := decide (requestedOffset < state.startOffset)
          let effectiveOffset := if truncated then state.startOffset else requestedOffset
          some ⟨jobId, job.status, state.chunks.flatMap (OutputChunk.since effectiveOffset),
            state.startOffset, state.nextOffset, truncated⟩

structure Append where
  jobId : String
  chunk : Chars
  deriving DecidableEq

def JobOutputs.appendAll (manager : JobOutputs) (appends : List Append) : JobOutputs :=
  appends.foldl (fun manager append => manager.appendOutput append.jobId append.chunk) manager

def streamOf (jobId : String) (appends : List Append) : Chars :=
  (appends.filter fun append => append.jobId = jobId).flatMap Append.chunk

/-- A reader that goes on at `nextOffset` each time: what it reads after each batch of output. -/
def JobOutputs.follow (manager : JobOutputs) (jobId : String) (offset : ℚ) (filter : Option String) :
    List (List Append) → List OutputSlice
  | [] => []
  | batch :: batches =>
    let manager := manager.appendAll batch
    match manager.readOutputSince jobId offset filter with
    | none => []
    | some slice => slice :: manager.follow jobId slice.nextOffset filter batches

theorem skipWhile_append {consumed offset : Nat} {t u : Chars}
    (h : consumed + byteLength t = offset) :
    skipWhile offset consumed (t ++ u) = u := by
  induction t generalizing consumed with
  | nil =>
    cases u with
    | nil => rfl
    | cons c u =>
      have := c.utf8Size_pos
      rw [byteLength_nil] at h
      rw [List.nil_append, skipWhile, if_pos (by omega)]
  | cons c t ih =>
    rw [byteLength_cons] at h
    rw [List.cons_append, skipWhile, if_neg (by omega)]
    exact ih (by omega)

theorem sliceTextFrom_append (t u : Chars) :
    sliceTextFromUtf8ByteOffset (t ++ u) (byteLength t) = u := by
  rw [sliceTextFromUtf8ByteOffset]
  split
  next h => rw [byteLength_eq_zero.mp h, List.nil_append]
  next => exact skipWhile_append (Nat.zero_add _)

theorem skipUntil_suffix (offset consumed : Nat) (text : Chars) :
    skipUntil offset consumed text <:+ text := by
  induction text generalizing consumed with
  | nil => exact List.suffix_rfl
  | cons c text ih =>
    rw [skipUntil]
    split
    next => exact List.suffix_cons c text
    next => exact (ih _).trans (List.suffix_cons c text)

theorem sliceTextAfter_suffix (text : Chars) (offset : Nat) :
    sliceTextAfterUtf8ByteOffset text offset <:+ text := by
  rw [sliceTextAfterUtf8ByteOffset]
  split
  next => exact List.suffix_rfl
  next => exact skipUntil_suffix offset 0 text

theorem append_of_byteLength_le {a b c d : Chars} (h : a ++ b = c ++ d)
    (hle : byteLength c ≤ byteLength a) :
    ∃ v, a = c ++ v ∧ d = v ++ b := by
  obtain ⟨v, hc, hb⟩ | ⟨v, ha, hd⟩ := List.append_eq_append_iff.mp h
  · have hv : v = [] := byteLength_eq_zero.mp (by rw [hc, byteLength_append] at hle; omega)
    subst hv
    exact ⟨[], by simpa using hc.symm, by simpa using hb.symm⟩
  · exact ⟨v, ha, hd⟩

/-- Chunks that follow each other without a gap, from an offset on. -/
def Contiguous : Nat → List OutputChunk → Prop
  | _, [] => True
  | offset, chunk :: chunks =>
    chunk.startByte = offset ∧ chunk.endByte = offset + byteLength chunk.text ∧
      Contiguous chunk.endByte chunks

def textOf (chunks : List OutputChunk) : Chars := chunks.flatMap OutputChunk.text

section

variable {offset : Nat} {chunk : OutputChunk} {chunks : List OutputChunk}

@[simp] theorem textOf_nil : textOf [] = [] := rfl

@[simp] theorem textOf_cons : textOf (chunk :: chunks) = chunk.text ++ textOf chunks := rfl

theorem contiguous_concat (h : Contiguous offset chunks)
    (hstart : chunk.startByte = offset + byteLength (textOf chunks))
    (hend : chunk.endByte = chunk.startByte + byteLength chunk.text) :
    Contiguous offset (chunks ++ [chunk]) := by
  induction chunks generalizing offset with
  | nil => exact ⟨hstart, by rw [hend, hstart]; simp, trivial⟩
  | cons first chunks ih =>
    obtain ⟨h₁, h₂, h₃⟩ := h
    refine ⟨h₁, h₂, ih h₃ ?_⟩
    rw [hstart, h₂, textOf_cons, byteLength_append, Nat.add_assoc]

theorem Contiguous.endByte_le (h : Contiguous offset chunks) (hchunk : chunk ∈ chunks) :
    chunk.endByte ≤ offset + byteLength (textOf chunks) := by
  induction chunks generalizing offset with
  | nil => cases hchunk
  | cons first chunks ih =>
    obtain ⟨_, hend, h⟩ := h
    rw [textOf_cons, byteLength_append]
    cases hchunk with
    | head => omega
    | tail _ hchunk =>
      have := ih h hchunk
      omega

theorem since_of_le {effectiveOffset : Nat} (h : Contiguous offset chunks)
    (hle : effectiveOffset ≤ offset) :
    chunks.flatMap (OutputChunk.since effectiveOffset) = textOf chunks := by
  induction chunks generalizing offset with
  | nil => rfl
  | cons chunk chunks ih =>
    obtain ⟨hstart, hend, h⟩ := h
    rw [List.flatMap_cons, textOf_cons, ih h (by omega), OutputChunk.since]
    split
    next hnone =>
      have : byteLength chunk.text = 0 := by omega
      rw [byteLength_eq_zero.mp this]
    next => rw [if_neg (by omega)]

theorem since_old {startOffset effectiveOffset : Nat}
    (h : ∀ chunk ∈ chunks, chunk.endByte ≤ startOffset) (hle : startOffset ≤ effectiveOffset) :
    chunks.flatMap (OutputChunk.since effectiveOffset) = [] := by
  refine List.flatMap_eq_nil_iff.mpr fun chunk hchunk => ?_
  rw [OutputChunk.since, if_pos ((h chunk hchunk).trans hle)]

theorem since_append {t u : Chars} (h : Contiguous offset chunks) (htext : textOf chunks = t ++ u) :
    chunks.flatMap (OutputChunk.since (offset + byteLength t)) = u := by
  induction chunks generalizing offset t with
  | nil =>
    rw [textOf_nil] at htext
    rw [(List.append_eq_nil_iff.mp htext.symm).2]
    rfl
  | cons chunk chunks ih =>
    obtain ⟨hstart, hend, h⟩ := h
    rw [textOf_cons] at htext
    obtain ⟨v, ht, hrest⟩ | ⟨v, hchunk, hu⟩ := List.append_eq_append_iff.mp htext
    · -- the boundary is behind this chunk
      have hskip : OutputChunk.since (offset + byteLength t) chunk = [] := by
        rw [OutputChunk.since, if_pos]
        rw [hend, ht, byteLength_append]
        omega
      rw [List.flatMap_cons, hskip, List.nil_append, ← ih h hrest, ht, byteLength_append, hend,
        Nat.add_assoc]
    · have hpart : OutputChunk.since (offset + byteLength t) chunk = v := by
        rw [OutputChunk.since]
        split
        next hnone =>
          rw [hend, hchunk, byteLength_append] at hnone
          exact (byteLength_eq_zero.mp (by omega)).symm
        next =>
          split
          next => rw [hstart, Nat.add_sub_cancel_left, hchunk, sliceTextFrom_append]
          next =>
            have : byteLength t = 0 := by omega
            rw [hchunk, byteLength_eq_zero.mp this, List.nil_append]
      rw [List.flatMap_cons, hpart, hu, since_of_le h]
      rw [hend, hchunk, byteLength_append]
      omega

end

/-- The retained chunks: what is left of output before a gap, and all of the stream from
`startOffset` on. -/
structure Retained (chunks : List OutputChunk) (startOffset retainedBytes : Nat)
    (stream : Chars) : Prop where
  split : ∃ old live before, chunks = old ++ live ∧ (∀ chunk ∈ old, chunk.endByte ≤ startOffset) ∧
    Contiguous startOffset live ∧ stream = before ++ textOf live ∧ byteLength before = startOffset
  sizes : ∀ chunk ∈ chunks, chunk.endByte - chunk.startByte = byteLength chunk.text
  bytes : retainedBytes = byteLength (textOf chunks)

structure OutputState.Wf (state : OutputState) (cap : Nat) (stream : Chars) : Prop where
  retained : Retained state.chunks state.startOffset state.retainedBytes stream
  nextOffset : state.nextOffset = byteLength stream
  le_cap : state.retainedBytes ≤ cap

section

variable {cap startOffset retainedBytes : Nat} {chunks : List OutputChunk} {stream : Chars}
    {state : OutputState}

theorem Retained.drop {dropped : OutputChunk}
    (h : Retained (dropped :: chunks) startOffset retainedBytes stream) :
    Retained chunks (max startOffset dropped.endByte)
      (retainedBytes - (dropped.endByte - dropped.startByte))
      stream where
  split := by
    obtain ⟨old, live, before, hchunks, hold, hlive, hstream, hbefore⟩ := h.split
    cases old with
    | nil =>
      rw [List.nil_append] at hchunks
      subst hchunks
      obtain ⟨hstart, hend, hlive⟩ := hlive
      have hmax : max startOffset dropped.endByte = dropped.endByte := max_eq_right (by omega)
      rw [hmax]
      refine ⟨[], chunks, before ++ dropped.text, rfl, by simp, hlive, ?_, ?_⟩
      · rw [hstream, textOf_cons, List.append_assoc]
      · rw [byteLength_append, hbefore, hend]
    | cons chunk old =>
      rw [List.cons_append, List.cons.injEq] at hchunks
      obtain ⟨rfl, rfl⟩ := hchunks
      have hmax : max startOffset dropped.endByte = startOffset :=
        max_eq_left (hold dropped List.mem_cons_self)
      rw [hmax]
      exact ⟨old, live, before, rfl, fun chunk hchunk => hold chunk (List.mem_cons_of_mem _ hchunk),
        hlive, hstream, hbefore⟩
  sizes chunk hchunk := h.sizes chunk (List.mem_cons_of_mem dropped hchunk)
  bytes := by
    rw [h.bytes, h.sizes dropped List.mem_cons_self, textOf_cons, byteLength_append,
      Nat.add_sub_cancel_left]

theorem evict_wf (h : Retained chunks startOffset retainedBytes stream)
    (hnext : state.nextOffset = byteLength stream) :
    (evict cap chunks startOffset retainedBytes state).Wf cap stream := by
  induction chunks generalizing startOffset retainedBytes with
  | nil => exact ⟨h, hnext, h.bytes.trans_le (Nat.zero_le cap)⟩
  | cons dropped chunks ih =>
    rw [evict]
    split
    next => exact ih h.drop
    next hfits => exact ⟨h, hnext, not_lt.mp hfits⟩

theorem Retained.concat {skipped kept : Chars}
    (h : Retained chunks startOffset retainedBytes stream) :
    Retained (chunks ++ [⟨byteLength stream + byteLength skipped,
        byteLength stream + byteLength skipped + byteLength kept, kept⟩])
      (if 0 < byteLength skipped then max startOffset (byteLength stream + byteLength skipped)
        else startOffset)
      (retainedBytes + byteLength kept) (stream ++ (skipped ++ kept)) where
  split := by
    obtain ⟨old, live, before, rfl, hold, hlive, hstream, hbefore⟩ := h.split
    have hlength : byteLength stream = startOffset + byteLength (textOf live) := by
      rw [hstream, byteLength_append, hbefore]
    split
    next hpos =>
      have hmax : max startOffset (byteLength stream + byteLength skipped) =
          byteLength stream + byteLength skipped := max_eq_right (by omega)
      rw [hmax]
      refine ⟨old ++ live, [_], stream ++ skipped, rfl, fun chunk hchunk => ?_,
        ⟨rfl, rfl, trivial⟩, ?_, ?_⟩
      · obtain hchunk | hchunk := List.mem_append.mp hchunk
        · exact (hold chunk hchunk).trans (by omega)
        · exact (hlive.endByte_le hchunk).trans (by omega)
      · simp
      · rw [byteLength_append]
    next hzero =>
      have hnil : skipped = [] := byteLength_eq_zero.mp (by omega)
      subst hnil
      refine ⟨old, live ++ [_], before, List.append_assoc .., hold,
        contiguous_concat hlive ?_ rfl, ?_, hbefore⟩
      · simpa using hlength
      · simp [hstream, textOf]
  sizes chunk hchunk := by
    obtain hchunk | hchunk := List.mem_append.mp hchunk
    · exact h.sizes chunk hchunk
    · rw [List.mem_singleton.mp hchunk]
      exact Nat.add_sub_cancel_left ..
  bytes := by
    simp [h.bytes, textOf]

theorem OutputState.Wf.append (h : state.Wf cap stream) (chunk : Chars) :
    (state.append cap chunk).Wf cap (stream ++ chunk) := by
  have hkept : ∃ skipped, chunk = skipped ++
      (if cap < byteLength chunk then sliceTextAfterUtf8ByteOffset chunk (byteLength chunk - cap)
      else chunk) := by
    split
    next =>
      obtain ⟨skipped, hchunk⟩ := sliceTextAfter_suffix chunk (byteLength chunk - cap)
      exact ⟨skipped, hchunk.symm⟩
    next => exact ⟨[], rfl⟩
  rw [OutputState.append]
  generalize (if cap < byteLength chunk
    then sliceTextAfterUtf8ByteOffset chunk (byteLength chunk - cap) else chunk) =
    kept at hkept
  obtain ⟨skipped, rfl⟩ := hkept
  have hskipped : byteLength (skipped ++ kept) - byteLength kept = byteLength skipped := by
    rw [byteLength_append, Nat.add_sub_cancel]
  simp only [hskipped, h.nextOffset]
  refine evict_wf h.retained.concat ?_
  simp only [byteLength_append, Nat.add_assoc]

end

def JobOutputs.Wf (manager : JobOutputs) (appends : List Append) : Prop :=
  ∀ jobId, manager.jobs jobId ≠ none →
    ((manager.outputState jobId).getD {}).Wf manager.outputRetentionBytes (streamOf jobId appends)

section

variable {manager : JobOutputs} {appends : List Append} {jobId : String}

@[simp] theorem appendOutput_jobs (jobId : String) (chunk : Chars) :
    (manager.appendOutput jobId chunk).jobs = manager.jobs := by
  unfold JobOutputs.appendOutput
  repeat' split
  all_goals rfl

@[simp] theorem appendOutput_disposed (jobId : String) (chunk : Chars) :
    (manager.appendOutput jobId chunk).disposed = manager.disposed := by
  unfold JobOutputs.appendOutput
  repeat' split
  all_goals rfl

@[simp] theorem appendOutput_outputRetentionBytes (jobId : String) (chunk : Chars) :
    (manager.appendOutput jobId chunk).outputRetentionBytes = manager.outputRetentionBytes := by
  unfold JobOutputs.appendOutput
  repeat' split
  all_goals rfl

theorem streamOf_concat (append : Append) :
    streamOf jobId (appends ++ [append]) =
      streamOf jobId appends ++ if append.jobId = jobId then append.chunk else [] := by
  by_cases h : append.jobId = jobId <;> simp [streamOf, h]

theorem JobOutputs.Wf.append (h : manager.Wf appends) (hlive : manager.disposed = false)
    (append : Append) :
    (manager.appendOutput append.jobId append.chunk).Wf (appends ++ [append]) := by
  intro jobId hjob
  rw [appendOutput_jobs] at hjob
  have hstate := h jobId hjob
  rw [appendOutput_outputRetentionBytes, streamOf_concat]
  by_cases hthis : append.jobId = jobId
  · subst hthis
    rw [if_pos rfl, JobOutputs.appendOutput, if_neg (by simp [hlive])]
    by_cases hempty : append.chunk = []
    · simpa [hempty] using hstate
    · rw [if_neg hempty, if_neg hjob]
      simpa using hstate.append append.chunk
  · rw [if_neg hthis, List.append_nil, JobOutputs.appendOutput]
    repeat' split
    · exact hstate
    · exact hstate
    · exact hstate
    · simpa [Function.update_of_ne (Ne.symm hthis)] using hstate

theorem JobOutputs.Wf.appendAll (h : manager.Wf appends) (hlive : manager.disposed = false)
    (more : List Append) :
    (manager.appendAll more).Wf (appends ++ more) ∧ (manager.appendAll more).jobs = manager.jobs ∧
      (manager.appendAll more).disposed = false ∧
      (manager.appendAll more).outputRetentionBytes = manager.outputRetentionBytes := by
  induction more generalizing manager appends with
  | nil => exact ⟨by simpa [JobOutputs.appendAll] using h, rfl, hlive, rfl⟩
  | cons append more ih =>
    obtain ⟨hwf, hjobs, hdisposed, hcap⟩ := ih (h.append hlive append) (by simpa using hlive)
    rw [List.append_assoc] at hwf
    exact ⟨hwf, hjobs.trans (appendOutput_jobs ..), hdisposed,
      hcap.trans (appendOutput_outputRetentionBytes ..)⟩

/-- The offset is where a character of the stream begins, or its end. -/
def IsBoundary (stream : Chars) (offset : Nat) : Prop :=
  ∃ before, before <+: stream ∧ byteLength before = offset

theorem readOutputSince_spec {job : OutputJob} {filter : Option String} (h : manager.Wf appends)
    (hjob : manager.jobs jobId = some job)
    (hfilter : hiddenFrom filter job.ownerId = false) {offset : ℚ}
    (hoffset : IsBoundary (streamOf jobId appends) ⌊offset⌋.toNat) :
    ∃ slice before, manager.readOutputSince jobId offset filter = some slice ∧
      slice.nextOffset = byteLength (streamOf jobId appends) ∧
      slice.truncated = decide (⌊offset⌋.toNat < slice.startOffset) ∧
      streamOf jobId appends = before ++ slice.text ∧
        byteLength before = max ⌊offset⌋.toNat slice.startOffset := by
  have hwf := h jobId (by rw [hjob]; exact Option.some_ne_none job)
  obtain ⟨first, ⟨rest, hstream⟩, hfirst⟩ := hoffset
  rw [← hfirst, ← hstream]
  rw [← hstream] at hwf
  simp only [JobOutputs.readOutputSince, hjob, hfilter, ← hfirst]
  cases hstate : manager.outputState jobId with
  | none =>
    rw [hstate] at hwf
    have hzero := hwf.nextOffset
    simp only [Option.getD_none, byteLength_append] at hzero
    refine ⟨_, first ++ rest, rfl, by simpa using hzero, rfl, by simp, ?_⟩
    simp only [byteLength_append]
    omega
  | some state =>
    rw [hstate, Option.getD_some] at hwf
    obtain ⟨old, live, before, hchunks, hold, hlive, hsplit, hbefore⟩ := hwf.retained.split
    have hnext := hwf.nextOffset
    simp only [Bool.false_eq_true, ↓reduceIte]
    split
    next hend =>
      have hle : state.startOffset ≤ state.nextOffset := by
        rw [hnext, hsplit, byteLength_append]
        omega
      rw [hnext, byteLength_append] at hend
      have hrest : rest = [] := byteLength_eq_zero.mp (by omega)
      refine ⟨_, first, rfl, hnext, ?_, by simp [hrest], ?_⟩
      · rw [hnext, byteLength_append] at hle
        simp
        omega
      · rw [hnext, byteLength_append] at hle
        simp only
        omega
    next hend =>
      by_cases htruncated : byteLength first < state.startOffset
      · refine ⟨_, before, rfl, hnext, rfl, ?_, ?_⟩
        · simp only [htruncated, decide_true, ↓reduceIte]
          rw [hchunks, List.flatMap_append, since_old hold le_rfl, since_of_le hlive le_rfl]
          exact hsplit
        · rw [hbefore, max_eq_right htruncated.le]
      · have hle : state.startOffset ≤ byteLength first := not_lt.mp htruncated
        obtain ⟨v, hv, hlivetext⟩ := append_of_byteLength_le hsplit (hbefore.trans_le hle)
        have hoffset : byteLength first = state.startOffset + byteLength v := by
          rw [hv, byteLength_append, hbefore]
        refine ⟨_, first, rfl, hnext, rfl, ?_, ?_⟩
        · simp only [htruncated, decide_false, Bool.false_eq_true, ↓reduceIte]
          rw [hchunks, List.flatMap_append, since_old hold hle, hoffset,
            since_append hlive hlivetext]
          rfl
        · rw [max_eq_left hle]

theorem follow_spec {job : OutputJob} {filter : Option String} (h : manager.Wf appends)
    (hlive : manager.disposed = false) (hjob : manager.jobs jobId = some job)
    (hfilter : hiddenFrom filter job.ownerId = false) (batches : List (List Append)) {offset : ℚ}
    (hoffset : IsBoundary (streamOf jobId appends) ⌊offset⌋.toNat)
    (hkept : ∀ slice ∈ manager.follow jobId offset filter batches, slice.truncated = false)
    (hne : batches ≠ []) :
    (manager.follow jobId offset filter batches).length = batches.length ∧
      ∃ before, byteLength before = ⌊offset⌋.toNat ∧ streamOf jobId (appends ++ batches.flatten) =
        before ++ (manager.follow jobId offset filter batches).flatMap OutputSlice.text := by
  induction batches generalizing manager appends offset with
  | nil => exact absurd rfl hne
  | cons batch batches ih =>
    obtain ⟨hwf, hjobs, hdisposed, _⟩ := h.appendAll hlive batch
    have hjob' : (manager.appendAll batch).jobs jobId = some job := by rw [hjobs, hjob]
    have hlater : IsBoundary (streamOf jobId (appends ++ batch)) ⌊offset⌋.toNat := by
      obtain ⟨first, hfirst, hbytes⟩ := hoffset
      refine ⟨first, hfirst.trans ?_, hbytes⟩
      simp only [streamOf, List.filter_append, List.flatMap_append]
      exact List.prefix_append _ _
    obtain ⟨slice, before, hread, hnext, htruncated, hstream, hbefore⟩ :=
      readOutputSince_spec hwf hjob' hfilter hlater
    have hfollow : manager.follow jobId offset filter (batch :: batches) =
        slice :: (manager.appendAll batch).follow jobId slice.nextOffset filter batches := by
      rw [JobOutputs.follow, hread]
    rw [hfollow] at hkept ⊢
    have hcut : slice.truncated = false := hkept slice List.mem_cons_self
    rw [hcut, eq_comm, decide_eq_false_iff_not, not_lt] at htruncated
    rw [max_eq_left htruncated] at hbefore
    by_cases hlast : batches = []
    · subst hlast
      exact ⟨rfl, before, hbefore, by simpa [JobOutputs.follow] using hstream⟩
    · have hfloor : ⌊(slice.nextOffset : ℚ)⌋.toNat =
          byteLength (streamOf jobId (appends ++ batch)) := by
        simp [hnext]
      have hon : IsBoundary (streamOf jobId (appends ++ batch)) ⌊(slice.nextOffset : ℚ)⌋.toNat :=
        ⟨_, List.prefix_rfl, hfloor.symm⟩
      obtain ⟨hlength, before', hbefore', hrest⟩ := ih hwf hdisposed hjob' hon
        (fun s hs => hkept s (List.mem_cons_of_mem _ hs)) hlast
      refine ⟨congrArg (· + 1) hlength, before, hbefore, ?_⟩
      have hmore : streamOf jobId (appends ++ batch ++ batches.flatten) =
          streamOf jobId (appends ++ batch) ++ streamOf jobId batches.flatten := by
        simp [streamOf]
      obtain ⟨v, hv, _⟩ :=
        append_of_byteLength_le (hrest.symm.trans hmore) (hbefore'.trans hfloor).ge
      have hnil : v = [] := by
        have := congrArg byteLength hv
        rw [byteLength_append, hbefore', hfloor] at this
        exact byteLength_eq_zero.mp (by omega)
      rw [hnil, List.append_nil] at hv
      rw [List.flatten_cons, ← List.append_assoc, hrest, hv, hstream, List.flatMap_cons,
        List.append_assoc]

theorem wf_of_fresh (hfresh : ∀ jobId, manager.outputState jobId = none) : manager.Wf [] := by
  intro jobId _
  rw [hfresh jobId]
  exact ⟨⟨⟨[], [], [], rfl, by simp, trivial, rfl, rfl⟩, by simp, rfl⟩, rfl, Nat.zero_le _⟩

end

theorem output_is_followed {manager : JobOutputs} {jobId : String} {job : OutputJob}
    {filter : Option String} (hlive : manager.disposed = false)
    (hfresh : ∀ jobId, manager.outputState jobId = none) (hjob : manager.jobs jobId = some job)
    (hfilter : hiddenFrom filter job.ownerId = false) (appends : List Append) :
    (∀ state ∈ (manager.appendAll appends).outputState jobId,
      state.retainedBytes = byteLength (textOf state.chunks) ∧
        state.retainedBytes ≤ manager.outputRetentionBytes) ∧
    (∀ offset : ℚ, IsBoundary (streamOf jobId appends) ⌊offset⌋.toNat →
      ∃ slice before, (manager.appendAll appends).readOutputSince jobId offset filter = some slice ∧
        slice.nextOffset = byteLength (streamOf jobId appends) ∧
        slice.truncated = decide (⌊offset⌋.toNat < slice.startOffset) ∧
        streamOf jobId appends = before ++ slice.text ∧
          byteLength before = max ⌊offset⌋.toNat slice.startOffset) ∧
    ∀ (offset : ℚ) (batches : List (List Append)),
      IsBoundary (streamOf jobId appends) ⌊offset⌋.toNat →
      batches ≠ [] →
      (∀ slice ∈ (manager.appendAll appends).follow jobId offset filter batches,
        slice.truncated = false) →
      ((manager.appendAll appends).follow jobId offset filter batches).length = batches.length ∧
        ∃ before, byteLength before = ⌊offset⌋.toNat ∧ streamOf jobId (appends ++ batches.flatten) =
          before ++ ((manager.appendAll appends).follow jobId offset filter batches).flatMap
            OutputSlice.text := by
  obtain ⟨hwf, hjobs, hdisposed, hcap⟩ := (wf_of_fresh hfresh).appendAll hlive appends
  rw [List.nil_append] at hwf
  have hjob' : (manager.appendAll appends).jobs jobId = some job := by rw [hjobs, hjob]
  refine ⟨fun state hstate => ?_,
    fun offset hoffset => readOutputSince_spec hwf hjob' hfilter hoffset,
    fun offset batches hoffset hne hkept =>
    follow_spec hwf hdisposed hjob' hfilter batches hoffset hkept hne⟩
  have hstatewf := hwf jobId (by rw [hjob']; exact Option.some_ne_none job)
  rw [Option.mem_def.mp hstate, hcap] at hstatewf
  exact ⟨hstatewf.retained.bytes, hstatewf.le_cap⟩

theorem output_is_followed_over_gap :
    ∃ manager : JobOutputs, manager.outputRetentionBytes = 5 ∧
      ∃ slice before, (manager.appendAll [⟨"j", ['a']⟩, ⟨"j", ['b', '€', '€']⟩]).readOutputSince "j"
        0 none =
          some slice ∧
        streamOf "j" [⟨"j", ['a']⟩, ⟨"j", ['b', '€', '€']⟩] = before ++ slice.text ∧
        byteLength before = max 0 slice.startOffset := by
  refine ⟨⟨false, 5, fun _ => some ⟨.running, none⟩, fun _ => none⟩, rfl, ?_⟩
  obtain ⟨slice, before, hread, _, _, hstream, hbefore⟩ := (@output_is_followed
    ⟨false, 5, fun _ => some ⟨.running, none⟩, fun _ => none⟩ "j" ⟨.running, none⟩ none rfl
    (fun _ => rfl) rfl rfl
    [⟨"j", ['a']⟩, ⟨"j", ['b', '€', '€']⟩]).2.1 0 ⟨[], List.nil_prefix, by simp⟩
  exact ⟨slice, before, hread, hstream, by simpa using hbefore⟩

end JevCode.Async
