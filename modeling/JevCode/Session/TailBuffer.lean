import JevCode.Session.OutputSink

namespace JevCode.Session

open JevCode.Text

def maxPending : Nat := 10

structure TailBuffer where
  pending : List Chars
  pos : Nat

namespace TailBuffer

def new : TailBuffer := ⟨[], 0⟩

variable (maxBytes : Nat)

def compact (b : TailBuffer) : TailBuffer := { b with pending := [b.pending.flatten] }

def flush (b : TailBuffer) : Chars × TailBuffer :=
  match b.pending with
  | [] => ([], b)
  | [text] => (text, b)
  | _ => (b.pending.flatten, b.compact)

def trimTo (b : TailBuffer) (max : Nat) : TailBuffer :=
  if max = 0 then ⟨[], 0⟩
  else if b.pos ≤ max then b
  else
    let trimmed := truncateTailBytes b.flush.1 max
    ⟨[trimmed.1], trimmed.2⟩

def append (b : TailBuffer) (text : Chars) : TailBuffer :=
  if text = [] then b
  else if maxBytes = 0 then ⟨[], 0⟩
  else
    let n := byteLength text
    if maxBytes ≤ n then
      let trimmed := truncateTailBytes text maxBytes
      ⟨[trimmed.1], trimmed.2⟩
    else
      let b := { b with pos := b.pos + n }
      let b :=
        if b.pending = [] then { b with pending := [text] }
        else
          let b := { b with pending := b.pending ++ [text] }
          if maxPending < b.pending.length then b.compact else b
      if maxBytes * 2 < b.pos then b.trimTo maxBytes else b

def text (b : TailBuffer) : Chars × TailBuffer := (b.trimTo maxBytes).flush

def bytes (b : TailBuffer) : Nat × TailBuffer :=
  let b := b.trimTo maxBytes
  (b.pos, b)

end TailBuffer

inductive TailBufferCall
  | append (chunk : Chars)
  | text
  | bytes

namespace TailBuffer

def step (maxBytes : Nat) (b : TailBuffer) : TailBufferCall → TailBuffer
  | .append chunk => b.append maxBytes chunk
  | .text => (b.text maxBytes).2
  | .bytes => (b.bytes maxBytes).2

def appended : List TailBufferCall → Chars
  | [] => []
  | .append chunk :: calls => chunk ++ appended calls
  | _ :: calls => appended calls

/-- The buffer holds enough of the end of `all`, and counts what it holds. -/
structure Holds (maxBytes : Nat) (b : TailBuffer) (all : Chars) : Prop where
  pos_eq : b.pos = byteLength b.pending.flatten
  tail_eq : fitSuffix maxBytes b.pending.flatten = fitSuffix maxBytes all

variable {maxBytes : Nat} {b : TailBuffer} {all : Chars}

theorem flush_fst (b : TailBuffer) : b.flush.1 = b.pending.flatten := by
  unfold flush
  split
  next h => rw [h]; rfl
  next h => rw [h]; simp
  next => rfl

theorem Holds.flush (h : Holds maxBytes b all) : Holds maxBytes b.flush.2 all := by
  unfold TailBuffer.flush
  split
  · exact h
  · exact h
  · exact ⟨by simpa [compact] using h.pos_eq, by simpa [compact] using h.tail_eq⟩

theorem holds_truncated {t : Chars} (h : fitSuffix maxBytes t = fitSuffix maxBytes all) :
    Holds maxBytes ⟨[(truncateTailBytes t maxBytes).1], (truncateTailBytes t maxBytes).2⟩ all := by
  rw [truncateTailBytes_eq]
  exact ⟨by simp, by simpa [fitSuffix_fitSuffix] using h⟩

theorem Holds.trimTo (h : Holds maxBytes b all) :
    Holds maxBytes (b.trimTo maxBytes) all ∧
      (b.trimTo maxBytes).pending.flatten = fitSuffix maxBytes all := by
  unfold TailBuffer.trimTo
  split
  next hzero =>
    subst hzero
    exact ⟨⟨rfl, by simp [fitSuffix_zero]⟩, by simp [fitSuffix_zero]⟩
  next =>
    split
    next hfits =>
      refine ⟨h, ?_⟩
      rw [← h.tail_eq, fitSuffix_of_le (h.pos_eq ▸ hfits)]
    next =>
      dsimp only
      rw [flush_fst]
      refine ⟨holds_truncated h.tail_eq, ?_⟩
      rw [truncateTailBytes_eq]
      simpa using h.tail_eq

theorem Holds.trimLazily (h : Holds maxBytes b all) :
    Holds maxBytes (if maxBytes * 2 < b.pos then b.trimTo maxBytes else b) all := by
  split
  · exact h.trimTo.1
  · exact h

theorem Holds.append (h : Holds maxBytes b all) (chunk : Chars) :
    Holds maxBytes (b.append maxBytes chunk) (all ++ chunk) := by
  unfold TailBuffer.append
  split
  next hnil => simpa [hnil] using h
  next =>
    split
    next hzero =>
      subst hzero
      exact ⟨rfl, by simp [fitSuffix_zero]⟩
    next =>
      dsimp only
      split
      next hdominates =>
        refine holds_truncated ?_
        obtain hlt | heq := Nat.lt_or_eq_of_le hdominates
        · rw [fitSuffix_append_of_lt hlt]
        · rw [fitSuffix_append_of_le (Nat.le_of_eq heq.symm), ← heq, Nat.sub_self, fitSuffix_zero,
            List.nil_append, fitSuffix_of_le (Nat.le_of_eq heq.symm)]
      next =>
        have hpushed : ∀ pending, pending.flatten = b.pending.flatten ++ chunk →
            Holds maxBytes ⟨pending, b.pos + byteLength chunk⟩ (all ++ chunk) := by
          intro pending hpending
          refine ⟨?_, ?_⟩
          · simp only [hpending, byteLength_append, h.pos_eq]
          · simp only [hpending]
            exact fitSuffix_append_congr h.tail_eq chunk
        have hheld : Holds maxBytes
            (if b.pending = [] then ⟨[chunk], b.pos + byteLength chunk⟩
            else if maxPending < (b.pending ++ [chunk]).length then
              compact ⟨b.pending ++ [chunk], b.pos + byteLength chunk⟩
            else ⟨b.pending ++ [chunk], b.pos + byteLength chunk⟩) (all ++ chunk) := by
          split
          next hempty => exact hpushed _ (by simp [hempty])
          next =>
            split
            · exact hpushed _ (by simp)
            · exact hpushed _ (by simp)
        exact hheld.trimLazily

theorem Holds.step (h : Holds maxBytes b all) (call : TailBufferCall) :
    Holds maxBytes (b.step maxBytes call) (all ++ appended [call]) := by
  cases call with
  | append chunk => simpa [appended, TailBuffer.step] using h.append chunk
  | text => simpa [appended, TailBuffer.step, TailBuffer.text] using h.trimTo.1.flush
  | bytes => simpa [appended, TailBuffer.step, TailBuffer.bytes] using h.trimTo.1

theorem appended_cons (call : TailBufferCall) (calls : List TailBufferCall) :
    appended (call :: calls) = appended [call] ++ appended calls := by
  cases call <;> simp [appended]

theorem Holds.run (h : Holds maxBytes b all) (calls : List TailBufferCall) :
    Holds maxBytes (calls.foldl (TailBuffer.step maxBytes) b) (all ++ appended calls) := by
  induction calls generalizing b all with
  | nil => simpa [appended] using h
  | cons call calls ih =>
    rw [List.foldl_cons, appended_cons, ← List.append_assoc]
    exact ih (h.step call)

end TailBuffer

/-- After any calls, `text()` is what `truncateTailBytes` leaves of everything appended, and
`bytes()` its length. -/
theorem tailBuffer_eq_truncateTailBytes (maxBytes : Nat) (calls : List TailBufferCall) :
    let b := calls.foldl (TailBuffer.step maxBytes) .new
    let kept := truncateTailBytes (TailBuffer.appended calls) maxBytes
    (b.text maxBytes).1 = kept.1 ∧ (b.bytes maxBytes).1 = byteLength kept.1 := by
  intro b kept
  have hholds : TailBuffer.Holds maxBytes b (TailBuffer.appended calls) :=
    TailBuffer.Holds.run (show TailBuffer.Holds maxBytes .new [] from ⟨rfl, rfl⟩) calls
  obtain ⟨htrimmed, hflatten⟩ := hholds.trimTo
  have hkept : kept.1 = fitSuffix maxBytes (TailBuffer.appended calls) := by
    simp only [kept, truncateTailBytes_eq]
  rw [hkept]
  refine ⟨?_, ?_⟩
  · rw [TailBuffer.text, TailBuffer.flush_fst, hflatten]
  · rw [TailBuffer.bytes, ← hflatten]
    exact htrimmed.pos_eq

end JevCode.Session
