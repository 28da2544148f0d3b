import JevCode.Data.Turns
import JevCode.Sdk.RateLimitPoolLaws

namespace JevCode.Sdk

open JevCode.Data

variable {T : Type}

def sessionIds (queue : List (QueuedItem T)) : List String := queue.map fun q => q.item.sessionId

namespace RateLimitPool

/-- A step of the pool: the item it grants, if any, and the pool after it. -/
structure Moment (T : Type) where
  granted : Option (IdentifiedItem T)
  pool : RateLimitPool T

def nextLane (pool : RateLimitPool T) : Option RateLimitLane :=
  lanePriority.find? fun lane => !(pool.lanes lane).isEmpty

def taken (pool : RateLimitPool T) (lane : RateLimitLane) : RateLimitPool T :=
  let (picked, cursor) := pool.pickFairIndex lane (pool.lanes lane)
  { pool.setLane lane ((pool.lanes lane).eraseIdx picked) with
    laneCursor := Function.update pool.laneCursor lane cursor }

def afterGrant (pool : RateLimitPool T) : Option (RateLimitPool T) :=
  match pool.takeNext with
  | .ok (served, some _) => some { served with tokens := served.tokens - 1 }
  | _ => none

/-- The rounds of `drainLoop`. When `markSending` throws, the item has left its lane without a grant.
-/
def drainMoments (pool : RateLimitPool T) : Nat → List (Moment T)
  | 0 => []
  | rounds + 1 =>
    if 1 ≤ pool.tokens then
      match pool.takeNext with
      | .ok (_, none) => []
      | .ok (served, some item) =>
        ⟨some item, { served with tokens := served.tokens - 1 }⟩ ::
          drainMoments { served with tokens := served.tokens - 1 } rounds
      | .error _ => (pool.nextLane.map fun lane => ⟨none, pool.taken lane⟩).toList
    else []

def expire (pool : RateLimitPool T) (nowMs : ℚ) : RateLimitPool T :=
  ((pool.refill nowMs).removeWhere (fun item => item.deadlineAt.elim false (· ≤ nowMs)) .expired).1

def callMoments (pool : RateLimitPool T) : Call T → List (Moment T)
  | .submit item => [⟨none, pool.submit item⟩]
  | .removeWhere predicate disposition => [⟨none, (pool.removeWhere predicate disposition).1⟩]
  | .removeById itemId => [⟨none, (pool.removeById itemId).1⟩]
  | .drain nowMs =>
    ⟨none, pool.expire nowMs⟩ :: (pool.expire nowMs).drainMoments (pool.expire nowMs).pending

def lastPool (pool : RateLimitPool T) (moments : List (Moment T)) : RateLimitPool T :=
  (moments.getLast?.map Moment.pool).getD pool

def moments (pool : RateLimitPool T) : List (Call T) → List (Moment T)
  | [] => []
  | call :: calls => pool.callMoments call ++ moments (pool.lastPool (pool.callMoments call)) calls

def Moment.turn (lane : RateLimitLane) (moment : Moment T) : Turn (RateLimitPool T) String where
  granted := (moment.granted.filter fun item => item.lane = lane).map IdentifiedItem.sessionId
  after := moment.pool

def QueuedIn (lane : RateLimitLane) (pool : RateLimitPool T) (session : String) : Prop :=
  session ∈ sessionIds (pool.lanes lane)

instance (lane : RateLimitLane) (pool : RateLimitPool T) (session : String) :
    Decidable (QueuedIn lane pool session) :=
  inferInstanceAs (Decidable (_ ∈ _))

def cursorOf (pool : RateLimitPool T) (lane : RateLimitLane) : Nat := (pool.laneCursor lane).getD 0

def turnOf (pool : RateLimitPool T) (lane : RateLimitLane) : Nat :=
  pool.cursorOf lane % (sessionsOf (pool.lanes lane)).length

def StaysInPlace (pool : RateLimitPool T) (lane : RateLimitLane) : Prop :=
  ∀ session ∈ (sessionsOf (pool.lanes lane))[pool.turnOf lane]?,
    ∀ next ∈ (sessionsOf (pool.lanes lane))[pool.turnOf lane + 1]?,
      2 ≤ ((sessionIds (pool.lanes lane)).takeWhile (· ≠ next)).count session

def PromiseOpen (pool : RateLimitPool T) (lane : RateLimitLane) : Prop :=
  ∀ session ∈ (sessionsOf (pool.lanes lane))[pool.turnOf lane]?,
    ∀ q ∈ (pool.lanes lane).find? fun q =>
    q.item.sessionId = session, q.item.itemId ∈ pool.settlements

def LeavesInPlace (cursor : Nat) (queue kept : List (QueuedItem T)) : Prop :=
  kept = [] ∨ (sessionsOf queue).take cursor <+: sessionsOf kept ∧
    ((sessionsOf kept).drop cursor).Sublist ((sessionsOf queue).drop cursor)

def RemovalKeepsTurns (pool : RateLimitPool T) (predicate : IdentifiedItem T → Bool) : Prop :=
  ∀ lane ∈ lanePriority, LeavesInPlace (pool.cursorOf lane) (pool.lanes lane)
    ((pool.lanes lane).filter fun queued => !predicate queued.item)

def DrainKeepsTurns (pool : RateLimitPool T) : Nat → Prop
  | 0 => True
  | rounds + 1 =>
    1 ≤ pool.tokens → (∀ lane ∈ pool.nextLane, pool.StaysInPlace lane ∧ pool.PromiseOpen lane) ∧
      ∀ served ∈ pool.afterGrant, served.DrainKeepsTurns rounds

def CallKeepsTurns (pool : RateLimitPool T) : Call T → Prop
  | .submit _ => True
  | .removeWhere predicate _ => pool.RemovalKeepsTurns predicate
  | .removeById itemId => ∀ lane ∈ lanePriority, LeavesInPlace (pool.cursorOf lane) (pool.lanes lane)
      ((pool.removeById itemId).1.lanes lane)
  | .drain nowMs => pool.RemovalKeepsTurns (fun item => item.deadlineAt.elim false (· ≤ nowMs)) ∧
      (pool.expire nowMs).DrainKeepsTurns (pool.expire nowMs).pending

def KeepsTurns (pool : RateLimitPool T) : List (Call T) → Prop
  | [] => True
  | call :: calls =>
    pool.CallKeepsTurns call ∧ (pool.lastPool (pool.callMoments call)).KeepsTurns calls

section

variable (pool : RateLimitPool T)

instance (lane : RateLimitLane) : Decidable (pool.StaysInPlace lane) :=
  inferInstanceAs (Decidable (∀ session ∈ _, ∀ next ∈ _, _ ≤ _))

instance (lane : RateLimitLane) : Decidable (pool.PromiseOpen lane) :=
  inferInstanceAs (Decidable (∀ session ∈ _, ∀ q ∈ _, _ ∈ _))

instance (cursor : Nat) (queue : List (QueuedItem T)) :
    ∀ kept, Decidable (LeavesInPlace cursor queue kept)
  | [] => isTrue (.inl rfl)
  | q :: kept => decidable_of_iff ((sessionsOf queue).take cursor <+: sessionsOf (q :: kept) ∧
      ((sessionsOf (q :: kept)).drop cursor).Sublist ((sessionsOf queue).drop cursor))
      (by simp [LeavesInPlace])

instance (predicate : IdentifiedItem T → Bool) : Decidable (pool.RemovalKeepsTurns predicate) :=
  inferInstanceAs (Decidable (∀ lane ∈ lanePriority, _))

instance DrainKeepsTurns.decidable :
    ∀ (pool : RateLimitPool T) (rounds : Nat), Decidable (pool.DrainKeepsTurns rounds)
  | _, 0 => isTrue trivial
  | pool, rounds + 1 =>
    have : ∀ served : RateLimitPool T, Decidable (served.DrainKeepsTurns rounds) :=
      fun served => DrainKeepsTurns.decidable served rounds
    inferInstanceAs (Decidable (_ ≤ _ → _ ∧ ∀ served ∈ pool.afterGrant, _))

instance CallKeepsTurns.decidable : ∀ call : Call T, Decidable (pool.CallKeepsTurns call)
  | .submit _ => isTrue trivial
  | .removeWhere predicate _ => inferInstanceAs (Decidable (pool.RemovalKeepsTurns predicate))
  | .removeById _ => inferInstanceAs (Decidable (∀ lane ∈ lanePriority, _))
  | .drain _ => inferInstanceAs (Decidable (_ ∧ _))

instance KeepsTurns.decidable :
    ∀ (pool : RateLimitPool T) (calls : List (Call T)), Decidable (pool.KeepsTurns calls)
  | _, [] => isTrue trivial
  | pool, call :: calls =>
    have := KeepsTurns.decidable (pool.lastPool (pool.callMoments call)) calls
    inferInstanceAs (Decidable (_ ∧ _))

end

end RateLimitPool

namespace RateLimitPool

section

variable {queue : List (QueuedItem T)} {session : String}

@[simp] theorem sessionIds_append (xs ys : List (QueuedItem T)) :
    sessionIds (xs ++ ys) = sessionIds xs ++ sessionIds ys :=
  List.map_append

@[simp] theorem sessionIds_cons (q : QueuedItem T) (queue : List (QueuedItem T)) :
    sessionIds (q :: queue) = q.item.sessionId :: sessionIds queue :=
  rfl

theorem sessionsOf_eq (queue : List (QueuedItem T)) :
    sessionsOf queue = (sessionIds queue).eraseDups := by
  have := foldl_firsts (sessionIds queue) []
  rw [sessionIds, List.foldl_map, List.removeAll_nil, List.nil_append] at this
  exact this

theorem nodup_sessionsOf (queue : List (QueuedItem T)) : (sessionsOf queue).Nodup := by
  rw [sessionsOf_eq]
  exact nodup_eraseDups _

theorem mem_sessionsOf : session ∈ sessionsOf queue ↔ session ∈ sessionIds queue := by
  rw [sessionsOf_eq, List.mem_eraseDups]

theorem sessionsOf_append_singleton (queue : List (QueuedItem T)) (q : QueuedItem T) :
    sessionsOf (queue ++ [q]) = sessionsOf queue ∨ sessionsOf (queue ++ [q]) = sessionsOf queue ++
      [q.item.sessionId] := by
  rw [sessionsOf, List.foldl_append, ← sessionsOf, List.foldl_cons, List.foldl_nil]
  split
  · exact .inl rfl
  · exact .inr rfl

variable {before after : List (QueuedItem T)} {q : QueuedItem T}

def newBehind (before : List (QueuedItem T)) (q : QueuedItem T) (after : List (QueuedItem T)) :
    List String :=
  (((sessionIds after).removeAll (sessionIds before)).removeAll [q.item.sessionId]).eraseDups

theorem sessionsOf_append_cons (h : q.item.sessionId ∉ sessionIds before) :
    sessionsOf (before ++ q :: after) = sessionsOf before ++ q.item.sessionId ::
      newBehind before q after := by
  rw [sessionsOf_eq, sessionsOf_eq, sessionIds_append, sessionIds_cons,
    eraseDups_append_cons h, newBehind]

theorem exists_first {c : Nat} (h : (sessionsOf queue)[c]? = some session) :
    ∃ before q after, queue = before ++ q :: after ∧ q.item.sessionId = session ∧
      session ∉ sessionIds before ∧
      (sessionsOf before).length = c := by
  have hmem := mem_sessionsOf.mp (List.mem_of_getElem? h)
  obtain ⟨xs, ys, hsplit, hxs⟩ := List.eq_append_cons_of_mem hmem
  obtain ⟨before, rest, rfl, rfl, hrest⟩ := List.map_eq_append_iff.mp hsplit
  obtain ⟨q, after, rfl, rfl, rfl⟩ := List.map_eq_cons_iff.mp hrest
  refine ⟨before, q, after, rfl, rfl, hxs, ?_⟩
  have hlt := (List.getElem?_eq_some_iff.mp h).1
  refine ((List.getElem?_inj hlt (nodup_sessionsOf _)).mp ?_).symm
  rw [h, sessionsOf_append_cons hxs, List.getElem?_append_right (le_refl _)]
  simp

theorem servesInTurn {k : Nat} (hfirst : q.item.sessionId ∉ sessionIds before)
    (hplace : (sessionsOf before).length = k % (sessionsOf (before ++ q :: after)).length)
    (hstays : ∀ next ∈ (sessionsOf (before ++ q :: after))[(sessionsOf before).length + 1]?,
      2 ≤ ((sessionIds (before ++ q :: after)).takeWhile (· ≠ next)).count q.item.sessionId) :
    ServesInTurn (sessionsOf (before ++ q :: after)) k (sessionsOf (before ++ after)) := by
  have hsplit : sessionsOf (before ++ q :: after) = sessionsOf before ++ q.item.sessionId ::
      newBehind before q after :=
    sessionsOf_append_cons hfirst
  rw [ServesInTurn, ← hplace]
  cases hbehind : newBehind before q after with
  | nil =>
    refine .inr ⟨by simp [hsplit, hbehind], ?_⟩
    rw [sessionsOf_eq, sessionsOf_eq, sessionIds_append, sessionIds_append, sessionIds_cons]
    exact eraseDups_erase_last hfirst hbehind
  | cons next rest =>
    refine .inl ⟨by simp [hsplit, hbehind], ?_⟩
    have hagain := hstays next (by
      rw [hsplit, hbehind, List.getElem?_append_right (by omega)]
      simp)
    rw [sessionsOf_eq, sessionsOf_eq, sessionIds_append, sessionIds_append, sessionIds_cons]
    rw [sessionIds_append, sessionIds_cons] at hagain
    exact eraseDups_erase_kept hfirst hbehind hagain

variable {pool : RateLimitPool T} {lane : RateLimitLane}

theorem sessionsOf_ne_nil (hne : queue ≠ []) : 0 < (sessionsOf queue).length := by
  obtain ⟨q, queue, rfl⟩ := List.exists_cons_of_ne_nil hne
  have hmem : q.item.sessionId ∈ sessionIds (q :: queue) := by simp
  exact List.length_pos_of_mem (mem_sessionsOf.mpr hmem)

theorem pickFairIndex_spec (hne : pool.lanes lane ≠ []) :
    ∃ before q after, pool.lanes lane = before ++ q :: after ∧
      (sessionsOf (pool.lanes lane))[pool.turnOf lane]? = some q.item.sessionId ∧
      q.item.sessionId ∉ sessionIds before ∧ (sessionsOf before).length = pool.turnOf lane ∧
      pool.pickFairIndex lane (pool.lanes lane) = (before.length,
        if (sessionsOf (pool.lanes lane)).length ≤ 1 then pool.laneCursor lane
        else some ((pool.cursorOf lane + 1) % (sessionsOf (pool.lanes lane)).length)) := by
  have hpos := sessionsOf_ne_nil hne
  have hlt : pool.turnOf lane < (sessionsOf (pool.lanes lane)).length := Nat.mod_lt _ hpos
  obtain ⟨before, q, after, hqueue, hsession, hfirst, hplace⟩ :=
    exists_first (List.getElem?_eq_getElem hlt)
  have hget : (sessionsOf (pool.lanes lane))[pool.turnOf lane]? = some q.item.sessionId := by
    rw [List.getElem?_eq_getElem hlt, hsession]
  rw [← hsession] at hfirst
  refine ⟨before, q, after, hqueue, hget, hfirst, hplace, ?_⟩
  have hidx : (pool.lanes lane).findIdx? (fun q' => q'.item.sessionId = q.item.sessionId) =
      some before.length := by
    rw [hqueue, List.findIdx?_append, List.findIdx?_eq_none_iff.mpr]
    · simp [List.findIdx?_cons]
    · intro q' hq'
      simp only [decide_eq_false_iff_not]
      exact fun heq => hfirst (heq ▸ List.mem_map_of_mem hq')
  rw [pickFairIndex]
  split
  next hone =>
    have hzero : (sessionsOf before).length = 0 := by
      rw [hplace]
      omega
    have : before = [] := by
      by_contra hbefore
      have := sessionsOf_ne_nil hbefore
      omega
    rw [this, List.length_nil]
  next hmany =>
    have hrange : List.range (sessionsOf (pool.lanes lane)).length =
        0 :: (List.range ((sessionsOf (pool.lanes lane)).length - 1)).map Nat.succ := by
      rw [← List.range_succ_eq_map, Nat.sub_add_cancel hpos]
    rw [turnOf, cursorOf] at hget
    simp only [hrange, List.findSome?_cons, Nat.add_zero, hget, Option.bind_some, hidx,
      Option.map_some, Option.getD_some, cursorOf]

theorem getElem?_pick {cursor : Option Nat} (hqueue : pool.lanes lane = before ++ q :: after)
    (hpick : pool.pickFairIndex lane (pool.lanes lane) = (before.length, cursor)) :
    (pool.lanes lane)[(pool.pickFairIndex lane (pool.lanes lane)).1]? = some q := by
  rw [hpick, hqueue, List.getElem?_append_right (le_refl _)]
  simp

theorem nextLane_eq_none (h : pool.nextLane = none) : pool.takeNext = .ok (pool, none) := by
  rw [nextLane] at h
  rw [takeNext, h]

theorem lanes_ne_nil (h : pool.nextLane = some lane) : pool.lanes lane ≠ [] := by
  have := List.find?_some h
  simpa using this

theorem taken_other {lane' : RateLimitLane} (h : lane' ≠ lane) :
    (pool.taken lane).lanes lane' = pool.lanes lane' ∧
    (pool.taken lane).cursorOf lane' = pool.cursorOf lane' := by
  simp [taken, setLane, cursorOf, h]

theorem takeNext_eq (h : pool.nextLane = some lane) {q : QueuedItem T}
    (hq : (pool.lanes lane)[(pool.pickFairIndex lane (pool.lanes lane)).1]? = some q)
    (hopen : q.item.itemId ∈ pool.settlements) :
    pool.takeNext = .ok (pool.taken lane, some q.item) := by
  rw [nextLane] at h
  simp only [takeNext, h, hq, if_pos hopen, taken]

theorem takeNext_granted (h : pool.nextLane = some lane) (hopen : pool.PromiseOpen lane) :
    ∃ before q after, pool.takeNext = .ok (pool.taken lane, some q.item) ∧
      pool.lanes lane = before ++ q :: after ∧ (pool.taken lane).lanes lane = before ++ after ∧
      (sessionsOf (pool.lanes lane))[pool.turnOf lane]? = some q.item.sessionId ∧
      q.item.sessionId ∉ sessionIds before ∧ (sessionsOf before).length = pool.turnOf lane ∧
      (1 < (sessionsOf (pool.lanes lane)).length →
        (pool.taken lane).cursorOf lane = (pool.cursorOf lane + 1) %
        (sessionsOf (pool.lanes lane)).length) := by
  obtain ⟨before, q, after, hqueue, hget, hfirst, hplace, hpick⟩ :=
    pickFairIndex_spec (lanes_ne_nil h)
  have hq := getElem?_pick hqueue hpick
  have hfind : (pool.lanes lane).find? (fun q' => q'.item.sessionId = q.item.sessionId) =
      some q := by
    rw [hqueue, List.find?_append, List.find?_eq_none.mpr]
    · simp
    · intro q' hq'
      simp only [decide_eq_true_eq]
      exact fun heq => hfirst (heq ▸ List.mem_map_of_mem hq')
  refine ⟨before, q, after, takeNext_eq h hq (hopen _ hget _ hfind), hqueue, ?_, hget, hfirst,
    hplace, fun hmany => ?_⟩
  · simp only [taken, setLane, Function.update_self, hpick]
    rw [hqueue, List.eraseIdx_append_of_length_le (le_refl _)]
    simp
  · simp only [taken, cursorOf, Function.update_self, hpick]
    rw [if_neg (by omega)]
    rfl

end

def Waits (lane : RateLimitLane) (pool : RateLimitPool T) (b a : String) : Prop :=
  WaitsAt (sessionsOf (pool.lanes lane)) (pool.cursorOf lane) b a

def Filed (pool : RateLimitPool T) : Prop := ∀ lane, ∀ q ∈ pool.lanes lane, q.item.lane = lane

section

variable {pool pool' : RateLimitPool T} {lane : RateLimitLane} {moment : Moment T}

theorem advances_of_quiet (hquiet : (moment.turn lane).granted = none)
    (hkept : ∀ b a, Waits lane pool b a → QueuedIn lane moment.pool b → Waits lane moment.pool b a) :
    Advances (QueuedIn lane) (Waits lane) pool (moment.turn lane) where
  kept b a hwaits hqueued _ := hkept b a hwaits hqueued
  behind a b hgranted := absurd hgranted (by simp [hquiet])
  first a b hgranted := absurd hgranted (by simp [hquiet])

@[simp] theorem setLane_self (queue : List (QueuedItem T)) :
    (pool.setLane lane queue).lanes lane = queue :=
  Function.update_self ..

theorem setLane_of_ne {lane' : RateLimitLane} (h : lane' ≠ lane) (queue : List (QueuedItem T)) :
    (pool.setLane lane queue).lanes lane' = pool.lanes lane' :=
  Function.update_of_ne h ..

@[simp] theorem settle_laneCursor (itemId : String) (disposition : RateLimitDisposition) :
    (pool.settle itemId disposition).laneCursor = pool.laneCursor := by
  rw [settle]
  split <;> rfl

@[simp] theorem handle_laneCursor (itemId : String) :
    (pool.handle itemId).laneCursor = pool.laneCursor := by
  rw [handle]
  split <;> rfl

@[simp] theorem settleAll_laneCursor (items : List (IdentifiedItem T))
    (disposition : RateLimitDisposition) :
    (pool.settleAll items disposition).laneCursor = pool.laneCursor := by
  induction items generalizing pool with
  | nil => rfl
  | cons item items ih => exact ih.trans (settle_laneCursor ..)

@[simp] theorem submit_laneCursor (item : RateLimitItem T) :
    (pool.submit item).laneCursor = pool.laneCursor := by
  rw [submit]
  split
  next =>
    rw [handle_laneCursor]
    exact settle_laneCursor ..
  next => exact handle_laneCursor _

theorem sessionsOf_submit (pool : RateLimitPool T) (item : RateLimitItem T) (lane : RateLimitLane) :
    sessionsOf ((pool.submit item).lanes lane) = sessionsOf (pool.lanes lane) ∨
      ∃ session, sessionsOf ((pool.submit item).lanes lane) = sessionsOf (pool.lanes lane) ++
        [session] := by
  cases h : pool.replacedBy item with
  | none =>
    rw [submit_of_fresh h, handle_lanes]
    by_cases hlane : lane = item.lane
    · subst hlane
      rw [setLane_self]
      exact (sessionsOf_append_singleton ..).imp_right fun h => ⟨_, h⟩
    · rw [setLane_of_ne hlane]
      exact .inl rfl
  | some old =>
    obtain ⟨i, existing, hget, rfl, hsession, _, _, hsubmit⟩ := submit_of_replacedBy h
    rw [hsubmit, handle_lanes]
    refine .inl ?_
    by_cases hlane : lane = item.lane
    · subst hlane
      obtain ⟨hlt, hexisting⟩ := List.getElem?_eq_some_iff.mp hget
      rw [setLane_self, sessionsOf_eq, sessionsOf_eq]
      congr 1
      have hlt : i < (sessionIds (pool.lanes item.lane)).length := by simpa [sessionIds] using hlt
      have hid : (item.identify pool.seqCounter).sessionId =
          (sessionIds (pool.lanes item.lane))[i] := by
        simp only [sessionIds, List.getElem_map, hexisting, hsession, RateLimitItem.identify]
      rw [sessionIds, List.map_set, ← sessionIds]
      exact (congrArg ((sessionIds (pool.lanes item.lane)).set i) hid).trans
        (List.set_getElem_self _)
    · rw [setLane_of_ne hlane, settle_lanes]

theorem advances_submit (item : RateLimitItem T) :
    Advances (QueuedIn lane) (Waits lane) pool (Moment.turn lane ⟨none, pool.submit item⟩) := by
  refine advances_of_quiet rfl fun b a hwaits _ => ?_
  rw [Waits, cursorOf, submit_laneCursor, ← cursorOf]
  obtain h | ⟨session, h⟩ := sessionsOf_submit pool item lane
  · rw [h]
    exact hwaits
  · rw [h]
    exact hwaits.join

theorem advances_removal (hcursor : pool'.laneCursor = pool.laneCursor)
    (hleaves : LeavesInPlace (pool.cursorOf lane) (pool.lanes lane) (pool'.lanes lane)) :
    Advances (QueuedIn lane) (Waits lane) pool (Moment.turn lane ⟨none, pool'⟩) := by
  refine advances_of_quiet rfl fun b a hwaits hqueued => ?_
  rw [Waits, cursorOf, hcursor, ← cursorOf]
  obtain hempty | ⟨htake, hsub⟩ := hleaves
  · rw [QueuedIn] at hqueued
    simp [sessionIds, hempty] at hqueued
  · exact WaitsAt.leave hwaits (nodup_sessionsOf _) htake hsub (mem_sessionsOf.mpr hqueued)

theorem advances_taken (h : pool.nextLane = some lane) (hstays : pool.StaysInPlace lane)
    (hopen : pool.PromiseOpen lane) {item : IdentifiedItem T} {served : RateLimitPool T}
    (hnext : pool.takeNext = .ok (served, some item)) (hlanes : served.lanes = pool'.lanes)
    (hcursor : served.laneCursor = pool'.laneCursor) (hitem : item.lane = lane) :
    Advances (QueuedIn lane) (Waits lane) pool (Moment.turn lane ⟨some item, pool'⟩) := by
  obtain ⟨before, q, after, htaken, hqueue, hrest, hget, hfirst, hplace, hmoved⟩ :=
    takeNext_granted h hopen
  obtain ⟨rfl, rfl⟩ : pool.taken lane = served ∧ q.item = item := by
    rw [htaken] at hnext
    simpa using hnext
  have hgranted : (Moment.turn lane ⟨some q.item, pool'⟩).granted = some q.item.sessionId := by
    simp [Moment.turn, hitem, Option.filter]
  have hserves : ServesInTurn (sessionsOf (pool.lanes lane)) (pool.cursorOf lane)
      (sessionsOf (before ++ after)) := by
    have hstays := hstays _ hget
    rw [← hplace, hqueue] at hstays
    rw [hqueue]
    refine servesInTurn hfirst ?_ hstays
    rw [hplace, turnOf, hqueue]
  have hserved : ∀ b a, QueuedIn lane pool' b → b ≠ q.item.sessionId →
      (a = q.item.sessionId ∨ Waits lane pool b a) →
      Waits lane pool' b a := by
    intro b a hqueued hne hwaits
    rw [QueuedIn, ← hlanes, hrest] at hqueued
    have hb := mem_sessionsOf.mpr hqueued
    have hmany : 1 < (sessionsOf (pool.lanes lane)).length := by
      by_contra hone
      have hb' : b ∈ sessionsOf (pool.lanes lane) := by
        rw [mem_sessionsOf, hqueue]
        simp only [sessionIds_append, sessionIds_cons, List.mem_append, List.mem_cons] at hqueued ⊢
        exact hqueued.imp_right .inr
      have hs := List.mem_of_getElem? hget
      obtain ⟨x, hx⟩ := List.length_eq_one_iff.mp (show (sessionsOf (pool.lanes lane)).length = 1 by
        have := List.length_pos_of_mem hs
        omega)
      rw [hx, List.mem_singleton] at hb' hs
      exact hne (hb'.trans hs.symm)
    rw [Waits, ← hlanes, hrest, cursorOf, ← hcursor, ← cursorOf, hmoved hmany]
    exact waitsAt_of_served hserves hget (nodup_sessionsOf _) hwaits hb hne
  refine ⟨fun b a hwaits hqueued hne => hserved b a hqueued ?_ (.inr hwaits),
    fun a b ha hqueued hne => ?_,
    fun a b ha hwaits => ?_⟩
  · rintro rfl
    exact hne hgranted
  · rw [hgranted] at ha
    cases ha
    exact hserved b _ hqueued hne (.inl rfl)
  · rw [hgranted] at ha
    cases ha
    exact not_waitsAt_next (nodup_sessionsOf _) hget hwaits

theorem advances_other {lane' : RateLimitLane} (hlane : lane' ≠ lane) {item : IdentifiedItem T}
    (hitem : item.lane = lane) (hlanes : (pool.taken lane).lanes = pool'.lanes)
    (hcursor : (pool.taken lane).laneCursor = pool'.laneCursor) :
    Advances (QueuedIn lane') (Waits lane') pool (Moment.turn lane' ⟨some item, pool'⟩) := by
  refine advances_of_quiet (by simp [Moment.turn, Option.filter, hitem, hlane.symm]) fun b a
    hwaits _ => ?_
  obtain ⟨hother, hcursor'⟩ : (pool.taken lane).lanes lane' = pool.lanes lane' ∧
      (pool.taken lane).cursorOf lane' = pool.cursorOf lane' := taken_other hlane
  rw [Waits, ← hlanes, hother, cursorOf, ← hcursor, ← cursorOf, hcursor']
  exact hwaits

theorem Filed.of_sublist (h : Filed pool)
    (hsub : ∀ lane, (pool'.lanes lane).Sublist (pool.lanes lane)) :
    Filed pool' :=
  fun lane q hq => h lane q ((hsub lane).subset hq)

theorem Filed.submit (h : Filed pool) (item : RateLimitItem T) : Filed (pool.submit item) := by
  intro lane q hq
  obtain hold | ⟨rfl, hnew⟩ := mem_submit_lanes hq
  · exact h lane q hold
  · rw [hnew]
    rfl

theorem Filed.taken (h : Filed pool) (lane : RateLimitLane) : Filed (pool.taken lane) := by
  refine h.of_sublist fun lane' => ?_
  by_cases hlane : lane' = lane
  · subst hlane
    simpa [RateLimitPool.taken, setLane] using List.eraseIdx_sublist ..
  · rw [(taken_other hlane).1]

theorem lastPool_cons (moments : List (Moment T)) :
    pool.lastPool (moment :: moments) = moment.pool.lastPool moments := by
  rw [lastPool, List.getLast?_cons, lastPool]
  cases moments.getLast? <;> rfl

theorem lastPool_turns (pool : RateLimitPool T) (moments : List (Moment T)) :
    ((moments.map (Moment.turn lane)).getLast?.map
      Turn.after).getD pool = pool.lastPool moments := by
  rw [lastPool, List.getLast?_map, Option.map_map]
  rfl

theorem drain_advances (lane : RateLimitLane) (rounds : Nat) (hfiled : Filed pool)
    (h : pool.DrainKeepsTurns rounds) :
    Linked (Advances (QueuedIn lane) (Waits lane)) pool
      ((pool.drainMoments rounds).map (Moment.turn lane)) ∧
      Filed (pool.lastPool (pool.drainMoments rounds)) := by
  induction rounds generalizing pool with
  | zero => exact ⟨trivial, hfiled⟩
  | succ rounds ih =>
    rw [drainMoments]
    split
    next htokens =>
      obtain ⟨hlane, hrest⟩ := h htokens
      cases hnext : pool.nextLane with
      | none =>
        rw [nextLane_eq_none hnext]
        exact ⟨trivial, hfiled⟩
      | some served =>
        obtain ⟨hstays, hopen⟩ := hlane served hnext
        obtain ⟨before, q, after, htaken, hqueue, _⟩ := takeNext_granted hnext hopen
        have hitem : q.item.lane = served := hfiled served q (by rw [hqueue]; simp)
        have hafter := hrest _ (by rw [afterGrant, htaken]; rfl)
        have hfiled' : Filed { pool.taken served with tokens := (pool.taken served).tokens - 1 } :=
          hfiled.taken served
        obtain ⟨hlinked, hlast⟩ := ih hfiled' hafter
        rw [htaken]
        refine ⟨⟨?_, hlinked⟩, ?_⟩
        · by_cases hsame : lane = served
          · subst hsame
            exact advances_taken hnext hstays hopen htaken rfl rfl hitem
          · exact advances_other hsame hitem rfl rfl
        · rw [lastPool_cons]
          exact hlast
    next => exact ⟨trivial, hfiled⟩

theorem expire_drain_advances {expired : RateLimitPool T}
    (h : Advances (QueuedIn lane) (Waits lane) pool (Moment.turn lane ⟨none, expired⟩))
    (rounds : Nat) (hfiled : Filed expired) (hdrain : expired.DrainKeepsTurns rounds) :
    Linked (Advances (QueuedIn lane) (Waits lane)) pool
        ((⟨none, expired⟩ :: expired.drainMoments rounds).map (Moment.turn lane)) ∧
      Filed (pool.lastPool (⟨none, expired⟩ :: expired.drainMoments rounds)) := by
  obtain ⟨hlinked, hlast⟩ := drain_advances lane rounds hfiled hdrain
  rw [lastPool_cons]
  exact ⟨⟨h, hlinked⟩, hlast⟩

@[simp] theorem refill_lanes (nowMs : ℚ) : (pool.refill nowMs).lanes = pool.lanes := by
  rw [refill]
  split <;> rfl

@[simp] theorem refill_laneCursor (nowMs : ℚ) :
    (pool.refill nowMs).laneCursor = pool.laneCursor := by
  rw [refill]
  split <;> rfl

@[simp] theorem removeWhere_lanes (predicate : IdentifiedItem T → Bool)
    (disposition : RateLimitDisposition) :
    (pool.removeWhere predicate disposition).1.lanes =
      fun lane => (pool.lanes lane).filter fun queued => !predicate queued.item :=
  settleAll_lanes

@[simp] theorem removeWhere_laneCursor (predicate : IdentifiedItem T → Bool)
    (disposition : RateLimitDisposition) :
    (pool.removeWhere predicate disposition).1.laneCursor = pool.laneCursor :=
  settleAll_laneCursor ..

@[simp] theorem removeById_laneCursor (itemId : String) :
    (pool.removeById itemId).1.laneCursor = pool.laneCursor := by
  rw [removeById]
  dsimp only
  split
  next => rfl
  next => exact settle_laneCursor ..

theorem call_advances (lane : RateLimitLane) (call : Call T) (hfiled : Filed pool)
    (h : pool.CallKeepsTurns call) :
    Linked (Advances (QueuedIn lane) (Waits lane)) pool
      ((pool.callMoments call).map (Moment.turn lane)) ∧
      Filed (pool.lastPool (pool.callMoments call)) := by
  cases call with
  | submit item => exact ⟨⟨advances_submit item, trivial⟩, hfiled.submit item⟩
  | removeWhere predicate disposition =>
    refine ⟨⟨advances_removal (removeWhere_laneCursor ..) ?_, trivial⟩,
      hfiled.of_sublist (removeWhere_leaves pool predicate disposition).lanes⟩
    rw [removeWhere_lanes]
    exact h lane (mem_lanePriority lane)
  | removeById itemId =>
    exact ⟨⟨advances_removal (removeById_laneCursor itemId) (h lane (mem_lanePriority lane)),
      trivial⟩, hfiled.of_sublist (removeById_leaves pool itemId).lanes⟩
  | drain nowMs =>
    have hlanes : (pool.expire nowMs).lanes = fun lane => (pool.lanes lane).filter
        fun queued => !queued.item.deadlineAt.elim false (· ≤ nowMs) := by
      rw [expire, removeWhere_lanes, refill_lanes]
    refine expire_drain_advances ?_ _ (hfiled.of_sublist fun lane => ?_) h.2
    · refine advances_removal ?_ ?_
      · rw [expire, removeWhere_laneCursor, refill_laneCursor]
      · rw [hlanes]
        exact h.1 lane (mem_lanePriority lane)
    · rw [hlanes]
      exact List.filter_sublist

theorem moments_advance (lane : RateLimitLane) (calls : List (Call T)) (hfiled : Filed pool)
    (h : pool.KeepsTurns calls) :
    Linked (Advances (QueuedIn lane) (Waits lane)) pool
      ((pool.moments calls).map (Moment.turn lane)) := by
  induction calls generalizing pool with
  | nil => trivial
  | cons call calls ih =>
    obtain ⟨hcall, hcalls⟩ := h
    obtain ⟨hlinked, hlast⟩ := call_advances lane call hfiled hcall
    rw [moments, List.map_append]
    exact hlinked.append (lastPool_turns ..) (ih hlast hcalls)

theorem takeNext_none {served : RateLimitPool T} (h : pool.takeNext = .ok (served, none)) :
    served = pool := by
  cases hnext : pool.nextLane with
  | none =>
    rw [nextLane_eq_none hnext] at h
    simpa using h.symm
  | some lane =>
    obtain ⟨before, q, after, hqueue, _, _, _, hpick⟩ := pickFairIndex_spec (lanes_ne_nil hnext)
    have hq := getElem?_pick hqueue hpick
    rw [nextLane] at hnext
    simp only [takeNext, hnext, hq] at h
    split at h <;> simp at h

theorem drainLoop_moments {granted granted' : List (IdentifiedItem T)} {rounds : Nat}
    (h : pool.drainLoop granted rounds = .ok (pool', granted')) :
    granted' = granted ++ (pool.drainMoments rounds).filterMap Moment.granted ∧
      pool.lastPool (pool.drainMoments rounds) = pool' := by
  induction rounds generalizing pool granted with
  | zero =>
    cases h
    exact ⟨(List.append_nil _).symm, rfl⟩
  | succ rounds ih =>
    rw [drainLoop] at h
    rw [drainMoments]
    split at h
    next htokens =>
      rw [if_pos htokens]
      cases hnext : pool.takeNext with
      | error message => simp [hnext, bind, Except.bind] at h
      | ok result =>
        obtain ⟨served, item⟩ := result
        cases item with
        | none =>
          obtain rfl := takeNext_none hnext
          simp only [hnext, bind, Except.bind, pure, Except.pure] at h
          cases h
          exact ⟨(List.append_nil _).symm, rfl⟩
        | some item =>
          rw [hnext] at h
          obtain ⟨hgranted, hlast⟩ := ih h
          refine ⟨by simpa using hgranted, ?_⟩
          rw [lastPool_cons]
          exact hlast
    next htokens =>
      rw [if_neg htokens]
      cases h
      exact ⟨(List.append_nil _).symm, rfl⟩

theorem drainWithExpired_moments {nowMs : ℚ} {result : DrainResult T}
    (h : pool.drainWithExpired nowMs = .ok (pool', result)) :
    result.granted = (pool.callMoments (.drain nowMs)).filterMap Moment.granted ∧
      pool.lastPool (pool.callMoments (.drain nowMs)) = pool' := by
  rw [drainWithExpired] at h
  cases hloop : (pool.expire nowMs).drainLoop [] (pool.expire nowMs).pending with
  | error message =>
    rw [expire] at hloop
    simp [hloop, bind, Except.bind] at h
  | ok drained =>
    obtain ⟨hgranted, hlast⟩ := drainLoop_moments hloop
    rw [expire] at hloop
    simp only [hloop, bind, Except.bind, pure, Except.pure] at h
    cases h
    refine ⟨by simpa [callMoments] using hgranted, ?_⟩
    rw [callMoments, lastPool_cons]
    exact hlast

end

/-- In a run in which every served session stays in its place or is the last of its lane, and nothing
that leaves a lane without a grant moves the sessions it leaves, the sessions of each lane share it
fairly. -/
theorem lane_fair_of_keepsTurns (options : RateLimitPoolOptions) (start : ℚ) (calls : List (Call T))
    (lane : RateLimitLane) (h : (new options start : RateLimitPool T).KeepsTurns calls) :
    Fair (QueuedIn lane)
      (((new options start : RateLimitPool T).moments calls).map (Moment.turn lane)) := by
  refine fair_of_linked (moments_advance lane calls ?_ h)
  intro lane q hq
  cases hq

theorem lane_fair_for_two_sessions :
    Fair (QueuedIn .live) (((new { capacity := some 2 } 0 : RateLimitPool Nat).moments
      [.submit { sessionId := "a", lane := .live, itemId := some "1", payload := 1 },
        .submit { sessionId := "a", lane := .live, itemId := some "2", payload := 2 },
        .submit { sessionId := "b", lane := .live, itemId := some "3", payload := 3 },
        .drain 0]).map (Moment.turn .live)) :=
  lane_fair_of_keepsTurns _ _ _ .live (by decide +kernel)

theorem lane_not_fair_interleaved :
    ¬Fair (QueuedIn .live) (((new {} 0 : RateLimitPool Nat).moments
      [.submit { sessionId := "a", lane := .live, itemId := some "1", payload := 1 },
        .submit { sessionId := "b", lane := .live, itemId := some "2", payload := 2 },
        .submit { sessionId := "a", lane := .live, itemId := some "3", payload := 3 },
        .drain 0]).map (Moment.turn .live)) :=
  not_fair_of_twice (a := "a") (b :=
    "b") 4 (by decide +kernel) (by decide +kernel) (by decide +kernel) (by decide)
    (by decide +kernel)

end RateLimitPool

end JevCode.Sdk
