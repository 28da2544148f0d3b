import JevCode.Data.TokenBucket
import JevCode.Sdk.RateLimitPool
import Mathlib.Tactic.Ring

namespace JevCode.Sdk

open JevCode.Data

variable {T : Type}

theorem flatMap_update_perm {ι α : Type} [DecidableEq ι] {keys : List ι} (hkeys : keys.Nodup) {i : ι}
    (hi : i ∈ keys) {f : ι → List α} {g xs ys : List α} (h : (xs ++ f i).Perm (ys ++ g)) :
    (xs ++ keys.flatMap f).Perm (ys ++ keys.flatMap (Function.update f i g)) := by
  have hsplit : ∀ f : ι → List α, (keys.flatMap f).Perm (f i ++ (keys.erase i).flatMap f) := by
    intro f
    have := (List.perm_cons_erase hi).flatMap_right f
    simpa using this
  have hrest : (keys.erase i).flatMap (Function.update f i g) = (keys.erase i).flatMap f := by
    refine List.flatMap_congr fun j hj => Function.update_of_ne ?_ _ _
    rintro rfl
    exact hkeys.not_mem_erase hj
  calc (xs ++ keys.flatMap f).Perm (xs ++ (f i ++ (keys.erase i).flatMap f)) :=
    (hsplit f).append_left xs
    _ = xs ++ f i ++ (keys.erase i).flatMap f := (List.append_assoc ..).symm
    _ |>.Perm (ys ++ g ++ (keys.erase i).flatMap f) := h.append_right _
    _ = ys ++ (g ++ (keys.erase i).flatMap f) := List.append_assoc ..
    _ |>.Perm (ys ++ keys.flatMap (Function.update f i g)) := by
      have := hsplit (Function.update f i g)
      rw [hrest, Function.update_self] at this
      exact this.symm.append_left ys

theorem append_append_perm {α : Type} (as xs bs : List α) :
    (as ++ xs ++ bs).Perm (xs ++ (as ++ bs)) := by
  rw [← List.append_assoc]
  exact List.perm_append_comm.append_right bs

theorem perm_cons_eraseP {α : Type} {p : α → Bool} {xs : List α} {x : α} (h : xs.find? p = some x) :
    xs.Perm (x :: xs.eraseP p) := by
  obtain ⟨hx, as, bs, rfl, has⟩ := List.find?_eq_some_iff_append.mp h
  rw [List.eraseP_append_right _ (by simpa using has), List.eraseP_cons_of_pos hx]
  exact List.perm_middle

namespace RateLimitPool

def bucket (pool : RateLimitPool T) : TokenBucket ℚ where
  capacity := pool.capacity
  rate := pool.refillPerSec / 1000
  tokens := pool.tokens
  last := pool.lastRefill

section

variable {pool : RateLimitPool T} {itemId id' : String} {disposition : RateLimitDisposition}
  {items : List (IdentifiedItem T)}

@[simp] theorem settle_lanes : (pool.settle itemId disposition).lanes = pool.lanes := by
  rw [settle]
  split <;> rfl

@[simp] theorem settle_bucket : (pool.settle itemId disposition).bucket = pool.bucket := by
  rw [settle]
  split <;> rfl

@[simp] theorem settle_seqCounter :
    (pool.settle itemId disposition).seqCounter = pool.seqCounter := by
  rw [settle]
  split <;> rfl

theorem mem_settle :
    id' ∈ (pool.settle itemId disposition).settlements ↔ id' ∈ pool.settlements ∧ id' ≠ itemId := by
  rw [settle]
  split
  next => simp
  next habsent =>
    refine ⟨fun h => ⟨h, ?_⟩, And.left⟩
    rintro rfl
    exact habsent h

@[simp] theorem handle_lanes : (pool.handle itemId).lanes = pool.lanes := by
  rw [handle]
  split <;> rfl

@[simp] theorem handle_bucket : (pool.handle itemId).bucket = pool.bucket := by
  rw [handle]
  split <;> rfl

@[simp] theorem handle_seqCounter : (pool.handle itemId).seqCounter = pool.seqCounter := by
  rw [handle]
  split <;> rfl

theorem mem_handle :
    id' ∈ (pool.handle itemId).settlements ↔ id' ∈ pool.settlements ∨ id' = itemId := by
  rw [handle]
  split
  next h =>
    refine ⟨.inl, ?_⟩
    rintro (h' | rfl)
    · exact h'
    · exact h
  next => simp

@[simp] theorem settleAll_lanes : (pool.settleAll items disposition).lanes = pool.lanes := by
  induction items generalizing pool with
  | nil => rfl
  | cons item items ih => exact ih.trans settle_lanes

@[simp] theorem settleAll_bucket : (pool.settleAll items disposition).bucket = pool.bucket := by
  induction items generalizing pool with
  | nil => rfl
  | cons item items ih => exact ih.trans settle_bucket

@[simp] theorem settleAll_seqCounter :
    (pool.settleAll items disposition).seqCounter = pool.seqCounter := by
  induction items generalizing pool with
  | nil => rfl
  | cons item items ih => exact ih.trans settle_seqCounter

theorem mem_settleAll : id' ∈ (pool.settleAll items disposition).settlements ↔
    id' ∈ pool.settlements ∧ ∀ item ∈ items, id' ≠ item.itemId := by
  induction items generalizing pool with
  | nil => simp [settleAll]
  | cons item items ih =>
    rw [settleAll, List.foldl_cons, ← settleAll, ih, mem_settle]
    simp [and_assoc]

theorem queued_congr {pool' : RateLimitPool T} (h : pool'.lanes = pool.lanes) :
    pool'.queued = pool.queued := by
  rw [queued, h, queued]

theorem mem_lanePriority (lane : RateLimitLane) : lane ∈ lanePriority := by
  cases lane <;> decide

theorem pending_eq (pool : RateLimitPool T) : pool.pending = pool.queued.length := by
  simp [pending, queued, List.length_flatMap]

theorem mem_queued {item : IdentifiedItem T} :
    item ∈ pool.queued ↔ ∃ lane, ∃ q ∈ pool.lanes lane, q.item = item := by
  simp [queued, mem_lanePriority]

theorem queued_setLane_perm {lane : RateLimitLane} {queue : List (QueuedItem T)}
    (xs ys : List (IdentifiedItem T))
    (h : (xs ++ (pool.lanes lane).map QueuedItem.item).Perm (ys ++ queue.map QueuedItem.item)) :
    (xs ++ pool.queued).Perm (ys ++ (pool.setLane lane queue).queued) := by
  have := flatMap_update_perm (by decide) (mem_lanePriority lane)
    (f := fun lane => (pool.lanes lane).map QueuedItem.item) h
  refine this.trans (List.Perm.append_left ys
    (List.Perm.of_eq (List.flatMap_congr fun lane' _ => ?_)))
  by_cases hlane : lane' = lane
  · subst hlane
    simp [setLane]
  · simp [setLane, hlane]

theorem pickFairIndex_lt {lane : RateLimitLane} {queue : List (QueuedItem T)} (hne : queue ≠ []) :
    (pool.pickFairIndex lane queue).1 < queue.length := by
  have hpos : 0 < queue.length := List.length_pos_iff.mpr hne
  rw [pickFairIndex]
  split
  · exact hpos
  · dsimp only
    cases hpicked : List.findSome? _ _ with
    | none => exact hpos
    | some picked =>
      obtain ⟨offset, _, hfound⟩ := List.exists_of_findSome?_eq_some hpicked
      simp only [Option.bind_eq_some_iff, Option.map_eq_some_iff] at hfound
      obtain ⟨candidate, _, idx, hidx, rfl⟩ := hfound
      exact (List.findIdx?_eq_some_iff_findIdx_eq.mp hidx).1

structure Serves (pool pool' : RateLimitPool T) (items : List (IdentifiedItem T)) : Prop where
  perm : pool.queued.Perm (items ++ pool'.queued)
  settlements : pool'.settlements = pool.settlements
  seqCounter : pool'.seqCounter = pool.seqCounter
  lanes : ∀ lane, (pool'.lanes lane).Sublist (pool.lanes lane)
  bucket : pool'.bucket = pool.bucket.take items.length

theorem takeNext_spec (hopen : ∀ item ∈ pool.queued, item.itemId ∈ pool.settlements) :
    (pool.takeNext = .ok (pool, none) ∧ pool.queued = []) ∨
      ∃ pool' item, pool.takeNext = .ok (pool', some item) ∧
        Serves pool { pool' with tokens := pool'.tokens - 1 } [item] := by
  rw [takeNext]
  split
  next hempty =>
    refine .inl ⟨rfl, List.flatMap_eq_nil_iff.mpr fun lane hlane => ?_⟩
    have := List.find?_eq_none.mp hempty lane hlane
    simp_all
  next lane hlane =>
    have hne : pool.lanes lane ≠ [] := by
      have := List.find?_some hlane
      simp_all
    have hlt : (pool.pickFairIndex lane (pool.lanes lane)).1 < (pool.lanes lane).length :=
      pickFairIndex_lt hne
    simp only [List.getElem?_eq_getElem hlt]
    set removed := (pool.lanes lane)[(pool.pickFairIndex lane (pool.lanes lane)).1] with hremoved
    have hmem : removed.item ∈ pool.queued :=
      mem_queued.mpr ⟨lane, removed, List.getElem_mem hlt, rfl⟩
    rw [if_pos (hopen _ hmem)]
    refine .inr ⟨_, _, rfl, ⟨?_, rfl, rfl, ?_, ?_⟩⟩
    · refine queued_setLane_perm [] [removed.item] ?_
      have := (List.getElem_cons_eraseIdx_perm hlt).map QueuedItem.item
      simpa using this.symm
    · intro lane'
      by_cases h : lane' = lane
      · subst h
        simpa [setLane] using List.eraseIdx_sublist _ _
      · simp [setLane, h]
    · simp [RateLimitPool.bucket, TokenBucket.take, setLane]

theorem Serves.trans {pool₁ pool₂ pool₃ : RateLimitPool T} {xs ys : List (IdentifiedItem T)}
    (h : Serves pool₁ pool₂ xs) (h' : Serves pool₂ pool₃ ys) : Serves pool₁ pool₃ (xs ++ ys) where
  perm := by
    rw [List.append_assoc]
    exact h.perm.trans (h'.perm.append_left xs)
  settlements := h'.settlements.trans h.settlements
  seqCounter := h'.seqCounter.trans h.seqCounter
  lanes lane := (h'.lanes lane).trans (h.lanes lane)
  bucket := by
    rw [h'.bucket, h.bucket]
    simp [TokenBucket.take, sub_sub]

theorem Serves.opened {pool pool' : RateLimitPool T} {items : List (IdentifiedItem T)}
    (h : Serves pool pool' items) (hopen : ∀ item ∈ pool.queued, item.itemId ∈ pool.settlements) :
    ∀ item ∈ pool'.queued, item.itemId ∈ pool'.settlements := by
  intro item hitem
  rw [h.settlements]
  exact hopen item (h.perm.mem_iff.mpr (List.mem_append_right items hitem))

theorem drainLoop_spec (granted : List (IdentifiedItem T)) (rounds : Nat)
    (hopen : ∀ item ∈ pool.queued, item.itemId ∈ pool.settlements) (htokens : 0 ≤ pool.tokens) :
    ∃ pool' items, pool.drainLoop granted rounds = .ok (pool', granted ++ items) ∧
      Serves pool pool' items ∧ (items.length : ℚ) ≤ pool.tokens ∧
      (pool.queued.length ≤ rounds → pool'.tokens < 1 ∨ pool'.queued = []) := by
  have hstop : Serves pool pool [] := ⟨.rfl, rfl, rfl, fun _ => .refl _, by simp [TokenBucket.take]⟩
  induction rounds generalizing pool granted with
  | zero =>
    exact ⟨pool, [], by simp [drainLoop], hstop, by simpa,
      fun h => .inr (List.length_eq_zero_iff.mp (by omega))⟩
  | succ rounds ih =>
    rw [drainLoop]
    split
    next hone =>
      obtain ⟨hnext, hempty⟩ | ⟨pool₁, item, hnext, hserves⟩ := takeNext_spec hopen
      · rw [hnext]
        exact ⟨pool, [], by simp [pure, Except.pure, bind, Except.bind], hstop, by simpa,
          fun _ => .inr hempty⟩
      · have htokens₁ : pool₁.tokens - 1 = pool.tokens - 1 := by
          simpa [RateLimitPool.bucket, TokenBucket.take] using congrArg TokenBucket.tokens
            hserves.bucket
        obtain ⟨pool', items, hloop, hserves', hle, hdone⟩ :=
          ih (granted ++ [item]) (hserves.opened hopen)
          (by simp only [htokens₁]; linarith) ⟨.rfl, rfl, rfl,
          fun _ => .refl _, by simp [TokenBucket.take]⟩
        rw [hnext]
        refine ⟨pool', item :: items, ?_, hserves.trans hserves', ?_, fun hrounds => hdone ?_⟩
        · simpa [bind, Except.bind] using hloop
        · simp only [htokens₁] at hle
          push_cast [List.length_cons]
          linarith
        · have hlength := hserves.perm.length_eq
          simp only [List.length_append, List.length_singleton] at hlength
          omega
    next hone => exact ⟨pool, [], by simp, hstop, by simpa, fun _ => .inl (not_le.mp hone)⟩

structure Leaves (pool pool' : RateLimitPool T) (items : List (IdentifiedItem T)) : Prop where
  perm : pool.queued.Perm (items ++ pool'.queued)
  settlements : ∀ id ∈ pool.settlements, (∀ item ∈ items, id ≠ item.itemId) → id ∈ pool'.settlements
  seqCounter : pool'.seqCounter = pool.seqCounter
  lanes : ∀ lane, (pool'.lanes lane).Sublist (pool.lanes lane)

theorem Serves.leaves {pool' : RateLimitPool T} (h : Serves pool pool' items) :
    Leaves pool pool' items where
  perm := h.perm
  settlements id hid _ := by rwa [h.settlements]
  seqCounter := h.seqCounter
  lanes := h.lanes

theorem removeWhere_leaves (pool : RateLimitPool T) (predicate : IdentifiedItem T → Bool)
    (disposition : RateLimitDisposition) :
    Leaves pool (pool.removeWhere predicate disposition).1
      (pool.removeWhere predicate disposition).2 where
  perm := by
    have hlane : ∀ lane, ((pool.lanes lane).map QueuedItem.item).Perm
        (((pool.lanes lane).map QueuedItem.item).filter predicate ++
          ((pool.lanes lane).filter fun queued => !predicate queued.item).map QueuedItem.item) := by
      intro lane
      have := List.filter_append_perm predicate ((pool.lanes lane).map QueuedItem.item)
      rw [List.filter_map (p := fun item => !predicate item)] at this
      exact this.symm
    have hqueued : (pool.removeWhere predicate disposition).1.queued =
        lanePriority.flatMap fun lane =>
          ((pool.lanes lane).filter fun queued => !predicate queued.item).map QueuedItem.item := by
      rw [removeWhere, queued_congr settleAll_lanes]
      rfl
    rw [hqueued]
    exact (List.Perm.flatMap_left _ fun lane _ => hlane lane).trans
      (List.flatMap_append_perm ..).symm
  settlements id hid hother := mem_settleAll.mpr ⟨hid, hother⟩
  seqCounter := by simp [removeWhere]
  lanes lane := by
    rw [removeWhere, settleAll_lanes]
    exact List.filter_sublist

@[simp] theorem removeWhere_bucket (predicate : IdentifiedItem T → Bool)
    (disposition : RateLimitDisposition) :
    (pool.removeWhere predicate disposition).1.bucket = pool.bucket :=
  settleAll_bucket

theorem removeById_leaves (pool : RateLimitPool T) (itemId : String) :
    Leaves pool (pool.removeById itemId).1 (pool.removeById itemId).2.toList := by
  rw [removeById]
  dsimp only
  split
  next => exact ⟨.rfl, fun id hid _ => hid, rfl, fun lane => .refl _⟩
  next lane queued hfound =>
    obtain ⟨lane', _, hfound⟩ := List.exists_of_findSome?_eq_some hfound
    obtain ⟨queued', hfind, heq⟩ := Option.map_eq_some_iff.mp hfound
    cases heq
    refine ⟨?_, fun id hid hother => ?_, by simp [setLane], fun lane' => ?_⟩
    · rw [queued_congr settle_lanes]
      refine queued_setLane_perm [] [queued.item] ?_
      simpa using (perm_cons_eraseP hfind).map QueuedItem.item
    · exact mem_settle.mpr ⟨hid, hother _ (by simp)⟩
    · rw [settle_lanes]
      by_cases h : lane' = lane
      · subst h
        simpa [setLane] using List.eraseP_sublist
      · simp [setLane, h]

@[simp] theorem removeById_bucket (itemId : String) :
    (pool.removeById itemId).1.bucket = pool.bucket := by
  rw [removeById]
  dsimp only
  split
  next => rfl
  next => exact settle_bucket

variable {item : RateLimitItem T}

theorem submit_of_fresh (h : pool.replacedBy item = none) :
    pool.submit item = (({ pool with
      seqCounter := pool.seqCounter + 1 } : RateLimitPool T).setLane item.lane
      (pool.lanes item.lane ++ [⟨item.identify pool.seqCounter, pool.seqCounter⟩])).handle
        (item.identify pool.seqCounter).itemId := by
  have hnone : ((pool.coalesced? item).bind fun i => (pool.lanes item.lane)[i]?.map (i, ·)) =
      none := by
    rw [replacedBy, Option.map_eq_none_iff, Option.bind_eq_none_iff] at h
    simpa using h
  simp only [submit, hnone]

theorem submit_of_replacedBy {old : IdentifiedItem T} (h : pool.replacedBy item = some old) :
    ∃ i existing, (pool.lanes item.lane)[i]? = some existing ∧ existing.item = old ∧
      old.sessionId = item.sessionId ∧ old.coalesceKey = item.coalesceKey ∧ item.coalesceKey ≠ none ∧
      pool.submit item = ((({ pool with
        seqCounter := pool.seqCounter + 1 } : RateLimitPool T).settle old.itemId
        .removed).setLane item.lane ((pool.lanes item.lane).set i
          { existing with item := item.identify pool.seqCounter })).handle
          (item.identify pool.seqCounter).itemId := by
  rw [replacedBy] at h
  obtain ⟨existing, hexisting, rfl⟩ := Option.map_eq_some_iff.mp h
  obtain ⟨i, hi, hget⟩ := Option.bind_eq_some_iff.mp hexisting
  have hkey := hi
  rw [coalesced?] at hkey
  split at hkey
  next hcoalesces =>
    obtain ⟨hlt, hmatch, _⟩ := List.findIdx?_eq_some_iff_getElem.mp hkey
    rw [List.getElem?_eq_getElem hlt] at hget
    cases hget
    simp only [decide_eq_true_eq] at hmatch
    refine ⟨i, _, List.getElem?_eq_getElem hlt, rfl, hmatch.1, hmatch.2, hcoalesces.2, ?_⟩
    simp [submit, hi, List.getElem?_eq_getElem hlt]
  next => cases hkey

@[simp] theorem submit_bucket : (pool.submit item).bucket = pool.bucket := by
  rw [submit]
  split
  next =>
    rw [handle_bucket]
    exact settle_bucket
  next => exact handle_bucket

@[simp] theorem submit_seqCounter : (pool.submit item).seqCounter = pool.seqCounter + 1 := by
  rw [submit]
  split
  next =>
    rw [handle_seqCounter]
    exact settle_seqCounter
  next => exact handle_seqCounter

theorem submit_perm : (item.identify pool.seqCounter :: pool.queued).Perm
    ((pool.replacedBy item).toList ++ (pool.submit item).queued) := by
  cases h : pool.replacedBy item with
  | none =>
    rw [submit_of_fresh h, queued_congr handle_lanes]
    refine queued_setLane_perm [_] [] ?_
    simpa using (List.perm_append_singleton _ _).symm
  | some old =>
    obtain ⟨i, existing, hget, rfl, _, _, _, hsubmit⟩ := submit_of_replacedBy h
    obtain ⟨hlt, rfl⟩ := List.getElem?_eq_some_iff.mp hget
    rw [hsubmit, queued_congr handle_lanes]
    have hlanes : ∀ queue, (((({ pool with
        seqCounter := pool.seqCounter + 1 } : RateLimitPool T).settle
        (pool.lanes item.lane)[i].item.itemId .removed).setLane item.lane queue)).queued =
          (pool.setLane item.lane queue).queued := by
      intro queue
      refine queued_congr ?_
      simp [setLane]
    rw [hlanes]
    refine queued_setLane_perm [_] [_] ?_
    have hold := (List.getElem_cons_eraseIdx_perm hlt).map QueuedItem.item
    have hnew := (List.set_perm_cons_eraseIdx hlt
      { (pool.lanes item.lane)[i] with item := item.identify pool.seqCounter }).map QueuedItem.item
    exact ((hold.symm.cons _).trans (List.Perm.swap ..)).trans (hnew.symm.cons _)

theorem mem_submit_settlements {id : String} : id ∈ (pool.submit item).settlements ↔
    (id ∈ pool.settlements ∧ ∀ old ∈ pool.replacedBy item, id ≠ old.itemId) ∨
      id = (item.identify pool.seqCounter).itemId := by
  cases h : pool.replacedBy item with
  | none =>
    rw [submit_of_fresh h, mem_handle]
    simp [setLane]
  | some old =>
    obtain ⟨i, existing, _, _, _, _, _, hsubmit⟩ := submit_of_replacedBy h
    rw [hsubmit, mem_handle, setLane, mem_settle]
    simp

theorem mem_submit_lanes {lane : RateLimitLane} {q : QueuedItem T}
    (hq : q ∈ (pool.submit item).lanes lane) :
    q ∈ pool.lanes lane ∨ lane = item.lane ∧ q.item = item.identify pool.seqCounter := by
  cases h : pool.replacedBy item with
  | none =>
    rw [submit_of_fresh h, handle_lanes] at hq
    by_cases hlane : lane = item.lane
    · subst hlane
      simp only [setLane, Function.update_self, List.mem_append, List.mem_singleton] at hq
      obtain hq | rfl := hq
      · exact .inl hq
      · exact .inr ⟨rfl, rfl⟩
    · simp only [setLane, Function.update_of_ne hlane] at hq
      exact .inl hq
  | some old =>
    obtain ⟨i, existing, _, _, _, _, _, hsubmit⟩ := submit_of_replacedBy h
    rw [hsubmit, handle_lanes] at hq
    by_cases hlane : lane = item.lane
    · subst hlane
      simp only [setLane, Function.update_self] at hq
      obtain hq | rfl := List.mem_or_eq_of_mem_set hq
      · exact .inl hq
      · exact .inr ⟨rfl, rfl⟩
    · simp only [setLane, Function.update_of_ne hlane, settle_lanes] at hq
      exact .inl hq

end

/-- The later item has the session, the lane and the key of the one it replaces. -/
def Replaces (new old : IdentifiedItem T) : Prop :=
  new.sessionId = old.sessionId ∧ new.lane = old.lane ∧ new.coalesceKey = old.coalesceKey ∧
    old.coalesceKey ≠ none

structure Conserves (pool : RateLimitPool T) (history : History T) : Prop where
  perm : history.submitted.Perm (pool.queued ++ history.gone)
  opened : ∀ item ∈ pool.queued, item.itemId ∈ pool.settlements
  lanes : ∀ lane, ∀ q ∈ pool.lanes lane, q.item.lane = lane
  replaced : ∀ r ∈ history.replaced, Replaces r.2 r.1 ∧ [r.1, r.2].Sublist history.submitted

section

variable {pool pool' : RateLimitPool T} {history history' : History T}
    {items : List (IdentifiedItem T)}

theorem ids_ne_of_nodup {xs ys : List (IdentifiedItem T)}
    (h : ((xs ++ ys).map IdentifiedItem.itemId).Nodup) {x y : IdentifiedItem T} (hx : x ∈ xs)
    (hy : y ∈ ys) : y.itemId ≠ x.itemId := by
  rw [List.map_append, List.nodup_append] at h
  exact (h.2.2 x.itemId (List.mem_map_of_mem hx) y.itemId (List.mem_map_of_mem hy)).symm

theorem Conserves.nodup_queued (h : Conserves pool history)
    (hids : (history.submitted.map IdentifiedItem.itemId).Nodup) :
    (pool.queued.map IdentifiedItem.itemId).Nodup := by
  have := (h.perm.map IdentifiedItem.itemId).nodup_iff.mp hids
  rw [List.map_append] at this
  exact (List.nodup_append.mp this).1

theorem Conserves.leave (h : Conserves pool history)
    (hids : (history.submitted.map IdentifiedItem.itemId).Nodup) (hleaves : Leaves pool pool' items)
    (hsubmitted : history'.submitted = history.submitted)
    (hreplaced : history'.replaced = history.replaced)
    (hgone : history'.gone.Perm (items ++ history.gone)) :
    Conserves pool' history' where
  perm := by
    rw [hsubmitted]
    calc history.submitted.Perm (pool.queued ++ history.gone) := h.perm
      _ |>.Perm (items ++ pool'.queued ++ history.gone) := hleaves.perm.append_right _
      _ |>.Perm (pool'.queued ++ items ++ history.gone) := List.perm_append_comm.append_right _
      _ = pool'.queued ++ (items ++ history.gone) := List.append_assoc ..
      _ |>.Perm (pool'.queued ++ history'.gone) := hgone.symm.append_left _
  opened := by
    intro item hitem
    have hqueued := hleaves.perm.mem_iff.mpr (List.mem_append_right items hitem)
    have hnodup := (hleaves.perm.map IdentifiedItem.itemId).nodup_iff.mp (h.nodup_queued hids)
    exact hleaves.settlements _ (h.opened item hqueued) fun other hother =>
      ids_ne_of_nodup hnodup hother hitem
  lanes lane q hq := h.lanes lane q ((hleaves.lanes lane).subset hq)
  replaced := by
    rw [hreplaced, hsubmitted]
    exact h.replaced

theorem Conserves.submit (h : Conserves pool history) (item : RateLimitItem T)
    (hids : ((history.submitted ++ [item.identify pool.seqCounter]).map
      IdentifiedItem.itemId).Nodup) :
    Conserves (pool.submit item) { history with
      submitted := history.submitted ++ [item.identify pool.seqCounter]
      replaced := history.replaced ++
        ((pool.replacedBy item).map (·, item.identify pool.seqCounter)).toList } := by
  set new := item.identify pool.seqCounter with hnew
  have hperm : (new :: pool.queued).Perm
      ((pool.replacedBy item).toList ++ (pool.submit item).queued) := submit_perm
  have hall : (history.submitted ++ [new]).Perm (new :: pool.queued ++ history.gone) :=
    (List.perm_append_singleton new _).trans (h.perm.cons new)
  refine ⟨?_, fun other hother => ?_, fun lane q hq => ?_, fun r hr => ?_⟩
  · have hgone : History.gone { history with
        submitted := history.submitted ++ [new]
        replaced := history.replaced ++ ((pool.replacedBy item).map (·, new)).toList } =
        history.gone ++ (pool.replacedBy item).toList := by
      cases pool.replacedBy item <;> simp [History.gone]
    rw [hgone]
    calc (history.submitted ++ [new]).Perm (new :: pool.queued ++ history.gone) := hall
      _ |>.Perm ((pool.replacedBy item).toList ++ (pool.submit item).queued ++ history.gone) :=
      hperm.append_right _
      _ = (pool.replacedBy item).toList ++ ((pool.submit item).queued ++ history.gone) :=
        List.append_assoc ..
      _ |>.Perm ((pool.submit item).queued ++ history.gone ++ (pool.replacedBy item).toList) :=
        List.perm_append_comm
      _ = (pool.submit item).queued ++ (history.gone ++ (pool.replacedBy item).toList) :=
        List.append_assoc ..
  · have hnodup := (hall.map IdentifiedItem.itemId).nodup_iff.mp hids
    rw [List.map_append, List.nodup_append] at hnodup
    have hnodup := (hperm.map IdentifiedItem.itemId).nodup_iff.mp hnodup.1
    rw [mem_submit_settlements]
    cases hperm.mem_iff.mpr (List.mem_append_right _ hother) with
    | head => exact .inr rfl
    | tail _ hqueued =>
      refine .inl ⟨h.opened other hqueued, fun old hold => ?_⟩
      exact ids_ne_of_nodup hnodup (Option.mem_toList.mpr hold) hother
  · obtain hq | ⟨rfl, hitem⟩ := mem_submit_lanes hq
    · exact h.lanes lane q hq
    · rw [hitem]
      rfl
  · rw [List.mem_append, Option.mem_toList, Option.map_eq_some_iff] at hr
    obtain hr | ⟨old, hold, rfl⟩ := hr
    · obtain ⟨hreplaces, hsublist⟩ := h.replaced r hr
      exact ⟨hreplaces, hsublist.trans (List.sublist_append_left _ _)⟩
    · obtain ⟨i, existing, hget, rfl, hsession, hkey, hsome, _⟩ := submit_of_replacedBy hold
      have hmem := List.mem_of_getElem? hget
      have hsubmitted : existing.item ∈ history.submitted :=
        h.perm.mem_iff.mpr (List.mem_append_left _ (mem_queued.mpr ⟨_, existing, hmem, rfl⟩))
      exact ⟨⟨hsession.symm, (h.lanes _ existing hmem).symm, hkey.symm, hkey ▸ hsome⟩,
        (List.singleton_sublist.mpr hsubmitted).append (.refl [new])⟩

structure Tokens (pool : RateLimitPool T) : Prop where
  nonneg : 0 ≤ pool.tokens
  wf : pool.bucket.Wf
  capacity : 0 ≤ pool.capacity

@[simp] theorem refill_bucket (nowMs : ℚ) :
    (pool.refill nowMs).bucket = pool.bucket.refill nowMs := by
  have hunit : (nowMs - pool.lastRefill) / 1000 * pool.refillPerSec =
      (nowMs - pool.lastRefill) * (pool.refillPerSec / 1000) := by ring
  by_cases h : nowMs ≤ pool.lastRefill
  · simp [refill, TokenBucket.refill, bucket, h]
  · simp [refill, TokenBucket.refill, bucket, h, hunit]

theorem Tokens.refill (h : Tokens pool) (nowMs : ℚ) : Tokens (pool.refill nowMs) where
  nonneg := by
    rw [RateLimitPool.refill]
    split
    next => exact h.nonneg
    next hlt =>
      have helapsed : 0 ≤ (nowMs - pool.lastRefill) / 1000 := by linarith
      have hrate : 0 ≤ pool.refillPerSec := by
        have := h.wf.rate_nonneg
        simp only [bucket] at this
        linarith
      exact le_min h.capacity (add_nonneg h.nonneg (mul_nonneg helapsed hrate))
  wf := by
    rw [refill_bucket]
    exact h.wf.refill nowMs
  capacity := by
    rw [RateLimitPool.refill]
    split <;> exact h.capacity

theorem Tokens.congr (h : Tokens pool) (hbucket : pool'.bucket = pool.bucket) : Tokens pool' where
  nonneg := (congrArg TokenBucket.tokens hbucket).ge.trans' h.nonneg
  wf := hbucket ▸ h.wf
  capacity := (congrArg TokenBucket.capacity hbucket).ge.trans' h.capacity

theorem Tokens.take (h : Tokens pool) {n : Nat} (hbucket : pool'.bucket = pool.bucket.take n)
    (hn : (n : ℚ) ≤ pool.tokens) : Tokens pool' where
  nonneg := (congrArg TokenBucket.tokens hbucket).ge.trans' (sub_nonneg.mpr hn)
  wf := hbucket ▸ h.wf.take n
  capacity := (congrArg TokenBucket.capacity hbucket).ge.trans' h.capacity

theorem drainWithExpired_spec (h : Conserves pool history)
    (hids : (history.submitted.map IdentifiedItem.itemId).Nodup)
    (htokens : Tokens pool) (nowMs : ℚ) :
    ∃ pool' result, pool.drainWithExpired nowMs = .ok (pool', result) ∧
      Conserves pool' { history with
        granted := history.granted ++ [(nowMs, result.granted)]
        expired := history.expired ++ result.expired } ∧
      Tokens pool' ∧ pool'.seqCounter = pool.seqCounter ∧
      (result.granted.length : ℚ) ≤ (pool.bucket.refill nowMs).tokens ∧
      pool'.bucket = (pool.bucket.refill nowMs).take result.granted.length ∧
      (pool'.tokens < 1 ∨ pool'.queued = []) := by
  have hrefilled : Conserves (pool.refill nowMs) history := by
    rw [refill]
    split
    · exact h
    · exact ⟨h.perm, h.opened, h.lanes, h.replaced⟩
  have hseq : (pool.refill nowMs).seqCounter = pool.seqCounter := by
    rw [refill]
    split <;> rfl
  set due : IdentifiedItem T → Bool := fun item => item.deadlineAt.elim false (· ≤ nowMs) with hdue
  set live := (pool.refill nowMs).removeWhere due .expired with hlive
  have hleaves : Leaves (pool.refill nowMs) live.1 live.2 :=
    removeWhere_leaves (pool.refill nowMs) due .expired
  have hconserves : Conserves live.1 { history with expired := history.expired ++ live.2 } := by
    refine hrefilled.leave hids hleaves rfl rfl ?_
    have := append_append_perm (history.granted.flatMap Prod.snd ++ history.expired) live.2
      (history.removed ++ history.replaced.map Prod.fst)
    simpa [History.gone] using this
  have hbucket : live.1.bucket = pool.bucket.refill nowMs := by
    rw [hlive, removeWhere_bucket, refill_bucket]
  have hlivetokens : Tokens live.1 :=
    (htokens.refill nowMs).congr (hbucket.trans (refill_bucket nowMs).symm)
  obtain ⟨pool', granted, hloop, hserves, hle, hdone⟩ :=
    drainLoop_spec [] live.1.pending hconserves.opened hlivetokens.nonneg
  refine ⟨pool', ⟨granted, live.2⟩, ?_, ?_, hlivetokens.take hserves.bucket hle,
    hserves.seqCounter.trans (hleaves.seqCounter.trans hseq), ?_, ?_, hdone (pending_eq live.1).ge⟩
  · rw [drainWithExpired]
    simp only [← hdue, ← hlive, hloop]
    rfl
  · refine hconserves.leave hids hserves.leaves rfl rfl ?_
    have := append_append_perm (history.granted.flatMap Prod.snd) granted
      (history.expired ++ live.2 ++ history.removed ++ history.replaced.map Prod.fst)
    simpa [History.gone] using this
  · rw [← hbucket]
    exact hle
  · rw [hserves.bucket, hbucket]

theorem Conserves.remove (h : Conserves pool history)
    (hids : (history.submitted.map IdentifiedItem.itemId).Nodup)
    (hleaves : Leaves pool pool' items) :
    Conserves pool' { history with removed := history.removed ++ items } := by
  refine h.leave hids hleaves rfl rfl ?_
  have :=
    append_append_perm (history.granted.flatMap Prod.snd ++ history.expired ++ history.removed) items
    (history.replaced.map Prod.fst)
  simpa [History.gone] using this

theorem uses_nil {b b' : TokenBucket ℚ} (h : b' = b) : TokenBucket.Uses b [] b' := h ▸ .nil

theorem step_spec (call : Call T) (h : Conserves pool history) (htokens : Tokens pool)
    (hids : ((history.submitted ++ identifyAll pool.seqCounter [call]).map
      IdentifiedItem.itemId).Nodup) :
    ∃ pool' history' grants, step (pool, history) call = .ok (pool', history') ∧
      Conserves pool' history' ∧
      Tokens pool' ∧ history'.submitted = history.submitted ++ identifyAll pool.seqCounter [call] ∧
      pool'.seqCounter = pool.seqCounter + (identifyAll pool.seqCounter [call]).length ∧
      history'.granted = history.granted ++ grants ∧ grants.map Prod.fst = call.clock?.toList ∧
      TokenBucket.Uses pool.bucket (grants.map fun drain => (drain.1, drain.2.length))
        pool'.bucket := by
  cases call with
  | submit item =>
    refine ⟨_, _, [], rfl, h.submit item hids, htokens.congr submit_bucket, rfl, submit_seqCounter,
      (List.append_nil _).symm, rfl, uses_nil submit_bucket⟩
  | removeWhere predicate disposition =>
    simp only [identifyAll, List.append_nil] at hids
    have hleaves := removeWhere_leaves pool predicate disposition
    refine ⟨_, _, [], rfl, h.remove hids hleaves, htokens.congr (removeWhere_bucket ..),
      (List.append_nil _).symm, hleaves.seqCounter, (List.append_nil _).symm, rfl,
      uses_nil (removeWhere_bucket ..)⟩
  | removeById itemId =>
    simp only [identifyAll, List.append_nil] at hids
    have hleaves := removeById_leaves pool itemId
    refine ⟨_, _, [], rfl, h.remove hids hleaves, htokens.congr (removeById_bucket _),
      (List.append_nil _).symm, hleaves.seqCounter, (List.append_nil _).symm, rfl,
      uses_nil (removeById_bucket _)⟩
  | drain nowMs =>
    simp only [identifyAll, List.append_nil] at hids
    obtain ⟨pool', result, hdrain, hconserves, htokens', hseq, hle, hbucket, _⟩ :=
      drainWithExpired_spec h hids htokens nowMs
    refine ⟨pool', _, [(nowMs, result.granted)], ?_, hconserves, htokens', (List.append_nil _).symm,
      hseq, rfl, rfl, .cons hle (uses_nil hbucket)⟩
    simp only [step, hdrain]
    rfl

end

theorem identifyAll_cons (seq : Nat) (call : Call T) (calls : List (Call T)) :
    identifyAll seq (call :: calls) =
      identifyAll seq [call] ++ identifyAll (seq + (identifyAll seq [call]).length) calls := by
  cases call <;> rfl

theorem run_spec (calls : List (Call T)) {pool : RateLimitPool T} {history : History T}
    (h : Conserves pool history) (htokens : Tokens pool)
    (hids : ((history.submitted ++ identifyAll pool.seqCounter calls).map
      IdentifiedItem.itemId).Nodup) :
    ∃ pool' history' grants, run (pool, history) calls = .ok (pool', history') ∧
      Conserves pool' history' ∧
      history'.submitted = history.submitted ++ identifyAll pool.seqCounter calls ∧
      history'.granted = history.granted ++ grants ∧
        grants.map Prod.fst = calls.filterMap Call.clock? ∧
      TokenBucket.Uses pool.bucket (grants.map fun drain => (drain.1, drain.2.length))
        pool'.bucket := by
  induction calls generalizing pool history with
  | nil =>
    exact ⟨pool, history, [], rfl, h, (List.append_nil _).symm, (List.append_nil _).symm, rfl, .nil⟩
  | cons call calls ih =>
    rw [identifyAll_cons, ← List.append_assoc] at hids
    obtain ⟨pool₁, history₁, grants₁, hstep, h₁, htokens₁, hsubmitted₁, hseq₁, hgrants₁,
        hclock₁, huses₁⟩ :=
      step_spec call h htokens (by rw [List.map_append] at hids; exact (List.nodup_append.mp hids).1)
    obtain ⟨pool', history', grants, hrun, h', hsubmitted, hgrants, hclock, huses⟩ :=
      ih h₁ htokens₁ (by rw [hsubmitted₁, hseq₁]; exact hids)
    refine ⟨pool', history', grants₁ ++ grants, ?_, h', ?_, ?_, ?_, ?_⟩
    · rw [run, List.foldlM_cons, hstep]
      exact hrun
    · rw [hsubmitted, hsubmitted₁, hseq₁, identifyAll_cons pool.seqCounter call calls,
        List.append_assoc]
    · rw [hgrants, hgrants₁, List.append_assoc]
    · rw [List.map_append, hclock₁, hclock]
      cases hc : call.clock? <;> simp [hc]
    · rw [List.map_append]
      exact huses₁.append huses

theorem conserves_new (options : RateLimitPoolOptions) (start : ℚ) :
    Conserves (new options start : RateLimitPool T) {} where
  perm := .rfl
  opened _ hitem := nomatch hitem
  lanes _ _ hq := nomatch hq
  replaced _ hr := nomatch hr

theorem tokens_new (options : RateLimitPoolOptions) (start : ℚ) :
    Tokens (new options start : RateLimitPool T) where
  nonneg := zero_le_one.trans (le_max_left ..)
  wf := ⟨div_nonneg (le_max_left ..) (by norm_num), le_rfl⟩
  capacity := zero_le_one.trans (le_max_left ..)

/-- The limiter keeps its promise in every run of distinct items against a clock that does not go
back. -/
theorem pool_keeps_its_promise (options : RateLimitPoolOptions) (start : ℚ) (calls : List (Call T))
    (hids : ((identifyAll 0 calls).map IdentifiedItem.itemId).Nodup)
    (hclock : (start :: calls.filterMap Call.clock?).Pairwise (· ≤ ·)) :
    ∃ pool history, run (new options start, {}) calls = .ok (pool, history) ∧
      (∀ t₁ t₂, t₁ ≤ t₂ → (history.grantedBetween t₁ t₂ : ℚ) ≤
        max 1 (options.capacity.getD 20) + max 0 (options.refillPerSec.getD 1) *
          ((t₂ - t₁) / 1000)) ∧
      history.submitted = identifyAll 0 calls ∧
        history.submitted.Perm (pool.queued ++ history.gone) ∧
      ((pool.queued ++ history.gone).map IdentifiedItem.itemId).Nodup ∧
      ∀ r ∈ history.replaced, Replaces r.2 r.1 ∧ [r.1, r.2].Sublist history.submitted := by
  obtain ⟨pool, history, grants, hrun, hconserves, hsubmitted, hgrants, htimes, huses⟩ :=
    run_spec calls (conserves_new options start) (tokens_new options start) hids
  have hnodup : ((pool.queued ++ history.gone).map IdentifiedItem.itemId).Nodup := by
    refine (hconserves.perm.map IdentifiedItem.itemId).nodup_iff.mp ?_
    rw [hsubmitted]
    exact hids
  refine ⟨pool, history, hrun, fun t₁ t₂ ht => ?_, hsubmitted, hconserves.perm, hnodup,
    hconserves.replaced⟩
  have hsorted : ((new options start : RateLimitPool T).bucket.last ::
      (grants.map fun drain => (drain.1, drain.2.length)).map Prod.fst).Pairwise (· ≤ ·) := by
    rw [List.map_map]
    exact htimes.symm ▸ hclock
  have htokens := tokens_new (T := T) options start
  have hgranted : history.grantedBetween t₁ t₂ =
      TokenBucket.takenBetween t₁ t₂ (grants.map fun drain => (drain.1, drain.2.length)) := by
    rw [History.grantedBetween, hgrants, TokenBucket.takenBetween, List.filter_map, List.map_map]
    rfl
  rw [hgranted]
  calc _ ≤ max 1 (options.capacity.getD 20) + (t₂ - t₁) *
    (max 0 (options.refillPerSec.getD 1) / 1000) :=
      huses.takenBetween_le htokens.wf htokens.capacity hsorted ht
    _ = max 1 (options.capacity.getD 20) + max 0 (options.refillPerSec.getD 1) *
      ((t₂ - t₁) / 1000) := by ring

theorem promise_kept_for_two_edits :
    ∃ (pool : RateLimitPool Nat) (history : History Nat),
      run (new { capacity := some 1 } 0, {})
        [.submit { sessionId := "a", lane := .live, coalesceKey := some "k", payload := 1 },
          .submit { sessionId := "a", lane := .live, coalesceKey := some "k", payload := 2 },
          .submit { sessionId := "b", lane := .ask, itemId := some "q", payload := 3 },
          .drain 10, .drain 500] = .ok (pool, history) ∧
      (history.grantedBetween 10 500 : ℚ) ≤ max 1 1 + max 0 1 * ((500 - 10) / 1000) := by
  obtain ⟨pool, history, hrun, hbound, _⟩ := pool_keeps_its_promise { capacity := some 1 } 0
    [.submit { sessionId := "a", lane := .live, coalesceKey := some "k", payload := 1 },
      .submit { sessionId := "a", lane := .live, coalesceKey := some "k", payload := 2 },
      .submit { sessionId := "b", lane := .ask, itemId := some "q", payload := 3 },
      .drain 10, .drain 500] (by decide +kernel) (by decide +kernel)
  exact ⟨pool, history, hrun, hbound 10 500 (by norm_num)⟩

end RateLimitPool

end JevCode.Sdk
