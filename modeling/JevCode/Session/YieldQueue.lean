import JevCode.Data.InsertionMap
import Mathlib.Data.List.SplitBy

namespace JevCode.Session

open Data

structure YieldDispatcher (ε Entry Message : Type) where
  isStale : Option (Entry → Except ε Bool)
  groupKey : Option (Entry → Except ε String)
  build : List Entry → Except ε (Option Message)

inductive YieldFlushMode
  | streaming
  | idle
  deriving DecidableEq

structure YieldQueue (ε Entry Message : Type) where
  dispatchers : InsertionMap String (YieldDispatcher ε Entry Message)
  entries : InsertionMap String (List Entry)

variable {ε Entry Message : Type}

namespace YieldDispatcher

variable (d : YieldDispatcher ε Entry Message)

def isKept (entry : Entry) : Bool :=
  match d.isStale with
  | none => true
  | some isStale =>
    match isStale entry with
    | .ok stale => !stale
    | .error _ => false

def keyOf (entry : Entry) : Except ε String :=
  match d.groupKey with
  | none => .ok "default"
  | some groupKey => groupKey entry

def groupStep (acc : List (List Entry) × Option String) (entry : Entry) :
    Except ε (List (List Entry) × Option String) := do
  let key ← d.keyOf entry
  match acc.1.getLast? with
  | some last =>
    if acc.2 = some key then return (acc.1.dropLast ++ [last ++ [entry]], acc.2)
    else return (acc.1 ++ [[entry]], some key)
  | none => return (acc.1 ++ [[entry]], some key)

def buildGroup (group : List Entry) : Option Message :=
  match d.build group with
  | .ok message => message
  | .error _ => none

def buildMessages (entries : List Entry) : Except ε (Option (List Message)) :=
  let survivors := entries.filter d.isKept
  if survivors.isEmpty then .ok none
  else do
    let (groups, _) ← survivors.foldlM d.groupStep ([], none)
    let messages := groups.filterMap d.buildGroup
    return if messages.length > 0 then some messages else none

end YieldDispatcher

namespace YieldQueue

def enqueue (q : YieldQueue ε Entry Message) (kind : String) (entry : Entry) :
    YieldQueue ε Entry Message :=
  match q.dispatchers.get? kind with
  | none => q
  | some _ => { q with entries := q.entries.set kind ((q.entries.get? kind).getD [] ++ [entry]) }

def drain (entries : InsertionMap String (List Entry)) (kind : String) :
    List Entry × InsertionMap String (List Entry) :=
  match entries.get? kind with
  | none => ([], entries)
  | some [] => ([], entries)
  | some (entry :: more) => (entry :: more, entries.erase kind)

def flushLoop : List (String × YieldDispatcher ε Entry Message) → InsertionMap String (List Entry) →
    List Message →
    Except ε Unit × InsertionMap String (List Entry) × List Message
  | [], entries, messages => (.ok (), entries, messages)
  | (kind, d) :: kinds, entries, messages =>
    let (drained, entries) := drain entries kind
    if drained.length = 0 then flushLoop kinds entries messages
    else
      match d.buildMessages drained with
      | .error e => (.error e, entries, messages)
      | .ok built => flushLoop kinds entries (messages ++ built.getD [])

structure Flush (ε Entry Message : Type) where
  handed : List Message
  result : Except ε Unit
  queue : YieldQueue ε Entry Message

def flush (q : YieldQueue ε Entry Message) (mode : YieldFlushMode) : Flush ε Entry Message :=
  let (result, entries, messages) := flushLoop q.dispatchers.entries q.entries []
  let handed :=
    match mode, result with
    | .streaming, _ => messages
    | .idle, .ok _ => messages
    | .idle, .error _ => []
  ⟨handed, result, { q with entries := entries }⟩

end YieldQueue

def YieldDispatcher.withKey (d : YieldDispatcher ε Entry Message) (entry : Entry) :
    Option (String × Entry) :=
  (d.keyOf entry).toOption.map (·, entry)

def YieldDispatcher.intended (d : YieldDispatcher ε Entry Message) (entries : List Entry) :
    List Message :=
  let keyed := (entries.filter d.isKept).filterMap d.withKey
  ((keyed.splitBy fun a b => a.1 == b.1).map (List.map Prod.snd)).filterMap d.buildGroup

/-- A flush ends without an exception, hands over the messages of every kind, and takes all their
entries and no others. -/
structure YieldQueue.Isolates (q : YieldQueue ε Entry Message) (mode : YieldFlushMode) : Prop where
  completes : (q.flush mode).result = .ok ()
  handed_eq : (q.flush mode).handed =
    q.dispatchers.entries.flatMap fun kind => kind.2.intended ((q.entries.get? kind.1).getD [])
  taken : ∀ kind ∈ q.dispatchers.keys, ((q.flush mode).queue.entries.get? kind).getD [] = []
  others : ∀ kind, kind ∉ q.dispatchers.keys →
    (q.flush mode).queue.entries.get? kind = q.entries.get? kind

/-- The callback that no handler is around: it throws for no entry that is not stale. -/
def YieldQueue.KeysReturn (q : YieldQueue ε Entry Message) : Prop :=
  ∀ kind d, q.dispatchers.get? kind = some d →
    ∀ entry ∈ (q.entries.get? kind).getD [], d.isKept entry = true →
    ∃ key, d.keyOf entry = .ok key

section

variable {α : Type} {r : α → α → Bool}

theorem splitBy_concat_of_rel {done : List α} {groups : List (List α)} {last : List α} {x a : α}
    (h : done.splitBy r = groups ++ [last]) (hx : done.getLast? = some x) (hr : r x a = true) :
    (done ++ [a]).splitBy r = groups ++ [last ++ [a]] := by
  obtain ⟨hflat, hnil, hchain, hbetween⟩ := List.splitBy_eq_iff.mp h
  have hlast : last ≠ [] := fun heq => hnil (by simp [heq])
  have hlastx : last.getLast? = some x := by
    rw [hflat, List.flatten_append, List.flatten_singleton,
      List.getLast?_append_of_ne_nil _ hlast] at hx
    exact hx
  rw [List.splitBy_eq_iff]
  refine ⟨?_, ?_, ?_, ?_⟩
  · rw [hflat]
    simp
  · intro hmem
    obtain hmem | hmem := List.mem_append.mp hmem
    · exact hnil (List.mem_append_left _ hmem)
    · simp at hmem
  · intro m hm
    obtain hm | hm := List.mem_append.mp hm
    · exact hchain m (List.mem_append_left _ hm)
    · rw [List.mem_singleton.mp hm, List.isChain_append]
      refine ⟨hchain last (by simp), .singleton a, fun y hy z hz => ?_⟩
      rw [hlastx] at hy
      cases hy
      cases hz
      exact hr
  · rw [List.isChain_append] at hbetween ⊢
    refine ⟨hbetween.1, .singleton _, fun y hy z hz => ?_⟩
    cases hz
    obtain ⟨hy', hlast', hrel⟩ := hbetween.2.2 y hy last rfl
    exact ⟨hy', by simp, by rwa [List.head_append_of_ne_nil hlast]⟩

theorem splitBy_concat_of_not_rel {done : List α} {a : α} (h : ∀ x ∈ done.getLast?, r x a = false) :
    (done ++ [a]).splitBy r = done.splitBy r ++ [[a]] :=
  List.splitBy_append_cons [] h

end

namespace YieldDispatcher

variable (d : YieldDispatcher ε Entry Message)

def sameKey (a b : String × Entry) : Bool := a.1 == b.1

/-- The groups of entries with keys, and the key of the last. -/
def grouped (keyed : List (String × Entry)) : List (List Entry) × Option String :=
  ((keyed.splitBy sameKey).map (List.map Prod.snd), keyed.getLast?.map Prod.fst)

theorem groupStep_grouped (keyed : List (String × Entry)) {key : String} {entry : Entry}
    (h : d.keyOf entry = .ok key) :
    d.groupStep (grouped keyed) entry = .ok (grouped (keyed ++ [(key, entry)])) := by
  have hlast : (keyed ++ [(key, entry)]).getLast?.map Prod.fst = some key := by
    rw [List.getLast?_concat]
    rfl
  have hnew (hne : ∀ x ∈ keyed.getLast?, x.1 ≠ key) :
      grouped (keyed ++ [(key, entry)]) = ((grouped keyed).1 ++ [[entry]], some key) := by
    have hrel : ∀ x ∈ keyed.getLast?, sameKey x (key, entry) = false := fun x hx =>
      beq_eq_false_iff_ne.mpr (hne x hx)
    rw [grouped, hlast, splitBy_concat_of_not_rel hrel, List.map_append]
    rfl
  unfold groupStep
  rw [h]
  obtain rfl | ⟨init, x, rfl⟩ := keyed.eq_nil_or_concat
  · rfl
  · rw [List.concat_eq_append] at hnew hlast ⊢
    obtain hnil | ⟨groups, last, hgroups⟩ := ((init ++ [x]).splitBy sameKey).eq_nil_or_concat
    · exact absurd (List.splitBy_eq_nil.mp hnil) (by simp)
    · rw [List.concat_eq_append] at hgroups
      have hgrouped : grouped (init ++ [x]) = (groups.map (List.map Prod.snd) ++ [last.map Prod.snd],
          some x.1) := by
        rw [grouped, hgroups, List.map_append, List.getLast?_concat]
        rfl
      have hget : (grouped (init ++ [x])).1.getLast? = some (last.map Prod.snd) := by
        rw [hgrouped, List.getLast?_concat]
      simp only [bind, Except.bind, hget]
      by_cases hkey : x.1 = key
      · have hrel : sameKey x (key, entry) = true := beq_iff_eq.mpr hkey
        rw [hgrouped, if_pos (by rw [hkey]), List.dropLast_concat, grouped, hlast,
          splitBy_concat_of_rel hgroups List.getLast?_concat hrel, List.map_append, hkey]
        simp [pure, Except.pure]
      · rw [hnew fun y hy => by rw [List.getLast?_concat] at hy; cases hy; exact hkey, hgrouped,
          if_neg (fun heq => hkey (Option.some.inj heq))]
        rfl

def Keyed (entries : List Entry) (keyed : List (String × Entry)) : Prop :=
  List.Forall₂ (fun entry pair => d.keyOf entry = .ok pair.1 ∧ pair.2 = entry) entries keyed

variable {d}

theorem foldlM_groupStep {entries : List Entry} {keyed : List (String × Entry)}
    (h : d.Keyed entries keyed) (done : List (String × Entry)) :
    entries.foldlM d.groupStep (grouped done) = .ok (grouped (done ++ keyed)) := by
  induction h generalizing done with
  | nil => rw [List.append_nil]; rfl
  | @cons entry pair entries keyed hpair _ ih =>
    obtain ⟨key, entry⟩ := pair
    obtain ⟨hkey, rfl⟩ := hpair
    rw [List.foldlM_cons, groupStep_grouped d done hkey]
    change entries.foldlM d.groupStep (grouped (done ++ [(key, entry)])) = _
    rw [ih, List.append_assoc, List.singleton_append]

theorem keyed_or_throws (d : YieldDispatcher ε Entry Message) (entries : List Entry) :
    (∃ keyed, d.Keyed entries keyed) ∧ (∀ entry ∈ entries, ∃ key, d.keyOf entry = .ok key) ∨
      (∃ entry ∈ entries, ∀ key, d.keyOf entry ≠ .ok key) ∧
        ∀ done, ∃ e, entries.foldlM d.groupStep (grouped done) = .error e := by
  induction entries with
  | nil => exact .inl ⟨⟨[], .nil⟩, fun entry hentry => nomatch hentry⟩
  | cons entry entries ih =>
    cases hkey : d.keyOf entry with
    | error e =>
      refine .inr ⟨⟨entry, List.mem_cons_self, fun key h => nomatch hkey.symm.trans h⟩,
        fun done => ⟨e, ?_⟩⟩
      rw [List.foldlM_cons, groupStep, hkey]
      rfl
    | ok key =>
      obtain ⟨⟨keyed, hkeyed⟩, hall⟩ | ⟨⟨entry', hmem, hthrows⟩, hfold⟩ := ih
      · exact .inl ⟨⟨(key, entry) :: keyed, .cons ⟨hkey, rfl⟩ hkeyed⟩,
          List.forall_mem_cons.mpr ⟨⟨key, hkey⟩, hall⟩⟩
      · refine .inr ⟨⟨entry', List.mem_cons_of_mem _ hmem, hthrows⟩, fun done => ?_⟩
        obtain ⟨e, he⟩ := hfold (done ++ [(key, entry)])
        exact ⟨e, by rw [List.foldlM_cons, groupStep_grouped d done hkey]; exact he⟩

theorem intended_of_keyed {entries : List Entry} {keyed : List (String × Entry)}
    (h : d.Keyed (entries.filter d.isKept) keyed) :
    d.intended entries = (grouped keyed).1.filterMap d.buildGroup := by
  have hkeyed : (entries.filter d.isKept).filterMap d.withKey = keyed := by
    generalize entries.filter d.isKept = survivors at h
    induction h with
    | nil => rfl
    | @cons entry pair entries keyed hpair _ ih =>
      obtain ⟨key, entry⟩ := pair
      obtain ⟨hkey, rfl⟩ := hpair
      rw [List.filterMap_cons, withKey, hkey, ih]
      rfl
  rw [intended, hkeyed]
  rfl

theorem buildMessages_cases (d : YieldDispatcher ε Entry Message) (entries : List Entry) :
    (∃ built, d.buildMessages entries = .ok built ∧ built.getD [] = d.intended entries ∧
        ∀ entry ∈ entries, d.isKept entry = true → ∃ key, d.keyOf entry = .ok key) ∨
      (∃ e, d.buildMessages entries = .error e) ∧
        ∃ entry ∈ entries, d.isKept entry = true ∧ ∀ key, d.keyOf entry ≠ .ok key := by
  obtain ⟨⟨keyed, hkeyed⟩, hkeys⟩ | ⟨⟨entry, hmem, hthrows⟩, hfold⟩ :=
    d.keyed_or_throws (entries.filter d.isKept)
  · have hkept : ∀ entry ∈ entries, d.isKept entry = true → ∃ key, d.keyOf entry = .ok key :=
      fun entry hentry hkept => hkeys entry (List.mem_filter.mpr ⟨hentry, hkept⟩)
    refine .inl ?_
    rw [intended_of_keyed hkeyed]
    cases hempty : (entries.filter d.isKept).isEmpty with
    | true =>
      rw [List.isEmpty_iff.mp hempty] at hkeyed
      cases hkeyed
      exact ⟨none, by simp [buildMessages, hempty], rfl, hkept⟩
    | false =>
      have hbuild : d.buildMessages entries =
          .ok (if ((grouped keyed).1.filterMap d.buildGroup).length > 0
          then some ((grouped keyed).1.filterMap d.buildGroup)
            else none) := by
        simp only [buildMessages, hempty, Bool.false_eq_true, if_false]
        change ((entries.filter d.isKept).foldlM d.groupStep (grouped []) >>= fun x => _) = _
        rw [foldlM_groupStep hkeyed]
        rfl
      refine ⟨_, hbuild, ?_, hkept⟩
      split
      next => rfl
      next hnone => exact (List.eq_nil_of_length_eq_zero (Nat.eq_zero_of_not_pos hnone)).symm
  · refine .inr ⟨?_, entry, (List.mem_filter.mp hmem).1, (List.mem_filter.mp hmem).2, hthrows⟩
    obtain ⟨e, he⟩ := hfold []
    have hne : (entries.filter d.isKept).isEmpty = false := by
      rw [List.isEmpty_eq_false_iff]
      exact List.ne_nil_of_mem hmem
    refine ⟨e, ?_⟩
    simp only [buildMessages, hne, Bool.false_eq_true, if_false]
    change ((entries.filter d.isKept).foldlM d.groupStep (grouped []) >>= fun x => _) = _
    rw [he]
    rfl

end YieldDispatcher

namespace YieldQueue

theorem drain_fst (entries : InsertionMap String (List Entry)) (kind : String) :
    (drain entries kind).1 = (entries.get? kind).getD [] := by
  unfold drain
  split <;> simp_all

theorem getD_drain (entries : InsertionMap String (List Entry)) (kind : String) :
    ((drain entries kind).2.get? kind).getD [] = [] := by
  unfold drain
  split <;> simp_all [InsertionMap.get?_erase]

theorem get?_drain_of_ne {entries : InsertionMap String (List Entry)} {kind other : String}
    (h : other ≠ kind) :
    (drain entries kind).2.get? other = entries.get? other := by
  unfold drain
  split
  · rfl
  · rfl
  · rw [InsertionMap.get?_erase, if_neg h]

theorem flushLoop_cons (kind : String) (d : YieldDispatcher ε Entry Message)
    (kinds : List (String × YieldDispatcher ε Entry Message))
    (entries : InsertionMap String (List Entry)) (messages : List Message) :
    flushLoop ((kind, d) :: kinds) entries messages =
      match d.buildMessages ((entries.get? kind).getD []) with
      | .error e => (.error e, (drain entries kind).2, messages)
      | .ok built => flushLoop kinds (drain entries kind).2 (messages ++ built.getD []) := by
  rw [flushLoop, ← drain_fst]
  simp only
  split
  next hnone =>
    rw [List.eq_nil_of_length_eq_zero hnone]
    change _ = flushLoop kinds _ (messages ++ [])
    rw [List.append_nil]
  next => rfl

theorem flushLoop_cases {kinds : List (String × YieldDispatcher ε Entry Message)}
    (hnodup : (kinds.map Prod.fst).Nodup) (entries : InsertionMap String (List Entry))
    (messages : List Message) :
    (∃ left, flushLoop kinds entries messages = (.ok (), left,
          messages ++ kinds.flatMap fun kind => kind.2.intended ((entries.get? kind.1).getD [])) ∧
        (∀ kind ∈ kinds.map Prod.fst, (left.get? kind).getD [] = []) ∧
        (∀ kind, kind ∉ kinds.map Prod.fst → left.get? kind = entries.get? kind) ∧
        ∀ kind ∈ kinds, ∀ entry ∈ (entries.get? kind.1).getD [], kind.2.isKept entry = true →
          ∃ key, kind.2.keyOf entry = .ok key) ∨
      (∃ e, (flushLoop kinds entries messages).1 = .error e) ∧
        ∃ kind ∈ kinds, ∃ entry ∈ (entries.get? kind.1).getD [], kind.2.isKept entry = true ∧
          ∀ key, kind.2.keyOf entry ≠ .ok key := by
  induction kinds generalizing entries messages with
  | nil => exact .inl ⟨entries, by rw [flushLoop]; simp, by simp, fun _ _ => rfl, by simp⟩
  | cons kind kinds ih =>
    obtain ⟨kind, d⟩ := kind
    rw [List.map_cons, List.nodup_cons] at hnodup
    have hother : ∀ other ∈ kinds, (drain entries kind).2.get? other.1 = entries.get? other.1 :=
      fun other hmem =>
      get?_drain_of_ne fun heq => hnodup.1 (List.mem_map.mpr ⟨other, hmem, heq⟩)
    rw [flushLoop_cons]
    obtain ⟨built, hbuilt, hintended, hkeys⟩ | ⟨⟨e, he⟩, entry, hentry, hkept, hthrows⟩ :=
      d.buildMessages_cases ((entries.get? kind).getD [])
    · simp only [hbuilt, hintended]
      obtain ⟨left, hloop, htaken, hothers, hrest⟩ | ⟨hthrows, other, hmem, entry, hentry, hfails⟩ :=
        ih hnodup.2 (drain entries kind).2 (messages ++ d.intended ((entries.get? kind).getD []))
      · refine .inl ⟨left, ?_, List.forall_mem_cons.mpr ⟨?_, htaken⟩, fun other hne => ?_,
          List.forall_mem_cons.mpr ⟨hkeys, fun other hmem => ?_⟩⟩
        · have hsame : (kinds.flatMap fun other =>
            other.2.intended (((drain entries kind).2.get? other.1).getD [])) =
              kinds.flatMap fun other => other.2.intended ((entries.get? other.1).getD []) :=
            List.flatMap_congr fun other hmem => by rw [hother other hmem]
          rw [hloop, hsame, List.flatMap_cons, List.append_assoc]
        · rw [hothers kind hnodup.1]
          exact getD_drain entries kind
        · rw [List.map_cons, List.mem_cons, not_or] at hne
          rw [hothers other hne.2, get?_drain_of_ne hne.1]
        · have := hrest other hmem
          rwa [hother other hmem] at this
      · rw [hother other hmem] at hentry
        exact .inr ⟨hthrows, other, List.mem_cons_of_mem _ hmem, entry, hentry, hfails⟩
    · rw [he]
      exact .inr ⟨⟨e, rfl⟩, (kind, d), List.mem_cons_self, entry, hentry, hkept, hthrows⟩

theorem isolates_iff_keysReturn (q : YieldQueue ε Entry Message) (mode : YieldFlushMode) :
    q.Isolates mode ↔ q.KeysReturn := by
  obtain ⟨left, hloop, htaken, hothers, hkeys⟩ |
      ⟨⟨e, he⟩, kind, hmem, entry, hentry, hkept, hthrows⟩ :=
    flushLoop_cases q.dispatchers.nodup q.entries []
  · refine iff_of_true ?_ fun kind d hd => hkeys (kind, d) (InsertionMap.mem_entries.mpr hd)
    have hflush : q.flush mode =
        ⟨q.dispatchers.entries.flatMap fun kind => kind.2.intended ((q.entries.get? kind.1).getD []),
        .ok (), { q with entries := left }⟩ := by
      rw [flush, hloop, List.nil_append]
      cases mode <;> rfl
    refine ⟨by rw [hflush], by rw [hflush], fun kind hkind => ?_, fun kind hkind => ?_⟩
    · rw [hflush]
      exact htaken kind hkind
    · rw [hflush]
      exact hothers kind hkind
  · refine iff_of_false (fun h => ?_) fun h => ?_
    · have hresult : (q.flush mode).result = .error e := he
      exact nomatch hresult.symm.trans h.completes
    · obtain ⟨key, hkey⟩ := h kind.1 kind.2 (InsertionMap.mem_entries.mp hmem) entry hentry hkept
      exact hthrows key hkey

def echo (groupKey : Nat → Except Unit String) : YieldDispatcher Unit Nat (List Nat) :=
  ⟨none, some groupKey, fun group => .ok (some group)⟩

def twoKinds (groupKey : Nat → Except Unit String) : YieldQueue Unit Nat (List Nat) :=
  let q : YieldQueue Unit Nat (List Nat) :=
    ⟨.ofList [("bash", echo fun _ => .ok "main"), ("task", echo groupKey)], .empty⟩
  (q.enqueue "bash" 1).enqueue "task" 2

theorem groupKey_exception_loses_messages_of_other_kind :
    ((twoKinds fun _ => .error ()).flush .idle).handed = [] ∧
      (((twoKinds fun _ => .error ()).flush .idle).queue.entries.get? "bash").getD [] = [] ∧
      ((twoKinds fun _ => .ok "task").flush .idle).handed = [[1], [2]] := by
  decide

end YieldQueue

end JevCode.Session
