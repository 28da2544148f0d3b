import JevCode.Data.Runs
import JevCode.Data.Slots

namespace JevCode.Utils

open JevCode.Data

variable {T : Type}

structure RingBuffer (T : Type) where
  capacity : Nat
  buf : Slots T
  head : Nat := 0
  size : Nat := 0

def RingBuffer.new (capacity : Nat) : RingBuffer T :=
  { capacity := capacity, buf := List.replicate capacity none }

namespace RingBuffer

def length (r : RingBuffer T) : Nat := r.size

def isFull (r : RingBuffer T) : Bool := r.size == r.capacity

def isEmpty (r : RingBuffer T) : Bool := r.size == 0

def push (r : RingBuffer T) (item : T) : RingBuffer T × Option T :=
  let idx := (r.head + r.size) % r.capacity
  let overwritten := if r.size = r.capacity then r.buf.read idx else none
  let buf := r.buf.set idx (some item)
  if r.size = r.capacity then ({ r with buf := buf, head := (r.head + 1) % r.capacity }, overwritten)
  else ({ r with buf := buf, size := r.size + 1 }, overwritten)

def shift (r : RingBuffer T) : RingBuffer T × Option T :=
  if r.size = 0 then (r, none)
  else
    let item := r.buf.read r.head
    ({ r with
      buf := r.buf.set r.head none, head := (r.head + 1) % r.capacity, size := r.size - 1 }, item)

def pop (r : RingBuffer T) : RingBuffer T × Option T :=
  if r.size = 0 then (r, none)
  else
    let idx := (r.head + r.size - 1) % r.capacity
    let item := r.buf.read idx
    ({ r with buf := r.buf.set idx none, size := r.size - 1 }, item)

def unshift (r : RingBuffer T) (item : T) : RingBuffer T × Option T :=
  -- the capacity is added first, which on numbers with a sign is the same
  let head := (r.head + r.capacity - 1) % r.capacity
  let overwritten := if r.size = r.capacity then r.buf.read head else none
  let size := if r.size < r.capacity then r.size + 1 else r.size
  ({ r with buf := r.buf.set head (some item), head := head, size := size }, overwritten)

def atIndex (r : RingBuffer T) (index : Int) : Option T :=
  let index := if index < 0 then index + r.size else index
  if index < 0 ∨ (r.size : Int) ≤ index then none
  else r.buf.read ((r.head + index.toNat) % r.capacity)

def peek (r : RingBuffer T) : Option T := r.atIndex 0

def peekBack (r : RingBuffer T) : Option T := r.atIndex ((r.size : Int) - 1)

def clear (r : RingBuffer T) : RingBuffer T :=
  { r with buf := List.replicate r.capacity none ++ r.buf.drop r.capacity, head := 0, size := 0 }

def iterate (r : RingBuffer T) : List (Option T) :=
  (List.range r.size).map fun i => r.buf.read ((r.head + i) % r.capacity)

def slice (buf : Slots T) (start stop : Nat) : List (Option T) := (buf.take stop).drop start

def toArray (r : RingBuffer T) : List (Option T) :=
  if r.head + r.size ≤ r.capacity then slice r.buf r.head (r.head + r.size)
  else
    let tail := slice r.buf r.head r.capacity
    let head := slice r.buf 0 ((r.head + r.size) % r.capacity)
    tail ++ head

inductive Call (T : Type)
  | push (item : T)
  | unshift (item : T)
  | pop
  | shift
  | clear
  | atIndex (index : Int)
  | peek
  | peekBack
  | iterate
  | toArray
  | length
  | isFull
  | isEmpty

inductive Result (T : Type)
  | item (value : Option T)
  | items (values : List (Option T))
  | count (n : Nat)
  | flag (b : Bool)
  | unit
  deriving DecidableEq

def call (r : RingBuffer T) : Call T → RingBuffer T × Result T
  | .push item => ((r.push item).1, .item (r.push item).2)
  | .unshift item => ((r.unshift item).1, .item (r.unshift item).2)
  | .pop => (r.pop.1, .item r.pop.2)
  | .shift => (r.shift.1, .item r.shift.2)
  | .clear => (r.clear, .unit)
  | .atIndex index => (r, .item (r.atIndex index))
  | .peek => (r, .item r.peek)
  | .peekBack => (r, .item r.peekBack)
  | .iterate => (r, .items r.iterate)
  | .toArray => (r, .items r.toArray)
  | .length => (r, .count r.length)
  | .isFull => (r, .flag r.isFull)
  | .isEmpty => (r, .flag r.isEmpty)

end RingBuffer

def BoundedList (T : Type) (capacity : Nat) := { xs : List T // xs.length ≤ capacity }

namespace BoundedList

variable {capacity : Nat}

def empty : BoundedList T capacity := ⟨[], Nat.zero_le _⟩

theorem length_tail_le (xs : BoundedList T capacity) : xs.1.tail.length ≤ capacity := by
  have := xs.2
  rw [List.length_tail]
  omega

theorem length_dropLast_le (xs : BoundedList T capacity) : xs.1.dropLast.length ≤ capacity := by
  have := xs.2
  rw [List.length_dropLast]
  omega

theorem length_push_le (hcap : 0 < capacity) (xs : BoundedList T capacity) (item : T) :
    (if xs.1.length = capacity then xs.1.tail ++ [item] else xs.1 ++ [item]).length ≤ capacity := by
  have := xs.2
  split <;> simp only [List.length_append, List.length_tail, List.length_singleton] <;> omega

theorem length_unshift_le (hcap : 0 < capacity) (xs : BoundedList T capacity) (item : T) :
    (if xs.1.length = capacity then item :: xs.1.dropLast else item :: xs.1).length ≤ capacity := by
  have := xs.2
  split <;> simp only [List.length_cons, List.length_dropLast] <;> omega

def push (hcap : 0 < capacity) (xs : BoundedList T capacity) (item : T) :
    BoundedList T capacity × Option T :=
  (⟨if xs.1.length = capacity then xs.1.tail ++ [item] else xs.1 ++ [item],
    length_push_le hcap xs item⟩, if xs.1.length = capacity then xs.1.head? else none)

def unshift (hcap : 0 < capacity) (xs : BoundedList T capacity) (item : T) :
    BoundedList T capacity × Option T :=
  (⟨if xs.1.length = capacity then item :: xs.1.dropLast else item :: xs.1,
    length_unshift_le hcap xs item⟩, if xs.1.length = capacity then xs.1.getLast? else none)

def atIndex (xs : BoundedList T capacity) (index : Int) : Option T :=
  if index < 0 then xs.1.reverse[(-index - 1).toNat]? else xs.1[index.toNat]?

def call (hcap : 0 < capacity) (xs : BoundedList T capacity) :
    RingBuffer.Call T → BoundedList T capacity × RingBuffer.Result T
  | .push item => ((push hcap xs item).1, .item (push hcap xs item).2)
  | .unshift item => ((unshift hcap xs item).1, .item (unshift hcap xs item).2)
  | .pop => (⟨xs.1.dropLast, length_dropLast_le xs⟩, .item xs.1.getLast?)
  | .shift => (⟨xs.1.tail, length_tail_le xs⟩, .item xs.1.head?)
  | .clear => (empty, .unit)
  | .atIndex index => (xs, .item (atIndex xs index))
  | .peek => (xs, .item xs.1.head?)
  | .peekBack => (xs, .item xs.1.getLast?)
  | .iterate => (xs, .items (xs.1.map some))
  | .toArray => (xs, .items (xs.1.map some))
  | .length => (xs, .count xs.1.length)
  | .isFull => (xs, .flag (xs.1.length == capacity))
  | .isEmpty => (xs, .flag xs.1.isEmpty)

end BoundedList

namespace RingBuffer

structure Represents (r : RingBuffer T) (xs : List T) : Prop where
  length_buf : r.buf.length = r.capacity
  head_lt : r.head < r.capacity
  size_eq : r.size = xs.length
  size_le : xs.length ≤ r.capacity
  read_slot : ∀ i < xs.length, r.buf.read ((r.head + i) % r.capacity) = xs[i]?

variable {r : RingBuffer T} {xs : List T}

theorem Represents.lt_buf (h : Represents r xs) (i : Nat) : i % r.capacity < r.buf.length := by
  rw [h.length_buf]
  exact Nat.mod_lt _ (Nat.zero_lt_of_lt h.head_lt)

theorem Represents.read_set (h : Represents r xs) {i k : Nat} (hi : i < xs.length)
    (hk : k < r.capacity) (hne : i ≠ k) (v : Option T) :
    Slots.read (r.buf.set ((r.head + k) % r.capacity) v) ((r.head + i) % r.capacity) = xs[i]? := by
  rw [read_set_of_ne]
  · exact h.read_slot i hi
  · intro heq
    exact hne (around_inj h.head_lt (Nat.lt_of_lt_of_le hi h.size_le) hk heq.symm)

theorem represents_new (capacity : Nat) (hcap : 0 < capacity) :
    Represents (T := T) (new capacity) [] :=
  ⟨List.length_replicate, hcap, rfl, Nat.zero_le _, fun _ h => absurd h (Nat.not_lt_zero _)⟩

theorem Represents.clear (h : Represents r xs) : Represents r.clear [] :=
  ⟨by simp [RingBuffer.clear, h.length_buf], Nat.zero_lt_of_lt h.head_lt, rfl, Nat.zero_le _,
    fun _ h => absurd h (Nat.not_lt_zero _)⟩

theorem Represents.push (h : Represents r xs) (hroom : xs.length ≠ r.capacity) (item : T) :
    (r.push item).2 = none ∧ Represents (r.push item).1 (xs ++ [item]) := by
  have hlt : xs.length < r.capacity := Nat.lt_of_le_of_ne h.size_le hroom
  have hpush : r.push item = ({ r with
      buf := r.buf.set ((r.head + xs.length) % r.capacity) (some item)
      size := xs.length + 1 }, none) := by
    simp [RingBuffer.push, h.size_eq, hroom]
  rw [hpush]
  refine ⟨rfl, by simpa using h.length_buf, h.head_lt, by simp, by simp; omega, fun i hi => ?_⟩
  rcases Nat.lt_or_ge i xs.length with hi' | hi'
  · rw [List.getElem?_append_left hi']
    exact h.read_set hi' hlt (by omega) _
  · have hlast : i = xs.length := by simp at hi; omega
    subst hlast
    rw [List.getElem?_concat_length]
    exact read_set_self (h.lt_buf _) _

theorem Represents.push_full (h : Represents r xs) (hfull : xs.length = r.capacity) (item : T) :
    (r.push item).2 = xs.head? ∧ Represents (r.push item).1 (xs.tail ++ [item]) := by
  have hcap : 0 < r.capacity := Nat.zero_lt_of_lt h.head_lt
  have hpush : r.push item = ({ r with
      buf := r.buf.set ((r.head + 0) % r.capacity) (some item)
      head := (r.head + 1) % r.capacity }, xs.head?) := by
    have hfirst := h.read_slot 0 (by omega)
    rw [← List.head?_eq_getElem?, Nat.add_zero, Nat.mod_eq_of_lt h.head_lt] at hfirst
    simp [RingBuffer.push, h.size_eq, hfull, around_full h.head_lt,
      Nat.mod_eq_of_lt h.head_lt, hfirst]
  rw [hpush]
  refine ⟨rfl, by simpa using h.length_buf, Nat.mod_lt _ hcap, ?_, ?_, fun i hi => ?_⟩
  · simp only [h.size_eq, List.length_append, List.length_tail, List.length_singleton]; omega
  · simp only [List.length_append, List.length_tail, List.length_singleton]; omega
  · have hi' : i < xs.length := by simp at hi; omega
    dsimp only
    rw [around_succ]
    rcases Nat.lt_or_ge (i + 1) xs.length with hin | hend
    · rw [List.getElem?_append_left (by simp; omega), List.getElem?_tail]
      exact h.read_set hin hcap (by omega) _
    · have hlast : i + 1 = r.capacity := by omega
      have hitem : (xs.tail ++ [item])[i]? = some item := by
        rw [List.getElem?_append_right (by simp; omega), List.length_tail]
        simp [show i - (xs.length - 1) = 0 by omega]
      rw [hlast, around_full h.head_lt, Nat.add_zero, Nat.mod_eq_of_lt h.head_lt, hitem]
      exact read_set_self (h.length_buf ▸ h.head_lt) _

theorem Represents.read_unshift (h : Represents r xs) {i : Nat} (hi : i < xs.length)
    (hround : i + 1 < r.capacity) (v : Option T) :
    Slots.read (r.buf.set ((r.head + r.capacity - 1) % r.capacity) v)
      (((r.head + r.capacity - 1) % r.capacity + (i + 1)) % r.capacity) = xs[i]? := by
  rw [around_pred (by omega), Nat.add_sub_assoc (by omega)]
  exact h.read_set hi (by omega) (by omega) v

theorem Represents.unshift (h : Represents r xs) (hroom : xs.length ≠ r.capacity) (item : T) :
    (r.unshift item).2 = none ∧ Represents (r.unshift item).1 (item :: xs) := by
  have hlt : xs.length < r.capacity := Nat.lt_of_le_of_ne h.size_le hroom
  have hhead : (r.head + r.capacity - 1) % r.capacity < r.capacity := Nat.mod_lt _ (by omega)
  have hunshift : r.unshift item = ({ r with
      buf := r.buf.set ((r.head + r.capacity - 1) % r.capacity) (some item)
      head := (r.head + r.capacity - 1) % r.capacity
      size := xs.length + 1 }, none) := by
    simp [RingBuffer.unshift, h.size_eq, hroom, hlt]
  rw [hunshift]
  refine ⟨rfl, by simpa using h.length_buf, hhead, by simp, by simp; omega, fun i hi => ?_⟩
  cases i with
  | zero =>
    dsimp only
    rw [Nat.add_zero, Nat.mod_eq_of_lt hhead]
    exact read_set_self (h.lt_buf _) _
  | succ i =>
    have hi' : i < xs.length := by simpa using hi
    exact h.read_unshift hi' (by omega) _

theorem Represents.unshift_full (h : Represents r xs) (hfull : xs.length = r.capacity) (item : T) :
    (r.unshift item).2 = xs.getLast? ∧ Represents (r.unshift item).1 (item :: xs.dropLast) := by
  have hcap : 0 < r.capacity := Nat.zero_lt_of_lt h.head_lt
  have hhead : (r.head + r.capacity - 1) % r.capacity < r.capacity := Nat.mod_lt _ hcap
  have hunshift : r.unshift item = ({ r with
      buf := r.buf.set ((r.head + r.capacity - 1) % r.capacity) (some item)
      head := (r.head + r.capacity - 1) % r.capacity }, xs.getLast?) := by
    have hlast := h.read_slot (xs.length - 1) (by omega)
    rw [← List.getLast?_eq_getElem?, hfull, ← Nat.add_sub_assoc hcap] at hlast
    simp [RingBuffer.unshift, h.size_eq, hfull, hlast]
  rw [hunshift]
  refine ⟨rfl, by simpa using h.length_buf, hhead, ?_, ?_, fun i hi => ?_⟩
  · simp only [h.size_eq, List.length_cons, List.length_dropLast]; omega
  · simp only [List.length_cons, List.length_dropLast]; omega
  · simp only [List.length_cons, List.length_dropLast] at hi
    cases i with
    | zero =>
      dsimp only
      rw [Nat.add_zero, Nat.mod_eq_of_lt hhead]
      exact read_set_self (h.lt_buf _) _
    | succ i =>
      rw [List.getElem?_cons_succ, List.getElem?_dropLast, if_pos (by omega)]
      exact h.read_unshift (by omega) (by omega) _

theorem Represents.shift (h : Represents r xs) :
    r.shift.2 = xs.head? ∧ Represents r.shift.1 xs.tail := by
  cases xs with
  | nil =>
    have hshift : r.shift = (r, none) := by simp [RingBuffer.shift, h.size_eq]
    rw [hshift]
    exact ⟨rfl, h⟩
  | cons x rest =>
    have hcap : 0 < r.capacity := Nat.zero_lt_of_lt h.head_lt
    have hle : rest.length + 1 ≤ r.capacity := h.size_le
    have hshift : r.shift = ({ r with
        buf := r.buf.set ((r.head + 0) % r.capacity) none
        head := (r.head + 1) % r.capacity
        size := rest.length }, some x) := by
      have hfirst := h.read_slot 0 (by simp)
      rw [Nat.add_zero, Nat.mod_eq_of_lt h.head_lt] at hfirst
      simp [RingBuffer.shift, h.size_eq, hfirst, Nat.mod_eq_of_lt h.head_lt]
    rw [hshift]
    refine ⟨rfl, by simpa using h.length_buf, Nat.mod_lt _ hcap, rfl, Nat.le_of_succ_le hle,
      fun i hi => ?_⟩
    dsimp only
    rw [around_succ]
    exact h.read_set (Nat.succ_lt_succ hi) hcap (Nat.succ_ne_zero i) none

theorem Represents.pop (h : Represents r xs) :
    r.pop.2 = xs.getLast? ∧ Represents r.pop.1 xs.dropLast := by
  by_cases hxs : xs = []
  · subst hxs
    have hpop : r.pop = (r, none) := by simp [RingBuffer.pop, h.size_eq]
    rw [hpop]
    exact ⟨rfl, h⟩
  · have hpos : 0 < xs.length := List.length_pos_iff.mpr hxs
    have hpop : r.pop = ({ r with
        buf := r.buf.set ((r.head + (xs.length - 1)) % r.capacity) none
        size := xs.length - 1 }, xs.getLast?) := by
      have hlast := h.read_slot (xs.length - 1) (by omega)
      rw [← List.getLast?_eq_getElem?] at hlast
      simp [RingBuffer.pop, h.size_eq, hxs, Nat.add_sub_assoc hpos, hlast]
    have hle := h.size_le
    rw [hpop]
    refine ⟨rfl, by simpa using h.length_buf, h.head_lt, by simp, by simp; omega, fun i hi => ?_⟩
    rw [List.length_dropLast] at hi
    rw [List.getElem?_dropLast, if_pos hi]
    exact h.read_set (by omega) (by omega) (by omega) none

theorem Represents.getElem?_buf (h : Represents r xs) {i : Nat} (hi : i < xs.length) :
    r.buf[(r.head + i) % r.capacity]? = (xs.map some)[i]? := by
  have hread := h.read_slot i hi
  rw [Slots.read, List.getElem?_eq_getElem (h.lt_buf _), Option.join_some,
    List.getElem?_eq_getElem hi] at hread
  rw [List.getElem?_eq_getElem (h.lt_buf _), hread, List.getElem?_map, List.getElem?_eq_getElem hi]
  rfl

theorem Represents.iterate (h : Represents r xs) : r.iterate = xs.map some := by
  apply List.ext_getElem?
  intro i
  simp only [RingBuffer.iterate, h.size_eq, List.getElem?_map]
  rcases Nat.lt_or_ge i xs.length with hi | hi
  · simp [h.read_slot i hi, hi]
  · simp [hi]

theorem Represents.toArray (h : Represents r xs) : r.toArray = xs.map some := by
  have hhead := h.head_lt
  have hle := h.size_le
  apply List.ext_getElem?
  intro i
  unfold RingBuffer.toArray slice
  rw [h.size_eq]
  split
  case isTrue hfits =>
    rw [List.getElem?_drop, List.getElem?_take]
    split
    case isTrue hi =>
      have hi' : i < xs.length := by omega
      rw [← h.getElem?_buf hi', Nat.mod_eq_of_lt (by omega)]
    case isFalse hi => simp; omega
  case isFalse hwraps =>
    have hrest : (r.head + xs.length) % r.capacity = r.head + xs.length - r.capacity := by
      rw [Nat.mod_eq_sub_mod (by omega), Nat.mod_eq_of_lt (by omega)]
    have hall : r.buf.take r.capacity = r.buf := List.take_of_length_le (Nat.le_of_eq h.length_buf)
    dsimp only
    rw [hall, hrest, List.drop_zero, List.getElem?_append, List.length_drop, h.length_buf]
    split
    case isTrue hi =>
      rw [List.getElem?_drop, ← h.getElem?_buf (by omega), Nat.mod_eq_of_lt (by omega)]
    case isFalse hi =>
      rw [List.getElem?_take]
      split
      case isTrue hi' =>
        rw [← h.getElem?_buf (by omega), Nat.mod_eq_sub_mod (by omega), Nat.mod_eq_of_lt (by omega)]
        congr 1
        omega
      case isFalse hi' => simp; omega

theorem Represents.atIndex (h : Represents r xs) (index : Int) :
    r.atIndex index = if index < 0 then xs.reverse[(-index - 1).toNat]? else xs[index.toNat]? := by
  have hread (j : Int) (hpos : 0 ≤ j) : (if j < 0 ∨ (xs.length : Int) ≤ j then none
      else r.buf.read ((r.head + j.toNat) % r.capacity)) = xs[j.toNat]? := by
    split
    case isTrue hout => rw [List.getElem?_eq_none (by omega)]
    case isFalse hin => exact h.read_slot j.toNat (by omega)
  unfold RingBuffer.atIndex
  rw [h.size_eq]
  by_cases hneg : index < 0
  · rw [if_pos hneg, if_pos hneg]
    by_cases hout : index + xs.length < 0
    · rw [if_pos (Or.inl hout), List.getElem?_eq_none (by simp; omega)]
    · rw [hread _ (by omega), List.getElem?_reverse (by omega)]
      congr 1
      omega
  · rw [if_neg hneg, if_neg hneg]
    exact hread index (by omega)

theorem Represents.peek (h : Represents r xs) : r.peek = xs.head? := by
  rw [RingBuffer.peek, h.atIndex, List.head?_eq_getElem?]
  rfl

theorem Represents.peekBack (h : Represents r xs) : r.peekBack = xs.getLast? := by
  rw [RingBuffer.peekBack, h.atIndex, h.size_eq, List.getLast?_eq_getElem?]
  split
  case isTrue hneg =>
    have hnil : xs = [] := List.eq_nil_of_length_eq_zero (by omega)
    simp [hnil]
  case isFalse hpos =>
    congr 1
    omega

def Stands {capacity : Nat} (r : RingBuffer T) (xs : BoundedList T capacity) : Prop :=
  r.capacity = capacity ∧ Represents r xs.1

theorem capacity_call (r : RingBuffer T) (c : Call T) : (r.call c).1.capacity = r.capacity := by
  cases c with
  | push item => simp only [call, RingBuffer.push]; split <;> rfl
  | pop => simp only [call, RingBuffer.pop]; split <;> rfl
  | shift => simp only [call, RingBuffer.shift]; split <;> rfl
  | _ => rfl

theorem Represents.call {capacity : Nat} (hcap : 0 < capacity) {xs : BoundedList T capacity}
    (hr : r.capacity = capacity) (h : Represents r xs.1) (c : Call T) :
    (r.call c).2 = (xs.call hcap c).2 ∧ Represents (r.call c).1 (xs.call hcap c).1.1 := by
  subst hr
  cases c with
  | push item =>
    simp only [RingBuffer.call, BoundedList.call, BoundedList.push]
    split
    case isTrue hfull => exact ⟨congrArg _ (h.push_full hfull item).1, (h.push_full hfull item).2⟩
    case isFalse hroom => exact ⟨congrArg _ (h.push hroom item).1, (h.push hroom item).2⟩
  | unshift item =>
    simp only [RingBuffer.call, BoundedList.call, BoundedList.unshift]
    split
    case isTrue hfull =>
      exact ⟨congrArg _ (h.unshift_full hfull item).1, (h.unshift_full hfull item).2⟩
    case isFalse hroom => exact ⟨congrArg _ (h.unshift hroom item).1, (h.unshift hroom item).2⟩
  | pop => exact ⟨congrArg _ h.pop.1, h.pop.2⟩
  | shift => exact ⟨congrArg _ h.shift.1, h.shift.2⟩
  | clear => exact ⟨rfl, h.clear⟩
  | atIndex index => exact ⟨congrArg _ (h.atIndex index), h⟩
  | peek => exact ⟨congrArg _ h.peek, h⟩
  | peekBack => exact ⟨congrArg _ h.peekBack, h⟩
  | iterate => exact ⟨congrArg _ h.iterate, h⟩
  | toArray => exact ⟨congrArg _ h.toArray, h⟩
  | length => exact ⟨congrArg _ h.size_eq, h⟩
  | isFull => exact ⟨congrArg (fun n => Result.flag (n == r.capacity)) h.size_eq, h⟩
  | isEmpty =>
    refine ⟨congrArg Result.flag ?_, h⟩
    rw [RingBuffer.isEmpty, h.size_eq]
    cases xs.1 <;> rfl

theorem Stands.call {capacity : Nat} (hcap : 0 < capacity) {xs : BoundedList T capacity}
    (h : Stands r xs) (c : Call T) :
    (r.call c).2 = (xs.call hcap c).2 ∧ Stands (r.call c).1 (xs.call hcap c).1 := by
  obtain ⟨hresult, hnext⟩ := h.2.call hcap h.1 c
  exact ⟨hresult, (capacity_call r c).trans h.1, hnext⟩

theorem ringBuffer_refines_boundedList {capacity : Nat} (hcap : 0 < capacity)
    (calls : List (Call T)) :
    runOutputs RingBuffer.call (new capacity) calls =
      runOutputs (BoundedList.call hcap) BoundedList.empty calls :=
  runOutputs_eq_of_simulation (fun _ _ c h => Stands.call hcap h c) ⟨rfl,
    represents_new capacity hcap⟩ calls

theorem ringBuffer_wraps_around :
    runOutputs RingBuffer.call (new 2) [.push 'a', .push 'b', .push 'c', .toArray, .unshift 'd',
      .atIndex (-1)] =
      [.item none, .item none, .item (some 'a'), .items [some 'b', some 'c'], .item (some 'c'),
        .item (some 'b')] :=
  (ringBuffer_refines_boundedList (Nat.succ_pos 1) _).trans (by decide)

end RingBuffer

end JevCode.Utils
