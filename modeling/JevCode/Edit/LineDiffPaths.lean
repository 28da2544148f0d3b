import JevCode.Edit.LineDiff
import JevCode.Data.Indels
import Mathlib.Algebra.BigOperators.Group.List.Basic
import Mathlib.Algebra.GroupWithZero.Nat
import Mathlib.Algebra.Ring.Int.Defs

namespace JevCode.Edit.LineDiff

open JevCode.Data

inductive Chain (comps : Array Comp) : Option Nat → List Comp → Prop
  | nil : Chain comps none []
  | cons {i : Nat} {c : Comp} {cs : List Comp} (hc : comps[i]? = some c)
    (hprev : ∀ j ∈ c.prev, j < i)
      (h : Chain comps c.prev cs) : Chain comps (some i) (c :: cs)

def Extends (comps comps' : Array Comp) : Prop :=
  ∀ (i : Nat) (c : Comp), comps[i]? = some c → comps'[i]? = some c

theorem Extends.refl (comps : Array Comp) : Extends comps comps := fun _ _ h => h

theorem Extends.trans {a b c : Array Comp} (h : Extends a b) (h' : Extends b c) : Extends a c :=
  fun i x hx => h' i x (h i x hx)

theorem extends_push (comps : Array Comp) (c : Comp) : Extends comps (comps.push c) := by
  intro i d hd
  have hi := (Array.getElem?_eq_some_iff.mp hd).1
  rw [Array.getElem?_push, if_neg (by omega)]
  exact hd

section

variable {comps comps' : Array Comp} {last : Option Nat} {cs : List Comp}

theorem Chain.extend (h : Chain comps last cs) (hext : Extends comps comps') :
    Chain comps' last cs := by
  induction h with
  | nil => exact .nil
  | cons hc hprev _ ih => exact .cons (hext _ _ hc) hprev ih

theorem Chain.lt_size {i : Nat} (h : Chain comps (some i) cs) : i < comps.size := by
  cases h with
  | cons hc _ _ => exact (Array.getElem?_eq_some_iff.mp hc).1

theorem Chain.push {c : Comp} (h : Chain comps c.prev cs) :
    Chain (comps.push c) (some comps.size) (c :: cs) := by
  refine .cons Array.getElem?_push_size ?_ (h.extend (extends_push comps c))
  intro j hj
  rw [Option.mem_def.mp hj] at h
  exact h.lt_size

theorem Chain.order_eq (h : Chain comps last cs) {rounds : Nat} (hrounds : ∀ i ∈ last, i < rounds) :
    order comps rounds last = cs.reverse := by
  induction h generalizing rounds with
  | nil => cases rounds <;> rfl
  | @cons i c cs hc hprev _ ih =>
    obtain ⟨n, rfl⟩ := Nat.exists_eq_add_of_lt (Nat.zero_lt_of_lt (hrounds i rfl))
    have hi := hrounds i rfl
    rw [Nat.zero_add] at hi ⊢
    rw [order, hc]
    dsimp only
    rw [ih fun j hj => Nat.lt_of_lt_of_le (hprev j hj) (by omega), List.reverse_cons]

end

section

variable {oldToks newToks : List Bytes}

/-- The components go through the first `x` old tokens and the first `y` new ones with `e` changes.
-/
inductive Reaches (oldToks newToks : List Bytes) : List Comp → Nat → Nat → Nat → Prop
  | start : Reaches oldToks newToks [] 0 0 0
  | added {cs : List Comp} {x y e : Nat} {c : Comp} (h : Reaches oldToks newToks cs x y e)
    (hadded : c.added = true)
      (hremoved : c.removed = false) (hy : y + c.count ≤ newToks.length) :
      Reaches oldToks newToks (c :: cs) x (y + c.count) (e + c.count)
  | removed {cs : List Comp} {x y e : Nat} {c : Comp} (h : Reaches oldToks newToks cs x y e)
    (hadded : c.added = false)
      (hremoved : c.removed = true) (hx : x + c.count ≤ oldToks.length) :
      Reaches oldToks newToks (c :: cs) (x + c.count) y (e + c.count)
  | common {cs : List Comp} {x y e : Nat} {c : Comp} (h : Reaches oldToks newToks cs x y e)
    (hadded : c.added = false)
      (hremoved : c.removed = false) (hx : x + c.count ≤ oldToks.length)
      (hy : y + c.count ≤ newToks.length)
      (hsame : (oldToks.drop x).take c.count = (newToks.drop y).take c.count) :
      Reaches oldToks newToks (c :: cs) (x + c.count) (y + c.count) e

theorem Reaches.le {cs : List Comp} {x y e : Nat} (h : Reaches oldToks newToks cs x y e) :
    x ≤ oldToks.length ∧ y ≤ newToks.length := by
  induction h with
  | start => exact ⟨Nat.zero_le _, Nat.zero_le _⟩
  | added _ _ _ hy ih => exact ⟨ih.1, hy⟩
  | removed _ _ _ hx ih => exact ⟨hx, ih.2⟩
  | common _ _ _ hx hy _ _ => exact ⟨hx, hy⟩

structure NodeAt (oldToks newToks : List Bytes) (comps : Array Comp) (p : PathNode)
    (x y e : Nat) : Prop where
  path : ∃ cs, Chain comps p.last cs ∧ Reaches oldToks newToks cs x y e
  oldPos : p.oldPos = (x : Int) - 1

variable {comps comps' : Array Comp} {p : PathNode} {x y e : Nat}

theorem NodeAt.le (h : NodeAt oldToks newToks comps p x y e) :
    x ≤ oldToks.length ∧ y ≤ newToks.length := by
  obtain ⟨cs, -, hreaches⟩ := h.path
  exact hreaches.le

theorem NodeAt.extend (h : NodeAt oldToks newToks comps p x y e) (hext : Extends comps comps') :
    NodeAt oldToks newToks comps' p x y e := by
  obtain ⟨cs, hchain, hreaches⟩ := h.path
  exact ⟨⟨cs, hchain.extend hext, hreaches⟩, h.oldPos⟩

theorem addToPath_cases (comps : Array Comp) (p : PathNode) (added removed : Bool) (oldPosInc : Int)
    {cs : List Comp} (h : Chain comps p.last cs) :
    ∃ c, addToPath comps p added removed oldPosInc =
      (comps.push c, ⟨p.oldPos + oldPosInc, some comps.size⟩) ∧
      c.added = added ∧ c.removed = removed ∧
      ((c.count = 1 ∧ Chain comps c.prev cs) ∨
        ∃ d ds, cs = d :: ds ∧ d.added = added ∧ d.removed = removed ∧ c.count = d.count + 1 ∧
          Chain comps c.prev ds) := by
  unfold addToPath
  cases hlast : p.last with
  | none =>
    rw [hlast] at h
    exact ⟨_, rfl, rfl, rfl, .inl ⟨rfl, h⟩⟩
  | some i =>
    rw [hlast] at h
    cases h with
    | @cons _ d ds hd hprev hds =>
      simp only [Option.bind_some, hd]
      split
      next hsame => exact ⟨_, rfl, rfl, rfl, .inr ⟨d, ds, rfl, hsame.1, hsame.2, rfl, hds⟩⟩
      next => exact ⟨_, rfl, rfl, rfl, .inl ⟨rfl, .cons hd hprev hds⟩⟩

theorem addToPath_added (h : NodeAt oldToks newToks comps p x y e) (hy : y < newToks.length) :
    Extends comps (addToPath comps p true false 0).1 ∧
      NodeAt oldToks newToks (addToPath comps p true false 0).1 (addToPath comps p true false 0).2 x
        (y + 1) (e + 1) := by
  obtain ⟨cs, hchain, hreaches⟩ := h.path
  obtain ⟨c, heq, hadded, hremoved, hcases⟩ := addToPath_cases comps p true false 0 hchain
  have hpos : p.oldPos + 0 = (x : Int) - 1 := by rw [Int.add_zero, h.oldPos]
  rw [heq]
  refine ⟨extends_push comps c, ?_, hpos⟩
  obtain ⟨hcount, hprev⟩ | ⟨d, ds, rfl, hdadded, hdremoved, hcount, hprev⟩ := hcases
  · refine ⟨c :: cs, hprev.push, ?_⟩
    have := Reaches.added hreaches hadded hremoved (by omega)
    rwa [hcount] at this
  · refine ⟨c :: ds, hprev.push, ?_⟩
    cases hreaches with
    | @added _ _ y' e' _ hreaches _ _ _ =>
      have := Reaches.added hreaches hadded hremoved (by omega)
      rwa [hcount, ← Nat.add_assoc, ← Nat.add_assoc] at this
    | removed _ hadded' _ _ => rw [hdadded] at hadded'; cases hadded'
    | common _ hadded' _ _ _ _ => rw [hdadded] at hadded'; cases hadded'

theorem addToPath_removed (h : NodeAt oldToks newToks comps p x y e) (hx : x < oldToks.length) :
    Extends comps (addToPath comps p false true 1).1 ∧
      NodeAt oldToks newToks (addToPath comps p false true 1).1 (addToPath comps p false true 1).2
        (x + 1) y (e + 1) := by
  obtain ⟨cs, hchain, hreaches⟩ := h.path
  obtain ⟨c, heq, hadded, hremoved, hcases⟩ := addToPath_cases comps p false true 1 hchain
  have hpos : p.oldPos + 1 = ((x + 1 : Nat) : Int) - 1 := by rw [h.oldPos]; omega
  rw [heq]
  refine ⟨extends_push comps c, ?_, hpos⟩
  obtain ⟨hcount, hprev⟩ | ⟨d, ds, rfl, hdadded, hdremoved, hcount, hprev⟩ := hcases
  · refine ⟨c :: cs, hprev.push, ?_⟩
    have := Reaches.removed hreaches hadded hremoved (by omega)
    rwa [hcount] at this
  · refine ⟨c :: ds, hprev.push, ?_⟩
    cases hreaches with
    | @removed _ x' _ e' _ hreaches _ _ _ =>
      have := Reaches.removed hreaches hadded hremoved (by omega)
      rwa [hcount, ← Nat.add_assoc, ← Nat.add_assoc] at this
    | added _ hadded' _ _ => rw [hdadded] at hadded'; cases hadded'
    | common _ _ hremoved' _ _ _ => rw [hdremoved] at hremoved'; cases hremoved'

def Stuck (oldToks newToks : List Bytes) (x y : Nat) : Prop :=
  ∀ a ∈ oldToks[x]?, ∀ b ∈ newToks[y]?, a ≠ b

theorem commonFrom_spec (rounds : Nat) {x y : Nat} (hx : x ≤ oldToks.length)
    (hy : y ≤ newToks.length) :
    ∃ n, commonFrom oldToks newToks rounds ((x : Int) - 1) ((y : Int) - 1) = n ∧
      x + n ≤ oldToks.length ∧ y + n ≤ newToks.length ∧
        (oldToks.drop x).take n = (newToks.drop y).take n ∧
      (oldToks.length ≤ x + rounds → Stuck oldToks newToks (x + n) (y + n)) := by
  induction rounds generalizing x y with
  | zero =>
    refine ⟨0, rfl, hx, hy, rfl, fun hend a ha => ?_⟩
    rw [List.getElem?_eq_none (by omega)] at ha
    cases ha
  | succ rounds ih =>
    have hxpos : (x : Int) - 1 + 1 = (x : Int) := by omega
    have hypos : (y : Int) - 1 + 1 = (y : Int) := by omega
    rw [commonFrom, hxpos, hypos, Int.toNat_natCast, Int.toNat_natCast]
    split
    next hsame =>
      obtain ⟨hylt, hxlt, htok⟩ := hsame
      have hylt : y < newToks.length := by omega
      have hxlt : x < oldToks.length := by omega
      obtain ⟨n, hn, hxn, hyn, htake, hstuck⟩ := ih (x := x + 1) (y := y + 1) hxlt hylt
      have hxnext : ((x + 1 : Nat) : Int) - 1 = (x : Int) := by omega
      have hynext : ((y + 1 : Nat) : Int) - 1 = (y : Int) := by omega
      rw [hxnext, hynext] at hn
      refine ⟨n + 1, by rw [hn], by omega, by omega, ?_, fun hend => ?_⟩
      · rw [List.getElem?_eq_getElem hxlt, List.getElem?_eq_getElem hylt] at htok
        rw [List.drop_eq_getElem_cons hxlt, List.drop_eq_getElem_cons hylt, List.take_succ_cons,
          List.take_succ_cons, htake, Option.some.inj htok]
      · have := hstuck (by omega)
        rwa [Nat.add_right_comm x 1 n, Nat.add_right_comm y 1 n] at this
    next hdiffer =>
      refine ⟨0, rfl, hx, hy, rfl, fun _ a ha b hb hab => hdiffer ?_⟩
      have hxlt := (List.getElem?_eq_some_iff.mp ha).1
      have hylt := (List.getElem?_eq_some_iff.mp hb).1
      refine ⟨by omega, by omega, ?_⟩
      rw [Nat.add_zero] at ha hb
      rw [Option.mem_def.mp ha, Option.mem_def.mp hb, hab]

theorem extractCommon_spec (h : NodeAt oldToks newToks comps p x y e) {diag : Int}
    (hdiag : diag = (x : Int) - y) :
    ∃ comps' p' n, extractCommon oldToks newToks comps p diag =
      (comps', p', ((y + n : Nat) : Int) - 1) ∧
      Extends comps comps' ∧ NodeAt oldToks newToks comps' p' (x + n) (y + n) e ∧
        Stuck oldToks newToks (x + n) (y + n) := by
  obtain ⟨hx, hy⟩ := h.le
  obtain ⟨n, hn, hxn, hyn, htake, hstuck⟩ := commonFrom_spec oldToks.length hx hy
  obtain ⟨cs, hchain, hreaches⟩ := h.path
  have hnew : (x : Int) - 1 - diag = (y : Int) - 1 := by omega
  have hend : (y : Int) - 1 + (n : Int) = ((y + n : Nat) : Int) - 1 := by omega
  have hpos : (x : Int) - 1 + (n : Int) = ((x + n : Nat) : Int) - 1 := by omega
  simp only [extractCommon, hnew, h.oldPos, hn, hend]
  split
  next hpositive =>
    refine ⟨_, _, n, rfl, extends_push _ _, ⟨⟨_, hchain.push, ?_⟩, hpos⟩, hstuck (by omega)⟩
    exact hreaches.common rfl rfl hxn hyn htake
  next hzero =>
    obtain rfl : n = 0 := by omega
    exact ⟨_, _, 0, rfl, Extends.refl _, ⟨⟨cs, hchain, hreaches⟩, hpos⟩, hstuck (by omega)⟩

def LineDiffPart.inOld (part : LineDiffPart) : Bool := part.removed || !part.added

def LineDiffPart.inNew (part : LineDiffPart) : Bool := part.added || !part.removed

def LineDiffPart.isChange (part : LineDiffPart) : Bool := part.added || part.removed

structure Groups (oldToks newToks : List Bytes) (groups : List (LineDiffPart × List Bytes))
    (e : Nat) : Prop where
  value : ∀ group ∈ groups, group.1.value = group.2.flatten
  old : (groups.filter (·.1.inOld)).flatMap (·.2) = oldToks
  new : (groups.filter (·.1.inNew)).flatMap (·.2) = newToks
  changes : ((groups.filter (·.1.isChange)).map (·.2.length)).sum = e

theorem Groups.snoc {old new : List Bytes} {groups : List (LineDiffPart × List Bytes)}
    (h : Groups old new groups e) (part : LineDiffPart) (toks : List Bytes)
    (hvalue : part.value = toks.flatten) :
    Groups (old ++ if part.inOld then toks else []) (new ++ if part.inNew then toks else [])
      (groups ++ [(part, toks)])
      (e + if part.isChange then toks.length else 0) := by
  refine ⟨?_, ?_, ?_, ?_⟩
  · intro group hgroup
    obtain hgroup | hgroup := List.mem_append.mp hgroup
    · exact h.value group hgroup
    · obtain rfl := List.mem_singleton.mp hgroup
      exact hvalue
  · rw [List.filter_append, List.flatMap_append, h.old]
    cases hold : part.inOld <;> simp [hold]
  · rw [List.filter_append, List.flatMap_append, h.new]
    cases hnew : part.inNew <;> simp [hnew]
  · rw [List.filter_append, List.map_append, List.sum_append, h.changes]
    cases hchange : part.isChange <;> simp [hchange]

theorem Reaches.groups {cs : List Comp} (h : Reaches oldToks newToks cs x y e) :
    ∃ groups, (∀ rest, buildParts oldToks newToks (cs.reverse ++ rest) 0 0 =
        groups.map (·.1) ++ buildParts oldToks newToks rest y x) ∧
      Groups (oldToks.take x) (newToks.take y) groups e := by
  induction h with
  | start => exact ⟨[], fun _ => rfl, ⟨by simp, rfl, rfl, rfl⟩⟩
  | @added cs x y e c _ hadded hremoved hy ih =>
    obtain ⟨groups, hparts, hgroups⟩ := ih
    have hsnoc := hgroups.snoc ⟨true, false, _⟩ ((newToks.drop y).take c.count) rfl
    have hlength : ((newToks.drop y).take c.count).length = c.count := by
      rw [List.length_take, List.length_drop]; omega
    refine ⟨_, fun rest => ?_, by
      simpa [List.take_add, hlength, LineDiffPart.inOld, LineDiffPart.inNew,
        LineDiffPart.isChange] using hsnoc⟩
    rw [List.reverse_cons, List.append_assoc, hparts, List.singleton_append, buildParts]
    simp [hadded, hremoved]
  | @removed cs x y e c _ hadded hremoved hx ih =>
    obtain ⟨groups, hparts, hgroups⟩ := ih
    have hsnoc := hgroups.snoc ⟨false, true, _⟩ ((oldToks.drop x).take c.count) rfl
    have hlength : ((oldToks.drop x).take c.count).length = c.count := by
      rw [List.length_take, List.length_drop]; omega
    refine ⟨_, fun rest => ?_, by
      simpa [List.take_add, hlength, LineDiffPart.inOld, LineDiffPart.inNew,
        LineDiffPart.isChange] using hsnoc⟩
    rw [List.reverse_cons, List.append_assoc, hparts, List.singleton_append, buildParts]
    simp [hadded, hremoved]
  | @common cs x y e c _ hadded hremoved hx hy hsame ih =>
    obtain ⟨groups, hparts, hgroups⟩ := ih
    have hsnoc := hgroups.snoc ⟨false, false, _⟩ ((newToks.drop y).take c.count) rfl
    refine ⟨_, fun rest => ?_, by
      simpa [List.take_add, hsame, LineDiffPart.inOld, LineDiffPart.inNew,
        LineDiffPart.isChange] using hsnoc⟩
    rw [List.reverse_cons, List.append_assoc, hparts, List.singleton_append, buildParts]
    simp [hadded, hremoved]

theorem buildValues_groups (h : NodeAt oldToks newToks comps p oldToks.length newToks.length e) :
    ∃ groups, buildValues oldToks newToks p.last comps = groups.map (·.1) ∧
      Groups oldToks newToks groups e := by
  obtain ⟨cs, hchain, hreaches⟩ := h.path
  obtain ⟨groups, hparts, hgroups⟩ := hreaches.groups
  have horder : order comps comps.size p.last = cs.reverse := hchain.order_eq fun i hi => by
    rw [Option.mem_def.mp hi] at hchain
    exact hchain.lt_size
  rw [List.take_length, List.take_length] at hgroups
  refine ⟨groups, ?_, hgroups⟩
  have := hparts []
  rwa [List.append_nil, buildParts, List.append_nil, ← horder] at this

end

end JevCode.Edit.LineDiff
