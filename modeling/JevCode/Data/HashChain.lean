import Mathlib.Algebra.Group.Nat.Defs
import Mathlib.Data.List.Induction

namespace JevCode.Data

def uint32BE (n : Nat) : List UInt8 :=
  [.ofNat (n / 0x1000000), .ofNat (n / 0x10000 % 0x100), .ofNat (n / 0x100 % 0x100),
    .ofNat (n % 0x100)]

theorem uint32BE_inj {m n : Nat} (hm : m < 2 ^ 32) (hn : n < 2 ^ 32)
    (h : uint32BE m = uint32BE n) : m = n := by
  simp only [uint32BE, List.cons.injEq, ← UInt8.toNat_inj, UInt8.toNat_ofNat', and_true] at h
  omega

def framed : List (List UInt8) → Option (List UInt8)
  | [] => some []
  | part :: parts =>
    if part.length < 2 ^ 32 then (framed parts).map (uint32BE part.length ++ part ++ ·) else none

theorem framed_cons {part : List UInt8} {parts : List (List UInt8)} {bytes : List UInt8}
    (h : framed (part :: parts) = some bytes) :
    part.length < 2 ^ 32 ∧ ∃ rest, framed parts = some rest ∧
      bytes = uint32BE part.length ++ (part ++ rest) := by
  rw [framed] at h
  split at h
  case isTrue hfits =>
    obtain ⟨rest, hrest, rfl⟩ := Option.map_eq_some_iff.mp h
    exact ⟨hfits, rest, hrest, List.append_assoc _ _ _⟩
  case isFalse => cases h

theorem framed_inj {ps qs : List (List UInt8)} {bytes : List UInt8} (hp : framed ps = some bytes)
    (hq : framed qs = some bytes) : ps = qs := by
  induction ps generalizing qs bytes with
  | nil =>
    cases hp
    cases qs with
    | nil => rfl
    | cons q qs =>
      obtain ⟨-, rest, -, heq⟩ := framed_cons hq
      cases heq
  | cons p ps ih =>
    obtain ⟨hplen, prest, hprest, rfl⟩ := framed_cons hp
    cases qs with
    | nil => cases hq
    | cons q qs =>
      obtain ⟨hqlen, qrest, hqrest, heq⟩ := framed_cons hq
      obtain ⟨hlength, htail⟩ := List.append_inj heq rfl
      obtain ⟨rfl, rfl⟩ := List.append_inj htail (uint32BE_inj hplen hqlen hlength)
      rw [ih hprest hqrest]

section Chains

variable {α δ : Type} (link : Option δ → α → Option δ)

def Chained : Option δ → List (α × δ) → Prop
  | _, [] => True
  | prev, (a, d) :: rest => link prev a = some d ∧ Chained (some d) rest

def lastLink (prev : Option δ) (chain : List (α × δ)) : Option δ :=
  (chain.getLast?.map Prod.snd).or prev

variable {link}

theorem lastLink_concat (prev : Option δ) (chain : List (α × δ)) (a : α) (d : δ) :
    lastLink prev (chain ++ [(a, d)]) = some d := by
  simp [lastLink]

theorem lastLink_cons (prev : Option δ) (a : α) (d : δ) (chain : List (α × δ)) :
    lastLink prev ((a, d) :: chain) = lastLink (some d) chain := by
  cases chain with
  | nil => rfl
  | cons r rs => simp [lastLink, List.getLast?_cons]

theorem chained_concat {prev : Option δ} {chain : List (α × δ)} {a : α} {d : δ} :
    Chained link prev (chain ++ [(a, d)]) ↔ Chained link prev chain ∧
      link (lastLink prev chain) a = some d := by
  induction chain generalizing prev with
  | nil => simp [Chained, lastLink]
  | cons r chain ih =>
    obtain ⟨a', d'⟩ := r
    rw [List.cons_append, Chained, ih, Chained, lastLink_cons, and_assoc]

theorem Chained.lastLink_good {Q : δ → Prop} (hQ : ∀ prev a d, link prev a = some d → Q d)
    {prev : Option δ} (hprev : ∀ d ∈ prev, Q d) {chain : List (α × δ)}
    (h : Chained link prev chain) : ∀ d ∈ lastLink prev chain, Q d := by
  induction chain generalizing prev with
  | nil => exact hprev
  | cons r chain ih =>
    obtain ⟨a, d⟩ := r
    rw [lastLink_cons]
    refine ih (fun e he => ?_) h.2
    obtain rfl : d = e := by simpa using he
    exact hQ _ _ _ h.1

theorem lastLink_eq_none_iff {prev : Option δ} {xs ys : List (α × δ)}
    (hlen : xs.length = ys.length) :
    lastLink prev xs = none ↔ lastLink prev ys = none := by
  simp only [lastLink, Option.or_eq_none_iff, Option.map_eq_none_iff, List.getLast?_eq_none_iff,
    ← List.length_eq_zero_iff, hlen]

theorem Chained.eq_of_lastLink {P : α → Prop} {Q : δ → Prop}
    (hQ : ∀ prev a d, link prev a = some d → Q d)
    (hinj : ∀ p q a b d, (∀ d ∈ p, Q d) → (∀ d ∈ q, Q d) → P a → P b → (p = none ↔ q = none) →
    link p a = some d →
      link q b = some d → p = q ∧ a = b)
    {prev : Option δ} (hprev : ∀ d ∈ prev, Q d) {xs ys : List (α × δ)} (hlen : xs.length = ys.length)
    (hx : Chained link prev xs) (hy : Chained link prev ys) (hxP : ∀ r ∈ xs, P r.1)
    (hyP : ∀ r ∈ ys, P r.1) (hlast : lastLink prev xs = lastLink prev ys) : xs = ys := by
  -- from the last link backwards
  induction xs using List.reverseRecOn generalizing ys with
  | nil => exact (List.eq_nil_of_length_eq_zero hlen.symm).symm
  | append_singleton xs r ih =>
    obtain ⟨a, d⟩ := r
    cases ys using List.reverseRecOn with
    | nil => simp at hlen
    | append_singleton ys r' =>
      obtain ⟨b, e⟩ := r'
      obtain ⟨hx', ha⟩ := chained_concat.mp hx
      obtain ⟨hy', hb⟩ := chained_concat.mp hy
      rw [lastLink_concat, lastLink_concat] at hlast
      obtain rfl : d = e := Option.some.inj hlast
      have hlen' : xs.length = ys.length := by simpa using hlen
      have hxP' : ∀ r ∈ xs, P r.1 := fun r hr => hxP r (List.mem_append_left _ hr)
      have hyP' : ∀ r ∈ ys, P r.1 := fun r hr => hyP r (List.mem_append_left _ hr)
      obtain ⟨hbefore, rfl⟩ :=
        hinj _ _ a b d (hx'.lastLink_good hQ hprev) (hy'.lastLink_good hQ hprev)
        (hxP (a, d) (by simp)) (hyP (b, d) (by simp)) (lastLink_eq_none_iff hlen') ha hb
      rw [ih hlen' hx' hy' hxP' hyP' hbefore]

end Chains

end JevCode.Data
