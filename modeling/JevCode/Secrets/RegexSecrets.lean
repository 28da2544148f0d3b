import JevCode.Ai.JsonSchema
import JevCode.Data.Separated
import JevCode.Secrets.Obfuscator

namespace JevCode.Secrets

open JevCode.Text JevCode.Data JevCode.Data.Token

/-- A global scan of a text cuts it into its matches and what lies between them. -/
structure Scan where
  cut : Chars → List (Token Char)
  source_cut : ∀ text, source (cut text) = text

namespace Scan

def regex (m : Scan) : RegExp := fun text => marks (m.cut text)

def cutMatches (m : Scan) (text : Chars) : List (Token Char) := keep (· ≠ []) (m.cut text)

/-- The strings that match, in the order they are found. -/
def values (m : Scan) (text : Chars) : List Chars := (marks (m.cutMatches text)).eraseDups

def without (m : Scan) (text : Chars) (done : List Chars) : List (Token Char) :=
  keep done.contains (m.cutMatches text)

variable {m : Scan} {key : ObfuscationKey} {text : Chars} {done vs : List Chars} {v : Chars}

theorem ne_nil_of_mem (h : v ∈ marks (m.cutMatches text)) : v ≠ [] := by
  simpa using (mem_marks_keep.mp h).2

theorem nodup_eraseDups (l : List Chars) : l.eraseDups.Nodup := by
  match l with
  | [] => simp
  | v :: l =>
    rw [List.eraseDups_cons, List.nodup_cons]
    refine ⟨fun hmem => ?_, nodup_eraseDups _⟩
    simpa using (List.mem_filter.mp (List.mem_eraseDups.mp hmem)).2
termination_by l.length
decreasing_by simpa using Nat.lt_succ_of_le (List.length_filter_le _ _)

end Scan

section Hash

variable {key : ObfuscationKey} {v s result : Chars} {ts us : List (Token Char)}

def placeholderBody (key : ObfuscationKey) (s : Chars) : Chars :=
  ['G', 'J', 'C', '1', '_'] ++ key.tag s

theorem hash_notMem_placeholderBody (key : ObfuscationKey) (s : Chars) :
    '#' ∉ placeholderBody key s := by
  intro h
  cases List.mem_append.mp h with
  | inl h => exact absurd h (by decide)
  | inr h =>
    have := key.isTagChar_tag s _ h
    rw [isTagChar_hash] at this
    cases this

theorem buildPlaceholder_append (key : ObfuscationKey) (s t : Chars) :
    buildPlaceholder key s ++ t = '#' :: (placeholderBody key s ++ '#' :: t) := by
  rw [buildPlaceholder_eq]
  simp [placeholderBody]

theorem count_buildPlaceholder (key : ObfuscationKey) (s : Chars) :
    (buildPlaceholder key s).count '#' = 2 := by
  have h := buildPlaceholder_append key s []
  rw [List.append_nil] at h
  rw [h, List.count_cons, List.count_append,
    List.count_eq_zero_of_not_mem (hash_notMem_placeholderBody key s)]
  rfl

def Broken (result : Chars) : Prop :=
  ∃ a b c, result = a ++ '#' :: (b ++ '#' :: c) ∧ a.count '#' % 2 = 0 ∧ '#' ∉ b ∧ b.length < 27

theorem replaceAll_hash (hv : v ≠ []) (hd : '#' ∉ v) (key : ObfuscationKey) (a b : Chars) :
    replaceAll (a ++ '#' :: b) v (buildPlaceholder key v) =
      replaceAll a v (buildPlaceholder key v) ++ '#' :: replaceAll b v (buildPlaceholder key v) := by
  rw [replaceAll_eq hv, replaceAll_eq hv, replaceAll_eq hv]
  exact replaceMatches_append_cons (by simpa using hd) (by simpa using hv.symm) a b

theorem count_replaceAll (hv : v ≠ []) (hd : '#' ∉ v) (key : ObfuscationKey) (a : Chars) :
    (replaceAll a v (buildPlaceholder key v)).count '#' % 2 = a.count '#' % 2 := by
  rw [replaceAll_eq hv]
  exact count_replaceMatches (by simpa using hd) (by simpa using hv.symm)
    (fun _ _ => by rw [count_buildPlaceholder]) a

theorem replaceAll_part (hv : v ≠ []) (key : ObfuscationKey) {b : Chars} (hb : '#' ∉ b)
    (hlen : b.length ≤ 27) (hinside : v <:+: b ∨ b.length < 27) (c : Chars) :
    ∃ b' c', replaceAll b v (buildPlaceholder key v) ++ '#' :: c = b' ++ '#' :: c' ∧ '#' ∉ b' ∧
      b'.length < 27 := by
  by_cases h : v <:+: b
  · rw [replaceAll_eq hv]
    obtain ⟨b', r, heq, hsub, hlt⟩ :=
      replaceMatches_of_infix (f := fun _ => buildPlaceholder key v) hv h
    refine ⟨b', placeholderBody key v ++ '#' :: (r ++ '#' :: c), ?_,
      fun hmem => hb (hsub hmem), by omega⟩
    rw [heq, List.append_assoc, List.append_assoc, buildPlaceholder_append]
  · refine ⟨b, c, ?_, hb, hinside.resolve_left h⟩
    rw [replaceAll, if_pos (.inr h)]

theorem Broken.replaceAll (h : Broken result) (hv : v ≠ []) (hd : '#' ∉ v) (key : ObfuscationKey) :
    Broken (replaceAll result v (buildPlaceholder key v)) := by
  obtain ⟨a, b, c, rfl, ha, hb, hlen⟩ := h
  obtain ⟨b', c', heq, hb', hlen'⟩ := replaceAll_part hv key hb hlen.le (.inr hlen)
    (Secrets.replaceAll c v (buildPlaceholder key v))
  refine ⟨_, b', c', ?_, (count_replaceAll hv hd key a).trans ha, hb', hlen'⟩
  rw [replaceAll_hash hv hd, replaceAll_hash hv hd, heq]

end Hash

namespace Scan

variable {m : Scan} {key : ObfuscationKey} {text result v : Chars} {done vs : List Chars}
    {ts us : List (Token Char)}

end Scan

end JevCode.Secrets
