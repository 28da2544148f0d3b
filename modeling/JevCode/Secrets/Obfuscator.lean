import JevCode.Data.InsertionMap
import JevCode.Data.Marking
import JevCode.Text.Utf8
import Mathlib.Data.List.Sort

/-! `secrets/obfuscator.ts`: secrets are replaced by placeholders on the way out and put back on the
way in. The keyed digests are a parameter, and a regular expression is given by the matches of a scan
of a text. -/

namespace JevCode.Secrets

open JevCode.Text JevCode.Data

def isTagChar (c : Char) : Bool := c.isAlphanum || c = '_' || c = '-'

/-- What the obfuscation key determines: the tag of a secret, 16 bytes in base64url, and its
replacement in replace mode. -/
structure ObfuscationKey where
  tag : Chars → Chars
  length_tag : ∀ s, (tag s).length = 22
  isTagChar_tag : ∀ s, ∀ c ∈ tag s, isTagChar c = true
  generateDeterministicReplacement : Chars → Chars

def placeholderHead : Chars := ['#', 'G', 'J', 'C', '1', '_']

def buildPlaceholder (key : ObfuscationKey) (secret : Chars) : Chars :=
  placeholderHead ++ key.tag secret ++ ['#']

def matchPlaceholder (t : Chars) : Option Chars :=
  let tag := (t.drop 6).take 22
  if t.take 6 = placeholderHead ∧ tag.length = 22 ∧ tag.all isTagChar ∧
    (t.drop 28).take 1 = ['#'] then
    some (t.take 29)
  else none

def splitOn (sep : Chars) : Chars → List Chars
  | [] => [[]]
  | c :: t =>
    if sep <+: c :: t then [] :: splitOn sep (t.drop (sep.length - 1))
    else
      match splitOn sep t with
      | [] => [[c]]
      | part :: parts => (c :: part) :: parts
termination_by t => t.length

def replaceAll (text search replacement : Chars) : Chars :=
  if search = [] ∨ ¬search <:+: text then text
  else replacement.intercalate (splitOn search text)

inductive SecretMode
  | obfuscate
  | replace
  deriving DecidableEq

abbrev RegExp := Chars → List Chars

inductive SecretEntry
  | plain (content : Chars) (mode : SecretMode) (replacement : Option Chars)
  | regex (compiled : Option RegExp) (mode : SecretMode) (replacement : Option Chars)

structure RegexEntry where
  regex : RegExp
  mode : SecretMode
  replacement : Option Chars

structure Mapping where
  secret : Chars
  replacement : Chars
  deriving DecidableEq

structure PlainRegex where
  useSequentialPlainReplacement : Bool
  alternatives : List Chars
  replacementBySecret : InsertionMap Chars Chars

structure SecretObfuscator where
  regexEntries : List RegexEntry
  sortedReplaceMappings : List Mapping
  sortedObfuscateMappings : List Mapping
  deobfuscateMap : InsertionMap Chars Chars
  combinedPlainRegex : Option PlainRegex
  hasAny : Bool

structure EntryTables where
  plainMappings : InsertionMap Chars Chars
  replaceMappings : InsertionMap Chars Chars
  deobfuscateMap : InsertionMap Chars Chars
  regexEntries : List RegexEntry

def sortLongestFirst (mappings : List Mapping) : List Mapping :=
  mappings.insertionSort fun a b => unitLength b.secret ≤ unitLength a.secret

section

variable (key : ObfuscationKey)

def EntryTables.add (tables : EntryTables) : SecretEntry → EntryTables
  | .plain content .obfuscate _ =>
    let placeholder := buildPlaceholder key content
    { tables with
      plainMappings := tables.plainMappings.set content placeholder
      deobfuscateMap := tables.deobfuscateMap.set placeholder content }
  | .plain content .replace replacement =>
    { tables with
      replaceMappings := tables.replaceMappings.set content
        (replacement.getD (key.generateDeterministicReplacement content)) }
  | .regex (some regex) mode replacement =>
    { tables with regexEntries := tables.regexEntries ++ [⟨regex, mode, replacement⟩] }
  | .regex none _ _ => tables

def EntryTables.ofEntries (entries : List SecretEntry) : EntryTables :=
  entries.foldl (EntryTables.add key) ⟨.empty, .empty, .empty, []⟩

def toMapping (e : Chars × Chars) : Mapping := ⟨e.1, e.2⟩

namespace SecretObfuscator

def ofEntries (entries : List SecretEntry) : SecretObfuscator :=
  let tables := EntryTables.ofEntries key entries
  { regexEntries := tables.regexEntries
    sortedReplaceMappings := sortLongestFirst (tables.replaceMappings.entries.map toMapping)
    sortedObfuscateMappings := sortLongestFirst (tables.plainMappings.entries.map toMapping)
    deobfuscateMap := tables.deobfuscateMap
    combinedPlainRegex := none
    hasAny := !entries.isEmpty }

def needsSequential (mappings : List Mapping) : Bool :=
  mappings.zipIdx.any fun (mapping, index) => mappings.zipIdx.any fun (other, otherIndex) =>
    other.secret ≠ [] ∧ (other.secret <:+: mapping.replacement ∨
      index ≠ otherIndex ∧ (other.secret <:+: mapping.secret ∨ mapping.secret <:+: other.secret))

def buildPlainRegex (mappings : List Mapping) : PlainRegex where
  useSequentialPlainReplacement := needsSequential mappings
  alternatives := mappings.map Mapping.secret
  replacementBySecret := mappings.foldl (fun m mapping =>
    if (m.get? mapping.secret).isSome then m else m.set mapping.secret mapping.replacement) .empty

def ensureCombinedPlainRegex (o : SecretObfuscator) : SecretObfuscator :=
  match o.combinedPlainRegex with
  | some _ => o
  | none => { o with
    combinedPlainRegex := some (buildPlainRegex
      (o.sortedReplaceMappings ++ o.sortedObfuscateMappings)) }

def obfuscatePlainMappingsSequential (o : SecretObfuscator) (text : Chars) : Chars :=
  (o.sortedReplaceMappings ++ o.sortedObfuscateMappings).foldl
    (fun result mapping => replaceAll result mapping.secret mapping.replacement) text

def obfuscatePlainMappings (o : SecretObfuscator) (text : Chars) : SecretObfuscator × Chars :=
  let o := o.ensureCombinedPlainRegex
  match o.combinedPlainRegex with
  | none => (o, text)
  | some plain =>
    if plain.useSequentialPlainReplacement then (o, o.obfuscatePlainMappingsSequential text)
    else (o, replaceMatches (alternation plain.alternatives)
      (fun found => (plain.replacementBySecret.get? found).getD found) text)

/-- Where the binary search between `lo` and `hi` ends: before the mappings that are shorter. -/
def insertionPoint (mappings : List Mapping) (length : Nat) (lo hi : Nat) : Nat :=
  if lo < hi then
    let mid := (lo + hi) / 2
    if mappings[mid]?.any fun m => unitLength m.secret < length then
      insertionPoint mappings length lo mid
    else insertionPoint mappings length (mid + 1) hi
  else lo
termination_by hi - lo

def insertSortedObfuscateMapping (o : SecretObfuscator) (mapping : Mapping) : SecretObfuscator :=
  let mappings := o.sortedObfuscateMappings
  let lo := insertionPoint mappings (unitLength mapping.secret) 0 mappings.length
  { o with sortedObfuscateMappings := mappings.take lo ++ mapping :: mappings.drop lo }

def discover (o : SecretObfuscator) (secret : Chars) : SecretObfuscator :=
  if o.sortedObfuscateMappings.any (·.secret = secret) then o
  else
    let placeholder := buildPlaceholder key secret
    { o with
      deobfuscateMap := o.deobfuscateMap.set placeholder secret
      combinedPlainRegex := none }.insertSortedObfuscateMapping ⟨secret, placeholder⟩

def replaceMatch (entry : RegexEntry) (s : SecretObfuscator × Chars) (matchValue : Chars) :
    SecretObfuscator × Chars :=
  match entry.mode with
  | .replace =>
    (s.1, replaceAll s.2 matchValue
      (entry.replacement.getD (key.generateDeterministicReplacement matchValue)))
  | .obfuscate =>
    (s.1.discover key matchValue, replaceAll s.2 matchValue (buildPlaceholder key matchValue))

def foundBy (entry : RegexEntry) (text : Chars) : List Chars :=
  ((entry.regex text).filter (· ≠ [])).eraseDups

def regexPass (s : SecretObfuscator × Chars) (entry : RegexEntry) : SecretObfuscator × Chars :=
  (foundBy entry s.2).foldl (replaceMatch key entry) s

def obfuscate (o : SecretObfuscator) (text : Chars) : SecretObfuscator × Chars :=
  if o.hasAny then o.regexEntries.foldl (regexPass key) (o.obfuscatePlainMappings text)
    else (o, text)

def deobfuscate (o : SecretObfuscator) (text : Chars) : Chars :=
  if !o.hasAny ∨ '#' ∉ text then text
  else replaceMatches matchPlaceholder (fun found => (o.deobfuscateMap.get? found).getD found) text

end SecretObfuscator

end

open JevCode.Data.Token

theorem splitOn_ne_nil (sep t : Chars) : splitOn sep t ≠ [] := by
  fun_cases splitOn <;> simp

theorem intercalate_splitOn {sep : Chars} (hsep : sep ≠ []) (replacement t : Chars) :
    replacement.intercalate (splitOn sep t) =
      replaceMatches (alternation [sep]) (fun _ => replacement) t := by
  fun_induction splitOn with
  | case1 =>
    rw [replaceMatches]
    simp [alternation, hsep, List.intercalate]
  | case2 c t h ih =>
    obtain ⟨x, xs, rfl⟩ := List.exists_cons_of_ne_nil hsep
    have hfound : alternation [x :: xs] (c :: t) = some (x :: xs) := by simp [alternation, h]
    rw [replaceMatches, hfound]
    simp only
    obtain ⟨part, parts, hparts⟩ := List.exists_cons_of_ne_nil
      (splitOn_ne_nil (x :: xs) (t.drop ((x :: xs).length - 1)))
    rw [List.length_cons, Nat.add_sub_cancel] at ih hparts ⊢
    rw [← ih, hparts]
    simp [List.intercalate]
  | case3 c t h hnil ih => exact absurd hnil (splitOn_ne_nil sep t)
  | case4 c t h part parts hparts ih =>
    have hnone : alternation [sep] (c :: t) = none := by simp [alternation, h]
    rw [replaceMatches, hnone]
    simp only
    rw [← ih, hparts]
    cases parts <;> simp [List.intercalate]

theorem replaceMatches_of_absent {sep : Chars} (hsep : sep ≠ []) (f : Chars → Chars) {t : Chars}
    (h : ¬sep <:+: t) : replaceMatches (alternation [sep]) f t = t := by
  induction t with
  | nil =>
    rw [replaceMatches]
    simp [alternation, hsep]
  | cons c t ih =>
    have hnone : alternation [sep] (c :: t) = none :=
      alternation_eq_none.mpr fun v hv hp => h (List.mem_singleton.mp hv ▸ hp.isInfix)
    rw [replaceMatches, hnone]
    simp only
    rw [ih fun hi => h (hi.trans (List.suffix_cons c t).isInfix)]

theorem replaceAll_eq {search : Chars} (hs : search ≠ []) (text replacement : Chars) :
    replaceAll text search replacement =
      replaceMatches (alternation [search]) (fun _ => replacement) text := by
  unfold replaceAll
  split
  case isTrue h =>
    rw [replaceMatches_of_absent hs _ (h.resolve_left hs)]
  case isFalse => exact intercalate_splitOn hs replacement text

variable {key : ObfuscationKey}

theorem isTagChar_hash : isTagChar '#' = false := by decide

def IsPlaceholder (m : Chars) : Prop :=
  ∃ tag, tag.length = 22 ∧ (∀ c ∈ tag, isTagChar c = true) ∧ m = placeholderHead ++ tag ++ ['#']

theorem buildPlaceholder_eq (key : ObfuscationKey) (s : Chars) :
    buildPlaceholder key s = '#' :: (['G', 'J', 'C', '1', '_'] ++ key.tag s) ++ ['#'] := by
  simp [buildPlaceholder, placeholderHead]

theorem apart_buildPlaceholder {v s : Chars} (hd : '#' ∉ v) (hv : ¬v <:+: buildPlaceholder key s) :
    Apart (buildPlaceholder key s) v := by
  rw [buildPlaceholder_eq] at hv ⊢
  exact apart_of_not_mem hd hv

theorem isPlaceholder_buildPlaceholder (key : ObfuscationKey) (s : Chars) :
    IsPlaceholder (buildPlaceholder key s) :=
  ⟨key.tag s, key.length_tag s, key.isTagChar_tag s, rfl⟩

theorem matchPlaceholder_append {m : Chars} (hm : IsPlaceholder m) (u : Chars) :
    matchPlaceholder (m ++ u) = some m := by
  obtain ⟨tag, hlen, htag, rfl⟩ := hm
  have hassoc : placeholderHead ++ tag ++ ['#'] ++ u = placeholderHead ++ (tag ++ '#' :: u) := by
    simp
  have hhead : placeholderHead.length = 6 := rfl
  have hfound : ((placeholderHead ++ tag ++ ['#'] ++ u).drop 6).take 22 = tag := by
    rw [hassoc, List.drop_left' hhead, List.take_left' hlen]
  have hwhole : (placeholderHead ++ tag ++ ['#']).length = 29 := by simp [hhead, hlen]
  unfold matchPlaceholder
  simp only [hfound, hlen, List.all_eq_true.mpr htag, true_and]
  rw [if_pos, List.take_left' hwhole]
  refine ⟨by rw [hassoc, List.take_left' hhead], ?_⟩
  rw [hassoc, show 28 = 6 + 22 from rfl, ← List.drop_drop, List.drop_left' hhead,
    List.drop_left' hlen]
  rfl

theorem isPlaceholder_of_matchPlaceholder {t m : Chars} (h : matchPlaceholder t = some m) :
    IsPlaceholder m ∧ m <+: t := by
  unfold matchPlaceholder at h
  simp only at h
  split at h
  case isFalse => cases h
  case isTrue hform =>
    cases h
    obtain ⟨hhead, hlen, hall, hlast⟩ := hform
    refine ⟨⟨(t.drop 6).take 22, hlen, by simpa using hall, ?_⟩, List.take_prefix _ _⟩
    calc
      t.take 29 = t.take 6 ++ ((t.drop 6).take 22 ++ (t.drop 28).take 1) := by
        rw [show 29 = 6 + (22 + 1) from rfl, List.take_add, List.take_add, List.drop_drop]
      _ = placeholderHead ++ (t.drop 6).take 22 ++ ['#'] := by
        rw [hhead, hlast, List.append_assoc]

def Separate (key : ObfuscationKey) (S : Set Chars) (v : Chars) : Prop :=
  v ∈ S ∧ ∀ s ∈ S, Apart (buildPlaceholder key s) v

theorem Separate.ne_nil {S : Set Chars} {v : Chars} (h : Separate key S v) : v ≠ [] :=
  (h.2 v h.1).ne_nil

/-- `result` is `text` with some occurrences of secrets in `S` replaced by their placeholders, and no
word of `free` is left outside of these. -/
def Marked (key : ObfuscationKey) (S free : Set Chars) (text result : Chars) : Prop :=
  ∃ ts, render (buildPlaceholder key) ts = result ∧ source ts = text ∧ (∀ s ∈ marks ts, s ∈ S) ∧
    ∀ v ∈ free, v ≠ [] ∧ ∀ us, us <:+ ts → ¬v <+: leading us

variable {S free : Set Chars} {text result : Chars}

theorem Marked.refl (key : ObfuscationKey) (S : Set Chars) (text : Chars) :
    Marked key S ∅ text text := by
  refine ⟨text.map .plain, render_plain _ text, source_plain text, ?_, by simp⟩
  simp

theorem Marked.mono {S' : Set Chars} (h : Marked key S free text result) (hS : S ⊆ S') :
    Marked key S' free text result := by
  obtain ⟨ts, hrender, hsource, hmarks, hfree⟩ := h
  exact ⟨ts, hrender, hsource, fun s hs => hS (hmarks s hs), hfree⟩

theorem Marked.replaceSecrets {K : Set Chars} (h : Marked key K free text result) (hK : K ⊆ S)
    {vs : List Chars} (hvs : ∀ v ∈ vs, v ∈ K ∧ Separate key S v) {f : Chars → Chars}
    (hf : ∀ v ∈ vs, f v = buildPlaceholder key v) :
    Marked key K (free ∪ {v | v ∈ vs}) text (replaceMatches (alternation vs) f result) := by
  obtain ⟨ts, rfl, rfl, hmarks, hfree⟩ := h
  have hclear : ∀ v ∈ vs, Clear (buildPlaceholder key) ts v := fun v hv =>
    ⟨(hvs v hv).2.ne_nil, fun s hs => (hvs v hv).2.2 s (hK (hmarks s hs))⟩
  have hnil : [] ∉ vs := fun hv => (hvs [] hv).2.ne_nil rfl
  refine ⟨markWords vs ts, (replaceMatches_render hf ts hclear).symm, source_markWords vs ts, ?_, ?_⟩
  · intro s hs
    cases marks_markWords s hs with
    | inl hs => exact hmarks s hs
    | inr hs => exact (hvs s hs).1
  · intro v hv
    cases hv with
    | inl hv => exact ⟨(hfree v hv).1, free_markWords hnil (hfree v hv).1 (hfree v hv).2⟩
    | inr hv => exact ⟨(hvs v hv).2.ne_nil, free_markWords_self hnil hv ts⟩

theorem Marked.replaceSecret {K : Set Chars} (h : Marked key K free text result) (hK : K ⊆ S)
    {v : Chars} (hv : v ∈ K) (hsep : Separate key S v) :
    Marked key K (free ∪ {v}) text (replaceAll result v (buildPlaceholder key v)) := by
  rw [replaceAll_eq hsep.ne_nil]
  have hvs : ∀ w ∈ [v], w ∈ K ∧ Separate key S w := by simpa using ⟨hv, hsep⟩
  simpa using h.replaceSecrets hK hvs (f := fun _ => buildPlaceholder key v) (by simp)

theorem Marked.sequential {K : Set Chars} (hK : K ⊆ S) {mappings : List Mapping}
    (hms : ∀ m ∈ mappings, m.secret ∈ K ∧ Separate key S m.secret ∧
      m.replacement = buildPlaceholder key m.secret)
    (h : Marked key K free text result) :
    Marked key K (free ∪ {v | v ∈ mappings.map Mapping.secret}) text (mappings.foldl
      (fun result mapping => replaceAll result mapping.secret mapping.replacement) result) := by
  induction mappings generalizing free result with
  | nil => simpa using h
  | cons m ms ih =>
    obtain ⟨hm, hsep, hrepl⟩ := hms m List.mem_cons_self
    have hstep := ih (fun m' hm' => hms m' (List.mem_cons_of_mem m hm')) (h.replaceSecret hK hm hsep)
    rw [List.foldl_cons, hrepl]
    have hset : free ∪ {m.secret} ∪ {v | v ∈ ms.map Mapping.secret} =
        free ∪ {v | v ∈ (m :: ms).map Mapping.secret} := by
      ext v
      simp only [Set.mem_union, Set.mem_singleton_iff, Set.mem_ofPred_eq, List.map_cons,
        List.mem_cons, or_assoc]
    exact hset ▸ hstep

theorem Marked.not_infix (h : Marked key S free text result) {v : Chars} (hv : v ∈ free)
    (hsep : ∀ s ∈ S, Apart (buildPlaceholder key s) v) : ¬v <:+: result := by
  obtain ⟨ts, rfl, -, hmarks, hfree⟩ := h
  exact not_infix_render ⟨(hfree v hv).1, fun s hs => hsep s (hmarks s hs)⟩ (hfree v hv).2

namespace SecretObfuscator

def known (o : SecretObfuscator) : Set Chars := {s | ∃ m ∈ o.sortedObfuscateMappings, m.secret = s}

structure Tracks (key : ObfuscationKey) (S : Set Chars) (o : SecretObfuscator) : Prop where
  replace_nil : o.sortedReplaceMappings = []
  regex_mode : ∀ e ∈ o.regexEntries, e.mode = .obfuscate
  mapping : ∀ m ∈ o.sortedObfuscateMappings,
    Separate key S m.secret ∧ m.replacement = buildPlaceholder key m.secret
  cached : ∀ plain, o.combinedPlainRegex = some plain →
    plain = buildPlainRegex o.sortedObfuscateMappings

variable {o : SecretObfuscator}

theorem Tracks.known_subset (ho : Tracks key S o) : o.known ⊆ S := by
  rintro s ⟨m, hm, rfl⟩
  exact (ho.mapping m hm).1.1

theorem get?_replacementBySecret (mappings : List Mapping) (v : Chars) :
    (buildPlainRegex mappings).replacementBySecret.get? v =
      (mappings.find? (·.secret = v)).map Mapping.replacement := by
  have hfold : ∀ table : InsertionMap Chars Chars,
      (mappings.foldl (fun m mapping => if (m.get? mapping.secret).isSome then m
        else m.set mapping.secret mapping.replacement) table).get? v =
      (table.get? v).or ((mappings.find? (·.secret = v)).map Mapping.replacement) := by
    induction mappings with
    | nil => simp
    | cons m ms ih =>
      intro table
      rw [List.foldl_cons, ih, List.find?_cons]
      by_cases hv : m.secret = v
      · subst hv
        cases hm : table.get? m.secret <;> simp [hm]
      · have hv' : ¬v = m.secret := fun h => hv h.symm
        split <;> simp [hv, hv']
  simpa [buildPlainRegex] using hfold .empty

theorem replacementBySecret_getD {mappings : List Mapping}
    (h : ∀ m ∈ mappings, m.replacement = buildPlaceholder key m.secret) {v : Chars}
    (hv : v ∈ mappings.map Mapping.secret) :
    ((buildPlainRegex mappings).replacementBySecret.get? v).getD v = buildPlaceholder key v := by
  obtain ⟨m, hm, rfl⟩ := List.mem_map.mp hv
  rw [get?_replacementBySecret]
  cases hfind : mappings.find? (·.secret = m.secret) with
  | none => simpa using List.find?_eq_none.mp hfind m hm
  | some m' =>
    have hsecret : m'.secret = m.secret := by simpa using List.find?_some hfind
    simp [h m' (List.mem_of_find?_eq_some hfind), hsecret]

theorem known_eq (o : SecretObfuscator) :
    o.known = {v | v ∈ o.sortedObfuscateMappings.map Mapping.secret} := by
  ext v
  simp [known]

theorem Tracks.ensureCombinedPlainRegex (ho : Tracks key S o) :
    Tracks key S o.ensureCombinedPlainRegex ∧
    o.ensureCombinedPlainRegex.sortedObfuscateMappings = o.sortedObfuscateMappings ∧
    o.ensureCombinedPlainRegex.combinedPlainRegex =
      some (buildPlainRegex o.sortedObfuscateMappings) := by
  unfold SecretObfuscator.ensureCombinedPlainRegex
  split
  case h_1 plain hplain => exact ⟨ho, rfl, by rw [hplain, ho.cached plain hplain]⟩
  case h_2 hnone =>
    have hmappings : o.sortedReplaceMappings ++ o.sortedObfuscateMappings =
        o.sortedObfuscateMappings := by
      rw [ho.replace_nil, List.nil_append]
    rw [hmappings]
    refine ⟨⟨ho.replace_nil, ho.regex_mode, ho.mapping, ?_⟩, rfl, rfl⟩
    rintro plain ⟨⟩
    rfl

theorem Tracks.obfuscatePlainMappings (ho : Tracks key S o) (text : Chars) :
    Tracks key S (o.obfuscatePlainMappings text).1 ∧
    Marked key o.known o.known text (o.obfuscatePlainMappings text).2 := by
  obtain ⟨ho', hmappings, hcached⟩ := ho.ensureCombinedPlainRegex
  have hms : ∀ m ∈ o.sortedObfuscateMappings, m.secret ∈ o.known ∧ Separate key S m.secret ∧
      m.replacement = buildPlaceholder key m.secret := fun m hm => ⟨⟨m, hm, rfl⟩, ho.mapping m hm⟩
  have hstart := Marked.refl key o.known text
  unfold SecretObfuscator.obfuscatePlainMappings
  simp only [hcached]
  split
  case isTrue =>
    refine ⟨ho', ?_⟩
    have hseq := Marked.sequential ho.known_subset hms hstart
    rw [Set.empty_union, ← known_eq] at hseq
    unfold obfuscatePlainMappingsSequential
    rwa [ho'.replace_nil, hmappings, List.nil_append]
  case isFalse =>
    refine ⟨ho', ?_⟩
    have hvs : ∀ v ∈ o.sortedObfuscateMappings.map Mapping.secret, v ∈ o.known ∧
        Separate key S v := by
      simpa using fun m hm => ⟨(hms m hm).1, (hms m hm).2.1⟩
    have hall := hstart.replaceSecrets ho.known_subset hvs
      fun v hv => replacementBySecret_getD (fun m hm => (hms m hm).2.2) hv
    rwa [Set.empty_union, ← known_eq] at hall

def plainContents (entries : List SecretEntry) : List Chars :=
  entries.filterMap fun
    | .plain content .obfuscate _ => some content
    | _ => none

def InObfuscateMode : SecretEntry → Prop
  | .plain _ mode _ => mode = .obfuscate
  | .regex _ mode _ => mode = .obfuscate

structure Collected (key : ObfuscationKey) (entries : List SecretEntry) (tables : EntryTables) :
    Prop where
  plain : ∀ c v, tables.plainMappings.get? c = some v ↔ c ∈ plainContents entries ∧
    v = buildPlaceholder key c
  replace_nil : tables.replaceMappings = .empty
  regex_mode : ∀ e ∈ tables.regexEntries, e.mode = .obfuscate
  restores : ∀ S : Set Chars, Set.InjOn key.tag S → (∀ c ∈ plainContents entries, c ∈ S) →
    ∀ c ∈ plainContents entries, tables.deobfuscateMap.get? (buildPlaceholder key c) = some c

theorem buildPlaceholder_injOn (hinj : Set.InjOn key.tag S) :
    Set.InjOn (buildPlaceholder key) S := by
  intro s hs s' hs' h
  refine hinj hs hs' ?_
  simpa [buildPlaceholder] using h

theorem Collected.add {entries : List SecretEntry} {tables : EntryTables}
    (h : Collected key entries tables) {e : SecretEntry} (he : InObfuscateMode e) :
    Collected key (entries ++ [e]) (tables.add key e) := by
  cases e with
  | plain content mode replacement =>
    cases he
    have hcontents : plainContents (entries ++ [.plain content .obfuscate replacement]) =
        plainContents entries ++ [content] := by simp [plainContents]
    refine ⟨?_, h.replace_nil, h.regex_mode, ?_⟩
    · intro c v
      rw [hcontents]
      simp only [EntryTables.add, InsertionMap.get?_set]
      by_cases hc : c = content
      · simp [hc, eq_comm]
      · simp [hc, h.plain]
    · intro S hinj hS c hc
      rw [hcontents] at hS hc
      simp only [EntryTables.add, InsertionMap.get?_set]
      by_cases hph : buildPlaceholder key c = buildPlaceholder key content
      · rw [if_pos hph, buildPlaceholder_injOn hinj (hS c hc) (hS content (by simp)) hph]
      · have hold : c ∈ plainContents entries := by
          refine (List.mem_append.mp hc).resolve_right fun hc => hph ?_
          rw [List.mem_singleton.mp hc]
        rw [if_neg hph]
        exact h.restores S hinj (fun c hc => hS c (List.mem_append_left _ hc)) c hold
  | regex compiled mode replacement =>
    cases he
    have hcontents : plainContents (entries ++ [.regex compiled .obfuscate replacement]) =
        plainContents entries := by simp [plainContents]
    refine ⟨?_, ?_, ?_, ?_⟩
    · rw [hcontents]
      cases compiled <;> exact h.plain
    · cases compiled <;> exact h.replace_nil
    · cases compiled with
      | none => exact h.regex_mode
      | some regex => simpa [EntryTables.add, or_imp, forall_and] using h.regex_mode
    · rw [hcontents]
      cases compiled <;> exact h.restores

theorem collected_ofEntries {entries : List SecretEntry} (h : ∀ e ∈ entries, InObfuscateMode e) :
    Collected key entries (EntryTables.ofEntries key entries) := by
  induction entries using List.reverseRecOn with
  | nil =>
    exact ⟨by simp [EntryTables.ofEntries, plainContents],
      rfl, by simp [EntryTables.ofEntries], by simp [plainContents]⟩
  | append_singleton entries e ih =>
    unfold EntryTables.ofEntries
    rw [List.foldl_append]
    exact (ih fun e he => h e (List.mem_append_left _ he)).add (h e (by simp))

theorem mem_ofEntries {entries : List SecretEntry} (h : ∀ e ∈ entries, InObfuscateMode e)
    (m : Mapping) :
    m ∈ (ofEntries key entries).sortedObfuscateMappings ↔
      m.secret ∈ plainContents entries ∧ m.replacement = buildPlaceholder key m.secret := by
  unfold ofEntries sortLongestFirst
  simp only
  rw [(List.perm_insertionSort _ _).mem_iff, ← (collected_ofEntries h).plain,
    ← InsertionMap.mem_entries]
  constructor
  · intro hm
    obtain ⟨e, he, rfl⟩ := List.mem_map.mp hm
    exact he
  · intro hm
    exact List.mem_map.mpr ⟨_, hm, rfl⟩

theorem known_ofEntries {entries : List SecretEntry} (h : ∀ e ∈ entries, InObfuscateMode e) :
    (ofEntries key entries).known = {c | c ∈ plainContents entries} := by
  ext c
  constructor
  · rintro ⟨m, hm, rfl⟩
    exact ((mem_ofEntries h m).mp hm).1
  · intro hc
    exact ⟨⟨c, buildPlaceholder key c⟩, (mem_ofEntries h _).mpr ⟨hc, rfl⟩, rfl⟩

theorem tracks_ofEntries {entries : List SecretEntry} (h : ∀ e ∈ entries, InObfuscateMode e)
    (hsep : ∀ c ∈ plainContents entries, Separate key S c) :
    Tracks key S (ofEntries key entries) where
  replace_nil := by
    simp [ofEntries, (collected_ofEntries h).replace_nil, sortLongestFirst, InsertionMap.empty]
  regex_mode := (collected_ofEntries h).regex_mode
  mapping m hm :=
    have hm := (mem_ofEntries h m).mp hm
    ⟨hsep _ hm.1, hm.2⟩
  cached plain hplain := by cases hplain

def obfuscateAll (key : ObfuscationKey) (o : SecretObfuscator) (texts : List Chars) :
    SecretObfuscator :=
  texts.foldl (fun o text => (o.obfuscate key text).1) o

theorem obfuscatePlainMappings_frame (o : SecretObfuscator) (text : Chars) :
    ∃ plain, (o.obfuscatePlainMappings text).1 = { o with combinedPlainRegex := plain } := by
  have hensure : ∃ plain, o.ensureCombinedPlainRegex = { o with combinedPlainRegex := plain } := by
    unfold SecretObfuscator.ensureCombinedPlainRegex
    split
    · exact ⟨o.combinedPlainRegex, rfl⟩
    · exact ⟨_, rfl⟩
  unfold SecretObfuscator.obfuscatePlainMappings
  simp only
  split
  · exact hensure
  · split <;> exact hensure

theorem obfuscate_of_regexEntries_nil (hregex : o.regexEntries = []) (hany : o.hasAny = true)
    (text : Chars) :
    o.obfuscate key text = o.obfuscatePlainMappings text := by
  unfold obfuscate
  rw [if_pos hany, hregex]
  rfl

structure PlainOnly (key : ObfuscationKey) (S K : Set Chars) (o : SecretObfuscator) : Prop where
  tracks : Tracks key S o
  regex_nil : o.regexEntries = []
  hasAny : o.hasAny = true
  known_eq : o.known = K

theorem PlainOnly.obfuscate {K : Set Chars} (ho : PlainOnly key S K o) (text : Chars) :
    PlainOnly key S K (o.obfuscate key text).1 := by
  rw [obfuscate_of_regexEntries_nil ho.regex_nil ho.hasAny]
  have htracks := (ho.tracks.obfuscatePlainMappings text).1
  obtain ⟨plain, hframe⟩ := obfuscatePlainMappings_frame o text
  rw [hframe] at htracks ⊢
  exact ⟨htracks, ho.regex_nil, ho.hasAny, ho.known_eq⟩

theorem PlainOnly.obfuscateAll {K : Set Chars} (ho : PlainOnly key S K o) (texts : List Chars) :
    PlainOnly key S K (o.obfuscateAll key texts) := by
  induction texts generalizing o with
  | nil => exact ho
  | cons text texts ih => exact ih (ho.obfuscate text)

theorem regexEntries_ofEntries_of_plain {entries : List SecretEntry}
    (h : ∀ e ∈ entries, ∃ content replacement, e = .plain content .obfuscate replacement) :
    (ofEntries key entries).regexEntries = [] := by
  unfold ofEntries EntryTables.ofEntries
  simp only
  induction entries using List.reverseRecOn with
  | nil => rfl
  | append_singleton entries e ih =>
    obtain ⟨content, replacement, rfl⟩ := h e (by simp)
    rw [List.foldl_append]
    exact ih fun e he => h e (List.mem_append_left _ he)

theorem plainOnly_ofEntries {entries : List SecretEntry}
    (hplain : ∀ e ∈ entries, ∃ content replacement, e = .plain content .obfuscate replacement)
    (hcontents : ∀ c ∈ plainContents entries, c ≠ [] ∧ '#' ∉ c ∧
      ∀ s ∈ plainContents entries, ¬c <:+: buildPlaceholder key s)
    {c : Chars} (hc : c ∈ plainContents entries) :
    PlainOnly key {s | s ∈ plainContents entries} {s | s ∈ plainContents entries}
      (ofEntries key entries) := by
  have hmode : ∀ e ∈ entries, InObfuscateMode e := by
    intro e he
    obtain ⟨content, replacement, rfl⟩ := hplain e he
    rfl
  have hsep : ∀ c ∈ plainContents entries, Separate key {s | s ∈ plainContents entries} c :=
    fun c hc =>
      ⟨hc, fun s hs => apart_buildPlaceholder (hcontents c hc).2.1 ((hcontents c hc).2.2 s hs)⟩
  have hany : (ofEntries key entries).hasAny = true := by
    cases entries with
    | nil => simp [plainContents] at hc
    | cons e es => rfl
  exact ⟨tracks_ofEntries hmode hsep, regexEntries_ofEntries_of_plain hplain, hany,
    known_ofEntries hmode⟩

theorem PlainOnly.hides {K : Set Chars} (ho : PlainOnly key S K o) {c : Chars} (hc : c ∈ K)
    (text : Chars) :
    ¬c <:+: (o.obfuscate key text).2 := by
  rw [obfuscate_of_regexEntries_nil ho.regex_nil ho.hasAny]
  obtain ⟨-, hmarked⟩ := ho.tracks.obfuscatePlainMappings text
  rw [← ho.known_eq] at hc
  obtain ⟨m, hm, hsecret⟩ := id hc
  have hsep := (ho.tracks.mapping m hm).1
  rw [hsecret] at hsep
  exact hmarked.not_infix hc fun s hs => hsep.2 s (ho.tracks.known_subset hs)

theorem obfuscate_hides_plain_secrets (key : ObfuscationKey) (entries : List SecretEntry)
    (hplain : ∀ e ∈ entries, ∃ content replacement, e = .plain content .obfuscate replacement)
    (hcontents : ∀ c ∈ plainContents entries, c ≠ [] ∧ '#' ∉ c ∧
      ∀ s ∈ plainContents entries, ¬c <:+: buildPlaceholder key s)
    (earlier : List Chars) (text : Chars) :
    ∀ c ∈ plainContents entries,
      ¬c <:+: (((ofEntries key entries).obfuscateAll key earlier).obfuscate key text).2 := by
  intro c hc
  have ho := (plainOnly_ofEntries hplain hcontents hc).obfuscateAll earlier
  exact ho.hides hc text

def unaryKey : ObfuscationKey where
  tag s := (List.replicate s.length 'B' ++ List.replicate 22 'A').take 22
  length_tag s := by simp
  isTagChar_tag s c hc := by
    have hc := List.mem_of_mem_take hc
    rw [List.mem_append, List.mem_replicate, List.mem_replicate] at hc
    cases hc with
    | inl hc => rw [hc.2]; rfl
    | inr hc => rw [hc.2]; rfl
  generateDeterministicReplacement s := s

def overlapping : SecretObfuscator :=
  (ofEntries unaryKey [.plain "abc".toList .obfuscate none,
    .plain "bcde".toList .obfuscate none]).obfuscateAll
    unaryKey ["bcdeabc".toList]

theorem overlapping_secrets_are_hidden :
    ¬"abc".toList <:+: (overlapping.obfuscate unaryKey "xabcdey".toList).2 ∧
    ¬"bcde".toList <:+: (overlapping.obfuscate unaryKey "xabcdey".toList).2 := by
  have hhidden := obfuscate_hides_plain_secrets unaryKey
    [.plain "abc".toList .obfuscate none, .plain "bcde".toList .obfuscate none] (by simp)
    (by decide +kernel) ["bcdeabc".toList] "xabcdey".toList
  exact ⟨hhidden "abc".toList (by decide), hhidden "bcde".toList (by decide)⟩

end SecretObfuscator

end JevCode.Secrets
