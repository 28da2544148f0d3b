import JevCode.Secrets.Obfuscator

namespace JevCode.Secrets

open JevCode.Text JevCode.Data JevCode.Data.Token

variable {key : ObfuscationKey} {S : Set Chars}

/-- The head and the tag of a placeholder, with a secret of `S` where its end should be. -/
def OpensBefore (S : Set Chars) (text : Chars) : Prop :=
  ∃ tag s, tag.length = 22 ∧ (∀ c ∈ tag, isTagChar c = true) ∧ s ∈ S ∧
    placeholderHead ++ tag ++ s <:+: text

namespace SecretObfuscator

variable {o : SecretObfuscator} {text result v : Chars}

theorem discover_of_known (h : v ∈ o.known) : o.discover key v = o := by
  unfold discover
  rw [if_pos]
  simpa [known] using h

theorem discover_of_not_known (h : v ∉ o.known) : o.discover key v =
    { o with
      deobfuscateMap := o.deobfuscateMap.set (buildPlaceholder key v) v
      combinedPlainRegex := none }.insertSortedObfuscateMapping ⟨v, buildPlaceholder key v⟩ := by
  unfold discover
  rw [if_neg]
  simpa [known] using h

theorem mem_insertSortedObfuscateMapping (o : SecretObfuscator) (mapping m : Mapping) :
    m ∈ (o.insertSortedObfuscateMapping mapping).sortedObfuscateMappings ↔
      m = mapping ∨ m ∈ o.sortedObfuscateMappings := by
  simp only [insertSortedObfuscateMapping, List.mem_append, List.mem_cons]
  rw [or_left_comm, ← List.mem_append, List.take_append_drop]

theorem known_discover (o : SecretObfuscator) (v : Chars) :
    (o.discover key v).known = insert v o.known := by
  by_cases hv : v ∈ o.known
  · rw [discover_of_known hv, Set.insert_eq_of_mem hv]
  · rw [discover_of_not_known hv]
    ext s
    simp [known, mem_insertSortedObfuscateMapping, eq_comm]

theorem Tracks.discover (ho : Tracks key S o) (hv : Separate key S v) :
    Tracks key S (o.discover key v) := by
  by_cases hknown : v ∈ o.known
  · rwa [discover_of_known hknown]
  · rw [discover_of_not_known hknown]
    refine ⟨ho.replace_nil, ho.regex_mode, ?_, ?_⟩
    · intro m hm
      cases (mem_insertSortedObfuscateMapping _ _ _).mp hm with
      | inl hm => exact hm ▸ ⟨hv, rfl⟩
      | inr hm => exact ho.mapping m hm
    · intro plain hplain
      cases hplain

def Restores (key : ObfuscationKey) (o : SecretObfuscator) : Prop :=
  ∀ s ∈ o.known, o.deobfuscateMap.get? (buildPlaceholder key s) = some s

theorem Restores.discover (hinj : Set.InjOn key.tag S) (hsub : o.known ⊆ S) (hv : v ∈ S)
    (h : Restores key o) : Restores key (o.discover key v) := by
  by_cases hknown : v ∈ o.known
  · rwa [discover_of_known hknown]
  · intro s hs
    rw [known_discover] at hs
    rw [discover_of_not_known hknown]
    simp only [insertSortedObfuscateMapping, InsertionMap.get?_set]
    by_cases hph : buildPlaceholder key s = buildPlaceholder key v
    · have hsS : s ∈ S := Set.insert_subset hv hsub hs
      rw [if_pos hph, buildPlaceholder_injOn hinj hsS hv hph]
    · rw [if_neg hph]
      exact h s (hs.resolve_left fun hsv => hph (by rw [hsv]))

structure Reached (key : ObfuscationKey) (S : Set Chars) (text : Chars)
    (s : SecretObfuscator × Chars) :
    Prop where
  tracks : Tracks key S s.1
  restores : Restores key s.1
  marked : Marked key s.1.known ∅ text s.2

theorem Marked.forget {K free : Set Chars} (h : Marked key K free text result) :
    Marked key K ∅ text result := by
  obtain ⟨ts, hrender, hsource, hmarks, -⟩ := h
  exact ⟨ts, hrender, hsource, hmarks, by simp⟩

section

variable {s : SecretObfuscator × Chars} (hinj : Set.InjOn key.tag S)
include hinj

theorem Reached.found (h : Reached key S text s) {entry : RegexEntry}
    (hentry : entry.mode = .obfuscate) (hv : Separate key S v) :
    Reached key S text (replaceMatch key entry s v) := by
  have htracks := h.tracks.discover hv
  unfold replaceMatch
  rw [hentry]
  refine ⟨htracks, h.restores.discover hinj h.tracks.known_subset hv.1, ?_⟩
  have hknown : v ∈ (s.1.discover key v).known := by simp [known_discover]
  have hmono : s.1.known ⊆ (s.1.discover key v).known := by simp [known_discover]
  exact Marked.forget ((h.marked.mono hmono).replaceSecret htracks.known_subset hknown hv)

theorem Reached.allFound (h : Reached key S text s) {entry : RegexEntry}
    (hentry : entry.mode = .obfuscate) {vs : List Chars} (hvs : ∀ v ∈ vs, Separate key S v) :
    Reached key S text (vs.foldl (replaceMatch key entry) s) := by
  induction vs generalizing s with
  | nil => exact h
  | cons v vs ih =>
    exact ih (h.found hinj hentry (hvs v List.mem_cons_self))
      fun w hw => hvs w (List.mem_cons_of_mem v hw)

end

/-- Every value that the passes find in the text before them is a secret of `S` that no placeholder
overlaps. -/
def PassesOk (key : ObfuscationKey) (S : Set Chars) :
    List RegexEntry → SecretObfuscator × Chars → Prop
  | [], _ => True
  | entry :: entries, s =>
    (∀ v ∈ foundBy entry s.2, Separate key S v) ∧ PassesOk key S entries (regexPass key s entry)

theorem Reached.passes (hinj : Set.InjOn key.tag S) {entries : List RegexEntry}
    (hmode : ∀ e ∈ entries, e.mode = .obfuscate) {s : SecretObfuscator × Chars}
    (h : Reached key S text s) (hok : PassesOk key S entries s) :
    Reached key S text (entries.foldl (regexPass key) s) := by
  induction entries generalizing s with
  | nil => exact h
  | cons e es ih =>
    have hpass : Reached key S text (regexPass key s e) :=
      h.allFound hinj (hmode e List.mem_cons_self) hok.1
    exact ih (fun e' he' => hmode e' (List.mem_cons_of_mem e he')) hpass hok.2

structure Extends (o o' : SecretObfuscator) : Prop where
  regexEntries : o'.regexEntries = o.regexEntries
  hasAny : o'.hasAny = o.hasAny
  known : o.known ⊆ o'.known

theorem Extends.refl (o : SecretObfuscator) : Extends o o := ⟨rfl, rfl, subset_rfl⟩

theorem Extends.trans {o o' o'' : SecretObfuscator} (h : Extends o o') (h' : Extends o' o'') :
    Extends o o'' :=
  ⟨h'.regexEntries.trans h.regexEntries, h'.hasAny.trans h.hasAny, h.known.trans h'.known⟩

theorem matchPlaceholder_plain {c : Char} {ts us : List (Token Char)} (hus : .plain c :: us <:+ ts)
    (htext : ∀ m, IsPlaceholder m → ¬m <:+: source ts) (hopens : ¬OpensBefore S (source ts))
    (hmarks : ∀ s ∈ marks ts, s ∈ S) :
    matchPlaceholder (c :: render (buildPlaceholder key) us) = none := by
  by_contra hfound
  obtain ⟨m, hm⟩ := Option.ne_none_iff_exists'.mp hfound
  obtain ⟨hform, hpre⟩ := isPlaceholder_of_matchPlaceholder hm
  have hnot := htext m hform
  obtain ⟨tag, hlen, htag, rfl⟩ := hform
  have hbody : '#' ∉ ['G', 'J', 'C', '1', '_'] ++ tag := by
    intro hmem
    cases List.mem_append.mp hmem with
    | inl hmem => simp at hmem
    | inr hmem => exact absurd (htag '#' hmem) (by rw [isTagChar_hash]; decide)
  obtain ⟨rfl, hrest⟩ := List.cons_prefix_cons.mp hpre
  have hsource := (source_suffix hus).isInfix
  cases prefix_render_cases (fun s => ⟨_, buildPlaceholder_eq key s⟩) hbody hrest with
  | inl hlead =>
    refine hnot (List.IsInfix.trans ?_ hsource)
    exact (List.cons_prefix_cons.mpr ⟨rfl, hlead.trans (leading_prefix_source us)⟩).isInfix
  | inr hmark =>
    obtain ⟨s, rest, rfl⟩ := hmark
    refine hopens ⟨tag, s, hlen, htag, ?_, List.IsInfix.trans ?_ hsource⟩
    · refine hmarks s ((marks_suffix hus).subset ?_)
      rw [marks, marks_map_plain]
      exact List.mem_cons_self
    · rw [source, source_map_plain, source]
      refine ⟨[], source rest, ?_⟩
      simp [placeholderHead]

theorem Marked.deobfuscate (htracks : Tracks key S o) (hrestores : Restores key o)
    (hany : o.hasAny = true) (htext : ∀ m, IsPlaceholder m → ¬m <:+: text)
    (hopens : ¬OpensBefore S text) (h : Marked key o.known ∅ text result) :
    o.deobfuscate result = text := by
  obtain ⟨ts, rfl, rfl, hmarks, -⟩ := h
  have hhash : ∀ s, ∃ body, buildPlaceholder key s = '#' :: body := fun s =>
    ⟨_, buildPlaceholder_eq key s⟩
  unfold SecretObfuscator.deobfuscate
  split
  case isTrue hskip =>
    refine render_of_marks_eq_nil _ (List.eq_nil_iff_forall_not_mem.mpr fun s hs => ?_)
    obtain ⟨body, hbody⟩ := hhash s
    have hnone : '#' ∉ render (buildPlaceholder key) ts := by simpa [hany] using hskip
    exact hnone ((infix_render (buildPlaceholder key) hs).subset (by simp [hbody]))
  case isFalse =>
    refine replaceMatches_source (by decide) ts ?_ ?_
    · intro s hs
      obtain ⟨body, hbody⟩ := hhash s
      refine ⟨by simp [hbody], matchPlaceholder_append (isPlaceholder_buildPlaceholder key s), ?_⟩
      rw [hrestores s (hmarks s hs)]
      rfl
    · exact fun c us hus => matchPlaceholder_plain hus htext hopens
        fun s hs => htracks.known_subset (hmarks s hs)

/-- The passes of every call of a sequence find only secrets of `S` that no placeholder overlaps. -/
def RunOk (key : ObfuscationKey) (S : Set Chars) : SecretObfuscator → List Chars → Prop
  | _, [] => True
  | o, text :: texts =>
    PassesOk key S o.regexEntries (o.obfuscatePlainMappings text) ∧
      RunOk key S (o.obfuscate key text).1 texts

structure Ready (key : ObfuscationKey) (S : Set Chars) (o : SecretObfuscator) : Prop where
  tracks : Tracks key S o
  restores : Restores key o

theorem Ready.reached (ho : Ready key S o) (text : Chars) :
    Reached key S text (o.obfuscatePlainMappings text) where
  tracks := (ho.tracks.obfuscatePlainMappings text).1
  restores := by
    obtain ⟨plain, hframe⟩ := obfuscatePlainMappings_frame o text
    rw [hframe]
    exact ho.restores
  marked := by
    have hmarked := Marked.forget (ho.tracks.obfuscatePlainMappings text).2
    obtain ⟨plain, hframe⟩ := obfuscatePlainMappings_frame o text
    rw [hframe]
    exact hmarked

section

variable (hinj : Set.InjOn key.tag S)
include hinj

theorem Ready.reached_obfuscate (ho : Ready key S o) (hany : o.hasAny = true)
    (hok : PassesOk key S o.regexEntries (o.obfuscatePlainMappings text)) :
    Reached key S text (o.obfuscate key text) := by
  unfold obfuscate
  rw [if_pos hany]
  exact (ho.reached text).passes hinj ho.tracks.regex_mode hok

theorem Ready.obfuscate (ho : Ready key S o)
    (hok : PassesOk key S o.regexEntries (o.obfuscatePlainMappings text)) :
    Ready key S (o.obfuscate key text).1 := by
  cases hany : o.hasAny with
  | false =>
    unfold SecretObfuscator.obfuscate
    rwa [if_neg (by simp [hany])]
  | true =>
    have h := ho.reached_obfuscate hinj hany hok
    exact ⟨h.tracks, h.restores⟩

theorem Ready.obfuscateAll (ho : Ready key S o) {texts : List Chars} (hok : RunOk key S o texts) :
    Ready key S (o.obfuscateAll key texts) := by
  induction texts generalizing o with
  | nil => exact ho
  | cons text texts ih => exact ih (ho.obfuscate hinj hok.1) hok.2

end

end SecretObfuscator

end JevCode.Secrets
