import JevCode.Sdk.TelegramTokens

namespace JevCode.Sdk.Telegram

open JevCode.Text

def Sendable (max : Nat) (html : List CodeUnit) : Prop := html.length ≤ max ∧ WellNested html

theorem nests_piece {t : Token} (ht : IsPiece t) {stack : List (List CodeUnit)} {tokens : List Token}
    (h : nests stack (t :: tokens) = some []) :
    nests stack [t] = some (nextStack stack t) ∧ nests (nextStack stack t) tokens = some [] := by
  cases ht.kind with
  | opens name hopens =>
    simp only [nests, nextStack, hopens] at h ⊢
    exact ⟨trivial, h⟩
  | closes name hopens hcloses =>
    cases stack with
    | nil => simp [nests, hopens, hcloses] at h
    | cons top stack =>
      simp only [nests, nextStack, hopens, hcloses] at h ⊢
      split at h
      case isTrue heq => simp [heq, h]
      case isFalse => cases h
  | text hopens hcloses =>
    simp only [nests, nextStack, hopens, hcloses] at h ⊢
    exact ⟨trivial, h⟩

theorem nextStack_allowed {t : Token} (ht : IsPiece t) {stack : List (List CodeUnit)}
    (h : ∀ name ∈ stack, name ∈ allowedTags) : ∀ name ∈ nextStack stack t, name ∈ allowedTags := by
  cases ht.kind with
  | opens name hopens hallowed =>
    simp only [nextStack, hopens]
    exact List.forall_mem_cons.mpr ⟨hallowed, h⟩
  | closes name hopens hcloses =>
    simp only [nextStack, hopens, hcloses]
    exact fun n hn => h n (List.mem_of_mem_erase hn)
  | text hopens hcloses =>
    simpa only [nextStack, hopens, hcloses] using h

theorem isPiece_marker : ∀ u ∈ truncatedMarker, u ∉ [code '<', code '>', code '&'] := by
  have hall : truncatedMarker.all (fun u => decide (u ∉ [code '<', code '>', code '&'])) = true := by
    decide +kernel
  exact fun u hu => of_decide_eq_true (List.all_eq_true.mp hall u hu)

theorem sendable_closed {max : Nat} {ps : List Token} {stack : List (List CodeUnit)}
    {marker : List CodeUnit} (hps : ∀ t ∈ ps, IsPiece t) (hnests : nests [] ps = some stack)
    (hallowed : ∀ name ∈ stack, name ∈ allowedTags)
    (hmarker : ∀ u ∈ marker, u ∉ [code '<', code '>', code '&'])
    (hroom : (render ps).length + (closersFor stack).length + marker.length ≤ max) :
    Sendable max (render ps ++ closersFor stack ++ marker) := by
  refine ⟨by simpa [Nat.add_assoc] using hroom, ?_⟩
  have hspell : render (marker.map fun u => ({ value := [u] } : Token)) = marker := by
    simp [render, List.flatMap_map]
  have hsettled : nests [] (marker.map fun u => ({ value := [u] } : Token)) = some [] := by
    clear hmarker hroom hspell
    induction marker with
    | nil => rfl
    | cons u marker ih => exact ih
  refine ⟨ps ++ closerTokens stack ++ marker.map fun u => { value := [u] }, ?_, ?_, ?_⟩
  · intro t ht
    rw [List.mem_append, List.mem_append] at ht
    rcases ht with (ht | ht) | ht
    · exact hps t ht
    · exact isPiece_closerTokens hallowed t ht
    · obtain ⟨u, hu, rfl⟩ := List.mem_map.mp ht
      exact .text u (hmarker u hu)
  · rw [render_append, render_append, render_closerTokens, hspell]
  · rw [nests_append, nests_append, hnests, Option.bind_some, nests_closerTokens hallowed,
      Option.bind_some, hsettled]

theorem truncateLoop_sendable {max : Nat} {marker : List CodeUnit}
    (hmarker : ∀ u ∈ marker, u ∉ [code '<', code '>', code '&']) {tokens : List Token}
    (htokens : ∀ t ∈ tokens, IsPiece t) {stack : List (List CodeUnit)} {ps : List Token}
    (hsettles : nests stack tokens = some []) (hps : ∀ t ∈ ps, IsPiece t)
    (hnests : nests [] ps = some stack) (hallowed : ∀ name ∈ stack, name ∈ allowedTags)
    (hroom : (render ps).length + (closersFor stack).length + marker.length ≤ max) :
    Sendable max (truncateLoop max marker tokens stack (render ps)) := by
  induction tokens generalizing stack ps with
  | nil => exact sendable_closed hps hnests hallowed hmarker hroom
  | cons t tokens ih =>
    simp only [truncateLoop]
    split
    case isTrue => exact sendable_closed hps hnests hallowed hmarker hroom
    case isFalse hfits =>
      have ht := htokens t List.mem_cons_self
      obtain ⟨hstep, hrest⟩ := nests_piece ht hsettles
      have hspell : render ps ++ t.value = render (ps ++ [t]) := by
        simp [render]
      rw [hspell]
      refine ih (fun t' h' => htokens t' (List.mem_cons_of_mem _ h')) hrest ?_ ?_
        (nextStack_allowed ht hallowed) ?_
      · exact List.forall_mem_append.mpr ⟨hps, List.forall_mem_singleton.mpr ht⟩
      · rw [nests_append, hnests, Option.bind_some, hstep]
      · rw [← hspell, List.length_append]
        omega

theorem truncateTelegramHtml_sendable {tokens : List Token} (htokens : ∀ t ∈ tokens, IsPiece t)
    (hnests : nests [] tokens = some []) (max : Nat) :
    Sendable max (truncateTelegramHtml (render tokens) max truncatedMarker) := by
  unfold truncateTelegramHtml
  split
  case isTrue hshort => exact ⟨hshort, tokens, htokens, rfl, hnests⟩
  case isFalse =>
    simp only [tokenize_render htokens]
    change Sendable max (truncateLoop max _ tokens [] (render []))
    refine truncateLoop_sendable ?_ htokens hnests (by simp) rfl (by simp) ?_
    · split
      · exact isPiece_marker
      · simp
    · split
      · simpa [render, closersFor]
      · simp [render, closersFor]

def keep (max : Nat) (stack : List OpenTag) (t : Token) : Option (List OpenTag) :=
  match t.opens, t.closes with
  | some name, _ =>
    let nextStack := ⟨name, t.openTag.getD t.value⟩ :: stack
    some (if minimumChunkLengthFor nextStack > max then stack else nextStack)
  | none, some name =>
    match stack with
    | top :: below =>
      if top.name = name then some below else if below.any (·.name = name) then none
        else some (top :: below)
    | [] => some []
  | none, none =>
    if (tagOpeners stack).length + t.value.length + (tagClosers stack).length ≤ max
      then some stack else none

/-- Every character and entity has room between the kept tags around it, and the kept tags nest. -/
def Fits (max : Nat) (tokens : List Token) : Prop := (tokens.foldlM (keep max) []).isSome

instance (max : Nat) (tokens : List Token) : Decidable (Fits max tokens) :=
  inferInstanceAs (Decidable (_ = true))

theorem tagOpeners_cons (e : OpenTag) (stack : List OpenTag) :
    tagOpeners (e :: stack) = tagOpeners stack ++ e.tag := by
  simp [tagOpeners]

theorem length_tagOpeners_cons (name tag : List CodeUnit) (stack : List OpenTag) :
    (tagOpeners (⟨name, tag⟩ :: stack)).length = (tagOpeners stack).length + tag.length := by
  rw [tagOpeners_cons, List.length_append]

theorem tagClosers_cons (e : OpenTag) (stack : List OpenTag) :
    tagClosers (e :: stack) = closer e.name ++ tagClosers stack := by
  simp [tagClosers, closersFor]

theorem length_tagClosers_eraseP {stack : List OpenTag} {name : List CodeUnit}
    (h : stack.any (·.name = name)) :
    (closer name).length + (tagClosers (stack.eraseP (·.name = name))).length =
    (tagClosers stack).length := by
  induction stack with
  | nil => simp at h
  | cons e stack ih =>
    by_cases he : e.name = name
    · rw [List.eraseP_cons_of_pos (by simpa using he), tagClosers_cons, List.length_append, he]
    · have hrest : stack.any (·.name = name) := by simpa [he] using h
      rw [List.eraseP_cons_of_neg (by simpa using he), tagClosers_cons, tagClosers_cons,
        List.length_append, List.length_append, ← ih hrest]
      omega

theorem length_tagOpeners_eraseP (stack : List OpenTag) (p : OpenTag → Bool) :
    (tagOpeners (stack.eraseP p)).length ≤ (tagOpeners stack).length := by
  induction stack with
  | nil => exact Nat.le_refl _
  | cons e stack ih =>
    cases hp : p e with
    | true =>
      rw [List.eraseP_cons_of_pos hp, tagOpeners_cons, List.length_append]
      omega
    | false =>
      rw [List.eraseP_cons_of_neg (by simp [hp]), tagOpeners_cons, tagOpeners_cons,
        List.length_append, List.length_append]
      omega

namespace SplitState

structure Sane (max : Nat) (st : SplitState) (ps seen : List Token) : Prop where
  pieces : ∀ t ∈ ps, IsPiece t
  spells : render ps = st.out
  valid : ∀ e ∈ st.stack, e.Valid
  room : st.stack ≠ [] → minimumChunkLengthFor st.stack ≤ max
  reopened : (tagOpeners st.stack).length ≤ st.out.length
  fresh : st.chunkHasBody = false → ps = openerTokens st.stack
  text : st.chunks.flatMap withoutTags ++ textOf ps = textOf seen

structure Safe (max : Nat) (st : SplitState) (ps : List Token) : Prop where
  chunks : ∀ c ∈ st.chunks, Sendable max c
  nested : nests [] ps = some (st.stack.map OpenTag.name)
  short : st.out.length + (tagClosers st.stack).length ≤ max

def Doomed (max : Nat) (st : SplitState) : Prop :=
  (∃ c ∈ st.chunks, ¬ Sendable max c) ∨
    st.chunkHasBody = true ∧
      (max < st.out.length + (tagClosers st.stack).length ∨
        ∃ ps, (∀ t ∈ ps, IsPiece t) ∧ render ps = st.out ∧ nests [] ps = none)

variable {max : Nat} {st : SplitState} {ps seen : List Token}

theorem Sane.openers_room (h : Sane max st ps seen) :
    (tagOpeners st.stack).length + (tagClosers st.stack).length ≤ max := by
  by_cases hnil : st.stack = []
  · simp [hnil, tagOpeners, tagClosers, closersFor]
  · have hroom := h.room hnil
    unfold minimumChunkLengthFor at hroom
    omega

theorem Sane.chunk_eq (h : Sane max st ps seen) :
    st.out ++ tagClosers st.stack = render (ps ++ closerTokens (st.stack.map OpenTag.name)) := by
  rw [render_append, render_closerTokens, h.spells, tagClosers]

theorem Sane.withoutTags_chunk (h : Sane max st ps seen) :
    withoutTags (st.out ++ tagClosers st.stack) = textOf ps := by
  have hallowed := allowed_of_valid h.valid
  have hpieces : ∀ t ∈ ps ++ closerTokens (st.stack.map OpenTag.name), IsPiece t :=
    List.forall_mem_append.mpr ⟨h.pieces, isPiece_closerTokens hallowed⟩
  rw [h.chunk_eq, withoutTags_render hpieces, textOf_append, textOf_closerTokens hallowed,
    List.append_nil]

theorem Safe.chunk (h : Sane max st ps seen) (hsafe : Safe max st ps) :
    Sendable max (st.out ++ tagClosers st.stack) := by
  rw [← h.spells, ← List.append_nil (_ ++ _)]
  refine sendable_closed h.pieces hsafe.nested (allowed_of_valid h.valid) (by simp) ?_
  have hshort := hsafe.short
  rw [← h.spells] at hshort
  simpa [tagClosers] using hshort

theorem Sane.flush (h : Sane max st ps seen) (hbody : st.chunkHasBody = true) :
    Sane max st.flush (openerTokens st.stack) seen := by
  simp only [SplitState.flush, hbody, Bool.not_true, Bool.false_eq_true, if_false]
  refine ⟨isPiece_openerTokens h.valid, render_openerTokens st.stack, h.valid, h.room, Nat.le_refl _,
    fun _ => rfl, ?_⟩
  rw [List.flatMap_append, textOf_openerTokens h.valid, List.flatMap_singleton, h.withoutTags_chunk,
    List.append_nil, h.text]

theorem Safe.flush (h : Sane max st ps seen) (hsafe : Safe max st ps)
    (hbody : st.chunkHasBody = true) :
    Safe max st.flush (openerTokens st.stack) := by
  simp only [SplitState.flush, hbody, Bool.not_true, Bool.false_eq_true, if_false]
  refine ⟨?_, nests_openerTokens h.valid, h.openers_room⟩
  exact List.forall_mem_append.mpr ⟨hsafe.chunks, List.forall_mem_singleton.mpr (hsafe.chunk h)⟩

theorem Sane.append (h : Sane max st ps seen) {t : Token} (ht : IsPiece t) {stack : List OpenTag}
    (hvalid : ∀ e ∈ stack, e.Valid) (hroom : stack ≠ [] → minimumChunkLengthFor stack ≤ max)
    (hreopened : (tagOpeners stack).length ≤ st.out.length + t.value.length) :
    Sane max (st.append t.value stack) (ps ++ [t]) (seen ++ [t]) := by
  refine ⟨?_, ?_, hvalid, hroom, ?_, fun hbody => ?_, ?_⟩
  · exact List.forall_mem_append.mpr ⟨h.pieces, List.forall_mem_singleton.mpr ht⟩
  · rw [render_append, h.spells]
    simp [render, SplitState.append]
  · simpa [SplitState.append] using hreopened
  · cases hbody
  · rw [textOf_append, textOf_append, ← h.text, List.append_assoc]
    rfl

theorem Sane.skip (h : Sane max st ps seen) {t : Token} (ht : t.isText = false) :
    Sane max st ps (seen ++ [t]) := by
  refine ⟨h.pieces, h.spells, h.valid, h.room, h.reopened, h.fresh, ?_⟩
  have htext : textOf [t] = [] := by simp [textOf, ht]
  rw [textOf_append, htext, List.append_nil, h.text]

theorem Safe.append (hsafe : Safe max st ps) {t : Token} {stack : List OpenTag}
    (hnested : nests (st.stack.map OpenTag.name) [t] = some (stack.map OpenTag.name))
    (hshort : st.out.length + t.value.length + (tagClosers stack).length ≤ max) :
    Safe max (st.append t.value stack) (ps ++ [t]) := by
  refine ⟨hsafe.chunks, ?_, ?_⟩
  · rw [nests_append, hsafe.nested, Option.bind_some]
    exact hnested
  · simpa [SplitState.append] using hshort

theorem Sane.flushFor (h : Sane max st ps seen) (value : List CodeUnit) (stack : List OpenTag) :
    ∃ ps', Sane max (st.flushFor max value stack) ps' seen ∧
      (Safe max st ps → Safe max (st.flushFor max value stack) ps') ∧
      (st.flushFor max value stack).stack = st.stack ∧
      ((tagOpeners st.stack).length + value.length + (tagClosers stack).length ≤ max →
        (st.flushFor max value stack).out.length + value.length +
        (tagClosers stack).length ≤ max) := by
  unfold SplitState.flushFor
  split
  case isTrue hboth =>
    obtain ⟨hbody, -⟩ := Bool.and_eq_true_iff.mp hboth
    refine ⟨openerTokens st.stack, h.flush hbody, fun hsafe => hsafe.flush h hbody, ?_, ?_⟩
    · simp [SplitState.flush, hbody]
    · simp [SplitState.flush, hbody]
  case isFalse hkept =>
    refine ⟨ps, h, fun hsafe => hsafe, rfl, fun hroom => ?_⟩
    cases hbody : st.chunkHasBody with
    | false =>
      rw [← h.spells, h.fresh hbody, render_openerTokens]
      exact hroom
    | true => simpa [hbody, overflows] using hkept

theorem step_opens {t : Token} {name : List CodeUnit} (hopens : t.opens = some name)
    (htag : t.openTag = some t.value) :
    step max st t = st.stepOpen max t.value ⟨name, t.value⟩ := by
  simp only [step, hopens, htag, Option.getD_some]

theorem Sane.stepOpen (h : Sane max st ps seen) {t : Token} (ht : IsPiece t) {name : List CodeUnit}
    (hopens : t.opens = some name) (hallowed : name ∈ allowedTags) (htag : t.openTag = some t.value)
    (heq : t = tagToken t.value) :
    ∃ ps', Sane max (step max st t) ps' (seen ++ [t]) ∧
      (Safe max st ps → Safe max (step max st t) ps' ∧
        keep max st.stack t = some (step max st t).stack) := by
  rw [step_opens hopens htag, SplitState.stepOpen]
  simp only [keep, hopens, htag, Option.getD_some]
  split
  case isTrue => exact ⟨ps, h.skip (by simp [Token.isText, hopens]), fun hsafe => ⟨hsafe, rfl⟩⟩
  case isFalse hmin =>
    obtain ⟨ps', hsane, hsafe, hstack, hroom⟩ := h.flushFor t.value (⟨name, t.value⟩ :: st.stack)
    have hfits := hroom (by
      unfold minimumChunkLengthFor at hmin
      rw [length_tagOpeners_cons] at hmin
      omega)
    rw [if_neg (by simpa [overflows] using hfits)]
    have hvalid : OpenTag.Valid ⟨name, t.value⟩ := ⟨heq ▸ ht, heq ▸ hopens, hallowed⟩
    refine ⟨ps' ++ [t], hsane.append ht ?_ (fun _ => by omega) ?_,
      fun hsafe' => ⟨(hsafe hsafe').append ?_ hfits, rfl⟩⟩
    · exact List.forall_mem_cons.mpr ⟨hvalid, h.valid⟩
    · have hreopened := hsane.reopened
      rw [hstack] at hreopened
      rw [length_tagOpeners_cons]
      omega
    · simp only [nests, hopens, hstack, List.map_cons]

theorem Sane.stepClose (h : Sane max st ps seen) {t : Token} (ht : IsPiece t) {name : List CodeUnit}
    (hopens : t.opens = none) (hcloses : t.closes = some name)
    (hlength : t.value.length = (closer name).length) :
    ∃ ps', Sane max (step max st t) ps' (seen ++ [t]) ∧
      (Safe max st ps →
        (keep max st.stack t = none ∧ Doomed max (step max st t)) ∨
          Safe max (step max st t) ps' ∧ keep max st.stack t = some (step max st t).stack) := by
  simp only [step, hopens, hcloses, SplitState.stepClose]
  split
  case isFalse habsent =>
    refine ⟨ps, h.skip (by simp [Token.isText, hcloses]), fun hsafe => .inr ⟨hsafe, ?_⟩⟩
    cases hstack : st.stack with
    | nil => simp only [keep, hopens, hcloses]
    | cons top below =>
      rw [hstack, List.any_cons, Bool.or_eq_true, not_or] at habsent
      simp only [keep, hopens, hcloses]
      rw [if_neg (by simpa using habsent.1), if_neg habsent.2]
  case isTrue hpresent =>
    obtain ⟨ps', hsane, hsafe, hstack, hroom⟩ := h.flushFor t.value (st.stack.eraseP (·.name = name))
    have hclosers := length_tagClosers_eraseP hpresent
    have hopeners := length_tagOpeners_eraseP st.stack (·.name = name)
    have hfits := hroom (by
      have hall := h.openers_room
      omega)
    have hne : st.stack ≠ [] := by
      intro hnil
      simp [hnil] at hpresent
    rw [if_neg (by simpa [overflows] using hfits)]
    generalize st.flushFor max t.value (st.stack.eraseP (·.name = name)) = st' at *
    have hnext : Sane max (st'.append t.value (st.stack.eraseP (·.name = name))) (ps' ++ [t])
        (seen ++ [t]) := by
      refine hsane.append ht (fun e he => h.valid e (List.mem_of_mem_eraseP he)) ?_ ?_
      · intro _
        have hall := h.room hne
        unfold minimumChunkLengthFor at hall ⊢
        omega
      · have hreopened := hsane.reopened
        rw [hstack] at hreopened
        omega
    refine ⟨ps' ++ [t], hnext, fun hsafe' => ?_⟩
    obtain ⟨top, below, hcons⟩ := List.exists_cons_of_ne_nil hne
    rw [hcons] at hstack hfits hnext hpresent ⊢
    by_cases htop : top.name = name
    · rw [List.eraseP_cons_of_pos (by simpa using htop)] at hfits ⊢
      refine .inr ⟨(hsafe hsafe').append ?_ hfits, ?_⟩
      · simp only [nests, hopens, hcloses, hstack, List.map_cons, htop, if_true]
      · simp only [keep, hopens, hcloses, htop, if_true, SplitState.append]
    · -- the inner tag stays open behind the closing tag
      have hbelow : below.any (·.name = name) := by simpa [htop] using hpresent
      refine .inl ⟨?_, .inr ⟨rfl, .inr ⟨ps' ++ [t], hnext.pieces, hnext.spells, ?_⟩⟩⟩
      · simp only [keep, hopens, hcloses, if_neg htop, if_pos hbelow]
      · rw [nests_append, (hsafe hsafe').nested, hstack, Option.bind_some]
        simp only [nests, hopens, hcloses, List.map_cons, if_neg htop]

theorem Sane.stepText (h : Sane max st ps seen) {t : Token} (ht : IsPiece t)
    (hopens : t.opens = none) (hcloses : t.closes = none) :
    ∃ ps', Sane max (step max st t) ps' (seen ++ [t]) ∧
      (Safe max st ps →
        (keep max st.stack t = none ∧ Doomed max (step max st t)) ∨
          Safe max (step max st t) ps' ∧ keep max st.stack t = some (step max st t).stack) := by
  simp only [step, hopens, hcloses, SplitState.stepText]
  obtain ⟨ps', hsane, hsafe, hstack, hroom⟩ := h.flushFor t.value st.stack
  have hreopened := hsane.reopened
  generalize st.flushFor max t.value st.stack = st' at *
  rw [← hstack] at hroom ⊢
  refine ⟨ps' ++ [t], hsane.append ht hsane.valid hsane.room (by omega), fun hsafe' => ?_⟩
  simp only [keep, hopens, hcloses]
  split
  case isTrue hfits =>
    refine .inr ⟨(hsafe hsafe').append ?_ (hroom hfits), rfl⟩
    simp only [nests, hopens, hcloses]
  case isFalse hover =>
    refine .inl ⟨rfl, .inr ⟨rfl, .inl ?_⟩⟩
    simp only [SplitState.append, List.length_append]
    omega

theorem Sane.step (h : Sane max st ps seen) {t : Token} (ht : IsPiece t) :
    ∃ ps', Sane max (step max st t) ps' (seen ++ [t]) ∧
      (Safe max st ps →
        (keep max st.stack t = none ∧ Doomed max (SplitState.step max st t)) ∨
          Safe max (SplitState.step max st t) ps' ∧
            keep max st.stack t = some (SplitState.step max st t).stack) := by
  cases ht.kind with
  | opens name hopens hallowed htag heq =>
    obtain ⟨ps', hsane, hsafe⟩ := h.stepOpen ht hopens hallowed htag heq
    exact ⟨ps', hsane, fun hsafe' => .inr (hsafe hsafe')⟩
  | closes name hopens hcloses _ hlength => exact h.stepClose ht hopens hcloses hlength
  | text hopens hcloses => exact h.stepText ht hopens hcloses

theorem Doomed.flushFor (h : Doomed max st) (value : List CodeUnit) (stack : List OpenTag) :
    (∃ c ∈ (st.flushFor max value stack).chunks, ¬ Sendable max c) ∨
      st.flushFor max value stack = st ∧ st.overflows max value stack = false ∧
        st.chunkHasBody = true := by
  rcases h with ⟨c, hc, hbad⟩ | ⟨hbody, hbad⟩
  · refine .inl ⟨c, ?_, hbad⟩
    simp only [SplitState.flushFor, SplitState.flush]
    split
    · split
      · exact hc
      · exact List.mem_append_left _ hc
    · exact hc
  · cases hover : st.overflows max value stack with
    | false => exact .inr ⟨by simp [SplitState.flushFor, hover], rfl, hbody⟩
    | true =>
      refine .inl ⟨st.out ++
        tagClosers st.stack, by simp [SplitState.flushFor, hover, SplitState.flush, hbody], ?_⟩
      rintro ⟨hshort, hnested⟩
      rcases hbad with hlong | ⟨ps, hps, hspells, hnests⟩
      · rw [List.length_append] at hshort
        omega
      · rw [← hspells] at hnested
        exact not_wellNested_append hps hnests _ hnested

theorem Doomed.append (h : Doomed max st) {t : Token} (ht : IsPiece t) {stack : List OpenTag}
    (hclosers : (tagClosers st.stack).length ≤ t.value.length + (tagClosers stack).length) :
    Doomed max ((st.flushFor max t.value stack).append t.value stack) := by
  rcases h.flushFor t.value stack with hbad | ⟨hkept, hfits, hbody⟩
  · exact .inl hbad
  · rw [hkept]
    rcases h with hbad | ⟨-, hlong | ⟨ps, hps, hspells, hnests⟩⟩
    · exact .inl hbad
    · -- there was no room before, so there is none with the token
      simp only [overflows, decide_eq_false_iff_not] at hfits
      omega
    · refine .inr ⟨rfl, .inr ⟨ps ++ [t],
        List.forall_mem_append.mpr ⟨hps, List.forall_mem_singleton.mpr ht⟩, ?_, ?_⟩⟩
      · rw [render_append, hspells]
        simp [render, SplitState.append]
      · rw [nests_append, hnests, Option.bind_none]

theorem Doomed.skip (h : Doomed max st) {value : List CodeUnit} {stack stack' : List OpenTag}
    (hover : (st.flushFor max value stack).overflows max value stack = true) :
    Doomed max { st.flushFor max value stack with stack := stack' } := by
  rcases h.flushFor value stack with hbad | ⟨hkept, hfits, -⟩
  · exact .inl hbad
  · rw [hkept, hfits] at hover
    cases hover

theorem Doomed.step (h : Doomed max st) {t : Token} (ht : IsPiece t) :
    Doomed max (step max st t) := by
  cases ht.kind with
  | opens name hopens hallowed htag =>
    rw [step_opens hopens htag]
    simp only [stepOpen]
    split
    · exact h
    · split
      case isTrue hover => exact h.skip hover
      case isFalse =>
        refine h.append ht ?_
        rw [tagClosers_cons, List.length_append]
        omega
  | closes name hopens hcloses _ hlength =>
    simp only [SplitState.step, hopens, hcloses, stepClose]
    split
    case isFalse => exact h
    case isTrue hpresent =>
      split
      case isTrue hover => exact h.skip hover
      case isFalse =>
        refine h.append ht ?_
        rw [hlength, length_tagClosers_eraseP hpresent]
  | text hopens hcloses =>
    simp only [SplitState.step, hopens, hcloses, stepText]
    have hstack : (st.flushFor max t.value st.stack).stack = st.stack := by
      simp only [SplitState.flushFor, SplitState.flush]
      split
      · split <;> rfl
      · rfl
    rw [hstack]
    exact h.append ht (by omega)

theorem Doomed.finish (h : Doomed max st) : ∃ c ∈ st.finish, ¬ Sendable max c := by
  rcases h with ⟨c, hc, hbad⟩ | ⟨hbody, hbad⟩
  · refine ⟨c, ?_, hbad⟩
    simp only [SplitState.finish]
    split
    · exact List.mem_append_left _ hc
    · exact hc
  · refine ⟨st.out ++ tagClosers st.stack, by simp [SplitState.finish, hbody], ?_⟩
    rintro ⟨hshort, hnested⟩
    rcases hbad with hlong | ⟨ps, hps, hspells, hnests⟩
    · rw [List.length_append] at hshort
      omega
    · rw [← hspells] at hnested
      exact not_wellNested_append hps hnests _ hnested

theorem Doomed.run (h : Doomed max st) {tokens : List Token} (htokens : ∀ t ∈ tokens, IsPiece t) :
    Doomed max (tokens.foldl (SplitState.step max) st) := by
  induction tokens generalizing st with
  | nil => exact h
  | cons t tokens ih =>
    exact ih (h.step (htokens t List.mem_cons_self)) fun t' h' =>
      htokens t' (List.mem_cons_of_mem _ h')

theorem Sane.run (h : Sane max st ps seen) {tokens : List Token}
    (htokens : ∀ t ∈ tokens, IsPiece t) :
    ∃ ps', Sane max (tokens.foldl (SplitState.step max) st) ps' (seen ++ tokens) := by
  induction tokens generalizing st ps seen with
  | nil => exact ⟨ps, by simpa using h⟩
  | cons t tokens ih =>
    obtain ⟨ps', hsane, -⟩ := h.step (htokens t List.mem_cons_self)
    obtain ⟨ps'', hrun⟩ := ih hsane fun t' h' => htokens t' (List.mem_cons_of_mem _ h')
    exact ⟨ps'', by simpa using hrun⟩

theorem Sane.finish (h : Sane max st ps seen) : st.finish.flatMap withoutTags = textOf seen := by
  rw [← h.text]
  simp only [SplitState.finish]
  cases hbody : st.chunkHasBody with
  | true => simp [h.withoutTags_chunk]
  | false => simp [h.fresh hbody, textOf_openerTokens h.valid]

theorem Safe.finish (h : Sane max st ps seen) (hsafe : Safe max st ps) :
    ∀ c ∈ st.finish, Sendable max c := by
  simp only [SplitState.finish]
  split
  · exact List.forall_mem_append.mpr ⟨hsafe.chunks, List.forall_mem_singleton.mpr (hsafe.chunk h)⟩
  · exact hsafe.chunks

theorem run_sendable_iff (h : Sane max st ps seen) (hsafe : Safe max st ps) {tokens : List Token}
    (htokens : ∀ t ∈ tokens, IsPiece t) :
    (∀ c ∈ (tokens.foldl (SplitState.step max) st).finish, Sendable max c) ↔
      (tokens.foldlM (keep max) st.stack).isSome := by
  induction tokens generalizing st ps seen with
  | nil => exact iff_of_true (hsafe.finish h) rfl
  | cons t tokens ih =>
    have htail : ∀ t' ∈ tokens, IsPiece t' := fun t' h' => htokens t' (List.mem_cons_of_mem _ h')
    obtain ⟨ps', hsane, hnext⟩ := h.step (htokens t List.mem_cons_self)
    rw [List.foldl_cons, List.foldlM_cons]
    rcases hnext hsafe with ⟨hnone, hdoomed⟩ | ⟨hsafe', hkept⟩
    · obtain ⟨c, hc, hbad⟩ := (hdoomed.run htail).finish
      rw [hnone]
      exact iff_of_false (fun hall => hbad (hall c hc)) (by simp)
    · rw [hkept]
      exact ih hsane hsafe' htail

end SplitState

/-- Both ways to cut a message leave texts that can be sent, and splitting keeps its text. -/
structure CutSafely (message : List CodeUnit) (max : Nat) : Prop where
  truncated : Sendable max (truncateTelegramHtml message max truncatedMarker)
  chunks : ∀ c ∈ splitTelegramHtml message max, Sendable max c
  text : (splitTelegramHtml message max).flatMap withoutTags = withoutTags message

theorem cutSafely_render_iff {tokens : List Token} (htokens : ∀ t ∈ tokens, IsPiece t)
    (hnests : nests [] tokens = some []) (max : Nat) :
    CutSafely (render tokens) max ↔ (render tokens).length ≤ max ∨ Fits max tokens := by
  have hsane : SplitState.Sane max {} [] [] :=
    ⟨by simp, rfl, by simp, by simp, Nat.le_refl _, fun _ => rfl, rfl⟩
  have hsafe : SplitState.Safe max {} [] := ⟨by simp, rfl, Nat.zero_le _⟩
  have htruncated := truncateTelegramHtml_sendable htokens hnests max
  by_cases hshort : (render tokens).length ≤ max
  · refine iff_of_true ⟨htruncated, ?_, ?_⟩ (.inl hshort)
    · rw [splitTelegramHtml, if_pos hshort]
      exact List.forall_mem_singleton.mpr ⟨hshort, tokens, htokens, rfl, hnests⟩
    · rw [splitTelegramHtml, if_pos hshort, List.flatMap_singleton]
  · have hsplit : splitTelegramHtml (render tokens) max =
        (tokens.foldl (SplitState.step max) {}).finish := by
      rw [splitTelegramHtml, if_neg hshort, tokenize_render htokens]
    have hchunks := SplitState.run_sendable_iff hsane hsafe htokens
    rw [← hsplit] at hchunks
    constructor
    · intro hcut
      exact .inr (hchunks.mp hcut.chunks)
    · rintro (hshort' | hfits)
      · exact absurd hshort' hshort
      · obtain ⟨ps, hrun⟩ := hsane.run htokens
        refine ⟨htruncated, hchunks.mpr hfits, ?_⟩
        rw [hsplit, hrun.finish, List.nil_append, withoutTags_render htokens]

/-- A well-nested message is cut safely just when it is short, or what is kept of it fits. -/
theorem cutSafely_iff {message : List CodeUnit} (h : WellNested message) (max : Nat) :
    CutSafely message max ↔ message.length ≤ max ∨ Fits max (tokenize message) := by
  obtain ⟨tokens, htokens, rfl, hnests⟩ := h
  rw [tokenize_render htokens]
  exact cutSafely_render_iff htokens hnests max

def tightLink : List CodeUnit :=
  code '<' :: ((units "a href=\"" ++ List.replicate 48 (code 'x') ++ [code '"']) ++ [code '>'])

theorem wellNested_link {body : List Token} (hpieces : ∀ t ∈ body, IsPiece t)
    (hnests : nests [units "a"] body = some [units "a"]) :
    WellNested (tightLink ++ render body ++ closer (units "a")) := by
  refine ⟨tagToken tightLink :: (body ++ [tagToken (closer (units "a"))]), ?_, ?_, ?_⟩
  · have hopen : IsPiece (tagToken tightLink) :=
      .tag _ (by decide +kernel) (.inl (by decide +kernel))
    have hclose : IsPiece (tagToken (closer (units "a"))) := isPiece_closer (by decide +kernel)
    simp only [List.forall_mem_cons, List.forall_mem_append]
    exact ⟨hopen, hpieces, hclose, by simp⟩
  · simp [render, tagToken_value]
  · have hopens : (tagToken tightLink).opens = some (units "a") := by decide +kernel
    have hsettled : nests [units "a"] [tagToken (closer (units "a"))] = some [] := by decide +kernel
    simp only [nests, hopens]
    rw [nests_append, hnests, Option.bind_some, hsettled]

theorem entity_overflows_chunk :
    ¬ ∀ message max, WellNested message → 64 ≤ max → CutSafely message max := by
  intro h
  have hentity : IsPiece { value := units "&lt;" } :=
    .entity [code 'l', code 't'] (by decide) (by simp; decide)
  have hnested := wellNested_link (List.forall_mem_singleton.mpr hentity) (by decide +kernel)
  have hlong : ∃ c ∈ splitTelegramHtml (tightLink ++ units "&lt;" ++ closer (units "a")) 64, 64 <
      c.length := by
    decide +kernel
  obtain ⟨c, hc, hlength⟩ := hlong
  have hshort := ((h _ 64 hnested (Nat.le_refl 64)).chunks c hc).1
  omega

theorem link_of_two_characters_fits :
    CutSafely (tightLink ++ units "ab" ++ closer (units "a")) 64 := by
  have ha : IsPiece { value := units "a" } := .text (code 'a') (by decide)
  have hb : IsPiece { value := units "b" } := .text (code 'b') (by decide)
  have hnested : WellNested (tightLink ++ units "ab" ++ closer (units "a")) :=
    wellNested_link (List.forall_mem_cons.mpr ⟨ha, List.forall_mem_singleton.mpr hb⟩)
      (by decide +kernel)
  exact (cutSafely_iff hnested 64).mpr (.inr (by decide +kernel))

end JevCode.Sdk.Telegram
