import JevCode.Sdk.TelegramHtml

namespace JevCode.Sdk.Telegram

open JevCode.Text

inductive IsPiece : Token → Prop
  | text (u : CodeUnit) (h : u ∉ [code '<', code '>', code '&']) : IsPiece { value := [u] }
  | entity (body : List CodeUnit) (hlength : body.length ≤ 9)
      (h : ∀ u ∈ body, u ∉ [code '<', code '>', code '&', code ';']) :
      IsPiece { value := code '&' :: (body ++ [code ';']) }
  | tag (inner : List CodeUnit) (h : code '>' ∉ inner)
      (hallowed : (tagToken (code '<' :: (inner ++ [code '>']))).opens.isSome ∨
        (tagToken (code '<' :: (inner ++ [code '>']))).closes.isSome) :
      IsPiece (tagToken (code '<' :: (inner ++ [code '>'])))

def render (tokens : List Token) : List CodeUnit := tokens.flatMap Token.value

def nests : List (List CodeUnit) → List Token → Option (List (List CodeUnit))
  | stack, [] => some stack
  | stack, token :: tokens =>
    match token.opens, token.closes with
    | some name, _ => nests (name :: stack) tokens
    | none, some name =>
      match stack with
      | top :: stack => if top = name then nests stack tokens else none
      | [] => none
    | none, none => nests stack tokens

def WellNested (html : List CodeUnit) : Prop :=
  ∃ tokens, (∀ t ∈ tokens, IsPiece t) ∧ render tokens = html ∧ nests [] tokens = some []

def Token.isText (t : Token) : Bool := t.opens.isNone && t.closes.isNone

/-- The text without the tags, of tokens and of a message. -/
def textOf (tokens : List Token) : List CodeUnit := (tokens.filter Token.isText).flatMap Token.value

def withoutTags (html : List CodeUnit) : List CodeUnit := textOf (tokenize html)

attribute [local simp] nests

theorem tagToken_value (raw : List CodeUnit) : (tagToken raw).value = raw := by
  unfold tagToken
  split
  · rfl
  · split <;> rfl

theorem breakAfter_append {stop : CodeUnit} {s : List CodeUnit} (h : stop ∉ s)
    (rest : List CodeUnit) :
    breakAfter stop (s ++ stop :: rest) = some (s ++ [stop], rest) := by
  induction s with
  | nil => simp [breakAfter]
  | cons u s ih =>
    have hu : u ≠ stop := fun heq => h (heq ▸ List.mem_cons_self)
    rw [List.cons_append, breakAfter, if_neg hu, ih fun hmem => h (List.mem_cons_of_mem _ hmem)]
    rfl

theorem nextToken_piece {t : Token} (ht : IsPiece t) (rest : List CodeUnit) :
    ∃ ch tail, t.value = ch :: tail ∧ nextToken ch (tail ++ rest) = (t, rest) := by
  cases ht with
  | text u h =>
    simp only [List.mem_cons, List.not_mem_nil, or_false, not_or] at h
    exact ⟨u, [], rfl, by simp [nextToken, h]⟩
  | entity body hlength h =>
    refine ⟨code '&', body ++ [code ';'], rfl, ?_⟩
    have hbreak : breakAfter (code ';') (body ++ code ';' :: rest) =
        some (body ++ [code ';'], rest) :=
      breakAfter_append (fun hmem => h _ hmem (by simp)) rest
    have hne : ¬ code '&' = code '<' := by decide
    have hshort : (some (body ++ [code ';'], rest)).filter (fun p => p.1.length ≤ 10) =
        some (body ++ [code ';'], rest) := by
      rw [Option.filter_some, if_pos]
      simp
      omega
    rw [List.append_assoc, List.singleton_append, nextToken, if_neg hne, if_pos rfl, hbreak]
    simp only [hshort]
  | tag inner h hallowed =>
    refine ⟨code '<', inner ++ [code '>'], tagToken_value _, ?_⟩
    rw [List.append_assoc, List.singleton_append, nextToken, if_pos rfl, breakAfter_append h rest]

theorem tokenizeWithin_append {tokens : List Token} (h : ∀ t ∈ tokens, IsPiece t)
    (rest : List CodeUnit) {fuel : Nat} (hfuel : (render tokens).length ≤ fuel) :
    ∃ left, tokenizeWithin fuel (render tokens ++ rest) = tokens ++ tokenizeWithin left rest := by
  induction tokens generalizing fuel with
  | nil => exact ⟨fuel, rfl⟩
  | cons t tokens ih =>
    obtain ⟨ch, tail, hvalue, hnext⟩ :=
      nextToken_piece (h t List.mem_cons_self) (render tokens ++ rest)
    have hrender : render (t :: tokens) = ch :: (tail ++ render tokens) := by
      rw [render, List.flatMap_cons, hvalue]
      rfl
    rw [hrender] at hfuel ⊢
    cases fuel with
    | zero => simp at hfuel
    | succ fuel =>
      have hrest : (render tokens).length ≤ fuel := by
        simp only [List.length_cons, List.length_append] at hfuel
        omega
      obtain ⟨left, hleft⟩ := ih (fun t ht => h t (List.mem_cons_of_mem _ ht)) hrest
      refine ⟨left, ?_⟩
      rw [List.cons_append, List.append_assoc]
      simp only [tokenizeWithin, hnext, hleft, List.cons_append]

theorem tokenize_append {tokens : List Token} (h : ∀ t ∈ tokens, IsPiece t) (rest : List CodeUnit) :
    ∃ left, tokenize (render tokens ++ rest) = tokens ++ tokenizeWithin left rest :=
  tokenizeWithin_append h rest (by rw [List.length_append]; omega)

theorem tokenize_render {tokens : List Token} (h : ∀ t ∈ tokens, IsPiece t) :
    tokenize (render tokens) = tokens := by
  obtain ⟨left, hleft⟩ := tokenize_append h []
  have hnil : tokenizeWithin left [] = [] := by cases left <;> rfl
  rw [← List.append_nil (render tokens), hleft, hnil, List.append_nil]

theorem render_append (xs ys : List Token) : render (xs ++ ys) = render xs ++ render ys :=
  List.flatMap_append

theorem textOf_append (xs ys : List Token) : textOf (xs ++ ys) = textOf xs ++ textOf ys := by
  simp [textOf]

theorem withoutTags_render {tokens : List Token} (h : ∀ t ∈ tokens, IsPiece t) :
    withoutTags (render tokens) = textOf tokens := by
  rw [withoutTags, tokenize_render h]

theorem nests_append (xs ys : List Token) (stack : List (List CodeUnit)) :
    nests stack (xs ++ ys) = (nests stack xs).bind fun stack' => nests stack' ys := by
  induction xs generalizing stack with
  | nil => rfl
  | cons t xs ih =>
    rw [List.cons_append, nests, nests]
    cases t.opens with
    | some name => exact ih (name :: stack)
    | none =>
      cases t.closes with
      | none => exact ih stack
      | some name =>
        cases stack with
        | nil => rfl
        | cons top stack =>
          simp only
          split
          · exact ih stack
          · rfl

theorem not_wellNested_append {tokens : List Token} (h : ∀ t ∈ tokens, IsPiece t)
    (hnests : nests [] tokens = none) (rest : List CodeUnit) :
    ¬ WellNested (render tokens ++ rest) := by
  rintro ⟨tokens', h', hrender, hnests'⟩
  obtain ⟨left, hleft⟩ := tokenize_append h rest
  rw [← hrender, tokenize_render h'] at hleft
  rw [hleft, nests_append, hnests] at hnests'
  cases hnests'

theorem tagToken_closer : ∀ name ∈ allowedTags, (tagToken (closer name)).opens = none ∧
    (tagToken (closer name)).closes = some name := by
  decide +kernel

def closerTokens (stack : List (List CodeUnit)) : List Token := stack.map fun name =>
  tagToken (closer name)

theorem render_closerTokens (stack : List (List CodeUnit)) :
    render (closerTokens stack) = closersFor stack := by
  simp [render, closerTokens, closersFor, List.flatMap_map, tagToken_value]

theorem gt_notMem_allowedTags : ∀ name ∈ allowedTags, code '>' ∉ name := by decide +kernel

theorem isPiece_closer {name : List CodeUnit} (h : name ∈ allowedTags) :
    IsPiece (tagToken (closer name)) := by
  have hshape : closer name = code '<' :: ((code '/' :: name) ++ [code '>']) := by
    simp [closer]
  have hclosed := (tagToken_closer name h).2
  rw [hshape] at hclosed ⊢
  refine .tag _ ?_ (.inr (by rw [hclosed]; rfl))
  simp only [List.mem_cons, not_or]
  exact ⟨by decide, gt_notMem_allowedTags name h⟩

theorem isPiece_closerTokens {stack : List (List CodeUnit)}
    (h : ∀ name ∈ stack, name ∈ allowedTags) :
    ∀ t ∈ closerTokens stack, IsPiece t := by
  intro t ht
  obtain ⟨name, hname, rfl⟩ := List.mem_map.mp ht
  exact isPiece_closer (h name hname)

theorem nests_closerTokens {stack : List (List CodeUnit)} (h : ∀ name ∈ stack, name ∈ allowedTags) :
    nests stack (closerTokens stack) = some [] := by
  induction stack with
  | nil => rfl
  | cons name stack ih =>
    obtain ⟨hopens, hcloses⟩ := tagToken_closer name (h name List.mem_cons_self)
    simp only [closerTokens, List.map_cons, nests, hopens, hcloses, if_true]
    exact ih fun n hn => h n (List.mem_cons_of_mem _ hn)

theorem textOf_closerTokens {stack : List (List CodeUnit)} (h : ∀ name ∈ stack, name ∈ allowedTags) :
    textOf (closerTokens stack) = [] := by
  have hnone : (closerTokens stack).filter Token.isText = [] := by
    rw [List.filter_eq_nil_iff]
    intro t ht
    obtain ⟨name, hname, rfl⟩ := List.mem_map.mp ht
    simp [Token.isText, (tagToken_closer name (h name hname)).2]
  rw [textOf, hnone]
  rfl

theorem allowedName_eq_some {raw name : List CodeUnit} (h : allowedName raw = some name) :
    name ∈ allowedTags ∧ name.length = raw.length := by
  simp only [allowedName] at h
  split at h
  case isTrue hmem =>
    cases h
    exact ⟨List.contains_iff_mem.mp hmem, List.length_map _⟩
  case isFalse => cases h

theorem tagToken_opens {raw name : List CodeUnit} (h : (tagToken raw).opens = some name) :
    name ∈ allowedTags ∧ (tagToken raw).openTag = some raw := by
  unfold tagToken at h ⊢
  split at h
  · cases h
  · split at h
    case h_1 hopen =>
      cases h
      obtain ⟨found, -, hallowed⟩ := Option.bind_eq_some_iff.mp hopen
      exact ⟨(allowedName_eq_some hallowed).1, by simp_all⟩
    case h_2 => cases h

theorem closeMatch_eq_some {raw name : List CodeUnit} (h : closeMatch raw = some name) :
    raw.length = name.length + 3 := by
  unfold closeMatch at h
  split at h
  case h_1 lt slash rest =>
    simp only at h
    split at h
    case isTrue hall =>
      cases h
      have hsplit := List.take_append_drop (rest.takeWhile isNameUnit).length rest
      have hdrop := congrArg List.length hall.2.2.2
      simp only [List.length_drop, List.length_singleton] at hdrop
      simp only [List.length_cons]
      omega
    case isFalse => cases h
  case h_2 => cases h

theorem tagToken_closes {raw name : List CodeUnit} (h : (tagToken raw).closes = some name) :
    name ∈ allowedTags ∧ (tagToken raw).opens = none ∧ raw.length = (closer name).length := by
  unfold tagToken at h ⊢
  split at h
  case h_1 found hclose =>
    cases h
    obtain ⟨matched, hmatch, hallowed⟩ := Option.bind_eq_some_iff.mp hclose
    refine ⟨(allowedName_eq_some hallowed).1, by simp_all, ?_⟩
    rw [closeMatch_eq_some hmatch, ← (allowedName_eq_some hallowed).2]
    simp [closer]
  case h_2 =>
    split at h <;> cases h

inductive Token.Kind (t : Token) : Prop
  | opens (name : List CodeUnit) (hopens : t.opens = some name) (hallowed : name ∈ allowedTags)
      (htag : t.openTag = some t.value) (heq : t = tagToken t.value)
  | closes (name : List CodeUnit) (hopens : t.opens = none) (hcloses : t.closes = some name)
      (hallowed : name ∈ allowedTags) (hlength : t.value.length = (closer name).length)
  | text (hopens : t.opens = none) (hcloses : t.closes = none)

theorem IsPiece.kind {t : Token} (ht : IsPiece t) : t.Kind := by
  cases ht with
  | text => exact .text rfl rfl
  | entity => exact .text rfl rfl
  | tag inner h hallowed =>
    have hvalue := tagToken_value (code '<' :: (inner ++ [code '>']))
    cases hopens : (tagToken (code '<' :: (inner ++ [code '>']))).opens with
    | some name =>
      obtain ⟨hname, htag⟩ := tagToken_opens hopens
      exact .opens name hopens hname (by rw [htag, hvalue]) (by rw [hvalue])
    | none =>
      cases hcloses : (tagToken (code '<' :: (inner ++ [code '>']))).closes with
      | some name =>
        obtain ⟨hname, -, hlength⟩ := tagToken_closes hcloses
        exact .closes name hopens hcloses hname (by rw [hvalue, hlength])
      | none => exact .text hopens hcloses

def OpenTag.Valid (e : OpenTag) : Prop :=
  IsPiece (tagToken e.tag) ∧ (tagToken e.tag).opens = some e.name ∧ e.name ∈ allowedTags

def openerTokens (stack : List OpenTag) : List Token := stack.reverse.map fun e => tagToken e.tag

theorem render_openerTokens (stack : List OpenTag) :
    render (openerTokens stack) = tagOpeners stack := by
  simp only [render, openerTokens, tagOpeners, List.flatMap_map, tagToken_value]

theorem isPiece_openerTokens {stack : List OpenTag} (h : ∀ e ∈ stack, e.Valid) :
    ∀ t ∈ openerTokens stack, IsPiece t := by
  intro t ht
  obtain ⟨e, he, rfl⟩ := List.mem_map.mp ht
  exact (h e (List.mem_reverse.mp he)).1

theorem nests_openerTokens {stack : List OpenTag} (h : ∀ e ∈ stack, e.Valid) :
    nests [] (openerTokens stack) = some (stack.map OpenTag.name) := by
  induction stack with
  | nil => rfl
  | cons e stack ih =>
    have happend : openerTokens (e :: stack) = openerTokens stack ++ [tagToken e.tag] := by
      simp [openerTokens]
    rw [happend, nests_append, ih fun e he => h e (List.mem_cons_of_mem _ he), Option.bind_some]
    simp only [nests, (h e List.mem_cons_self).2.1, List.map_cons]

theorem textOf_openerTokens {stack : List OpenTag} (h : ∀ e ∈ stack, e.Valid) :
    textOf (openerTokens stack) = [] := by
  have hnone : (openerTokens stack).filter Token.isText = [] := by
    rw [List.filter_eq_nil_iff]
    intro t ht
    obtain ⟨e, he, rfl⟩ := List.mem_map.mp ht
    simp [Token.isText, (h e (List.mem_reverse.mp he)).2.1]
  rw [textOf, hnone]
  rfl

theorem allowed_of_valid {stack : List OpenTag} (h : ∀ e ∈ stack, e.Valid) :
    ∀ name ∈ stack.map OpenTag.name, name ∈ allowedTags := by
  intro name hname
  obtain ⟨e, he, rfl⟩ := List.mem_map.mp hname
  exact (h e he).2.2

end JevCode.Sdk.Telegram
