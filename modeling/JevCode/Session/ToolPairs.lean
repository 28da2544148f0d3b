import JevCode.Session.Compaction
import JevCode.Session.Messages

namespace JevCode.Session

def callsAt (entries : List Entry) (i : Nat) (id : String) : Bool :=
  entries[i]?.any fun entry => id ∈ (toolCalls entry).map ToolCall.id

/-- Every tool result comes after an assistant message with its call. -/
def KeepsCalls (entries : List Entry) : Prop :=
  ∀ r < entries.length, ∀ result ∈ resultAt entries r, ∃ a < r,
    callsAt entries a result.toolCallId = true

section Cuts

variable {κ : Type}

def cutAt (entries : List (SessionEntry κ)) (i : Nat) : Bool := entries[i]?.any isValidCutPoint

def tokensAt (tokens : SessionEntry κ → Nat) (entries : List (SessionEntry κ)) (i : Nat) : Nat :=
  (entries[i]?.map tokens).getD 0

/-- The cuts that some budget leads to. A cut allowed between others is passed over only when nothing
since the one before it counts any tokens. -/
def TakenCut (tokens : SessionEntry κ → Nat) (entries : List (SessionEntry κ))
    (startIndex c : Nat) : Prop :=
  startIndex ≤ c ∧ cutAt entries c = true ∧
    ((∀ j, startIndex ≤ j → j < c → cutAt entries j = false) ∨
      (∀ j, c < j → cutAt entries j = false) ∨
      ∃ i, startIndex ≤ i ∧ i ≤ c ∧ 0 < tokensAt tokens entries i ∧ ∀ j, i ≤ j → j < c →
        cutAt entries j = false)

variable {tokens : SessionEntry κ → Nat} {keepRecentTokens : Nat} {entries : List (SessionEntry κ)}
  {startIndex k m i c acc : Nat}

theorem mem_findValidCutPoints :
    c ∈ findValidCutPoints entries startIndex entries.length ↔ startIndex ≤ c ∧
      cutAt entries c = true := by
  simp only [findValidCutPoints, List.mem_filter, List.mem_range'_1, cutAt]
  constructor
  · rintro ⟨⟨h, -⟩, hc⟩
    exact ⟨h, hc⟩
  · rintro ⟨h, hc⟩
    refine ⟨⟨h, ?_⟩, hc⟩
    have hlt : c < entries.length := by
      by_contra hlen
      rw [List.getElem?_eq_none (by omega)] at hc
      cases hc
    omega

theorem pairwise_findValidCutPoints :
    (findValidCutPoints entries startIndex entries.length).Pairwise (· < ·) := by
  apply List.Pairwise.filter
  exact List.pairwise_lt_range'

def chosenCut (cuts : List Nat) (budget : Option Nat) : Nat :=
  match budget with
  | none => cuts.headD 0
  | some i => (cuts.find? (i ≤ ·)).getD (cuts.getLastD 0)

theorem firstKeptEntryIndex_eq {cuts : List Nat}
    (hcuts : findValidCutPoints entries startIndex entries.length = cuts) (hne : cuts ≠ []) :
    (findCutPoint tokens keepRecentTokens entries startIndex entries.length).firstKeptEntryIndex =
      scanBack entries startIndex
        (chosenCut cuts (budgetIndex tokens keepRecentTokens entries startIndex
          (entries.length - startIndex) 0) -
          startIndex) := by
  cases cuts with
  | nil => contradiction
  | cons first rest =>
    simp only [findCutPoint, hcuts, chosenCut]
    cases budgetIndex tokens keepRecentTokens entries startIndex (entries.length - startIndex) 0 with
    | none => rfl
    | some i => simp [List.getLastD_eq_getLast?, List.getLast?_eq_some_getLast]

theorem budgetIndex_some (hacc : acc < keepRecentTokens)
    (h : budgetIndex tokens keepRecentTokens entries startIndex k acc = some i) :
    startIndex ≤ i ∧ 0 < tokensAt tokens entries i := by
  induction k generalizing acc with
  | zero => cases h
  | succ k ih =>
    simp only [budgetIndex] at h
    split at h
    · cases h
      simp only [tokensAt]
      omega
    · exact ih (by omega) h

theorem budgetIndex_zero (h : budgetIndex tokens 0 entries startIndex k acc = some i) :
    i + 1 = startIndex + k := by
  cases k with
  | zero => cases h
  | succ k =>
    simp only [budgetIndex, Nat.zero_le, if_true, Option.some.injEq] at h
    omega

theorem exists_budgetIndex (hm : m < k)
    (htok : 0 < tokensAt tokens entries (startIndex + m)) (acc : Nat) :
    ∃ keep, acc < keep ∧ budgetIndex tokens keep entries startIndex k acc =
      some (startIndex + m) := by
  induction k generalizing acc with
  | zero => omega
  | succ k ih =>
    by_cases h : m = k
    · subst h
      refine ⟨acc + tokensAt tokens entries (startIndex + m), by omega, ?_⟩
      simp [budgetIndex, tokensAt]
    · obtain ⟨keep, hkeep, hindex⟩ := ih (by omega) (acc + tokensAt tokens entries (startIndex + k))
      refine ⟨keep, by omega, ?_⟩
      simp only [tokensAt] at hkeep hindex
      simp only [budgetIndex, if_neg (Nat.not_le.mpr hkeep), hindex]

theorem exists_budgetIndex_none (tokens : SessionEntry κ → Nat) (entries : List (SessionEntry κ))
    (startIndex k acc : Nat) :
    ∃ keep, acc < keep ∧ budgetIndex tokens keep entries startIndex k acc = none := by
  induction k generalizing acc with
  | zero => exact ⟨acc + 1, by omega, rfl⟩
  | succ k ih =>
    obtain ⟨keep, hkeep, hindex⟩ := ih (acc + tokensAt tokens entries (startIndex + k))
    refine ⟨keep, by omega, ?_⟩
    simp only [tokensAt] at hkeep hindex
    simp only [budgetIndex, if_neg (Nat.not_le.mpr hkeep), hindex]

theorem scanBack_passes {j : Nat} (h : scanBack entries startIndex k ≤ j) (hj : j < startIndex + k) :
    entries[j]?.any stopsScan = false := by
  induction k with
  | zero =>
    simp only [scanBack] at h
    omega
  | succ k ih =>
    simp only [scanBack] at h
    split at h
    · omega
    · rename_i hstop
      by_cases hjk : j = startIndex + k
      · subst hjk
        simpa using hstop
      · exact ih h (by omega)

section Chosen

variable {cuts : List Nat}

theorem find?_sorted (hsorted : cuts.Pairwise (· < ·)) (h : cuts.find? (i ≤ ·) = some c) :
    i ≤ c ∧ c ∈ cuts ∧ ∀ j ∈ cuts, i ≤ j → c ≤ j := by
  obtain ⟨hc, pre, post, rfl, hpre⟩ := List.find?_eq_some_iff_append.mp h
  refine ⟨by simpa using hc, by simp, ?_⟩
  intro j hj hij
  rcases List.mem_append.mp hj with hj | hj
  · have := hpre j hj
    simp only [Bool.not_eq_true', decide_eq_false_iff_not] at this
    omega
  · rcases List.mem_cons.mp hj with rfl | hj
    · exact Nat.le_refl _
    · have := (List.pairwise_cons.mp (List.pairwise_append.mp hsorted).2.1).1 j hj
      omega

theorem head_le (hsorted : cuts.Pairwise (· < ·)) (hne : cuts ≠ []) :
    cuts.headD 0 ∈ cuts ∧ ∀ j ∈ cuts, cuts.headD 0 ≤ j := by
  cases cuts with
  | nil => contradiction
  | cons first rest =>
    refine ⟨by simp, ?_⟩
    intro j hj
    rcases List.mem_cons.mp hj with rfl | hj
    · exact Nat.le_refl _
    · exact Nat.le_of_lt ((List.pairwise_cons.mp hsorted).1 j hj)

theorem le_getLast (hsorted : cuts.Pairwise (· < ·)) (hne : cuts ≠ []) :
    cuts.getLastD 0 ∈ cuts ∧ ∀ j ∈ cuts, j ≤ cuts.getLastD 0 := by
  obtain ⟨front, last, rfl⟩ := (List.eq_nil_or_concat cuts).resolve_left hne
  rw [List.concat_eq_append] at hsorted ⊢
  rw [List.getLastD_concat]
  refine ⟨by simp, ?_⟩
  intro j hj
  rcases List.mem_append.mp hj with hj | hj
  · exact Nat.le_of_lt ((List.pairwise_append.mp hsorted).2.2 j hj last (by simp))
  · rw [List.mem_singleton.mp hj]

theorem chosenCut_none (hsorted : cuts.Pairwise (· < ·)) (hc : c ∈ cuts)
    (hleast : ∀ j ∈ cuts, c ≤ j) :
    chosenCut cuts none = c := by
  obtain ⟨hhead, hle⟩ := head_le hsorted (List.ne_nil_of_mem hc)
  exact Nat.le_antisymm (hle c hc) (hleast _ hhead)

theorem chosenCut_reached (hsorted : cuts.Pairwise (· < ·)) (hc : c ∈ cuts) (hic : i ≤ c)
    (hleast : ∀ j ∈ cuts, i ≤ j → c ≤ j) : chosenCut cuts (some i) = c := by
  rw [chosenCut]
  cases hfind : cuts.find? (i ≤ ·) with
  | some c' =>
    obtain ⟨hic', hc', hle⟩ := find?_sorted hsorted hfind
    exact Nat.le_antisymm (hle c hc hic) (hleast c' hc' hic')
  | none =>
    have := List.find?_eq_none.mp hfind c hc
    simp only [decide_eq_true_eq] at this
    omega

theorem chosenCut_past (hsorted : cuts.Pairwise (· < ·)) (hc : c ∈ cuts) (hci : c ≤ i)
    (hlast : ∀ j ∈ cuts, j ≤ c) : chosenCut cuts (some i) = c := by
  rw [chosenCut]
  cases hfind : cuts.find? (i ≤ ·) with
  | some c' =>
    obtain ⟨hic', hc', -⟩ := find?_sorted hsorted hfind
    exact Nat.le_antisymm (hlast c' hc') (hci.trans hic')
  | none =>
    obtain ⟨hl, hle⟩ := le_getLast hsorted (List.ne_nil_of_mem hc)
    exact Nat.le_antisymm (hlast _ hl) (hle c hc)

end Chosen

theorem takenCut_chosenCut (tokens : SessionEntry κ → Nat) (keepRecentTokens : Nat)
    (hne : findValidCutPoints entries startIndex entries.length ≠ []) :
    TakenCut tokens entries startIndex
      (chosenCut (findValidCutPoints entries startIndex entries.length)
        (budgetIndex tokens keepRecentTokens entries startIndex
          (entries.length - startIndex) 0)) := by
  have hsorted : (findValidCutPoints entries startIndex entries.length).Pairwise (· < ·) :=
    pairwise_findValidCutPoints
  have hmem : ∀ j, startIndex ≤ j → cutAt entries j = true →
      j ∈ findValidCutPoints entries startIndex entries.length :=
    fun j hj hc => mem_findValidCutPoints.mpr ⟨hj, hc⟩
  cases hbudget : budgetIndex tokens keepRecentTokens entries startIndex
    (entries.length - startIndex) 0 with
  | none =>
    obtain ⟨hhead, hle⟩ := head_le hsorted hne
    obtain ⟨hstart, hcut⟩ := mem_findValidCutPoints.mp hhead
    refine ⟨hstart, hcut, .inl fun j hj hlt => ?_⟩
    by_contra h
    have := hle j (hmem j hj (by simpa using h))
    simp only [chosenCut] at hlt
    omega
  | some i =>
    simp only [chosenCut]
    cases hfind : (findValidCutPoints entries startIndex entries.length).find? (i ≤ ·) with
    | some c =>
      obtain ⟨hic, hc, hleast⟩ := find?_sorted hsorted hfind
      obtain ⟨hstart, hcut⟩ := mem_findValidCutPoints.mp hc
      refine ⟨hstart, hcut, ?_⟩
      by_cases hkeep : 0 < keepRecentTokens
      · obtain ⟨hi, htok⟩ := budgetIndex_some hkeep hbudget
        refine .inr (.inr ⟨i, hi, hic, htok, fun j hij hjc => ?_⟩)
        by_contra h
        have := hleast j (hmem j (by omega) (by simpa using h)) hij
        simp only [Option.getD_some] at hjc
        omega
      · -- a budget of nothing is spent at the last entry
        obtain rfl : keepRecentTokens = 0 := by omega
        have hi := budgetIndex_zero hbudget
        refine .inr (.inl fun j hj => ?_)
        simp only [Option.getD_some] at hj
        rw [cutAt, List.getElem?_eq_none (by omega)]
        rfl
    | none =>
      obtain ⟨hlast, hle⟩ := le_getLast hsorted hne
      obtain ⟨hstart, hcut⟩ := mem_findValidCutPoints.mp hlast
      refine ⟨hstart, hcut, .inr (.inl fun j hlt => ?_)⟩
      simp only [Option.getD_none] at hlt hstart
      by_contra h
      have := hle j (hmem j (by omega) (by simpa using h))
      omega

theorem exists_chosenCut (h : TakenCut tokens entries startIndex c) :
    ∃ keepRecentTokens, chosenCut (findValidCutPoints entries startIndex entries.length)
      (budgetIndex tokens keepRecentTokens entries startIndex
        (entries.length - startIndex) 0) = c := by
  obtain ⟨hstart, hcut, hreason⟩ := h
  have hc : c ∈ findValidCutPoints entries startIndex entries.length :=
    mem_findValidCutPoints.mpr ⟨hstart, hcut⟩
  have hsorted : (findValidCutPoints entries startIndex entries.length).Pairwise (· < ·) :=
    pairwise_findValidCutPoints
  have hcutAt : ∀ j ∈ findValidCutPoints entries startIndex entries.length, startIndex ≤ j ∧
      cutAt entries j = true :=
    fun j hj => mem_findValidCutPoints.mp hj
  have hlt : c < entries.length := by
    by_contra hlen
    rw [cutAt, List.getElem?_eq_none (by omega)] at hcut
    cases hcut
  rcases hreason with hfirst | hlast | ⟨i, hi, hic, htok, hnone⟩
  · obtain ⟨keep, -, hbudget⟩ :=
      exists_budgetIndex_none tokens entries startIndex (entries.length - startIndex) 0
    refine ⟨keep, ?_⟩
    rw [hbudget]
    refine chosenCut_none hsorted hc fun j hj => ?_
    by_contra hjc
    obtain ⟨hjstart, hjcut⟩ := hcutAt j hj
    rw [hfirst j hjstart (by omega)] at hjcut
    cases hjcut
  · -- a budget of nothing is spent at the last entry
    obtain ⟨k, hk⟩ : ∃ k, entries.length - startIndex = k + 1 :=
      ⟨entries.length - startIndex - 1, by omega⟩
    have hbudget : budgetIndex tokens 0 entries startIndex (entries.length - startIndex) 0 =
        some (startIndex + k) := by
      simp [hk, budgetIndex]
    refine ⟨0, ?_⟩
    rw [hbudget]
    refine chosenCut_past hsorted hc (by omega) fun j hj => ?_
    by_contra hjc
    have hjcut := (hcutAt j hj).2
    rw [hlast j (by omega)] at hjcut
    cases hjcut
  · obtain ⟨m, rfl⟩ : ∃ m, i = startIndex + m := ⟨i - startIndex, by omega⟩
    obtain ⟨keep, -, hbudget⟩ :=
      exists_budgetIndex (by omega : m < entries.length - startIndex) htok 0
    refine ⟨keep, ?_⟩
    rw [hbudget]
    refine chosenCut_reached hsorted hc hic fun j hj hij => ?_
    by_contra hjc
    have hjcut := (hcutAt j hj).2
    rw [hnone j hij (by omega)] at hjcut
    cases hjcut

end Cuts

section Pairs

variable {entries : List Entry} {startIndex a c r : Nat} {id : String} {result : ToolResultMessage}

theorem resultAt_drop (entries : List Entry) (c r : Nat) :
    resultAt (entries.drop c) r = resultAt entries (c + r) := by
  simp [resultAt]

theorem callsAt_drop (entries : List Entry) (c a : Nat) (id : String) :
    callsAt (entries.drop c) a id = callsAt entries (c + a) id := by
  simp [callsAt]

theorem keepsCalls_drop_iff : KeepsCalls (entries.drop c) ↔
    ∀ r, c ≤ r → ∀ result ∈ resultAt entries r, ∃ a, c ≤ a ∧ a < r ∧
      callsAt entries a result.toolCallId = true := by
  constructor
  · intro h r hr result hresult
    obtain ⟨d, rfl⟩ := Nat.exists_eq_add_of_le hr
    have hlt : c + d < entries.length := by
      by_contra hlen
      rw [resultAt, List.getElem?_eq_none (by omega)] at hresult
      cases hresult
    obtain ⟨a, ha, hcall⟩ := h d (by simp; omega) result (by rwa [resultAt_drop])
    exact ⟨c + a, by omega, by omega, by rwa [← callsAt_drop]⟩
  · intro h r _ result hresult
    rw [resultAt_drop] at hresult
    obtain ⟨a, hca, har, hcall⟩ := h (c + r) (by omega) result hresult
    obtain ⟨d, rfl⟩ := Nat.exists_eq_add_of_le hca
    exact ⟨d, by omega, by rwa [callsAt_drop]⟩

def Answers (entries : List Entry) (a r : Nat) : Prop :=
  a < r ∧ ∃ result ∈ resultAt entries r, callsAt entries a result.toolCallId = true ∧
    ∀ b, a < b → b < r → callsAt entries b result.toolCallId = false

theorem exists_answers (hresult : result ∈ resultAt entries r) (ha : a < r)
    (hcall : callsAt entries a result.toolCallId = true) : ∃ a', a ≤ a' ∧ Answers entries a' r := by
  obtain ⟨d, hd⟩ := Nat.exists_eq_add_of_lt ha
  induction d using Nat.strong_induction_on generalizing a with
  | _ d ih =>
    by_cases hlater : ∃ b, a < b ∧ b < r ∧ callsAt entries b result.toolCallId = true
    · obtain ⟨b, hab, hbr, hb⟩ := hlater
      obtain ⟨a', ha', hanswers⟩ := ih (r - b - 1) (by omega) hbr hb (by omega)
      exact ⟨a', by omega, hanswers⟩
    · refine ⟨a, Nat.le_refl _, ha, result, hresult, hcall, fun b hab hbr => ?_⟩
      by_contra hb
      exact hlater ⟨b, hab, hbr, by simpa using hb⟩

theorem stopsScan_of_resultAt (h : result ∈ resultAt entries r) :
    entries[r]?.any stopsScan = true ∧ cutAt entries r = false := by
  simp only [resultAt, Option.mem_def, Option.bind_eq_some_iff] at h
  obtain ⟨⟨id, timestamp, body⟩, hentry, h⟩ := h
  unfold getToolResultMessage at h
  split at h
  · rename_i hbody
    subst hbody
    simp [cutAt, hentry, stopsScan, isValidCutPoint]
  · cases h

theorem stopsScan_of_callsAt (h : callsAt entries a id = true) :
    entries[a]?.any stopsScan = true := by
  simp only [callsAt, Option.any_eq_true] at h
  obtain ⟨⟨id, timestamp, body⟩, hentry, h⟩ := h
  unfold toolCalls at h
  split at h
  · rename_i hbody
    subst hbody
    simp [hentry, stopsScan]
  · simp at h

/-- Whatever the budget, the kept suffix has the call of each of its results, if and only if no cut
that some budget leads to lies between a call and its result. -/
theorem keepsCalls_findCutPoint_iff (tokens : Entry → Nat)
    (h : KeepsCalls (entries.drop startIndex)) :
    (∀ keepRecentTokens, KeepsCalls
      (entries.drop (findCutPoint tokens keepRecentTokens entries startIndex
        entries.length).firstKeptEntryIndex)) ↔
      ∀ a c r, startIndex ≤ a → a < c → c < r → Answers entries a r →
        ¬ TakenCut tokens entries startIndex c := by
  constructor
  · intro hkeeps a c r hstart hac hcr hanswers htaken
    obtain ⟨-, result, hresult, hcall, hlast⟩ := hanswers
    obtain ⟨keep, hchosen⟩ := exists_chosenCut htaken
    have hne := List.ne_nil_of_mem (mem_findValidCutPoints.mpr ⟨htaken.1, htaken.2.1⟩)
    have hkept := hkeeps keep
    rw [firstKeptEntryIndex_eq rfl hne, hchosen] at hkept
    have hscan : a < scanBack entries startIndex (c - startIndex) := by
      by_contra hle
      have := scanBack_passes (Nat.not_lt.mp hle) (by omega : a < startIndex + (c - startIndex))
      rw [stopsScan_of_callsAt hcall] at this
      cases this
    have hbound := (scanBack_bounds entries startIndex (c - startIndex)).2
    obtain ⟨b, hcb, hbr, hb⟩ := keepsCalls_drop_iff.mp hkept r (by omega) result hresult
    rw [hlast b (by omega) hbr] at hb
    cases hb
  · intro hcond keep
    by_cases hne : findValidCutPoints entries startIndex entries.length = []
    · simpa [findCutPoint, hne] using h
    · rw [firstKeptEntryIndex_eq rfl hne]
      have htaken := takenCut_chosenCut tokens keep hne
      generalize chosenCut _ _ = c at htaken
      have hc := htaken.1
      have hbounds := scanBack_bounds entries startIndex (c - startIndex)
      apply keepsCalls_drop_iff.mpr
      intro r hr result hresult
      obtain ⟨a₀, ha₀, ha₀r, hcall₀⟩ := keepsCalls_drop_iff.mp h r (by omega) result hresult
      obtain ⟨a, haa₀, hanswers⟩ := exists_answers hresult ha₀r hcall₀
      obtain ⟨har, result', hresult', hcall, -⟩ := id hanswers
      obtain rfl : result = result' := Option.mem_unique hresult hresult'
      by_cases hac : scanBack entries startIndex (c - startIndex) ≤ a
      · exact ⟨a, hac, har, hcall⟩
      · -- a result is not among the settings, and no cut is made at it
        obtain ⟨hstop, hnocut⟩ := stopsScan_of_resultAt hresult
        have hcr : c ≤ r := by
          by_contra hlt
          have := scanBack_passes hr (by omega : r < startIndex + (c - startIndex))
          rw [hstop] at this
          cases this
        have hne : c ≠ r := by
          rintro rfl
          rw [htaken.2.1] at hnocut
          cases hnocut
        exact absurd htaken (hcond a c r (by omega) (by omega) (by omega) hanswers)

def promptEntry : Entry := ⟨"e1", "", .message ⟨.user, .other "run the tests"⟩⟩

def callEntry : Entry :=
  ⟨"e2", "", .message ⟨.assistant,
    .assistant [.toolCall ⟨"call-1", "bash", .obj [("command", .str "bun test")], none⟩]⟩⟩

def noteEntry : Entry :=
  ⟨"e3", "", .customMessage ⟨"note", .other "still running", true, none, none⟩⟩

def resultEntry : Entry :=
  ⟨"e4", "", .message ⟨.toolResult, .toolResult ⟨"call-1", "bash", [.text "ok"], false, none, none⟩⟩⟩

theorem call_and_result_stay_together :
    KeepsCalls [promptEntry, callEntry, resultEntry] ∧ ∀ keepRecentTokens, KeepsCalls
      ([promptEntry, callEntry, resultEntry].drop
        (findCutPoint (fun _ => 1) keepRecentTokens [promptEntry, callEntry, resultEntry] 0
          3).firstKeptEntryIndex) := by
  have h : KeepsCalls [promptEntry, callEntry, resultEntry] := by
    unfold KeepsCalls
    decide
  refine ⟨h, (keepsCalls_findCutPoint_iff (fun _ => 1) (List.drop_zero ▸ h)).mpr ?_⟩
  rintro a c r - hac hcr ⟨-, result, hresult, hcall, -⟩
  match r, hresult with
  | 2, hresult =>
    obtain rfl : a = 0 := by omega
    simp [callsAt, promptEntry, toolCalls] at hcall

theorem note_separates_call_and_result :
    ¬ ∀ (tokens : Entry → Nat) (keepRecentTokens : Nat) (entries : List Entry), KeepsCalls entries →
      KeepsCalls
        (entries.drop (findCutPoint tokens keepRecentTokens entries 0
          entries.length).firstKeptEntryIndex) := by
  intro h
  have hpath : KeepsCalls [promptEntry, callEntry, noteEntry, resultEntry] := by
    unfold KeepsCalls
    decide
  have hsuffix := h (fun _ => 1) 1 _ hpath
  unfold KeepsCalls at hsuffix
  revert hsuffix
  decide

end Pairs

end JevCode.Session
