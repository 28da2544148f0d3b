import Mathlib.Algebra.Order.Field.Rat
import Mathlib.Algebra.Order.Floor.Ring
import Mathlib.Data.Rat.Floor
import Mathlib.Tactic.Linarith
import Mathlib.Tactic.NormNum
import Mathlib.Tactic.Positivity

/-! `compaction.ts`: when a context is compacted. Numbers are rationals; where the source checks that
a number is present and finite, `none` stands for one that is not. -/

namespace JevCode.Session

def mathRound (x : ℚ) : ℚ := ⌊x + 1 / 2⌋

inductive CompactionStrategy
  | contextFull
  | handoff
  | off
  deriving DecidableEq

structure AdaptiveCompactionDecisionState where
  turnsSinceCompact : Option ℚ
  callsInWindow : Option ℚ
  lastContextTokens : Option ℚ

structure AdaptiveCompactionOptions where
  enabled : Bool
  turnWindow : Option ℚ
  baseThresholdPercent : Option ℚ
  aggression : Option ℚ
  minThresholdPercent : Option ℚ

structure CompactionSettings where
  enabled : Bool
  strategy : Option CompactionStrategy
  thresholdPercent : Option ℚ
  thresholdTokens : Option ℚ
  adaptive : Option AdaptiveCompactionOptions
  adaptiveState : Option AdaptiveCompactionDecisionState
  reserveTokens : ℚ
  keepRecentTokens : ℚ

def defaultCompactionSettings : CompactionSettings where
  enabled := true
  strategy := some .contextFull
  thresholdPercent := some (-1)
  thresholdTokens := some (-1)
  adaptive := none
  adaptiveState := none
  reserveTokens := 16384
  keepRecentTokens := 20000

def clampPercent (percent : ℚ) : ℚ := min 99 (max 1 percent)

def clampedBasePercent (basePercent : Option ℚ) : ℚ := (basePercent.map clampPercent).getD 85

def loweredPercent (base callsInWindow turnWindow : ℚ) (options : AdaptiveCompactionOptions) : ℚ :=
  let windowTurns := max 1 (turnWindow * 4)
  let intensity := min 1 (callsInWindow / windowTurns)
  let aggression := (options.aggression.map fun a => min 1 (max 0 a)).getD 0
  let minThresholdPercent :=
    min base ((options.minThresholdPercent.map (max 1)).getD (base * (1 / 2)))
  max 1 (min 99 (mathRound (base - (base - minThresholdPercent) * aggression * intensity)))

def computeAdaptiveThresholdPercent (basePercent : Option ℚ) (contextTokens contextWindow : ℚ)
    (state : Option AdaptiveCompactionDecisionState) (options : AdaptiveCompactionOptions) : ℚ :=
  let base := clampedBasePercent basePercent
  match state, options.turnWindow with
  | some state, some turnWindow =>
    if contextWindow ≤ 0 then base
    else if turnWindow ≤ 0 then base
    else
      let fillRatio := max 0 contextTokens / contextWindow
      let baseRatio := base / 100
      if fillRatio < baseRatio * (7 / 10) then base
      else
        let turnsSinceCompact := (state.turnsSinceCompact.map (max 0)).getD 0
        let callsInWindow := (state.callsInWindow.map (max 0)).getD 0
        if turnsSinceCompact ≤ 3 then base else loweredPercent base callsInWindow turnWindow options
  | _, _ => base

def adaptiveContextTokens (contextTokens lastContextTokens : Option ℚ) : ℚ :=
  match contextTokens with
  | some contextTokens => max 0 contextTokens
  | none =>
    match lastContextTokens with
    | some lastContextTokens => max 0 lastContextTokens
    | none => 0

def effectiveReserveTokens (contextWindow : ℚ) (settings : CompactionSettings)
    (maxOutputTokens : ℚ) : ℚ :=
  max (max (⌊contextWindow * (15 / 100)⌋ : ℚ) settings.reserveTokens) (max 0 maxOutputTokens)

def CompactionSettings.adaptiveOptions (settings : CompactionSettings) :
    Option AdaptiveCompactionOptions :=
  settings.adaptive.filter (·.enabled)

def setLimit (limit : Option ℚ) : Option ℚ := limit.filter (0 < ·)

def resolveThresholdTokens (contextWindow : ℚ) (settings : CompactionSettings) (maxOutputTokens : ℚ)
    (contextTokens : Option ℚ) : ℚ :=
  let tokens :=
    adaptiveContextTokens contextTokens (settings.adaptiveState.bind (·.lastContextTokens))
  match setLimit settings.thresholdTokens with
  | some thresholdTokens => min (contextWindow - 1) (max 1 thresholdTokens)
  | none =>
    match setLimit settings.thresholdPercent, settings.adaptiveOptions with
    | none, none => contextWindow - effectiveReserveTokens contextWindow settings maxOutputTokens
    | none, some options =>
      let adaptiveBasePercent := clampedBasePercent options.baseThresholdPercent
      ⌊contextWindow * (computeAdaptiveThresholdPercent (some adaptiveBasePercent)
        tokens contextWindow
        settings.adaptiveState options / 100)⌋
    | some thresholdPercent, none => ⌊contextWindow * (clampPercent thresholdPercent / 100)⌋
    | some _, some options =>
      ⌊contextWindow * (computeAdaptiveThresholdPercent options.baseThresholdPercent
        tokens contextWindow
        settings.adaptiveState options / 100)⌋

def shouldCompact (contextTokens contextWindow : ℚ) (settings : CompactionSettings)
    (maxOutputTokens : ℚ) : Bool :=
  if !settings.enabled || settings.strategy = some .off || contextWindow ≤ 0 then false
  else resolveThresholdTokens contextWindow settings maxOutputTokens
    (some contextTokens) < contextTokens

theorem clampPercent_mem (percent : ℚ) : 1 ≤ clampPercent percent ∧ clampPercent percent ≤ 99 :=
  ⟨le_min (by norm_num) (le_max_left ..), min_le_left ..⟩

theorem clampedBasePercent_mem (basePercent : Option ℚ) :
    1 ≤ clampedBasePercent basePercent ∧ clampedBasePercent basePercent ≤ 99 := by
  cases basePercent with
  | none => norm_num [clampedBasePercent]
  | some percent => exact clampPercent_mem percent

theorem loweredPercent_mem (base callsInWindow turnWindow : ℚ)
    (options : AdaptiveCompactionOptions) :
    1 ≤ loweredPercent base callsInWindow turnWindow options ∧
      loweredPercent base callsInWindow turnWindow options ≤ 99 :=
  ⟨le_max_left .., max_le (by norm_num) (min_le_left ..)⟩

theorem floor_percent_mem {contextWindow percent : ℚ} (hw : 100 ≤ contextWindow)
    (h : 1 ≤ percent ∧ percent ≤ 99) :
    (1 : ℚ) ≤ ⌊contextWindow * (percent / 100)⌋ ∧
    (⌊contextWindow * (percent / 100)⌋ : ℚ) ≤ contextWindow - 1 := by
  constructor
  · have hone : 1 ≤ contextWindow * (percent / 100) := by
      calc (1 : ℚ) ≤ contextWindow * (1 / 100) := by linarith
        _ ≤ contextWindow * (percent / 100) := by
          apply mul_le_mul_of_nonneg_left _ (by linarith)
          linarith [h.1]
    exact_mod_cast Int.le_floor.mpr (by exact_mod_cast hone)
  · calc (⌊contextWindow * (percent / 100)⌋ : ℚ) ≤ contextWindow * (percent / 100) := Int.floor_le _
      _ ≤ contextWindow * (99 / 100) := by
        apply mul_le_mul_of_nonneg_left _ (by linarith)
        linarith [h.2]
      _ ≤ contextWindow - 1 := by linarith

theorem effectiveReserveTokens_ge (contextWindow : ℚ) (settings : CompactionSettings)
    (maxOutputTokens : ℚ) :
    (⌊contextWindow * (15 / 100)⌋ :
      ℚ) ≤ effectiveReserveTokens contextWindow settings maxOutputTokens :=
  (le_max_left ..).trans (le_max_left ..)

theorem computeAdaptiveThresholdPercent_eq (basePercent : Option ℚ) (contextWindow : ℚ)
    (state : Option AdaptiveCompactionDecisionState) (options : AdaptiveCompactionOptions) :
    ∃ full, (1 ≤ full ∧ full ≤ 99) ∧ ∀ contextTokens,
      computeAdaptiveThresholdPercent basePercent contextTokens contextWindow state options =
        if max 0 contextTokens / contextWindow < clampedBasePercent basePercent / 100 * (7 / 10) then
          clampedBasePercent basePercent
        else full := by
  have hbase := clampedBasePercent_mem basePercent
  unfold computeAdaptiveThresholdPercent
  cases state with
  | none => exact ⟨_, hbase, fun _ => (ite_self _).symm⟩
  | some state =>
    cases options.turnWindow with
    | none => exact ⟨_, hbase, fun _ => (ite_self _).symm⟩
    | some turnWindow =>
      simp only
      split
      · exact ⟨_, hbase, fun _ => (ite_self _).symm⟩
      split
      · exact ⟨_, hbase, fun _ => (ite_self _).symm⟩
      split
      · exact ⟨_, hbase, fun _ => rfl⟩
      · exact ⟨_, loweredPercent_mem .., fun _ => rfl⟩

/-- Neither a fixed limit nor a percentage nor the adaptive mode decides: the threshold is what the
reserve leaves. -/
def CompactionSettings.UsesReserve (settings : CompactionSettings) : Prop :=
  setLimit settings.thresholdTokens = none ∧ setLimit settings.thresholdPercent = none ∧
    settings.adaptiveOptions = none

theorem resolveThresholdTokens_cases {contextWindow : ℚ} (hw : 100 ≤ contextWindow)
    (settings : CompactionSettings) (maxOutputTokens : ℚ) :
    (∃ threshold, (∀ contextTokens,
        resolveThresholdTokens contextWindow settings maxOutputTokens contextTokens = threshold) ∧
      threshold ≤ contextWindow - 1 ∧
      (1 ≤ threshold ∨
        settings.UsesReserve ∧ threshold = contextWindow -
          effectiveReserveTokens contextWindow settings maxOutputTokens)) ∨
    ∃ base full, (1 ≤ base ∧ base ≤ 99) ∧ (1 ≤ full ∧ full ≤ 99) ∧ ∀ contextTokens,
      resolveThresholdTokens contextWindow settings maxOutputTokens contextTokens =
        ⌊contextWindow * ((if max 0 (adaptiveContextTokens contextTokens
            (settings.adaptiveState.bind (·.lastContextTokens))) / contextWindow < base / 100 *
              (7 / 10) then base
          else full) / 100)⌋ := by
  unfold resolveThresholdTokens
  cases htokens : setLimit settings.thresholdTokens with
  | some thresholdTokens =>
    exact .inl ⟨_, fun _ => rfl, min_le_left .., .inl (le_min (by linarith) (le_max_left ..))⟩
  | none =>
    cases hpercent : setLimit settings.thresholdPercent with
    | none =>
      cases hadaptive : settings.adaptiveOptions with
      | none =>
        have hreserve := effectiveReserveTokens_ge contextWindow settings maxOutputTokens
        have hfloor : (1 : ℚ) ≤ ⌊contextWindow * (15 / 100)⌋ :=
          (floor_percent_mem hw (by norm_num)).1
        exact .inl ⟨contextWindow - effectiveReserveTokens contextWindow settings maxOutputTokens,
          fun _ => rfl,
          by linarith, .inr ⟨⟨htokens, hpercent, hadaptive⟩, rfl⟩⟩
      | some options =>
        obtain ⟨full, hfull, heq⟩ := computeAdaptiveThresholdPercent_eq
          (some (clampedBasePercent options.baseThresholdPercent)) contextWindow
          settings.adaptiveState options
        exact .inr ⟨clampedBasePercent (some (clampedBasePercent options.baseThresholdPercent)),
          full, clampedBasePercent_mem _, hfull, fun _ => by simp only [heq]⟩
    | some thresholdPercent =>
      cases settings.adaptiveOptions with
      | none =>
        obtain ⟨hge, hle⟩ := floor_percent_mem hw (clampPercent_mem thresholdPercent)
        exact .inl ⟨_, fun _ => rfl, hle, .inl hge⟩
      | some options =>
        obtain ⟨full, hfull, heq⟩ :=
          computeAdaptiveThresholdPercent_eq options.baseThresholdPercent contextWindow
          settings.adaptiveState options
        exact .inr ⟨clampedBasePercent options.baseThresholdPercent, full,
          clampedBasePercent_mem _, hfull, fun _ => by simp only [heq]⟩

theorem effectiveReserveTokens_le {contextWindow : ℚ} (hw : 100 ≤ contextWindow)
    {settings : CompactionSettings} {maxOutputTokens : ℚ}
    (hreserve : settings.reserveTokens ≤ contextWindow - 1)
    (houtput : maxOutputTokens ≤ contextWindow - 1) :
    effectiveReserveTokens contextWindow settings maxOutputTokens ≤ contextWindow - 1 := by
  have hfloor : (⌊contextWindow * (15 / 100)⌋ : ℚ) ≤ contextWindow - 1 :=
    (floor_percent_mem hw (by norm_num)).2
  exact max_le (max_le hfloor hreserve) (max_le (by linarith) houtput)

theorem resolveThresholdTokens_mem {contextWindow : ℚ} (hw : 100 ≤ contextWindow)
    {settings : CompactionSettings} {maxOutputTokens : ℚ}
    (hroom : settings.UsesReserve → settings.reserveTokens ≤ contextWindow - 1 ∧
      maxOutputTokens ≤ contextWindow - 1)
    (contextTokens : Option ℚ) :
    1 ≤ resolveThresholdTokens contextWindow settings maxOutputTokens contextTokens ∧
      resolveThresholdTokens contextWindow settings maxOutputTokens contextTokens ≤
        contextWindow - 1 := by
  rcases resolveThresholdTokens_cases hw settings maxOutputTokens with
    ⟨threshold, heq, hle, hge | ⟨huses, hthreshold⟩⟩ | ⟨base, full, hbase, hfull, heq⟩
  · rw [heq]
    exact ⟨hge, hle⟩
  · have hreserve := effectiveReserveTokens_le hw (hroom huses).1 (hroom huses).2
    rw [heq]
    exact ⟨by linarith, hle⟩
  · rw [heq]
    split
    · exact floor_percent_mem hw hbase
    · exact floor_percent_mem hw hfull

/-- Compaction is enabled and its strategy is not `off`. -/
def CompactionSettings.IsOn (settings : CompactionSettings) : Prop :=
  settings.enabled = true ∧ settings.strategy ≠ some .off

theorem shouldCompact_iff {contextTokens contextWindow : ℚ} {settings : CompactionSettings}
    {maxOutputTokens : ℚ} (hw : 100 ≤ contextWindow) :
    shouldCompact contextTokens contextWindow settings maxOutputTokens = true ↔
      settings.IsOn ∧ resolveThresholdTokens contextWindow settings maxOutputTokens
        (some contextTokens) < contextTokens := by
  have hpos : ¬ contextWindow ≤ 0 := by linarith
  simp only [shouldCompact, CompactionSettings.IsOn]
  cases settings.enabled <;> by_cases hs : settings.strategy = some .off <;> simp [hs, hpos]

theorem le_floor_of_below {contextWindow base : ℚ} (hw : 100 ≤ contextWindow)
    (hbase : 1 ≤ base) {tokens : ℤ}
    (h : max 0 (max 0 (tokens : ℚ)) / contextWindow < base / 100 * (7 / 10)) :
    (tokens : ℚ) ≤ ⌊contextWindow * (base / 100)⌋ := by
  have hwpos : 0 < contextWindow := by linarith
  have hle : (tokens : ℚ) ≤ max 0 (max 0 (tokens : ℚ)) := (le_max_right ..).trans (le_max_right ..)
  have hpart : 0 ≤ contextWindow * (base / 100) := by positivity
  have hlt : (tokens : ℚ) ≤ contextWindow * (base / 100) := by
    rw [div_lt_iff₀ hwpos] at h
    linarith
  exact_mod_cast Int.le_floor.mpr hlt

theorem shouldCompact_mono {contextWindow : ℚ} (hw : 100 ≤ contextWindow)
    (settings : CompactionSettings) (maxOutputTokens : ℚ) {a b : ℤ} (hab : a ≤ b)
    (h : shouldCompact a contextWindow settings maxOutputTokens = true) :
    shouldCompact b contextWindow settings maxOutputTokens = true := by
  have hcast : (a : ℚ) ≤ b := by exact_mod_cast hab
  rw [shouldCompact_iff hw] at h ⊢
  obtain ⟨hon, hlt⟩ := h
  refine ⟨hon, ?_⟩
  rcases resolveThresholdTokens_cases hw settings maxOutputTokens with
    ⟨threshold, heq, -⟩ | ⟨base, full, hbase, -, heq⟩
  · rw [heq] at hlt ⊢
    linarith
  · have hwpos : 0 < contextWindow := by linarith
    rw [heq, adaptiveContextTokens] at hlt ⊢
    split at hlt
    · next hbelow => exact absurd (le_floor_of_below hw hbase.1 hbelow) (not_le.mpr hlt)
    · next hnot =>
      have hmono : max 0 (max 0 (a : ℚ)) / contextWindow ≤ max 0 (max 0 (b : ℚ)) / contextWindow :=
        div_le_div_of_nonneg_right (max_le_max_left _ (max_le_max_left _ hcast)) hwpos.le
      rw [if_neg (fun hb => hnot (lt_of_le_of_lt hmono hb))]
      linarith

/-- The trigger lies inside of the window, fires for a full context when compaction is on, never for
an empty one, and a larger context fires it whenever a smaller one does. -/
theorem compaction_trigger_sane {contextWindow : ℚ} (hw : 100 ≤ contextWindow)
    (settings : CompactionSettings) (maxOutputTokens : ℚ)
    (hroom : settings.UsesReserve → settings.reserveTokens ≤ contextWindow - 1 ∧
      maxOutputTokens ≤ contextWindow - 1) :
    (∀ contextTokens, 1 ≤ resolveThresholdTokens contextWindow settings maxOutputTokens
      contextTokens ∧
        resolveThresholdTokens contextWindow settings maxOutputTokens contextTokens ≤
          contextWindow - 1) ∧
      shouldCompact 0 contextWindow settings maxOutputTokens = false ∧
      (settings.IsOn → shouldCompact contextWindow contextWindow settings maxOutputTokens = true) ∧
      ∀ a b : ℤ, a ≤ b → shouldCompact a contextWindow settings maxOutputTokens = true →
        shouldCompact b contextWindow settings maxOutputTokens = true := by
  have hmem := resolveThresholdTokens_mem hw hroom
  refine ⟨hmem, ?_, fun hon => ?_,
    fun _ _ hab h => shouldCompact_mono hw settings maxOutputTokens hab h⟩
  · rw [Bool.eq_false_iff, ne_eq, shouldCompact_iff hw]
    rintro ⟨-, hlt⟩
    linarith [(hmem (some 0)).1]
  · rw [shouldCompact_iff hw]
    exact ⟨hon, by linarith [(hmem (some contextWindow)).2]⟩

theorem compaction_trigger_sane_default :
    (100 : ℚ) ≤ 100000 ∧ shouldCompact 0 100000 defaultCompactionSettings 0 = false ∧
      shouldCompact 100000 100000 defaultCompactionSettings 0 = true := by
  have h := compaction_trigger_sane (show (100 : ℚ) ≤ 100000 by norm_num) defaultCompactionSettings 0
    fun _ => by norm_num [defaultCompactionSettings]
  exact ⟨by norm_num, h.2.1, h.2.2.1 ⟨rfl, by simp [defaultCompactionSettings]⟩⟩

theorem compaction_trigger_not_sane :
    ¬ (∀ (contextWindow : ℚ) (settings : CompactionSettings) (maxOutputTokens : ℚ),
      100 ≤ contextWindow →
      shouldCompact contextWindow contextWindow settings maxOutputTokens = true) ∧
    ¬ (∀ (contextWindow : ℚ) (settings : CompactionSettings) (maxOutputTokens : ℚ),
      100 ≤ contextWindow →
      shouldCompact 0 contextWindow settings maxOutputTokens = false) := by
  constructor
  · intro h
    have := h 100000 { defaultCompactionSettings with enabled := false } 0 (by norm_num)
    simp [shouldCompact] at this
  · intro h
    have := h 8192 defaultCompactionSettings 0 (by norm_num)
    norm_num [shouldCompact, defaultCompactionSettings, resolveThresholdTokens, setLimit,
      Option.filter, CompactionSettings.adaptiveOptions, effectiveReserveTokens] at this
    cases this

end JevCode.Session
