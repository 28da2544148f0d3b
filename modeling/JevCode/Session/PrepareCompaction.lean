import JevCode.Session.Compaction
import JevCode.Session.CompactionThreshold

namespace JevCode.Session

variable {κ : Type}

def tokenCorrectionMinRatio : ℚ := 1 / 2
def tokenCorrectionMaxRatio : ℚ := 2

structure PrepareCompactionOptions where
  tokenCorrectionRatio : Option ℚ
  contextWindow : Option ℚ

def thresholdSafeKeepRecentTokens (settings : CompactionSettings) (contextWindow : Option ℚ) : ℚ :=
  match contextWindow.filter (1 < ·) with
  | some contextWindow =>
    max 1 (resolveThresholdTokens contextWindow settings 0 none -
      effectiveReserveTokens contextWindow settings 0)
  | none => settings.keepRecentTokens

def scaledKeepRecentTokens (settings : CompactionSettings) (contextWindow : Option ℚ)
    (keepRecentTokens : ℚ) : ℚ :=
  match contextWindow.filter (66000 ≤ ·) with
  | some window =>
    min (thresholdSafeKeepRecentTokens settings contextWindow)
      (max keepRecentTokens ⌊window * (3 / 10)⌋)
  | none => keepRecentTokens

def appliedRatio (options : PrepareCompactionOptions) : ℚ :=
  match setLimit options.tokenCorrectionRatio with
  | some rawRatio => min tokenCorrectionMaxRatio (max tokenCorrectionMinRatio rawRatio)
  | none => 1

def keepRecentTokensCorrected (settings : CompactionSettings) (options : PrepareCompactionOptions)
    (historyTokens : ℚ) : ℕ :=
  let keepRecentTokens :=
    min settings.keepRecentTokens (thresholdSafeKeepRecentTokens settings options.contextWindow)
  let scaledKeepRecentTokens :=
    scaledKeepRecentTokens settings options.contextWindow keepRecentTokens
  let effectiveKeepRecentTokens :=
    if historyTokens < settings.keepRecentTokens then settings.keepRecentTokens
    else if keepRecentTokens < scaledKeepRecentTokens ∧
      historyTokens < scaledKeepRecentTokens then keepRecentTokens
    else scaledKeepRecentTokens
  ⌊max 1 (mathRound (effectiveKeepRecentTokens / appliedRatio options))⌋.toNat

def prepareCompactionWith (tokens : SessionEntry κ → Nat) (pathEntries : List (SessionEntry κ))
    (settings : CompactionSettings) (options : PrepareCompactionOptions) :
    Option (CompactionPreparation κ) :=
  let historyTokens := ((pathEntries.drop (boundaryStart pathEntries)).map tokens).sum
  prepareCompaction tokens (keepRecentTokensCorrected settings options historyTokens) pathEntries

/-- What is summarized, what is summarized of a split turn and what is kept are the messages after
the boundary. -/
theorem prepareCompactionWith_partition (tokens : SessionEntry κ → Nat)
    (pathEntries : List (SessionEntry κ)) (settings : CompactionSettings)
    (options : PrepareCompactionOptions) (prep : CompactionPreparation κ)
    (h : prepareCompactionWith tokens pathEntries settings options = some prep) :
    prep.messagesToSummarize ++ prep.turnPrefixMessages ++ prep.recentMessages =
      (pathEntries.drop (boundaryStart pathEntries)).filterMap getMessageFromEntry := by
  obtain ⟨cut, first, hcut, -, -, hsummarized, hrecent, -⟩ := prepareCompaction_spec h
  rw [hsummarized, hrecent, ← List.filterMap_append, slice_append_drop hcut]

def keepOne : CompactionSettings := { defaultCompactionSettings with keepRecentTokens := 1 }

theorem keepRecentTokensCorrected_keepOne :
    keepRecentTokensCorrected keepOne ⟨none, none⟩ ((2 : ℕ) : ℚ) = 1 := by
  norm_num [keepRecentTokensCorrected, thresholdSafeKeepRecentTokens, scaledKeepRecentTokens,
    appliedRatio, setLimit, mathRound, keepOne]

theorem prepareCompactionWith_partition_onceCompacted :
    ∃ prep, prepareCompactionWith (fun _ => 1) onceCompacted keepOne ⟨none, none⟩ = some prep ∧
      prep.messagesToSummarize ++ prep.turnPrefixMessages ++ prep.recentMessages =
        [userEntry "u3", userEntry "u4"].filterMap getMessageFromEntry := by
  have hprep : prepareCompactionWith (fun _ => 1) onceCompacted keepOne ⟨none, none⟩ =
      prepareCompaction (fun _ => 1) 1 onceCompacted :=
    congrArg (prepareCompaction _ · _) keepRecentTokensCorrected_keepOne
  exact ⟨_, hprep, prepareCompactionWith_partition _ _ _ _ _ hprep⟩

end JevCode.Session
