import Bofuzz.Metadata

/-! The errors of the fuzzer with the texts the source gives them. A failure that comes from outside
    (a file that cannot be written, an event that cannot be fired) has a constructor of its own.

    Arithmetic is that of a dev build, where overflow and a failed `debug_assert!` are panics. Only
    the sums of `RetryCount.shouldRestart` and `Weighted.strategyFactor` wrap as in a release build,
    since there the wrapped value is what goes wrong. -/

namespace Bofuzz

/-- The messages of the feature scheduler. -/
inductive Msg where
  | nonFiniteWeight | negativeWeight | zeroDenominator
  | nonFiniteWeightAt (idx : ℕ) | negativeWeightAt (idx : ℕ)
  | weightLength (len activeDim : ℕ)
  | exactCenterLength (len activeDim : ℕ)
  | committedMaskLength (len schemaDim : ℕ) | committedMaskEmpty
  | creditsLength (len schemaDim : ℕ) | topKRange (topK schemaDim : ℕ)
  | nonFiniteCredit (idx : ℕ) | negativeCredit (idx : ℕ)
  | projectionLength (len maskLen : ℕ)
  | normalizeNonFinite (idx : ℕ) | normalizeNegative (idx : ℕ)
  | frontierNeedsAcfg | workerDisconnected
  | creditLength (label : String) (len dim : ℕ)
  | fullModeDim (activeDim schemaDim : ℕ)
  | explicitMaskMissing | explicitMaskDiffers
  | noInitialCandidate | initialCandidateLost
  | currentVLength (len activeDim : ℕ)
  | candidateLength (idx len activeDim : ℕ)
  | trialLength (idx len activeDim : ℕ)
  | initVLength (len activeDim : ℕ)
  | explicitConfigMissing | resumeMetaMissing | resumeModeDiffers | resumeFullMask
  | resumeNeedsMask | resumeTopKDiffers | resumePendingMask
  | indexNotFound (id : ℕ)
  | negativeFeature | matrixMissing
  | sancovObserverMissing
  | endOfTuple | stageNotResumed
  | indexNotReplaced (id : ℕ) | typeNotFound (name : String)
  | noEntries | noStrategy
  | indexesMissing (id : ℕ) | ownerIndexesMissing (id : ℕ)
  | execTimeMissing | minimizerNeeded | noGeneralized
  | queueCorrupt
  | noCorpusId | noRetriesLeft
  | invalidHex | illegalLine (line : String) | illegalHexLine (line : String)
  deriving DecidableEq

/-- The text of a message. -/
def Msg.text : Msg → String
  | nonFiniteWeight => "BOFuzz vector error: non-finite simplex weight"
  | negativeWeight => "BOFuzz vector error: negative simplex weight"
  | zeroDenominator => "BOFuzz vector error: simplex denominator is zero"
  | nonFiniteWeightAt idx => s!"BOFuzz vector error: non-finite simplex weight at index {idx}"
  | negativeWeightAt idx => s!"BOFuzz vector error: negative simplex weight at index {idx}"
  | weightLength len activeDim =>
    s!"BOFuzz vector error: weight length {len} != active_dim {activeDim}"
  | exactCenterLength len activeDim =>
    s!"BOFuzz vector error: exact center length {len} != active_dim {activeDim}"
  | committedMaskLength len schemaDim =>
    s!"BOFuzz mask error: committed mask length {len} != schema_dim {schemaDim}"
  | committedMaskEmpty => "BOFuzz mask error: committed mask disables every schema feature"
  | creditsLength len schemaDim =>
    s!"BOFuzz auto-credit error: credits length {len} != schema_dim {schemaDim}"
  | topKRange topK schemaDim =>
    s!"BOFuzz auto-credit error: credit_top_k {topK} outside valid range 1..={schemaDim}"
  | nonFiniteCredit idx => s!"BOFuzz auto-credit error: non-finite credit at schema index {idx}"
  | negativeCredit idx => s!"BOFuzz auto-credit error: negative credit at schema index {idx}"
  | projectionLength len maskLen =>
    s!"BOFuzz mask projection error: vector length {len} != mask length {maskLen}"
  | normalizeNonFinite idx =>
    s!"BOFuzz credit normalization error: non-finite credit at index {idx}"
  | normalizeNegative idx => s!"BOFuzz credit normalization error: negative credit at index {idx}"
  | frontierNeedsAcfg => "frontier weight recompute requires SancovAcfgMeta"
  | workerDisconnected => "BOFuzz weight recompute worker disconnected"
  | creditLength label len dim =>
    s!"BOFuzz {label} credit length {len} != expected dimension {dim}"
  | fullModeDim activeDim schemaDim =>
    s!"BOFuzz full-mode error: active_dim {activeDim} != schema_dim {schemaDim}"
  | explicitMaskMissing => "BOFuzz explicit-mode error: missing persisted explicit mask"
  | explicitMaskDiffers =>
    "BOFuzz resume error: explicit vec-mask differs from persisted committed mask"
  | noInitialCandidate => "TPE initialization committed without available initial candidate"
  | initialCandidateLost => "BOFuzz failed to retrieve committed initial TPE candidate"
  | currentVLength len activeDim =>
    s!"BOFuzz resume error: current_v length {len} != active_dim {activeDim}"
  | candidateLength idx len activeDim =>
    s!"BOFuzz resume error: candidate {idx} length {len} != active_dim {activeDim}"
  | trialLength idx len activeDim =>
    s!"BOFuzz resume error: TPE trial {idx} length {len} != active_dim {activeDim}"
  | initVLength len activeDim =>
    s!"BOFuzz resume error: normalized_credit_init_v length {len} != active_dim {activeDim}"
  | explicitConfigMissing => "BOFuzz explicit mask config missing mask"
  | resumeMetaMissing => "BOFuzz resume error: missing persisted vec-mask runtime metadata"
  | resumeModeDiffers => "BOFuzz resume error: vec-mask mode differs from persisted run"
  | resumeFullMask => "BOFuzz resume error: full mode persisted mask is not full schema"
  | resumeNeedsMask => "BOFuzz resume error: explicit mode requires CLI vec-mask"
  | resumeTopKDiffers => "BOFuzz resume error: auto-credit top_k differs from persisted run"
  | resumePendingMask =>
    "BOFuzz resume error: pending auto-credit run is not in full-schema Explore"
  | indexNotFound id => s!"Index {id} not found"
  | negativeFeature => "negative feature value forbidden under simplex mode"
  | matrixMissing => "FeaturesMatrixMeta missing"
  | sancovObserverMissing => "sancov observer not found"
  | endOfTuple => "Got to the end of the tuple without completing resume."
  | stageNotResumed => "stage not resumed before setting stage"
  | indexNotReplaced id => s!"Index {id} not found, could not replace."
  | typeNotFound name => s!"{name} not found"
  | noEntries =>
    "No entries in corpus. This often implies the target is not properly instrumented."
  | noStrategy => "No strategy specified when initializing scheduler; cannot cycle!"
  | indexesMissing id => s!"Metadata needed for MinimizerScheduler not found in testcase #{id}"
  | ownerIndexesMissing id =>
    s!"libafl::feedbacks::map::MapIndexesMetadata needed for MinimizerScheduler not found in testcase #{id}"
  | execTimeMissing => "exec_time not set"
  | queueCorrupt => "Queue state corrput"
  | noCorpusId =>
    "No current_corpus_id set in State, but called RetryCountRestartHelper::should_skip"
  | noRetriesLeft => "Attempted further retries after we had already gotten to none remaining."
  | invalidHex => "Invalid hex character"
  | illegalLine line => s!"Illegal line: {line}"
  | illegalHexLine line => s!"Illegal line (hex decoding): {line}"
  | noGeneralized => "No generalized metadata found."
  | minimizerNeeded =>
    "KeyNotFound(\"libafl::schedulers::minimizer::TopRatedsMetadata not found\", ErrorBacktrace) " ++
      "You have to use Minimizer scheduler with this."

/-- `libafl::Error`, by the kinds the feature scheduler raises or passes on. -/
inductive Error where
  | illegalState (m : Msg)
  | illegalArgument (m : Msg)
  | unknown (m : Msg)
  | keyNotFound (m : Msg)
  | empty (m : Msg)
  | shuttingDown
  /-- `f64::clamp` with a lower bound that is not at most the upper one. -/
  | clampPanic
  /-- The `unreachable!` of the stage driver. -/
  | unreachablePanic
  /-- An `unwrap` of a missing value. -/
  | unwrapPanic
  /-- An index past the end of a vector. -/
  | indexPanic
  /-- A `debug_assert!` that does not hold. -/
  | assertPanic
  /-- Writing the runtime data file failed. -/
  | file
  /-- The event manager refused an event. -/
  | event
  /-- The process ended itself during startup. -/
  | exit (text : String)
  deriving DecidableEq

end Bofuzz
