import Bofuzz.Lib.Num

/-! The persisted data of the fuzzer (`feature_sched/metadata.rs`, `feature_sched/mod.rs`).

    LibAFL keeps metadata in a map with one entry for each type; here the entries the feature
    scheduler reads or writes are the fields of `State`, an optional field being an entry that may
    be missing. `FeatureGlobalsMeta` is read through `globals`, which answers the default value for
    a missing entry, so it is a plain field. Counters and times are natural numbers. -/

namespace Bofuzz

abbrev CorpusId := ℕ

/-- `HashMap<String, Vec<f64>>`, read by key only. -/
abbrev FeatureMap (F : Type) := String → Option (List F)

inductive WeightComputeMode where | frontier | path
  deriving DecidableEq

inductive VecMaskMode where | full | explicit | autoCredit
  deriving DecidableEq

inductive TpeInitSource where | externalCandidateFile | exploreCreditsExactFirst | equalSimplexFallback
  deriving DecidableEq

inductive TpePhase where | explore | pendingRecompute | activeWindow | lockedBest
  deriving DecidableEq

/-! ### Feature schema -/

structure FeatureSpec where
  id : String
  name : String
  group : Option String := none
  aliases : Option (List String) := none
  deriving DecidableEq

structure FeatureSchemaFile where
  schemaVersion : ℕ
  features : List FeatureSpec
  deriving DecidableEq

/-! ### Metadata of the state -/

variable (F : Type)

structure FactorParams where
  alpha : F
  beta : F
  gmin : F
  gmax : F
  useTanh : Bool

/-- The running statistics of the published weights (`stats.rs`). -/
structure WeightStats where
  n : ℕ
  mu : F
  m2 : F

structure FeaturesMatrixMeta where
  matrix : FeatureMap F
  sites : ℕ

structure SancovAcfgMeta where
  iteration : ℕ
  nSancovSites : ℕ
  successors : List (List ℕ)
  predecessors : List (List ℕ)

structure FrontierMeta where
  iteration : ℕ
  covered : List Bool
  fPrev : List Bool
  fNext : List Bool

structure CoverageDeltaMeta where
  iteration : ℕ := 0
  deltaEdges : ℕ := 0
  newlyCoveredSancov : List ℕ := []

/-- `ExploreCreditMeta` and `RuntimeCreditMeta` have the same fields. -/
structure CreditMeta where
  iteration : ℕ := 0
  credits : List F := []
  totalDeltaEdges : ℕ := 0

/-- `ExploreCreditEntry` and `RuntimeCreditEntry`; only the latter records its phase. -/
structure CreditEntry where
  iteration : ℕ
  phase : TpePhase
  deltaEdges : ℕ
  frontierNodes : List ℕ
  creditDelta : List F
  cumulativeCredits : List F

structure VecMaskRuntimeMeta [F64 F] where
  mode : VecMaskMode := .full
  creditTopK : ℕ := 8
  requestedExplicitMask : Option (List Bool) := none
  maskCommitted : Bool := false
  tpeInitCommitted : Bool := false
  effectiveMask : List Bool := []
  selectedFeatureNames : List String := []
  selectedSchemaIndices : List ℕ := []
  candidateFilePath : Option String := none
  candidateFileLoaded : Bool := false
  tpeInitSource : Option TpeInitSource := none
  exploreCreditsFull : List F := []
  exploreCreditsActive : List F := []
  normalizedCreditInitV : List F := []
  positiveCreditCount : ℕ := 0
  positiveCreditSum : F := F64.lit 0
  fallbackReason : Option String := none

structure FeatureVectorMeta where
  iteration : ℕ
  simplexWeights : List F

structure TpeIterationMeta where
  currentIteration : ℕ := 0
  activeIteration : Option ℕ := none
  pendingIteration : Option ℕ := none
  phase : TpePhase := .explore
  activeStartMs : Option ℕ := none
  activeStartEdges : Option ℕ := none
  lastNewEdgesMs : Option ℕ := none
  deriving DecidableEq

structure FeatureGlobalsMeta [F64 F] where
  featuresActive : Bool := false
  featExists : Bool := false
  tpeSatisfied : Bool := false
  featVal0 : F := F64.lit 0
  exploreTimeSecs : ℕ := 43200
  tpePeriodSecs : ℕ := 600
  alphaInit : F := F64.lit (85 / 100)
  factorParams : FactorParams F :=
    { alpha := F64.lit (85 / 100), beta := F64.lit (6 / 10), gmin := F64.lit (1 / 2),
      gmax := F64.lit 2, useTanh := false }
  currentV : List F := []
  vCandidates : List (List F) := []
  fuzzStartEpochMs : ℕ := 0
  schemaVersion : ℕ := 0
  schemaFeatures : List FeatureSpec := []
  vecMask : List Bool := []
  activeFeatures : List FeatureSpec := []
  activeFeatureNames : List String := []
  featureDim : ℕ := 0

structure TpeHistoryMeta where
  trials : List (List F × F × ℕ) := []
  lastVec : List F := []
  lastCheckMs : Option ℕ := none
  maxTrials : ℕ := 0

structure RuntimeDataExportMeta where
  outputPath : String := ""
  lastExportMs : ℕ := 0

structure WeightedAliasTableDirtyMeta where
  iteration : ℕ
  dirty : Bool

/-! ### The corpus -/

structure TestcaseFeatureWeightMeta where
  iteration : ℕ
  weight : F
  mode : WeightComputeMode

/-- The metadata of a corpus entry. -/
structure Testcase where
  sancovIndexes : Option (List ℕ) := none
  featureWeight : Option (TestcaseFeatureWeightMeta F) := none
  pathWeight : Option F := none
  externalPerfMult : Option F := none

/-- The enabled entries in the order of their ids, and the scheduled one. -/
structure Corpus where
  entries : List (CorpusId × Testcase F)
  nodup : (entries.map Prod.fst).Nodup
  current : Option CorpusId := none

/-- The LibAFL state as far as the feature scheduler sees it; `edges` is the number of covered map
    indexes in the named metadata of the edges feedback. -/
structure State [F64 F] where
  globals : FeatureGlobalsMeta F := {}
  featMode : Option ℕ := none
  iteration : Option TpeIterationMeta := none
  history : Option (TpeHistoryMeta F) := none
  runtime : Option (VecMaskRuntimeMeta F) := none
  featuresMap : Option (List F) := none
  featuresMatrix : Option (FeaturesMatrixMeta F) := none
  featureVector : Option (FeatureVectorMeta F) := none
  globalStats : Option (WeightStats F) := none
  weightMode : Option WeightComputeMode := none
  acfg : Option SancovAcfgMeta := none
  frontier : Option FrontierMeta := none
  coverageProgress : Option ℕ := none
  coverageDelta : Option CoverageDeltaMeta := none
  exploreCredit : Option (CreditMeta F) := none
  exploreCreditHistory : List (CreditEntry F) := []
  runtimeCredit : Option (CreditMeta F) := none
  runtimeCreditHistory : List (CreditEntry F) := []
  aliasDirty : Option WeightedAliasTableDirtyMeta := none
  dataExport : Option RuntimeDataExportMeta := none
  edges : Option ℕ := none
  corpus : Corpus F := { entries := [], nodup := List.nodup_nil }

variable {F}

namespace Corpus

/-- The entry with the given id. -/
def get (c : Corpus F) (id : CorpusId) : Option (Testcase F) := c.entries.lookup id

/-- Writing metadata of one entry. -/
def modify (c : Corpus F) (id : CorpusId) (f : Testcase F → Testcase F) : Corpus F where
  entries := c.entries.map fun e => if e.1 = id then (e.1, f e.2) else e
  nodup := by
    have h : (c.entries.map fun e => if e.1 = id then (e.1, f e.2) else e).map Prod.fst
        = c.entries.map Prod.fst := by
      rw [List.map_map]
      refine List.map_congr_left fun e _ => ?_
      by_cases he : e.1 = id <;> simp [he]
    rw [h]; exact c.nodup
  current := c.current

theorem lookup_map (id : CorpusId) (f : Testcase F → Testcase F) (j : CorpusId) :
    ∀ es : List (CorpusId × Testcase F), (es.map fun e => if e.1 = id then (e.1, f e.2) else e).lookup j
        = if j = id then (es.lookup j).map f else es.lookup j
  | [] => by simp
  | (k, tc) :: es => by
    have ih := lookup_map id f j es
    by_cases hk : k = id
    · subst hk
      by_cases hj : j = k
      · subst hj; simp
      · simp only [List.map_cons, if_true, List.lookup_cons, beq_eq_false_iff_ne.mpr hj, hj,
          if_false] at ih ⊢
        exact ih
    · by_cases hj : j = k
      · subst hj; simp [hk]
      · simp only [List.map_cons, hk, if_false, List.lookup_cons, beq_eq_false_iff_ne.mpr hj]
        exact ih

@[simp] theorem get_modify (c : Corpus F) (id j : CorpusId) (f : Testcase F → Testcase F) :
    (c.modify id f).get j = if j = id then (c.get j).map f else c.get j :=
  lookup_map id f j c.entries

end Corpus

variable [F64 F]

namespace State

variable (s : State F)

/-- `get::<TpeIterationMeta>().cloned().unwrap_or_default()`. -/
def iter : TpeIterationMeta := s.iteration.getD {}

/-- `get::<VecMaskRuntimeMeta>().cloned().unwrap_or_default()`. -/
def mask : VecMaskRuntimeMeta F := s.runtime.getD {}

theorem runtime_eq {s : State F} (h : s.runtime.isSome) : s.runtime = some s.mask := by
  obtain ⟨runtime, hruntime⟩ := Option.isSome_iff_exists.mp h
  rw [mask, hruntime]
  rfl

def phase : TpePhase := s.iter.phase

def setIter (m : TpeIterationMeta) : State F := { s with iteration := some m }

def setPhase (phase : TpePhase) : State F := s.setIter { s.iter with phase }

/-- `get_feat_mode`: the weight mode when nothing was configured. -/
def getFeatMode : ℕ := s.featMode.getD 1

def getFeaturesEnabled : Bool :=
  s.globals.featuresActive && s.globals.featExists && s.getFeatMode != 0

def mode : WeightComputeMode := s.weightMode.getD .frontier

/-- `set_schema_info`. -/
def setSchemaInfo (schemaVersion : ℕ) (schemaFeatures : List FeatureSpec)
    (vecMask : List Bool) (activeFeatures : List FeatureSpec) : State F :=
  { s with globals := { s.globals with
      schemaVersion, schemaFeatures, vecMask, activeFeatures
      activeFeatureNames := activeFeatures.map (·.name)
      featureDim := activeFeatures.length } }

def replaceVCandidates (vs : List (List F)) : State F :=
  { s with globals := { s.globals with vCandidates := vs } }

def setCurrentWeightVec (v : List F) : State F :=
  { s with globals := { s.globals with currentV := v } }

def setTpeSatisfied (b : Bool) : State F :=
  { s with globals := { s.globals with tpeSatisfied := b } }

def setFeaturesActive (b : Bool) : State F :=
  { s with globals := { s.globals with featuresActive := b } }

end State

end Bofuzz
