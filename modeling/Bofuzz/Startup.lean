import Bofuzz.Config
import Bofuzz.TpeStage

/-! Starting and resuming a process (`lib.rs`, `features_map.rs`).

    `initializeVecMaskState` installs the coordinate space of a new run or checks the persisted one
    against the schema; `loadAndAlignFeaturesMap` fills the candidate pool and the scalar feature
    map; `startup` is what `fuzz` does with the state before the fuzzing loop. Everything read from
    files or the command line is in `Setup`. -/

namespace Bofuzz
open F64

inductive CandidateFilePolicy where | allowExternalFile | ignoreExternalFile
  deriving DecidableEq

structure CandidateFileStatus where
  path : Option String := none
  loaded : Bool := false

/-- The file of candidate vectors: missing, unreadable (with the reason), or its content. -/
inductive CandidateFile (F : Type) where
  | absent
  | invalid (reason : String)
  | parsed (candidates : List (List F))

/-- What a process reads at its start. -/
structure Setup (F : Type) where
  schema : FeatureSchemaFile
  config : VecMaskConfig
  /-- The validated feature map, if there is one. -/
  canonicalMap : Option (FeatureMap F)
  sites : ℕ
  /-- Where the candidate file would be, if the name of the feature map tells. -/
  candidatePath : Option String
  candidateFile : CandidateFile F
  /-- The graph of the sancov sites, or why it could not be loaded. -/
  acfg : Except Error SancovAcfgMeta
  factorParams : FactorParams F
  featMode : ℕ
  exploreTimeSecs : ℕ
  tpePeriodSecs : ℕ
  weightComputeMode : WeightComputeMode
  tpeSamples : ℕ
  tpeGamma : F
  tpeBw : F
  trialsThreshold : ℕ
  reTpeThresholdSecs : ℕ
  runtimeDataOutputPath : String

variable {F : Type} [F64 F]

/-! ### The coordinate space -/

variable (s : State F) (schema : FeatureSchemaFile) (config : VecMaskConfig)

/-- A new run: the mask the configuration asks for; auto-credit starts with every feature. -/
def initializeFresh : Except Error (State F × List FeatureSpec) :=
  let fullMask := List.replicate schema.features.length true
  let install (effectiveMask : List Bool) : State F × List FeatureSpec :=
    let activeFeatures := computeActiveFeatures schema effectiveMask
    let s := s.setSchemaInfo schema.schemaVersion schema.features effectiveMask activeFeatures
    let runtime : VecMaskRuntimeMeta F :=
      { mode := config.mode
        creditTopK := config.creditTopK
        requestedExplicitMask := if config.mode = .full then none else config.explicitMask
        maskCommitted := config.mode != .autoCredit
        tpeInitCommitted := false
        effectiveMask
        selectedFeatureNames := activeFeatures.map (·.name)
        selectedSchemaIndices := TpeStage.selectedIndices effectiveMask }
    ({ s with runtime := some runtime }, activeFeatures)
  match config.mode with
  | .full => .ok (install fullMask)
  | .explicit =>
    match config.explicitMask with
    | none => .error (.illegalArgument .explicitConfigMissing)
    | some mask => .ok (install mask)
  | .autoCredit => .ok (install fullMask)

variable (runtime : VecMaskRuntimeMeta F)

/-- What a resumed run checks of the persisted mask in each mode. -/
def checkResumedMask (schemaDim : ℕ) (config : VecMaskConfig) : Except Error Unit :=
  let fullMask := List.replicate schemaDim true
  if runtime.mode ≠ config.mode then .error (.illegalState .resumeModeDiffers)
  else
    match config.mode with
    | .full =>
      if runtime.effectiveMask ≠ fullMask then .error (.illegalState .resumeFullMask) else .ok ()
    | .explicit =>
      match config.explicitMask with
      | none => .error (.illegalState .resumeNeedsMask)
      | some requested =>
        if runtime.requestedExplicitMask ≠ some requested ∨ runtime.effectiveMask ≠ requested then
          .error (.illegalState .explicitMaskDiffers)
        else .ok ()
    | .autoCredit =>
      if runtime.creditTopK ≠ config.creditTopK then .error (.illegalState .resumeTopKDiffers)
      else if !runtime.maskCommitted ∧ runtime.effectiveMask ≠ fullMask then
        .error (.illegalState .resumePendingMask)
      else .ok ()

/-- A resumed run: the active features are those the schema has now under the persisted mask. -/
def installResumed : State F × List FeatureSpec :=
  let activeFeatures := computeActiveFeatures schema runtime.effectiveMask
  let s := s.setSchemaInfo schema.schemaVersion schema.features runtime.effectiveMask activeFeatures
  ({ s with runtime := some { runtime with
      selectedFeatureNames := activeFeatures.map (·.name)
      selectedSchemaIndices := TpeStage.selectedIndices runtime.effectiveMask } }, activeFeatures)

def initializeVecMaskState (isResumed : Bool) : Except Error (State F × List FeatureSpec) :=
  if !isResumed then initializeFresh s schema config
  else
    match s.runtime with
    | none => .error (.illegalState .resumeMetaMissing)
    | some runtime =>
      match checkResumedMask runtime schema.features.length config with
      | .error e => .error e
      | .ok () =>
        let (t, activeFeatures) := installResumed s schema runtime
        if runtime.tpeInitCommitted then
          match validateCommittedVectorDimensions t with
          | .error e => .error e
          | .ok () => .ok (t, activeFeatures)
        else .ok (t, activeFeatures)

/-! ### Candidates and the scalar map -/

def candidateFormatError : String :=
  "error: BOFuzz _v_candidates.json format changed.\nexpected weights-only vector length " ++
    "active_dim.\nold [alpha, weights...] format is no longer supported."

/-- One vector of the file. -/
def loadCandidate (activeDim i : ℕ) (cand : List F) : Except String (List F) :=
  let len := cand.length
  if len ≠ activeDim then
    .error (candidateFormatError ++ s!" candidate {i} length {len} != active_dim {activeDim}")
  else
    match firstBad 0 cand with
    | some (.nonFinite j) =>
      .error s!"BOFuzz candidate error: candidate {i} contains non-finite value at index {j}"
    | some (.negative j) =>
      .error s!"BOFuzz candidate error: candidate {i} contains negative value at index {j}"
    | none => (normalizeSimplexEps cand).mapError Msg.text

/-- The vectors of the file, counting from index `i`. -/
def loadCandidatesAt (activeDim : ℕ) : ℕ → List (List F) → Except String (List (List F))
  | _, [] => .ok []
  | i, cand :: cands =>
    match loadCandidate activeDim i cand, loadCandidatesAt activeDim (i + 1) cands with
    | .error e, _ => .error e
    | .ok _, .error e => .error e
    | .ok v, .ok vs => .ok (v :: vs)

def loadCandidatesFrom (path : String) (file : CandidateFile F) (activeDim : ℕ) :
    Except String (List (List F)) :=
  match file with
  | .absent => .error s!"BOFuzz candidate error: cannot open {path}"
  | .invalid reason => .error reason
  | .parsed [] => .error s!"BOFuzz candidate error: {path} contains empty candidate list"
  | .parsed cands => loadCandidatesAt activeDim 0 cands

/-- The pool once the file is considered: the file counts unless the pool is already filled or the
    policy forbids it. -/
def ensurePool (pool : List (List F)) (candidatePath : Option String) (file : CandidateFile F)
    (activeDim : ℕ) (policy : CandidateFilePolicy) :
    Except String (List (List F) × CandidateFileStatus) :=
  if policy = .ignoreExternalFile then .ok (pool, { path := candidatePath, loaded := false })
  else if pool ≠ [] then .ok (pool, { path := candidatePath, loaded := false })
  else
    match candidatePath, file with
    | none, _ => .ok ([], {})
    | some path, .absent => .ok ([], { path := some path, loaded := false })
    | some path, file =>
      match loadCandidatesFrom path file activeDim with
      | .error e => .error s!"BOFuzz candidate error: invalid {path}: {e}"
      | .ok cands => .ok (cands, { path := some path, loaded := true })

def ensureVCandidatesFor (candidatePath : Option String) (file : CandidateFile F)
    (activeDim : ℕ) (policy : CandidateFilePolicy) :
    Except String (State F × CandidateFileStatus) :=
  match ensurePool s.globals.vCandidates candidatePath file activeDim policy with
  | .error e => .error e
  | .ok (pool, status) => .ok (s.replaceVCandidates pool, status)

structure FeatureMapLoadResult (F : Type) where
  feats : List F
  activeMatrix : FeatureMap F
  candidateStatus : CandidateFileStatus

def loadAndAlignFeaturesMap (canonicalMap : FeatureMap F) (sites activeDim : ℕ)
    (activeFeatureNames : List String) (candidatePath : Option String) (file : CandidateFile F)
    (policy : CandidateFilePolicy) : Except String (State F × FeatureMapLoadResult F) :=
  match ensureVCandidatesFor s candidatePath file activeDim policy with
  | .error e => .error e
  | .ok (s, candidateStatus) =>
    let v0Active := s.globals.vCandidates.head?.getD (equalSimplex activeDim)
    let activeMatrix := filterActiveFeatures canonicalMap activeFeatureNames
    let feats := combineFeatureMatrixToWeights activeMatrix v0Active activeFeatureNames
    .ok ((s.setTpeSatisfied (decide (0 < activeDim))).setCurrentWeightVec [],
      { feats := resize feats sites, activeMatrix, candidateStatus })

/-! ### The startup of `fuzz` -/

/-- Keep track of the candidate file until the initialization is committed. -/
def noteCandidateFile (status : CandidateFileStatus) (isResumed : Bool) : VecMaskRuntimeMeta F :=
  if !isResumed || !runtime.tpeInitCommitted then
    { runtime with
      candidateFilePath :=
        if !isResumed || status.loaded || runtime.candidateFilePath.isNone then status.path
        else runtime.candidateFilePath
      candidateFileLoaded :=
        if runtime.mode = .autoCredit then false
        else if !isResumed || status.loaded then status.loaded
        else runtime.candidateFileLoaded }
  else runtime

/-- The policy for the candidate file in the mode of the run. -/
def candidatePolicy (mode : VecMaskMode) : CandidateFilePolicy :=
  if mode = .autoCredit then .ignoreExternalFile else .allowExternalFile

variable (setup : Setup F)

/-- Load the feature map: the pool, the scalar weights of its first vector and the matrix. A
    resumed run gets its current vector back, the scalar weights stay those just computed. -/
def installFeatures (canonicalMap : FeatureMap F) (activeFeatures : List FeatureSpec)
    (isResumed : Bool) (s : State F) : Except Error (State F) :=
  let restoredCurrentV := if isResumed then s.globals.currentV else []
  match loadAndAlignFeaturesMap s canonicalMap setup.sites activeFeatures.length
      (activeFeatures.map (·.name)) setup.candidatePath setup.candidateFile
      (candidatePolicy s.mask.mode) with
  | .error e => .error (.exit s!"[BOFuzz] feature-map load failed: {e}. Aborting.")
  | .ok (s, result) =>
    let s := { s with
      runtime := s.runtime.map (noteCandidateFile · result.candidateStatus isResumed)
      featuresMap := some result.feats
      featuresMatrix := some { matrix := result.activeMatrix, sites := setup.sites } }
    .ok (if isResumed ∧ restoredCurrentV ≠ [] then s.setCurrentWeightVec restoredCurrentV else s)

/-- The parameters of the command line. -/
def setArgs (s : State F) : State F :=
  { s with
    featMode := some (min setup.featMode 3)
    weightMode := some setup.weightComputeMode
    globals := { s.globals with
      alphaInit := setup.factorParams.alpha
      factorParams := setup.factorParams
      exploreTimeSecs := setup.exploreTimeSecs
      tpePeriodSecs := setup.tpePeriodSecs } }

/-- The state of a new run. -/
def freshState : State F := { edges := some 0 }

/-- The feature map is optional; without one the run goes on without feature scheduling. -/
def loadFeatures (activeFeatures : List FeatureSpec) (isResumed : Bool) (s : State F) :
    Except Error (State F) :=
  match setup.canonicalMap with
  | none => .ok s
  | some map => installFeatures setup map activeFeatures isResumed s

def finishStartup (now : ℕ) (isResumed : Bool) (s : State F) : Except Error (State F) :=
  let fuzzStart := s.globals.fuzzStartEpochMs
  let s := { s with
    iteration := some s.iter
    globals := { s.globals with
      fuzzStartEpochMs := if !isResumed || fuzzStart == 0 then now else fuzzStart
      featExists := setup.canonicalMap.isSome } }
  if setup.canonicalMap.isSome ∧ setup.featMode ≠ 0 ∧ setup.weightComputeMode = .frontier then
    match setup.acfg with
    | .error e => .error e
    | .ok acfg => .ok { s with acfg := some acfg }
  else .ok s

/-- The state part of `fuzz` up to the fuzzing loop, for a new run or with the state of an earlier
    process. The setters run in another order in the source, on fields of their own. -/
def startup (now : ℕ) (old : Option (State F)) : Except Error (State F) :=
  match initializeVecMaskState (old.getD freshState) setup.schema setup.config old.isSome with
  | .error e => .error e
  | .ok (s, activeFeatures) =>
    let s := setArgs setup { s with
      dataExport := some { outputPath := setup.runtimeDataOutputPath, lastExportMs := 0 } }
    match loadFeatures setup activeFeatures old.isSome s with
    | .error e => .error e
    | .ok s => finishStartup setup now old.isSome s

/-- The parameters `fuzz` gives the TPE stage. -/
def Setup.tpeParams : TpeParams F where
  gamma := setup.tpeGamma
  samples := setup.tpeSamples
  bw := setup.tpeBw
  period := setup.tpePeriodSecs * 1000
  trialsThreshold := setup.trialsThreshold
  reTpeThreshold := setup.reTpeThresholdSecs * 1000

/-! ### What the steps of the startup do -/

/-- The mask and the metadata a new run starts with. -/
structure FreshMask (mask : List Bool) (runtime : VecMaskRuntimeMeta F) : Prop where
  mode : runtime.mode = config.mode
  uncommitted : runtime.tpeInitCommitted = false
  effective : runtime.effectiveMask = mask
  full : config.mode ≠ .explicit → mask = List.replicate schema.features.length true
  explicit : config.mode = .explicit → config.explicitMask = some mask

variable {s t : State F} {active : List FeatureSpec}

theorem initializeFresh_ok {schema : FeatureSchemaFile} {config : VecMaskConfig}
    (h : initializeFresh s schema config = .ok (t, active)) :
    ∃ mask runtime, active = computeActiveFeatures schema mask ∧
      t = { s.setSchemaInfo schema.schemaVersion schema.features mask active with
            runtime := some runtime } ∧ FreshMask schema config mask runtime := by
  unfold initializeFresh at h
  dsimp only at h
  split at h
  · next hmode =>
    cases h
    exact ⟨_, _, rfl, rfl, rfl, rfl, rfl, fun _ => rfl, fun he => nomatch hmode.symm.trans he⟩
  · next hmode =>
    split at h
    · cases h
    · next mask hmask =>
      cases h
      exact ⟨_, _, rfl, rfl, rfl, rfl, rfl, fun he => absurd hmode he, fun _ => hmask⟩
  · next hmode =>
    cases h
    exact ⟨_, _, rfl, rfl, rfl, rfl, rfl, fun _ => rfl, fun he => nomatch hmode.symm.trans he⟩

/-- A successful resume passed the mode's check, and the dimension check if it was committed. -/
theorem initializeResumed_ok {schema : FeatureSchemaFile} {config : VecMaskConfig}
    (h : initializeVecMaskState s schema config true = .ok (t, active)) :
    ∃ runtime, s.runtime = some runtime ∧ checkResumedMask runtime schema.features.length config = .ok () ∧
      (t, active) = installResumed s schema runtime ∧
      (runtime.tpeInitCommitted → validateCommittedVectorDimensions t = .ok ()) := by
  simp only [initializeVecMaskState, Bool.not_true, Bool.false_eq_true, if_false] at h
  split at h
  · cases h
  · next runtime hrt =>
    split at h
    · cases h
    · next hcheck =>
      refine ⟨runtime, hrt, hcheck, ?_⟩
      split_ifs at h with hcom
      · split at h
        · cases h
        · next hval => cases h; exact ⟨rfl, fun _ => hval⟩
      · cases h; exact ⟨rfl, fun hc => absurd hc hcom⟩

/-- The feature matrix of the active features. -/
def activeMatrix (map : FeatureMap F) (active : List FeatureSpec) : FeaturesMatrixMeta F :=
  { matrix := filterActiveFeatures map (active.map (·.name)), sites := setup.sites }

variable {setup : Setup F}

/-- Loading the feature map: where the pool, the scalar weights and the vector come from. -/
theorem installFeatures_ok {map : FeatureMap F} {isResumed : Bool}
    (h : installFeatures setup map active isResumed s = .ok t) :
    ∃ vs status, ensurePool s.globals.vCandidates setup.candidatePath setup.candidateFile active.length
        (candidatePolicy s.mask.mode) = .ok (vs, status) ∧
      t = { s with
        runtime := s.runtime.map (noteCandidateFile · status isResumed)
        featuresMap := some (scalarWeights (activeMatrix setup map active)
          (vs.head?.getD (equalSimplex active.length)) (active.map (·.name)))
        featuresMatrix := some (activeMatrix setup map active)
        globals := { s.globals with
          vCandidates := vs
          tpeSatisfied := decide (0 < active.length)
          currentV := if isResumed then s.globals.currentV else [] } } := by
  simp only [installFeatures, loadAndAlignFeaturesMap, ensureVCandidatesFor] at h
  cases hens : ensurePool s.globals.vCandidates setup.candidatePath setup.candidateFile active.length
      (candidatePolicy s.mask.mode) with
  | error e => rw [hens] at h; cases h
  | ok answer =>
      obtain ⟨vs, status⟩ := answer
      refine ⟨vs, status, rfl, ?_⟩
      rw [hens] at h
      obtain rfl := Except.ok.inj h
      cases isResumed with
      | false => rfl
      | true =>
        by_cases hv : s.globals.currentV = []
        · simp only [hv, if_true, ne_eq, not_true_eq_false, and_false, if_false]
          rfl
        · simp only [if_true, ne_eq, hv, not_false_eq_true, and_self]
          rfl

variable {now : ℕ}

theorem finishStartup_ok {isResumed : Bool} (h : finishStartup setup now isResumed s = .ok t) :
    ∃ acfg fuzzStartEpochMs, t = { s with
      iteration := some s.iter
      acfg
      globals := { s.globals with fuzzStartEpochMs, featExists := setup.canonicalMap.isSome } } := by
  unfold finishStartup at h
  generalize (if (!isResumed || s.globals.fuzzStartEpochMs == 0) = true then now
    else s.globals.fuzzStartEpochMs) = fuzzStart at h
  split_ifs at h
  · split at h
    · cases h
    · cases h; exact ⟨_, _, rfl⟩
  · cases h; exact ⟨s.acfg, _, rfl⟩

theorem startup_ok {old : Option (State F)} (h : startup setup now old = .ok t) :
    ∃ s active u, initializeVecMaskState (old.getD freshState) setup.schema setup.config old.isSome
        = .ok (s, active) ∧
      loadFeatures setup active old.isSome (setArgs setup { s with
        dataExport := some { outputPath := setup.runtimeDataOutputPath, lastExportMs := 0 } }) = .ok u ∧
      finishStartup setup now old.isSome u = .ok t := by
  unfold startup at h
  split at h
  · cases h
  · next s active hinit =>
    dsimp only at h
    split at h
    · cases h
    · next u hload => exact ⟨s, active, u, hinit, hload, h⟩

/-- What a resumed process with a feature map starts from: the persisted state in the coordinate
    space of the schema, the pool `vs` and the scalar weights of its first vector. -/
theorem resume_ok {map : FeatureMap F} (hmap : setup.canonicalMap = some map)
    (h : startup setup now (some s) = .ok t) :
    ∃ runtime active vs status acfg fuzzStartEpochMs, s.runtime = some runtime ∧
      active = computeActiveFeatures setup.schema runtime.effectiveMask ∧
      checkResumedMask runtime setup.schema.features.length setup.config = .ok () ∧
      ensurePool s.globals.vCandidates setup.candidatePath setup.candidateFile active.length
        (candidatePolicy runtime.mode) = .ok (vs, status) ∧
      t = { s with
        featMode := some (min setup.featMode 3)
        weightMode := some setup.weightComputeMode
        dataExport := some ⟨setup.runtimeDataOutputPath, 0⟩
        iteration := some s.iter
        acfg
        runtime := some (noteCandidateFile { runtime with
          selectedFeatureNames := active.map (·.name)
          selectedSchemaIndices := TpeStage.selectedIndices runtime.effectiveMask } status true)
        featuresMap := some (scalarWeights (activeMatrix setup map active)
          (vs.head?.getD (equalSimplex active.length)) (active.map (·.name)))
        featuresMatrix := some (activeMatrix setup map active)
        globals := { s.globals with
          schemaVersion := setup.schema.schemaVersion
          schemaFeatures := setup.schema.features
          vecMask := runtime.effectiveMask
          activeFeatures := active
          activeFeatureNames := active.map (·.name)
          featureDim := active.length
          alphaInit := setup.factorParams.alpha
          factorParams := setup.factorParams
          exploreTimeSecs := setup.exploreTimeSecs
          tpePeriodSecs := setup.tpePeriodSecs
          vCandidates := vs
          tpeSatisfied := decide (0 < active.length)
          fuzzStartEpochMs
          featExists := true } } := by
  obtain ⟨u, active, v, hinit, hload, hfin⟩ := startup_ok h
  obtain ⟨acfg, fuzzStart, rfl⟩ := finishStartup_ok hfin
  obtain ⟨runtime, hrt, hcheck, hinst, _⟩ := initializeResumed_ok hinit
  obtain rfl : u = (installResumed s setup.schema runtime).1 := congrArg Prod.fst hinst
  obtain rfl : active = (installResumed s setup.schema runtime).2 := congrArg Prod.snd hinst
  rw [loadFeatures, hmap] at hload
  obtain ⟨vs, status, hens, rfl⟩ := installFeatures_ok hload
  refine ⟨runtime, _, vs, status, acfg, fuzzStart, hrt, rfl, hcheck, hens, ?_⟩
  rw [hmap]
  rfl

/-- What the startup code keeps of the persisted state, whatever setup it reads. -/
theorem startup_frame (h : startup setup now (some s) = .ok t) :
    t.iter = s.iter ∧ t.globals.currentV = s.globals.currentV ∧
      (TpeStage.gate t → 0 < t.globals.featureDim) ∧ t.globals.featExists = setup.canonicalMap.isSome := by
  cases hmap : setup.canonicalMap with
  | none =>
    obtain ⟨u, active, v, hinit, hload, hfin⟩ := startup_ok h
    obtain ⟨acfg, fuzzStart, rfl⟩ := finishStartup_ok hfin
    obtain ⟨runtime, _, _, hinst, _⟩ := initializeResumed_ok hinit
    obtain rfl : u = (installResumed s setup.schema runtime).1 := congrArg Prod.fst hinst
    rw [loadFeatures, hmap] at hload
    cases hload
    exact ⟨rfl, rfl, fun hg => by simp [TpeStage.gate, hmap] at hg, congrArg Option.isSome hmap⟩
  | some map =>
    obtain ⟨runtime, _, vs, status, acfg, fuzzStart, _, rfl, _, _, rfl⟩ := resume_ok hmap h
    refine ⟨rfl, rfl, fun hg => ?_, rfl⟩
    simp only [TpeStage.gate, Bool.and_eq_true, decide_eq_true_eq] at hg
    exact hg.2

end Bofuzz
