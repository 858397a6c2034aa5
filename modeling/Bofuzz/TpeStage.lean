import Bofuzz.Tpe
import Bofuzz.WeightRefresh

/-! The TPE stage (`feature_sched/tpe_stage.rs`).

    The stage is a phase machine over persisted metadata. Explore collects credits; its end commits
    the mask and starts a recompute for the first candidate; a recompute runs in a worker thread
    and is published by a later call; the published vector is in force for an active window, whose
    end records a trial and starts the next recompute or locks the optimizer.

    `Proc` is what a process holds: the stage, the state, and as a history variable the list of
    what happened so far, newest first. `Env` is what one call of `perform` meets: every clock
    reading, whether the worker's result has arrived, and whether a file or an event fails. -/

namespace Bofuzz
open F64 Effect

/-- The stage. A worker thread and the receiving end of its channel are known by the snapshot the
    worker was given: the value it sends is `computeWeights` of that snapshot. -/
structure TpeStage (F G : Type) [F64 F] where
  opt : TpeOptimizer F
  rng : G
  pendingWorker : Option (CorpusWeightSnapshot F)
  resultRx : Option (CorpusWeightSnapshot F)
  pendingIteration : Option ℕ
  lastExploreReportMs : ℕ

/-- What happens in a run, as far as the history records it. -/
inductive Event (F : Type) where
  /-- A worker was started for the vector now in force. -/
  | started (v : List F) (m : Option (FeaturesMatrixMeta F)) (names : List String)
      (snapshot : CorpusWeightSnapshot F)
  /-- A result was published, with this edge count recorded. -/
  | published (result : WeightRecomputeResult F) (edges : ℕ)
  /-- A trial was handed to the optimizer when the edge count was `edges`. -/
  | observed (iteration : ℕ) (v : List F) (reward : F) (startMs now edges : ℕ)
  | staleResult
  | missingReceiver

structure Proc (F G : Type) [F64 F] where
  stage : TpeStage F G
  state : State F
  trace : List (Event F) := []

/-- What `try_recv` answers on a channel that exists. -/
inductive Recv where | empty | ready | disconnected
  deriving DecidableEq

/-- What one call of `perform` meets. -/
structure Env where
  exploreNow : ℕ
  now : ℕ
  exportNow : ℕ
  persistNow : ℕ
  recv : Recv := .empty
  exportFails : Bool := false
  fireFails : Bool := false

variable {F G : Type} [F64 F] [Draw F G]

namespace TpeStage

/-- The stage of a new process. -/
def new (params : TpeParams F) (rng : G) : TpeStage F G where
  opt := { params }
  rng := rng
  pendingWorker := none
  resultRx := none
  pendingIteration := none
  lastExploreReportMs := 0

/-- Join the worker and drop its channel. -/
def joinWorker (stage : TpeStage F G) : TpeStage F G :=
  { stage with pendingWorker := none, resultRx := none, pendingIteration := none }

variable (s : State F)

def currentEdges : ℕ := s.edges.getD 0

def exploreDone (now : ℕ) : Bool :=
  s.globals.exploreTimeSecs * 1000 ≤ now - s.globals.fuzzStartEpochMs

/-- The gate of `perform`. -/
def gate : Bool :=
  s.globals.featExists && s.getFeatMode != 0 && s.globals.tpeSatisfied

end TpeStage

/-! ### Parts of a process -/

namespace Proc

/-- A computation on the state alone. -/
def onState {α : Type} (m : EStateM Error (State F) α) : EStateM Error (Proc F G) α :=
  zoom Proc.state (fun p state => { p with state }) m

variable (p : Proc F G)

def setPhase (phase : TpePhase) : Proc F G := { p with state := p.state.setPhase phase }

def record (e : Event F) : Proc F G := { p with trace := e :: p.trace }

def setTpe (o : TpeState F) : Proc F G :=
  { p with stage := { p.stage with opt := { p.stage.opt with state := o } } }

/-- `restore_once`, at the start of every call. -/
def restore : Proc F G :=
  p.setTpe (p.stage.opt.state.restoreOnce p.state.history)

/-- A pending recompute without a worker is left over from an earlier process. -/
def repair : Proc F G :=
  if p.state.phase = .pendingRecompute ∧ p.stage.pendingWorker.isNone then
    p.setPhase (if p.state.globals.currentV = [] then .explore else .activeWindow)
  else p

def persist (now : ℕ) : Proc F G :=
  { p with state := { p.state with history := some (p.stage.opt.state.persist p.state.history now) } }

end Proc

/-- `maybe_export_runtime_data`; the content of the file is left out. -/
def maybeExportRuntimeData (env : Env) (force : Bool) : EStateM Error (State F) Unit := do
  let s ← get
  let old := s.dataExport.getD {}
  if old.outputPath = "" then pure ()
  else if !force && old.lastExportMs != 0 && decide (env.exportNow - old.lastExportMs < 30 * 1000)
  then pure ()
  else if env.exportFails then throw .file
  else set { s with dataExport := some { old with lastExportMs := env.exportNow } }

/-- The export only notes when it ran. -/
theorem maybeExport_frame (env : Env) (force : Bool) (s : State F) :
    Spec (maybeExportRuntimeData env force) s (fun _ t => ∃ dataExport, t = { s with dataExport })
      (fun _ t => t = s) := by
  simp only [maybeExportRuntimeData, spec_bind, spec_get]
  split_ifs
  · exact ⟨s.dataExport, rfl⟩
  · exact ⟨s.dataExport, rfl⟩
  · exact rfl
  · exact ⟨_, rfl⟩

/-- `report` and `report_trials`: only whether the event manager accepts the event matters. -/
def report (env : Env) : EStateM Error (Proc F G) Unit :=
  if env.fireFails then throw .event else pure ()

namespace TpeStage

/-! ### Recomputes -/

def startPendingRecompute (vector : List F) : EStateM Error (Proc F G) Unit := do
  let p ← get
  if p.stage.pendingWorker.isSome then pure ()
  else if p.state.mode = .frontier ∧ p.state.acfg.isNone then
    throw (.illegalState .frontierNeedsAcfg)
  else
    let nextIteration := p.state.iter.currentIteration + 1
    let s ← ofResult (applyVToFeatures p.state vector nextIteration)
    let snapshot := buildCorpusWeightSnapshot s nextIteration p.state.mode (s.featuresMap.getD [])
    set { stage := { p.stage with
            opt := { p.stage.opt with state := p.stage.opt.state.setLastVec vector }
            pendingWorker := some snapshot
            resultRx := some snapshot
            pendingIteration := some nextIteration }
          state := s.setIter { s.iter with
            currentIteration := nextIteration
            pendingIteration := some nextIteration
            phase := .pendingRecompute }
          trace := .started s.globals.currentV s.featuresMatrix s.globals.activeFeatureNames snapshot
            :: p.trace : Proc F G }

/-- The updates of `poll_pending` after the weights are published. -/
def openWindow (s : State F) (iteration now : ℕ) : State F :=
  let s := { s with aliasDirty := some { iteration, dirty := true } }.setFeaturesActive true
  s.setIter { s.iter with
    activeIteration := some iteration
    pendingIteration := none
    phase := .activeWindow
    activeStartMs := some now
    activeStartEdges := some (currentEdges s)
    lastNewEdgesMs := some now }

variable (env : Env)

/-- `poll_pending`: whether a result was published. -/
def pollPending : EStateM Error (Proc F G) Bool := do
  let p ← get
  match p.stage.resultRx with
  | none =>
    set ((p.setPhase .activeWindow).record .missingReceiver)
    pure false
  | some snapshot =>
    match env.recv with
    | .empty => pure false
    | .disconnected =>
      set { p with stage := p.stage.joinWorker }
      throw (.unknown .workerDisconnected)
    | .ready =>
      let result := computeWeights snapshot
      set { p with stage := p.stage.joinWorker }
      if result.iteration ≠ p.state.iter.currentIteration then
        modify fun p => p.record .staleResult
        pure false
      else
        Proc.onState (publishWeightRecomputeResult result)
        modify fun p => ({ p with state := openWindow p.state result.iteration env.now }.persist
          env.persistNow).record (.published result (currentEdges p.state))
        pure true

/-! ### The commit at the end of Explore -/

def schemaFromState (s : State F) : FeatureSchemaFile where
  schemaVersion := s.globals.schemaVersion
  features := s.globals.schemaFeatures

def creditsWithDim (credits : List F) (dim : ℕ) (label : String) : Except Error (List F) :=
  if credits = [] then .ok (List.replicate dim (F64.lit 0))
  else if credits.length ≠ dim then .error (.illegalState (.creditLength label credits.length dim))
  else .ok credits

/-- The number and the sum of the positive credits. -/
def positiveCreditStats (credits : List F) : ℕ × F :=
  credits.foldl (fun acc credit =>
    if F64.lt (F64.lit 0) credit then (acc.1 + 1, acc.2 + credit) else acc) (0, F64.lit 0)

variable (schema : FeatureSchemaFile)

def selectedNames (mask : List Bool) : List String :=
  ((schema.features.zip mask).filter (·.2)).map (·.1.name)

def selectedIndices (mask : List Bool) : List ℕ :=
  mask.zipIdx.filterMap fun b => if b.1 then some b.2 else none

/-- Where the first vectors come from in the full and the explicit mode. -/
def initSource (candidateFileLoaded hasPositive : Bool) : TpeInitSource :=
  if candidateFileLoaded then .externalCandidateFile
  else if hasPositive then .exploreCreditsExactFirst
  else .equalSimplexFallback

/-- Enqueue the committed center and samples around it. -/
def enqueueInit (normalized : List F) : EStateM Error (Proc F G) Unit := do
  let p ← get
  let (state, rng) ← ofResult
    (p.stage.opt.enqueueExactThenNeighborCandidates p.state normalized p.stage.rng)
  set { p with stage := { p.stage with rng }, state }

variable (runtime : VecMaskRuntimeMeta F)

/-- What the full and the explicit mode do once their mask is known. -/
def commitInit (normalized : List F) : EStateM Error (Proc F G) Unit := do
  Proc.onState (modify fun s => { s with runtime := some runtime })
  if runtime.candidateFileLoaded then pure ()
  else
    Proc.onState (modify fun s => s.replaceVCandidates [])
    enqueueInit normalized

variable (raw : List F)

def commitFull : EStateM Error (Proc F G) Unit := do
  let s := (← get).state
  let schema := schemaFromState s
  let schemaDim := schema.features.length
  let activeDim := s.globals.featureDim
  if activeDim ≠ schemaDim then throw (.illegalState (.fullModeDim activeDim schemaDim))
  else
    let credits ← ofResult (creditsWithDim raw activeDim "full")
    let (normalized, hasPositive, positiveSum) ←
      ofResult ((normalizeCreditOrEqualSimplex credits).mapError Error.illegalState)
    let effectiveMask := List.replicate schemaDim true
    commitInit { runtime with
      maskCommitted := true
      tpeInitCommitted := true
      effectiveMask
      selectedFeatureNames := selectedNames schema effectiveMask
      selectedSchemaIndices := selectedIndices effectiveMask
      exploreCreditsFull := credits
      exploreCreditsActive := credits
      normalizedCreditInitV := normalized
      positiveCreditCount := (positiveCreditStats credits).1
      positiveCreditSum := positiveSum
      fallbackReason := none
      tpeInitSource := some (initSource runtime.candidateFileLoaded hasPositive) } normalized

def commitExplicit : EStateM Error (Proc F G) Unit := do
  let s := (← get).state
  match runtime.requestedExplicitMask with
  | none => throw (.illegalState .explicitMaskMissing)
  | some requested =>
    if s.globals.vecMask ≠ requested then throw (.illegalState .explicitMaskDiffers)
    else
      let credits ← ofResult (creditsWithDim raw s.globals.featureDim "explicit")
      let (normalized, hasPositive, positiveSum) ←
        ofResult ((normalizeCreditOrEqualSimplex credits).mapError Error.illegalState)
      commitInit { runtime with
        maskCommitted := true
        tpeInitCommitted := true
        effectiveMask := requested
        selectedFeatureNames := s.globals.activeFeatureNames
        selectedSchemaIndices := selectedIndices requested
        exploreCreditsFull := []
        exploreCreditsActive := credits
        normalizedCreditInitV := normalized
        positiveCreditCount := (positiveCreditStats credits).1
        positiveCreditSum := positiveSum
        fallbackReason := none
        tpeInitSource := some (initSource runtime.candidateFileLoaded hasPositive) } normalized

/-- What the auto-credit mode selects: the mask, the active credits, the normalized center, where
    it comes from, and why nothing was selected if so. -/
structure Selection (F : Type) where
  effectiveMask : List Bool
  activeCredits : List F
  normalized : List F
  source : TpeInitSource
  fallbackReason : Option String

/-- Narrow the coordinate space to the selected features, or keep all when none has credit. -/
def installSelection (credits : List F) (selected : Option (List Bool)) :
    EStateM Error (State F) (Selection F) := do
  match selected with
  | some mask =>
    set (← ofResult (installCommittedRuntimeMask (← get) schema mask))
    let activeCredits ← ofResult ((projectVectorByMask credits mask).mapError Error.illegalState)
    let (normalized, _) ←
      ofResult ((normalizeCreditOrEqualSimplex activeCredits).mapError Error.illegalState)
    pure { effectiveMask := mask, activeCredits, normalized
           source := .exploreCreditsExactFirst, fallbackReason := none }
  | none =>
    let schemaDim := schema.features.length
    let mask := List.replicate schemaDim true
    set (← ofResult (installCommittedRuntimeMask (← get) schema mask))
    pure { effectiveMask := mask, activeCredits := credits, normalized := equalSimplex schemaDim
           source := .equalSimplexFallback, fallbackReason := some "no_positive_explore_credits" }

/-- The coordinate space installed is that of the selection, and its center has that dimension. -/
theorem installSelection_spec (credits : List F) (selected : Option (List Bool)) (s : State F) :
    Spec (installSelection schema credits selected) s
      (fun selection t => installCommittedRuntimeMask s schema selection.effectiveMask = .ok t ∧
        selection.normalized.length = t.globals.featureDim)
      (fun _ t => t = s ∨ ∃ mask, installCommittedRuntimeMask s schema mask = .ok t) := by
  unfold installSelection
  split
  · next mask =>
    simp only [spec_bind, spec_get, spec_ofResult, spec_set, spec_pure]
    refine ⟨fun t ht => ⟨fun active hactive => ⟨fun a ha => ⟨ht, ?_⟩, ?_⟩, ?_⟩, fun _ _ => .inl trivial⟩
    · obtain ⟨hlen, _, rfl⟩ := installCommittedRuntimeMask_ok ht
      rw [normalizeCredit_length (eq_ok_of_mapError ha),
        projectVectorByMask_length (eq_ok_of_mapError hactive), computeActiveFeatures_length hlen]
    · exact fun _ _ => .inr ⟨mask, ht⟩
    · exact fun _ _ => .inr ⟨mask, ht⟩
  · simp only [spec_bind, spec_get, spec_ofResult, spec_set, spec_pure]
    refine ⟨fun t ht => ⟨ht, ?_⟩, fun _ _ => .inl trivial⟩
    obtain ⟨hlen, _, rfl⟩ := installCommittedRuntimeMask_ok ht
    rw [equalSimplex_length, computeActiveFeatures_length hlen, List.count_replicate_self]

def commitAutoCredit : EStateM Error (Proc F G) Unit := do
  let s := (← get).state
  let schema := schemaFromState s
  let schemaDim := schema.features.length
  let credits ← ofResult (creditsWithDim raw schemaDim "auto-credit")
  let (positiveCount, positiveSum) := positiveCreditStats credits
  let selected ← ofResult ((selectPositiveCreditTopKMask credits schemaDim
    runtime.creditTopK).mapError Error.illegalState)
  let selection ← Proc.onState (installSelection schema credits selected)
  Proc.onState (modify fun s => { s with runtime := some { runtime with
    maskCommitted := true
    tpeInitCommitted := true
    effectiveMask := selection.effectiveMask
    selectedFeatureNames := selectedNames schema selection.effectiveMask
    selectedSchemaIndices := selectedIndices selection.effectiveMask
    candidateFileLoaded := false
    tpeInitSource := some selection.source
    exploreCreditsFull := credits
    exploreCreditsActive := selection.activeCredits
    normalizedCreditInitV := selection.normalized
    positiveCreditCount := positiveCount
    positiveCreditSum := positiveSum
    fallbackReason := selection.fallbackReason } })
  enqueueInit selection.normalized

def commitMaskAndTpeInitializationBeforeFirstTpe : EStateM Error (Proc F G) Unit := do
  let s := (← get).state
  let runtime := s.mask
  if runtime.tpeInitCommitted then ofResult (validateCommittedVectorDimensions s)
  else
    let raw := (s.exploreCredit.map (·.credits)).getD []
    match runtime.mode with
    | .full => commitFull runtime raw
    | .explicit => commitExplicit runtime raw
    | .autoCredit => commitAutoCredit runtime raw
    ofResult (validateCommittedVectorDimensions (← get).state)

/-! ### The phases -/

/-- `next_untried_from_pool` on the stage's own optimizer. -/
def takeUntried : EStateM Error (Proc F G) (Option (List F)) :=
  modifyGet fun p =>
    let (v, state) := p.stage.opt.nextUntriedFromPool p.state
    (v, { p with state })

/-- The vector `suggest_next` answers with. -/
def suggestion (p : Proc F G) : Option (List F) := (p.stage.opt.suggestNext p.state p.stage.rng).1

/-- `suggest_next` on the stage's own optimizer and generator. -/
def suggest : EStateM Error (Proc F G) (Option (List F)) :=
  modifyGet fun p =>
    let (v, opt, state, rng) := p.stage.opt.suggestNext p.state p.stage.rng
    (v, { p with stage := { p.stage with opt, rng }, state })

def performExplore : EStateM Error (Proc F G) Unit := do
  let p ← get
  if !exploreDone p.state env.exploreNow then
    Proc.onState (maybeExportRuntimeData env false)
    if 30000 < env.now - p.stage.lastExploreReportMs then
      modify fun p => { p with stage := { p.stage with lastExploreReportMs := env.now } }
      report env
    else pure ()
  else
    commitMaskAndTpeInitializationBeforeFirstTpe
    if (← get).state.globals.vCandidates = [] then throw (.illegalState .noInitialCandidate)
    else
      match ← takeUntried with
      | none => throw (.illegalState .initialCandidateLost)
      | some candidate =>
        startPendingRecompute candidate
        Proc.onState (maybeExportRuntimeData env true)
        report env

def performPendingRecompute : EStateM Error (Proc F G) Unit := do
  if ← pollPending env then report env else pure ()

/-- The end of a window: record its trial. -/
def closeWindow (p : Proc F G) (startMs now : ℕ) : Proc F G :=
  let iter := p.state.iter
  let edges := currentEdges p.state
  let reward : F := F64.ofNat (edges - iter.activeStartEdges.getD edges)
  let lastVec := p.state.globals.currentV
  let iteration := iter.activeIteration.getD iter.currentIteration
  let p :=
    if lastVec = [] then p
    else (p.setTpe (p.stage.opt.state.observeTrial iteration lastVec reward startMs now)).record
      (.observed iteration lastVec reward startMs now edges)
  if F64.lt (F64.lit 0) reward then
    { p with state := p.state.setIter { iter with lastNewEdgesMs := some now } }
  else p

def performActiveWindow : EStateM Error (Proc F G) Unit := do
  let p ← get
  match p.state.iter.activeStartMs with
  | none => pure ()
  | some startMs =>
    if env.now - startMs < p.stage.opt.params.period then pure ()
    else
      set (closeWindow p startMs env.now)
      match ← suggest with
      | some next => startPendingRecompute next
      | none =>
        modify fun p => (p.setTpe p.stage.opt.state.lock).setPhase .lockedBest
      modify fun p => p.persist env.persistNow
      Proc.onState (maybeExportRuntimeData env true)
      report env

def performLockedBest : EStateM Error (Proc F G) Unit := do
  let p ← get
  let iter := p.state.iter
  let edges := currentEdges p.state
  if iter.activeStartEdges.getD edges < edges then
    set { p with state := p.state.setIter { iter with
      activeStartEdges := some edges, lastNewEdgesMs := some env.now } }
  else
    let lastNew := (iter.lastNewEdgesMs.or iter.activeStartMs).getD env.now
    if env.now - lastNew < p.stage.opt.params.reTpeThreshold then pure ()
    else
      let (opt, state, rng) := p.stage.opt.enqueueInverseCandidates p.state p.stage.rng
      set { p with stage := { p.stage with opt, rng }, state }
      Proc.onState (maybeExportRuntimeData env true)
      match ← suggest with
      | some next => startPendingRecompute next
      | none => pure ()

/-- One call of the stage. -/
def perform : EStateM Error (Proc F G) Unit := do
  let p ← get
  if !gate p.state then pure ()
  else
    let p := p.restore.repair
    set p
    match p.state.phase with
    | .explore => performExplore env
    | .pendingRecompute => performPendingRecompute env
    | .activeWindow => performActiveWindow env
    | .lockedBest => performLockedBest env

end TpeStage

end Bofuzz
