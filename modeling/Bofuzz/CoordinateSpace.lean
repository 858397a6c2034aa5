import Bofuzz.Dimensions

/-! One coordinate space for a whole run.

    A new run starts in the space its configuration asks for, credits are collected in its
    coordinates, the stage keeps it (`perform_keeps`), and a restart with the same setup installs it
    again. So in every campaign the mask, the names and the dimension agree, after the commit every
    stored vector has the dimension, and no dimension check ever fails. -/

namespace Bofuzz
open F64 Effect TpeStage List

variable {F G : Type} [F64 F] {setup : Setup F}

/-! ### Credits -/

theorem CreditMeta.add_length (old : CreditMeta F) (iteration deltaEdges : ℕ) {delta : List F}
    {dim : ℕ} (h : delta.length = dim) :
    (old.add iteration deltaEdges delta dim).credits.length = dim := by
  unfold CreditMeta.add
  split_ifs with hlen
  · rw [length_zipWith, resizeWith_length, h, min_self]
  · rw [length_zipWith, not_not.mp hlen, h, min_self]

/-- Collecting credits changes nothing else of the space. -/
theorem Space.collect {c : View F} (h : Space setup c) {credit : Option (CreditMeta F)}
    (hcredit : Blank c → ∀ m ∈ credit, Fits c.dim m.credits) : Space setup { c with credit } := by
  refine ⟨h.toBody.update h.pool h.history h.opt, h.channel, h.busy, ?_⟩
  rcases h.stage with hblank | hsettled
  · exact .inl ⟨hblank.uncommitted, hblank.phase, hblank.currentV, hblank.history, hblank.trials,
      hblank.lastVec, hblank.bestFixed, hcredit hblank, hblank.loaded⟩
  · exact .inr ⟨⟨hsettled.committed, hsettled.initV⟩, hsettled.phase, hsettled.currentV⟩

variable {p : Proc F G}

/-- A testcase adds its credits in the active coordinates. -/
theorem addCredits_keeps (h : Space setup p.view) (delta : CoverageDeltaMeta) (localNodes : List ℕ)
    {credit : List F} (hlen : credit.length = p.view.names.length) :
    Space setup { p with state := addCredits p.state delta localNodes credit }.view := by
  unfold addCredits
  by_cases hphase : p.state.iter.phase = .explore
  · rw [if_pos hphase]
    refine h.collect fun _ m hm => ?_
    obtain rfl := Option.some.inj hm
    exact .inr ((CreditMeta.add_length _ _ _ hlen).trans h.names)
  · rw [if_neg hphase]
    exact h

theorem append_keeps (covered : List ℕ) (h : Space setup p.view) :
    Spec (Proc.onState (appendMetadata covered)) p (fun _ q => Space setup q.view)
      (fun _ q => Dims q.view) := by
  simp only [spec_onState, appendMetadata, spec_bind, spec_get]
  split
  · split
    · exact h
    obtain ⟨frontier, hup⟩ :=
      updateFrontierMeta_frame p.state (p.state.coverageDelta.getD {}).newlyCoveredSancov
    generalize updateFrontierMeta p.state (p.state.coverageDelta.getD {}).newlyCoveredSancov
      = answer at hup ⊢
    obtain ⟨s, changed⟩ := answer
    obtain rfl : s = _ := hup
    split
    · exact h
    simp only [spec_bind, spec_ofResult, spec_set]
    refine ⟨fun mass hmass => ?_, fun _ _ => h.toDims⟩
    have hlen : (creditDelta mass (p.state.coverageDelta.getD {}).deltaEdges).length
        = p.view.names.length := by rw [creditDelta_length, localMass_length hmass]; rfl
    exact addCredits_keeps (p := { p with state := { p.state with frontier } }) h _ _ hlen
  · exact h

/-! ### Restarts -/

variable {runtime : VecMaskRuntimeMeta F}

/-- What a restart with the same setup makes of a space: the same space with a new optimizer, and
    perhaps the candidate file in the pool. -/
theorem Space.resume {c : View F} (h : Space setup c) {features : List FeatureSpec}
    {vecMask : List Bool} {dim : ℕ} {names : List String} {satisfied : Bool} {pool : List (List F)}
    (hfeatures : features = c.features) (hvecMask : vecMask = c.vecMask) (hdim : dim = c.dim)
    (hnames : names.length = dim) (hsatisfied : satisfied → 0 < dim)
    (hmode : runtime.mode = c.mask.mode) (heffective : runtime.effectiveMask = c.mask.effectiveMask)
    (hcommitted : runtime.tpeInitCommitted = c.mask.tpeInitCommitted)
    (hinitV : runtime.normalizedCreditInitV = c.mask.normalizedCreditInitV)
    (hpool : AllDim c.dim pool)
    (hloaded : (c.mask.candidateFileLoaded → c.pool ≠ []) → runtime.candidateFileLoaded → pool ≠ []) :
    Space setup { c with features, vecMask, dim, names, satisfied, runtime := some runtime, pool
                         opt := {}, worker := none, rx := none } := by
  subst hfeatures hvecMask hdim
  refine ⟨⟨⟨h.dim, hnames, heffective.trans h.effective⟩, h.features, h.length, rfl, hmode.trans h.mode,
    ?_, hsatisfied, hpool, h.history, .empty⟩, rfl, fun hw => absurd rfl hw, ?_⟩
  · rw [show View.mask _ = runtime from rfl, hmode, hcommitted]
    exact h.full
  · rcases h.stage with hblank | hsettled
    · exact .inl ⟨hcommitted.trans hblank.uncommitted, hblank.phase, hblank.currentV, hblank.history, rfl,
        rfl, rfl, hblank.credit, hloaded hblank.loaded⟩
    · exact .inr ⟨⟨hcommitted.trans hsettled.committed, (congrArg length hinitV).trans hsettled.initV⟩,
        hsettled.phase, hsettled.currentV⟩

/-- The candidate file changes nothing but its own fields of the metadata. -/
theorem noteCandidateFile_frame (runtime : VecMaskRuntimeMeta F) (status : CandidateFileStatus)
    (isResumed : Bool) :
    (noteCandidateFile runtime status isResumed).mode = runtime.mode ∧
      (noteCandidateFile runtime status isResumed).effectiveMask = runtime.effectiveMask ∧
      (noteCandidateFile runtime status isResumed).tpeInitCommitted = runtime.tpeInitCommitted ∧
      (noteCandidateFile runtime status isResumed).normalizedCreditInitV
        = runtime.normalizedCreditInitV := by
  unfold noteCandidateFile
  split_ifs <;> exact ⟨rfl, rfl, rfl, rfl⟩

theorem noteCandidateFile_loaded {status : CandidateFileStatus} {isResumed : Bool}
    (h : (noteCandidateFile runtime status isResumed).candidateFileLoaded) :
    status.loaded ∨ (isResumed ∧ runtime.candidateFileLoaded) := by
  cases hfile : status.loaded with
  | true => exact .inl rfl
  | false =>
    right
    cases isResumed with
    | false => simp [noteCandidateFile, hfile] at h
    | true =>
      refine ⟨rfl, ?_⟩
      simp only [noteCandidateFile, hfile, Bool.not_true, Bool.false_or, Bool.false_eq_true,
        if_false] at h
      split_ifs at h <;> exact h

/-- The number of active features under the persisted mask is the dimension of the run. -/
theorem Space.persisted (h : Space setup p.view) (hruntime : p.state.runtime = some runtime) :
    p.view.mask = runtime ∧ runtime.effectiveMask = p.view.vecMask ∧
      (computeActiveFeatures setup.schema runtime.effectiveMask).length = p.view.dim := by
  obtain rfl : p.view.mask = runtime := by rw [View.mask, show p.view.runtime = _ from hruntime]; rfl
  exact ⟨rfl, h.effective, by rw [h.effective, computeActiveFeatures_length h.length, h.dim]⟩

variable {map : FeatureMap F}

/-- A restart with the same setup installs the same coordinate space. -/
theorem restart_keeps {s : State F} {now : ℕ} (hmap : setup.canonicalMap = some map)
    (h : Space setup p.view) (hs : startup setup now (some p.state) = .ok s) (params : TpeParams F)
    (rng : G) : Space setup ({ p with stage := .new params rng, state := s } : Proc F G).view := by
  obtain ⟨runtime, _, vs, status, acfg, fuzzStart, hruntime, rfl, _, hpool, rfl⟩ := resume_ok hmap hs
  obtain ⟨hmask, heffective, hlen⟩ := h.persisted hruntime
  rw [hlen] at hpool
  obtain ⟨hall, hkept, hloaded⟩ := ensurePool_ok hpool h.pool
  obtain ⟨hmode, heff, hcommitted, hinitV⟩ := noteCandidateFile_frame { runtime with
    selectedFeatureNames := (computeActiveFeatures setup.schema runtime.effectiveMask).map (·.name)
    selectedSchemaIndices := selectedIndices runtime.effectiveMask } status true
  subst hmask
  refine h.resume h.features.symm heffective hlen (length_map _) of_decide_eq_true hmode heff hcommitted
    hinitV hall fun hold hnew => ?_
  rcases noteCandidateFile_loaded hnew with hfile | ⟨_, hfile⟩
  · exact hloaded hfile
  · exact (hkept (hold hfile)).symm ▸ hold hfile

/-- The check of the mask has errors of its own. -/
theorem checkResumedMask_error {schemaDim : ℕ} {config : VecMaskConfig} {e : Error}
    (h : checkResumedMask runtime schemaDim config = .error e) : e.isDimension = false := by
  unfold checkResumedMask at h
  dsimp only at h
  split at h
  · cases h; rfl
  split at h
  · split_ifs at h
    cases h; rfl
  · split at h
    · cases h; rfl
    · split_ifs at h
      cases h; rfl
  · split_ifs at h <;> (cases h; rfl)

/-- What the restart installs before it validates the vectors. -/
theorem installResumed_keeps (h : Space setup p.view) (hruntime : p.state.runtime = some runtime) :
    Space setup ({ p with stage := .new p.stage.opt.params p.stage.rng
                          state := (installResumed p.state setup.schema runtime).1 } :
      Proc F G).view := by
  obtain ⟨hmask, heffective, hlen⟩ := h.persisted hruntime
  subst hmask
  exact h.resume h.features.symm heffective hlen (length_map _)
    (fun hsat => (h.nonempty hsat).trans_eq hlen.symm) rfl rfl rfl rfl h.pool fun hold => hold

/-- A restart with the same setup passes the dimension check. -/
theorem resume_error {e : Error} (h : Space setup p.view)
    (he : initializeVecMaskState p.state setup.schema setup.config true = .error e) :
    e.isDimension = false := by
  simp only [initializeVecMaskState, Bool.not_true, Bool.false_eq_true, if_false] at he
  split at he
  · cases he; rfl
  · next runtime hruntime =>
    split at he
    · next hcheck => cases he; exact checkResumedMask_error hcheck
    split_ifs at he
    split at he
    · next hvalid => cases (installResumed_keeps h hruntime).validates.symm.trans hvalid
    · cases he

/-! ### A new run -/

theorem start_space {s : State F} {now : ℕ} (hconfig : setup.config.mode = .explicit →
      ∀ mask, setup.config.explicitMask = some mask → mask.length = setup.schema.features.length)
    (hmap : setup.canonicalMap = some map) (hs : startup setup now none = .ok s) (rng : G) :
    Space setup (World.start setup rng s).proc.view := by
  obtain ⟨t, active, u, hinit, hload, hfin⟩ := startup_ok hs
  obtain ⟨mask, runtime, rfl, rfl, hfresh⟩ := initializeFresh_ok hinit
  obtain ⟨acfg, fuzzStart, rfl⟩ := finishStartup_ok hfin
  rw [loadFeatures, hmap] at hload
  obtain ⟨vs, status, hpool, rfl⟩ := installFeatures_ok hload
  have hlen : mask.length = setup.schema.features.length := by
    by_cases hmode : setup.config.mode = .explicit
    · exact hconfig hmode mask (hfresh.explicit hmode)
    · rw [hfresh.full hmode, length_replicate]
  obtain ⟨hall, _, hloaded⟩ := ensurePool_ok hpool allDim_nil
  obtain ⟨hmode, heffective, hcommitted, _⟩ := noteCandidateFile_frame runtime status false
  refine
    { dim := computeActiveFeatures_length hlen
      names := length_map _
      effective := heffective.trans hfresh.effective
      features := rfl
      length := hlen
      runtime := rfl
      mode := hmode.trans hfresh.mode
      full := ?_
      nonempty := fun hsat => of_decide_eq_true hsat
      pool := hall
      history := by rintro _ ⟨⟩
      opt := .empty
      channel := rfl
      busy := fun hw => absurd rfl hw
      stage := .inl ⟨hcommitted.trans hfresh.uncommitted, rfl, rfl, rfl, rfl, rfl, rfl,
        by rintro _ ⟨⟩, fun hfile => ?_⟩ }
  · intro hfull
    refine hfresh.full fun hexplicit => ?_
    have hview : (noteCandidateFile runtime status false).mode = .explicit :=
      hmode.trans (hfresh.mode.trans hexplicit)
    rcases hfull with hfull | ⟨hfull, _⟩ <;> cases hview.symm.trans hfull
  · have hfile : (noteCandidateFile runtime status false).candidateFileLoaded := hfile
    rcases noteCandidateFile_loaded hfile with hfile | ⟨hno, _⟩
    · exact hloaded hfile
    · exact absurd hno Bool.false_ne_true

/-! ### Whole runs -/

/-- Every vector stored in a process has the active dimension. -/
structure VectorsFit (p : Proc F G) : Prop where
  currentV : p.state.globals.currentV.length = p.state.globals.featureDim
  candidates : ∀ v ∈ p.state.globals.vCandidates, v.length = p.state.globals.featureDim
  history : ∀ h ∈ p.state.history, (∀ t ∈ h.trials, t.1.length = p.state.globals.featureDim) ∧
    (h.lastVec ≠ [] → h.lastVec.length = p.state.globals.featureDim)
  initV : p.state.mask.normalizedCreditInitV.length = p.state.globals.featureDim
  trials : ∀ t ∈ p.stage.opt.state.trials, t.vector.length = p.state.globals.featureDim
  bestFixed : p.stage.opt.state.bestFixed ≠ [] →
    p.stage.opt.state.bestFixed.length = p.state.globals.featureDim
  lastVec : p.stage.opt.state.lastVec ≠ [] →
    p.stage.opt.state.lastVec.length = p.state.globals.featureDim

theorem Space.vectorsFit (h : Space setup p.view) (hcommitted : p.state.mask.tpeInitCommitted) :
    VectorsFit p := by
  have hsettled : Settled p.view := h.stage.resolve_left fun hblank =>
    absurd (hblank.uncommitted.symm.trans hcommitted) Bool.false_ne_true
  exact
    { currentV := hsettled.currentV
      candidates := h.pool
      history := fun history hh =>
        ⟨(h.history history hh).trials, (h.history history hh).lastVec.resolve_left⟩
      initV := hsettled.initV
      trials := h.opt.trials
      bestFixed := h.opt.bestFixed.resolve_left
      lastVec := h.opt.lastVec.resolve_left }

/-- The mask, the names and the dimension agree at all times; while the process runs, every stored
    vector has the dimension once the initialization is committed, and neither the next call nor
    the next restart can fail a dimension check. -/
structure OneSpace (setup : Setup F) [Draw F G] (w : World F G) : Prop where
  names : w.proc.state.globals.featureDim = w.proc.state.globals.activeFeatureNames.length
  bits : w.proc.state.globals.featureDim = w.proc.state.globals.vecMask.count true
  mask : w.proc.state.mask.effectiveMask = w.proc.state.globals.vecMask
  vectors : w.alive → w.proc.state.mask.tpeInitCommitted → VectorsFit w.proc
  validates : w.alive → validateCommittedVectorDimensions w.proc.state = .ok ()
  performs : w.alive → ∀ env e q, perform env w.proc = .error e q → e.isDimension = false
  resumes : w.alive → ∀ e,
    initializeVecMaskState w.proc.state setup.schema setup.config true = .error e →
    e.isDimension = false

variable [Draw F G]

/-- One coordinate space for each run: from a new run of any mode on, through calls, testcases and
    restarts with the same setup. -/
theorem one_coordinate_space (rawMask : Option String) (creditTopK : ℕ) {now : ℕ}
    {map : FeatureMap F} {s : State F}
    (hconfig : resolveVecMaskConfig rawMask creditTopK setup.schema.features.length = .ok setup.config)
    (hmap : setup.canonicalMap = some map) (hs : startup setup now none = .ok s) (rng : G)
    (acts : List (Act F G)) :
    OneSpace setup (Run.run (World.step (resume fun _ => setup)) (World.start setup rng s) acts) := by
  have hexplicit : setup.config.mode = .explicit → ∀ mask, setup.config.explicitMask = some mask →
      mask.length = setup.schema.features.length := by
    intro hmode mask hmask
    have hok := resolveVecMaskConfig_ok hconfig
    rw [hmode] at hok
    obtain ⟨m, hm, hlen, _⟩ := hok
    rw [Option.some.inj (hmask.symm.trans hm), hlen]
  have hstart := start_space hexplicit hmap hs rng
  obtain ⟨hspace, hdims⟩ := Run.along_induct (C := fun _ _ => True)
    (World.step_inv (resume fun _ => setup) (I := fun p : Proc F G => Space setup p.view)
      (J := fun p => Dims p.view) (fun _ h => h.toDims)
      (fun p env h _ => (perform_keeps env h).mono (fun _ _ hq => hq) (fun _ _ hq => hq.2))
      (fun p covered h => append_keeps covered h) (fun _ _ h => h)
      (fun p rng now t params h _ ht => restart_keeps hmap h (resume_eq ht) params rng))
    acts (World.start setup rng s) ⟨fun _ => hstart, hstart.toDims⟩
    (Run.along_of_forall fun _ _ _ => trivial)
  refine ⟨hdims.names.symm, hdims.dim, hdims.effective, fun ha => (hspace ha).vectorsFit,
    fun ha => (hspace ha).validates, fun ha env e q he => ?_, fun ha e => resume_error (hspace ha)⟩
  have hcall := perform_keeps env (hspace ha)
  rw [KeepsSpace, Spec, he] at hcall
  exact hcall.1

theorem one_coordinate_space_demo : VectorsFit (Demo.resumed Demo.publishedThenRestarted).proc :=
  (one_coordinate_space none 1 rfl rfl Demo.startup_eq []
    Demo.publishedThenRestarted).vectors (by decide +kernel) (by decide +kernel)

end Bofuzz
