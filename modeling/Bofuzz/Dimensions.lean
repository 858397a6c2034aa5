import Bofuzz.Control
import Bofuzz.LengthChecks

/-! The coordinate space of a process.

    The active features change once, when the auto-credit mode commits its mask. Before the commit
    nothing but credits and the candidate file is stored (`Blank`); after it every vector that is
    stored anywhere has the active dimension (`Settled`). `View` is the part of a process that this
    is about, `Space` the invariant. Every operation of the stage keeps it, and none of the
    errors that a vector of a wrong length would raise is ever raised. -/

namespace Bofuzz
open F64 Effect TpeStage List Bool TpePhase

variable {F G : Type} [F64 F]

/-! ### The coordinate space -/

/-- The masks and vectors of a process. -/
structure View (F : Type) [F64 F] where
  features : List FeatureSpec
  vecMask : List Bool
  names : List String
  dim : ℕ
  satisfied : Bool
  runtime : Option (VecMaskRuntimeMeta F)
  phase : TpePhase
  currentV : List F
  pool : List (List F)
  history : Option (TpeHistoryMeta F)
  credit : Option (CreditMeta F)
  opt : TpeState F
  worker : Option (CorpusWeightSnapshot F)
  rx : Option (CorpusWeightSnapshot F)

variable (c : View F)

def View.mask : VecMaskRuntimeMeta F := c.runtime.getD {}

def Proc.view (p : Proc F G) : View F where
  features := p.state.globals.schemaFeatures
  vecMask := p.state.globals.vecMask
  names := p.state.globals.activeFeatureNames
  dim := p.state.globals.featureDim
  satisfied := p.state.globals.tpeSatisfied
  runtime := p.state.runtime
  phase := p.state.phase
  currentV := p.state.globals.currentV
  pool := p.state.globals.vCandidates
  history := p.state.history
  credit := p.state.exploreCredit
  opt := p.stage.opt.state
  worker := p.stage.pendingWorker
  rx := p.stage.resultRx

/-- The dimension, the names and the mask agree. -/
structure Dims : Prop where
  dim : c.dim = c.vecMask.count true
  names : c.names.length = c.dim
  effective : c.mask.effectiveMask = c.vecMask

/-- What holds of the space and of the vectors in it at all times. -/
structure Body (setup : Setup F) (c : View F) : Prop extends Dims c where
  features : c.features = setup.schema.features
  length : c.vecMask.length = setup.schema.features.length
  runtime : c.runtime.isSome
  mode : c.mask.mode = setup.config.mode
  full : c.mask.mode = .full ∨ (c.mask.mode = .autoCredit ∧ c.mask.tpeInitCommitted = false) →
    c.vecMask = List.replicate setup.schema.features.length true
  nonempty : c.satisfied → 0 < c.dim
  pool : AllDim c.dim c.pool
  history : ∀ h ∈ c.history, HistoryFits c.dim h
  opt : OptFits c.dim c.opt

/-- Before the commit there are credits and the candidate file, and nothing else. -/
structure Blank : Prop where
  uncommitted : c.mask.tpeInitCommitted = false
  phase : c.phase = .explore
  currentV : c.currentV = []
  history : c.history = none
  trials : c.opt.trials = []
  lastVec : c.opt.lastVec = []
  bestFixed : c.opt.bestFixed = []
  credit : ∀ m ∈ c.credit, Fits c.dim m.credits
  loaded : c.mask.candidateFileLoaded → c.pool ≠ []

/-- What the commit leaves in the metadata. -/
structure Initialized : Prop where
  committed : c.mask.tpeInitCommitted
  initV : c.mask.normalizedCreditInitV.length = c.dim

/-- From the first recompute on a vector is in force. -/
structure Settled : Prop extends Initialized c where
  phase : c.phase ≠ .explore
  currentV : c.currentV.length = c.dim

structure Space (setup : Setup F) (c : View F) : Prop extends Body setup c where
  channel : c.worker = c.rx
  busy : c.worker ≠ none → c.phase = .pendingRecompute
  stage : Blank c ∨ Settled c

variable {setup : Setup F} {c : View F}

/-- The vectors may be replaced by others that fit, the rest of the view by anything. -/
theorem Body.update (h : Body setup c) {phase : TpePhase} {currentV : List F} {pool : List (List F)}
    {history : Option (TpeHistoryMeta F)} {credit : Option (CreditMeta F)} {opt : TpeState F}
    {worker rx : Option (CorpusWeightSnapshot F)} (hpool : AllDim c.dim pool)
    (hhistory : ∀ h ∈ history, HistoryFits c.dim h) (hopt : OptFits c.dim opt) :
    Body setup { c with phase, currentV, pool, history, credit, opt, worker, rx } :=
  ⟨⟨h.dim, h.names, h.effective⟩, h.features, h.length, h.runtime, h.mode, h.full, h.nonempty,
    hpool, hhistory, hopt⟩

variable {p : Proc F G}

theorem Body.pos (h : Body setup p.view) (hgate : gate p.state) : 0 < p.view.dim := by
  simp only [gate, and_eq_true] at hgate
  exact h.nonempty hgate.2

theorem Space.settled (h : Space setup c) (hphase : c.phase ≠ .explore) : Settled c :=
  h.stage.resolve_left fun hblank => hphase hblank.phase

theorem Space.blank (h : Space setup c) (hphase : c.phase = .explore) : Blank c :=
  h.stage.resolve_right fun hsettled => hsettled.phase hphase

/-- Once a vector is in force, the optimizer and the pool may be replaced by others that fit. -/
theorem Space.update (h : Space setup c) (hphase : c.phase ≠ .explore) {opt : TpeState F}
    {pool : List (List F)} (hopt : OptFits c.dim opt) (hpool : AllDim c.dim pool) :
    Space setup { c with opt, pool } := by
  have hsettled := h.settled hphase
  exact ⟨h.toBody.update hpool h.history hopt, h.channel, h.busy,
    .inr ⟨⟨hsettled.committed, hsettled.initV⟩, hphase, hsettled.currentV⟩⟩

theorem Space.idle (h : Space setup c) (hphase : c.phase ≠ .pendingRecompute) :
    c.worker = none := by
  by_contra hworker
  exact hphase (h.busy hworker)

/-- The dimension check of a committed state passes. -/
theorem Body.validates (h : Body setup p.view) (hv : Fits p.view.dim p.view.currentV)
    (hinit : p.view.mask.tpeInitCommitted → p.view.mask.normalizedCreditInitV.length = p.view.dim) :
    validateCommittedVectorDimensions p.state = .ok () := by
  have hpool : firstWrongLength p.state.globals.featureDim 0 p.state.globals.vCandidates = none :=
    firstWrongLength_eq_none.mpr h.pool
  have htrials : firstWrongLength p.state.globals.featureDim 0
      ((p.state.history.map (·.trials)).getD [] |>.map (·.1)) = none := by
    refine firstWrongLength_eq_none.mpr fun v hv => ?_
    cases hhist : p.state.history with
    | none => rw [hhist] at hv; cases hv
    | some history =>
      rw [hhist] at hv
      obtain ⟨t, ht, rfl⟩ := mem_map.mp hv
      exact (h.history history hhist).trials t ht
  unfold validateCommittedVectorDimensions
  rw [if_neg fun hne => hne.2 (hv.resolve_left hne.1), hpool, htrials]
  simp only [State.runtime_eq h.runtime]
  rw [if_neg fun hne => hne.2 (hinit hne.1)]

theorem Space.validates (h : Space setup p.view) :
    validateCommittedVectorDimensions p.state = .ok () := by
  rcases h.stage with hblank | hsettled
  · refine h.toBody.validates (.inl hblank.currentV) fun hcommitted => ?_
    exact absurd (hblank.uncommitted.symm.trans hcommitted) false_ne_true
  · exact h.toBody.validates (.inr hsettled.currentV) fun _ => hsettled.initV

/-- An error that is none of the dimension checks', with the space intact. -/
def Harmless (e : Error) (c : View F) : Prop := e.isDimension = false ∧ Dims c

/-- A computation that ends in the space or fails harmlessly. -/
abbrev KeepsSpace {α : Type} (setup : Setup F) (m : EStateM Error (Proc F G) α)
    (p : Proc F G) : Prop :=
  Spec m p (fun _ q => Space setup q.view) (fun e q => Harmless e q.view)

/-! ### Exports, recomputes and their results -/

variable (env : Env)

theorem export_view (force : Bool) (p : Proc F G) :
    Spec (Proc.onState (maybeExportRuntimeData env force)) p
      (fun _ q => q.view = p.view) (fun e q => e.isDimension = false ∧ q.view = p.view) := by
  simp only [spec_onState, maybeExportRuntimeData, spec_bind, spec_get]
  split_ifs
  · exact rfl
  · exact rfl
  · exact ⟨rfl, rfl⟩
  · exact rfl

section
variable (h : Space setup p.view)
include h

theorem report_keeps : KeepsSpace setup (report env) p := by
  unfold report
  split_ifs
  · exact ⟨rfl, h.toDims⟩
  · exact h

theorem export_report_keeps :
    KeepsSpace setup (do Proc.onState (maybeExportRuntimeData env true); report env) p := by
  simp only [KeepsSpace, spec_bind]
  refine (export_view env true p).mono (fun _ q hq => report_keeps env (hq ▸ h)) ?_
  rintro e q ⟨he, hq⟩
  exact ⟨he, hq ▸ h.toDims⟩

theorem persistThenReport_keeps (hphase : p.view.phase ≠ .explore) :
    KeepsSpace setup (do
      modify fun p => p.persist env.persistNow
      Proc.onState (maybeExportRuntimeData env true)
      report env) p := by
  have hspace : Space setup (p.persist env.persistNow).view := by
    have hsettled := h.settled hphase
    refine ⟨h.toBody.update h.pool ?_ h.opt, h.channel, h.busy,
      .inr ⟨⟨hsettled.committed, hsettled.initV⟩, hphase, hsettled.currentV⟩⟩
    rintro _ ⟨⟩
    exact h.opt.persist _ _
  simp only [KeepsSpace, spec_bind, spec_modify]
  simpa only [KeepsSpace, spec_bind] using export_report_keeps env hspace

/-- A result is published or dropped; either way only the worker and the history change. -/
theorem poll_keeps (hphase : p.view.phase = .pendingRecompute) (hworker : p.view.worker ≠ none) :
    KeepsSpace setup (pollPending env) p := by
  have hsettled := h.settled (hphase.trans_ne noConfusion)
  simp only [KeepsSpace, pollPending, spec_bind, spec_get]
  split
  · next hrx => exact absurd (h.channel.trans hrx) hworker
  split
  · exact h
  · exact ⟨rfl, h.dim, h.names, h.effective⟩
  · split_ifs
    · exact ⟨h.toBody.update h.pool h.history h.opt, rfl, fun hw => absurd rfl hw,
        .inr ⟨⟨hsettled.committed, hsettled.initV⟩, hsettled.phase, hsettled.currentV⟩⟩
    simp only [spec_bind, spec_onState, spec_modify, spec_pure]
    refine (publish_corpusOnly _ _).mono ?_ ?_
    · rintro _ _ ⟨_, _, rfl⟩
      refine ⟨h.toBody.update h.pool ?_ h.opt, rfl, fun hw => absurd rfl hw,
        .inr ⟨⟨hsettled.committed, hsettled.initV⟩, noConfusion, hsettled.currentV⟩⟩
      rintro _ ⟨⟩
      exact h.opt.persist _ _
    · rintro e _ ⟨⟨_, _, rfl⟩, he⟩
      exact ⟨Error.isDimension_of_isPublishing he, h.dim, h.names, h.effective⟩

theorem performPendingRecompute_keeps (hphase : p.view.phase = .pendingRecompute)
    (hworker : p.view.worker ≠ none) : KeepsSpace setup (performPendingRecompute env) p := by
  simp only [KeepsSpace, performPendingRecompute, spec_bind]
  refine (poll_keeps env h hphase hworker).imp fun published q hq => ?_
  cases published with
  | true => exact report_keeps env hq
  | false => exact hq

/-! ### Restoring and repairing -/

theorem restore_keeps : Space setup p.restore.view := by
  have hopt : OptFits p.view.dim p.restore.view.opt := h.opt.restoreOnce h.history
  rcases h.stage with hblank | hsettled
  · have hsame : p.restore.view.opt.trials = p.view.opt.trials ∧
        p.restore.view.opt.lastVec = p.view.opt.lastVec ∧
        p.restore.view.opt.bestFixed = p.view.opt.bestFixed := by
      rw [show p.restore.view.opt = p.view.opt.restoreOnce p.view.history from rfl, hblank.history]
      unfold TpeState.restoreOnce
      split_ifs <;> exact ⟨rfl, rfl, rfl⟩
    exact ⟨h.toBody.update h.pool h.history hopt, h.channel, h.busy, .inl ⟨hblank.uncommitted,
      hblank.phase, hblank.currentV, hblank.history, hsame.1.trans hblank.trials,
      hsame.2.1.trans hblank.lastVec, hsame.2.2.trans hblank.bestFixed, hblank.credit, hblank.loaded⟩⟩
  · exact h.update hsettled.phase hopt h.pool

/-- The repair of a pending recompute leads to the active window: a vector is in force. -/
theorem repair_keeps (hpos : 0 < p.view.dim) : Space setup p.restore.repair.view := by
  have hspace := restore_keeps h
  have hdim : 0 < p.restore.view.dim := hpos
  generalize p.restore = q at hspace hdim ⊢
  unfold Proc.repair
  split_ifs with hpending hv
  · have hphase : q.view.phase = .pendingRecompute := hpending.1
    have hsettled := hspace.settled (hphase.trans_ne noConfusion)
    rw [← hsettled.currentV, show q.view.currentV = [] from hv] at hdim
    exact absurd hdim (lt_irrefl 0)
  · have hphase : q.view.phase = .pendingRecompute := hpending.1
    have hsettled := hspace.settled (hphase.trans_ne noConfusion)
    have hidle : q.view.worker = none := Option.isNone_iff_eq_none.mp hpending.2
    exact ⟨hspace.toBody.update hspace.pool hspace.history hspace.opt, hspace.channel,
      fun hw => absurd hidle hw,
      .inr ⟨⟨hsettled.committed, hsettled.initV⟩, noConfusion, hsettled.currentV⟩⟩
  · exact hspace

end

/-! ### Vectors that are put in force -/

section
variable (hbody : Body setup p.view)
include hbody

theorem closeWindow_view (hv : p.view.currentV.length = p.view.dim) (startMs now : ℕ) :
    ∃ opt, OptFits p.view.dim opt ∧ (closeWindow p startMs now).view = { p.view with opt } := by
  unfold closeWindow
  dsimp only
  split_ifs
  · exact ⟨_, hbody.opt, rfl⟩
  · exact ⟨_, hbody.opt.observeTrial _ hv _ _ _, rfl⟩
  · exact ⟨_, hbody.opt, rfl⟩
  · exact ⟨_, hbody.opt.observeTrial _ hv _ _ _, rfl⟩

theorem takeUntried_view :
    Spec takeUntried p (fun v q => (∀ u ∈ v, u.length = p.view.dim) ∧
      ∃ pool, AllDim p.view.dim pool ∧ q.view = { p.view with pool }) (fun _ _ => False) := by
  obtain ⟨hv, hpool⟩ := p.stage.opt.nextUntried_dim hbody.pool
  obtain ⟨vs, hvs⟩ := p.stage.opt.nextUntried_poolOnly p.state
  simp only [takeUntried, spec_modifyGet]
  refine ⟨hv, vs, ?_, ?_⟩
  · rw [hvs] at hpool; exact hpool
  · rw [hvs]; rfl

variable {v : List F} (hinit : Initialized p.view) (hworker : p.view.worker = none)
  (hv : v.length = p.view.dim)
include hinit hworker hv

/-- A recompute for a vector of the active dimension passes the dimension check and puts a vector
    of that dimension in force. -/
theorem start_settles :
    Spec (startPendingRecompute v) p (fun _ q => Space setup q.view ∧ q.view.phase ≠ .explore)
      (fun e q => Harmless e q.view) := by
  simp only [startPendingRecompute, spec_bind, spec_get]
  rw [if_neg (by rw [show p.stage.pendingWorker = none from hworker]; exact false_ne_true)]
  split_ifs
  · exact ⟨rfl, hbody.toDims⟩
  simp only [spec_bind, spec_ofResult, spec_set]
  refine ⟨fun s hs => ?_, fun e he => ⟨applyVToFeatures_error hv he, hbody.toDims⟩⟩
  obtain ⟨_, w, hw, rfl⟩ := applyVToFeatures_ok hs
  refine ⟨⟨hbody.update hbody.pool hbody.history (hbody.opt.setLastVec hv), rfl, fun _ => rfl,
    .inr ⟨⟨hinit.committed, hinit.initV⟩, ?_, (normalizeSimplexEps_length hw).trans hv⟩⟩, ?_⟩ <;>
    exact noConfusion

theorem startThenReport_keeps :
    KeepsSpace setup (do
      startPendingRecompute v
      Proc.onState (maybeExportRuntimeData env true)
      report env) p := by
  simp only [KeepsSpace, spec_bind]
  refine (start_settles hbody hinit hworker hv).imp fun _ q hq => ?_
  simpa only [KeepsSpace, spec_bind] using export_report_keeps env hq.1

end

/-! ### The commit -/

/-- Right after the commit: there is a candidate, and nothing is in force yet. -/
structure Ready (setup : Setup F) (c : View F) : Prop extends Body setup c, Initialized c where
  candidate : c.pool ≠ []
  currentV : c.currentV = []
  worker : c.worker = none

/-- A computation that ends ready or fails harmlessly. -/
abbrev EndsReady (setup : Setup F) (m : EStateM Error (Proc F G) Unit) (p : Proc F G) : Prop :=
  Spec m p (fun _ q => Ready setup q.view) (fun e q => Harmless e q.view)

variable {runtime : VecMaskRuntimeMeta F}

/-- Committing a mask that is in force already. -/
theorem Body.commit (h : Body setup c)
    (heffective : runtime.effectiveMask = c.vecMask) (hmode : runtime.mode = c.mask.mode)
    (hcommitted : runtime.tpeInitCommitted) : Body setup { c with runtime := some runtime } := by
  refine ⟨⟨h.dim, h.names, heffective⟩, h.features, h.length, rfl, hmode.trans h.mode, ?_, h.nonempty,
    h.pool, h.history, h.opt⟩
  rintro (hfull | ⟨_, hno⟩)
  · exact h.full (.inl (hmode.symm.trans hfull))
  · exact absurd (hno.symm.trans hcommitted) false_ne_true

/-- The credits Explore has collected, in the active coordinates. -/
theorem Blank.credits (h : Blank p.view) :
    Fits p.view.dim ((p.state.exploreCredit.map (·.credits)).getD []) := by
  cases hcredit : p.state.exploreCredit with
  | none => exact .inl rfl
  | some m => exact h.credit m hcredit

/-- The space that the auto-credit mode installs: nothing of the old one is left in it. -/
theorem installed_body {s : State F} {schema : FeatureSchemaFile} {mask : List Bool}
    (h : Space setup p.view) (hblank : Blank p.view)
    (hs : installCommittedRuntimeMask p.state schema mask = .ok s)
    (hschema : schema.features = setup.schema.features) (hmode : runtime.mode = .autoCredit)
    (hsame : runtime.mode = p.view.mask.mode) (heffective : runtime.effectiveMask = mask)
    (hcommitted : runtime.tpeInitCommitted) :
    Body setup ({ p with state := { s with runtime := some runtime } } : Proc F G).view := by
  obtain ⟨hlen, hne, rfl⟩ := installCommittedRuntimeMask_ok hs
  refine
    { dim := computeActiveFeatures_length hlen
      names := length_map _
      effective := heffective
      features := hschema
      length := hlen.trans (congrArg length hschema)
      runtime := rfl
      mode := hsame.trans h.mode
      full := ?_
      nonempty := fun _ => length_pos_of_ne_nil hne
      pool := allDim_nil
      history := fun history hh => ?_
      opt := ⟨fun u hu => ?_, .inl hblank.lastVec, .inl hblank.bestFixed⟩ }
  · rintro (hfull | ⟨_, hno⟩)
    · exact nomatch hmode.symm.trans hfull
    · exact absurd (hno.symm.trans hcommitted) false_ne_true
  · exact nomatch hblank.history.symm.trans hh
  · have hu : u ∈ p.view.opt.trials := hu
    rw [hblank.trials] at hu
    cases hu

section
variable [Draw F G]

section
variable {normalized : List F} (hv : p.view.currentV = []) (hworker : p.view.worker = none)
  (hlen : normalized.length = p.view.dim) (hpos : 0 < p.view.dim)
include hv hworker hlen hpos

/-- Enqueuing the committed center gives the candidate to start with. -/
theorem enqueueInit_ready (hbody : Body setup p.view) (hinit : Initialized p.view) :
    EndsReady setup (enqueueInit normalized) p := by
  simp only [EndsReady, enqueueInit, spec_bind, spec_get, spec_ofResult, spec_set]
  refine ⟨fun a ha => ?_, fun e he => ⟨enqueueExact_error hlen he, hbody.toDims⟩⟩
  obtain ⟨t, g⟩ := a
  obtain ⟨vs, hvs⟩ := TpeOptimizer.enqueueExact_poolOnly ha
  obtain ⟨hpool, hne⟩ := TpeOptimizer.enqueueExact_pool ha hbody.pool hpos
  obtain rfl : t = _ := hvs
  exact ⟨hbody.update hpool hbody.history hbody.opt, ⟨hinit.committed, hinit.initV⟩, hne, hv, hworker⟩

theorem commitInit_ready (hbody : Body setup { p.view with runtime := some runtime })
    (hinit : Initialized { p.view with runtime := some runtime })
    (hloaded : runtime.candidateFileLoaded → p.view.pool ≠ []) :
    EndsReady setup (commitInit runtime normalized) p := by
  simp only [EndsReady, commitInit, spec_bind, spec_onState, spec_modify]
  split_ifs with hfile
  · exact ⟨hbody, hinit, hloaded hfile, hv, hworker⟩
  · exact enqueueInit_ready hv hworker hlen hpos (hbody.update allDim_nil hbody.history hbody.opt)
      ⟨hinit.committed, hinit.initV⟩

end

variable {raw : List F} (h : Space setup p.view)
include h

theorem commitAutoCredit_ready (hblank : Blank p.view) (hraw : Fits p.view.dim raw)
    (hmode : p.view.mask.mode = .autoCredit) :
    EndsReady setup (commitAutoCredit p.state.mask raw) p := by
  have hworker := h.idle (hblank.phase.trans_ne noConfusion)
  -- until the commit the mask is full, so that the credits are those of the whole schema
  have hdim : p.view.dim = (schemaFromState p.state).features.length := by
    rw [h.dim, h.full (.inr ⟨hmode, hblank.uncommitted⟩), count_replicate_self]
    exact congrArg length h.features.symm
  rw [hdim] at hraw
  obtain ⟨credits, hcredits, hlen⟩ := creditsWithDim_eq hraw "auto-credit"
  simp only [EndsReady, commitAutoCredit, spec_bind, spec_get, hcredits, spec_ofResult_ok, spec_onState, spec_modify]
  refine (spec_ofResult _).mpr ⟨fun selected hselected => ?_, fun e he => ?_⟩
  · refine ((installSelection_spec _ credits selected p.state).and (installSelection_error hlen
      (eq_ok_of_mapError hselected) p.state)).mono ?_ ?_
    · rintro selection s ⟨⟨hs, hnorm⟩, -⟩
      obtain ⟨_, hne, hstate⟩ := installCommittedRuntimeMask_ok hs
      refine enqueueInit_ready (congrArg (·.globals.currentV) hstate) hworker hnorm ?_
        (installed_body h hblank hs h.features hmode rfl rfl rfl) ⟨rfl, hnorm⟩
      rw [hstate]
      exact length_pos_of_ne_nil hne
    · rintro e _ ⟨-, rfl, he⟩
      exact ⟨he, h.toDims⟩
  · exact ⟨isDimension_of_mapError (fun m hm => selectPositiveCreditTopKMask_error hm) he, h.toDims⟩

variable (hpos : 0 < p.view.dim)
include hpos

theorem commitFull_ready (hblank : Blank p.view) (hraw : Fits p.view.dim raw)
    (hmode : p.view.mask.mode = .full) : EndsReady setup (commitFull p.state.mask raw) p := by
  have hworker := h.idle (hblank.phase.trans_ne noConfusion)
  obtain ⟨credits, hcredits, hlen⟩ := creditsWithDim_eq hraw "full"
  simp only [EndsReady, commitFull, spec_bind, spec_get]
  split_ifs
  · exact ⟨rfl, h.toDims⟩
  rw [show creditsWithDim raw p.state.globals.featureDim _ = _ from hcredits]
  simp only [spec_bind, spec_ofResult_ok]
  refine (spec_ofResult _).mpr ⟨fun a ha => ?_, fun e he => ?_⟩
  · have hnorm := (normalizeCredit_length (eq_ok_of_mapError ha)).trans hlen
    refine commitInit_ready hblank.currentV hworker hnorm hpos (h.toBody.commit ?_ rfl rfl)
      ⟨rfl, hnorm⟩ hblank.loaded
    rw [h.full (.inl hmode)]
    exact congrArg (fun features => replicate (length features) true) h.features
  · exact ⟨isDimension_of_mapError (fun m hm => (normalizeCredit_error hm).1) he, h.toDims⟩

theorem commitExplicit_ready (hblank : Blank p.view) (hraw : Fits p.view.dim raw) :
    EndsReady setup (commitExplicit p.state.mask raw) p := by
  have hworker := h.idle (hblank.phase.trans_ne noConfusion)
  obtain ⟨credits, hcredits, hlen⟩ := creditsWithDim_eq hraw "explicit"
  simp only [EndsReady, commitExplicit, spec_bind, spec_get]
  split
  · exact ⟨rfl, h.toDims⟩
  split_ifs with hrequested
  · exact ⟨rfl, h.toDims⟩
  rw [show creditsWithDim raw p.state.globals.featureDim _ = _ from hcredits]
  simp only [spec_bind, spec_ofResult_ok]
  refine (spec_ofResult _).mpr ⟨fun a ha => ?_, fun e he => ?_⟩
  · have hnorm := (normalizeCredit_length (eq_ok_of_mapError ha)).trans hlen
    exact commitInit_ready hblank.currentV hworker hnorm hpos
      (h.toBody.commit (not_not.mp hrequested).symm rfl rfl) ⟨rfl, hnorm⟩ hblank.loaded
  · exact ⟨isDimension_of_mapError (fun m hm => (normalizeCredit_error hm).1) he, h.toDims⟩

/-- The commit ends ready, or fails for a reason of its own with the space intact. -/
theorem commit_ready (hphase : p.view.phase = .explore) :
    EndsReady setup commitMaskAndTpeInitializationBeforeFirstTpe p := by
  have hblank := h.blank hphase
  have hraw := hblank.credits
  have hvalid : ∀ q : Proc F G, Ready setup q.view →
      (∀ a, validateCommittedVectorDimensions q.state = .ok a → Ready setup q.view) ∧
      (∀ e, validateCommittedVectorDimensions q.state = .error e → Harmless e q.view) := by
    intro q hq
    have hok := hq.toBody.validates (.inl hq.currentV) fun _ => hq.initV
    exact ⟨fun _ _ => hq, fun e he => nomatch hok.symm.trans he⟩
  simp only [EndsReady, commitMaskAndTpeInitializationBeforeFirstTpe, spec_bind, spec_get]
  split_ifs with hcommitted
  · exact absurd (hblank.uncommitted.symm.trans hcommitted) false_ne_true
  split <;> simp only [spec_bind, spec_get, spec_ofResult]
  · next hmode =>
    exact (commitFull_ready h hpos hblank hraw hmode).imp fun _ q => hvalid q
  · exact (commitExplicit_ready h hpos hblank hraw).imp fun _ q => hvalid q
  · next hmode =>
    exact (commitAutoCredit_ready h hblank hraw hmode).imp fun _ q => hvalid q

/-! ### The phases -/

theorem suggest_keeps (hphase : p.view.phase ≠ .explore) :
    Spec suggest p (fun v q => (∀ u ∈ v, u.length = q.view.dim) ∧ Space setup q.view ∧
      q.view.phase = p.view.phase) (fun _ _ => False) := by
  obtain ⟨hv, hpool⟩ := p.stage.opt.suggestNext_dim h.pool p.stage.rng h.opt hpos rfl
  obtain ⟨⟨vs, hvs⟩, hopt⟩ := p.stage.opt.suggestNext_frame p.state p.stage.rng
  simp only [suggest, spec_modifyGet]
  generalize p.stage.opt.suggestNext p.state p.stage.rng = answer at hv hpool hvs hopt ⊢
  obtain ⟨v, opt, s, g⟩ := answer
  subst hvs
  refine ⟨hv, h.update hphase ?_ hpool, rfl⟩
  rcases hopt with rfl | rfl
  · exact h.opt
  · exact h.opt.lock

theorem performExplore_keeps (hphase : p.view.phase = .explore) :
    KeepsSpace setup (performExplore env) p := by
  simp only [KeepsSpace, performExplore, spec_bind, spec_get]
  split
  · simp only [spec_bind]
    refine (export_view env false p).mono (fun _ q hq => ?_) (fun e q he => ⟨he.1, he.2 ▸ h.toDims⟩)
    have hspace : Space setup q.view := hq ▸ h
    split_ifs
    · exact report_keeps env hspace
    · exact hspace
  · simp only [spec_bind, spec_get]
    refine (commit_ready h hpos hphase).imp fun _ q hq => ?_
    rw [if_neg (show q.state.globals.vCandidates ≠ [] from hq.candidate)]
    simp only [spec_bind]
    refine (takeUntried_view hq.toBody).total ?_
    rintro v r ⟨hv, pool, hpool, hr⟩
    have hbody : Body setup r.view := hr ▸ hq.toBody.update hpool hq.history hq.opt
    cases v with
    | none => exact ⟨rfl, hbody.toDims⟩
    | some candidate =>
      refine startThenReport_keeps env hbody ?_ ?_ ?_
      · rw [hr]; exact ⟨hq.committed, hq.initV⟩
      · rw [hr]; exact hq.worker
      · rw [hr]; exact hv candidate rfl

theorem performActiveWindow_keeps (hphase : p.view.phase = .activeWindow) :
    KeepsSpace setup (performActiveWindow env) p := by
  have hne : p.view.phase ≠ .explore := hphase.trans_ne noConfusion
  simp only [KeepsSpace, performActiveWindow, spec_bind, spec_get]
  split
  · exact h
  · next startMs _ =>
    split
    · exact h
    simp only [spec_bind, spec_set]
    obtain ⟨opt, hopt, hclose⟩ :=
      closeWindow_view h.toBody (h.settled hne).currentV startMs env.now
    generalize closeWindow p startMs env.now = q at hclose ⊢
    have hq : Space setup q.view := hclose ▸ h.update hne hopt h.pool
    have hqphase : q.view.phase = .activeWindow := by rw [hclose]; exact hphase
    have hqpos : 0 < q.view.dim := by rw [hclose]; exact hpos
    refine (suggest_keeps hq hqpos (hqphase.trans_ne noConfusion)).total ?_
    rintro v r ⟨hv, hr, hrphase⟩
    rw [hqphase] at hrphase
    have hsettled := hr.settled (hrphase.trans_ne noConfusion)
    have hidle := hr.idle (hrphase.trans_ne noConfusion)
    cases v with
    | some next =>
      simp only [spec_bind]
      refine (start_settles hr.toBody hsettled.toInitialized hidle (hv next rfl)).mono
        (fun _ u hu => ?_) (fun _ _ he => he)
      simpa only [KeepsSpace, spec_bind] using persistThenReport_keeps env hu.1 hu.2
    | none =>
      have hlocked : Space setup ((r.setTpe r.stage.opt.state.lock).setPhase .lockedBest).view :=
        ⟨hr.toBody.update hr.pool hr.history hr.opt.lock, hr.channel, fun hw => absurd hidle hw,
          .inr ⟨⟨hsettled.committed, hsettled.initV⟩, noConfusion, hsettled.currentV⟩⟩
      simpa only [KeepsSpace, spec_bind, spec_modify] using
        persistThenReport_keeps env hlocked noConfusion

theorem performLockedBest_keeps (hphase : p.view.phase = .lockedBest) :
    KeepsSpace setup (performLockedBest env) p := by
  have hne : p.view.phase ≠ .explore := hphase.trans_ne noConfusion
  simp only [KeepsSpace, performLockedBest, spec_bind, spec_get]
  split
  · exact h
  split
  · exact h
  have hinverse := p.stage.opt.enqueueInverse_dim h.pool p.stage.rng h.opt hpos
  obtain ⟨⟨vs, hvs⟩, hopt⟩ := p.stage.opt.enqueueInverse_frame p.state p.stage.rng
  generalize p.stage.opt.enqueueInverseCandidates p.state p.stage.rng = answer
    at hinverse hvs hopt ⊢
  obtain ⟨opt, s, g⟩ := answer
  subst hvs
  have hfits : OptFits p.view.dim opt.state := by
    rcases hopt with rfl | rfl
    · exact h.opt
    · exact h.opt.unlock
  have hspace := h.update hne hfits hinverse
  simp only [spec_bind, spec_set]
  refine (export_view env true _).mono (fun _ q hq => ?_)
    (fun e q he => ⟨he.1, he.2 ▸ hspace.toDims⟩)
  have hq : q.view = { p.view with opt := opt.state, pool := vs } := hq
  refine (suggest_keeps (hq ▸ hspace) (by rw [hq]; exact hpos) (by rw [hq]; exact hne)).total ?_
  rintro v r ⟨hv, hr, hrphase⟩
  rw [hq, show (View.phase { p.view with opt := opt.state, pool := vs }) = .lockedBest from hphase]
    at hrphase
  cases v with
  | some next =>
    have hsettled := hr.settled (hrphase.trans_ne noConfusion)
    have hidle := hr.idle (hrphase.trans_ne noConfusion)
    exact (start_settles hr.toBody hsettled.toInitialized hidle (hv next rfl)).mono
      (fun _ _ hu => hu.1) (fun _ _ he => he)
  | none => exact hr

omit hpos in
/-- A call of the stage keeps the coordinate space and raises no dimension error. -/
theorem perform_keeps : KeepsSpace setup (perform env) p := by
  simp only [KeepsSpace, perform, spec_bind, spec_get]
  split
  · exact h
  · next hgate =>
    have hgate : gate p.state = true := by simpa using hgate
    have hspace := repair_keeps h (h.toBody.pos hgate)
    obtain ⟨hg, hstage, _, hworker⟩ := repair_frame p
    have hpos := hspace.toBody.pos (hg.trans hgate)
    simp only [spec_bind, spec_set]
    split
    · next hphase => exact performExplore_keeps env hspace hpos hphase
    · next hphase =>
      refine performPendingRecompute_keeps env hspace hphase ?_
      rw [show p.restore.repair.view.worker = p.restore.stage.pendingWorker from
        congrArg TpeStage.pendingWorker hstage]
      exact hworker hphase
    · next hphase => exact performActiveWindow_keeps env hspace hpos hphase
    · next hphase => exact performLockedBest_keeps env hspace hpos hphase

end

end Bofuzz
