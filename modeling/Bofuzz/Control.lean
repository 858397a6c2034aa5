import Bofuzz.Campaign
import Bofuzz.Lib.Refine

/-! The control part of the TPE stage, as an abstract machine.

    `Control` is what decides which vector is in force, whose weights are published and which
    window is open; `Control.Step` lists everything the stage does to it, one constructor for each
    place in the source. `perform_refines` says that a call of `perform` moves along such steps, so
    that an invariant of whole campaigns is proved constructor by constructor.

    Two places are guarded by parameters: the repair that takes a pending recompute of an earlier
    process for published (`R`) and the locking of the optimizer (`L`). -/

namespace Bofuzz
open F64 Effect TpeStage Relation

structure Control (F : Type) where
  gate : Bool
  mode : WeightComputeMode
  iter : TpeIterationMeta
  currentV : List F
  names : List String
  dim : ℕ
  matrix : Option (FeaturesMatrixMeta F)
  feats : Option (List F)
  history : Option (TpeHistoryMeta F)
  opt : TpeState F
  worker : Option (CorpusWeightSnapshot F)
  rx : Option (CorpusWeightSnapshot F)
  pendingIteration : Option ℕ
  trace : List (Event F)

variable {F G : Type} [F64 F]

/-- The control part of a process. -/
def Proc.control (p : Proc F G) : Control F where
  gate := gate p.state
  mode := p.state.mode
  iter := p.state.iter
  currentV := p.state.globals.currentV
  names := p.state.globals.activeFeatureNames
  dim := p.state.globals.featureDim
  matrix := p.state.featuresMatrix
  feats := p.state.featuresMap
  history := p.state.history
  opt := p.stage.opt.state
  worker := p.stage.pendingWorker
  rx := p.stage.resultRx
  pendingIteration := p.stage.pendingIteration
  trace := p.trace

namespace Control

def phase (c : Control F) : TpePhase := c.iter.phase

variable (c : Control F)

def setPhase (phase : TpePhase) : Control F :=
  { c with iter := { c.iter with phase } }

def record (e : Event F) : Control F := { c with trace := e :: c.trace }

/-- The worker is joined and its channel dropped. -/
def join : Control F := { c with worker := none, rx := none, pendingIteration := none }

/-- The scalar weights that putting `w` in force gives. -/
def siteWeights (w : List F) : List F :=
  match c.matrix with
  | some m => scalarWeights m w c.names
  | none => resize (c.feats.getD []) (c.feats.getD []).length

/-- A worker is started for the candidate `v`, which is put in force as `w`. -/
def begin (v w : List F) (snapshot : CorpusWeightSnapshot F) : Control F :=
  { c with
    currentV := w
    feats := some (c.siteWeights w)
    opt := c.opt.setLastVec v
    worker := some snapshot
    rx := some snapshot
    pendingIteration := some snapshot.iteration
    iter := { c.iter with
      currentIteration := snapshot.iteration
      pendingIteration := some snapshot.iteration
      phase := .pendingRecompute }
    trace := .started w c.matrix c.names snapshot :: c.trace }

/-- The result of a worker is published and its window opened. -/
def publish (snapshot : CorpusWeightSnapshot F) (now edges persistNow : ℕ) : Control F :=
  { c.join with
    iter := { c.iter with
      activeIteration := some snapshot.iteration
      pendingIteration := none
      phase := .activeWindow
      activeStartMs := some now
      activeStartEdges := some edges
      lastNewEdgesMs := some now }
    history := some (c.opt.persist c.history persistNow)
    trace := .published (computeWeights snapshot) edges :: c.trace }

/-- The trial of a window that ends with the given edge count. -/
def observe (startMs now edges : ℕ) : Control F :=
  let iteration := c.iter.activeIteration.getD c.iter.currentIteration
  let reward : F := F64.ofNat (edges - c.iter.activeStartEdges.getD edges)
  { c with
    opt := c.opt.observeTrial iteration c.currentV reward startMs now
    trace := .observed iteration c.currentV reward startMs now edges :: c.trace }

/-- Everything a call of the stage does to its control part. -/
inductive Step (R : Control F → Prop) (L : List (TpeTrial F) → List F → Prop) :
    Control F → Control F → Prop where
  | restore (c : Control F) : Step R L c { c with opt := c.opt.restoreOnce c.history }
  | repairExplore {c : Control F} (hphase : c.phase = .pendingRecompute) (hworker : c.worker = none)
      (hv : c.currentV = []) : Step R L c (c.setPhase .explore)
  | repairActive {c : Control F} (hphase : c.phase = .pendingRecompute) (hworker : c.worker = none)
      (hv : c.currentV ≠ []) (hR : R c) : Step R L c (c.setPhase .activeWindow)
  | commit {c : Control F} (names : List String) (dim : ℕ) (matrix : Option (FeaturesMatrixMeta F))
      (hphase : c.phase = .explore) (hdim : 0 < dim) (hmatrix : matrix.isSome = c.matrix.isSome) :
      Step R L c { c with names, dim, matrix, currentV := [] }
  | start {c : Control F} (v w : List F) (snapshot : CorpusWeightSnapshot F) (hgate : c.gate)
      (hphase : c.phase ≠ .pendingRecompute) (hworker : c.worker = none) (hlen : v.length = c.dim)
      (hw : normalizeSimplexEps v = .ok w)
      (hiter : snapshot.iteration = c.iter.currentIteration + 1) (hmode : snapshot.mode = c.mode)
      (hweights : snapshot.featureWeightsBySancov = c.siteWeights w)
      (hnodup : (snapshot.testcases.map (·.corpusId)).Nodup) :
      Step R L c (c.begin v w snapshot)
  | publish {c : Control F} (snapshot : CorpusWeightSnapshot F) (now edges persistNow : ℕ)
      (hphase : c.phase = .pendingRecompute) (hrx : c.rx = some snapshot)
      (hiter : snapshot.iteration = c.iter.currentIteration) :
      Step R L c (c.publish snapshot now edges persistNow)
  | stale {c : Control F} (snapshot : CorpusWeightSnapshot F) (hphase : c.phase = .pendingRecompute)
      (hrx : c.rx = some snapshot) (hiter : snapshot.iteration ≠ c.iter.currentIteration) :
      Step R L c (c.join.record .staleResult)
  | missing {c : Control F} (hphase : c.phase = .pendingRecompute) (hworker : c.worker ≠ none)
      (hrx : c.rx = none) : Step R L c ((c.setPhase .activeWindow).record .missingReceiver)
  | observe {c : Control F} (startMs now edges : ℕ) (hphase : c.phase = .activeWindow)
      (hstart : c.iter.activeStartMs = some startMs) (hv : c.currentV ≠ []) :
      Step R L c (c.observe startMs now edges)
  | newEdges {c : Control F} (now : ℕ) :
      Step R L c { c with iter := { c.iter with lastNewEdgesMs := some now } }
  | lockOptimizer {c : Control F} (hphase : c.phase = .activeWindow ∨ c.phase = .lockedBest) :
      Step R L c { c with opt := c.opt.lock }
  | lock {c : Control F} (hphase : c.phase = .activeWindow) (hrestored : c.opt.restoredOnce)
      (hL : L c.opt.trials c.currentV) :
      Step R L c ({ c with opt := c.opt.lock }.setPhase .lockedBest)
  | persist {c : Control F} (now : ℕ) :
      Step R L c { c with history := some (c.opt.persist c.history now) }
  | raise {c : Control F} (edges : ℕ) (hphase : c.phase = .lockedBest) :
      Step R L c { c with iter := { c.iter with activeStartEdges := some edges } }
  | unlock {c : Control F} (hphase : c.phase = .lockedBest) :
      Step R L c { c with opt := c.opt.unlock }

end Control

/-! ### The stage refines the machine -/

section
variable {R : Control F → Prop} {L : List (TpeTrial F) → List F → Prop}

/-- A computation on a process moves along control steps. -/
abbrev Moves (R : Control F → Prop) (L : List (TpeTrial F) → List F → Prop) {α : Type}
    (m : EStateM Error (Proc F G) α) (p : Proc F G) : Prop :=
  Refines Proc.control (Control.Step R L) Control.join m p

@[simp] theorem spec_onState {α : Type} {m : EStateM Error (State F) α} {p : Proc F G}
    {Q : α → Proc F G → Prop} {E : Error → Proc F G → Prop} :
    Spec (Proc.onState m) p Q E ↔
      Spec m p.state (fun a s => Q a { p with state := s }) (fun e s => E e { p with state := s }) :=
  spec_zoom

variable (env : Env)

theorem export_control (force : Bool) (p : Proc F G) :
    Frames Proc.control (Proc.onState (maybeExportRuntimeData env force)) p := by
  rw [Frames, spec_onState]
  refine (maybeExport_frame env force p.state).mono ?_ ?_
  · rintro _ _ ⟨_, rfl⟩; rfl
  · rintro _ _ rfl; rfl

variable (p : Proc F G)

theorem report_moves : Moves R L (report env) p := by
  refine .of_frame ?_
  unfold report
  split_ifs <;> exact rfl

theorem export_report_moves :
    Moves R L (do Proc.onState (maybeExportRuntimeData env true); report env) p :=
  (export_control env true p).bind fun _ q _ => report_moves env q

theorem startPending_moves (v : List F) (p : Proc F G) (hgate : gate p.state)
    (hphase : p.state.phase ≠ .pendingRecompute) : Moves R L (startPendingRecompute v) p := by
  simp only [Moves, Refines, startPendingRecompute, spec_bind, spec_get]
  split_ifs with hworker hacfg
  · exact .refl
  · exact .of_eq rfl
  · simp only [spec_bind, spec_ofResult, spec_set]
    refine ⟨fun s hs => ?_, fun _ _ => .of_eq rfl⟩
    obtain ⟨hlen, w, hw, rfl⟩ := applyVToFeatures_ok hs
    have hworker : p.stage.pendingWorker = none := by simpa using hworker
    exact .single (Control.Step.start (c := p.control) v w
      (buildCorpusWeightSnapshot _ (p.state.iter.currentIteration + 1) p.state.mode _) hgate hphase
      hworker hlen hw rfl rfl rfl (buildCorpusWeightSnapshot_nodup _ _ _ _))

theorem poll_moves (hphase : p.state.phase = .pendingRecompute)
    (hworker : p.stage.pendingWorker ≠ none) :
    Moves R L (pollPending env) p := by
  simp only [Moves, Refines, pollPending, spec_bind, spec_get]
  split
  · next hrx =>
    exact .single (Control.Step.missing (c := p.control) hphase hworker hrx)
  · next snapshot hrx =>
    split
    · exact .refl
    · exact ⟨p.control, .refl, .inr rfl⟩
    · split_ifs with hiter
      · exact .single (Control.Step.stale (c := p.control) snapshot hphase hrx hiter)
      simp only [spec_bind, spec_onState, spec_modify, spec_pure]
      refine (publish_corpusOnly _ _).mono ?_ ?_
      · rintro _ _ ⟨_, _, rfl⟩
        exact .single (Control.Step.publish (c := p.control) snapshot env.now
          (currentEdges p.state) env.persistNow hphase hrx (not_not.mp hiter))
      · rintro _ _ ⟨⟨_, _, rfl⟩, _⟩
        exact ⟨p.control, .refl, .inr rfl⟩

/-! The commit changes nothing of the control part, or narrows the coordinate space. -/

/-- The coordinate space of `c` narrowed, no vector being in force. -/
def Control.Narrowed (c d : Control F) : Prop :=
  ∃ names dim matrix, 0 < dim ∧ matrix.isSome = c.matrix.isSome ∧
    d = { c with names, dim, matrix, currentV := [] }

def Control.Committed (c d : Control F) : Prop := d = c ∨ c.Narrowed d

theorem Control.Committed.moves {c d : Control F} (h : c.Committed d)
    (hphase : c.phase = .explore) :
    ReflTransGen (Step R L) c d := by
  obtain rfl | ⟨names, dim, matrix, hdim, hmatrix, rfl⟩ := h
  · exact .refl
  · exact .single (.commit names dim matrix hphase hdim hmatrix)

theorem install_narrows {p : Proc F G} {s : State F} {schema : FeatureSchemaFile}
    {mask : List Bool} (hgate : gate p.state)
    (h : installCommittedRuntimeMask p.state schema mask = .ok s) :
    p.control.Narrowed { p with state := s }.control := by
  obtain ⟨_, hne, hs⟩ := installCommittedRuntimeMask_ok h
  refine ⟨s.globals.activeFeatureNames, s.globals.featureDim, s.featuresMatrix, ?_, ?_, ?_⟩
  · rw [hs]; exact List.length_pos_of_ne_nil hne
  · rw [hs]; exact Option.isSome_map
  · have hgate' : gate s = gate p.state := by
      rw [hgate, hs]
      simp only [gate, Bool.and_eq_true] at hgate ⊢
      exact ⟨hgate.1, trivial⟩
    simp only [Proc.control, hgate']
    subst hs
    rfl

/-! Closing a window. -/

/-- Closing a window records its trial and leaves the phase, the gate and the vector alone. -/
theorem closeWindow_moves {p : Proc F G} {startMs : ℕ} (now : ℕ)
    (hphase : p.state.phase = .activeWindow) (hstart : p.state.iter.activeStartMs = some startMs) :
    ReflTransGen (Control.Step R L) p.control (closeWindow p startMs now).control := by
  have hobs : ∀ c : Control F, ReflTransGen (Control.Step R L) p.control c →
      ReflTransGen (Control.Step R L) p.control
        { c with iter := { c.iter with lastNewEdgesMs := some now } } :=
    fun c h => h.tail (.newEdges now)
  unfold closeWindow
  by_cases hv : p.state.globals.currentV = []
  · simp only [hv, if_true]
    split_ifs
    · exact hobs p.control .refl
    · exact .refl
  · have hstep : ReflTransGen (Control.Step R L) p.control
        (p.control.observe startMs now (currentEdges p.state)) :=
      .single (.observe startMs now (currentEdges p.state) hphase hstart hv)
    simp only [hv, if_false]
    split_ifs
    · exact hobs _ hstep
    · exact hstep

theorem closeWindow_frame (startMs now : ℕ) :
    gate (closeWindow p startMs now).state = gate p.state ∧
      (closeWindow p startMs now).state.phase = p.state.phase ∧
      (closeWindow p startMs now).state.globals = p.state.globals ∧
      ((closeWindow p startMs now).stage.opt.state.restoredOnce = p.stage.opt.state.restoredOnce) := by
  unfold closeWindow
  dsimp only
  split_ifs <;> refine ⟨rfl, rfl, rfl, ?_⟩ <;> simp [Proc.record, Proc.setTpe]

theorem throw_moves {α : Type} (e : Error) (p : Proc F G) :
    Moves R L (throw e : EStateM Error (Proc F G) α) p :=
  .of_frame rfl

omit [F64 F] in
theorem Control.Committed.frame {c d : Control F} (h : c.Committed d) :
    d.gate = c.gate ∧ d.phase = c.phase := by
  obtain rfl | ⟨_, _, _, _, _, rfl⟩ := h <;> exact ⟨rfl, rfl⟩

theorem takeUntried_control : Frames Proc.control takeUntried p := by
  obtain ⟨vs, hvs⟩ := p.stage.opt.nextUntried_poolOnly p.state
  simp only [Frames, takeUntried, spec_modifyGet, hvs]
  rfl

theorem startThenReport_moves (v : List F) (p : Proc F G) (hgate : gate p.state)
    (hphase : p.state.phase ≠ .pendingRecompute) :
    Moves R L (do
      startPendingRecompute v
      Proc.onState (maybeExportRuntimeData env true)
      report env) p :=
  (startPending_moves v p hgate hphase).seq fun _ q => export_report_moves env q

theorem performPendingRecompute_moves (hphase : p.state.phase = .pendingRecompute)
    (hworker : p.stage.pendingWorker ≠ none) : Moves R L (performPendingRecompute env) p := by
  refine (poll_moves env p hphase hworker).seq fun published q => ?_
  cases published with
  | true => exact report_moves env q
  | false => exact .of_frame rfl

theorem persistThenReport_moves :
    Moves R L (do
      modify fun p => p.persist env.persistNow
      Proc.onState (maybeExportRuntimeData env true)
      report env) p :=
  .bind ⟨.single (Control.Step.persist (c := p.control) env.persistNow), export_report_moves env _⟩

/-! The repair at the start of a call. -/

/-- A call that starts here takes a recompute of an earlier process for published. -/
def Repairs (p : Proc F G) : Prop :=
  gate p.state ∧ p.state.phase = .pendingRecompute ∧ p.stage.pendingWorker = none ∧
    p.state.globals.currentV ≠ []

instance (p : Proc F G) : Decidable (Repairs p) :=
  inferInstanceAs (Decidable (_ ∧ _ ∧ _ ∧ _))

theorem repair_frame :
    gate p.restore.repair.state = gate p.state ∧ p.restore.repair.stage = p.restore.stage ∧
      p.restore.repair.state.globals = p.state.globals ∧
      (p.restore.repair.state.phase = .pendingRecompute → p.stage.pendingWorker ≠ none) := by
  unfold Proc.repair
  split_ifs with h
  · exact ⟨rfl, rfl, rfl, fun hph => by cases hph⟩
  · exact ⟨rfl, rfl, rfl, fun hph => by cases hph⟩
  · refine ⟨rfl, rfl, rfl, fun hph hw => h ⟨hph, ?_⟩⟩
    rw [show p.restore.stage.pendingWorker = none from hw]
    rfl

theorem repair_moves (hgate : gate p.state) (hR : Repairs p → R p.restore.control) :
    ReflTransGen (Control.Step R L) p.control p.restore.repair.control := by
  have hrestore : Control.Step R L p.control p.restore.control := .restore p.control
  unfold Proc.repair
  split_ifs with h hv
  · have hworker : p.restore.control.worker = none := Option.isNone_iff_eq_none.mp h.2
    exact .tail (.single hrestore) (Control.Step.repairExplore h.1 hworker hv)
  · have hworker : p.restore.control.worker = none := Option.isNone_iff_eq_none.mp h.2
    have hR := hR ⟨hgate, h.1, hworker, hv⟩
    exact .tail (.single hrestore) (Control.Step.repairActive h.1 hworker hv hR)
  · exact .single hrestore

/-! ### Commit, suggestion and phases -/

variable [Draw F G]

theorem enqueueInit_control (normalized : List F) (p : Proc F G) :
    Frames Proc.control (enqueueInit normalized) p := by
  simp only [Frames, enqueueInit, spec_bind, spec_get, spec_ofResult, spec_set]
  refine ⟨fun a ha => ?_, fun _ _ => trivial⟩
  obtain ⟨vs, hvs⟩ := TpeOptimizer.enqueueExact_poolOnly ha
  rw [hvs]
  rfl

variable (runtime : VecMaskRuntimeMeta F)

theorem commitInit_control (normalized : List F) (p : Proc F G) :
    Frames Proc.control (commitInit runtime normalized) p := by
  simp only [Frames, commitInit, spec_bind, spec_onState, spec_modify]
  split_ifs
  · exact rfl
  · exact enqueueInit_control normalized _

theorem commitFull_control (raw : List F) (p : Proc F G) :
    Frames Proc.control (commitFull runtime raw) p := by
  simp only [Frames, commitFull, spec_bind, spec_get]
  split_ifs
  · exact rfl
  · simp only [spec_bind, spec_ofResult]
    refine ⟨fun credits _ => ⟨fun a _ => ?_, fun _ _ => trivial⟩, fun _ _ => trivial⟩
    exact commitInit_control _ _ p

theorem commitExplicit_control (raw : List F) (p : Proc F G) :
    Frames Proc.control (commitExplicit runtime raw) p := by
  simp only [Frames, commitExplicit, spec_bind, spec_get]
  split
  · exact rfl
  split_ifs
  · exact rfl
  · simp only [spec_bind, spec_ofResult]
    refine ⟨fun credits _ => ⟨fun a _ => ?_, fun _ _ => trivial⟩, fun _ _ => trivial⟩
    exact commitInit_control _ _ p

theorem commitAutoCredit_control (raw : List F) (p : Proc F G) (hgate : gate p.state) :
    Spec (commitAutoCredit runtime raw) p (fun _ q => p.control.Committed q.control)
      (fun _ q => p.control.Committed q.control) := by
  simp only [commitAutoCredit, spec_bind, spec_get, spec_ofResult, spec_onState, spec_modify]
  refine ⟨fun credits _ => ⟨fun selected _ => ?_, fun _ _ => .inl rfl⟩, fun _ _ => .inl rfl⟩
  refine (installSelection_spec _ _ _ _).mono ?_ ?_
  · rintro selection t ⟨hinst, _⟩
    have hnarrow := install_narrows hgate hinst
    refine (enqueueInit_control _ _).mono ?_ ?_ <;>
      exact fun _ q hq => .inr (by rw [hq]; exact hnarrow)
  · rintro _ t (rfl | ⟨mask, hinst⟩)
    · exact .inl rfl
    · exact .inr (install_narrows hgate hinst)

theorem commit_control (hgate : gate p.state) :
    Spec commitMaskAndTpeInitializationBeforeFirstTpe p
      (fun _ q => p.control.Committed q.control) (fun _ q => p.control.Committed q.control) := by
  simp only [commitMaskAndTpeInitializationBeforeFirstTpe, spec_bind, spec_get]
  split_ifs
  · rw [spec_ofResult]
    exact ⟨fun _ _ => .inl rfl, fun _ _ => .inl rfl⟩
  split <;> simp only [spec_bind, spec_get, spec_ofResult]
  · exact (commitFull_control _ _ p).mono (fun _ _ h => ⟨fun _ _ => .inl h, fun _ _ => .inl h⟩)
      (fun _ _ h => .inl h)
  · exact (commitExplicit_control _ _ p).mono
      (fun _ _ h => ⟨fun _ _ => .inl h, fun _ _ => .inl h⟩) (fun _ _ h => .inl h)
  · exact (commitAutoCredit_control _ _ p hgate).mono
      (fun _ _ h => ⟨fun _ _ => h, fun _ _ => h⟩) (fun _ _ h => h)

theorem suggest_control :
    Spec suggest p (fun v q => v = suggestion p ∧
      (q.control = p.control ∨ q.control = { p.control with opt := p.control.opt.lock }))
      (fun _ _ => False) := by
  obtain ⟨⟨vs, hvs⟩, hopt⟩ := p.stage.opt.suggestNext_frame p.state p.stage.rng
  simp only [suggest, suggestion, spec_modifyGet]
  generalize p.stage.opt.suggestNext p.state p.stage.rng = answer at hvs hopt ⊢
  obtain ⟨v, opt, s, g⟩ := answer
  subst hvs
  refine ⟨trivial, ?_⟩
  rcases hopt with rfl | rfl
  · exact .inl rfl
  · exact .inr rfl

theorem performExplore_moves (hgate : gate p.state) (hphase : p.state.phase = .explore) :
    Moves R L (performExplore env) p := by
  refine .bind ⟨.refl, ?_⟩
  split
  · refine (export_control env false p).bind fun _ q _ => ?_
    split_ifs
    · exact .bind ⟨.refl, report_moves env _⟩
    · exact .of_frame rfl
  · refine .bind ((commit_control p hgate).mono (fun _ q h => ⟨h.moves hphase, ?_⟩)
      (fun _ q h => ⟨q.control, h.moves hphase, .inl rfl⟩))
    have hq := h.frame
    refine .bind ⟨.refl, ?_⟩
    split_ifs
    · exact throw_moves _ q
    refine (takeUntried_control q).bind fun v r hr => ?_
    have hr : r.control.gate = p.control.gate ∧ r.control.phase = p.control.phase := by
      rw [hr]; exact hq
    cases v with
    | none => exact throw_moves _ r
    | some candidate =>
      refine startThenReport_moves env candidate r (hr.1.trans hgate) ?_
      rw [show r.state.phase = .explore from hr.2.trans hphase]
      exact TpePhase.noConfusion

theorem performActiveWindow_moves (hgate : gate p.state) (hphase : p.state.phase = .activeWindow)
    (hrestored : p.stage.opt.state.restoredOnce)
    (hL : ∀ startMs, p.state.iter.activeStartMs = some startMs →
      ¬ env.now - startMs < p.stage.opt.params.period →
      suggestion (closeWindow p startMs env.now) = none →
      L (closeWindow p startMs env.now).stage.opt.state.trials p.state.globals.currentV) :
    Moves R L (performActiveWindow env) p := by
  refine .bind ⟨.refl, ?_⟩
  split
  · exact .of_frame rfl
  · next startMs hstart =>
    split
    · exact .of_frame rfl
    · next hperiod =>
      have hframe := closeWindow_frame p startMs env.now
      have hL := hL startMs hstart hperiod
      refine .bind ⟨closeWindow_moves env.now hphase hstart, ?_⟩
      generalize closeWindow p startMs env.now = q at hframe hL ⊢
      obtain ⟨hg, hph, hglob, hres⟩ := hframe
      have hqphase : q.control.phase = .activeWindow := hph.trans hphase
      refine .bind ((suggest_control q).total fun v r ⟨hv, hr⟩ => ⟨?_, ?_⟩)
      · rcases hr with hr | hr <;> rw [hr]
        exact .single (.lockOptimizer (.inl hqphase))
      · have hrframe : r.control.gate = q.control.gate ∧ r.control.phase = q.control.phase ∧
            r.control.currentV = q.control.currentV ∧ r.control.opt.trials = q.control.opt.trials ∧
            r.control.opt.restoredOnce = q.control.opt.restoredOnce := by
          rcases hr with hr | hr <;> rw [hr] <;> exact ⟨rfl, rfl, rfl, rfl, rfl⟩
        obtain ⟨hrg, hrp, hrv, hrt, hrr⟩ := hrframe
        cases v with
        | some next =>
          refine (startPending_moves next r (hrg.trans (hg.trans hgate)) ?_).seq fun _ u =>
            persistThenReport_moves env u
          rw [show r.state.phase = .activeWindow from hrp.trans hqphase]
          exact TpePhase.noConfusion
        | none =>
          have hlock : Control.Step R L r.control
              ({ r.control with opt := r.control.opt.lock }.setPhase .lockedBest) := by
            refine .lock (hrp.trans hqphase) (hrr.trans (hres.trans hrestored)) ?_
            rw [hrt, hrv, show q.control.currentV = p.state.globals.currentV from
              congrArg FeatureGlobalsMeta.currentV hglob]
            exact hL hv.symm
          exact .bind ⟨.single hlock, persistThenReport_moves env _⟩

theorem performLockedBest_moves (hgate : gate p.state) (hphase : p.state.phase = .lockedBest) :
    Moves R L (performLockedBest env) p := by
  refine .bind ⟨.refl, ?_⟩
  dsimp only
  split
  · refine ReflTransGen.tail (b := { p.control with iter := { p.state.iter with
      activeStartEdges := some (currentEdges p.state) } }) (.single ?_) (.newEdges env.now)
    exact Control.Step.raise (c := p.control) (currentEdges p.state) hphase
  · split
    · exact .of_frame rfl
    obtain ⟨⟨vs, hvs⟩, hopt⟩ := p.stage.opt.enqueueInverse_frame p.state p.stage.rng
    generalize p.stage.opt.enqueueInverseCandidates p.state p.stage.rng = answer at hvs hopt ⊢
    obtain ⟨opt, s, g⟩ := answer
    subst hvs
    refine .bind ⟨?_, ?_⟩
    · rcases hopt with rfl | rfl
      · exact .refl
      · exact .single (Control.Step.unlock (c := p.control) hphase)
    · refine (export_control env true _).bind fun _ q hq => ?_
      have hqphase : q.control.phase = .lockedBest := by rw [hq]; exact hphase
      have hqgate : q.control.gate = true := by rw [hq]; exact hgate
      refine .bind ((suggest_control q).total fun v r ⟨_, hr⟩ => ⟨?_, ?_⟩)
      · rcases hr with hr | hr <;> rw [hr]
        exact .single (.lockOptimizer (.inr hqphase))
      · have hrframe : r.control.gate = true ∧ r.control.phase = .lockedBest := by
          rcases hr with hr | hr <;> rw [hr] <;> exact ⟨hqgate, hqphase⟩
        cases v with
        | some next =>
          refine startPending_moves next r hrframe.1 ?_
          rw [show r.state.phase = .lockedBest from hrframe.2]
          exact TpePhase.noConfusion
        | none => exact .of_frame rfl

/-! ### Whole calls and campaigns -/

/-- A call that meets `env` closes the window opened at `startMs` and locks the optimizer. -/
def Locks (p : Proc F G) (env : Env) (startMs : ℕ) : Prop :=
  gate p.state ∧ p.restore.repair.state.phase = .activeWindow ∧
    p.restore.repair.state.iter.activeStartMs = some startMs ∧
    p.stage.opt.params.period ≤ env.now - startMs ∧
    suggestion (closeWindow p.restore.repair startMs env.now) = none

/-- A call of the stage moves along control steps. -/
theorem perform_refines (hR : Repairs p → R p.restore.control)
    (hL : ∀ startMs, Locks p env startMs →
      L (closeWindow p.restore.repair startMs env.now).stage.opt.state.trials p.state.globals.currentV) :
    Moves R L (perform env) p := by
  refine .bind ⟨.refl, ?_⟩
  split
  · exact .of_frame rfl
  · next hgate =>
    have hgate : gate p.state = true := by simpa using hgate
    obtain ⟨hg, hstage, hglob, hworker⟩ := repair_frame p
    refine .bind ⟨repair_moves p hgate hR, ?_⟩
    split
    · next hphase => exact performExplore_moves env _ (hg.trans hgate) hphase
    · next hphase =>
      refine performPendingRecompute_moves env _ hphase ?_
      rw [hstage]
      exact hworker hphase
    · next hphase =>
      refine performActiveWindow_moves env _ (hg.trans hgate) hphase ?_ fun startMs hs hp hn => ?_
      · rw [hstage]; exact TpeState.restoreOnce_restoredOnce _ _
      · rw [hglob]
        refine hL startMs ⟨hgate, hphase, hs, ?_, hn⟩
        rw [hstage] at hp
        exact not_lt.mp hp
    · next hphase => exact performLockedBest_moves env _ (hg.trans hgate) hphase

/-- An invariant of the control machine is one of campaigns: `I` while the process runs, `J` also
    after it has ended, where a worker may have been lost. -/
theorem World.run_inv (restart : Restart F) {C : World F G → Act F G → Prop}
    {I J : Control F → Prop} (hIJ : ∀ c, I c → J c) (hjoin : ∀ c, I c → J c.join)
    (hstep : ∀ c d, Control.Step R L c d → I c → I d)
    (hR : ∀ p env, I p.control → C { proc := p } (.perform env) → Repairs p → R p.restore.control)
    (hL : ∀ p env, I p.control → C { proc := p } (.perform env) → ∀ startMs, Locks p env startMs →
      L (closeWindow p.restore.repair startMs env.now).stage.opt.state.trials
        p.state.globals.currentV)
    (hrestart : ∀ p rng now s params, I p.control → C { proc := p } (.restart rng now) →
      restart now p.state = .ok (s, params) →
      I { p with stage := .new params rng, state := s }.control)
    (w : World F G) (hw : I w.proc.control) (acts : List (Act F G))
    (halong : Run.Along (World.step restart) C w acts) :
    ((Run.run (World.step restart) w acts).alive → I (Run.run (World.step restart) w acts).proc.control) ∧
      J (Run.run (World.step restart) w acts).proc.control := by
  have hsteps := fun c d => steps_invariant (c := c) (d := d) hstep
  refine Run.along_induct (World.step_inv restart (I := fun p => I p.control) (J := fun p => J p.control)
    (fun p => hIJ _) ?_ ?_ (fun _ _ h => h) hrestart) acts w ⟨fun _ => hw, hIJ _ hw⟩ halong
  · intro p env hI hc
    refine (perform_refines env p (hR p env hI hc) (hL p env hI hc)).mono
      (fun _ q h => hsteps _ _ h hI) ?_
    rintro _ q ⟨d, hd, hq | hq⟩
    · rw [hq]; exact hIJ _ (hsteps _ _ hd hI)
    · rw [hq]; exact hjoin _ (hsteps _ _ hd hI)
  · intro p covered hI
    rw [spec_onState]
    refine (appendMetadata_creditsOnly covered p.state).mono ?_ ?_
    · rintro _ _ ⟨_, _, _, _, _, rfl⟩; exact hI
    · rintro _ _ ⟨_, _, _, _, _, rfl⟩; exact hIJ _ hI

/-- An invariant that a lost worker and restarts keep too. -/
theorem World.run_always (restart : Restart F) {I : Control F → Prop} (hjoin : ∀ c, I c → I c.join)
    (hstep : ∀ c d, Control.Step (fun _ => True) (fun _ _ => True) c d → I c → I d)
    (hrestart : ∀ (p : Proc F G) (rng : G) now s params, I p.control →
      restart now p.state = .ok (s, params) →
      I { p with stage := .new params rng, state := s }.control)
    {w : World F G} (hw : I w.proc.control) (acts : List (Act F G)) :
    I (Run.run (World.step restart) w acts).proc.control :=
  (World.run_inv restart (C := fun _ _ => True) (fun _ h => h) hjoin hstep (fun _ _ _ _ _ => trivial)
    (fun _ _ _ _ _ _ => trivial) (fun p rng now s params hI _ => hrestart p rng now s params hI) w hw
    acts (Run.along_of_forall fun _ _ _ => trivial)).2

end

end Bofuzz
