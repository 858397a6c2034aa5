import Bofuzz.Protocol

/-! Active windows end.

    A window ends because it has a start time: once the period has passed, a call of `perform`
    hands its trial to the optimizer and goes on to the next recompute or locks. The repair of an
    interrupted recompute is the one way into the active window that sets no start time. -/

namespace Bofuzz
open F64 Effect TpeStage Relation

variable {F G : Type} [F64 F] {L : List (TpeTrial F) → List F → Prop}

/-- No call takes an interrupted recompute for published before there ever was a window. -/
def KeepsWindow (w : World F G) : Act F G → Prop
  | .perform _ => Repairs w.proc → w.proc.state.iter.activeStartMs ≠ none
  | _ => True

instance (w : World F G) : (a : Act F G) → Decidable (KeepsWindow w a)
  | .perform _ => inferInstanceAs (Decidable (_ → _))
  | .append _ => .isTrue trivial
  | .outside _ => .isTrue trivial
  | .restart _ _ => .isTrue trivial

/-- Linked, and an active window has a start. -/
structure Timed (c : Control F) : Prop extends Linked c where
  timed : c.phase = .activeWindow → c.iter.activeStartMs ≠ none

theorem Timed.step {c d : Control F}
    (h : Control.Step (fun c => c.iter.activeStartMs ≠ none) L c d) (hI : Timed c) : Timed d := by
  refine ⟨hI.toLinked.step h, ?_⟩
  cases h with
  | repairExplore => exact fun h => nomatch h
  | repairActive hphase hworker hv hR => exact fun _ => hR
  | start => exact fun h => nomatch h
  | publish => exact fun _ => Option.some_ne_none _
  | missing hphase hworker hrx => exact absurd (hI.channel.trans hrx) hworker
  | lock => exact fun h => nomatch h
  | _ => exact hI.timed

theorem startPending_spec (v : List F) (p : Proc F G) (hworker : p.stage.pendingWorker = none) :
    Spec (startPendingRecompute v) p
      (fun _ q => q.state.phase = .pendingRecompute ∧ ∃ e, q.trace = e :: p.trace)
      (fun _ q => q.trace = p.trace) := by
  simp only [startPendingRecompute, spec_bind, spec_get, hworker, Option.isSome_none,
    Bool.false_eq_true, if_false]
  split_ifs
  · exact rfl
  · simp only [spec_bind, spec_ofResult, spec_set]
    exact ⟨fun s _ => ⟨rfl, _, rfl⟩, fun _ _ => trivial⟩

/-- The trial of the window opened at `startMs` was handed to the optimizer. -/
def SawTrial (p : Proc F G) (env : Env) (startMs : ℕ) (trace : List (Event F)) : Prop :=
  ∃ later iteration reward edges, trace =
    later ++ .observed iteration p.state.globals.currentV reward startMs env.now edges :: p.trace

variable {p : Proc F G} {startMs : ℕ} {env : Env}

theorem SawTrial.cons {trace : List (Event F)} (h : SawTrial p env startMs trace)
    (e : Event F) : SawTrial p env startMs (e :: trace) := by
  obtain ⟨later, iteration, reward, edges, rfl⟩ := h
  exact ⟨e :: later, iteration, reward, edges, rfl⟩

theorem closeWindow_saw (env : Env) (startMs : ℕ) (hv : p.state.globals.currentV ≠ []) :
    SawTrial p env startMs (closeWindow p startMs env.now).trace := by
  unfold closeWindow
  dsimp only
  rw [if_neg hv]
  split_ifs <;> exact ⟨[], _, _, _, rfl⟩

/-- What is left to do once the window is left changes neither the phase nor the history. -/
theorem persistThenReport_left {q : Proc F G} (hsaw : SawTrial p env startMs q.trace)
    (hphase : q.state.phase ≠ .activeWindow) :
    Spec (do
      modify fun p => p.persist env.persistNow
      Proc.onState (maybeExportRuntimeData env true)
      report env) q
      (fun _ r => SawTrial p env startMs r.trace ∧ r.state.phase ≠ .activeWindow)
      (fun _ r => SawTrial p env startMs r.trace) := by
  have hframe : ∀ r : Proc F G, r.control = (q.persist env.persistNow).control →
      SawTrial p env startMs r.trace ∧ r.state.phase ≠ .activeWindow := by
    intro r hr
    rw [show r.state.phase = q.state.phase from congrArg Control.phase hr,
      show r.trace = q.trace from congrArg Control.trace hr]
    exact ⟨hsaw, hphase⟩
  simp only [spec_bind, spec_modify]
  refine (export_control env true _).mono (fun _ r hr => ?_) (fun _ r hr => (hframe r hr).1)
  unfold report
  split_ifs
  · exact (hframe r hr).1
  · exact hframe r hr

variable [Draw F G]

theorem performActiveWindow_closes (hworker : p.stage.pendingWorker = none)
    (hv : p.state.globals.currentV ≠ []) (hstart : p.state.iter.activeStartMs = some startMs)
    (hperiod : ¬ env.now - startMs < p.stage.opt.params.period) :
    Spec (performActiveWindow env) p
      (fun _ q => SawTrial p env startMs q.trace ∧ q.state.phase ≠ .activeWindow)
      (fun _ q => SawTrial p env startMs q.trace) := by
  have hsaw := closeWindow_saw env startMs hv
  have hworker : (closeWindow p startMs env.now).stage.pendingWorker = none := by
    unfold closeWindow
    dsimp only
    split_ifs <;> exact hworker
  simp only [performActiveWindow, spec_bind, spec_get, hstart, hperiod, if_false, spec_set]
  refine (suggest_control _).total ?_
  rintro v r ⟨_, hr⟩
  have hrsaw : SawTrial p env startMs r.trace := by
    rw [show r.trace = (closeWindow p startMs env.now).trace by
      rcases hr with hr | hr <;> exact congrArg Control.trace hr]
    exact hsaw
  have hrworker : r.stage.pendingWorker = none := by
    rw [show r.stage.pendingWorker = (closeWindow p startMs env.now).stage.pendingWorker by
      rcases hr with hr | hr <;> exact congrArg Control.worker hr]
    exact hworker
  cases v with
  | some next =>
    rw [spec_bind]
    refine (startPending_spec next r hrworker).mono ?_ (fun _ q hq => hq ▸ hrsaw)
    rintro _ q ⟨hphase, e, htrace⟩
    refine persistThenReport_left (htrace ▸ hrsaw.cons e) ?_
    rw [hphase]
    exact TpePhase.noConfusion
  | none =>
    rw [spec_bind, spec_modify]
    exact persistThenReport_left (q := (r.setTpe r.stage.opt.state.lock).setPhase .lockedBest)
      hrsaw TpePhase.noConfusion

/-- A window that has lasted for the period: its trial is recorded, and a call that succeeds leaves
    it. -/
theorem perform_closes (hI : Linked p.control) (hphase : p.state.phase = .activeWindow)
    (hstart : p.state.iter.activeStartMs = some startMs)
    (hnow : startMs + p.stage.opt.params.period ≤ env.now) :
    Spec (perform env) p (fun _ q => SawTrial p env startMs q.trace ∧ q.state.phase ≠ .activeWindow)
      (fun _ q => SawTrial p env startMs q.trace) := by
  have hphase' : p.control.phase = .activeWindow := hphase
  have hne : p.control.phase ≠ .explore := by rw [hphase']; exact TpePhase.noConfusion
  have hgate : gate p.state = true := hI.switched hne
  have hworker : p.stage.pendingWorker = none := by
    by_contra hw
    have hbusy := hI.busy (by rw [← hI.channel]; exact hw)
    rw [hphase'] at hbusy
    cases hbusy
  have hrepair : p.restore.repair = p.restore := by
    unfold Proc.repair
    rw [if_neg]
    rintro ⟨h, _⟩
    rw [show p.restore.state.phase = .activeWindow from hphase] at h
    cases h
  have hperiod : ¬ env.now - startMs < p.restore.stage.opt.params.period := by
    rw [show p.restore.stage.opt.params.period = p.stage.opt.params.period from rfl]
    omega
  simp only [perform, spec_bind, spec_get, hgate, Bool.not_true, Bool.false_eq_true, if_false,
    spec_set, hrepair, show p.restore.state.phase = .activeWindow from hphase]
  exact performActiveWindow_closes (p := p.restore) hworker (hI.inForce hne) hstart hperiod

/-- The open window has a start, and the first call after its period records the trial and, if it
    succeeds, leaves the window. -/
def WindowEnds (p : Proc F G) : Prop :=
  ∃ startMs, p.state.iter.activeStartMs = some startMs ∧
    ∀ env : Env, startMs + p.stage.opt.params.period ≤ env.now →
      Spec (perform env) p
        (fun _ q => SawTrial p env startMs q.trace ∧ q.state.phase ≠ .activeWindow)
        (fun _ q => SawTrial p env startMs q.trace)

/-- The phase machine is never stuck in an active window, in every state of a campaign whose calls
    never take an interrupted first recompute for published. -/
theorem active_window_ends {setup : Setup F} {now : ℕ} {s : State F}
    (hs : startup setup now none = .ok s) (rng : G) (acts : List (Act F G))
    (hacts : Run.Along (World.step (keepMetadata setup.tpeParams)) KeepsWindow
      (World.start setup rng s) acts) :
    let p := (Run.run (World.step (keepMetadata setup.tpeParams)) (World.start setup rng s) acts).proc
    p.state.phase = .activeWindow → WindowEnds p := by
  intro p hphase
  have hstart : Timed (World.start setup rng s).proc.control := by
    refine ⟨.start hs rng, fun h => ?_⟩
    rw [show (World.start setup rng s).proc.control.phase = .explore from
      congrArg TpeIterationMeta.phase (startup_fresh hs).iter] at h
    cases h
  have hinv : Timed p.control := (World.run_inv (keepMetadata setup.tpeParams) (C := KeepsWindow)
    (R := fun c => c.iter.activeStartMs ≠ none) (L := fun _ _ => True) (I := Timed) (J := Timed)
    (fun _ h => h) (fun _ h => ⟨h.toLinked.join, h.timed⟩) (fun _ _ => Timed.step)
    (fun p env _ hc hr => hc hr) (fun _ _ _ _ _ _ => trivial)
    (fun p rng _ _ _ hI _ h => by cases h; exact ⟨hI.toLinked.restart _ rng, hI.timed⟩)
    (World.start setup rng s) hstart acts hacts).2
  obtain ⟨startMs, hms⟩ := Option.ne_none_iff_exists'.mp (hinv.timed hphase)
  exact ⟨startMs, hms, fun env hnow => perform_closes hinv.toLinked hphase hms hnow⟩

/-- The window of a published vector survives a restart. -/
theorem active_window_ends_demo : WindowEnds (Demo.reached Demo.publishedThenRestarted).proc :=
  active_window_ends Demo.startup_eq [] Demo.publishedThenRestarted (by decide +kernel)
    (by decide +kernel)

/-- A restart while the first recompute is pending: the repair opens a window without a start. -/
theorem interrupted_first_recompute_stuck :
    (Demo.reached Demo.interruptedFirst).proc.state.phase = .activeWindow ∧
      (Demo.reached Demo.interruptedFirst).proc.state.iter.activeStartMs = none := by
  decide +kernel

end Bofuzz
