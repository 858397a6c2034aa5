import Bofuzz.Control

/-! The worker protocol and the phases.

    `Linked` is what holds in every state of every campaign, restarts included: beyond Explore the
    stage is switched on and a vector is in force, and a worker exists only while a recompute is
    pending. Without restarts the protocol is exact (`Counted`): a recompute is pending just when
    a worker is there, it works on the current iteration, and no result is ever dropped. -/

namespace Bofuzz
open F64 Effect TpeStage Relation

variable {F G : Type} [F64 F] {R : Control F → Prop} {L : List (TpeTrial F) → List F → Prop}

structure Linked (c : Control F) : Prop where
  space : c.gate → 0 < c.dim ∧ c.matrix.isSome
  switched : c.phase ≠ .explore → c.gate
  channel : c.worker = c.rx
  busy : c.rx ≠ none → c.phase = .pendingRecompute
  inForce : c.phase ≠ .explore → c.currentV ≠ []

namespace Linked

theorem step {c d : Control F} (h : Control.Step R L c d) (hI : Linked c) : Linked d := by
  cases h with
  | repairExplore hphase hworker hv =>
    refine ⟨hI.space, fun h => absurd rfl h, hI.channel, fun hrx => ?_, fun h => absurd rfl h⟩
    exact absurd (hI.channel.symm.trans hworker) hrx
  | repairActive hphase hworker hv hR =>
    have hne : c.phase ≠ .explore := hphase.trans_ne TpePhase.noConfusion
    refine ⟨hI.space, fun _ => hI.switched hne, hI.channel, fun hrx => ?_, fun _ => hv⟩
    exact absurd (hI.channel.symm.trans hworker) hrx
  | commit names dim matrix hphase hdim hmatrix =>
    refine ⟨fun hg => ⟨hdim, ?_⟩, hI.switched, hI.channel, hI.busy, fun h => absurd hphase h⟩
    rw [hmatrix]
    exact (hI.space hg).2
  | start v w snapshot hgate hphase hworker hlen hw hiter hmode hweights hnodup =>
    refine ⟨hI.space, fun _ => hgate, rfl, fun _ => rfl, fun _ hnil => ?_⟩
    have hpos := (hI.space hgate).1
    rw [← hlen, ← normalizeSimplexEps_length hw, show w = [] from hnil] at hpos
    exact absurd hpos (lt_irrefl 0)
  | publish snapshot now edges persistNow hphase hrx hiter =>
    have hne : c.phase ≠ .explore := hphase.trans_ne TpePhase.noConfusion
    exact ⟨hI.space, fun _ => hI.switched hne, rfl, fun h => absurd rfl h, fun _ => hI.inForce hne⟩
  | stale snapshot hphase hrx hiter =>
    exact ⟨hI.space, hI.switched, rfl, fun h => absurd rfl h, hI.inForce⟩
  | missing hphase hworker hrx => exact absurd (hI.channel.trans hrx) hworker
  | lock hphase hrestored hL =>
    have hne : c.phase ≠ .explore := hphase.trans_ne TpePhase.noConfusion
    refine ⟨hI.space, fun _ => hI.switched hne, hI.channel, fun hrx => ?_, fun _ => hI.inForce hne⟩
    have hbusy := hI.busy hrx
    rw [hphase] at hbusy
    cases hbusy
  -- the other steps change neither phase, space, vector nor worker
  | _ => exact ⟨hI.space, hI.switched, hI.channel, hI.busy, hI.inForce⟩

omit [F64 F] in
theorem join {c : Control F} (hI : Linked c) : Linked c.join :=
  ⟨hI.space, hI.switched, rfl, fun h => absurd rfl h, hI.inForce⟩

theorem repair {p : Proc F G} (hI : Linked p.control) (hgate : gate p.state) :
    Linked p.restore.repair.control :=
  steps_invariant (S := Control.Step (fun _ => True) fun _ _ => True) (fun _ _ => step)
    (repair_moves p hgate fun _ => trivial) hI

variable {setup : Setup F}

theorem start {now : ℕ} {s : State F} (hs : startup setup now none = .ok s)
    (rng : G) : Linked (World.start setup rng s).proc.control := by
  have hfresh := startup_fresh hs
  have hexplore : (World.start setup rng s).proc.control.phase = .explore :=
    congrArg TpeIterationMeta.phase hfresh.iter
  refine ⟨fun hg => ?_, fun h => absurd hexplore h, rfl, fun h => absurd rfl h, fun h => absurd hexplore h⟩
  have hg : s.globals.featExists ∧ s.getFeatMode ≠ 0 ∧ s.globals.tpeSatisfied := by
    simpa [World.start, Proc.control, gate, and_assoc] using hg
  exact ⟨hfresh.dim hg.2.2, hfresh.matrix hg.1⟩

/-- A restart that keeps the metadata loses the worker and the optimizer only. -/
theorem restart {p : Proc F G} (hI : Linked p.control) (params : TpeParams F) (rng : G) :
    Linked { p with stage := .new params rng }.control :=
  ⟨hI.space, hI.switched, rfl, fun h => absurd rfl h, hI.inForce⟩

end Linked

/-! ### Without restarts -/

def Event.isStarted : Event F → Bool
  | .started .. => true
  | _ => false

/-- No result was dropped as stale and no call found its channel missing. -/
def Quiet (trace : List (Event F)) : Prop :=
  Event.staleResult ∉ trace ∧ Event.missingReceiver ∉ trace

/-- The exact protocol of one process. -/
structure Counted (c : Control F) : Prop extends Linked c where
  attended : c.phase = .pendingRecompute → c.rx ≠ none
  current : ∀ snapshot, c.rx = some snapshot → snapshot.iteration = c.iter.currentIteration ∧
    c.pendingIteration = some c.iter.currentIteration ∧
    c.iter.pendingIteration = some c.iter.currentIteration
  idle : c.rx = none → c.pendingIteration = none ∧ c.iter.pendingIteration = none
  count : c.iter.currentIteration = c.trace.countP Event.isStarted
  active : ∀ i, c.iter.activeIteration = some i → i ≤ c.iter.currentIteration

theorem Counted.step {c d : Control F} (h : Control.Step R L c d) (hI : Counted c ∧ Quiet c.trace) :
    Counted d ∧ Quiet d.trace := by
  obtain ⟨hI, hquiet⟩ := hI
  have hlinked := hI.toLinked.step h
  have hquiet' : ∀ e : Event F, e ≠ .staleResult → e ≠ .missingReceiver → Quiet (e :: c.trace) :=
    fun e hs hm => ⟨fun h => (List.mem_cons.mp h).elim (fun h => hs h.symm) hquiet.1,
      fun h => (List.mem_cons.mp h).elim (fun h => hm h.symm) hquiet.2⟩
  -- a pending recompute always has its worker, so neither repair happens
  have hattended : c.phase = .pendingRecompute → c.worker ≠ none := by
    rw [hI.channel]; exact hI.attended
  cases h with
  | repairExplore hphase hworker hv | repairActive hphase hworker hv hR => exact absurd hworker (hattended hphase)
  | start v w snapshot hgate hphase hworker hlen hw hiter hmode hweights hnodup =>
    refine ⟨⟨hlinked, fun _ => Option.some_ne_none _, ?_, fun h => absurd h (Option.some_ne_none _),
      ?_, ?_⟩, hquiet' _ (by simp) (by simp)⟩
    · rintro _ ⟨⟩
      exact ⟨rfl, rfl, rfl⟩
    · rw [show (c.begin v w snapshot).iter.currentIteration = snapshot.iteration from rfl, hiter, hI.count]
      exact (List.countP_cons_of_pos rfl).symm
    · intro i hi
      have hle := hI.active i hi
      show i ≤ snapshot.iteration
      omega
  | publish snapshot now edges persistNow hphase hrx hiter =>
    refine ⟨⟨hlinked, (fun h => nomatch h), (fun _ h => nomatch h), fun _ => ⟨rfl, rfl⟩, ?_, ?_⟩,
      hquiet' _ (by simp) (by simp)⟩
    · rw [show (c.publish snapshot now edges persistNow).trace.countP Event.isStarted
        = c.trace.countP Event.isStarted from List.countP_cons_of_neg Bool.false_ne_true]
      exact hI.count
    · rintro i ⟨⟩
      exact hiter.le
  | stale snapshot hphase hrx hiter => exact absurd (hI.current snapshot hrx).1 hiter
  | missing hphase hworker hrx => exact absurd hrx (hI.attended hphase)
  | observe startMs now edges hphase hstart hv =>
    refine ⟨⟨hlinked, hI.attended, hI.current, hI.idle, ?_, hI.active⟩, hquiet' _ (by simp) (by simp)⟩
    rw [show (c.observe startMs now edges).trace.countP Event.isStarted
      = c.trace.countP Event.isStarted from List.countP_cons_of_neg Bool.false_ne_true]
    exact hI.count
  | lock hphase hrestored hL =>
    exact ⟨⟨hlinked, (fun h => nomatch h), hI.current, hI.idle, hI.count, hI.active⟩, hquiet⟩
  | _ => exact ⟨⟨hlinked, hI.attended, hI.current, hI.idle, hI.count, hI.active⟩, hquiet⟩

/-- What the stage and the metadata agree on between two calls. -/
structure WorkerProtocol (p : Proc F G) : Prop where
  pending_iff : p.state.phase = .pendingRecompute ↔
    p.stage.pendingWorker.isSome ∧ p.stage.resultRx.isSome
  iteration : ∀ snapshot, p.stage.pendingWorker = some snapshot →
    snapshot.iteration = p.state.iter.currentIteration ∧
    p.stage.pendingIteration = some p.state.iter.currentIteration ∧
    p.state.iter.pendingIteration = some p.state.iter.currentIteration
  idle : p.state.phase ≠ .pendingRecompute → p.stage.pendingWorker = none ∧
    p.stage.resultRx = none ∧ p.stage.pendingIteration = none ∧ p.state.iter.pendingIteration = none
  started : p.state.iter.currentIteration = p.trace.countP Event.isStarted
  active : ∀ i, p.state.iter.activeIteration = some i → i ≤ p.state.iter.currentIteration

theorem Counted.protocol {p : Proc F G} (h : Counted p.control) : WorkerProtocol p := by
  have hchannel : p.stage.pendingWorker = p.stage.resultRx := h.channel
  refine ⟨⟨fun hphase => ?_, fun hsome => ?_⟩, fun snapshot hw => ?_, fun hphase => ?_, h.count, h.active⟩
  · have hrx := Option.isSome_iff_ne_none.mpr (h.attended hphase)
    exact ⟨by rw [hchannel]; exact hrx, hrx⟩
  · exact h.busy (Option.isSome_iff_ne_none.mp hsome.2)
  · exact h.current snapshot (hchannel.symm.trans hw)
  · have hrx : p.stage.resultRx = none := by
      by_contra hrx
      exact hphase (h.busy hrx)
    exact ⟨hchannel.trans hrx, hrx, h.idle hrx⟩

theorem Counted.start {setup : Setup F} {now : ℕ} {s : State F}
    (hs : startup setup now none = .ok s) (rng : G) :
    Counted (World.start setup rng s).proc.control := by
  have hiter : s.iter = {} := (startup_fresh hs).iter
  refine ⟨Linked.start hs rng, fun h => ?_, (fun _ h => nomatch h), fun _ => ⟨rfl, ?_⟩, ?_, ?_⟩
  · have h : s.iter.phase = .pendingRecompute := h
    rw [hiter] at h
    cases h
  · exact congrArg TpeIterationMeta.pendingIteration hiter
  · exact congrArg TpeIterationMeta.currentIteration hiter
  · intro i hi
    have hi : s.iter.activeIteration = some i := hi
    rw [hiter] at hi
    cases hi

variable [Draw F G]

/-- Within one process the worker protocol is exact: in every state a campaign without restarts
    reaches while its process runs, and no call ever took the stale-result or the
    missing-receiver branch. -/
theorem worker_protocol {setup : Setup F} {now : ℕ} {s : State F}
    (hs : startup setup now none = .ok s) (rng : G) (acts : List (Act F G))
    (hacts : ∀ a ∈ acts, a.isRestart = false) :
    let w := Run.run (World.step (keepMetadata setup.tpeParams)) (World.start setup rng s) acts
    (w.alive → WorkerProtocol w.proc) ∧ Quiet w.proc.trace := by
  have hquiet : Quiet (World.start setup rng s).proc.trace := by simp [Quiet, World.start]
  have hinv := World.run_inv (keepMetadata setup.tpeParams)
    (R := fun _ => True) (L := fun _ _ => True) (C := fun _ a => a.isRestart = false)
    (I := fun c => Counted c ∧ Quiet c.trace) (J := fun c => Quiet c.trace)
    (fun _ h => h.2) (fun _ h => h.2) (fun _ _ => Counted.step) (fun _ _ _ _ _ => trivial)
    (fun _ _ _ _ _ _ => trivial) (fun _ _ _ _ _ _ h => nomatch h)
    (World.start setup rng s) ⟨.start hs rng, hquiet⟩ acts
    (Run.along_of_forall fun a ha _ => hacts a ha)
  exact ⟨fun ha => (hinv.1 ha).1.protocol, hinv.2⟩

theorem worker_protocol_demo : WorkerProtocol (Demo.reached Demo.firstWindow).proc :=
  (worker_protocol Demo.startup_eq [] Demo.firstWindow (by decide)).1 (by decide +kernel)

end Bofuzz
