import Bofuzz.Protocol

/-! Progress of a campaign and the order of its publications.

    Whatever a campaign meets (calls that fail, workers that end without a result, restarts that run
    the startup code on the persisted state, each with a setup of its own), it never counts back or
    returns to Explore (`campaign_progress`), and what it publishes are the results of the
    recomputes it started, in the order of their starts (`publications_in_order`). -/

namespace Bofuzz
open F64 Effect TpeStage Relation

variable {F G : Type} [F64 F] {R : Control F → Prop} {L : List (TpeTrial F) → List F → Prop}

/-- A campaign that was at `c₀` can be at `c`. -/
structure Progressed (c₀ c : Control F) : Prop where
  space : c.gate → 0 < c.dim
  iteration : c₀.iter.currentIteration ≤ c.iter.currentIteration
  inForce : c.phase ≠ .explore → c.currentV ≠ []
  normalized : c.phase ≠ .explore → ∃ v, normalizeSimplexEps v = .ok c.currentV
  beyond : c₀.phase ≠ .explore → c.phase ≠ .explore

theorem Progressed.step {c₀ c d : Control F} (h : Control.Step R L c d) (hI : Progressed c₀ c) :
    Progressed c₀ d := by
  cases h with
  -- the vector that the pending recompute was started for is in force
  | repairExplore hphase hworker hv => exact absurd hv (hI.inForce (hphase.trans_ne TpePhase.noConfusion))
  | commit names dim matrix hphase hdim =>
    exact ⟨fun _ => hdim, hI.iteration, fun h => absurd hphase h, fun h => absurd hphase h, hI.beyond⟩
  | start v w snapshot hgate hphase hworker hlen hw hiter =>
    refine ⟨hI.space, ?_, fun _ hnil => ?_, fun _ => ⟨v, hw⟩, fun _ => TpePhase.noConfusion⟩
    · have hle := hI.iteration
      show _ ≤ snapshot.iteration
      omega
    · have hpos := hI.space hgate
      rw [← hlen, ← normalizeSimplexEps_length hw, show w = [] from hnil] at hpos
      exact absurd hpos (lt_irrefl 0)
  | repairActive hphase | publish _ _ _ _ hphase | missing hphase | lock hphase =>
    have hne : c.phase ≠ .explore := hphase.trans_ne TpePhase.noConfusion
    exact ⟨hI.space, hI.iteration, fun _ => hI.inForce hne, fun _ => hI.normalized hne,
      fun _ => TpePhase.noConfusion⟩
  | _ => exact ⟨hI.space, hI.iteration, hI.inForce, hI.normalized, hI.beyond⟩

variable [Draw F G]

theorem Progressed.run (setups : ℕ → Setup F) {c₀ : Control F} {w : World F G}
    (h : Progressed c₀ w.proc.control) (acts : List (Act F G)) :
    Progressed c₀ (Run.run (World.step (resume setups)) w acts).proc.control := by
  refine World.run_always _ (fun _ h => ⟨h.space, h.iteration, h.inForce, h.normalized, h.beyond⟩)
    (fun _ _ => step) (fun p rng now s params hI hs => ?_) h acts
  obtain ⟨hiter, hv, hspace, -⟩ := startup_frame (resume_eq hs)
  refine ⟨hspace, ?_, ?_, ?_, ?_⟩ <;> simp only [Control.phase, Proc.control, hiter, hv]
  · exact hI.iteration
  · exact hI.inForce
  · exact hI.normalized
  · exact hI.beyond

/-- From any state of a campaign on, the iteration number does not fall, Explore is not entered
    again once it was left, and from then on a normalized vector is in force. -/
theorem campaign_progress {setup : Setup F} {now : ℕ} {s : State F}
    (hs : startup setup now none = .ok s) (setups : ℕ → Setup F) (rng : G)
    (acts later : List (Act F G)) :
    let w := Run.run (World.step (resume setups)) (World.start setup rng s) acts
    Progressed w.proc.control (Run.run (World.step (resume setups)) w later).proc.control := by
  have hexplore : (World.start setup rng s).proc.control.phase = .explore :=
    congrArg TpeIterationMeta.phase (startup_fresh hs).iter
  have hspace := (Linked.start hs rng).space
  have hstart : Progressed (World.start setup rng s).proc.control (World.start setup rng s).proc.control :=
    ⟨fun hg => (hspace hg).1, le_rfl, fun h => absurd hexplore h, fun h => absurd hexplore h, id⟩
  have hw := hstart.run setups acts
  exact .run setups ⟨hw.space, le_rfl, hw.inForce, hw.normalized, id⟩ later

theorem campaign_progress_demo : Progressed (Demo.resumed Demo.firstWindow).proc.control
    (Run.run (World.step (resume fun _ => Demo.setup)) (Demo.resumed Demo.firstWindow)
      [.restart [] 14000]).proc.control :=
  campaign_progress Demo.startup_eq (fun _ => Demo.setup) [] Demo.firstWindow [.restart [] 14000]

/-! ### Publications -/

/-- The recompute that was started last, unless its result was published or dropped since. -/
def outstanding : List (Event F) → Option (CorpusWeightSnapshot F)
  | [] | .published .. :: _ | .staleResult :: _ => none
  | .started _ _ _ snapshot :: _ => some snapshot
  | _ :: older => outstanding older

/-- Every published result is that of the recompute outstanding then. -/
def InOrder (trace : List (Event F)) : Prop :=
  ∀ result edges older, .published result edges :: older <:+ trace →
    ∃ snapshot, outstanding older = some snapshot ∧ result = computeWeights snapshot

omit [Draw F G] in
theorem InOrder.cons {trace : List (Event F)} (h : InOrder trace) {e : Event F}
    (he : ∀ result edges, e = .published result edges →
      ∃ snapshot, outstanding trace = some snapshot ∧ result = computeWeights snapshot) :
    InOrder (e :: trace) := by
  intro result edges older hsuffix
  rcases List.suffix_cons_iff.mp hsuffix with heq | hsuffix
  · obtain ⟨rfl, rfl⟩ := List.cons.inj heq
    exact he _ _ rfl
  · exact h _ _ _ hsuffix

/-- What a channel waits for is the recompute outstanding. -/
structure Awaited (c : Control F) : Prop where
  channel : ∀ snapshot, c.rx = some snapshot → outstanding c.trace = some snapshot
  inOrder : InOrder c.trace

theorem Awaited.step {c d : Control F} (h : Control.Step R L c d) (hI : Awaited c) : Awaited d := by
  cases h with
  | start v w snapshot => exact ⟨fun _ h => h, hI.inOrder.cons nofun⟩
  | publish snapshot now edges persistNow hphase hrx =>
    refine ⟨nofun, hI.inOrder.cons ?_⟩
    rintro _ _ ⟨⟩
    exact ⟨snapshot, hI.channel _ hrx, rfl⟩
  | stale => exact ⟨nofun, hI.inOrder.cons nofun⟩
  | missing | observe => exact ⟨hI.channel, hI.inOrder.cons nofun⟩
  | _ => exact ⟨hI.channel, hI.inOrder⟩

/-- Results are published in the order of their starts and each at most once, whatever a restart
    makes of the state. -/
theorem publications_in_order (restart : Restart F) (setup : Setup F) (rng : G) (s : State F)
    (acts : List (Act F G)) :
    InOrder (Run.run (World.step restart) (World.start setup rng s) acts).proc.trace := by
  have hstart : Awaited (World.start setup rng s).proc.control :=
    ⟨(fun _ h => nomatch h), fun _ _ _ h => absurd (List.suffix_nil.mp h) (List.cons_ne_nil _ _)⟩
  exact (World.run_always restart (fun _ h => ⟨nofun, h.inOrder⟩) (fun _ _ => Awaited.step)
    (fun _ _ _ _ _ h _ => ⟨nofun, h.inOrder⟩) hstart acts).inOrder

end Bofuzz
