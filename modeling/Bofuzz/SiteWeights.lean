import Bofuzz.Control

/-! Whose weights the scalar feature map holds.

    The map, the matrix and the current vector are persisted separately. Within a process they
    agree, because a vector is put in force by one function that writes the map. A resumed process
    rebuilds the map from the first vector of its pool and then puts the current vector back. -/

namespace Bofuzz
open F64 Effect TpeStage Relation

variable {F G : Type} [F64 F] {R : Control F → Prop} {L : List (TpeTrial F) → List F → Prop}

/-- The scalar map is that of the vector in force. -/
def WeightsCurrent (s : State F) : Prop :=
  s.globals.currentV ≠ [] → ∃ m, s.featuresMatrix = some m ∧
    s.featuresMap = some (scalarWeights m s.globals.currentV s.globals.activeFeatureNames)

/-- The control side of `WeightsCurrent`; without a feature map nothing is ever put in force. -/
structure Weighed (map : Option (FeatureMap F)) (c : Control F) : Prop where
  matrix : c.gate → c.matrix.isSome
  weights : c.currentV ≠ [] → ∃ m, c.matrix = some m ∧
    c.feats = some (scalarWeights m c.currentV c.names)
  unmapped : map = none → c.gate = false ∧ c.currentV = []

namespace Weighed

theorem step {map : Option (FeatureMap F)} {c d : Control F} (h : Control.Step R L c d)
    (hI : Weighed map c) : Weighed map d := by
  cases h with
  | commit names dim matrix hphase hdim hmatrix =>
    refine ⟨fun hg => ?_, fun h => absurd rfl h, fun hmap => ⟨(hI.unmapped hmap).1, rfl⟩⟩
    rw [show matrix.isSome = c.matrix.isSome from hmatrix]
    exact hI.matrix hg
  | start v w snapshot hgate hphase hworker hlen hw hiter hmode hweights hnodup =>
    obtain ⟨m, hm⟩ := Option.isSome_iff_exists.mp (hI.matrix hgate)
    refine ⟨hI.matrix, fun _ => ⟨m, hm, ?_⟩, fun hmap => ?_⟩
    · show some (c.siteWeights w) = some (scalarWeights m w c.names)
      rw [Control.siteWeights, hm]
    · rw [(hI.unmapped hmap).1] at hgate
      cases hgate
  | _ => exact ⟨hI.matrix, hI.weights, hI.unmapped⟩

variable {setup : Setup F}

theorem start {now : ℕ} {s : State F} (hs : startup setup now none = .ok s)
    (rng : G) : Weighed setup.canonicalMap (World.start setup rng s).proc.control := by
  have hfresh := startup_fresh hs
  obtain ⟨t, active, u, _, _, hfin⟩ := startup_ok hs
  obtain ⟨acfg, fuzzStart, rfl⟩ := finishStartup_ok hfin
  refine ⟨fun hg => hfresh.matrix ?_, fun h => absurd hfresh.currentV h, fun hmap =>
    ⟨?_, hfresh.currentV⟩⟩
  · simp only [World.start, Proc.control, gate, Bool.and_eq_true] at hg
    exact hg.1.1
  · simp [World.start, Proc.control, gate, hmap]

end Weighed

/-! ### Resuming -/

variable (setup : Setup F)

/-- The active features after a resume: those the schema has under the persisted mask. -/
def resumedFeatures (s : State F) : List FeatureSpec :=
  computeActiveFeatures setup.schema s.mask.effectiveMask

/-- The vector a resumed process computes the scalar map from: the first of the persisted pool, the
    first of the candidate file where the pool is empty, or equal weights. -/
def resumedVector (s : State F) : List F :=
  let dim := (resumedFeatures setup s).length
  match ensurePool s.globals.vCandidates setup.candidatePath setup.candidateFile dim
      (candidatePolicy s.mask.mode) with
  | .ok (pool, _) => pool.head?.getD (equalSimplex dim)
  | .error _ => equalSimplex dim

/-- That vector weighs the sites as the current one does, if there is a current one. -/
def ResumesWeights (s : State F) : Prop :=
  s.globals.currentV = [] ∨ ∀ map ∈ setup.canonicalMap,
    let active := resumedFeatures setup s
    scalarWeights (activeMatrix setup map active) (resumedVector setup s) (active.map (·.name))
      = scalarWeights (activeMatrix setup map active) s.globals.currentV (active.map (·.name))

instance [DecidableEq F] (setup : Setup F) (s : State F) : Decidable (ResumesWeights setup s) :=
  inferInstanceAs (Decidable (_ ∨ ∀ map ∈ setup.canonicalMap, _))

theorem Weighed.resume {setup : Setup F} {p : Proc F G} {now : ℕ} {s : State F}
    (hI : Weighed setup.canonicalMap p.control) (hweights : ResumesWeights setup p.state)
    (hs : startup setup now (some p.state) = .ok s) (params : TpeParams F) (rng : G) :
    Weighed setup.canonicalMap { p with stage := .new params rng, state := s }.control := by
  cases hmap : setup.canonicalMap with
  | none =>
    -- without a feature map the gate stays closed and no vector is ever in force
    have hv : p.state.globals.currentV = [] := (hI.unmapped hmap).2
    obtain ⟨-, hsame, -, hexists⟩ := startup_frame hs
    have hgate : gate s = false := by simp [gate, hexists, hmap]
    exact ⟨fun hg => absurd (hgate.symm.trans hg) Bool.false_ne_true,
      fun h => absurd (hsame.trans hv) h, fun _ => ⟨hgate, hsame.trans hv⟩⟩
  | some map =>
    obtain ⟨runtime, _, vs, status, acfg, fuzzStart, hrt, rfl, _, hens, rfl⟩ := resume_ok hmap hs
    refine ⟨fun _ => rfl, fun hv => ⟨_, rfl, ?_⟩, by rintro ⟨⟩⟩
    have hmask : p.state.mask = runtime := by rw [State.mask, hrt]; rfl
    have hsame := (hweights.resolve_left hv) map hmap
    simp only [resumedVector, resumedFeatures, hmask, hens] at hsame
    exact congrArg some hsame

/-- Two processes with the same schema and feature map. -/
def Setup.SameFeatures (a b : Setup F) : Prop :=
  a.schema = b.schema ∧ a.canonicalMap = b.canonicalMap ∧ a.sites = b.sites

/-- Every restart rebuilds the scalar map from a vector that weighs the sites as the current one. -/
def KeepsWeights (setups : ℕ → Setup F) (w : World F G) : Act F G → Prop
  | .restart _ now => ResumesWeights (setups now) w.proc.state
  | _ => True

instance [DecidableEq F] (setups : ℕ → Setup F) (w : World F G) :
    (a : Act F G) → Decidable (KeepsWeights setups w a)
  | .restart _ now => inferInstanceAs (Decidable (ResumesWeights (setups now) _))
  | .append _ => .isTrue trivial
  | .outside _ => .isTrue trivial
  | .perform _ => .isTrue trivial

/-- The scalar site weights belong to the current vector in every state of a campaign whose
    restarts rebuild them from a vector of the same weights. -/
theorem site_weights_current [Draw F G] {setup : Setup F} {now : ℕ} {s : State F}
    (hs : startup setup now none = .ok s) (setups : ℕ → Setup F)
    (hsame : ∀ n, (setups n).SameFeatures setup) (rng : G) (acts : List (Act F G))
    (hacts : Run.Along (World.step (resume setups)) (KeepsWeights setups) (World.start setup rng s) acts) :
    WeightsCurrent (Run.run (World.step (resume setups)) (World.start setup rng s) acts).proc.state :=
  (World.run_inv (resume setups) (C := KeepsWeights setups) (R := fun _ => True)
    (L := fun _ _ => True) (I := Weighed setup.canonicalMap) (J := Weighed setup.canonicalMap)
    (fun _ h => h) (fun _ h => ⟨h.matrix, h.weights, h.unmapped⟩) (fun _ _ => Weighed.step)
    (fun _ _ _ _ _ => trivial) (fun _ _ _ _ _ _ => trivial)
    (fun p rng now t params hI hc h => by
      rw [← (hsame now).2.1] at hI ⊢
      exact hI.resume hc (resume_eq h) params rng)
    (World.start setup rng s) (.start hs rng) acts hacts).2.weights

/-- A restart during Explore does no harm. -/
theorem site_weights_current_demo :
    WeightsCurrent (Demo.resumed [Demo.progress 3, .restart [] 2000, Demo.call 12000 .empty,
      Demo.call 12500 .ready]).proc.state :=
  site_weights_current Demo.startup_eq (fun _ => Demo.setup) (fun _ => ⟨rfl, rfl, rfl⟩) [] _
    (by decide +kernel)

/-- A restart in the window of the first candidate: the map is that of the second one. -/
theorem resumed_weights_differ :
    let s := (Demo.resumed Demo.publishedThenRestarted).proc.state
    s.globals.currentV ≠ [] ∧ (s.featuresMatrix.map fun m =>
      scalarWeights m s.globals.currentV s.globals.activeFeatureNames) ≠ s.featuresMap := by
  decide +kernel

end Bofuzz
