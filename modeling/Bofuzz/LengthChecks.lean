import Bofuzz.VectorLengths

/-! The errors of the dimension checks.

    Putting a vector in force, enqueuing around a center, reading the credits and validating a
    committed state all check lengths before anything else. Here is what each of these functions
    can still fail with once the lengths are right: the values, never the dimension. -/

namespace Bofuzz
open F64 Effect TpeStage

/-- The messages of the dimension checks, and that of a commit without a candidate. -/
def Msg.isDimension : Msg → Bool
  | .currentVLength .. | .candidateLength .. | .trialLength .. | .initVLength .. => true
  | .weightLength .. | .exactCenterLength .. | .creditLength .. => true
  | .noInitialCandidate => true
  | _ => false

def Error.isDimension : Error → Bool
  | .illegalState m | .illegalArgument m => m.isDimension
  | _ => false

variable {e : Error}

theorem Error.isDimension_of_isPublishing (h : e.isPublishing) : e.isDimension = false := by
  cases e with
  | keyNotFound | clampPanic => rfl
  | _ => cases h

theorem isDimension_of_mapError {α : Type} {x : Except Msg α}
    (hx : ∀ m, x = .error m → m.isDimension = false)
    (h : x.mapError Error.illegalState = .error e) :
    e.isDimension = false := by
  cases x with
  | ok a => cases h
  | error m => cases h; exact hx m rfl

variable {F G : Type} [F64 F] {v : List F}

theorem normalizeSimplexEps_error {m : Msg} (h : normalizeSimplexEps v = .error m) :
    m.isDimension = false := by
  unfold normalizeSimplexEps at h
  split_ifs at h
  split at h
  · cases h; rfl
  · cases h; rfl
  · dsimp only at h
    split_ifs at h
    cases h
    rfl

variable {s : State F}

/-- Putting a vector of the active dimension in force may only fail for its values. -/
theorem applyVToFeatures_error {iteration : ℕ}
    (hv : v.length = s.globals.featureDim) (h : applyVToFeatures s v iteration = .error e) :
    e.isDimension = false := by
  unfold applyVToFeatures at h
  rw [if_neg (not_not.mpr hv)] at h
  split at h
  · next m hm => cases h; exact normalizeSimplexEps_error hm
  · cases h

theorem normalizeSimplexExact_error (h : normalizeSimplexExact v = .error e) :
    e.isDimension = false := by
  unfold normalizeSimplexExact at h
  split_ifs at h
  split at h
  · cases h; rfl
  · cases h; rfl
  · dsimp only at h
    split_ifs at h
    cases h
    rfl

theorem enqueueExact_error {opt : TpeOptimizer F} {center : List F} {g : G} [Draw F G]
    (hlen : center.length = s.globals.featureDim)
    (h : opt.enqueueExactThenNeighborCandidates s center g = .error e) : e.isDimension = false := by
  unfold TpeOptimizer.enqueueExactThenNeighborCandidates at h
  rw [if_neg (not_not.mpr hlen)] at h
  split_ifs at h
  split at h
  · next hnorm => cases h; exact normalizeSimplexExact_error hnorm
  · cases h

variable {credits : List F}

theorem normalizeCredit_error {m : Msg} (h : normalizeCreditOrEqualSimplex credits = .error m) :
    m.isDimension = false ∧ firstBad 0 credits ≠ none := by
  unfold normalizeCreditOrEqualSimplex at h
  split_ifs at h
  split at h
  · next hbad => cases h; exact ⟨rfl, by rw [hbad]; exact Option.some_ne_none _⟩
  · next hbad => cases h; exact ⟨rfl, by rw [hbad]; exact Option.some_ne_none _⟩
  · dsimp only at h
    split_ifs at h

/-- A selection that succeeds has seen no bad credit. -/
theorem selectPositiveCreditTopKMask_error {schemaDim topK : ℕ} {m : Msg}
    (h : selectPositiveCreditTopKMask credits schemaDim topK = .error m) :
    m.isDimension = false := by
  unfold selectPositiveCreditTopKMask at h
  split_ifs at h
  · cases h; rfl
  · cases h; rfl
  · split at h
    · cases h; rfl
    · cases h; rfl
    · dsimp only at h
      split_ifs at h

variable {selected : Option (List Bool)}

theorem selectPositiveCreditTopKMask_firstBad {schemaDim topK : ℕ}
    (h : selectPositiveCreditTopKMask credits schemaDim topK = .ok selected) :
    firstBad 0 credits = none := by
  unfold selectPositiveCreditTopKMask at h
  split_ifs at h
  split at h
  · cases h
  · cases h
  · next hbad => exact hbad

/-- The credits of the selected features can be normalized when all credits are sound. -/
theorem normalizeCredit_project {active : List F} {mask : List Bool}
    (hcredits : firstBad 0 credits = none) (h : projectVectorByMask credits mask = .ok active)
    (m : Msg) :
    normalizeCreditOrEqualSimplex active ≠ .error m := by
  intro hm
  refine (normalizeCredit_error hm).2 (firstBad_eq_none.mpr fun x hx => ?_)
  unfold projectVectorByMask at h
  split_ifs at h
  cases h
  obtain ⟨⟨y, b⟩, hy, rfl⟩ := List.mem_map.mp hx
  exact firstBad_eq_none.mp hcredits y (List.of_mem_zip (List.mem_of_mem_filter hy)).1

variable {schema : FeatureSchemaFile}

theorem installCommittedRuntimeMask_error {mask : List Bool}
    (h : installCommittedRuntimeMask s schema mask = .error e) : e.isDimension = false := by
  unfold installCommittedRuntimeMask at h
  split_ifs at h <;> (cases h; rfl)

theorem creditsWithDim_eq {raw : List F} {dim : ℕ} (h : Fits dim raw) (label : String) :
    ∃ credits, creditsWithDim raw dim label = .ok credits ∧ credits.length = dim := by
  unfold creditsWithDim
  split_ifs with hnil hlen
  · exact ⟨_, rfl, List.length_replicate⟩
  · exact absurd (h.resolve_left hnil) hlen
  · exact ⟨raw, rfl, not_not.mp hlen⟩

/-- The selection of the auto-credit mode fails only before it has installed anything. -/
theorem installSelection_error {topK : ℕ} (hlen : credits.length = schema.features.length)
    (h : selectPositiveCreditTopKMask credits schema.features.length topK = .ok selected)
    (s : State F) :
    Spec (installSelection schema credits selected) s (fun _ _ => True)
      (fun e t => t = s ∧ e.isDimension = false) := by
  unfold installSelection
  cases selected with
  | none =>
    simp only [spec_bind, spec_get, spec_ofResult, spec_set, spec_pure]
    exact ⟨fun _ _ => trivial, fun e he => ⟨trivial, installCommittedRuntimeMask_error he⟩⟩
  | some mask =>
    simp only [spec_bind, spec_get, spec_ofResult, spec_set, spec_pure]
    refine ⟨fun t _ => ⟨fun active hactive => ⟨fun _ _ => trivial, fun e he => ?_⟩, fun e he => ?_⟩,
      fun e he => ⟨trivial, installCommittedRuntimeMask_error he⟩⟩
    · cases hn : normalizeCreditOrEqualSimplex active with
      | ok a => rw [hn] at he; cases he
      | error m =>
        exact absurd hn (normalizeCredit_project (selectPositiveCreditTopKMask_firstBad h)
          (eq_ok_of_mapError hactive) m)
    · have hmask := selectPositiveCreditTopKMask_length h
      rw [projectVectorByMask, if_neg (not_not.mpr (hlen.trans hmask.symm))] at he
      cases he

end Bofuzz
