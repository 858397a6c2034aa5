import Bofuzz.Error

/-! Feature vectors and the scalar feature map (`feature_sched/features_map.rs`).

    A vector of simplex weights over the active features turns the feature matrix into one weight
    for each sancov site (`combineFeatureMatrixToWeights`); `applyVToFeatures` puts a vector in
    force. All operations keep the length of a vector, which is what the run-time dimension
    checks are about. -/

namespace Bofuzz
open F64 List

variable {F : Type} [F64 F]

/-- `EPS`, the smoothing constant 1e-6. -/
def eps : F := lit (1 / 1000000)

/-! ### Simplex vectors -/

/-- An entry no weight or credit vector may have. -/
inductive BadEntry where
  | nonFinite (idx : ℕ)
  | negative (idx : ℕ)

/-- The first non-finite or negative entry, counting indices from `idx`. -/
def firstBad (idx : ℕ) : List F → Option BadEntry
  | [] => none
  | x :: xs =>
    if !isFinite x then some (.nonFinite idx)
    else if lt x (lit 0) then some (.negative idx)
    else firstBad (idx + 1) xs

def equalSimplex (d : ℕ) : List F := List.replicate d (lit 1 / ofNat d)

/-- Add `EPS` to every entry and divide by the sum. -/
def normalizeSimplexEps (v : List F) : Except Msg (List F) :=
  if v = [] then .ok []
  else
    match firstBad 0 v with
    | some (.nonFinite _) => .error .nonFiniteWeight
    | some (.negative _) => .error .negativeWeight
    | none =>
      let out := v.map (· + eps)
      let sum := F64.sum out
      if !isFinite sum || le sum eps then .error .zeroDenominator
      else .ok (out.map (· / sum))

theorem firstBad_eq_none : ∀ {idx : ℕ} {xs : List F}, firstBad idx xs = none ↔
    ∀ x ∈ xs, isFinite x ∧ lt x (lit 0) = false
  | _, [] => by simp [firstBad]
  | idx, x :: xs => by
    have ih : firstBad (idx + 1) xs = none ↔ _ := firstBad_eq_none
    cases hfin : isFinite x <;> cases hneg : lt x (lit 0) <;>
      simp [firstBad, hfin, hneg, ih]

@[simp] theorem equalSimplex_length (d : ℕ) : (equalSimplex d : List F).length = d := by
  simp [equalSimplex]

theorem normalizeSimplexEps_length {v w : List F} (h : normalizeSimplexEps v = .ok w) :
    w.length = v.length := by
  unfold normalizeSimplexEps at h
  split_ifs at h with hv
  · cases h; simp [hv]
  split at h
  · cases h
  · cases h
  · simp only at h
    split_ifs at h
    cases h; simp

/-! ### The active features -/

/-- The schema features whose mask bit is set, in schema order. -/
def computeActiveFeatures (schema : FeatureSchemaFile) (mask : List Bool) : List FeatureSpec :=
  ((schema.features.zip mask).filter (·.2)).map (·.1)

/-- The entries of a feature map that belong to the given features. -/
def filterActiveFeatures (fullMap : FeatureMap F) (activeFeatureNames : List String) :
    FeatureMap F :=
  fun name => if name ∈ activeFeatureNames then fullMap name else none

variable {α : Type}

theorem zip_filter_length : ∀ (xs : List α) (mask : List Bool), mask.length = xs.length →
    ((xs.zip mask).filter (·.2)).length = mask.count true
  | [], [], _ => rfl
  | _ :: xs, b :: mask, h => by
    have ih := zip_filter_length xs mask (by simpa using h)
    cases b <;> simp [ih]
  | [], _ :: _, h => by simp at h
  | _ :: _, [], h => by simp at h

variable {schema : FeatureSchemaFile}

/-- There is one active feature for each bit set in a mask of the schema's length. -/
theorem computeActiveFeatures_length {mask : List Bool} (h : mask.length = schema.features.length) :
    (computeActiveFeatures schema mask).length = mask.count true := by
  rw [computeActiveFeatures, length_map, zip_filter_length _ _ h]

/-! ### The scalar feature map -/

/-- `Vec::resize`. -/
def resizeWith (l : List α) (n : ℕ) (d : α) : List α :=
  l.take n ++ List.replicate (n - l.length) d

@[simp] theorem resizeWith_length (l : List α) (n : ℕ) (d : α) : (resizeWith l n d).length = n := by
  simp only [resizeWith, length_append, length_take, length_replicate]
  omega

theorem resizeWith_self {l : List α} {n : ℕ} (d : α) (h : l.length = n) : resizeWith l n d = l := by
  subst h
  simp [resizeWith]

/-- Aligning scalar weights with the sites; the `truncate` after the `resize` changes nothing. -/
def resize (l : List F) (n : ℕ) : List F := resizeWith l n (lit 0)

/-- The weight of one site: the weighted sum of its positive feature values. -/
def siteWeight (map : FeatureMap F) (i : ℕ) (weighted : List (String × F)) : F :=
  let total := weighted.foldl (fun total nw =>
    let val := ((map nw.1).bind (·[i]?)).getD (lit 0)
    if isFinite val && lt (lit 0) val then total + nw.2 * val else total) (lit 0)
  if isFinite total then max total (lit 0) else lit 0

/-- One weight for each site; a vector of the wrong length or with a bad entry counts as the
    equal simplex. -/
def combineFeatureMatrixToWeights (map : FeatureMap F) (vIn : List F)
    (activeFeatureNames : List String) : List F :=
  let d := activeFeatureNames.length
  if d = 0 then []
  else
    let weights :=
      if vIn.length = d then (normalizeSimplexEps vIn).toOption.getD (equalSimplex d)
      else equalSimplex d
    let expectedLen := (activeFeatureNames.findSome? fun name => (map name).map List.length).getD 0
    (List.range expectedLen).map fun i => siteWeight map i (activeFeatureNames.zip weights)

/-- The aligned scalar weights of a vector over a feature matrix. -/
def scalarWeights (m : FeaturesMatrixMeta F) (v : List F) (activeFeatureNames : List String) :
    List F :=
  resize (combineFeatureMatrixToWeights m.matrix v activeFeatureNames) m.sites

/-- Put a vector in force: recompute the scalar map and record the normalized vector. -/
def applyVToFeatures (s : State F) (simplexV : List F) (iteration : ℕ) : Except Error (State F) :=
  let activeDim := s.globals.featureDim
  let activeNames := s.globals.activeFeatureNames
  if simplexV.length ≠ activeDim then
    .error (.illegalArgument (.weightLength simplexV.length activeDim))
  else
    match normalizeSimplexEps simplexV with
    | .error m => .error (.illegalArgument m)
    | .ok simplexWeights =>
      let aligned :=
        match s.featuresMatrix with
        | some m => scalarWeights m simplexWeights activeNames
        | none => resize (s.featuresMap.getD []) (s.featuresMap.getD []).length
      .ok { s with
        featuresMap := some aligned
        featureVector := some { iteration, simplexWeights }
        globals := { s.globals with currentV := simplexWeights } }

/-- Install the mask that the auto-credit commit selected: narrow the coordinate space and drop
    every vector of the old one. -/
def installCommittedRuntimeMask (s : State F) (schema : FeatureSchemaFile) (mask : List Bool) :
    Except Error (State F) :=
  if mask.length ≠ schema.features.length then
    .error (.illegalArgument (.committedMaskLength mask.length schema.features.length))
  else if mask.all (!·) then .error (.illegalArgument .committedMaskEmpty)
  else
    let activeFeatures := computeActiveFeatures schema mask
    let activeFeatureNames := activeFeatures.map (·.name)
    let s := s.setSchemaInfo schema.schemaVersion schema.features mask activeFeatures
    let featuresMatrix := s.featuresMatrix.map fun m =>
      { matrix := filterActiveFeatures m.matrix activeFeatureNames, sites := m.sites }
    let s := { s with featuresMatrix }
    .ok (((s.replaceVCandidates []).setCurrentWeightVec []).setTpeSatisfied (!activeFeatureNames.isEmpty))

/-! ### The dimension check (`feature_sched/mod.rs`) -/

/-- The first vector whose length is not the active dimension, with its index. -/
def firstWrongLength (activeDim idx : ℕ) : List (List F) → Option (ℕ × ℕ)
  | [] => none
  | v :: vs =>
    if v.length ≠ activeDim then some (idx, v.length) else firstWrongLength activeDim (idx + 1) vs

def validateCommittedVectorDimensions (s : State F) : Except Error Unit :=
  let activeDim := s.globals.featureDim
  let currentV := s.globals.currentV
  if currentV ≠ [] ∧ currentV.length ≠ activeDim then
    .error (.illegalState (.currentVLength currentV.length activeDim))
  else
    match firstWrongLength activeDim 0 s.globals.vCandidates with
    | some (idx, len) => .error (.illegalState (.candidateLength idx len activeDim))
    | none =>
      match firstWrongLength activeDim 0 ((s.history.map (·.trials)).getD [] |>.map (·.1)) with
      | some (idx, len) => .error (.illegalState (.trialLength idx len activeDim))
      | none =>
        match s.runtime with
        | none => .ok ()
        | some runtime =>
          if runtime.tpeInitCommitted ∧ runtime.normalizedCreditInitV.length ≠ activeDim then
            .error (.illegalState (.initVLength runtime.normalizedCreditInitV.length activeDim))
          else .ok ()

omit [F64 F] in
theorem firstWrongLength_eq_none {activeDim : ℕ} : ∀ {idx : ℕ} {vs : List (List F)},
    firstWrongLength activeDim idx vs = none ↔ ∀ v ∈ vs, v.length = activeDim
  | _, [] => by simp [firstWrongLength]
  | idx, v :: vs => by
    have ih : firstWrongLength activeDim (idx + 1) vs = none ↔ _ := firstWrongLength_eq_none
    by_cases hv : v.length = activeDim <;> simp [firstWrongLength, hv, ih]

theorem applyVToFeatures_ok {s t : State F} {v : List F} {iteration : ℕ}
    (h : applyVToFeatures s v iteration = .ok t) :
    v.length = s.globals.featureDim ∧ ∃ w, normalizeSimplexEps v = .ok w ∧ t = { s with
        featuresMap := some (match s.featuresMatrix with
          | some m => scalarWeights m w s.globals.activeFeatureNames
          | none => resize (s.featuresMap.getD []) (s.featuresMap.getD []).length)
        featureVector := some { iteration, simplexWeights := w }
        globals := { s.globals with currentV := w } } := by
  unfold applyVToFeatures at h
  simp only at h
  split_ifs at h with hlen
  have hlen : v.length = s.globals.featureDim := by simpa using hlen
  refine ⟨hlen, ?_⟩
  split at h
  · cases h
  · next w hw => cases h; exact ⟨w, hw, rfl⟩

theorem installCommittedRuntimeMask_ok {s t : State F}
    {mask : List Bool} (h : installCommittedRuntimeMask s schema mask = .ok t) :
    mask.length = schema.features.length ∧ computeActiveFeatures schema mask ≠ [] ∧ t = { s with
        featuresMatrix := s.featuresMatrix.map fun m =>
          { matrix := filterActiveFeatures m.matrix
              ((computeActiveFeatures schema mask).map (·.name)), sites := m.sites }
        globals := { s.globals with
          schemaVersion := schema.schemaVersion
          schemaFeatures := schema.features
          vecMask := mask
          activeFeatures := computeActiveFeatures schema mask
          activeFeatureNames := (computeActiveFeatures schema mask).map (·.name)
          featureDim := (computeActiveFeatures schema mask).length
          vCandidates := []
          currentV := []
          tpeSatisfied := true } } := by
  unfold installCommittedRuntimeMask at h
  split_ifs at h with hlen hall
  have hlen : mask.length = schema.features.length := by simpa using hlen
  have hne : computeActiveFeatures schema mask ≠ [] := by
    intro hnil
    have hcount := computeActiveFeatures_length hlen
    rw [hnil, length_nil] at hcount
    refine hall (all_eq_true.mpr fun b hb => ?_)
    cases b with
    | false => rfl
    | true => exact absurd hb (count_eq_zero.mp hcount.symm)
  refine ⟨hlen, hne, ?_⟩
  obtain rfl := Except.ok.inj h
  have hnames : ((computeActiveFeatures schema mask).map (·.name)).isEmpty = false := by
    rw [isEmpty_map, isEmpty_eq_false_iff]
    exact hne
  simp only [State.setTpeSatisfied, State.setCurrentWeightVec, State.replaceVCandidates,
    State.setSchemaInfo, hnames, Bool.not_false]

end Bofuzz
