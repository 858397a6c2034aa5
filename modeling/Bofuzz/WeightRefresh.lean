import Bofuzz.FeaturesMap
import Bofuzz.Lib.Effect

/-! Corpus weights (`stats.rs`, `factor.rs`, `weight_refresh.rs`).

    A recompute takes a snapshot of the corpus, a worker turns it into one weight for each testcase
    (`computeWeights`), and publishing the result writes the weights, their running statistics and
    the scheduling factor of every testcase named in it. -/

namespace Bofuzz
open F64 Effect

variable {F : Type} [F64 F]

/-! ### Statistics and the factor -/

namespace WeightStats

def zero : WeightStats F := { n := 0, mu := lit 0, m2 := lit 0 }

/-- One step of the running mean and sum of squared deviations. -/
def update (s : WeightStats F) (w : F) : WeightStats F :=
  let n := s.n + 1
  let delta := w - s.mu
  let mu := s.mu + delta / ofNat n
  { n, mu, m2 := s.m2 + delta * (w - mu) }

def sigma (s : WeightStats F) : F :=
  if 1 < s.n then sqrt (s.m2 / ofNat (s.n - 1)) else lit (1 / 1000000000)

end WeightStats

/-- `f64::clamp`, which panics unless the bounds are ordered. -/
def clamp (x lo hi : F) : Except Error F :=
  if !le lo hi then .error .clampPanic
  else .ok (if lt x lo then lo else if lt hi x then hi else x)

variable (params : FactorParams F)

/-- The exp or tanh mapping of a standardized weight; a non-finite value counts as one. -/
def rawG (z : F) : F :=
  let g := if params.useTanh then lit 1 + tanh (params.beta * z) else exp (params.beta * z)
  if isFinite g then g else lit 1

/-- The factor of weight `w` under the given statistics. -/
def blendedFactor (stats : WeightStats F) (w : F) : Except Error F :=
  let z := (w - stats.mu) / (stats.sigma + lit (1 / 1000000000))
  clamp (lit 1 + params.alpha * (rawG params z - lit 1)) params.gmin params.gmax

/-- The weight of an entry that the given mode reads. -/
def Testcase.weight (tc : Testcase F) : WeightComputeMode → Option F
  | .frontier => tc.featureWeight.map (·.weight)
  | .path => tc.pathWeight

variable (s : State F)

/-- The factor of an entry, one as long as features are off or there is too little data. -/
def computeFactor (entry : Testcase F) : Except Error F :=
  if !s.getFeaturesEnabled then .ok (lit 1)
  else
    match s.globalStats, entry.weight s.mode with
    | some stats, some w =>
      if stats.n < 2 then .ok (lit 1) else blendedFactor params stats w
    | _, _ => .ok (lit 1)

/-! ### Snapshots and workers -/

structure FrontierSnapshot where
  fPrev : List Bool
  fNext : List Bool
  successors : List (List ℕ)

structure TestcaseSnapshot where
  corpusId : CorpusId
  coveredSancov : List ℕ

structure CorpusWeightSnapshot (F : Type) where
  iteration : ℕ
  mode : WeightComputeMode
  featureWeightsBySancov : List F
  frontier : Option FrontierSnapshot
  testcases : List TestcaseSnapshot

structure TestcaseWeightResult (F : Type) where
  corpusId : CorpusId
  weight : F

structure WeightRecomputeResult (F : Type) where
  iteration : ℕ
  mode : WeightComputeMode
  perTestcase : List (TestcaseWeightResult F)

/-- The source looks every id of the corpus up again, which cannot fail. -/
def buildCorpusWeightSnapshot (iteration : ℕ) (mode : WeightComputeMode)
    (featureWeightsBySancov : List F) : CorpusWeightSnapshot F where
  iteration := iteration
  mode := mode
  featureWeightsBySancov := featureWeightsBySancov
  frontier :=
    match mode, s.frontier, s.acfg with
    | .frontier, some fm, some acfg =>
      some { fPrev := fm.fPrev, fNext := fm.fNext, successors := acfg.successors }
    | _, _, _ => none
  testcases := s.corpus.entries.map fun e =>
    { corpusId := e.1, coveredSancov := e.2.sancovIndexes.getD [] }

theorem buildCorpusWeightSnapshot_nodup (iteration : ℕ) (mode : WeightComputeMode)
    (featureWeightsBySancov : List F) :
    ((buildCorpusWeightSnapshot s iteration mode featureWeightsBySancov).testcases.map
      (·.corpusId)).Nodup := by
  have h := s.corpus.nodup
  simpa [buildCorpusWeightSnapshot, Function.comp_def] using h

variable (featureWeights : List F)

def pathWeight (covered : List ℕ) : F :=
  sum ((covered.map fun i => featureWeights.getD i (lit 0)).filter
    fun w => isFinite w && lt (lit 0) w)

variable (frontier : FrontierSnapshot)

/-- The uncovered successors of the covered sites, each once; the source keeps them in a hash set,
    so their order is its own. -/
def nextSeen (covered : List ℕ) : List ℕ :=
  covered.foldl (fun seen node => ((frontier.successors.getD node []).filter
    (frontier.fNext.getD · false)).foldl (fun seen succ => if succ ∈ seen then seen else seen ++ [succ])
      seen) []

/-- The weight if the hash set of successors is iterated in the order `seen`. -/
def frontierWeightOver (covered seen : List ℕ) : F :=
  let weightAt (node : ℕ) : F := max (featureWeights.getD node (lit 0)) (lit 0)
  let prev := covered.foldl (fun total node =>
    if frontier.fPrev.getD node false then total + weightAt node else total) (lit 0)
  let total := seen.foldl (fun total node => total + weightAt node) prev
  if isFinite total then total else lit 0

def frontierWeight (covered : List ℕ) : F :=
  frontierWeightOver featureWeights frontier covered (nextSeen frontier covered)

def computeWeights (snapshot : CorpusWeightSnapshot F) : WeightRecomputeResult F where
  iteration := snapshot.iteration
  mode := snapshot.mode
  perTestcase := snapshot.testcases.map fun tc =>
    { corpusId := tc.corpusId
      weight :=
        match snapshot.mode with
        | .path => pathWeight snapshot.featureWeightsBySancov tc.coveredSancov
        | .frontier => (snapshot.frontier.map fun f =>
            frontierWeight snapshot.featureWeightsBySancov f tc.coveredSancov).getD (lit 0) }

/-! ### Publishing -/

/-- Write the weight of one testcase. -/
def Testcase.setWeight (tc : Testcase F) (result : WeightRecomputeResult F) (weight : F) :
    Testcase F :=
  match result.mode with
  | .frontier =>
    { tc with featureWeight := some { iteration := result.iteration, weight, mode := result.mode } }
  | .path => { tc with pathWeight := some weight }

variable (result : WeightRecomputeResult F)

/-- The first loop of publishing: write the weights and accumulate their statistics. -/
def writeWeights :
    List (TestcaseWeightResult F) → WeightStats F → EStateM Error (State F) (WeightStats F)
  | [], stats => pure stats
  | item :: items, stats => do
    let s ← get
    match s.corpus.get item.corpusId with
    | none => throw (.keyNotFound (.indexNotFound item.corpusId))
    | some _ =>
      set { s with corpus := s.corpus.modify item.corpusId (·.setWeight result item.weight) }
      writeWeights items (stats.update item.weight)

/-- The second loop: recompute the factor of every testcase. -/
def writeFactors : List (TestcaseWeightResult F) → EStateM Error (State F) Unit
  | [] => pure ()
  | item :: items => do
    let s ← get
    match s.corpus.get item.corpusId with
    | none => throw (.keyNotFound (.indexNotFound item.corpusId))
    | some entry =>
      let factor ← ofResult (computeFactor params s entry)
      set { s with corpus := s.corpus.modify item.corpusId fun tc =>
        { tc with externalPerfMult := some factor } }
      writeFactors items

def publishWeightRecomputeResult : EStateM Error (State F) Unit := do
  let stats ← writeWeights result result.perTestcase WeightStats.zero
  modify fun s => { s with globalStats := some stats }
  let s ← get
  writeFactors s.globals.factorParams result.perTestcase

/-! ### What publishing touches -/

/-- `t` is `s` with other corpus metadata and statistics. -/
def CorpusOnly (s t : State F) : Prop :=
  ∃ corpus globalStats, t = { s with corpus, globalStats }

theorem CorpusOnly.refl : CorpusOnly s s := ⟨s.corpus, s.globalStats, rfl⟩

theorem CorpusOnly.trans {s t u : State F} : CorpusOnly s t → CorpusOnly t u → CorpusOnly s u := by
  rintro ⟨c, g, rfl⟩ ⟨c', g', rfl⟩
  exact ⟨c', g', rfl⟩

/-- The errors of publishing: a testcase that is gone, and factor bounds out of order. -/
def Error.isPublishing : Error → Bool
  | .keyNotFound _ => true
  | .clampPanic => true
  | _ => false

theorem computeFactor_error {params : FactorParams F} {s : State F} {entry : Testcase F} {e : Error}
    (h : computeFactor params s entry = .error e) : e.isPublishing := by
  unfold computeFactor at h
  split_ifs at h
  split at h
  · split_ifs at h
    unfold blendedFactor clamp at h
    split_ifs at h
    cases h
    rfl
  · cases h

/-- What only touches the corpus after `t` only touches it after `s`. -/
theorem CorpusOnly.after {α : Type} {m : EStateM Error (State F) α} {s t : State F}
    (h : CorpusOnly s t)
    (hm : Spec m t (fun _ => CorpusOnly t) fun e u => CorpusOnly t u ∧ e.isPublishing) :
    Spec m t (fun _ => CorpusOnly s) fun e u => CorpusOnly s u ∧ e.isPublishing :=
  hm.mono (fun _ _ hu => h.trans hu) fun _ _ hu => ⟨h.trans hu.1, hu.2⟩

theorem writeWeights_corpusOnly :
    ∀ (items : List (TestcaseWeightResult F)) (stats : WeightStats F) (s : State F),
      Spec (writeWeights result items stats) s (fun _ => CorpusOnly s)
        (fun e t => CorpusOnly s t ∧ e.isPublishing)
  | [], _, s => .refl s
  | item :: items, stats, s => by
    simp only [writeWeights, spec_bind, spec_get]
    split
    · exact ⟨.refl s, rfl⟩
    · simp only [spec_bind, spec_set]
      exact CorpusOnly.after ⟨_, s.globalStats, rfl⟩ (writeWeights_corpusOnly items _ _)

theorem writeFactors_corpusOnly : ∀ (items : List (TestcaseWeightResult F)) (s : State F),
      Spec (writeFactors params items) s (fun _ => CorpusOnly s)
        (fun e t => CorpusOnly s t ∧ e.isPublishing)
  | [], s => .refl s
  | item :: items, s => by
    simp only [writeFactors, spec_bind, spec_get]
    split
    · exact ⟨.refl s, rfl⟩
    · simp only [spec_bind, spec_ofResult, spec_set]
      refine ⟨fun factor _ => ?_, fun _ h => ⟨.refl s, computeFactor_error h⟩⟩
      exact CorpusOnly.after ⟨_, s.globalStats, rfl⟩ (writeFactors_corpusOnly items _)

theorem publish_corpusOnly : Spec (publishWeightRecomputeResult result) s (fun _ => CorpusOnly s)
      (fun e t => CorpusOnly s t ∧ e.isPublishing) := by
  simp only [publishWeightRecomputeResult, spec_bind, spec_modify, spec_get]
  refine (writeWeights_corpusOnly result _ _ s).imp fun stats t h => ?_
  exact CorpusOnly.after (h.trans ⟨t.corpus, some stats, rfl⟩) (writeFactors_corpusOnly _ _ _)

end Bofuzz
