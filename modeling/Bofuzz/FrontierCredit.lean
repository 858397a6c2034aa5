import Bofuzz.FeaturesMap
import Bofuzz.Lib.Effect

/-! The coverage frontier and its credits (`frontier.rs`, `frontier_credit_feedback.rs`).

    A testcase that covers new sites moves the frontier; the features of the sites around it share
    the new edges as credit, which Explore accumulates for the first TPE vector. -/

namespace Bofuzz
open F64 Effect

variable {F : Type} [F64 F]

/-! ### The frontier -/

def bitsetFromIndices (len : ℕ) (indices : List ℕ) : List Bool :=
  indices.foldl (fun out i => if i < len then out.set i true else out) (List.replicate len false)

def bitsetGet (bits : List Bool) (idx : ℕ) : Bool := bits.getD idx false

/-- The covered sites with an uncovered successor, and the uncovered ones with a covered
    predecessor. -/
def recomputeFrontierSets (covered : List Bool) (acfg : SancovAcfgMeta) : List Bool × List Bool :=
  let n := acfg.nSancovSites
  let fPrev := (List.range n).map fun u => bitsetGet covered u &&
    (acfg.successors.getD u []).any fun v => decide (v < n) && !bitsetGet covered v
  let fNext := (List.range n).map fun u => !bitsetGet covered u &&
    (acfg.predecessors.getD u []).any fun p => decide (p < n) && bitsetGet covered p
  (fPrev, fNext)

variable (s : State F)

/-- Add newly covered sites to the frontier, and whether there were any. -/
def updateFrontierMeta (newlyCovered : List ℕ) : State F × Bool :=
  match s.acfg with
  | none => (s, false)
  | some acfg =>
    let n := acfg.nSancovSites
    let iteration := s.iter.currentIteration
    let old := s.frontier.getD { iteration, covered := List.replicate n false,
                                 fPrev := List.replicate n false, fNext := List.replicate n false }
    let start := resizeWith old.covered n false
    let (covered, changed) := newlyCovered.foldl (fun acc idx =>
      if idx < n && !bitsetGet acc.1 idx then (acc.1.set idx true, true) else acc) (start, false)
    if changed then
      let (fPrev, fNext) := recomputeFrontierSets covered acfg
      ({ s with frontier := some { iteration, covered, fPrev, fNext } }, true)
    else (s, false)

/-- The newly covered sites and their predecessors that the testcase covers. -/
def localFrontierNodes (newlyCovered testcaseCovered : List ℕ) (acfg : SancovAcfgMeta) : List ℕ :=
  let n := acfg.nSancovSites
  let testcaseBits := bitsetFromIndices n testcaseCovered
  let outBits := newlyCovered.foldl (fun out node =>
    if n ≤ node then out
    else (acfg.predecessors.getD node []).foldl (fun out p =>
      if p < n && bitsetGet testcaseBits p then out.set p true else out) (out.set node true))
    (List.replicate n false)
  outBits.zipIdx.filterMap fun b => if b.1 then some b.2 else none

/-! ### Credits -/

/-- The mass of one feature over the given nodes; a negative value is an error. -/
def nodeMass (arr : List F) : List ℕ → F → Except Error F
  | [], mass => .ok mass
  | node :: nodes, mass =>
    let value := arr.getD node (F64.lit 0)
    if F64.lt value (F64.lit 0) then .error (.illegalState .negativeFeature)
    else nodeMass arr nodes (if F64.isFinite value then mass + value else mass)

def localMass (matrix : FeatureMap F) (nodes : List ℕ) : List String → Except Error (List F)
  | [] => .ok []
  | name :: names => do
    let mass ← match matrix name with
      | none => .ok (F64.lit 0)
      | some arr => nodeMass arr nodes (F64.lit 0)
    let rest ← localMass matrix nodes names
    pure (mass :: rest)

/-- Share the new edges among the features by their mass. -/
def creditDelta (localMass : List F) (deltaEdges : ℕ) : List F :=
  let denom := F64.sum localMass
  if F64.lt eps denom && decide (0 < deltaEdges) then
    localMass.map fun mass => F64.max (F64.ofNat deltaEdges * mass / denom) (F64.lit 0)
  else List.replicate localMass.length (F64.lit 0)

/-- Accumulate credits, in the active coordinates. -/
def CreditMeta.add (old : CreditMeta F) (iteration deltaEdges : ℕ) (delta : List F) (dim : ℕ) :
    CreditMeta F :=
  let credits := if old.credits.length ≠ dim then resizeWith old.credits dim (F64.lit 0)
    else old.credits
  { iteration
    credits := List.zipWith (fun c d => F64.max (c + d) (F64.lit 0)) credits delta
    totalDeltaEdges := old.totalDeltaEdges + deltaEdges }

/-- Write the credits of one testcase where the phase keeps them. -/
def addCredits (delta : CoverageDeltaMeta) (localNodes : List ℕ) (credit : List F) : State F :=
  let iter := s.iter
  let dim := s.globals.activeFeatureNames.length
  let iteration := if iter.currentIteration = 0 then delta.iteration else iter.currentIteration
  let add (old : Option (CreditMeta F)) := (old.getD {}).add iteration delta.deltaEdges credit dim
  let entry (cumulative : CreditMeta F) : CreditEntry F :=
    { iteration, phase := iter.phase, deltaEdges := delta.deltaEdges, frontierNodes := localNodes,
      creditDelta := credit, cumulativeCredits := cumulative.credits }
  if iter.phase = .explore then
    let cumulative := add s.exploreCredit
    { s with exploreCredit := some cumulative
             exploreCreditHistory := s.exploreCreditHistory ++ [entry cumulative] }
  else
    let cumulative := add s.runtimeCredit
    { s with runtimeCredit := some cumulative
             runtimeCreditHistory := s.runtimeCreditHistory ++ [entry cumulative] }

/-- `FrontierCreditFeedback::append_metadata` for a testcase with the given covered sites. -/
def appendMetadata (testcaseCovered : List ℕ) : EStateM Error (State F) Unit := do
  let s ← get
  let delta := s.coverageDelta.getD {}
  match s.acfg, s.featuresMatrix with
  | some acfg, some m =>
    if delta.newlyCoveredSancov = [] then pure ()
    else
      let (s, changed) := updateFrontierMeta s delta.newlyCoveredSancov
      set s
      if !changed || s.globals.activeFeatureNames.isEmpty then pure ()
      else
        let localNodes := localFrontierNodes delta.newlyCoveredSancov testcaseCovered acfg
        let mass ← ofResult (localMass m.matrix localNodes s.globals.activeFeatureNames)
        set (addCredits s delta localNodes (creditDelta mass delta.deltaEdges))
  | _, _ => pure ()

theorem localMass_length {matrix : FeatureMap F} {nodes : List ℕ} :
    ∀ {names : List String} {mass : List F}, localMass matrix nodes names = .ok mass →
      mass.length = names.length
  | [], _, h => by cases h; rfl
  | name :: names, mass, h => by
    simp only [localMass, bind, Except.bind] at h
    split at h
    · split at h
      · cases h
      · next hrest => cases h; simp [localMass_length hrest]
    · split at h
      · cases h
      · split at h
        · cases h
        · next hrest => cases h; simp [localMass_length hrest]

@[simp] theorem creditDelta_length (localMass : List F) (deltaEdges : ℕ) :
    (creditDelta localMass deltaEdges).length = localMass.length := by
  unfold creditDelta
  dsimp only
  split_ifs <;> simp

/-! ### What a testcase touches -/

/-- `t` is `s` with another frontier and other credits. -/
def CreditsOnly (s t : State F) : Prop :=
  ∃ frontier exploreCredit exploreCreditHistory runtimeCredit runtimeCreditHistory,
    t = { s with frontier, exploreCredit, exploreCreditHistory, runtimeCredit, runtimeCreditHistory }

theorem CreditsOnly.refl : CreditsOnly s s := ⟨_, _, _, _, _, rfl⟩

theorem CreditsOnly.trans {s t u : State F} :
    CreditsOnly s t → CreditsOnly t u → CreditsOnly s u := by
  rintro ⟨_, _, _, _, _, rfl⟩ ⟨_, _, _, _, _, rfl⟩
  exact ⟨_, _, _, _, _, rfl⟩

theorem updateFrontierMeta_frame (newlyCovered : List ℕ) :
    ∃ frontier, (updateFrontierMeta s newlyCovered).1 = { s with frontier } := by
  unfold updateFrontierMeta
  split
  · exact ⟨s.frontier, rfl⟩
  dsimp only
  split_ifs
  · exact ⟨_, rfl⟩
  · exact ⟨s.frontier, rfl⟩

theorem addCredits_creditsOnly (delta : CoverageDeltaMeta) (localNodes : List ℕ)
    (credit : List F) : CreditsOnly s (addCredits s delta localNodes credit) := by
  unfold addCredits
  dsimp only
  split_ifs <;> exact ⟨_, _, _, _, _, rfl⟩

theorem appendMetadata_creditsOnly (testcaseCovered : List ℕ) (s : State F) :
    Spec (appendMetadata testcaseCovered) s (fun _ => CreditsOnly s) (fun _ => CreditsOnly s) := by
  have hup : CreditsOnly s (updateFrontierMeta s (s.coverageDelta.getD {}).newlyCoveredSancov).1 := by
    obtain ⟨frontier, h⟩ := updateFrontierMeta_frame s (s.coverageDelta.getD {}).newlyCoveredSancov
    rw [h]
    exact ⟨_, _, _, _, _, rfl⟩
  simp only [appendMetadata, spec_bind, spec_get]
  split
  · split_ifs
    · exact .refl s
    · exact hup
    · simp only [spec_bind, spec_ofResult, spec_set]
      exact ⟨fun _ _ => hup.trans (addCredits_creditsOnly _ _ _ _), fun _ _ => hup⟩
  · exact .refl s

end Bofuzz
