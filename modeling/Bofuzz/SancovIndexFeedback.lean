import Bofuzz.FrontierCredit
import Bofuzz.Lib.Run

/-! Adding a testcase to the corpus (`sancov_index_feedback.rs`, `frontier_credit_feedback.rs`).

    Two feedbacks append metadata one after the other. The first lists the sites that the testcase
    hits, how many edges were covered since the last addition, and which of its sites are not in the
    frontier's covered set yet; the second moves the frontier and hands out the credit. `Addition`
    is one such pair of calls, on a state whose other parts may be anything. -/

namespace Bofuzz
open F64 Effect

variable {F : Type} [F64 F]

/-- The observer of the sancov counters. -/
structure SancovObserver where
  initial : UInt8
  map : List UInt8

/-- The indexes of the counters that differ from their initial value. -/
def SancovObserver.hits (observer : SancovObserver) : List ℕ :=
  observer.map.zipIdx.filterMap fun v => if v.1 ≠ observer.initial then some v.2 else none

namespace SancovIndexFeedback

/-- The sites of the list that the frontier does not cover yet. -/
def newlyCovered (s : State F) (idx : List ℕ) : List ℕ :=
  let covered := (s.frontier.map (·.covered)).getD []
  idx.filter fun i => !bitsetGet covered i

/-- The edges covered since the last addition. -/
def deltaEdges (s : State F) : ℕ := s.edges.getD 0 - s.coverageProgress.getD 0

/-- What the feedback records for a testcase that hits the sites `idx`. -/
def record (idx : List ℕ) (s : State F) : State F :=
  { s with
    coverageProgress := some (s.edges.getD 0)
    coverageDelta := some
      { iteration := s.iter.currentIteration
        deltaEdges := deltaEdges s
        newlyCoveredSancov := newlyCovered s idx } }

/-- `SancovIndexFeedback::append_metadata`: the list of indexes that the testcase gets, if any. -/
def appendMetadata (observer : Option SancovObserver) (fireFails : Bool) :
    EStateM Error (State F) (Option (List ℕ)) := do
  match observer with
  | none => throw (.unknown .sancovObserverMissing)
  | some observer =>
    modify (record observer.hits)
    if fireFails then throw .event
    else pure (if observer.hits = [] then none else some observer.hits)

end SancovIndexFeedback

/-! ### Additions -/

/-- One addition: the sites that the testcase hits, and the state that the rest of the fuzzer has
    left, as far as the two feedbacks do not own it. -/
structure Addition (F : Type) [F64 F] where
  hits : List ℕ
  before : State F

/-- The state that an addition meets: the graph and what the feedbacks keep are those of `s`. -/
def Addition.meets (a : Addition F) (s : State F) : State F :=
  { a.before with
    acfg := s.acfg
    frontier := s.frontier
    coverageProgress := s.coverageProgress
    coverageDelta := s.coverageDelta
    exploreCredit := s.exploreCredit
    exploreCreditHistory := s.exploreCreditHistory
    runtimeCredit := s.runtimeCredit
    runtimeCreditHistory := s.runtimeCreditHistory }

/-- Both feedbacks run; a failure of the second one keeps what it has written. -/
def addStep (s : State F) (a : Addition F) : State F :=
  finalState (appendMetadata a.hits) (SancovIndexFeedback.record a.hits (a.meets s))

/-- With an observer at hand and no event refused, the two calls are an addition of its hits. -/
theorem appendMetadata_both (observer : SancovObserver) (s : State F) :
    finalState (do
      let idx ← SancovIndexFeedback.appendMetadata (some observer) false
      appendMetadata (idx.getD [])) s
      = finalState (appendMetadata observer.hits) (SancovIndexFeedback.record observer.hits s) := by
  have hidx : (if observer.hits = [] then none else some observer.hits).getD [] = observer.hits := by
    split_ifs with h
    · exact h.symm
    · rfl
  have hfirst : SancovIndexFeedback.appendMetadata (some observer) false s
      = .ok (if observer.hits = [] then none else some observer.hits)
        (SancovIndexFeedback.record observer.hits s) := rfl
  rw [finalState, finalState, bind_ok hfirst, hidx]

variable (s : State F) (a : Addition F)

/-- The part of an addition that the second feedback leaves alone. -/
theorem addStep_frame : CreditsOnly (SancovIndexFeedback.record a.hits (a.meets s)) (addStep s a) :=
  finalState_of_spec (appendMetadata_creditsOnly a.hits _)

theorem addStep_acfg : (addStep s a).acfg = s.acfg := by
  obtain ⟨_, _, _, _, _, h⟩ := addStep_frame s a
  rw [h]
  rfl

theorem addStep_coverageDelta : (addStep s a).coverageDelta = some
    { iteration := a.before.iter.currentIteration
      deltaEdges := a.before.edges.getD 0 - s.coverageProgress.getD 0
      newlyCoveredSancov := SancovIndexFeedback.newlyCovered s a.hits } := by
  obtain ⟨_, _, _, _, _, h⟩ := addStep_frame s a
  rw [h]
  rfl

theorem addStep_coverageProgress :
    (addStep s a).coverageProgress = some (a.before.edges.getD 0) := by
  obtain ⟨_, _, _, _, _, h⟩ := addStep_frame s a
  rw [h]
  rfl

end Bofuzz
