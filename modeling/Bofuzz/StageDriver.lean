import Bofuzz.Error
import Bofuzz.Lib.Effect

/-! How the fuzzer drives its stages (`libafl/src/stages/mod.rs`, `libafl/src/state/stack.rs`).

    A stage tuple is performed from its head on. Before a stage runs, the number of stages left is
    pushed on the stage stack, so that a process restarted inside the stage resumes there. Whether
    a stage runs at all is its own answer to `shouldRestart`. Stages nested in a stage are left
    out: what a stage reads and writes is the data `D`, not the stack. -/

namespace Bofuzz
open Effect

structure StageStack where
  stageIdxStack : List ℕ
  stageDepth : ℕ

namespace StageStack

def setCurrentStageId (k : StageStack) (idx : ℕ) : Except Error StageStack :=
  if k.stageDepth ≠ k.stageIdxStack.length then .error (.illegalState .stageNotResumed)
  else .ok { k with stageIdxStack := k.stageIdxStack ++ [idx] }

def clearStageId (k : StageStack) : StageStack :=
  { k with stageIdxStack := k.stageIdxStack.take k.stageDepth }

def currentStageId (k : StageStack) : Option ℕ := k.stageIdxStack[k.stageDepth]?

theorem clear_set {k k' : StageStack} {idx : ℕ} (h : k.setCurrentStageId idx = .ok k') :
    k.stageDepth = k.stageIdxStack.length ∧ k'.clearStageId = k := by
  unfold setCurrentStageId at h
  split_ifs at h with hdepth
  cases h
  obtain ⟨ids, depth⟩ := k
  obtain rfl : depth = ids.length := not_not.mp hdepth
  exact ⟨rfl, by simp [clearStageId]⟩

theorem depth_ne_of_error {k : StageStack} {idx : ℕ} {e : Error}
    (h : k.setCurrentStageId idx = .error e) : k.stageDepth ≠ k.stageIdxStack.length := by
  unfold setCurrentStageId at h
  split_ifs at h with hdepth
  · exact hdepth

end StageStack

structure Stage (D : Type) where
  shouldRestart : EStateM Error D Bool
  clearProgress : EStateM Error D Unit
  perform : EStateM Error D Unit

/-- What the driver asks of the state and the event manager when a stop was requested. -/
class Stoppable (D : Type) where
  stopRequested : D → Bool
  discardStopRequest : D → D
  onShutdown : EStateM Error D Unit

structure Session (D : Type) where
  stack : StageStack
  data : D

variable {D : Type} [Stoppable D]

omit [Stoppable D] in
def Stage.performRestartable (stage : Stage D) : EStateM Error D Unit := do
  if ← stage.shouldRestart then stage.perform
  stage.clearProgress

omit [Stoppable D] in
/-- A computation on the data alone. -/
def Session.onData {α : Type} (m : EStateM Error D α) : EStateM Error (Session D) α :=
  zoom Session.data (fun d data => { d with data }) m

omit [Stoppable D] in
/-- Perform one stage and clear its id. -/
def performThenClear (stage : Stage D) : EStateM Error (Session D) Unit := do
  Session.onData stage.performRestartable
  modify fun d => { d with stack := d.stack.clearStageId }

/-- `StagesTuple::perform_all`. -/
def performAll : List (Stage D) → EStateM Error (Session D) Unit
  | [] => do
    if (← get).stack.currentStageId.isSome then throw (.illegalState .endOfTuple) else pure ()
  | stage :: rest => do
    let d ← get
    match d.stack.currentStageId with
    | some idx =>
      if idx < rest.length + 1 then pure ()
      else if idx = rest.length + 1 then performThenClear stage
      else throw .unreachablePanic
    | none =>
      let stack ← ofResult (d.stack.setCurrentStageId (rest.length + 1))
      set { d with stack }
      performThenClear stage
    if Stoppable.stopRequested (← get).data then
      modify fun d => { d with data := Stoppable.discardStopRequest d.data }
      Session.onData Stoppable.onShutdown
      throw .shuttingDown
    else performAll rest

/-! ### Where no resume is pending -/

/-- With no resume pending the stages are performed one after the other, each on the data that the
    one before it left, as long as no stop is requested. -/
theorem performAll_cons_ok {stage : Stage D} {rest : List (Stage D)} {d e : Session D}
    (hidle : d.stack.currentStageId = none) :
    performAll (stage :: rest) d = .ok () e ↔ d.stack.stageDepth = d.stack.stageIdxStack.length ∧ ∃ data,
        stage.performRestartable d.data = .ok () data ∧ Stoppable.stopRequested data = false ∧
        performAll rest { d with data } = .ok () e := by
  rw [eq_ok_iff_spec]
  simp only [performAll, spec_bind, spec_get, hidle, spec_ofResult, spec_set, performThenClear,
    Session.onData, spec_zoom, spec_modify]
  -- after the stage its id is gone from the stack, so the tail starts idle too
  have htail : ∀ data, Spec (if Stoppable.stopRequested data then do
        modify fun d => { d with data := Stoppable.discardStopRequest d.data }
        zoom Session.data (fun d data => { d with data }) Stoppable.onShutdown
        throw .shuttingDown
      else performAll rest) { d with data } (fun _ u => u = e) (fun _ _ => False) ↔
      Stoppable.stopRequested data = false ∧ performAll rest { d with data } = .ok () e := by
    intro data
    rw [eq_ok_iff_spec]
    split_ifs with hstop
    · simp only [spec_bind, spec_modify, spec_zoom, spec_throw, hstop, Bool.true_eq_false, false_and,
        iff_false]
      intro h
      obtain ⟨_, _, _, hfalse⟩ := spec_iff_exists_ok.mp h
      exact hfalse
    · simp [hstop]
  rcases hset : d.stack.setCurrentStageId (rest.length + 1) with err | stack
  · simp [StageStack.depth_ne_of_error hset]
  obtain ⟨hdepth, hclear⟩ := StageStack.clear_set hset
  simp only [Except.ok.injEq, forall_eq', hclear, htail, reduceCtorEq, false_imp_iff, implies_true,
    and_true, hdepth, true_and]
  rw [spec_iff_exists_ok]
  constructor
  · rintro ⟨_, data, h⟩
    exact ⟨data, h⟩
  · rintro ⟨data, h⟩
    exact ⟨(), data, h⟩

theorem performAll_skip {stage : Stage D} {post : List (Stage D)}
    (hskip : ∀ data, stage.performRestartable data = .ok () data) :
    ∀ (pre : List (Stage D)) (d e : Session D), d.stack.currentStageId = none →
      performAll (pre ++ stage :: post) d = .ok () e → performAll (pre ++ post) d = .ok () e
  | [], d, e, hidle, h => by
    obtain ⟨_, data, hdata, _, hrest⟩ := (performAll_cons_ok hidle).mp h
    rw [hskip, EStateM.Result.ok.injEq] at hdata
    rw [← hdata.2] at hrest
    exact hrest
  | s :: pre, d, e, hidle, h => by
    obtain ⟨hdepth, data, hdata, hstop, hrest⟩ := (performAll_cons_ok hidle).mp h
    exact (performAll_cons_ok hidle).mpr ⟨hdepth, data, hdata, hstop,
      performAll_skip hskip pre _ e hidle hrest⟩

end Bofuzz
