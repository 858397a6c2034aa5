import Bofuzz.Lib.Rounds
import Bofuzz.StageDriver

/-! Nested stages (`libafl/src/stages/logics.rs`, `stages/mod.rs`, `state/stack.rs`).

    A stage is a leaf or wraps tuples of stages that it performs under the control of a closure.
    What the leaves and the closures do is not modelled: each time one of them is called, the next
    of a list of answers says how the call ends. A process that has used up its answers is
    `waiting`, so that the finite lists of answers give all the finite beginnings of what can
    happen.

    Two meanings are given to a tree of stages. `performAll` is the code: it keeps the position in
    the stage stack, and a crash in a leaf ends the process. `execAll` has no stack: a leaf that
    crashes is entered again on the spot. Only a stop request that is pending at the crash can come
    between the two, as the tuples check for it after every stage, also after one that they skip. -/

namespace Bofuzz
open Effect Rounds

namespace StageStack

def enterInnerStage (k : StageStack) : StageStack := { k with stageDepth := k.stageDepth + 1 }

def exitInnerStage (k : StageStack) : StageStack := { k with stageDepth := k.stageDepth - 1 }

def onRestart (k : StageStack) : StageStack := { k with stageDepth := 0 }

end StageStack

namespace Nested

mutual

/-- A stage over leaves `L` and closures `C`. -/
inductive Stage (L C : Type) where
  | leaf (name : L)
  | whileStage (closure : C) (stages : Stages L C)
  | ifStage (closure : C) (ifStages : Stages L C)
  | ifElseStage (closure : C) (ifStages elseStages : Stages L C)
  | optionalNone
  | optionalSome (stages : Stages L C)

/-- A tuple of stages. -/
inductive Stages (L C : Type) where
  | nil
  | cons (head : Stage L C) (tail : Stages L C)

end

def Stages.len {L C : Type} : Stages L C → ℕ
  | .nil => 0
  | .cons _ tail => tail.len + 1

/-! ### The environment -/

inductive LeafEnd where
  | completed
  | crashed
  | failed (e : Error)
  deriving DecidableEq

/-- How the next call ends, if it is one of a leaf or of a closure, and whether a stop is requested
    in the meantime. -/
structure Answer where
  leafEnd : LeafEnd := .completed
  closure : Except Error Bool := .ok true
  requestsStop : Bool := false

inductive Event (L C : Type) where
  | entered (leaf : L) (leafEnd : LeafEnd)
  | evaluated (closure : C) (value : Except Error Bool)
  deriving DecidableEq

/-- What is around the stages: the answers to come, the calls made so far, the stop request and the
    answer of the event manager to a shutdown. -/
structure Env (L C : Type) where
  answers : List Answer
  trace : List (Event L C) := []
  stop : Bool := false
  onShutdown : Except Error Unit := .ok ()

/-- Why a pass ends early. -/
inductive Halt where
  | error (e : Error)
  | crashed
  | waiting

variable {L C : Type}

def Env.size (env : Env L C) : ℕ := env.answers.length

/-- The state after a call that used up the answer `a`. -/
def Env.called (env : Env L C) (a : Answer) (answers : List Answer) (e : Event L C) : Env L C :=
  { env with answers, trace := env.trace ++ [e], stop := env.stop || a.requestsStop }

/-- `perform_restartable` of a leaf. -/
def performLeaf (name : L) : EStateM Halt (Env L C) Unit := do
  let env ← get
  match env.answers with
  | [] => throw .waiting
  | a :: answers =>
    set (env.called a answers (.entered name a.leafEnd))
    match a.leafEnd with
    | .completed => pure ()
    | .crashed => throw .crashed
    | .failed e => throw (.error e)

def evaluate (closure : C) : EStateM Halt (Env L C) Bool := do
  let env ← get
  match env.answers with
  | [] => throw .waiting
  | a :: answers =>
    set (env.called a answers (.evaluated closure a.closure))
    match a.closure with
    | .ok b => pure b
    | .error e => throw (.error e)

/-- The check for a stop request after every stage of a tuple. -/
def checkStop : EStateM Halt (Env L C) Unit := do
  let env ← get
  if env.stop then
    set { env with stop := false }
    match env.onShutdown with
    | .ok () => throw (.error .shuttingDown)
    | .error e => throw (.error e)
  else pure ()

/-! ### The code -/

/-- A process: its environment and its stage stack. -/
structure Proc (L C : Type) where
  env : Env L C
  stack : StageStack

def onEnv {α : Type} (m : EStateM Halt (Env L C) α) : EStateM Halt (Proc L C) α :=
  zoom Proc.env (fun p env => { p with env }) m

def onStack (f : StageStack → StageStack) : EStateM Halt (Proc L C) Unit :=
  modify fun p => { p with stack := f p.stack }

def setCurrentStageId (idx : ℕ) : EStateM Halt (Proc L C) Unit := do
  let p ← get
  match p.stack.setCurrentStageId idx with
  | .ok stack => set { p with stack }
  | .error e => throw (.error e)

/-- `current_stage_id()?.is_some() || closure()?`. -/
def resumedOr (closure : C) : EStateM Halt (Proc L C) Bool := do
  if (← get).stack.currentStageId.isSome then pure true else onEnv (evaluate closure)

/-- The wrapping stages enter a level of the stack before they perform, and leave it afterwards. -/
def Stage.performRestartable (stage : Stage L C) (perform : EStateM Halt (Proc L C) Unit) :
    EStateM Halt (Proc L C) Unit :=
  match stage with
  | .leaf _ => perform
  | _ => do
    onStack .enterInnerStage
    perform
    onStack .exitInnerStage

mutual

def Stage.perform : Stage L C → EStateM Halt (Proc L C) Unit
  | .leaf name => onEnv (performLeaf name)
  | .whileStage closure stages =>
    loop .waiting (resumedOr closure) stages.performAll (fun p => p.env.size)
  | .ifStage closure ifStages => do
    if ← resumedOr closure then ifStages.performAll else pure ()
  | .ifElseStage closure ifStages elseStages => do
    let current := (← get).stack.currentStageId
    let fresh := current.isNone
    let closureReturn ← if fresh then onEnv (evaluate closure) else pure false
    if current = some 0 ∨ closureReturn then
      if fresh then setCurrentStageId 0 else pure ()
      onStack .enterInnerStage
      ifStages.performAll
    else
      if fresh then setCurrentStageId 1 else pure ()
      onStack .enterInnerStage
      elseStages.performAll
    onStack .exitInnerStage
    onStack .clearStageId
  | .optionalNone => pure ()
  | .optionalSome stages => stages.performAll

/-- `StagesTuple::perform_all`. -/
def Stages.performAll : Stages L C → EStateM Halt (Proc L C) Unit
  | .nil => do
    if (← get).stack.currentStageId.isSome then throw (.error (.illegalState .endOfTuple)) else pure ()
  | .cons head tail => do
    match (← get).stack.currentStageId with
    | some idx =>
      if idx < tail.len + 1 then pure ()
      else if idx = tail.len + 1 then
        head.performRestartable head.perform
        onStack .clearStageId
      else throw (.error .unreachablePanic)
    | none =>
      setCurrentStageId (tail.len + 1)
      head.performRestartable head.perform
      onStack .clearStageId
    onEnv checkStop
    tail.performAll

end

attribute [local simp] Stage.perform Stages.performAll

/-- A pass over the stages, restarted after a crash at most `n` times. The stack is kept, and its
    depth is reset. -/
def performRestarting (stages : Stages L C) : ℕ → EStateM Halt (Proc L C) Unit
  | 0 => stages.performAll
  | n + 1 => fun p =>
    match stages.performAll p with
    | .error .crashed q => performRestarting stages n { q with stack := q.stack.onRestart }
    | r => r

/-! ### The meaning without a stack -/

/-- The way back to an interrupted leaf: a stop request is noticed where a stage is skipped on
    it. -/
def comeBack (skipped : Bool) : EStateM Halt (Env L C) Unit :=
  if skipped then checkStop else pure ()

/-- Enter a leaf until it does not crash, at most `n` times. -/
def insistUpTo (skipped : Bool) (name : L) : ℕ → EStateM Halt (Env L C) Unit
  | 0 => throw .waiting
  | n + 1 => fun env =>
    match performLeaf name env with
    | .error .crashed env => (do comeBack skipped; insistUpTo skipped name n) env
    | r => r

/-- Enter a leaf until it does not crash. -/
def insist (skipped : Bool) (name : L) : EStateM Halt (Env L C) Unit :=
  fun env => insistUpTo skipped name (env.size + 1) env

mutual

/-- A stage without a stack. A restarted pass that returns to this stage has `skipped` others or
    not. -/
def Stage.exec : Stage L C → Bool → EStateM Halt (Env L C) Unit
  | .leaf name, skipped => insist skipped name
  | .whileStage closure stages, skipped =>
    loop .waiting (evaluate closure) (stages.execAll skipped) Env.size
  | .ifStage closure ifStages, skipped => do
    if ← evaluate closure then ifStages.execAll skipped else pure ()
  | .ifElseStage closure ifStages elseStages, skipped => do
    if ← evaluate closure then ifStages.execAll skipped else elseStages.execAll skipped
  | .optionalNone, _ => pure ()
  | .optionalSome stages, skipped => stages.execAll skipped

def Stages.execAll : Stages L C → Bool → EStateM Halt (Env L C) Unit
  | .nil, _ => pure ()
  | .cons head tail, skipped => do
    head.exec skipped
    checkStop
    tail.execAll true

end

attribute [local simp] Stage.exec Stages.execAll

end Nested

end Bofuzz
