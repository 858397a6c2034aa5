import Bofuzz.FrontierCredit
import Bofuzz.Lib.Run
import Bofuzz.Startup

/-! Fuzzing campaigns: whole runs of the TPE stage.

    Between two calls of the stage the rest of the fuzzer changes the corpus and the edge count,
    testcases add credit, and the process may be restarted: its stage is lost, its state is handed
    to the next process. What a restart makes of the state is a parameter, `keepMetadata` where it
    is kept as it is and `resume` where the startup code of `fuzz` runs on it. An error ends the
    campaign: the fuzzing loop returns it and the process exits without saving its state. -/

namespace Bofuzz
open F64 Effect TpeStage

/-- What the rest of the fuzzer leaves in the state between two calls. -/
structure Outside (F : Type) where
  corpus : Corpus F
  edges : Option ℕ
  coverageProgress : Option ℕ
  coverageDelta : Option CoverageDeltaMeta
  aliasDirty : Option WeightedAliasTableDirtyMeta

inductive Act (F G : Type) where
  | perform (env : Env)
  | append (testcaseCovered : List ℕ)
  | outside (u : Outside F)
  /-- A new process, with a generator and at a time of its own. -/
  | restart (rng : G) (now : ℕ)

def Act.isRestart {F G : Type} : Act F G → Bool
  | .restart .. => true
  | _ => false

structure World (F G : Type) [F64 F] where
  proc : Proc F G
  alive : Bool := true

variable {F G : Type} [F64 F] [Draw F G]

def Outside.apply (u : Outside F) (s : State F) : State F :=
  { s with corpus := u.corpus, edges := u.edges, coverageProgress := u.coverageProgress
           coverageDelta := u.coverageDelta, aliasDirty := u.aliasDirty }

/-- What a restart at a given time makes of the persisted state, and the parameters of its stage. -/
abbrev Restart (F : Type) [F64 F] := ℕ → State F → Except Error (State F × TpeParams F)

def keepMetadata (params : TpeParams F) : Restart F := fun _ s => .ok (s, params)

/-- The startup code of `fuzz`; a process started at time `now` reads `setups now`. -/
def resume (setups : ℕ → Setup F) : Restart F := fun now s =>
  match startup (setups now) now (some s) with
  | .error e => .error e
  | .ok t => .ok (t, (setups now).tpeParams)

theorem resume_eq {setups : ℕ → Setup F} {now : ℕ} {s t : State F} {params : TpeParams F}
    (h : resume setups now s = .ok (t, params)) : startup (setups now) now (some s) = .ok t := by
  unfold resume at h
  split at h
  · cases h
  · next u hu =>
    rw [hu, show u = t from congrArg Prod.fst (Except.ok.inj h)]

namespace World

/-- The process after a computation; it ends with an error. -/
def after : EStateM.Result Error (Proc F G) Unit → World F G
  | .ok _ proc => { proc, alive := true }
  | .error _ proc => { proc, alive := false }

/-- The first process of a campaign. -/
def start (setup : Setup F) (rng : G) (state : State F) : World F G :=
  { proc := { stage := .new setup.tpeParams rng, state } }

/-- One act of a campaign; nothing happens once the process has ended. -/
def step (restart : Restart F) (w : World F G) (a : Act F G) : World F G :=
  if !w.alive then w
  else
    match a with
    | .perform env => after (perform env w.proc)
    | .append testcaseCovered => after (Proc.onState (appendMetadata testcaseCovered) w.proc)
    | .outside u => { w with proc := { w.proc with state := u.apply w.proc.state } }
    | .restart rng now =>
      match restart now w.proc.state with
      | .error _ => { w with alive := false }
      | .ok (state, params) => { w with proc := { w.proc with stage := .new params rng, state } }

variable {I J : Proc F G → Prop}

omit [Draw F G] in
theorem after_inv (hIJ : ∀ p, I p → J p)
    {m : EStateM Error (Proc F G) Unit} {p : Proc F G} (h : Spec m p (fun _ => I) (fun _ => J)) :
    ((after (m p)).alive → I (after (m p)).proc) ∧ J (after (m p)).proc := by
  unfold Spec at h
  split at h
  · next hm => rw [hm]; exact ⟨fun _ => h, hIJ _ h⟩
  · next hm => rw [hm]; exact ⟨fun ha => absurd ha Bool.false_ne_true, h⟩

/-- Proving an invariant of campaigns: `I` while the process runs, `J` at all times. -/
theorem step_inv (restart : Restart F) {C : World F G → Act F G → Prop} (hIJ : ∀ p, I p → J p)
    (hperform : ∀ p env, I p → C { proc := p } (.perform env) →
      Spec (perform env) p (fun _ => I) (fun _ => J))
    (happend : ∀ p covered, I p → Spec (Proc.onState (appendMetadata covered)) p (fun _ => I) (fun _ => J))
    (houtside : ∀ p u, I p → I { p with state := Outside.apply u p.state })
    (hrestart : ∀ p rng now s params, I p → C { proc := p } (.restart rng now) →
      restart now p.state = .ok (s, params) → I { p with stage := .new params rng, state := s })
    (w : World F G) (a : Act F G) (hw : (w.alive → I w.proc) ∧ J w.proc) (hc : C w a) :
    ((step restart w a).alive → I (step restart w a).proc) ∧ J (step restart w a).proc := by
  obtain ⟨p, alive⟩ := w
  cases alive with
  | false => exact hw
  | true =>
    have hI := hw.1 rfl
    cases a with
    | perform env => exact after_inv hIJ (hperform p env hI hc)
    | append covered => exact after_inv hIJ (happend p covered hI)
    | outside u => exact ⟨fun _ => houtside p u hI, hIJ _ (houtside p u hI)⟩
    | restart rng now =>
      simp only [step, Bool.not_true, Bool.false_eq_true, if_false]
      split
      · exact ⟨fun h => absurd h Bool.false_ne_true, hw.2⟩
      · next s params hs =>
        have h := hrestart p rng now s params hI hc hs
        exact ⟨fun _ => h, hIJ _ h⟩

end World

/-! ### A new run -/

/-- What the startup of a new run leaves in the state, as far as the stage reads it. -/
structure Fresh (s : State F) : Prop where
  iter : s.iter = {}
  currentV : s.globals.currentV = []
  history : s.history = none
  featuresActive : s.globals.featuresActive = false
  dim : s.globals.tpeSatisfied → 0 < s.globals.featureDim
  matrix : s.globals.featExists → s.featuresMatrix.isSome

theorem startup_fresh {setup : Setup F} {now : ℕ} {s : State F}
    (h : startup setup now none = .ok s) : Fresh s := by
  obtain ⟨t, active, u, hinit, hload, hfin⟩ := startup_ok h
  obtain ⟨mask, runtime, rfl, rfl, _⟩ := initializeFresh_ok hinit
  obtain ⟨acfg, fuzzStart, rfl⟩ := finishStartup_ok hfin
  unfold loadFeatures at hload
  split at hload
  · next hmap =>
    cases hload
    exact ⟨rfl, rfl, rfl, rfl, fun h => absurd h Bool.false_ne_true, by simp [hmap]⟩
  · obtain ⟨vs, status, _, rfl⟩ := installFeatures_ok hload
    exact ⟨rfl, rfl, rfl, rfl, fun h => of_decide_eq_true h, fun _ => rfl⟩

/-! ### A small campaign

Two features over two sites, exact arithmetic, and a file with two candidates; the properties of
campaigns are evaluated on runs of it. -/

namespace Demo

def schema : FeatureSchemaFile where
  schemaVersion := 4
  features := [{ id := "F1", name := "fanin" }, { id := "F2", name := "fanout" }]

def featureMap : FeatureMap Exact := fun name =>
  if name = "fanin" then some [.fin 1, .fin 0]
  else if name = "fanout" then some [.fin 0, .fin 1]
  else none

def setup : Setup Exact where
  schema := schema
  config := { mode := .full, explicitMask := none, creditTopK := 1 }
  canonicalMap := some featureMap
  sites := 2
  candidatePath := some "demo_v_candidates.json"
  candidateFile := .parsed [[.fin 1, .fin 0], [.fin 0, .fin 1]]
  acfg := .error .shuttingDown
  factorParams := { alpha := .fin (85 / 100), beta := .fin (6 / 10), gmin := .fin (1 / 2)
                    gmax := .fin 2, useTanh := false }
  featMode := 1
  exploreTimeSecs := 10
  tpePeriodSecs := 5
  weightComputeMode := .path
  tpeSamples := 1
  tpeGamma := .fin (1 / 4)
  tpeBw := .fin (1 / 2)
  trialsThreshold := 10
  reTpeThresholdSecs := 60
  runtimeDataOutputPath := ""

def state : State Exact := (startup setup 1000 none).toOption.getD {}

def world : World Exact (List ℚ) := .start setup [] state

variable (acts : List (Act Exact (List ℚ)))

/-- Where a campaign with restarts that keep the metadata leads. -/
def reached : World Exact (List ℚ) :=
  Run.run (World.step (keepMetadata setup.tpeParams)) world acts

/-- Where a campaign with restarts that run the startup code leads. -/
def resumed : World Exact (List ℚ) :=
  Run.run (World.step (resume fun _ => setup)) world acts

/-- A call at the given time, the result of a worker being ready or not. -/
def meets (now : ℕ) (recv : Recv) : Env :=
  { exploreNow := now, now, exportNow := now, persistNow := now, recv }

def call (now : ℕ) (recv : Recv) : Act Exact (List ℚ) := .perform (meets now recv)

/-- A corpus of two testcases that cover a site each, and an edge count. -/
def progress (edges : ℕ) : Act Exact (List ℚ) :=
  .outside { corpus := { entries := [(0, { sancovIndexes := some [0] }),
                                     (1, { sancovIndexes := some [1] })], nodup := by decide }
             edges := some edges, coverageProgress := none, coverageDelta := none
             aliasDirty := none }

theorem startup_eq : startup setup 1000 none = .ok state :=
  eq_ok_of_isSome (startup setup 1000 none) {} (by decide +kernel)

/-- Explore ends, the first candidate is published, its window closes, the second is pending. -/
def firstWindow : List (Act Exact (List ℚ)) :=
  [progress 3, call 12000 .empty, call 12500 .ready, progress 8, call 18000 .empty]

/-- The first candidate is published, then the process is restarted. -/
def publishedThenRestarted : List (Act Exact (List ℚ)) :=
  [progress 3, call 12000 .empty, call 12500 .ready, .restart [] 13000]

/-- The process is restarted while the first candidate is pending. -/
def interruptedFirst : List (Act Exact (List ℚ)) :=
  [progress 3, call 12000 .empty, .restart [] 13000, call 14000 .empty]

end Demo

end Bofuzz
