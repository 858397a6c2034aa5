import Bofuzz.MaskSelection

/-! The TPE optimizer (`feature_sched/tpe.rs`).

    Trials pair a vector with the reward its active window earned. New vectors come from a pool of
    candidates, from samples around the initial vector while there are few trials, and from a
    kernel density estimate of the good trials after that; when no sample looks better than the bad
    trials the optimizer locks the best vector seen. -/

namespace Bofuzz
open F64 List

/-- `MAX_TRIALS`. -/
def maxTrials : ℕ := 1024

/-- Durations are in milliseconds. -/
structure TpeParams (F : Type) where
  gamma : F
  samples : ℕ
  bw : F
  period : ℕ
  trialsThreshold : ℕ
  reTpeThreshold : ℕ

structure TpeTrial (F : Type) where
  iteration : ℕ
  vector : List F
  reward : F
  activeStartMs : ℕ
  activeEndMs : ℕ

structure TpeState (F : Type) where
  trials : List (TpeTrial F) := []
  lastVec : List F := []
  lockBest : Bool := false
  bestFixed : List F := []
  restoredOnce : Bool := false

structure TpeOptimizer (F : Type) where
  params : TpeParams F
  state : TpeState F := {}

variable {F G : Type} [F64 F] [Draw F G]

/-- `vecn_eq`: same length and entries no further apart than the tolerance. -/
def vecnEq (a b : List F) (tol : F) : Bool :=
  a.length == b.length && (a.zip b).all fun p => le (abs (p.1 - p.2)) tol

/-! ### Sampling on the simplex -/

def randGaussian (g : G) : F × G :=
  let (x, g) := Draw.nextFloat (F := F) g
  let (u2, g) := Draw.nextFloat (F := F) g
  let minPositive : F := lit (1 / 2 ^ 1022)
  let u1 := if lt x minPositive then minPositive else if lt (lit 1) x then lit 1 else x
  let r := sqrt (lit (-2) * ln u1)
  let theta := lit 2 * lit (3141592653589793 / 1000000000000000) * u2
  (r * cos theta, g)

/-- Normalized weights, or equal ones where normalizing fails. -/
def normalizeOrEqual (v : List F) : List F :=
  (normalizeSimplexEps v).toOption.getD (equalSimplex v.length)

/-- Additive log-ratio coordinates: one fewer than the weights. -/
def alr (simplexV : List F) : List F :=
  let w := normalizeOrEqual simplexV
  let refW := max (w.getLastD (lit 0)) eps
  w.dropLast.map fun wi => F64.ln (F64.max wi eps / refW)

def softmax (z : List F) : List F :=
  if z = [] then []
  else
    let maxZ := z.foldl F64.max F64.negInfinity
    let exps := z.map fun v => exp (v - maxZ)
    let total := sum exps
    if !isFinite total || le total (lit 0) then equalSimplex z.length
    else exps.map (· / total)

def alrInverse (u : List F) : List F :=
  if u = [] then [lit 1] else softmax (u ++ [lit 0])

/-- Add scaled Gaussian noise to every coordinate. -/
def addNoise (h : F) : List F → G → List F × G
  | [], g => ([], g)
  | x :: xs, g =>
    let (z, g) := randGaussian g
    let (ys, g) := addNoise h xs g
    ((x + h * z) :: ys, g)

def logisticNormalSample (centerSimplex : List F) (bw : F) (g : G) : List F × G :=
  let center := normalizeOrEqual centerSimplex
  if center.length ≤ 1 then (List.replicate (max center.length 1) (lit 1), g)
  else
    let (u, g) := addNoise (max bw eps) (alr center) g
    (alrInverse u, g)

def logisticNormalLogPdf (xSimplex centerSimplex : List F) (bw : F) : F :=
  if xSimplex.length ≠ centerSimplex.length ∨ xSimplex = [] then negInfinity
  else if xSimplex.length = 1 then lit 0
  else
    let h := max bw eps
    let x := alr xSimplex
    let c := alr centerSimplex
    if x.length ≠ c.length then negInfinity
    else
      let d : F := ofNat x.length
      let sq := sum ((x.zip c).map fun p => ((p.1 - p.2) / h) * ((p.1 - p.2) / h))
      let twoPi : F := lit 2 * lit (3141592653589793 / 1000000000000000)
      lit (-1 / 2) * sq - d * ln h - lit (1 / 2) * d * ln twoPi

def kdeLogPdf (xSimplex : List F) (centers : List (List F)) (bw : F) : F :=
  if centers = [] then negInfinity
  else
    let vals := centers.map fun c => logisticNormalLogPdf xSimplex c bw
    let maxV := vals.foldl F64.max F64.negInfinity
    if !isFinite maxV then negInfinity
    else
      let total := sum (vals.map fun v => exp (v - maxV))
      maxV + ln total - ln (ofNat centers.length)

def sampleOneFromKde (centers : List (List F)) (bw : F) (g : G) : Option (List F) × G :=
  if h : 0 < centers.length then
    let (idx, g) := Draw.below (F := F) centers.length h g
    let (v, g) := logisticNormalSample (centers.get idx) bw g
    (some v, g)
  else (none, g)

/-- Weights inversely proportional to the square root of the given ones. -/
def inverseSimplex (best : List F) : List F :=
  let inv := best.map fun w => F64.lit 1 / F64.powf (F64.max w (F64.lit 0) + eps) (F64.lit (1 / 2))
  (normalizeSimplexEps inv).toOption.getD
    (List.replicate best.length (lit 1 / ofNat (max best.length 1)))

def normalizeSimplexExact (v : List F) : Except Error (List F) :=
  if v = [] then .ok []
  else
    match firstBad 0 v with
    | some (.nonFinite idx) => .error (.illegalArgument (.nonFiniteWeightAt idx))
    | some (.negative idx) => .error (.illegalArgument (.negativeWeightAt idx))
    | none =>
      let total := sum v
      if !isFinite total || le total (lit 0) then
        .error (.illegalArgument .zeroDenominator)
      else .ok (v.map (· / total))

/-! ### Trials -/

/-- `max_by` on the rewards: among equal rewards the later trial. The source unwraps the
    comparison; rewards are edge counts, never NaN. -/
def bestTrial : List (TpeTrial F) → Option (TpeTrial F)
  | [] => none
  | t :: ts => some (ts.foldl (fun a b => if partialCmp a.reward b.reward = some .gt then a else b) t)

theorem bestTrial_mem {ts : List (TpeTrial F)} {a : TpeTrial F} (h : bestTrial ts = some a) :
    a ∈ ts := by
  cases ts with
  | nil => cases h
  | cons t ts =>
    obtain rfl := Option.some.inj h
    refine List.foldlRecOn (motive := fun a => a ∈ t :: ts) ts _ mem_cons_self ?_
    intro a ha b hb
    split_ifs
    · exact ha
    · exact mem_cons_of_mem t hb

def bestByReward (trials : List (TpeTrial F)) : Option (List F) := (bestTrial trials).map (·.vector)

namespace TpeState

variable (o : TpeState F)

/-- `restore_once` from the persisted history; trials are renumbered and normalized again. -/
def restoreOnce (history : Option (TpeHistoryMeta F)) : TpeState F :=
  if o.restoredOnce then o
  else
    match history with
    | none => { o with restoredOnce := true }
    | some h =>
      { o with
        restoredOnce := true
        trials := (h.trials.zipIdx.filterMap fun t =>
          (normalizeSimplexEps t.1.1).toOption.map fun vector =>
            { iteration := t.2, vector, reward := t.1.2.1,
              activeStartMs := t.1.2.2, activeEndMs := t.1.2.2 })
        lastVec := (normalizeSimplexEps h.lastVec).toOption.getD [] }

def setLastVec (v : List F) : TpeState F :=
  { o with lastVec := (normalizeSimplexEps v).toOption.getD v }

/-- `lock_best`: fix the best vector, or the last one when there is no trial. -/
def lock : TpeState F :=
  let best := (bestByReward o.trials).or (if o.lastVec = [] then none else some o.lastVec)
  { o with bestFixed := best.getD o.bestFixed, lockBest := true }

def unlock : TpeState F := { o with lockBest := false }

def bestVec : Option (List F) :=
  if o.bestFixed ≠ [] then some o.bestFixed else bestByReward o.trials

/-- Record a trial: merged into the last one when it repeats its iteration or vector. -/
def observeTrial (iteration : ℕ) (vector : List F) (reward : F) (activeStartMs activeEndMs : ℕ) :
    TpeState F :=
  match normalizeSimplexEps vector with
  | .error _ => o
  | .ok vector =>
    let pushed := o.trials ++ [{ iteration, vector, reward, activeStartMs, activeEndMs }]
    let kept := pushed.drop (pushed.length - maxTrials)
    match o.trials.getLast? with
    | none => { o with trials := kept }
    | some last =>
      if last.iteration = iteration ∨ vecnEq last.vector vector (lit (1 / 1000000)) then
        if lt last.reward reward then
          { o with trials := o.trials.dropLast ++ [{ last with reward, activeEndMs }] }
        else o
      else { o with trials := kept }

/-- `persist_to_meta`. -/
def persist (history : Option (TpeHistoryMeta F)) (now : ℕ) : TpeHistoryMeta F :=
  { history.getD {} with
    trials := o.trials.map fun t => (t.vector, t.reward, t.activeEndMs)
    maxTrials := maxTrials
    lastVec := o.lastVec
    lastCheckMs := some now }

end TpeState

/-! ### Candidates -/

/-- `push_v_candidate`: unless an almost equal candidate is there. -/
def pushVCandidate (s : State F) (v : List F) : State F :=
  if s.globals.vCandidates.any fun u => vecnEq u v (lit (1 / 1000)) then s
  else s.replaceVCandidates (s.globals.vCandidates ++ [v])

/-- Push `n` samples around a center. -/
def pushSamples (center : List F) (bw : F) : ℕ → State F → G → State F × G
  | 0, s, g => (s, g)
  | n + 1, s, g =>
    let (cand, g) := logisticNormalSample center bw g
    pushSamples center bw n (pushVCandidate s cand) g

/-- The pool from its first candidate that no trial has tried. -/
def untried (trials : List (TpeTrial F)) (pool : List (List F)) : List (List F) :=
  pool.dropWhile fun front =>
    trials.any fun t => t.vector.length == front.length && vecnEq t.vector front (lit (1 / 1000))

namespace TpeOptimizer

variable (opt : TpeOptimizer F) (s : State F)

def enqueueSamplesAround (center : List F) (count : ℕ) (g : G) : State F × G :=
  pushSamples center opt.params.bw (max count 1) s g

/-- Nothing is enqueued in the zero-dimensional space, and nothing on a failure. -/
def enqueueExactThenNeighborCandidates (exactCenter : List F) (g : G) :
    Except Error (State F × G) :=
  let activeDim := s.globals.featureDim
  if exactCenter.length ≠ activeDim then
    .error (.illegalArgument (.exactCenterLength exactCenter.length activeDim))
  else if activeDim = 0 then .ok (s, g)
  else
    match normalizeSimplexExact exactCenter with
    | .error e => .error e
    | .ok center =>
      .ok (opt.enqueueSamplesAround (pushVCandidate s center) center opt.params.samples g)

def enqueueInverseCandidates (g : G) : TpeOptimizer F × State F × G :=
  match opt.state.bestVec with
  | none => (opt, s, g)
  | some best =>
    let (s, g) := opt.enqueueSamplesAround s (inverseSimplex best) opt.params.samples g
    ({ opt with state := opt.state.unlock }, s, g)

/-- Take the first candidate that no trial has tried; the ones before it are dropped. -/
def nextUntriedFromPool : Option (List F) × State F :=
  match untried opt.state.trials s.globals.vCandidates with
  | [] => (none, s.replaceVCandidates [])
  | raw :: pool => ((normalizeSimplexEps raw).toOption, s.replaceVCandidates pool)

/-- The center that initial samples are drawn around. -/
def initCenter (activeDim : ℕ) : List F :=
  let stored := s.runtime.map (·.normalizedCreditInitV)
  ((stored.filter fun v => v.length == activeDim).bind fun v => (normalizeSimplexEps v).toOption).getD
    (equalSimplex activeDim)

def initCandidate (g : G) : Option (List F) × State F × G :=
  match opt.nextUntriedFromPool s with
  | (some v, s) => (some v, s, g)
  | (none, s) =>
    let activeDim := s.globals.featureDim
    if activeDim = 0 then (none, s, g)
    else
      let (v, g) := logisticNormalSample (initCenter s activeDim) opt.params.bw g
      (some v, s, g)

/-- The vectors of the good and of the bad trials, when there are both. -/
def splitGoodBad : Option (List (List F) × List (List F)) :=
  let trials := opt.state.trials
  if trials.length < max opt.params.trialsThreshold 2 then none
  else
    let sorted := trials.insertionSort
      fun a b => (partialCmp b.reward a.reward).getD .eq ≠ .gt
    let k := min (max (ceilNat (ofNat trials.length * opt.params.gamma)) 1) trials.length
    match sorted[k - 1]? with
    | none => none
    | some t =>
      let threshold := t.reward
      let good := (trials.filter fun t => le threshold t.reward).map (·.vector)
      let bad := (trials.filter fun t => !le threshold t.reward).map (·.vector)
      if good = [] ∨ bad = [] then none else some (good, bad)

/-- The sampling loop of `suggest_next`: the best candidate so far and its score. -/
def bestSample (good bad : List (List F)) (bw : F) :
    ℕ → Option (List F) × F → G → (Option (List F) × F) × G
  | 0, best, g => (best, g)
  | n + 1, best, g =>
    match sampleOneFromKde good bw g with
    | (none, g) => bestSample good bad bw n best g
    | (some candidate, g) =>
      let score := kdeLogPdf candidate good bw - kdeLogPdf candidate bad bw
      let best := if isFinite score && lt best.2 score then (some candidate, score) else best
      bestSample good bad bw n best g

def suggestNext (g : G) : Option (List F) × TpeOptimizer F × State F × G :=
  if opt.state.lockBest then (none, opt, s, g)
  else
    match opt.nextUntriedFromPool s with
    | (some v, s) => (some v, opt, s, g)
    | (none, s) =>
      match opt.splitGoodBad with
      | none =>
        let (v, s, g) := opt.initCandidate s g
        (v, opt, s, g)
      | some (good, bad) =>
        let (best, g) := bestSample good bad opt.params.bw (max opt.params.samples 1)
          (none, negInfinity) g
        if isFinite best.2 && lt (lit 0) best.2 then (best.1, opt, s, g)
        else (none, { opt with state := opt.state.lock }, s, g)

end TpeOptimizer

/-- The vector of a trial is that of an old trial or the normalized new one. -/
theorem TpeState.vector_observeTrial {o : TpeState F} {iteration : ℕ} {vector : List F} {reward : F}
    {activeStartMs activeEndMs : ℕ} {t : TpeTrial F}
    (ht : t ∈ (o.observeTrial iteration vector reward activeStartMs activeEndMs).trials) :
    (∃ u ∈ o.trials, t.vector = u.vector) ∨ normalizeSimplexEps vector = .ok t.vector := by
  have hold : t ∈ o.trials → ∃ u ∈ o.trials, t.vector = u.vector := fun h => ⟨t, h, rfl⟩
  unfold TpeState.observeTrial at ht
  split at ht
  · exact .inl (hold ht)
  · next w hw =>
    have hpush : t ∈ o.trials ++ [(⟨iteration, w, reward, activeStartMs, activeEndMs⟩ : TpeTrial F)] →
        (∃ u ∈ o.trials, t.vector = u.vector) ∨ normalizeSimplexEps vector = .ok t.vector := by
      intro hin
      rcases mem_append.mp hin with hmem | hmem
      · exact .inl (hold hmem)
      · rw [mem_singleton.mp hmem]
        exact .inr hw
    split at ht
    · dsimp only at ht
      exact hpush (mem_of_mem_drop ht)
    · next last hlast =>
      split_ifs at ht
      · rcases mem_append.mp ht with hmem | hmem
        · exact .inl (hold (dropLast_subset _ hmem))
        · rw [mem_singleton.mp hmem]
          exact .inl ⟨last, mem_of_getLast? hlast, rfl⟩
      · exact .inl (hold ht)
      · dsimp only at ht
        exact hpush (mem_of_mem_drop ht)

section
variable (o : TpeState F) (iteration : ℕ) (vector : List F) (reward : F) (activeStartMs activeEndMs : ℕ)

theorem TpeState.observeTrial_frame : ∃ trials,
    o.observeTrial iteration vector reward activeStartMs activeEndMs = { o with trials } := by
  unfold TpeState.observeTrial
  split
  · exact ⟨_, rfl⟩
  · split
    · exact ⟨_, rfl⟩
    · split_ifs <;> exact ⟨_, rfl⟩

@[simp] theorem TpeState.observeTrial_restoredOnce :
    (o.observeTrial iteration vector reward activeStartMs activeEndMs).restoredOnce =
      o.restoredOnce := by
  obtain ⟨trials, heq⟩ := o.observeTrial_frame iteration vector reward activeStartMs activeEndMs
  rw [heq]

end

@[simp] theorem TpeState.restoreOnce_restoredOnce (o : TpeState F)
    (history : Option (TpeHistoryMeta F)) : (o.restoreOnce history).restoredOnce = true := by
  unfold TpeState.restoreOnce
  split_ifs with h
  · exact h
  · split <;> rfl

/-! ### What the optimizer touches

Of the state only the pool; of itself only the lock. -/

/-- `t` is `s` with another pool. -/
def PoolOnly (s t : State F) : Prop := ∃ vs, t = s.replaceVCandidates vs

theorem PoolOnly.refl (s : State F) : PoolOnly s s := ⟨s.globals.vCandidates, rfl⟩

theorem PoolOnly.trans {s t u : State F} : PoolOnly s t → PoolOnly t u → PoolOnly s u := by
  rintro ⟨vs, rfl⟩ ⟨ws, rfl⟩
  exact ⟨ws, rfl⟩

theorem pushVCandidate_poolOnly (s : State F) (v : List F) : PoolOnly s (pushVCandidate s v) := by
  unfold pushVCandidate
  split_ifs
  · exact .refl s
  · exact ⟨_, rfl⟩

theorem pushSamples_poolOnly (center : List F) (bw : F) :
    ∀ (n : ℕ) (s : State F) (g : G), PoolOnly s (pushSamples center bw n s g).1
  | 0, s, _ => .refl s
  | n + 1, s, _ =>
      (pushVCandidate_poolOnly s _).trans (pushSamples_poolOnly center bw n (pushVCandidate s _) _)

namespace TpeOptimizer

theorem enqueueExact_poolOnly {opt : TpeOptimizer F} {s t : State F} {center : List F} {g g' : G}
    (h : opt.enqueueExactThenNeighborCandidates s center g = .ok (t, g')) : PoolOnly s t := by
  unfold enqueueExactThenNeighborCandidates at h
  simp only at h
  split_ifs at h
  · cases h; exact .refl s
  split at h
  · cases h
  · next c _ =>
    obtain rfl := congrArg Prod.fst (Except.ok.inj h)
    exact (pushVCandidate_poolOnly s c).trans (pushSamples_poolOnly _ _ _ _ _)

variable (opt : TpeOptimizer F) (s : State F) (g : G)

theorem enqueueInverse_frame :
    PoolOnly s (opt.enqueueInverseCandidates s g).2.1 ∧
      ((opt.enqueueInverseCandidates s g).1 = opt ∨
        (opt.enqueueInverseCandidates s g).1 = { opt with state := opt.state.unlock }) := by
  unfold enqueueInverseCandidates
  split
  · exact ⟨.refl s, .inl rfl⟩
  · exact ⟨pushSamples_poolOnly _ _ _ _ _, .inr rfl⟩

theorem nextUntried_poolOnly : PoolOnly s (opt.nextUntriedFromPool s).2 := by
  unfold nextUntriedFromPool
  split <;> exact ⟨_, rfl⟩

theorem initCandidate_poolOnly : PoolOnly s (opt.initCandidate s g).2.1 := by
  have h := opt.nextUntried_poolOnly s
  unfold initCandidate
  split
  · next heq => rw [heq] at h; exact h
  · next heq =>
    rw [heq] at h
    dsimp only
    split_ifs <;> exact h

/-- Suggesting leaves the optimizer as it is, or locks it and suggests nothing. -/
theorem suggestNext_frame :
    PoolOnly s (opt.suggestNext s g).2.2.1 ∧ ((opt.suggestNext s g).2.1 = opt ∨
      (opt.suggestNext s g).2.1 = { opt with state := opt.state.lock }) := by
  have h := opt.nextUntried_poolOnly s
  unfold suggestNext
  split_ifs
  · exact ⟨.refl s, .inl rfl⟩
  split
  · next heq => rw [heq] at h; exact ⟨h, .inl rfl⟩
  · next heq =>
    rw [heq] at h
    split
    · exact ⟨h.trans (opt.initCandidate_poolOnly _ g), .inl rfl⟩
    dsimp only
    split_ifs
    · exact ⟨h, .inl rfl⟩
    · exact ⟨h, .inr rfl⟩

end TpeOptimizer

end Bofuzz
