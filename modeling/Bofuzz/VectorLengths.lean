import Bofuzz.Startup

/-! The length of every vector that the optimizer and the startup code make.

    Sampling goes through log-ratio coordinates, which are one fewer than the weights, and back;
    inverting, normalizing and reading the candidate file keep the length. So a pool, an optimizer
    and a history whose vectors have the active dimension only ever give vectors of that
    dimension. -/

namespace Bofuzz
open F64 List

variable {F G : Type} [F64 F]

/-! ### Sampling -/

@[simp] theorem normalizeOrEqual_length (v : List F) : (normalizeOrEqual v).length = v.length := by
  unfold normalizeOrEqual
  cases h : normalizeSimplexEps v with
  | ok w => exact normalizeSimplexEps_length h
  | error e => exact equalSimplex_length v.length

@[simp] theorem alr_length (v : List F) : (alr v).length = v.length - 1 := by
  simp [alr]

@[simp] theorem softmax_length (z : List F) : (softmax z).length = z.length := by
  unfold softmax
  split_ifs with hz
  · rw [hz]
  · dsimp only
    split_ifs <;> simp

@[simp] theorem alrInverse_length (u : List F) : (alrInverse u).length = u.length + 1 := by
  unfold alrInverse
  split_ifs with hu <;> simp [hu]

@[simp] theorem inverseSimplex_length (best : List F) :
    (inverseSimplex best).length = best.length := by
  unfold inverseSimplex
  dsimp only
  generalize hinv : best.map (fun w => F64.lit 1 /
    F64.powf (F64.max w (F64.lit 0) + eps) (F64.lit (1 / 2))) = inv
  have hlen : inv.length = best.length := by rw [← hinv, length_map]
  cases h : normalizeSimplexEps inv with
  | ok w => exact (normalizeSimplexEps_length h).trans hlen
  | error e => exact length_replicate

variable {v : List F}

theorem normalizeSimplexExact_length {w : List F} (h : normalizeSimplexExact v = .ok w) :
    w.length = v.length := by
  unfold normalizeSimplexExact at h
  split_ifs at h with hv
  · cases h; simp [hv]
  split at h
  · cases h
  · cases h
  · dsimp only at h
    split_ifs at h
    cases h
    exact length_map _

section
variable [Draw F G]

@[simp] theorem addNoise_length (h : F) :
    ∀ (xs : List F) (g : G), (addNoise h xs g).1.length = xs.length
  | [], _ => rfl
  | _ :: xs, g => by
    simp only [addNoise, length_cons]
    rw [addNoise_length h xs _]

variable {center : List F}

theorem logisticNormalSample_length (bw : F) (g : G) (h : 0 < center.length) :
    (logisticNormalSample center bw g).1.length = center.length := by
  unfold logisticNormalSample
  dsimp only
  split_ifs with hle
  · rw [normalizeOrEqual_length] at hle ⊢
    rw [length_replicate]
    omega
  · rw [normalizeOrEqual_length] at hle
    rw [alrInverse_length, addNoise_length, alr_length, normalizeOrEqual_length]
    omega

end

/-! ### The pool -/

/-- All vectors of a list have the given length. -/
def AllDim (dim : ℕ) (vs : List (List F)) : Prop := ∀ v ∈ vs, v.length = dim

/-- A vector that is empty or has the given length. -/
def Fits (dim : ℕ) (v : List F) : Prop := v = [] ∨ v.length = dim

variable {dim : ℕ}

omit [F64 F] in
theorem allDim_nil : AllDim dim ([] : List (List F)) := by
  intro v hv
  cases hv

theorem pushVCandidate_allDim {s : State F} (hs : AllDim dim s.globals.vCandidates)
    (hv : v.length = dim) : AllDim dim (pushVCandidate s v).globals.vCandidates := by
  unfold pushVCandidate
  split_ifs
  · exact hs
  intro u hu
  rcases mem_append.mp hu with hu | hu
  · exact hs u hu
  · rw [mem_singleton.mp hu, hv]

theorem loadCandidatesAt_allDim : ∀ {i : ℕ} {cands vs : List (List F)},
    loadCandidatesAt dim i cands = .ok vs → AllDim dim vs ∧ vs.length = cands.length
  | _, [], _, h => by cases h; exact ⟨allDim_nil, rfl⟩
  | i, cand :: cands, vs, h => by
    unfold loadCandidatesAt at h
    split at h
    · cases h
    · cases h
    · next v vs' hv hvs =>
      cases h
      obtain ⟨hall, hlen⟩ := loadCandidatesAt_allDim hvs
      refine ⟨fun u hu => ?_, by rw [length_cons, length_cons, hlen]⟩
      rcases mem_cons.mp hu with rfl | hu
      · unfold loadCandidate at hv
        dsimp only at hv
        split_ifs at hv with hdim
        split at hv
        · cases hv
        · cases hv
        · rw [normalizeSimplexEps_length (Effect.eq_ok_of_mapError hv)]
          exact not_not.mp hdim
      · exact hall u hu

theorem loadCandidatesFrom_ok {path : String} {file : CandidateFile F} {vs : List (List F)}
    (h : loadCandidatesFrom path file dim = .ok vs) : AllDim dim vs ∧ vs ≠ [] := by
  unfold loadCandidatesFrom at h
  split at h
  · cases h
  · cases h
  · cases h
  · next cands hne =>
    obtain ⟨hall, hlen⟩ := loadCandidatesAt_allDim h
    refine ⟨hall, fun hnil => hne (length_eq_zero_iff.mp ?_)⟩
    rw [← hlen, hnil, length_nil]

theorem ensurePool_ok {pool vs : List (List F)} {path : Option String} {file : CandidateFile F}
    {policy : CandidateFilePolicy} {status : CandidateFileStatus}
    (h : ensurePool pool path file dim policy = .ok (vs, status)) (hpool : AllDim dim pool) :
    AllDim dim vs ∧ (pool ≠ [] → vs = pool) ∧ (status.loaded → vs ≠ []) := by
  unfold ensurePool at h
  split_ifs at h with hpolicy hne
  · cases h; exact ⟨hpool, fun _ => rfl, fun hl => absurd hl Bool.false_ne_true⟩
  · cases h; exact ⟨hpool, fun _ => rfl, fun hl => absurd hl Bool.false_ne_true⟩
  · split at h
    · cases h; exact ⟨allDim_nil, fun hp => absurd hp hne, fun hl => absurd hl Bool.false_ne_true⟩
    · cases h; exact ⟨allDim_nil, fun hp => absurd hp hne, fun hl => absurd hl Bool.false_ne_true⟩
    · split at h
      · cases h
      · next hload =>
        cases h
        obtain ⟨hall, hcands⟩ := loadCandidatesFrom_ok hload
        exact ⟨hall, fun hp => absurd hp hne, fun _ => hcands⟩

/-! ### The optimizer -/

/-- Every vector of the optimizer has the given length. -/
structure OptFits (dim : ℕ) (o : TpeState F) : Prop where
  trials : ∀ t ∈ o.trials, t.vector.length = dim
  lastVec : Fits dim o.lastVec
  bestFixed : Fits dim o.bestFixed

/-- Every vector of the persisted history has the given length. -/
structure HistoryFits (dim : ℕ) (h : TpeHistoryMeta F) : Prop where
  trials : ∀ t ∈ h.trials, t.1.length = dim
  lastVec : Fits dim h.lastVec

theorem Fits.normalize (h : Fits dim v) : Fits dim ((normalizeSimplexEps v).toOption.getD []) := by
  cases hv : normalizeSimplexEps v with
  | error e => exact .inl rfl
  | ok w =>
    have hlen := normalizeSimplexEps_length hv
    rcases h with rfl | h
    · exact .inl (length_eq_zero_iff.mp hlen)
    · exact .inr (hlen.trans h)

theorem bestByReward_length {trials : List (TpeTrial F)}
    (h : ∀ t ∈ trials, t.vector.length = dim) (hv : bestByReward trials = some v) :
    v.length = dim := by
  obtain ⟨t, ht, rfl⟩ := Option.map_eq_some_iff.mp hv
  exact h t (bestTrial_mem ht)

namespace OptFits

variable {o : TpeState F}

omit [F64 F] in
theorem empty : OptFits dim ({} : TpeState F) := by
  refine ⟨?_, .inl rfl, .inl rfl⟩
  intro t ht
  cases ht

section
variable (ho : OptFits dim o)
include ho

theorem restoreOnce {history : Option (TpeHistoryMeta F)} (hh : ∀ h ∈ history, HistoryFits dim h) :
    OptFits dim (o.restoreOnce history) := by
  unfold TpeState.restoreOnce
  split_ifs
  · exact ho
  split
  · exact ⟨ho.trials, ho.lastVec, ho.bestFixed⟩
  · next h =>
    have hh := hh h rfl
    refine ⟨fun t ht => ?_, hh.lastVec.normalize, ho.bestFixed⟩
    obtain ⟨⟨⟨v, r, ts⟩, i⟩, hmem, hmap⟩ := mem_filterMap.mp ht
    obtain ⟨w, hw, rfl⟩ := Option.map_eq_some_iff.mp hmap
    rw [normalizeSimplexEps_length (Effect.toOption_eq_some.mp hw)]
    exact hh.trials _ (fst_mem_of_mem_zipIdx hmem)

theorem setLastVec (hv : v.length = dim) : OptFits dim (o.setLastVec v) := by
  refine ⟨ho.trials, .inr ?_, ho.bestFixed⟩
  unfold TpeState.setLastVec
  cases h : normalizeSimplexEps v with
  | ok w => exact (normalizeSimplexEps_length h).trans hv
  | error e => exact hv

theorem lock : OptFits dim o.lock := by
  refine ⟨ho.trials, ho.lastVec, ?_⟩
  unfold TpeState.lock
  cases hbest : bestByReward o.trials with
  | some v => exact .inr (bestByReward_length ho.trials hbest)
  | none =>
    split_ifs
    · exact ho.bestFixed
    · exact ho.lastVec

omit [F64 F] in
theorem unlock : OptFits dim o.unlock := ⟨ho.trials, ho.lastVec, ho.bestFixed⟩

theorem bestVec (hv : o.bestVec = some v) : v.length = dim := by
  unfold TpeState.bestVec at hv
  split_ifs at hv with hne
  · obtain rfl := Option.some.inj hv
    exact ho.bestFixed.resolve_left hne
  · exact bestByReward_length ho.trials hv

theorem observeTrial (iteration : ℕ) (hv : v.length = dim) (reward : F) (startMs endMs : ℕ) :
    OptFits dim (o.observeTrial iteration v reward startMs endMs) := by
  have htrials : ∀ t ∈ (o.observeTrial iteration v reward startMs endMs).trials, t.vector.length = dim := by
    intro t ht
    rcases TpeState.vector_observeTrial ht with ⟨u, hu, hvec⟩ | hnew
    · rw [hvec, ho.trials u hu]
    · rw [normalizeSimplexEps_length hnew, hv]
  obtain ⟨trials, heq⟩ := o.observeTrial_frame iteration v reward startMs endMs
  rw [heq] at htrials ⊢
  exact ⟨htrials, ho.lastVec, ho.bestFixed⟩

omit [F64 F] in
theorem persist (history : Option (TpeHistoryMeta F)) (now : ℕ) :
    HistoryFits dim (o.persist history now) := by
  refine ⟨fun t ht => ?_, ho.lastVec⟩
  obtain ⟨u, hu, rfl⟩ := mem_map.mp ht
  exact ho.trials u hu

end

end OptFits

/-! ### Suggestions -/

section
variable [Draw F G]

theorem pushVCandidate_ne_nil (s : State F) (v : List F) :
    (pushVCandidate s v).globals.vCandidates ≠ [] := by
  unfold pushVCandidate
  split_ifs with hany
  · intro hnil
    rw [hnil] at hany
    cases hany
  · exact append_ne_nil_of_right_ne_nil _ (cons_ne_nil v [])

theorem pushSamples_allDim {center : List F} (bw : F) (hpos : 0 < dim)
    (hcenter : center.length = dim) :
    ∀ (k : ℕ) (s : State F) (g : G), AllDim dim s.globals.vCandidates →
      AllDim dim (pushSamples center bw k s g).1.globals.vCandidates
  | 0, _, _, hs => hs
  | k + 1, s, g, hs => by
    have hlen : (logisticNormalSample center bw g).1.length = dim :=
      (logisticNormalSample_length bw g (hcenter ▸ hpos)).trans hcenter
    exact pushSamples_allDim bw hpos hcenter k _ _ (pushVCandidate_allDim hs hlen)

theorem pushSamples_ne_nil (center : List F) (bw : F) :
    ∀ (k : ℕ) (s : State F) (g : G), s.globals.vCandidates ≠ [] →
      (pushSamples center bw k s g).1.globals.vCandidates ≠ []
  | 0, _, _, hs => hs
  | k + 1, s, _, _ => pushSamples_ne_nil center bw k _ _ (pushVCandidate_ne_nil s _)

namespace TpeOptimizer

variable (opt : TpeOptimizer F) {s : State F}

/-- The committed center and its neighbours: a pool of the active dimension that is not empty. -/
theorem enqueueExact_pool {opt : TpeOptimizer F} {t : State F} {center : List F} {g g' : G}
    (h : opt.enqueueExactThenNeighborCandidates s center g = .ok (t, g'))
    (hpool : AllDim s.globals.featureDim s.globals.vCandidates) (hpos : 0 < s.globals.featureDim) :
    AllDim s.globals.featureDim t.globals.vCandidates ∧ t.globals.vCandidates ≠ [] := by
  unfold enqueueExactThenNeighborCandidates at h
  dsimp only at h
  split_ifs at h with hlen hzero
  · exact absurd hzero hpos.ne'
  split at h
  · cases h
  · next c hc =>
    obtain rfl := congrArg Prod.fst (Except.ok.inj h)
    have hcenter : c.length = s.globals.featureDim :=
      (normalizeSimplexExact_length hc).trans (not_not.mp hlen)
    exact ⟨pushSamples_allDim _ hpos hcenter _ _ _ (pushVCandidate_allDim hpool hcenter),
      pushSamples_ne_nil _ _ _ _ _ (pushVCandidate_ne_nil s c)⟩

theorem initCenter_length (s : State F) (activeDim : ℕ) :
    (initCenter s activeDim).length = activeDim := by
  unfold initCenter
  dsimp only
  cases h : ((s.runtime.map (·.normalizedCreditInitV)).filter fun v => v.length == activeDim).bind
      fun v => (normalizeSimplexEps v).toOption with
  | none => exact equalSimplex_length activeDim
  | some w =>
    obtain ⟨v, hv, hw⟩ := Option.bind_eq_some_iff.mp h
    obtain ⟨_, hlen⟩ := Option.filter_eq_some_iff.mp hv
    exact (normalizeSimplexEps_length (Effect.toOption_eq_some.mp hw)).trans (beq_iff_eq.mp hlen)

omit [Draw F G] in
theorem splitGoodBad_dim {good bad : List (List F)} (h : opt.splitGoodBad = some (good, bad))
    (hopt : OptFits dim opt.state) : AllDim dim good := by
  unfold splitGoodBad at h
  dsimp only at h
  split_ifs at h
  split at h
  · cases h
  split_ifs at h
  obtain ⟨rfl, _⟩ := Prod.mk.inj (Option.some.inj h)
  intro v hv
  obtain ⟨t, ht, rfl⟩ := mem_map.mp hv
  exact hopt.trials t (mem_of_mem_filter ht)

omit opt in
theorem bestSample_dim {good : List (List F)} (bad : List (List F)) (bw : F)
    (hgood : AllDim dim good) (hpos : 0 < dim) : ∀ (k : ℕ) (best : Option (List F) × F) (g : G),
      (∀ v ∈ best.1, v.length = dim) → ∀ v ∈ (bestSample good bad bw k best g).1.1, v.length = dim
  | 0, _, _, hbest => hbest
  | k + 1, best, g, hbest => by
    simp only [bestSample]
    split
    · exact bestSample_dim bad bw hgood hpos k best _ hbest
    · next candidate g' heq =>
      refine bestSample_dim bad bw hgood hpos k _ _ ?_
      split_ifs
      · rintro _ ⟨⟩
        unfold sampleOneFromKde at heq
        split_ifs at heq with hne
        · obtain rfl := Option.some.inj (congrArg Prod.fst heq)
          have hcenter := hgood _ (get_mem good (Draw.below (F := F) good.length hne g).1)
          exact (logisticNormalSample_length bw _ (hcenter ▸ hpos)).trans hcenter
        · cases heq
      · exact hbest

variable (hpool : AllDim dim s.globals.vCandidates)
include hpool

omit [Draw F G] in
theorem nextUntried_dim :
    (∀ v ∈ (opt.nextUntriedFromPool s).1, v.length = dim) ∧
      AllDim dim (opt.nextUntriedFromPool s).2.globals.vCandidates := by
  have hsub : ∀ v ∈ untried opt.state.trials s.globals.vCandidates, v.length = dim :=
    fun v hv => hpool v ((dropWhile_sublist _).subset hv)
  unfold nextUntriedFromPool
  split
  · exact ⟨(fun _ h => nomatch h), fun _ h => nomatch h⟩
  · next raw pool heq =>
    rw [heq] at hsub
    refine ⟨fun v hv => ?_, fun v hv => hsub v (mem_cons_of_mem raw hv)⟩
    rw [normalizeSimplexEps_length (Effect.toOption_eq_some.mp hv)]
    exact hsub raw mem_cons_self

variable (g : G)

theorem initCandidate_dim (hdim : s.globals.featureDim = dim) :
    (∀ v ∈ (opt.initCandidate s g).1, v.length = dim) ∧
      AllDim dim (opt.initCandidate s g).2.1.globals.vCandidates := by
  have hnext := opt.nextUntried_dim hpool
  obtain ⟨vs, hvs⟩ := opt.nextUntried_poolOnly s
  unfold initCandidate
  split
  · next heq => rw [heq] at hnext; exact hnext
  · next t heq =>
    rw [heq] at hnext hvs
    have htdim : t.globals.featureDim = dim := by rw [show t = _ from hvs]; exact hdim
    dsimp only
    split_ifs with hzero
    · exact ⟨(fun _ h => nomatch h), hnext.2⟩
    refine ⟨?_, hnext.2⟩
    rintro _ ⟨⟩
    have hpos : 0 < (initCenter t t.globals.featureDim).length := by
      rw [initCenter_length]; exact Nat.pos_of_ne_zero hzero
    rw [logisticNormalSample_length _ _ hpos, initCenter_length, htdim]

variable (hopt : OptFits dim opt.state) (hpos : 0 < dim)
include hopt hpos

/-- What is suggested has the active dimension, and so has what stays in the pool. -/
theorem suggestNext_dim (hdim : s.globals.featureDim = dim) :
    (∀ v ∈ (opt.suggestNext s g).1, v.length = dim) ∧
      AllDim dim (opt.suggestNext s g).2.2.1.globals.vCandidates := by
  have hnext := opt.nextUntried_dim hpool
  obtain ⟨vs, hvs⟩ := opt.nextUntried_poolOnly s
  unfold suggestNext
  split_ifs
  · exact ⟨(fun _ h => nomatch h), hpool⟩
  split
  · next heq => rw [heq] at hnext; exact hnext
  · next t heq =>
    rw [heq] at hnext hvs
    split
    · have htdim : t.globals.featureDim = dim := by rw [show t = _ from hvs]; exact hdim
      exact opt.initCandidate_dim hnext.2 g htdim
    · next good bad hsplit =>
      dsimp only
      split_ifs
      · refine ⟨?_, hnext.2⟩
        exact bestSample_dim bad _ (opt.splitGoodBad_dim hsplit hopt) hpos _ _ _
          (fun _ h => nomatch h)
      · exact ⟨(fun _ h => nomatch h), hnext.2⟩

theorem enqueueInverse_dim :
    AllDim dim (opt.enqueueInverseCandidates s g).2.1.globals.vCandidates := by
  unfold enqueueInverseCandidates
  split
  · exact hpool
  · next best hbest =>
    refine pushSamples_allDim _ hpos ?_ _ _ _ hpool
    rw [inverseSimplex_length, hopt.bestVec hbest]

end TpeOptimizer

end

end Bofuzz
