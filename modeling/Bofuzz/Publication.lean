import Bofuzz.Protocol

/-! What publishing a result does to the corpus.

    Every testcase named in the result gets its weight, the statistics of all the weights, and the
    factor that `computeFactor` gives at that moment. The factor is gated on the features being
    active, which `pollPending` switches on only after publishing. -/

namespace Bofuzz
open F64 Effect TpeStage Relation List WeightRecomputeResult

variable {F G : Type} [F64 F] (result : WeightRecomputeResult F) (params : FactorParams F)

/-- The statistics of the weights of a result. -/
def WeightRecomputeResult.stats : WeightStats F :=
  result.perTestcase.foldl (fun stats item => stats.update item.weight) .zero

/-- The factor a weight of the result should get: one where there are too few weights. -/
def WeightRecomputeResult.factor (w : F) : Except Error F :=
  if result.stats.n < 2 then .ok (F64.lit 1) else blendedFactor params result.stats w

/-- Every testcase of the result carries its factor. -/
def FactorsInForce (t : State F) : Prop :=
  ∀ item ∈ result.perTestcase, ∃ entry f, t.corpus.get item.corpusId = some entry ∧
    entry.externalPerfMult = some f ∧ result.factor params item.weight = .ok f

/-! ### The two loops -/

/-- What the loops leave alone: everything but the corpus. -/
def SameButCorpus (s t : State F) : Prop := ∃ corpus, t = { s with corpus }

omit [F64 F] in
theorem Testcase.weight_setWeight (tc : Testcase F) (result : WeightRecomputeResult F) (w : F) :
    (tc.setWeight result w).weight result.mode = some w := by
  unfold Testcase.setWeight
  split <;> next h => rw [h]; rfl

theorem writeWeights_spec :
    ∀ (items : List (TestcaseWeightResult F)) (stats : WeightStats F) (s : State F),
      (items.map (·.corpusId)).Nodup →
      Spec (writeWeights result items stats) s
        (fun stats' t => stats' = items.foldl (fun stats item => stats.update item.weight) stats ∧
          SameButCorpus s t ∧
          (∀ item ∈ items, ∃ entry, t.corpus.get item.corpusId = some entry ∧
            entry.weight result.mode = some item.weight) ∧
          ∀ id ∉ items.map (·.corpusId), t.corpus.get id = s.corpus.get id)
        (fun _ _ => True)
  | [], stats, s, _ => ⟨rfl, ⟨s.corpus, rfl⟩, by simp, fun _ _ => rfl⟩
  | item :: items, stats, s, hnodup => by
    rw [map_cons, nodup_cons] at hnodup
    simp only [writeWeights, spec_bind, spec_get]
    split
    · trivial
    · next entry hentry =>
      simp only [spec_bind, spec_set]
      refine (writeWeights_spec items _ _ hnodup.2).imp ?_
      rintro stats' t ⟨hstats, ⟨corpus, rfl⟩, hitems, hother⟩
      refine ⟨hstats, ⟨corpus, rfl⟩, ?_, fun id hid => ?_⟩
      · intro i hi
        rcases mem_cons.mp hi with rfl | hi
        · -- its own entry is not written again, the ids being distinct
          refine ⟨entry.setWeight result i.weight, ?_, entry.weight_setWeight result i.weight⟩
          rw [hother i.corpusId hnodup.1, Corpus.get_modify, if_pos rfl, hentry]
          rfl
        · exact hitems i hi
      · rw [map_cons, mem_cons, not_or] at hid
        rw [hother id hid.2, Corpus.get_modify, if_neg hid.1]

theorem writeFactors_spec :
    ∀ (items : List (TestcaseWeightResult F)) (s : State F), (items.map (·.corpusId)).Nodup →
      Spec (writeFactors params items) s (fun _ t => SameButCorpus s t ∧
          (∀ item ∈ items, ∀ entry, s.corpus.get item.corpusId = some entry →
            ∃ f, computeFactor params s entry = .ok f ∧
              t.corpus.get item.corpusId = some { entry with externalPerfMult := some f }) ∧
          ∀ id ∉ items.map (·.corpusId), t.corpus.get id = s.corpus.get id)
        (fun _ _ => True)
  | [], s, _ => ⟨⟨s.corpus, rfl⟩, by simp, fun _ _ => rfl⟩
  | item :: items, s, hnodup => by
    rw [map_cons, nodup_cons] at hnodup
    simp only [writeFactors, spec_bind, spec_get]
    split
    · trivial
    · next entry hentry =>
      simp only [spec_bind, spec_ofResult, spec_set]
      refine ⟨fun f hf => ?_, fun _ _ => trivial⟩
      refine (writeFactors_spec items _ hnodup.2).imp ?_
      rintro _ t ⟨⟨corpus, rfl⟩, hitems, hother⟩
      refine ⟨⟨corpus, rfl⟩, ?_, fun id hid => ?_⟩
      · intro i hi e he
        rcases mem_cons.mp hi with rfl | hi
        · obtain rfl := Option.some.inj (hentry.symm.trans he)
          refine ⟨f, hf, ?_⟩
          rw [hother i.corpusId hnodup.1, Corpus.get_modify, if_pos rfl, hentry]
          rfl
        · refine hitems i hi e ?_
          have hne : i.corpusId ≠ item.corpusId := by
            rintro heq
            exact hnodup.1 (heq ▸ mem_map_of_mem hi)
          rw [Corpus.get_modify, if_neg hne, he]
      · rw [map_cons, mem_cons, not_or] at hid
        rw [hother id hid.2, Corpus.get_modify, if_neg hid.1]

/-! ### The factors that are written -/

/-- The factor publishing writes: the one the result asks for if features are enabled, else one. -/
def WeightRecomputeResult.written (s : State F) (w : F) : Except Error F :=
  if s.getFeaturesEnabled then result.factor s.globals.factorParams w else .ok (F64.lit 1)

/-- Every testcase of the result carries the factor written for it. -/
def FactorsWritten (s t : State F) : Prop :=
  ∀ item ∈ result.perTestcase, ∃ entry f, t.corpus.get item.corpusId = some entry ∧
    entry.externalPerfMult = some f ∧ result.written s item.weight = .ok f

theorem computeFactor_eq (s : State F) (entry : Testcase F)
    {w : F} (hw : entry.weight s.mode = some w) :
    computeFactor s.globals.factorParams { s with globalStats := some result.stats } entry
      = result.written s w := by
  have hmode : ({ s with globalStats := some result.stats } : State F).mode = s.mode := rfl
  have henabled : ({ s with globalStats := some result.stats } : State F).getFeaturesEnabled =
      s.getFeaturesEnabled := rfl
  simp only [computeFactor, hmode, henabled, hw, written]
  cases s.getFeaturesEnabled <;> rfl

theorem publish_spec (s : State F)
    (hnodup : (result.perTestcase.map (·.corpusId)).Nodup) (hmode : result.mode = s.mode) :
    Spec (publishWeightRecomputeResult result) s (fun _ t => FactorsWritten result s t)
      (fun _ _ => True) := by
  simp only [publishWeightRecomputeResult, spec_bind, spec_modify, spec_get]
  refine (writeWeights_spec result _ .zero s hnodup).imp ?_
  rintro stats t ⟨rfl, ⟨corpus, rfl⟩, hweights, _⟩
  refine (writeFactors_spec _ _ _ hnodup).imp ?_
  rintro _ u ⟨_, hfactors, _⟩ item hitem
  obtain ⟨entry, hget, hw⟩ := hweights item hitem
  obtain ⟨f, hf, hmult⟩ := hfactors item hitem entry hget
  refine ⟨_, f, hmult, rfl, ?_⟩
  rw [← computeFactor_eq result s entry (hmode ▸ hw), ← hf]
  rfl

variable {snapshot : CorpusWeightSnapshot F}

theorem poll_writes (env : Env) (p : Proc F G)
    (hrx : p.stage.resultRx = some snapshot)
    (hnodup : (snapshot.testcases.map (·.corpusId)).Nodup) (hmode : snapshot.mode = p.state.mode) :
    Spec (pollPending env) p (fun published q => published = true →
        FactorsWritten (computeWeights snapshot) p.state q.state) (fun _ _ => True) := by
  have hnodup : ((computeWeights snapshot).perTestcase.map (·.corpusId)).Nodup := by
    rw [computeWeights, List.map_map]
    exact hnodup
  simp only [pollPending, spec_bind, spec_get, hrx]
  split
  · intro h
    cases h
  · trivial
  · simp only [spec_bind, spec_set]
    split_ifs
    · intro h
      cases h
    · simp only [spec_bind, spec_onState, spec_modify, spec_pure]
      exact (publish_spec _ p.state hnodup hmode).imp fun _ t h _ => h

/-- A pending worker has distinct testcases and the weight mode of the state, and the stage is
    switched on. -/
def Snapshotted (c : Control F) : Prop :=
  ∀ snapshot, c.rx = some snapshot →
    c.gate ∧ snapshot.mode = c.mode ∧ (snapshot.testcases.map (·.corpusId)).Nodup

theorem Snapshotted.step {R : Control F → Prop} {L : List (TpeTrial F) → List F → Prop}
    {c d : Control F} (h : Control.Step R L c d) (hI : Snapshotted c) : Snapshotted d := by
  cases h with
  | start v w snapshot hgate hphase hworker hlen hw hiter hmode hweights hnodup =>
    rintro _ ⟨⟩
    exact ⟨hgate, hmode, hnodup⟩
  | publish | stale => exact fun _ h => nomatch h
  | _ => exact hI

theorem Snapshotted.repair {p : Proc F G} (h : Snapshotted p.control) :
    Snapshotted p.restore.repair.control := by
  unfold Proc.repair
  split_ifs <;> exact h

/-- What is written is what the result asks for if features were active; else it is one. -/
theorem poll_factors_iff {env : Env} {p q : Proc F G}
    (hinv : Snapshotted p.control) (hrx : p.stage.resultRx = some snapshot)
    (hpoll : pollPending env p = .ok true q) :
    FactorsInForce (computeWeights snapshot) p.state.globals.factorParams q.state ↔
      p.state.globals.featuresActive ∨ ∀ item ∈ (computeWeights snapshot).perTestcase,
        (computeWeights snapshot).factor p.state.globals.factorParams item.weight = .ok (F64.lit 1) := by
  obtain ⟨hgate, hmode, hnodup⟩ := hinv snapshot hrx
  have hwritten : FactorsWritten (computeWeights snapshot) p.state q.state := by
    have h := poll_writes env p hrx hnodup hmode
    rw [Spec, hpoll] at h
    exact h rfl
  have henabled : p.state.getFeaturesEnabled = p.state.globals.featuresActive := by
    have hgate : gate p.state = true := hgate
    simp only [gate, Bool.and_eq_true] at hgate
    simp [State.getFeaturesEnabled, hgate.1]
  by_cases hactive : p.state.globals.featuresActive
  · refine ⟨fun _ => .inl hactive, fun _ item hitem => ?_⟩
    obtain ⟨entry, f, hget, hmult, hf⟩ := hwritten item hitem
    rw [written, henabled, if_pos hactive] at hf
    exact ⟨entry, f, hget, hmult, hf⟩
  · rw [or_iff_right hactive]
    refine forall₂_congr fun item hitem => ?_
    obtain ⟨entry, f, hget, hmult, hf⟩ := hwritten item hitem
    rw [written, henabled, if_neg hactive] at hf
    obtain rfl := Except.ok.inj hf
    constructor
    · rintro ⟨entry', f, hget', hmult', hf'⟩
      obtain rfl := Option.some.inj (hget.symm.trans hget')
      rw [hf', Option.some.inj (hmult.symm.trans hmult')]
    · exact fun hf' => ⟨entry, _, hget, hmult, hf'⟩

section
variable [Draw F G]

theorem Snapshotted.run (restart : Restart F) (setup : Setup F) (rng : G) (s : State F)
    (acts : List (Act F G)) :
    Snapshotted (Run.run (World.step restart) (World.start setup rng s) acts).proc.control :=
  World.run_always restart (I := Snapshotted) (w := World.start setup rng s) (fun _ _ _ h => nomatch h)
    (fun _ _ => Snapshotted.step) (fun _ _ _ _ _ _ _ _ h => nomatch h) (fun _ h => nomatch h) acts

/-- Published weights take effect at once just when features were active before, or every factor is
    one anyway: in every state of every campaign, whatever a restart makes of the state. -/
theorem published_factors_iff (restart : Restart F) (setup : Setup F) (rng : G) (s : State F)
    (acts : List (Act F G)) (env : Env) (snapshot : CorpusWeightSnapshot F) (p q : Proc F G)
    (hp : p = (Run.run (World.step restart) (World.start setup rng s) acts).proc.restore.repair)
    (hrx : p.stage.resultRx = some snapshot) (hpoll : pollPending env p = .ok true q) :
    FactorsInForce (computeWeights snapshot) p.state.globals.factorParams q.state ↔
      p.state.globals.featuresActive ∨ ∀ item ∈ (computeWeights snapshot).perTestcase,
        (computeWeights snapshot).factor p.state.globals.factorParams item.weight = .ok (F64.lit 1) := by
  refine poll_factors_iff ?_ hrx hpoll
  rw [hp]
  exact (Snapshotted.run restart setup rng s acts).repair

end

/-- Whether a poll ended with a publication. -/
def pollPublishes (env : Env) (p : Proc F G) : Bool :=
  match pollPending env p with
  | .ok b _ => b
  | .error _ _ => false

theorem exists_of_pollPublishes (env : Env) (p : Proc F G) (h : pollPublishes env p = true)
    (hrx : p.stage.resultRx.isSome) :
    ∃ snapshot q, p.stage.resultRx = some snapshot ∧ pollPending env p = .ok true q := by
  obtain ⟨snapshot, hsnapshot⟩ := Option.isSome_iff_exists.mp hrx
  unfold pollPublishes at h
  split at h
  · next b q hq => subst h; exact ⟨snapshot, q, hsnapshot, hq⟩
  · cases h

/-- The second publication of a run. -/
theorem published_factors_demo :
    let p := (Demo.reached Demo.firstWindow).proc.restore.repair
    ∃ snapshot q, p.stage.resultRx = some snapshot ∧
      pollPending (Demo.meets 18500 .ready) p = .ok true q ∧
      FactorsInForce (computeWeights snapshot) p.state.globals.factorParams q.state := by
  intro p
  obtain ⟨snapshot, q, hrx, hpoll⟩ :=
    exists_of_pollPublishes (Demo.meets 18500 .ready) p (by decide +kernel) (by decide +kernel)
  exact ⟨snapshot, q, hrx, hpoll, (published_factors_iff _ _ _ _ _ _ snapshot p q rfl hrx hpoll).mpr
    (.inl (by decide +kernel))⟩

/-- At the first publication the factors are all one, though the weights differ. -/
theorem first_published_factors_one :
    let p := (Demo.reached [Demo.progress 3, Demo.call 12000 .empty]).proc.restore.repair
    ∃ snapshot q, p.stage.resultRx = some snapshot ∧
      pollPending (Demo.meets 12500 .ready) p = .ok true q ∧
      ¬ FactorsInForce (computeWeights snapshot) p.state.globals.factorParams q.state := by
  intro p
  obtain ⟨snapshot, q, hrx, hpoll⟩ :=
    exists_of_pollPublishes (Demo.meets 12500 .ready) p (by decide +kernel) (by decide +kernel)
  refine ⟨snapshot, q, hrx, hpoll, fun h => ?_⟩
  have hinv : Snapshotted p.control := (Snapshotted.run _ _ _ _ _).repair
  rcases (poll_factors_iff hinv hrx hpoll).mp h with hactive | hone
  · exact absurd hactive (by decide +kernel)
  have hfactors : ∀ result ∈ p.stage.resultRx.map computeWeights, ∀ item ∈ result.perTestcase,
      (result.factor p.state.globals.factorParams item.weight).toOption = some (F64.lit 1) := by
    rw [hrx]
    rintro _ ⟨⟩ item hitem
    rw [hone item hitem]
    rfl
  exact absurd hfactors (by decide +kernel)

end Bofuzz
