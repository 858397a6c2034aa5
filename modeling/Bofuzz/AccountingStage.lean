import Bofuzz.StageDriver
import Bofuzz.WeightRefresh

/-! The accounting stage (`feature_sched/accounting_stage.rs`).

    Its `perform` gives the scheduled testcase the factor of the moment, or takes the factor away
    while features are disabled (`perform_accounts`). Its `shouldRestart` answers no, which tells
    the driver to skip it: a stage tuple does the same with it as without it. -/

namespace Bofuzz
open F64 Effect

/-- What the stages of a fuzzer share, as far as the accounting stage sees it. -/
structure Fuzz (F : Type) [F64 F] where
  state : State F
  /-- The initial value and the entries of the sancov map, if the executor has its observer. -/
  sancov : Option (ℕ × List ℕ)
  fireFails : Bool := false
  shutdownFails : Bool := false
  stopRequested : Bool := false

variable {F : Type} [F64 F]

instance : Stoppable (Fuzz F) where
  stopRequested d := d.stopRequested
  discardStopRequest d := { d with stopRequested := false }
  onShutdown := do if (← get).shutdownFails then throw .event else pure ()

namespace FeaturesAccountingStage

/-- The indexes of a map that differ from its initial value. -/
def touched (initial : ℕ) (map : List ℕ) : List ℕ :=
  map.zipIdx.filterMap fun v => if v.1 ≠ initial then some v.2 else none

/-- `corpus().get(cid)?`. -/
def entryOf (cid : CorpusId) : EStateM Error (Fuzz F) (Testcase F) := do
  match (← get).state.corpus.get cid with
  | none => throw (.keyNotFound (.indexNotFound cid))
  | some entry => pure entry

/-- Write metadata of one entry. -/
def writeEntry (cid : CorpusId) (f : Testcase F → Testcase F) : EStateM Error (Fuzz F) Unit :=
  modify fun d => { d with state := { d.state with corpus := d.state.corpus.modify cid f } }

/-- An entry without covered sites gets those of the last execution. -/
def fillIndexes (cid : CorpusId) : EStateM Error (Fuzz F) Unit := do
  if (← entryOf cid).sancovIndexes.isSome then pure ()
  else
    match (← get).sancov with
    | none => throw (.unknown .sancovObserverMissing)
    | some (initial, map) =>
      let idx := touched initial map
      if idx = [] then pure () else writeEntry cid fun tc => { tc with sancovIndexes := some idx }

def setFeat0 (v : F) : EStateM Error (Fuzz F) Unit :=
  modify fun d => { d with state := { d.state with globals := { d.state.globals with featVal0 := v } } }

/-- The summary that is fired at the end is left out; only its failure matters. -/
def fire : EStateM Error (Fuzz F) Unit := do
  if (← get).fireFails then throw .event else pure ()

def perform : EStateM Error (Fuzz F) Unit := do
  match (← get).state.corpus.current with
  | none => pure ()
  | some cid =>
    fillIndexes cid
    if !(← get).state.getFeaturesEnabled then
      let _ ← entryOf cid
      writeEntry cid fun tc => { tc with externalPerfMult := none }
    else
      setFeat0 (((← get).state.featuresMap.bind List.head?).getD (F64.lit 0))
      let entry ← entryOf cid
      let s := (← get).state
      let factor ← ofResult (computeFactor s.globals.factorParams s entry)
      writeEntry cid fun tc => { tc with externalPerfMult := some factor }
      fire

end FeaturesAccountingStage

def featuresAccountingStage : Stage (Fuzz F) where
  shouldRestart := pure false
  clearProgress := pure ()
  perform := FeaturesAccountingStage.perform

/-! ### What performing the stage does -/

/-- The scheduled testcase carries its factor, and none while features are disabled. -/
def Accounted (s : State F) : Prop :=
  ∀ cid, s.corpus.current = some cid → ∀ entry, s.corpus.get cid = some entry →
    if s.getFeaturesEnabled then
      ∃ f, computeFactor s.globals.factorParams s entry = .ok f ∧ entry.externalPerfMult = some f
    else entry.externalPerfMult = none

namespace FeaturesAccountingStage

/-- Filling in covered sites changes only the corpus, and not which entry is scheduled. -/
theorem fillIndexes_frame (cid : CorpusId) (d : Fuzz F) :
    Spec (fillIndexes cid) d (fun _ e => ∃ corpus, corpus.current = d.state.corpus.current ∧
        e = { d with state := { d.state with corpus } }) (fun _ _ => True) := by
  simp only [fillIndexes, entryOf, spec_bind, spec_get]
  split
  · trivial
  simp only [spec_pure]
  split_ifs
  · exact ⟨d.state.corpus, rfl, rfl⟩
  simp only [spec_bind, spec_get]
  split
  · trivial
  · split_ifs
    · exact ⟨d.state.corpus, rfl, rfl⟩
    · exact ⟨d.state.corpus.modify cid _, rfl, rfl⟩

/-- Writing a factor to the scheduled entry accounts for it if it is the right one; the factor does
    not depend on the one that was there before. -/
theorem accounted_write {s : State F} {cid : CorpusId} {entry : Testcase F} (mult : Option F)
    (hcur : s.corpus.current = some cid) (hentry : s.corpus.get cid = some entry)
    (hmult : if s.getFeaturesEnabled then
      ∃ f, computeFactor s.globals.factorParams s entry = .ok f ∧ mult = some f else mult = none) :
    Accounted { s with corpus := s.corpus.modify cid fun tc => { tc with externalPerfMult := mult } } := by
  intro cid' hcur' entry' hentry'
  obtain rfl : cid = cid' := Option.some.inj (hcur.symm.trans hcur')
  rw [Corpus.get_modify, if_pos rfl, hentry] at hentry'
  obtain rfl := Option.some.inj hentry'
  exact hmult

theorem perform_accounts (d : Fuzz F) :
    Spec perform d (fun _ e => Accounted e.state) (fun _ _ => True) := by
  simp only [perform, spec_bind, spec_get]
  split
  · next hcur => exact fun cid h => absurd (hcur.symm.trans h) (by simp)
  · next cid hcur =>
    simp only [spec_bind]
    refine (fillIndexes_frame cid d).imp ?_
    rintro _ _ ⟨corpus, hsame, rfl⟩
    have hcur : corpus.current = some cid := hsame.trans hcur
    simp only [spec_get]
    split_ifs with hen
    · simp only [entryOf, writeEntry, spec_bind, spec_get]
      split
      · trivial
      · next entry hentry =>
        refine accounted_write none hcur hentry ?_
        rw [if_neg (by simpa using hen)]
    · simp only [setFeat0, entryOf, writeEntry, fire, spec_bind, spec_get, spec_modify]
      split
      · trivial
      · next entry hentry =>
        simp only [spec_pure, spec_ofResult]
        refine ⟨fun f hf => ?_, fun _ _ => trivial⟩
        split_ifs
        · trivial
        refine accounted_write (s := { d.state with
          corpus, globals := { d.state.globals with featVal0 := _ } }) (some f) hcur hentry ?_
        split_ifs with h
        · exact ⟨f, hf, rfl⟩
        · exact absurd (Bool.not_eq_true' _ ▸ Bool.eq_false_iff.mpr h) hen

end FeaturesAccountingStage

/-! ### What the driver makes of it -/

/-- A tuple with the stage accounts for the scheduled testcase just when its other stages alone
    do. -/
theorem accounting_stage_iff (pre post : List (Stage (Fuzz F))) (d e : Session (Fuzz F))
    (hidle : d.stack.currentStageId = none)
    (hok : performAll (pre ++ featuresAccountingStage :: post) d = .ok () e) :
    Accounted e.data.state ↔ ∃ e', performAll (pre ++ post) d = .ok () e' ∧ Accounted e'.data.state := by
  have hrest := performAll_skip (fun _ => rfl) pre d e hidle hok
  refine ⟨fun h => ⟨e, hrest, h⟩, ?_⟩
  rintro ⟨e', he', h⟩
  rw [hrest, EStateM.Result.ok.injEq] at he'
  rw [he'.2]
  exact h

namespace Demo

/-- One scheduled testcase without a factor, with features active or not. -/
def accounting (active : Bool) : Session (Fuzz Exact) where
  stack := { stageIdxStack := [], stageDepth := 0 }
  data :=
    { state := { globals := { featuresActive := active, featExists := true }
                 corpus := { entries := [(0, { sancovIndexes := some [0] })], nodup := by decide
                             current := some 0 } }
      sancov := some (0, [1]) }

/-- A stage that does the same and is not skipped. -/
def performing : Stage (Fuzz Exact) := { featuresAccountingStage with shouldRestart := pure true }

end Demo

/-- With features active, the testcase is accounted for if the other stage of a tuple does it. -/
theorem accounting_stage_demo : ∃ e, performAll [Demo.performing, featuresAccountingStage]
    (Demo.accounting true) = .ok () e ∧ Accounted e.data.state := by
  refine ⟨_, rfl, (accounting_stage_iff [Demo.performing] [] (Demo.accounting true) _ rfl rfl).mpr
    ⟨_, rfl, ?_⟩⟩
  rintro _ ⟨⟩ _ ⟨⟩
  exact ⟨_, rfl, rfl⟩

/-- By itself it leaves the scheduled testcase without a factor. -/
theorem accounting_skipped :
    performAll [featuresAccountingStage] (Demo.accounting true) = .ok () (Demo.accounting true) ∧
      ¬ Accounted (Demo.accounting true).data.state := by
  refine ⟨rfl, fun h => ?_⟩
  obtain ⟨f, _, hf⟩ := h 0 rfl { sancovIndexes := some [0] } rfl
  cases hf

end Bofuzz
