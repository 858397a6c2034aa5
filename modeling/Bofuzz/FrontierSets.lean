import Bofuzz.SancovIndexFeedback

/-! The frontier after any history of additions (`frontier.rs`).

    The feedbacks keep the frontier incrementally: the newly covered sites are found by one of them
    and added by the other, and the sets are stored only when something changed. After any number of
    additions they are what a computation over all hits at once gives, `batchFrontier`. -/

namespace Bofuzz
open F64 Effect Run List Bool SancovIndexFeedback
open Option hiding any_eq_true

variable {F : Type} [F64 F]

/-- The sites below `n` that are hit. -/
def coveredBits (n : ℕ) (hits : List ℕ) : List Bool := (List.range n).map fun i => decide (i ∈ hits)

/-- The frontier of all hits at once; there is none as long as no site is hit. -/
def batchFrontier (acfg : SancovAcfgMeta) (hits : List ℕ) :
    Option (List Bool × List Bool × List Bool) :=
  if ∃ i ∈ hits, i < acfg.nSancovSites then
    let covered := coveredBits acfg.nSancovSites hits
    some (covered, recomputeFrontierSets covered acfg)
  else none

variable (s : State F)

/-- The stored sets. -/
def frontierSets : Option (List Bool × List Bool × List Bool) :=
  s.frontier.map fun f => (f.covered, f.fPrev, f.fNext)

variable {n : ℕ}

theorem bitsetGet_map_range {p : ℕ → Bool} {i : ℕ} :
    bitsetGet ((List.range n).map p) i = (decide (i < n) && p i) := by
  unfold bitsetGet
  by_cases hi : i < n
  · simp [hi]
  · simp [hi]

variable {hits : List ℕ}

@[simp] theorem bitsetGet_coveredBits {i : ℕ} :
    bitsetGet (coveredBits n hits) i = decide (i < n ∧ i ∈ hits) := by
  rw [coveredBits, bitsetGet_map_range, decide_and]

theorem coveredBits_congr {hits' : List ℕ} (h : ∀ i < n, i ∈ hits ↔ i ∈ hits') :
    coveredBits n hits = coveredBits n hits' := by
  refine map_congr_left fun i hi => ?_
  rw [decide_eq_decide]
  exact h i (mem_range.mp hi)

variable {acfg : SancovAcfgMeta}

theorem batchFrontier_congr {hits' : List ℕ} (h : ∀ i < acfg.nSancovSites, i ∈ hits ↔ i ∈ hits') :
    batchFrontier acfg hits = batchFrontier acfg hits' := by
  have hany : (∃ i ∈ hits, i < acfg.nSancovSites) ↔ ∃ i ∈ hits', i < acfg.nSancovSites := by
    constructor
    · rintro ⟨i, hi, hlt⟩
      exact ⟨i, (h i hlt).mp hi, hlt⟩
    · rintro ⟨i, hi, hlt⟩
      exact ⟨i, (h i hlt).mpr hi, hlt⟩
  unfold batchFrontier
  simp only [hany, coveredBits_congr h]

/-! ### One update -/

theorem coveredBits_set {idx : ℕ} :
    (coveredBits n hits).set idx true = coveredBits n (hits ++ [idx]) := by
  refine ext_getElem (by simp [coveredBits]) fun i hi hi' => ?_
  by_cases h : idx = i
  · simp [coveredBits, h]
  · simp [coveredBits, h, Ne.symm h]

theorem cover_step (n idx : ℕ) (hits : List ℕ) (changed : Bool) :
    (if idx < n && !bitsetGet (coveredBits n hits) idx then ((coveredBits n hits).set idx true, true)
      else (coveredBits n hits, changed))
      = (coveredBits n (hits ++ [idx]), changed || decide (idx < n ∧ idx ∉ hits)) := by
  by_cases hnew : idx < n ∧ idx ∉ hits
  · simp [hnew, coveredBits_set]
  have hsame : coveredBits n hits = coveredBits n (hits ++ [idx]) := by
    refine coveredBits_congr fun i hi => ?_
    grind
  rw [if_neg, ← hsame, decide_eq_false hnew, Bool.or_false]
  rw [bitsetGet_coveredBits]
  grind

/-- Adding sites one by one, and whether one of them was new. -/
theorem foldl_cover (n : ℕ) (newly hits : List ℕ) (changed : Bool) :
    newly.foldl (fun acc idx => if idx < n && !bitsetGet acc.1 idx then (acc.1.set idx true, true)
        else acc) (coveredBits n hits, changed)
      = (coveredBits n (hits ++ newly), changed || decide (∃ i ∈ newly, i < n ∧ i ∉ hits)) := by
  induction newly generalizing hits changed with
  | nil => simp
  | cons idx newly ih =>
    rw [foldl_cons, cover_step, ih, append_assoc, singleton_append, Bool.or_assoc, ← decide_or]
    congr 3
    grind

variable {s : State F}

/-! ### Additions -/

/-- The covered set, empty while nothing is stored; the other two likewise. -/
def State.covered : List Bool := (s.frontier.map (·.covered)).getD []

def State.fPrev : List Bool := (s.frontier.map (·.fPrev)).getD []

def State.fNext : List Bool := (s.frontier.map (·.fNext)).getD []

/-- The three stored sets in terms of the sites that were hit. -/
structure FrontierOf (acfg : SancovAcfgMeta) (hits : List ℕ) (s : State F) : Prop where
  covered (i : ℕ) : bitsetGet s.covered i ↔ i < acfg.nSancovSites ∧ i ∈ hits
  fPrev (i : ℕ) : bitsetGet s.fPrev i ↔ (i < acfg.nSancovSites ∧ i ∈ hits) ∧
    ∃ v ∈ acfg.successors.getD i [], v < acfg.nSancovSites ∧ v ∉ hits
  fNext (i : ℕ) : bitsetGet s.fNext i ↔ (i < acfg.nSancovSites ∧ i ∉ hits) ∧
    ∃ p ∈ acfg.predecessors.getD i [], p < acfg.nSancovSites ∧ p ∈ hits

variable {a : Addition F}

/-- The second feedback hands the reported sites to the frontier, whatever becomes of the credit. -/
theorem addStep_frontier (hacfg : s.acfg.isSome)
    (hmatrix : a.before.featuresMatrix.isSome) : frontierSets (addStep s a) = frontierSets
      (updateFrontierMeta (record a.hits (a.meets s)) (newlyCovered s a.hits)).1 := by
  obtain ⟨acfg, hacfg⟩ := isSome_iff_exists.mp hacfg
  obtain ⟨m, hm⟩ := isSome_iff_exists.mp hmatrix
  refine finalState_of_spec (P := fun t => frontierSets t = _) ?_
  have hacfg' : (record a.hits (a.meets s)).acfg = some acfg := hacfg
  have hm' : (record a.hits (a.meets s)).featuresMatrix = some m := hm
  have hdelta : ((record a.hits (a.meets s)).coverageDelta.getD {}
      ).newlyCoveredSancov = newlyCovered s a.hits := rfl
  simp only [appendMetadata, spec_bind, spec_get, hacfg', hm', hdelta]
  split_ifs with hnil
  · -- nothing new: the update would not change anything either
    rw [spec_pure, hnil, updateFrontierMeta, hacfg']
    rfl
  · exact rfl
  · simp only [spec_bind, spec_ofResult, spec_set]
    refine ⟨fun mass _ => ?_, fun _ _ => trivial⟩
    unfold addCredits
    dsimp only
    split_ifs <;> rfl

section
variable {hits : List ℕ} (h : frontierSets s = batchFrontier acfg hits)
include h

theorem start_eq (iteration : ℕ) (fPrev fNext : List Bool) : resizeWith (s.frontier.getD
      ⟨iteration, List.replicate acfg.nSancovSites false, fPrev, fNext⟩).covered acfg.nSancovSites false
      = coveredBits acfg.nSancovSites hits := by
  unfold frontierSets batchFrontier at h
  split_ifs at h with hany
  · obtain ⟨f, hf, heq⟩ := map_eq_some_iff.mp h
    have hcovered : f.covered = coveredBits acfg.nSancovSites hits := (Prod.ext_iff.mp heq).1
    rw [hf, getD_some, hcovered]
    exact resizeWith_self _ (by simp [coveredBits])
  · rw [map_eq_none_iff.mp h, getD_none, resizeWith_self _ (by simp)]
    refine (eq_replicate_iff.mpr ⟨by simp [coveredBits], fun b hb => ?_⟩).symm
    obtain ⟨i, hi, rfl⟩ := mem_map.mp hb
    exact decide_eq_false fun hmem => hany ⟨i, hmem, mem_range.mp hi⟩

/-- An update makes the frontier of the hits so far that of all hits. -/
theorem updateFrontierMeta_sets (hacfg : s.acfg = some acfg) (newly : List ℕ) :
    frontierSets (updateFrontierMeta s newly).1 = batchFrontier acfg (hits ++ newly) := by
  unfold updateFrontierMeta
  simp only [hacfg, start_eq h, foldl_cover, Bool.false_or, decide_eq_true_eq]
  split_ifs with hchanged
  · obtain ⟨i, hi, hlt, _⟩ := hchanged
    have hany : ∃ i ∈ hits ++ newly, i < acfg.nSancovSites := ⟨i, mem_append_right _ hi, hlt⟩
    rw [batchFrontier, if_pos hany]
    rfl
  · rw [h]
    refine batchFrontier_congr fun i hi => ?_
    rw [mem_append]
    constructor
    · exact .inl
    · rintro (hmem | hmem)
      · exact hmem
      · exact not_not.mp fun hno => hchanged ⟨i, hmem, hi, hno⟩

theorem frontierOf_of_sets : FrontierOf acfg hits s := by
  unfold frontierSets batchFrontier at h
  split_ifs at h with hany
  · obtain ⟨f, hf, heq⟩ := map_eq_some_iff.mp h
    obtain ⟨hcovered, hprev, hnext⟩ := Prod.mk.inj heq |>.imp_right Prod.mk.inj
    constructor
    · intro i
      rw [State.covered, hf, map_some, getD_some, hcovered, bitsetGet_coveredBits,
        decide_eq_true_eq]
    · intro i
      rw [State.fPrev, hf, map_some, getD_some, hprev, bitsetGet_map_range]
      simp only [bitsetGet_coveredBits, and_eq_true, decide_eq_true_eq, any_eq_true,
        not_eq_true', decide_eq_false_iff_not]
      grind
    · intro i
      rw [State.fNext, hf, map_some, getD_some, hnext, bitsetGet_map_range]
      simp only [bitsetGet_coveredBits, and_eq_true, decide_eq_true_eq, any_eq_true,
        not_eq_true', decide_eq_false_iff_not]
      grind
  · -- nothing is stored, and no site below `n` is hit
    have hf := map_eq_none_iff.mp h
    constructor <;> intro i <;>
      simp only [State.covered, State.fPrev, State.fNext, hf, map_none, getD_none,
        bitsetGet, getD_nil, false_eq_true, false_iff] <;> grind

theorem addStep_sets (hacfg : s.acfg = some acfg) (hmatrix : a.before.featuresMatrix.isSome) :
    frontierSets (addStep s a) = batchFrontier acfg (hits ++ a.hits) := by
  have hmeets : (record a.hits (a.meets s)).acfg = some acfg := hacfg
  have hsets : frontierSets (record a.hits (a.meets s))
      = batchFrontier acfg hits := h
  rw [addStep_frontier (by rw [hacfg]; rfl) hmatrix, updateFrontierMeta_sets hsets hmeets]
  refine batchFrontier_congr fun i hi => ?_
  have hcovered : bitsetGet ((s.frontier.map (·.covered)).getD []) i ↔ _ :=
    (frontierOf_of_sets h).covered i
  rw [mem_append, mem_append, newlyCovered, mem_filter, not_eq_true', eq_false_iff, ne_eq, hcovered]
  tauto

/-- After any history the stored sets are those of all hits at once. -/
theorem run_sets (as : List (Addition F)) (hacfg : s.acfg = some acfg)
    (hmatrix : ∀ a ∈ as, a.before.featuresMatrix.isSome) :
    frontierSets (run addStep s as) = batchFrontier acfg (hits ++ as.flatMap (·.hits)) := by
  induction as generalizing s hits with
  | nil => simpa [run] using h
  | cons a as ih =>
    rw [run, foldl_cons, ← run, flatMap_cons, ← append_assoc]
    refine ih ?_ ((addStep_acfg s a).trans hacfg) fun b hb => hmatrix b (.tail _ hb)
    exact addStep_sets h hacfg (hmatrix a mem_cons_self)

end

theorem sets_of_none (h : s.frontier = none) : frontierSets s = batchFrontier acfg [] := by
  rw [frontierSets, h, batchFrontier, if_neg (by simp)]
  rfl

/-- The sites that an addition reports as newly covered. -/
def reported (s : State F) (a : Addition F) : List ℕ :=
  ((addStep s a).coverageDelta.getD {}).newlyCoveredSancov

theorem mem_reported (h : FrontierOf acfg hits s) {i : ℕ}
    (hi : i < acfg.nSancovSites) : i ∈ reported s a ↔ i ∈ a.hits ∧ i ∉ hits := by
  have hcovered : bitsetGet ((s.frontier.map (·.covered)).getD []) i ↔ _ := h.covered i
  rw [reported, addStep_coverageDelta, getD_some, newlyCovered,
    mem_filter, not_eq_true', eq_false_iff, ne_eq, hcovered]
  tauto

/-- Frontier bookkeeping: after any additions the stored sets are those of all sites hit so far, no
    site is reported twice, and the order of the additions does not matter. -/
theorem frontier_bookkeeping (acfg : SancovAcfgMeta) (s : State F) (hacfg : s.acfg = some acfg)
    (hfrontier : s.frontier = none) (as : List (Addition F))
    (hmatrix : ∀ a ∈ as, a.before.featuresMatrix.isSome) :
    FrontierOf acfg (as.flatMap (·.hits)) (run addStep s as) ∧
    (∀ pre a mid b post, as = pre ++ a :: (mid ++ b :: post) → ∀ i < acfg.nSancovSites,
      i ∈ reported (run addStep s pre) a → i ∉ reported (run addStep s (pre ++ a :: mid)) b) ∧
    ∀ as' : List (Addition F), (∀ a ∈ as', a.before.featuresMatrix.isSome) →
      (as'.map (·.hits)).Perm (as.map (·.hits)) →
      frontierSets (run addStep s as') = frontierSets (run addStep s as) := by
  have hsets : ∀ bs : List (Addition F), (∀ b ∈ bs, b.before.featuresMatrix.isSome) →
      frontierSets (run addStep s bs) = batchFrontier acfg (bs.flatMap (·.hits)) := fun bs hbs =>
    run_sets (sets_of_none hfrontier) bs hacfg hbs
  refine ⟨frontierOf_of_sets (hsets as hmatrix), ?_, ?_⟩
  · rintro pre a mid b post rfl i hi ha hb
    have hpre := frontierOf_of_sets (hsets (pre ++ a :: mid) fun c hc =>
      hmatrix c (by rw [← cons_append, ← append_assoc]; exact mem_append_left _ hc))
    obtain ⟨_, hnot⟩ := (mem_reported hpre hi).mp hb
    refine hnot (mem_flatMap.mpr ⟨a, mem_append_right _ mem_cons_self, ?_⟩)
    have hstart := frontierOf_of_sets (hsets pre fun c hc => hmatrix c (mem_append_left _ hc))
    exact ((mem_reported hstart hi).mp ha).1
  · intro as' hmatrix' hperm
    rw [hsets as hmatrix, hsets as' hmatrix']
    refine batchFrontier_congr fun i _ => ?_
    exact (hperm.flatten).mem_iff

namespace Demo

/-- Three sites in a row. -/
def rowAcfg : SancovAcfgMeta := ⟨0, 3, [[1], [2], []], [[], [0], [1]]⟩

/-- An addition to a campaign with a feature matrix. -/
def addition (hits : List ℕ) : Addition Exact where
  hits
  before := { featuresMatrix := some ⟨fun _ => none, 3⟩ }

end Demo

theorem frontier_bookkeeping_demo :
    FrontierOf Demo.rowAcfg [0, 7, 0, 1] (run addStep { acfg := some Demo.rowAcfg }
      [Demo.addition [0, 7], Demo.addition [0, 1]]) :=
  (frontier_bookkeeping Demo.rowAcfg _ rfl rfl [Demo.addition [0, 7], Demo.addition [0, 1]]
    (by simp [Demo.addition])).1

end Bofuzz
