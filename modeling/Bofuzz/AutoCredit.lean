import Bofuzz.Dimensions
import Mathlib.Algebra.BigOperators.Ring.List
import Mathlib.Tactic.Positivity

/-! The auto-credit mode (`mask_selection.rs`, `tpe_stage.rs`).

    The selection takes the features with the largest credits, the earlier ones of the schema first
    where credits are equal. The commit narrows the space to them and puts their normalized credits
    at the head of the pool. -/

namespace Bofuzz
open F64 Effect TpeStage List Exact

/-! ### The selection -/

theorem firstBad_map_fin {qs : List ℚ} {idx : ℕ} :
    firstBad idx (qs.map fin) = none ↔ ∀ q ∈ qs, 0 ≤ q := by
  have hfinite : ∀ q, F64.isFinite (fin q) = true := fun q => rfl
  rw [firstBad_eq_none]
  simp [lit_eq, hfinite]

/-- The order of the selection on exact credits. -/
def Before (a b : ℕ × ℚ) : Prop := b.2 < a.2 ∨ (b.2 = a.2 ∧ a.1 ≤ b.1)

instance : DecidableRel Before := fun _ _ => inferInstanceAs (Decidable (_ ∨ _))

instance : Std.Total Before where
  total a b := by
    unfold Before
    rcases lt_trichotomy a.2 b.2 with h | h | h
    · exact .inr (.inl h)
    · rcases le_total a.1 b.1 with h' | h'
      · exact .inl (.inr ⟨h.symm, h'⟩)
      · exact .inr (.inr ⟨h, h'⟩)
    · exact .inl (.inl h)

instance : IsTrans (ℕ × ℚ) Before where
  trans a b c hab hbc := by
    unfold Before at *
    rcases hab with h | ⟨h, hi⟩ <;> rcases hbc with h' | ⟨h', hi'⟩
    · exact .inl (h'.trans h)
    · exact .inl (h' ▸ h)
    · exact .inl (h ▸ h')
    · exact .inr ⟨h'.trans h, hi.trans hi'⟩

/-- A feature with its credit as the program has it. -/
def credited (c : ℕ × ℚ) : ℕ × Exact := (c.1, .fin c.2)

theorem creditOrder_iff (a b : ℕ × ℚ) :
    creditOrder (credited a) (credited b) = true ↔ Before a b := by
  unfold creditOrder credited Before partialCmp
  rcases lt_trichotomy a.2 b.2 with h | h | h
  · simp [h, h.not_gt, h.ne']
  · simp [h, F64.le, Exact.le, Nat.compare_ne_gt]
  · simp [h]

/-- The features with a positive credit. -/
def positives (qs : List ℚ) : List (ℕ × ℚ) :=
  (qs.zipIdx.map fun c => (c.2, c.1)).filter fun c => 0 < c.2

theorem positiveCredits_fin (qs : List ℚ) :
    positiveCredits (qs.map fin) = (positives qs).map credited := by
  have hpairs : (qs.map fin).zipIdx.map (fun c => (c.2, c.1))
      = (qs.zipIdx.map fun c => (c.2, c.1)).map credited := by
    rw [zipIdx_map, map_map, map_map]
    rfl
  rw [positiveCredits, hpairs, filter_map, positives]
  refine congrArg (map credited) (filter_congr fun c _ => ?_)
  simp [credited, lit_eq]

variable {qs : List ℚ}

theorem mem_positives {c : ℕ × ℚ} : c ∈ positives qs ↔ qs[c.1]? = some c.2 ∧ 0 < c.2 := by
  rw [positives, mem_filter, mem_map]
  constructor
  · rintro ⟨⟨⟨q, i⟩, hmem, rfl⟩, hpos⟩
    exact ⟨mem_zipIdx_iff_getElem?.mp hmem, by simpa using hpos⟩
  · rintro ⟨hget, hpos⟩
    exact ⟨⟨(c.2, c.1), mem_zipIdx_iff_getElem?.mpr hget, rfl⟩, by simpa using hpos⟩

theorem positives_nodup (qs : List ℚ) : ((positives qs).map Prod.fst).Nodup := by
  have hsub : ((positives qs).map Prod.fst).Sublist (range qs.length) := by
    have hfst : (qs.zipIdx.map fun c => (c.2, c.1)).map Prod.fst = range qs.length := by
      rw [map_map]
      exact zipIdx_map_snd 0 qs ▸ range_eq_range'.symm ▸ rfl
    rw [← hfst]
    exact filter_sublist.map _
  exact hsub.nodup nodup_range

theorem length_positives (qs : List ℚ) : (positives qs).length = qs.countP (0 < ·) := by
  rw [positives, ← countP_eq_length_filter, countP_map]
  have hfst : qs.zipIdx.map Prod.fst = qs := zipIdx_map_fst 0 qs
  conv_rhs => rw [← hfst, countP_map]
  rfl

/-- The selected features: as many as there are, up to `k`, all with a positive credit, and none
    that is left out has a larger credit or an equal one at an earlier place. -/
structure TopCredits (qs : List ℚ) (k : ℕ) (mask : List Bool) : Prop where
  length : mask.length = qs.length
  count : mask.count true = min k (qs.countP (0 < ·))
  positive : ∀ (i : ℕ) (q : ℚ), mask[i]? = some true → qs[i]? = some q → 0 < q
  best : ∀ (i j : ℕ) (p q : ℚ), mask[i]? = some true → mask[j]? = some false → qs[i]? = some p →
    qs[j]? = some q → q ≤ p ∧ (q = p → i < j)

/-- The features that the selection takes, best first. -/
def chosen (qs : List ℚ) (k : ℕ) : List (ℕ × ℚ) := ((positives qs).insertionSort Before).take k

/-- The mask of the chosen features. -/
def chosenMask (qs : List ℚ) (k : ℕ) : List Bool :=
  (List.range qs.length).map fun i => decide (i ∈ (chosen qs k).map Prod.fst)

theorem mem_positives_of_chosen {k : ℕ} {c : ℕ × ℚ} (h : c ∈ chosen qs k) :
    c ∈ positives qs := (mem_insertionSort _).mp (mem_of_mem_take h)

theorem select_chosen {k : ℕ} (h : ∀ q ∈ qs, 0 ≤ q) (hk : 1 ≤ k) (hkn : k ≤ qs.length) :
    selectPositiveCreditTopKMask (qs.map fin) qs.length k
      = .ok (if positives qs = [] then none else some (chosenMask qs k)) := by
  have hlen : ¬ (qs.map fin).length ≠ qs.length := by simp
  have hrange : ¬ (k = 0 ∨ qs.length < k) := by omega
  have hsort : ((positives qs).map credited).insertionSort (creditOrder · ·)
      = ((positives qs).insertionSort Before).map credited :=
    (map_insertionSort _ _ _ _ fun a _ b _ => (creditOrder_iff a b).symm).symm
  have hmask : (((positives qs).insertionSort Before).map credited |>.take k).foldl
      (fun mask c => mask.set c.1 true) (replicate qs.length false) = chosenMask qs k := by
    refine ext_getElem? fun i => ?_
    have hfst : (((positives qs).insertionSort Before).map credited |>.take k).map Prod.fst
        = (chosen qs k).map Prod.fst := by
      rw [← map_take, map_map]
      rfl
    rw [Run.getElem?_foldl_set Prod.fst fun _ => true, hfst, chosenMask, getElem?_map, getElem?_replicate]
    by_cases hi : i < qs.length
    · by_cases hmem : i ∈ (chosen qs k).map Prod.fst
      · rw [if_pos hmem, if_pos hi, getElem?_range hi, Option.map_some, Option.map_some, decide_eq_true hmem]
      · rw [if_neg hmem, if_pos hi, getElem?_range hi, Option.map_some, decide_eq_false hmem]
    · simp [hi]
  rw [selectPositiveCreditTopKMask, if_neg hlen, if_neg hrange, firstBad_map_fin.mpr h]
  simp only [positiveCredits_fin, hsort, hmask, map_eq_nil_iff]
  split_ifs <;> rfl

theorem getElem?_chosenMask {k i : ℕ} {b : Bool} :
    (chosenMask qs k)[i]? = some b ↔ i < qs.length ∧ decide (i ∈ (chosen qs k).map Prod.fst) = b := by
  rw [chosenMask, getElem?_map]
  by_cases hi : i < qs.length
  · rw [getElem?_range hi, Option.map_some, Option.some.injEq, and_iff_right hi]
  · simp [hi]

theorem exists_chosen {k i : ℕ} {p : ℚ} (h : (chosenMask qs k)[i]? = some true)
    (hp : qs[i]? = some p) :
    (i, p) ∈ chosen qs k := by
  obtain ⟨c, hc, rfl⟩ := mem_map.mp (of_decide_eq_true (getElem?_chosenMask.mp h).2)
  have hget := (mem_positives.mp (mem_positives_of_chosen hc)).1
  rw [hp] at hget
  rwa [Option.some.inj hget]

/-- The chosen mask is that of the largest credits. -/
theorem topCredits_chosen (qs : List ℚ) (k : ℕ) : TopCredits qs k (chosenMask qs k) where
  length := by simp [chosenMask]
  count := by
    have hperm : ((positives qs).insertionSort Before).Perm (positives qs) := perm_insertionSort _ _
    have hnodup : ((chosen qs k).map Prod.fst).Nodup :=
      ((take_sublist _ _).map Prod.fst).nodup ((hperm.map _).nodup_iff.mpr (positives_nodup qs))
    have hsub : ∀ i ∈ (chosen qs k).map Prod.fst, i < qs.length := forall_mem_map.mpr fun c hc =>
      (List.getElem?_eq_some_iff.mp (mem_positives.mp (mem_positives_of_chosen hc)).1).1
    have hfilter : ((range qs.length).filter fun i => decide (i ∈ (chosen qs k).map Prod.fst)).Perm
        ((chosen qs k).map Prod.fst) := by
      refine (perm_ext_iff_of_nodup (nodup_range.filter _) hnodup).mpr fun i => ?_
      rw [mem_filter, mem_range, decide_eq_true_eq]
      exact and_iff_right_of_imp (hsub i)
    calc (chosenMask qs k).count true
        = ((range qs.length).filter fun i => decide (i ∈ (chosen qs k).map Prod.fst)).length := by
          rw [chosenMask, count, countP_map, countP_eq_length_filter]
          exact congrArg length (filter_congr fun i _ => by simp)
      _ = (chosen qs k).length := by rw [hfilter.length_eq, length_map]
      _ = min k (qs.countP (0 < ·)) := by
          rw [chosen, length_take, hperm.length_eq, length_positives]
  positive i q hi hq := (mem_positives.mp (mem_positives_of_chosen (exists_chosen hi hq))).2
  best i j p q hi hj hp hq := by
    have hchosen := exists_chosen hi hp
    have hpos : 0 < p := (mem_positives.mp (mem_positives_of_chosen hchosen)).2
    have hout : ∀ r, (j, r) ∉ chosen qs k := by
      intro r hr
      exact of_decide_eq_false (getElem?_chosenMask.mp hj).2 (mem_map.mpr ⟨_, hr, rfl⟩)
    by_cases hq0 : 0 < q
    · -- the other one is behind the first `k`
      have hbehind : (j, q) ∈ ((positives qs).insertionSort Before).drop k := by
        have hmem : (j, q) ∈ (positives qs).insertionSort Before :=
          (mem_insertionSort _).mpr (mem_positives.mpr ⟨hq, hq0⟩)
        rw [← take_append_drop k ((positives qs).insertionSort Before), mem_append] at hmem
        exact hmem.resolve_left (hout q)
      have hsorted := pairwise_insertionSort Before (positives qs)
      rw [← take_append_drop k ((positives qs).insertionSort Before), pairwise_append] at hsorted
      have hne : i ≠ j := by
        rintro rfl
        exact hout p hchosen
      rcases hsorted.2.2 _ hchosen _ hbehind with hlt | ⟨heq, hle⟩
      · exact ⟨hlt.le, fun h => absurd h hlt.ne⟩
      · exact ⟨heq.le, fun _ => lt_of_le_of_ne hle hne⟩
    · exact ⟨(not_lt.mp hq0).trans hpos.le, fun h => absurd (h ▸ hpos) hq0⟩

/-! ### Normalized centers -/

/-- The entries that a mask keeps. -/
def kept {α : Type} (xs : List α) (mask : List Bool) : List α :=
  ((xs.zip mask).filter (·.2)).map (·.1)

theorem kept_map {α β : Type} (f : α → β) (xs : List α) (mask : List Bool) :
    kept (xs.map f) mask = (kept xs mask).map f := by
  rw [kept, kept, zip_map_left, filter_map, map_map, map_map]
  rfl

variable {rs : List ℚ}

theorem normalizeSimplexExact_fin (hnonneg : ∀ r ∈ rs, 0 ≤ r) (hsum : rs.sum = 1) :
    normalizeSimplexExact (rs.map fin) = .ok (rs.map fin) := by
  have hne : rs.map fin ≠ [] := by
    intro hnil
    rw [map_eq_nil_iff] at hnil
    simp [hnil] at hsum
  have hone : (fun x => fin x / fin 1) = fin := by
    funext x
    rw [fin_div x one_ne_zero, div_one]
  have hfinite : isFinite (fin 1) = true := rfl
  have hpos : F64.le (fin 1) (lit 0) = false := rfl
  simp only [normalizeSimplexExact, if_neg hne, firstBad_map_fin.mpr hnonneg, sum_map_fin, hsum,
    hfinite, hpos, Bool.not_true, Bool.or_self, Bool.false_eq_true, if_false, map_map,
    Function.comp_def, hone]

theorem normalizeCredit_fin (hne : rs ≠ []) (hpos : ∀ r ∈ rs, 0 < r) :
    normalizeCreditOrEqualSimplex (rs.map fin)
      = .ok ((rs.map (· / rs.sum)).map fin, true, .fin rs.sum) := by
  have hne' : rs.map fin ≠ [] := by simpa using hne
  have hsum : 0 < rs.sum := sum_pos rs hpos hne
  have hfilter : (rs.map fin).filter (F64.lt (lit 0)) = rs.map fin :=
    filter_eq_self.mpr (forall_mem_map.mpr fun r hr => by simpa [lit_eq] using hpos r hr)
  have htotal : F64.lt (lit 0) (fin rs.sum) = true := by simpa [lit_eq] using hsum
  rw [normalizeCreditOrEqualSimplex, if_neg hne', firstBad_map_fin.mpr fun r hr => (hpos r hr).le]
  simp only [hfilter, sum_map_fin, htotal, if_true, map_map, Function.comp_def]
  simp only [fin_div _ hsum.ne']

theorem sum_map_div (rs : List ℚ) (c : ℚ) : (rs.map (· / c)).sum = rs.sum / c := by
  simp only [div_eq_mul_inv]
  rw [sum_map_mul_right, map_id']

theorem equalSimplex_fin {n : ℕ} (hn : n ≠ 0) :
    (equalSimplex n : List Exact) = (replicate n (1 / n : ℚ)).map fin := by
  have hcast : (n : ℚ) ≠ 0 := Nat.cast_ne_zero.mpr hn
  have hdiv : (lit 1 / ofNat n : Exact) = .fin (1 / n) := fin_div 1 hcast
  rw [equalSimplex, map_replicate, hdiv]

/-! ### The pool after the commit -/

section
variable {F G : Type} [F64 F] [Draw F G]

theorem pushVCandidate_append (s : State F) (v : List F) :
    ∃ vs, pushVCandidate s v = s.replaceVCandidates (s.globals.vCandidates ++ vs) := by
  unfold pushVCandidate
  split_ifs
  · exact ⟨[], by rw [append_nil]; rfl⟩
  · exact ⟨[v], rfl⟩

theorem pushSamples_append (center : List F) (bw : F) (n : ℕ) (s : State F) (g : G) :
    ∃ vs, (pushSamples center bw n s g).1 = s.replaceVCandidates (s.globals.vCandidates ++ vs) := by
  induction n generalizing s g with
  | zero => exact ⟨[], by rw [append_nil]; rfl⟩
  | succ n ih =>
    obtain ⟨vs, hvs⟩ := pushVCandidate_append s (logisticNormalSample center bw g).1
    obtain ⟨ws, hws⟩ := ih (pushVCandidate s (logisticNormalSample center bw g).1)
      (logisticNormalSample center bw g).2
    refine ⟨vs ++ ws, hws.trans ?_⟩
    rw [hvs, ← append_assoc]
    rfl

theorem enqueueExact_first {opt : TpeOptimizer F} {s : State F} {center : List F} {g : G}
    (hpool : s.globals.vCandidates = []) (hlen : center.length = s.globals.featureDim)
    (hne : center ≠ []) (hcenter : normalizeSimplexExact center = .ok center) : ∃ vs g',
    opt.enqueueExactThenNeighborCandidates s center g =
      .ok (s.replaceVCandidates (center :: vs), g') := by
  have hdim : s.globals.featureDim ≠ 0 := by
    rw [← hlen]
    exact (length_pos_iff.mpr hne).ne'
  have hpush : pushVCandidate s center = s.replaceVCandidates [center] := by
    unfold pushVCandidate
    rw [hpool]
    rfl
  obtain ⟨vs, hvs⟩ := pushSamples_append center opt.params.bw (max opt.params.samples 1)
    (s.replaceVCandidates [center]) g
  refine ⟨vs, (pushSamples center opt.params.bw (max opt.params.samples 1)
    (s.replaceVCandidates [center]) g).2, ?_⟩
  simp only [TpeOptimizer.enqueueExactThenNeighborCandidates, hlen, hdim, hcenter, hpush, ne_eq,
    not_true_eq_false, if_false, TpeOptimizer.enqueueSamplesAround]
  exact congrArg Except.ok (Prod.ext hvs rfl)

theorem enqueueInit_first {p : Proc F G} {center : List F}
    (hpool : p.state.globals.vCandidates = []) (hlen : center.length = p.state.globals.featureDim)
    (hne : center ≠ []) (hcenter : normalizeSimplexExact center = .ok center) :
    Spec (enqueueInit center) p (fun _ q => ∃ vs rng, AllDim p.state.globals.featureDim (center :: vs) ∧
        q = { p with stage := { p.stage with rng }, state := p.state.replaceVCandidates (center :: vs) })
      (fun _ _ => False) := by
  obtain ⟨vs, rng, henqueue⟩ : ∃ vs rng, p.stage.opt.enqueueExactThenNeighborCandidates p.state center
      p.stage.rng = .ok (p.state.replaceVCandidates (center :: vs), rng) :=
    enqueueExact_first hpool hlen hne hcenter
  have hall := TpeOptimizer.enqueueExact_pool henqueue (hpool ▸ allDim_nil)
    (hlen ▸ length_pos_iff.mpr hne)
  simp only [enqueueInit, spec_bind, spec_get, henqueue, spec_ofResult, spec_set]
  refine ⟨?_, fun e he => by cases he⟩
  rintro _ ⟨⟩
  exact ⟨vs, rng, hall.1, rfl⟩

/-- The dimension check passes when there is a pool and no history. -/
theorem validate_fresh {s : State F} (hv : s.globals.currentV = [])
    (hpool : AllDim s.globals.featureDim s.globals.vCandidates)
    (hhistory : ∀ h ∈ s.history, h.trials = [])
    (hinit : ∀ r ∈ s.runtime, r.normalizedCreditInitV.length = s.globals.featureDim) :
    validateCommittedVectorDimensions s = .ok () := by
  have htrials : firstWrongLength s.globals.featureDim 0
      ((s.history.map (·.trials)).getD [] |>.map (·.1)) = none := by
    cases hs : s.history with
    | none => rfl
    | some history =>
      rw [Option.map_some, Option.getD_some, hhistory history hs]
      rfl
  unfold validateCommittedVectorDimensions
  rw [if_neg fun hne => hne.1 hv, firstWrongLength_eq_none.mpr hpool, htrials]
  cases hr : s.runtime with
  | none => rfl
  | some r => exact if_neg fun hne => hne.2 (hinit r hr)

end

/-! ### The commit -/

/-- A process in the auto-credit mode before its first trial. -/
structure BeforeFirstTpe {G : Type} (p : Proc Exact G) : Prop where
  mode : p.state.mask.mode = .autoCredit
  uncommitted : p.state.mask.tpeInitCommitted = false
  history : ∀ h ∈ p.state.history, h.trials = []
  trials : p.stage.opt.state.trials = []

/-- The credits that Explore has collected; none at all count as zero. -/
def CreditsAre {G : Type} (p : Proc Exact G) (qs : List ℚ) : Prop :=
  qs.length = p.state.globals.schemaFeatures.length ∧
    ((p.state.exploreCredit.map (·.credits)).getD [] = qs.map Exact.fin ∨
      (p.state.exploreCredit.map (·.credits)).getD [] = [] ∧ ∀ q ∈ qs, q = 0)

theorem creditsWithDim_fin {G : Type} {p : Proc Exact G} (h : CreditsAre p qs) :
    creditsWithDim ((p.state.exploreCredit.map (·.credits)).getD [])
      p.state.globals.schemaFeatures.length "auto-credit" = .ok (qs.map fin) := by
  obtain ⟨hlen, hraw | ⟨hnone, hzero⟩⟩ := h
  · rw [hraw, creditsWithDim]
    split_ifs with hnil hne
    · rw [map_eq_nil_iff] at hnil
      rw [← hlen, hnil]
      rfl
    · rw [length_map] at hne
      exact absurd hlen hne
    · rfl
  · rw [hnone, creditsWithDim, if_pos rfl, ← hlen, eq_replicate_of_mem hzero, map_replicate,
      length_replicate]
    rfl

variable {G : Type} [Draw Exact G] {mask : List Bool}

theorem commit_first {p : Proc Exact G} (h : BeforeFirstTpe p) {credits center : List Exact}
    {selected : Option (List Bool)}
    (hcredits : creditsWithDim ((p.state.exploreCredit.map (·.credits)).getD [])
      p.state.globals.schemaFeatures.length "auto-credit" = .ok credits)
    (hselected : selectPositiveCreditTopKMask credits p.state.globals.schemaFeatures.length
      p.state.mask.creditTopK = .ok selected)
    (hinstall : Spec (installSelection (schemaFromState p.state) credits selected) p.state
      (fun selection t => selection.normalized = center ∧ selection.effectiveMask = mask ∧
        installCommittedRuntimeMask p.state (schemaFromState p.state) mask = .ok t) (fun _ _ => False))
    (hcenter : normalizeSimplexExact center = .ok center) :
    ∃ q, commitMaskAndTpeInitializationBeforeFirstTpe p = .ok () q ∧
      q.state.globals.activeFeatureNames = (kept p.state.globals.schemaFeatures mask).map (·.name) ∧
      (q.stage.opt.nextUntriedFromPool q.state).1 = (normalizeSimplexEps center).toOption := by
  suffices hspec : Spec commitMaskAndTpeInitializationBeforeFirstTpe p (fun _ q =>
      q.state.globals.activeFeatureNames = (kept p.state.globals.schemaFeatures mask).map (·.name) ∧
      (q.stage.opt.nextUntriedFromPool q.state).1 = (normalizeSimplexEps center).toOption)
      (fun _ _ => False) by
    obtain ⟨_, q, hq, hres⟩ := spec_iff_exists_ok.mp hspec
    exact ⟨q, hq, hres⟩
  have hdim := installSelection_spec (schemaFromState p.state) credits selected p.state
  have hfeatures : (schemaFromState p.state).features = p.state.globals.schemaFeatures := rfl
  simp only [commitMaskAndTpeInitializationBeforeFirstTpe, spec_bind, spec_get, h.uncommitted, h.mode,
    Bool.false_eq_true, if_false, commitAutoCredit, hfeatures, hcredits, hselected, Except.mapError,
    spec_ofResult_ok, spec_onState, spec_modify]
  refine (hinstall.and hdim).mono ?_ fun _ _ hfalse => hfalse.1
  rintro selection t ⟨⟨rfl, rfl, ht⟩, -, hlen⟩
  obtain ⟨-, hne, rfl⟩ := installCommittedRuntimeMask_ok ht
  have hcenterNe : selection.normalized ≠ [] := by
    rw [← length_pos_iff, hlen]
    exact length_pos_iff.mpr hne
  refine (enqueueInit_first rfl hlen hcenterNe hcenter).imp ?_
  rintro - q ⟨vs, rng, hpool, rfl⟩
  rw [validate_fresh, spec_ofResult_ok]
  · refine ⟨?_, ?_⟩
    · simp [kept, computeActiveFeatures, schemaFromState, State.replaceVCandidates]
    · simp only [TpeOptimizer.nextUntriedFromPool, h.trials]
      rfl
  · rfl
  · exact hpool
  · exact h.history
  · rintro _ ⟨⟩
    exact hlen

/-- Selected credits divided by their sum. -/
def creditShares (rs : List ℚ) : List ℚ := rs.map (· / rs.sum)

theorem creditShares_sum (hne : rs ≠ []) (hpos : ∀ r ∈ rs, 0 < r) :
    (∀ r ∈ creditShares rs, 0 < r) ∧ (creditShares rs).sum = 1 := by
  have hsum : 0 < rs.sum := sum_pos rs hpos hne
  exact ⟨forall_mem_map.mpr fun q hq => div_pos (hpos q hq) hsum,
    by rw [creditShares, sum_map_div, div_self hsum.ne']⟩

theorem replicate_shares {n : ℕ} (hn : n ≠ 0) :
    (∀ r ∈ replicate n (1 / n : ℚ), 0 < r) ∧ (replicate n (1 / n : ℚ)).sum = 1 := by
  have hcast : (0 : ℚ) < n := Nat.cast_pos.mpr (Nat.pos_of_ne_zero hn)
  refine ⟨fun r hr => ?_, by rw [sum_replicate, nsmul_eq_mul, mul_one_div_cancel hcast.ne']⟩
  rw [eq_of_mem_replicate hr]
  positivity

/-- Shares can be smoothed: the constant only adds to a sum of one. -/
theorem first_of_shares (h : (∀ r ∈ rs, 0 < r) ∧ rs.sum = 1) :
    normalizeSimplexExact (rs.map fin) = .ok (rs.map fin) ∧
      ∃ v, normalizeSimplexEps (rs.map fin) = .ok v := by
  have hnonneg : ∀ r ∈ rs, 0 ≤ r := fun r hr => (h.1 r hr).le
  refine ⟨normalizeSimplexExact_fin hnonneg h.2, ?_⟩
  have hne : rs.map fin ≠ [] := by
    rintro hnil
    simp [map_eq_nil_iff.mp hnil] at h
  have hout : (rs.map fin).map (· + (eps : Exact)) = (rs.map (· + 1 / 1000000)).map fin := by
    simp [Function.comp_def, eps, lit_eq]
  have hsum : rs.sum ≤ (rs.map (· + 1 / 1000000)).sum := by
    have := sum_le_sum (l := rs) (f := id) (g := (· + 1 / 1000000)) fun r _ => by simp
    rwa [map_id] at this
  have hle : F64.le (fin (rs.map (· + 1 / 1000000)).sum) (eps : Exact) = false := by
    refine decide_eq_false ?_
    linarith [h.2]
  have hfinite : ∀ p : ℚ, F64.isFinite (fin p) = true := fun p => rfl
  simp only [normalizeSimplexEps, if_neg hne, firstBad_map_fin.mpr hnonneg, hout, sum_map_fin, hle,
    hfinite, Bool.not_true, Bool.or_self, Bool.false_eq_true, if_false]
  exact ⟨_, rfl⟩

theorem positives_eq_nil : positives qs = [] ↔ ∀ q ∈ qs, ¬ 0 < q := by
  rw [← length_eq_zero_iff, length_positives, countP_eq_zero]
  simp

theorem kept_chosen {k : ℕ} (hk : 1 ≤ k) (hpos : positives qs ≠ []) :
    kept qs (chosenMask qs k) ≠ [] ∧ ∀ r ∈ kept qs (chosenMask qs k), 0 < r := by
  have htop := topCredits_chosen qs k
  constructor
  · rw [← length_pos_iff, kept, length_map, zip_filter_length _ _ htop.length, htop.count,
      ← length_positives]
    exact lt_min hk (length_pos_iff.mpr hpos)
  · refine forall_mem_map.mpr fun c hc => ?_
    obtain ⟨hmem, htrue⟩ := mem_filter.mp hc
    obtain ⟨i, hi⟩ := mem_iff_getElem?.mp hmem
    obtain ⟨hq, hb⟩ := getElem?_zip_eq_some.mp hi
    exact htop.positive i c.1 (by rw [hb, htrue]) hq

theorem kept_replicate {α : Type} (xs : List α) : kept xs (replicate xs.length true) = xs := by
  induction xs with
  | nil => rfl
  | cons x xs ih =>
    unfold kept at ih ⊢
    simp [replicate_succ, ih]

variable {schema : FeatureSchemaFile}

theorem install_ok (s : State Exact) (hlen : mask.length = schema.features.length)
    (hbit : true ∈ mask) :
    ∃ t, installCommittedRuntimeMask s schema mask = .ok t := by
  unfold installCommittedRuntimeMask
  rw [if_neg (not_not.mpr hlen), if_neg]
  · exact ⟨_, rfl⟩
  · intro hall
    exact absurd (all_eq_true.mp hall true hbit) (by simp)

/-- Installing a selection of features with positive credits. -/
theorem installSelection_some {s : State Exact} (hlen : mask.length = schema.features.length)
    (hqs : qs.length = mask.length) (hbit : true ∈ mask) (hne : kept qs mask ≠ [])
    (hpos : ∀ r ∈ kept qs mask, 0 < r) :
    Spec (installSelection schema (qs.map fin) (some mask)) s
      (fun selection t => selection.normalized = (creditShares (kept qs mask)).map fin ∧
        selection.effectiveMask = mask ∧ installCommittedRuntimeMask s schema mask = .ok t)
      (fun _ _ => False) := by
  obtain ⟨t, ht⟩ := install_ok s hlen hbit
  have hproject : projectVectorByMask (qs.map fin) mask = .ok ((kept qs mask).map fin) := by
    rw [projectVectorByMask, if_neg (by simpa using hqs)]
    exact congrArg Except.ok (kept_map fin qs mask)
  simp only [installSelection, spec_bind, spec_get, ht, hproject, normalizeCredit_fin hne hpos,
    spec_ofResult_ok, spec_set, spec_pure, Except.mapError, and_true]
  exact rfl

theorem installSelection_none {s : State Exact} (credits : List Exact)
    (hne : schema.features.length ≠ 0) :
    Spec (installSelection schema credits none) s
      (fun selection t => selection.normalized = equalSimplex schema.features.length ∧
        selection.effectiveMask = replicate schema.features.length true ∧
        installCommittedRuntimeMask s schema (replicate schema.features.length true) = .ok t)
      (fun _ _ => False) := by
  obtain ⟨t, ht⟩ := install_ok s length_replicate (mem_replicate.mpr ⟨hne, rfl⟩)
  simp only [installSelection, spec_bind, spec_get, ht, spec_ofResult_ok, spec_set, spec_pure, and_true]

/-- The auto-credit mode. The selection takes the features with the largest credits. The commit
    makes them the active ones, in the order of the schema, and the first vector of the pool is the
    smoothed vector of their credits divided by their sum, or of equal weights over the whole schema
    if no credit is positive. -/
theorem auto_credit_selection {qs : List ℚ} {k : ℕ} (hnonneg : ∀ q ∈ qs, 0 ≤ q) (hk : 1 ≤ k)
    (hkn : k ≤ qs.length) :
    ((∃ q ∈ qs, 0 < q) → ∃ mask, selectPositiveCreditTopKMask (qs.map fin) qs.length k = .ok (some mask) ∧
        TopCredits qs k mask) ∧
    ∀ p : Proc Exact G, BeforeFirstTpe p → p.state.mask.creditTopK = k → CreditsAre p qs →
      ∃ q, commitMaskAndTpeInitializationBeforeFirstTpe p = .ok () q ∧
        (∀ mask, selectPositiveCreditTopKMask (qs.map fin) qs.length k = .ok (some mask) →
          q.state.globals.activeFeatureNames = (kept p.state.globals.schemaFeatures mask).map (·.name) ∧
          ∃ v, normalizeSimplexEps ((creditShares (kept qs mask)).map fin) = .ok v ∧
            (q.stage.opt.nextUntriedFromPool q.state).1 = some v) ∧
        ((∀ c ∈ qs, c = 0) →
          q.state.globals.activeFeatureNames = p.state.globals.schemaFeatures.map (·.name) ∧
          ∃ v, normalizeSimplexEps (equalSimplex qs.length) = .ok v ∧
            (q.stage.opt.nextUntriedFromPool q.state).1 = some v) := by
  have hselect := select_chosen hnonneg hk hkn
  constructor
  · rintro ⟨q, hq, hpos⟩
    rw [if_neg fun hnil => positives_eq_nil.mp hnil q hq hpos] at hselect
    exact ⟨_, hselect, topCredits_chosen qs k⟩
  · rintro p hp rfl hcredits
    have hfull := creditsWithDim_fin hcredits
    have hdim : (schemaFromState p.state).features.length = qs.length := hcredits.1.symm
    have hselect' : selectPositiveCreditTopKMask (qs.map fin)
        p.state.globals.schemaFeatures.length p.state.mask.creditTopK = _ := hcredits.1 ▸ hselect
    by_cases hnone : positives qs = []
    · rw [if_pos hnone] at hselect hselect'
      have hn : qs.length ≠ 0 := by omega
      have hshares := first_of_shares (replicate_shares hn)
      rw [← equalSimplex_fin hn] at hshares
      obtain ⟨hexact, v, hv⟩ := hshares
      have hinstall := installSelection_none (s := p.state) (qs.map fin) (hdim ▸ hn)
      rw [hdim] at hinstall
      obtain ⟨q, hq, hnames, hfirst⟩ := commit_first hp hfull hselect' hinstall hexact
      refine ⟨q, hq, fun mask hmask => ?_, fun _ => ⟨?_, v, hv, ?_⟩⟩
      · cases hselect.symm.trans hmask
      · rw [hnames, ← hdim]
        exact congrArg (map _) (kept_replicate _)
      · rw [hfirst, hv]
        rfl
    · rw [if_neg hnone] at hselect hselect'
      obtain ⟨hne, hpos⟩ := kept_chosen hk hnone
      have htop := topCredits_chosen qs p.state.mask.creditTopK
      have hbit : true ∈ chosenMask qs p.state.mask.creditTopK := by
        rw [← count_pos_iff, htop.count, ← length_positives]
        exact lt_min hk (length_pos_iff.mpr hnone)
      obtain ⟨hexact, v, hv⟩ := first_of_shares (creditShares_sum hne hpos)
      obtain ⟨q, hq, hnames, hfirst⟩ := commit_first hp hfull hselect'
        (installSelection_some (htop.length.trans hdim.symm) htop.length.symm hbit hne hpos) hexact
      refine ⟨q, hq, fun mask hmask => ?_, fun hzero => ?_⟩
      · obtain rfl := Option.some.inj (Except.ok.inj (hselect.symm.trans hmask))
        refine ⟨hnames, v, hv, ?_⟩
        rw [hfirst, hv]
        rfl
      · exact absurd (positives_eq_nil.mpr fun c hc => by rw [hzero c hc]; exact lt_irrefl 0) hnone

namespace Demo

/-- Two features have earned credits when Explore ends. -/
def creditProc : Proc Exact (List ℚ) where
  stage := TpeStage.new { gamma := .fin (1 / 4), samples := 1, bw := .fin 1, period := 1,
                          trialsThreshold := 10, reTpeThreshold := 60 } []
  state :=
    { globals := { schemaFeatures := [{ id := "F1", name := "fanin" }, { id := "F2", name := "fanout" }] }
      runtime := some { mode := .autoCredit, creditTopK := 1 }
      exploreCredit := some { credits := [.fin 1, .fin 3] } }

end Demo

theorem auto_credit_selection_demo :
    BeforeFirstTpe Demo.creditProc ∧ CreditsAre Demo.creditProc [1, 3] ∧
      ∃ q, commitMaskAndTpeInitializationBeforeFirstTpe Demo.creditProc = .ok () q := by
  have hbefore : BeforeFirstTpe Demo.creditProc := ⟨rfl, rfl, by simp [Demo.creditProc], rfl⟩
  have hcredits : CreditsAre Demo.creditProc [1, 3] := ⟨rfl, .inl rfl⟩
  have hnonneg : ∀ q ∈ ([1, 3] : List ℚ), 0 ≤ q := by simp
  obtain ⟨q, hq, -⟩ := (auto_credit_selection hnonneg le_rfl (by decide)).2 Demo.creditProc hbefore rfl hcredits
  exact ⟨hbefore, hcredits, q, hq⟩

end Bofuzz
