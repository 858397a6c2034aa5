import Bofuzz.AcfgFile
import Bofuzz.FrontierSets
import Bofuzz.WeightRefresh
import Mathlib.Algebra.BigOperators.Group.Finset.Basic

/-! The weight of a testcase in frontier mode (`weight_refresh.rs`, `frontier.rs`).

    The covered side of the frontier comes from the successor lists and the uncovered side from the
    predecessor lists; a testcase looks its own uncovered successors up in it. Where both lists have
    the same edges, the weight is a sum over sites, each counted once. -/

namespace Bofuzz
open F64 Run List Exact

/-! ### Sums -/

theorem weightAt_fin (w : List ℚ) (node : ℕ) :
    F64.max ((w.map fin).getD node (F64.lit 0)) (F64.lit 0) = fin (max (w.getD node 0) 0) := by
  have hget : (w.map fin).getD node (F64.lit 0) = fin (w.getD node 0) := by
    rw [getD_eq_getElem?_getD, getElem?_map, getD_eq_getElem?_getD]
    exact Option.getD_map fin 0 _
  have hmax : ∀ q : ℚ, Exact.max (.fin q) (.fin 0) = .fin (max q 0) := by
    intro q
    by_cases hq : q ≤ 0
    · simp [Exact.max, Exact.le, hq]
    · simp [Exact.max, Exact.le, hq, le_of_not_ge hq]
  rw [hget]
  exact hmax _

theorem foldl_fin (p : ℕ → Bool) (weight : ℕ → ℚ) (sites : List ℕ) (total : ℚ) :
    sites.foldl (fun total node => if p node then total + fin (weight node) else total)
      (fin total) = fin (total + ((sites.filter p).map weight).sum) := by
  induction sites generalizing total with
  | nil => simp
  | cons node sites ih =>
    rw [foldl_cons]
    by_cases hp : p node
    · rw [if_pos hp, filter_cons_of_pos hp, map_cons, sum_cons, ← add_assoc, ← ih]
      rfl
    · rw [if_neg hp, filter_cons_of_neg hp, ih]

theorem frontierWeightOver_fin (w : List ℚ) (frontier : FrontierSnapshot) (covered seen : List ℕ) :
    frontierWeightOver (w.map fin) frontier covered seen =
      .fin (((covered.filter (frontier.fPrev.getD · false)).map fun u => max (w.getD u 0) 0).sum +
        (seen.map fun v => max (w.getD v 0) 0).sum) := by
  have hseen := foldl_fin (fun _ => true) (fun v => max (w.getD v 0) 0) seen
  simp only [if_true, filter_true] at hseen
  have hzero : (F64.lit 0 : Exact) = .fin 0 := rfl
  unfold frontierWeightOver
  simp only [weightAt_fin]
  rw [hzero, foldl_fin (frontier.fPrev.getD · false), hseen, zero_add]
  rfl

/-! ### The sites of the frontier -/

theorem mem_nextSeen {frontier : FrontierSnapshot} {covered : List ℕ} {v : ℕ} :
    v ∈ nextSeen frontier covered ↔
      ∃ u ∈ covered, v ∈ frontier.successors.getD u [] ∧ frontier.fNext.getD v false = true := by
  have hinsert : ∀ (seen : List ℕ) (succ : ℕ),
      v ∈ (if succ ∈ seen then seen else seen ++ [succ]) ↔ v ∈ seen ∨ v = succ := by
    intro seen succ
    split_ifs with hmem
    · exact ⟨.inl, fun h => h.elim id fun heq => heq ▸ hmem⟩
    · rw [mem_append, mem_singleton]
  unfold nextSeen
  rw [foldl_iff (P := fun seen : List ℕ => v ∈ seen) (Q := fun u =>
    v ∈ frontier.successors.getD u [] ∧ frontier.fNext.getD v false = true)]
  · simp
  · intro seen u
    rw [foldl_iff (P := fun seen : List ℕ => v ∈ seen) hinsert]
    simp

theorem nodup_nextSeen (frontier : FrontierSnapshot) (covered : List ℕ) :
    (nextSeen frontier covered).Nodup := by
  refine foldlRecOn covered _ nodup_nil fun seen hseen u _ => ?_
  refine foldlRecOn _ _ hseen fun seen hseen succ _ => ?_
  split_ifs with hmem
  · exact hseen
  · exact hseen.append (nodup_singleton succ) (disjoint_singleton.mpr hmem)

/-- The snapshot of a graph with the given covered sites. -/
def frontierSnapshot (acfg : SancovAcfgMeta) (covered : List Bool) : FrontierSnapshot where
  fPrev := (recomputeFrontierSets covered acfg).1
  fNext := (recomputeFrontierSets covered acfg).2
  successors := acfg.successors

section
variable {acfg : SancovAcfgMeta} {covered : List Bool} {u v : ℕ}

theorem fPrev_iff (hacfg : acfg.Transposed) (hu : bitsetGet covered u) :
    (frontierSnapshot acfg covered).fPrev.getD u false = true ↔
      ∃ v ∈ acfg.successors.getD u [], bitsetGet covered v = false := by
  change bitsetGet (map _ _) u = true ↔ _
  rw [bitsetGet_map_range]
  simp only [hu, Bool.true_and, Bool.and_eq_true, decide_eq_true_eq, any_eq_true, Bool.not_eq_true']
  constructor
  · rintro ⟨-, v, hv, -, hfree⟩
    exact ⟨v, hv, hfree⟩
  · rintro ⟨v, hv, hfree⟩
    exact ⟨(hacfg.sites hv).1, v, hv, (hacfg.sites hv).2, hfree⟩

theorem fNext_iff (hacfg : acfg.Transposed) (hu : bitsetGet covered u)
    (hv : v ∈ acfg.successors.getD u []) :
    (frontierSnapshot acfg covered).fNext.getD v false = true ↔ bitsetGet covered v = false := by
  change bitsetGet (map _ _) v = true ↔ _
  rw [bitsetGet_map_range]
  simp only [Bool.and_eq_true, decide_eq_true_eq, any_eq_true, Bool.not_eq_true']
  constructor
  · rintro ⟨-, hfree, -⟩
    exact hfree
  · intro hfree
    exact ⟨(hacfg.sites hv).2, hfree, u, (hacfg.iff u v).mp hv, (hacfg.sites hv).1, hu⟩

end

/-! ### The weight -/

/-- The weights of the sites of a testcase that have an uncovered successor, and of the uncovered
    successors of its sites. -/
def frontierSum (acfg : SancovAcfgMeta) (covered : List Bool) (w : List ℚ) (sites : Finset ℕ) : ℚ :=
  (∑ u ∈ sites with ∃ v ∈ acfg.successors.getD u [], bitsetGet covered v = false, max (w.getD u 0) 0) +
  ∑ v ∈ sites.biUnion (fun u => (acfg.successors.getD u []).toFinset) with bitsetGet covered v = false,
    max (w.getD v 0) 0

theorem frontierWeightOver_eq {acfg : SancovAcfgMeta} (hacfg : acfg.Transposed)
    {covered : List Bool} (w : List ℚ) {sites seen : List ℕ} (hsites : sites.Nodup)
    (hcovered : ∀ u ∈ sites, bitsetGet covered u)
    (hseen : seen.Perm (nextSeen (frontierSnapshot acfg covered) sites)) :
    frontierWeightOver (w.map fin) (frontierSnapshot acfg covered) sites seen =
      .fin (frontierSum acfg covered w sites.toFinset) := by
  rw [frontierWeightOver_fin, frontierSum, ← sum_toFinset _ (hsites.filter _),
    ← sum_toFinset _ (hseen.nodup_iff.mpr (nodup_nextSeen _ sites))]
  congr 3
  · ext u
    rw [mem_toFinset, mem_filter, Finset.mem_filter, mem_toFinset]
    exact and_congr_right fun hu => fPrev_iff hacfg (hcovered u hu)
  · ext v
    rw [mem_toFinset, hseen.mem_iff, mem_nextSeen, Finset.mem_filter, Finset.mem_biUnion]
    constructor
    · rintro ⟨u, hu, hv, hnext⟩
      exact ⟨⟨u, mem_toFinset.mpr hu, mem_toFinset.mpr hv⟩, (fNext_iff hacfg (hcovered u hu) hv).mp hnext⟩
    · rintro ⟨⟨u, hu, hv⟩, hfree⟩
      have hu := mem_toFinset.mp hu
      have hv := mem_toFinset.mp hv
      exact ⟨u, hu, hv, (fNext_iff hacfg (hcovered u hu) hv).mpr hfree⟩

/-- The weight of a testcase in frontier mode, whatever the order of its sites and of the hash
    set. -/
theorem frontier_weight_sum (acfg : SancovAcfgMeta) (hacfg : acfg.Transposed) (covered : List Bool)
    (w : List ℚ) (snapshot : CorpusWeightSnapshot Exact) (hmode : snapshot.mode = .frontier)
    (hfrontier : snapshot.frontier = some (frontierSnapshot acfg covered))
    (hw : snapshot.featureWeightsBySancov = w.map fin) (i : ℕ) (tc : TestcaseSnapshot)
    (htc : snapshot.testcases[i]? = some tc) (hnodup : tc.coveredSancov.Nodup)
    (hcovered : ∀ u ∈ tc.coveredSancov, bitsetGet covered u) :
    (computeWeights snapshot).perTestcase[i]? =
      some ⟨tc.corpusId, .fin (frontierSum acfg covered w tc.coveredSancov.toFinset)⟩ ∧
    ∀ sites seen, sites.Perm tc.coveredSancov → seen.Perm (nextSeen (frontierSnapshot acfg covered) sites) →
      frontierWeightOver (w.map fin) (frontierSnapshot acfg covered) sites seen =
        .fin (frontierSum acfg covered w tc.coveredSancov.toFinset) := by
  constructor
  · unfold computeWeights
    rw [getElem?_map, htc, Option.map_some, hmode, hfrontier, hw]
    rw [Option.map_some, Option.getD_some, frontierWeight,
      frontierWeightOver_eq hacfg w hnodup hcovered (.refl _)]
  · intro sites seen hsites hseen
    rw [frontierWeightOver_eq hacfg w (hsites.nodup_iff.mpr hnodup)
      (fun u hu => hcovered u (hsites.mem_iff.mp hu)) hseen, toFinset_eq_of_perm _ _ hsites]

namespace Demo

def rowSnapshot : CorpusWeightSnapshot Exact where
  iteration := 0
  mode := .frontier
  featureWeightsBySancov := [.fin 5, .fin (-3), .fin 7]
  frontier := some (frontierSnapshot rowAcfg [true, true, false])
  testcases := [⟨0, [1, 0]⟩]

end Demo

/-- Of the three sites in a row, the last one counts as an uncovered successor of the second one,
    whose own weight is negative. -/
theorem frontier_weight_sum_demo :
    (computeWeights Demo.rowSnapshot).perTestcase[0]? = some ⟨0, .fin 7⟩ := by
  have hacfg : Demo.rowAcfg.Transposed := by
    have hsuccs : ∀ u v, v ∈ Demo.rowAcfg.successors.getD u [] ↔ u < 2 ∧ v = u + 1 := by
      intro u v
      rcases u with _ | _ | _ | u <;> simp [Demo.rowAcfg]
    have hpreds : ∀ u v, u ∈ Demo.rowAcfg.predecessors.getD v [] ↔ u < 2 ∧ v = u + 1 := by
      intro u v
      rcases v with _ | _ | _ | v <;> simp [Demo.rowAcfg] <;> omega
    refine ⟨fun u v => (hsuccs u v).trans (hpreds u v).symm, fun {u v} hv => ?_⟩
    change u < 3 ∧ v < 3
    have := (hsuccs u v).mp hv
    omega
  have hsum : frontierSum Demo.rowAcfg [true, true, false] [5, -3, 7] [1, 0].toFinset = 7 := by
    decide +kernel
  have hweight := (frontier_weight_sum Demo.rowAcfg hacfg [true, true, false] [5, -3, 7]
    Demo.rowSnapshot rfl rfl rfl 0 ⟨0, [1, 0]⟩ rfl (by decide) (by decide)).1
  rwa [hsum] at hweight

end Bofuzz
