import Bofuzz.WeightRefresh
import Bofuzz.Lib.Dispersion
import Bofuzz.Lib.RealNum

/-! What the running statistics of the weights are (`stats.rs`).

    In exact arithmetic the fold over the weights keeps their number, their mean and the sum of
    their squared deviations from it, whatever the order they come in. -/

namespace Bofuzz
open F64 Dispersion ExactReal List

namespace WeightStats

/-- The statistics of the weights that have been seen. -/
noncomputable def ofWeights (ws : List ℝ) : WeightStats ExactReal where
  n := ws.length
  mu := fin (mean ws)
  m2 := fin (sqDev ws)

theorem ofWeights_nil : ofWeights [] = zero := by
  simp [ofWeights, zero, mean, sqDev, sqDist, ExactReal.lit_eq]

/-- One step: the mean moves by the share of the new weight, the deviations by a product of the
    distances to the old and to the new mean. -/
theorem update_ofWeights (ws : List ℝ) (w : ℝ) :
    (ofWeights ws).update (fin w) = ofWeights (ws ++ [w]) := by
  have hn : ((ws.length + 1 : ℕ) : ℝ) ≠ 0 := Nat.cast_ne_zero.mpr (Nat.succ_ne_zero _)
  have hmu : fin (mean ws) + fin (w - mean ws) / F64.ofNat (ws.length + 1)
      = fin (mean (ws ++ [w])) := by
    rw [ExactReal.ofNat_eq, fin_div _ hn, fin_add, mean_append_singleton]
  simp [update, ofWeights, fin_sub, hmu, fin_mul, fin_add, sqDev_append_singleton]

/-- A run: every fold gives the statistics of what it has seen. -/
theorem foldl_update (ws : List ℝ) : (ws.map fin).foldl update zero = ofWeights ws := by
  suffices hrun : ∀ seen, (ws.map fin).foldl update (ofWeights seen) = ofWeights (seen ++ ws) by
    have h := hrun []
    rwa [ofWeights_nil, nil_append] at h
  induction ws with
  | nil =>
    intro seen
    rw [map_nil, foldl_nil, append_nil]
  | cons w ws ih =>
    intro seen
    rw [map_cons, foldl_cons, update_ofWeights, ih, append_assoc, singleton_append]

theorem sigma_ofWeights {ws : List ℝ} (h : 1 < ws.length) :
    (ofWeights ws).sigma = fin (Real.sqrt (sqDev ws / (ws.length - 1))) := by
  have hpos : (0 : ℝ) < ws.length - 1 := by
    rw [sub_pos]
    exact_mod_cast h
  have hcast : ((ws.length - 1 : ℕ) : ℝ) = ws.length - 1 := by
    rw [Nat.cast_sub h.le, Nat.cast_one]
  have hlen : (ofWeights ws).n = ws.length := rfl
  rw [sigma, hlen, if_pos h, ExactReal.ofNat_eq, hcast]
  show F64.sqrt (fin (sqDev ws) / fin ((ws.length : ℝ) - 1)) = _
  rw [fin_div _ hpos.ne', sqrt_fin (div_nonneg (sqDev_nonneg ws) hpos.le)]

end WeightStats

open WeightStats

/-- The running statistics are the number, the mean and the squared deviations of the weights, in
    any order, and the square of `sigma` is their unbiased variance. -/
theorem weight_stats_exact (ws : List ℝ) :
    let stats := (ws.map fin).foldl WeightStats.update WeightStats.zero
    stats.n = ws.length ∧ stats.mu = fin (mean ws) ∧ stats.m2 = fin (sqDev ws) ∧ 0 ≤ sqDev ws ∧
      (∀ vs : List ℝ, vs.Perm ws → (vs.map fin).foldl WeightStats.update WeightStats.zero = stats) ∧
      (1 < ws.length → ∃ σ : ℝ, stats.sigma = fin σ ∧ σ ^ 2 = sqDev ws / (ws.length - 1)) := by
  intro stats
  have hstats : stats = ofWeights ws := foldl_update ws
  rw [hstats]
  refine ⟨rfl, rfl, rfl, sqDev_nonneg ws, ?_, ?_⟩
  · intro vs hperm
    rw [foldl_update, ofWeights, ofWeights, hperm.length_eq, mean_perm hperm, sqDev_perm hperm]
  · intro hlen
    have hpos : (0 : ℝ) ≤ ws.length - 1 := by
      rw [sub_nonneg]
      exact_mod_cast hlen.le
    exact ⟨_, sigma_ofWeights hlen, Real.sq_sqrt (div_nonneg (sqDev_nonneg ws) hpos)⟩

end Bofuzz
