import Mathlib.Algebra.BigOperators.Ring.List
import Mathlib.Tactic.Linarith
import Mathlib.Tactic.LinearCombination
import Mathlib.Tactic.Positivity
import Mathlib.Tactic.Ring

/-! How far the numbers of a list lie apart: the squared deviations from the mean, in the form that
    takes one number at a time, and the differences of all pairs, in the form that reads a sorted
    list once. -/

namespace Dispersion
open List

variable {K : Type} [Field K] (x : K) (xs : List K)

/-! ### Squared deviations from the mean -/

/-- The arithmetic mean; zero for the empty list. -/
def mean : K := xs.sum / xs.length

/-- The sum of the squared distances from `c`. -/
def sqDist (c : K) (xs : List K) : K := (xs.map fun x => (x - c) ^ 2).sum

/-- The sum of the squared deviations from the mean. -/
def sqDev : K := sqDist (mean xs) xs

theorem sqDist_eq (c : K) (xs : List K) :
    sqDist c xs = (xs.map (· ^ 2)).sum - 2 * c * xs.sum + xs.length * c ^ 2 := by
  unfold sqDist
  induction xs with
  | nil => simp
  | cons x xs ih =>
    simp only [map_cons, sum_cons, length_cons, ih, Nat.cast_add, Nat.cast_one]
    ring

theorem mean_perm {xs ys : List K} (h : xs.Perm ys) : mean xs = mean ys := by
  rw [mean, mean, h.sum_eq, h.length_eq]

theorem sqDev_perm {xs ys : List K} (h : xs.Perm ys) : sqDev xs = sqDev ys := by
  rw [sqDev, sqDev, sqDist, sqDist, mean_perm h, (h.map _).sum_eq]

theorem sqDev_nonneg [LinearOrder K] [IsStrictOrderedRing K] : 0 ≤ sqDev xs := by
  refine sum_nonneg fun d hd => ?_
  obtain ⟨x, -, rfl⟩ := mem_map.mp hd
  positivity

section
variable [CharZero K]

theorem mean_mul_length : mean xs * xs.length = xs.sum := by
  rcases eq_or_ne xs [] with rfl | hxs
  · simp [mean]
  · have hlen : (xs.length : K) ≠ 0 := by simpa using hxs
    rw [mean, div_mul_cancel₀ _ hlen]

theorem mean_append_singleton (w : K) :
    mean (xs ++ [w]) = mean xs + (w - mean xs) / (xs.length + 1 : ℕ) := by
  have hlen : ((xs.length + 1 : ℕ) : K) ≠ 0 := Nat.cast_ne_zero.mpr (Nat.succ_ne_zero _)
  have hsum := mean_mul_length xs
  rw [mean, sum_append, sum_singleton, length_append, length_singleton,
    div_eq_iff hlen, add_mul, div_mul_cancel₀ _ hlen, ← hsum]
  push_cast
  ring

/-- The squared deviations after one more number mix the old and the new mean. -/
theorem sqDev_append_singleton (w : K) :
    sqDev (xs ++ [w]) = sqDev xs + (w - mean xs) * (w - mean (xs ++ [w])) := by
  have hold := mean_mul_length xs
  have hnew := mean_mul_length (xs ++ [w])
  rw [sqDev, sqDev, sqDist_eq, sqDist_eq]
  simp only [map_append, map_singleton, sum_append, sum_singleton,
    length_append, length_singleton, Nat.cast_add, Nat.cast_one] at hnew ⊢
  rw [← hold] at hnew ⊢
  linear_combination (mean (xs ++ [w]) - mean xs) * hnew

end

/-! ### Differences of all pairs -/

section
variable [LinearOrder K] [IsStrictOrderedRing K]

/-- The sum of the distances to `x`. -/
def distances : K := (xs.map fun y => |x - y|).sum

/-- The sum of the distances of all ordered pairs. -/
def pairDistances : K := (xs.map fun x => distances x xs).sum

/-- The sum of the numbers, each times its place from one on. -/
def rankedSum : K := ((xs.zipIdx 1).map fun p => (p.2 : K) * p.1).sum

theorem distances_nonneg : 0 ≤ distances x xs := by
  refine sum_nonneg fun d hd => ?_
  obtain ⟨y, -, rfl⟩ := mem_map.mp hd
  exact abs_nonneg _

theorem pairDistances_nonneg : 0 ≤ pairDistances xs := by
  refine sum_nonneg fun d hd => ?_
  obtain ⟨x, -, rfl⟩ := mem_map.mp hd
  exact distances_nonneg x xs

omit [IsStrictOrderedRing K] in
theorem pairDistances_perm {xs ys : List K} (h : xs.Perm ys) :
    pairDistances xs = pairDistances ys := by
  have hrow : ∀ x, distances x xs = distances x ys := fun x => (h.map _).sum_eq
  rw [pairDistances, (h.map _).sum_eq, pairDistances]
  simp only [hrow]

theorem pairDistances_cons : pairDistances (x :: xs) = pairDistances xs + 2 * distances x xs := by
  have hcol : ∀ ys : List K, (ys.map fun y => distances y (x :: xs)).sum
      = distances x ys + (ys.map fun y => distances y xs).sum := by
    intro ys
    induction ys with
    | nil => simp [distances]
    | cons y ys ih =>
      have hy : distances y (x :: xs) = |x - y| + distances y xs := by
        rw [distances, map_cons, sum_cons, abs_sub_comm y x, distances]
      have hx : distances x (y :: ys) = |x - y| + distances x ys := by
        rw [distances, map_cons, sum_cons, distances]
      rw [map_cons, sum_cons, ih, hy, hx, map_cons, sum_cons]
      ring
  have hhead : distances x (x :: xs) = distances x xs := by simp [distances]
  rw [pairDistances, map_cons, sum_cons, hcol, hhead, pairDistances]
  ring

theorem pairDistances_map_mul {c : K} (hc : 0 ≤ c) (xs : List K) :
    pairDistances (xs.map (c * ·)) = c * pairDistances xs := by
  have hrow : ∀ x, distances (c * x) (xs.map (c * ·)) = c * distances x xs := by
    intro x
    rw [distances, distances, map_map, ← sum_map_mul_left]
    refine congrArg List.sum (map_congr_left fun y _ => ?_)
    simp only [Function.comp_apply]
    rw [← mul_sub, abs_mul, abs_of_nonneg hc]
  rw [pairDistances, pairDistances, map_map, ← sum_map_mul_left]
  exact congrArg List.sum (map_congr_left fun x _ => hrow x)

/-- The distances vanish just if all numbers are equal. -/
theorem pairDistances_eq_zero_iff : pairDistances xs = 0 ↔ ∀ x ∈ xs, ∀ y ∈ xs, x = y := by
  have hzero : ∀ (ds : List K), (∀ d ∈ ds, 0 ≤ d) → (ds.sum = 0 ↔ ∀ d ∈ ds, d = 0) := by
    intro ds hds
    induction ds with
    | nil => simp
    | cons d ds ih =>
      have htail : ∀ d ∈ ds, 0 ≤ d := fun e he => hds e (mem_cons_of_mem d he)
      rw [sum_cons, add_eq_zero_iff_of_nonneg (hds d mem_cons_self)
        (sum_nonneg htail), ih htail, forall_mem_cons]
  have hrow : ∀ x, distances x xs = 0 ↔ ∀ y ∈ xs, x = y := by
    intro x
    rw [distances, hzero _ (by simp)]
    simp [sub_eq_zero]
  rw [pairDistances, hzero _ (by simp [distances_nonneg])]
  simp [hrow]

/-- Numbers that are not negative: a pair lies at most its sum apart. -/
theorem pairDistances_le {xs : List K} (h : ∀ x ∈ xs, 0 ≤ x) :
    pairDistances xs ≤ 2 * (xs.length - 1) * xs.sum := by
  induction xs with
  | nil => simp [pairDistances]
  | cons x xs ih =>
    have hx : 0 ≤ x := h x mem_cons_self
    have hxs : ∀ y ∈ xs, 0 ≤ y := fun y hy => h y (mem_cons_of_mem x hy)
    have hrow : distances x xs ≤ xs.length * x + xs.sum := by
      clear ih h
      induction xs with
      | nil => simp [distances]
      | cons y xs ih =>
        have hy : 0 ≤ y := hxs y mem_cons_self
        have hle := ih fun z hz => hxs z (mem_cons_of_mem y hz)
        have hdist : |x - y| ≤ x + y := abs_le.mpr ⟨by linarith, by linarith⟩
        simp only [distances, map_cons, sum_cons, length_cons] at hle ⊢
        push_cast
        linarith
    have hle := ih hxs
    rw [pairDistances_cons, length_cons, sum_cons]
    push_cast
    linarith

omit [LinearOrder K] [IsStrictOrderedRing K] in
theorem rankedSum_cons : rankedSum (x :: xs) = x + (rankedSum xs + xs.sum) := by
  have hshift : ∀ (k : ℕ) (ys : List K), ((ys.zipIdx (k + 1)).map fun p => (p.2 : K) * p.1).sum
      = ((ys.zipIdx k).map fun p => (p.2 : K) * p.1).sum + ys.sum := by
    intro k ys
    induction ys generalizing k with
    | nil => simp
    | cons y ys ih =>
      simp only [zipIdx_cons, map_cons, sum_cons, ih]
      push_cast
      ring
  simp only [rankedSum, zipIdx_cons, map_cons, sum_cons, hshift]
  ring

/-- The distances of a sorted list, from one reading of it. -/
theorem pairDistances_of_sorted {xs : List K} (h : xs.Pairwise (· ≤ ·)) :
    pairDistances xs = 4 * rankedSum xs - 2 * (xs.length + 1) * xs.sum := by
  induction h with
  | nil => simp [pairDistances, rankedSum]
  | @cons x xs hx hsorted ih =>
    -- the new head is the least number, so every distance to it is a difference
    have hrow : distances x xs = xs.sum - xs.length * x := by
      clear ih hsorted
      induction xs with
      | nil => simp [distances]
      | cons y xs ihx =>
        have hy : |x - y| = y - x := by
          rw [abs_sub_comm, abs_of_nonneg (sub_nonneg.mpr (hx y mem_cons_self))]
        have htail := ihx fun z hz => hx z (mem_cons_of_mem y hz)
        simp only [distances, map_cons, sum_cons, length_cons, hy] at htail ⊢
        rw [htail]
        push_cast
        ring
    rw [pairDistances_cons, ih, hrow, rankedSum_cons, length_cons, sum_cons]
    push_cast
    ring

end

end Dispersion
