import Mathlib.Algebra.BigOperators.Field
import Mathlib.Data.Fintype.BigOperators
import Mathlib.Tactic.FieldSimp
import Mathlib.Tactic.LinearCombination

/-! Ranks by counting. The average rank of a value is the number of smaller ones plus the middle of
    the places that its equals take; the `k`-th largest value has at least `k` values that are no
    smaller and fewer than `k` that are larger. -/

namespace Rank
open List Finset

variable {α K : Type} [LinearOrder α] [Field K] {n : ℕ}

/-- How many of the values satisfy `p`. -/
def count (values : Fin n → α) (p : α → Bool) : ℕ := (Finset.univ.filter fun j => p (values j)).card

/-- The average rank of the value at `i`. -/
def averageRank (values : Fin n → α) (i : Fin n) : K :=
  (count values (· < values i) : K) + ((count values (· = values i) : K) + 1) / (2 : ℕ)

variable (values : Fin n → α)

omit [LinearOrder α] in
/-- The places of any listing of the indices may be counted instead. -/
theorem count_eq_countP (p : α → Bool) {order : List (Fin n)}
    (horder : order.Perm (List.finRange n)) :
    count values p = order.countP fun j => p (values j) := by
  have hnodup : order.Nodup := horder.nodup_iff.mpr (nodup_finRange n)
  have hset : (Finset.univ.filter fun j => p (values j)) = (order.filter fun j => p (values j)).toFinset := by
    ext j
    simp [horder.mem_iff]
  rw [count, hset, toFinset_card_of_nodup (hnodup.filter _), countP_eq_length_filter]

omit [LinearOrder α] in
theorem count_comp (p : α → Bool) (σ : Equiv.Perm (Fin n)) :
    count (values ∘ σ) p = count values p :=
  card_equiv σ (by simp)

theorem averageRank_comp (σ : Equiv.Perm (Fin n)) (i : Fin n) :
    (averageRank (values ∘ σ) i : K) = averageRank values (σ i) := by
  rw [averageRank, averageRank, count_comp, count_comp]
  rfl

theorem averageRank_congr {values : Fin n → α} {i j : Fin n} (h : values i = values j) :
    (averageRank values i : K) = averageRank values j := by
  rw [averageRank, averageRank, h]

/-- Every pair of values is ordered one way, the other way or equal, so the ranks have the sum of
    the places. -/
theorem sum_averageRank [CharZero K] : ∑ i, (averageRank values i : K) = n * (n + 1) / 2 := by
  have hcount : ∀ (r : α → α → Prop) [DecidableRel r], ∑ i, (count values (r · (values i)) : K)
      = ∑ i, ∑ j, if r (values j) (values i) then (1 : K) else 0 := by
    intro r _
    refine sum_congr rfl fun i _ => ?_
    rw [count, natCast_card_filter]
    simp only [decide_eq_true_eq]
  have hswap : (∑ i, ∑ j, if values j < values i then (1 : K) else 0)
      = ∑ i, ∑ j, if values i < values j then (1 : K) else 0 := sum_comm
  have hpairs : (∑ i, ∑ j, if values j < values i then (1 : K) else 0)
      + (∑ i, ∑ j, if values i < values j then (1 : K) else 0)
      + (∑ i, ∑ j, if values j = values i then (1 : K) else 0) = n * n := by
    have hone : ∀ i j, (if values j < values i then (1 : K) else 0)
        + (if values i < values j then (1 : K) else 0)
        + (if values j = values i then (1 : K) else 0) = 1 := by
      intro i j
      rcases lt_trichotomy (values i) (values j) with h | h | h
      · simp [h, h.not_gt, h.ne']
      · simp [h]
      · simp [h, h.not_gt, h.ne]
    simp only [← sum_add_distrib, hone]
    simp
  simp only [averageRank, Nat.cast_ofNat, sum_add_distrib, ← sum_div]
  rw [hcount (· < ·), hcount (· = ·)]
  simp only [sum_const, card_univ, Fintype.card_fin, nsmul_eq_mul, mul_one]
  rw [← hswap] at hpairs
  field_simp
  linear_combination hpairs

/-! ### The largest values -/

/-- `θ` is the `k`-th largest of the values. -/
def IsKthLargest (xs : List α) (k : ℕ) (θ : α) : Prop :=
  θ ∈ xs ∧ k ≤ xs.countP (θ ≤ ·) ∧ xs.countP (θ < ·) < k

theorem IsKthLargest.perm {xs ys : List α} {k : ℕ} {θ : α} (h : IsKthLargest xs k θ)
    (hperm : xs.Perm ys) : IsKthLargest ys k θ := by
  obtain ⟨hmem, hle, hlt⟩ := h
  exact ⟨hperm.mem_iff.mp hmem, hperm.countP_eq _ ▸ hle, hperm.countP_eq _ ▸ hlt⟩

/-- There is no more than one: the values above the smaller candidate include all that reach the
    larger one. -/
theorem IsKthLargest.unique {xs : List α} {k : ℕ} {θ θ' : α} (h : IsKthLargest xs k θ)
    (h' : IsKthLargest xs k θ') : θ = θ' := by
  have hnot : ∀ {a b : α}, IsKthLargest xs k a → IsKthLargest xs k b → ¬ a < b := by
    rintro a b ⟨-, -, habove⟩ ⟨-, hreach, -⟩ hab
    have hmono : xs.countP (b ≤ ·) ≤ xs.countP (a < ·) :=
      countP_mono_left fun x _ hx => by simpa using hab.trans_le (by simpa using hx)
    omega
  exact le_antisymm (not_lt.mp (hnot h' h)) (not_lt.mp (hnot h h'))

theorem isKthLargest_of_sorted {above below : List α} {θ : α}
    (h : (above ++ θ :: below).Pairwise (· ≥ ·)) :
    IsKthLargest (above ++ θ :: below) (above.length + 1) θ := by
  obtain ⟨-, htail, habove⟩ := pairwise_append.mp h
  have hall : above.countP (θ ≤ ·) = above.length :=
    countP_eq_length.mpr fun x hx => by simpa using habove x hx θ mem_cons_self
  have hnone : below.countP (θ < ·) = 0 :=
    countP_eq_zero.mpr fun x hx => by simpa using (pairwise_cons.mp htail).1 x hx
  have hle : above.countP (θ < ·) ≤ above.length := countP_le_length
  refine ⟨by simp, ?_, ?_⟩
  · rw [countP_append, countP_cons_of_pos (by simp), hall]
    omega
  · rw [countP_append, countP_cons_of_neg (by simp), hnone]
    omega

end Rank
