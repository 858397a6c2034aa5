import Bofuzz.Extractor.FeatureArrays
import Bofuzz.Lib.Dispersion
import Bofuzz.Lib.Loop
import Bofuzz.Lib.Rank
import Mathlib.Data.Fin.VecNotation

/-! The statistics of the features over the ACFG (`static_analysis/features_extractor.py`).

    Arithmetic is exact. A list of one value for each node is a function on the nodes. -/

namespace Bofuzz.Extractor
open Loop Rank Dispersion List

variable {α K : Type} [LinearOrder α] [Field K] {n : ℕ}

/-! ### The program -/

variable (values : Fin n → α)

/-- `sorted(range(n), key=lambda i: values[i])`, which is stable. -/
def rankOrder : List (Fin n) :=
  (List.finRange n).insertionSort fun i j => values i ≤ values j

/-- The place after the ties of the value at place `pos`. -/
def tieEnd (order : List (Fin n)) (pos : ℕ) : Prog ℕ :=
  whileLoop (fun e => decide (e < n) && decide (order[e]?.map values = order[pos]?.map values))
    (· + 1) (pos + 1)

structure RankState (n : ℕ) (K : Type) where
  pos : ℕ
  ranks : Fin n → K

/-- The ties that start at `pos` get the average of their places. -/
def rankTies (order : List (Fin n)) (s : RankState n K) : Prog (RankState n K) := do
  let tie ← tieEnd values order s.pos
  let avgRank : K := (s.pos + 1 + tie) / 2
  pure { pos := tie
         ranks := (order.extract s.pos tie).foldl (fun ranks i => Function.update ranks i avgRank)
           s.ranks }

def averageRanks : Prog (Fin n → K) := do
  let s ← whileLoopM (fun s : RankState n K => decide (s.pos < n))
    (rankTies values (rankOrder values)) { pos := 0, ranks := fun _ => 0 }
  pure s.ranks

section
variable [LinearOrder K]

/-- Moran's I of the signal `y`. -/
def moranI (y : Fin n → K) (adj : Dict (Fin n) (List (Fin n))) : K :=
  if n = 0 then 0
  else
    let s0 : ℕ := adj.entries.foldl (fun s0 e => s0 + e.2.length) 0
    if s0 ≤ 0 then 0
    else
      let meanY := (List.ofFn y).sum / n
      let denom := ((List.ofFn y).map fun v => (v - meanY) ^ 2).sum
      if denom ≤ 1e-12 then 0
      else
        let num := adj.entries.foldl (fun num e =>
          e.2.foldl (fun num k => num + (y e.1 - meanY) * (y k - meanY)) num) 0
        (n / s0) * (num / denom)

/-- The coefficient of a sorted list before small negative values are set to zero. -/
def sortedGini (xs : List K) : K :=
  let weighted := (xs.zipIdx 1).foldl (fun (weighted : K) p => weighted + p.2 * p.1) 0
  2 * weighted / (xs.length * xs.sum) - (xs.length + 1) / xs.length

/-- A negative artefact of rounding. -/
def IsArtefact (g : K) : Prop := -1e-12 < g ∧ g < 0

instance (g : K) : Decidable (IsArtefact g) := inferInstanceAs (Decidable (_ ∧ _))

/-- The values that the coefficient is taken of. -/
def giniValues (values : List (Option K)) : List K :=
  (values.map fun v => max 0 (finiteOrZero v)).insertionSort (· ≤ ·)

def giniCoefficient (values : List (Option K)) : K :=
  let xs := giniValues values
  if xs.length = 0 then 0
  else if xs.sum ≤ 1e-12 then 0
  else
    let g := sortedGini xs
    if IsArtefact g then 0 else g

end

/-! ### Average ranks -/

variable (values : Fin n → α)

theorem rankOrder_perm : (rankOrder values).Perm (finRange n) :=
  perm_insertionSort _ _

theorem rankOrder_sorted : (rankOrder values).Pairwise fun i j => values i ≤ values j := by
  exact pairwise_insertionSort _ _

theorem length_rankOrder : (rankOrder values).length = n := by
  rw [(rankOrder_perm values).length_eq, length_finRange]

/-- The places before `pos` are done: they hold smaller values than the rest, and their ranks are
    the final ones. -/
structure Ranked (done rest : List (Fin n)) (ranks : Fin n → K) : Prop where
  order : rankOrder values = done ++ rest
  below : ∀ i ∈ done, ∀ j ∈ rest, values i < values j
  ranks : ∀ i ∈ done, ranks i = averageRank values i

variable {i : Fin n} {done rest : List (Fin n)}

/-- The inner loop takes the ties of the first value of the rest. -/
theorem tieEnd_ends {values : Fin n → α} (horder : rankOrder values = done ++ i :: rest) :
    Ends (tieEnd values (rankOrder values) done.length) fun e => ∃ ties later,
      i :: rest = (i :: ties) ++ later ∧ e = done.length + (i :: ties).length ∧
        (∀ j ∈ ties, values j = values i) ∧ ∀ j ∈ later.head?, values j ≠ values i := by
  have hlen := length_rankOrder values
  have hfirst : (rankOrder values)[done.length]? = some i := by simp [horder]
  have hcur : ∀ ties later, i :: rest = (i :: ties) ++ later →
      (rankOrder values)[done.length + (i :: ties).length]? = later.head? := by
    intro ties later hsplit
    have hassoc : rankOrder values = (done ++ (i :: ties)) ++ later := by
      rw [horder, hsplit, append_assoc]
    rw [hassoc, ← length_append, getElem?_append_right le_rfl, Nat.sub_self, head?_eq_getElem?]
  refine (Ends.whileLoop (I := fun e => ∃ ties later, i :: rest = (i :: ties) ++ later ∧
      e = done.length + (i :: ties).length ∧ ∀ j ∈ ties, values j = values i) (fun e => n - e)
      ⟨[], rest, rfl, rfl, by simp⟩ ?_).mono ?_
  · rintro e ⟨ties, later, hsplit, rfl, hties⟩ hcond
    simp only [Bool.and_eq_true, decide_eq_true_eq, hcur ties later hsplit, hfirst] at hcond
    obtain ⟨hlt, hval⟩ := hcond
    cases later with
    | nil => simp at hval
    | cons j later =>
      have hj : values j = values i := by simpa using hval
      exact ⟨⟨ties ++ [j], later, by simpa using hsplit, by simp; omega,
        forall_mem_concat.mpr ⟨hties, hj⟩⟩, by omega⟩
  · rintro e ⟨⟨ties, later, hsplit, rfl, hties⟩, hcond⟩
    refine ⟨ties, later, hsplit, rfl, hties, ?_⟩
    intro j hj hval
    have hsome : (rankOrder values)[done.length + (i :: ties).length]? = some j :=
      (hcur ties later hsplit).trans hj
    have hlt : done.length + (i :: ties).length < n :=
      (List.getElem?_eq_some_iff.mp hsome).1.trans_eq hlen
    simp only [hsome, hfirst, Option.map_some, hval, hlt, decide_true, Bool.and_true,
      Bool.true_eq_false] at hcond

variable {done ties later : List (Fin n)}

/-- What follows the ties is larger, since the order is sorted and the next value is not equal. -/
theorem lt_of_mem_later {values : Fin n → α}
    (horder : rankOrder values = done ++ ((i :: ties) ++ later))
    (hnext : ∀ j ∈ later.head?, values j ≠ values i) : ∀ j ∈ later, values i < values j := by
  have hsorted := rankOrder_sorted values
  rw [horder, pairwise_append] at hsorted
  have htail := (pairwise_append.mp hsorted.2.1).2
  intro j hj
  cases later with
  | nil => cases hj
  | cons k later =>
    have hik : values i < values k :=
      (htail.2 i mem_cons_self k mem_cons_self).lt_of_ne (hnext k rfl).symm
    rcases mem_cons.mp hj with rfl | hj
    · exact hik
    · exact hik.trans_le ((pairwise_cons.mp htail.1).1 j hj)

/-- The ties take the places from `done.length + 1` to `done.length + ties.length + 1`. -/
theorem averageRank_tie [CharZero K] {values : Fin n → α}
    (horder : rankOrder values = done ++ ((i :: ties) ++ later))
    (hbelow : ∀ k ∈ done, values k < values i) (hties : ∀ j ∈ ties, values j = values i)
    (hlater : ∀ j ∈ later, values i < values j) {j : Fin n} (hj : j ∈ i :: ties) :
    (averageRank values j : K) =
      (done.length + 1 + (done.length + (i :: ties).length : ℕ)) / 2 := by
  have hequal : ∀ k ∈ i :: ties, values k = values i := forall_mem_cons.mpr ⟨rfl, hties⟩
  have hsmaller : Rank.count values (· < values i) = done.length := by
    rw [count_eq_countP values _ (rankOrder_perm values), horder, countP_append,
      countP_append, countP_eq_length.mpr, countP_eq_zero.mpr, countP_eq_zero.mpr]
    · rfl
    · intro k hk
      simpa using (hlater k hk).le
    · intro k hk
      simpa using (hequal k hk).ge
    · intro k hk
      simpa using hbelow k hk
  have hsame : Rank.count values (· = values i) = (i :: ties).length := by
    rw [count_eq_countP values _ (rankOrder_perm values), horder, countP_append,
      countP_append, countP_eq_zero.mpr, countP_eq_length.mpr, countP_eq_zero.mpr]
    · rw [zero_add, add_zero]
    · intro k hk
      simpa using (hlater k hk).ne'
    · intro k hk
      simpa using hequal k hk
    · intro k hk
      simpa using (hbelow k hk).ne
  rw [averageRank, hequal j hj, hsmaller, hsame, Nat.cast_ofNat]
  push_cast
  ring

omit [Field K] in
theorem foldl_update_apply (r : K) (is : List (Fin n)) (ranks : Fin n → K) (j : Fin n) :
    is.foldl (fun ranks i => Function.update ranks i r) ranks j =
      if j ∈ is then r else ranks j := by
  induction is generalizing ranks with
  | nil => simp
  | cons i is ih =>
    rw [foldl_cons, ih]
    by_cases hj : j = i
    · simp [hj]
    · simp [hj]

/-- One round of the outer loop ranks one group of ties. -/
theorem rankTies_ends [CharZero K] {values : Fin n → α}
    {ranks : Fin n → K} (h : Ranked values done (i :: rest) ranks) :
    Ends (rankTies values (rankOrder values) { pos := done.length, ranks }) fun s =>
      done.length < s.pos ∧ ∃ done' rest', done'.length = s.pos ∧ Ranked values done' rest' s.ranks := by
  refine .bind (tieEnd_ends h.order) ?_
  rintro e ⟨ties, later, hsplit, rfl, hties, hnext⟩
  have horder : rankOrder values = done ++ ((i :: ties) ++ later) := by rw [h.order, hsplit]
  have hlater := lt_of_mem_later horder hnext
  have hbelow : ∀ k ∈ done, values k < values i := fun k hk => h.below k hk i mem_cons_self
  have hequal : ∀ k ∈ i :: ties, values k = values i := forall_mem_cons.mpr ⟨rfl, hties⟩
  have hslice : (rankOrder values).extract done.length (done.length + (i :: ties).length)
      = i :: ties := by
    rw [horder, extract_eq_take_drop, drop_left, Nat.add_sub_cancel_left, take_left]
  refine .pure ⟨by simp, done ++ (i :: ties), later, by simp, ?_, ?_, ?_⟩
  · rw [horder, append_assoc]
  · intro k hk j hj
    rcases mem_append.mp hk with hk | hk
    · exact h.below k hk j (hsplit ▸ mem_append_right _ hj)
    · rw [hequal k hk]
      exact hlater j hj
  · intro k hk
    simp only [hslice, foldl_update_apply]
    split_ifs with hk'
    · exact (averageRank_tie horder hbelow hties hlater hk').symm
    · exact h.ranks k ((mem_append.mp hk).resolve_right hk')

theorem averageRanks_ends [CharZero K] :
    Ends (averageRanks values : Prog (Fin n → K)) (· = averageRank values) := by
  have hlen := length_rankOrder values
  refine .bind (Ends.whileLoopM (I := fun s : RankState n K => ∃ done rest,
    done.length = s.pos ∧ Ranked values done rest s.ranks) (fun s => n - s.pos) ?_ ?_) ?_
  · exact ⟨[], rankOrder values, rfl, by simp, by simp, by simp⟩
  · rintro ⟨pos, ranks⟩ ⟨done, rest, rfl, h⟩ hcond
    have hpos : done.length < n := by simpa using hcond
    cases rest with
    | nil =>
      rw [h.order, append_nil] at hlen
      omega
    | cons i rest =>
      refine (rankTies_ends h).mono ?_
      rintro s ⟨hlt, hs⟩
      exact ⟨hs, by simp only; omega⟩
  · rintro s ⟨⟨done, rest, hpos, h⟩, hcond⟩
    refine .pure (funext fun i => h.ranks i ?_)
    -- the loop is over when no place is left
    have hrest : rest = [] := by
      have hge : n ≤ s.pos := by simpa using hcond
      rw [h.order, length_append] at hlen
      exact eq_nil_of_length_eq_zero (by omega)
    have hmem : i ∈ rankOrder values := (rankOrder_perm values).mem_iff.mpr (mem_finRange i)
    rwa [h.order, hrest, append_nil] at hmem

/-- Average ranks: every position gets the number of smaller values plus half of one more than the
    number of equal ones. The ranks add up to those of a list without ties, equal values have equal
    ranks, and permuting the values permutes the ranks. -/
theorem average_ranks_correct [CharZero K] (values : Fin n → α) :
    ∃ ranks : Fin n → K, Ends (averageRanks values) (· = ranks) ∧
      (∀ i, ranks i = ((Finset.univ.filter fun j => values j < values i).card : K)
        + (((Finset.univ.filter fun j => values j = values i).card : K) + 1) / 2) ∧
      ∑ i, ranks i = n * (n + 1) / 2 ∧
      (∀ i j, values i = values j → ranks i = ranks j) ∧
      ∀ σ : Equiv.Perm (Fin n), Ends (averageRanks (values ∘ σ)) (· = ranks ∘ σ) := by
  refine ⟨averageRank values, averageRanks_ends values, ?_, sum_averageRank values,
    fun i j => averageRank_congr, ?_⟩
  · intro i
    simp [averageRank, Rank.count]
  · intro σ
    have hcomp : (averageRank (values ∘ σ) : Fin n → K) = averageRank values ∘ σ :=
      funext (averageRank_comp values σ)
    rw [← hcomp]
    exact averageRanks_ends _

/-- Two of three values are tied. -/
theorem average_ranks_tied : ∃ ranks : Fin 3 → ℚ,
    Ends (averageRanks (![3, 1, 3] : Fin 3 → ℕ)) (· = ranks) ∧ ∑ i, ranks i = 3 * (3 + 1) / 2 := by
  obtain ⟨ranks, hranks, -, hsum, -⟩ := average_ranks_correct (K := ℚ) (![3, 1, 3] : Fin 3 → ℕ)
  exact ⟨ranks, hranks, by exact_mod_cast hsum⟩

/-! ### The Gini coefficient -/

section
variable [LinearOrder K] [IsStrictOrderedRing K] {xs : List K}

omit [IsStrictOrderedRing K] in
theorem giniValues_some (h : ∀ x ∈ xs, 0 ≤ x) :
    giniValues (xs.map some) = xs.insertionSort (· ≤ ·) := by
  have hmap : (xs.map some).map (fun v => max 0 (finiteOrZero v)) = xs := by
    rw [map_map]
    exact (map_congr_left fun x hx => max_eq_right (h x hx)).trans (map_id xs)
  rw [giniValues, hmap]

theorem sortedGini_eq (hsorted : xs.Pairwise (· ≤ ·)) (hsum : xs.sum ≠ 0) :
    sortedGini xs = pairDistances xs / (2 * xs.length * xs.sum) := by
  have hlen : (xs.length : K) ≠ 0 := by
    rintro hzero
    rw [Nat.cast_eq_zero, length_eq_zero_iff] at hzero
    exact hsum (by simp [hzero])
  have hweighted : (xs.zipIdx 1).foldl (fun (weighted : K) p => weighted + p.2 * p.1) 0
      = rankedSum xs := by
    rw [rankedSum, sum_eq_foldl, foldl_map]
  rw [sortedGini, hweighted, pairDistances_of_sorted hsorted]
  field_simp
  ring

theorem giniCoefficient_eq (h : ∀ x ∈ xs, 0 ≤ x) (htotal : 1e-12 < xs.sum) :
    giniCoefficient (xs.map some) = pairDistances xs / (2 * xs.length * xs.sum) ∧
      sortedGini (giniValues (xs.map some)) = pairDistances xs / (2 * xs.length * xs.sum) := by
  have hperm : (xs.insertionSort (· ≤ ·)).Perm xs := perm_insertionSort _ _
  have hpos : 0 < xs.sum := lt_trans (by norm_num) htotal
  have hlen : (xs.insertionSort (· ≤ ·)).length ≠ 0 := by
    rw [hperm.length_eq]
    rintro hzero
    rw [length_eq_zero_iff] at hzero
    simp [hzero] at hpos
  have hsorted : sortedGini (xs.insertionSort (· ≤ ·))
      = pairDistances xs / (2 * xs.length * xs.sum) := by
    rw [sortedGini_eq (pairwise_insertionSort _ _) (by rw [hperm.sum_eq]; exact hpos.ne'),
      pairDistances_perm hperm, hperm.length_eq, hperm.sum_eq]
  have hnonneg : 0 ≤ pairDistances xs / (2 * xs.length * xs.sum) :=
    div_nonneg (pairDistances_nonneg xs) (by positivity)
  refine ⟨?_, by rw [giniValues_some h, hsorted]⟩
  rw [giniCoefficient, giniValues_some h, if_neg hlen, if_neg (by rw [hperm.sum_eq]; exact htotal.not_ge)]
  rw [hsorted, if_neg fun hneg => hneg.2.not_ge hnonneg]

/-- The Gini coefficient of values that are not negative: the sum of all differences over twice the
    number of values times their total. It lies between zero and `(n - 1) / n`, does not depend on
    the order or the scale, is zero just for constant lists, and its formula is never negative. -/
theorem gini_mean_difference {xs : List K} (h : ∀ x ∈ xs, 0 ≤ x) (htotal : 1e-12 < xs.sum) :
    giniCoefficient (xs.map some)
        = (xs.map fun x => (xs.map fun y => |x - y|).sum).sum / (2 * xs.length * xs.sum) ∧
      0 ≤ giniCoefficient (xs.map some) ∧
      giniCoefficient (xs.map some) ≤ (xs.length - 1) / xs.length ∧
      (∀ ys : List K, ys.Perm xs → giniCoefficient (ys.map some) = giniCoefficient (xs.map some)) ∧
      (∀ c : K, 0 < c → 1e-12 < c * xs.sum →
        giniCoefficient (xs.map fun x => some (c * x)) = giniCoefficient (xs.map some)) ∧
      (giniCoefficient (xs.map some) = 0 ↔ ∀ x ∈ xs, ∀ y ∈ xs, x = y) ∧
      ¬ IsArtefact (sortedGini (giniValues (xs.map some))) := by
  have hpos : 0 < xs.sum := lt_trans (by norm_num) htotal
  have hlen : (0 : K) < xs.length := by
    rw [Nat.cast_pos, length_pos_iff]
    rintro rfl
    simp at hpos
  have hden : 0 < 2 * xs.length * xs.sum := by positivity
  obtain ⟨hgini, hsorted⟩ := giniCoefficient_eq h htotal
  refine ⟨hgini, ?_, ?_, ?_, ?_, ?_, ?_⟩
  · rw [hgini]
    exact div_nonneg (pairDistances_nonneg xs) hden.le
  · rw [hgini, div_le_div_iff₀ hden hlen]
    calc pairDistances xs * xs.length
        ≤ 2 * (xs.length - 1) * xs.sum * xs.length :=
          mul_le_mul_of_nonneg_right (pairDistances_le h) hlen.le
      _ = (xs.length - 1) * (2 * xs.length * xs.sum) := by ring
  · intro ys hperm
    have hys : ∀ y ∈ ys, 0 ≤ y := fun y hy => h y (hperm.mem_iff.mp hy)
    rw [hgini, (giniCoefficient_eq hys (by rw [hperm.sum_eq]; exact htotal)).1,
      pairDistances_perm hperm, hperm.length_eq, hperm.sum_eq]
  · intro c hc hscaled
    have hsum : (xs.map (c * ·)).sum = c * xs.sum := by
      rw [sum_map_mul_left, map_id']
    have hcs : ∀ y ∈ xs.map (c * ·), 0 ≤ y := forall_mem_map.mpr fun x hx => mul_nonneg hc.le (h x hx)
    have hmap : (xs.map fun x => some (c * x)) = (xs.map (c * ·)).map some := by
      rw [map_map]
      rfl
    rw [hgini, hmap, (giniCoefficient_eq hcs (by rw [hsum]; exact hscaled)).1, hsum,
      pairDistances_map_mul hc.le, length_map]
    field_simp
  · rw [hgini, div_eq_zero_iff, or_iff_left hden.ne', pairDistances_eq_zero_iff]
  · rw [hsorted]
    exact fun hneg => hneg.2.not_ge (div_nonneg (pairDistances_nonneg xs) hden.le)

/-- One of two equal shares is missing. -/
theorem gini_mean_difference_pair :
    (∀ x ∈ ([1, 0] : List ℚ), 0 ≤ x) ∧ (1e-12 : ℚ) < ([1, 0] : List ℚ).sum ∧
      giniCoefficient (([1, 0] : List ℚ).map some) ≤ ((2 : ℕ) - 1) / (2 : ℕ) := by
  have hnonneg : ∀ x ∈ ([1, 0] : List ℚ), 0 ≤ x := by simp
  have htotal : (1e-12 : ℚ) < ([1, 0] : List ℚ).sum := by norm_num
  exact ⟨hnonneg, htotal, (gini_mean_difference hnonneg htotal).2.2.1⟩

end

/-! ### Moran's I and symmetrization -/

section
variable {κ : Type} [LinearOrder κ]

/-- No neighbour is listed twice. -/
def NodupNeighbours (adj : Dict κ (List κ)) : Prop := ∀ i, ∀ ks ∈ adj.lookup i, ks.Nodup

theorem nodup_setAdd {ks : List κ} (h : ks.Nodup) (k : κ) : (setAdd ks k).Nodup := by
  unfold setAdd
  split_ifs with hk
  · exact h
  · exact (perm_orderedInsert _ _ _).nodup_iff.mpr (nodup_cons.mpr ⟨hk, h⟩)

variable {adj : Dict κ (List κ)}

theorem nodupNeighbours_addEdge (h : NodupNeighbours adj) (i k : κ) :
    NodupNeighbours (addEdge adj i k) := by
  intro a ks hks
  rw [addEdge, lookup_insert_ite] at hks
  split_ifs at hks with ha
  · cases hks
    refine nodup_setAdd ?_ k
    cases hlookup : adj.lookup i with
    | none => exact nodup_nil
    | some old => exact h i old hlookup
  · exact h a ks hks

theorem nodupNeighbours_buildAdjacency (cfg : Cfg) (index : ℕ → Option κ) (symmetrize : Bool) :
    NodupNeighbours (buildAdjacency cfg index symmetrize) := by
  refine foldlRecOn cfg.entries _ (fun i ks hks => by simp at hks) fun adj hadj block _ => ?_
  unfold addBlock
  split
  · exact hadj
  · next i _ =>
    refine foldlRecOn block.2 _ hadj fun adj hadj dst _ => ?_
    unfold addCfgEdge
    split
    · exact hadj
    · next k _ =>
      split_ifs
      · exact hadj
      · exact nodupNeighbours_addEdge (nodupNeighbours_addEdge hadj i k) k i
      · exact nodupNeighbours_addEdge hadj i k

theorem sum_entries_eq [Fintype κ] {M : Type} [AddCommMonoid M]
    (h : NodupNeighbours adj) (f : κ → κ → M) :
    (adj.entries.map fun e => (e.2.map (f e.1)).sum).sum = ∑ i, ∑ k, if Edge adj i k then f i k else 0 := by
  let row : κ → M := fun i => (((adj.lookup i).getD []).map (f i)).sum
  have hrow : ∀ i, row i = ∑ k, if Edge adj i k then f i k else 0 := by
    intro i
    cases hlookup : adj.lookup i with
    | none => simp [row, Edge, hlookup]
    | some ks =>
      have hks : ks.Nodup := h i ks hlookup
      simp only [row, Edge, hlookup, Option.getD_some, Option.mem_some_iff, exists_eq_left']
      rw [← Finset.sum_filter, ← sum_toFinset _ hks]
      congr 1
      ext k
      simp
  have hentries : (adj.entries.map fun e => (e.2.map (f e.1)).sum) = adj.keys.map row := by
    rw [AList.keys, keys, map_map]
    refine map_congr_left fun e he => ?_
    have hlookup : adj.lookup e.1 = some e.2 := AList.mem_lookup_iff.mpr he
    simp [row, hlookup]
  rw [hentries, ← sum_toFinset _ adj.keys_nodup, ← Finset.sum_congr rfl fun i _ => hrow i]
  refine Finset.sum_subset (Finset.subset_univ _) fun i _ hi => ?_
  have hnone : adj.lookup i = none := AList.lookup_eq_none.mpr (by simpa [AList.mem_keys] using hi)
  simp [hnone]

variable {index : ℕ → Option κ}

theorem edge_symmetrized {cfg : Cfg} {a b : κ} : Edge (buildAdjacency cfg index true) a b ↔
      Edge (buildAdjacency cfg index false) a b ∨ Edge (buildAdjacency cfg index false) b a := by
  simp only [edge_buildAdjacency, Links, Bool.false_eq_true, false_and, or_false, true_and, and_or_left,
    exists_or]

/-- If no edge has a reverse, symmetrizing doubles the sum of a symmetric quantity. -/
theorem sum_symmetrized [Fintype κ] {M : Type} [AddCommMonoid M] {cfg : Cfg}
    (hone : ∀ a b, Edge (buildAdjacency cfg index false) a b →
      ¬ Edge (buildAdjacency cfg index false) b a) {f : κ → κ → M} (hf : ∀ a b, f a b = f b a) :
    (∑ a, ∑ b, if Edge (buildAdjacency cfg index true) a b then f a b else 0)
      = 2 • ∑ a, ∑ b, if Edge (buildAdjacency cfg index false) a b then f a b else 0 := by
  have hsplit : ∀ a b, (if Edge (buildAdjacency cfg index true) a b then f a b else 0)
      = (if Edge (buildAdjacency cfg index false) a b then f a b else 0)
        + if Edge (buildAdjacency cfg index false) b a then f b a else 0 := by
    intro a b
    by_cases hab : Edge (buildAdjacency cfg index false) a b
    · simp [edge_symmetrized, hab, hone a b hab]
    · by_cases hba : Edge (buildAdjacency cfg index false) b a
      · simp [edge_symmetrized, hab, hba, hf a b]
      · simp [edge_symmetrized, hab, hba]
  simp only [hsplit, Finset.sum_add_distrib]
  rw [two_nsmul]
  congr 1
  exact Finset.sum_comm

end

theorem foldl_add_eq {M β : Type} [AddCommMonoid M] (f : β → M) (l : List β) (init : M) :
    l.foldl (fun acc b => acc + f b) init = init + (l.map f).sum := by
  induction l generalizing init with
  | nil => simp
  | cons b l ih => rw [foldl_cons, ih, map_cons, sum_cons, add_assoc]

theorem get_of_nodeIndex {order : List ℕ} {w : ℕ} {i : Fin order.length}
    (hw : nodeIndex order w = some i) : order.get i = w := by
  simpa using (finIdxOf?_eq_some_iff.mp hw).1

section
variable [LinearOrder K] [IsStrictOrderedRing K]

theorem moranI_congr {y : Fin n → K} {adj adj' : Dict (Fin n) (List (Fin n))}
    (h : NodupNeighbours adj) (h' : NodupNeighbours adj')
    (hsum : ∀ {M : Type} [AddCommMonoid M] (f : Fin n → Fin n → M), (∀ a b, f a b = f b a) →
      (∑ a, ∑ b, if Edge adj' a b then f a b else 0) = 2 • ∑ a, ∑ b, if Edge adj a b then f a b else 0) :
    moranI y adj = moranI y adj' := by
  have hs0 : ∀ {adj : Dict (Fin n) (List (Fin n))}, NodupNeighbours adj →
      adj.entries.foldl (fun s0 e => s0 + e.2.length) 0
        = ∑ a, ∑ b, if Edge adj a b then 1 else 0 := by
    intro adj hadj
    rw [foldl_add_eq (fun e : Sigma fun _ : Fin n => List (Fin n) => e.2.length), zero_add,
      ← sum_entries_eq hadj fun _ _ => 1]
    simp
  have hnum : ∀ {adj : Dict (Fin n) (List (Fin n))}, NodupNeighbours adj → ∀ m : K,
      adj.entries.foldl (fun num e => e.2.foldl (fun num k => num + (y e.1 - m) * (y k - m)) num) 0
        = ∑ a, ∑ b, if Edge adj a b then (y a - m) * (y b - m) else 0 := by
    intro adj hadj m
    simp only [foldl_add_eq]
    rw [zero_add, ← sum_entries_eq hadj fun a b => (y a - m) * (y b - m)]
  have hs0' := hs0 h'
  rw [hsum _ fun _ _ => rfl, ← hs0 h, nsmul_eq_mul, Nat.cast_ofNat] at hs0'
  unfold moranI
  split_ifs with hn
  · rfl
  simp only [hs0', hnum h, hnum h', hsum _ fun a b => mul_comm _ _]
  generalize adj.entries.foldl (fun s0 e => s0 + e.2.length) 0 = s0
  by_cases hzero : s0 ≤ 0
  · rw [if_pos hzero, if_pos (show 2 * s0 ≤ 0 by omega)]
  have hpos : (s0 : K) ≠ 0 := by
    rw [Nat.cast_ne_zero]
    omega
  rw [if_neg hzero, if_neg (show ¬ 2 * s0 ≤ 0 by omega)]
  refine if_congr Iff.rfl rfl ?_
  rw [nsmul_eq_mul]
  push_cast
  field_simp

/-- Moran's I is the same for the directed and the symmetrized adjacency of a CFG in which no two
    blocks are joined both ways. -/
theorem moran_i_symmetrized {cfg : Cfg} {blocks : List ℕ}
    (hone : ∀ u ∈ blocks, ∀ v ∈ blocks, u ≠ v → Edge cfg u v → ¬ Edge cfg v u)
    (y : Fin (nodeOrder blocks).length → K) :
    moranI y (buildAcfgAdjacency cfg (nodeIndex (nodeOrder blocks)) .directed)
      = moranI y (buildAcfgAdjacency cfg (nodeIndex (nodeOrder blocks)) .undirected) := by
  have hmem : ∀ {w i}, nodeIndex (nodeOrder blocks) w = some i → w ∈ blocks := by
    intro w i hw
    have hin : w ∈ nodeOrder blocks := get_of_nodeIndex hw ▸ get_mem _ i
    exact (perm_insertionSort _ _).mem_iff.mp hin
  have honeway : ∀ a b, Edge (buildAdjacency cfg (nodeIndex (nodeOrder blocks)) false) a b →
      ¬ Edge (buildAdjacency cfg (nodeIndex (nodeOrder blocks)) false) b a := by
    intro a b hab hba
    simp only [edge_buildAdjacency, Links, Bool.false_eq_true, false_and, or_false] at hab hba
    obtain ⟨u, v, huv, hne, hu, hv⟩ := hab
    obtain ⟨v', u', hvu, -, hv', hu'⟩ := hba
    -- a node belongs to one block
    have hsrc : u' = u := (get_of_nodeIndex hu').symm.trans (get_of_nodeIndex hu)
    have hdst : v' = v := (get_of_nodeIndex hv').symm.trans (get_of_nodeIndex hv)
    rw [hsrc, hdst] at hvu
    exact hone u (hmem hu) v (hmem hv) hne huv hvu
  exact moranI_congr (nodupNeighbours_buildAdjacency _ _ _) (nodupNeighbours_buildAdjacency _ _ _)
    fun f hf => sum_symmetrized honeway hf

end

/-- A self-loop, an edge to a block that is not known, and one edge between two blocks. -/
def Demo.loopedCfg : Cfg := AList.insert 16 [32, 16] (AList.insert 32 [99] ∅)

theorem moran_i_symmetrized_demo :
    (∀ u ∈ [16, 32], ∀ v ∈ [16, 32], u ≠ v → Edge Demo.loopedCfg u v → ¬ Edge Demo.loopedCfg v u) ∧
      moranI (fun i => ((i : ℕ) : ℚ))
          (buildAcfgAdjacency Demo.loopedCfg (nodeIndex (nodeOrder [16, 32])) .directed)
        = moranI (fun i => ((i : ℕ) : ℚ))
          (buildAcfgAdjacency Demo.loopedCfg (nodeIndex (nodeOrder [16, 32])) .undirected) := by
  have hone : ∀ u ∈ [16, 32], ∀ v ∈ [16, 32], u ≠ v → Edge Demo.loopedCfg u v →
      ¬ Edge Demo.loopedCfg v u := by decide
  exact ⟨hone, moran_i_symmetrized hone _⟩

end Bofuzz.Extractor
