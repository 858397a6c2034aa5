import Bofuzz.Tpe
import Bofuzz.Lib.Rank

/-! The split of the trials into good and bad ones (`feature_sched/tpe.rs`).

    The threshold is read from a sorted copy of the history, the `k`-th largest reward, and the
    history itself is split at it. -/

namespace Bofuzz
open F64 Rank List

variable {F : Type} [F64 F]

/-- The number of trials that the split aims at: the share `gamma` of them, a product of doubles,
    rounded up. -/
def goodCount (n : ℕ) (gamma : F) : ℕ := min (max (ceilNat (ofNat n * gamma)) 1) n

/-- The rewards of the trials are the doubles of exact numbers and compare as these do. -/
def Rewards (trials : List (TpeTrial F)) (reward : TpeTrial F → ℚ) : Prop :=
  ∀ t ∈ trials, ∀ u ∈ trials, F64.lt t.reward u.reward = decide (reward t < reward u) ∧
    F64.le t.reward u.reward = decide (reward t ≤ reward u)

variable {reward : TpeTrial F → ℚ} {trials : List (TpeTrial F)}

theorem Rewards.partialCmp (h : Rewards trials reward) {t u : TpeTrial F} (ht : t ∈ trials)
    (hu : u ∈ trials) : (partialCmp t.reward u.reward).getD .eq ≠ .gt ↔ reward t ≤ reward u := by
  rw [F64.partialCmp, (h t ht u hu).1, (h u hu t ht).1, (h t ht u hu).2]
  rcases lt_trichotomy (reward t) (reward u) with hlt | heq | hgt
  · simp [hlt, hlt.le]
  · simp [heq]
  · simp [hgt, hgt.not_gt, hgt.not_ge]

/-- The threshold of the split is the `k`-th largest reward. -/
theorem sorted_kthLargest (hrewards : Rewards trials reward) {k : ℕ} (hk : 1 ≤ k)
    (hkn : k ≤ trials.length) : ∃ t ∈ trials, (trials.insertionSort
        fun a b => (partialCmp b.reward a.reward).getD .eq ≠ .gt)[k - 1]? = some t ∧
      IsKthLargest (trials.map reward) k (reward t) := by
  set sorted := trials.insertionSort fun a b => (partialCmp b.reward a.reward).getD .eq ≠ .gt with hs
  have hperm : sorted.Perm trials := perm_insertionSort _ _
  have hmap : sorted.map reward = (trials.map reward).insertionSort (· ≥ ·) := by
    refine map_insertionSort _ _ _ _ fun a ha b hb => ?_
    exact hrewards.partialCmp hb ha
  have hlt : k - 1 < sorted.length := by
    rw [hperm.length_eq]
    omega
  -- the sorted copy around place `k`
  obtain ⟨above, t, below, hsplit, hlen⟩ : ∃ above t below, sorted = above ++ t :: below ∧
      above.length = k - 1 := by
    refine ⟨sorted.take (k - 1), sorted.get ⟨k - 1, hlt⟩, sorted.drop (k - 1 + 1), ?_, ?_⟩
    · rw [get_eq_getElem, ← drop_eq_getElem_cons hlt, take_append_drop]
    · rw [length_take, min_eq_left hlt.le]
  have hmem : t ∈ trials := hperm.mem_iff.mp (by simp [hsplit])
  refine ⟨t, hmem, by simp [hsplit, ← hlen], ?_⟩
  have hdown : (sorted.map reward).Pairwise (· ≥ ·) := hmap ▸ pairwise_insertionSort _ _
  rw [hsplit, map_append, map_cons] at hdown
  have hkth := isKthLargest_of_sorted hdown
  rw [← map_cons, ← map_append, ← hsplit, length_map, hlen, Nat.sub_add_cancel hk] at hkth
  exact hkth.perm (hperm.map reward)

theorem splitGoodBad_eq {opt : TpeOptimizer F} (hrewards : Rewards opt.state.trials reward)
    (htrials : opt.state.trials ≠ []) : ∃ θ, IsKthLargest (opt.state.trials.map reward)
        (goodCount opt.state.trials.length opt.params.gamma) θ ∧
      opt.splitGoodBad = if opt.state.trials.length < max opt.params.trialsThreshold 2 ∨
          ∀ t ∈ opt.state.trials, θ ≤ reward t then none
        else some ((opt.state.trials.filter (θ ≤ reward ·)).map (·.vector),
          (opt.state.trials.filter (reward · < θ)).map (·.vector)) := by
  have hpos : 0 < opt.state.trials.length := length_pos_iff.mpr htrials
  have hone : 1 ≤ goodCount opt.state.trials.length opt.params.gamma :=
    le_min (le_max_right _ 1) hpos
  obtain ⟨t, ht, hget, hkth⟩ := sorted_kthLargest hrewards hone (min_le_right _ _)
  refine ⟨reward t, hkth, ?_⟩
  have hgood : (opt.state.trials.filter fun u => F64.le t.reward u.reward)
      = opt.state.trials.filter (reward t ≤ reward ·) := by
    refine filter_congr fun u hu => ?_
    exact (hrewards t ht u hu).2
  have hbad : (opt.state.trials.filter fun u => !F64.le t.reward u.reward)
      = opt.state.trials.filter (reward · < reward t) := by
    refine filter_congr fun u hu => ?_
    rw [(hrewards t ht u hu).2, ← decide_not, decide_eq_decide, not_le]
  have hsome : (opt.state.trials.filter (reward t ≤ reward ·)).map (·.vector) ≠ [] := by
    rw [Ne, map_eq_nil_iff]
    exact ne_nil_of_mem (mem_filter.mpr ⟨ht, by simp⟩)
  have hnone : (opt.state.trials.filter (reward · < reward t)).map (·.vector) = []
      ↔ ∀ u ∈ opt.state.trials, reward t ≤ reward u := by
    simp
  unfold goodCount at hget
  unfold TpeOptimizer.splitGoodBad
  simp only [hget, hgood, hbad, hsome, hnone, false_or]
  by_cases hfew : opt.state.trials.length < max opt.params.trialsThreshold 2
  · rw [if_pos hfew, if_pos (.inl hfew)]
  · rw [if_neg hfew]
    exact if_congr (or_iff_right hfew).symm rfl rfl

/-- The split of a history. It is refused if there are too few trials or none is below the `k`-th
    largest reward `θ`. Otherwise it takes the history apart, in its order: every good reward is
    larger than every bad one, there are `k` good trials, but fewer than `k` without those tied with
    `θ`. -/
theorem good_bad_split {opt : TpeOptimizer F} {reward : TpeTrial F → ℚ}
    (htrials : opt.state.trials ≠ []) (hrewards : Rewards opt.state.trials reward) :
    let trials := opt.state.trials
    let k := min (max (ceilNat (ofNat trials.length * opt.params.gamma)) 1) trials.length
    ∃ θ, (∀ θ', IsKthLargest (trials.map reward) k θ' ↔ θ' = θ) ∧
      (opt.splitGoodBad = none ↔ trials.length < max opt.params.trialsThreshold 2 ∨
        ∀ t ∈ trials, θ ≤ reward t) ∧
      ∀ good bad, opt.splitGoodBad = some (good, bad) →
        ∃ goodTrials badTrials : List (TpeTrial F),
          good = goodTrials.map (·.vector) ∧ bad = badTrials.map (·.vector) ∧
          goodTrials.Sublist trials ∧ badTrials.Sublist trials ∧
          (goodTrials ++ badTrials).Perm trials ∧
          (∀ g ∈ goodTrials, ∀ b ∈ badTrials, reward b < reward g) ∧
          k ≤ goodTrials.length ∧ (goodTrials.filter (reward · ≠ θ)).length < k := by
  intro trials k
  obtain ⟨θ, hkth, heq⟩ := splitGoodBad_eq hrewards htrials
  refine ⟨θ, fun θ' => ⟨fun h => h.unique hkth, fun h => h ▸ hkth⟩, ?_, ?_⟩
  · rw [heq, ite_eq_left_iff]
    simp only [reduceCtorEq, imp_false, not_not]
    rfl
  · intro good bad hsplit
    rw [heq, Option.ite_none_left_eq_some, Option.some.injEq, Prod.mk.injEq] at hsplit
    obtain ⟨-, rfl, rfl⟩ := hsplit
    refine ⟨_, _, rfl, rfl, filter_sublist, filter_sublist, ?_, ?_, ?_, ?_⟩
    · have hbad : (fun t => decide (reward t < θ)) = fun t => !decide (θ ≤ reward t) := by
        funext t
        rw [← decide_not, decide_eq_decide, not_le]
      rw [hbad]
      exact filter_append_perm _ _
    · intro g hg b hb
      have hge : θ ≤ reward g := by simpa using (mem_filter.mp hg).2
      have hlt : reward b < θ := by simpa using (mem_filter.mp hb).2
      exact hlt.trans_le hge
    · have hcount := hkth.2.1
      rw [countP_map, countP_eq_length_filter] at hcount
      exact hcount
    · have hcount := hkth.2.2
      rw [countP_map, countP_eq_length_filter] at hcount
      rw [filter_filter]
      refine lt_of_eq_of_lt (congrArg List.length (filter_congr fun t _ => ?_)) hcount
      rw [Function.comp_apply, ← Bool.decide_and, decide_eq_decide, and_comm, lt_iff_le_and_ne]
      exact and_congr_right fun _ => ne_comm

namespace Demo

/-- Three trials, two of them tied. -/
def tiedTrials : TpeOptimizer Exact where
  params := { gamma := .fin (1 / 2), samples := 1, bw := .fin 1, period := 1, trialsThreshold := 2,
              reTpeThreshold := 1 }
  state :=
    { trials := [{ iteration := 0, vector := [.fin 1], reward := .fin 2, activeStartMs := 0, activeEndMs := 1 },
        { iteration := 1, vector := [.fin 0], reward := .fin 1, activeStartMs := 1, activeEndMs := 2 },
        { iteration := 2, vector := [.fin 2], reward := .fin 2, activeStartMs := 2, activeEndMs := 3 }] }

/-- The reward of an exact trial. -/
def exactReward (t : TpeTrial Exact) : ℚ :=
  match t.reward with
  | .fin q => q
  | _ => 0

end Demo

theorem good_bad_split_demo : ∃ (good bad : List (List Exact)) (goodTrials : List (TpeTrial Exact)),
    Demo.tiedTrials.splitGoodBad = some (good, bad) ∧ good = goodTrials.map (·.vector) ∧
    goodTrials.Sublist Demo.tiedTrials.state.trials ∧ 2 ≤ goodTrials.length := by
  have hrewards : Rewards Demo.tiedTrials.state.trials Demo.exactReward := by
    simp [Rewards, Demo.tiedTrials, Demo.exactReward, F64.lt, F64.le, Exact.lt, Exact.le]
  obtain ⟨θ, -, -, hsplit⟩ := good_bad_split (by simp [Demo.tiedTrials]) hrewards
  obtain ⟨⟨good, bad⟩, hsome⟩ := Option.isSome_iff_exists.mp
    (show Demo.tiedTrials.splitGoodBad.isSome = true by decide +kernel)
  obtain ⟨goodTrials, badTrials, hgood, -, hsub, -, -, -, hcount, -⟩ := hsplit good bad hsome
  have hk : 2 ≤ min (max (ceilNat (ofNat Demo.tiedTrials.state.trials.length *
      Demo.tiedTrials.params.gamma)) 1) Demo.tiedTrials.state.trials.length := by
    decide +kernel
  exact ⟨good, bad, goodTrials, hsome, hgood, hsub, hk.trans hcount⟩

end Bofuzz
