import Mathlib.Algebra.BigOperators.Field
import Mathlib.Algebra.Order.BigOperators.Group.Finset
import Mathlib.Tactic.FieldSimp
import Mathlib.Tactic.Ring

/-! Counting the paths of a finite graded graph.

    A path is the list of its vertices. `walks k a b` counts the paths of `k` steps by their first
    step, and just as well by their last (`walks_succ_last`). In a graded graph, where every step
    goes up by one level, a path meets a vertex at one place only, so that the paths through a
    vertex are counted by a product (`card_through`). `dependency` adds up, over all ends, the share
    of the paths from a source that go through a vertex; `dependency_rec` computes it from the
    vertices one level above. -/

namespace PathCount
open List hiding mem_filter filter_map
open Finset hiding mem_singleton

variable {V : Type*} {T : V → V → Prop} {k i j : ℕ} {a b c v w : V} {p : List V}

/-- A path of `k` steps from `a` to `b`. -/
structure IsPath (T : V → V → Prop) (k : ℕ) (a b : V) (p : List V) : Prop where
  chain : p.IsChain T
  head : p.head? = some a
  last : p.getLast? = some b
  length : p.length = k + 1

theorem isPath_zero : IsPath T 0 a b p ↔ a = b ∧ p = [a] := by
  constructor
  · rintro ⟨-, hhead, hlast, hlength⟩
    obtain ⟨x, rfl⟩ := length_eq_one_iff.mp hlength
    cases hhead
    cases hlast
    exact ⟨rfl, rfl⟩
  · rintro ⟨rfl, rfl⟩
    exact ⟨.singleton a, rfl, rfl, rfl⟩

theorem isPath_succ : IsPath T (k + 1) a b p ↔ ∃ c q, T a c ∧ IsPath T k c b q ∧ p = a :: q := by
  constructor
  · rintro ⟨hchain, hhead, hlast, hlength⟩
    obtain _ | ⟨x, _ | ⟨c, q⟩⟩ := p
    · cases hhead
    · simp at hlength
    · cases hhead
      rw [isChain_cons_cons] at hchain
      refine ⟨c, c :: q, hchain.1, ⟨hchain.2, rfl, ?_, ?_⟩, rfl⟩
      · rwa [getLast?_cons_cons] at hlast
      · simpa using hlength
  · rintro ⟨c, q, hstep, ⟨hchain, hhead, hlast, hlength⟩, rfl⟩
    obtain ⟨x, rest, rfl⟩ := exists_cons_of_ne_nil (l := q) (by rintro rfl; cases hhead)
    cases hhead
    refine ⟨isChain_cons_cons.mpr ⟨hstep, hchain⟩, rfl, ?_, ?_⟩
    · rwa [getLast?_cons_cons]
    · simpa using hlength

theorem IsPath.imp {T' : V → V → Prop} (h : IsPath T k a b p) (himp : ∀ u v, T u v → T' u v) :
    IsPath T' k a b p :=
  ⟨h.chain.imp himp, h.head, h.last, h.length⟩

theorem IsPath.concat (h : IsPath T k a b p) (hstep : T b c) : IsPath T (k + 1) a c (p ++ [c]) := by
  induction k generalizing a p with
  | zero =>
    obtain ⟨rfl, rfl⟩ := isPath_zero.mp h
    exact isPath_succ.mpr ⟨c, [c], hstep, isPath_zero.mpr ⟨rfl, rfl⟩, rfl⟩
  | succ k ih =>
    obtain ⟨d, q, hfirst, hq, rfl⟩ := isPath_succ.mp h
    exact isPath_succ.mpr ⟨d, q ++ [c], hfirst, ih hq, rfl⟩

theorem IsPath.mem_cases (h : IsPath T k a b p) {x : V} (hx : x ∈ p) : x = a ∨ ∃ u, T u x := by
  induction k generalizing a p with
  | zero =>
    obtain ⟨-, rfl⟩ := isPath_zero.mp h
    exact .inl (mem_singleton.mp hx)
  | succ k ih =>
    obtain ⟨c, q, hstep, hq, rfl⟩ := isPath_succ.mp h
    obtain rfl | hx := mem_cons.mp hx
    · exact .inl rfl
    · obtain rfl | hu := ih hq hx
      · exact .inr ⟨a, hstep⟩
      · exact .inr hu

/-! ### Counting -/

section
variable [DecidableEq V] (T) [DecidableRel T] (U : Finset V)

/-- The paths of `k` steps. -/
def paths : ℕ → V → V → Finset (List V)
  | 0, a, b => if a = b then {[a]} else ∅
  | k + 1, a, b => (U.filter (T a)).biUnion fun c =>
      (paths k c b).map ⟨List.cons a, List.cons_injective⟩

/-- The number of paths of `k` steps, by the first step. -/
def walks : ℕ → V → V → ℕ
  | 0, a, b => if a = b then 1 else 0
  | k + 1, a, b => ∑ c ∈ U.filter (T a), walks k c b

variable {T U}

theorem isPath_of_mem_paths : p ∈ paths T U k a b → IsPath T k a b p := by
  induction k generalizing a p with
  | zero =>
    intro h
    rw [paths] at h
    split_ifs at h with hab
    · exact isPath_zero.mpr ⟨hab, Finset.mem_singleton.mp h⟩
    · exact absurd h (notMem_empty p)
  | succ k ih =>
    intro h
    rw [paths, mem_biUnion] at h
    obtain ⟨c, hc, hp⟩ := h
    obtain ⟨q, hq, rfl⟩ := mem_map.mp hp
    exact isPath_succ.mpr ⟨c, q, (mem_filter.mp hc).2, ih hq, rfl⟩

theorem mem_paths (hU : ∀ u v, T u v → v ∈ U) : p ∈ paths T U k a b ↔ IsPath T k a b p := by
  refine ⟨isPath_of_mem_paths, ?_⟩
  induction k generalizing a p with
  | zero =>
    intro h
    obtain ⟨rfl, rfl⟩ := isPath_zero.mp h
    simp [paths]
  | succ k ih =>
    intro h
    obtain ⟨c, q, hstep, hq, rfl⟩ := isPath_succ.mp h
    rw [paths, mem_biUnion]
    exact ⟨c, mem_filter.mpr ⟨hU a c hstep, hstep⟩, mem_map.mpr ⟨q, ih hq, rfl⟩⟩

theorem paths_disjoint {s : V → Finset (List V)} (hs : ∀ c p, p ∈ s c → p ∈ paths T U k c b) :
    ((U.filter (T a) : Finset V) : Set V).PairwiseDisjoint fun c =>
      (s c).map ⟨cons a, cons_injective⟩ := by
  intro c _ d _ hcd
  refine disjoint_left.mpr fun p hp hp' => hcd ?_
  obtain ⟨q, hq, rfl⟩ := mem_map.mp hp
  obtain ⟨q', hq', heq⟩ := mem_map.mp hp'
  obtain rfl : q' = q := cons_injective heq
  have hc := (isPath_of_mem_paths (hs c q' hq)).head
  have hd := (isPath_of_mem_paths (hs d q' hq')).head
  rw [hc] at hd
  exact Option.some.inj hd

theorem card_paths : (paths T U k a b).card = walks T U k a b := by
  induction k generalizing a with
  | zero =>
    rw [paths, walks]
    split_ifs <;> rfl
  | succ k ih =>
    rw [paths, walks, card_biUnion (paths_disjoint fun c p hp => hp)]
    exact sum_congr rfl fun c _ => (card_map _).trans ih

theorem walks_succ_last (ha : a ∈ U) (hb : b ∈ U) :
    walks T U (k + 1) a b = ∑ c ∈ U.filter (T · b), walks T U k a c := by
  induction k generalizing a with
  | zero =>
    simp only [walks, sum_ite_eq, sum_ite_eq', mem_filter, ha, hb, true_and]
  | succ k ih =>
    calc walks T U (k + 2) a b
        = ∑ c ∈ U.filter (T a), ∑ d ∈ U.filter (T · b), walks T U k c d :=
          sum_congr rfl fun c hc => ih (mem_filter.mp hc).1
      _ = ∑ d ∈ U.filter (T · b), ∑ c ∈ U.filter (T a), walks T U k c d := sum_comm
      _ = ∑ d ∈ U.filter (T · b), walks T U (k + 1) a d := rfl

/-! ### Graded graphs -/

variable {level : V → ℕ} (hgraded : ∀ u v, T u v → level v = level u + 1)
include hgraded

omit [DecidableEq V] [DecidableRel T] in
/-- The first vertex of a path is alone on its level. -/
theorem IsPath.level_mem (h : IsPath T k a b p) {x : V} (hx : x ∈ p) :
    x = a ∨ (level a < level x ∧ level x ≤ level a + k) := by
  induction k generalizing a p with
  | zero =>
    obtain ⟨-, rfl⟩ := isPath_zero.mp h
    exact .inl (mem_singleton.mp hx)
  | succ k ih =>
    obtain ⟨c, q, hstep, hq, rfl⟩ := isPath_succ.mp h
    have hc := hgraded a c hstep
    obtain rfl | hx := mem_cons.mp hx
    · exact .inl rfl
    · obtain rfl | hlevel := ih hq hx
      · exact .inr (by omega)
      · exact .inr (by omega)

/-- The paths through a vertex go up to it and on from it. -/
theorem card_through (hw : level w = level a + i) :
    ((paths T U (i + j) a b).filter (w ∈ ·)).card = walks T U i a w * walks T U j w b := by
  induction i generalizing a with
  | zero =>
    rw [Nat.zero_add, walks]
    split_ifs with haw
    · subst haw
      have hall : (paths T U j a b).filter (a ∈ ·) = paths T U j a b := by
        refine filter_true_of_mem fun p hp => ?_
        exact mem_of_mem_head? (isPath_of_mem_paths hp).head
      rw [hall, card_paths, one_mul]
    · rw [zero_mul, card_eq_zero, filter_eq_empty_iff]
      intro p hp hmem
      obtain rfl | hlevel := (isPath_of_mem_paths hp).level_mem hgraded hmem
      · exact haw rfl
      · omega
  | succ i ih =>
    have hfilter : ∀ c, T a c → ((paths T U (i + j) c b).map ⟨cons a, cons_injective⟩).filter (w ∈ ·) =
        ((paths T U (i + j) c b).filter (w ∈ ·)).map ⟨cons a, cons_injective⟩ := by
      intro c _
      have hne : w ≠ a := by
        rintro rfl
        omega
      rw [filter_map]
      congr 1
      refine filter_congr fun p _ => ?_
      exact mem_cons.trans (or_iff_right hne)
    have hindex : i + 1 + j = i + j + 1 := by omega
    rw [hindex, paths, filter_biUnion]
    have hcongr : ((U.filter (T a)).biUnion fun c =>
          ((paths T U (i + j) c b).map ⟨cons a, cons_injective⟩).filter (w ∈ ·)) =
        (U.filter (T a)).biUnion fun c =>
          ((paths T U (i + j) c b).filter (w ∈ ·)).map ⟨cons a, cons_injective⟩ :=
      biUnion_congr rfl fun c hc => hfilter c (mem_filter.mp hc).2
    rw [hcongr, card_biUnion (paths_disjoint fun c p hp => (mem_filter.mp hp).1), walks,
      sum_mul]
    refine sum_congr rfl fun c hc => ?_
    have hc' := hgraded a c (mem_filter.mp hc).2
    rw [card_map, ih (by omega)]

end

/-! ### Paths from a source -/

/-- A graph in layers: what is not the source has a predecessor one level below. -/
structure Layered (T : V → V → Prop) (U : Finset V) (level : V → ℕ) (s : V) : Prop where
  source : s ∈ U
  level_source : level s = 0
  graded : ∀ u v, T u v → level v = level u + 1
  mem : ∀ u v, T u v → u ∈ U ∧ v ∈ U
  pred : ∀ v ∈ U, v ≠ s → ∃ u, T u v

section
variable [DecidableEq V] (T) [DecidableRel T] (U : Finset V) (level : V → ℕ) (s : V)

/-- The number of paths from the source. -/
def sigma (v : V) : ℕ := walks T U (level v) s v

/-- The number of paths from a vertex on. -/
def onward (v t : V) : ℕ := if level v ≤ level t then walks T U (level t - level v) v t else 0

/-- The share of the paths from the source that go through a vertex, over all their ends but the
    vertex itself. -/
def dependency (K : Type*) [Field K] (v : V) : K :=
  ∑ t ∈ U.erase v, sigma T U level s v * onward T U level v t / sigma T U level s t

variable {T U level s} (h : Layered T U level s)
include h

omit [DecidableEq V] [DecidableRel T] in
theorem Layered.level_ne_zero (hv : v ∈ U) (hne : v ≠ s) : level v ≠ 0 := by
  obtain ⟨u, hu⟩ := h.pred v hv hne
  rw [h.graded u v hu]
  exact Nat.succ_ne_zero _

theorem Layered.sigma_source : sigma T U level s s = 1 := by
  rw [sigma, h.level_source, walks, if_pos rfl]

theorem Layered.sigma_rec (hv : v ∈ U) (hne : v ≠ s) :
    sigma T U level s v = ∑ u ∈ U.filter (T · v), sigma T U level s u := by
  obtain ⟨k, hk⟩ := Nat.exists_eq_succ_of_ne_zero (h.level_ne_zero hv hne)
  rw [sigma, hk, walks_succ_last h.source hv]
  refine sum_congr rfl fun u hu => ?_
  have hlevel := h.graded u v (mem_filter.mp hu).2
  rw [sigma, show level u = k by omega]

theorem Layered.sigma_pos (hv : v ∈ U) : 0 < sigma T U level s v := by
  induction hk : level v generalizing v with
  | zero =>
    by_cases hne : v = s
    · rw [hne, h.sigma_source]
      exact Nat.one_pos
    · exact absurd hk (h.level_ne_zero hv hne)
  | succ k ih =>
    have hne : v ≠ s := by
      rintro rfl
      rw [h.level_source] at hk
      cases hk
    obtain ⟨u, hu⟩ := h.pred v hv hne
    have hlevel := h.graded u v hu
    have huU := (h.mem u v hu).1
    rw [h.sigma_rec hv hne]
    exact sum_pos' (fun _ _ => Nat.zero_le _)
      ⟨u, mem_filter.mpr ⟨huU, hu⟩, ih huU (by omega)⟩

omit h in
theorem onward_self : onward T U level v v = 1 := by
  rw [onward, if_pos le_rfl, Nat.sub_self, walks, if_pos rfl]

omit h in
theorem onward_eq_zero {t : V} (hlt : level t < level v) : onward T U level v t = 0 := by
  rw [onward, if_neg (not_le.mpr hlt)]

theorem Layered.onward_rec {t : V} (hne : v ≠ t) :
    onward T U level v t = ∑ w ∈ U.filter (T v), onward T U level w t := by
  have hup : ∀ w ∈ U.filter (T v), level w = level v + 1 := fun w hw =>
    h.graded v w (mem_filter.mp hw).2
  obtain hlt | hle := Nat.lt_or_ge (level v) (level t)
  · obtain ⟨k, hk⟩ := Nat.exists_eq_add_of_lt hlt
    rw [onward, if_pos hlt.le, show level t - level v = k + 1 by omega, walks]
    refine sum_congr rfl fun w hw => ?_
    have hw' := hup w hw
    rw [onward, if_pos (by omega), show level t - level w = k by omega]
  · have hzero : onward T U level v t = 0 := by
      rw [onward]
      split_ifs with hle'
      · rw [show level t - level v = 0 by omega, walks, if_neg hne]
      · rfl
    rw [hzero]
    refine (sum_eq_zero fun w hw => onward_eq_zero ?_).symm
    have hw' := hup w hw
    omega

theorem Layered.card_through {t : V} : ((paths T U (level t) s t).filter (v ∈ ·)).card =
    if level v ≤ level t then sigma T U level s v * onward T U level v t else 0 := by
  split_ifs with hle
  · obtain ⟨j, hj⟩ := Nat.exists_eq_add_of_le hle
    rw [hj, PathCount.card_through h.graded (by rw [h.level_source, Nat.zero_add]), sigma, onward, if_pos hle,
      show level t - level v = j by omega]
  · rw [card_eq_zero, filter_eq_empty_iff]
    intro p hp hmem
    have hlevel := (isPath_of_mem_paths hp).level_mem h.graded hmem
    rw [h.level_source] at hlevel
    obtain rfl | hlevel := hlevel
    · rw [h.level_source] at hle
      omega
    · omega

theorem Layered.card_through_eq {t : V} : ((paths T U (level t) s t).filter (v ∈ ·)).card =
    sigma T U level s v * onward T U level v t := by
  rw [h.card_through]
  split_ifs with hle
  · rfl
  · rw [onward_eq_zero (not_le.mp hle), mul_zero]

variable {K : Type*} [Field K] [CharZero K]

theorem Layered.dependency_rec : dependency T U level s K v =
    ∑ w ∈ U.filter (T v), sigma T U level s v / sigma T U level s w * (1 + dependency T U level s K w) := by
  have hne : ∀ w ∈ U, (sigma T U level s w : K) ≠ 0 := fun w hw =>
    Nat.cast_ne_zero.mpr (h.sigma_pos hw).ne'
  -- all ends of the paths on from `w`, `w` itself among them
  have hends : ∀ w ∈ U.filter (T v), ∑ t ∈ U.erase v, (onward T U level w t : K) / sigma T U level s t =
      1 / sigma T U level s w * (1 + dependency T U level s K w) := by
    intro w hw
    obtain ⟨hwU, hstep⟩ := mem_filter.mp hw
    have hlevel := h.graded v w hstep
    have hzero : onward T U level w v = 0 := onward_eq_zero (by omega)
    calc ∑ t ∈ U.erase v, (onward T U level w t : K) / sigma T U level s t
        = ∑ t ∈ U, (onward T U level w t : K) / sigma T U level s t :=
          sum_erase _ (by rw [hzero, Nat.cast_zero, zero_div])
      _ = (onward T U level w w : K) / sigma T U level s w +
            ∑ t ∈ U.erase w, (onward T U level w t : K) / sigma T U level s t :=
          (add_sum_erase U _ hwU).symm
      _ = 1 / sigma T U level s w * (1 + dependency T U level s K w) := by
          rw [onward_self, Nat.cast_one, dependency, mul_add, mul_one, mul_sum]
          congr 1
          refine sum_congr rfl fun t _ => ?_
          have := hne w hwU
          field_simp
  calc dependency T U level s K v
      = ∑ t ∈ U.erase v, ∑ w ∈ U.filter (T v),
          (sigma T U level s v : K) * ((onward T U level w t : K) / sigma T U level s t) := by
        refine sum_congr rfl fun t ht => ?_
        rw [h.onward_rec (ne_of_mem_erase ht).symm, Nat.cast_sum, mul_sum, sum_div]
        exact sum_congr rfl fun w _ => mul_div_assoc _ _ _
    _ = ∑ w ∈ U.filter (T v), (sigma T U level s v : K) *
          ∑ t ∈ U.erase v, (onward T U level w t : K) / sigma T U level s t := by
        rw [sum_comm]
        exact sum_congr rfl fun w _ => (mul_sum _ _ _).symm
    _ = _ := by
        refine sum_congr rfl fun w hw => ?_
        rw [hends w hw]
        ring

end

end PathCount
