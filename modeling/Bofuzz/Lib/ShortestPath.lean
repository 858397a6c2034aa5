import Bofuzz.Lib.Distance
import Bofuzz.Lib.PathCount
import Mathlib.Data.Set.Card

/-! Shortest paths from a source, as paths of the graph in layers.

    An edge is tight if it goes to the next layer of distances. The shortest paths to a vertex are
    the paths of tight edges (`isShortestPath_iff`), so that what `PathCount` says of graphs in
    layers counts shortest paths (`dependency_eq`). -/

namespace ShortestPath
open Distance PathCount Relation Finset Set

variable {V : Type*} {R : V → V → Prop} {s t u v w : V} {d k : ℕ} {p : List V}

/-- The one source. -/
def Source (s : V) (_ : Unit) (v : V) : Prop := v = s

/-- The vertices that the source reaches. -/
def Reached (R : V → V → Prop) (s v : V) : Prop := ∃ d, Dist R (Source s) d v

noncomputable def level (R : V → V → Prop) (s v : V) : ℕ := depth R (Source s) v

/-- An edge on a shortest path. -/
def Tight (R : V → V → Prop) (s u v : V) : Prop :=
  R u v ∧ Reached R s u ∧ level R s v = level R s u + 1

theorem dist_source : Dist R (Source s) 0 v ↔ v = s := by
  rw [dist_zero]
  constructor
  · rintro ⟨_, hv⟩
    exact hv
  · exact fun hv => ⟨(), hv⟩

theorem Reached.dist (h : Reached R s v) : Dist R (Source s) (level R s v) v := by
  obtain ⟨d, hd⟩ := h
  rw [level, depth_eq hd]
  exact hd

theorem level_eq (h : Dist R (Source s) d v) : level R s v = d := depth_eq h

theorem level_source : level R s s = 0 := level_eq (dist_source.mpr rfl)

theorem reached_iff : Reached R s v ↔ ReflTransGen R s v := by
  constructor
  · rintro ⟨d, ⟨_, u, rfl, hwalk⟩, -⟩
    exact exists_walk_iff.mp ⟨d, hwalk⟩
  · intro h
    obtain ⟨d, hwalk⟩ := exists_walk_iff.mpr h
    obtain ⟨k, -, hk⟩ := exists_dist (S := Source s) (i := ()) ⟨s, rfl, hwalk⟩
    exact ⟨k, hk⟩

theorem Reached.tail (h : Reached R s u) (hstep : R u v) : Reached R s v :=
  reached_iff.mpr ((reached_iff.mp h).tail hstep)

/-- A step leads one layer further at most. -/
theorem Reached.level_le (h : Reached R s u) (hstep : R u v) : level R s v ≤ level R s u + 1 := by
  obtain ⟨i, hi⟩ := h.dist.1
  exact (h.tail hstep).dist.2 ⟨i, reaches_tail.mpr ⟨u, hi, hstep⟩⟩

/-! ### The graph of the tight edges -/

open Classical in
/-- What is reached of a finite graph. -/
noncomputable def reachedSet (R : V → V → Prop) (B : Finset V) (s : V) : Finset V :=
  B.filter (Reached R s)

theorem mem_reachedSet {B : Finset V} : v ∈ reachedSet R B s ↔ v ∈ B ∧ Reached R s v := by
  classical
  unfold reachedSet
  rw [mem_filter]

theorem layered {B : Finset V} (hs : s ∈ B) (hB : ∀ u v, R u v → u ∈ B ∧ v ∈ B) :
    Layered (Tight R s) (reachedSet R B s) (level R s) s where
  source := mem_reachedSet.mpr ⟨hs, 0, dist_source.mpr rfl⟩
  level_source := level_source
  graded u v h := h.2.2
  mem u v h := ⟨mem_reachedSet.mpr ⟨(hB u v h.1).1, h.2.1⟩, mem_reachedSet.mpr ⟨(hB u v h.1).2, h.2.1.tail h.1⟩⟩
  pred v hv hne := by
    have hdist := (mem_reachedSet.mp hv).2.dist
    cases hd : level R s v with
    | zero =>
      rw [hd] at hdist
      exact absurd (dist_source.mp hdist) hne
    | succ d =>
      rw [hd] at hdist
      obtain ⟨-, u, hu, hstep⟩ := dist_succ.mp hdist
      exact ⟨u, hstep, ⟨d, hu⟩, by rw [hd, level_eq hu]⟩

/-- A path from the source of least length. -/
def IsShortestPath (R : V → V → Prop) (s t : V) (p : List V) : Prop :=
  ∃ k, IsPath R k s t p ∧ ∀ j q, IsPath R j s t q → k ≤ j

theorem Reached.of_isPath (hu : Reached R s u) (h : IsPath R k u v p) :
    Reached R s v ∧ level R s v ≤ level R s u + k := by
  induction k generalizing u p with
  | zero =>
    obtain ⟨rfl, -⟩ := isPath_zero.mp h
    exact ⟨hu, le_rfl⟩
  | succ k ih =>
    obtain ⟨c, q, hstep, hq, -⟩ := isPath_succ.mp h
    obtain ⟨hv, hle⟩ := ih (hu.tail hstep) hq
    have hc := hu.level_le hstep
    exact ⟨hv, by omega⟩

/-- The steps of a path that is as long as the difference of the layers are tight. -/
theorem isPath_tight (hu : Reached R s u) (h : IsPath R k u v p)
    (hlevel : level R s v = level R s u + k) :
    IsPath (Tight R s) k u v p := by
  induction k generalizing u p with
  | zero => exact isPath_zero.mpr (isPath_zero.mp h)
  | succ k ih =>
    obtain ⟨c, q, hstep, hq, rfl⟩ := isPath_succ.mp h
    have hc := hu.level_le hstep
    have hv := ((hu.tail hstep).of_isPath hq).2
    have hnext : level R s c = level R s u + 1 := by omega
    exact isPath_succ.mpr ⟨c, q, ⟨hstep, hu, hnext⟩, ih (hu.tail hstep) hq (by omega), rfl⟩

theorem exists_isPath (h : Walk R s d v) : ∃ p, IsPath R d s v p := by
  induction h with
  | refl => exact ⟨[s], isPath_zero.mpr ⟨rfl, rfl⟩⟩
  | tail _ hstep ih =>
    obtain ⟨p, hp⟩ := ih
    exact ⟨_, hp.concat hstep⟩

/-- The shortest paths are those of tight edges. -/
theorem isShortestPath_iff (ht : Reached R s t) :
    IsShortestPath R s t p ↔ IsPath (Tight R s) (level R s t) s t p := by
  have hs : Reached R s s := ⟨0, dist_source.mpr rfl⟩
  have hleast : ∀ j q, IsPath R j s t q → level R s t ≤ j := by
    intro j q hq
    have hle := (hs.of_isPath hq).2
    rwa [level_source, Nat.zero_add] at hle
  constructor
  · rintro ⟨k, hp, hmin⟩
    obtain ⟨⟨_, u, rfl, hwalk⟩, -⟩ := ht.dist
    obtain ⟨q, hq⟩ := exists_isPath hwalk
    obtain rfl : k = level R u t := le_antisymm (hmin _ q hq) (hleast k p hp)
    exact isPath_tight hs hp (by rw [level_source, Nat.zero_add])
  · intro hp
    exact ⟨_, hp.imp fun a b h => h.1, hleast⟩

section
variable [DecidableEq V] {B : Finset V} {K : Type*} [Field K]

open Classical in
theorem setOf_isShortestPath (hB : ∀ u v, R u v → u ∈ B ∧ v ∈ B) (ht : Reached R s t) :
    {p | IsShortestPath R s t p} = paths (Tight R s) (reachedSet R B s) (level R s t) s t := by
  ext p
  rw [mem_ofPred_eq, isShortestPath_iff ht, mem_coe, mem_paths]
  intro u v h
  exact mem_reachedSet.mpr ⟨(hB u v h.1).2, h.2.1.tail h.1⟩

open Classical in
/-- The dependency of a vertex is the sum of its shares of the shortest paths to the other
    vertices. -/
theorem dependency_eq (hs : s ∈ B) (hB : ∀ u v, R u v → u ∈ B ∧ v ∈ B) (hw : w ≠ s) :
    dependency (Tight R s) (reachedSet R B s) (level R s) s K w =
      ∑ t ∈ ((reachedSet R B s).erase w).erase s,
        ({p | IsShortestPath R s t p ∧ w ∈ p}.ncard : K) / {p | IsShortestPath R s t p}.ncard := by
  have hlayered := layered (R := R) hs hB
  have hterm : ∀ t ∈ (reachedSet R B s).erase w,
      (sigma (Tight R s) (reachedSet R B s) (level R s) s w : K) *
          onward (Tight R s) (reachedSet R B s) (level R s) w t /
        sigma (Tight R s) (reachedSet R B s) (level R s) s t =
      ({p | IsShortestPath R s t p ∧ w ∈ p}.ncard : K) / {p | IsShortestPath R s t p}.ncard := by
    intro t ht
    have hset := setOf_isShortestPath hB (mem_reachedSet.mp (mem_of_mem_erase ht)).2
    have hthrough : {p | IsShortestPath R s t p ∧ w ∈ p} =
        ((paths (Tight R s) (reachedSet R B s) (level R s t) s t).filter (w ∈ ·) : Finset (List V)) := by
      ext p
      rw [coe_filter, mem_ofPred_eq, mem_ofPred_eq, ← mem_coe, ← hset]
      rfl
    rw [hthrough, hset, ncard_coe_finset, ncard_coe_finset, hlayered.card_through_eq, card_paths,
      Nat.cast_mul]
    rfl
  rw [dependency, sum_congr rfl hterm]
  refine (sum_erase _ ?_).symm
  -- the only path from the source to itself stays there
  have hnone : {p | IsShortestPath R s s p ∧ w ∈ p} = ∅ := by
    ext p
    rw [mem_ofPred_eq, isShortestPath_iff ⟨0, dist_source.mpr rfl⟩, level_source, isPath_zero]
    simp only [true_and, mem_empty_iff_false, iff_false, not_and]
    rintro rfl hmem
    exact hw (List.mem_singleton.mp hmem)
  rw [hnone, ncard_empty, Nat.cast_zero, zero_div]

end

end ShortestPath
