import Mathlib.Data.Finset.Card
import Mathlib.Data.Nat.Find
import Mathlib.Order.Bounds.Basic

/-! Distances from labelled sources in a directed graph.

    A graph is a relation `R` on its vertices; `S i u` says that the source labelled `i` sits at
    `u`. `Dist R S d v` is the least number of steps from any source to `v`, and the labels that
    reach `v` in that many steps are the nearest ones. What a layered search needs is in `dist_succ`
    (the vertices of the next layer) and `reaches_succ` (their nearest labels). -/

namespace Distance
open Relation Finset

variable {V ι : Type*} {R : V → V → Prop} {S : ι → V → Prop}

/-- A walk of the given length. -/
inductive Walk (R : V → V → Prop) (u : V) : ℕ → V → Prop
  | refl : Walk R u 0 u
  | tail {d : ℕ} {v w : V} : Walk R u d v → R v w → Walk R u (d + 1) w

theorem exists_walk_iff {u v : V} : (∃ d, Walk R u d v) ↔ ReflTransGen R u v := by
  constructor
  · rintro ⟨d, h⟩
    induction h with
    | refl => exact .refl
    | tail _ hstep ih => exact ih.tail hstep
  · intro h
    induction h with
    | refl => exact ⟨0, .refl⟩
    | tail _ hstep ih =>
      obtain ⟨d, hd⟩ := ih
      exact ⟨d + 1, hd.tail hstep⟩

/-- The source labelled `i` reaches `v` in `d` steps. -/
def Reaches (R : V → V → Prop) (S : ι → V → Prop) (d : ℕ) (i : ι) (v : V) : Prop :=
  ∃ u, S i u ∧ Walk R u d v

/-- `d` is the least number of steps from any source to `v`. -/
def Dist (R : V → V → Prop) (S : ι → V → Prop) (d : ℕ) (v : V) : Prop :=
  IsLeast {k | ∃ i, Reaches R S k i v} d

variable {v : V} {i : ι}

theorem reaches_zero : Reaches R S 0 i v ↔ S i v := by
  constructor
  · rintro ⟨u, hu, hwalk⟩
    cases hwalk
    exact hu
  · intro h
    exact ⟨v, h, .refl⟩

variable {d : ℕ}

theorem reaches_tail : Reaches R S (d + 1) i v ↔ ∃ u, Reaches R S d i u ∧ R u v := by
  constructor
  · rintro ⟨s, hs, hwalk⟩
    cases hwalk with
    | tail hwalk hstep => exact ⟨_, ⟨s, hs, hwalk⟩, hstep⟩
  · rintro ⟨u, ⟨s, hs, hwalk⟩, hstep⟩
    exact ⟨s, hs, hwalk.tail hstep⟩

theorem exists_dist (h : Reaches R S d i v) : ∃ k ≤ d, Dist R S k v := by
  classical
  have hex : ∃ k, ∃ i, Reaches R S k i v := ⟨d, i, h⟩
  exact ⟨Nat.find hex, Nat.find_min' hex ⟨i, h⟩, Nat.find_spec hex, fun k hk => Nat.find_min' hex hk⟩

theorem dist_unique {k : ℕ} (hd : Dist R S d v) (hk : Dist R S k v) : d = k :=
  hd.unique hk

theorem dist_zero : Dist R S 0 v ↔ ∃ i, S i v := by
  constructor
  · rintro ⟨⟨i, hi⟩, _⟩
    exact ⟨i, reaches_zero.mp hi⟩
  · rintro ⟨i, hi⟩
    exact ⟨⟨i, reaches_zero.mpr hi⟩, fun k _ => Nat.zero_le k⟩

open Classical in
/-- The distance, and zero for a vertex that no source reaches. -/
noncomputable def depth (R : V → V → Prop) (S : ι → V → Prop) (v : V) : ℕ :=
  if h : ∃ d, Dist R S d v then h.choose else 0

theorem depth_eq (h : Dist R S d v) : depth R S v = d := by
  have hex : ∃ d, Dist R S d v := ⟨d, h⟩
  rw [depth, dif_pos hex]
  exact dist_unique hex.choose_spec h

theorem depth_eq_zero (h : ∀ d, ¬ Dist R S d v) : depth R S v = 0 := by
  rw [depth, dif_neg (not_exists.mpr h)]

/-- A vertex with the same positive depth from other sources has the same distance. -/
theorem dist_of_depth_eq {κ : Type*} {T : κ → V → Prop} (h : depth R S v = depth R T v)
    (hd : Dist R S (d + 1) v) : Dist R T (d + 1) v := by
  rw [depth_eq hd] at h
  by_cases hT : ∃ k, Dist R T k v
  · obtain ⟨k, hk⟩ := hT
    rw [depth_eq hk] at h
    exact h ▸ hk
  · rw [depth_eq_zero (not_exists.mp hT)] at h
    cases h

theorem depth_congr {κ : Type*} {T : κ → V → Prop} (h : ∀ d, Dist R S d v ↔ Dist R T d v) :
    depth R S v = depth R T v := by
  by_cases hS : ∃ d, Dist R S d v
  · obtain ⟨d, hd⟩ := hS
    rw [depth_eq hd, depth_eq ((h d).mp hd)]
  · rw [depth_eq_zero (not_exists.mp hS), depth_eq_zero fun d hd => hS ⟨d, (h d).mpr hd⟩]

/-- A vertex one step before one at distance `d + 1` on a shortest walk is at distance `d`. -/
theorem dist_of_reaches {u : V} (hv : Dist R S (d + 1) v) (hu : Reaches R S d i u)
    (hstep : R u v) : Dist R S d u := by
  obtain ⟨k, hk, hdist⟩ := exists_dist hu
  obtain ⟨j, hj⟩ := hdist.1
  have hle : d + 1 ≤ k + 1 := hv.2 ⟨j, reaches_tail.mpr ⟨u, hj, hstep⟩⟩
  obtain rfl : k = d := by omega
  exact hdist

/-- The next layer: the successors of a layer that no earlier layer has. -/
theorem dist_succ : Dist R S (d + 1) v ↔ (∀ k ≤ d, ¬ Dist R S k v) ∧ ∃ u, Dist R S d u ∧ R u v := by
  constructor
  · intro hv
    obtain ⟨i, hi⟩ := hv.1
    obtain ⟨u, hu, hstep⟩ := reaches_tail.mp hi
    refine ⟨?_, u, dist_of_reaches hv hu hstep, hstep⟩
    intro k hk hdist
    have := dist_unique hdist hv
    omega
  · rintro ⟨hnone, u, hu, hstep⟩
    obtain ⟨i, hi⟩ := hu.1
    obtain ⟨k, hk, hdist⟩ := exists_dist (reaches_tail.mpr ⟨u, hi, hstep⟩)
    obtain rfl | hlt : k = d + 1 ∨ k ≤ d := by omega
    · exact hdist
    · exact absurd hdist (hnone k hlt)

theorem dist_lt_card (U : Finset V) (hS : ∀ i s, S i s → s ∈ U) (hR : ∀ u v, R u v → v ∈ U)
    (h : Dist R S d v) : d < U.card := by
  classical
  suffices hlayers : ∃ T ⊆ U, T.card = d + 1 ∧ ∀ u ∈ T, ∃ k ≤ d, Dist R S k u by
    obtain ⟨T, hTU, hcard, -⟩ := hlayers
    have hle := card_le_card hTU
    rw [hcard] at hle
    exact Nat.lt_of_succ_le hle
  induction d generalizing v with
  | zero =>
    obtain ⟨i, hi⟩ := dist_zero.mp h
    refine ⟨{v}, singleton_subset_iff.mpr (hS i v hi), card_singleton v, fun u hu => ?_⟩
    exact ⟨0, le_rfl, (mem_singleton.mp hu) ▸ h⟩
  | succ d ih =>
    obtain ⟨hnone, u, hu, hstep⟩ := dist_succ.mp h
    obtain ⟨T, hTU, hcard, hT⟩ := ih hu
    have hv : v ∉ T := by
      intro hv
      obtain ⟨k, hk, hdist⟩ := hT v hv
      exact hnone k hk hdist
    refine ⟨insert v T, insert_subset (hR u v hstep) hTU, ?_, fun w hw => ?_⟩
    · rw [card_insert_of_notMem hv, hcard]
    · rcases mem_insert.mp hw with rfl | hw
      · exact ⟨d + 1, le_rfl, h⟩
      · obtain ⟨k, hk, hdist⟩ := hT w hw
        exact ⟨k, Nat.le_succ_of_le hk, hdist⟩

/-- The nearest labels of a vertex of the next layer are those of its predecessors in the layer. -/
theorem reaches_succ (hv : Dist R S (d + 1) v) :
    Reaches R S (d + 1) i v ↔ ∃ u, Dist R S d u ∧ R u v ∧ Reaches R S d i u := by
  rw [reaches_tail]
  constructor
  · rintro ⟨u, hu, hstep⟩
    exact ⟨u, dist_of_reaches hv hu hstep, hstep, hu⟩
  · rintro ⟨u, _, hstep, hu⟩
    exact ⟨u, hu, hstep⟩

theorem no_dist_of_empty (h : ∀ v, ¬ Dist R S d v) : ∀ k ≥ d, ∀ v, ¬ Dist R S k v := by
  intro k hk
  induction k, hk using Nat.le_induction with
  | base => exact h
  | succ k _ ih =>
    intro v hv
    obtain ⟨_, u, hu, _⟩ := dist_succ.mp hv
    exact ih u hu

/-- The least label of a union of sets, each of which has a least one. -/
theorem isLeast_union_iff [PartialOrder ι] {T : V → Prop} {s : V → ι → Prop} {m : V → ι}
    (hm : ∀ u, T u → IsLeast {i | s u i} (m u)) {o : ι} :
    IsLeast {i | ∃ u, T u ∧ s u i} o ↔ IsLeast {i | ∃ u, T u ∧ m u = i} o := by
  constructor
  · rintro ⟨⟨u, hu, ho⟩, hlow⟩
    have heq : m u = o := le_antisymm ((hm u hu).2 ho) (hlow ⟨u, hu, (hm u hu).1⟩)
    refine ⟨⟨u, hu, heq⟩, ?_⟩
    rintro _ ⟨w, hw, rfl⟩
    exact hlow ⟨w, hw, (hm w hw).1⟩
  · rintro ⟨⟨u, hu, rfl⟩, hlow⟩
    refine ⟨⟨u, hu, (hm u hu).1⟩, ?_⟩
    rintro i ⟨w, hw, hi⟩
    exact (hlow ⟨w, hw, rfl⟩).trans ((hm w hw).2 hi)

end Distance
