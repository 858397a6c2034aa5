import Bofuzz.Extractor.Voronoi
import Bofuzz.Lib.Distance

/-! What the regions are (`static_analysis/features_extractor.py`).

    The search gives a node away when the layer of its distance is reached, to the smallest index
    among the owners of its predecessors in the layer before. `Searched` says that this is the
    smallest index among all seeds at that distance; every round keeps it. -/

namespace Bofuzz.Extractor
open Run Distance List
open Option hiding or_assoc

variable {n : ℕ} (seeds : List (Seed n)) (adj : Dict (Fin n) (List (Fin n)))

/-- A seed with the given index sits at the node. -/
def SeedAt (i : ℕ) (u : Fin n) : Prop :=
  ∃ seed ∈ seeds, seed.sancovIndex = i ∧ seed.nodeIndex = some u

/-- The seeds that reach a node in the given number of steps. -/
abbrev SeedReaches (d i : ℕ) (v : Fin n) : Prop := Reaches (Edge adj) (SeedAt seeds) d i v

/-- The least directed distance from any seed. -/
abbrev SeedDist (d : ℕ) (v : Fin n) : Prop := Dist (Edge adj) (SeedAt seeds) d v

theorem mem_seedPairs {seeds : List (Seed n)} {i : ℕ} {u : Fin n} :
    (i, u) ∈ seedPairs seeds ↔ SeedAt seeds i u := by
  unfold seedPairs SeedAt
  rw [mem_filterMap]
  constructor
  · rintro ⟨seed, hseed, hmap⟩
    obtain ⟨node, hnode, heq⟩ := map_eq_some_iff.mp hmap
    cases heq
    exact ⟨seed, hseed, rfl, hnode⟩
  · rintro ⟨seed, hseed, rfl, hnode⟩
    exact ⟨seed, hseed, by rw [hnode]; rfl⟩

theorem exists_isLeast_nat {P : ℕ → Prop} (h : ∃ i, P i) : ∃ o, IsLeast {i | P i} o := by
  classical
  exact ⟨Nat.find h, Nat.find_spec h, fun i hi => Nat.find_min' h hi⟩

/-! ### The seeds claim their nodes -/

/-- The state after the seeds `done` have claimed their nodes. -/
structure Claimed (s : Layers n) (done : ℕ × Fin n → Prop) : Prop where
  owner : ∀ v o, s.owner v = some o ↔ IsLeast {i | done (i, v)} o
  distance : ∀ v k, s.distance v = some k ↔ k = 0 ∧ ∃ i, done (i, v)
  layer : ∀ v, v ∈ s.currentLayer ↔ ∃ i, done (i, v)
  d : s.d = 0

variable {s : Layers n} {v : Fin n} {done : ℕ × Fin n → Prop}

theorem Claimed.owner_none (h : Claimed s done) : s.owner v = none ↔ ∀ i, ¬ done (i, v) := by
  constructor
  · intro hnone i hi
    obtain ⟨o, ho⟩ := exists_isLeast_nat (P := fun i => done (i, v)) ⟨i, hi⟩
    rw [(h.owner v o).mpr ho] at hnone
    cases hnone
  · intro hno
    rw [eq_none_iff_forall_ne_some]
    intro o ho
    exact hno o ((h.owner v o).mp ho).1

/-- A seed whose index is not below the earlier ones claims its node if it is free. -/
theorem Claimed.claimSeed (h : Claimed s done) {seed : ℕ × Fin n}
    (hle : ∀ p, done p → p.1 ≤ seed.1) : Claimed (claimSeed s seed) fun p => done p ∨ p = seed := by
  obtain ⟨j, u⟩ := seed
  unfold Extractor.claimSeed
  split_ifs with hsome
  · -- the node belongs to an earlier seed, whose index is not greater
    obtain ⟨o, ho⟩ := isSome_iff_exists.mp hsome
    have hleast := (h.owner u o).mp ho
    have hdone : ∀ v, (∃ i, done (i, v) ∨ (i, v) = (j, u)) ↔ ∃ i, done (i, v) := by
      intro v
      simp only [exists_or, Prod.mk.injEq, exists_eq_left, or_iff_left_iff_imp]
      rintro rfl
      exact ⟨o, hleast.1⟩
    refine ⟨fun v o' => ?_, fun v k => ?_, fun v => ?_, h.d⟩
    · rw [h.owner]
      by_cases hv : v = u
      · subst hv
        have hmin : IsLeast {i | done (i, v) ∨ (i, v) = (j, v)} o := by
          refine ⟨.inl hleast.1, ?_⟩
          rintro i (hi | hi)
          · exact hleast.2 hi
          · cases hi
            exact hle _ hleast.1
        rw [hleast.isLeast_iff_eq, hmin.isLeast_iff_eq]
      · simp [hv]
    · rw [h.distance, hdone]
    · rw [h.layer, hdone]
  · have hfree : ∀ i, ¬ done (i, u) := h.owner_none.mp (by simpa using hsome)
    refine ⟨fun v o => ?_, fun v k => ?_, fun v => ?_, h.d⟩
    · by_cases hv : v = u
      · subst hv
        have hset : {i | done (i, v) ∨ (i, v) = (j, v)} = {j} := by
          ext i
          simp [hfree i]
        rw [hset]
        simp only [Function.update_self, Option.some.injEq]
        exact isLeast_singleton.isLeast_iff_eq.symm
      · simp only [Function.update_of_ne hv, h.owner]
        simp [hv]
    · by_cases hv : v = u
      · subst hv
        simp [eq_comm]
      · simp only [Function.update_of_ne hv, h.distance]
        simp [hv]
    · simp only [mem_append, mem_singleton, h.layer, exists_or, Prod.mk.injEq, exists_eq_left]

theorem Claimed.foldl : ∀ (ps : List (ℕ × Fin n)) {s : Layers n} {done : ℕ × Fin n → Prop},
    Claimed s done → (∀ p, done p → ∀ q ∈ ps, p.1 ≤ q.1) → ps.Pairwise (fun a b => a.1 ≤ b.1) →
    Claimed (ps.foldl Extractor.claimSeed s) fun p => done p ∨ p ∈ ps
  | [], s, done, h, _, _ => by simpa using h
  | q :: ps, s, done, h, hle, hsorted => by
    have hq := h.claimSeed fun p hp => hle p hp q mem_cons_self
    have ih := Claimed.foldl ps hq (by
      rintro p (hp | rfl) r hr
      · exact hle p hp r (.tail _ hr)
      · exact rel_of_pairwise_cons hsorted hr) hsorted.of_cons
    simpa only [foldl_cons, mem_cons, or_assoc] using ih

theorem initLayers_claimed (seeds : List (Seed n)) :
    Claimed (initLayers seeds) fun p => SeedAt seeds p.1 p.2 := by
  have hstart : Claimed ({ owner := fun _ => none, distance := fun _ => none, currentLayer := []
                           d := 0 } : Layers n) fun _ => False :=
    ⟨by simp [IsLeast], by simp, by simp, rfl⟩
  have hsorted := (seedPairs seeds).pairwise_insertionSort fun a b => a.1 ≤ b.1
  have h := Claimed.foldl _ hstart (fun _ hp => hp.elim) hsorted
  have hset : (fun p => False ∨ p ∈ (seedPairs seeds).insertionSort fun a b => a.1 ≤ b.1)
      = fun p => SeedAt seeds p.1 p.2 := by
    funext p
    rw [false_or, mem_insertionSort, mem_seedPairs]
  rw [← hset]
  exact h

/-! ### A round -/

/-- `next` holds, for every free node, the smallest index that was offered. -/
def Lowest (s : Layers n) (next : Dict (Fin n) ℕ) (offered : ℕ × Fin n → Prop) : Prop :=
  ∀ w o, next.lookup w = some o ↔ s.owner w = none ∧ IsLeast {i | offered (i, w)} o

theorem lookup_offer_ne {next : Dict (Fin n) ℕ} {ou : ℕ} {w : Fin n} (hw : w ≠ v) :
    (offer s ou next v).lookup w = next.lookup w := by
  unfold offer
  split_ifs
  · rfl
  split
  · exact AList.lookup_insert_ne hw
  · split_ifs
    · exact AList.lookup_insert_ne hw
    · rfl

variable {offered : ℕ × Fin n → Prop}

theorem Lowest.offer {next : Dict (Fin n) ℕ} (h : Lowest s next offered)
    (ou : ℕ) (v : Fin n) : Lowest s (offer s ou next v) fun p => offered p ∨ p = (ou, v) := by
  intro w o
  by_cases hw : w = v
  swap
  · rw [lookup_offer_ne hw, h]
    simp [hw]
  · subst hw
    unfold Extractor.offer
    split_ifs with hsome
    · rw [h]
      have hne : s.owner w ≠ none := isSome_iff_ne_none.mp hsome
      simp [hne]
    · have hfree : s.owner w = none := by simpa using hsome
      have hset : {i | offered (i, w) ∨ (i, w) = (ou, w)} = insert ou {i | offered (i, w)} := by
        ext i
        simp [or_comm]
      rw [hset]
      simp only [hfree, true_and]
      split
      · next hnone =>
        have hempty : {i | offered (i, w)} = ∅ := by
          refine Set.eq_empty_iff_forall_notMem.mpr fun i hi => ?_
          obtain ⟨o, ho⟩ := exists_isLeast_nat (P := fun i => offered (i, w)) ⟨i, hi⟩
          rw [(h w o).mpr ⟨hfree, ho⟩] at hnone
          cases hnone
        rw [AList.lookup_insert, hempty, Option.some.injEq, insert_empty_eq]
        exact isLeast_singleton.isLeast_iff_eq.symm
      · next existing hexisting =>
        have hleast := ((h w existing).mp hexisting).2
        have hmin := isLeast_singleton (a := ou) |>.union hleast
        rw [Set.singleton_union] at hmin
        split_ifs with hlt
        · rw [min_eq_left hlt.le] at hmin
          rw [AList.lookup_insert, Option.some.injEq, hmin.isLeast_iff_eq]
        · rw [min_eq_right (not_lt.mp hlt)] at hmin
          rw [hexisting, Option.some.injEq, hmin.isLeast_iff_eq]

theorem Lowest.expand {next : Dict (Fin n) ℕ} (h : Lowest s next offered) (u : Fin n) :
    Lowest s (expand adj s next u) fun p =>
      offered p ∨ (s.owner u = some p.1 ∧ Edge adj u p.2) := by
  unfold Extractor.expand
  split
  · next hu => simpa [hu] using h
  · next ou hu =>
    have hfold := foldl_grow (R := Lowest s) (Q := fun v p => p = (ou, v))
      (fun _ _ v hs => hs.offer ou v) ((adj.lookup u).getD []) next offered h
    have hset : (fun p => offered p ∨ ∃ v ∈ (adj.lookup u).getD [], p = (ou, v))
        = fun p => offered p ∨ (s.owner u = some p.1 ∧ Edge adj u p.2) := by
      funext p
      simp only [mem_lookup_iff_edge, hu, Option.some.injEq, Prod.ext_iff, eq_iff_iff]
      constructor
      · rintro (hp | ⟨v, hv, h1, h2⟩)
        · exact .inl hp
        · exact .inr ⟨h1.symm, h2 ▸ hv⟩
      · rintro (hp | ⟨h1, hv⟩)
        · exact .inl hp
        · exact .inr ⟨p.2, hv, h1.symm, rfl⟩
    rw [← hset]
    exact hfold

/-- A free node goes to the smallest owner among its predecessors in the layer. -/
theorem nextLayerOwner_lowest (s : Layers n) :
    Lowest s (nextLayerOwner adj s) fun p =>
      ∃ u ∈ s.currentLayer, s.owner u = some p.1 ∧ Edge adj u p.2 := by
  have hstart : Lowest s ∅ fun _ => False := by
    intro w o
    simp [IsLeast]
  have h := foldl_grow (R := Lowest s)
    (Q := fun u (p : ℕ × Fin n) => s.owner u = some p.1 ∧ Edge adj u p.2)
    (fun _ _ u hs => hs.expand adj u) s.currentLayer ∅ _ hstart
  simpa only [false_or, nextLayerOwner] using h

/-! ### The search -/

/-- After `d` rounds the nodes up to distance `d` belong to the smallest of their nearest seeds,
    and the layer is what is at distance `d`. -/
structure Searched (s : Layers n) : Prop where
  owner : ∀ v o, s.owner v = some o ↔
    ∃ k ≤ s.d, SeedDist seeds adj k v ∧ IsLeast {i | SeedReaches seeds adj k i v} o
  distance : ∀ v k, s.distance v = some k ↔ k ≤ s.d ∧ SeedDist seeds adj k v
  layer : ∀ v, v ∈ s.currentLayer ↔ SeedDist seeds adj s.d v

theorem initLayers_searched : Searched seeds adj (initLayers seeds) := by
  have h := initLayers_claimed seeds
  refine ⟨fun v o => ?_, fun v k => ?_, fun v => ?_⟩
  · rw [h.owner, h.d]
    constructor
    · intro ho
      exact ⟨0, le_rfl, dist_zero.mpr ⟨o, ho.1⟩, by simpa only [reaches_zero] using ho⟩
    · rintro ⟨k, hk, _, ho⟩
      obtain rfl := Nat.le_zero.mp hk
      simpa only [reaches_zero] using ho
  · rw [h.distance, h.d, Nat.le_zero]
    refine and_congr_right ?_
    rintro rfl
    exact dist_zero.symm
  · rw [h.layer, h.d]
    exact dist_zero.symm

variable {seeds adj}

section
variable (h : Searched seeds adj s)
include h

theorem Searched.owner_none : s.owner v = none ↔ ∀ k ≤ s.d, ¬ SeedDist seeds adj k v := by
  rw [eq_none_iff_forall_ne_some]
  constructor
  · intro hnone k hk hdist
    obtain ⟨o, ho⟩ := exists_isLeast_nat hdist.1
    exact hnone o ((h.owner v o).mpr ⟨k, hk, hdist, ho⟩)
  · intro hnone o ho
    obtain ⟨k, hk, hdist, _⟩ := (h.owner v o).mp ho
    exact hnone k hk hdist

/-- What a round gives away: the nodes of the next layer, each to the smallest of its nearest
    seeds. -/
theorem Searched.next {o : ℕ} : (nextLayerOwner adj s).lookup v = some o ↔
      SeedDist seeds adj (s.d + 1) v ∧ IsLeast {i | SeedReaches seeds adj (s.d + 1) i v} o := by
  rw [nextLayerOwner_lowest adj s v o, h.owner_none]
  -- the owner of a node of the layer is the smallest of its nearest seeds
  have hmin : ∀ u, SeedDist seeds adj s.d u ∧ Edge adj u v →
      IsLeast {i | SeedReaches seeds adj s.d i u} ((s.owner u).getD 0) := by
    rintro u ⟨hu, _⟩
    obtain ⟨m, hm⟩ := exists_isLeast_nat hu.1
    rw [(h.owner u m).mpr ⟨s.d, le_rfl, hu, hm⟩]
    exact hm
  have howner : ∀ {u i}, SeedDist seeds adj s.d u → (s.owner u = some i ↔ (s.owner u).getD 0 = i) := by
    intro u i hu
    obtain ⟨m, hm⟩ := exists_isLeast_nat hu.1
    rw [(h.owner u m).mpr ⟨s.d, le_rfl, hu, hm⟩, Option.some.injEq, getD_some]
  have hoffers : {i | ∃ u ∈ s.currentLayer, s.owner u = some i ∧ Edge adj u v}
      = {i | ∃ u, (SeedDist seeds adj s.d u ∧ Edge adj u v) ∧ (s.owner u).getD 0 = i} := by
    ext i
    constructor
    · rintro ⟨u, hu, hi, hedge⟩
      have hu := (h.layer u).mp hu
      exact ⟨u, ⟨hu, hedge⟩, (howner hu).mp hi⟩
    · rintro ⟨u, ⟨hu, hedge⟩, hi⟩
      exact ⟨u, (h.layer u).mpr hu, (howner hu).mpr hi, hedge⟩
  simp only [hoffers]
  rw [← isLeast_union_iff hmin]
  constructor
  · rintro ⟨hnone, ho⟩
    obtain ⟨u, ⟨hu, hedge⟩, _⟩ := ho.1
    have hv : SeedDist seeds adj (s.d + 1) v := dist_succ.mpr ⟨hnone, u, hu, hedge⟩
    refine ⟨hv, ?_⟩
    simpa only [reaches_succ hv, and_assoc] using ho
  · rintro ⟨hv, ho⟩
    refine ⟨(dist_succ.mp hv).1, ?_⟩
    simpa only [reaches_succ hv, and_assoc] using ho

theorem Searched.next_isSome :
    ((nextLayerOwner adj s).lookup v).isSome ↔ SeedDist seeds adj (s.d + 1) v := by
  rw [isSome_iff_exists]
  constructor
  · rintro ⟨o, ho⟩
    exact (h.next.mp ho).1
  · intro hv
    obtain ⟨o, ho⟩ := exists_isLeast_nat hv.1
    exact ⟨o, h.next.mpr ⟨hv, ho⟩⟩

theorem Searched.advance : Searched seeds adj (advance adj s) := by
  have hsucc : ∀ {k}, k ≤ s.d + 1 ↔ k ≤ s.d ∨ k = s.d + 1 := by omega
  refine ⟨fun v o => ?_, fun v k => ?_, fun v => ?_⟩
  · simp only [Extractor.advance, or_eq_some_iff]
    constructor
    · rintro (ho | ⟨_, ho⟩)
      · obtain ⟨hv, hleast⟩ := h.next.mp ho
        exact ⟨s.d + 1, le_rfl, hv, hleast⟩
      · obtain ⟨k, hk, hv, hleast⟩ := (h.owner v o).mp ho
        exact ⟨k, Nat.le_succ_of_le hk, hv, hleast⟩
    · rintro ⟨k, hk, hv, hleast⟩
      rcases hsucc.mp hk with hk | rfl
      · refine .inr ⟨?_, (h.owner v o).mpr ⟨k, hk, hv, hleast⟩⟩
        rw [← not_isSome_iff_eq_none, h.next_isSome]
        intro hv'
        have := dist_unique hv hv'
        omega
      · exact .inl (h.next.mpr ⟨hv, hleast⟩)
  · simp only [Extractor.advance]
    split_ifs with hv
    all_goals rw [h.next_isSome] at hv
    · constructor
      · intro hk
        cases hk
        exact ⟨le_rfl, hv⟩
      · rintro ⟨_, hk⟩
        rw [dist_unique hv hk]
    · rw [h.distance]
      constructor
      · rintro ⟨hk, hdist⟩
        exact ⟨Nat.le_succ_of_le hk, hdist⟩
      · rintro ⟨hk, hdist⟩
        rcases hsucc.mp hk with hk | rfl
        · exact ⟨hk, hdist⟩
        · exact absurd hdist hv
  · simp only [Extractor.advance, AList.mem_keys.symm.trans (AList.lookup_isSome.symm.trans h.next_isSome)]

end

theorem Searched.search : ∀ (fuel : ℕ) {s : Layers n}, Searched seeds adj s →
    Searched seeds adj (search adj fuel s)
  | 0, _, h => h
  | fuel + 1, s, h => by
    unfold Extractor.search
    split_ifs
    · exact h
    · exact Searched.search fuel h.advance

/-! ### The partition -/

/-- Some seed reaches the node. -/
def Reachable (seeds : List (Seed n)) (adj : Dict (Fin n) (List (Fin n))) (v : Fin n) : Prop :=
  ∃ i u, SeedAt seeds i u ∧ Relation.ReflTransGen (Edge adj) u v

theorem reachable_iff_exists_dist : Reachable seeds adj v ↔ ∃ d, SeedDist seeds adj d v := by
  constructor
  · rintro ⟨i, u, hseed, hreach⟩
    obtain ⟨d, hwalk⟩ := exists_walk_iff.mpr hreach
    obtain ⟨k, _, hdist⟩ := exists_dist ⟨u, hseed, hwalk⟩
    exact ⟨k, hdist⟩
  · rintro ⟨d, ⟨i, u, hseed, hwalk⟩, _⟩
    exact ⟨i, u, hseed, exists_walk_iff.mp ⟨d, hwalk⟩⟩

/-- At the end of the search the bound on the distance is gone. -/
theorem searched_owner_iff {o : ℕ} : (searched seeds adj).owner v = some o ↔
    ∃ d, (searched seeds adj).distance v = some d ∧ SeedDist seeds adj d v ∧
      IsLeast {i | SeedReaches seeds adj d i v} o := by
  have h : Searched seeds adj (searched seeds adj) := (initLayers_searched seeds adj).search (n + 1)
  rw [h.owner]
  constructor
  · rintro ⟨k, hk, hdist, ho⟩
    exact ⟨k, (h.distance v k).mpr ⟨hk, hdist⟩, hdist, ho⟩
  · rintro ⟨k, hk, hdist, ho⟩
    exact ⟨k, ((h.distance v k).mp hk).1, hdist, ho⟩

theorem searched_distance {d : ℕ} (hv : SeedDist seeds adj d v) :
    (searched seeds adj).distance v = some d := by
  have h : Searched seeds adj (searched seeds adj) := (initLayers_searched seeds adj).search (n + 1)
  have hend : ∀ w, ¬ SeedDist seeds adj (searched seeds adj).d w := by
    intro w hw
    have hmem := (h.layer w).mpr hw
    rw [searched_done] at hmem
    cases hmem
  refine (h.distance v d).mpr ⟨?_, hv⟩
  by_contra hlt
  exact no_dist_of_empty hend d (le_of_not_ge hlt) v hv

theorem searched_isSome_iff : ((searched seeds adj).owner v).isSome ↔ Reachable seeds adj v := by
  rw [reachable_iff_exists_dist, isSome_iff_exists]
  constructor
  · rintro ⟨o, ho⟩
    obtain ⟨d, _, hdist, _⟩ := searched_owner_iff.mp ho
    exact ⟨d, hdist⟩
  · rintro ⟨d, hdist⟩
    obtain ⟨o, ho⟩ := exists_isLeast_nat hdist.1
    exact ⟨o, searched_owner_iff.mpr ⟨d, searched_distance hdist, hdist, ho⟩⟩

theorem mem_regions {o : ℕ} :
    v ∈ (buildAcfgVoronoiRegions seeds adj).regionsBySancov o ↔ (searched seeds adj).owner v = some o := by
  simp [buildAcfgVoronoiRegions]

theorem seed_unique (hdistinct : (seeds.filterMap (·.nodeIndex)).Nodup) {seed other : Seed n}
    (hseed : seed ∈ seeds) (hother : other ∈ seeds) {u : Fin n} (hu : seed.nodeIndex = some u)
    (hu' : other.nodeIndex = some u) : seed = other := by
  have hpair := pairwise_filterMap.mp hdistinct
  clear hdistinct
  induction hpair with
  | nil => cases hseed
  | cons hhead _ ih =>
    rcases mem_cons.mp hseed with rfl | hs
    · rcases mem_cons.mp hother with rfl | ho
      · rfl
      · exact absurd rfl (hhead _ ho u hu u hu')
    · rcases mem_cons.mp hother with rfl | ho
      · exact absurd rfl (hhead _ hs u hu' u hu)
      · exact ih hs ho

/-- Where the seeds sit at different nodes, a seed is the only one at distance zero of its node. -/
theorem searched_seed (adj : Dict (Fin n) (List (Fin n)))
    (hdistinct : (seeds.filterMap (·.nodeIndex)).Nodup) {seed : Seed n} (hseed : seed ∈ seeds)
    {u : Fin n} (hu : seed.nodeIndex = some u) :
    (searched seeds adj).owner u = some seed.sancovIndex ∧ (searched seeds adj).distance u = some 0 := by
  have hat : SeedAt seeds seed.sancovIndex u := ⟨seed, hseed, rfl, hu⟩
  have hdist : SeedDist seeds adj 0 u := dist_zero.mpr ⟨_, hat⟩
  refine ⟨searched_owner_iff.mpr ⟨0, searched_distance hdist, hdist, ?_⟩, searched_distance hdist⟩
  simp only [reaches_zero]
  refine ⟨hat, ?_⟩
  rintro i ⟨other, hother, rfl, hnode⟩
  rw [seed_unique hdistinct hseed hother hu hnode]

/-- The regions are the Voronoi partition of the nodes that the seeds reach: every such node belongs
    to the smallest of its nearest seeds, the others are unassigned, every seed owns its own node,
    and the regions are disjoint and cover what is assigned. -/
theorem voronoi_partition (seeds : List (Seed n)) (adj : Dict (Fin n) (List (Fin n)))
    (hdistinct : (seeds.filterMap (·.nodeIndex)).Nodup) :
    (∀ v, Reachable seeds adj v → ∃ info d,
      (buildAcfgVoronoiRegions seeds adj).nodeAssignment v = some info ∧ info.distance = some d ∧
      SeedDist seeds adj d v ∧ IsLeast {i | SeedReaches seeds adj d i v} info.owner ∧
      ∀ o, v ∈ (buildAcfgVoronoiRegions seeds adj).regionsBySancov o ↔ o = info.owner) ∧
    (∀ v, v ∈ (buildAcfgVoronoiRegions seeds adj).unassigned ↔ ¬ Reachable seeds adj v) ∧
    (∀ seed ∈ seeds, ∀ u, seed.nodeIndex = some u → (buildAcfgVoronoiRegions seeds adj).nodeAssignment u
        = some { owner := seed.sancovIndex, distance := some 0 } ∧
      u ∈ (buildAcfgVoronoiRegions seeds adj).regionsBySancov seed.sancovIndex) ∧
    (∀ o p, o ≠ p → List.Disjoint ((buildAcfgVoronoiRegions seeds adj).regionsBySancov o)
      ((buildAcfgVoronoiRegions seeds adj).regionsBySancov p)) ∧
    (∀ v, ((buildAcfgVoronoiRegions seeds adj).nodeAssignment v).isSome ↔
      ∃ o, v ∈ (buildAcfgVoronoiRegions seeds adj).regionsBySancov o) := by
  refine ⟨fun v hv => ?_, fun v => ?_, fun seed hseed u hu => ?_, fun o p hne v ho hp => ?_, fun v => ?_⟩
  · obtain ⟨o, ho⟩ := isSome_iff_exists.mp (searched_isSome_iff.mpr hv)
    obtain ⟨d, hd, hdist, hleast⟩ := searched_owner_iff.mp ho
    refine ⟨{ owner := o, distance := some d }, d, ?_, rfl, hdist, hleast, fun p => ?_⟩
    · simp [buildAcfgVoronoiRegions, ho, hd]
    · rw [mem_regions, ho, Option.some.injEq, eq_comm]
  · rw [← searched_isSome_iff]
    simp [buildAcfgVoronoiRegions]
  · obtain ⟨howner, hdistance⟩ := searched_seed adj hdistinct hseed hu
    exact ⟨by simp [buildAcfgVoronoiRegions, howner, hdistance], mem_regions.mpr howner⟩
  · rw [mem_regions] at ho hp
    exact hne (Option.some.inj (ho.symm.trans hp))
  · simp only [mem_regions, ← isSome_iff_exists]
    simp [buildAcfgVoronoiRegions]

namespace Demo

/-- Two seeds, the greater index at the first node, and a third site without a block. -/
def sites : List (Seed 3) :=
  [{ sancovIndex := 0, pc := "0x20", bbStart := some "0x20", nodeIndex := some 1 },
   { sancovIndex := 1, pc := "0x10", bbStart := some "0x10", nodeIndex := some 0 },
   { sancovIndex := 2, pc := "0x99", bbStart := none, nodeIndex := none, note := some "no_bb" }]

/-- Both seeds lead to the third node, which leads back to the first. -/
def diamond : Dict (Fin 3) (List (Fin 3)) := addEdge (addEdge (addEdge ∅ 0 2) 1 2) 2 0

end Demo

theorem voronoi_partition_demo : (Demo.sites.filterMap (·.nodeIndex)).Nodup ∧ ∃ info d,
    (buildAcfgVoronoiRegions Demo.sites Demo.diamond).nodeAssignment 2 = some info ∧
    info.distance = some d ∧ SeedDist Demo.sites Demo.diamond d 2 ∧
    IsLeast {i | SeedReaches Demo.sites Demo.diamond d i 2} info.owner := by
  have hdistinct : (Demo.sites.filterMap (·.nodeIndex)).Nodup := by decide
  have hreach : Reachable Demo.sites Demo.diamond 2 :=
    ⟨0, 1, ⟨_, mem_cons_self, rfl, rfl⟩, .single (by decide)⟩
  obtain ⟨info, d, hinfo, hd, hdist, hleast, _⟩ :=
    (voronoi_partition Demo.sites Demo.diamond hdistinct).1 2 hreach
  exact ⟨hdistinct, info, d, hinfo, hd, hdist, hleast⟩

end Bofuzz.Extractor
