import Bofuzz.Extractor.LoopDominators
import Bofuzz.Lib.BreadthFirst
import Bofuzz.Lib.ShortestPath

/-! The centrality of a block (`static_analysis/features_extractor.py`).

    From every block a breadth-first search counts the shortest paths and notes on each block its
    predecessors on them; then the blocks are taken in the opposite order, and each hands on its
    dependency to its predecessors. The sum over all sources is the betweenness
    (`centrality_is_betweenness`). -/

namespace Bofuzz.Extractor
open Loop Relation Distance BreadthFirst PathCount ShortestPath List Function

variable {K : Type} [Field K]

/-! ### The program -/

def centralityExactMax : ℕ := 3000

def centralitySampleMax : ℕ := 3000

/-- The search from one block: the blocks in the order in which they were taken, and dictionaries
    with the defaults `[]`, `0.0` and `-1`. -/
structure Sweep (K : Type) where
  stack : List ℕ
  preds : ℕ → List ℕ
  sigma : ℕ → K
  dist : ℕ → ℤ
  queue : List ℕ

def Sweep.start (s : ℕ) : Sweep K where
  stack := []
  preds := fun _ => []
  sigma := Function.update (fun _ => 0) s 1
  dist := Function.update (fun _ => -1) s 0
  queue := [s]

variable (st : Sweep K)

/-- A block that has no distance yet gets one. -/
def Sweep.reach (v w : ℕ) : Sweep K :=
  if st.dist w < 0 then
    { st with dist := Function.update st.dist w (st.dist v + 1), queue := st.queue ++ [w] }
  else st

/-- The shortest paths by way of `v`. -/
def Sweep.count (v w : ℕ) : Sweep K :=
  if st.dist w = st.dist v + 1 then
    { st with sigma := Function.update st.sigma w (st.sigma w + st.sigma v)
              preds := Function.update st.preds w (st.preds w ++ [v]) }
  else st

variable (cfg : Cfg) (nodeSet : Finset ℕ)

def visitSucc (v : ℕ) (st : Sweep K) (w : ℕ) : Sweep K :=
  if w ∈ nodeSet then (st.reach v w).count v w else st

def sweepRound (st : Sweep K) : Sweep K :=
  match st.queue with
  | [] => st
  | v :: queue =>
    ((cfg.lookup v).getD []).foldl (visitSucc nodeSet v) { st with stack := st.stack ++ [v], queue }

def sweep (s : ℕ) : Prog (Sweep K) :=
  whileLoop (fun st => !st.queue.isEmpty) (sweepRound cfg nodeSet) (Sweep.start s)

section
variable [LinearOrder K]

/-- The dependencies on the way back, and the sums over the sources so far. -/
structure Unwound (K : Type) where
  delta : ℕ → K
  btwAcc : ℕ → K

/-- A block hands its dependency on to its predecessors. -/
def unwindNode (s : ℕ) (u : Unwound K) (w : ℕ) : Unwound K :=
  let delta := (st.preds w).foldl (fun delta v =>
    if st.sigma w > 0 then
      Function.update delta v (delta v + st.sigma v / st.sigma w * (1 + delta w))
    else delta) u.delta
  { delta := delta
    btwAcc := if w ≠ s then Function.update u.btwAcc w (u.btwAcc w + delta w) else u.btwAcc }

/-- `S` is taken from its end until it is empty. -/
def unwind (s : ℕ) (btwAcc : ℕ → K) : Unwound K :=
  st.stack.reverse.foldl (unwindNode st s) { delta := fun _ => 0, btwAcc := btwAcc }

def addDependencies (btwAcc : ℕ → K) (s : ℕ) : Prog (ℕ → K) := do
  let st ← sweep cfg nodeSet s
  pure (unwind st s btwAcc).btwAcc

/-- `sample nodes k` is what the seeded generator draws. -/
def computeCentralityFeature (sample : List ℕ → ℕ → List ℕ) (cfg : Cfg) (blocks : Blocks K) :
    Prog (Blocks K) := do
  let nodes := blocks.map Prod.fst
  let n := nodes.length
  if n = 0 then pure blocks
  else
    let sampleNodes :=
      if n > centralityExactMax then sample nodes (min centralitySampleMax n) else nodes
    let btwAcc ← sampleNodes.foldlM (addDependencies cfg nodes.toFinset) fun _ => 0
    let sampleSize := sampleNodes.length
    let scale : K := if sampleSize > 0 ∧ sampleSize < n then n / sampleSize else 1
    let norm : ℤ := if n > 1 then ((sampleSize : ℤ) - 1) * (n - 1) else 1
    let norm : ℤ := if norm ≤ 0 then 1 else norm
    pure (blocks.map fun b => (b.1, b.2.setRawAttr "centrality" (btwAcc b.1 * scale / norm)))

end

/-! ### Visiting the successors of a block -/

namespace Sweep

/-- What visiting successors does, in terms of what was before. -/
structure Visited (x : ℕ) (ys : List ℕ) (st t : Sweep K) : Prop where
  stack : t.stack = st.stack
  queue : t.queue = st.queue ++ ys.filter fun w => w ∈ nodeSet ∧ st.dist w < 0
  dist : ∀ w, t.dist w = if w ∈ ys ∧ w ∈ nodeSet ∧ st.dist w < 0 then st.dist x + 1 else st.dist w
  sigma : ∀ w, t.sigma w = st.sigma w +
    if w ∈ ys ∧ w ∈ nodeSet ∧ (st.dist w < 0 ∨ st.dist w = st.dist x + 1) then st.sigma x else 0
  preds : ∀ w, t.preds w = st.preds w ++
    if w ∈ ys ∧ w ∈ nodeSet ∧ (st.dist w < 0 ∨ st.dist w = st.dist x + 1) then [x] else []

section
variable {nodeSet} {x y : ℕ} {ys : List ℕ} {st t : Sweep K}

theorem visited_single (hx : 0 ≤ st.dist x) :
    Visited nodeSet x [y] st (visitSucc nodeSet x st y) := by
  by_cases hy : y ∈ nodeSet
  · rw [visitSucc, if_pos hy]
    by_cases hfresh : st.dist y < 0
    · have hne : x ≠ y := by
        rintro rfl
        omega
      have hreach : st.reach x y = { st with
          dist := update st.dist y (st.dist x + 1), queue := st.queue ++ [y] } := if_pos hfresh
      rw [hreach, count, if_pos (by simp [update_of_ne hne])]
      refine ⟨rfl, by simp [hy, hfresh], fun w => ?_, fun w => ?_, fun w => ?_⟩
      all_goals by_cases hw : w = y
      all_goals simp [hw, hy, hfresh]
    · have hreach : st.reach x y = st := if_neg hfresh
      rw [hreach, count]
      split_ifs with hnext
      · refine ⟨rfl, by simp [hfresh], fun w => ?_, fun w => ?_, fun w => ?_⟩
        all_goals by_cases hw : w = y
        all_goals simp [hw, hy, hnext]
      · refine ⟨rfl, by simp [hfresh], fun w => ?_, fun w => ?_, fun w => ?_⟩
        all_goals by_cases hw : w = y
        all_goals simp [hw, hfresh, hnext]
  · rw [visitSucc, if_neg hy]
    refine ⟨rfl, by simp [hy], fun w => ?_, fun w => ?_, fun w => ?_⟩
    all_goals by_cases hw : w = y
    all_goals simp [hw, hy]

theorem Visited.self (h : Visited nodeSet x ys st t) (hx : 0 ≤ st.dist x) :
    t.dist x = st.dist x ∧ t.sigma x = st.sigma x := by
  have hnot : ¬ st.dist x < 0 := by omega
  have hnext : ¬ st.dist x = st.dist x + 1 := by omega
  refine ⟨?_, ?_⟩
  · rw [h.dist, if_neg fun hand => hnot hand.2.2]
  · rw [h.sigma, if_neg fun hand => hand.2.2.elim hnot hnext, add_zero]

theorem visited_foldl (hnodup : ys.Nodup) (hx : 0 ≤ st.dist x) :
    Visited nodeSet x ys st (ys.foldl (visitSucc nodeSet x) st) := by
  induction ys generalizing st with
  | nil => exact ⟨rfl, by simp, by simp, by simp, by simp⟩
  | cons y ys ih =>
    obtain ⟨hy, hys⟩ := nodup_cons.mp hnodup
    have hfirst : Visited nodeSet x [y] st (visitSucc nodeSet x st y) := visited_single hx
    obtain ⟨hdist, hsigma⟩ := hfirst.self hx
    have hrest := ih hys (hdist.symm ▸ hx)
    -- the other successors are not touched by the first visit
    have hsame : ∀ w ∈ ys, w ∉ [y] ∧ (visitSucc nodeSet x st y).dist w = st.dist w := by
      intro w hw
      have hwy : w ∉ [y] := mt mem_singleton.mp (ne_of_mem_of_not_mem hw hy)
      exact ⟨hwy, by rw [hfirst.dist, if_neg fun hand => hwy hand.1]⟩
    have hmem : ∀ w, w ∈ y :: ys ↔ w ∈ [y] ∨ w ∈ ys := fun w => by simp
    rw [foldl_cons]
    refine ⟨hrest.stack.trans hfirst.stack, ?_, fun w => ?_, fun w => ?_, fun w => ?_⟩
    · have hfilter : ys.filter (fun w => w ∈ nodeSet ∧ (visitSucc nodeSet x st y).dist w < 0) =
          ys.filter fun w => w ∈ nodeSet ∧ st.dist w < 0 :=
        filter_congr fun w hw => by rw [(hsame w hw).2]
      rw [hrest.queue, hfirst.queue, hfilter, append_assoc, ← filter_append, singleton_append]
    · rw [hrest.dist, hdist]
      by_cases hw : w ∈ ys
      · simp only [hmem, (hsame w hw).2, hw, or_true, true_and]
      · simp only [hmem, hw, false_and, if_false, or_false]
        exact hfirst.dist w
    · rw [hrest.sigma, hsigma, hdist, hfirst.sigma]
      by_cases hw : w ∈ ys
      · simp [hmem, (hsame w hw).2, (hsame w hw).1, hw]
      · simp [hmem, hw]
    · rw [hrest.preds, hdist, hfirst.preds]
      by_cases hw : w ∈ ys
      · simp [hmem, (hsame w hw).2, (hsame w hw).1, hw]
      · simp [hmem, hw]

end

end Sweep

/-! ### The search -/

section

open Classical in
/-- The number of shortest paths from a block. -/
noncomputable def shortestPaths (s w : ℕ) : ℕ :=
  PathCount.sigma (Tight (FuncEdge cfg nodeSet) s) (reachedSet (FuncEdge cfg nodeSet) nodeSet s)
    (level (FuncEdge cfg nodeSet) s) s w

open Classical in
/-- The blocks of a list that are on a shortest path just before a block. -/
noncomputable def before (s : ℕ) (stack : List ℕ) (w : ℕ) : List ℕ :=
  stack.filter fun v => Tight (FuncEdge cfg nodeSet) s v w

/-- Where the search stands: a breadth-first search, with the predecessors and the numbers of
    shortest paths as far as the blocks that were taken account for them. -/
structure Sweeping (s : ℕ) (st : Sweep K) : Prop where
  search : Search (FuncEdge cfg nodeSet) (Source s) (fun v => (st.dist v).toNat) st.stack st.queue
  found : ∀ v, v ∈ st.stack ++ st.queue ↔ 0 ≤ st.dist v
  nodup : (st.stack ++ st.queue).Nodup
  blocks : ∀ v ∈ st.stack ++ st.queue, v ∈ nodeSet
  preds : ∀ w, st.preds w = before cfg nodeSet s st.stack w
  sigma : ∀ w, st.sigma w = (if w = s then 1 else 0) +
    ((before cfg nodeSet s st.stack w).map fun v => (shortestPaths cfg nodeSet s v : K)).sum

variable {cfg nodeSet} {s v w x : ℕ} {st : Sweep K} {stack rest : List ℕ}

variable (cfg) in
theorem funcEdge_layered (hs : s ∈ nodeSet) : Layered (Tight (FuncEdge cfg nodeSet) s)
    (reachedSet (FuncEdge cfg nodeSet) nodeSet s) (level (FuncEdge cfg nodeSet) s) s :=
  layered hs fun _ _ h => h.mem

open Classical in
theorem mem_before :
    v ∈ before cfg nodeSet s stack w ↔ v ∈ stack ∧ Tight (FuncEdge cfg nodeSet) s v w := by
  rw [before, mem_filter, decide_eq_true_eq]

open Classical in
theorem before_concat : before cfg nodeSet s (stack ++ [x]) w =
    before cfg nodeSet s stack w ++ if Tight (FuncEdge cfg nodeSet) s x w then [x] else [] := by
  rw [before, filter_append]
  congr 1
  by_cases h : Tight (FuncEdge cfg nodeSet) s x w <;> simp [h]

theorem sweeping_start (hs : s ∈ nodeSet) : Sweeping cfg nodeSet s (Sweep.start s : Sweep K) where
  search := by
    refine search_start (fun v hv => ?_) fun v => ?_
    · obtain rfl := mem_singleton.mp hv
      simp [Sweep.start]
    · exact mem_singleton.trans (Unique.exists_iff (p := (Source s · v))).symm
  found v := by
    by_cases hv : v = s
    · simp [Sweep.start, hv]
    · simp [Sweep.start, hv]
  nodup := by simp [Sweep.start]
  blocks := forall_mem_singleton.mpr hs
  preds w := by simp [Sweep.start, before]
  sigma w := by
    by_cases hw : w = s
    · simp [Sweep.start, before, hw]
    · simp [Sweep.start, before, hw]

/-- The numbers of a block whose predecessors have all been taken. -/
theorem sigma_of_before (hs : s ∈ nodeSet) (hnodup : stack.Nodup)
    (hw : w ∈ reachedSet (FuncEdge cfg nodeSet) nodeSet s)
    (hall : ∀ u, Tight (FuncEdge cfg nodeSet) s u w → u ∈ stack) :
    (if w = s then 1 else 0) + ((before cfg nodeSet s stack w).map fun v =>
      (shortestPaths cfg nodeSet s v : K)).sum = shortestPaths cfg nodeSet s w := by
  classical
  have hlayered := funcEdge_layered cfg hs
  by_cases hws : w = s
  · have hnone : before cfg nodeSet s stack w = [] := by
      refine eq_nil_iff_forall_not_mem.mpr fun u hu => ?_
      have hlevel := (mem_before.mp hu).2.2.2
      rw [hws, level_source] at hlevel
      cases hlevel
    rw [hnone, hws, if_pos rfl, shortestPaths, hlayered.sigma_source]
    simp
  · have hset : (before cfg nodeSet s stack w).toFinset =
        (reachedSet (FuncEdge cfg nodeSet) nodeSet s).filter (Tight (FuncEdge cfg nodeSet) s · w) := by
      ext u
      rw [mem_toFinset, mem_before, Finset.mem_filter]
      exact and_congr_left fun hu => ⟨fun _ => (hlayered.mem u w hu).1, fun _ => hall u hu⟩
    have hbefore : (before cfg nodeSet s stack w).Nodup := hnodup.filter _
    rw [if_neg hws, zero_add, ← sum_toFinset _ hbefore, hset, shortestPaths,
      hlayered.sigma_rec hw hws, Nat.cast_sum]
    rfl

namespace Sweeping

section
variable (h : Sweeping cfg nodeSet s st)
include h

/-- What has a distance is reached, and the distance is its layer. -/
theorem level_eq (hv : v ∈ st.stack ++ st.queue) :
    Reached (FuncEdge cfg nodeSet) s v ∧ (level (FuncEdge cfg nodeSet) s v : ℤ) = st.dist v := by
  have hexact := h.search.exact v hv
  refine ⟨⟨_, hexact⟩, ?_⟩
  rw [ShortestPath.level_eq hexact]
  exact Int.toNat_of_nonneg ((h.found v).mp hv)

theorem tight_iff (hqueue : st.queue = x :: rest) :
    (w ∈ (cfg.lookup x).getD [] ∧ w ∈ nodeSet ∧ (st.dist w < 0 ∨ st.dist w = st.dist x + 1)) ↔
      Tight (FuncEdge cfg nodeSet) s x w := by
  have hx : x ∈ st.stack ++ st.queue := by simp [hqueue]
  obtain ⟨hreached, hlevel⟩ := h.level_eq hx
  rw [mem_lookup_iff_edge]
  have hlayer : FuncEdge cfg nodeSet x w → ((st.dist w < 0 ∨ st.dist w = st.dist x + 1) ↔
      level (FuncEdge cfg nodeSet) s w = level (FuncEdge cfg nodeSet) s x + 1) := by
    intro hedge
    by_cases hw : w ∈ st.stack ++ st.queue
    · have hlevel' := (h.level_eq hw).2
      omega
    have hneg : st.dist w < 0 := not_le.mp fun hle => hw ((h.found w).mpr hle)
    have hsearch := h.search
    rw [hqueue] at hsearch hw
    have hnew := ShortestPath.level_eq (hsearch.dist_new hedge hw)
    omega
  constructor
  · rintro ⟨hedge, hwB, hdist⟩
    have hfunc : FuncEdge cfg nodeSet x w := ⟨h.blocks x hx, hwB, hedge⟩
    exact ⟨hfunc, hreached, (hlayer hfunc).mp hdist⟩
  · rintro ⟨hfunc, -, hnext⟩
    exact ⟨hfunc.2.2, hfunc.2.1, (hlayer hfunc).mpr hnext⟩

/-- The number of the block that is taken is final. -/
theorem sigma_front (hs : s ∈ nodeSet) (hqueue : st.queue = x :: rest) :
    st.sigma x = shortestPaths cfg nodeSet s x := by
  have hx : x ∈ st.stack ++ st.queue := by simp [hqueue]
  obtain ⟨hreached, hlevel⟩ := h.level_eq hx
  rw [h.sigma, sigma_of_before hs (nodup_append.mp h.nodup).1 (mem_reachedSet.mpr ⟨h.blocks x hx, hreached⟩)]
  rintro u ⟨-, hu, hnext⟩
  have hsearch := h.search
  rw [hqueue] at hsearch
  exact hsearch.mem_done_of_lt hu.dist (by omega)

theorem round (hs : s ∈ nodeSet) (hsucc : ((cfg.lookup x).getD []).Nodup)
    (hqueue : st.queue = x :: rest) :
    Sweeping cfg nodeSet s (sweepRound cfg nodeSet st) ∧
      (sweepRound cfg nodeSet st).stack = st.stack ++ [x] := by
  classical
  have hx : x ∈ st.stack ++ st.queue := by simp [hqueue]
  have hround : sweepRound cfg nodeSet st = ((cfg.lookup x).getD []).foldl (visitSucc nodeSet x)
      { st with stack := st.stack ++ [x], queue := rest } := by
    rw [sweepRound, hqueue]
  have hvisited : Sweep.Visited nodeSet x ((cfg.lookup x).getD [])
      { st with stack := st.stack ++ [x], queue := rest } (sweepRound cfg nodeSet st) := by
    rw [hround]
    exact Sweep.visited_foldl hsucc ((h.found x).mp hx)
  generalize sweepRound cfg nodeSet st = t at hvisited
  obtain ⟨new, hnew⟩ : ∃ new, new = ((cfg.lookup x).getD []).filter fun w => w ∈ nodeSet ∧ st.dist w < 0 :=
    ⟨_, rfl⟩
  have hstack : t.stack = st.stack ++ [x] := hvisited.stack
  have htqueue : t.queue = rest ++ new := hvisited.queue.trans (by rw [hnew])
  have hlist : t.stack ++ t.queue = (st.stack ++ st.queue) ++ new := by
    rw [hstack, htqueue, hqueue]
    simp
  have hmem : ∀ w, w ∈ new ↔ FuncEdge cfg nodeSet x w ∧ w ∉ st.stack ++ st.queue := by
    intro w
    rw [hnew, mem_filter, mem_lookup_iff_edge, decide_eq_true_eq, h.found, not_le]
    exact ⟨fun hw => ⟨⟨h.blocks x hx, hw.2.1, hw.1⟩, hw.2.2⟩, fun hw => ⟨hw.1.2.2, hw.1.2.1, hw.2⟩⟩
  have hdist : ∀ w, t.dist w = if w ∈ new then st.dist x + 1 else st.dist w := by
    intro w
    rw [hvisited.dist]
    refine if_congr ?_ rfl rfl
    rw [hnew, mem_filter, decide_eq_true_eq]
  have hxpos : 0 ≤ st.dist x := (h.found x).mp hx
  refine ⟨⟨?_, ?_, ?_, ?_, ?_, ?_⟩, hstack⟩
  · have hsearch := h.search
    rw [hqueue] at hsearch hmem
    rw [hstack, htqueue]
    refine hsearch.step hmem (fun w hw => ?_) fun w hw => ?_
    · rw [hdist, if_neg fun hwnew => ((hmem w).mp hwnew).2 hw]
    · rw [hdist, if_pos hw]
      omega
  · intro w
    rw [hlist, mem_append, h.found, hdist]
    by_cases hw : w ∈ new
    · simp only [hw, or_true, if_true, true_iff]
      omega
    · simp [hw]
  · rw [hlist, nodup_append]
    refine ⟨h.nodup, hnew ▸ hsucc.filter _, fun a ha b hb hab => ?_⟩
    exact ((hmem b).mp hb).2 (hab ▸ ha)
  · rw [hlist]
    exact forall_mem_append.mpr ⟨h.blocks, fun w hw => ((hmem w).mp hw).1.2.1⟩
  · intro w
    rw [hvisited.preds, hstack, before_concat]
    rw [h.preds]
    congr 1
    exact if_congr (h.tight_iff hqueue) rfl rfl
  · intro w
    rw [hvisited.sigma, hstack, before_concat, map_append, sum_append, ← add_assoc, ← h.sigma]
    congr 1
    rw [if_congr (h.tight_iff hqueue) rfl rfl]
    split_ifs
    · simp [h.sigma_front hs hqueue]
    · rfl

end

end Sweeping

/-- What the search leaves behind: the blocks that are reached, in the order of their layers, with
    their predecessors on shortest paths and the numbers of these. -/
structure Swept (cfg : Cfg) (nodeSet : Finset ℕ) (s : ℕ) (st : Sweep K) : Prop where
  mem : ∀ v, v ∈ st.stack ↔ v ∈ reachedSet (FuncEdge cfg nodeSet) nodeSet s
  nodup : st.stack.Nodup
  sorted : st.stack.Pairwise fun u v => level (FuncEdge cfg nodeSet) s u ≤ level (FuncEdge cfg nodeSet) s v
  preds : ∀ w, st.preds w = before cfg nodeSet s st.stack w
  sigma : ∀ w ∈ st.stack, st.sigma w = shortestPaths cfg nodeSet s w

theorem Sweeping.swept (hs : s ∈ nodeSet) (h : Sweeping cfg nodeSet s st) (hqueue : st.queue = []) :
    Swept cfg nodeSet s st := by
  have hsearch := h.search
  have hnodup := h.nodup
  rw [hqueue] at hsearch
  rw [hqueue, append_nil] at hnodup
  have hstack : ∀ v, v ∈ st.stack → v ∈ st.stack ++ st.queue := fun v hv => mem_append_left _ hv
  have hmem : ∀ v, v ∈ st.stack ↔ v ∈ reachedSet (FuncEdge cfg nodeSet) nodeSet s := by
    intro v
    rw [mem_reachedSet]
    constructor
    · exact fun hv => ⟨h.blocks v (hstack v hv), (h.level_eq (hstack v hv)).1⟩
    · rintro ⟨-, d, hdist⟩
      exact (hsearch.dist_iff.mp hdist).1
  refine ⟨hmem, hnodup, ?_, h.preds, fun w hw => ?_⟩
  · have hsorted := hsearch.sorted
    rw [append_nil] at hsorted
    refine hsorted.imp_of_mem fun hu hv hle => ?_
    have hu' := (h.level_eq (hstack _ hu)).2
    have hv' := (h.level_eq (hstack _ hv)).2
    omega
  · rw [h.sigma, sigma_of_before hs hnodup ((hmem w).mp hw)]
    intro u hu
    exact (hmem u).mpr ((funcEdge_layered cfg hs).mem u w hu).1

theorem sweep_ends (hs : s ∈ nodeSet) (hsucc : ∀ v, ((cfg.lookup v).getD []).Nodup) :
    Ends (sweep cfg nodeSet s : Prog (Sweep K)) (Swept cfg nodeSet s) := by
  refine (Ends.whileLoop (I := Sweeping cfg nodeSet s) (fun st => nodeSet.card - st.stack.length)
    (sweeping_start hs) ?_).mono ?_
  · intro st h hcond
    obtain ⟨x, rest, hqueue⟩ := exists_cons_of_ne_nil (by simpa using hcond)
    obtain ⟨hnext, hstack⟩ := h.round hs (hsucc x) hqueue
    refine ⟨hnext, ?_⟩
    -- the blocks that have a distance are different ones of the set
    have hle : (st.stack ++ st.queue).length ≤ nodeSet.card := by
      rw [← toFinset_card_of_nodup h.nodup]
      exact Finset.card_le_card fun v hv => h.blocks v (mem_toFinset.mp hv)
    rw [hqueue, length_append, length_cons] at hle
    rw [hstack, length_append, length_singleton]
    omega
  · rintro st ⟨h, hcond⟩
    exact h.swept hs (by simpa using hcond)

end

/-! ### The way back -/

section
variable [LinearOrder K]

open Classical in
/-- The dependency of a source on a block. -/
noncomputable def dependencyOn (s w : ℕ) : K :=
  dependency (Tight (FuncEdge cfg nodeSet) s) (reachedSet (FuncEdge cfg nodeSet) nodeSet s)
    (level (FuncEdge cfg nodeSet) s) s K w

variable {cfg nodeSet} {s v w : ℕ} {st : Sweep K} {rest : List ℕ} {btwAcc : ℕ → K}

omit [LinearOrder K] in
/-- Every predecessor gets its part, which depends on the block alone. -/
theorem foldl_hand {preds : List ℕ} (hnodup : preds.Nodup) (hw : w ∉ preds) (part : ℕ → K → K)
    (delta : ℕ → K) :
    preds.foldl (fun delta v => update delta v (delta v + part v (delta w))) delta v =
      delta v + if v ∈ preds then part v (delta w) else 0 := by
  induction preds generalizing delta with
  | nil => simp
  | cons u preds ih =>
    obtain ⟨hu, hpreds⟩ := nodup_cons.mp hnodup
    obtain ⟨hwu, hw'⟩ := ne_and_not_mem_of_not_mem_cons hw
    rw [foldl_cons, ih hpreds hw', update_of_ne hwu]
    by_cases hvu : v = u
    · simp [hvu, hu]
    · simp [hvu]

theorem unwindNode_eq {u : Unwound K} (hnodup : (st.preds w).Nodup) (hw : w ∉ st.preds w)
    (hpos : st.sigma w > 0) :
    (∀ v, (unwindNode st s u w).delta v = u.delta v +
      if v ∈ st.preds w then st.sigma v / st.sigma w * (1 + u.delta w) else 0) ∧
    ∀ v, (unwindNode st s u w).btwAcc v = u.btwAcc v + if v = w ∧ w ≠ s then u.delta w else 0 := by
  have hdelta : ∀ v, (unwindNode st s u w).delta v = u.delta v +
      if v ∈ st.preds w then st.sigma v / st.sigma w * (1 + u.delta w) else 0 := by
    intro v
    rw [unwindNode]
    simp only [if_pos hpos]
    exact foldl_hand hnodup hw (fun v d => st.sigma v / st.sigma w * (1 + d)) u.delta
  refine ⟨hdelta, fun v => ?_⟩
  have hself : (unwindNode st s u w).delta w = u.delta w := by
    rw [hdelta, if_neg hw, add_zero]
  have hacc : (unwindNode st s u w).btwAcc =
      if w ≠ s then update u.btwAcc w (u.btwAcc w + (unwindNode st s u w).delta w) else u.btwAcc := rfl
  rw [hacc, hself]
  by_cases hws : w = s
  · simp [hws]
  · by_cases hv : v = w
    · simp [hws, hv]
    · simp [hws, hv]

variable [IsStrictOrderedRing K]

open Classical in
/-- On the way back, every block has the dependency that the blocks behind it account for. -/
theorem Swept.unwind_suffix (hs : s ∈ nodeSet) (h : Swept cfg nodeSet s st) :
    ∀ (rest done : List ℕ), st.stack = done ++ rest →
      (∀ v ∈ st.stack, (rest.reverse.foldl (unwindNode st s) { delta := fun _ => 0, btwAcc := btwAcc }).delta v =
        ∑ w ∈ rest.toFinset.filter (Tight (FuncEdge cfg nodeSet) s v),
          (shortestPaths cfg nodeSet s v : K) / shortestPaths cfg nodeSet s w *
            (1 + dependencyOn cfg nodeSet s w)) ∧
      ∀ v, (rest.reverse.foldl (unwindNode st s) { delta := fun _ => 0, btwAcc := btwAcc }).btwAcc v =
        btwAcc v + if v ∈ rest ∧ v ≠ s then dependencyOn cfg nodeSet s v else 0 := by
  intro rest
  induction rest with
  | nil => exact fun done _ => ⟨fun v _ => by simp, fun v => by simp⟩
  | cons w rest ih =>
    intro done hstack
    have hlayered := funcEdge_layered cfg hs
    obtain ⟨hdelta, hacc⟩ := ih (done ++ [w]) (by rw [hstack, append_assoc, singleton_append])
    rw [reverse_cons, foldl_append, foldl_cons, foldl_nil]
    generalize rest.reverse.foldl (unwindNode st s) { delta := fun _ => 0, btwAcc := btwAcc } = u at hdelta hacc ⊢
    have hw : w ∈ st.stack := by simp [hstack]
    have hnodup := h.nodup
    rw [hstack] at hnodup
    have hwrest : w ∉ rest := (nodup_cons.mp (nodup_append.mp hnodup).2.1).1
    -- the blocks one layer above are all behind
    have hbehind : rest.toFinset.filter (Tight (FuncEdge cfg nodeSet) s w) =
        (reachedSet (FuncEdge cfg nodeSet) nodeSet s).filter (Tight (FuncEdge cfg nodeSet) s w) := by
      ext x
      rw [Finset.mem_filter, Finset.mem_filter, mem_toFinset]
      refine and_congr_left fun hx => ⟨fun hmem => (hlayered.mem w x hx).2, fun hmem => ?_⟩
      have hlevel := hlayered.graded w x hx
      have hsorted := h.sorted
      rw [hstack] at hsorted
      have hxstack := (h.mem x).mpr hmem
      rw [hstack] at hxstack
      obtain hxdone | hxrest := mem_append.mp hxstack
      · have hle := (pairwise_append.mp hsorted).2.2 x hxdone w mem_cons_self
        omega
      · obtain rfl | hxrest := mem_cons.mp hxrest
        · omega
        · exact hxrest
    have hfinal : u.delta w = dependencyOn cfg nodeSet s w := by
      rw [hdelta w hw, hbehind]
      exact hlayered.dependency_rec.symm
    have hpreds := h.preds w
    have hpos : st.sigma w > 0 := by
      rw [h.sigma w hw]
      exact Nat.cast_pos.mpr (hlayered.sigma_pos ((h.mem w).mp hw))
    have hself : w ∉ st.preds w := by
      rw [hpreds, mem_before]
      rintro ⟨-, hloop⟩
      have hlevel := hlayered.graded w w hloop
      omega
    obtain ⟨hdelta', hacc'⟩ := unwindNode_eq (s := s) (u := u) (hpreds ▸ h.nodup.filter _) hself hpos
    refine ⟨fun v hv => ?_, fun v => ?_⟩
    · rw [hdelta', hdelta v hv, toFinset_cons, Finset.filter_insert, hfinal]
      by_cases hvw : Tight (FuncEdge cfg nodeSet) s v w
      · have hmem : v ∈ st.preds w := hpreds ▸ mem_before.mpr ⟨hv, hvw⟩
        rw [if_pos hmem, if_pos hvw, Finset.sum_insert (by simp [hwrest]), h.sigma v hv, h.sigma w hw, add_comm]
      · have hmem : v ∉ st.preds w := fun hv' => hvw (mem_before.mp (hpreds ▸ hv')).2
        rw [if_neg hmem, if_neg hvw, add_zero]
    · rw [hacc', hacc, hfinal]
      by_cases hvw : v = w
      · simp [hvw, hwrest]
      · simp [hvw]

/-- A source adds its dependencies on the other blocks that it reaches. -/
theorem addDependencies_ends (hs : s ∈ nodeSet) (hsucc : ∀ v, ((cfg.lookup v).getD []).Nodup) :
    Ends (addDependencies cfg nodeSet btwAcc s) fun btwAcc' => ∀ v, btwAcc' v = btwAcc v +
      if v ∈ reachedSet (FuncEdge cfg nodeSet) nodeSet s ∧ v ≠ s then dependencyOn cfg nodeSet s v else 0 := by
  refine (sweep_ends hs hsucc).bind fun st hst => Ends.pure fun v => ?_
  rw [unwind, (hst.unwind_suffix hs st.stack [] rfl).2]
  congr 1
  exact if_congr (and_congr_left' (hst.mem v)) rfl rfl

/-! ### The betweenness -/

end

open Classical in
/-- The shares of the shortest paths from a source to other blocks that go through a block. -/
noncomputable def pairDependencies (K : Type) [Field K] (cfg : Cfg) (nodeSet : Finset ℕ)
    (s w : ℕ) : K :=
  ∑ t ∈ ((nodeSet.erase w).erase s).filter (ReflTransGen (FuncEdge cfg nodeSet) s),
    ({p | IsShortestPath (FuncEdge cfg nodeSet) s t p ∧ w ∈ p}.ncard : K) /
      {p | IsShortestPath (FuncEdge cfg nodeSet) s t p}.ncard

/-- The sum over all pairs of other blocks. -/
noncomputable def betweenness (K : Type) [Field K] (cfg : Cfg) (nodeSet : Finset ℕ) (w : ℕ) : K :=
  ∑ s ∈ nodeSet.erase w, pairDependencies K cfg nodeSet s w

section
variable {cfg nodeSet} {s w : ℕ}

open Classical in
theorem dependencyOn_eq (hs : s ∈ nodeSet) (hw : w ≠ s) :
    (dependencyOn cfg nodeSet s w : K) = pairDependencies K cfg nodeSet s w := by
  have hends : ((reachedSet (FuncEdge cfg nodeSet) nodeSet s).erase w).erase s =
      ((nodeSet.erase w).erase s).filter (ReflTransGen (FuncEdge cfg nodeSet) s) := by
    ext t
    simp only [Finset.mem_erase, Finset.mem_filter, mem_reachedSet, reached_iff]
    tauto
  rw [dependencyOn, dependency_eq hs (fun _ _ h => h.mem) hw, hends, pairDependencies]

open Classical in
/-- No path goes through a block that is not reached. -/
theorem pairDependencies_eq_zero (hs : s ∈ nodeSet) (hw : w ≠ s)
    (hreached : w ∉ reachedSet (FuncEdge cfg nodeSet) nodeSet s) :
    pairDependencies K cfg nodeSet s w = 0 := by
  refine Finset.sum_eq_zero fun t ht => ?_
  have hnone : {p | IsShortestPath (FuncEdge cfg nodeSet) s t p ∧ w ∈ p} = ∅ := by
    refine Set.eq_empty_of_forall_notMem ?_
    rintro p ⟨hp, hmem⟩
    obtain rfl | ⟨u, hu⟩ :=
      ((isShortestPath_iff (reached_iff.mpr (Finset.mem_filter.mp ht).2)).mp hp).mem_cases hmem
    · exact hw rfl
    · exact hreached ((funcEdge_layered cfg hs).mem u w hu).2
  rw [hnone, Set.ncard_empty, Nat.cast_zero, zero_div]

theorem sum_sources {nodes : List ℕ} (hnodup : nodes.Nodup) (w : ℕ) :
    (nodes.map fun s => if w ≠ s then pairDependencies K cfg nodeSet s w else 0).sum =
      ∑ s ∈ nodes.toFinset.erase w, pairDependencies K cfg nodeSet s w := by
  rw [← sum_toFinset _ hnodup, ← Finset.sum_filter]
  congr 1
  ext s
  simp only [Finset.mem_filter, Finset.mem_erase, ne_comm, and_comm]

variable [LinearOrder K] [IsStrictOrderedRing K]

theorem foldlM_addDependencies_ends (sources : List ℕ) (hsources : ∀ s ∈ sources, s ∈ nodeSet)
    (hsucc : ∀ v, ((cfg.lookup v).getD []).Nodup) :
    Ends (sources.foldlM (addDependencies cfg nodeSet) fun _ => (0 : K)) fun btwAcc =>
      ∀ w, btwAcc w = (sources.map fun s => if w ≠ s then pairDependencies K cfg nodeSet s w else 0).sum := by
  refine Ends.foldlM (I := fun done (btwAcc : ℕ → K) => ∀ w, btwAcc w =
    (done.map fun s => if w ≠ s then pairDependencies K cfg nodeSet s w else 0).sum) (fun w => by simp) ?_
  intro done s hmem btwAcc hacc
  have hs := hsources s hmem
  refine (addDependencies_ends hs hsucc).mono fun btwAcc' hacc' w => ?_
  rw [hacc', hacc, map_append, sum_append, map_singleton, sum_singleton]
  congr 1
  by_cases hw : w = s
  · simp [hw]
  · by_cases hreached : w ∈ reachedSet (FuncEdge cfg nodeSet) nodeSet s
    · rw [if_pos ⟨hreached, hw⟩, if_pos hw, dependencyOn_eq hs hw]
    · rw [if_neg fun h => hreached h.1, if_pos hw, pairDependencies_eq_zero hs hw hreached]

omit [IsStrictOrderedRing K] in
/-- Every block is a source, so nothing is scaled. -/
theorem computeCentralityFeature_exact (sample : List ℕ → ℕ → List ℕ) (cfg : Cfg)
    {blocks : Blocks K} (hblocks : blocks.length ≠ 0)
    (hexact : blocks.length ≤ centralityExactMax) :
    computeCentralityFeature sample cfg blocks =
      ((blocks.map Prod.fst).foldlM (addDependencies cfg (blocks.map Prod.fst).toFinset) fun _ => (0 : K)) >>=
        fun btwAcc => pure (blocks.map fun b => (b.1, b.2.setRawAttr "centrality"
          (btwAcc b.1 / if blocks.length = 1 then 1 else ((blocks.length : K) - 1) ^ 2))) := by
  have hsample : ¬ blocks.length > centralityExactMax := by omega
  have hscale : ¬ (blocks.length > 0 ∧ blocks.length < blocks.length) := by omega
  simp only [computeCentralityFeature, length_map, if_neg hblocks, if_neg hsample, if_neg hscale, mul_one]
  by_cases hone : blocks.length = 1
  · simp [hone]
  have hmany : blocks.length > 1 := by omega
  have hpos : ¬ ((blocks.length : ℤ) - 1) * (blocks.length - 1) ≤ 0 :=
    not_le.mpr (mul_pos (by omega) (by omega))
  simp only [if_neg hone, if_pos hmany, if_neg hpos, Int.cast_mul, Int.cast_sub, Int.cast_natCast,
    Int.cast_one, sq]

/-- The centrality of a block is the betweenness: the sum over all pairs of other blocks of the
    share of the shortest paths that go through it, over the square of the number of other
    blocks. -/
theorem centrality_is_betweenness (sample : List ℕ → ℕ → List ℕ) (cfg : Cfg) (blocks : Blocks K)
    (hkeys : (blocks.map Prod.fst).Nodup) (hsucc : ∀ v, ((cfg.lookup v).getD []).Nodup)
    (hexact : blocks.length ≤ centralityExactMax) :
    Ends (computeCentralityFeature sample cfg blocks) fun result =>
      result.map Prod.fst = blocks.map Prod.fst ∧
      ∀ b ∈ result, b.2.getRawAttr "centrality" =
        some (betweenness K cfg (blocks.map Prod.fst).toFinset b.1 /
          if blocks.length = 1 then 1 else ((blocks.length : K) - 1) ^ 2) := by
  by_cases hzero : blocks.length = 0
  · rw [computeCentralityFeature, length_map, if_pos hzero]
    refine Ends.pure ⟨rfl, fun b hb => ?_⟩
    rw [length_eq_zero_iff.mp hzero] at hb
    cases hb
  · rw [computeCentralityFeature_exact sample cfg hzero hexact]
    refine (foldlM_addDependencies_ends (blocks.map Prod.fst) (fun s hs => mem_toFinset.mpr hs)
      hsucc).bind fun btwAcc hacc => Ends.pure ⟨?_, fun b hb => ?_⟩
    · rw [List.map_map]
      rfl
    · obtain ⟨b, -, rfl⟩ := mem_map.mp hb
      simp only [Block.getRawAttr, Block.setRawAttr, AList.lookup_insert, Option.getD_some, hacc,
        sum_sources hkeys]
      rfl

end

namespace Demo

/-- Two ways from the first block to the last. -/
def diamondCfg : Cfg := AList.insert 1 [2, 3] (AList.insert 2 [4] (AList.insert 3 [4] ∅))

def diamondBlocks : Blocks ℚ := [(1, {}), (2, {}), (3, {}), (4, {})]

theorem diamondCfg_nodup (v : ℕ) : ((diamondCfg.lookup v).getD []).Nodup := by
  cases hv : diamondCfg.lookup v with
  | none => exact nodup_nil
  | some succs =>
    have hmem : (⟨v, succs⟩ : Sigma fun _ : ℕ => List ℕ) ∈ [⟨1, [2, 3]⟩, ⟨2, [4]⟩, ⟨3, [4]⟩] :=
      AList.mem_lookup_iff.mp hv
    simp only [mem_cons, not_mem_nil, or_false, Sigma.mk.injEq, heq_eq_eq] at hmem
    obtain ⟨-, rfl⟩ | ⟨-, rfl⟩ | ⟨-, rfl⟩ := hmem <;> decide

end Demo

/-- A block on one of two ways has one half of the pair. -/
theorem centrality_diamond :
    Ends (computeCentralityFeature (fun nodes k => nodes.take k) Demo.diamondCfg Demo.diamondBlocks)
      (fun result => result.map (fun b => (b.1, b.2.getRawAttr "centrality")) =
        [(1, some 0), (2, some (1 / 18)), (3, some (1 / 18)), (4, some 0)]) ∧
    betweenness ℚ Demo.diamondCfg {1, 2, 3, 4} 2 = 1 / 2 := by
  have hends := centrality_is_betweenness (fun nodes k => nodes.take k) Demo.diamondCfg Demo.diamondBlocks
    (by decide) Demo.diamondCfg_nodup (by decide)
  obtain ⟨result, hresult, hmap⟩ := Option.map_eq_some_iff.mp (show
    (computeCentralityFeature (fun nodes k => nodes.take k) Demo.diamondCfg Demo.diamondBlocks 4).map
      (fun result => result.map fun b => (b.1, b.2.getRawAttr "centrality")) =
        some [(1, some 0), (2, some (1 / 18)), (3, some (1 / 18)), (4, some 0)] by decide +kernel)
  refine ⟨(hends.eq_of_eq_some hresult).mono fun _ h => h ▸ hmap, ?_⟩
  have hmem : (2, some (1 / 18 : ℚ)) ∈ result.map fun b => (b.1, b.2.getRawAttr "centrality") := by
    rw [hmap]
    simp
  obtain ⟨b, hb, heq⟩ := mem_map.mp hmem
  obtain ⟨hb1, hb2⟩ := Prod.mk.inj heq
  have hvalue := (hends.of_eq_some hresult).2 b hb
  rw [hb2, hb1] at hvalue
  have hnorm : (if Demo.diamondBlocks.length = 1 then 1 else ((Demo.diamondBlocks.length : ℚ) - 1) ^ 2) = 9 := by
    norm_num [Demo.diamondBlocks]
  have hhalf : (1 / 18 : ℚ) = betweenness ℚ Demo.diamondCfg {1, 2, 3, 4} 2 / 9 :=
    hnorm ▸ Option.some.inj hvalue
  linarith

end Bofuzz.Extractor
